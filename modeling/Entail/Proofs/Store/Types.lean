import Entail.Proofs.Store.Becomes
import Entail.Proofs.Store.Orderly

/-!
# Substitution keeps types

When terms are put for terms of their types, what is rebuilt above them has the type it had, whether
the new terms are closed or not. A live term is never deeper than the store has slots, and its parts
are live. So what a substitution refuses is an answer to its caller: the degree of a product can
grow too large.
-/

namespace Entail.Store

variable {s s' : Store} {σ : Subst} {α β : Type} {t : Term} {ty : Ty}

/-- From `s`, `op` only extends the store, what it answers is as `Q` says, and a refusal is an
answer to the caller. -/
structure Yields (s : Store) (op : Op α) (Q : α → Store → Prop) : Prop where
  builds : Builds s op Q
  fair : ∀ {e s'}, op s = .error e s' → e.Fair

namespace Yields

variable {op : Op α} {f : α → Op β} {P Q : α → Store → Prop} {R : β → Store → Prop}

theorem of_builds (h : Builds s op Q) (ho : Orderly op) : Yields s op Q := ⟨h, ho.fair⟩

/-- Only the run from `s` matters. -/
theorem of_eq {op' : Op α} (h : op' s = op s) (hop : Yields s op Q) : Yields s op' Q where
  builds := by
    unfold Builds Ends
    rw [h]
    exact hop.builds
  fair he := hop.fair (h.symm.trans he)

theorem pure (hw : s.Wf) {a : α} (ha : Q a s) : Yields s (pure a) Q := ⟨.pure hw ha, nofun⟩

theorem bind (h : Yields s op P) (hf : ∀ a s', Later s s' → P a s' → Yields s' (f a) R) :
    Yields s (op >>= f) R where
  builds := h.builds.bind fun a s' hs ha => (hf a s' hs ha).builds
  fair {e s'} he := by
    have hb := h.builds
    unfold Builds Ends at hb
    cases hop : op s with
    | ok a s₁ =>
      rw [hop] at hb
      rw [bind_of_ok hop] at he
      exact (hf a s₁ hb.1 hb.2).fair he
    | error e' s₁ =>
      rw [bind_of_error hop] at he
      cases he
      exact h.fair hop

theorem map (h : Yields s op P) {g : α → β} (hg : ∀ a s', Later s s' → P a s' → R (g a) s') :
    Yields s (g <$> op) R := by
  rw [← bind_pure_comp]
  exact bind h fun a s' hs ha => pure hs.wf (hg a s' hs ha)

end Yields

/-- With a memory of terms of the right types, the operation yields what `Q` says, and the
memory stays so. -/
def Retypes (s : Store) (op : SubstOp α) (Q : α → Store → Prop) : Prop :=
  ∀ memo, s.Assigns memo → Yields s (op memo) fun x s' => Q x.1 s' ∧ s'.Assigns x.2

namespace Retypes

variable {op : SubstOp α} {f : α → SubstOp β} {P Q : α → Store → Prop} {R : β → Store → Prop}

theorem pure (hw : s.Wf) {a : α} (ha : Q a s) : Retypes s (pure a) Q :=
  fun _ hm => Yields.pure hw ⟨ha, hm⟩

theorem bind (h : Retypes s op P) (hf : ∀ a s', Later s s' → P a s' → Retypes s' (f a) R) :
    Retypes s (op >>= f) R :=
  fun memo hm => (h memo hm).bind fun x s' hs hx => hf x.1 s' hs hx.1 x.2 hx.2

theorem mono (h : Retypes s op P) (hPQ : ∀ a s', P a s' → Q a s') : Retypes s op Q := fun memo hm =>
  ⟨(h memo hm).builds.mono fun _ _ _ hx => ⟨hPQ _ _ hx.1, hx.2⟩, (h memo hm).fair⟩

theorem lift {op : Op α} (h : Yields s op Q) : Retypes s (liftM op) Q := fun memo hm =>
  h.bind fun a _ hs ha => Yields.pure (a := (a, memo)) hs.wf ⟨ha, hm.extends_ hs.ext⟩

theorem run' {op : SubstOp α} (h : Retypes s op Q) : Yields s (op.run' ∅) Q :=
  (h ∅ (assigns_empty s)).map fun _ _ _ hx => hx.1

theorem look_bind {g : Store → α} (h : Retypes s (f (g s)) R) :
    Retypes s ((liftM (Store.look g) : SubstOp α) >>= f) R :=
  fun memo hm => ⟨(h memo hm).builds, (h memo hm).fair⟩

theorem get_bind {g : Subst → SubstOp β} (h : ∀ memo, s.Assigns memo → Retypes s (g memo) R) :
    Retypes s (get >>= g) R :=
  fun memo hm => ⟨(h memo hm memo hm).builds, (h memo hm memo hm).fair⟩

theorem modify_bind {g : Subst → Subst} {f : PUnit → SubstOp β}
    (hg : ∀ memo, s.Assigns memo → s.Assigns (g memo))
    (h : Retypes s (f ⟨⟩) R) : Retypes s (modify g >>= f) R :=
  fun memo hm => ⟨(h (g memo) (hg memo hm)).builds, (h (g memo) (hg memo hm)).fair⟩

theorem mapM {sub : α → SubstOp β} {P : α → β → Store → Prop} (hw : s.Wf) {as : List α}
    (hP : ∀ {a b s₁ s₂}, Later s₁ s₂ → P a b s₁ → P a b s₂)
    (hsub : ∀ a ∈ as, ∀ s₁, Later s s₁ → Retypes s₁ (sub a) (P a)) :
    Retypes s (as.mapM sub) fun bs s' => List.Forall₂ (P · · s') as bs := by
  induction as generalizing s with
  | nil => exact .pure hw .nil
  | cons a as ih =>
    rw [List.mapM_cons]
    refine .bind (hsub a List.mem_cons_self s (later_frame.refl hw)) fun b s₁ hs₁ hb => ?_
    refine .bind (ih hs₁.wf fun c hc s₂ hs₂ => hsub c (List.mem_cons_of_mem _ hc) s₂
      (later_frame.trans hs₁ hs₂))
      fun bs s₂ hs₂ hbs => ?_
    exact .pure hs₂.wf (.cons (hP hs₂ hb) hbs)

end Retypes

/-! ## Rebuilding -/

/-- Whatever extends `base`, `sub` gives the small terms of `base` replacements of their types. -/
def Retyping (base : Store) (small : Term → Prop) (sub : Subst → Term → SubstOp Term) : Prop :=
  ∀ {s σ t ty}, Later base s → s.Assigns σ → base.Has t ty → small t → s.Retypes (sub σ t)
    fun r s' => s'.Has r ty

section

variable {base : Store} {small : Term → Prop} {sub : Subst → Term → SubstOp Term} {p : Term}
  {shape : Term.Shape}

/-- Replacements of a list of terms have the types of the terms. -/
theorem mapM_retypes (hsub : Retyping base small sub) (hs : Later base s) (hσ : s.Assigns σ)
    {ts : List Term} (hts : ∀ t ∈ ts, (∃ ty, base.Has t ty) ∧ small t) :
    s.Retypes (ts.mapM (sub σ)) fun rs s' =>
      List.Forall₂ (fun t r => ∃ ty, base.Has t ty ∧ s'.Has r ty) ts rs := by
  refine .mapM hs.wf (P := fun t r s' => ∃ ty, base.Has t ty ∧ s'.Has r ty)
    (fun hs' ⟨ty, ht, hr⟩ => ⟨ty, ht, hs'.ext.has hr⟩) fun t ht s₁ hs₁ => ?_
  obtain ⟨⟨ty, hty⟩, hsmall⟩ := hts t ht
  exact (hsub (later_frame.trans hs hs₁) (hσ.extends_ hs₁.ext) hty hsmall).mono fun r s' hr =>
    ⟨ty, hty, hr⟩

/-- The common type of a list that is not empty stays. -/
theorem type_of_retyped {ts rs : List Term} {ty' : Ty} (hne : ts ≠ [])
    (hts : ∀ t ∈ ts, base.Has t ty)
    (hrs : List.Forall₂ (fun t r => ∃ ty, base.Has t ty ∧ s.Has r ty) ts rs)
    (hall : ∀ r ∈ rs, s.Has r ty') : ty' = ty := by
  cases hrs with
  | nil => exact absurd rfl hne
  | cons htr _ =>
    obtain ⟨tc, ht, hr⟩ := htr
    rw [(hall _ List.mem_cons_self).unique hr, ht.unique (hts _ List.mem_cons_self)]

/-- What is rebuilt from a quantifier is what the constructor makes of its variables and some
body. -/
theorem rebuild_all_retypes (hsub : Retyping base small sub) (hs : Later base s) (hσ : s.Assigns σ)
    (hb : base.Wf) {vars : List Term} {body : Term} (hn : base.node? p = some (.all vars body, ty))
    (hsmall : ∀ c ∈ (Term.Shape.all vars body).children, small c) {Q : Term → Store → Prop}
    (hQ : ∀ {s₁ : Store}, s₁.Wf → ∀ body', Yields s₁ (all vars body') Q) :
    s.Retypes (rebuild sub σ p) Q := by
  obtain ⟨-, -, -, hbody⟩ := hb.typed hn
  have hmem : body ∈ (Term.Shape.all vars body).children := by simp [Term.Shape.children]
  have last {s₁ : Store} (h₁ : Later s s₁) (body' : Term) : s₁.Retypes (liftM (all vars body')) Q :=
    .lift (hQ h₁.wf body')
  unfold rebuild
  refine .look_bind ?_
  rw [show s.shape? p = some (.all vars body) by simp [shape?, hs.ext.node hn]]
  dsimp only
  split
  · split
    · exact .bind (P := fun _ _ => True) (.pure hs.wf trivial) fun body' s₁ h₁ _ => last h₁ body'
    · have hinner : s.Assigns (vars.foldl (fun m v => m.erase v) σ) := fun x v hx => by
        rw [getElem?_foldl_erase] at hx
        split at hx
        · cases hx
        · exact hσ hx
      have hrun := (hsub hs hinner hbody (hsmall body hmem)).run'
      exact .bind (.lift hrun) fun body' s₁ h₁ _ => last h₁ body'
  · have hpart := (hsub hs hσ hbody (hsmall body hmem)).mono fun _ _ _ => trivial
    exact .bind hpart fun body' s₁ h₁ _ => last h₁ body'

/-- Rebuilding a node whose parts are replaced by terms of their types. -/
theorem rebuild_retypes (hsub : Retyping base small sub) (hs : Later base s) (hσ : s.Assigns σ)
    (hb : base.Wf) (hp : p.isNegated = false) (hn : base.node? p = some (shape, ty))
    (hsmall : ∀ c ∈ shape.children, small c) :
    s.Retypes (rebuild sub σ p) fun r s' => s'.Has r ty := by
  have htyped := hb.typed hn
  have hself : s.Has p ty := hs.ext.has ⟨⟨_, hn⟩, by simp [hp]⟩
  have part {s₁ : Store} (h₁ : Later s s₁) {c : Term} (hc : c ∈ shape.children) {tc : Ty}
    (hctc : base.Has c tc) :
      s₁.Retypes (sub σ c) fun r s' => s'.Has r tc :=
    hsub (later_frame.trans hs h₁) (hσ.extends_ h₁.ext) hctc (hsmall c hc)
  have any {s₁ : Store} (h₁ : Later s s₁) {c : Term} (hc : c ∈ shape.children) :
      s₁.Retypes (sub σ c) fun _ _ => True := by
    obtain ⟨tc, hctc⟩ := htyped.live hc
    exact (part h₁ hc hctc).mono fun _ _ _ => trivial
  have many {s₁ : Store} (h₁ : Later s s₁) {ts : List Term} (hts : ∀ t ∈ ts, t ∈ shape.children) :
      s₁.Retypes (ts.mapM (sub σ)) fun rs s' =>
        List.Forall₂ (fun t r => ∃ ty, base.Has t ty ∧ s'.Has r ty) ts rs :=
    mapM_retypes hsub (later_frame.trans hs h₁) (hσ.extends_ h₁.ext) fun t ht =>
      ⟨htyped.live (hts t ht), hsmall t (hts t ht)⟩
  have h₀ := later_frame.refl hs.wf
  -- a constructor of two parts that answers a boolean term in any case
  have two {a b : Term} {mk : Term → Term → Op Term} (ha : a ∈ shape.children)
    (hc : b ∈ shape.children)
      (hmk : ∀ {s₁ : Store} (a' b' : Term), s₁.Wf → Yields s₁ (mk a' b') fun r s' => s'.Has r ty) :
      s.Retypes (do let a ← sub σ a; let b ← sub σ b; liftM (mk a b)) fun r s' => s'.Has r ty :=
    .bind (any h₀ ha) fun a' s₁ h₁ _ => .bind (any h₁ hc) fun b' s₂ h₂ _ => .lift (hmk a' b' h₂.wf)
  by_cases hall : ∃ vars body, shape = .all vars body
  · obtain ⟨vars, body, rfl⟩ := hall
    obtain rfl := htyped.1
    exact rebuild_all_retypes hsub hs hσ hb hn hsmall fun hw body' =>
      .of_builds ((all_quantifies hw vars body').mono fun r s' _ hr => hr.has) (.all ..)
  unfold rebuild
  refine .look_bind ?_
  rw [show s.shape? p = some shape by simp [shape?, hs.ext.node hn]]
  cases shape with
  | truth | bvConst | uninterpreted | var => exact .pure hs.wf hself
  | ite c a b =>
    refine .bind (any h₀ (by simp [Term.Shape.children])) fun c' s₁ h₁ _ => ?_
    refine .bind (part h₁ (by simp [Term.Shape.children]) htyped.2.1) fun a' s₂ h₂ ha => ?_
    refine .bind (any (later_frame.trans h₁ h₂) (by simp [Term.Shape.children])) fun b' s₃ h₃ _ =>
      ?_
    refine .lift (.of_builds ((ite_builds h₃.wf _ _ _).mono fun r s' _ hr => ?_) (.choice ..))
    obtain ⟨ty', ha', -, -, hden⟩ := hr
    exact ha'.unique (h₃.ext.has ha) ▸ hden.has
  | eq a b =>
    obtain rfl := htyped.1
    refine two (by simp [Term.Shape.children]) (by simp [Term.Shape.children]) fun a' b' hw => ?_
    exact .of_builds ((eq_builds hw a' b').mono fun _ _ _ hr => hr.2.has) (.eq ..)
  | xor a b =>
    obtain rfl := htyped.1
    refine two (by simp [Term.Shape.children]) (by simp [Term.Shape.children]) fun a' b' hw => ?_
    exact .of_builds ((xor2_builds hw a' b').mono fun _ _ _ hr => hr.has) (.xor2 ..)
  | bvGe a b =>
    obtain rfl := htyped.1
    refine two (by simp [Term.Shape.children]) (by simp [Term.Shape.children]) fun a' b' hw => ?_
    exact .of_builds ((bvGe_builds hw a' b').mono fun _ _ _ hr => hr.2.has) (.bvGe ..)
  | bvSge a b =>
    obtain rfl := htyped.1
    refine two (by simp [Term.Shape.children]) (by simp [Term.Shape.children]) fun a' b' hw => ?_
    refine .of_builds ((bvSge_builds hw a' b').mono fun _ _ _ hr => ?_) (.bvSge ..)
    obtain ⟨w, -, -, hden⟩ := hr
    exact hden.has
  | bvNeg x =>
    refine .bind (part h₀ (by simp [Term.Shape.children]) htyped.1) fun x' s₁ h₁ hx => ?_
    refine .lift (.of_builds ((bvNeg_builds h₁.wf _).mono fun r s' _ hr => ?_) (.bvNeg _))
    obtain ⟨ty', w, -, hx', hden⟩ := hr
    exact hx'.unique hx ▸ hden.has
  | bit x i =>
    obtain rfl := htyped.1
    refine .bind (any h₀ (by simp [Term.Shape.children])) fun x' s₁ h₁ _ => ?_
    exact .lift (.of_builds ((bit_builds h₁.wf _ _).mono fun r s' _ hr => hr.2.2.has) (.bit ..))
  | or args =>
    obtain rfl := htyped.1
    refine .bind (many h₀ fun _ => id) fun rs s₁ h₁ _ => ?_
    exact .lift (.of_builds ((or_builds h₁.wf _).mono fun r s' _ hr => hr.has) (.or _))
  | bvSum args =>
    refine .bind (many h₀ fun _ => id) fun rs s₁ h₁ hrs => ?_
    refine .lift (.of_builds ((bvSum_builds h₁.wf _).mono fun r s' _ hr => ?_) (.bvSum _))
    obtain ⟨ty', w, -, hall, hden⟩ := hr
    exact type_of_retyped htyped.1 htyped.2.1 hrs hall ▸ hden.has
  | bvProduct args =>
    refine .bind (many h₀ fun _ => id) fun rs s₁ h₁ hrs => ?_
    refine .lift (.of_builds ((bvProduct_builds h₁.wf _).mono fun r s' _ hr => ?_) (.bvProduct _))
    obtain ⟨ty', w, -, hall, hden⟩ := hr
    exact type_of_retyped htyped.1 htyped.2.1 hrs hall ▸ hden.has
  | app f args =>
    obtain ⟨tf, domain, hf, hdom, -⟩ := htyped
    refine .bind (part h₀ List.mem_cons_self hf) fun f' s₁ h₁ hf' => ?_
    refine .bind (many h₁ fun _ => List.mem_cons_of_mem _) fun args' s₂ h₂ _ => ?_
    refine .lift (.of_builds ((app_builds h₂.wf _ _).mono fun r s' hs' hr => ?_) (.app ..))
    -- the range of the function is the type of the application
    obtain ⟨ty', hrn, hrneg⟩ := hr
    obtain ⟨tf', domain', hf'', hdom', -⟩ := hs'.wf.typed hrn
    have hlater := later_frame.trans (later_frame.trans (later_frame.trans hs h₁) h₂) hs'
    rw [hf''.unique (hs'.ext.has (h₂.ext.has hf')), hlater.ext.ty hdom] at hdom'
    cases hdom'
    exact ⟨⟨_, hrn⟩, by simp [hrneg]⟩
  | all vars body => exact absurd ⟨vars, body, rfl⟩ hall

/-- With parts of smaller rank, a depth above the rank of a term is enough. -/
theorem substAt_retypes (hb : base.Wf) {rank : Nat → Nat}
    (hrank : ∀ {i shape ty}, base.terms.get? i = some (shape, ty) → ∀ c ∈ shape.children,
      rank c.index < rank i)
    (depth : Nat) : Retyping base (fun t => rank t.index < depth) (substAt depth) := by
  induction depth with
  | zero => exact fun _ _ _ h => absurd h (Nat.not_lt_zero _)
  | succ depth ih =>
    intro s σ t ty hs hσ ht hlt
    have hpos : s.Has t.positive ty := (hs.ext.has ht).positive
    -- the type of a negated term is boolean
    have polarity {s' : Store} {r : Term} (hr : s'.Has r ty) : s'.Has (r.negIf t.isNegated) ty :=
      hr.negIf ht.2
    unfold substAt
    cases hx : σ[t.positive]? with
    | some r =>
      obtain ⟨ty', hp, hr⟩ := hσ hx
      simp only [hx]
      exact .pure hs.wf (polarity (hp.unique hpos ▸ hr))
    | none =>
      simp only [hx]
      refine .get_bind fun memo hm => ?_
      cases hr : memo[t.positive]? with
      | some r =>
        obtain ⟨ty', hp, hrty⟩ := hm hr
        exact .pure hs.wf (polarity (hp.unique hpos ▸ hrty))
      | none =>
        obtain ⟨⟨shape, hn⟩, -⟩ := ht.positive
        have hsmall : ∀ c ∈ shape.children, rank c.index < depth := fun c hc => by
          have hlt' := hrank hn c hc
          rw [Term.index_positive] at hlt'
          omega
        refine .bind (rebuild_retypes ih hs hσ hb (Term.isNegated_positive t) hn hsmall)
          fun r s' hs' hr => ?_
        exact .modify_bind (fun m hm => hm.insert (hs'.ext.has hpos) hr)
          (.pure hs'.wf (polarity hr))

end

/-- A substitution of terms for terms of their types keeps the type of a live term. -/
theorem subst_yields (hw : s.Wf) (hσ : s.Assigns σ) (ht : s.Has t ty) :
    s.Yields (subst σ t) fun r s' => s'.Has r ty := by
  obtain ⟨rank, hrank, hbound⟩ := hw.bounded
  unfold subst
  split
  · exact .pure hw ht
  · obtain ⟨shape, hn⟩ := ht.1
    have hrun := (substAt_retypes hw hrank (s.terms.slots.size + 1) (later_frame.refl hw) hσ ht
      (Nat.lt_succ_of_lt (hbound hn))).run'
    exact ⟨hrun.builds, hrun.fair⟩

end Entail.Store
