import Entail.Proofs.Store.Words
import Entail.Proofs.Tables
import Entail.Store.Subst

/-!
# What a term becomes under a substitution

A substitution replaces its keys and makes every other node anew from what its parts became. For a
node of an interpreted shape the constructor may answer any term that stands for that shape over the
new parts; an application and a quantifier stay what they were. Neither the memory nor the order in
which the parts are visited is seen in the result. So what a substitution does to a meaning is
proved by induction on the term, once for each notion of meaning.
-/

namespace Entail.Store

variable {s s' : Store} {σ τ : Subst} {α β : Type} {t r p : Term} {ty : Ty} {shape : Term.Shape}
  {vars : List Term}

/-- Terms are put for terms of their types. -/
def Assigns (s : Store) (σ : Subst) : Prop :=
  ∀ ⦃x v : Term⦄, σ[x]? = some v → ∃ ty, s.Has x ty ∧ s.Has v ty

theorem assigns_empty (s : Store) : s.Assigns ∅ := fun _ _ h => by simp at h

theorem Assigns.extends_ (h : s.Assigns σ) (hs : s.Extends s') : s'.Assigns σ := fun _ _ hx =>
  (h hx).imp fun _ ⟨hxty, hvty⟩ => ⟨hs.has hxty, hs.has hvty⟩

theorem Assigns.insert (h : s.Assigns σ) {x v : Term} (hx : s.Has x ty) (hv : s.Has v ty) :
    s.Assigns (σ.insert x v) := by
  intro y u hy
  rw [Std.HashMap.getElem?_insert] at hy
  split at hy
  next heq =>
    cases hy
    exact ⟨ty, eq_of_beq heq ▸ hx, hv⟩
  next => exact h hy

theorem Has.negIf (h : s.Has t ty) {b : Bool} (hb : b = true → ty = .bool) :
    s.Has (t.negIf b) ty := by
  cases b with
  | false => exact h
  | true => exact hb rfl ▸ (hb rfl ▸ h).neg

/-- A live term had its node before the store grew. -/
theorem node_of_extends (e : s.Extends s') (ht : s.Has t ty) {n : Term.Shape × Ty}
    (hn : s'.node? t = some n) :
    s.node? t = some n := by
  rw [← hn, e.node ht.node, ht.node]

/-- `τ` is `σ` without the variables that a quantifier binds. -/
def Shadows (vars : List Term) (σ τ : Subst) : Prop :=
  ∀ x : Term, τ[x]? = if x ∈ vars then none else σ[x]?

theorem Shadows.getElem?_eq_some (h : Shadows vars σ τ) {x v : Term} :
    τ[x]? = some v ↔ x ∉ vars ∧ σ[x]? = some v := by
  rw [h]
  split
  next hmem => simp [hmem]
  next hmem => simp [hmem]

theorem Shadows.assigns (h : Shadows vars σ τ) (hσ : s.Assigns σ) : s.Assigns τ := fun _ _ hx =>
  hσ (h.getElem?_eq_some.mp hx).2

/-- `r` is what `t` becomes under `σ`. -/
inductive Becomes (s : Store) : Subst → Term → Term → Prop where
  | key {σ : Subst} {p r : Term} : p.isNegated = false → σ[p]? = some r → Becomes s σ p r
  | atom {σ : Subst} {p : Term} {shape : Term.Shape} {ty : Ty} : p.isNegated = false →
    σ[p]? = none →
    s.node? p = some (shape, ty) → (shape.isUninterpreted || shape.isVariable) = true →
      Becomes s σ p p
  | node {σ : Subst} {p r : Term} {shape : Term.Shape} {ty : Ty} {kids : List Term} :
    p.isNegated = false →
    σ[p]? = none → s.node? p = some (shape, ty) → shape.isInterpreted = true →
      shape.children.length = kids.length →
    (∀ {a b}, (a, b) ∈ shape.children.zip kids → Becomes s σ a b) →
    (s.Stands kids r ty fun _ v => shape.combine (s.partWidth shape) (kids.map v)) → Becomes s σ p r
  | app {σ : Subst} {p r f f' : Term} {args args' : List Term} {ty : Ty} : p.isNegated = false →
    σ[p]? = none →
    s.node? p = some (.app f args, ty) → Becomes s σ f f' → args.length = args'.length →
    (∀ {a b}, (a, b) ∈ args.zip args' → Becomes s σ a b) → r.isNegated = false →
    s.node? r = some (.app f' args', ty) → Becomes s σ p r
  | all {σ τ : Subst} {p r body body' : Term} {vars : List Term} {ty : Ty} : p.isNegated = false →
    σ[p]? = none →
    s.node? p = some (.all vars body, ty) → Shadows vars σ τ → Becomes s τ body body' →
      s.Quantifies vars body' r →
    Becomes s σ p r
  | neg {σ : Subst} {p r : Term} : p.isNegated = false → s.Has p .bool → Becomes s σ p r →
    Becomes s σ p.neg r.neg

/-- Every new part is what some part became. -/
theorem exists_mem_zip {α β : Type} {as : List α} {bs : List β} (hlen : as.length = bs.length)
    {b : β} (hb : b ∈ bs) :
    ∃ a, (a, b) ∈ as.zip bs := by
  obtain ⟨i, hi, rfl⟩ := List.getElem_of_mem hb
  refine ⟨as[i], ?_⟩
  rw [← List.getElem_zip]
  exact List.getElem_mem (by simpa [hlen] using hi)

theorem map_eq_map_of_zip {α β γ : Type} {as : List α} {bs : List β} {f : β → γ} {g : α → γ}
    (hlen : as.length = bs.length)
    (h : ∀ {a b}, (a, b) ∈ as.zip bs → f b = g a) : bs.map f = as.map g := by
  have hall : List.Forall₂ (fun a b => g a = f b) as bs :=
    List.forall₂_iff_zip.mpr ⟨hlen, fun hab => (h hab).symm⟩
  have heq : List.Forall₂ (· = ·) (as.map g) (bs.map f) :=
    List.forall₂_map_left_iff.mpr (List.forall₂_map_right_iff.mpr hall)
  rw [List.forall₂_eq_eq_eq] at heq
  exact heq.symm

namespace Becomes

/-- A substitution keeps types. -/
theorem has (hw : s.Wf) (hσ : s.Assigns σ) (h : s.Becomes σ t r) (ht : s.Has t ty) :
    s.Has r ty := by
  induction h generalizing ty with
  | key _ hx =>
    obtain ⟨tx, hxty, hr⟩ := hσ hx
    exact hxty.unique ht ▸ hr
  | atom => exact ht
  | node hp _ hn _ _ _ hst => exact Has.unique ⟨⟨_, hn⟩, by simp [hp]⟩ ht ▸ hst.has
  | app hp _ hn _ _ _ hr hrn =>
    exact Has.unique ⟨⟨_, hn⟩, by simp [hp]⟩ ht ▸ ⟨⟨_, hrn⟩, by simp [hr]⟩
  | all hp _ hn _ _ hr =>
    obtain ⟨rfl, -⟩ := hw.typed hn
    exact Has.unique ⟨⟨_, hn⟩, by simp [hp]⟩ ht ▸ hr.has
  | neg hp hbool _ ih => exact hbool.neg.unique ht ▸ (ih hσ hbool).neg

theorem later (hw : s.Wf) (hσ : s.Assigns σ) (h : s.Becomes σ t r) (hs : Later s s') :
    s'.Becomes σ t r := by
  induction h with
  | key hp hx => exact .key hp hx
  | atom hp hnone hn hatom => exact .atom hp hnone (hs.ext.node hn) hatom
  | @node σ p r shape ty kids hp hnone hn hshape hlen hkids hst ih =>
    refine .node hp hnone (hs.ext.node hn) hshape hlen (fun hab => ih hab hσ) ?_
    rw [Valuation.Lawful.partWidth_eq hw hs.ext (hw.typed hn)]
    refine hst.later hw (fun b hb => ?_) hs
    obtain ⟨a, hab⟩ := exists_mem_zip hlen hb
    exact ((hw.typed hn).live (List.of_mem_zip hab).1).imp fun _ => (hkids hab).has hw hσ
  | app hp hnone hn _ hlen _ hr hrn ihf ih =>
    exact .app hp hnone (hs.ext.node hn) (ihf hσ) hlen (fun hab => ih hab hσ) hr (hs.ext.node hrn)
  | all hp hnone hn hτ _ hr ih =>
    exact .all hp hnone (hs.ext.node hn) hτ (ih (hτ.assigns hσ)) (hr.extends_ hs.ext)
  | neg hp hbool _ ih => exact .neg hp (hs.ext.has hbool) (ih hσ)

/-- A substitution acts on the positive term. -/
theorem negIf (h : s.Becomes σ t.positive r) (ht : s.Has t ty) :
    s.Becomes σ t (r.negIf t.isNegated) := by
  cases hneg : t.isNegated with
  | false => rwa [Term.positive_of_not_isNegated hneg] at h
  | true =>
    have hbool := ht.2 hneg
    subst hbool
    have := Becomes.neg (Term.isNegated_positive t) ht.positive h
    rwa [Term.neg_positive hneg] at this

/-- A constant that is no key stays. -/
theorem eq_of_const (h : s.Becomes σ t r) (ht : (s.shape t).isUninterpreted = true)
    (hneg : t.isNegated = false) (hx : σ[t]? = none) : r = t := by
  have hn {shape : Term.Shape} {ty : Ty} (hn : s.node? t = some (shape, ty)) :
      shape.isUninterpreted = true := by
    rwa [Interp.node?_of_shape hn] at ht
  cases h with
  | key _ hx' => cases hx.symm.trans hx'
  | atom => rfl
  | node _ _ hn' hshape =>
    have hcon := hn hn'
    rw [(Term.Shape.not_atom_of_isInterpreted hshape).1] at hcon
    cases hcon
  | app _ _ hn' => cases hn hn'
  | all _ _ hn' => cases hn hn'
  | neg hp => simp [hp] at hneg

/-- Nothing changes under the empty substitution. -/
theorem refl (hw : s.Wf) (hσ : σ.isEmpty = true) (ht : s.Has t ty) : s.Becomes σ t t := by
  have hnone : ∀ x : Term, σ[x]? = none := fun x => Std.HashMap.getElem?_of_isEmpty hσ
  refine hw.induct (P := fun t => s.Becomes σ t t) (fun {t shape ty} ht hn hself => ?_) ht
  suffices h : s.Becomes σ t.positive t.positive by
    have hpol : t.positive.negIf t.isNegated = t := by
      cases hneg : t.isNegated with
      | false => exact Term.positive_of_not_isNegated hneg
      | true => exact Term.neg_positive hneg
    have hbecomes := h.negIf ht
    rwa [hpol] at hbecomes
  have hp := Term.isNegated_positive t
  replace hn : s.node? t.positive = some (shape, ty) := by rwa [node?, Term.index_positive]
  have zip {ts : List Term} (hts : ∀ c ∈ ts, s.Becomes σ c c) :
      ∀ {a b}, (a, b) ∈ ts.zip ts → s.Becomes σ a b :=
    (List.forall₂_iff_zip.mp (List.forall₂_same.mpr hts)).2
  by_cases hshape : shape.isInterpreted = true
  · exact .node hp (hnone _) hn hshape rfl (zip hself) (stands_of_node hn hp hshape
      fun _ hdef => hdef)
  cases shape with
  | uninterpreted | var => exact .atom hp (hnone _) hn rfl
  | app f args =>
    exact .app hp (hnone _) hn (hself f (by simp [Term.Shape.children])) rfl
      (zip fun c hc => hself c (List.mem_cons_of_mem _ hc)) hp hn
  | all vars body =>
    obtain ⟨rfl, -, hvars, hbody⟩ := hw.typed hn
    refine .all hp (hnone _) hn (fun x => ?_) (hself body (by simp [Term.Shape.children]))
      ⟨hbody, hvars, .inl ⟨hp, hn⟩⟩
    rw [hnone, ite_self]
  | _ => exact absurd rfl hshape

end Becomes

/-! ## The memory -/

/-- What is remembered is right. -/
def MemoOk (s : Store) (σ memo : Subst) : Prop :=
  ∀ ⦃p r : Term⦄, memo[p]? = some r → s.Becomes σ p r

theorem MemoOk.later {memo : Subst} (h : s.MemoOk σ memo) (hw : s.Wf) (hσ : s.Assigns σ)
    (hs : Later s s') :
    s'.MemoOk σ memo := fun _ _ hp => (h hp).later hw hσ hs

/-- From `s`, with a memory that is right, `op` only extends the store, its answer is as `Q` says
and the memory stays right. -/
def Subs (s : Store) (σ : Subst) (op : SubstOp α) (Q : α → Store → Prop) : Prop :=
  ∀ memo, s.MemoOk σ memo → Builds s (op memo) fun x s' => Q x.1 s' ∧ s'.MemoOk σ x.2

namespace Subs

variable {op : SubstOp α} {f : α → SubstOp β} {P Q : α → Store → Prop} {R : β → Store → Prop}

theorem mono (h : Subs s σ op P) (hPQ : ∀ a s', Later s s' → P a s' → Q a s') : Subs s σ op Q :=
  fun memo hm => (h memo hm).mono fun _ _ hs hx => ⟨hPQ _ _ hs hx.1, hx.2⟩

theorem bind (h : Subs s σ op P) (hf : ∀ a s', Later s s' → P a s' → Subs s' σ (f a) R) :
    Subs s σ (op >>= f) R :=
  fun memo hm => Builds.bind (h memo hm) fun x s' hs hx => hf x.1 s' hs hx.1 x.2 hx.2

theorem pure (hw : s.Wf) {a : α} (ha : Q a s) : Subs s σ (pure a) Q :=
  fun _ hm => Builds.pure hw ⟨ha, hm⟩

theorem throw (hw : s.Wf) (e : TermError) : Subs s σ (throw e : SubstOp α) Q :=
  fun _ _ => Builds.throw hw e

theorem lift (hσ : s.Assigns σ) (hw : s.Wf) {op : Op α} (h : Builds s op Q) :
    Subs s σ (liftM op) Q :=
  fun memo hm => Builds.bind h fun a _ hs ha =>
    Builds.pure (a := (a, memo)) hs.wf ⟨ha, hm.later hw hσ hs⟩

theorem look_bind {g : Store → α} (h : Subs s σ (f (g s)) R) :
    Subs s σ ((liftM (Store.look g) : SubstOp α) >>= f) R :=
  fun memo hm => h memo hm

theorem get_bind {g : Subst → SubstOp β} (h : ∀ memo, s.MemoOk σ memo → Subs s σ (g memo) R) :
    Subs s σ (get >>= g) R :=
  fun memo hm => h memo hm memo hm

theorem modify_bind {g : Subst → Subst} {f : PUnit → SubstOp β}
    (hg : ∀ memo, s.MemoOk σ memo → s.MemoOk σ (g memo))
    (h : Subs s σ (f ⟨⟩) R) : Subs s σ (modify g >>= f) R :=
  fun memo hm => h (g memo) (hg memo hm)

theorem mapM {sub : α → SubstOp β} {P : α → β → Store → Prop} (hw : s.Wf) {as : List α}
    (hP : ∀ a b s₁ s₂, Later s s₁ → Later s₁ s₂ → P a b s₁ → P a b s₂)
    (hsub : ∀ a ∈ as, ∀ s₁, Later s s₁ → Subs s₁ σ (sub a) (P a)) :
    Subs s σ (as.mapM sub) fun bs s' => List.Forall₂ (P · · s') as bs := by
  induction as generalizing s with
  | nil => exact .pure hw .nil
  | cons a as ih =>
    rw [List.mapM_cons]
    refine .bind (hsub a List.mem_cons_self s (later_frame.refl hw)) fun b s₁ hs₁ hb => ?_
    refine .bind (ih hs₁.wf (fun a b s₂ s₃ h₂ => hP a b s₂ s₃ (later_frame.trans hs₁ h₂))
      fun c hc s₂ hs₂ => hsub c (List.mem_cons_of_mem _ hc) s₂ (later_frame.trans hs₁ hs₂))
        fun bs s₂ hs₂ hbs => ?_
    exact .pure hs₂.wf (.cons (hP a b s₁ s₂ hs₁ hs₂ hb) hbs)

theorem run' {op : SubstOp Term} {Q : Term → Store → Prop} (h : Subs s σ op Q) :
    Builds s (op.run' ∅) Q :=
  Builds.map (h ∅ fun _ _ hp => by simp at hp) fun _ _ _ hx => hx.1

end Subs

/-! ## Rebuilding -/

/-- `sub` applies a substitution to live terms. -/
def Sound (s : Store) (sub : Subst → Term → SubstOp Term) : Prop :=
  ∀ σ t s', Later s s' → s'.Assigns σ → (∃ ty, s'.Has t ty) → Subs s' σ (sub σ t) fun r s'' =>
    s''.Becomes σ t r

/-- A term that stands for a shape over the parts `kids`. -/
def Remade (s : Store) (shape : Term.Shape) (ty : Ty) (kids : List Term) (r : Term) : Prop :=
  s.Stands kids r ty fun _ v => shape.combine (s.partWidth shape) (kids.map v)

section Rebuild

variable {sub : Subst → Term → SubstOp Term}

variable (hw : s.Wf) (hσ : s.Assigns σ) (hp : p.isNegated = false) (hnone : σ[p]? = none)
  (hn : s.node? p = some (shape, ty)) (hsub : s.Sound sub) (hshape : shape.isInterpreted = true)

include hσ

theorem Sound.part (hsub : s.Sound sub) (hs : Later s s') {t : Term} (ht : ∃ ty, s.Has t ty) :
    Subs s' σ (sub σ t) fun r s'' => s''.Becomes σ t r :=
  hsub σ t s' hs (hσ.extends_ hs.ext) (ht.imp fun _ => hs.ext.has)

theorem Becomes.keep {s₁ s₂ : Store} (hs₁ : Later s s₁) (hs₂ : Later s₁ s₂)
    (hr : s₁.Becomes σ t r) : s₂.Becomes σ t r :=
  hr.later hs₁.wf (hσ.extends_ hs₁.ext) hs₂

/-- What a live part becomes has the type of the part. -/
theorem Becomes.has_of_later (hs : Later s s') (h : s'.Becomes σ t r) (ht : s.Has t ty) :
    s'.Has r ty :=
  h.has hs.wf (hσ.extends_ hs.ext) (hs.ext.has ht)

include hp hnone hn hshape in
/-- The last step of rebuilding a node: its constructor, applied to what the parts became. -/
theorem remade_subs {kids : List Term} {op : Op Term} (hs : Later s s')
    (hkids : List.Forall₂ (s'.Becomes σ) shape.children kids)
    (hop : Builds s' op fun r s'' => s''.Remade shape ty kids r) :
    Subs s' σ (liftM op) fun r s'' => s''.Becomes σ p r := by
  refine (Subs.lift (hσ.extends_ hs.ext) hs.wf hop).mono fun r s'' hs' hr => ?_
  have hkids' : List.Forall₂ (s''.Becomes σ) shape.children kids := hkids.imp fun _ _ hr =>
    hr.keep hσ hs hs'
  obtain ⟨hlen, hzip⟩ := List.forall₂_iff_zip.mp hkids'
  exact .node hp hnone ((later_frame.trans hs hs').ext.node hn) hshape hlen hzip hr

include hsub

theorem mapM_subs {ts : List Term} (hs : Later s s') (hts : ∀ t ∈ ts, ∃ ty, s.Has t ty) :
    Subs s' σ (ts.mapM (sub σ)) fun rs s'' => List.Forall₂ (s''.Becomes σ) ts rs := by
  refine Subs.mapM (P := fun t r s' => s'.Becomes σ t r) hs.wf ?_ fun t ht s₁ hs₁ => ?_
  · intro t r s₁ s₂ hs₁ hs₂ hr
    exact hr.keep hσ (later_frame.trans hs hs₁) hs₂
  · exact hsub.part hσ (later_frame.trans hs hs₁) (hts t ht)

include hw hp hnone hn hshape

theorem rebuild_one {a : Term} {f : Term → Op Term} (hch : shape.children = [a])
    (hmk : ∀ {s' : Store} {a' : Term}, Later s s' → s'.Becomes σ a a' →
      Builds s' (f a') fun r s'' => s''.Remade shape ty [a'] r) :
    Subs s σ (do let a ← sub σ a; liftM (f a)) fun r s' => s'.Becomes σ p r := by
  have hlive : ∀ c ∈ shape.children, ∃ ty, s.Has c ty := fun c hc => (hw.typed hn).live hc
  rw [hch] at hlive
  refine .bind (hsub.part hσ (later_frame.refl hw) (hlive a (by simp))) fun a' s₁ hs₁ ha => ?_
  refine remade_subs hσ hp hnone hn hshape hs₁ ?_ (hmk hs₁ ha)
  rw [hch]
  exact .cons ha .nil

theorem rebuild_two {a b : Term} {mk : Term → Term → Op Term} (hch : shape.children = [a, b])
    (hmk : ∀ {s' : Store} {a' b' : Term}, Later s s' → s'.Becomes σ a a' → s'.Becomes σ b b' →
      Builds s' (mk a' b') fun r s'' => s''.Remade shape ty [a', b'] r) :
    Subs s σ (do let a ← sub σ a; let b ← sub σ b; liftM (mk a b)) fun r s' =>
      s'.Becomes σ p r := by
  have hlive : ∀ c ∈ shape.children, ∃ ty, s.Has c ty := fun c hc => (hw.typed hn).live hc
  rw [hch] at hlive
  refine .bind (hsub.part hσ (later_frame.refl hw) (hlive a (by simp))) fun a' s₁ hs₁ ha => ?_
  refine .bind (hsub.part hσ hs₁ (hlive b (by simp))) fun b' s₂ hs₂ hb => ?_
  have hs := later_frame.trans hs₁ hs₂
  replace ha := ha.keep hσ hs₁ hs₂
  refine remade_subs hσ hp hnone hn hshape hs ?_ (hmk hs ha hb)
  rw [hch]
  exact .cons ha (.cons hb .nil)

theorem rebuild_three {a b c : Term} {mk : Term → Term → Term → Op Term}
    (hch : shape.children = [a, b, c])
    (hmk : ∀ {s' : Store} {a' b' c' : Term}, Later s s' → s'.Becomes σ a a' → s'.Becomes σ b b' →
      s'.Becomes σ c c' →
      Builds s' (mk a' b' c') fun r s'' => s''.Remade shape ty [a', b', c'] r) :
    Subs s σ (do let a ← sub σ a; let b ← sub σ b; let c ← sub σ c; liftM (mk a b c)) fun r s' =>
      s'.Becomes σ p r := by
  have hlive : ∀ c ∈ shape.children, ∃ ty, s.Has c ty := fun c hc => (hw.typed hn).live hc
  rw [hch] at hlive
  refine .bind (hsub.part hσ (later_frame.refl hw) (hlive a (by simp))) fun a' s₁ hs₁ ha => ?_
  refine .bind (hsub.part hσ hs₁ (hlive b (by simp))) fun b' s₂ hs₂ hb => ?_
  have hs := later_frame.trans hs₁ hs₂
  refine .bind (hsub.part hσ hs (hlive c (by simp))) fun c' s₃ hs₃ hc => ?_
  have hs' := later_frame.trans hs hs₃
  replace ha := (ha.keep hσ hs₁ hs₂).keep hσ hs hs₃
  replace hb := hb.keep hσ hs hs₃
  refine remade_subs hσ hp hnone hn hshape hs' ?_ (hmk hs' ha hb hc)
  rw [hch]
  exact .cons ha (.cons hb (.cons hc .nil))

theorem rebuild_list {ts : List Term} {mk : List Term → Op Term} (hch : shape.children = ts)
    (hmk : ∀ {s' : Store} {rs : List Term}, Later s s' → List.Forall₂ (s'.Becomes σ) ts rs →
      Builds s' (mk rs) fun r s'' => s''.Remade shape ty rs r) :
    Subs s σ (do let rs ← ts.mapM (sub σ); liftM (mk rs)) fun r s' => s'.Becomes σ p r := by
  subst hch
  refine .bind (mapM_subs hσ hsub (later_frame.refl hw) fun c hc => (hw.typed hn).live hc)
    fun rs s₁ hs₁ hrs => ?_
  exact remade_subs hσ hp hnone hn hshape hs₁ hrs (hmk hs₁ hrs)

end Rebuild

section Cases

variable {sub : Subst → Term → SubstOp Term}

variable (hw : s.Wf) (hσ : s.Assigns σ) (hp : p.isNegated = false) (hnone : σ[p]? = none)
  (hsub : s.Sound sub)

include hw hσ hp hnone hsub

theorem app_subs {f : Term} {args : List Term} (hn : s.node? p = some (.app f args, ty)) :
    Subs s σ (do let f ← sub σ f; let args ← args.mapM (sub σ); liftM (app f args)) fun r s' =>
      s'.Becomes σ p r := by
  obtain ⟨tf, domain, hf, hdom, hargs⟩ := hw.typed hn
  refine .bind (hsub.part hσ (later_frame.refl hw) ⟨tf, hf⟩) fun f' s₁ hs₁ hf' => ?_
  refine .bind (mapM_subs hσ hsub hs₁ fun t ht => exists_has_of_forall₂ hargs ht)
    fun args' s₂ hs₂ hargs' => ?_
  have hs := later_frame.trans hs₁ hs₂
  refine (Subs.lift (hσ.extends_ hs.ext) hs₂.wf (app_builds hs₂.wf f' args')).mono
    fun r s' hs' hr => ?_
  have hlater := later_frame.trans hs hs'
  replace hf' := (hf'.keep hσ hs₁ hs₂).keep hσ hs hs'
  replace hargs' : List.Forall₂ (s'.Becomes σ) args args' := hargs'.imp fun _ _ hr =>
    hr.keep hσ hs hs'
  obtain ⟨hlen, hzip⟩ := List.forall₂_iff_zip.mp hargs'
  obtain ⟨ty', hrn, hr⟩ := hr
  -- the head keeps its type, and with it the range
  obtain rfl : ty' = ty := by
    obtain ⟨tf', domain', hf'', hdom', -⟩ := hs'.wf.typed hrn
    rw [hf''.unique (hf'.has_of_later hσ hlater hf), hlater.ext.ty hdom] at hdom'
    cases hdom'
    rfl
  exact .app hp hnone (hlater.ext.node hn) hf' hlen hzip hr hrn

theorem all_subs {body : Term} (hn : s.node? p = some (.all vars body, ty)) :
    Subs s σ (if vars.any σ.contains then do
        let inner := vars.foldl (fun m v => m.erase v) σ
        let body ← if inner.isEmpty then Pure.pure body else (sub inner body).run' ∅
        liftM (all vars body)
      else do
        let body ← sub σ body
        liftM (all vars body)) fun r s' => s'.Becomes σ p r := by
  obtain ⟨rfl, -, -, hbody⟩ := hw.typed hn
  -- whatever substitution was applied to the body, the new quantifier is made in the same way
  have hlast {τ : Subst} {s₁ : Store} {body' : Term} (hs₁ : Later s s₁) (hτ : Shadows vars σ τ)
      (hb : s₁.Becomes τ body body') : Subs s₁ σ (liftM (all vars body')) fun r s' =>
      s'.Becomes σ p r := by
    refine (Subs.lift (hσ.extends_ hs₁.ext) hs₁.wf (all_quantifies hs₁.wf vars body')).mono
      fun r s' hs' hr => ?_
    exact .all hp hnone ((later_frame.trans hs₁ hs').ext.node hn) hτ
      (hb.keep (hτ.assigns hσ) hs₁ hs') hr
  split
  next =>
    have hτ : Shadows vars σ (vars.foldl (fun m v => m.erase v) σ) := getElem?_foldl_erase vars σ
    generalize vars.foldl (fun m v => m.erase v) σ = inner at hτ
    simp only
    split
    next hempty =>
      exact .bind (.pure hw (Becomes.refl hw hempty hbody)) fun body' s₁ hs₁ hb => hlast hs₁ hτ hb
    next =>
      have hrun := Subs.run' (hsub inner body s (later_frame.refl hw) (hτ.assigns hσ) ⟨_, hbody⟩)
      exact .bind (.lift hσ hw hrun) fun body' s₁ hs₁ hb => hlast hs₁ hτ hb
  next hany =>
    refine .bind (hsub.part hσ (later_frame.refl hw) ⟨_, hbody⟩) fun body' s₁ hs₁ hb =>
      hlast hs₁ (fun x => ?_) hb
    split
    next hmem =>
      simp only [List.any_eq_true, not_exists, not_and, Bool.not_eq_true] at hany
      exact Std.HashMap.getElem?_eq_none_of_contains_eq_false (hany x hmem)
    next => rfl

omit hw hp hnone hsub in
/-- What the arguments of an operation on words become are words of the same width. -/
theorem type_of_becomes {s₁ : Store} {ty' : Ty} {args rs : List Term} {w : Nat} (hne : args ≠ [])
    (hargs : ∀ a ∈ args, s.Has a ty) (hs : Later s s₁)
    (hrs : List.Forall₂ (s₁.Becomes σ) args rs) (hs' : Later s₁ s')
    (hty' : s₁.tyShape? ty' = some (.bitVector w))
    (hall : ∀ r ∈ rs, s₁.Has r ty') : ty' = ty ∧ Interp.width s' (args.headD .top) = w := by
  cases hrs with
  | nil => exact absurd rfl hne
  | @cons a r _ _ har _ =>
    have ha := hargs a List.mem_cons_self
    obtain rfl := (hall r List.mem_cons_self).unique (har.has_of_later hσ hs ha)
    exact ⟨rfl, Interp.width_of_ty ((later_frame.trans hs hs').ext.has ha) (hs'.ext.ty hty')⟩

/-- Rebuilding one node, when `sub` is right on its parts. -/
theorem rebuild_subs (ht : s.Has p ty) :
    Subs s σ (rebuild sub σ p) fun r s' => s'.Becomes σ p r := by
  obtain ⟨⟨shape, hn⟩, -⟩ := ht
  have htyped := hw.typed hn
  have hshape : s.shape? p = some shape := by simp [shape?, hn]
  unfold rebuild
  refine .look_bind ?_
  rw [hshape]
  -- the constructor of a shape keeps its meaning, and the parts became what they stand for
  cases shape with
  | uninterpreted | var => exact .pure hw (.atom hp hnone hn rfl)
  | truth | bvConst =>
    exact .pure hw (.node hp hnone hn rfl rfl (fun h => (List.not_mem_nil h).elim)
      (stands_of_node hn hp rfl fun _ _ _ hc => (List.not_mem_nil hc).elim))
  | ite c a b =>
    refine rebuild_three hw hσ hp hnone hn hsub rfl rfl fun hs hc ha hb => ?_
    refine (ite_stands hs.wf _ _ _).mono fun r s' hs' hr => ?_
    obtain ⟨ty', ha', -, -, hst⟩ := hr
    exact ha'.unique (ha.has_of_later hσ hs htyped.2.1) ▸ hst
  | eq a b =>
    obtain ⟨rfl, -⟩ := htyped
    exact rebuild_two hw hσ hp hnone hn hsub rfl rfl fun hs ha hb =>
      (eq_stands hs.wf _ _).mono fun _ _ _ hr => hr.2
  | xor a b =>
    obtain ⟨rfl, -⟩ := htyped
    exact rebuild_two hw hσ hp hnone hn hsub rfl rfl fun hs ha hb => xor2_stands hs.wf _ _
  | bvGe a b =>
    obtain ⟨rfl, -⟩ := htyped
    exact rebuild_two hw hσ hp hnone hn hsub rfl rfl fun hs ha hb =>
      (bvGe_stands hs.wf _ _).mono fun _ _ _ hr => hr.2
  | bvSge a b =>
    obtain ⟨rfl, w, ⟨ta, ha, hta⟩, -⟩ := htyped
    refine rebuild_two hw hσ hp hnone hn hsub rfl rfl fun hs ha' hb' => ?_
    refine (bvSge_stands hs.wf _ _).mono fun r s' hs' hr => ?_
    obtain ⟨w', hwa, -, hst⟩ := hr
    obtain rfl : w' = w := hwa.unique ⟨ta, ha'.has_of_later hσ hs ha, hs.ext.ty hta⟩
    have hlater := later_frame.trans hs hs'
    have hwidth : s'.partWidth (.bvSge a b) = w' :=
      Interp.width_of_ty (hlater.ext.has ha) (hlater.ext.ty hta)
    exact hst.congr fun _ _ => by rw [hwidth]; rfl
  | bvNeg x =>
    obtain ⟨hx, w, hty⟩ := htyped
    refine rebuild_one hw hσ hp hnone hn hsub rfl rfl fun hs hx' => ?_
    refine (bvNeg_stands hs.wf _).mono fun r s' hs' hr => ?_
    obtain ⟨ty', w', hty', hx'', -, hst⟩ := hr
    obtain rfl := hx''.unique (hx'.has_of_later hσ hs hx)
    obtain rfl : w' = w := by
      rw [hs.ext.ty hty] at hty'
      cases hty'
      rfl
    have hlater := later_frame.trans hs hs'
    have hwidth : s'.partWidth (.bvNeg x) = w' :=
      Interp.width_of_ty (hlater.ext.has hx) (hlater.ext.ty hty)
    exact hst.congr fun _ _ => by rw [hwidth]; rfl
  | bit x i =>
    obtain ⟨rfl, -⟩ := htyped
    exact rebuild_one (f := (bit · i)) hw hσ hp hnone hn hsub rfl rfl fun hs hx =>
      (bit_stands hs.wf _ _).mono fun _ _ _ hr => hr.2.2
  | or args =>
    obtain ⟨rfl, -⟩ := htyped
    refine rebuild_list hw hσ hp hnone hn hsub rfl rfl fun hs hrs => ?_
    exact (or_stands hs.wf _).mono fun _ _ _ hr => hr.congr fun _ _ => Val.ofProp_congr (by simp)
  | bvSum args =>
    obtain ⟨hne, hargs, -⟩ := htyped
    refine rebuild_list hw hσ hp hnone hn hsub rfl rfl fun {s₁ rs} hs hrs => ?_
    refine (bvSum_stands hs.wf _).mono fun r s' hs' hr => ?_
    obtain ⟨ty', w', hty', hrs', -, hst⟩ := hr
    obtain ⟨rfl, hwidth⟩ := type_of_becomes hσ hne hargs hs hrs hs' hty' hrs'
    exact hst.congr fun _ _ => by
      simp only [Term.Shape.combine, partWidth, Term.Shape.children, hwidth, List.map_map]
      rfl
  | bvProduct args =>
    obtain ⟨hne, hargs, -⟩ := htyped
    refine rebuild_list hw hσ hp hnone hn hsub rfl rfl fun {s₁ rs} hs hrs => ?_
    refine (bvProduct_stands hs.wf _).mono fun r s' hs' hr => ?_
    obtain ⟨ty', w', hty', hrs', hst⟩ := hr
    obtain ⟨rfl, hwidth⟩ := type_of_becomes hσ hne hargs hs hrs hs' hty' hrs'
    exact hst.congr fun _ _ => by
      simp only [Term.Shape.combine, partWidth, Term.Shape.children, hwidth, List.map_map]
      rfl
  | app f args => exact app_subs hw hσ hp hnone hsub hn
  | all vars body => exact all_subs hw hσ hp hnone hsub hn

end Cases

/-- Whatever the depth, a substitution that ends gives what the term becomes. -/
theorem substAt_sound (depth : Nat) (hw : s.Wf) : s.Sound (substAt depth) := by
  induction depth generalizing s with
  | zero =>
    intro σ t s' hs hσ ht
    exact .throw hs.wf _
  | succ depth ih =>
    intro σ t s' hs hσ ht
    obtain ⟨ty, ht⟩ := ht
    unfold substAt
    cases hx : σ[t.positive]? with
    | some r =>
      simp only [hx]
      exact .pure hs.wf (Becomes.negIf (.key (Term.isNegated_positive t) hx) ht)
    | none =>
      simp only [hx]
      refine .get_bind fun memo hm => ?_
      cases hr : memo[t.positive]? with
      | some r => exact .pure hs.wf ((hm hr).negIf ht)
      | none =>
        have hreb := rebuild_subs hs.wf hσ (Term.isNegated_positive t) hx (ih hs.wf) ht.positive
        refine .bind hreb fun r s'' hs' hr =>
          .modify_bind (fun m hm p q hp => ?_) (.pure hs'.wf (hr.negIf (hs'.ext.has ht)))
        rw [Std.HashMap.getElem?_insert] at hp
        split at hp
        next heq =>
          cases hp
          rwa [← eq_of_beq heq]
        next => exact hm hp

/-- With keys, `subst` does not stop at once. -/
theorem subst_of_nonempty (h : σ.isEmpty = false) (t : Term) (s : Store) :
    subst σ t s = (substAt (s.terms.slots.size + 1) σ t).run' ∅ s := by
  unfold subst
  rw [h]
  rfl

/-- Applying a substitution to a live term gives what the term becomes. -/
theorem subst_becomes (hw : s.Wf) (hσ : s.Assigns σ) (ht : s.Has t ty) :
    Builds s (subst σ t) fun r s' => s'.Becomes σ t r := by
  unfold subst
  split
  next hempty => exact .pure hw (Becomes.refl hw hempty ht)
  next =>
    refine .look_bind ?_
    exact Subs.run' (substAt_sound _ hw σ t s (later_frame.refl hw) hσ ⟨ty, ht⟩)

end Entail.Store
