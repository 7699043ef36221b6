import Entail.Proofs.Store.Becomes

/-!
# What a substitution builds

Putting closed terms for atoms, and rebuilding what is above them, gives a term of the same type.
Its value is that of the old term, read with the values of the new terms for the replaced atoms.
Below a quantifier the values of bound variables may change, but closed terms do not notice.
-/

namespace Entail.Store

variable {s s' : Store} {σ : Subst}

/-- Atoms that are no functions are replaced by closed first-order terms of their types. -/
def SubstOk (s : Store) (σ : Subst) : Prop :=
  ∀ ⦃x v : Term⦄, σ[x]? = some v → x.isNegated = false ∧ ∃ ty n,
    (s.node? x = some (.uninterpreted ty n, ty) ∨ s.node? x = some (.var ty n, ty)) ∧ s.Has v ty ∧
      s.FirstOrder [] v ∧
      s.isFunctionTy ty = false

/-- `ρ'` gives every atom the value that its replacement has under `ρ`. -/
structure Agrees (s : Store) (I : Interp) (σ : Subst) (ρ ρ' : I.Env) : Prop where
  replaced : ∀ {x v}, σ[x]? = some v → I.value s ρ v = I.value s ρ' x
  other : ∀ {y}, s.IsVar y → σ[y]? = none → ρ y = ρ' y

/-- `r` is what `t` becomes under `σ`. -/
structure Replaced (s : Store) (σ : Subst) (t r : Term) : Prop where
  live : ∃ ty, s.Has t ty ∧ s.Has r ty
  first : ∀ {vs ws}, (∀ v ∈ ws, v ∈ vs ∨ ∃ u, σ[v]? = some u) → s.FirstOrder ws t →
    s.FirstOrder vs r
  value : ∀ {ws}, s.FirstOrder ws t → ∀ {I : Interp} {ρ ρ' : I.Env}, I.Fits s → I.EnvFits s ρ →
    I.EnvFits s ρ' →
    s.Agrees I σ ρ ρ' → I.value s ρ r = I.value s ρ' t
  const : (s.shape t).isUninterpreted = true → σ[t.positive]? = none → r = t

theorem SubstOk.later (hσ : s.SubstOk σ) (hw : s.Wf) (hs : Later s s') : s'.SubstOk σ := by
  intro x v hx
  obtain ⟨hneg, ty, n, hn, hv, hfo, hfun⟩ := hσ hx
  refine ⟨hneg, ty, n, hn.imp (fun h => hs.ext.node h) fun h => hs.ext.node h, hs.ext.has hv,
    hfo.extends_ hw hs.ext, ?_⟩
  obtain ⟨shape, hty⟩ := hw.ty_live hv
  unfold isFunctionTy at hfun ⊢
  rwa [hs.ext.ty hty, ← hty]

theorem SubstOk.assigns (hσ : s.SubstOk σ) : s.Assigns σ := by
  intro x v hx
  obtain ⟨hneg, ty, n, hn, hv, -, -⟩ := hσ hx
  refine ⟨ty, ⟨?_, by simp [hneg]⟩, hv⟩
  rcases hn with hn | hn
  · exact ⟨_, hn⟩
  · exact ⟨_, hn⟩

theorem Replaced.neg (hw : s.Wf) {t r : Term} (h : s.Replaced σ t r) (ht : s.Has t .bool) :
    s.Replaced σ t.neg r.neg := by
  obtain ⟨ty, hty, hr⟩ := h.live
  have hbool := hty.unique ht
  subst hbool
  refine ⟨⟨.bool, ht.neg, hr.neg⟩, ?_, ?_, ?_⟩
  · intro vs ws hsub hfo
    have := hfo.neg
    rw [Term.neg_neg] at this
    exact (h.first hsub this).neg
  · intro ws hfo I ρ ρ' hI hρ hρ' hag
    have := hfo.neg
    rw [Term.neg_neg] at this
    rw [Interp.value_neg hw hr, Interp.value_neg hw ht, h.value this hI hρ hρ' hag]
  · intro hc hnone
    have hshape : s.shape t.neg = s.shape t := by simp [shape, shape?, node?]
    rw [hshape] at hc
    rw [Term.positive_neg] at hnone
    rw [h.const hc hnone]

/-! ## Node by node -/

/-- The parts of a node are replaced one by one. -/
theorem Replaced.parts {cs kids : List Term} (h : List.Forall₂ (s.Replaced σ) cs kids)
    {ws : List Term} (hcs : ∀ c ∈ cs, s.FirstOrder ws c) :
    (∀ vs, (∀ v ∈ ws, v ∈ vs ∨ ∃ u, σ[v]? = some u) → ∀ k ∈ kids, s.FirstOrder vs k) ∧
      ∀ {I : Interp} {ρ ρ' : I.Env}, I.Fits s → I.EnvFits s ρ → I.EnvFits s ρ' → s.Agrees I σ ρ ρ' →
        kids.map (I.value s ρ) = cs.map (I.value s ρ') := by
  induction h with
  | nil => exact ⟨by simp, fun _ _ _ _ => rfl⟩
  | cons hck _ ih =>
    obtain ⟨hfirst, hvalue⟩ := ih fun c hc => hcs c (List.mem_cons_of_mem _ hc)
    have hc := hcs _ List.mem_cons_self
    refine ⟨fun vs hsub => List.forall_mem_cons.mpr ⟨hck.first hsub hc, hfirst vs hsub⟩,
      fun hI hρ hρ' hag => ?_⟩
    rw [List.map_cons, List.map_cons, hck.value hc hI hρ hρ' hag, hvalue hI hρ hρ' hag]

/-- A node of an interpreted shape whose parts were replaced. -/
theorem replaced_of_stands {p r : Term} {shape : Term.Shape} {ty : Ty}
    {kids : List Term} (hw : s.Wf) (hn : s.node? p = some (shape, ty)) (hp : p.isNegated = false)
    (hshape : shape.isInterpreted = true) (hkids : List.Forall₂ (s.Replaced σ) shape.children kids)
    (hst : s.Stands kids r ty fun _ v => shape.combine (s.partWidth shape) (kids.map v)) :
    s.Replaced σ p r := by
  have hpty : s.Has p ty := ⟨⟨_, hn⟩, by simp [hp]⟩
  have hden := hst.denotes hw
  have hch {ws : List Term} (hfo : s.FirstOrder ws p) : ∀ c ∈ shape.children, s.FirstOrder ws c :=
      fun c hc =>
    hfo.children hn (Term.Shape.not_atom_of_isInterpreted hshape).2.2 hc
  refine ⟨⟨ty, hpty, hden.has⟩, ?_, ?_, ?_⟩
  · intro vs ws hsub hfo
    exact hden.closed vs ((Replaced.parts hkids (hch hfo)).1 vs hsub)
  · intro ws hfo I ρ ρ' hI hρ hρ' hag
    rw [hden.value I ρ hI hρ, Interp.value_eq hw hn, hp, Term.positive_of_not_isNegated hp,
      Interp.node_eq_combine hpty (hw.typed hn) hshape,
        (Replaced.parts hkids (hch hfo)).2 hI hρ hρ' hag]
    rfl
  · intro hcon
    rw [Interp.node?_of_shape hn, (Term.Shape.not_atom_of_isInterpreted hshape).1] at hcon
    cases hcon

/-- An atom that is not replaced stays. -/
theorem replaced_self (hw : s.Wf) {p : Term} {shape : Term.Shape} {ty : Ty}
    (hn : s.node? p = some (shape, ty))
    (hp : p.isNegated = false) (hatom : shape.children = []) (hnone : σ[p]? = none) :
    s.Replaced σ p p := by
  refine ⟨⟨ty, ⟨⟨_, hn⟩, by simp [hp]⟩, ⟨⟨_, hn⟩, by simp [hp]⟩⟩, ?_, ?_, fun _ _ => rfl⟩
  · intro vs ws hsub hfo
    cases hfo with
    | var hn' hv =>
      refine .var hn' ?_
      rw [Term.positive_of_not_isNegated hp] at hv ⊢
      rcases hsub p hv with hmem | ⟨u, hu⟩
      · exact hmem
      · rw [hnone] at hu
        cases hu
    | all hn' _ =>
      rw [hn] at hn'
      cases hn'
      simp [Term.Shape.children] at hatom
    | node hn' hv hq hh hkids =>
      refine .node hn' hv hq hh ?_
      rw [hn] at hn'
      cases hn'
      simp [hatom]
  · intro ws hfo I ρ ρ' hI hρ hρ' hag
    rw [Interp.value_eq hw hn, Interp.value_eq hw hn, hp, Term.positive_of_not_isNegated hp]
    cases shape with
    | truth | bvConst | uninterpreted => rfl
    | var ty' n =>
      obtain ⟨rfl, -⟩ := hw.typed hn
      exact hag.other ⟨hp, _, _, hn⟩ hnone
    | all vars body => simp [Term.Shape.children] at hatom
    | or args | bvSum args | bvProduct args =>
      simp only [Term.Shape.children] at hatom
      subst hatom
      simp [Interp.node]
    | _ => cases hatom

theorem replaced_of_mem {x v : Term} (hσ : s.SubstOk σ) (hx : σ[x]? = some v) :
    s.Replaced σ x v := by
  obtain ⟨ty, hxty, hvty⟩ := hσ.assigns hx
  obtain ⟨hneg, -, -, -, -, hfo, -⟩ := hσ hx
  refine ⟨⟨ty, hxty, hvty⟩, fun _ _ => hfo.mono (by simp), fun _ _ _ _ _ _ _ hag => hag.replaced hx,
    fun _ hnone => ?_⟩
  rw [Term.positive_of_not_isNegated hneg, hx] at hnone
  cases hnone

/-- A quantifier whose body was replaced under the smaller substitution `τ`. -/
theorem replaced_all (hw : s.Wf) {τ : Subst} {p r body body' : Term} {vars : List Term} {ty : Ty}
    (hσ : s.SubstOk σ) (hn : s.node? p = some (.all vars body, ty)) (hp : p.isNegated = false)
    (hτ : ∀ x : Term, τ[x]? = if x ∈ vars then none else σ[x]?) (hbody : s.Replaced τ body body')
    (hr : s.Has r .bool) (hfirst : ∀ vs, s.FirstOrder (vars ++ vs) body' → s.FirstOrder vs r)
    (hval : ∀ (I : Interp) (ρ : I.Env), I.value s ρ r = I.node s (I.value s) ρ r
      (.all vars body')) :
    s.Replaced σ p r := by
  obtain ⟨rfl, -, hvars, -⟩ := hw.typed hn
  -- the body of a closed quantifier is closed over the bound variables
  have hbodyFO : ∀ {ws}, s.FirstOrder ws p → s.FirstOrder (vars ++ ws) body := by
    intro ws hfo
    cases hfo with
    | var hn' _ =>
      rw [hn] at hn'
      cases hn'
    | all hn' hb =>
      rw [hn] at hn'
      cases hn'
      exact hb
    | node hn' _ hq =>
      rw [hn] at hn'
      cases hn'
      cases hq
  refine ⟨⟨.bool, ⟨⟨_, hn⟩, by simp [hp]⟩, hr⟩, ?_, ?_, ?_⟩
  · intro vs ws hsub hfo
    refine hfirst vs (hbody.first ?_ (hbodyFO hfo))
    intro v hv
    by_cases hmem : v ∈ vars
    · exact .inl (List.mem_append_left _ hmem)
    · rcases hsub v ((List.mem_append.mp hv).resolve_left hmem) with hvs | ⟨u, hu⟩
      · exact .inl (List.mem_append_right _ hvs)
      · exact .inr ⟨u, by rw [hτ, if_neg hmem, hu]⟩
  · intro ws hfo I ρ ρ' hI hρ hρ' hag
    rw [hval, Interp.value_eq hw hn, hp]
    refine congrArg Val.ofProp (propext (forall₂_congr fun xs hxs => ?_))
    have henv : ∀ {ρ : I.Env}, I.EnvFits s ρ → I.EnvFits s (Interp.rebind ρ vars xs) := by
      intro ρ hρ v tv n hv
      unfold Interp.rebind
      split
      next hmem =>
        obtain ⟨tv', htv'⟩ := (hvars v hmem).has
        have hty : s.ty v = tv := by simp [Store.ty, hv]
        exact hty ▸ hxs v hmem
      next => exact hρ v tv n hv
    rw [hbody.value (hbodyFO hfo) hI (henv hρ) (henv hρ')]
    constructor
    · intro x v hx
      rw [hτ] at hx
      split at hx
      · cases hx
      next hmem =>
        obtain ⟨hneg, tx, n, hnx, -, hvfo, -⟩ := hσ hx
        -- replacements are closed, so binding the variables does not change their values
        have hclosed : I.value s (Interp.rebind ρ vars xs) v = I.value s ρ v :=
          hvfo.value_eq hw (by simp)
        rw [hclosed, hag.replaced hx]
        rcases hnx with hnx | hnx
        · rw [Interp.value_eq hw hnx, Interp.value_eq hw hnx]
          rfl
        · rw [Interp.value_eq hw hnx, Interp.value_eq hw hnx, Term.positive_of_not_isNegated hneg]
          simp only [Interp.node, Interp.rebind, if_neg hmem]
    · intro y hy hnone
      unfold Interp.rebind
      split
      · rfl
      next hmem =>
        rw [hτ, if_neg hmem] at hnone
        exact hag.other hy hnone
  · intro hc
    rw [Interp.node?_of_shape hn] at hc
    cases hc

/-- A function symbol is not replaced. -/
theorem head_not_replaced (hσ : s.SubstOk σ) {f : Term} {tf : Ty} {domain : List Ty} {range : Ty}
    (hf : s.Has f tf) (hshape : s.tyShape? tf = some (.function domain range)) :
    σ[f.positive]? = none := by
  cases hx : σ[f.positive]? with
  | none => rfl
  | some v =>
    obtain ⟨-, tx, n, hnx, -, -, hfun⟩ := hσ hx
    obtain ⟨ty', hxty, -⟩ := hσ.assigns hx
    have htf : tx = tf := by
      obtain ⟨⟨shape, hfn⟩, -⟩ := hf.positive
      rcases hnx with hnx | hnx <;> rw [hfn] at hnx <;> cases hnx <;> rfl
    rw [htf] at hfun
    simp [isFunctionTy, hshape] at hfun

/-- An application whose head and arguments were replaced. -/
theorem replaced_app (hw : s.Wf) (hσ : s.SubstOk σ) {p r f f' : Term} {args args' : List Term}
    {ty : Ty}
    (hn : s.node? p = some (.app f args, ty)) (hp : p.isNegated = false) (hf : s.Replaced σ f f')
    (hargs : List.Forall₂ (s.Replaced σ) args args') (hrn : s.node? r = some (.app f' args', ty))
    (hr : r.isNegated = false) : s.Replaced σ p r := by
  obtain ⟨tf, domain, hfty, hdom, -⟩ := hw.typed hn
  -- the head of a first-order term is a function symbol, so it is the same one
  have hhead {ws : List Term} (hfo : s.FirstOrder ws p) : f' = f :=
    hf.const (hfo.headOk hn) (head_not_replaced hσ hfty hdom)
  have hkids {ws : List Term} (hfo : s.FirstOrder ws p) : ∀ c ∈ args, s.FirstOrder ws c :=
      fun c hc =>
    hfo.children hn rfl (List.mem_cons_of_mem _ hc)
  refine ⟨⟨ty, ⟨⟨_, hn⟩, by simp [hp]⟩, ⟨⟨_, hrn⟩, by simp [hr]⟩⟩, ?_, ?_, ?_⟩
  · intro vs ws hvs hfo
    obtain rfl := hhead hfo
    have hhd : s.HeadOk (.app f' args) := hfo.headOk hn
    have hfirst := hf.first hvs (hfo.children hn rfl List.mem_cons_self)
    exact .node hrn rfl rfl hhd
      (List.forall_mem_cons.mpr ⟨hfirst, (Replaced.parts hargs (hkids hfo)).1 vs hvs⟩)
  · intro ws hfo I ρ ρ' hI hρ hρ' hag
    obtain rfl := hhead hfo
    have hhd := hfo.headOk hn
    rw [Interp.value_eq hw hrn, Interp.value_eq hw hn, hr, hp]
    simp only [Interp.node, (Replaced.parts hargs (hkids hfo)).2 hI hρ hρ' hag]
    cases hsh : s.shape f' with
    | uninterpreted => rfl
    | _ =>
      simp only [HeadOk, hsh] at hhd
      cases hhd
  · intro hcon
    rw [Interp.node?_of_shape hn] at hcon
    cases hcon

/-- What a term becomes replaces it. -/
theorem Becomes.replaced (hw : s.Wf) (hσ : s.SubstOk σ) {t r : Term} (h : s.Becomes σ t r) :
    s.Replaced σ t r := by
  induction h with
  | key _ hx => exact replaced_of_mem hσ hx
  | @atom _ _ shape _ hp hnone hn hatom =>
    exact replaced_self hw hn hp (by cases shape <;> first | rfl | cases hatom) hnone
  | node hp _ hn hshape hlen _ hst ih =>
    exact replaced_of_stands hw hn hp hshape (List.forall₂_iff_zip.mpr ⟨hlen, fun hab => ih hab hσ⟩)
      hst
  | app hp _ hn _ hlen _ hr hrn ihf ih =>
    exact replaced_app hw hσ hn hp (ihf hσ) (List.forall₂_iff_zip.mpr ⟨hlen, fun hab => ih hab hσ⟩)
      hrn hr
  | all hp _ hn hτ _ hr ih =>
    have hok := ih fun x v hx => hσ (hτ.getElem?_eq_some.mp hx).2
    exact replaced_all hw hσ hn hp hτ hok hr.has (fun _ => hr.closed hw) (hr.value hw)
  | neg _ hbool _ ih => exact (ih hσ).neg hw hbool

/-- Applying a substitution to a live term. -/
theorem subst_builds (hw : s.Wf) (hσ : s.SubstOk σ) {t : Term} {ty : Ty} (ht : s.Has t ty) :
    Builds s (subst σ t) fun r s' => s'.Replaced σ t r :=
  (subst_becomes hw hσ.assigns ht).mono fun _ _ hs hr => hr.replaced hs.wf (hσ.later hw hs)

end Entail.Store
