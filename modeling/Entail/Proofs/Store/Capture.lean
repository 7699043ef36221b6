import Entail.Proofs.Store.Runs
import Entail.Proofs.Structures
import Mathlib

/-!
# Substitution and meaning

A substitution leaves bound variables alone, but it does not rename them: a variable of a
replacement is captured when the replacement comes below a quantifier that binds it. Where none
is captured, what a term becomes means what the term means when every key has the meaning of
its replacement.
-/

namespace Entail.Store

variable {s s' : Store} {σ : Subst} {t r x : Term} {ty : Ty} {pairs : List (Term × Term)}

/-- `x` occurs in `t` where no quantifier binds it. -/
inductive FreeIn (s : Store) (x : Term) : Term → Prop where
  | self {t : Term} (h : t.positive = x) : FreeIn s x t
  | part {t c : Term} {shape : Term.Shape} {ty : Ty} (hn : s.node? t = some (shape, ty))
    (hq : shape.isQuantifier = false) (hc : c ∈ shape.children) (h : FreeIn s x c) : FreeIn s x t
  | body {t body : Term} {vars : List Term} {ty : Ty} (hn : s.node? t = some (.all vars body, ty))
    (hx : x ∉ vars)
    (h : FreeIn s x body) : FreeIn s x t

/-- Applying `σ` to `t` puts a term below a quantifier that binds a variable of it: at a
quantifier of `t`, some key occurs free in the body, and one of the variables occurs free in what
is put for the key. -/
inductive Captures (s : Store) : Subst → Term → Prop where
  | here {σ : Subst} {t body x v u : Term} {vars : List Term} {ty : Ty}
    (hn : s.node? t = some (.all vars body, ty))
    (hx : σ[x]? = some v) (hfree : x ∉ vars) (hbody : s.FreeIn x body) (hu : u ∈ vars)
    (hv : s.FreeIn u v) :
    Captures s σ t
  | part {σ : Subst} {t c : Term} {shape : Term.Shape} {ty : Ty} (hn : s.node? t = some (shape, ty))
    (hq : shape.isQuantifier = false) (hc : c ∈ shape.children) (h : Captures s σ c) :
    Captures s σ t
  | body {σ τ : Subst} {t body : Term} {vars : List Term} {ty : Ty}
    (hn : s.node? t = some (.all vars body, ty))
    (hτ : Shadows vars σ τ) (h : Captures s τ body) : Captures s σ t

theorem Captures.of_neg (h : s.Captures σ t) : s.Captures σ t.neg := by
  have hnode {n : Term.Shape × Ty} (hn : s.node? t = some n) : s.node? t.neg = some n := by
    rwa [node?, Term.index_neg]
  cases h with
  | here hn hx hfree hbody hu hv => exact .here (hnode hn) hx hfree hbody hu hv
  | part hn hq hc h => exact .part (hnode hn) hq hc h
  | body hn hτ h => exact .body (hnode hn) hτ h

theorem FreeIn.of_extends (h : s'.FreeIn x t) (hw : s.Wf) (e : s.Extends s') (ht : s.Has t ty) :
    s.FreeIn x t := by
  induction h generalizing ty with
  | self h => exact .self h
  | part hn hq hc _ ih =>
    have hn := node_of_extends e ht hn
    obtain ⟨tc, htc⟩ := (hw.typed hn).live hc
    exact .part hn hq hc (ih htc)
  | body hn hx _ ih =>
    have hn := node_of_extends e ht hn
    exact .body hn hx (ih (hw.typed hn).2.2.2)

/-- What is captured in a store that has grown was captured before. -/
theorem Captures.of_extends (h : s'.Captures σ t) (hw : s.Wf) (e : s.Extends s') (hσ : s.Assigns σ)
    (ht : s.Has t ty) :
    s.Captures σ t := by
  induction h generalizing ty with
  | here hn hx hfree hbody hu hv =>
    have hn := node_of_extends e ht hn
    obtain ⟨tv, -, hvty⟩ := hσ hx
    exact .here hn hx hfree (hbody.of_extends hw e (hw.typed hn).2.2.2) hu (hv.of_extends hw e hvty)
  | part hn hq hc _ ih =>
    have hn := node_of_extends e ht hn
    obtain ⟨tc, htc⟩ := (hw.typed hn).live hc
    exact .part hn hq hc (ih hσ htc)
  | body hn hτ _ ih =>
    have hn := node_of_extends e ht hn
    exact .body hn hτ (ih (hτ.assigns hσ) (hw.typed hn).2.2.2)

theorem FirstOrder.body {vs vars : List Term} {body : Term} (h : s.FirstOrder vs t)
    (hn : s.node? t = some (.all vars body, ty)) : s.FirstOrder (vars ++ vs) body := by
  cases h with
  | var hv => cases hv.symm.trans hn
  | all hall hbody => cases hall.symm.trans hn; exact hbody
  | node hnode _ hq => cases hnode.symm.trans hn; cases hq

/-- Variables that occur free in a first-order term are among its free variables. -/
theorem FirstOrder.mem_of_freeIn {vs : List Term} (h : s.FirstOrder vs t) (hx : s.FreeIn x t)
    (hvar : s.IsVar x) : x ∈ vs := by
  induction hx generalizing vs with
  | @self t heq =>
    obtain ⟨-, ty, n, hn⟩ := hvar
    rw [← heq, node?, Term.index_positive] at hn
    cases h with
    | var _ hmem => exact heq ▸ hmem
    | all hall => cases hall.symm.trans hn
    | node hnode hv => cases hnode.symm.trans hn; cases hv
  | part hn hq hc _ ih => exact ih (h.children hn hq hc)
  | body hn hbound _ ih => exact (List.mem_append.mp (ih (h.body hn))).resolve_left hbound

/-- Closed terms are put for anything without capturing a variable. -/
theorem not_captures (hw : s.Wf) (hσ : ∀ x v : Term, σ[x]? = some v → s.FirstOrder [] v) :
    ¬ s.Captures σ t := by
  intro h
  induction h with
  | here hn hx _ _ hu hv =>
    exact List.not_mem_nil ((hσ _ _ hx).mem_of_freeIn hv ((hw.typed hn).2.2.1 _ hu))
  | part _ _ _ _ ih => exact ih hσ
  | body _ hτ _ ih => exact ih fun x v hx => hσ x v (hτ.getElem?_eq_some.mp hx).2

/-- Constants and variables are put for. -/
def KeysAtoms (s : Store) (σ : Subst) : Prop :=
  ∀ ⦃x v : Term⦄, σ[x]? = some v → x.isNegated = false ∧
    ∃ shape ty, s.node? x = some (shape, ty) ∧ (shape.isUninterpreted || shape.isVariable) = true

theorem KeysAtoms.extends_ (h : s.KeysAtoms σ) (e : s.Extends s') : s'.KeysAtoms σ := fun _ _ hx =>
  (h hx).imp_right fun ⟨shape, ty, hn, hatom⟩ => ⟨shape, ty, e.node hn, hatom⟩

/-- A quantifier, or the constant that stands for it, has the value of a quantifier. -/
theorem Quantifies.structure_value (h : s.Wf) {vars : List Term} {body : Term}
    (hq : s.Quantifies vars body r)
    (M : Structure) (ρ : M.Env) : M.value s ρ r = M.node s (M.value s) ρ r (.all vars body) := by
  rcases hq.shape with ⟨hr, hn⟩ | ⟨rfl, rfl | rfl⟩
  · exact Structure.value_of_node h hn hr ρ
  · have htop (ρ : M.Env) : M.value s ρ .top = .bool true := Structure.value_of_node h h.truth rfl ρ
    simp only [Structure.node, htop]
    exact (Val.ofProp_eq_bool (by simp)).symm
  · have hbot (ρ : M.Env) : M.value s ρ .bot = .bool false := by
      have hneg := Structure.value_neg h ⟨⟨_, h.truth⟩, fun _ => rfl⟩ ρ
      rwa [Structure.value_of_node h h.truth rfl ρ] at hneg
    simp only [Structure.node, hbot]
    refine (Val.ofProp_eq_bool ?_).symm
    simp only [Val.toBool_bool, Bool.false_eq_true, imp_false, iff_false]
    choose xs hxs using fun v => Val.exists_inhabits M.nonempty s (s.ty v)
    exact fun hall => hall xs fun v _ => hxs v

end Entail.Store

/-! ## Meaning -/

namespace Entail.Structure

open Store

variable {M : Structure} {s s' : Store} {σ τ : Subst} {ρ ρ' : M.Env} {t r : Term} {ty : Ty}
  {vars : List Term}

/-- The meaning of a term depends on what occurs free in it only. -/
theorem value_congr (h : s.Wf) (ht : s.Has t ty) (hρ : ∀ x, s.FreeIn x t → ρ x = ρ' x) :
    M.value s ρ t = M.value s ρ' t := by
  refine h.induct (P := fun t => ∀ ρ ρ' : M.Env, (∀ x, s.FreeIn x t → ρ x = ρ' x) →
    M.value s ρ t = M.value s ρ' t)
    (fun {t shape ty} ht hn ih ρ ρ' hρ => ?_) ht ρ ρ' hρ
  rw [value_eq h hn, value_eq h hn]
  refine congrArg _ ?_
  have hparts (hq : shape.isQuantifier = false) : ∀ c ∈ shape.children,
      M.value s ρ c = M.value s ρ' c := fun c hc =>
    ih c hc ρ ρ' fun x hx => hρ x (.part hn hq hc hx)
  by_cases hshape : shape.isInterpreted = true
  · rw [node_eq_combine hshape, node_eq_combine hshape,
      List.map_congr_left (hparts (Term.Shape.not_atom_of_isInterpreted hshape).2.2)]
  cases shape with
  | uninterpreted | var => exact hρ _ (.self rfl)
  | app f args =>
    simp only [node, hparts rfl f List.mem_cons_self,
      List.map_congr_left fun c hc => hparts rfl c (List.mem_cons_of_mem _ hc)]
  | all vars body =>
    refine congrArg Val.ofProp (propext (forall₂_congr fun xs _ => ?_))
    rw [ih body (by simp [Term.Shape.children]) (rebind ρ vars xs) (rebind ρ' vars xs)
      fun x hx => ?_]
    unfold rebind
    split
    · rfl
    next hmem => exact hρ x (.body hn hmem hx)
  | _ => exact absurd rfl hshape

/-- `ρ` with the meaning of its replacement for every key. -/
noncomputable def under (M : Structure) (s : Store) (σ : Subst) (ρ : M.Env) : M.Env := fun x =>
  (σ[x]?).elim (ρ x) (M.value s ρ)

theorem under_of_some {x v : Term} (hx : σ[x]? = some v) : M.under s σ ρ x = M.value s ρ v := by
  simp [under, hx]

theorem under_of_none {x : Term} (hx : σ[x]? = none) : M.under s σ ρ x = ρ x := by simp [under, hx]

/-- Below a quantifier that captures nothing, replacements mean what they mean outside. -/
theorem under_rebind (h : s.Wf) (hσ : s.Assigns σ) {body : Term}
    (hn : s.node? t = some (.all vars body, ty))
    (hτ : Shadows vars σ τ) (hfree : ¬ s.Captures σ t) (xs : M.Env) {x : Term}
    (hx : s.FreeIn x body) :
    M.under s τ (rebind ρ vars xs) x = rebind (M.under s σ ρ) vars xs x := by
  by_cases hmem : x ∈ vars
  · rw [under_of_none (by rw [hτ, if_pos hmem]), rebind, rebind, if_pos hmem, if_pos hmem]
  rw [rebind, if_neg hmem]
  cases hv : σ[x]? with
  | none => rw [under_of_none hv, under_of_none (by rw [hτ, if_neg hmem, hv]), rebind, if_neg hmem]
  | some v =>
    rw [under_of_some hv, under_of_some (hτ.getElem?_eq_some.mpr ⟨hmem, hv⟩)]
    obtain ⟨tv, -, hvty⟩ := hσ hv
    refine value_congr h hvty fun u hu => ?_
    rw [rebind, if_neg fun huv => hfree (.here hn hv hmem hx huv hu)]

theorem EnvFits.rebind (hρ : M.EnvFits s ρ) {xs : M.Env}
    (hxs : ∀ v ∈ vars, (xs v).Inhabits s (s.ty v)) :
    M.EnvFits s (rebind ρ vars xs) := by
  intro x shape ty hn hx hatom
  unfold Structure.rebind
  split
  next hmem =>
    have hty : s.ty x = ty := by simp [Store.ty, hn]
    exact hty ▸ hxs x hmem
  next => exact hρ hn hx hatom

/-- Where no variable is captured, what a term becomes means what the term means when every key has
the meaning of its replacement. -/
theorem value_of_becomes (h : s.Wf) (hM : M.Fits s) (hb : s.Becomes σ t r) (hσ : s.Assigns σ)
    (hkeys : s.KeysAtoms σ) (hfree : ¬ s.Captures σ t) (hρ : M.EnvFits s ρ) :
    M.value s ρ r = M.value s (M.under s σ ρ) t := by
  induction hb generalizing ρ with
  | key hp hx =>
    obtain ⟨-, shape, ty, hn, hatom⟩ := hkeys hx
    rw [value_of_node h hn hp, ← under_of_some hx]
    cases shape <;> first | rfl | cases hatom
  | @atom σ p shape ty hp hnone hn hatom =>
    rw [value_of_node h hn hp, value_of_node h hn hp]
    cases shape <;> first | exact (under_of_none hnone).symm | cases hatom
  | @node σ p r shape ty kids hp _ hn hshape hlen _ hst ih =>
    have hq := (Term.Shape.not_atom_of_isInterpreted hshape).2.2
    rw [value_of_node h hn hp, node_eq_combine hshape]
    refine (hst.value (V := M.valuation s ρ) (valuation_lawful h hM hρ) fun _ _ => trivial).trans
      (congrArg _ ?_)
    exact map_eq_map_of_zip hlen fun hab =>
      ih hab hσ hkeys (fun hc => hfree (.part hn hq (List.of_mem_zip hab).1 hc)) hρ
  | @app σ p r f f' args args' ty hp _ hn _ hlen _ hr hrn ihf ih =>
    rw [value_of_node h hn hp, value_of_node h hrn hr]
    have hargs := map_eq_map_of_zip hlen fun hab =>
      ih hab hσ hkeys (fun hc => hfree
        (.part hn rfl (List.mem_cons_of_mem _ (List.of_mem_zip hab).1) hc)) hρ
    simp only [node, hargs, ihf hσ hkeys (fun hc => hfree (.part hn rfl List.mem_cons_self hc)) hρ]
  | @all σ τ p r body body' vars ty hp _ hn hτ _ hr ih =>
    obtain ⟨-, -, -, hbody⟩ := h.typed hn
    rw [hr.structure_value h, value_of_node h hn hp]
    refine congrArg Val.ofProp (propext (forall₂_congr fun xs hxs => ?_))
    have hkeys' : s.KeysAtoms τ := fun _ _ hx => hkeys (hτ.getElem?_eq_some.mp hx).2
    rw [ih (hτ.assigns hσ) hkeys' (fun hc => hfree (.body hn hτ hc)) (hρ.rebind hxs),
      value_congr h hbody fun x hx => under_rebind h hσ hn hτ hfree xs hx]
  | @neg σ p r hp hbool hpr ih =>
    rw [value_neg h (hpr.has h hσ hbool), value_neg h hbool,
      ih hσ hkeys (fun hc => hfree hc.of_neg) hρ]

end Entail.Structure

/-! ## Checked substitutions -/

namespace Entail.Store

variable {s s' : Store} {σ : Subst} {t r : Term} {pairs : List (Term × Term)}

/-- The replacements that `pairs` ask for; of two pairs for one atom the later counts. -/
def replacements (pairs : List (Term × Term)) : Subst := pairs.foldl (fun m p => m.insert p.1 p.2) ∅

theorem mem_of_replacements {x v : Term} (hx : (replacements pairs)[x]? = some v) :
    (x, v) ∈ pairs := by
  have hfold : ∀ (pairs : List (Term × Term)) (σ : Subst),
    (pairs.foldl (fun m p => m.insert p.1 p.2) σ)[x]? = some v →
      (x, v) ∈ pairs ∨ σ[x]? = some v := by
    intro pairs
    induction pairs with
    | nil => exact fun σ h => .inr h
    | cons p pairs ih =>
      intro σ h
      rcases ih _ h with hmem | hins
      · exact .inl (List.mem_cons_of_mem _ hmem)
      · rw [Std.HashMap.getElem?_insert] at hins
        split at hins
        next heq =>
          cases hins
          exact .inl (eq_of_beq heq ▸ List.mem_cons_self)
        next => exact .inr hins
  exact (hfold pairs ∅ hx).resolve_right (by simp)

theorem checkPairs_eq_ok (h : s.checkPairs pairs = .ok ()) {x v : Term} (hx : (x, v) ∈ pairs) :
    x.isNegated = false ∧ ∃ shape ty, s.node? x = some (shape, ty) ∧
      (shape.isUninterpreted || shape.isVariable) = true ∧ s.Has v ty := by
  induction pairs with
  | nil => cases hx
  | cons p pairs ih =>
    obtain ⟨y, u⟩ := p
    obtain ⟨_, hy, h⟩ := bind_eq_ok_iff.mp h
    obtain ⟨hatom, h⟩ := guard_eq_ok.mp h
    obtain ⟨tu, hu, h⟩ := bind_eq_ok_iff.mp h
    obtain ⟨htype, h⟩ := guard_eq_ok.mp h
    rcases List.mem_cons.mp hx with heq | hmem
    · cases heq
      obtain ⟨ty, ⟨shape, hn⟩, -⟩ := check_eq_ok hy
      simp only [Bool.or_eq_true, Bool.not_eq_true', not_or, Bool.not_eq_true, Bool.not_eq_false,
        Interp.node?_of_shape hn] at hatom
      refine ⟨hatom.1, shape, ty, hn, Bool.or_eq_true_iff.mpr hatom.2, ?_⟩
      have hty : s.ty x = ty := by simp [Store.ty, hn]
      exact hty ▸ not_not.mp htype ▸ typeOf_eq_ok.mp hu
    · exact ih h hmem

/-- A substitution that is not refused puts terms of their types for constants and variables of the
store, and gives what the term becomes. -/
theorem substTerm_becomes (hw : s.Wf) (pairs : List (Term × Term)) (t : Term) :
    Builds s (substTerm pairs t) fun r s' => (∃ ty, s.Has t ty) ∧ s.Assigns (replacements pairs) ∧
      s.KeysAtoms (replacements pairs) ∧ s'.Becomes (replacements pairs) t r := by
  refine .read_bind hw fun _ ht => .read_bind hw fun _ hpairs => ?_
  obtain ⟨ty, ht⟩ := check_eq_ok ht
  have hpair {x v : Term} (hx : (replacements pairs)[x]? = some v) :=
    checkPairs_eq_ok hpairs (mem_of_replacements hx)
  have hσ : s.Assigns (replacements pairs) := fun x v hx => by
    obtain ⟨hneg, shape, ty, hn, -, hv⟩ := hpair hx
    exact ⟨ty, ⟨⟨shape, hn⟩, by simp [hneg]⟩, hv⟩
  have hkeys : s.KeysAtoms (replacements pairs) := fun x v hx => by
    obtain ⟨hneg, shape, ty, hn, hatom, -⟩ := hpair hx
    exact ⟨hneg, shape, ty, hn, hatom⟩
  exact (subst_becomes hw hσ ht).mono fun _ _ _ hr => ⟨⟨ty, ht⟩, hσ, hkeys, hr⟩

/-- In every structure, and for all values of constants and variables, the result of a substitution
that captures no variable means what the term means when each key has the meaning of its
replacement. -/
theorem substTerm_value (hw : s.Wf) (h : substTerm pairs t s = .ok r s')
    (hfree : ¬ s.Captures (replacements pairs) t)
    {M : Structure} {ρ : M.Env} (hM : M.Fits s') (hρ : M.EnvFits s' ρ) :
    M.value s' ρ r = M.value s (M.under s (replacements pairs) ρ) t := by
  obtain ⟨hs, ⟨ty, ht⟩, hσ, hkeys, hb⟩ := (substTerm_becomes hw pairs t).of_ok h
  have hunder : M.under s' (replacements pairs) ρ = M.under s (replacements pairs) ρ := by
    funext x
    cases hx : (replacements pairs)[x]? with
    | none => rw [Structure.under_of_none hx, Structure.under_of_none hx]
    | some v =>
      obtain ⟨tv, -, hv⟩ := hσ hx
      rw [Structure.under_of_some hx, Structure.under_of_some hx,
        Structure.value_of_extends hw hs.wf hs.ext hv]
  rw [Structure.value_of_becomes hs.wf hM hb (hσ.extends_ hs.ext) (hkeys.extends_ hs.ext)
    (fun hc => hfree (hc.of_extends hw hs.ext hσ ht)) hρ, hunder,
      Structure.value_of_extends hw hs.wf hs.ext ht]

/-- A substitution whose arguments pass the checks. -/
theorem substTerm_of_checks (ht : s.check t = .ok ()) (hpairs : s.checkPairs pairs = .ok ())
    (hne : (replacements pairs).isEmpty = false) :
    substTerm pairs t s = (substAt (s.terms.slots.size + 1) (replacements pairs) t).run' ∅ s := by
  unfold substTerm
  rw [bind_of_ok (show Store.read (·.check t) s = .ok () s by simp [Store.read, ht]),
    bind_of_ok (show Store.read (·.checkPairs pairs) s = .ok () s by simp [Store.read, hpairs])]
  exact subst_of_nonempty hne t s

/-- Variables `x`, `y` and `z` of a sort, the equality of `x` and `y`, and its
quantification over `x`. -/
def quantified : Store :=
  let s := endState (newSort .empty)
  let s := endState (newVar ⟨1⟩ s)
  let s := endState (newVar ⟨1⟩ s)
  let s := endState (newVar ⟨1⟩ s)
  let s := endState (eq (.ofIndex 2) (.ofIndex 3) s)
  endState (all [.ofIndex 2] (.ofIndex 5) s)

theorem reached_quantified : Reached quantified := by
  have h₁ := (Reached.empty.build .newSort).build (.newVar ⟨1⟩)
  have h₂ := (h₁.build (.newVar ⟨1⟩)).build (.newVar ⟨1⟩)
  exact (h₂.build (.eq (.ofIndex 2) (.ofIndex 3))).build (.all [.ofIndex 2] (.ofIndex 5))

theorem terms_quantified :
    quantified.terms.slots = #[none, some (.truth, .bool), some (.var ⟨1⟩ 0, ⟨1⟩),
    some (.var ⟨1⟩ 1, ⟨1⟩), some (.var ⟨1⟩ 2, ⟨1⟩), some (.eq (.ofIndex 2) (.ofIndex 3), .bool),
    some (.all [.ofIndex 2] (.ofIndex 5), .bool)] := by cbv

theorem var_quantified : quantified.node? (.ofIndex 2) = some (.var ⟨1⟩ 0, ⟨1⟩) ∧
    quantified.node? (.ofIndex 3) = some (.var ⟨1⟩ 1, ⟨1⟩) ∧ quantified.node? (.ofIndex 4) = some
      (.var ⟨1⟩ 2, ⟨1⟩) := by
  refine ⟨?_, ?_, ?_⟩ <;> rw [node?, Arena.get?, terms_quantified] <;> rfl

theorem eq_quantified :
    quantified.node? (.ofIndex 5) = some (.eq (.ofIndex 2) (.ofIndex 3), .bool) := by
  rw [node?, Arena.get?, terms_quantified]
  rfl

theorem all_quantified :
    quantified.node? (.ofIndex 6) = some (.all [.ofIndex 2] (.ofIndex 5), .bool) := by
  rw [node?, Arena.get?, terms_quantified]
  rfl

/-- Nothing is captured when `z` is put for `y`. -/
theorem not_captures_quantified :
    ¬ quantified.Captures (replacements [(.ofIndex 3, .ofIndex 4)]) (.ofIndex 6) := by
  obtain ⟨hx, hy, hz⟩ := var_quantified
  -- what has no parts captures nothing
  have leaf {c : Term} {ty : Ty} {n : Nat} {τ : Subst}
    (hc : quantified.node? c = some (.var ty n, ty)) :
      ¬ quantified.Captures τ c := by
    intro h
    cases h with
    | here hn | body hn => cases hc.symm.trans hn
    | part hn _ hmem =>
      cases hc.symm.trans hn
      cases hmem
  have body {τ : Subst} : ¬ quantified.Captures τ (.ofIndex 5) := by
    intro h
    cases h with
    | here hn | body hn => cases eq_quantified.symm.trans hn
    | part hn _ hmem h =>
      cases eq_quantified.symm.trans hn
      rcases List.mem_cons.mp hmem with rfl | hmem
      · exact leaf hx h
      · exact leaf hy (List.mem_singleton.mp hmem ▸ h)
  intro h
  cases h with
  | here hn hkey _ _ hu hv =>
    cases all_quantified.symm.trans hn
    -- the only replacement is `z`, and it is not bound
    obtain ⟨-, rfl⟩ := Prod.mk.inj (List.mem_singleton.mp (mem_of_replacements hkey))
    obtain rfl := List.mem_singleton.mp hu
    cases hv with
    | self h => revert h; decide
    | part hn _ hmem =>
      cases hz.symm.trans hn
      cases hmem
    | body hn => cases hz.symm.trans hn
  | part hn hq =>
    cases all_quantified.symm.trans hn
    cases hq
  | body hn _ h =>
    cases all_quantified.symm.trans hn
    exact body h

/-- Putting `z` for `y` below the quantifier over `x`. -/
theorem substTerm_value_quantified : ∃ s',
    substTerm [(.ofIndex 3, .ofIndex 4)] (.ofIndex 6) quantified = .ok (.ofIndex 8) s' ∧
      ¬ quantified.Captures (replacements [(.ofIndex 3, .ofIndex 4)]) (.ofIndex 6) ∧
      ∃ (M : Structure) (ρ : M.Env), M.Fits s' ∧ M.EnvFits s' ρ ∧ M.value s' ρ (.ofIndex 8) =
        M.value quantified (M.under quantified (replacements [(.ofIndex 3, .ofIndex 4)]) ρ)
          (.ofIndex 6) := by
  obtain ⟨s', hrun⟩ : ∃ s', substTerm [(.ofIndex 3, .ofIndex 4)] (.ofIndex 6) quantified = .ok
      (.ofIndex 8) s' := by
    rw [substTerm_of_checks (by cbv) (by cbv) (by exact Std.HashMap.isEmpty_insert)]
    exact ⟨_, ok_of_run' (by cbv)⟩
  let M := Structure.constant (fun _ => ⟨()⟩ : ∀ _ : Ty, Nonempty Unit) s'
  have hfits : M.Fits s' := Structure.constant_fits _ s'
  obtain ⟨ρ, hρ⟩ := Structure.exists_envFits M s'
  exact ⟨s', hrun, not_captures_quantified, M, ρ, hfits, hρ,
    substTerm_value reached_quantified.intact.wf hrun not_captures_quantified hfits hρ⟩

/-- Putting `x` for `y` below the quantifier over `x` makes it a tautology, which it does not mean
over two elements. -/
theorem substTerm_captures : Reached quantified ∧
    substTerm [(.ofIndex 3, .ofIndex 2)] (.ofIndex 6) quantified = .ok .top quantified ∧
      ∃ (M : Structure) (ρ : M.Env), M.Fits quantified ∧ M.EnvFits quantified ρ ∧
      M.value quantified ρ .top ≠
        M.value quantified (M.under quantified (replacements [(.ofIndex 3, .ofIndex 2)]) ρ)
          (.ofIndex 6) := by
  have hw := reached_quantified.intact.wf
  have hrun : substTerm [(.ofIndex 3, .ofIndex 2)] (.ofIndex 6) quantified =
      .ok .top quantified := by
    rw [substTerm_of_checks (by cbv) (by cbv) (by exact Std.HashMap.isEmpty_insert)]
    cbv
  let M := Structure.constant (fun _ => ⟨true⟩ : ∀ _ : Ty, Nonempty Bool) quantified
  have hfits : M.Fits quantified := Structure.constant_fits _ quantified
  obtain ⟨ρ, hρ⟩ := Structure.exists_envFits M quantified
  refine ⟨reached_quantified, hrun, M, ρ, hfits, hρ, ?_⟩
  obtain ⟨hx, hy, -⟩ := var_quantified
  have hsort : quantified.tyShape? ⟨1⟩ = some (.uninterpreted 0) := by cbv
  -- `y` has the value of `x`, which is one of the two elements
  obtain ⟨b, hb⟩ : ∃ b : Bool, ρ (.ofIndex 2) = .elem ⟨1⟩ b := by
    have hx := hρ hx rfl rfl
    rw [Val.Inhabits, hsort] at hx
    exact hx
  let env := M.under quantified (replacements [(.ofIndex 3, .ofIndex 2)]) ρ
  have henv : env (.ofIndex 3) = .elem ⟨1⟩ b := by
    have hkey : (replacements [(.ofIndex 3, .ofIndex 2)])[Term.ofIndex 3]? = some (.ofIndex 2) :=
      Std.HashMap.getElem?_insert_self
    exact (Structure.under_of_some hkey).trans ((Structure.value_of_node hw hx rfl ρ).trans hb)
  have hfalse : M.value quantified env (.ofIndex 6) = .bool false := by
    rw [Structure.value_of_node hw all_quantified rfl]
    refine Val.ofProp_eq_bool (iff_of_false (fun hall => ?_) Bool.false_ne_true)
    have hother : (M.value quantified (Structure.rebind env [.ofIndex 2] fun _ => .elem ⟨1⟩ !b)
        (.ofIndex 5)).toBool = true :=
      hall _ fun v hv => by
        obtain rfl := List.mem_singleton.mp hv
        have hty : quantified.ty (.ofIndex 2) = ⟨1⟩ := by simp [ty, hx]
        rw [hty, Val.Inhabits, hsort]
        exact ⟨_, rfl⟩
    rw [Structure.value_of_node hw eq_quantified rfl, Structure.node_eq_combine rfl] at hother
    have heq := Val.toBool_ofProp.mp hother
    rw [Structure.value_of_node hw hx rfl, Structure.value_of_node hw hy rfl] at heq
    have hdiff : (Val.elem ⟨1⟩ !b : Val M.elems) = .elem ⟨1⟩ b := Eq.trans heq henv
    cases b <;> cases hdiff
  rw [hfalse, Structure.value_of_node hw hw.truth rfl]
  exact fun h => by cases h

end Entail.Store
