import Entail.Proofs.Store.Steady
import Entail.Proofs.Store.Types

/-!
# Substitution in any handles

Whoever substitutes promises that the term is live, and a substitution does not look at a handle
before it rebuilds what is in its slot. So a dead handle breaks the promise, unless there is nothing
to substitute; a handle whose slot is in use does not, whatever is there. What a quantifier becomes
is a quantifier, or a truth value.
-/

namespace Entail.Store

variable {s s' : Store} {σ : Subst} {t : Term} {ty : Ty} {e : TermError}

theorem subst_of_isEmpty (h : σ.isEmpty = true) : subst σ t = pure t := by
  unfold subst
  rw [if_pos h]

theorem subst_of_getElem? (hne : σ.isEmpty = false) {r : Term} (ht : σ[t.positive]? = some r) :
    subst σ t s = .ok (r.negIf t.isNegated) s := by
  unfold subst
  rw [hne]
  show ((substAt (s.terms.slots.size + 1) σ t).run' ∅) s = _
  unfold substAt
  simp only [ht]
  rfl

/-- What the substitution does not replace is rebuilt. -/
theorem subst_eq_rebuild (hne : σ.isEmpty = false) (ht : σ[t.positive]? = none) : subst σ t s =
    ((fun x => x.1.negIf t.isNegated) <$> rebuild (substAt s.terms.slots.size) σ t.positive ∅)
      s := by
  have hget (f : Subst → SubstOp Term) : ((get : SubstOp Subst) >>= f) ∅ = f ∅ ∅ := rfl
  have hstart : substAt (s.terms.slots.size + 1) σ t ∅ = (do
      let r ← rebuild (substAt s.terms.slots.size) σ t.positive
      modify (·.insert t.positive r)
      return r.negIf t.isNegated : SubstOp Term) ∅ := by
    unfold substAt
    simp only [ht]
    rw [hget, Std.HashMap.getElem?_empty]
  unfold subst
  rw [hne]
  show ((substAt (s.terms.slots.size + 1) σ t).run' ∅) s = _
  unfold StateT.run'
  rw [hstart]
  show (Prod.fst <$> (rebuild (substAt s.terms.slots.size) σ t.positive ∅ >>= fun x =>
    (pure (x.1.negIf t.isNegated, x.2.insert t.positive x.1) : Op (Term × Subst)))) s = _
  rw [← bind_pure_comp, bind_assoc]
  simp only [pure_bind]
  rw [bind_pure_comp]

theorem look_shape_bind (t : Term) (f : Option Term.Shape → SubstOp Term) (memo : Subst) :
    ((liftM (look (·.shape? t)) : SubstOp _) >>= f) memo s = f (s.shape? t) memo s := rfl

theorem subst_eq_error (hne : σ.isEmpty = false) : subst σ t s = .error e s' ↔
    σ[t.positive]? = none ∧ rebuild (substAt s.terms.slots.size) σ t.positive ∅ s =
      .error e s' := by
  cases ht : σ[t.positive]? with
  | some r => simp [subst_of_getElem? hne ht]
  | none =>
    rw [subst_eq_rebuild hne ht, ← bind_pure_comp]
    cases hrun : rebuild (substAt s.terms.slots.size) σ t.positive ∅ s with
    | ok x s₁ =>
      rw [bind_of_ok hrun]
      simp [pure, EStateM.pure]
    | error e₁ s₁ =>
      rw [bind_of_error hrun]
      simp

/-- Truth values are left alone when there are constants only to be replaced. -/
theorem subst_truth (hw : s.Wf)
    (hconst : ∀ {x v}, σ[x]? = some v → (s.shape x).isUninterpreted = true)
    (ht : t = .top ∨ t = .bot) : subst σ t s = .ok t s := by
  have hpos : t.positive = .top := by rcases ht with rfl | rfl <;> rfl
  have hneg : Term.top.negIf t.isNegated = t := by rcases ht with rfl | rfl <;> rfl
  have hshape : s.shape? .top = some .truth := by rw [shape?, hw.truth]; rfl
  cases hne : σ.isEmpty with
  | true =>
    rw [subst_of_isEmpty hne]
    rfl
  | false =>
    have hnew : σ[t.positive]? = none := by
      refine Option.eq_none_iff_forall_ne_some.mpr fun r hr => ?_
      have h := hconst hr
      rw [hpos, shape, hshape] at h
      cases h
    have hrun : rebuild (substAt s.terms.slots.size) σ t.positive ∅ s = .ok (.top, ∅) s := by
      unfold rebuild
      rw [hpos, look_shape_bind, hshape]
      rfl
    rw [subst_eq_rebuild hne hnew, ← bind_pure_comp, bind_of_ok hrun, hneg]
    rfl

/-! ## Dead handles -/

/-- A dead handle is rebuilt, and that breaks the promise. -/
theorem subst_dead (hne : σ.isEmpty = false) (hσ : s.Assigns σ) (ht : s.shape? t = none) :
    subst σ t s = .error (.dangling t.positive) s := by
  have hdead : s.node? t.positive = none := by
    rw [shape?, Option.map_eq_none_iff] at ht
    rwa [node?, Term.index_positive]
  refine (subst_eq_error hne).mpr ⟨Option.eq_none_iff_forall_ne_some.mpr fun r hr => ?_, ?_⟩
  · obtain ⟨ty, hty, -⟩ := hσ hr
    rw [hty.node] at hdead
    cases hdead
  · unfold rebuild
    rw [look_shape_bind, shape?, hdead]
    rfl

/-- What is in a slot that is in use is a term, if not in that polarity; so a refusal is an answer
to the caller. -/
theorem subst_fair (hw : s.Wf) (hσ : s.Assigns σ) {shape : Term.Shape}
    (ht : s.shape? t = some shape) (h : subst σ t s = .error e s') : e.Fair := by
  obtain ⟨⟨shape', ty⟩, hn, rfl⟩ := Option.map_eq_some_iff.mp ht
  have hpos : s.Has t.positive ty := by
    refine ⟨⟨shape', ?_⟩, by simp [Term.isNegated_positive]⟩
    rwa [node?, Term.index_positive]
  cases hne : σ.isEmpty with
  | true =>
    rw [subst_of_isEmpty hne] at h
    cases h
  | false =>
    -- the positive term is refused for the same reason
    rw [subst_eq_error hne] at h
    have hsame : subst σ t.positive s = .error e s' := by
      rwa [subst_eq_error hne, Term.positive_of_not_isNegated (Term.isNegated_positive t)]
    exact (subst_yields hw hσ hpos).fair hsame

/-- When the turn of some handle in the list comes, its slot is empty. -/
def Stumbles (s : Store) (σ : Subst) (ts : List Term) : Prop :=
  ∃ before t after rs s', ts = before ++ t :: after ∧ before.mapM (subst σ) s = .ok rs s' ∧
    s'.shape? t = none

/-- Substituting in a list of handles breaks the promise exactly when one of them turns out
to be dead. -/
theorem mapM_subst_dangling (hw : s.Wf) (hσ : s.Assigns σ) (hne : σ.isEmpty = false)
    {ts : List Term} :
    (∃ t s', ts.mapM (subst σ) s = .error (.dangling t) s') ↔ s.Stumbles σ ts := by
  have later {before : List Term} {rs : List Term} {s₁ : Store}
    (h : before.mapM (subst σ) s = .ok rs s₁) :
      Later s s₁ := by
    have hbuilt := later_frame.mapM before (fun t _ => subst_moves σ t) s hw
    rwa [h] at hbuilt
  constructor
  · rintro ⟨t, s', h⟩
    obtain ⟨before, a, after, rs, s₁, rfl, hbefore, ha⟩ := mapM_eq_error.mp h
    refine ⟨before, a, after, rs, s₁, rfl, hbefore, ?_⟩
    cases hshape : s₁.shape? a with
    | none => rfl
    | some shape =>
      have hlater := later hbefore
      exact absurd rfl (subst_fair hlater.wf (hσ.extends_ hlater.ext) hshape ha t)
  · rintro ⟨before, a, after, rs, s₁, rfl, hbefore, hdead⟩
    have hlater := later hbefore
    exact ⟨a.positive, s₁,
      mapM_eq_error.mpr ⟨before, a, after, rs, s₁, rfl, hbefore,
        subst_dead hne (hσ.extends_ hlater.ext) hdead⟩⟩

/-! ## Quantifiers -/

/-- A universally quantified formula. -/
def IsAll (s : Store) (t : Term) : Prop := t.isNegated = false ∧ (s.shape t).isQuantifier = true

theorem shape_of_isAll (h : s.IsAll t) : ∃ vars body ty, s.node? t = some (.all vars body, ty) := by
  obtain ⟨-, hshape⟩ := h
  cases hs : s.shape t with
  | all vars body =>
    obtain ⟨ty, hn⟩ := node_of_shape hs nofun
    exact ⟨vars, body, ty, hn⟩
  | _ => simp [hs, Term.Shape.isQuantifier] at hshape

theorem all_yields (hw : s.Wf) (vars : List Term) (body : Term) :
    s.Yields (all vars body) fun t s' => s'.Has t .bool ∧ (t = .top ∨ t = .bot ∨ s'.IsAll t) := by
  refine .of_builds ?_ (.all vars body)
  unfold all
  split
  · exact .throw hw _
  refine .read_bind hw fun _ hv => .read_bind hw fun _ hb => ?_
  obtain ⟨hnd, -, hvars⟩ := checkVars_eq_ok hw hv
  replace hb := checkBool_eq_ok hb
  split
  next heq =>
    refine .pure hw ⟨hb, (Bool.or_eq_true_iff.mp heq).imp of_decide_eq_true fun h =>
      .inl (of_decide_eq_true h)⟩
  next =>
    refine .intern hw (.all vars body) _ ⟨rfl, hnd, hvars, hb⟩ ⟨_, hw.bool_ty⟩ trivial
      fun t s' _ ht hn => ?_
    refine ⟨⟨⟨_, hn⟩, by simp [ht]⟩, .inr (.inr ⟨ht, ?_⟩)⟩
    rw [shape, shape?, hn]
    rfl

/-- Substituting in a universally quantified formula leaves one, or nothing to instantiate. -/
theorem subst_all_yields (hw : s.Wf) (hσ : s.Assigns σ)
    (hconst : ∀ {x v}, σ[x]? = some v → (s.shape x).isUninterpreted = true) (ht : s.IsAll t) :
    s.Yields (subst σ t) fun r s' => s'.Has r .bool ∧ (r = .top ∨ r = .bot ∨ s'.IsAll r) := by
  obtain ⟨vars, body, ty, hn⟩ := shape_of_isAll ht
  obtain ⟨rfl, -⟩ := hw.typed hn
  cases hne : σ.isEmpty with
  | true =>
    rw [subst_of_isEmpty hne]
    exact .pure hw ⟨⟨⟨_, hn⟩, by simp [ht.1]⟩, .inr (.inr ht)⟩
  | false =>
    have hpos := Term.positive_of_not_isNegated ht.1
    have hnew : σ[t.positive]? = none := by
      refine Option.eq_none_iff_forall_ne_some.mpr fun r hr => ?_
      have hshape := hconst hr
      rw [hpos, shape, shape?, hn] at hshape
      cases hshape
    obtain ⟨rank, hrank, hbound⟩ := hw.bounded
    have hsmall : ∀ c ∈ (Term.Shape.all vars body).children, rank c.index < s.terms.slots.size :=
        fun c hc =>
      Nat.lt_trans (hrank hn c hc) (hbound hn)
    have hrun := rebuild_all_retypes (substAt_retypes hw hrank s.terms.slots.size)
      (later_frame.refl hw) hσ hw
      (hpos.symm ▸ hn : s.node? t.positive = _) hsmall (fun hw₁ body' => all_yields hw₁ vars body')
        ∅ (assigns_empty s)
    refine .of_eq (subst_eq_rebuild hne hnew) (hrun.map fun x s' _ hx => ?_)
    rw [ht.1]
    exact hx.1

end Entail.Store
