import Mathlib
import Entail.Proofs.Context.TidyRuns
import Entail.Proofs.Egraph.Reached
import Entail.Proofs.Search.Runs
import Entail.Proofs.Store.Handles

/-!
# Calls that go through

What a call does when nothing is in its way: a formula that is accepted is noted and processed, and
a search goes on until no variable is open. The lemmas say what the workspace is afterwards, with
the core as it comes out of its own operations.
-/

namespace Entail

open Workspace Context

/-! ## Two constants -/

/-- Two Boolean constants, their disjunction, and whether they differ. -/
def Store.choice : Store :=
  let s := endState (Store.newConst .bool .empty)
  let s := endState (Store.newConst .bool s)
  let s := endState (Store.or [.ofIndex 2, .ofIndex 3] s)
  endState (Store.eq (.ofIndex 2) (.ofIndex 3) s)

theorem Store.reached_choice : Store.Reached .choice :=
  (((Store.Reached.empty.build (.newConst .bool)).build (.newConst .bool)).build (.or _)).build
    (.eq _ _)

/-- The two constants again, and the formula that everything is the same or the first of
them holds. -/
def Store.linked : Store :=
  let s := endState (Store.newSort .choice)
  let s := endState (Store.newVar ⟨1⟩ s)
  let s := endState (Store.newConst ⟨1⟩ s)
  let s := endState (Store.eq (.ofIndex 6) (.ofIndex 7) s)
  let s := endState (Store.or [.ofIndex 8, .ofIndex 2] s)
  endState (Store.all [.ofIndex 6] (.ofIndex 9) s)

/-- The slots of the two stores. The type of the constants is the boolean one, and the first one
does not occur in the second. -/
theorem Store.linked_spec :
    Store.choice.terms.slots = #[none, some (.truth, .bool), some (.uninterpreted .bool 0, .bool),
      some (.uninterpreted .bool 1, .bool), some (.or [.ofIndex 2, .ofIndex 3], .bool),
      some (.xor (.ofIndex 2) (.ofIndex 3), .bool)] ∧
    Store.linked.terms.slots = Store.choice.terms.slots ++ #[some (.var ⟨1⟩ 2, ⟨1⟩),
      some (.uninterpreted ⟨1⟩ 3, ⟨1⟩), some (.eq (.ofIndex 6) (.ofIndex 7), .bool),
      some (.or [.ofIndex 2, .ofIndex 8], .bool), some (.all [.ofIndex 6] (.ofIndex 9), .bool)] ∧
    Store.linked.tyShape? .bool = some .bool ∧
    Store.linked.occurs (.ofIndex 2) (.ofIndex 3) = false := by
  refine ⟨?_, ?_, ?_, ?_⟩ <;> cbv

theorem Store.slots_choice : Store.choice.terms.slots =
    #[none, some (.truth, .bool), some (.uninterpreted .bool 0, .bool),
      some (.uninterpreted .bool 1, .bool), some (.or [.ofIndex 2, .ofIndex 3], .bool),
      some (.xor (.ofIndex 2) (.ofIndex 3), .bool)] :=
  linked_spec.1

theorem Store.slots_linked : Store.linked.terms.slots =
    #[none, some (.truth, .bool), some (.uninterpreted .bool 0, .bool),
      some (.uninterpreted .bool 1, .bool), some (.or [.ofIndex 2, .ofIndex 3], .bool),
      some (.xor (.ofIndex 2) (.ofIndex 3), .bool), some (.var ⟨1⟩ 2, ⟨1⟩),
      some (.uninterpreted ⟨1⟩ 3, ⟨1⟩), some (.eq (.ofIndex 6) (.ofIndex 7), .bool),
      some (.or [.ofIndex 2, .ofIndex 8], .bool), some (.all [.ofIndex 6] (.ofIndex 9), .bool)] :=
  linked_spec.2.1.trans (congrArg (· ++ _) slots_choice)

/-! ## What a call leaves as it is -/

namespace Context

variable {c : Context}

/-- Without a contradiction the status is idle. -/
theorem settle_idle (h : c.syncVars.core.hasRootConflict = false) :
    c.settle = { c.syncVars with status := .idle } := by
  unfold settle
  dsimp only
  rw [h]
  rfl

/-- The core hears of the variables that were given out. -/
theorem syncVars_eq (news : List Announcement) (h : c.vars.heard = news.toArray) :
    c.syncVars = { c with
      vars := { c.vars with heard := #[] }
      core := news.foldl (fun core a => core.ensureVar a.var) c.core
      created := c.created ++ (news.map (·.var)).toArray } := by
  unfold syncVars Variables.collect
  simp only [h, List.map_toArray, List.foldl_toArray']

/-- All variables are known to the core. -/
theorem syncVars_eq_self (h : c.vars.heard = #[]) : c.syncVars = c := by
  have hvars : ({ c.vars with heard := #[] } : Variables) = c.vars := by rw [← h]
  rw [syncVars_eq [] h, hvars]
  simp only [List.foldl_nil, List.map_nil, Array.append_empty]

end Context

namespace Work

variable {w w₁ : Workspace} {t : Term} {s : Store} {c : Context} {e : Failure}

theorem check_of_ok {α : Type} {f : Store → Context → Except Failure α} {a : α}
    (h : f w.store w.ctx = .ok a) : Work.check f w = .ok a w := by
  simp [Work.check, h]

theorem check_of_error {α : Type} {f : Store → Context → Except Failure α}
    (h : f w.store w.ctx = .error e) : Work.check f w = .error e w := by
  simp [Work.check, h]

/-! ## Formulas -/

/-- A formula that was encoded has its literal already. -/
theorem literalOf_cached {l : Literal} (h : w.ctx.lits[t.positive]? = some l) :
    literalOf t w = .ok (l.negIf t.isNegated) w := by
  obtain ⟨depth, hdepth⟩ : ∃ depth,
      2 * (w.store.terms.slots.size + 2) * (w.store.terms.slots.size + 2) = depth + 1 :=
    Nat.exists_eq_succ_of_ne_zero (by simp)
  unfold literalOf
  rw [bind_of_ok (rfl : look _ w = .ok w.store.terms.slots.size w), hdepth]
  show Encoder.cachedLit _ t w = _
  unfold Encoder.cachedLit
  rw [bind_of_ok (rfl : look _ w = .ok w.ctx.lits[t.positive]? w), h]
  rfl

/-- When there is nothing to replace, a formula that is neither constant nor quantified nor a
negated disjunction is a new definition, or is encoded. -/
theorem process_eq (hempty : w.ctx.subst.isEmpty = true) (htop : t ≠ .top) (hbot : t ≠ .bot)
    (hall : (w.store.shape t).isQuantifier = false)
    (hor : t.isNegated = true → ∀ args, w.store.shape t ≠ .or args) :
    process t w = (definition? t >>= fun
      | some (x, v) => change fun c => { c with
          subst := c.subst.insert x v, substLog := c.substLog.push x }
      | none => assertEncoded t) w := by
  obtain ⟨depth, hdepth⟩ : ∃ depth,
      (w.store.terms.slots.size + 2) * (w.store.terms.slots.size + 2) = depth + 1 :=
    Nat.exists_eq_succ_of_ne_zero (by simp)
  have hsub : onStore (Store.subst w.ctx.subst t) w = .ok t w := by
    rw [Store.subst_of_isEmpty hempty]
    rfl
  obtain ⟨shape, hshape, hall, hor⟩ : ∃ shape, Work.shape t w = .ok shape w ∧
      shape.isQuantifier = false ∧ (t.isNegated = true → ∀ args, shape ≠ .or args) :=
    ⟨_, rfl, hall, hor⟩
  unfold process
  rw [bind_of_ok (rfl : look _ w = .ok w.store.terms.slots.size w), hdepth]
  unfold processAt
  rw [bind_of_ok (rfl : look _ w = .ok w.ctx.subst w), bind_of_ok hsub, if_neg htop, if_neg hbot,
    bind_of_ok (rfl : look _ w = .ok (w.ctx.isOn .flatten) w), bind_of_ok hshape]
  cases hneg : t.isNegated with
  | false =>
    cases shape with
    | all => cases hall
    | _ => rfl
  | true =>
    cases w.ctx.isOn .flatten <;> cases shape with
    | all => cases hall
    | or args => exact absurd rfl (hor hneg args)
    | _ => rfl

/-- The literal of what is neither a definition nor a disjunction becomes a clause. -/
theorem process_unit {l : Literal} (hempty : w.ctx.subst.isEmpty = true) (htop : t ≠ .top)
    (hbot : t ≠ .bot) (hall : (w.store.shape t).isQuantifier = false)
    (hor : ∀ args, w.store.shape t ≠ .or args) (hdefinition : definition? t w = .ok none w)
    (hlit : literalOf t w = .ok l ⟨s, c⟩) : process t w = .ok () ⟨s, c.addClause [l]⟩ := by
  rw [process_eq hempty htop hbot hall fun _ => hor, bind_of_ok hdefinition]
  show assertEncoded t w = _
  obtain ⟨shape, hshape, hor⟩ : ∃ shape, Work.shape t w = .ok shape w ∧ ∀ args, shape ≠ .or args :=
    ⟨_, rfl, hor⟩
  unfold assertEncoded
  rw [bind_of_ok (rfl : look _ w = .ok (w.ctx.isOn .flatten) w), bind_of_ok hshape]
  cases t.isNegated || !w.ctx.isOn .flatten <;> cases shape with
  | or args => exact absurd rfl (hor args)
  | _ => exact bind_of_ok hlit

/-- The literal of an application becomes a clause. -/
theorem process_app {f : Term} {args : List Term} {l : Literal}
    (hempty : w.ctx.subst.isEmpty = true) (htop : t ≠ .top) (hbot : t ≠ .bot)
    (hshape : w.store.shape t = .app f args) (hlit : literalOf t w = .ok l ⟨s, c⟩) :
    process t w = .ok () ⟨s, c.addClause [l]⟩ := by
  have hshape' : shape t w = .ok (.app f args) w := congrArg (EStateM.Result.ok · w) hshape
  refine process_unit hempty htop hbot (by rw [hshape]; rfl) (by rw [hshape]; nofun) ?_ hlit
  unfold definition?
  rw [bind_of_ok hshape']
  rfl

/-- The literals of a disjunction become a clause. -/
theorem process_or {args leaves : List Term} {ls : List Literal}
    (hempty : w.ctx.subst.isEmpty = true) (hflatten : w.ctx.isOn .flatten = true)
    (htop : t ≠ .top) (hpositive : t.isNegated = false) (hshape : w.store.shape t = .or args)
    (hleaves : disjuncts w.store (w.store.terms.slots.size + 1) args = leaves)
    (hlits : leaves.mapM literalOf w = .ok ls ⟨s, c⟩) :
    process t w = .ok () ⟨s, c.addClause ls⟩ := by
  have hbot : t ≠ .bot := by
    rintro rfl
    cases hpositive
  have hshape' : shape t w = .ok (.or args) w := congrArg (EStateM.Result.ok · w) hshape
  have hdefinition : definition? t w = .ok none w := by
    unfold definition?
    rw [bind_of_ok hshape']
    rfl
  rw [process_eq hempty htop hbot (by rw [hshape]; rfl) (by rw [hpositive]; nofun),
    bind_of_ok hdefinition]
  show assertEncoded t w = _
  unfold assertEncoded
  rw [bind_of_ok (rfl : look _ w = .ok (w.ctx.isOn .flatten) w), bind_of_ok hshape', hpositive,
    hflatten]
  show (look _ >>= _) w = _
  subst hleaves
  rw [bind_of_ok (rfl : look _ w = .ok (disjuncts w.store _ args) w)]
  exact bind_of_ok hlits

/-- An equivalence whose first side can be eliminated is a definition of it. -/
theorem definition?_of_xor {a b : Term} (hshape : w.store.shape t = .xor a b)
    (hnegated : t.isNegated = true) (hon : w.ctx.isOn .varElim = true)
    (heliminate : w.ctx.canEliminate w.store a b = true) :
    definition? t w = .ok (some (a, b)) w := by
  have hshape' : shape t w = .ok (.xor a b) w := congrArg (EStateM.Result.ok · w) hshape
  have hfirst : firstDefinition [(a, b), (b, a)] w = .ok (some (a, b)) w := by
    unfold firstDefinition
    exact congrArg (EStateM.Result.ok · w) (List.find?_cons_of_pos heliminate)
  unfold definition?
  rw [bind_of_ok hshape']
  dsimp only
  rw [bind_of_ok (rfl : look _ w = .ok (w.ctx.isOn .varElim) w), hon, hnegated]
  exact hfirst

/-- A definition is noted. -/
theorem process_definition {x v : Term} (hempty : w.ctx.subst.isEmpty = true) (htop : t ≠ .top)
    (hbot : t ≠ .bot) (hall : (w.store.shape t).isQuantifier = false)
    (hor : t.isNegated = true → ∀ args, w.store.shape t ≠ .or args)
    (hdefinition : definition? t w = .ok (some (x, v)) w) :
    process t w = .ok () ⟨w.store, { w.ctx with
      subst := w.ctx.subst.insert x v, substLog := w.ctx.substLog.push x }⟩ := by
  rw [process_eq hempty htop hbot hall hor, bind_of_ok hdefinition]
  rfl

/-- A formula that is accepted is noted and processed, and then the status is set. -/
theorem assert_eq (hidle : w.ctx.status = .idle) (hvalid : w.ctx.validate w.store t = .ok ())
    (hprocess : process t ⟨w.store, w.ctx.note t⟩ = .ok () ⟨s, c⟩)
    (hroot : c.syncVars.core.hasRootConflict = false) :
    assertAll [t] w = .ok () ⟨s, { c.syncVars with status := .idle }⟩ := by
  have hvet : [t].forM (w.ctx.validate w.store) = .ok () := by
    change w.ctx.validate w.store t >>= (fun _ => .ok ()) = _
    rw [hvalid]
    rfl
  have hallowed : w.ctx.checkAssertAllowed = .ok () := by rw [checkAssertAllowed, hidle]
  have hreopen : w.ctx.reopen = w.ctx := by rw [reopen, hidle]; rfl
  unfold assertAll
  rw [bind_of_ok (check_of_ok hallowed), bind_of_ok (check_of_ok hvet),
    bind_of_ok (rfl : look _ w = .ok w.ctx.status w), if_neg (by simp [hidle]),
    bind_of_ok (rfl : change _ w = .ok () ⟨w.store, w.ctx.reopen⟩), hreopen]
  show (((change (·.note t) >>= fun _ => process t) >>= fun _ => pure PUnit.unit) >>=
    fun _ => change (·.settle)) w = _
  rw [bind_assoc, bind_assoc, bind_of_ok (rfl : change _ w = .ok () ⟨w.store, w.ctx.note t⟩),
    bind_of_ok hprocess]
  exact congrArg (fun c => EStateM.Result.ok () (⟨s, c⟩ : Workspace)) (settle_idle hroot)

/-- When there is nothing to replace, a quantified formula is registered with the patterns that are
inferred for it. -/
theorem assertQuantifier_eq_ok {q : Quant.Solver} (hidle : w.ctx.status = .idle)
    (hvalid : w.ctx.validate w.store t = .ok ()) (hpositive : t.isNegated = false)
    (hall : (w.store.shape t).isQuantifier = true) (hempty : w.ctx.subst.isEmpty = true)
    (hq : w.ctx.registry.Has w.ctx.solver)
    (hadd : w.ctx.solver.addConstraint w.store t [] = .ok q) (hheard : w.ctx.vars.heard = #[])
    (hroot : w.ctx.core.hasRootConflict = false) :
    assertQuantifier t [] w =
      .ok () ⟨w.store, { w.ctx.note t with registry := w.ctx.registry.setQuant q }⟩ := by
  have hallowed : w.ctx.checkAssertAllowed = .ok () := by rw [checkAssertAllowed, hidle]
  have hreopen : w.ctx.reopen = w.ctx := by rw [reopen, hidle]; rfl
  have hquantified : checkQuantified t w = .ok () w := by
    unfold checkQuantified
    rw [bind_of_ok (rfl : shape t w = .ok (w.store.shape t) w), hpositive, hall]
    rfl
  have hsub : onStore (Store.subst w.ctx.subst t) w = .ok t w := by
    rw [Store.subst_of_isEmpty hempty]
    rfl
  have hregister : addConstraint t [] w =
      .ok () ⟨w.store, { w.ctx with registry := w.ctx.registry.setQuant q }⟩ := by
    unfold addConstraint
    rw [bind_of_ok (rfl : look _ w = .ok w.ctx.registry.quant? w), hq.quant?]
    dsimp only
    rw [bind_of_ok (check_of_ok hadd)]
    rfl
  let c : Context := { w.ctx.note t with registry := w.ctx.registry.setQuant q }
  have hsync : c.syncVars = c := syncVars_eq_self hheard
  have hsettle : c.settle = c := by
    rw [settle_idle (by rw [hsync]; exact hroot), hsync]
    exact congrArg (fun status => ({ c with status } : Context)) hidle.symm
  unfold assertQuantifier
  rw [bind_of_ok (check_of_ok hallowed), bind_of_ok (check_of_ok hvalid), bind_of_ok hquantified,
    bind_of_ok (rfl : look _ w = .ok w.ctx.status w), if_neg (by simp [hidle]),
    bind_of_ok (rfl : change _ w = .ok () ⟨w.store, w.ctx.reopen⟩), hreopen,
    bind_of_ok (rfl : look _ w = .ok w.ctx.subst w), bind_of_ok hsub,
    bind_of_ok (rfl : shape t w = .ok (w.store.shape t) w), hpositive, hall]
  show (addConstraint t [] >>= fun _ => change (·.note t) >>= fun _ => change (·.settle)) w = _
  rw [bind_of_ok hregister, bind_of_ok (rfl : change _ _ = .ok () ⟨w.store, c⟩)]
  exact congrArg (fun c => EStateM.Result.ok () (⟨w.store, c⟩ : Workspace)) hsettle

/-! ## Searches -/

variable {p : Params} {stop : StopRequest} {n : Nat}

/-- A search starts unless the clauses are contradictory already. -/
theorem startSearch_of_started (hq : w.ctx.registry.Has w.ctx.solver)
    (hempty : w.ctx.core.emptyClause = none) (hunits : (w.ctx.core.startSearch p).1 = true) :
    startSearch p w = .ok true ⟨w.store, { w.ctx with
      core := (w.ctx.core.startSearch p).2
      registry := { w.ctx.registry with
        egraph := w.ctx.registry.egraph.startSearch
        satellites := #[.quant (w.ctx.solver.startSearch p)] } }⟩ := by
  have htheories := Theory.Registry.startSearch_eq hq p
  unfold startSearch
  rw [bind_of_ok (rfl : look _ w = .ok w.ctx.core.isTriviallyUnsat w), Core.isTriviallyUnsat,
    hempty]
  simp only [Option.isSome_none, Bool.false_eq_true, if_false]
  rw [bind_of_ok (rfl : update _ w = .ok _ _), hunits]
  simp only [Bool.not_true, Bool.false_eq_true, if_false]
  rw [bind_of_ok (rfl : update _ _ = .ok _ _), htheories]
  rfl

/-- Where the core meets no conflict, the e-graph answers. -/
theorem propagate_of_none {q : Quant.Solver} (hcore : w.ctx.core.propagate.1 = none)
    (hq : w.ctx.registry.Has q) :
    propagate w =
      .ok (w.ctx.registry.egraph.propagate w.ctx.core.propagate.2.trail).1.conflict
        ⟨w.store, { w.ctx with
          core := w.ctx.core.propagate.2
          registry := { w.ctx.registry with
            egraph := (w.ctx.registry.egraph.propagate w.ctx.core.propagate.2.trail).2 } }⟩ := by
  unfold propagate
  rw [bind_of_ok (rfl : update _ w = .ok w.ctx.core.propagate.1
    ⟨w.store, { w.ctx with core := w.ctx.core.propagate.2 }⟩), hcore]
  exact congrArg (fun x => EStateM.Result.ok x.1.2.conflict
    (⟨w.store, { w.ctx with core := w.ctx.core.propagate.2, registry := x.2 }⟩ : Workspace))
    (Theory.Registry.propagate_eq hq w.ctx.core.propagate.2.trail)

/-- Where neither the core nor the e-graph has anything to say, a branch is picked, unless there
were enough conflicts for a restart. -/
theorem approach_eq (hstop : stop ≠ .atStep n) (hgo : w.ctx.interrupted = false)
    (hcore : w.ctx.core.propagate.1 = none) (hq : w.ctx.registry.Has w.ctx.solver)
    (hegraph : (w.ctx.registry.egraph.propagate w.ctx.core.propagate.2.trail).1.conflict = none)
    (hrestart : w.ctx.core.propagate.2.shouldRestart = false) :
    let w' : Workspace := ⟨w.store, { w.ctx with
      core := w.ctx.core.propagate.2.pickBranch.2
      registry := { w.ctx.registry with
        egraph := (w.ctx.registry.egraph.propagate w.ctx.core.propagate.2.trail).2 } }⟩
    approach p stop n w = match w.ctx.core.propagate.2.pickBranch.1 with
      | some l => .ok (some none) ⟨w'.store, { w'.ctx with
          core := w'.ctx.core.decide l, registry := w'.ctx.registry.openLevel }⟩
      | none => .ok none w' := by
  have hnone : propagate w = .ok none ⟨w.store, { w.ctx with
      core := w.ctx.core.propagate.2
      registry := { w.ctx.registry with
        egraph := (w.ctx.registry.egraph.propagate w.ctx.core.propagate.2.trail).2 } }⟩ := by
    rw [propagate_of_none hcore hq, hegraph]
  intro w'
  unfold approach
  rw [bind_of_ok (rfl : change _ w = .ok () _), if_neg hstop]
  rw [bind_of_ok (rfl : look _ w = .ok w.ctx.interrupted w), hgo, if_neg Bool.false_ne_true,
    bind_of_ok hnone]
  dsimp only
  rw [bind_of_ok (rfl : look _ _ = .ok w.ctx.core.propagate.2.shouldRestart _), hrestart,
    if_neg Bool.false_ne_true,
    bind_of_ok (rfl : update _ _ = .ok w.ctx.core.propagate.2.pickBranch.1 w')]
  cases w.ctx.core.propagate.2.pickBranch.1 <;> rfl

/-- When no variable is open, the assignment is complete. -/
theorem approach_of_complete (hstop : stop ≠ .atStep n) (hgo : w.ctx.interrupted = false)
    (hcore : w.ctx.core.propagate.1 = none) (hq : w.ctx.registry.Has w.ctx.solver)
    (hegraph : (w.ctx.registry.egraph.propagate w.ctx.core.propagate.2.trail).1.conflict = none)
    (hrestart : w.ctx.core.propagate.2.shouldRestart = false)
    (hclosed : (List.range w.ctx.core.propagate.2.vars.size).all
      (fun v => !w.ctx.core.propagate.2.isOpen v) = true) :
    ∃ order, approach p stop n w = .ok none ⟨w.store, { w.ctx with
      core := { w.ctx.core.propagate.2 with order }
      registry := { w.ctx.registry with
        egraph := (w.ctx.registry.egraph.propagate w.ctx.core.propagate.2.trail).2 } }⟩ := by
  obtain ⟨order, horder⟩ := Core.pickBranch_eq w.ctx.core.propagate.2
  have happroach := approach_eq (p := p) hstop hgo hcore hq hegraph hrestart
  rw [Core.pickBranch_eq_none hclosed, horder] at happroach
  exact ⟨order, happroach⟩

/-- A decision is due as long as a variable is open. -/
theorem step_decides {v : Nat} (hstop : stop ≠ .atStep n) (hgo : w.ctx.interrupted = false)
    (hcore : w.ctx.core.propagate.1 = none) (hq : w.ctx.registry.Has w.ctx.solver)
    (hegraph : (w.ctx.registry.egraph.propagate w.ctx.core.propagate.2.trail).1.conflict = none)
    (hrestart : w.ctx.core.propagate.2.shouldRestart = false)
    (hv : v ≠ 0) (hopen : w.ctx.core.propagate.2.isOpen v = true) :
    ∃ l order, w.ctx.core.propagate.2.isOpen l.var = true ∧
      step p stop n w = .ok none ⟨w.store, { w.ctx with
        core := ({ w.ctx.core.propagate.2 with order } : Core).decide l
        registry := Theory.Registry.openLevel { w.ctx.registry with
          egraph := (w.ctx.registry.egraph.propagate w.ctx.core.propagate.2.trail).2 } }⟩ := by
  obtain ⟨hpicked, hnone⟩ := Core.pickBranch_spec w.ctx.core.propagate.2
  obtain ⟨order, horder⟩ := Core.pickBranch_eq w.ctx.core.propagate.2
  have happroach := approach_eq (p := p) hstop hgo hcore hq hegraph hrestart
  cases hpick : w.ctx.core.propagate.2.pickBranch.1 with
  | none => rw [hnone hpick v hv] at hopen; cases hopen
  | some l =>
    rw [hpick, horder] at happroach
    refine ⟨l, order, hpicked l hpick, ?_⟩
    rw [step_eq, bind_of_ok happroach]
    rfl

/-- A look that no stop request interrupts is the look of the quantifier solver. -/
theorem finalCheck_of_look (hq : w.ctx.registry.Has w.ctx.solver) {outcome : FinalCheck}
    {formulas : List Term} {q : Quant.Solver}
    (hlook : w.ctx.solver.finalCheck (some w.ctx.registry.egraph) w.store =
      ((outcome, formulas, q), s)) :
    finalCheck .never n w = .ok (outcome, { formulas })
      ⟨s, { w.ctx with registry := { w.ctx.registry with satellites := #[.quant q] } }⟩ := by
  have hjoin : FinalCheck.done.join outcome = outcome := by cases outcome <;> rfl
  obtain ⟨store, ctx⟩ := w
  have hlook' : ctx.registry.finalCheck store = (((outcome, { formulas }),
      { ctx.registry with satellites := #[.quant q] }), s) := by
    rw [Theory.Registry.finalCheck_eq hq, hlook]
    dsimp only
    rw [hjoin]
  unfold finalCheck
  dsimp only
  rw [hlook']
  rfl

/-- What goes on is not over. -/
theorem unlessStuck_of_true {op : Work Bool} (h : op w = .ok true w₁) :
    unlessStuck op w = .ok none w₁ := by
  unfold unlessStuck
  rw [bind_of_ok h]
  rfl

/-- A step at a complete assignment asks the theories what it means. -/
theorem step_of_complete (happroach : approach p stop n w = .ok none w₁) :
    step p stop n w = conclude stop n w₁ := by
  rw [step_eq, bind_of_ok happroach]
  rfl

/-- Without quantifiers the theories have no objection to a complete assignment. -/
theorem conclude_of_unquantified (hq : w.ctx.registry.Has w.ctx.solver)
    (hconstraints : w.ctx.solver.constraints = #[]) (hgo : w.ctx.interrupted = false) :
    conclude .never n w = .ok (some .sat) ⟨w.store, { w.ctx with
      registry := { w.ctx.registry with satellites := #[.quant w.ctx.solver] } }⟩ := by
  have hlook : w.ctx.solver.finalCheck (some w.ctx.registry.egraph) w.store =
      ((.done, [], w.ctx.solver), w.store) := by
    unfold Quant.Solver.finalCheck
    rw [hconstraints]
    rfl
  have hcomplete : Theory.Registry.isComplete { w.ctx.registry with
      satellites := #[.quant w.ctx.solver] } = true := by
    simp [Theory.Registry.isComplete, Theory.Satellite.isComplete, Quant.Solver.isComplete,
      hconstraints]
  unfold conclude
  rw [bind_of_ok (finalCheck_of_look hq hlook)]
  dsimp only
  rw [bind_of_ok (rfl : look _ _ = .ok w.ctx.interrupted _), hgo]
  show EStateM.Result.ok (some (if Theory.Registry.isComplete _ = true then Status.sat
    else .unknown)) _ = _
  rw [hcomplete]
  rfl

/-- A check without a scope of its own that finds no open variable and no quantifier. -/
theorem checkSat_of_complete (fuel : Nat) (hidle : w.ctx.status = .idle)
    (hmode : (w.ctx.config.mode == .interactive) = false) (hp : p.validate = .ok ())
    (hstart : startSearch p ⟨w.store, searching .never w.ctx⟩ =
      .ok true w₁)
    (happroach : approach p .never 0 w₁ = .ok none ⟨s, c⟩) (hq : c.registry.Has c.solver)
    (hconstraints : c.solver.constraints = #[]) (hgo : c.interrupted = false) :
    checkSat p .never (fuel + 1) w = .ok .sat ⟨s, { c with
      registry := { c.registry with satellites := #[.quant c.solver] }, status := .sat }⟩ := by
  have hstep : step p .never 0 w₁ = .ok (some .sat) ⟨s, { c with
      registry := { c.registry with satellites := #[.quant c.solver] } }⟩ :=
    (step_of_complete happroach).trans (conclude_of_unquantified (w := ⟨s, c⟩) hq hconstraints hgo)
  have hsearch : search p .never (fuel + 1)
      ⟨w.store, searching .never w.ctx⟩ =
      .ok .sat
        ⟨s, { c with registry := { c.registry with satellites := #[.quant c.solver] } }⟩ := by
    unfold search
    rw [bind_of_ok hstart, if_pos rfl]
    unfold steps
    rw [bind_of_ok hstep]
    rfl
  have hattempt : attempt (search p .never (fuel + 1))
      ⟨w.store, searching .never w.ctx⟩ = .ok (.ok .sat)
      ⟨s, { c with registry := { c.registry with satellites := #[.quant c.solver] } }⟩ := by
    unfold attempt
    rw [hsearch]
  unfold checkSat
  rw [bind_of_ok (rfl : look _ w = .ok w.ctx.status w), hidle]
  dsimp only
  rw [hp, bind_of_ok (rfl : check (fun _ _ => .ok ()) w = .ok () w),
    bind_of_ok (rfl : look _ w = .ok (w.ctx.config.mode == .interactive) w), hmode]
  show (change (searching .never) >>= _) w = _
  rw [bind_of_ok (rfl : change (searching .never) w = .ok () ⟨w.store, searching .never w.ctx⟩),
    bind_of_ok hattempt]
  rfl

end Work

/-! ## Two constants to choose from -/

namespace Core

/-- The core of a new context, in which a unit makes the only variable true. -/
def initial : Core := (({} : Core).ensureVar 1).addClause [.pos 1] 0

/-- Two more variables, at least one of which has to be true. -/
def choosing : Core :=
  ((((initial.require (initial.decisionLevel = 0)).ensureVar 2).ensureVar 3).storeClause
    ⟨.pos 2, .pos 3, [], 0, false⟩).2

/-- The clause is added to the core of a new context. -/
theorem addClause_initial : initial.addClause [.pos 2, .pos 3] 0 = choosing := by
  have hnormal : Literal.normalize [.pos 2, .pos 3] = [.pos 2, .pos 3] := by
    unfold Literal.normalize
    rw [List.mergeSort_of_pairwise (by decide)]
    rfl
  exact addClause_pair initial 0 hnormal (by decide) (by with_unfolding_all rfl)
    (by with_unfolding_all rfl)

/-- The unit and the two variables are in use, and a search can start. -/
theorem choosing_spec : choosing.vars.size = 4 ∧
    (List.range 4).filter (fun v => (choosing.info v).live) = [1, 2, 3] ∧
    choosing.hasRootConflict = false ∧ choosing.emptyClause = none ∧
    (choosing.startSearch {}).1 = true := by
  with_unfolding_all exact ⟨rfl, rfl, rfl, rfl, rfl⟩

/-- These are all that is in use. -/
theorem live_choosing (v : Nat) : (choosing.info v).live = true ↔ v = 1 ∨ v = 2 ∨ v = 3 := by
  obtain ⟨hsize, hlive, -⟩ := choosing_spec
  have hmem : v ∈ [1, 2, 3] ↔ v < 4 ∧ (choosing.info v).live = true := by
    rw [← hlive, List.mem_filter, List.mem_range]
  have hlt (h : (choosing.info v).live = true) : v < 4 := hsize ▸ lt_size_of_live h
  rw [iff_comm, ← and_iff_right_of_imp hlt, ← hmem]
  simp

/-- So nothing changes when the two variables are announced. -/
theorem ensureVar_choosing :
    ([⟨0, 2, .ofIndex 2⟩, ⟨0, 3, .ofIndex 3⟩] : List Announcement).foldl
      (fun core a => core.ensureVar a.var) choosing = choosing := by
  have h₂ := (live_choosing 2).mpr (.inr (.inl rfl))
  have h₃ := (live_choosing 3).mpr (.inr (.inr rfl))
  simp only [List.foldl_cons, List.foldl_nil, ensureVar_of_live h₂, ensureVar_of_live h₃]

/-- The same in a search, when nothing more is forced. -/
def settled : Core := (choosing.startSearch {}).2.propagate.2

/-- Only the unit is on the trail then, and there is a decision to make. -/
theorem settled_spec : (choosing.startSearch {}).2.propagate.1 = none ∧
    settled.trail = #[.pos 1] ∧ settled.decisionLevel = 0 ∧ settled.shouldRestart = false ∧
    (List.range settled.vars.size).filter (fun v => settled.isOpen v) = [2, 3] := by
  with_unfolding_all exact ⟨rfl, rfl, rfl, rfl, rfl⟩

/-- It is about one of the two constants. -/
theorem isOpen_settled (v : Nat) : settled.isOpen v = true ↔ v = 2 ∨ v = 3 := by
  obtain ⟨-, -, -, -, hopen⟩ := settled_spec
  have hlt (h : settled.isOpen v = true) : v < settled.vars.size :=
    lt_size_of_live (Bool.and_eq_true_iff.mp h).1
  rw [← and_iff_right_of_imp hlt, ← List.mem_range, ← List.mem_filter, hopen]
  simp

end Core

namespace Context

/-- A context without assertions, with a given core. -/
def plain (mode : Mode) (core : Core) : Context where
  config := { mode }
  options := {}
  vars := ⟨⟨#[none, some (.top, ())], (∅ : Std.HashMap Term Nat).insert .top 1, []⟩, 1, #[]⟩
  core
  registry := ⟨.empty, #[.quant {}], #[]⟩
  created := #[1]
  trueLit := .pos 1

/-- A new context has the core with the unit. -/
theorem new_eq (mode : Mode) : Context.new { mode } = plain mode .initial := by
  let vars : Variables :=
    ⟨⟨#[none, some (.top, ())], (∅ : Std.HashMap Term Nat).insert .top 1, []⟩, 1, #[⟨0, 1, .top⟩]⟩
  have hget : (blank { mode }).vars.get .top = (1, vars) := by
    simp [vars, blank, Variables.get, Variables.empty, Variables.listen, Arena.empty, Arena.find?,
      Arena.intern]
  simp only [Context.new, Context.atom, hget, Context.addClause, Context.syncVars,
    Variables.collect, vars, plain, List.map_toArray, List.map_cons, List.map_nil]
  rfl

/-- A context in which the disjunction of the two constants was asserted. -/
def choosing (mode : Mode) (core : Core) : Context where
  config := { mode }
  options := {}
  vars := ⟨⟨#[none, some (.top, ()), some (.ofIndex 2, ()), some (.ofIndex 3, ())],
    (((∅ : Std.HashMap Term Nat).insert .top 1).insert (.ofIndex 2) 2).insert (.ofIndex 3) 3, []⟩,
    1, #[]⟩
  core
  registry := ⟨.empty, #[.quant {}], #[]⟩
  assertions := #[.ofIndex 4]
  lits := ((∅ : Std.HashMap Term Literal).insert (.ofIndex 2) (.pos 2)).insert (.ofIndex 3) (.pos 3)
  cacheLog := #[.literal (.ofIndex 2), .literal (.ofIndex 3)]
  created := #[1, 2, 3]
  trueLit := .pos 1

end Context

namespace Work

set_option maxRecDepth 3000 in
/-- The disjunction is supported, and the literals of the two constants are those of their
variables. -/
theorem choice_spec (mode : Mode) (core : Core) :
    (plain mode core).validate .choice (.ofIndex 4) = .ok () ∧
    [Term.ofIndex 2, .ofIndex 3].mapM literalOf
      ⟨.choice, (plain mode core).note (.ofIndex 4)⟩ = .ok [.pos 2, .pos 3] ⟨.choice,
        { choosing mode core with
          vars := { (choosing mode core).vars with
            heard := #[⟨0, 2, .ofIndex 2⟩, ⟨0, 3, .ofIndex 3⟩] }
          created := #[1] }⟩ := by
  unfold plain choosing
  rw [Egraph.empty_eq]
  constructor <;> cbv

set_option maxRecDepth 3000 in
/-- The disjunction of the constants becomes a clause of their variables. -/
theorem after_choice (mode : Mode) :
    after ⟨.choice, .new { mode }⟩ [.assert [.ofIndex 4]] = ⟨.choice, choosing mode .choosing⟩ := by
  obtain ⟨hvalid, hliterals⟩ := choice_spec mode .initial
  have hshape : Store.choice.shape (.ofIndex 4) = .or [.ofIndex 2, .ofIndex 3] :=
    Store.shape_of_slots Store.slots_choice _
  have hleaves : disjuncts .choice (Store.choice.terms.slots.size + 1) [.ofIndex 2, .ofIndex 3] =
      [.ofIndex 2, .ofIndex 3] := by
    simp only [disjuncts, Store.shape_of_slots Store.slots_choice]
    rfl
  have hprocess := process_or (w := ⟨.choice, (plain mode .initial).note (.ofIndex 4)⟩)
    Std.HashMap.isEmpty_empty rfl (by decide) rfl hshape hleaves hliterals
  have hcore : [⟨0, 2, .ofIndex 2⟩, ⟨0, 3, .ofIndex 3⟩].foldl
      (fun (core : Core) (a : Announcement) => core.ensureVar a.var)
      (Core.initial.addClause [.pos 2, .pos 3] 0) = .choosing := by
    rw [Core.addClause_initial, Core.ensureVar_choosing]
  have hsync : Context.syncVars (Context.addClause [.pos 2, .pos 3] { choosing mode .initial with
      vars := { (choosing mode .initial).vars with
        heard := #[⟨0, 2, .ofIndex 2⟩, ⟨0, 3, .ofIndex 3⟩] }
      created := #[1] }) = choosing mode .choosing := by
    rw [syncVars_eq [⟨0, 2, .ofIndex 2⟩, ⟨0, 3, .ofIndex 3⟩] rfl]
    simp only [Context.addClause, choosing, Context.depth, List.length_nil, hcore]
    rfl
  have hassert := assert_eq (w := ⟨.choice, plain mode .initial⟩) rfl hvalid hprocess (by
    rw [hsync]
    exact Core.choosing_spec.2.2.1)
  rw [hsync] at hassert
  unfold after
  rw [new_eq]
  exact congrArg endState hassert

/-- A search that starts with the two constants open makes a decision in its first step. -/
theorem searching_choosing {stop : StopRequest} {s : Store} {c : Context} (hstop : stop ≠ .atStep 0)
    (hcore : c.core = .choosing) (hgo : c.interrupted = false) (hq : c.registry.Has c.solver)
    (hegraph : (c.registry.egraph.startSearch.propagate #[.pos 1]).1.conflict = none) :
    ∃ l order w₁, Searching {} stop ⟨s, c⟩ 1 w₁ ∧ Core.settled.isOpen l.var = true ∧
      w₁.ctx.core = ({ Core.settled with order } : Core).decide l ∧
      w₁.ctx.core.decisionLevel = 1 ∧ w₁.ctx.depth = c.depth ∧
      w₁.ctx.registry.Has (c.solver.startSearch {}) ∧
      w₁.ctx.registry.egraph =
        (c.registry.egraph.startSearch.propagate #[.pos 1]).2.openLevel := by
  obtain ⟨-, -, -, hempty, hstarted⟩ := Core.choosing_spec
  obtain ⟨hforced, htrail, hlevel, hrestart, -⟩ := Core.settled_spec
  have htwo := (Core.isOpen_settled 2).mpr (.inl rfl)
  have hstart := startSearch_of_started (p := {}) (w := ⟨s, c⟩) hq
    (by rw [hcore]; exact hempty) (by rw [hcore]; exact hstarted)
  dsimp only at hstart
  rw [hcore] at hstart
  obtain ⟨l, order, hopen, hstep⟩ := step_decides (p := {}) (n := 0) (v := 2)
    (w := ⟨s, { c with
      core := (Core.choosing.startSearch {}).2
      registry := { c.registry with
        egraph := c.registry.egraph.startSearch
        satellites := #[.quant (c.solver.startSearch {})] } }⟩)
    hstop hgo hforced rfl ((congrArg (fun trail => (c.registry.egraph.startSearch.propagate
      trail).1.conflict) htrail).trans hegraph) hrestart (by decide) htwo
  have hegraph' := congrArg (fun trail =>
    (c.registry.egraph.startSearch.propagate trail).2.openLevel) htrail
  have hregistry := Theory.Registry.openLevel_eq (q := c.solver.startSearch {}) (r :=
    { c.registry with
      egraph := (c.registry.egraph.startSearch.propagate Core.settled.trail).2
      satellites := #[.quant (c.solver.startSearch {})] }) rfl
  refine ⟨l, order, _, .step (.start hstart) hstep, hopen, rfl, ?_, rfl, ?_, ?_⟩
  · exact (Core.decisionLevel_decide _ l).trans (congrArg (· + 1) hlevel)
  · exact (congrArg (Theory.Registry.Has · _) hregistry).mpr rfl
  · exact (congrArg Theory.Registry.egraph hregistry).trans hegraph'

end Work

/-! ## A constant that is defined by another -/

namespace Core

/-- A second unit in the core of a new context. -/
def doubled : Core := (initial.addClause [.pos 2] 0).ensureVar 2

/-- The same in a search, when both units are known. -/
def forced : Core := (doubled.startSearch {}).2.propagate.2

/-- The core when the units are known, whatever the order of the variables is. -/
def known (order : Search.Order) : Core := { forced with order }

/-- The units do not contradict each other, and a search can start. -/
theorem doubled_spec : doubled.hasRootConflict = false ∧ doubled.emptyClause = none ∧
    (doubled.startSearch {}).1 = true ∧ (doubled.startSearch {}).2.propagate.1 = none := by
  with_unfolding_all exact ⟨rfl, rfl, rfl, rfl⟩

/-- Both units are on the trail then, at level 0, and there is nothing to decide. -/
theorem forced_spec : forced.trail = #[.pos 1, .pos 2] ∧ forced.levelStarts = #[] ∧
    forced.hasRootConflict = false ∧ forced.shouldRestart = false ∧
    (List.range forced.vars.size).all (fun v => !forced.isOpen v) = true := by
  with_unfolding_all exact ⟨rfl, rfl, rfl, rfl, rfl⟩

end Core

namespace Context

/-- A context in which the second constant was asserted. -/
def fact (core : Core) : Context where
  config := { mode := .pushPop }
  options := {}
  vars := ⟨⟨#[none, some (.top, ()), some (.ofIndex 3, ())],
    ((∅ : Std.HashMap Term Nat).insert .top 1).insert (.ofIndex 3) 2, []⟩, 1, #[]⟩
  core
  registry := ⟨.empty, #[.quant {}], #[]⟩
  assertions := #[.ofIndex 3]
  lits := (∅ : Std.HashMap Term Literal).insert (.ofIndex 3) (.pos 2)
  cacheLog := #[.literal (.ofIndex 3)]
  created := #[1, 2]
  trueLit := .pos 1

/-- A context in which it was asserted after that that the first one is the same. -/
def linked (core : Core) : Context :=
  { fact core with
    assertions := #[.ofIndex 3, (Term.ofIndex 5).neg]
    subst := (∅ : Subst).insert (.ofIndex 2) (.ofIndex 3)
    substLog := #[.ofIndex 2] }

/-- The same when a check has found that this is possible. -/
def answered (core : Core) : Context :=
  { linked core with
    status := .sat
    registry := ⟨(Egraph.empty.startSearch.propagate #[.pos 1, .pos 2]).2,
      #[.quant (({} : Quant.Solver).startSearch {})], #[]⟩ }

end Context

namespace Work

set_option maxRecDepth 4000 in
/-- The two formulas are supported, and the literal of the first one is that of its variable. -/
theorem linked_spec (core : Core) :
    (plain .pushPop core).validate .linked (.ofIndex 3) = .ok () ∧
    (fact core).validate .linked (Term.ofIndex 5).neg = .ok () ∧
    literalOf (.ofIndex 3) ⟨.linked, (plain .pushPop core).note (.ofIndex 3)⟩ =
      .ok (.pos 2) ⟨.linked, { fact core with
        vars := { (fact core).vars with heard := #[⟨0, 2, .ofIndex 3⟩] }, created := #[1] }⟩ := by
  unfold fact plain
  rw [Egraph.empty_eq]
  refine ⟨?_, ?_, ?_⟩ <;> cbv

set_option maxRecDepth 4000 in
/-- The constant becomes a unit. -/
theorem assertAll_fact : assertAll [.ofIndex 3] ⟨.linked, plain .pushPop .initial⟩ =
    .ok () ⟨.linked, fact .doubled⟩ := by
  obtain ⟨hvalid, -, hlit⟩ := linked_spec .initial
  have hshape : Store.linked.shape (.ofIndex 3) = .uninterpreted .bool 1 :=
    Store.shape_of_slots Store.slots_linked _
  have hdefinition {w : Workspace} (hw : w.store = .linked) :
      definition? (.ofIndex 3) w = .ok none w := by
    have hshape' : shape (.ofIndex 3) w = .ok (.uninterpreted .bool 1) w := by
      show EStateM.Result.ok (w.store.shape (.ofIndex 3)) w = _
      rw [hw, hshape]
    unfold definition?
    rw [bind_of_ok hshape']
    rfl
  have hprocess := process_unit (w := ⟨.linked, (plain .pushPop .initial).note (.ofIndex 3)⟩)
    Std.HashMap.isEmpty_empty (by decide) (by decide) (by rw [hshape]; rfl)
    (by rw [hshape]; nofun) (hdefinition rfl) hlit
  have hsync : Context.syncVars (Context.addClause [.pos 2] { fact .initial with
      vars := { (fact .initial).vars with heard := #[⟨0, 2, .ofIndex 3⟩] }
      created := #[1] }) = fact .doubled := by
    rw [syncVars_eq [⟨0, 2, .ofIndex 3⟩] rfl]
    simp only [Context.addClause, fact, Context.depth, List.length_nil, List.foldl_cons,
      List.foldl_nil]
    rfl
  have hassert := assert_eq (w := ⟨.linked, plain .pushPop .initial⟩) rfl hvalid hprocess (by
    rw [hsync]
    exact Core.doubled_spec.1)
  rwa [hsync] at hassert

/-- The first constant can be eliminated. -/
theorem canEliminate_linked (core : Core) :
    (fact core).canEliminate .linked (.ofIndex 2) (.ofIndex 3) = true := by
  have hshape : (Store.linked.shape (.ofIndex 2)).isUninterpreted = true := by
    rw [Store.shape_of_slots Store.slots_linked]
    rfl
  have hty : Store.linked.ty (.ofIndex 2) = .bool := Store.ty_of_slots Store.slots_linked _
  obtain ⟨-, -, hbool, hoccurs⟩ := Store.linked_spec
  have hfunction : Store.linked.isFunctionTy .bool = false := by simp [Store.isFunctionTy, hbool]
  have hsort : Store.linked.isSort .bool = false := by simp [Store.isSort, hbool]
  have hvars : (fact core).vars.has (.ofIndex 2) = false := by
    unfold Variables.has Variables.find? Arena.find?
    simp [fact, Std.HashMap.getElem?_insert]
    decide
  have hencoded : (fact core).isEncoded (.ofIndex 2) = false := by
    unfold isEncoded
    rw [hvars]
    simp [fact, Egraph.empty_eq]
    decide
  have hsubst : (fact core).subst = ∅ := rfl
  have hquant : (fact core).registry.quant?.any (·.mentions .linked (.ofIndex 2)) = false := by
    have hq : (fact core).registry.quant? = some {} := rfl
    rw [hq]
    exact Array.any_empty
  unfold canEliminate
  rw [hshape, hty, hfunction, hsort, hoccurs, hencoded, hsubst, hquant]
  simp

set_option maxRecDepth 4000 in
/-- That the first one is the same becomes a definition of it. -/
theorem assertAll_linked : assertAll [(Term.ofIndex 5).neg] ⟨.linked, fact .doubled⟩ =
    .ok () ⟨.linked, linked .doubled⟩ := by
  obtain ⟨-, hvalid, -⟩ := linked_spec .doubled
  have hshape : Store.linked.shape (Term.ofIndex 5).neg = .xor (.ofIndex 2) (.ofIndex 3) :=
    Store.shape_of_slots Store.slots_linked _
  have hdefinition : definition? (Term.ofIndex 5).neg
      ⟨.linked, (fact .doubled).note (Term.ofIndex 5).neg⟩ =
        .ok (some (.ofIndex 2, .ofIndex 3))
          ⟨.linked, (fact .doubled).note (Term.ofIndex 5).neg⟩ :=
    definition?_of_xor hshape rfl rfl (canEliminate_linked .doubled)
  have hprocess := process_definition
    (w := ⟨.linked, (fact .doubled).note (Term.ofIndex 5).neg⟩) Std.HashMap.isEmpty_empty
    (by decide) (by decide) (by rw [hshape]; rfl) (by rw [hshape]; nofun) hdefinition
  have hsync : Context.syncVars { (fact .doubled).note (Term.ofIndex 5).neg with
      subst := (fact .doubled).subst.insert (.ofIndex 2) (.ofIndex 3)
      substLog := (fact .doubled).substLog.push (.ofIndex 2) } = linked .doubled := by
    have hnoted : (fact .doubled).note (Term.ofIndex 5).neg = { fact .doubled with
        assertions := #[.ofIndex 3, (Term.ofIndex 5).neg] } := rfl
    rw [hnoted, syncVars_eq_self rfl]
    rfl
  have hassert := assert_eq (w := ⟨.linked, fact .doubled⟩) rfl hvalid hprocess (by
    refine (congrArg (fun c : Context => c.core.hasRootConflict) hsync).trans ?_
    exact Core.doubled_spec.1)
  exact hassert.trans (congrArg (fun c : Context => EStateM.Result.ok ()
    (⟨.linked, { c with status := .idle }⟩ : Workspace)) hsync)

set_option maxRecDepth 4000 in
/-- A check finds that there is nothing to decide. -/
theorem checkSat_linked : ∃ order, checkSat {} .never 1 ⟨.linked, linked .doubled⟩ =
    .ok .sat ⟨.linked, answered (.known order)⟩ := by
  obtain ⟨-, -, hconflict⟩ := Egraph.conflict_empty
  obtain ⟨-, hempty, hstarted, hforced⟩ := Core.doubled_spec
  obtain ⟨htrail, -, -, hrestart, hclosed⟩ := Core.forced_spec
  have hstart := startSearch_of_started (p := {})
    (w := ⟨.linked, searching .never (linked .doubled)⟩)
    rfl hempty hstarted
  obtain ⟨order, happroach⟩ := approach_of_complete (p := {}) (n := 0)
    (w := ⟨.linked, { linked (Core.doubled.startSearch {}).2 with
      status := .searching
      registry := ⟨Egraph.empty.startSearch, #[.quant (({} : Quant.Solver).startSearch {})],
        #[]⟩ }⟩)
    (nofun : StopRequest.never ≠ .atStep 0) rfl hforced rfl
    ((congrArg (fun trail => (Egraph.empty.startSearch.propagate trail).1.conflict) htrail).trans
      hconflict)
    hrestart hclosed
  have hcheck := checkSat_of_complete (w := ⟨.linked, linked .doubled⟩) 0 rfl rfl rfl
    hstart happroach rfl rfl rfl
  refine ⟨order, hcheck.trans (congrArg (fun trail => EStateM.Result.ok Status.sat (⟨.linked,
    { answered (.known order) with registry := ⟨(Egraph.empty.startSearch.propagate trail).2,
      #[.quant (({} : Quant.Solver).startSearch {})], #[]⟩ }⟩ : Workspace)) htrail)⟩

end Work
end Entail
