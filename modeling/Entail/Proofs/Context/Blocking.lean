import Entail.Proofs.Context.Termination

/-!
# Excluding assignments

A check that ends with a model leaves a complete assignment that is allowed. Every literal of it
follows by unit propagation from the decisions, so the clause that negates the decisions
excludes this assignment of the variables in use and no other. Repeated checks, each followed by
such a clause, then find the allowed assignments one after the other, each of them once, and end
without a model.
-/

namespace Entail

open Workspace Context Search

variable {w w' : Workspace} {p : Params}

namespace Core

variable {c : Core} {a b : Nat → Bool} {l : Literal}

/-- The present assignment; a variable without a value counts as false. -/
def valuation (c : Core) (v : Nat) : Bool := (c.varValue v).getD false

/-- The valuations assign the same to the variables in use. -/
def Agree (c : Core) (a b : Nat → Bool) : Prop := ∀ v, (c.info v).live = true → a v = b v

/-- Every variable in use has a value. -/
def Total (c : Core) : Prop := ∀ v, (c.info v).live = true → (c.varValue v).isSome = true

theorem Agree.symm (h : c.Agree a b) : c.Agree b a := fun v hv => (h v hv).symm

theorem agree_congr {c' : Core} (hlive : ∀ v, (c'.info v).live = (c.info v).live) :
    c'.Agree a b ↔ c.Agree a b :=
  forall_congr' fun v => by rw [hlive]

theorem Agree.holds (h : c.Agree a b) (hlive : (c.info l.var).live = true) :
    l.Holds a ↔ l.Holds b := by
  unfold Literal.Holds
  rw [h _ hlive]

theorem Agree.models (hagree : c.Agree a b) (h : c.state.Orderly) (ha : c.db.Models a) :
    c.db.Models b := by
  refine ⟨fun {n cl} hcl => ?_, fun {u} hu => (hagree.holds (h.units u hu)).mp (ha.unit hu),
    ha.empty⟩
  obtain ⟨l, hl, hholds⟩ := ha.clause hcl
  exact ⟨l, hl, (hagree.holds (h.watching.live hcl l hl)).mp hholds⟩

theorem Agree.mem_literals (hagree : c.Agree a b) (l : Literal) :
    l ∈ c.literals b ↔ l ∈ c.literals a := by
  rw [Core.mem_literals, Core.mem_literals]
  exact and_congr_right fun hlive => (hagree.holds hlive).symm

theorem holds_valuation (h : c.state.Assigned) (hl : l ∈ c.state.trail) : l.Holds c.valuation := by
  have hvalue : c.varValue l.var = some (!l.isNegated) := h.value.mpr hl
  unfold Literal.Holds valuation
  rw [hvalue]
  rfl

/-- A valuation is the present assignment when all that is on the trail holds. -/
theorem agree_valuation (h : c.state.Orderly) (htotal : c.Total) :
    c.Agree a c.valuation ↔ ∀ l ∈ c.state.trail, l.Holds a := by
  refine ⟨fun hagree l hl => (hagree.holds (h.used l hl)).mpr (holds_valuation h.assigned hl),
    fun hholds v hlive => ?_⟩
  -- the trail has the variable with the sign of its value
  obtain ⟨value, hvalue⟩ := Option.isSome_iff_exists.mp (htotal v hlive)
  obtain ⟨hvar, hsign⟩ := Literal.mk'_eq_iff.mp (rfl : Literal.mk' v (!value) = _)
  have hmem : Literal.mk' v (!value) ∈ c.state.trail := by
    rw [← h.assigned.value, hvar, hsign, Bool.not_not]
    exact hvalue
  have hv := hholds _ hmem
  unfold Literal.Holds at hv
  rw [hvar, hsign, Bool.not_not] at hv
  unfold valuation
  rw [hvalue, hv]
  rfl

theorem decisions_state (c : Core) : c.state.decisions = c.decisions := by
  unfold State.decisions decisions
  exact congrArg (fun f => c.levelStarts.toList.filterMap f) (funext fun i => Array.getElem?_toList)

/-- Among the valuations of the clauses, the decisions hold in the present assignment only. -/
theorem agree_of_decisions (h : c.state.Orderly) (htotal : c.Total) (ha : c.db.Models a) :
    (∀ l ∈ c.decisions.map (·.neg), ¬ l.Holds a) ↔ c.Agree a c.valuation := by
  have hdecisions : (∀ l ∈ c.decisions.map (·.neg), ¬ l.Holds a) ↔ ∀ l ∈ c.state.decisions,
      l.Holds a := by
    rw [decisions_state, List.forall_mem_map]
    exact forall₂_congr fun l _ => by rw [Literal.holds_neg, not_not]
  rw [hdecisions, agree_valuation h htotal]
  -- all else on the trail follows from the decisions
  exact ⟨h.assigned.holds_of_decisions ha.obeys, fun hholds l hl =>
    hholds l (State.mem_trail_of_decisions hl)⟩

/-- Clauses, units and trail mention variables in use only. -/
theorem over_live (h : c.state.Orderly) : c.Over fun v => (c.info v).live = true :=
  ⟨⟨h.watching.live, fun u hu => h.units u (Array.mem_toList_iff.mp hu)⟩,
    fun l hl => h.used l (Array.mem_toList_iff.mpr hl), id⟩

/-- A clause of variables in use takes no other variable into use. -/
theorem live_addClause_of_live (h : c.state.Orderly) {lits : List Literal}
    (hlits : ∀ l ∈ lits, (c.info l.var).live = true)
    (scope v : Nat) : ((c.addClause lits scope).info v).live = (c.info v).live := by
  obtain ⟨depth, hok⟩ := h.ok
  rw [Bool.eq_iff_iff]
  exact ⟨((over_live h).addClause hok hlits scope).live, (live_addClause h lits scope).1 v⟩

end Core

namespace Context

variable {c c' : Context} {a b : Nat → Bool}

/-- What is allowed depends on the variables in use only. -/
theorem Allows.agree (ha : c.Allows a) (h : c.core.state.Orderly) (hagree : c.core.Agree a b) :
    c.Allows b :=
  ⟨hagree.models h ha.models, ha.admits.congr hagree.mem_literals rfl fun _ => rfl⟩

/-- Every variable in use has a value, and the assignment is allowed. -/
structure Conclusive (c : Context) : Prop where
  orderly : c.core.state.Orderly
  total : c.core.Total
  allows : c.Allows c.core.valuation

/-- With everything propagated and without a conflict, a complete assignment is allowed. -/
theorem Complete.conclusive (h : c.Complete) (hzero : (c.core.info 0).live = false) :
    c.Conclusive := by
  have horderly := h.going.orderly
  have htotal : c.core.Total := fun v hlive =>
    h.total v (by rintro rfl; rw [hzero] at hlive; cases hlive) hlive
  have hagree : ∀ l ∈ c.core.state.trail, l.Holds c.core.valuation :=
    fun l => Core.holds_valuation horderly.assigned
  have hvalue (l : Literal) (hlive : (c.core.info l.var).live = true) :
      c.core.state.value l ≠ none := by
    have hsome := htotal l.var hlive
    intro hnone
    have hnone : (c.core.varValue l.var).map (· != l.isNegated) = none := hnone
    rw [Option.map_eq_none_iff.mp hnone] at hsome
    cases hsome
  have hguarded : c.core.state.Guarded c.core.state.trail.length :=
    h.head ▸ h.going.guarded h.going.intact
  refine ⟨horderly, htotal, ⟨fun {n cl} hcl => ?_, fun {u} hu => hagree _ (h.going.rooted u hu).1,
    h.going.intact.2⟩, ?_⟩
  · obtain ⟨l, hl, htrail⟩ := hguarded.satisfied horderly.assigned horderly.watching
        (Nat.le_refl _) hcl fun l hl =>
      hvalue l (horderly.watching.live hcl l hl)
    exact ⟨l, hl, hagree l htrail⟩
  · obtain ⟨p, hnone, htracks⟩ := h.tracks
    -- the e-graph admits the trail, which has the same literals
    refine (htracks.admits hnone).congr (fun l => ?_) rfl fun _ => rfl
    rw [Core.mem_literals]
    refine ⟨fun ⟨hlive, hholds⟩ => ?_, fun hl => ⟨horderly.used l hl, hagree l hl⟩⟩
    by_contra hl
    have hneg : l.neg ∈ c.core.state.trail := by
      by_contra hneg
      exact hvalue l hlive (horderly.assigned.value_none.mpr ⟨hl, hneg⟩)
    exact Literal.holds_neg.mp (hagree _ hneg) hholds

/-- A context that allows the same and has the same values has found the same assignment. -/
theorem Conclusive.alike (h : c.Conclusive) (halike : c.Alike c') (horderly : c'.core.state.Orderly)
    (hvalue : ∀ v, c'.core.varValue v = c.core.varValue v) : c'.Conclusive := by
  have hvaluation : c'.core.valuation = c.core.valuation := funext fun v => by
    unfold Core.valuation
    rw [hvalue]
  refine ⟨horderly, fun v hlive => ?_, hvaluation ▸ (halike.allows _).mpr h.allows⟩
  rw [hvalue]
  exact h.total v (halike.live v ▸ hlive)

/-! ## Checks that end with a model -/

/-- Committing a scope changes where clauses belong, not what they say. -/
theorem alike_commit (hq : c.registry.Has c.solver) : c.Alike c.commit := by
  unfold commit
  split
  · exact .refl c
  · refine alike_of_same (fun _ => rfl) (fun a ha => ?_) (fun a ha => ?_) ?_ ?_
    · rw [Core.db_mergeScopes]
      exact (Database.models_merge _).mpr ha.models
    · rw [Core.db_mergeScopes] at ha
      exact (Database.models_merge _).mp ha
    all_goals
      rw [Theory.Registry.mergeScope_eq hq]
      rfl

theorem Conclusive.commit (h : c.Conclusive) (hq : c.registry.Has c.solver) :
    c.commit.Conclusive := by
  refine h.alike (alike_commit hq) ?_ fun v => ?_
  · unfold Context.commit
    split
    · exact h.orderly
    · exact Core.mergeScopes_orderly h.orderly _
  · unfold Context.commit
    split <;> rfl

theorem finish_of_hasModel (interactive : Bool) {status : Status} (hmodel : status.hasModel = true)
    (c : Context) :
    c.finish interactive (.ok status) = { (if interactive then c.commit else c) with status } := by
  cases interactive with
  | false => rfl
  | true => cases status with
    | sat | unknown => rfl
    | _ => cases hmodel

theorem hasModel_finish {interactive : Bool} {outcome : Except Failure Status}
    (h : (c.finish interactive outcome).status.hasModel = true) :
    ∃ status, outcome = .ok status ∧ status.hasModel = true := by
  cases outcome with
  | error e => cases interactive <;> cases h
  | ok status =>
    refine ⟨status, rfl, ?_⟩
    cases status with
    | sat | unknown => rfl
    | _ => cases interactive <;> cases h

theorem Conclusive.status (h : c.Conclusive) (status : Status) : Conclusive { c with status } :=
  ⟨h.orderly, h.total, ⟨h.allows.models, h.allows.admits⟩⟩

theorem Conclusive.finish (h : c.Conclusive) (hq : c.registry.Has c.solver) (interactive : Bool)
    {status : Status}
    (hmodel : status.hasModel = true) : (c.finish interactive (.ok status)).Conclusive := by
  rw [finish_of_hasModel interactive hmodel]
  cases interactive with
  | false => exact h.status status
  | true => exact (h.commit hq).status status

theorem Alike.status (h : c.Alike c') (status : Status) : c.Alike { c' with status } :=
  h.trans ⟨fun _ => rfl, fun _ => ⟨fun ha => ⟨ha.models, ha.admits⟩, fun ha =>
    ⟨ha.models, ha.admits⟩⟩⟩

theorem alike_finish (hq : c.registry.Has c.solver) (interactive : Bool) {status : Status}
    (hmodel : status.hasModel = true) :
    c.Alike (c.finish interactive (.ok status)) := by
  rw [finish_of_hasModel interactive hmodel]
  cases interactive with
  | false => exact (Alike.refl c).status status
  | true => exact (alike_commit hq).status status

/-! ## Excluding the present assignment -/

theorem block_eq_ok (hblock : c.block = .ok c') :
    c.status.hasModel = true ∧ c.config.mode.hasManyChecks = true ∧
    c' = { c.clearSearch.addClause (c.core.decisions.map (·.neg)) with
      status := if (c.core.decisions.map (·.neg)).isEmpty then .unsat else .idle } := by
  unfold block at hblock
  split at hblock
  · cases hblock
  next hmodel =>
    split at hblock
    · cases hblock
    next hmany =>
      cases hblock
      exact ⟨by simpa using hmodel, by simpa using hmany, rfl⟩

theorem live_clearSearch (c : Context) (v : Nat) :
    (c.clearSearch.core.info v).live = (c.core.info v).live :=
  (Core.live_assignUnits _ v).trans (Core.live_resetTrail _ v)

theorem db_clearSearch (c : Context) : c.clearSearch.core.db = c.core.db :=
  (Core.db_assignUnits _).trans (Core.db_resetTrail _)

/-- The clause that was added is the only difference. -/
theorem allows_block (h : c.core.state.Orderly) (hq : c.registry.Has c.solver)
    (hblock : c.block = .ok c') :
    c'.core.db = c.core.db.add (c.core.decisions.map (·.neg)) c.depth ∧
      (∀ v, (c'.core.info v).live = (c.core.info v).live) ∧
        ∀ a, c'.Allows a ↔ c.Allows a ∧ ∃ l ∈ c.core.decisions.map (·.neg), l.Holds a := by
  obtain ⟨-, -, hc'⟩ := block_eq_ok hblock
  have hcore : c'.core = c.clearSearch.core.addClause (c.core.decisions.map (·.neg)) c.depth := by
    rw [hc']
    rfl
  have hregistry : c'.registry = c.registry.backtrack 0 := by
    rw [hc']
    rfl
  have hsame : Egraph.SameNodes c.registry.egraph c'.registry.egraph := by
    rw [hregistry, Theory.Registry.backtrack_eq hq]
    exact Egraph.sameNodes_backtrack _ 0
  have hatoms : c'.registry.egraph.atoms = c.registry.egraph.atoms := by rw [hsame.eq_with]
  have hlits : ∀ l ∈ c.core.decisions.map (·.neg), (c.clearSearch.core.info l.var).live = true := by
    rw [List.forall_mem_map]
    intro l hl
    rw [← Core.decisions_state] at hl
    rw [live_clearSearch, Literal.var_neg]
    exact h.used l (State.mem_trail_of_decisions hl)
  have hlive (v : Nat) : (c'.core.info v).live = (c.core.info v).live := by
    rw [hcore, Core.live_addClause_of_live (orderly_clearSearch h) hlits, live_clearSearch]
  have hdb : c'.core.db = c.core.db.add (c.core.decisions.map (·.neg)) c.depth := by
    rw [hcore, Core.db_addClause, db_clearSearch]
  obtain ⟨depth, hok⟩ := h.ok
  have hmodels (a : Nat → Bool) :
      c'.core.db.Models a ↔ c.core.db.Models a ∧ ∃ l ∈ c.core.decisions.map (·.neg), l.Holds a := by
    rw [hdb]
    exact Database.models_add hok _ _
  refine ⟨hdb, hlive, fun a => ⟨fun ha => ?_, fun ha => ⟨(hmodels a).mpr ⟨ha.1.models, ha.2⟩, ?_⟩⟩⟩
  · obtain ⟨hold, hnew⟩ := (hmodels a).mp ha.models
    exact ⟨⟨hold, admits_congr (fun v => (hlive v).symm) hsame.nodes_eq.symm hatoms.symm ha.admits⟩,
      hnew⟩
  · exact admits_congr hlive hsame.nodes_eq hatoms ha.1.admits

/-- What is excluded is the present assignment, and nothing else. -/
theorem Conclusive.block (h : c.Conclusive) (hq : c.registry.Has c.solver)
    (hblock : c.block = .ok c') :
    (∀ a, c.Allows a → ((∀ l ∈ c.core.decisions.map (·.neg), ¬ l.Holds a) ↔
      c.core.Agree a c.core.valuation)) ∧
      ∀ a, c'.Allows a ↔ c.Allows a ∧ ¬ c.core.Agree a c.core.valuation := by
  have hexact (a : Nat → Bool) (ha : c.Allows a) :=
    Core.agree_of_decisions h.orderly h.total ha.models
  refine ⟨hexact, fun a => ((allows_block h.orderly hq hblock).2.2 a).trans
    (and_congr_right fun ha => ?_)⟩
  rw [← hexact a ha]
  push Not
  rfl

end Context

/-! ## Whole runs -/

namespace Work

variable {status : Status} {stop : StopRequest}

/-- A stretch of steps that ends with a model ends with a complete assignment. -/
theorem complete_of_steps (hp : p.validate = .ok ()) (stop : StopRequest) (fuel n : Nat)
    (w : Workspace) (h : w.Pursuing)
    (hrun : steps p stop fuel n w = .ok status w') (hmodel : status.hasModel = true) :
    w'.ctx.Complete := by
  induction fuel generalizing n w with
  | zero => cases hrun
  | succ fuel ih =>
    rw [steps] at hrun
    have hok := (pursues_step hp h stop n).1
    cases hstep : step p stop n w with
    | error e w₁ =>
      rw [bind_of_error hstep] at hrun
      cases hrun
    | ok answer w₁ =>
      rw [bind_of_ok hstep] at hrun
      cases hok answer w₁ hstep with
      | stopped | refuted =>
        cases hrun
        cases hmodel
      | on hpursuing => exact ih (n + 1) w₁ hpursuing hrun
      | answered hcomplete =>
        cases hrun
        exact hcomplete

/-- A search that ends with a model, however it was stopped or bounded, ends with a complete
assignment. -/
theorem complete_of_search (hw : w.Able) (hattached : w.ctx.now.Attached w.store)
    (h : w.ctx.core.state.Orderly)
    (hp : p.validate = .ok ()) {fuel : Nat} (hrun : search p stop fuel w = .ok status w')
    (hmodel : status.hasModel = true) :
    w'.ctx.Complete := by
  have hstart := pursues_startSearch hw hattached h hp
  unfold search at hrun
  cases hgo : startSearch p w with
  | error e w₁ =>
    rw [bind_of_error hgo] at hrun
    cases hrun
  | ok go w₁ =>
    rw [bind_of_ok hgo] at hrun
    cases go with
    | true => exact complete_of_steps hp stop fuel 0 w₁ ((hstart.of_ok hgo).1 rfl).1 hrun hmodel
    | false =>
      cases hrun
      cases hmodel

end Work

theorem Edit.status (h : Edit w w') : w'.ctx.status = w.ctx.status := by cases h <;> rfl

theorem Edits.status (h : Edits w w') : w'.ctx.status = w.ctx.status := by
  induction h with
  | refl => rfl
  | tail _ hedit ih => exact hedit.status.trans ih

namespace Workspace

/-- Zero is no variable. -/
theorem Able.live_zero (h : w.Able) : (w.ctx.core.info 0).live = false := by
  by_contra hlive
  obtain ⟨t, ht⟩ := h.tidy.refers.core.live (Bool.eq_true_of_not_eq_false hlive)
  have hnone : w.ctx.vars.term? 0 = none :=
    Variables.term?_eq_none.mpr (h.tidy.ok.ctx.vars.arena.dead_of_reserved Nat.one_pos)
  rw [hnone] at ht
  cases ht

/-- A search of a context in order that ends with a model has found an allowed assignment. -/
theorem conclusive_of_search (h : UsedInOrder w) (hidle : w.ctx.status = .idle)
    (hp : p.validate = .ok ()) {stop : StopRequest} {fuel : Nat} {status : Status}
    (hrun : Work.search p stop fuel (w.underway stop) = .ok status w')
    (hmodel : status.hasModel = true) : w'.ctx.registry.Has w'.ctx.solver ∧ w'.ctx.Conclusive := by
  obtain ⟨hable, hattached, hbased⟩ := searchable_underway h hidle stop
  have hable' := maintains_frame.stable hable
    ((Work.maintains_search hable p stop fuel).of_ok hrun).1
  have hcomplete := Work.complete_of_search hable hattached hbased.orderly hp hrun hmodel
  exact ⟨hable'.tidy.ok.ctx.registry, hcomplete.conclusive hable'.live_zero⟩

/-- An assertion that changes something ends in a status without a model. -/
theorem conclusive_asserts (h : Work.Asserts w w')
    (hw : w.ctx.status.hasModel = true → w.ctx.Conclusive)
    (hmodel : w'.ctx.status.hasModel = true) : w'.ctx.Conclusive := by
  have hreopen : w.ctx.reopen.status.hasModel = false := by
    unfold reopen
    split
    · rfl
    next hnot => simpa using hnot
  cases h with
  | ignored => exact hw hmodel
  | refused hedits =>
    rw [hedits.status, hreopen] at hmodel
    cases hmodel
  | settled =>
    unfold settle at hmodel
    dsimp only at hmodel
    split at hmodel <;> cases hmodel

theorem conclusive_checkSat (h : UsedInOrder w)
    (hw : w.ctx.status.hasModel = true → w.ctx.Conclusive) (p : Params)
    (stop : StopRequest) (fuel : Nat)
    (hmodel : (endState (Work.checkSat p stop fuel w)).ctx.status.hasModel = true) :
    (endState (Work.checkSat p stop fuel w)).ctx.Conclusive := by
  by_cases hidle : w.ctx.status = .idle
  · cases hp : p.validate with
    | error e =>
      have hsame : endState (Work.checkSat p stop fuel w) = w := by
        unfold Work.checkSat
        rw [bind_of_ok (rfl : Work.look _ w = .ok w.ctx.status w), hidle, hp]
        rfl
      rw [hsame] at hmodel ⊢
      exact hw hmodel
    | ok =>
      rw [checkSat_eq hidle hp] at hmodel ⊢
      cases hrun : Work.search p stop fuel (w.underway stop) with
      | ok status w₁ =>
        rw [hrun] at hmodel
        obtain ⟨_, heq, hmodel⟩ := hasModel_finish hmodel
        cases heq
        obtain ⟨hq, hconclusive⟩ := conclusive_of_search h hidle hp hrun hmodel
        exact hconclusive.finish hq _ hmodel
      | error e w₁ =>
        rw [hrun] at hmodel
        obtain ⟨_, heq, -⟩ := hasModel_finish hmodel
        cases heq
  · have hsame : endState (Work.checkSat p stop fuel w) = w := by
      unfold Work.checkSat
      rw [bind_of_ok (rfl : Work.look _ w = .ok w.ctx.status w)]
      cases hstatus : w.ctx.status with
      | idle => exact absurd hstatus hidle
      | _ => rfl
    rw [hsame] at hmodel ⊢
    exact hw hmodel

theorem conclusive_run (h : UsedInOrder w) (hw : w.ctx.status.hasModel = true → w.ctx.Conclusive)
    (a : Action) (hmodel : (endState (a.run w)).ctx.status.hasModel = true) :
    (endState (a.run w)).ctx.Conclusive := by
  have hreplace {f : Context → Except Failure Context}
      (hf : ∀ c, f w.ctx = .ok c → c.status.hasModel = true → c.Conclusive)
      (hmodel : (endState (Work.replace f w)).ctx.status.hasModel = true) :
      (endState (Work.replace f w)).ctx.Conclusive := by
    cases hc : f w.ctx with
    | ok c =>
      rw [endState_replace hc] at hmodel ⊢
      exact hf c hc hmodel
    | error e =>
      unfold Work.replace at hmodel ⊢
      simp only [hc] at hmodel ⊢
      exact hw hmodel
  -- only a check makes an assignment; the other actions keep it or drop the status that speaks of
  -- it
  cases a with
  | assert ts => exact conclusive_asserts (Work.asserts_assertAll ts w) hw hmodel
  | assertQuantifier formula patterns =>
    exact conclusive_asserts (Work.asserts_assertQuantifier formula patterns w) hw hmodel
  | check p stop fuel =>
    have hsame : endState ((Action.check p stop fuel).run w) = endState
        (Work.checkSat p stop fuel w) := by
      show endState ((Work.checkSat p stop fuel >>= fun _ => pure ()) w) = _
      cases hrun : Work.checkSat p stop fuel w with
      | ok status w' =>
        rw [bind_of_ok hrun]
        rfl
      | error e w' =>
        rw [bind_of_error hrun]
        rfl
    rw [hsame] at hmodel ⊢
    exact conclusive_checkSat h hw p stop fuel hmodel
  | block =>
    refine hreplace (f := (·.block)) (fun c hc hmodel => ?_) hmodel
    obtain ⟨-, -, rfl⟩ := block_eq_ok hc
    dsimp only at hmodel
    split at hmodel <;> cases hmodel
  | setOption name on =>
    refine hreplace (f := (·.setOption name on)) (fun c hc hmodel => ?_) hmodel
    obtain ⟨x, -, hc⟩ := Store.bind_eq_ok_iff.mp hc
    cases hc
    have hconclusive := hw hmodel
    exact ⟨hconclusive.orderly, hconclusive.total,
      ⟨hconclusive.allows.models, hconclusive.allows.admits⟩⟩
  | stop =>
    refine hreplace (f := fun c => .ok c.stop) (fun c hc hmodel => ?_) hmodel
    cases hc
    have hconclusive := hw hmodel
    exact ⟨hconclusive.orderly, hconclusive.total,
      ⟨hconclusive.allows.models, hconclusive.allows.admits⟩⟩
  | push =>
    refine hreplace (f := (·.push)) (fun c hc hmodel => ?_) hmodel
    obtain ⟨-, w', -, -, -, hidle, rfl⟩ :=
      push_eq_ok hc (atRest_of_reachable (reachable_of_used h.used))
    rw [show w'.ctx.openScope.status = w'.ctx.status from rfl, hidle] at hmodel
    cases hmodel
  | pop =>
    refine hreplace (f := (·.pop)) (fun c hc hmodel => ?_) hmodel
    obtain ⟨a, rest, hs, rfl⟩ := pop_eq_ok hc
    cases hmodel
  | reset =>
    refine hreplace (f := fun c => .ok c.reset) (fun c hc hmodel => ?_) hmodel
    cases hc
    cases hmodel

/-- In a context whose status tells of a model, the assignment is total and allowed, however the
context was used. -/
theorem conclusive_of_used (h : UsedInOrder w) (hmodel : w.ctx.status.hasModel = true) :
    w.ctx.Conclusive := by
  obtain ⟨s, config, hs, hrun⟩ := h
  induction hrun with
  | refl => cases hmodel
  | tail hrun hturn ih =>
    cases hturn.1 with
    | act a => exact conclusive_run ⟨s, config, hs, hrun⟩ ih a hmodel
    | store => exact ih hmodel

/-! ## Repeated checks -/

/-- The check of a context without news starts with what the context allows. -/
theorem alike_underway (hw : w.Ok)
    (hheard : w.ctx.config.mode = .interactive → w.ctx.vars.heard = #[]) (stop : StopRequest) :
    w.ctx.Alike (w.underway stop).ctx := by
  unfold underway
  split
  next hmode =>
    have hcore : w.ctx.openScope.core = w.ctx.core := by
      rw [openScope_eq hw.ctx]
      show w.ctx.vars.heard.foldl _ w.ctx.core = w.ctx.core
      rw [hheard (by simpa using hmode)]
      rfl
    have hegraph : w.ctx.openScope.registry.egraph = w.ctx.registry.egraph.push := by
      rw [openScope_eq hw.ctx]
    refine alike_of_same (fun v => ?_) (fun a ha => ?_) (fun a ha => ?_) ?_ ?_
    · exact congrArg (fun c : Core => (c.info v).live) hcore
    · exact (congrArg Core.db hcore).symm ▸ ha.models
    · exact congrArg Core.db hcore ▸ ha
    · exact (congrArg Egraph.nodes hegraph).trans rfl
    · exact (congrArg Egraph.atoms hegraph).trans rfl
  · exact alike_of_same (fun _ => rfl) (fun _ ha => ha.models) (fun _ => id) rfl rfl

end Workspace

/-! ## Enumeration -/

namespace Work

/-- Checks, and excludes the assignment that was found, again and again until none is found; answers
the assignments in this order. There are at most `rounds` checks, of at most `fuel` steps each; `ps`
are the parameters of the rounds. -/
def enumerate (fuel : Nat) : (rounds : Nat) → (ps : Nat → Params) → Work (List (Nat → Bool))
  | 0, _ => throw .outOfFuel
  | rounds + 1, ps => do
    match ← checkSat (ps 0) .never fuel with
    | .sat =>
      let a ← look fun _ c => c.core.valuation
      replace (·.block)
      return a :: (← enumerate fuel rounds fun n => ps (n + 1))
    | _ => return []

end Work

/-- Between two rounds of an enumeration: the assignments of `P` are those that are still
allowed. -/
structure Workspace.Enumerates (c : Core) (P : (Nat → Bool) → Prop) (w : Workspace) : Prop where
  used : UsedInOrder w
  many : w.ctx.config.mode.hasManyChecks = true
  constraints : w.ctx.solver.constraints = #[]
  live : ∀ v, ((w.underway .never).ctx.core.info v).live = (c.info v).live
  allows : ∀ a, (w.underway .never).ctx.Allows a ↔ P a
  status : w.ctx.status = .idle ∨ w.ctx.status = .unsat ∧ ∀ a, ¬ P a

/-- In a round of an enumeration, when a check has found an assignment of `P`. -/
structure Workspace.Found (c : Core) (P : (Nat → Bool) → Prop) (w : Workspace) : Prop where
  used : UsedInOrder w
  many : w.ctx.config.mode.hasManyChecks = true
  constraints : w.ctx.solver.constraints = #[]
  heard : w.ctx.config.mode = .interactive → w.ctx.vars.heard = #[]
  live : ∀ v, (w.ctx.core.info v).live = (c.info v).live
  allows : ∀ a, w.ctx.Allows a ↔ P a
  status : w.ctx.status = .sat

namespace Workspace

variable {c : Core} {P : (Nat → Bool) → Prop}

theorem constraints_finish (hq : w.ctx.registry.Has w.ctx.solver) (interactive : Bool)
    {status : Status} (hmodel : status.hasModel = true) :
    (w.ctx.finish interactive (.ok status)).solver.constraints = w.ctx.solver.constraints := by
  rw [finish_of_hasModel interactive hmodel]
  cases interactive with
  | false => rfl
  | true =>
    rw [if_pos rfl]
    unfold Context.commit
    split
    · rfl
    · rw [Theory.Registry.mergeScope_eq hq]
      rfl

theorem vars_finish (interactive : Bool) {status : Status} (hmodel : status.hasModel = true) :
    (w.ctx.finish interactive (.ok status)).vars = w.ctx.vars := by
  rw [finish_of_hasModel interactive hmodel]
  cases interactive with
  | false => rfl
  | true =>
    rw [if_pos rfl]
    unfold Context.commit
    split <;> rfl

/-- An interactive check makes the core know of all variables. -/
theorem heard_underway (hmode : w.ctx.config.mode = .interactive) (stop : StopRequest) :
    (w.underway stop).ctx.vars.heard = #[] := by
  unfold underway
  rw [if_pos (by rw [hmode]; rfl)]
  rfl

/-- A check finds an assignment if one is left. -/
theorem Enumerates.check (h : Enumerates c P w) (hp : p.validate = .ok ()) :
    ∃ N w', (∀ fuel ≥ N, Work.checkSat p .never fuel w = .ok w'.ctx.status w') ∧
      (w'.ctx.status = .unsat ∧ (∀ a, ¬ P a) ∨ Found c P w') := by
  rcases h.status with hidle | ⟨hunsat, hno⟩
  swap
  · refine ⟨0, w, fun fuel _ => ?_, .inl ⟨hunsat, hno⟩⟩
    unfold Work.checkSat
    rw [bind_of_ok (rfl : Work.look _ w = .ok w.ctx.status w), hunsat]
    rfl
  obtain ⟨N, r, hN, hr⟩ := check_ended h.used hidle hp
  have hnone := (constraints_underway h.used.stocked.kempt.tidy.ok .never).trans h.constraints
  let interactive := w.ctx.config.mode == .interactive
  cases hr with
  | refused _ hquantified => exact absurd hnone hquantified
  | @refuted w₁ hno =>
    have hstatus : (w₁.ctx.finish interactive (.ok .unsat)).status = .unsat := by
      cases interactive <;> rfl
    refine ⟨N, ⟨w₁.store, w₁.ctx.finish interactive (.ok .unsat)⟩, fun fuel hle => ?_,
      .inl ⟨hstatus, fun a ha => ?_⟩⟩
    · rw [checkSat_eq hidle hp, hN fuel hle, hstatus]
    · exact hno hnone a ((h.allows a).mpr ha)
  | @answered w₁ status hcomplete hstatus hupholds =>
    obtain ⟨rfl, hkept⟩ := hupholds hnone
    obtain ⟨hq, -⟩ := conclusive_of_search h.used hidle hp (hN N (Nat.le_refl N)) rfl
    let w' : Workspace := ⟨w₁.store, w₁.ctx.finish interactive (.ok .sat)⟩
    have hstatus : w'.ctx.status = .sat :=
      congrArg Context.status (finish_of_hasModel interactive rfl w₁.ctx)
    have hrun (fuel : Nat) (hle : fuel ≥ N) :
        Work.checkSat p .never fuel w = .ok w'.ctx.status w' := by
      rw [checkSat_eq hidle hp, hN fuel hle, hstatus]
    have hend : endState ((Action.check p .never N).run w) = w' := by
      rw [endState_run_check, hrun N (Nat.le_refl N)]
      rfl
    have hconfig : w'.ctx.config = w.ctx.config :=
      hend ▸ (survives_run (.check p .never N) w
        (atRest_of_reachable (reachable_of_used h.used.used))).config
    have halike : (w.underway .never).ctx.Alike w'.ctx :=
      hkept.toAlike.trans (alike_finish hq interactive rfl)
    have hvars : w'.ctx.vars = (w.underway .never).ctx.vars :=
      (vars_finish interactive rfl).trans hkept.vars
    exact ⟨N, w', hrun, .inr
      { used := hend ▸ h.used.act (.check p .never N)
        many := hconfig ▸ h.many
        constraints := (constraints_finish hq interactive rfl).trans (hkept.constraints.trans hnone)
        heard := fun hmode => hvars ▸ heard_underway (hconfig ▸ hmode) .never
        live := fun v => (halike.live v).trans (h.live v)
        allows := fun a => (halike.allows a).trans (h.allows a)
        status := hstatus }⟩

/-- Excluding the assignment that was found leaves the others. -/
theorem Found.block (h : Found c P w) :
    P w.ctx.core.valuation ∧ ∃ c', w.ctx.block = .ok c' ∧
      Enumerates c (fun a => P a ∧ ¬ c.Agree a w.ctx.core.valuation) ⟨w.store, c'⟩ := by
  have hq := h.used.stocked.kempt.tidy.ok.ctx.registry
  have hconclusive := conclusive_of_used h.used (by rw [h.status]; rfl)
  obtain ⟨c', hblock⟩ : ∃ c', w.ctx.block = .ok c' := by
    unfold Context.block
    rw [h.status, h.many]
    exact ⟨_, rfl⟩
  obtain ⟨-, hlive, -⟩ := allows_block hconclusive.orderly hq hblock
  obtain ⟨hclause, hallows⟩ := hconclusive.block hq hblock
  obtain ⟨-, -, hc'⟩ := block_eq_ok hblock
  have hagree (a : Nat → Bool) : w.ctx.core.Agree a w.ctx.core.valuation ↔
      c.Agree a w.ctx.core.valuation :=
    Core.agree_congr h.live
  have hused : UsedInOrder ⟨w.store, c'⟩ :=
    endState_replace (f := (·.block)) hblock ▸ h.used.act .block
  have hconfig : c'.config = w.ctx.config := by
    rw [hc']
    rfl
  have hvars : c'.vars = w.ctx.vars := by
    rw [hc']
    rfl
  have hsolver : c'.solver = w.ctx.solver := by
    rw [hc']
    show Context.solver { w.ctx with registry := w.ctx.registry.backtrack 0 } = _
    rw [Theory.Registry.backtrack_eq hq]
    rfl
  have halike := alike_underway hused.stocked.kempt.tidy.ok
    (fun hmode => hvars ▸ h.heard (hconfig ▸ hmode)) .never
  refine ⟨(h.allows _).mp hconclusive.allows, c', hblock,
    { used := hused
      many := hconfig ▸ h.many
      constraints := hsolver ▸ h.constraints
      live := fun v => (halike.live v).trans ((hlive v).trans (h.live v))
      allows := fun a =>
        (halike.allows a).trans ((hallows a).trans (and_congr (h.allows a) (not_congr (hagree a))))
      status := ?_ }⟩
  show c'.status = .idle ∨ c'.status = .unsat ∧ _
  rw [hc']
  dsimp only
  split
  next hempty =>
    -- without decisions there is no other assignment
    refine .inr ⟨rfl, fun a ha => ha.2 ((hagree a).mp ((hclause a ((h.allows a).mpr ha.1)).mp ?_))⟩
    rw [List.isEmpty_iff.mp hempty]
    exact fun l hl => absurd hl List.not_mem_nil
  · exact .inl rfl

/-! ## All assignments -/

open Classical in
/-- The sets of variables in use that are true in one of the assignments. -/
noncomputable def patterns (c : Core) (P : (Nat → Bool) → Prop) : Finset (Finset Nat) :=
  (Finset.range c.vars.size).powerset.filter fun S => ∃ a, P a ∧ ∀ v ∈ Finset.range c.vars.size,
    v ∈ S ↔ (c.info v).live = true ∧ a v = true

/-- Without an assignment of `P` there are fewer sets left. -/
theorem patterns_lt {b : Nat → Bool} (hb : P b) :
    (patterns c fun a => P a ∧ ¬ c.Agree a b).card < (patterns c P).card := by
  classical
  unfold patterns
  refine Finset.card_lt_card ⟨fun S hS => ?_, fun hsub => ?_⟩
  · obtain ⟨hS, a, ⟨ha, -⟩, hmem⟩ := Finset.mem_filter.mp hS
    exact Finset.mem_filter.mpr ⟨hS, a, ha, hmem⟩
  · let S := (Finset.range c.vars.size).filter fun v => (c.info v).live = true ∧ b v = true
    have hmem (v : Nat) (hv : v ∈ Finset.range c.vars.size) : v ∈ S ↔ (c.info v).live = true ∧
        b v = true := by
      simp only [S, Finset.mem_filter, hv, true_and]
    have hS := hsub (Finset.mem_filter.mpr ⟨Finset.mem_powerset.mpr (Finset.filter_subset _ _),
      b, hb, hmem⟩)
    obtain ⟨-, a, ⟨-, hnot⟩, hmem'⟩ := Finset.mem_filter.mp hS
    refine hnot fun v hlive => ?_
    have hv : v ∈ Finset.range c.vars.size := Finset.mem_range.mpr (Core.lt_size_of_live hlive)
    have hsame := (hmem' v hv).symm.trans (hmem v hv)
    simp only [hlive, true_and] at hsame
    exact Bool.eq_iff_iff.mpr hsame

/-- The rounds end when every assignment was found, each once. -/
theorem Enumerates.ends (ps : Nat → Params) (hps : ∀ n, (ps n).validate = .ok ())
    (P : (Nat → Bool) → Prop) (w : Workspace) (h : Enumerates c P w) :
    ∃ N visited w', (∀ fuel ≥ N, ∀ rounds ≥ N, Work.enumerate fuel rounds ps w = .ok visited w') ∧
    w'.ctx.status = .unsat ∧
      visited.Pairwise (fun a b => ¬ c.Agree a b) ∧ (∀ b ∈ visited, P b) ∧ ∀ a, P a → ∃ b ∈ visited,
      c.Agree a b := by
  -- the induction is on the number of assignments that are left
  induction hleft : (patterns c P).card using Nat.strong_induction_on generalizing ps P w with
  | _ left ih =>
    subst hleft
    obtain ⟨N, w₁, hrun, ⟨hunsat, hno⟩ | hchecked⟩ := h.check (hps 0)
    · refine ⟨max N 1, [], w₁, fun fuel hfuel rounds hrounds => ?_, hunsat,
        .nil, by simp, fun a ha => absurd ha (hno a)⟩
      obtain ⟨rounds, rfl⟩ := Nat.exists_eq_add_of_le' ((Nat.le_max_right N 1).trans hrounds)
      rw [Work.enumerate, bind_of_ok (hrun fuel ((Nat.le_max_left N 1).trans hfuel)), hunsat]
      rfl
    · obtain ⟨hfound, c', hblock, hnext⟩ := hchecked.block
      obtain ⟨M, visited, w₂, hrest, hunsat, hpairwise, hsound, hcomplete⟩ :=
        ih _ (patterns_lt hfound) (fun n => ps (n + 1)) (fun n => hps (n + 1)) _ _ hnext rfl
      refine ⟨max N (M + 1), w₁.ctx.core.valuation :: visited, w₂, fun fuel hfuel rounds hrounds =>
        ?_, hunsat, ?_, ?_, ?_⟩
      · obtain ⟨rounds, rfl⟩ : ∃ n, rounds = n + 1 := ⟨rounds - 1, by omega⟩
        have hreplace : Work.replace (·.block) w₁ = .ok () ⟨w₁.store, c'⟩ := by
          unfold Work.replace
          simp only [hblock]
        rw [Work.enumerate, bind_of_ok (hrun fuel (by omega)), hchecked.status]
        simp only
        rw [bind_of_ok (rfl : Work.look _ w₁ = .ok w₁.ctx.core.valuation w₁), bind_of_ok hreplace,
          bind_of_ok (hrest fuel (by omega) rounds (by omega))]
        rfl
      · exact .cons (fun b hb hagree => (hsound b hb).2 hagree.symm) hpairwise
      · rintro b (_ | ⟨_, hb⟩)
        · exact hfound
        · exact (hsound b hb).1
      · intro a ha
        by_cases hagree : c.Agree a w₁.ctx.core.valuation
        · exact ⟨_, List.mem_cons_self, hagree⟩
        · obtain ⟨b, hb, hab⟩ := hcomplete a ⟨ha, hagree⟩
          exact ⟨b, List.mem_cons_of_mem _ hb, hab⟩

end Workspace

/-! ## Three assignments of two constants -/

namespace Core

variable {a b : Nat → Bool}

/-- Valuations agree if they do at the unit and the two constants. -/
theorem agree_choosing : choosing.Agree a b ↔ a 1 = b 1 ∧ a 2 = b 2 ∧ a 3 = b 3 := by
  unfold Agree
  simp only [live_choosing, forall_eq_or_imp, forall_eq]

/-- The unit and the clause ask for these values. -/
theorem models_choosing : choosing.db.Models a ↔ a 1 = true ∧ (a 2 = true ∨ a 3 = true) := by
  have hdb : choosing.db =
      ⟨#[some (⟨.pos 2, .pos 3, [], 0, false⟩ : Clause).content], [], #[(.pos 1, 0)], none⟩ := by
    with_unfolding_all rfl
  rw [hdb]
  constructor
  · intro h
    obtain ⟨l, hl, hholds⟩ := h.clause (n := 0) rfl
    have hunit := h.unit (Array.mem_singleton.mpr rfl)
    refine ⟨hunit, ?_⟩
    rcases List.mem_cons.mp (Multiset.mem_coe.mp hl) with rfl | hl
    · exact .inl hholds
    · obtain rfl := List.mem_singleton.mp hl
      exact .inr hholds
  · rintro ⟨hone, htwo⟩
    refine ⟨fun {n cl} hcl => ?_, fun {u} hu => ?_, rfl⟩
    · cases n with
      | zero =>
        cases hcl
        rcases htwo with htwo | htwo
        · exact ⟨.pos 2, Multiset.mem_coe.mpr (by simp [Clause.lits]), htwo⟩
        · exact ⟨.pos 3, Multiset.mem_coe.mpr (by simp [Clause.lits]), htwo⟩
      | succ n => cases hcl
    · obtain rfl := Array.mem_singleton.mp hu
      exact hone

end Core

namespace Workspace

/-- The context with the disjunction allows three assignments of the constants. -/
theorem allows_choosing (mode : Mode) {a : Nat → Bool} :
    (searching .never (choosing mode .choosing)).Allows a ↔
      a 1 = true ∧ (a 2 = true ∨ a 3 = true) := by
  rw [← Core.models_choosing]
  exact ⟨fun h => h.models, fun h => ⟨h, Egraph.admits_empty _⟩⟩

/-- However a context was used, excluding the present assignment takes away this assignment of the
variables in use and no other: it is total and allowed, and it is the only allowed one in which the
new clause is false. So without quantifiers repeated checks find every allowed assignment once, and
then there is none. -/
theorem block_enumerates (h : UsedInOrder w) :
    (∀ c', w.ctx.block = .ok c' →
      w.ctx.core.Total ∧ w.ctx.Allows w.ctx.core.valuation ∧
        c'.core.db = w.ctx.core.db.add (w.ctx.core.decisions.map (·.neg)) w.ctx.depth ∧
        (∀ a, w.ctx.Allows a →
          ((∀ l ∈ w.ctx.core.decisions.map (·.neg), ¬ l.Holds a) ↔
            w.ctx.core.Agree a w.ctx.core.valuation)) ∧
        (∀ v, (c'.core.info v).live = (w.ctx.core.info v).live) ∧
        ∀ a, c'.Allows a ↔ w.ctx.Allows a ∧ ¬ w.ctx.core.Agree a w.ctx.core.valuation) ∧
      (w.ctx.status = .idle → w.ctx.config.mode.hasManyChecks = true →
        w.ctx.solver.constraints = #[] →
        ∀ ps : Nat → Params, (∀ n, (ps n).validate = .ok ()) → ∃ N visited w',
          (∀ fuel ≥ N, ∀ rounds ≥ N, Work.enumerate fuel rounds ps w = .ok visited w') ∧
          w'.ctx.status = .unsat ∧
            visited.Pairwise (fun a b => ¬ (w.underway .never).ctx.core.Agree a b) ∧
            ∀ a, (w.underway .never).ctx.Allows a ↔ ∃ b ∈ visited,
            (w.underway .never).ctx.core.Agree a b) := by
  refine ⟨fun c' hblock => ?_, fun hidle hmany hnone ps hps => ?_⟩
  · obtain ⟨hmodel, -, -⟩ := block_eq_ok hblock
    have hconclusive := conclusive_of_used h hmodel
    have hq := h.stocked.kempt.tidy.ok.ctx.registry
    obtain ⟨hdb, hlive, -⟩ := allows_block hconclusive.orderly hq hblock
    obtain ⟨hclause, hallows⟩ := hconclusive.block hq hblock
    exact ⟨hconclusive.total, hconclusive.allows, hdb, hclause, hlive, hallows⟩
  · have hstart : Enumerates (w.underway .never).ctx.core
        (fun a => (w.underway .never).ctx.Allows a) w :=
      ⟨h, hmany, hnone, fun _ => rfl, fun _ => .rfl, .inl hidle⟩
    obtain ⟨N, visited, w', hrun, hunsat, hpairwise, hsound, hcomplete⟩ := hstart.ends ps hps
    have horderly := (searchable_underway h hidle .never).2.2.orderly
    exact ⟨N, visited, w', hrun, hunsat, hpairwise, fun a =>
      ⟨hcomplete a, fun ⟨b, hb, hagree⟩ => (hsound b hb).agree horderly hagree.symm⟩⟩

/-- Two constants of which one has to be true: a check makes a decision, so that its assignment can
be excluded without excluding the others, and repeated checks find each of the three. -/
theorem block_enumerates_decision :
    let w := after ⟨.choice, .new {}⟩ [.assert [.ofIndex 4]]
    (UsedInOrder w ∧ w.ctx.status = .idle ∧ w.ctx.config.mode.hasManyChecks = true ∧
      w.ctx.solver.constraints = #[] ∧ ({} : Params).validate = .ok () ∧ ∃ N visited w',
        (∀ fuel ≥ N, ∀ rounds ≥ N, Work.enumerate fuel rounds (fun _ => {}) w = .ok visited w') ∧
          w'.ctx.status = .unsat ∧ (visited.map fun b => (b 2, b 3)).Perm
            [(true, true), (true, false), (false, true)]) ∧
      ∃ N c', let w' := endState ((Action.check {} .never N).run w)
        UsedInOrder w' ∧ w'.ctx.block = .ok c' ∧ w'.ctx.core.decisions ≠ [] ∧ w'.ctx.core.Total ∧
          w'.ctx.Allows w'.ctx.core.valuation ∧
          ∀ a, c'.Allows a ↔ (a 1 = true ∧ (a 2 = true ∨ a 3 = true)) ∧
            ¬ (a 2 = w'.ctx.core.valuation 2 ∧ a 3 = w'.ctx.core.valuation 3) := by
  intro w
  have heq : w = ⟨.choice, choosing .pushPop .choosing⟩ := Work.after_choice .pushPop
  have hw : UsedInOrder w := (UsedInOrder.new Store.reached_choice.intact {}).act
    (.assert [.ofIndex 4])
  have hidle : w.ctx.status = .idle := by rw [heq]; rfl
  have hmany : w.ctx.config.mode.hasManyChecks = true := by rw [heq]; rfl
  have hnone : w.ctx.solver.constraints = #[] := by rw [heq]; rfl
  have hunderway : (w.underway .never).ctx = searching .never (choosing .pushPop .choosing) := by
    rw [heq]
    rfl
  have hallows (a : Nat → Bool) : (w.underway .never).ctx.Allows a ↔
      a 1 = true ∧ (a 2 = true ∨ a 3 = true) := by
    rw [hunderway, allows_choosing]
  have hcore : (w.underway .never).ctx.core = .choosing := by rw [hunderway]; rfl
  have hp : ({} : Params).validate = .ok () := by decide
  refine ⟨⟨hw, hidle, hmany, hnone, hp, ?_⟩, ?_⟩
  · obtain ⟨N, visited, w', hrun, hunsat, hpairwise, hexact⟩ :=
      (block_enumerates hw).2 hidle hmany hnone _ fun _ => hp
    refine ⟨N, visited, w', hrun, hunsat, ?_⟩
    simp only [hcore, hallows] at hpairwise hexact
    have hone (b : Nat → Bool) (hb : b ∈ visited) : b 1 = true ∧ (b 2 = true ∨ b 3 = true) :=
      (hexact b).mpr ⟨b, hb, fun _ _ => rfl⟩
    have hnodup : (visited.map fun b => (b 2, b 3)).Nodup := by
      refine List.pairwise_map.mpr (hpairwise.imp_of_mem fun {a b} ha hb hne heq => ?_)
      obtain ⟨htwo, hthree⟩ := Prod.mk.inj heq
      exact hne (Core.agree_choosing.mpr ⟨(hone a ha).1.trans (hone b hb).1.symm, htwo, hthree⟩)
    refine (List.perm_ext_iff_of_nodup hnodup (by decide)).mpr fun x => ?_
    rw [List.mem_map]
    constructor
    · rintro ⟨b, hb, rfl⟩
      have htwo := (hone b hb).2
      cases h2 : b 2 <;> cases h3 : b 3 <;> simp_all
    · intro hx
      -- the assignment with these values was found
      let a : Nat → Bool := fun v => if v = 2 then x.1 else if v = 3 then x.2 else true
      have ha : a 1 = true ∧ (a 2 = true ∨ a 3 = true) := by
        refine ⟨rfl, ?_⟩
        show x.1 = true ∨ x.2 = true
        revert x
        decide
      obtain ⟨b, hb, hagree⟩ := (hexact a).mp ha
      obtain ⟨-, htwo, hthree⟩ := Core.agree_choosing.mp hagree
      exact ⟨b, hb, Prod.ext htwo.symm hthree.symm⟩
  · have hstart : Enumerates (w.underway .never).ctx.core
        (fun a => (w.underway .never).ctx.Allows a) w :=
      ⟨hw, hmany, hnone, fun _ => rfl, fun _ => .rfl, .inl hidle⟩
    obtain ⟨N, w', hrun, ⟨-, hno⟩ | hfound⟩ := hstart.check hp
    · exact absurd ((hallows fun _ => true).mpr ⟨rfl, .inl rfl⟩) (hno _)
    have hend : endState ((Action.check {} .never N).run w) = w' := by
      rw [endState_run_check, hrun N (Nat.le_refl N)]
      rfl
    have hused : UsedInOrder (endState ((Action.check {} .never N).run w)) := hw.act _
    obtain ⟨-, c', hblock, -⟩ := hfound.block
    rw [← hend] at hblock
    obtain ⟨htotal, hallowed, -, hclause, -, hexact⟩ := (block_enumerates hused).1 c' hblock
    have hfinal (a : Nat → Bool) : w'.ctx.Allows a ↔ a 1 = true ∧ (a 2 = true ∨ a 3 = true) :=
      (hfound.allows a).trans (hallows a)
    have hagree (a b : Nat → Bool) : w'.ctx.core.Agree a b ↔ a 1 = b 1 ∧ a 2 = b 2 ∧ a 3 = b 3 := by
      rw [Core.agree_congr hfound.live, hcore, Core.agree_choosing]
    refine ⟨N, c', hused, hblock, fun hempty => ?_, htotal, hallowed, fun a => ?_⟩
    · -- without a decision only one assignment would be allowed
      rw [hend] at hclause hempty hallowed
      have hone (a : Nat → Bool) (ha : a 1 = true ∧ (a 2 = true ∨ a 3 = true)) :
          a 2 = w'.ctx.core.valuation 2 := by
        have hsame := (hclause a ((hfinal a).mpr ha)).mp (by rw [hempty]; exact nofun)
        exact ((hagree _ _).mp hsame).2.1
      have htwo := hone (fun _ => true) ⟨rfl, .inl rfl⟩
      have hthree := hone (fun v => v == 1 || v == 3) ⟨rfl, .inr rfl⟩
      cases htwo.trans hthree.symm
    · rw [hexact, hend, hfinal, hagree]
      have hfirst := ((hfinal _).mp (hend ▸ hallowed)).1
      refine and_congr_right fun ha => not_congr ?_
      rw [hfirst, ha.1]
      simp only [true_and]

end Workspace
end Entail
