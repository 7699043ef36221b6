import Entail.Proofs.Context.Moves

/-!
# Searching inside of a scope

A search learns clauses, asserts instances and moves through the assignments. What is seen as of
open marks stays the same.
-/

namespace Entail.Work

open Workspace Context

variable {α : Type} {strict : Prop} {s : Store}

/-- A change of the assignment and a step back of the theories. -/
theorem step_withBacktrack {w : Workspace} (hw : w.Ok) {core : Core}
    (h : w.ctx.core.db.Grows w.ctx.depth core.db) (level : Nat) :
    Step w ⟨w.store, { w.ctx with core, registry := w.ctx.registry.backtrack level }⟩ :=
  have hcore := step_of_core hw h
  step_frame.trans hcore (step_backtrack (step_frame.stable hw hcore) level)

theorem typedStep_withBacktrack {w : Workspace} (hw : Since strict s w) {core : Core}
    (h : w.ctx.core.db.Grows w.ctx.depth core.db) (level : Nat) :
    TypedStep strict w
      ⟨w.store, { w.ctx with core, registry := w.ctx.registry.backtrack level }⟩ := by
  refine hw.step (step_withBacktrack hw.ok h level) fun ht => ?_
  rw [Theory.Registry.backtrack_eq hw.ok.ctx.registry]
  exact { ht with egraph := ht.egraph.backtrack level }

/-- A step that touches the assignment only. -/
theorem typedStep_of_db {w : Workspace} (hw : Since strict s w) {core : Core}
    (hdb : core.db = w.ctx.core.db) :
    TypedStep strict w ⟨w.store, { w.ctx with core }⟩ :=
  hw.step (step_of_db hw.ok hdb) fun ht => { ht with }

theorem steps_resolve (conflict : List Literal) : Steps strict s (resolve conflict) := by
  refine typed_frame.bind (steps_update fun w hw => typedStep_of_db hw
    (Core.db_analyze w.ctx.core conflict))
    fun analysis => ?_
  split
  · exact typed_frame.pure _
  · exact typed_frame.throw _
  next level clause =>
    refine typed_frame.bind (steps_change fun w hw => typedStep_withBacktrack hw ?_ level) fun _ =>
      typed_frame.pure _
    have hback := Core.db_backtrack w.ctx.core level
    have hgrows := Core.grows_learn
      (c := w.ctx.core.backtrack level) (by rw [hback]; exact hw.ok.ctx.core) clause
    rwa [hback] at hgrows

theorem steps_assertInstances {formulas : List Term} (h : strict → ∀ t ∈ formulas, s.Has t .bool) :
    Steps strict s (assertInstances formulas) := by
  refine typed_frame.bind (steps_change fun w hw => typedStep_withBacktrack hw ?_ 0) fun _ => ?_
  · rw [Core.db_backtrack]
    exact .refl hw.ok.ctx.core
  · exact typed_frame.bind (typed_frame.forM formulas fun t ht => steps_process fun hs => h hs t ht)
        fun _ =>
      typed_frame.bind (steps_change fun _ hw => hw.step (step_syncVars hw.ok) fun ht =>
          { ht with }) fun _ =>
        steps_look _

theorem steps_propagate : Steps strict s propagate := by
  refine typed_frame.bind (steps_update fun w hw => typedStep_of_db hw
    (Core.db_propagate w.ctx.core)) fun conflict => ?_
  split
  · exact typed_frame.pure _
  · refine steps_update fun w hw => ?_
    rw [show (w.ctx.registry.propagate w.ctx.core.trail) = _
      from Theory.Registry.propagate_eq hw.ok.ctx.registry _]
    refine hw.step (step_of_egraph hw.ok
      (Egraph.SameNodes.adds (Egraph.sameNodes_propagate _ _) hw.ok.ctx.nodes)) ?_
    exact fun ht => { ht with egraph := ht.egraph.propagate hw.ok.store w.ctx.core.trail }

theorem step_interrupted {w : Workspace} (hw : w.Ok) (interrupted : Bool) :
    Step w ⟨w.store, { w.ctx with interrupted }⟩ :=
  step_of_ctx hw { hw.ctx with } (fun _ => rfl) ⟨rfl, rfl, rfl, rfl⟩ ⟨rfl, rfl⟩

/-- A look of the theories at a complete assignment extends the store, and what they add
are formulas. -/
theorem typedStep_finalCheck {w : Workspace} (hw : Since strict s w) :
    TypedStep strict w ⟨(w.ctx.registry.finalCheck w.store).2,
      { w.ctx with registry := (w.ctx.registry.finalCheck w.store).1.2 }⟩ ∧
    (strict → ∀ t ∈ (w.ctx.registry.finalCheck w.store).1.1.2.formulas,
      (w.ctx.registry.finalCheck w.store).2.Has t .bool) := by
  obtain ⟨hs, hq⟩ := Quant.Solver.finalCheck_grows hw.ok.ctx.tables
    (some w.ctx.registry.egraph) hw.ok.store
  have htyped (hstrict : strict) :=
    Quant.Solver.finalCheck_typed hw.ok.store (hw.typed hstrict).egraph
      (hw.typed hstrict).solver hw.ok.ctx.tables
  rw [Theory.Registry.finalCheck_eq hw.ok.ctx.registry w.store]
  refine ⟨⟨step_of_registry hw.ok hs rfl (Egraph.SameNodes.adds (.refl _) hw.ok.ctx.nodes) hq,
    fun hstrict => ?_⟩,
    fun hstrict => (htyped hstrict).2⟩
  have hlater := (hw.typed hstrict).later hw.ok.ctx hw.ok.store hs.later.ext
  exact { hlater with solver := (htyped hstrict).1 }

/-- What the theories add at a complete assignment are formulas. -/
theorem steps_finalCheck_bind (stop : StopRequest) (n : Nat)
    {f : FinalCheck × Theory.Output → Work α}
    (hf : ∀ x s', (strict → ∀ t ∈ x.2.formulas, s'.Has t .bool) → Steps strict s' (f x)) :
    Steps strict s (finalCheck stop n >>= f) := by
  intro w hw
  obtain ⟨hstep, hformulas⟩ := typedStep_finalCheck hw
  let w₁ : Workspace := ⟨(w.ctx.registry.finalCheck w.store).2,
    { w.ctx with registry := (w.ctx.registry.finalCheck w.store).1.2 }⟩
  have hw₁ : Since strict s w₁ := typed_frame.stable hw hstep
  -- the stop request is the last thing that the check may change
  have hlast : TypedStep strict w₁
      ⟨w₁.store, if stopsFinal stop n (numInstances w.ctx) (numInstances w₁.ctx) then w₁.ctx.stop
        else w₁.ctx⟩ := by
    split
    · exact hw₁.step (step_interrupted hw₁.ok true) fun ht => { ht with }
    · exact typed_frame.refl hw₁
  rw [bind_of_ok (rfl : finalCheck stop n w = .ok (w.ctx.registry.finalCheck w.store).1.1 _)]
  have hw₂ := typed_frame.stable hw₁ hlast
  exact (hstep.trans hlast).trans (hf _ w₁.store hformulas _ ⟨hw₂.ok, hw₂.typed, .refl _⟩)

theorem steps_unlessStuck {op : Work Bool} (h : Steps strict s op) :
    Steps strict s (unlessStuck op) :=
  typed_frame.bind h fun _ => typed_frame.pure _

theorem steps_conclude (stop : StopRequest) (n : Nat) : Steps strict s (conclude stop n) := by
  refine steps_finalCheck_bind stop n fun (outcome, out) s' hout => ?_
  refine typed_frame.bind (steps_look _) fun interrupted => ?_
  split
  · exact typed_frame.pure _
  · split
    · exact steps_unlessStuck (steps_resolve _)
    · split
      · exact steps_unlessStuck (steps_assertInstances hout)
      · split
        · exact typed_frame.pure _
        · exact steps_look _

theorem steps_step (p : Params) (stop : StopRequest) (n : Nat) :
    Steps strict s (step p stop n) := by
  refine typed_frame.bind (steps_change fun w hw => ?_) fun _ => ?_
  · split
    · exact hw.step (step_interrupted hw.ok true) fun ht => { ht with }
    · exact typed_frame.refl hw
  refine typed_frame.bind (steps_look _) fun interrupted => ?_
  split
  · exact typed_frame.pure _
  refine typed_frame.bind steps_propagate fun conflict => ?_
  split
  · exact steps_unlessStuck (steps_resolve _)
  refine typed_frame.bind (steps_look _) fun restart => ?_
  split
  · refine typed_frame.bind (steps_change fun w hw => typedStep_withBacktrack hw ?_ 0) fun _ =>
      typed_frame.pure _
    rw [Core.db_restart]
    exact .refl hw.ok.ctx.core
  refine typed_frame.bind (steps_update fun w hw => typedStep_of_db hw
    (Core.db_pickBranch w.ctx.core)) fun branch => ?_
  split
  next l =>
    refine typed_frame.bind (steps_change fun w hw => ?_) fun _ => typed_frame.pure _
    rw [Theory.Registry.openLevel_eq hw.ok.ctx.registry]
    have hcore := typedStep_of_db hw (Core.db_decide w.ctx.core l)
    have hw₁ := typed_frame.stable hw hcore
    refine hcore.trans (hw₁.step (step_of_egraph hw₁.ok ?_) fun ht =>
      { ht with egraph := ht.egraph.openLevel })
    exact Egraph.SameNodes.adds (.modify _ _) hw.ok.ctx.nodes
  · exact steps_conclude stop n

theorem steps_steps (p : Params) (stop : StopRequest) (fuel n : Nat) :
    Steps strict s (steps p stop fuel n) := by
  induction fuel generalizing n with
  | zero => exact typed_frame.throw _
  | succ fuel ih =>
    refine typed_frame.bind (steps_step p stop n) fun status => ?_
    split
    · exact typed_frame.pure _
    · exact ih (n + 1)

/-- The theories start without formulas, since no scripts ask for any. -/
theorem typedStep_startTheories {w : Workspace} (hw : Since strict s w) (p : Params) :
    TypedStep strict w ⟨w.store, { w.ctx with registry := (w.ctx.registry.startSearch p).2 }⟩ ∧
      (w.ctx.registry.startSearch p).1.formulas = [] := by
  rw [Theory.Registry.startSearch_eq hw.ok.ctx.registry p]
  refine ⟨hw.step (step_of_registry hw.ok (Store.built_frame.refl hw.ok.store) rfl
    (Egraph.SameNodes.adds (Egraph.sameNodes_startSearch _) hw.ok.ctx.nodes)
    (Quant.Solver.startSearch_grows hw.ok.ctx.tables p)) fun ht => ?_, rfl⟩
  exact { ht with egraph := ht.egraph.startSearch hw.ok.store, solver := ht.solver.startSearch p }

theorem steps_startSearch (p : Params) : Steps strict s (startSearch p) := by
  refine typed_frame.bind (steps_look _) fun unsat => ?_
  split
  · exact typed_frame.pure _
  refine typed_frame.bind (steps_update fun w hw => typedStep_of_db hw
    (Core.db_startSearch w.ctx.core p)) fun ok => ?_
  split
  · exact typed_frame.pure _
  intro w hw
  obtain ⟨hstep, hnone⟩ := typedStep_startTheories hw p
  rw [bind_of_ok (rfl : update _ w = .ok (w.ctx.registry.startSearch p).1.formulas _), hnone]
  exact hstep

/-- A search keeps what is seen as of open marks and the types, whatever its outcome. -/
theorem steps_search (p : Params) (stop : StopRequest) (fuel : Nat) :
    Steps strict s (search p stop fuel) := by
  refine typed_frame.bind (steps_startSearch p) fun go => ?_
  split
  · exact steps_steps p stop fuel 0
  · exact typed_frame.pure _

theorem moves_search (p : Params) (stop : StopRequest) (fuel : Nat) :
    Moves Workspace.Ok Step (search p stop fuel) :=
  Steps.moves fun _ => steps_search p stop fuel

/-! ## Outcomes -/

/-- An attempt ends where the operation does. -/
theorem attempt_eq (op : Work α) (w : Workspace) :
    ∃ outcome, attempt op w = .ok outcome (endState (op w)) ∧ ∀ a, outcome = .ok a →
    op w = .ok a (endState (op w)) := by
  unfold attempt
  cases op w with
  | ok a w' => exact ⟨.ok a, rfl, fun b hb => by cases hb; rfl⟩
  | error e w' => exact ⟨.error e, rfl, nofun⟩


/-- A search is over when it answers. -/
def IsAnswer (status : Status) : Prop := status ≠ .idle ∧ status ≠ .searching

theorem answers_unlessStuck (op : Work Bool) :
    Answers (∀ status ∈ ·, IsAnswer status) (unlessStuck op) := by
  refine .bind fun go => .pure ?_
  split <;> simp [IsAnswer]

theorem answers_conclude (stop : StopRequest) (n : Nat) :
    Answers (∀ status ∈ ·, IsAnswer status) (conclude stop n) := by
  refine .bind fun (outcome, out) => .bind fun interrupted => ?_
  split
  · exact .pure (by simp [IsAnswer])
  · split
    · exact answers_unlessStuck _
    · split
      · exact answers_unlessStuck _
      · split
        · exact .pure (by simp [IsAnswer])
        · intro w a w' h
          cases h
          beta_reduce
          split <;> simp [IsAnswer]

theorem answers_step (p : Params) (stop : StopRequest) (n : Nat) :
    Answers (∀ status ∈ ·, IsAnswer status) (step p stop n) := by
  refine .bind fun _ => .bind fun interrupted => ?_
  split
  · exact .pure (by simp [IsAnswer])
  refine .bind fun conflict => ?_
  split
  · exact answers_unlessStuck _
  refine .bind fun restart => ?_
  split
  · exact .bind fun _ => .pure (by simp)
  refine .bind fun branch => ?_
  split
  · exact .bind fun _ => .pure (by simp)
  · exact answers_conclude stop n

theorem answers_steps (p : Params) (stop : StopRequest) (fuel n : Nat) :
    Answers IsAnswer (steps p stop fuel n) := by
  induction fuel generalizing n with
  | zero => exact .throw _
  | succ fuel ih =>
    intro w status w' h
    obtain ⟨a, w₁, hstep, hrest⟩ := bind_eq_ok.mp h
    cases a with
    | none => exact ih (n + 1) w₁ status w' hrest
    | some found =>
      cases hrest
      exact answers_step p stop n w _ w' hstep status rfl

theorem answers_search (p : Params) (stop : StopRequest) (fuel : Nat) :
    Answers IsAnswer (search p stop fuel) := by
  refine .bind fun go => ?_
  split
  · exact answers_steps p stop fuel 0
  · exact .pure (by simp [IsAnswer])

/-! ## Courses of a search -/

/-- The workspaces that a search from `w` passes between two steps, with their numbers. -/
inductive Searching (p : Params) (stop : StopRequest) (w : Workspace) : Nat → Workspace → Prop where
  | start {w' : Workspace} (h : startSearch p w = .ok true w') : Searching p stop w 0 w'
  | step {n : Nat} {w' w'' : Workspace} (h : Searching p stop w n w')
    (hstep : step p stop n w' = .ok none w'') :
    Searching p stop w (n + 1) w''

variable {p : Params} {stop : StopRequest} {w w' : Workspace}

theorem ends_steps (fuel : Nat) {n : Nat} (h : Searching p stop w n w') :
    Ends (steps p stop fuel n) w'
      (fun status w'' => ∃ n w₁, Searching p stop w n w₁ ∧ step p stop n w₁ = .ok (some status) w'')
      (fun w'' => (∃ n, Searching p stop w n w'') ∨
        ∃ n w₁ e, Searching p stop w n w₁ ∧ step p stop n w₁ = .error e w'') := by
  induction fuel generalizing n w' with
  | zero => exact .inl ⟨n, h⟩
  | succ fuel ih =>
    refine Ends.bind ?_
    unfold Ends
    cases hstep : step p stop n w' with
    | ok found w₁ =>
      cases found with
      | some status => exact ⟨n, w', h, hstep⟩
      | none => exact ih (h.step hstep)
    | error e w₁ => exact .inr ⟨n, w', e, h, hstep⟩

/-- A search ends with its start or with one of its steps, or between two steps when the fuel
is used up. -/
theorem ends_search (p : Params) (stop : StopRequest) (fuel : Nat) (w : Workspace) :
    Ends (search p stop fuel) w
      (fun status w' => status = .unsat ∧ startSearch p w = .ok false w' ∨
        ∃ n w₁, Searching p stop w n w₁ ∧ step p stop n w₁ = .ok (some status) w')
      (fun w' => (∃ e, startSearch p w = .error e w') ∨ (∃ n, Searching p stop w n w') ∨
        ∃ n w₁ e, Searching p stop w n w₁ ∧ step p stop n w₁ = .error e w') := by
  refine Ends.bind ?_
  unfold Ends
  cases hstart : startSearch p w with
  | ok go w₁ =>
    cases go with
    | false => exact .inl ⟨rfl, rfl⟩
    | true => exact Ends.mono (ends_steps fuel (.start hstart)) (fun _ _ => .inr) fun _ => .inr
  | error e w₁ => exact .inl ⟨e, rfl⟩

end Entail.Work
