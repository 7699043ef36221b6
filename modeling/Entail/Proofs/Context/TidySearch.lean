import Entail.Proofs.Context.Search
import Entail.Proofs.Context.TidyProcess

/-!
# Searching keeps a context tidy

A search moves through assignments of variables that stand for terms, so what it learns is about
such variables, and so are the conflicts that the core and the e-graph report. The instances that
the theories add are asserted like any other formula, so definitions that are found in the middle of
a check are as good as others.
-/

namespace Entail

open Workspace Context

variable {α : Type} {fixed : Prop} {w : Workspace}

/-- The assignment and the classes may change, as long as they are about variables that
stand for terms. -/
theorem Workspace.Tidy.grows_search (h : w.Tidy) {core : Core} {g : Egraph}
    (hstep : TypedStep True w ⟨w.store,
      { w.ctx with core, registry := { w.ctx.registry with egraph := g } }⟩)
    (hcore : core.Over w.ctx.Live) (hsame : Egraph.SameNodes w.ctx.registry.egraph g)
    (hg : g.Over w.ctx.Live) :
    Grows fixed w
      ⟨w.store, { w.ctx with core, registry := { w.ctx.registry with egraph := g } }⟩ := by
  obtain ⟨classes, rfl⟩ : ∃ classes, g = { w.ctx.registry.egraph with classes } :=
    ⟨_, hsame.eq_with⟩
  exact h.grows hstep { h.refers with core := hcore, egraph := hg } { h.gone with } rfl id
    (fun _ => rfl)
    (.of_same (fun _ => rfl) rfl rfl)

namespace Work

section

variable (hw : w.Tidy)

include hw

/-- A step back of the theories, with a change of the assignment. -/
theorem grows_withBacktrack {core : Core} (hdb : w.ctx.core.db.Grows w.ctx.depth core.db)
    (hcore : core.Over w.ctx.Live) (level : Nat) :
    Grows fixed w ⟨w.store, { w.ctx with core, registry := w.ctx.registry.backtrack level }⟩ := by
  have hstep := typedStep_withBacktrack hw.since hdb level
  rw [Theory.Registry.backtrack_eq hw.ok.ctx.registry] at hstep ⊢
  exact hw.grows_search hstep hcore (Egraph.sameNodes_backtrack _ level)
    (hw.refers.egraph.backtrack level)

theorem grows_change_bind {f : Context → Context} {g : Work α} {Q : α → Workspace → Prop}
    (h : Grows fixed w ⟨w.store, f w.ctx⟩)
    (hg : ∀ {w'}, w'.Tidy → Grows fixed w w' → Leads (Grows fixed) w' g Q) :
    Leads (Grows fixed) w (change f >>= fun _ => g) Q :=
  have hf : Leads (Grows fixed) w (change f) fun _ _ => True := ⟨h, trivial⟩
  grows_bind hw hf fun _ _ hw' hr _ => hg hw' hr

/-- What is learned from a conflict is about variables that stand for terms, if the conflict is. -/
theorem grows_resolve {conflict : List Literal} (hconflict : KnowsAll conflict w) :
    Leads (Grows fixed) w (resolve conflict) fun _ _ => True := by
  obtain ⟨hover, hlearnt⟩ := hw.refers.core.analyze hconflict
  have hanalyze : Grows fixed w _ :=
    hw.grows_core (typedStep_of_db hw.since (Core.db_analyze w.ctx.core conflict)) hover
  refine grows_bind hw (grows_update (Q := fun a w' => ∀ level lits, a = .learnt level lits →
    KnowsAll lits w') hanalyze
    hlearnt) fun analysis w' hw' _ hanalysis => ?_
  split
  · exact grows_pure hw' trivial
  · exact grows_throw hw' _
  next level lits =>
    have hback := Core.db_backtrack w'.ctx.core level
    have hok : (w'.ctx.core.backtrack level).db.Ok w'.ctx.depth := by
      rw [hback]; exact hw'.ok.ctx.core
    have hgrows := Core.grows_learn hok lits
    rw [hback] at hgrows
    refine grows_change_bind hw' (grows_withBacktrack hw' hgrows ?_ level) fun hw'' _ =>
      grows_pure hw'' trivial
    exact (hw'.refers.core.backtrack level).learn hok (hanalysis level lits rfl) _

theorem grows_syncVars : Grows fixed w ⟨w.store, w.ctx.syncVars⟩ :=
  hw.grows (hw.since.step (step_syncVars hw.ok) fun ht => { ht with }) hw.refers.syncVars
    (hw.gone.of_ctx id .inl fun _ => .inl) rfl id (fun _ => rfl) (.of_same (fun _ => rfl) rfl rfl)

/-- Formulas of the theories are processed like those that are asserted. -/
theorem grows_assertInstances {formulas : List Term} (h : ∀ t ∈ formulas, w.store.Has t .bool) :
    Leads (Grows False) w (assertInstances formulas) fun _ _ => True := by
  have hdb : w.ctx.core.db.Grows w.ctx.depth (w.ctx.core.backtrack 0).db := by
    rw [Core.db_backtrack]
    exact .refl hw.ok.ctx.core
  refine grows_change_bind hw (grows_withBacktrack hw hdb (hw.refers.core.backtrack 0) 0)
    fun {w₁} hw₁ hr₁ => ?_
  have hprocess : Leads (Grows False) w₁ (formulas.forM process) fun _ _ => True :=
    Leads.forM grows_frame hw₁ fun t ht w₂ hw₂ hr₂ => grows_process hw₂ (hr₂.has (hr₁.has (h t ht)))
  refine grows_bind hw₁ hprocess fun _ w₂ hw₂ _ _ => ?_
  exact grows_change_bind hw₂ (grows_syncVars hw₂) fun hw₃ _ => ⟨grows_frame.refl hw₃, trivial⟩

/-- A conflict is about variables of the trail. -/
theorem grows_propagate :
    Leads (Grows fixed) w propagate fun conflict w' => ∀ lits, conflict = some lits →
    KnowsAll lits w' := by
  obtain ⟨hover, hconflict⟩ := hw.refers.core.propagate
  have hcore : Grows fixed w _ :=
    hw.grows_core (typedStep_of_db hw.since (Core.db_propagate w.ctx.core)) hover
  refine grows_bind hw (grows_update (Q := fun conflict w' => ∀ lits, conflict = some lits →
    KnowsAll lits w') hcore
    hconflict) fun conflict w' hw' _ hconflict => ?_
  split
  · exact grows_pure hw' hconflict
  · have heq := Theory.Registry.propagate_eq hw'.ok.ctx.registry w'.ctx.core.trail
    obtain ⟨hover, hconflict⟩ := hw'.refers.egraph.propagate hw'.refers.core.trail
    refine grows_update ?_ ?_
    · rw [show w'.ctx.registry.propagate w'.ctx.core.trail = _ from heq]
      have hsame := Egraph.sameNodes_propagate w'.ctx.registry.egraph w'.ctx.core.trail
      have hstep :=
          hw'.since.step (step_of_egraph hw'.ok (Egraph.SameNodes.adds hsame hw'.ok.ctx.nodes))
            fun ht =>
        { ht with egraph := ht.egraph.propagate hw'.ok.store w'.ctx.core.trail }
      exact hw'.grows_search hstep hw'.refers.core hsame hover
    · rw [show w'.ctx.registry.propagate w'.ctx.core.trail = _ from heq]
      exact hconflict

theorem grows_interrupted (interrupted : Bool) :
    Grows fixed w ⟨w.store, { w.ctx with interrupted }⟩ :=
  hw.grows (hw.since.step (step_interrupted hw.ok interrupted) fun ht => { ht with })
    { hw.refers with }
    { hw.gone with } rfl id (fun _ => rfl) (.of_same (fun _ => rfl) rfl rfl)

/-- A look of the theories at a complete assignment leaves the constraints alone. -/
theorem grows_look_theories :
    Grows fixed w ⟨(w.ctx.registry.finalCheck w.store).2,
      { w.ctx with registry := (w.ctx.registry.finalCheck w.store).1.2 }⟩ := by
  obtain ⟨hstep, -⟩ := typedStep_finalCheck hw.since
  obtain ⟨hs, -⟩ := Quant.Solver.finalCheck_grows hw.ok.ctx.tables
    (some w.ctx.registry.egraph) hw.ok.store
  have hrefers := hw.refers.of_shape fun ht => shape_eq_of_later hs.later (hw.ok.ctx.live ht)
  have hgone := hw.gone.later hw.typed hw.ok.ctx hw.ok.store hs.later.ext
  rw [Theory.Registry.finalCheck_eq hw.ok.ctx.registry w.store] at hstep ⊢
  refine hw.grows hstep { hrefers with } (hgone.of_ctx id .inl fun c hc => .inl ?_) rfl id
    (fun _ => rfl)
    (.of_same (fun _ => rfl) rfl rfl)
  rwa [← Quant.Solver.constraints_finalCheck w.ctx.solver (some w.ctx.registry.egraph) w.store]

/-- What the theories add at a complete assignment are formulas, and they report no conflict. -/
theorem grows_finalCheck (stop : StopRequest) (n : Nat) :
    Leads (Grows fixed) w (finalCheck stop n)
      fun x w' => x.2.conflict = none ∧ ∀ t ∈ x.2.formulas, w'.store.Has t .bool := by
  have hlook : Grows fixed w _ := grows_look_theories hw
  obtain ⟨-, hformulas⟩ := typedStep_finalCheck hw.since
  have hnone : (w.ctx.registry.finalCheck w.store).1.1.2.conflict = none := by
    rw [Theory.Registry.finalCheck_eq hw.ok.ctx.registry w.store]
  refine ⟨grows_frame.trans hlook ?_, hnone, hformulas trivial⟩
  split
  · exact grows_interrupted hlook.tidy true
  · exact grows_frame.refl hlook.tidy

theorem grows_unlessStuck {op : Work Bool} {Q : Bool → Workspace → Prop}
    (h : Leads (Grows fixed) w op Q) :
    Leads (Grows fixed) w (unlessStuck op) fun _ _ => True :=
  grows_bind hw h fun _ _ hw' _ _ => grows_pure hw' trivial

theorem grows_conclude (stop : StopRequest) (n : Nat) :
    Leads (Grows False) w (conclude stop n) fun _ _ => True := by
  refine grows_bind hw (grows_finalCheck hw stop n) fun (outcome, out) w' hw' _ ⟨hnone,
    hformulas⟩ => ?_
  refine grows_look_bind ?_
  split
  · exact grows_pure hw' trivial
  · split
    next hsome =>
      rw [hnone] at hsome
      cases hsome
    · split
      · exact grows_unlessStuck hw' (grows_assertInstances hw' hformulas)
      · split
        · exact grows_pure hw' trivial
        · exact ⟨grows_frame.refl hw', trivial⟩

end

/-! ## Steps -/

/-- A step up to the point at which the assignment is complete, unless it is over before, with the
answer that it has then. -/
def approach (p : Params) (stop : StopRequest) (n : Nat) : Work (Option (Option Status)) := do
  change fun c => if stop = .atStep n then c.stop else c
  if ← look fun _ c => c.interrupted then return some (some .interrupted)
  match ← propagate with
  | some conflict => some <$> unlessStuck (resolve conflict)
  | none =>
    if ← look fun _ c => c.core.shouldRestart then
      change fun c => { c with
        core := c.core.restart p.restartFactor.toFloat, registry := c.registry.backtrack 0 }
      return some none
    let branch ← update fun c =>
      let (l, core) := c.core.pickBranch
      (l, { c with core })
    match branch with
    | some l =>
      change fun c => { c with core := c.core.decide l, registry := c.registry.openLevel }
      return some none
    | none => return none

/-- A step that is not over before has to say what the assignment means. -/
theorem step_eq (p : Params) (stop : StopRequest) (n : Nat) :
    step p stop n = approach p stop n >>= fun outcome => outcome.elim (conclude stop n) pure := by
  unfold step approach
  rw [bind_assoc]
  refine bind_congr fun _ => ?_
  rw [bind_assoc]
  refine bind_congr fun interrupted => ?_
  cases interrupted with
  | true => simp
  | false =>
    simp only [Bool.false_eq_true, if_false]
    rw [bind_assoc]
    refine bind_congr fun conflict => ?_
    cases conflict with
    | some conflict => simp
    | none =>
      simp only
      rw [bind_assoc]
      refine bind_congr fun restarts => ?_
      cases restarts with
      | true => simp
      | false =>
        simp only [Bool.false_eq_true, if_false]
        rw [bind_assoc]
        refine bind_congr fun branch => ?_
        cases branch <;> simp

section

variable (hw : w.Tidy)

include hw

/-- A step is a change of the assignment up to the point at which it is complete. -/
theorem grows_approach (p : Params) (stop : StopRequest) (n : Nat) :
    Leads (Grows fixed) w (approach p stop n) fun _ _ => True := by
  have hstop : Grows fixed w ⟨w.store, if stop = .atStep n then w.ctx.stop else w.ctx⟩ := by
    split
    · exact grows_interrupted hw true
    · exact grows_frame.refl hw
  refine grows_change_bind hw hstop fun {w} hw _ => grows_look_bind ?_
  split
  · exact grows_pure hw trivial
  refine grows_bind hw (grows_propagate hw) fun conflict w hw _ hconflict => ?_
  split
  · exact .map grows_frame hw (grows_unlessStuck hw (grows_resolve hw (hconflict _ rfl)))
      fun _ _ _ _ _ => trivial
  refine grows_look_bind ?_
  split
  · refine grows_change_bind hw (grows_withBacktrack hw ?_ (hw.refers.core.restart _) 0)
      fun hw' _ => grows_pure hw' trivial
    rw [Core.db_restart]
    exact .refl hw.ok.ctx.core
  obtain ⟨hover, hbranch⟩ := hw.refers.core.pickBranch
  have hpick : Grows fixed w _ :=
    hw.grows_core (typedStep_of_db hw.since (Core.db_pickBranch w.ctx.core)) hover
  refine grows_bind hw (grows_update (Q := fun branch w' => ∀ l, branch = some l → Knows l w')
    hpick hbranch)
    fun branch w hw _ hbranch => ?_
  split
  next l =>
    refine grows_change_bind hw ?_ fun hw' _ => grows_pure hw' trivial
    rw [Theory.Registry.openLevel_eq hw.ok.ctx.registry]
    have hcore := typedStep_of_db hw.since (Core.db_decide w.ctx.core l)
    have hw₁ := typed_frame.stable hw.since hcore
    have hsame : Egraph.SameNodes w.ctx.registry.egraph w.ctx.registry.egraph.openLevel :=
      .modify _ _
    refine hw.grows_search (hcore.trans
        (hw₁.step (step_of_egraph hw₁.ok (hsame.adds hw.ok.ctx.nodes)) fun ht =>
      { ht with egraph := ht.egraph.openLevel })) (hw.refers.core.decide (hbranch l rfl)) hsame
        hw.refers.egraph.openLevel
  · exact grows_pure hw trivial

/-- One step of a search. -/
theorem grows_step (p : Params) (stop : StopRequest) (n : Nat) :
    Leads (Grows False) w (step p stop n) fun _ _ => True := by
  rw [step_eq]
  refine grows_bind hw (grows_approach hw p stop n) fun outcome w' hw' _ _ => ?_
  cases outcome with
  | some status => exact grows_pure hw' trivial
  | none => exact grows_conclude hw' stop n

end

theorem grows_steps (p : Params) (stop : StopRequest) (fuel n : Nat) (hw : w.Tidy) :
    Leads (Grows False) w (steps p stop fuel n) fun _ _ => True := by
  induction fuel generalizing n w with
  | zero => exact grows_throw hw _
  | succ fuel ih =>
    refine grows_bind hw (grows_step hw p stop n) fun status w' hw' _ _ => ?_
    split
    · exact grows_pure hw' trivial
    · exact ih (n + 1) hw'

theorem grows_startSearch (hw : w.Tidy) (p : Params) :
    Leads (Grows False) w (startSearch p) fun _ _ => True := by
  refine grows_look_bind ?_
  split
  · exact grows_pure hw trivial
  have hcore : Grows False w _ :=
    hw.grows_core (typedStep_of_db hw.since (Core.db_startSearch w.ctx.core p))
    (hw.refers.core.startSearch p)
  refine grows_bind hw (grows_update (Q := fun _ _ => True) hcore trivial) fun ok w hw _ _ => ?_
  split
  · exact grows_pure hw trivial
  obtain ⟨hstep, hnone⟩ := typedStep_startTheories hw.since p
  have hstart : Grows False w ⟨w.store,
      { w.ctx with registry := (w.ctx.registry.startSearch p).2 }⟩ := by
    rw [Theory.Registry.startSearch_eq hw.ok.ctx.registry p] at hstep ⊢
    have hsame := Egraph.sameNodes_startSearch w.ctx.registry.egraph
    obtain ⟨classes, heq⟩ : ∃ classes, w.ctx.registry.egraph.startSearch =
        { w.ctx.registry.egraph with classes } :=
      ⟨_, hsame.eq_with⟩
    have hover := Egraph.Over.startSearch w.ctx.registry.egraph w.ctx.Live
    rw [heq] at hstep hover ⊢
    exact hw.grows hstep { hw.refers with egraph := hover }
      (hw.gone.of_ctx id .inl fun _ => .inl) rfl id (fun _ => rfl) (.of_same (fun _ => rfl) rfl rfl)
  refine grows_bind hw (grows_update (Q := fun formulas _ => formulas = []) hstart hnone)
    fun formulas w hw _ heq => ?_
  rw [heq]
  exact grows_pure hw trivial

/-- Whatever the outcome of a search, and whether it is refused or not. -/
theorem grows_search (hw : w.Tidy) (p : Params) (stop : StopRequest) (fuel : Nat) :
    Leads (Grows False) w (search p stop fuel) fun _ _ => True := by
  refine grows_bind hw (grows_startSearch hw p) fun go w' hw' _ _ => ?_
  split
  · exact grows_steps p stop fuel 0 hw'
  · exact grows_pure hw' trivial

end Work
end Entail
