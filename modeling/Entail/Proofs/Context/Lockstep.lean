import Entail.Proofs.Context.Edits
import Entail.Proofs.Context.Interrupt
import Entail.Proofs.Context.TidyRuns
import Entail.Proofs.Egraph.Levels
import Entail.Proofs.Search.Assertions
import Entail.Proofs.Search.Runs

/-!
# The core and the e-graph in lockstep

The core and the e-graph go back separately and at different moments. Between two steps of a search
they are at the same level nevertheless, and the reasons of the e-graph cite the trail of the core.
So the conflicts of both are false on the trail, and no operation of the core is called in a state
that it is not meant for.
-/

namespace Entail

open Workspace Context

variable {α : Type} {w w' : Workspace}

/-! ## Edits -/

namespace Context

/-- `c'` has come from `c` at level 0: the core got clauses and variables, and the
e-graph got nodes. -/
structure Gathers (c c' : Context) : Prop where
  core : Core.Gathers c.core c'.core
  egraph : c.registry.egraph.Enlarges c'.registry.egraph
  status : c'.status = c.status

variable {c c' c'' : Context}

theorem Gathers.refl (h : c.core.state.Orderly) (hstarts : c.core.state.starts = []) :
    Gathers c c :=
  ⟨.refl h hstarts, .refl _, rfl⟩

theorem Gathers.trans (h : Gathers c c') (h' : Gathers c' c'') : Gathers c c'' :=
  ⟨h.core.trans h'.core, h.egraph.trans h'.egraph, h'.status.trans h.status⟩

theorem gathers_syncVars (h : c.core.state.Orderly) (hstarts : c.core.state.starts = []) :
    Gathers c c.syncVars := by
  have hcore := Core.gathers_ensureVars (fun a : Announcement => a.var) c.vars.collect.1.toList h
    hstarts
  rw [Array.foldl_toList] at hcore
  exact ⟨hcore, .refl _, rfl⟩

end Context

theorem Edit.gathers (h : Edit w w') (horderly : w.ctx.core.state.Orderly)
    (hstarts : w.ctx.core.state.starts = []) :
    Gathers w.ctx w'.ctx := by
  cases h with
  | clause s c lits => exact ⟨Core.gathers_addClause horderly hstarts lits _, .refl _, rfl⟩
  | enter s c hg => exact ⟨.refl horderly hstarts, hg, rfl⟩
  | build | atom | note | constrain => exact ⟨.refl horderly hstarts, .refl _, rfl⟩

/-- Processing formulas at level 0 adds to the core and to the e-graph. -/
theorem Edits.gathers (h : Edits w w') (horderly : w.ctx.core.state.Orderly)
    (hstarts : w.ctx.core.state.starts = []) :
    Gathers w.ctx w'.ctx := by
  induction h with
  | refl => exact .refl horderly hstarts
  | tail _ hedit ih => exact ih.trans (hedit.gathers ih.core.orderly ih.core.starts)

/-! ## Levels -/

namespace Context

/-- No assertion of the core has failed, and the e-graph has as many levels as the core. -/
structure InStep (c : Context) : Prop where
  orderly : c.core.state.Orderly
  misused : c.core.misused = false
  levels : c.registry.egraph.classes.levels.size = c.core.decisionLevel

/-- At level 0. -/
structure Based (c : Context) : Prop extends c.InStep where
  starts : c.core.state.starts = []

/-- Between two operations an idle context is at level 0. -/
structure Composed (c : Context) : Prop extends c.InStep where
  idle : c.status = .idle → c.core.state.starts = []

/-- Between two steps of a search. -/
structure Underway (c : Context) : Prop where
  running : c.core.state.Running
  misused : c.core.misused = false
  escorted : c.registry.egraph.Escorts c.core.state

/-- A conflict was found. -/
structure Clashes (lits : List Literal) (c : Context) : Prop where
  orderly : c.core.state.Orderly
  back : ∀ level < c.core.state.starts.length, (c.core.state.back level).Running
  misused : c.core.misused = false
  escorted : c.registry.egraph.Escorts c.core.state
  false : ∀ l ∈ lits, l.neg ∈ c.core.state.trail

/-- Everything was propagated, by the core and by the e-graph. -/
structure Settled (c : Context) : Prop extends c.Underway where
  head : c.core.head = c.core.trail.size
  processed : c.registry.egraph.classes.processed = c.core.trail.size
  known : c.registry.egraph.known = c.registry.egraph.nodes.size

variable {c c' : Context} {lits : List Literal}

theorem inStep_of_escorts (horderly : c.core.state.Orderly) (hmisused : c.core.misused = false)
    (h : c.registry.egraph.Escorts c.core.state) : c.InStep :=
  ⟨horderly, hmisused, h.beside.levels_eq.trans Array.length_toList⟩

theorem Underway.of_same (h : c.Underway) (hcore : c'.core = c.core)
    (hegraph : c'.registry.egraph = c.registry.egraph) :
    c'.Underway := by
  refine ⟨?_, ?_, ?_⟩
  · rw [hcore]
    exact h.running
  · rw [hcore]
    exact h.misused
  · rw [hcore, hegraph]
    exact h.escorted

theorem Underway.inStep (h : c.Underway) : c.InStep :=
  inStep_of_escorts h.running.orderly h.misused h.escorted

/-- At level 0 a search goes on after formulas were processed. -/
theorem Underway.gathers (h : c.Underway) (hstarts : c.core.state.starts = []) (hg : Gathers c c') :
    c'.Underway where
  running := hg.core.running h.running
  misused := hg.core.misused.trans h.misused
  escorted := (h.escorted.enlarge hstarts hg.egraph.classes hg.egraph.size_le).extend hg.core.trail
    (hg.core.starts.trans hstarts.symm)

theorem Based.gathers (h : c.Based) (hg : Gathers c c') : c'.Based where
  orderly := hg.core.orderly
  misused := hg.core.misused.trans h.misused
  levels := by
    rw [hg.egraph.classes, h.levels, Core.decisionLevel_eq_zero h.starts,
      Core.decisionLevel_eq_zero hg.core.starts]
  starts := hg.core.starts

theorem Based.composed (h : c.Based) : c.Composed := ⟨h.toInStep, fun _ => h.starts⟩

/-- The status does not matter at level 0. -/
theorem Based.status (h : c.Based) (status : Status) : Based { c with status } :=
  ⟨⟨h.orderly, h.misused, h.levels⟩, h.starts⟩

end Context

/-! ## Steps of a search -/

namespace Work

theorem ends_change_bind {f : Context → Context} {g : Work α} {Q : α → Workspace → Prop}
    {E : Workspace → Prop}
    (h : Ends g ⟨w.store, f w.ctx⟩ Q E) : Ends (change f >>= fun _ => g) w Q E := Ends.bind h

theorem ends_update {f : Context → α × Context} {Q : α → Workspace → Prop} {E : Workspace → Prop}
    {a : α} {c : Context}
    (hf : f w.ctx = (a, c)) (h : Q a ⟨w.store, c⟩) : Ends (update f) w Q E := by
  unfold Ends update
  dsimp only
  rw [hf]
  exact h

theorem ends_update_bind {β : Type} {f : Context → β × Context} {g : β → Work α}
    {Q : α → Workspace → Prop} {E : Workspace → Prop} {a : β} {c : Context} (hf : f w.ctx = (a, c))
    (h : Ends (g a) ⟨w.store, c⟩ Q E) :
    Ends (update f >>= g) w Q E := Ends.bind (ends_update hf h)

theorem ends_check_bind {β : Type} {f : Store → Context → Except Failure β} {g : β → Work α}
    {Q : α → Workspace → Prop}
    {E : Workspace → Prop} (hrefused : E w) (h : ∀ b, f w.store w.ctx = .ok b → Ends (g b) w Q E) :
    Ends (check f >>= g) w Q E := by
  refine Ends.bind ?_
  unfold Ends check
  cases hf : f w.store w.ctx with
  | ok b => exact h b hf
  | error e => exact hrefused

theorem ends_look_bind {β : Type} {f : Store → Context → β} {g : β → Work α}
    {Q : α → Workspace → Prop}
    {E : Workspace → Prop} (h : Ends (g (f w.store w.ctx)) w Q E) : Ends (look f >>= g) w Q E :=
  Ends.bind h

theorem ends_unlessStuck {op : Work Bool}
    (h : Ends op w (fun go w' => (go = true → w'.ctx.Underway) ∧ w'.ctx.InStep) fun w' =>
      w'.ctx.InStep) :
    Ends (unlessStuck op) w (fun status w' => (status = none → w'.ctx.Underway) ∧ w'.ctx.InStep)
      fun w' => w'.ctx.InStep := by
  refine Ends.bind (Ends.mono h (fun go w' hw' => ?_) fun _ => id)
  cases go with
  | true => exact Ends.pure ⟨fun _ => hw'.1 rfl, hw'.2⟩
  | false => exact Ends.pure ⟨nofun, hw'.2⟩

section

variable {q : Quant.Solver} (hq : w.ctx.registry.Has q)

include hq

/-- A propagation ends with everything propagated or with a conflict. -/
theorem ends_propagate (h : w.ctx.Underway) :
    Ends propagate w (fun conflict w' => w'.ctx.registry.Has q ∧
      (conflict = none → w'.ctx.Settled) ∧
      ∀ lits, conflict = some lits → w'.ctx.Clashes lits) fun _ => False := by
  obtain ⟨-, hnone, hsome⟩ := Core.propagate_running h.running
  have hmisused := (Core.misused_propagate h.running.orderly.watching).trans h.misused
  have hgrown := (Core.propagate_spec h.running.ready).grown.toExtends
  have hescorted : w.ctx.registry.egraph.Escorts w.ctx.core.propagate.2.state :=
    h.escorted.extend hgrown.trail hgrown.starts
  refine ends_update_bind (a := w.ctx.core.propagate.1)
    (c := { w.ctx with core := w.ctx.core.propagate.2 }) rfl ?_
  cases hconflict : w.ctx.core.propagate.1 with
  | some lits =>
    obtain ⟨hstopped, -, -, -, -, hfalse, -⟩ := hsome lits hconflict
    rw [Option.isSome_some, if_pos rfl]
    refine Ends.pure ⟨hq, nofun, fun lits' hlits => ?_⟩
    cases hlits
    exact ⟨hstopped.orderly, fun level => hstopped.back, hmisused, hescorted, hfalse⟩
  | none =>
    obtain ⟨hrunning, hhead⟩ := hnone hconflict
    obtain ⟨hescorted', hknown, hprocessed, hfalse⟩ := hescorted.propagate
      (rfl : w.ctx.core.propagate.2.trail.toList = w.ctx.core.propagate.2.state.trail)
    have heq := Theory.Registry.propagate_eq hq w.ctx.core.propagate.2.trail
    rw [Option.isSome_none, if_neg Bool.false_ne_true]
    refine ends_update
      (a := (w.ctx.registry.egraph.propagate w.ctx.core.propagate.2.trail).1.conflict)
      (c := { w.ctx with
        core := w.ctx.core.propagate.2
        registry :=
          { w.ctx.registry with egraph := (w.ctx.registry.egraph.propagate
            w.ctx.core.propagate.2.trail).2 } })
      (by dsimp only; rw [heq]) ⟨hq, fun _ => ?_, fun lits hlits => ?_⟩
    · exact ⟨⟨hrunning, hmisused, hescorted'⟩, hhead.trans Array.length_toList, hprocessed, hknown⟩
    · exact ⟨hrunning.orderly, fun level _ => hrunning.back level, hmisused, hescorted',
        hfalse lits hlits⟩

/-- After a conflict the core and the e-graph go back to the same level, or the search is over. -/
theorem ends_resolve {lits : List Literal} (h : w.ctx.Clashes lits) :
    Ends (resolve lits) w (fun go w' => (go = true → w'.ctx.Underway) ∧ w'.ctx.InStep) fun _ =>
      False := by
  refine ends_update_bind (a := (w.ctx.core.analyze lits).1)
    (c := { w.ctx with core := (w.ctx.core.analyze lits).2 }) rfl ?_
  rcases Core.conflict_spec h.orderly h.back h.false w.ctx.depth with
    ⟨hunsat, hstate⟩ | ⟨level, first, rest, hlearnt, hrunning, hmisused, htrail, hstarts⟩
  · rw [hunsat]
    refine Ends.pure ⟨nofun, inStep_of_escorts ?_ ?_ ?_⟩
    · exact hstate ▸ h.orderly
    · exact (Core.misused_analyze _ _).trans h.misused
    · exact hstate ▸ h.escorted
  · rw [hlearnt]
    have hback := h.escorted.back level
    have hunderway : Underway { w.ctx with
        core := ((w.ctx.core.analyze lits).2.backtrack level).learn (first :: rest) w.ctx.depth
        registry := w.ctx.registry.backtrack level } := by
      rw [Theory.Registry.backtrack_eq hq]
      refine ⟨hrunning, hmisused.trans h.misused, hback.extend ?_ hstarts⟩
      rw [htrail]
      exact List.prefix_append _ _
    exact ends_change_bind (Ends.pure ⟨fun _ => hunderway, hunderway.inStep⟩)

/-- The core and the e-graph go back to level 0. -/
theorem underway_base (h : w.ctx.Underway) {core : Core}
    (hstate : core.state = w.ctx.core.state.back 0) (hmisused : core.misused = w.ctx.core.misused) :
    Underway { w.ctx with core, registry := w.ctx.registry.backtrack 0 } := by
  rw [Theory.Registry.backtrack_eq hq]
  refine ⟨?_, hmisused.trans h.misused, ?_⟩
  · rw [show core.state = _ from hstate]
    exact h.running.back 0
  · rw [show core.state = _ from hstate]
    exact h.escorted.back 0

/-- Formulas are processed at level 0. -/
theorem ends_assertInstances (h : w.ctx.Underway) (formulas : List Term) :
    Ends (assertInstances formulas) w (fun _ w' => w'.ctx.Underway) fun w' => w'.ctx.InStep := by
  have hbase := underway_base hq h (Core.state_backtrack w.ctx.core 0)
    (Core.misused_backtrack w.ctx.core 0)
  have hstarts : (w.ctx.core.backtrack 0).state.starts = [] := by
    rw [Core.state_backtrack]
    exact Core.starts_back_zero _
  refine ends_change_bind (Ends.bind ?_)
  refine Ends.mono (Leads.of_moves_any
    (edits_frame.forM formulas (fun t _ => edits_process t) _ trivial))
    (fun _ w₁ hw₁ => ?_) fun w₁ hw₁ => ?_
  · have hg := hw₁.1.gathers hbase.running.orderly hstarts
    have hsync := gathers_syncVars hg.core.orderly hg.core.starts
    exact ends_change_bind (hbase.gathers hstarts (hg.trans hsync))
  · exact (hbase.gathers hstarts (hw₁.gathers hbase.running.orderly hstarts)).inStep

/-- A look at a complete assignment changes neither the core nor the e-graph. -/
theorem ends_finalCheck (stop : StopRequest) (n : Nat) :
    Ends (finalCheck stop n) w (fun x w' => x.2.conflict = none ∧ w'.ctx.core = w.ctx.core ∧
      w'.ctx.registry.egraph = w.ctx.registry.egraph ∧ ∃ q, w'.ctx.registry.Has q)
        fun _ => False := by
  have heq := Theory.Registry.finalCheck_eq hq w.store
  have hnone : (w.ctx.registry.finalCheck w.store).1.1.2.conflict = none := by rw [heq]
  have hegraph : (w.ctx.registry.finalCheck w.store).1.2.egraph = w.ctx.registry.egraph := by
    rw [heq]
  have hhas : ∃ q, (w.ctx.registry.finalCheck w.store).1.2.Has q := by
    rw [heq]
    exact ⟨_, rfl⟩
  show (w.ctx.registry.finalCheck w.store).1.1.2.conflict = none ∧ _
  split <;> exact ⟨hnone, rfl, hegraph, hhas⟩

theorem ends_conclude (stop : StopRequest) (n : Nat) (h : w.ctx.Underway) :
    Ends (conclude stop n) w (fun status w' => (status = none → w'.ctx.Underway) ∧ w'.ctx.InStep)
      fun w' => w'.ctx.InStep := by
  refine Ends.bind (Ends.mono (ends_finalCheck hq stop n) (fun (outcome, out) w₁ hw₁ => ?_)
    fun _ => False.elim)
  obtain ⟨hnone, hcore, hegraph, q', hq'⟩ := hw₁
  have h₁ := h.of_same hcore hegraph
  have hover (status : Status) : (some status = none → w₁.ctx.Underway) ∧ w₁.ctx.InStep :=
    ⟨nofun, h₁.inStep⟩
  refine ends_look_bind ?_
  split
  · exact Ends.pure (hover _)
  · split
    next hsome =>
      rw [hnone] at hsome
      cases hsome
    · split
      · refine ends_unlessStuck (Ends.mono (ends_assertInstances hq' h₁ out.formulas)
          (fun go w₂ hw₂ => ?_) fun _ => id)
        exact ⟨fun _ => hw₂, hw₂.inStep⟩
      · split
        · exact Ends.pure (hover _)
        · exact hover _

theorem underway_decide (h : w.ctx.Settled) {l : Literal}
    (hpick : w.ctx.core.pickBranch.1 = some l) :
    Underway { w.ctx with core := w.ctx.core.pickBranch.2.decide l, registry :=
      w.ctx.registry.openLevel } := by
  obtain ⟨hvalue, hlive⟩ := Core.open_of_pickBranch hpick
  have hstate := Core.state_pickBranch w.ctx.core
  have hdecided : (w.ctx.core.pickBranch.2.decide l).state = w.ctx.core.state.decide l := by
    rw [Core.state_decide, hstate]
  have hvalue' : w.ctx.core.pickBranch.2.value l = none :=
    (congrArg (fun s => s.value l) hstate).trans hvalue
  have hrunning := (h.running.decide (h.head.trans Array.length_toList.symm) hvalue hlive).1
  have hmisused := (Core.misused_decide hvalue').trans
    ((Core.misused_pickBranch w.ctx.core).trans h.misused)
  have hescorted := h.escorted.decide h.known l
  rw [← hdecided] at hrunning hescorted
  rw [Theory.Registry.openLevel_eq hq]
  exact ⟨hrunning, hmisused, hescorted⟩

/-- A decision is taken when everything was propagated. -/
theorem ends_step (p : Params) (stop : StopRequest) (n : Nat) (h : w.ctx.Underway) :
    Ends (step p stop n) w (fun status w' => (status = none → w'.ctx.Underway) ∧ w'.ctx.InStep)
      fun w' => w'.ctx.InStep := by
  have hstopped {c : Context} (hc : c.Underway) (hcq : c.registry.Has q) :
      Underway (if stop = .atStep n then c.stop else c) ∧
        (if stop = .atStep n then c.stop else c).registry.Has q := by
    split
    · exact ⟨hc.of_same rfl rfl, hcq⟩
    · exact ⟨hc, hcq⟩
  obtain ⟨h₀, hq₀⟩ := hstopped h hq
  refine ends_change_bind (ends_look_bind ?_)
  generalize (if stop = .atStep n then w.ctx.stop else w.ctx) = c at h₀ hq₀
  split
  · exact Ends.pure ⟨nofun, h₀.inStep⟩
  refine Ends.bind (Ends.mono (ends_propagate (w := ⟨w.store, c⟩) hq₀ h₀)
    (fun conflict w₁ hw₁ => ?_) fun _ => False.elim)
  obtain ⟨hq₁, hnone, hsome⟩ := hw₁
  cases conflict with
  | some lits =>
    exact ends_unlessStuck (Ends.mono (ends_resolve hq₁ (hsome lits rfl)) (fun _ _ => id)
      fun _ => False.elim)
  | none =>
    have h₁ := hnone rfl
    refine ends_look_bind ?_
    split
    · have hbase : Underway { w₁.ctx with
          core := w₁.ctx.core.restart p.restartFactor.toFloat
          registry := w₁.ctx.registry.backtrack 0 } :=
        underway_base hq₁ h₁.toUnderway (Core.state_backtrack w₁.ctx.core 0)
          (Core.misused_backtrack w₁.ctx.core 0)
      exact ends_change_bind (Ends.pure ⟨fun _ => hbase, hbase.inStep⟩)
    refine ends_update_bind (a := w₁.ctx.core.pickBranch.1)
      (c := { w₁.ctx with core := w₁.ctx.core.pickBranch.2 }) rfl ?_
    have hpicked : Underway { w₁.ctx with core := w₁.ctx.core.pickBranch.2 } := by
      have hstate := Core.state_pickBranch w₁.ctx.core
      exact ⟨hstate ▸ h₁.running, (Core.misused_pickBranch _).trans h₁.misused, hstate ▸
        h₁.escorted⟩
    cases hpick : w₁.ctx.core.pickBranch.1 with
    | some l =>
      exact ends_change_bind
        (Ends.pure ⟨fun _ => underway_decide hq₁ h₁ hpick, (underway_decide hq₁ h₁ hpick).inStep⟩)
    | none =>
      exact ends_conclude (w := ⟨w₁.store, { w₁.ctx with core := w₁.ctx.core.pickBranch.2 }⟩) hq₁
        stop n hpicked

/-- A search starts without levels. -/
theorem ends_startSearch (p : Params) (h : w.ctx.Based) :
    Ends (startSearch p) w (fun go w' => (go = true → w'.ctx.Underway) ∧ w'.ctx.InStep) fun _ =>
      False := by
  have hlevels : w.ctx.registry.egraph.classes.levels.size = 0 :=
    h.levels.trans (Core.decisionLevel_eq_zero h.starts)
  refine ends_look_bind ?_
  split
  · exact Ends.pure ⟨nofun, h.toInStep⟩
  obtain ⟨hrunning, -⟩ := Core.startSearch_running h.orderly p
  have hmisused := (Core.misused_startSearch w.ctx.core p).trans h.misused
  have hstarts' : (w.ctx.core.startSearch p).2.state.starts = [] :=
    congrArg Array.toList (Core.levelStarts_assignUnits _)
  refine ends_update_bind (a := (w.ctx.core.startSearch p).1)
    (c := { w.ctx with core := (w.ctx.core.startSearch p).2 })
    rfl ?_
  cases (w.ctx.core.startSearch p).1 with
  | false =>
    exact Ends.pure ⟨nofun, hrunning.orderly, hmisused,
      hlevels.trans (Core.decisionLevel_eq_zero hstarts').symm⟩
  | true =>
    have heq := Theory.Registry.startSearch_eq hq p
    refine ends_update_bind (a := [])
      (c := { w.ctx with
        core := (w.ctx.core.startSearch p).2
        registry := { w.ctx.registry with
          egraph := w.ctx.registry.egraph.startSearch, satellites :=
            #[.quant (q.startSearch p)] } })
      (by dsimp only; rw [heq]) ?_
    have hunderway : Underway { w.ctx with
        core := (w.ctx.core.startSearch p).2
        registry := { w.ctx.registry with
          egraph := w.ctx.registry.egraph.startSearch, satellites :=
            #[.quant (q.startSearch p)] } } :=
      ⟨hrunning, hmisused, .start _ hstarts'⟩
    exact Ends.pure ⟨fun _ => hunderway, hunderway.inStep⟩

end

theorem ok_of_eq_ok {op : Work α} (hop : Moves Workspace.Ok Step op) (hw : w.Ok) {a : α}
    (h : op w = .ok a w') : w'.Ok := by
  have hstep := hop w hw
  rw [h] at hstep
  exact step_frame.stable hw hstep

/-- Between two steps of a search the core and the e-graph are in step. -/
theorem Searching.underway {p : Params} {stop : StopRequest} {n : Nat} (h : Searching p stop w n w')
    (hw : w.Ok) (hbased : w.ctx.Based) : w'.Ok ∧ w'.ctx.Underway := by
  induction h with
  | start hstart =>
    have hends := (ends_startSearch hw.ctx.registry p hbased).of_ok hstart
    exact ⟨ok_of_eq_ok (Steps.moves fun _ => steps_startSearch p) hw hstart, hends.1 rfl⟩
  | step h hnext ih =>
    have hends := (ends_step ih.1.ctx.registry p stop _ ih.2).of_ok hnext
    exact ⟨ok_of_eq_ok (Steps.moves fun _ => steps_step p stop _) ih.1 hnext, hends.1 rfl⟩

/-- However a search ends, the core and the e-graph are in step. -/
theorem inStep_search (hw : w.Ok) (h : w.ctx.Based) (p : Params) (stop : StopRequest) (fuel : Nat) :
    (endState (search p stop fuel w)).ctx.InStep := by
  have hstart := ends_startSearch hw.ctx.registry p h
  have hends : Ends (search p stop fuel) w (fun _ w' => w'.ctx.InStep) fun w' => w'.ctx.InStep := by
    refine Ends.mono (ends_search p stop fuel w) (fun status w' hw' => ?_) fun w' hw' => ?_
    · rcases hw' with ⟨-, hfalse⟩ | ⟨n, w₁, hsearch, hlast⟩
      · exact (hstart.of_ok hfalse).2
      · obtain ⟨hw₁, h₁⟩ := hsearch.underway hw h
        exact ((ends_step hw₁.ctx.registry p stop n h₁).of_ok hlast).2
    · rcases hw' with ⟨e, he⟩ | ⟨n, hsearch⟩ | ⟨n, w₁, e, hsearch, hlast⟩
      · unfold Ends at hstart
        rw [he] at hstart
        exact hstart.elim
      · exact (hsearch.underway hw h).2.inStep
      · obtain ⟨hw₁, h₁⟩ := hsearch.underway hw h
        have hfail := ends_step hw₁.ctx.registry p stop n h₁
        unfold Ends at hfail
        rw [hlast] at hfail
        exact hfail
  exact Ends.endState hends

end Work

/-! ## Between operations -/

namespace Context

variable {c : Context}

theorem levels_backtrack_zero (g : Egraph) : (g.backtrack 0).classes.levels.size = 0 := by
  unfold Egraph.backtrack Egraph.modifyClasses
  dsimp only
  split
  next hnone => exact Nat.le_zero.mp (Array.getElem?_eq_none_iff.mp hnone)
  · simp

theorem orderly_clearSearch (h : c.core.state.Orderly) : c.clearSearch.core.state.Orderly := by
  have hclear : c.core.resetTrail.state.Orderly := by
    rw [Core.state_resetTrail]
    exact h.clear
  exact (Core.assignUnits_spec hclear rfl).1

theorem based_clearSearch {q : Quant.Solver} (hq : c.registry.Has q) (h : c.InStep) :
    c.clearSearch.Based := by
  have hstarts : c.clearSearch.core.state.starts = [] :=
    congrArg Array.toList (Core.levelStarts_assignUnits _)
  refine ⟨⟨orderly_clearSearch h.orderly, ?_, ?_⟩, hstarts⟩
  · exact (Core.misused_assignUnits rfl).trans ((Core.misused_resetTrail _).trans h.misused)
  · rw [Core.decisionLevel_eq_zero hstarts]
    unfold clearSearch
    rw [Theory.Registry.backtrack_eq hq]
    exact levels_backtrack_zero _

theorem based_openScope {s : Store} (hc : c.Ok s) (h : c.Based) : c.openScope.Based := by
  have hsync := h.gathers (gathers_syncVars h.orderly h.starts)
  rw [openScope_eq hc]
  exact ⟨⟨hsync.orderly, hsync.misused, hsync.levels⟩, hsync.starts⟩

theorem inStep_commit {q : Quant.Solver} (hq : c.registry.Has q) (h : c.InStep) :
    c.commit.InStep := by
  unfold commit
  split
  · exact h
  · rw [Theory.Registry.mergeScope_eq hq]
    exact ⟨Core.mergeScopes_orderly h.orderly _, h.misused, h.levels⟩

/-- Variables that are swept are mentioned by no clause. -/
theorem sweepVars_orderly (hvars : c.vars.Ok) (h : c.core.state.Orderly)
    (htrail : c.core.state.trail = [])
    (keep : Std.HashSet Nat) (hover : c.core.db.all.Over (c.sweepVars keep).Live) :
    (c.sweepVars keep).core.state.Orderly ∧ (c.sweepVars keep).core.misused = c.core.misused ∧
      (c.sweepVars keep).core.levelStarts = c.core.levelStarts := by
  unfold sweepVars at hover ⊢
  cases hsweep : c.vars.sweep? keep with
  | none => exact ⟨h, rfl, rfl⟩
  | some x =>
    obtain ⟨dead, vars⟩ := x
    rw [hsweep] at hover
    refine ⟨Core.releaseVars_orderly h htrail dead (hover.mono fun v ⟨t, hv⟩ hdead => ?_),
      Core.misused_releaseVars (Core.varValue_of_trail h.assigned htrail) dead,
      Core.levelStarts_foldl Core.levelStarts_releaseVar dead c.core⟩
    change vars.term? v = some t at hv
    rw [term?_sweep hvars hsweep v, if_pos hdead] at hv
    cases hv

/-- Of a scope that is closed nothing is left that mentions a variable which goes out of use. -/
theorem based_rollback (hw : w.Kempt) {a : Scope} {rest : List Scope}
    (hs : w.ctx.scopes = a :: rest) (h : w.ctx.InStep) : w.ctx.rollback.Based := by
  have hlevels := levelStarts_rollback hs
  have hclasses := classes_rollback hw.tidy.ok hs
  have hover := (hw.rollback (by rw [hs]; nofun)).tidy.refers.core.db
  obtain ⟨c, keep, heq, hvars, hcore⟩ := rollback_eq_sweep hs
  have hpopped := Core.popScopes_orderly h.orderly rest.length
  have hbase : (w.ctx.core.popScopes rest.length).state.starts = [] :=
    congrArg Array.toList (Core.levelStarts_popScopes w.ctx.core rest.length)
  have hsynced := Core.gathers_ensureVars (fun a : Announcement => a.var) w.ctx.vars.heard.toList
    hpopped hbase
  have htrail : c.core.state.trail = [] := by
    rw [hcore]
    exact congrArg Array.toList ((trail_foldl_ensureVar _ _).trans
      (Core.trail_popScopes w.ctx.core rest.length))
  rw [← hcore] at hsynced
  have hdb : (c.sweepVars keep).core.assignUnits.2.db = c.core.db :=
    (Core.db_assignUnits _).trans (db_sweepVars c keep)
  have hswept : w.ctx.rollback.Live = (c.sweepVars keep).Live := by
    rw [heq]
    rfl
  have hrollback : w.ctx.rollback.core = (c.sweepVars keep).core.assignUnits.2 := by rw [heq]
  rw [hrollback, hdb, hswept] at hover
  obtain ⟨horderly, hmisused, hstarts⟩ :=
    sweepVars_orderly (hvars ▸ hw.tidy.ok.ctx.vars.collect) hsynced.orderly htrail keep hover
  have hsweptStarts : (c.sweepVars keep).core.state.starts = [] :=
    (congrArg Array.toList hstarts).trans hsynced.starts
  refine ⟨⟨?_, ?_, ?_⟩, congrArg Array.toList hlevels⟩
  · rw [hrollback]
    exact (Core.assignUnits_spec horderly hsweptStarts).1
  · rw [hrollback, Core.misused_assignUnits (Core.decisionLevel_eq_zero hsweptStarts), hmisused,
      hsynced.misused,
      Core.misused_popScopes]
    exact h.misused
  · rw [hclasses, Core.decisionLevel_eq_zero (congrArg Array.toList hlevels)]
    rfl

/-- The end of a check. -/
theorem composed_finish (hw : w.Kempt) (h : w.ctx.InStep) (interactive : Bool)
    (hs : interactive = true → w.ctx.scopes ≠ []) {outcome : Except Failure Status}
    (houtcome : ∀ status, outcome = .ok status → Work.IsAnswer status) :
    (w.ctx.finish interactive outcome).Composed := by
  have hq := hw.tidy.ok.ctx.registry
  cases interactive with
  | true =>
    obtain ⟨a, rest, hscopes⟩ := List.exists_cons_of_ne_nil (hs rfl)
    have hrolled := ((based_rollback hw hscopes h).status .idle).composed
    cases outcome with
    | error e => exact hrolled
    | ok status =>
      have hanswer := houtcome status rfl
      obtain ⟨horderly, hmisused, hlevels⟩ := inStep_commit hq h
      cases status with
      | interrupted => exact hrolled
      | idle => exact absurd rfl hanswer.1
      | searching => exact absurd rfl hanswer.2
      | sat | unsat | unknown => exact ⟨⟨horderly, hmisused, hlevels⟩, nofun⟩
  | false =>
    cases outcome with
    | error e => exact ((based_clearSearch hq h).status .idle).composed
    | ok status =>
      exact ⟨⟨h.orderly, h.misused, h.levels⟩, fun hidle => absurd hidle (houtcome status rfl).1⟩

theorem composed_new (config : Config) : (Context.new config).Composed := by
  let first := (blank config).atom .top
  have hfirst : first.2.Based := ⟨⟨Core.orderly_new, rfl, rfl⟩, rfl⟩
  have hsync := gathers_syncVars hfirst.orderly hfirst.starts
  have hclause := Core.gathers_addClause hsync.core.orderly hsync.core.starts [first.1] 0
  have hadd : Gathers first.2.syncVars (.new config) := ⟨hclause, .refl _, rfl⟩
  exact (hfirst.gathers (hsync.trans hadd)).composed

theorem composed_block {q : Quant.Solver} {c' : Context} (hq : c.registry.Has q) (h : c.InStep)
    (hblock : c.block = .ok c') : c'.Composed := by
  have hclear := based_clearSearch hq h
  have hclause := Core.gathers_addClause hclear.orderly hclear.starts
    (c.core.decisions.map (·.neg)) c.clearSearch.depth
  have hadd : Gathers c.clearSearch (c.clearSearch.addClause (c.core.decisions.map (·.neg))) :=
    ⟨hclause, .refl _, rfl⟩
  unfold block at hblock
  split at hblock
  · cases hblock
  · split at hblock
    · cases hblock
    · cases hblock
      exact ((hclear.gathers hadd).status _).composed

theorem composed_push (hw : w.Ok) (h : w.ctx.Composed) {c : Context} (hpush : w.ctx.push = .ok c) :
    c.Composed := by
  have hdrop : { w.ctx.clearSearch with status := .idle }.openScope.Composed :=
    (based_openScope (keeps_clearSearch hw .idle).ok
      ((based_clearSearch hw.ctx.registry h.toInStep).status .idle)).composed
  unfold push at hpush
  split at hpush
  · cases hpush
  · split at hpush
    · cases hpush
    · cases hpush
    · cases hpush
    · cases hpush
      exact hdrop
    · cases hpush
      exact hdrop
    next hidle =>
      cases hpush
      exact (based_openScope hw.ctx ⟨h.toInStep, h.idle hidle⟩).composed

end Context

namespace Work

/-- Operations that are used at level 0 only. -/
theorem based_frame : Frame (fun w : Workspace => w.ctx.Based) fun _ w' => w'.ctx.Based :=
  ⟨id, fun _ h => h, fun _ h => h⟩

/-- What is used at level 0 only stays there. -/
abbrev Grounded (op : Work α) : Prop :=
  Moves (fun w : Workspace => w.ctx.Based) (fun _ w' => w'.ctx.Based) op

theorem grounded_of_edits {op : Work α} (h : Edits op) : Grounded op := fun w hw =>
  hw.gathers ((h w trivial).gathers hw.orderly hw.starts)

theorem grounded_settle : Grounded (change (·.settle)) := fun _ hw =>
  (hw.gathers (gathers_syncVars hw.orderly hw.starts)).status _

theorem grounded_note (t : Term) : Grounded (change (·.note t)) :=
  grounded_of_edits fun ⟨s, c⟩ _ => .single (.note s c ..)

/-- Formulas are asserted at level 0. -/
theorem based_reopen (hw : w.Ok) (h : w.ctx.Composed) (hallowed : w.ctx.checkAssertAllowed = .ok ())
    (hsat : w.ctx.status ≠ .unsat) : w.ctx.reopen.Based := by
  unfold reopen
  split
  · exact (based_clearSearch hw.ctx.registry h.toInStep).status .idle
  next hmodel =>
    refine ⟨h.toInStep, h.idle ?_⟩
    unfold checkAssertAllowed at hallowed
    cases hstatus : w.ctx.status with
    | idle => rfl
    | unsat => exact absurd hstatus hsat
    | sat | unknown =>
      rw [hstatus] at hmodel
      exact absurd rfl hmodel
    | searching | interrupted =>
      rw [hstatus] at hallowed
      cases hallowed

theorem composed_of_grounded {op : Work α} (hop : Grounded op) (h : w.ctx.Based) :
    Ends op w (fun _ w' => w'.ctx.Composed) fun w' => w'.ctx.Composed := by
  have hends := Leads.of_moves_any (R := fun _ w' : Workspace => w'.ctx.Based) (hop w h)
  exact Ends.mono hends (fun _ w' hw' => hw'.1.composed) fun w' hw' => hw'.composed

theorem composed_assertAll (ts : List Term) (hw : w.Ok) (h : w.ctx.Composed) :
    (endState (assertAll ts w)).ctx.Composed := by
  have hops : Grounded (do
      ts.forM fun t => do
        change (·.note t)
        process t
      change (·.settle)) := by
    refine based_frame.bind (based_frame.forM ts fun t _ => ?_) fun _ => grounded_settle
    exact based_frame.bind (grounded_note t) fun _ => grounded_of_edits (edits_process t)
  refine Ends.endState (E := fun w' : Workspace => w'.ctx.Composed) ?_
  refine ends_check_bind h fun _ hallowed => ends_check_bind h fun _ _ => ends_look_bind ?_
  split
  · exact Ends.pure h
  next hsat => exact ends_change_bind (composed_of_grounded hops (based_reopen hw h hallowed hsat))

theorem composed_assertQuantifier (formula : Term) (patterns : List Term) (hw : w.Ok)
    (h : w.ctx.Composed) :
    (endState (assertQuantifier formula patterns w)).ctx.Composed := by
  refine Ends.endState (E := fun w' : Workspace => w'.ctx.Composed) ?_
  refine ends_check_bind h fun _ hallowed => ends_check_bind h fun _ _ => ?_
  refine Ends.bind (ends_look_bind ?_)
  split
  · exact h
  refine Ends.pure (ends_look_bind ?_)
  split
  · exact Ends.pure h
  next hsat =>
  refine ends_change_bind (composed_of_grounded ?_ (based_reopen hw h hallowed hsat))
  refine based_frame.bind (grounded_of_edits (edits_look _)) fun σ => ?_
  refine based_frame.bind (grounded_of_edits (edits_onStore _)) fun t => ?_
  refine based_frame.bind (grounded_of_edits (edits_shape t)) fun shape => ?_
  split
  · refine based_frame.bind (grounded_note formula) fun _ => ?_
    exact based_frame.bind (grounded_of_edits (edits_process t)) fun _ => grounded_settle
  next hquant =>
    have hpos : t.isNegated = false := Bool.eq_false_iff.mpr fun h =>
      hquant (Bool.or_eq_true_iff.mpr (.inl h))
    refine based_frame.bind (grounded_of_edits (edits_onStore _)) fun patterns => ?_
    refine based_frame.bind (grounded_of_edits (edits_addConstraint hpos patterns)) fun _ => ?_
    exact based_frame.bind (grounded_note formula) fun _ => grounded_settle

end Work

namespace Workspace

/-- The workspace in which the check of an idle context starts to search. -/
def underway (w : Workspace) (stop : StopRequest) : Workspace :=
  ⟨w.store, searching stop (if w.ctx.config.mode == .interactive then w.ctx.openScope else w.ctx)⟩

/-- A check of an idle context searches, in a scope of its own if the context is interactive. -/
theorem checkSat_eq (hidle : w.ctx.status = .idle) {p : Params} (hp : p.validate = .ok ())
    (stop : StopRequest) (fuel : Nat) :
    Work.checkSat p stop fuel w = match Work.search p stop fuel (w.underway stop) with
      | .ok status w₁ =>
        .ok status ⟨w₁.store, w₁.ctx.finish (w.ctx.config.mode == .interactive) (.ok status)⟩
      | .error e w₁ =>
        .error e ⟨w₁.store, w₁.ctx.finish (w.ctx.config.mode == .interactive) (.error e)⟩ := by
  unfold Work.checkSat
  rw [bind_of_ok (rfl : Work.look _ w = .ok w.ctx.status w), hidle]
  simp only
  rw [hp, bind_of_ok (rfl : Work.check (fun _ _ => .ok ()) w = .ok () w),
    bind_of_ok (rfl : Work.look _ w = .ok (w.ctx.config.mode == .interactive) w)]
  have hstart : ∀ interactive : Bool, ∀ w' : Workspace, (do
        Work.change (searching stop)
        let outcome ← Work.attempt (Work.search p stop fuel)
        Work.change (·.finish interactive outcome)
        Work.check fun _ _ => outcome : Work Status) w' =
      match Work.search p stop fuel ⟨w'.store, searching stop w'.ctx⟩ with
      | .ok status w₁ => .ok status ⟨w₁.store, w₁.ctx.finish interactive (.ok status)⟩
      | .error e w₁ => .error e ⟨w₁.store, w₁.ctx.finish interactive (.error e)⟩ := by
    intro interactive w'
    rw [bind_of_ok (rfl : Work.change _ w' = .ok () ⟨w'.store, searching stop w'.ctx⟩)]
    cases hrun : Work.search p stop fuel ⟨w'.store, searching stop w'.ctx⟩ with
    | ok status w₁ =>
      have hattempt : Work.attempt (Work.search p stop fuel) ⟨w'.store, searching stop w'.ctx⟩ = .ok
          (.ok status) w₁ := by
        unfold Work.attempt
        rw [hrun]
      rw [bind_of_ok hattempt]
      rfl
    | error e w₁ =>
      have hattempt : Work.attempt (Work.search p stop fuel) ⟨w'.store, searching stop w'.ctx⟩ = .ok
          (.error e) w₁ := by
        unfold Work.attempt
        rw [hrun]
      rw [bind_of_ok hattempt]
      rfl
  unfold Workspace.underway
  cases w.ctx.config.mode == .interactive with
  | true => exact hstart true ⟨w.store, w.ctx.openScope⟩
  | false => exact hstart false w

theorem based_underway (hw : w.Ok) (h : w.ctx.Based) (stop : StopRequest) :
    (w.underway stop).Ok ∧ (w.underway stop).ctx.Based := by
  have hsearching {c : Context} (hc : c.Based) : (searching stop c).Based :=
    ⟨⟨hc.orderly, hc.misused, hc.levels⟩, hc.starts⟩
  unfold underway
  split
  · obtain ⟨hok, -⟩ := openScope_spec hw
    have hopen : Workspace.Ok ⟨w.store, w.ctx.openScope⟩ := ⟨hw.store, hok⟩
    exact ⟨⟨hw.store, (keeps_searching hopen stop).ok⟩, hsearching (based_openScope hw.ctx h)⟩
  · exact ⟨⟨hw.store, (keeps_searching hw stop).ok⟩, hsearching h⟩

theorem composed_searching (hw : w.Kempt) (h : w.ctx.Based) (interactive : Bool)
    (hs : interactive = true → w.ctx.scopes ≠ []) (p : Params) (stop : StopRequest) (fuel : Nat) :
    (endState ((do
      Work.change (searching stop)
      let outcome ← Work.attempt (Work.search p stop fuel)
      Work.change (·.finish interactive outcome)
      Work.check fun _ _ => outcome : Work Status) w)).ctx.Composed := by
  obtain ⟨outcome, hend, hanswer⟩ := endState_searching interactive p stop fuel w
  have hstart : Kempt ⟨w.store, searching stop w.ctx⟩ := hw.settings _ _ _
  have hbased : (searching stop w.ctx).Based := ⟨⟨h.orderly, h.misused, h.levels⟩, h.starts⟩
  have hsearch := (Work.grows_search hstart.tidy p stop fuel).moves
  have hstep := Work.inStep_search (w := ⟨w.store, searching stop w.ctx⟩) hstart.tidy.ok
    hbased p stop fuel
  rw [hend]
  refine composed_finish (hstart.grows hsearch) hstep interactive (fun hi => ?_)
    fun status hstatus => ?_
  · rw [hsearch.keeps.scopes]
    exact hs hi
  · exact Work.answers_search p stop fuel _ _ _ (hanswer status hstatus)

theorem composed_checkSat (hw : w.Kempt) (h : w.ctx.Composed) (p : Params) (stop : StopRequest)
    (fuel : Nat) :
    (endState (Work.checkSat p stop fuel w)).ctx.Composed := by
  unfold Work.checkSat
  rw [bind_of_ok (rfl : Work.look _ w = .ok w.ctx.status w)]
  cases hstatus : w.ctx.status with
  | idle =>
    cases p.validate with
    | error e => exact h
    | ok =>
      have hbased : w.ctx.Based := ⟨h.toInStep, h.idle hstatus⟩
      simp only
      rw [bind_of_ok (rfl : Work.check (fun _ _ => .ok ()) w = .ok () w),
        bind_of_ok (rfl : Work.look _ w = .ok (w.ctx.config.mode == .interactive) w)]
      cases w.ctx.config.mode == .interactive with
      | true =>
        exact composed_searching hw.openScope (based_openScope hw.tidy.ok.ctx hbased) true
          nofun p stop fuel
      | false => exact composed_searching hw hbased false nofun p stop fuel
  | _ => exact h

/-- Every operation leaves the core and the e-graph in step, whether it is refused or not. -/
theorem composed_run (a : Action) (hw : w.Kempt) (h : w.ctx.Composed) :
    (endState (a.run w)).ctx.Composed := by
  have hreplace {f : Context → Except Failure Context} (hf : ∀ c, f w.ctx = .ok c → c.Composed) :
      (endState (Work.replace f w)).ctx.Composed := by
    unfold Work.replace
    dsimp only
    cases hc : f w.ctx with
    | ok c => exact hf c hc
    | error e => exact h
  cases a with
  | assert ts => exact Work.composed_assertAll ts hw.tidy.ok h
  | assertQuantifier formula patterns =>
    exact Work.composed_assertQuantifier formula patterns hw.tidy.ok h
  | check p stop fuel =>
    rw [endState_run_check]
    exact composed_checkSat hw h p stop fuel
  | block => exact hreplace fun c => composed_block hw.tidy.ok.ctx.registry h.toInStep
  | setOption name on =>
    refine hreplace (f := (·.setOption name on)) fun c hc => ?_
    obtain ⟨x, -, hc⟩ := Store.bind_eq_ok_iff.mp hc
    cases hc
    exact ⟨⟨h.orderly, h.misused, h.levels⟩, h.idle⟩
  | stop =>
    refine hreplace (f := fun c => .ok c.stop) fun c hc => ?_
    cases hc
    exact ⟨⟨h.orderly, h.misused, h.levels⟩, h.idle⟩
  | push => exact hreplace fun c => composed_push hw.tidy.ok h
  | pop =>
    refine hreplace fun c hc => ?_
    obtain ⟨a, rest, hs, rfl⟩ := pop_eq_ok hc
    exact ((based_rollback hw hs h.toInStep).status .idle).composed
  | reset =>
    refine hreplace (f := fun c => .ok c.reset) fun c hc => ?_
    cases hc
    have hnew := composed_new w.ctx.config
    exact ⟨⟨hnew.orderly, hnew.misused, hnew.levels⟩, hnew.idle⟩

theorem composed_of_used (h : Used w) : w.ctx.Composed := by
  obtain ⟨s, config, hs, hrun⟩ := h
  induction hrun with
  | refl => exact composed_new config
  | tail hrun hturn ih =>
    cases hturn with
    | act a => exact composed_run a (kempt_of_used ⟨s, config, hs, hrun⟩) ih
    | store => exact ih

end Workspace

/-! ## A decision between two constants -/

namespace Core

/-- What may be on the trail after the decision: it is about one of the constants, and the other is
forced when it has to be. -/
def trails : List (Array Literal) :=
  [#[.pos 1, .pos 2], #[.pos 1, .pos 3], #[.pos 1, (Literal.pos 2).neg, .pos 3],
    #[.pos 1, (Literal.pos 3).neg, .pos 2]]

/-- Whatever is decided, no clause becomes false. -/
theorem propagate_settled {l : Literal} (hl : settled.isOpen l.var = true) (order : Search.Order) :
    (({ settled with order } : Core).decide l).propagate.1 = none ∧
      (({ settled with order } : Core).decide l).propagate.2.trail ∈ trails := by
  have found {x : Option (List Literal) × Core} {trail : Array Literal} (hx : x.1 = none)
      (htrail : x.2.trail = trail) (hmem : trail ∈ trails) : x.1 = none ∧ x.2.trail ∈ trails :=
    ⟨hx, htrail ▸ hmem⟩
  rcases (isOpen_settled l.var).mp hl with hv | hv
  · rcases Literal.eq_or_eq_neg (k := l) (l := .pos 2) (by simpa using hv) with rfl | rfl
    · exact found (by with_unfolding_all rfl) (by with_unfolding_all rfl) (.head _)
    · exact found (by with_unfolding_all rfl) (by with_unfolding_all rfl)
        (.tail _ (.tail _ (.head _)))
  · rcases Literal.eq_or_eq_neg (k := l) (l := .pos 3) (by simpa using hv) with rfl | rfl
    · exact found (by with_unfolding_all rfl) (by with_unfolding_all rfl) (.tail _ (.head _))
    · exact found (by with_unfolding_all rfl) (by with_unfolding_all rfl)
        (.tail _ (.tail _ (.tail _ (.head _))))

end Core

/-- The e-graph has no terms for the constants, and no objection. -/
theorem Egraph.conflict_trails {trail : Array Literal} (h : trail ∈ Core.trails) :
    ((Egraph.empty.startSearch.propagate #[.pos 1]).2.openLevel.propagate trail).1.conflict =
      none := by
  rw [Egraph.empty_eq]
  unfold Core.trails at h
  simp only [List.mem_cons, List.not_mem_nil, or_false] at h
  rcases h with rfl | rfl | rfl | rfl <;> cbv

namespace Workspace

variable {w : Workspace}

/-- No assertion fails. Between operations and between the steps of a search the core was never
misused, and the e-graph has as many levels as the core. Nodes are synced only when no level is
open. And when a decision is due, the core and the e-graph are at the end of the trail. -/
theorem assertions_hold (hw : Used w) :
    (w.ctx.core.misused = false ∧ w.ctx.registry.egraph.classes.levels.size =
      w.ctx.core.decisionLevel) ∧
      (w.ctx.status = .idle → ∀ p stop n w', Work.Searching p stop (w.underway stop) n w' →
        (w'.ctx.core.misused = false ∧ w'.ctx.registry.egraph.classes.levels.size =
          w'.ctx.core.decisionLevel) ∧
        (w'.ctx.registry.egraph.classes.levels = #[] ∨
          w'.ctx.registry.egraph.known = w'.ctx.registry.egraph.nodes.size) ∧
        ∀ w'', Work.propagate w' = .ok none w'' →
          w''.ctx.core.misused = false ∧ w''.ctx.registry.egraph.classes.levels.size =
            w''.ctx.core.decisionLevel ∧
            w''.ctx.core.head = w''.ctx.core.trail.size ∧
            w''.ctx.registry.egraph.classes.processed = w''.ctx.core.trail.size) := by
  have hkempt := kempt_of_used hw
  have hcomposed := composed_of_used hw
  refine ⟨⟨hcomposed.misused, hcomposed.levels⟩, fun hidle p stop n w' hsearch => ?_⟩
  obtain ⟨hok, hbased⟩ := based_underway hkempt.tidy.ok ⟨hcomposed.toInStep,
    hcomposed.idle hidle⟩ stop
  obtain ⟨hok', hunderway⟩ := hsearch.underway hok hbased
  refine ⟨⟨hunderway.misused, hunderway.inStep.levels⟩, ?_, fun w'' hpropagate => ?_⟩
  · by_cases hlevels : w'.ctx.core.state.starts = []
    · refine .inl (Array.eq_empty_of_size_eq_zero ?_)
      rw [hunderway.inStep.levels, Core.decisionLevel_eq_zero hlevels]
    · exact .inr (hunderway.escorted.synced hlevels)
  · have hsettled := ((Work.ends_propagate hok'.ctx.registry hunderway).of_ok hpropagate).2.1 rfl
    exact ⟨hsettled.misused, hsettled.inStep.levels, hsettled.head, hsettled.processed⟩

/-- The first decision of a search: core and e-graph have one level, and the e-graph has processed
what the decision forces. -/
theorem assertions_hold_decision :
    let w := after ⟨.choice, .new {}⟩ [.assert [.ofIndex 4]]
    Used w ∧ w.ctx.status = .idle ∧ ∃ w' w'', Work.Searching {} .never (w.underway .never) 1 w' ∧
      w'.ctx.core.decisionLevel = 1 ∧ Work.propagate w' = .ok none w'' ∧
      w''.ctx.core.misused = false ∧
      w''.ctx.registry.egraph.classes.levels.size = w''.ctx.core.decisionLevel ∧
      w''.ctx.core.head = w''.ctx.core.trail.size ∧
      w''.ctx.registry.egraph.classes.processed = w''.ctx.core.trail.size := by
  intro w
  have hw : Used w := used_after Store.reached_choice.intact.wf _ _
  have heq : w = ⟨.choice, choosing .pushPop .choosing⟩ := Work.after_choice .pushPop
  have hidle : w.ctx.status = .idle := by
    rw [heq]
    rfl
  have hunderway : w.underway .never =
      ⟨.choice, searching .never (choosing .pushPop .choosing)⟩ := by
    rw [heq]
    rfl
  obtain ⟨l, order, w', hsearch, hopen, hcore, hlevel, -, hq, hegraph⟩ :=
    Work.searching_choosing (s := .choice) (c := searching .never (choosing .pushPop .choosing))
      (nofun : StopRequest.never ≠ .atStep 0) rfl rfl rfl Egraph.conflict_empty.1
  rw [← hunderway] at hsearch
  obtain ⟨hforced, htrail⟩ := Core.propagate_settled hopen order
  rw [← hcore] at hforced htrail
  have hnone : (w'.ctx.registry.egraph.propagate w'.ctx.core.propagate.2.trail).1.conflict =
      none := by
    rw [hegraph]
    exact Egraph.conflict_trails htrail
  have hpropagate := Work.propagate_of_none hforced hq
  rw [hnone] at hpropagate
  exact ⟨hw, hidle, w', _, hsearch, hlevel, hpropagate,
    ((assertions_hold hw).2 hidle {} .never 1 w' hsearch).2.2 _ hpropagate⟩

end Workspace
end Entail
