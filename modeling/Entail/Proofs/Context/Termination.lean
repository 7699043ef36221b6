import Entail.Proofs.Context.Pursuit

/-!
# Searches end

Every step of a search has less to do after it than before, so a search that is not stopped ends:
with a complete assignment, with no assignment that is allowed, or because an instance is refused
for the degree of a product. Without quantifiers there are no instances, and the answer is that
there is a model or that there is none.
-/

namespace Entail

open Workspace Context Search

variable {w w' : Workspace} {p : Params}

namespace Work

/-- One step of a search. -/
theorem pursues_step (hp : p.validate = .ok ()) (h : w.Pursuing) (stop : StopRequest) (n : Nat) :
    (∀ status w', step p stop n w = .ok status w' → w.Turns stop status w') ∧
      ∀ e w', step p stop n w = .error e w' → e.TooLarge ∧ w.ctx.solver.constraints ≠ #[] := by
  have hends := pursues_approach h.able.tidy.ok.ctx.registry hp stop n h.ongoing
  have hmaintains := maintains_approach h.able p stop n
  rw [step_eq]
  cases hrun : approach p stop n w with
  | error e w₁ =>
    unfold Ends at hends
    rw [hrun] at hends
    exact hends.elim
  | ok outcome w₁ =>
    have happroach := hends.of_ok hrun
    rw [bind_of_ok hrun]
    cases happroach with
    | stopped hstop =>
      refine ⟨fun status w' heq => ?_, fun e w' heq => by cases heq⟩
      cases heq
      refine .stopped (hstop.imp_left ?_)
      rintro rfl
      nofun
    | refuted hno =>
      refine ⟨fun status w' heq => ?_, fun e w' heq => by cases heq⟩
      cases heq
      exact .refuted fun _ => hno
    | on hongoing hupholds heffort =>
      refine ⟨fun status w' heq => ?_, fun e w' heq => by cases heq⟩
      cases heq
      exact .on (h.maintains (hmaintains.of_ok hrun).1 hongoing) heffort hupholds.interrupted
        fun _ => hupholds
    | complete hcomplete hupholds heffort hrunning =>
      have hpursuing := h.maintains (hmaintains.of_ok hrun).1 hcomplete.ongoing
      obtain ⟨hok, herror⟩ := pursues_conclude hpursuing
        hcomplete (hupholds.interrupted.trans hrunning) stop n
      rw [hupholds.constraints] at herror
      refine ⟨fun status w' heq => ?_, herror⟩
      cases hok status w' heq with
      | stopped hstop => exact .stopped (hupholds.interrupted ▸ hstop)
      | refuted hno =>
        exact .refuted fun hnone a ha =>
          hno (hupholds.constraints.trans hnone) a ((hupholds.allows a).mpr ha)
      | on hpursuing' heffort' hinterrupted hupholds' =>
        exact .on hpursuing' (lt_of_lt_of_le heffort' heffort)
            (hinterrupted.trans hupholds.interrupted) fun hnone =>
          hupholds.trans (hupholds' (hupholds.constraints.trans hnone))
      | answered hcomplete' hstatus hupholds' =>
        exact .answered hcomplete' hstatus fun hnone =>
          (hupholds' (hupholds.constraints.trans hnone)).imp_right hupholds.trans

end Work

/-! ## Whole searches -/

/-- How a search ends that is not stopped. -/
inductive Workspace.Ended (w : Workspace) : EStateM.Result Failure Workspace Status → Prop where
  | refused {e : Failure} {w' : Workspace} (h : e.TooLarge)
    (hquantified : w.ctx.solver.constraints ≠ #[]) : Ended w (.error e w')
  | refuted {w' : Workspace} (h : w.ctx.solver.constraints = #[] → ∀ a, ¬ w.ctx.Allows a) :
    Ended w (.ok .unsat w')
  | answered {w' : Workspace} {status : Status} (h : w'.ctx.Complete) (hstatus : status = .sat ∨
    status = .unknown)
    (hupholds : w.ctx.solver.constraints = #[] → status = .sat ∧ w.ctx.Upholds w'.ctx) :
    Ended w (.ok status w')

/-- What a later step of the search ends with. -/
theorem Workspace.Ended.before {r : EStateM.Result Failure Workspace Status} (h : w'.Ended r)
    (hupholds : w.ctx.solver.constraints = #[] → w.ctx.Upholds w'.ctx) : w.Ended r := by
  have hnone (hnone : w.ctx.solver.constraints = #[]) : w'.ctx.solver.constraints = #[] :=
    (hupholds hnone).constraints.trans hnone
  cases h with
  | refused h hquantified => exact .refused h (mt hnone hquantified)
  | refuted h => exact .refuted fun hq a ha => h (hnone hq) a (((hupholds hq).allows a).mpr ha)
  | answered h hstatus hupholds' =>
    exact .answered h hstatus fun hq => (hupholds' (hnone hq)).imp_right (hupholds hq).trans

namespace Work

/-- From between two steps, a search that is not stopped ends. More fuel makes no difference. -/
theorem steps_end (hp : p.validate = .ok ()) (w : Workspace) (h : w.Pursuing)
    (hrunning : w.ctx.interrupted = false) (n : Nat) :
    ∃ N r, (∀ fuel ≥ N, steps p .never fuel n w = r) ∧ w.Ended r := by
  -- the induction is on what is left to do
  induction heffort : w.ctx.effort using WellFoundedLT.induction generalizing w n with
  | _ effort ih =>
    subst heffort
    have hfuel {fuel N : Nat} (hle : fuel ≥ N + 1) : ∃ m, fuel = m + 1 ∧ m ≥ N :=
      ⟨fuel - 1, by omega, by omega⟩
    obtain ⟨hok, herror⟩ := pursues_step hp h .never n
    cases hrun : step p .never n w with
    | error e w' =>
      refine ⟨1, .error e w', fun fuel hle => ?_, .refused (herror e w' hrun).1
        (herror e w' hrun).2⟩
      obtain ⟨m, rfl, -⟩ := hfuel hle
      rw [steps, bind_of_error hrun]
    | ok status w' =>
      have hturns := hok status w' hrun
      have hover {status : Status} (hrun : step p .never n w = .ok (some status) w') :
          ∀ fuel ≥ 1, steps p .never fuel n w = .ok status w' := by
        intro fuel hle
        obtain ⟨m, rfl, -⟩ := hfuel hle
        rw [steps, bind_of_ok hrun]
        rfl
      cases hturns with
      | stopped hstop =>
        rcases hstop with hstop | hstop
        · exact absurd rfl hstop
        · rw [hrunning] at hstop
          cases hstop
      | refuted hno => exact ⟨1, .ok .unsat w', hover hrun, .refuted hno⟩
      | answered hcomplete hstatus hupholds =>
        exact ⟨1, _, hover hrun, .answered hcomplete hstatus hupholds⟩
      | on hpursuing hless hinterrupted hupholds =>
        obtain ⟨N, r, hN, hr⟩ := ih _ hless w' hpursuing (hinterrupted.trans hrunning) (n + 1) rfl
        refine ⟨N + 1, r, fun fuel hle => ?_, hr.before hupholds⟩
        obtain ⟨m, rfl, hm⟩ := hfuel hle
        rw [steps, bind_of_ok hrun]
        exact hN m hm

/-- A search starts unless the clauses are contradictory. -/
theorem pursues_startSearch (hw : w.Able)
    (hattached : w.ctx.now.Attached w.store) (h : w.ctx.core.state.Orderly)
    (hp : p.validate = .ok ()) :
    Ends (startSearch p) w (fun go w' => (go = true → w'.Pursuing ∧ w.ctx.Upholds w'.ctx) ∧
      (go = false → ∀ a, ¬ w.ctx.Allows a)) fun _ => False := by
  have hq := hw.tidy.ok.ctx.registry
  have hmaintains := maintains_startSearch hw p
  obtain ⟨-, hgo, hstop⟩ := Core.startSearch_spec h p
  have hends : Ends (startSearch p) w
    (fun go w' => (go = true → w'.ctx.Ongoing ∧ w.ctx.Upholds w'.ctx) ∧
      (go = false → ∀ a, ¬ w.ctx.Allows a)) fun _ => False := by
    refine ends_look_bind ?_
    split
    next hempty =>
      refine Ends.pure ⟨fun hgo => absurd hgo Bool.false_ne_true, fun _ a ha => ?_⟩
      rw [Core.isTriviallyUnsat, show w.ctx.core.emptyClause = none from ha.models.empty] at hempty
      cases hempty
    refine ends_update_bind (a := (w.ctx.core.startSearch p).1)
      (c := { w.ctx with core := (w.ctx.core.startSearch p).2 })
      rfl ?_
    cases hunits : (w.ctx.core.startSearch p).1 with
    | false => exact Ends.pure ⟨fun hgo => absurd hgo Bool.false_ne_true, fun _ a ha =>
      hstop hunits a ha.models⟩
    | true =>
      have hgoing := hgo hunits
      have hdb : (w.ctx.core.startSearch p).2.db = w.ctx.core.db := Core.db_startSearch _ p
      have hstarts : (w.ctx.core.startSearch p).2.state.starts = [] :=
        congrArg Array.toList (Core.levelStarts_assignUnits _)
      let c : Context := { w.ctx with
        core := (w.ctx.core.startSearch p).2
        registry := { w.ctx.registry with
          egraph := w.ctx.registry.egraph.startSearch, satellites :=
            #[.quant (w.ctx.solver.startSearch p)] } }
      have hsolver : c.solver = w.ctx.solver.startSearch p :=
        Theory.Registry.Has.solver (rfl : c.registry.Has (w.ctx.solver.startSearch p))
      have hongoing : c.Ongoing := ⟨hgoing, Core.paced_startSearch hp _, .startSearch hw.wf hstarts⟩
      have hupholds : w.ctx.Upholds c :=
        upholds_of_same (Core.live_startSearch _ p) (fun a ha => hdb ▸ ha.models)
          (fun a ha => hdb ▸ ha)
          (Egraph.sameNodes_startSearch _) (by rw [hsolver]; rfl) rfl rfl
      refine ends_update_bind (a := [])
        (c := c) (by dsimp only; rw [Theory.Registry.startSearch_eq hq]) ?_
      exact Ends.pure ⟨fun _ => ⟨hongoing, hupholds⟩, fun hstop =>
        absurd hstop.symm Bool.false_ne_true⟩
  refine Ends.mono (Ends.both hmaintains hends) (fun go w' hw' => ⟨fun hgo => ?_, hw'.2.2⟩) fun _ =>
    And.right
  obtain ⟨hongoing, hupholds⟩ := hw'.2.1 hgo
  exact ⟨hw.pursuing hattached hw'.1.1 hongoing, hupholds⟩

/-- A search that is not stopped ends. -/
theorem search_ends (hw : w.Able) (hattached : w.ctx.now.Attached w.store)
    (h : w.ctx.core.state.Orderly)
    (hp : p.validate = .ok ()) (hrunning : w.ctx.interrupted = false) :
    ∃ N r, (∀ fuel ≥ N, search p .never fuel w = r) ∧ w.Ended r := by
  have hstart := pursues_startSearch hw hattached h hp
  unfold search
  cases hrun : startSearch p w with
  | error e w₁ =>
    unfold Ends at hstart
    rw [hrun] at hstart
    exact hstart.elim
  | ok go w₁ =>
    obtain ⟨hgo, hno⟩ := hstart.of_ok hrun
    cases go with
    | false =>
      refine ⟨0, .ok .unsat w₁, fun fuel _ => ?_, .refuted fun _ => hno rfl⟩
      rw [bind_of_ok hrun]
      rfl
    | true =>
      obtain ⟨hpursuing, hupholds⟩ := hgo rfl
      obtain ⟨N, r, hN, hr⟩ := steps_end hp w₁ hpursuing (hupholds.interrupted.trans hrunning) 0
      refine ⟨N, r, fun fuel hle => ?_, hr.before fun _ => hupholds⟩
      rw [bind_of_ok hrun, if_pos rfl]
      exact hN fuel hle

end Work

namespace Workspace

/-- Where a check of a context in order starts. -/
theorem searchable_underway (h : UsedInOrder w) (hidle : w.ctx.status = .idle)
    (stop : StopRequest) :
    (w.underway stop).Able ∧ (w.underway stop).ctx.now.Attached w.store ∧
    (w.underway stop).ctx.Based := by
  have hattached := attached_of_used h.used
  have hcomposed := composed_of_used h.used
  refine ⟨(h.stocked.underway stop).able, ?_,
    (based_underway h.stocked.kempt.tidy.ok ⟨hcomposed.toInStep, hcomposed.idle hidle⟩ stop).2⟩
  unfold underway
  split
  · exact (hattached.openScope.settings _ _ _).now
  · exact (hattached.settings _ _ _).now

theorem constraints_underway (hw : w.Ok) (stop : StopRequest) :
    (w.underway stop).ctx.solver.constraints = w.ctx.solver.constraints := by
  unfold underway
  split
  · rw [openScope_eq hw.ctx]
    rfl
  · rfl

theorem interrupted_underway (w : Workspace) : (w.underway .never).ctx.interrupted = false := by
  unfold underway
  split <;> rfl

/-- The check of a context in order is a search that ends. -/
theorem check_ended (h : UsedInOrder w) (hidle : w.ctx.status = .idle) (hp : p.validate = .ok ()) :
    ∃ N r, (∀ fuel ≥ N, Work.search p .never fuel (w.underway .never) = r) ∧
    (w.underway .never).Ended r := by
  obtain ⟨hable, hattached, hbased⟩ := searchable_underway h hidle .never
  exact Work.search_ends hable hattached hbased.orderly hp (interrupted_underway w)

/-- A check that is not stopped ends, whatever its parameters, if they are valid: with enough fuel
it does not run out of it, and more makes no difference. Without quantifiers it tells whether there
is a model. -/
theorem check_ends (h : UsedInOrder w) (hidle : w.ctx.status = .idle) (hp : p.validate = .ok ()) :
    ∃ N r, (∀ fuel ≥ N, Work.checkSat p .never fuel w = r) ∧ (∀ w', r ≠ .error .outOfFuel w') ∧
      (w.ctx.solver.constraints = #[] → ∃ status w', r = .ok status w' ∧
        (status = .sat ∨ status = .unsat)) := by
  obtain ⟨N, r, hN, hr⟩ := check_ended h hidle hp
  have hconstraints := constraints_underway h.stocked.kempt.tidy.ok .never
  refine ⟨N, _, fun fuel hle => (checkSat_eq hidle hp .never fuel).trans (by rw [hN fuel hle]), ?_,
    fun hnone => ?_⟩
  · intro w' heq
    cases hr with
    | refused hlarge =>
      obtain ⟨n, rfl⟩ := hlarge
      cases heq
    | refuted | answered => cases heq
  · cases hr with
    | refused _ hquantified => exact absurd (hconstraints.trans hnone) hquantified
    | refuted => exact ⟨.unsat, _, rfl, .inr rfl⟩
    | answered _ _ hupholds => exact ⟨_, _, rfl, .inl (hupholds (hconstraints.trans hnone)).1⟩

/-- The check of a disjunction, whose search makes a decision, ends and tells whether there is a
model. -/
theorem check_ends_decision :
    let w := after ⟨.choice, .new {}⟩ [.assert [.ofIndex 4]]
    UsedInOrder w ∧ w.ctx.status = .idle ∧ ({} : Params).validate = .ok () ∧
      w.ctx.solver.constraints = #[] ∧
      (∃ w₁, Work.Searching {} .never (w.underway .never) 1 w₁ ∧ w₁.ctx.core.decisionLevel = 1) ∧
      ∃ N status w', (∀ fuel ≥ N, Work.checkSat {} .never fuel w = .ok status w') ∧
        (status = .sat ∨ status = .unsat) := by
  intro w
  have hused : UsedInOrder w := (UsedInOrder.new Store.reached_choice.intact {}).act _
  have heq : w = ⟨.choice, choosing .pushPop .choosing⟩ := Work.after_choice .pushPop
  have hidle : w.ctx.status = .idle := by
    rw [heq]
    rfl
  have hp : ({} : Params).validate = .ok () := by decide
  have hnone : w.ctx.solver.constraints = #[] := by
    rw [heq]
    rfl
  obtain ⟨-, -, w₁, hsearch, -, -, hlevel, -⟩ := Work.searching_choosing
    (s := .choice) (c := searching .never (choosing .pushPop .choosing))
    (nofun : StopRequest.never ≠ .atStep 0) rfl rfl rfl Egraph.conflict_empty.1
  rw [show (⟨.choice, searching .never (choosing .pushPop .choosing)⟩ : Workspace) =
    w.underway .never by rw [heq]; rfl] at hsearch
  obtain ⟨N, r, hN, -, hr⟩ := check_ends hused hidle hp
  obtain ⟨status, w', rfl, hstatus⟩ := hr hnone
  exact ⟨hused, hidle, hp, hnone, ⟨w₁, hsearch, hlevel⟩, N, status, w', hN, hstatus⟩

end Workspace

end Entail
