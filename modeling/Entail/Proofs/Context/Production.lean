import Entail.Proofs.Context.SupportedRuns
import Entail.Proofs.Quant.Production

/-!
# Instances of a check

New instances come about in one place: where a search lets the theories look at a complete
assignment. Everything else that is done to a context leaves the instances and the counters of the
quantifier solver alone, and registers positive formulas only. So the instances of a check are those
of its looks, one after the other.
-/

namespace Entail

open Workspace Context

namespace Workspace

variable {w w' w'' : Workspace} {new more : List Term} {q : Quant.Solver}

/-- The quantifier solver stays the only satellite, and what it has of new constraints are
positive formulas. -/
structure Registers (w w' : Workspace) : Prop where
  registry : w'.ctx.registry.Has w'.ctx.solver
  constraints : ∀ c ∈ w'.ctx.solver.constraints, c ∈ w.ctx.solver.constraints ∨
    c.formula.isNegated = false

theorem registers_frame :
    Frame (fun w : Workspace => w.ctx.registry.Has w.ctx.solver) Registers where
  refl h := ⟨h, fun _ => .inl⟩
  trans h h' := ⟨h'.registry, fun c hc => (h'.constraints c hc).elim (h.constraints c) .inr⟩
  stable _ h := h.registry

/-- Besides, the new instances are `new`. -/
structure Yields (w w' : Workspace) (new : List Term) : Prop extends Registers w w' where
  counts : w.ctx.solver.Counts w'.ctx.solver new

theorem Yields.trans (h : Yields w w' new) (h' : Yields w' w'' more) : Yields w w'' (new ++ more) :=
  ⟨registers_frame.trans h.toRegisters h'.toRegisters, h.counts.trans h'.counts⟩

/-- There are no new instances. -/
abbrev Quiet (w w' : Workspace) : Prop := Yields w w' []

theorem quiet_frame : Frame (fun w : Workspace => w.ctx.registry.Has w.ctx.solver) Quiet where
  refl h := ⟨registers_frame.refl h, .refl _⟩
  trans h h' := h.trans h'
  stable _ h := h.registry

theorem Quiet.yields (h : Quiet w w') (h' : Yields w' w'' new) : Yields w w'' new := h.trans h'

theorem Yields.quiet (h : Yields w w' new) (h' : Quiet w' w'') : Yields w w'' new := by
  have h := h.trans h'
  rwa [List.append_nil] at h

/-- A change of the context that leaves the satellites alone. -/
theorem quiet_of_satellites (hw : w.ctx.registry.Has w.ctx.solver)
    (h : w'.ctx.registry.satellites = w.ctx.registry.satellites) : Quiet w w' := by
  have hhas : w'.ctx.registry.Has w.ctx.solver := h.trans hw
  have hsolver : w'.ctx.solver = w.ctx.solver := hhas.solver
  refine ⟨⟨hsolver ▸ hhas, fun c hc => .inl (hsolver ▸ hc)⟩, ?_⟩
  rw [hsolver]
  exact .refl _

end Workspace

/-- An edit brings no instances. -/
theorem Edit.quiet {w w' : Workspace} (h : Edit w w') (hw : w.ctx.registry.Has w.ctx.solver) :
    w.Quiet w' := by
  cases h with
  | constrain s c hq hpos hadd =>
    rename_i q q' t patterns
    have hsolver : c.solver = q := Option.some.inj (hw.quant?.symm.trans hq)
    have hhas : (c.registry.setQuant q').Has q' := hw.setQuant q'
    have hsolver' : (c.registry.setQuant q').solver = q' := hhas.solver
    refine ⟨⟨?_, fun d hd => ?_⟩, ?_⟩
    · show (c.registry.setQuant q').Has (c.registry.setQuant q').solver
      rwa [hsolver']
    · change d ∈ (c.registry.setQuant q').solver.constraints at hd
      rw [hsolver'] at hd
      show d ∈ c.solver.constraints ∨ _
      rw [hsolver]
      refine (Quant.Solver.formula_addConstraint hadd d hd).imp_right fun heq => ?_
      rwa [heq]
    · show Quant.Solver.Counts c.solver (c.registry.setQuant q').solver []
      rw [hsolver', hsolver]
      exact Quant.Solver.counts_addConstraint hadd
  | _ => exact quiet_of_satellites hw rfl

theorem Edits.quiet {w w' : Workspace} (h : Edits w w') (hw : w.ctx.registry.Has w.ctx.solver) :
    w.Quiet w' := by
  induction h with
  | refl => exact quiet_frame.refl hw
  | tail _ hedit ih => exact quiet_frame.trans ih (hedit.quiet ih.registry)

namespace Work

variable {α β : Type} {w w' : Workspace}

/-- The operation brings no new instances, whether it is refused or not. -/
abbrev Quiets (op : Work α) : Prop :=
  Moves (fun w : Workspace => w.ctx.registry.Has w.ctx.solver) Quiet op

theorem quiets_of_edits {op : Work α} (h : Edits op) : Quiets op :=
  fun w hw => (h w trivial).quiet hw

theorem quiets_look (f : Store → Context → α) : Quiets (look f) := moves_look quiet_frame f

theorem quiets_change {f : Context → Context}
    (h : ∀ c : Context, c.registry.Has c.solver →
      (f c).registry.satellites = c.registry.satellites) :
    Quiets (change f) :=
  fun _ hw => quiet_of_satellites hw (h _ hw)

theorem quiets_update {f : Context → β × Context}
    (h : ∀ c : Context, c.registry.Has c.solver →
      (f c).2.registry.satellites = c.registry.satellites) :
    Quiets (update f) :=
  fun _ hw => quiet_of_satellites hw (h _ hw)

theorem satellites_backtrack {r : Theory.Registry} {q : Quant.Solver} (h : r.Has q) (level : Nat) :
    (r.backtrack level).satellites = r.satellites := by rw [Theory.Registry.backtrack_eq h]

/-! ## Steps of a search -/

theorem quiets_resolve (conflict : List Literal) : Quiets (resolve conflict) := by
  refine quiet_frame.bind (quiets_update fun _ _ => rfl) fun analysis => ?_
  cases analysis with
  | unsat => exact quiet_frame.pure _
  | stuck => exact quiet_frame.throw _
  | learnt level clause =>
    exact quiet_frame.bind (quiets_change fun _ h => satellites_backtrack h level) fun _ =>
      quiet_frame.pure _

theorem quiets_unlessStuck {op : Work Bool} (h : Quiets op) : Quiets (unlessStuck op) :=
  quiet_frame.bind h fun _ => quiet_frame.pure _

theorem quiets_propagate : Quiets propagate := by
  refine quiet_frame.bind (quiets_update fun _ _ => rfl) fun conflict => ?_
  split
  · exact quiet_frame.pure _
  · refine quiets_update fun c h => ?_
    rw [Theory.Registry.propagate_eq h]

/-- Up to the point at which the assignment is complete there are no new instances. -/
theorem quiets_approach (p : Params) (stop : StopRequest) (n : Nat) :
    Quiets (approach p stop n) := by
  refine quiet_frame.bind (quiets_change fun c _ => ?_) fun _ =>
    quiet_frame.bind (quiets_look _) fun interrupted => ?_
  · split <;> rfl
  split
  · exact quiet_frame.pure _
  refine quiet_frame.bind quiets_propagate fun conflict => ?_
  split
  · exact quiet_frame.map _ (quiets_unlessStuck (quiets_resolve _))
  refine quiet_frame.bind (quiets_look _) fun restart => ?_
  split
  · exact quiet_frame.bind (quiets_change fun _ h => satellites_backtrack h 0) fun _ =>
      quiet_frame.pure _
  refine quiet_frame.bind (quiets_update fun _ _ => rfl) fun branch => ?_
  split
  · refine quiet_frame.bind (quiets_change fun c h => ?_) fun _ => quiet_frame.pure _
    rw [Theory.Registry.openLevel_eq h]
  · exact quiet_frame.pure _

theorem quiets_assertInstances (formulas : List Term) : Quiets (assertInstances formulas) := by
  refine quiet_frame.bind (quiets_change fun _ h => satellites_backtrack h 0) fun _ => ?_
  refine quiet_frame.bind (quiet_frame.forM formulas fun t _ => quiets_of_edits (edits_process t))
    fun _ => ?_
  exact quiet_frame.bind (quiets_change fun _ _ => rfl) fun _ => quiets_look _

/-- What comes after a look of the theories. -/
def respond (outcome : FinalCheck) (out : Theory.Output) : Work (Option Status) := do
  if ← look fun _ c => c.interrupted then return some .interrupted
  match out.conflict with
  | some conflict => unlessStuck (resolve conflict)
  | none =>
    if outcome = .continue && !out.formulas.isEmpty then unlessStuck (assertInstances out.formulas)
    else if outcome = .incomplete then return some .unknown
    else look fun _ c => some (if c.registry.isComplete then .sat else .unknown)

theorem conclude_eq (stop : StopRequest) (n : Nat) :
    conclude stop n = finalCheck stop n >>= fun x => respond x.1 x.2 := rfl

theorem quiets_respond (outcome : FinalCheck) (out : Theory.Output) :
    Quiets (respond outcome out) := by
  refine quiet_frame.bind (quiets_look _) fun interrupted => ?_
  split
  · exact quiet_frame.pure _
  · split
    · exact quiets_unlessStuck (quiets_resolve _)
    · split
      · exact quiets_unlessStuck (quiets_assertInstances _)
      · split
        · exact quiet_frame.pure _
        · exact quiets_look _

/-- A step that answers ends before the assignment is complete, or lets the theories look at it
and responds. -/
theorem step_cases {p : Params} {stop : StopRequest} {n : Nat} {status : Option Status}
    (h : step p stop n w = .ok status w') :
    approach p stop n w = .ok (some status) w' ∨ ∃ w₁ x w₂, approach p stop n w = .ok none w₁ ∧
      finalCheck stop n w₁ = .ok x w₂ ∧ respond x.1 x.2 w₂ = .ok status w' := by
  rw [step_eq] at h
  obtain ⟨outcome, w₁, happroach, h⟩ := bind_eq_ok.mp h
  cases outcome with
  | some status' =>
    cases h
    exact .inl happroach
  | none =>
    obtain ⟨x, w₂, hfinal, h⟩ := bind_eq_ok.mp h
    exact .inr ⟨w₁, x, w₂, happroach, hfinal, h⟩

/-- A look of the theories is one of the quantifier solver, and leaves the rest of the
context alone. -/
theorem finalCheck_eq_ok (hw : w.ctx.registry.Has w.ctx.solver) {stop : StopRequest} {n : Nat}
    {x : FinalCheck × Theory.Output} (h : finalCheck stop n w = .ok x w') :
    w.ctx.solver.finalCheck (some w.ctx.registry.egraph) w.store =
      ((x.1, x.2.formulas, w'.ctx.solver), w'.store) ∧
      w'.ctx.registry.Has w'.ctx.solver ∧ x.2.conflict = none ∧
      ∃ interrupted, w'.ctx = { w.ctx with registry := w'.ctx.registry, interrupted } ∧
        w'.ctx.registry.egraph = w.ctx.registry.egraph := by
  unfold finalCheck at h
  dsimp only at h
  rw [Theory.Registry.finalCheck_eq hw w.store] at h
  dsimp only at h
  have hjoin (o : FinalCheck) : FinalCheck.done.join o = o := by cases o <;> rfl
  rw [hjoin] at h
  generalize hx : w.ctx.solver.finalCheck (some w.ctx.registry.egraph) w.store = y at h
  obtain ⟨⟨outcome, formulas, q⟩, s⟩ := y
  have hhas : Theory.Registry.Has { w.ctx.registry with satellites := #[.quant q] } q := rfl
  have hlook : ((outcome, formulas, q), s) =
      ((outcome, formulas, Theory.Registry.solver
        { w.ctx.registry with satellites := #[.quant q] }), s) := by
    rw [hhas.solver]
  split at h
  all_goals
    cases h
    exact ⟨hlook, (congrArg (Theory.Registry.Has _) hhas.solver).mpr hhas, rfl, _, rfl, rfl⟩

/-- A search that goes on has started the core and the theories, and asserted nothing; one that does
not has done nothing to the theories. -/
theorem startSearch_ends (hw : w.ctx.registry.Has w.ctx.solver) (p : Params) :
    Ends (startSearch p) w (fun go w' => (go = false → Quiet w w') ∧
      (go = true → w' = ⟨w.store, { w.ctx with
      core := (w.ctx.core.startSearch p).2, registry := (w.ctx.registry.startSearch p).2 }⟩))
        fun _ => False := by
  have hnone : (w.ctx.registry.startSearch p).1.formulas = [] := by
    rw [Theory.Registry.startSearch_eq hw]
  unfold startSearch
  refine ends_look_bind ?_
  split
  · exact Ends.pure ⟨fun _ => quiet_frame.refl hw, nofun⟩
  refine ends_update_bind (a := (w.ctx.core.startSearch p).1)
    (c := { w.ctx with core := (w.ctx.core.startSearch p).2 }) rfl ?_
  split
  · exact Ends.pure ⟨fun _ => quiet_of_satellites hw rfl, nofun⟩
  refine ends_update_bind (a := (w.ctx.registry.startSearch p).1.formulas) rfl ?_
  rw [hnone]
  exact Ends.pure ⟨nofun, fun _ => rfl⟩

/-! ## New constraints -/

/-- The operation registers positive formulas only, whether it is refused or not. -/
abbrev Affirms (op : Work α) : Prop :=
  Moves (fun w : Workspace => w.ctx.registry.Has w.ctx.solver) Registers op

theorem Quiets.affirms {op : Work α} (h : Quiets op) : Affirms op :=
  fun w hw => (h w hw).toRegisters

theorem affirms_finalCheck (stop : StopRequest) (n : Nat) : Affirms (finalCheck stop n) := by
  intro w hw
  cases hfinal : finalCheck stop n w with
  | ok x w' =>
    obtain ⟨hlook, hhas, -⟩ := finalCheck_eq_ok hw hfinal
    refine ⟨hhas, fun c hc => .inl ?_⟩
    have hsame := Quant.Solver.constraints_finalCheck w.ctx.solver
      (some w.ctx.registry.egraph) w.store
    rw [hlook] at hsame
    exact hsame ▸ hc
  | error e w' => cases hfinal

theorem affirms_startSearch (p : Params) : Affirms (startSearch p) := by
  intro w hw
  have hends := startSearch_ends hw p
  cases hstart : startSearch p w with
  | ok go w' =>
    obtain ⟨hquiet, hgo⟩ := hends.of_ok hstart
    cases go with
    | false => exact (hquiet rfl).toRegisters
    | true =>
      have hnew : w'.ctx.registry.Has (w.ctx.solver.startSearch p) := by
        rw [hgo rfl]
        show (w.ctx.registry.startSearch p).2.Has _
        rw [Theory.Registry.startSearch_eq hw]
        rfl
      have hsolver : w'.ctx.solver = w.ctx.solver.startSearch p := hnew.solver
      exact ⟨hsolver ▸ hnew, fun c hc => .inl (show c ∈ (w.ctx.solver.startSearch p).constraints
        from hsolver ▸ hc)⟩
  | error e w' =>
    unfold Ends at hends
    rw [hstart] at hends
    exact hends.elim

theorem affirms_step (p : Params) (stop : StopRequest) (n : Nat) : Affirms (step p stop n) := by
  rw [step_eq]
  refine registers_frame.bind (quiets_approach p stop n).affirms fun outcome => ?_
  cases outcome with
  | some status => exact registers_frame.pure _
  | none => exact registers_frame.bind (affirms_finalCheck stop n) fun x =>
    (quiets_respond x.1 x.2).affirms

theorem affirms_search (p : Params) (stop : StopRequest) (fuel : Nat) :
    Affirms (search p stop fuel) := by
  refine registers_frame.bind (affirms_startSearch p) fun go => ?_
  split
  · generalize 0 = n
    induction fuel generalizing n with
    | zero => exact registers_frame.throw _
    | succ fuel ih =>
      refine registers_frame.bind (affirms_step p stop n) fun status => ?_
      split
      · exact registers_frame.pure _
      · exact ih (n + 1)
  · exact registers_frame.pure _

end Work

namespace Workspace

variable {w w' : Workspace} {p : Params} {stop : StopRequest} {n : Nat} {base : List Term}

/-- In a check that started with the instances `base`, the counter and the bounds are those
of the check. -/
structure Budgeted (p : Params) (base : List Term) (w : Workspace) : Prop where
  bounds : w.ctx.solver.maxInstances = p.maxInstances ∧
    w.ctx.solver.maxTotalInstances = p.maxTotalInstances
  log : ∃ earlier, w.ctx.solver.log.toList = base ++ earlier ∧
    w.ctx.solver.checkInstances = earlier.length
  within : w.ctx.solver.checkInstances ≤ p.maxTotalInstances

theorem Budgeted.yields {new : List Term} (h : Budgeted p base w) (hy : Yields w w' new)
    (hwithin : new ≠ [] → w'.ctx.solver.checkInstances ≤ w.ctx.solver.maxTotalInstances) :
    Budgeted p base w' where
  bounds := ⟨hy.counts.bounds.1.trans h.bounds.1, hy.counts.bounds.2.trans h.bounds.2⟩
  log := by
    obtain ⟨earlier, hlog, hcheck⟩ := h.log
    refine ⟨earlier ++ new, ?_, ?_⟩
    · rw [hy.counts.log, hlog, List.append_assoc]
    · rw [hy.counts.check, hcheck, List.length_append]
  within := by
    by_cases hnew : new = []
    · have hcheck := hy.counts.check
      rw [hnew, List.length_nil, Nat.add_zero] at hcheck
      rw [hcheck]
      exact h.within
    · exact h.bounds.2 ▸ hwithin hnew

/-- A look of the theories goes through the matches of all constraints. -/
theorem looks_of_finalCheck (hw : w.Tidy) {x : FinalCheck × Theory.Output}
    (h : Work.finalCheck stop n w = .ok x w') :
    let g := w.ctx.registry.egraph
    let q := w.ctx.solver
    Yields w w' x.2.formulas ∧ Quant.Solver.Stretch g
        (fun c b => c ∈ q.constraints ∧ c.patterns ≠ [] ∧ b ∈ q.bindings g w.store c) w.store
          w'.store ⟨q, #[]⟩
        ⟨w'.ctx.solver, x.2.formulas.toArray⟩ x.2.formulas ∧
      (x.1 = .continue ↔ x.2.formulas ≠ []) ∧
      (x.1 = .done ↔ x.2.formulas = [] ∧
        (q.constraints = #[] ∨ q.checkInstances < q.maxTotalInstances)) := by
  obtain ⟨hlook, hhas, -⟩ := Work.finalCheck_eq_ok hw.ok.ctx.registry h
  obtain ⟨hstretch, houtcome⟩ := Quant.Solver.finalCheck_stretch hw.ok.store hw.typed.solver hlook
  refine ⟨⟨⟨hhas, fun c hc => .inl ?_⟩, hstretch.gains.toCounts⟩, hstretch, houtcome⟩
  rwa [← hstretch.gains.constraints]

theorem Budgeted.start {q : Quant.Solver} (h : w.ctx.solver = q.startSearch p) :
    Budgeted p q.log.toList w where
  bounds := by
    rw [h]
    exact ⟨rfl, rfl⟩
  log := by
    rw [h]
    exact ⟨[], (List.append_nil _).symm, rfl⟩
  within := by
    rw [h]
    exact Nat.zero_le _

theorem Budgeted.quiet (h : Budgeted p base w) (hq : Quiet w w') : Budgeted p base w' :=
  h.yields hq fun hnew => absurd rfl hnew

/-- What leaves the instances alone does so when it answers. -/
theorem quiet_of_ok {α : Type} {op : Work α} {a : α} (hop : Work.Quiets op) (hw : w.Able)
    (h : op w = .ok a w') :
    Quiet w w' := by
  have hquiet := hop w hw.tidy.ok.ctx.registry
  rwa [h] at hquiet

/-- Between two steps of a search, and when the assignment is complete, the counter and the bounds
are those of the check. -/
theorem budgeted_of_searching (h : Work.Searching p stop w n w') (hw : w.Able) :
    Budgeted p w.ctx.solver.log.toList w' := by
  induction h with
  | start h =>
    have hhas := hw.tidy.ok.ctx.registry
    rw [((Work.startSearch_ends hhas p).of_ok h).2 rfl]
    have hnew : Theory.Registry.Has { w.ctx.registry with
      egraph := w.ctx.registry.egraph.startSearch, satellites :=
        #[.quant (w.ctx.solver.startSearch p)] }
        (w.ctx.solver.startSearch p) := rfl
    refine .start ?_
    show Theory.Registry.solver (w.ctx.registry.startSearch p).2 = w.ctx.solver.startSearch p
    rw [Theory.Registry.startSearch_eq hhas]
    exact hnew.solver
  | step hsearch hstep ih =>
    have hable := able_of_searching hsearch hw
    rcases Work.step_cases hstep with happroach | ⟨w₁, x, w₂, happroach, hfinal, hrespond⟩
    · exact ih.quiet (quiet_of_ok (Work.quiets_approach p stop _) hable happroach)
    · have hable₁ := maintains_frame.stable hable
        ((Work.maintains_approach hable p stop _).of_ok happroach).1
      have hable₂ := maintains_frame.stable hable₁
        ((Work.maintains_finalCheck hable₁ stop _).of_ok hfinal).1
      obtain ⟨hyields, hstretch, -⟩ := looks_of_finalCheck hable₁.tidy hfinal
      have h₁ := ih.quiet (quiet_of_ok (Work.quiets_approach p stop _) hable happroach)
      exact (h₁.yields hyields fun hnew => (hstretch.within hnew).2).quiet
        (quiet_of_ok (Work.quiets_respond x.1 x.2) hable₂ hrespond)

/-! ## Constraints between operations -/

/-- A stocked context whose constraints are quantifiers, not negations of them. -/
structure Affirmed (w : Workspace) : Prop where
  stocked : w.Stocked
  positive : ∀ c ∈ w.ctx.solver.constraints, c.formula.isNegated = false

theorem Affirmed.registers (h : w.Affirmed) (hw' : w'.Stocked) (hr : Registers w w') :
    w'.Affirmed :=
  ⟨hw', fun c hc => (hr.constraints c hc).elim (h.positive c) id⟩

theorem Stocked.has (h : w.Stocked) : w.ctx.registry.Has w.ctx.solver :=
  h.kempt.tidy.ok.ctx.registry

theorem positive_of_searching (h : Work.Searching p stop w n w') (hw : w.Affirmed) :
    ∀ c ∈ w'.ctx.solver.constraints, c.formula.isNegated = false := by
  have hregisters : Registers w w' := by
    induction h with
    | start h =>
      have hstart := Work.affirms_startSearch p w hw.stocked.has
      rwa [h] at hstart
    | @step m _ _ _ hstep ih =>
      have hr := Work.affirms_step p stop m _ ih.registry
      rw [hstep] at hr
      exact registers_frame.trans ih hr
  exact fun c hc => (hregisters.constraints c hc).elim (hw.positive c) id

/-- What asserting leaves of a workspace brings no instances. -/
theorem quiet_of_asserts (h : Work.Asserts w w') (hw : w.ctx.registry.Has w.ctx.solver) :
    Quiet w w' := by
  have hreopen : Quiet w ⟨w.store, w.ctx.reopen⟩ := by
    refine quiet_of_satellites hw ?_
    unfold Context.reopen
    split
    · exact Work.satellites_backtrack hw 0
    · rfl
  cases h with
  | ignored => exact quiet_frame.refl hw
  | refused hedits => exact quiet_frame.trans hreopen (hedits.quiet hreopen.registry)
  | settled hedits =>
    have hquiet := quiet_frame.trans hreopen (hedits.quiet hreopen.registry)
    exact quiet_frame.trans hquiet (quiet_of_satellites hquiet.registry rfl)

/-- Every operation registers positive formulas only, whether it is refused or not. -/
theorem lasting_affirmed : Lasting Affirmed where
  ok h := lasting_stocked.ok h.stocked
  settings h options status interrupted :=
    ⟨lasting_stocked.settings h.stocked options status interrupted, h.positive⟩
  clearSearch h :=
    h.registers (lasting_stocked.clearSearch h.stocked)
      (quiet_of_satellites h.stocked.has (Work.satellites_backtrack h.stocked.has 0)).toRegisters
  openScope {w} h := by
    refine ⟨h.stocked.openScope, ?_⟩
    rw [openScope_eq h.stocked.kempt.tidy.ok.ctx]
    exact h.positive
  commit {w} h hs := by
    refine ⟨h.stocked.commit hs, fun c hc => h.positive c ?_⟩
    have hhas := h.stocked.has
    unfold Context.commit at hc
    split at hc
    · exact hc
    · rw [Theory.Registry.mergeScope_eq hhas] at hc
      exact hc
  rollback h hs :=
    ⟨h.stocked.rollback hs, fun c hc =>
      h.positive c ((shrinks_rollback h.stocked.kempt.tidy.ok).constraints c hc)⟩
  exclude h :=
    h.registers (lasting_stocked.exclude h.stocked)
      (quiet_of_satellites h.stocked.has (Work.satellites_backtrack h.stocked.has 0)).toRegisters
  reset h := ⟨lasting_stocked.reset h.stocked, fun c hc => absurd hc (Array.not_mem_empty c)⟩
  assertAll h ts :=
    h.registers (lasting_stocked.assertAll h.stocked ts)
      (quiet_of_asserts (Work.asserts_assertAll ts _) h.stocked.has).toRegisters
  assertQuantifier h formula patterns :=
    h.registers (lasting_stocked.assertQuantifier h.stocked formula patterns)
      (quiet_of_asserts (Work.asserts_assertQuantifier formula patterns _)
        h.stocked.has).toRegisters
  search h p stop fuel :=
    h.registers (lasting_stocked.search h.stocked p stop fuel)
      (Work.affirms_search p stop fuel _ h.stocked.has)

end Workspace

/-- However a context was used, its constraints are quantifiers. -/
theorem UsedInOrder.affirmed (h : UsedInOrder w) : w.Affirmed := by
  obtain ⟨s, config, hs, hrun⟩ := h
  induction hrun with
  | refl => exact ⟨stocked_new hs.wf hs.regular config, fun c hc =>
    absurd hc (Array.not_mem_empty c)⟩
  | tail hrun hturn ih =>
    refine ⟨UsedInOrder.stocked ⟨s, config, hs, hrun.tail hturn⟩, ?_⟩
    cases hturn.1 with
    | act a => exact (lasting_affirmed.run a ih).positive
    | store => exact ih.positive

/-! ## A predicate that holds of everything -/

namespace Quant

/-- The store of a predicate, with the formula that it holds of everything. -/
def universal : Store := endState (Store.all [.ofIndex 4] (.ofIndex 6) unary)

theorem reached_universal : Store.Reached universal :=
  reached_unary.build (.all [.ofIndex 4] (.ofIndex 6))

theorem slots_universal : universal.terms.slots =
    #[none, some (.truth, .bool), some (.uninterpreted ⟨2⟩ 0, ⟨2⟩),
      some (.uninterpreted ⟨1⟩ 1, ⟨1⟩), some (.var ⟨1⟩ 2, ⟨1⟩),
      some (.app (.ofIndex 2) [.ofIndex 3], .bool), some (.app (.ofIndex 2) [.ofIndex 4], .bool),
      some (.all [.ofIndex 4] (.ofIndex 6), .bool)] := by
  cbv

/-- The formula as a constraint; its pattern is the application to the variable. -/
def universalConstraint : Constraint := ⟨.ofIndex 7, [.ofIndex 4], .ofIndex 6, [0]⟩

/-- The solver with that constraint. -/
def universalSolver : Solver where
  constraints := #[universalConstraint]
  patterns := ⟨#[⟨.ofIndex 6, .ofIndex 2, [.ofIndex 4]⟩],
    (∅ : Std.HashMap Term Nat).insert (.ofIndex 6) 0⟩

/-- The nodes of the predicate applied to the constant, which is the atom of variable 2. -/
def universalNodes : Egraph where
  nodes := #[⟨.top, .bool, none, []⟩, ⟨.bot, .bool, none, []⟩, ⟨.ofIndex 3, ⟨1⟩, none, []⟩,
    ⟨.ofIndex 5, .bool, some (.ofIndex 2), [2]⟩]
  nodeOf := ((((∅ : Std.HashMap Term Nat).insert .top 0).insert .bot 1).insert
    (.ofIndex 3) 2).insert
    (.ofIndex 5) 3
  apps := (∅ : Std.HashMap Term (Array Nat)).insert (.ofIndex 2) #[3]
  atoms := (∅ : Std.HashMap Nat Egraph.Atom).insert 2 (.pred 3)
  atomLog := #[2]

end Quant

open Quant

namespace Context

/-- A context in which the quantified formula was asserted. -/
def quantified (core : Core) : Context :=
  { plain .pushPop core with
    registry := ⟨.empty, #[.quant universalSolver], #[]⟩, assertions := #[.ofIndex 7] }

/-- A context in which it was asserted and, after it, that the predicate holds of the constant. -/
def applied (core : Core) : Context where
  config := { mode := .pushPop }
  options := {}
  vars := ⟨⟨#[none, some (.top, ()), some (.ofIndex 5, ())],
    ((∅ : Std.HashMap Term Nat).insert .top 1).insert (.ofIndex 5) 2, []⟩, 1, #[]⟩
  core
  registry := ⟨universalNodes, #[.quant universalSolver], #[]⟩
  assertions := #[.ofIndex 7, .ofIndex 5]
  lits := (∅ : Std.HashMap Term Literal).insert (.ofIndex 5) (.pos 2)
  cacheLog := #[.literal (.ofIndex 5)]
  created := #[1, 2]
  trueLit := .pos 1

/-- The same in a scope that was opened then. -/
def opened (core : Core) : Context :=
  { applied core with
    registry := ⟨universalNodes.push, #[.quant universalSolver.push], #[]⟩
    scopes := [⟨2, 0, 1, 2⟩] }

end Context

namespace Work

set_option maxRecDepth 3000 in
/-- The quantified formula is supported, and the application to the variable is its pattern. So is
the application to the constant, which is a new atom. -/
theorem universal_spec (core : Core) :
    (plain .pushPop core).validate universal (.ofIndex 7) = .ok () ∧
    ({} : Solver).addConstraint universal (.ofIndex 7) [] = .ok universalSolver ∧
    (quantified core).validate universal (.ofIndex 5) = .ok () ∧
    literalOf (.ofIndex 5) ⟨universal, (quantified core).note (.ofIndex 5)⟩ =
      .ok (.pos 2) ⟨universal, { applied core with
        vars := { (applied core).vars with heard := #[⟨0, 2, .ofIndex 5⟩] }, created :=
  #[1] }⟩ := by
  unfold quantified plain
  rw [Egraph.empty_eq]
  refine ⟨?_, ?_, ?_, ?_⟩ <;> cbv

set_option maxRecDepth 3000 in
/-- The quantified formula is registered with the application to the variable as its pattern. -/
theorem assertQuantifier_universal :
    assertQuantifier (.ofIndex 7) [] ⟨universal, plain .pushPop .initial⟩ =
      .ok () ⟨universal, quantified .initial⟩ := by
  obtain ⟨hvalid, hadd, -, -⟩ := universal_spec .initial
  have hall : (universal.shape (.ofIndex 7)).isQuantifier = true := by
    rw [Store.shape_of_slots slots_universal]
    rfl
  exact assertQuantifier_eq_ok (w := ⟨universal, plain .pushPop .initial⟩) rfl hvalid rfl hall
    Std.HashMap.isEmpty_empty rfl hadd rfl
    (by with_unfolding_all rfl : Core.initial.hasRootConflict = false)

set_option maxRecDepth 3000 in
/-- The application to the constant becomes a unit. -/
theorem assertAll_application :
    assertAll [.ofIndex 5] ⟨universal, quantified .initial⟩ =
      .ok () ⟨universal, applied .doubled⟩ := by
  obtain ⟨-, -, hvalid, hliteral⟩ := universal_spec .initial
  have hshape : universal.shape (.ofIndex 5) = .app (.ofIndex 2) [.ofIndex 3] :=
    Store.shape_of_slots slots_universal _
  have hprocess := process_app (w := ⟨universal, (quantified .initial).note (.ofIndex 5)⟩)
    Std.HashMap.isEmpty_empty (by decide) (by decide) hshape hliteral
  have hsync : Context.syncVars (Context.addClause [.pos 2] { applied .initial with
      vars := { (applied .initial).vars with heard := #[⟨0, 2, .ofIndex 5⟩] }
      created := #[1] }) = applied .doubled := by
    rw [syncVars_eq [⟨0, 2, .ofIndex 5⟩] rfl]
    simp only [Context.addClause, applied, Context.depth, List.length_nil, List.foldl_cons,
      List.foldl_nil]
    rfl
  have hassert := assert_eq (w := ⟨universal, quantified .initial⟩) rfl hvalid hprocess (by
    rw [hsync]
    exact Core.doubled_spec.1)
  rwa [hsync] at hassert

/-- A scope is opened. -/
theorem push_universal : replace (·.push) ⟨universal, applied .doubled⟩ =
    .ok () ⟨universal, opened .doubled⟩ := by
  have hregistry : (applied .doubled).registry.push =
      ⟨universalNodes.push, #[.quant universalSolver.push], #[]⟩ :=
    Theory.Registry.push_eq (q := universalSolver) rfl
  have hpush : (applied .doubled).push = .ok (opened .doubled) := by
    show Except.ok (applied .doubled).openScope = _
    unfold openScope
    rw [syncVars_eq_self rfl]
    dsimp only
    rw [hregistry]
    rfl
  unfold replace
  simp only [hpush]

/-- Both are asserted, and then a scope is opened. -/
theorem after_universal : after ⟨universal, .new {}⟩
    [.assertQuantifier (.ofIndex 7) [], .assert [.ofIndex 5], .push] =
      ⟨universal, opened .doubled⟩ := by
  simp only [after, List.foldl_cons, List.foldl_nil, Action.run, new_eq,
    assertQuantifier_universal]
  show endState (replace (·.push)
    (endState (assertAll [.ofIndex 5] ⟨universal, quantified .initial⟩))) = _
  rw [assertAll_application]
  exact congrArg endState push_universal

end Work

namespace Quant

/-- The classes of the assignment in which both variables are true. -/
def universalClasses : Egraph := (universalNodes.push.startSearch.propagate #[.pos 1, .pos 2]).2

/-- The e-graph has no objection to it, and no node is added. -/
theorem classes_universal :
    (universalNodes.push.startSearch.propagate #[.pos 1, .pos 2]).1.conflict = none ∧
    universalClasses.nodes = universalNodes.nodes := by
  constructor <;> cbv

/-- The pattern matches the node of the application to the constant. The match says to put the
constant for the variable, and the instance is the application, which the store has already. -/
theorem match_universal (q : Solver) (hq : q.patterns = universalSolver.patterns) :
    q.bindings universalClasses universal universalConstraint = [[some 2]] ∧
    Solver.replacement? universalClasses [.ofIndex 4] [some 2] =
      some ((∅ : Subst).insert (.ofIndex 4) (.ofIndex 3)) ∧
    Store.subst ((∅ : Subst).insert (.ofIndex 4) (.ofIndex 3)) (.ofIndex 6) universal =
      .ok (.ofIndex 5) universal := by
  refine ⟨?_, ?_, ?_⟩
  · unfold Solver.bindings
    rw [hq]
    cbv
  · cbv
  · rw [Store.subst_of_nonempty Std.HashMap.isEmpty_insert]
    cbv

/-- A look with the constraint produces the instance unless it was produced before. -/
theorem finalCheck_universal {q : Solver} (hc : q.constraints = #[universalConstraint])
    (hq : q.patterns = universalSolver.patterns)
    (hbudget : (⟨q, #[]⟩ : Solver.Round).hasBudget = true) :
    q.finalCheck (some universalClasses) universal = if .ofIndex 5 ∈
      q.instances then ((.done, [], q), universal)
      else ((.continue, [.ofIndex 5], (Solver.Round.add ⟨q, #[]⟩ (.ofIndex 5)).solver),
        universal) := by
  obtain ⟨hbindings, hreplacement, hsubst⟩ := match_universal q hq
  have hlook := Solver.finalCheck_one hc (by decide) hbindings hbudget hreplacement hsubst
  rw [hlook]
  have hne : Term.ofIndex 5 ≠ .top := by decide
  simp only [hne, false_or]

/-- The formula and the terms of the nodes have constants as heads. -/
theorem firstOrder_universal : universal.FirstOrder [] (.ofIndex 7) ∧
    ∀ m ∈ universalClasses.nodes, universal.FirstOrder [] m.term := by
  have hnode := Store.node?_of_slots slots_universal
  have hhead (vs : List Term) : universal.FirstOrder vs (.ofIndex 2) :=
    .node (hnode _) rfl rfl trivial nofun
  have happlied {vs : List Term} {t a : Term}
    (ht : universal.node? t = some (.app (.ofIndex 2) [a], .bool))
      (ha : universal.FirstOrder vs a) : universal.FirstOrder vs t := by
    refine .node ht rfl rfl ?_ fun c hc => ?_
    · show (universal.shape (.ofIndex 2)).isUninterpreted = true
      rw [Store.shape_of_slots slots_universal]
      rfl
    rcases List.mem_cons.mp hc with rfl | hc
    · exact hhead vs
    · exact List.mem_singleton.mp hc ▸ ha
  have hconst : universal.FirstOrder [] (.ofIndex 3) :=
    .node (hnode _) rfl rfl trivial nofun
  have hvar : universal.FirstOrder [.ofIndex 4] (.ofIndex 4) :=
    .var (hnode _) (by decide)
  have htruth {t : Term} (ht : universal.node? t = some (.truth, .bool)) :
      universal.FirstOrder [] t := .node ht rfl rfl trivial nofun
  refine ⟨.all (hnode _) (happlied (hnode _) hvar), ?_⟩
  rw [classes_universal.2]
  intro m hm
  simp only [universalNodes, List.mem_toArray, List.mem_cons, List.not_mem_nil, or_false] at hm
  rcases hm with rfl | rfl | rfl | rfl
  · exact htruth (hnode _)
  · exact htruth (hnode _)
  · exact hconst
  · exact happlied (hnode _) hconst

end Quant

namespace Context

/-- The context in a search, with the given core, e-graph and solver. -/
def sought (core : Core) (g : Egraph) (q : Solver) : Context :=
  { opened core with status := .searching, registry := ⟨g, #[.quant q], #[]⟩ }

/-- The solver is the given one. -/
theorem solver_sought (core : Core) (g : Egraph) (q : Solver) : (sought core g q).solver = q :=
  Theory.Registry.Has.solver (rfl : (⟨g, #[.quant q], #[]⟩ : Theory.Registry).Has q)

end Context

namespace Work

variable (core : Core) {g : Egraph} {q : Solver} {n : Nat}

/-- A search starts in the scope. -/
theorem startSearch_universal :
    startSearch {} (Workspace.underway ⟨universal, opened .doubled⟩ .never) = .ok true ⟨universal,
      sought (Core.doubled.startSearch {}).2 universalNodes.push.startSearch
        (universalSolver.push.startSearch {})⟩ := by
  obtain ⟨-, hempty, hstarted, -⟩ := Core.doubled_spec
  have hstart := startSearch_of_started (p := {})
    (w := ⟨universal, searching .never (opened .doubled)⟩) rfl hempty hstarted
  exact hstart

/-- With both variables true the assignment is complete. -/
theorem approach_sought (hcore : core.propagate.1 = none)
    (htrail : core.propagate.2.trail = #[.pos 1, .pos 2])
    (hg : (g.propagate #[.pos 1, .pos 2]).1.conflict = none)
    (hrestart : core.propagate.2.shouldRestart = false)
    (hclosed : (List.range core.propagate.2.vars.size).all
      (fun v => !core.propagate.2.isOpen v) = true) :
    ∃ order, approach {} .never n ⟨universal, sought core g q⟩ = .ok none ⟨universal,
      sought { core.propagate.2 with order } (g.propagate #[.pos 1, .pos 2]).2 q⟩ := by
  obtain ⟨order, happroach⟩ := approach_of_complete (p := {}) (n := n)
    (w := ⟨universal, sought core g q⟩) (nofun : StopRequest.never ≠ .atStep n) rfl hcore rfl
    ((congrArg (fun trail => (g.propagate trail).1.conflict) htrail).trans hg) hrestart hclosed
  exact ⟨order, happroach.trans (congrArg (fun trail => EStateM.Result.ok none (⟨universal,
    sought { core.propagate.2 with order } (g.propagate trail).2 q⟩ : Workspace)) htrail)⟩

/-- The units are propagated, and the assignment is complete at once. -/
theorem approach_universal : ∃ order, approach {} .never 0 ⟨universal,
      sought (Core.doubled.startSearch {}).2 universalNodes.push.startSearch
        (universalSolver.push.startSearch {})⟩ = .ok none ⟨universal,
      sought (.known order) universalClasses (universalSolver.push.startSearch {})⟩ := by
  obtain ⟨-, -, -, hforced⟩ := Core.doubled_spec
  obtain ⟨htrail, -, -, hrestart, hclosed⟩ := Core.forced_spec
  exact approach_sought _ hforced htrail classes_universal.1 hrestart hclosed

/-- The look produces the instance that was not produced before. -/
theorem finalCheck_sought (hc : q.constraints = #[universalConstraint])
    (hq : q.patterns = universalSolver.patterns)
    (hbudget : (⟨q, #[]⟩ : Solver.Round).hasBudget = true) (hnew : .ofIndex 5 ∉ q.instances) :
    finalCheck .never n ⟨universal, sought core universalClasses q⟩ =
      .ok (.continue, { formulas := [.ofIndex 5] }) ⟨universal,
        sought core universalClasses (Solver.Round.add ⟨q, #[]⟩ (.ofIndex 5)).solver⟩ := by
  have hlook := finalCheck_universal hc hq hbudget
  rw [if_neg hnew] at hlook
  exact finalCheck_of_look (w := ⟨universal, sought core universalClasses q⟩) rfl hlook

end Work

namespace Workspace

variable {w w₁ w₂ w₃ : Workspace} {p : Params} {stop : StopRequest} {n : Nat}
  {x : FinalCheck × Theory.Output}

/-! ## Looks of a check -/

theorem solver_underway (hw : w.Ok) (stop : StopRequest) :
    (w.underway stop).ctx.solver.log = w.ctx.solver.log := by
  unfold Workspace.underway
  split
  · rw [openScope_eq hw.ctx]
    rfl
  · rfl

/-- What is produced at an assignment of a check, however the context was used before. The terms of
classes are put for the variables of a constraint; the instance is new and not trivial; and where
the heads of the applications in the constraint and in the terms of classes are constants, it
follows from the constraint. There are no more instances than the bounds allow, at one look and in
the check. The search goes on if and only if there are new instances; and there is nothing to object
only if no match has an instance that is missing. -/
theorem finalCheck_instances (h : UsedInOrder w)
    (hsearch : Work.Searching p stop (w.underway stop) n w₁)
    (hlast : w₂ = w₁ ∨ Work.approach p stop n w₁ = .ok none w₂)
    (hfinal : Work.finalCheck stop n w₂ = .ok x w₃) :
    let g := w₂.ctx.registry.egraph
    let q := w₂.ctx.solver
    (∀ t ∈ x.2.formulas, t ≠ .top ∧ t ∉ q.instances ∧
      ∃ c ∈ q.constraints, ∃ σ, Quant.Solver.Fills g c.vars σ ∧
        Quant.Solver.Made w₂.store w₃.store σ c.body t ∧
        (w₂.store.FirstOrder [] c.formula → (∀ m ∈ g.nodes, w₂.store.FirstOrder [] m.term) →
          ∀ (I : Interp) (ρ : I.Env), I.Fits w₃.store → I.EnvFits w₃.store ρ →
            I.Holds w₃.store ρ c.formula → I.Holds w₃.store ρ t)) ∧
    x.2.formulas.Nodup ∧ x.2.formulas.length ≤ p.maxInstances ∧
    (∃ earlier, q.log.toList = w.ctx.solver.log.toList ++ earlier ∧
      w₃.ctx.solver.log.toList = q.log.toList ++ x.2.formulas ∧
      earlier.length + x.2.formulas.length ≤ p.maxTotalInstances) ∧
    (x.1 = .continue ↔ x.2.formulas ≠ []) ∧
    (x.1 = .done → 0 < p.maxInstances → ∀ c ∈ q.constraints, c.patterns ≠ [] →
      ∀ b ∈ q.bindings g w₂.store c,
      ∀ σ, Quant.Solver.replacement? g c.vars b = some σ →
        Quant.Solver.Tried w₂.store w₃.store σ c.body fun t => t = .top ∨ t ∈ q.instances) := by
  intro g q
  have haffirmed := h.affirmed
  have hstart : (w.underway stop).Affirmed := by
    have hstocked := haffirmed.stocked.underway stop
    refine ⟨hstocked, ?_⟩
    unfold Workspace.underway
    split
    · exact (lasting_affirmed.openScope haffirmed).positive
    · exact haffirmed.positive
  -- the assignment is one of the search
  have hable₁ := able_of_searching hsearch hstart.stocked.able
  have hbudget₁ := budgeted_of_searching hsearch hstart.stocked.able
  have hpositive₁ := positive_of_searching hsearch hstart
  have hquiet : Quiet w₁ w₂ ∧ w₂.Able := by
    rcases hlast with rfl | happroach
    · exact ⟨quiet_frame.refl hable₁.tidy.ok.ctx.registry, hable₁⟩
    · exact ⟨quiet_of_ok (Work.quiets_approach p stop n) hable₁ happroach,
        maintains_frame.stable hable₁ ((Work.maintains_approach hable₁ p stop n).of_ok happroach).1⟩
  obtain ⟨hquiet, hable₂⟩ := hquiet
  have hbudget₂ := hbudget₁.quiet hquiet
  have hpositive₂ (c : Quant.Constraint) (hc : c ∈ q.constraints) : c.formula.isNegated = false :=
    (hquiet.constraints c hc).elim (hpositive₁ c) id
  obtain ⟨hyields, hstretch, hcontinue, hdone⟩ := looks_of_finalCheck hable₂.tidy hfinal
  have hbudget₃ := hbudget₂.yields hyields fun hnew => (hstretch.within hnew).2
  have hgrounded : Quant.Solver.Grounded w₂.store g :=
    ⟨hable₂.tidy.ok.store, hable₂.regular, hable₂.tidy.typed.egraph, hable₂.ctx.nodes⟩
  refine ⟨fun t ht => ?_, hstretch.nodup, ?_, ?_, hcontinue, fun hx hpos c hc hpatterns b hb σ hσ =>
    ?_⟩
  · obtain ⟨c, b, σ, ⟨hc, -, hb⟩, hσ, hmade⟩ := hstretch.made t ht
    have hfits : Quant.Fits w₂.store g c.vars b :=
      Quant.matchAll_fits hable₂.tidy.ok.store hable₂.tidy.typed.egraph _ b hb
    have hlen := Quant.length_of_matchAll hable₂.tidy.ok.store hable₂.tidy.typed.egraph _ b hb
    have hfills := Quant.Solver.fills_of_replacement? hable₂.tidy.typed.egraph hfits hlen hσ
    have hopens := Quant.Solver.replacement?_opens hgrounded
      (hable₂.ctx.constraints c hc).1 hfits hlen hσ
    refine ⟨(hstretch.fresh t ht).1, (hstretch.fresh t ht).2, c, hc, σ, hfills, hmade,
      fun hfirst hnodes I ρ hI hρ => ?_⟩
    refine hmade.holds hable₂.tidy.ok.store (hable₂.tidy.typed.solver.constraints c hc)
      (hpositive₂ c hc) hopens
      (fun y v hy => ⟨(hfills.keys y).mpr ⟨v, hy⟩, ?_⟩) hfirst hI hρ
    obtain ⟨_, m, -, hm, rfl⟩ := hfills.terms hy
    exact hnodes m (Array.mem_of_getElem? hm)
  · by_cases hnew : x.2.formulas = []
    · rw [hnew]
      exact Nat.zero_le _
    · exact hbudget₂.bounds.1 ▸ (hstretch.within hnew).1
  · obtain ⟨earlier, hlog, hcheck⟩ := hbudget₂.log
    refine ⟨earlier, hlog.trans (by rw [solver_underway haffirmed.stocked.kempt.tidy.ok]),
      hyields.counts.log, ?_⟩
    rw [← hcheck, ← hyields.counts.check]
    exact hbudget₃.within
  · obtain ⟨hnone, hspent⟩ := hdone.mp hx
    have hroom : q.checkInstances < q.maxTotalInstances :=
      hspent.resolve_left fun hempty => Array.not_mem_empty c (hempty ▸ hc)
    have hinstances (t : Term) (ht : t ∈ w₃.ctx.solver.instances) : t ∈ q.instances := by
      rcases (hyields.counts.instances t).mp ht with ht | ht
      · exact ht
      · rw [hnone] at ht
        exact absurd ht List.not_mem_nil
    refine (hstretch.complete ?_ c b σ ⟨hc, hpatterns, hb⟩ hσ).after (Store.built_frame.refl ?_)
        fun t ht =>
      ht.imp_right (hinstances t)
    · have hbounds := hyields.counts.bounds
      have hcheck := hyields.counts.check
      rw [hnone, List.length_nil, Nat.add_zero] at hcheck
      have hmax : w₃.ctx.solver.maxInstances = p.maxInstances := hbounds.1.trans hbudget₂.bounds.1
      unfold Quant.Solver.Round.hasBudget
      simp only [hnone, List.size_toArray, List.length_nil, Bool.and_eq_true, decide_eq_true_eq]
      rw [hmax, hcheck, hbounds.2]
      exact ⟨hpos, hroom⟩
    · exact hstretch.built.later.wf

set_option maxRecDepth 3000 in
/-- The first look of a check in the scope: the instance for the constant is produced, it is the
first one, and it follows from the formula. -/
theorem finalCheck_instances_universal :
    let w := after ⟨universal, .new {}⟩
      [.assertQuantifier (.ofIndex 7) [], .assert [.ofIndex 5], .push]
    UsedInOrder w ∧ ∃ w₁ w₂ w₃, Work.Searching {} .never (w.underway .never) 0 w₁ ∧
      Work.approach {} .never 0 w₁ = .ok none w₂ ∧
      Work.finalCheck .never 0 w₂ = .ok (.continue, { formulas := [.ofIndex 5] }) w₃ ∧
      w₂.ctx.solver.constraints = #[universalConstraint] ∧
      .ofIndex 5 ∉ w₂.ctx.solver.instances ∧ w₃.ctx.solver.log = #[.ofIndex 5] ∧
      ∀ (I : Interp) (ρ : I.Env), I.Fits w₃.store → I.EnvFits w₃.store ρ →
        I.Holds w₃.store ρ (.ofIndex 7) → I.Holds w₃.store ρ (.ofIndex 5) := by
  intro w
  have hw : UsedInOrder w := (((UsedInOrder.new reached_universal.intact {}).act
    (.assertQuantifier (.ofIndex 7) [])).act (.assert [.ofIndex 5])).act .push
  have heq : w = ⟨universal, opened .doubled⟩ := Work.after_universal
  have hstart := Work.startSearch_universal
  rw [← heq] at hstart
  obtain ⟨order, happroach⟩ := Work.approach_universal
  have hfinal := Work.finalCheck_sought (n := 0) (Core.known order)
    (q := universalSolver.push.startSearch {}) rfl rfl (by decide) Std.HashSet.not_mem_empty
  obtain ⟨hnew, -⟩ := finalCheck_instances hw (.start hstart) (.inr happroach) hfinal
  obtain ⟨-, hfresh, c, hc, -, -, -, hfollows⟩ := hnew _ List.mem_cons_self
  simp only [solver_sought] at hfresh hc
  obtain rfl : c = universalConstraint := Array.mem_singleton.mp hc
  obtain ⟨hformula, hnodes⟩ := firstOrder_universal
  refine ⟨hw, _, _, _, .start hstart, happroach, hfinal, ?_, ?_, ?_, hfollows hformula hnodes⟩
  · rw [solver_sought]
    rfl
  · rwa [solver_sought]
  · rw [solver_sought]
    rfl

end Workspace
end Entail
