import Entail.Proofs.Context.Production

/-!
# Journals of instances

A journal has the instances that were produced and those that were handed on to be processed, each
with the scope in which that was. When a scope is closed or a check is taken back, the entries of
what is forgotten go. As long as neither an assertion nor a check is refused, and no stop was
requested in between, all that was produced was handed on, and the quantifier solver has exactly the
instances of the journal.
-/

namespace Entail

/-- Instances that were produced and instances that were handed on, in order. -/
structure Journal (α : Type) where
  produced : List α := []
  handed : List α := []

namespace Journal

variable {α β : Type}

instance : Append (Journal α) := ⟨fun j k => ⟨j.produced ++ k.produced, j.handed ++ k.handed⟩⟩

/-- The entries, each changed in the same way. -/
def map (f : α → β) (j : Journal α) : Journal β := ⟨j.produced.map f, j.handed.map f⟩

/-- Some of the entries. -/
def filter (p : α → Bool) (j : Journal α) : Journal α := ⟨j.produced.filter p, j.handed.filter p⟩

@[simp] theorem produced_append (j k : Journal α) : (j ++ k).produced = j.produced ++ k.produced :=
  rfl

@[simp] theorem handed_append (j k : Journal α) : (j ++ k).handed = j.handed ++ k.handed := rfl

end Journal

/-! ## Journals of the solver -/

namespace Quant.Solver

variable {q q' : Solver} {new : List Term} {entries : List (Term × Nat)}

/-- The log has the instances of the entries in this order, each produced in the scope with
the given number: what was logged when a scope was opened is what was produced in the
scopes around it. -/
structure Journaled (q : Solver) (entries : List (Term × Nat)) : Prop where
  log : q.log.toList = entries.map (·.1)
  scopes : ∀ e ∈ entries, e.2 ≤ q.scopes.length
  marks : ∀ i m, q.scopes.reverse[i]? = some m →
    q.log.toList.take m.log = (entries.filter (·.2 ≤ i)).map (·.1)

theorem journaled_empty : Journaled {} [] := ⟨rfl, nofun, nofun⟩

/-- Marks are sizes of the log. -/
theorem Nested.log_le (h : q.Nested) {m : Mark} (hm : m ∈ q.scopes) : m.log ≤ q.log.size :=
  ((List.pairwise_cons.mp h).1 m hm).2.2

/-- What was logged in the innermost scope goes when it is closed. -/
theorem log_pop {m : Mark} {scopes : List Mark} (hm : q.scopes = m :: scopes) :
    q.pop.log.toList = q.log.toList.take m.log ∧ q.pop.scopes = scopes := by
  unfold Solver.pop
  rw [hm]
  exact ⟨by simp only [Array.take_eq_extract, Array.toList_extract]; rfl, rfl⟩

namespace Journaled

/-- New instances are produced in the innermost scope. -/
theorem extend (h : q.Journaled entries) (hq : q.Nested)
    (hlog : q'.log.toList = q.log.toList ++ new)
    (hscopes : q'.scopes = q.scopes) : q'.Journaled (entries ++ new.map (·, q.scopes.length)) where
  log := by
    rw [hlog, h.log, List.map_append, List.map_map]
    exact congrArg _ (List.map_id new).symm
  scopes e he := by
    rw [hscopes]
    rcases List.mem_append.mp he with he | he
    · exact h.scopes e he
    · obtain ⟨t, -, rfl⟩ := List.mem_map.mp he
      exact Nat.le_refl _
  marks i m hm := by
    rw [hscopes] at hm
    obtain ⟨hi, -⟩ := List.getElem?_eq_some_iff.mp hm
    rw [List.length_reverse] at hi
    have hle := hq.log_le (List.mem_reverse.mp (List.mem_of_getElem? hm))
    have hnone : (new.map (·, q.scopes.length)).filter (·.2 ≤ i) = [] := by
      refine List.filter_eq_nil_iff.mpr fun e he => ?_
      obtain ⟨t, -, rfl⟩ := List.mem_map.mp he
      simpa using hi
    rw [hlog, List.take_append_of_le_length (by simpa using hle), h.marks i m hm,
      List.filter_append, hnone, List.append_nil]

theorem congr (h : q.Journaled entries) (hlog : q'.log = q.log) (hscopes : q'.scopes = q.scopes) :
    q'.Journaled entries := ⟨hlog ▸ h.log, hscopes ▸ h.scopes, hlog ▸ hscopes ▸ h.marks⟩

theorem push (h : q.Journaled entries) : q.push.Journaled entries where
  log := h.log
  scopes e he := Nat.le_succ_of_le (h.scopes e he)
  marks i m hm := by
    change (q.sizes :: q.scopes).reverse[i]? = some m at hm
    rw [List.reverse_cons] at hm
    by_cases hi : i < q.scopes.reverse.length
    · rw [List.getElem?_append_left hi] at hm
      exact h.marks i m hm
    · -- the new mark has the whole log
      have hlt := (List.getElem?_eq_some_iff.mp hm).1
      rw [List.length_append, List.length_singleton] at hlt
      obtain rfl : i = q.scopes.reverse.length := by omega
      rw [List.getElem?_append_right (Nat.le_refl _), Nat.sub_self] at hm
      cases hm
      have hall : entries.filter (·.2 ≤ q.scopes.reverse.length) = entries :=
        List.filter_eq_self.mpr fun e he => by simpa using h.scopes e he
      rw [hall, ← h.log]
      exact List.take_of_length_le (Nat.le_refl _)

/-- What was produced in the scope that is closed goes. -/
theorem pop (h : q.Journaled entries) (hq : q.Nested) (hscopes : q.scopes ≠ []) :
    q.pop.Journaled (entries.filter (·.2 < q.scopes.length)) := by
  obtain ⟨m, scopes, hm⟩ := List.exists_cons_of_ne_nil hscopes
  have hlen : q.scopes.length = scopes.length + 1 := congrArg List.length hm
  have hpop := log_pop hm
  have hnested := hq
  rw [Nested, hm] at hnested
  have hinner := (List.pairwise_cons.mp (List.pairwise_cons.mp hnested).2).1
  have hlast : q.scopes.reverse[scopes.length]? = some m := by
    rw [hm, List.reverse_cons, List.getElem?_append_right (by simp)]
    simp
  have hbelow : entries.filter (·.2 < q.scopes.length) = entries.filter (·.2 ≤ scopes.length) := by
    rw [hlen]
    exact List.filter_congr fun e _ => decide_eq_decide.mpr Nat.lt_succ_iff
  refine ⟨?_, fun e he => ?_, fun i m' hm' => ?_⟩
  · rw [hpop.1, hbelow, h.marks _ m hlast]
  · have hlt : e.2 < q.scopes.length := by simpa using List.of_mem_filter he
    rw [hpop.2]
    omega
  · rw [hpop.2] at hm'
    have hi : i < scopes.length := by
      simpa using (List.getElem?_eq_some_iff.mp hm').1
    have hle : m'.log ≤ m.log := (hinner m' (List.mem_reverse.mp (List.mem_of_getElem? hm'))).2.2
    have hmark : q.scopes.reverse[i]? = some m' := by
      rw [hm, List.reverse_cons, List.getElem?_append_left (by simpa using hi)]
      exact hm'
    rw [hpop.1, List.take_take, Nat.min_eq_left hle, h.marks i m' hmark, List.filter_filter]
    refine congrArg _ (List.filter_congr fun e _ => ?_)
    have himp : e.2 ≤ i → e.2 < q.scopes.length := by omega
    by_cases hle : e.2 ≤ i
    · simp [hle, himp hle]
    · simp [hle]

end Journaled
end Quant.Solver

open Workspace Context

/-! ## Journals of a search -/

namespace Workspace

variable {w w' w'' : Workspace} {new more : List Term}

/-- The log grows by `new`, and no scope is opened or closed. -/
structure Logs (w w' : Workspace) (new : List Term) : Prop where
  registry : w'.ctx.registry.Has w'.ctx.solver
  log : w'.ctx.solver.log.toList = w.ctx.solver.log.toList ++ new
  scopes : w'.ctx.solver.scopes = w.ctx.solver.scopes

theorem Yields.logs (h : Yields w w' new) : Logs w w' new :=
  ⟨h.registry, h.counts.log, h.counts.scopes⟩

theorem Logs.trans (h : Logs w w' new) (h' : Logs w' w'' more) : Logs w w'' (new ++ more) :=
  ⟨h'.registry, by rw [h'.log, h.log, List.append_assoc], h'.scopes.trans h.scopes⟩

end Workspace

namespace Work

variable {w w' w₁ w₂ : Workspace} {p : Params} {stop : StopRequest} {n fuel : Nat} {status : Status}
  {answer : Option Status} {j : Journal Term} {x : FinalCheck × Theory.Output}

/-- Formulas that were processed one after the other: for each of them `process` ran and was not
refused. -/
inductive Processed : List Term → Workspace → Workspace → Prop where
  | nil {w : Workspace} : Processed [] w w
  | cons {t : Term} {ts : List Term} {w w₁ w₂ : Workspace} (h : process t w = .ok () w₁)
    (hrest : Processed ts w₁ w₂) : Processed (t :: ts) w w₂

/-- A pass over formulas that is not refused processes each of them. -/
theorem processed_of_forM {ts : List Term} (h : ts.forM process w = .ok () w') :
    Processed ts w w' := by
  induction ts generalizing w with
  | nil =>
    cases h
    exact .nil
  | cons t ts ih =>
    obtain ⟨_, w₁, ht, hts⟩ := bind_eq_ok.mp h
    exact .cons ht (ih hts)

/-- The workspace at level 0, where the instances are processed. -/
def lowered (w : Workspace) : Workspace :=
  ⟨w.store, { w.ctx with
    core := w.ctx.core.backtrack 0, registry := w.ctx.registry.backtrack 0 }⟩

/-- Instances that are asserted are processed, all of them, and then the core hears of the new
variables. -/
theorem processed_of_assertInstances {ts : List Term} {go : Bool}
    (h : assertInstances ts w = .ok go w') :
    ∃ w₁, Processed ts (lowered w) w₁ ∧ w' = ⟨w₁.store, w₁.ctx.syncVars⟩ := by
  unfold assertInstances at h
  rw [bind_of_ok (rfl : change _ w = .ok () (lowered w))] at h
  obtain ⟨_, w₁, hts, h⟩ := bind_eq_ok.mp h
  rw [bind_of_ok (rfl : change _ w₁ = .ok () ⟨w₁.store, w₁.ctx.syncVars⟩)] at h
  cases h
  exact ⟨w₁, processed_of_forM hts, rfl⟩

/-- Step number `n` of a search: its answer, where it ends, and the instances that it produces
and hands on. -/
inductive Noted (p : Params) (stop : StopRequest) (n : Nat) (w : Workspace) :
    Option Status → Workspace → Journal Term → Prop where
  /-- The step is over before the assignment is complete. -/
  | before {answer : Option Status} {w' : Workspace}
    (h : approach p stop n w = .ok (some answer) w') :
    Noted p stop n w answer w' {}
  /-- The theories are stopped while they look at the assignment. -/
  | stopped {w₁ w₂ : Workspace} {x : FinalCheck × Theory.Output}
    (happroach : approach p stop n w = .ok none w₁)
    (hfinal : finalCheck stop n w₁ = .ok x w₂) (hstop : w₂.ctx.interrupted = true) :
    Noted p stop n w (some .interrupted) w₂ ⟨x.2.formulas, []⟩
  /-- What the theories produce is processed, every formula of it, from level 0 on. -/
  | handed {w₁ w₂ w₃ w' : Workspace} {x : FinalCheck × Theory.Output} {answer : Option Status}
    (happroach : approach p stop n w = .ok none w₁) (hfinal : finalCheck stop n w₁ = .ok x w₂)
    (hgo : w₂.ctx.interrupted = false)
    (hrespond : respond x.1 x.2 w₂ = unlessStuck (assertInstances x.2.formulas) w₂)
    (hprocess : Processed x.2.formulas (lowered w₂) w₃) (hend : w' = ⟨w₃.store, w₃.ctx.syncVars⟩)
    (h : unlessStuck (assertInstances x.2.formulas) w₂ = .ok answer w') :
    Noted p stop n w answer w' ⟨x.2.formulas, x.2.formulas⟩
  /-- The theories produce nothing. -/
  | silent {w₁ w₂ w' : Workspace} {x : FinalCheck × Theory.Output} {answer : Option Status}
    (happroach : approach p stop n w = .ok none w₁) (hfinal : finalCheck stop n w₁ = .ok x w₂)
    (hnone : x.2.formulas = []) (h : respond x.1 x.2 w₂ = .ok answer w') :
    Noted p stop n w answer w' {}

/-- Once a stop is requested, there is no response to a look. -/
theorem respond_of_stopped (hstop : w.ctx.interrupted = true) (outcome : FinalCheck)
    (out : Theory.Output) :
    respond outcome out w = .ok (some .interrupted) w := by
  unfold respond
  rw [bind_of_ok (rfl : look _ w = .ok w.ctx.interrupted w), if_pos hstop]
  rfl

/-- Otherwise what was produced is processed. -/
theorem respond_of_formulas (hgo : w.ctx.interrupted = false) (hconflict : x.2.conflict = none)
    (hcontinue : x.1 = .continue ↔ x.2.formulas ≠ []) (hsome : x.2.formulas ≠ []) :
    respond x.1 x.2 w = unlessStuck (assertInstances x.2.formulas) w := by
  have hcond : (decide (x.1 = .continue) && !x.2.formulas.isEmpty) = true := by
    rw [decide_eq_true (hcontinue.mpr hsome), Bool.true_and, Bool.not_eq_true',
      List.isEmpty_eq_false_iff]
    exact hsome
  unfold respond
  rw [bind_of_ok (rfl : look _ w = .ok w.ctx.interrupted w), hgo, if_neg Bool.false_ne_true,
    hconflict]
  simp only [hcond, if_true]

/-- What is noted is a step. -/
theorem Noted.step (h : Noted p stop n w answer w' j) : step p stop n w = .ok answer w' := by
  rw [step_eq]
  cases h with
  | before h => rw [bind_of_ok h]; rfl
  | stopped happroach hfinal hstop =>
    rw [bind_of_ok happroach]
    show conclude stop n _ = _
    rw [conclude_eq, bind_of_ok hfinal, respond_of_stopped hstop]
  | handed happroach hfinal _ hrespond _ _ h =>
    rw [bind_of_ok happroach]
    show conclude stop n _ = _
    rw [conclude_eq, bind_of_ok hfinal, hrespond, h]
  | silent happroach hfinal _ h =>
    rw [bind_of_ok happroach]
    show conclude stop n _ = _
    rw [conclude_eq, bind_of_ok hfinal, h]

theorem tidy_of_approach {x : Option (Option Status)} (hw : w.Tidy)
    (h : approach p stop n w = .ok x w₁) : w₁.Tidy := by
  have hleads : Leads (Workspace.Grows False) w (approach p stop n) fun _ _ => True :=
    grows_approach hw p stop n
  exact grows_frame.stable hw (hleads.of_ok h).1

/-- Every step that answers can be noted. -/
theorem exists_noted (hw : w.Tidy) (h : step p stop n w = .ok answer w') :
    ∃ j, Noted p stop n w answer w' j := by
  rcases step_cases h with happroach | ⟨w₁, x, w₂, happroach, hfinal, hrespond⟩
  · exact ⟨_, .before happroach⟩
  · have hw₁ := tidy_of_approach hw happroach
    obtain ⟨-, -, hcontinue, -⟩ := looks_of_finalCheck hw₁ hfinal
    obtain ⟨-, -, hconflict, -⟩ := finalCheck_eq_ok hw₁.ok.ctx.registry hfinal
    by_cases hnone : x.2.formulas = []
    · exact ⟨_, .silent happroach hfinal hnone hrespond⟩
    · cases hstop : w₂.ctx.interrupted with
      | true =>
        rw [respond_of_stopped hstop] at hrespond
        cases hrespond
        exact ⟨_, .stopped happroach hfinal hstop⟩
      | false =>
        have heq := respond_of_formulas hstop hconflict hcontinue hnone
        rw [heq] at hrespond
        obtain ⟨go, w₃, hassert, hgo⟩ := bind_eq_ok.mp hrespond
        cases hgo
        obtain ⟨w₄, hprocess, hend⟩ := processed_of_assertInstances hassert
        exact ⟨_, .handed happroach hfinal hstop heq hprocess hend hrespond⟩

/-- The log grows by what is produced, and unless the search is stopped, all of that is handed
on. -/
theorem Noted.logs (h : Noted p stop n w answer w' j) (hw : w.Tidy) :
    Logs w w' j.produced ∧ (answer ≠ some .interrupted → j.handed = j.produced) := by
  have quiet {w w' : Workspace} {α : Type} {op : Work α} {a : α} (hop : Quiets op)
      (hw : w.ctx.registry.Has w.ctx.solver) (h : op w = .ok a w') : Quiet w w' := by
    have hquiet := hop w hw
    rwa [h] at hquiet
  have looked {w₁ w₂ : Workspace} {x : FinalCheck × Theory.Output}
    (happroach : approach p stop n w = .ok none w₁)
      (hfinal : finalCheck stop n w₁ = .ok x w₂) : Yields w w₂ x.2.formulas := by
    exact (quiet (quiets_approach p stop n) hw.ok.ctx.registry happroach).yields
      (looks_of_finalCheck (tidy_of_approach hw happroach) hfinal).1
  cases h with
  | before h => exact ⟨(quiet (quiets_approach p stop n) hw.ok.ctx.registry h).logs, fun _ => rfl⟩
  | stopped happroach hfinal _ => exact ⟨(looked happroach hfinal).logs, fun h => absurd rfl h⟩
  | handed happroach hfinal _ _ _ _ h =>
    have hyields := looked happroach hfinal
    have hquiet := quiet (quiets_unlessStuck (quiets_assertInstances _)) hyields.registry h
    exact ⟨(hyields.quiet hquiet).logs, fun _ => rfl⟩
  | silent happroach hfinal hnone h =>
    have hyields := looked happroach hfinal
    rw [hnone] at hyields
    exact ⟨(hyields.quiet (quiet (quiets_respond _ _) hyields.registry h)).logs, fun _ => rfl⟩

/-- A search from `w` up to step number `n`, with what it produces and hands on. -/
inductive Passed (p : Params) (stop : StopRequest) (w : Workspace) :
    Nat → Workspace → Journal Term → Prop where
  | start {w' : Workspace} (h : startSearch p w = .ok true w') : Passed p stop w 0 w' {}
  | step {n : Nat} {w' w'' : Workspace} {j k : Journal Term} (h : Passed p stop w n w' j)
    (hstep : Noted p stop n w' none w'' k) : Passed p stop w (n + 1) w'' (j ++ k)

/-- A search from `w` with its answer, where it ends, and what it produces and hands on. -/
inductive Searched (p : Params) (stop : StopRequest) (w : Workspace) :
    Status → Workspace → Journal Term → Prop where
  | contradictory {w' : Workspace} (h : startSearch p w = .ok false w') :
    Searched p stop w .unsat w' {}
  | ended {n : Nat} {w' w'' : Workspace} {j k : Journal Term} {status : Status}
    (h : Passed p stop w n w' j)
    (hstep : Noted p stop n w' (some status) w'' k) : Searched p stop w status w'' (j ++ k)

theorem grows_of_startSearch (hw : w.Tidy) {go : Bool} (h : startSearch p w = .ok go w') :
    Workspace.Grows False w w' :=
  ((grows_startSearch hw p).of_ok h).1

theorem Noted.grows (h : Noted p stop n w answer w' j) (hw : w.Tidy) : Workspace.Grows False w w' :=
  ((grows_step hw p stop n).of_ok h.step).1

theorem Passed.grows (h : Passed p stop w n w' j) (hw : w.Tidy) : Workspace.Grows False w w' := by
  induction h with
  | start h => exact grows_of_startSearch hw h
  | step _ hstep ih => exact grows_frame.trans ih (hstep.grows ih.tidy)

theorem Searched.grows (h : Searched p stop w status w' j) (hw : w.Tidy) :
    Workspace.Grows False w w' := by
  cases h with
  | contradictory h => exact grows_of_startSearch hw h
  | ended h hstep =>
    have hgrows := h.grows hw
    exact grows_frame.trans hgrows (hstep.grows hgrows.tidy)

/-- Every search that answers can be noted. -/
theorem exists_searched (hw : w.Tidy) (h : search p stop fuel w = .ok status w') :
    ∃ j, Searched p stop w status w' j := by
  have hpassed {n : Nat} {w₁ : Workspace} (h : Searching p stop w n w₁) :
      ∃ j, Passed p stop w n w₁ j := by
    induction h with
    | start h => exact ⟨_, .start h⟩
    | step _ hstep ih =>
      obtain ⟨j, hj⟩ := ih
      obtain ⟨k, hk⟩ := exists_noted (hj.grows hw).tidy hstep
      exact ⟨_, hj.step hk⟩
  rcases (ends_search p stop fuel w).of_ok h with ⟨rfl, hstart⟩ | ⟨n, w₁, hsearch, hstep⟩
  · exact ⟨_, .contradictory hstart⟩
  · obtain ⟨j, hj⟩ := hpassed hsearch
    obtain ⟨k, hk⟩ := exists_noted (hj.grows hw).tidy hstep
    exact ⟨_, .ended hj hk⟩

theorem Passed.logs (h : Passed p stop w n w' j) (hw : w.Tidy) :
    Logs w w' j.produced ∧ j.handed = j.produced := by
  induction h with
  | start h =>
    refine ⟨?_, rfl⟩
    have hhas := hw.ok.ctx.registry
    have hnew : (w.ctx.registry.startSearch p).2.Has (w.ctx.solver.startSearch p) := by
      rw [Theory.Registry.startSearch_eq hhas]
      rfl
    rw [((startSearch_ends hhas p).of_ok h).2 rfl]
    have hsolver : (w.ctx.registry.startSearch p).2.solver = w.ctx.solver.startSearch p :=
      hnew.solver
    refine ⟨(congrArg _ hsolver).mpr hnew, ?_, ?_⟩
    · show (w.ctx.registry.startSearch p).2.solver.log.toList = _
      rw [hsolver]
      exact (List.append_nil _).symm
    · show (w.ctx.registry.startSearch p).2.solver.scopes = _
      rw [hsolver]
      rfl
  | step hpassed hstep ih =>
    obtain ⟨hlogs, hhanded⟩ := ih
    obtain ⟨hlogs', hhanded'⟩ := hstep.logs (hpassed.grows hw).tidy
    exact ⟨hlogs.trans
      hlogs', by rw [Journal.handed_append, Journal.produced_append, hhanded, hhanded' nofun]⟩

theorem Searched.logs (h : Searched p stop w status w' j) (hw : w.Tidy) :
    Logs w w' j.produced ∧ (status ≠ .interrupted → j.handed = j.produced) := by
  cases h with
  | contradictory h =>
    exact ⟨(((startSearch_ends hw.ok.ctx.registry p).of_ok h).1 rfl).logs, fun _ => rfl⟩
  | ended hpassed hstep =>
    obtain ⟨hlogs, hhanded⟩ := hpassed.logs hw
    obtain ⟨hlogs', hhanded'⟩ := hstep.logs (hpassed.grows hw).tidy
    refine ⟨hlogs.trans hlogs', fun hgo => ?_⟩
    rw [Journal.handed_append, Journal.produced_append, hhanded, hhanded' fun h =>
      hgo (Option.some.inj h)]

end Work

/-! ## Journals of a context -/

/-- Neither an assertion nor a check is refused. -/
def Action.Succeeds (w : Workspace) : Action → Prop
  | a@(.assert _) | a@(.assertQuantifier ..) | a@(.check ..) => ∃ w', a.run w = .ok () w'
  | _ => True

/-- The operation neither produces nor forgets instances. -/
def Action.Spares : Action → Prop
  | .check .. | .pop | .reset => False
  | _ => True

/-- One step of the use of a context: an operation on it that is not refused if it asserts or
checks, or a change of the store by others. -/
inductive SmoothTurn : Workspace → Workspace → Prop where
  | act {a : Action} {w : Workspace} (h : a.Succeeds w) : SmoothTurn w (endState (a.run w))
  | store {w : Workspace} {s : Store} (hs : s.Wf) (h : w.store.Spares s w.ctx.roots) :
    SmoothTurn w ⟨s, w.ctx⟩

/-- A context that was used in some way since it was made, without an assertion or a check that
was refused. -/
def UsedSmoothly (w : Workspace) : Prop :=
  ∃ (s : Store) (config : Config), s.Wf ∧ Relation.ReflTransGen SmoothTurn ⟨s, .new config⟩ w

/-- What answers succeeds. -/
theorem Action.succeeds_of_ok {a : Action} {w w' : Workspace} (h : a.run w = .ok () w') :
    a.Succeeds w := by
  cases a with
  | assert | assertQuantifier | check => exact ⟨w', h⟩
  | _ => trivial

/-- An operation that answers is a smooth turn. -/
theorem SmoothTurn.of_ok {a : Action} {w w' : Workspace} (h : a.run w = .ok () w') :
    SmoothTurn w w' := by
  have hturn := SmoothTurn.act (Action.succeeds_of_ok h)
  rwa [h] at hturn

namespace Workspace

variable {w w' w'' : Workspace} {p : Params} {stop : StopRequest} {fuel : Nat} {status : Status}
  {c : Context}
  {j : Journal (Term × Nat)} {k : Journal Term}

/-- Whether the check of a context with this outcome is taken back. -/
def takesBack (w : Workspace) (status : Status) : Prop :=
  w.ctx.config.mode = .interactive ∧ status = .interrupted

instance (w : Workspace) (status : Status) : Decidable (w.takesBack status) :=
  inferInstanceAs (Decidable (_ ∧ _))

/-- A context that was used without a refused assertion or check, and the journal of its open
scopes: an instance is noted with the scope around the check that produced it. What was noted in a
scope goes when it is closed; the instances of a check that is taken back are not noted. -/
inductive Journaled : Workspace → Journal (Term × Nat) → Prop where
  | new {s : Store} (hs : s.Wf) (config : Config) : Journaled ⟨s, .new config⟩ {}
  | store {w : Workspace} {j : Journal (Term × Nat)} {s : Store} (h : Journaled w j) (hs : s.Wf)
    (hspares : w.store.Spares s w.ctx.roots) : Journaled ⟨s, w.ctx⟩ j
  | act {w : Workspace} {j : Journal (Term × Nat)} {a : Action} (h : Journaled w j) (ha : a.Spares)
    (hsucceeds : a.Succeeds w) : Journaled (endState (a.run w)) j
  | check {w w' : Workspace} {j : Journal (Term × Nat)} {k : Journal Term} {p : Params}
    {stop : StopRequest}
    {fuel : Nat} {status : Status} (h : Journaled w j) (hidle : w.ctx.status = .idle)
    (hsearch : Work.Searched p stop (w.underway stop) status w' k)
    (hrun : Work.checkSat p stop fuel w =
      .ok status ⟨w'.store, w'.ctx.finish (w.ctx.config.mode == .interactive) (.ok status)⟩) :
    Journaled ⟨w'.store, w'.ctx.finish (w.ctx.config.mode == .interactive) (.ok status)⟩
      (if w.takesBack status then j else j ++ k.map (·, w.ctx.depth))
  | pop {w : Workspace} {j : Journal (Term × Nat)} {c : Context} (h : Journaled w j)
    (hpop : w.ctx.pop = .ok c) :
    Journaled ⟨w.store, c⟩ (j.filter (·.2 < w.ctx.depth))
  | reset {w : Workspace} {j : Journal (Term × Nat)} (h : Journaled w j) :
    Journaled ⟨w.store, w.ctx.reset⟩ {}

/-- An operation that answers and spares the instances leaves the journal as it is. -/
theorem Journaled.of_ok {a : Action} (hw : Journaled w j) (h : a.run w = .ok () w')
    (ha : a.Spares) : Journaled w' j := by
  have hrun := hw.act ha (Action.succeeds_of_ok h)
  rwa [h] at hrun

theorem endState_check (h : Work.checkSat p stop fuel w = .ok status w') :
    endState ((Action.check p stop fuel).run w) = w' := by
  rw [endState_run_check, h]
  rfl

/-- A journaled context was used. -/
theorem Journaled.used (h : Journaled w j) : Used w := by
  have turn {w w' : Workspace} (hw : Used w) (hturn : Turn w w') : Used w' := by
    obtain ⟨s, config, hs, hrun⟩ := hw
    exact ⟨s, config, hs, hrun.tail hturn⟩
  induction h with
  | new hs config => exact ⟨_, config, hs, .refl⟩
  | store _ hs hspares ih => exact turn ih (.store hs hspares)
  | act _ _ _ ih => exact turn ih (.act _ _)
  | check _ _ _ hrun ih => exact turn ih (endState_check hrun ▸ .act (.check ..) _)
  | pop _ hpop ih => exact turn ih (endState_replace (f := (·.pop)) hpop ▸ .act .pop _)
  | reset _ ih => exact turn ih (.act .reset _)

/-- The check of an idle context refuses the parameters, or searches and ends with the outcome of
the search. -/
theorem checkSat_cases (hidle : w.ctx.status = .idle) (p : Params) (stop : StopRequest)
    (fuel : Nat) :
    (∃ e, Work.checkSat p stop fuel w = .error e w) ∨
      ∃ (outcome : Except Failure Status) (w' : Workspace),
      endState (Work.search p stop fuel (w.underway stop)) = w' ∧
        Work.checkSat p stop fuel w = Work.check (fun _ _ => outcome)
          ⟨w'.store, w'.ctx.finish (w.ctx.config.mode == .interactive) outcome⟩ ∧
        ∀ status, outcome = .ok status → Work.search p stop fuel (w.underway stop) =
          .ok status w' := by
  cases hp : p.validate with
  | error e =>
    unfold Work.checkSat
    rw [bind_of_ok (rfl : Work.look _ w = .ok w.ctx.status w), hidle]
    simp only
    rw [hp]
    exact .inl ⟨e, bind_of_error rfl⟩
  | ok =>
    rw [checkSat_eq hidle hp]
    cases hrun : Work.search p stop fuel (w.underway stop) with
    | ok status w' => exact .inr ⟨.ok status, w', rfl, rfl, fun _ heq => by cases heq; rfl⟩
    | error e w' => exact .inr ⟨.error e, w', rfl, rfl, nofun⟩

theorem Kempt.underway (h : w.Kempt) (stop : StopRequest) : (w.underway stop).Kempt := by
  unfold Workspace.underway
  split
  · exact h.openScope.settings _ _ _
  · exact h.settings _ _ _

/-- A check that answers and does search can be journaled. -/
theorem exists_journaled_check (h : Journaled w j) (hidle : w.ctx.status = .idle)
    (hrun : Work.checkSat p stop fuel w = .ok status w') : ∃ j, Journaled w' j := by
  rcases checkSat_cases hidle p stop fuel with ⟨e, he⟩ | ⟨outcome, w₁, -, heq, hsearch⟩
  · cases he.symm.trans hrun
  · have hcheck := heq.symm.trans hrun
    cases outcome with
    | error e => cases hcheck
    | ok status' =>
      cases hcheck
      have htidy := ((kempt_of_used h.used).underway stop).tidy
      obtain ⟨k, hk⟩ := Work.exists_searched htidy (hsearch _ rfl)
      exact ⟨_, h.check hidle hk hrun⟩

/-- There is a journal of every such use. -/
theorem exists_journaled (h : UsedSmoothly w) : ∃ j, Journaled w j := by
  obtain ⟨s, config, hs, hrun⟩ := h
  induction hrun with
  | refl => exact ⟨_, .new hs config⟩
  | @tail w₁ w₂ _ hturn ih =>
    obtain ⟨j, hj⟩ := ih
    cases hturn with
    | store hs hspares => exact ⟨j, hj.store hs hspares⟩
    | @act a _ hsucceeds =>
      cases a with
      | pop =>
        show ∃ j, Journaled (endState (Work.replace (·.pop) w₁)) j
        cases hpop : w₁.ctx.pop with
        | error e =>
          refine ⟨j, ?_⟩
          unfold Work.replace
          simp only [hpop]
          exact hj
        | ok c => exact ⟨_, endState_replace (f := (·.pop)) hpop ▸ hj.pop hpop⟩
      | reset => exact ⟨_, hj.reset⟩
      | check p stop fuel =>
        obtain ⟨w₃, hrun⟩ := hsucceeds
        obtain ⟨status, w₄, hcheck, hpure⟩ := bind_eq_ok.mp hrun
        cases hpure
        rw [endState_check hcheck]
        by_cases hidle : w₁.ctx.status = .idle
        · exact exists_journaled_check hj hidle hcheck
        · -- the check answers from the status, or is refused
          have hsame : w₃ = w₁ := by
            unfold Work.checkSat at hcheck
            rw [bind_of_ok (rfl : Work.look _ w₁ = .ok w₁.ctx.status w₁)] at hcheck
            cases hstatus : w₁.ctx.status with
            | idle => exact absurd hstatus hidle
            | sat | unsat | unknown =>
              rw [hstatus] at hcheck
              cases hcheck
              rfl
            | searching | interrupted =>
              rw [hstatus] at hcheck
              cases hcheck
          exact ⟨j, hsame ▸ hj⟩
      | _ => exact ⟨j, hj.act trivial hsucceeds⟩

/-! ## The instances of a context are those of its journal -/

/-- The log of the solver is that of what was produced; all of it was handed on, unless a check was
stopped that is not taken back; and then that is so in the scopes around the innermost one. -/
structure Accounts (w : Workspace) (j : Journal (Term × Nat)) : Prop where
  produced : w.ctx.solver.Journaled j.produced
  handed : w.ctx.status ≠ .interrupted → j.handed = j.produced
  outer : j.handed.filter (·.2 < w.ctx.depth) = j.produced.filter (·.2 < w.ctx.depth)

theorem solver_rollback (hw : w.Ok) (hs : w.ctx.scopes ≠ []) :
    w.ctx.rollback.solver = w.ctx.solver.pop := by
  obtain ⟨a, rest, hs⟩ := List.exists_cons_of_ne_nil hs
  obtain ⟨_, _, _, _, _, heq, -⟩ := rollback_eq hw hs
  rw [heq]
  rfl

/-- No instances come or go while the satellites stay the same. -/
theorem Accounts.logs (h : Accounts w j) (hw' : w'.Ok) (hw : w.Ok) (hlogs : Logs w w' [])
    (hstatus : w.ctx.status = .interrupted → w'.ctx.status = .interrupted) : Accounts w' j := by
  have hlog : w'.ctx.solver.log = w.ctx.solver.log := by
    rw [← Array.toList_inj, hlogs.log, List.append_nil]
  have hdepth : w'.ctx.depth = w.ctx.depth := by
    rw [← hw'.ctx.tablesDepth, ← hw.ctx.tablesDepth, hlogs.scopes]
  exact ⟨h.produced.congr hlog hlogs.scopes, fun hgo => h.handed fun hint => hgo (hstatus hint), by
    rw [hdepth]
    exact h.outer⟩

/-- A scope is opened in the solver, too, when no check was stopped. -/
theorem solver_of_push (hw : w.Ok) (h : w.ctx.push = .ok c) :
    w.ctx.status ≠ .interrupted ∧ c.solver = w.ctx.solver.push := by
  have hopen {w : Workspace} (hw : w.Ok) : w.ctx.openScope.solver = w.ctx.solver.push := by
    rw [openScope_eq hw.ctx]
    rfl
  have hclear : c = { w.ctx.clearSearch with status := .idle }.openScope →
      c.solver = w.ctx.solver.push := by
    rintro rfl
    have hcleared := (keeps_clearSearch hw .idle).ok
    have hsame : ({ w.ctx.clearSearch with status := .idle } : Context).solver = w.ctx.solver := by
      have hhas : w.ctx.clearSearch.registry.Has w.ctx.solver := by
        rw [show w.ctx.clearSearch.registry = w.ctx.registry.backtrack 0 from rfl,
          Theory.Registry.backtrack_eq hw.ctx.registry]
        exact hw.ctx.registry
      exact hhas.solver
    rw [hopen (w := ⟨w.store, { w.ctx.clearSearch with status := .idle }⟩) ⟨hw.store, hcleared⟩,
      hsame]
  unfold Context.push at h
  split at h
  · cases h
  · cases hstatus : w.ctx.status with
    | searching | unsat | interrupted =>
      rw [hstatus] at h
      cases h
    | sat | unknown =>
      rw [hstatus] at h
      cases h
      exact ⟨nofun, hclear rfl⟩
    | idle =>
      rw [hstatus] at h
      cases h
      exact ⟨nofun, hopen hw⟩

/-- An assertion that is allowed comes when no check was stopped. -/
theorem not_interrupted_of_ok {g : Unit → Work Unit}
    (h : (Work.check (fun _ c => c.checkAssertAllowed) >>= g) w = .ok () w') :
    w.ctx.status ≠ .interrupted := by
  obtain ⟨_, _, hcheck, -⟩ := bind_eq_ok.mp h
  intro hstatus
  have hallowed : w.ctx.checkAssertAllowed = .error (.invalidOperation w.ctx.status) := by
    unfold checkAssertAllowed
    rw [hstatus]
  simp [Work.check, hallowed] at hcheck

theorem Accounts.act (h : Accounts w j) (hw : w.Kempt) {a : Action} (ha : a.Spares)
    (hsucceeds : a.Succeeds w) :
    Accounts (endState (a.run w)) j := by
  have hhas := hw.tidy.ok.ctx.registry
  have hok := (lasting_kempt.run a hw).tidy.ok
  have hsame {c : Context} (hc : Workspace.Ok ⟨w.store, c⟩)
    (hsatellites : c.registry.satellites = w.ctx.registry.satellites)
      (hstatus : w.ctx.status = .interrupted → c.status = .interrupted) : Accounts ⟨w.store, c⟩ j :=
    h.logs hc hw.tidy.ok (quiet_of_satellites hhas hsatellites).logs hstatus
  cases a with
  | assert ts =>
    obtain ⟨w', hrun⟩ := hsucceeds
    exact h.logs hok hw.tidy.ok (quiet_of_asserts (Work.asserts_assertAll ts w) hhas).logs
      fun hstatus => absurd hstatus (not_interrupted_of_ok hrun)
  | assertQuantifier formula patterns =>
    obtain ⟨w', hrun⟩ := hsucceeds
    exact h.logs hok hw.tidy.ok (quiet_of_asserts
      (Work.asserts_assertQuantifier formula patterns w) hhas).logs
      fun hstatus => absurd hstatus (not_interrupted_of_ok hrun)
  | block =>
    refine replaced (I := (Accounts · j)) h fun c hc => ?_
    have hstatus : w.ctx.status ≠ .interrupted := by
      intro hstatus
      simp [Context.block, hstatus, Status.hasModel] at hc
    refine hsame (lasting_kempt.block hw hc).tidy.ok ?_ fun h => absurd h hstatus
    unfold Context.block at hc
    split at hc
    · cases hc
    · split at hc
      · cases hc
      · cases hc
        exact Work.satellites_backtrack hhas 0
  | setOption name on =>
    refine replaced (I := (Accounts · j)) (f := (·.setOption name on)) h fun c hc => ?_
    obtain ⟨x, -, hc⟩ := Store.bind_eq_ok_iff.mp hc
    cases hc
    exact hsame (lasting_kempt.settings hw _ _ _).tidy.ok rfl id
  | stop => exact hsame hok rfl id
  | push =>
    refine replaced (I := (Accounts · j)) h fun c hc => ?_
    obtain ⟨hstatus, hsolver⟩ := solver_of_push hw.tidy.ok hc
    refine ⟨?_, fun _ => h.handed hstatus, ?_⟩
    · rw [hsolver]
      exact h.produced.push
    · rw [h.handed hstatus]
  | check | pop | reset => exact ha.elim

theorem Accounts.pop (h : Accounts w j) (hw : w.Kempt) (hc : w.ctx.pop = .ok c) :
    Accounts ⟨w.store, c⟩ (j.filter (·.2 < w.ctx.depth)) := by
  obtain ⟨a, rest, hs, rfl⟩ := pop_eq_ok hc
  have hscopes : w.ctx.scopes ≠ [] := by
    rw [hs]
    nofun
  have hsolver : w.ctx.rollback.solver = w.ctx.solver.pop := solver_rollback hw.tidy.ok hscopes
  have hdepth := hw.tidy.ok.ctx.tablesDepth
  have hne : w.ctx.solver.scopes ≠ [] := by
    intro hnil
    rw [hnil] at hdepth
    exact hscopes (List.length_eq_zero_iff.mp hdepth.symm)
  refine ⟨?_, fun _ => h.outer, ?_⟩
  · show w.ctx.rollback.solver.Journaled _
    rw [hsolver, ← hdepth]
    exact h.produced.pop hw.tidy.ok.ctx.tablesNested hne
  · exact congrArg (List.filter _) h.outer

theorem solver_commit (hw : w.Ok) (hs : w.ctx.scopes ≠ []) :
    w.ctx.commit.solver = w.ctx.solver.mergeScope := by
  obtain ⟨a, rest, hs⟩ := List.exists_cons_of_ne_nil hs
  unfold Context.commit
  rw [hs]
  show w.ctx.registry.mergeScope.solver = _
  rw [Theory.Registry.mergeScope_eq hw.ctx.registry]
  rfl

/-- What a check leaves in the log. -/
theorem logs_finish (hw : w.Kempt) (h : Work.Searched p stop (w.underway stop) status w' k) :
    Kempt ⟨w'.store, w'.ctx.finish (w.ctx.config.mode == .interactive) (.ok status)⟩ ∧
      Logs w ⟨w'.store, w'.ctx.finish (w.ctx.config.mode == .interactive) (.ok status)⟩
        (if w.takesBack status then [] else k.produced) := by
  have hstart := hw.underway stop
  obtain ⟨hlogs, -⟩ := h.logs hstart.tidy
  have hgrows := h.grows hstart.tidy
  have hok : w'.Ok := hgrows.tidy.ok
  have hkempt' := hstart.grows hgrows
  -- in interactive mode the check has a scope of its own, to be closed or merged in the end
  by_cases hmode : w.ctx.config.mode = .interactive
  · have hopen : (w.underway stop).ctx.solver = w.ctx.solver.push ∧
        (w.underway stop).ctx.scopes ≠ [] := by
      rw [Workspace.underway, hmode]
      refine ⟨?_, nofun⟩
      show w.ctx.openScope.solver = _
      rw [openScope_eq hw.tidy.ok.ctx]
      rfl
    have hscopes : w'.ctx.scopes ≠ [] := by
      rw [hgrows.keeps.scopes]
      exact hopen.2
    have hmarks : w'.ctx.solver.scopes = w.ctx.solver.sizes :: w.ctx.solver.scopes := by
      rw [hlogs.scopes, hopen.1]
      rfl
    have hlog : w'.ctx.solver.log.toList = w.ctx.solver.log.toList ++ k.produced := by
      rw [hlogs.log, hopen.1]
      rfl
    have hbeq : (w.ctx.config.mode == .interactive) = true := by rw [hmode]; rfl
    rw [hbeq]
    have hkempt := lasting_kempt.finish hkempt' true (fun _ => hscopes) (.ok status)
    have conclude {new : List Term}
        (h : (w'.ctx.finish true (.ok status)).solver.log.toList = w.ctx.solver.log.toList ++ new ∧
          (w'.ctx.finish true (.ok status)).solver.scopes = w.ctx.solver.scopes) :
        Logs w ⟨w'.store, w'.ctx.finish true (.ok status)⟩ new :=
          ⟨hkempt.tidy.ok.ctx.registry, h.1, h.2⟩
    refine ⟨hkempt, conclude ?_⟩
    by_cases hstop : status = .interrupted
    · -- the scope of the check is closed
      subst hstop
      have hsolver : (w'.ctx.finish true (.ok .interrupted)).solver = w'.ctx.solver.pop :=
        solver_rollback hok hscopes
      obtain ⟨hpop, houter⟩ := Quant.Solver.log_pop hmarks
      rw [if_pos ⟨hmode, rfl⟩, hsolver, List.append_nil, hpop, houter, hlog]
      exact ⟨List.take_left' (Array.length_toList), rfl⟩
    · -- the scope of the check is merged
      have hsolver : (w'.ctx.finish true (.ok status)).solver = w'.ctx.solver.mergeScope := by
        rw [← solver_commit hok hscopes]
        cases status with
        | interrupted => exact absurd rfl hstop
        | _ => rfl
      rw [if_neg fun h => hstop h.2, hsolver, ← hlog]
      exact ⟨rfl, congrArg List.tail hmarks⟩
  · have hbeq : (w.ctx.config.mode == .interactive) = false := by
      simpa using hmode
    have hsame : (w.underway stop).ctx.solver = w.ctx.solver := by
      rw [Workspace.underway, hbeq]
      rfl
    rw [hbeq, if_neg fun h => hmode h.1]
    have hkempt := lasting_kempt.finish hkempt' false nofun (.ok status)
    exact ⟨hkempt, hkempt.tidy.ok.ctx.registry, hsame ▸ hlogs.log, hsame ▸ hlogs.scopes⟩

theorem Accounts.check (h : Accounts w j) (hw : w.Kempt) (hidle : w.ctx.status = .idle)
    (hsearch : Work.Searched p stop (w.underway stop) status w' k) :
    Accounts ⟨w'.store, w'.ctx.finish (w.ctx.config.mode == .interactive) (.ok status)⟩
      (if w.takesBack status then j else j ++ k.map (·, w.ctx.depth)) := by
  obtain ⟨hkempt, hlogs⟩ := logs_finish hw hsearch
  obtain ⟨-, hhanded⟩ := hsearch.logs (hw.underway stop).tidy
  have hgo : w.ctx.status ≠ .interrupted := by
    rw [hidle]
    nofun
  by_cases hback : w.takesBack status
  · rw [if_pos hback] at hlogs ⊢
    exact h.logs hkempt.tidy.ok hw.tidy.ok hlogs fun hstatus => absurd hstatus hgo
  · rw [if_neg hback] at hlogs ⊢
    have hdepth := hw.tidy.ok.ctx.tablesDepth
    have hsame : (w'.ctx.finish (w.ctx.config.mode == .interactive) (.ok status)).depth =
        w.ctx.depth := by
      rw [← hdepth, ← hkempt.tidy.ok.ctx.tablesDepth]
      exact congrArg List.length hlogs.scopes
    refine ⟨?_, fun hstatus => ?_, ?_⟩
    · have hextend := h.produced.extend hw.tidy.ok.ctx.tablesNested hlogs.log hlogs.scopes
      rwa [hdepth] at hextend
    · have hanswer : status ≠ .interrupted := by
        rintro rfl
        have hmode : (w.ctx.config.mode == .interactive) = false := by
          simpa [takesBack] using hback
        rw [hmode] at hstatus
        exact hstatus rfl
      show j.handed ++ k.handed.map _ = j.produced ++ k.produced.map _
      rw [h.handed hgo, hhanded hanswer]
    · -- the instances of the check are in the innermost scope
      have hnone (ts : List Term) : (ts.map (·, w.ctx.depth)).filter (·.2 < w.ctx.depth) = [] :=
        List.filter_eq_nil_iff.mpr fun e he => by
          obtain ⟨t, -, rfl⟩ := List.mem_map.mp he
          simp
      rw [hsame]
      show (j.handed ++ k.handed.map _).filter _ = (j.produced ++ k.produced.map _).filter _
      rw [List.filter_append, List.filter_append, hnone, hnone, h.handed hgo]

/-- Every journal accounts for the instances of its context. -/
theorem accounts_of_journaled (h : Journaled w j) : Accounts w j := by
  have hnew (s : Store) (config : Config) : Accounts ⟨s, .new config⟩ {} :=
    ⟨Quant.Solver.journaled_empty, fun _ => rfl, rfl⟩
  induction h with
  | new _ config => exact hnew _ config
  | store _ _ _ ih => exact ⟨ih.produced, ih.handed, ih.outer⟩
  | act h ha hsucceeds ih => exact ih.act (kempt_of_used h.used) ha hsucceeds
  | check h hidle hsearch _ ih => exact ih.check (kempt_of_used h.used) hidle hsearch
  | pop h hpop ih => exact ih.pop (kempt_of_used h.used) hpop
  | @reset w _ _ _ =>
    obtain ⟨hproduced, hhanded, houter⟩ := hnew w.store w.ctx.config
    exact ⟨hproduced, fun _ => rfl, houter⟩

/-- Whatever the outcome of a check that is taken back, the instances are those that there
were before. -/
theorem instances_of_takenBack (hw : w.Ok) (hidle : w.ctx.status = .idle)
    (hmode : w.ctx.config.mode = .interactive)
    (hoff : ∀ status w', Work.checkSat p stop fuel w = .ok status w' → status = .interrupted)
    (t : Term) :
    t ∈ (endState (Work.checkSat p stop fuel w)).ctx.solver.instances ↔
    t ∈ w.ctx.solver.instances := by
  rcases checkSat_cases hidle p stop fuel with ⟨e, he⟩ | ⟨outcome, w', hend, heq, -⟩
  · rw [he]
    exact Iff.rfl
  · have hunderway : w.underway stop = ⟨w.store, searching stop w.ctx.openScope⟩ := by
      rw [Workspace.underway, hmode]
      rfl
    have hopen : Workspace.Ok ⟨w.store, w.ctx.openScope⟩ := ⟨hw.store, (openScope_spec hw).1⟩
    have hprobe : Keeps ⟨w.store, w.ctx.openScope⟩ (w.underway stop) :=
      hunderway ▸ keeps_searching hopen stop
    have hsearch := Work.moves_search p stop fuel (w.underway stop) ⟨hw.store, hprobe.ok⟩
    rw [hend] at hsearch
    obtain ⟨-, -, hcontents⟩ := rollback_of_keeps hw (hprobe.trans hsearch.keeps)
    have hfinish : w'.ctx.finish (w.ctx.config.mode == .interactive) outcome =
        { w'.ctx.rollback with status := .idle } := by
      rw [hmode]
      cases outcome with
      | error e => rfl
      | ok status =>
        rw [hoff status _ heq]
        rfl
    rw [heq, Work.endState_check]
    show t ∈ (w'.ctx.finish (w.ctx.config.mode == .interactive) outcome).solver.instances ↔ _
    rw [hfinish]
    exact iff_of_eq (congrFun (congrArg Contents.instances hcontents) t)

end Workspace

/-! ## An instance that is processed -/

open Quant

/-- The core when the units are known and the second of them is added once more in the scope. -/
def Core.redoubled (order : Search.Order) : Core := (known order).addClause [.pos 2] 1

/-- Both units are on the trail then, and there is nothing to decide. -/
theorem Core.redoubled_spec (order : Search.Order) : (redoubled order).hasRootConflict = false ∧
    (redoubled order).propagate = (none, redoubled order) ∧
    (redoubled order).trail = #[.pos 1, .pos 2] ∧ (redoubled order).shouldRestart = false ∧
    (List.range (redoubled order).vars.size).all (fun v => !(redoubled order).isOpen v) = true := by
  obtain ⟨htrail, hlevel, hroot, hrestart, hclosed⟩ := forced_spec
  obtain ⟨hlive, htrue, hdone⟩ : (forced.info 2).live = true ∧
      forced.value (.pos 2) = some true ∧ forced.trail[forced.head]? = none := by
    with_unfolding_all exact ⟨rfl, rfl, rfl⟩
  have hadd : redoubled order =
      { forced with order, units := forced.units.push (.pos 2, 1) } :=
    addClause_of_true (c := known order) hlive htrue (congrArg Array.size hlevel)
  rw [hadd]
  exact ⟨hroot, propagate_of_done hdone, htrail, hrestart, hclosed⟩

namespace Work

variable {core : Core} {q : Solver} {n : Nat}

/-- At level 0 the classes are those of the units. -/
theorem lowered_sought (hcore : core.levelStarts = #[]) :
    lowered ⟨universal, sought core universalClasses q⟩ =
      ⟨universal, sought core (universalClasses.backtrack 0) q⟩ := by
  have hbacktrack : core.backtrack 0 = core := by
    unfold Core.backtrack
    rw [hcore]
    rfl
  have hregistry : (⟨universalClasses, #[.quant q], #[]⟩ : Theory.Registry).backtrack 0 =
      ⟨universalClasses.backtrack 0, #[.quant q], #[]⟩ :=
    Theory.Registry.backtrack_eq (rfl : (⟨_, #[.quant q], #[]⟩ : Theory.Registry).Has q) 0
  show (⟨universal, { sought (core.backtrack 0) universalClasses q with
    registry := (⟨universalClasses, #[.quant q], #[]⟩ : Theory.Registry).backtrack 0 }⟩ :
      Workspace) = _
  rw [hbacktrack, hregistry]
  rfl

/-- The instance has its literal already, which is a unit once more. -/
theorem process_sought {g : Egraph} : process (.ofIndex 5) ⟨universal, sought core g q⟩ =
    .ok () ⟨universal, sought (core.addClause [.pos 2] 1) g q⟩ := by
  have hlit : literalOf (.ofIndex 5) ⟨universal, sought core g q⟩ =
      .ok (.pos 2) ⟨universal, sought core g q⟩ :=
    literalOf_cached (w := ⟨universal, sought core g q⟩) Std.HashMap.getElem?_insert_self
  exact process_app Std.HashMap.isEmpty_empty (by decide) (by decide) (by cbv) hlit

/-- All that was produced is processed, and the search goes on. -/
theorem assertInstances_sought (hcore : core.levelStarts = #[])
    (hroot : (core.addClause [.pos 2] 1).hasRootConflict = false) :
    assertInstances [.ofIndex 5] ⟨universal, sought core universalClasses q⟩ = .ok true
      ⟨universal, sought (core.addClause [.pos 2] 1) (universalClasses.backtrack 0) q⟩ := by
  unfold assertInstances
  rw [bind_of_ok (rfl : change _ _ = .ok () (lowered ⟨universal, sought core universalClasses q⟩)),
    lowered_sought hcore]
  show (((process (.ofIndex 5)) >>= fun _ => pure PUnit.unit) >>= _) _ = _
  rw [bind_assoc, bind_of_ok process_sought]
  show EStateM.Result.ok (!(Context.syncVars _).core.hasRootConflict)
    (⟨universal, Context.syncVars _⟩ : Workspace) = _
  rw [syncVars_eq_self rfl]
  show EStateM.Result.ok (!(core.addClause [.pos 2] 1).hasRootConflict) _ = _
  rw [hroot]
  rfl

/-- With the instance known nothing more is found, and the quantifier leaves it at that. -/
theorem respond_sought {g : Egraph} (hc : q.constraints ≠ #[]) :
    respond .done {} ⟨universal, sought core g q⟩ =
      .ok (some .unknown) ⟨universal, sought core g q⟩ := by
  have hcomplete : (⟨g, #[.quant q], #[]⟩ : Theory.Registry).isComplete = false := by
    simp [Theory.Registry.isComplete, Theory.Satellite.isComplete, Quant.Solver.isComplete, hc]
  unfold respond
  rw [bind_of_ok (rfl : look _ _ = .ok false ⟨universal, sought core g q⟩)]
  show EStateM.Result.ok (some (if (⟨g, #[.quant q], #[]⟩ : Theory.Registry).isComplete = true
    then Status.sat else .unknown)) _ = _
  rw [hcomplete]
  rfl

end Work

namespace Quant

/-- At level 0 again, the classes are those of the two units still. -/
theorem universalClasses_again :
    ((universalClasses.backtrack 0).propagate #[.pos 1, .pos 2]).1.conflict = none ∧
      ((universalClasses.backtrack 0).propagate #[.pos 1, .pos 2]).2 = universalClasses := by
  constructor <;> cbv

/-- The solver with the instance, which was produced in the scope. -/
def instantiated : Solver :=
  (Solver.Round.add ⟨universalSolver.push.startSearch {}, #[]⟩ (.ofIndex 5)).solver

end Quant

namespace Work

/-- The search in the scope: the instance is produced and processed in its first step, and in the
second one nothing is left to do. -/
theorem searched_universal : ∃ w₁,
    Searched {} .never (Workspace.underway ⟨universal, opened .doubled⟩ .never) .unknown w₁
      ⟨[.ofIndex 5], [.ofIndex 5]⟩ ∧
    search {} .never 2 (Workspace.underway ⟨universal, opened .doubled⟩ .never) = .ok .unknown w₁ ∧
    ∃ core, w₁ = ⟨universal, sought core universalClasses instantiated⟩ := by
  -- the assignment is complete at once, and the instance is produced
  obtain ⟨order, happroach₀⟩ := approach_universal
  have hfinal₀ := finalCheck_sought (n := 0) (Core.known order)
    (q := universalSolver.push.startSearch {}) rfl rfl (by decide) Std.HashSet.not_mem_empty
  -- it is processed at level 0
  obtain ⟨hroot, hforced, htrail, hrestart, hclosed⟩ := Core.redoubled_spec order
  have hassert : assertInstances [.ofIndex 5]
      ⟨universal, sought (Core.known order) universalClasses instantiated⟩ = .ok true ⟨universal,
        sought (Core.redoubled order) (universalClasses.backtrack 0) instantiated⟩ :=
    assertInstances_sought Core.forced_spec.2.1 hroot
  obtain ⟨w₃, hprocess, hend⟩ := processed_of_assertInstances hassert
  have hnoted₀ : Noted {} .never 0 _ none _ ⟨[.ofIndex 5], [.ofIndex 5]⟩ :=
    .handed happroach₀ hfinal₀ rfl
      (respond_of_formulas (x := (.continue, { formulas := [.ofIndex 5] })) rfl rfl (by decide)
        (by decide))
      hprocess hend (unlessStuck_of_true hassert)
  -- the assignment is complete again, and there is no other instance
  obtain ⟨hconflict, hclasses⟩ := universalClasses_again
  obtain ⟨order', happroach₁⟩ := approach_sought (n := 1) (Core.redoubled order)
    (g := universalClasses.backtrack 0) (q := instantiated) (by rw [hforced])
    (by rw [hforced]; exact htrail) hconflict (by rw [hforced]; exact hrestart)
    (by rw [hforced]; exact hclosed)
  rw [hclasses] at happroach₁
  have hfinal₁ := finalCheck_universal (q := instantiated) rfl rfl (by decide)
  have hold : .ofIndex 5 ∈ instantiated.instances := Std.HashSet.mem_insert_self
  rw [if_pos hold] at hfinal₁
  have hnoted₁ : Noted {} .never 1 _ (some .unknown) _ {} :=
    .silent happroach₁ (finalCheck_of_look (w := ⟨universal, sought
      { (Core.redoubled order).propagate.2 with order := order' } universalClasses instantiated⟩)
      rfl ((congrArg (fun q => Solver.finalCheck q _ _) (solver_sought _ _ _)).trans hfinal₁)) rfl
      (respond_sought nofun)
  refine ⟨_, .ended (.step (.start startSearch_universal) hnoted₀) hnoted₁, ?_, _, rfl⟩
  unfold search
  rw [bind_of_ok startSearch_universal, if_pos rfl, steps, bind_of_ok hnoted₀.step]
  show steps {} .never 1 1 _ = _
  rw [steps, bind_of_ok hnoted₁.step]
  rfl

end Work

namespace Workspace

variable {w : Workspace}

/-- No instance is lost or duplicated. In a context that was used in some way without a refused
assertion or check, and whose last check was not stopped, every instance that was produced in the
open scopes was handed on: each of them was processed, one after the other, and none was refused.
The log lists these instances without repetition, in the order of the journal, and the set of
instances and their number are those of the log. So closing a scope makes exactly the instances
available again that were produced in it, and a check that is taken back exactly its own. -/
theorem instances_accounted (h : UsedSmoothly w) :
    (∃ j, Journaled w j) ∧ ∀ j, Journaled w j → w.ctx.status ≠ .interrupted →
      j.handed = j.produced ∧
      w.ctx.solver.log.toList = j.handed.map (·.1) ∧ w.ctx.solver.log.toList.Nodup ∧
      (∀ t, t ∈ w.ctx.solver.instances ↔ ∃ d ≤ w.ctx.depth, (t, d) ∈ j.handed) ∧
      w.ctx.solver.numInstances = w.ctx.solver.instances.size ∧
      w.ctx.solver.numInstances = w.ctx.solver.log.size ∧
      (∀ c, w.ctx.pop = .ok c → ∀ t, t ∈ c.solver.instances ↔ ∃ d < w.ctx.depth,
        (t, d) ∈ j.handed) ∧
      (w.ctx.status = .idle → w.ctx.config.mode = .interactive → ∀ p stop fuel,
        (∀ status w', Work.checkSat p stop fuel w = .ok status w' → status = .interrupted) →
          ∀ t, t ∈ (endState (Work.checkSat p stop fuel w)).ctx.solver.instances ↔
          t ∈ w.ctx.solver.instances) := by
  refine ⟨exists_journaled h, fun j hj hgo => ?_⟩
  have hkempt := kempt_of_used hj.used
  have haccounts := accounts_of_journaled hj
  have hhanded := haccounts.handed hgo
  have hindexed := hkempt.tidy.ok.ctx.tables
  have hdepth := hkempt.tidy.ok.ctx.tablesDepth
  have hlog : w.ctx.solver.log.toList = j.handed.map (·.1) := hhanded ▸ haccounts.produced.log
  have hset (t : Term) : t ∈ w.ctx.solver.instances ↔ ∃ d ≤ w.ctx.depth, (t, d) ∈ j.handed := by
    rw [hindexed.instances, ← Array.mem_toList_iff, hlog, List.mem_map]
    constructor
    · rintro ⟨e, he, rfl⟩
      exact ⟨e.2, hdepth ▸ haccounts.produced.scopes e (hhanded ▸ he), he⟩
    · rintro ⟨d, -, he⟩
      exact ⟨_, he, rfl⟩
  -- the set and the log have the same members, and the log has each of them once
  have hsize : w.ctx.solver.instances.size = w.ctx.solver.log.size := by
    have hnodup : w.ctx.solver.instances.toList.Nodup := Std.HashSet.distinct_toList.imp fun h => by
      simpa using h
    have hperm : w.ctx.solver.instances.toList.Perm w.ctx.solver.log.toList :=
      (List.perm_ext_iff_of_nodup hnodup hindexed.nodup).mpr fun t => by
        rw [Std.HashSet.mem_toList, hindexed.instances, Array.mem_toList_iff]
    rw [← Std.HashSet.length_toList, hperm.length_eq, Array.length_toList]
  refine ⟨hhanded, hlog, hindexed.nodup, hset, hindexed.count.trans hsize.symm, hindexed.count,
    fun c hc t => ?_, ?_⟩
  · have hpopped : Journaled ⟨w.store, c⟩ (j.filter (·.2 < w.ctx.depth)) := hj.pop hc
    have hindexed' := (kempt_of_used hpopped.used).tidy.ok.ctx.tables
    have hlog' := (accounts_of_journaled hpopped).produced.log
    change c.solver.log.toList = (j.produced.filter _).map _ at hlog'
    rw [hindexed'.instances, ← Array.mem_toList_iff, hlog', ← hhanded, List.mem_map]
    constructor
    · rintro ⟨e, he, rfl⟩
      obtain ⟨hmem, hlt⟩ := List.mem_filter.mp he
      exact ⟨e.2, of_decide_eq_true hlt, hmem⟩
    · rintro ⟨d, hlt, he⟩
      exact ⟨_, List.mem_filter.mpr ⟨he, decide_eq_true hlt⟩, rfl⟩
  · exact fun hidle hmode p stop fuel hoff t =>
      instances_of_takenBack hkempt.tidy.ok hidle hmode hoff t

/-- A check in an open scope that produces an instance and answers: the instance is journaled as
processed in that scope, the solver has it, and it is available again when the scope is closed. -/
theorem instances_accounted_universal :
    let w := after ⟨universal, .new {}⟩
      [.assertQuantifier (.ofIndex 7) [], .assert [.ofIndex 5], .push, .check {} .never 2]
    ∃ (j : Journal (Term × Nat)) (c : Context), UsedSmoothly w ∧ Journaled w j ∧
      w.ctx.status = .unknown ∧ w.ctx.depth = 1 ∧ j.produced = [(.ofIndex 5, 1)] ∧
      j.handed = [(.ofIndex 5, 1)] ∧ w.ctx.solver.log.toList = [.ofIndex 5] ∧
      .ofIndex 5 ∈ w.ctx.solver.instances ∧ w.ctx.pop = .ok c ∧
      .ofIndex 5 ∉ c.solver.instances := by
  intro w
  obtain ⟨w₁, hsearched, hsearch, core, hend⟩ := Work.searched_universal
  have hcheck : Work.checkSat {} .never 2 ⟨universal, opened .doubled⟩ =
      .ok .unknown ⟨w₁.store, { w₁.ctx with status := .unknown }⟩ := by
    rw [checkSat_eq (w := ⟨universal, opened .doubled⟩) rfl rfl, hsearch]
    rfl
  have hrun : (Action.check {} .never 2).run ⟨universal, opened .doubled⟩ =
      .ok () ⟨w₁.store, { w₁.ctx with status := .unknown }⟩ := bind_of_ok hcheck
  have heq : w = ⟨w₁.store, { w₁.ctx with status := .unknown }⟩ := by
    refine (after_concat _ [_, _, _] _).trans ?_
    rw [Work.after_universal, hrun]
    rfl
  have hnew : Context.new {} = plain .pushPop .initial := new_eq .pushPop
  have hquantifier : (Action.assertQuantifier (.ofIndex 7) []).run ⟨universal, .new {}⟩ =
      .ok () ⟨universal, quantified .initial⟩ := by
    rw [hnew]
    exact Work.assertQuantifier_universal
  have hsmooth : UsedSmoothly w := by
    refine ⟨universal, {}, reached_universal.intact.wf, ?_⟩
    rw [heq]
    exact (((Relation.ReflTransGen.single (.of_ok hquantifier)).tail
      (.of_ok (a := .assert [.ofIndex 5]) Work.assertAll_application)).tail
        (.of_ok (a := .push) Work.push_universal)).tail (.of_ok hrun)
  -- the check produces one instance, in the scope that is open
  have hjournal : Journaled w ⟨[(.ofIndex 5, 1)], [(.ofIndex 5, 1)]⟩ := by
    have hpushed :=
      (((Journaled.new reached_universal.intact.wf {}).of_ok hquantifier trivial).of_ok
      (a := .assert [.ofIndex 5]) Work.assertAll_application trivial).of_ok (a := .push)
        Work.push_universal trivial
    have hchecked := hpushed.check rfl hsearched hcheck
    rw [heq]
    exact hchecked
  have hstatus : w.ctx.status = .unknown := by rw [heq]
  have hscopes : w.ctx.depth = 1 := by
    rw [heq, hend]
    rfl
  obtain ⟨-, haccounted⟩ := instances_accounted hsmooth
  obtain ⟨-, hlog, -, hset, -, -, hpopped, -⟩ := haccounted _ hjournal (by rw [hstatus]; nofun)
  have hpop : w.ctx.pop = .ok { w.ctx.rollback with status := .idle } := by
    rw [heq, hend]
    rfl
  refine ⟨_, _, hsmooth, hjournal, hstatus, hscopes, rfl, rfl, hlog, ?_, hpop, ?_⟩
  · exact (hset _).mpr ⟨1, by rw [hscopes], List.mem_singleton.mpr rfl⟩
  · rw [hpopped _ hpop]
    rintro ⟨d, hd, hmem⟩
    rw [hscopes] at hd
    cases List.mem_singleton.mp hmem
    exact absurd hd (Nat.lt_irrefl 1)

end Workspace
end Entail
