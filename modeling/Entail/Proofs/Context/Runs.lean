import Entail.Proofs.Context.References
import Mathlib.Logic.Relation

/-!
# Runs of operations

A context is used by operations that follow each other in any order, while others build terms in the
same store and collect garbage. As long as a scope stays open, nothing changes what is seen as of
its mark. So the operation that closes it leaves the contents with which it was opened.
-/

namespace Entail

/-- The operations on a context. -/
inductive Action where
  | assert (ts : List Term)
  | assertQuantifier (formula : Term) (patterns : List Term)
  | check (params : Params) (request : StopRequest) (fuel : Nat)
  | block
  | setOption (name : String) (on : Bool)
  | stop
  | push
  | pop
  | reset

namespace Action

/-- What an operation does. -/
def run : Action → Work Unit
  | assert ts => Work.assertAll ts
  | assertQuantifier formula patterns => Work.assertQuantifier formula patterns
  | check params request fuel => do let _ ← Work.checkSat params request fuel
  | block => Work.replace (·.block)
  | setOption name on => Work.replace (·.setOption name on)
  | stop => Work.replace fun c => .ok c.stop
  | push => Work.replace (·.push)
  | pop => Work.replace (·.pop)
  | reset => Work.replace fun c => .ok c.reset

end Action

/-- What others may do to the store of a context: the terms that the context refers to stay terms of
their types. -/
structure Store.Serves (s s' : Store) (c : Context) : Prop where
  wf : s'.Wf
  has : ∀ {t ty}, t ∈ c.roots → s.Has t ty → s'.Has t ty

/-- One step of the use of a context: an operation on it, refused or not, or a change of the
store by others. -/
inductive Move : Workspace → Workspace → Prop where
  | act (a : Action) (w : Workspace) : Move w (endState (a.run w))
  | store {w : Workspace} {s : Store} (h : w.store.Serves s w.ctx) : Move w ⟨s, w.ctx⟩

/-- A store with a context that was used in some way since it was made. -/
def Reachable (w : Workspace) : Prop :=
  ∃ (s : Store) (config : Config), s.Wf ∧ Relation.ReflTransGen Move ⟨s, .new config⟩ w

/-- A run in which there are always at least `depth` open scopes. -/
def RunAbove (depth : Nat) : Workspace → Workspace → Prop :=
  Relation.ReflTransGen fun w w' => Move w w' ∧ depth ≤ w'.ctx.depth

namespace Workspace

open Context

variable {w w' w'' : Workspace} {m : Mark}

/-! ## The beginning -/

theorem ok_blank (s : Store) (config : Config) : (blank config).Ok s where
  vars := ⟨Arena.valid_empty 1, rfl⟩
  live h := by
    rw [Variables.term?_eq_some] at h
    exact absurd h (by simp [blank, Variables.empty, Variables.listen])
  aux h := absurd h Std.HashSet.not_mem_empty
  core := {
    nodup := List.nodup_nil
    free := nofun
    clause := fun {n cl} h => by
      rw [clause?_db] at h
      cases h
    unit := nofun
    empty := nofun }
  registry := rfl
  nodes := Egraph.indexed_empty
  tables := Quant.Solver.indexed_empty
  nested := List.pairwise_singleton _ _
  nodesNested := List.pairwise_singleton _ _
  tablesNested := List.pairwise_singleton _ _
  nodesDepth := rfl
  tablesDepth := rfl

/-- The tables of a new context fit together. -/
theorem ok_new {s : Store} (hs : s.Wf) (config : Config) : Workspace.Ok ⟨s, .new config⟩ := by
  have hblank : Workspace.Ok ⟨s, blank config⟩ := ⟨hs, ok_blank s config⟩
  have hatom := step_frame.stable hblank (step_atom hblank ⟨_, ⟨_, hs.truth⟩, fun _ => rfl⟩)
  have hsync := step_frame.stable hatom (step_syncVars hatom)
  have htrue :
      Workspace.Ok ⟨s,
        { ((blank config).atom .top).2.syncVars with trueLit := ((blank config).atom .top).1 }⟩ :=
    ⟨hs, { hsync.ctx with }⟩
  exact step_frame.stable htrue (step_of_core htrue (Core.grows_addClause htrue.ctx.core _))

/-! ## Operations inside of a scope -/

/-- What is seen as of open marks is the same, and no search is left running. -/
structure Rests (w w' : Workspace) : Prop where
  keeps : Keeps w w'
  status : w'.ctx.status ≠ .searching

/-- Between two operations the tables fit together and no search is running. -/
structure AtRest (w : Workspace) : Prop where
  ok : w.Ok
  status : w.ctx.status ≠ .searching

theorem rests_frame : Frame AtRest Rests where
  refl h := ⟨.refl h.ok, h.status⟩
  trans h h' := ⟨h.keeps.trans h'.keeps, h'.status⟩
  stable _ h := ⟨⟨h.keeps.store.wf, h.keeps.ok⟩, h.status⟩

theorem Step.rests (h : Step w w') (hw : w.AtRest) : Rests w w' := ⟨h.keeps, h.status ▸ hw.status⟩

theorem rests_of_steps {α : Type} {op : Work α} (h : ∀ s, Work.Steps False s op) :
    Moves AtRest Rests op :=
  fun w hw => (Work.Steps.moves h w hw.ok).rests hw

theorem keeps_status (hw : w.Ok) (status : Status) : Keeps w ⟨w.store, { w.ctx with status }⟩ :=
  ⟨Store.built_frame.refl hw.store, { hw.ctx with }, rfl, rfl, rfl, rfl, fun _ => rfl⟩

theorem step_clearSearch (hw : w.Ok) : Step w ⟨w.store, w.ctx.clearSearch⟩ := by
  refine Work.step_withBacktrack hw ?_ 0
  rw [Core.db_assignUnits, Core.db_resetTrail]
  exact .refl hw.ctx.core

/-- A finished search may be dropped. -/
theorem keeps_clearSearch (hw : w.Ok) (status : Status) :
    Keeps w ⟨w.store, { w.ctx.clearSearch with status }⟩ :=
  have hclear := step_clearSearch hw
  hclear.keeps.trans (keeps_status (step_frame.stable hw hclear) status)

theorem rests_reopen (hw : w.AtRest) : Rests w ⟨w.store, w.ctx.reopen⟩ := by
  unfold reopen
  split
  · exact ⟨keeps_clearSearch hw.ok .idle, nofun⟩
  · exact rests_frame.refl hw

theorem rests_settle (hw : w.AtRest) : Rests w ⟨w.store, w.ctx.settle⟩ := by
  have hsync := step_syncVars hw.ok
  refine ⟨hsync.keeps.trans (keeps_status (step_frame.stable hw.ok hsync) _), ?_⟩
  show (if w.ctx.syncVars.core.hasRootConflict then Status.unsat else .idle) ≠ .searching
  split <;> nofun

theorem rests_change {f : Context → Context}
    (h : ∀ {w : Workspace}, w.AtRest → Rests w ⟨w.store, f w.ctx⟩) :
    Moves AtRest Rests (Work.change f) :=
  fun _ hw => h hw

/-- An operation that may be refused, and then does nothing. -/
theorem moves_replace {P : Workspace → Prop} {R : Workspace → Workspace → Prop}
    {f : Context → Except Failure Context} (hrefl : ∀ {w}, P w → R w w)
    (h : ∀ {w : Workspace} {c : Context}, P w → f w.ctx = .ok c → R w ⟨w.store, c⟩) :
    Moves P R (Work.replace f) := by
  intro w hw
  unfold Work.replace
  simp only
  cases hf : f w.ctx with
  | ok c => exact h hw hf
  | error e => exact hrefl hw

theorem rests_note (t : Term) : Moves AtRest Rests (Work.change (·.note t)) :=
  rests_change fun hw => ⟨keeps_note hw.ok t, hw.status⟩

theorem rests_process (t : Term) : Moves AtRest Rests (Work.process t) :=
  rests_of_steps fun _ => Work.steps_process False.elim

theorem rests_check {α : Type} (f : Store → Context → Except Failure α) :
    Moves AtRest Rests (Work.check f) :=
  rests_of_steps fun _ => Work.steps_check f

theorem rests_look {α : Type} (f : Store → Context → α) : Moves AtRest Rests (Work.look f) :=
  rests_of_steps fun _ => Work.steps_look f

theorem rests_assertAll (ts : List Term) : Moves AtRest Rests (Work.assertAll ts) := by
  refine rests_frame.bind (rests_check _) fun _ => rests_frame.bind (rests_check _) fun _ => ?_
  refine rests_frame.bind (rests_look _) fun status => ?_
  split
  · exact rests_frame.pure _
  refine rests_frame.bind (rests_change rests_reopen) fun _ => ?_
  refine rests_frame.bind (rests_frame.forM ts fun t _ => ?_) fun _ => rests_change rests_settle
  exact rests_frame.bind (rests_note t) fun _ => rests_process t

theorem rests_assertQuantifier (formula : Term) (patterns : List Term) :
    Moves AtRest Rests (Work.assertQuantifier formula patterns) := by
  refine rests_frame.bind (rests_check _) fun _ => rests_frame.bind (rests_check _) fun _ => ?_
  have hquantified : Moves AtRest Rests (Work.checkQuantified formula) := by
    refine rests_frame.bind (rests_look _) fun shape => ?_
    split
    · exact rests_frame.throw _
    · exact rests_frame.pure _
  refine rests_frame.bind hquantified fun _ => rests_frame.bind (rests_look _) fun status => ?_
  split
  · exact rests_frame.pure _
  refine rests_frame.bind (rests_change rests_reopen) fun _ =>
    rests_frame.bind (rests_look _) fun σ => ?_
  refine rests_frame.bind (rests_of_steps fun _ => Work.steps_onStore
    (Store.builders_built.subst σ formula)) fun t => ?_
  refine rests_frame.bind (rests_look _) fun shape => ?_
  split
  · refine rests_frame.bind (rests_note formula) fun _ =>
      rests_frame.bind (rests_process t) fun _ => ?_
    exact rests_change rests_settle
  · have hpatterns : Moves Store.Wf Store.Built (patterns.mapM (Store.subst σ)) :=
      Store.built_frame.mapM patterns fun p _ => Store.builders_built.subst σ p
    refine rests_frame.bind (rests_of_steps fun _ => Work.steps_onStore hpatterns) fun patterns =>
      ?_
    refine rests_frame.bind (rests_of_steps fun _ => Work.steps_addConstraint t patterns) fun _ =>
      ?_
    exact rests_frame.bind (rests_note formula) fun _ => rests_change rests_settle

theorem rests_block : Moves AtRest Rests (Work.replace (·.block)) := by
  refine moves_replace rests_frame.refl fun {w c} hw hc => ?_
  unfold block at hc
  split at hc
  · cases hc
  · split at hc
    · cases hc
    · cases hc
      have hclear := step_clearSearch hw.ok
      have hw' := step_frame.stable hw.ok hclear
      have hadd :=
        step_of_core hw' (Core.grows_addClause hw'.ctx.core (w.ctx.core.decisions.map (·.neg)))
      refine ⟨(step_frame.trans hclear hadd).keeps.trans
        (keeps_status (step_frame.stable hw' hadd) _), ?_⟩
      show (if _ then Status.unsat else .idle) ≠ .searching
      split <;> nofun

theorem rests_setOption (name : String) (on : Bool) :
    Moves AtRest Rests (Work.replace (·.setOption name on)) := by
  refine moves_replace rests_frame.refl fun {w c} hw hc => ?_
  unfold setOption at hc
  cases hx : Simplification.ofName name with
  | error e =>
    rw [hx] at hc
    cases hc
  | ok x =>
    rw [hx] at hc
    cases hc
    exact ⟨⟨Store.built_frame.refl hw.ok.store, { hw.ok.ctx with }, rfl, rfl, rfl, rfl, fun _ =>
      rfl⟩, hw.status⟩

theorem rests_stop : Moves AtRest Rests (Work.replace fun c => .ok c.stop) :=
  moves_replace rests_frame.refl fun hw hc => by
    cases hc
    exact (Work.step_interrupted hw.ok true).rests hw

/-! ## Scopes -/

/-- What is seen as of the marks of the scopes that stay open is the same. -/
structure Survives (w w' : Workspace) : Prop where
  rest : w'.AtRest
  config : w'.ctx.config = w.ctx.config
  kept : ∀ {m : Mark}, m.Open w.ctx → m.depth < w'.ctx.depth → m.Open w'.ctx ∧
    w'.ctx.upTo m = w.ctx.upTo m

theorem Survives.of_rests (h : Rests w w') : Survives w w' where
  rest := ⟨⟨h.keeps.store.wf, h.keeps.ok⟩, h.status⟩
  config := h.keeps.config
  kept hm _ := ⟨h.keeps.open hm, h.keeps.upTo hm⟩

/-- A change of the status after scopes were opened or closed. -/
theorem Survives.of_ok {c : Context} (h : Workspace.Ok ⟨w.store, c⟩)
    (hconfig : c.config = w.ctx.config)
    (hkept : ∀ {m : Mark}, m.Open w.ctx → m.depth < c.depth → m.Open c ∧ c.upTo m = w.ctx.upTo m)
    {status : Status}
    (hstatus : status ≠ .searching) : Survives w ⟨w.store, { c with status }⟩ where
  rest := ⟨⟨h.store, { h.ctx with }⟩, hstatus⟩
  config := hconfig
  kept hm hlt := ⟨(hkept hm hlt).1.of_scopes rfl rfl rfl, (hkept hm hlt).2⟩

theorem Survives.refl (hw : w.AtRest) : Survives w w := .of_rests (rests_frame.refl hw)

/-- What comes first may keep all scopes. -/
theorem Survives.after (hconfig : w'.ctx.config = w.ctx.config)
    (hkept : ∀ {m : Mark}, m.Open w.ctx → m.Open w'.ctx ∧ w'.ctx.upTo m = w.ctx.upTo m)
    (h : Survives w' w'') :
    Survives w w'' where
  rest := h.rest
  config := h.config.trans hconfig
  kept hm hlt := by
    obtain ⟨hopen, hupTo⟩ := h.kept (hkept hm).1 hlt
    exact ⟨hopen, hupTo.trans (hkept hm).2⟩

theorem Keeps.survives (h : Keeps w w') (h' : Survives w' w'') : Survives w w'' :=
  .after h.config (fun hm => ⟨h.open hm, h.upTo hm⟩) h'

theorem survives_openScope (hw : w.AtRest) : Survives w ⟨w.store, w.ctx.openScope⟩ := by
  obtain ⟨hok, -, -, -, hkept⟩ := openScope_spec hw.ok
  exact ⟨⟨⟨hw.ok.store, hok⟩, hw.status⟩, rfl, fun hm _ => hkept hm⟩

/-- A push opens a scope, after a finished search was dropped. -/
theorem push_eq_ok {c : Context} (h : w.ctx.push = .ok c) (hw : w.AtRest) :
    w.ctx.config.mode.hasScopes = true ∧
      ∃ w', Rests w w' ∧ w'.store = w.store ∧ w'.ctx.depth = w.ctx.depth ∧ w'.ctx.status = .idle ∧
        c = w'.ctx.openScope := by
  unfold push at h
  split at h
  · cases h
  next hmode =>
    refine ⟨by simpa using hmode, ?_⟩
    have hdrop : ∃ w', Rests w w' ∧ w'.store = w.store ∧ w'.ctx.depth = w.ctx.depth ∧
      w'.ctx.status = .idle ∧
        { w.ctx.clearSearch with status := .idle }.openScope = w'.ctx.openScope :=
      ⟨⟨w.store, { w.ctx.clearSearch with status := .idle }⟩,
        ⟨keeps_clearSearch hw.ok .idle, nofun⟩, rfl, rfl, rfl, rfl⟩
    split at h
    · cases h
    · cases h
    · cases h
    · cases h
      exact hdrop
    · cases h
      exact hdrop
    next hidle =>
      cases h
      exact ⟨w, rests_frame.refl hw, rfl, rfl, hidle, rfl⟩

theorem survives_push : Moves AtRest Survives (Work.replace (·.push)) := by
  refine moves_replace Survives.refl fun {w c} hw hc => ?_
  obtain ⟨-, w', hrests, hstore, -, -, rfl⟩ := push_eq_ok hc hw
  rw [← hstore]
  exact hrests.keeps.survives (survives_openScope (rests_frame.stable hw hrests))

theorem pop_eq_ok {c : Context} (h : w.ctx.pop = .ok c) :
    ∃ a rest, w.ctx.scopes = a :: rest ∧ c = { w.ctx.rollback with status := .idle } := by
  unfold pop at h
  split at h
  · cases h
  · split at h
    · cases h
    next hscopes =>
      cases h
      cases hs : w.ctx.scopes with
      | nil => simp [hs] at hscopes
      | cons a rest => exact ⟨a, rest, rfl, rfl⟩

/-- Closing the innermost scope. -/
theorem survives_rollback (hw : w.Ok) {a : Context.Scope} {rest : List Context.Scope}
    (hs : w.ctx.scopes = a :: rest) :
    Survives w ⟨w.store, { w.ctx.rollback with status := .idle }⟩ := by
  obtain ⟨hok, hscopes, hconfig, hkept⟩ := rollback_spec hw hs
  refine .of_ok (c := w.ctx.rollback) ⟨hw.store, hok⟩ hconfig (fun hm hlt => ?_) nofun
  obtain ⟨hupTo, hopen, -⟩ := hkept hm
  rw [depth, hscopes] at hlt
  exact ⟨hopen hlt, hupTo⟩

theorem survives_pop : Moves AtRest Survives (Work.replace (·.pop)) := by
  refine moves_replace Survives.refl fun {w c} hw hc => ?_
  obtain ⟨a, rest, hs, rfl⟩ := pop_eq_ok hc
  exact survives_rollback hw.ok hs

theorem survives_reset : Moves AtRest Survives (Work.replace fun c => .ok c.reset) := by
  refine moves_replace Survives.refl fun {w c} hw hc => ?_
  cases hc
  have hnew := ok_new hw.ok.store w.ctx.config
  exact ⟨⟨⟨hw.ok.store, { hnew.ctx with }⟩, nofun⟩, rfl, fun _ hlt =>
    absurd hlt (Nat.not_lt_zero _)⟩

/-- Closing the innermost scope into the one around it. -/
theorem survives_commit (hw : w.Ok) {a : Context.Scope} {rest : List Context.Scope}
    (hs : w.ctx.scopes = a :: rest) {status : Status} (hstatus : status ≠ .searching) :
    Survives w ⟨w.store, { w.ctx.commit with status }⟩ := by
  obtain ⟨hok, hscopes, hkept⟩ := commit_spec hw hs
  refine .of_ok (c := w.ctx.commit) ⟨hw.store, hok⟩ ?_ (fun hm hlt => ?_) hstatus
  · unfold commit
    rw [hs]
  · rw [depth, hscopes] at hlt
    exact hkept hm hlt

/-- The end of a check, after a search in a scope of its own or not. -/
theorem survives_finish (hw : w.Ok) (interactive : Bool)
    (hs : interactive = true → w.ctx.scopes ≠ [])
    {outcome : Except Failure Status} (houtcome : outcome ≠ .ok .searching) :
    Survives w ⟨w.store, w.ctx.finish interactive outcome⟩ := by
  cases interactive with
  | true =>
    obtain ⟨a, rest, hscopes⟩ := List.exists_cons_of_ne_nil (hs rfl)
    cases outcome with
    | error e => exact survives_rollback hw hscopes
    | ok status =>
      have hstatus : status ≠ .searching := fun h => houtcome (congrArg Except.ok h)
      cases status with
      | interrupted => exact survives_rollback hw hscopes
      | _ => exact survives_commit hw hscopes hstatus
  | false =>
    cases outcome with
    | error e => exact .of_rests ⟨keeps_clearSearch hw .idle, nofun⟩
    | ok status => exact .of_rests ⟨keeps_status hw status, fun h =>
      houtcome (congrArg Except.ok h)⟩

/-- A context whose search starts, with the given stop request. -/
def searching (stop : StopRequest) (c : Context) : Context :=
  { c with interrupted := stop == .atStart, status := .searching }

theorem keeps_searching (hw : w.Ok) (stop : StopRequest) :
    Keeps w ⟨w.store, searching stop w.ctx⟩ :=
  ⟨Store.built_frame.refl hw.store, { hw.ctx with }, rfl, rfl, rfl, rfl, fun _ => rfl⟩

/-- A search is started, and ended as its outcome says. -/
theorem endState_searching (interactive : Bool) (p : Params) (stop : StopRequest) (fuel : Nat)
    (w : Workspace) :
    let start : Workspace := ⟨w.store, searching stop w.ctx⟩
    let last := endState (Work.search p stop fuel start)
    ∃ outcome : Except Failure Status,
      endState ((do
        Work.change (searching stop)
        let outcome ← Work.attempt (Work.search p stop fuel)
        Work.change (·.finish interactive outcome)
        Work.check fun _ _ => outcome : Work Status) w) =
          ⟨last.store, last.ctx.finish interactive outcome⟩ ∧
      ∀ status, outcome = .ok status → Work.search p stop fuel start = .ok status last := by
  intro start last
  obtain ⟨outcome, hattempt, hanswer⟩ := Work.attempt_eq (Work.search p stop fuel) start
  refine ⟨outcome, ?_, hanswer⟩
  rw [bind_of_ok (rfl : Work.change _ w = .ok () start), bind_of_ok hattempt,
    bind_of_ok (rfl : Work.change _ _ = .ok () _), Work.endState_check]

theorem survives_searching (hw : w.Ok) (interactive : Bool)
    (hs : interactive = true → w.ctx.scopes ≠ []) (p : Params) (stop : StopRequest) (fuel : Nat) :
    Survives w (endState ((do
      Work.change (searching stop)
      let outcome ← Work.attempt (Work.search p stop fuel)
      Work.change (·.finish interactive outcome)
      Work.check fun _ _ => outcome : Work Status) w)) := by
  obtain ⟨outcome, hend, hanswer⟩ := endState_searching interactive p stop fuel w
  have hstart := keeps_searching hw stop
  have hkeeps := hstart.trans (Work.moves_search p stop fuel ⟨w.store, searching stop w.ctx⟩
    ⟨hw.store, hstart.ok⟩).keeps
  rw [hend]
  refine hkeeps.survives (survives_finish ⟨hkeeps.store.wf, hkeeps.ok⟩ interactive
    (fun hi => hkeeps.scopes ▸ hs hi) ?_)
  exact fun h => (Work.answers_search p stop fuel _ _ _ (hanswer _ h)).2 rfl

theorem survives_checkSat (p : Params) (stop : StopRequest) (fuel : Nat) :
    Moves AtRest Survives (Work.checkSat p stop fuel) := by
  intro w hw
  unfold Work.checkSat
  rw [bind_of_ok (rfl : Work.look _ w = .ok w.ctx.status w)]
  cases w.ctx.status with
  | idle =>
    cases p.validate with
    | error e => exact .refl hw
    | ok =>
      simp only
      rw [bind_of_ok (rfl : Work.check (fun _ _ => .ok ()) w = .ok () w),
        bind_of_ok (rfl : Work.look _ w = .ok (w.ctx.config.mode == .interactive) w)]
      cases w.ctx.config.mode == .interactive with
      | true =>
        obtain ⟨hok, -, -, -, hkept⟩ := openScope_spec hw.ok
        have hopen : Workspace.Ok ⟨w.store, w.ctx.openScope⟩ := ⟨hw.ok.store, hok⟩
        have hsearch := survives_searching hopen true nofun p stop fuel
        exact @Survives.after w ⟨w.store, w.ctx.openScope⟩ _ rfl hkept hsearch
      | false => exact survives_searching hw.ok false nofun p stop fuel
  | _ => exact .refl hw

/-- What a check leaves does not depend on what is done with its answer. -/
theorem endState_run_check (p : Params) (stop : StopRequest) (fuel : Nat) (w : Workspace) :
    endState ((Action.check p stop fuel).run w) = endState (Work.checkSat p stop fuel w) := by
  show endState ((Work.checkSat p stop fuel >>= fun _ => pure ()) w) = _
  cases hrun : Work.checkSat p stop fuel w with
  | ok status w' =>
    rw [bind_of_ok hrun]
    rfl
  | error e w' =>
    rw [bind_of_error hrun]
    rfl

theorem endState_replace {f : Context → Except Failure Context} {c : Context}
    (h : f w.ctx = .ok c) :
    endState (Work.replace f w) = ⟨w.store, c⟩ := by
  unfold Work.replace
  simp only [h]
  rfl

/-- No operation changes what is seen as of the marks of scopes that it leaves open. -/
theorem survives_run (a : Action) : Moves AtRest Survives a.run := by
  cases a with
  | assert ts => exact (rests_assertAll ts).mono fun _ _ _ => .of_rests
  | assertQuantifier formula patterns =>
    exact (rests_assertQuantifier formula patterns).mono fun _ _ _ => .of_rests
  | check p stop fuel =>
    intro w hw
    rw [endState_run_check]
    exact survives_checkSat p stop fuel w hw
  | block => exact rests_block.mono fun _ _ _ => .of_rests
  | setOption name on => exact (rests_setOption name on).mono fun _ _ _ => .of_rests
  | stop => exact rests_stop.mono fun _ _ _ => .of_rests
  | push => exact survives_push
  | pop => exact survives_pop
  | reset => exact survives_reset

/-- A term with a variable is among those that the context refers to. -/
theorem mem_roots_of_term? {c : Context} {v : Nat} {t : Term} (h : c.vars.term? v = some t) :
    t ∈ c.roots := by
  unfold roots
  simp only [List.mem_append]
  refine .inl (.inl (.inl (.inl (.inl (.inr ?_)))))
  exact List.mem_map.mpr ⟨(v, t), Variables.mem_toList.mpr h, rfl⟩

theorem survives_move (h : Move w w') (hw : w.AtRest) : Survives w w' := by
  cases h with
  | act a => exact survives_run a w hw
  | store hs =>
    refine ⟨⟨⟨hs.wf, { hw.ok.ctx with live := fun hv => ?_ }⟩, hw.status⟩, rfl,
      fun hm _ => ⟨hm, rfl⟩⟩
    obtain ⟨ty, hty⟩ := hw.ok.ctx.live hv
    exact ⟨ty, hs.has (mem_roots_of_term? hv) hty⟩

theorem atRest_of_reachable (h : Reachable w) : w.AtRest := by
  obtain ⟨s, config, hs, hrun⟩ := h
  induction hrun with
  | refl => exact ⟨ok_new hs config, nofun⟩
  | tail _ hmove ih => exact (survives_move hmove ih).rest

/-- In a run in which there are always at least `depth` scopes, what is seen as of the marks of
these does not change. -/
theorem survives_runAbove {depth : Nat} (h : RunAbove depth w w') (hw : w.AtRest) :
    w'.AtRest ∧ w'.ctx.config = w.ctx.config ∧
      ∀ {m : Mark}, m.Open w.ctx → m.depth < depth → m.Open w'.ctx ∧
      w'.ctx.upTo m = w.ctx.upTo m := by
  induction h with
  | refl => exact ⟨hw, rfl, fun hm _ => ⟨hm, rfl⟩⟩
  | tail _ hmove ih =>
    obtain ⟨hrest, hconfig, hkept⟩ := ih
    have h := survives_move hmove.1 hrest
    refine ⟨h.rest, h.config.trans hconfig, fun hm hlt => ?_⟩
    obtain ⟨hopen, hupTo⟩ := hkept hm hlt
    obtain ⟨hopen', hupTo'⟩ := h.kept hopen (Nat.lt_of_lt_of_le hlt hmove.2)
    exact ⟨hopen', hupTo'.trans hupTo⟩

end Workspace

namespace Context

open Workspace

variable {w w' : Workspace} {c : Context}

/-- The pop of a scope leaves the contents with which its push opened it, whatever was done
in between. -/
theorem pop_restores (hw : Reachable w) (hpush : w.ctx.push = .ok c)
    (hrun : RunAbove c.depth ⟨w.store, c⟩ w') (hdepth : w'.ctx.depth = c.depth) :
    ∃ c', w'.ctx.pop = .ok c' ∧ c'.status = .idle ∧
    c'.depth = w.ctx.depth ∧ c'.contents = c.contents := by
  have hrest := atRest_of_reachable hw
  obtain ⟨hmode, w₀, hrests, hstore, hdepth₀, hidle, rfl⟩ := push_eq_ok hpush hrest
  have hw₀ := rests_frame.stable hrest hrests
  obtain ⟨hok, hopened, hopen, hwhole, -⟩ := openScope_spec hw₀.ok
  rw [← hstore] at hrun
  have hstart : AtRest ⟨w₀.store, w₀.ctx.openScope⟩ := ⟨⟨hw₀.ok.store, hok⟩, hw₀.status⟩
  obtain ⟨hrest', hconfig, hkept⟩ := survives_runAbove hrun hstart
  have hlt : w₀.ctx.here.depth < w₀.ctx.openScope.depth := by
    rw [hopened]
    exact Nat.lt_succ_self _
  obtain ⟨hopen', hupTo⟩ := hkept hopen hlt
  -- the innermost scope is the one that the push opened
  obtain ⟨a, rest, hs⟩ : ∃ a rest, w'.ctx.scopes = a :: rest := by
    refine List.exists_cons_of_length_pos ?_
    rw [show w'.ctx.scopes.length = _ from hdepth, hopened]
    exact Nat.succ_pos _
  have hlen : rest.length = w₀.ctx.depth := by
    have h : (a :: rest).length = w₀.ctx.depth + 1 := hs ▸ hdepth.trans hopened
    exact Nat.succ.inj h
  obtain ⟨hok', hscopes, -, hback⟩ := rollback_spec hrest'.ok hs
  obtain ⟨hupTo', -, hwhole'⟩ := hback hopen'
  refine ⟨{ w'.ctx.rollback with status := .idle }, ?_, rfl, ?_, ?_⟩
  · have hscopes' : w'.ctx.config.mode.hasScopes = true := by
      rw [hconfig, show w₀.ctx.openScope.config = w₀.ctx.config from rfl, hrests.keeps.config]
      exact hmode
    unfold pop
    rw [hscopes', hs, if_neg (by simp), if_neg (by simpa using hrest'.status)]
  · exact (congrArg List.length hscopes).trans (hlen.trans hdepth₀)
  · show w'.ctx.rollback.contents = _
    exact contents_eq hok hok' hwhole (hwhole' hlen.symm) (hupTo'.trans hupTo)

/-- A scope in which the false formula was asserted. -/
theorem pop_restores_refuted :
    let w : Workspace := ⟨.empty, .new {}⟩
    let w' := endState ((Action.assert [.bot]).run ⟨.empty, w.ctx.openScope⟩)
    Reachable w ∧ w.ctx.push = .ok w.ctx.openScope ∧
      RunAbove w.ctx.openScope.depth ⟨.empty, w.ctx.openScope⟩ w' ∧
      w'.ctx.depth = w.ctx.openScope.depth ∧
      ∃ c', w'.ctx.pop = .ok c' ∧ c'.status = .idle ∧ c'.depth = w.ctx.depth ∧
        c'.contents = w.ctx.openScope.contents := by
  intro w w'
  have hw : Reachable w := ⟨.empty, {}, Store.wf_empty, .refl⟩
  have hpush : w.ctx.push = .ok w.ctx.openScope := rfl
  have hopened : AtRest ⟨.empty, w.ctx.openScope⟩ :=
    (survives_openScope (atRest_of_reachable hw)).rest
  have hdepth : w'.ctx.depth = w.ctx.openScope.depth :=
    congrArg List.length (rests_assertAll [.bot] _ hopened).keeps.scopes
  have hrun : RunAbove w.ctx.openScope.depth ⟨.empty, w.ctx.openScope⟩ w' :=
    .single ⟨.act _ _, Nat.le_of_eq hdepth.symm⟩
  exact ⟨hw, hpush, hrun, hdepth, pop_restores hw hpush hrun hdepth⟩

end Context
end Entail

/-!
## Properties that last

Every operation on a context is put together from a few parts: a finished search is dropped, a scope
is opened, merged or taken back, formulas are asserted, a search is made. A property that these
keep, and that does not depend on options, status and stop requests, lasts through every operation,
whether it is refused or not.
-/

namespace Entail.Workspace

open Context

variable {I : Workspace → Prop} {w : Workspace}

/-- The property is kept by the parts of which operations are made. -/
structure Lasting (I : Workspace → Prop) : Prop where
  ok {w : Workspace} (hw : I w) : w.Ok
  settings {w : Workspace} (hw : I w) (options : Options) (status : Status) (interrupted : Bool) :
    I ⟨w.store, { w.ctx with options, status, interrupted }⟩
  clearSearch {w : Workspace} (hw : I w) : I ⟨w.store, w.ctx.clearSearch⟩
  openScope {w : Workspace} (hw : I w) : I ⟨w.store, w.ctx.openScope⟩
  commit {w : Workspace} (hw : I w) (hs : w.ctx.scopes ≠ []) : I ⟨w.store, w.ctx.commit⟩
  rollback {w : Workspace} (hw : I w) (hs : w.ctx.scopes ≠ []) : I ⟨w.store, w.ctx.rollback⟩
  /-- The decisions of the present assignment may be excluded once it is dropped. -/
  exclude {w : Workspace} (hw : I w) :
    I ⟨w.store, w.ctx.clearSearch.addClause (w.ctx.core.decisions.map (·.neg))⟩
  reset {w : Workspace} (hw : I w) : I ⟨w.store, w.ctx.reset⟩
  assertAll {w : Workspace} (hw : I w) (ts : List Term) : I (endState (Work.assertAll ts w))
  assertQuantifier {w : Workspace} (hw : I w) (formula : Term) (patterns : List Term) :
    I (endState (Work.assertQuantifier formula patterns w))
  search {w : Workspace} (hw : I w) (p : Params) (stop : StopRequest) (fuel : Nat) :
    I (endState (Work.search p stop fuel w))

/-- An operation that may be refused, and then does nothing. -/
theorem replaced (hw : I w) {f : Context → Except Failure Context}
    (hf : ∀ c, f w.ctx = .ok c → I ⟨w.store, c⟩) :
    I (endState (Work.replace f w)) := by
  unfold Work.replace
  simp only
  cases hc : f w.ctx with
  | ok c => exact hf c hc
  | error e => exact hw

namespace Lasting

variable (h : Lasting I)

include h

theorem dropped (hw : I w) (status : Status) : I ⟨w.store, { w.ctx.clearSearch with status }⟩ :=
  h.settings (h.clearSearch hw) _ status _

theorem block (hw : I w) {c : Context} (hc : w.ctx.block = .ok c) : I ⟨w.store, c⟩ := by
  unfold Context.block at hc
  split at hc
  · cases hc
  · split at hc
    · cases hc
    · cases hc
      exact h.settings (h.exclude hw) _ _ _

theorem push (hw : I w) {c : Context} (hc : w.ctx.push = .ok c) : I ⟨w.store, c⟩ := by
  have hdropped : I ⟨w.store, { w.ctx.clearSearch with status := .idle }.openScope⟩ :=
    h.openScope (h.dropped hw .idle)
  unfold Context.push at hc
  split at hc
  · cases hc
  · split at hc
    · cases hc
    · cases hc
    · cases hc
    · cases hc
      exact hdropped
    · cases hc
      exact hdropped
    · cases hc
      exact h.openScope hw

theorem pop (hw : I w) {c : Context} (hc : w.ctx.pop = .ok c) : I ⟨w.store, c⟩ := by
  obtain ⟨a, rest, hs, rfl⟩ := pop_eq_ok hc
  exact h.settings (h.rollback hw (by rw [hs]; nofun)) _ _ _

/-- The end of a check, after a search in a scope of its own or not. -/
theorem finish (hw : I w) (interactive : Bool) (hs : interactive = true → w.ctx.scopes ≠ [])
    (outcome : Except Failure Status) : I ⟨w.store, w.ctx.finish interactive outcome⟩ := by
  cases interactive with
  | true =>
    have hback := h.settings (h.rollback hw (hs rfl)) w.ctx.rollback.options .idle
      w.ctx.rollback.interrupted
    cases outcome with
    | error e => exact hback
    | ok status =>
      cases status with
      | interrupted => exact hback
      | _ => exact h.settings (h.commit hw (hs rfl)) _ _ _
  | false =>
    cases outcome with
    | error e => exact h.dropped hw .idle
    | ok status => exact h.settings hw _ _ _

theorem searching (hw : I w) (interactive : Bool) (hs : interactive = true → w.ctx.scopes ≠ [])
    (p : Params) (stop : StopRequest) (fuel : Nat) :
    I (endState ((do
      Work.change (searching stop)
      let outcome ← Work.attempt (Work.search p stop fuel)
      Work.change (·.finish interactive outcome)
      Work.check fun _ _ => outcome : Work Status) w)) := by
  obtain ⟨outcome, hend, -⟩ := endState_searching interactive p stop fuel w
  have hstart : I ⟨w.store, Workspace.searching stop w.ctx⟩ := h.settings hw _ _ _
  have hscopes := (Work.moves_search p stop fuel _ (h.ok hstart)).keeps.scopes
  rw [hend]
  refine h.finish (h.search hstart p stop fuel) interactive (fun hi => ?_) outcome
  rw [hscopes]
  exact hs hi

theorem checkSat (hw : I w) (p : Params) (stop : StopRequest) (fuel : Nat) :
    I (endState (Work.checkSat p stop fuel w)) := by
  unfold Work.checkSat
  rw [bind_of_ok (rfl : Work.look _ w = .ok w.ctx.status w)]
  cases w.ctx.status with
  | idle =>
    cases p.validate with
    | error e => exact hw
    | ok =>
      simp only
      rw [bind_of_ok (rfl : Work.check (fun _ _ => .ok ()) w = .ok () w),
        bind_of_ok (rfl : Work.look _ w = .ok (w.ctx.config.mode == .interactive) w)]
      cases w.ctx.config.mode == .interactive with
      | true => exact h.searching (h.openScope hw) true nofun p stop fuel
      | false => exact h.searching hw false nofun p stop fuel
  | _ => exact hw

/-- A property that lasts is kept by every operation, whether it is refused or not. -/
theorem run (a : Action) (hw : I w) : I (endState (a.run w)) := by
  cases a with
  | assert ts => exact h.assertAll hw ts
  | assertQuantifier formula patterns => exact h.assertQuantifier hw formula patterns
  | check p stop fuel =>
    rw [endState_run_check]
    exact h.checkSat hw p stop fuel
  | block => exact replaced hw fun c => h.block hw
  | setOption name on =>
    refine replaced (f := (·.setOption name on)) hw fun c hc => ?_
    obtain ⟨x, -, hc⟩ := Store.bind_eq_ok_iff.mp hc
    cases hc
    exact h.settings hw _ _ _
  | stop =>
    refine replaced (f := fun c => .ok c.stop) hw fun c hc => ?_
    cases hc
    exact h.settings hw _ _ _
  | push => exact replaced hw fun c => h.push hw
  | pop => exact replaced hw fun c => h.pop hw
  | reset =>
    refine replaced (f := fun c => .ok c.reset) hw fun c hc => ?_
    cases hc
    exact h.reset hw

end Lasting
end Entail.Workspace
