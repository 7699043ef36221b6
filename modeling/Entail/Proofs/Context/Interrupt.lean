import Entail.Proofs.Context.Plain
import Entail.Proofs.Search.Levels

/-!
# Interactive checks that do not finish

An interactive check opens a scope before it searches. When the search sees a stop request or fails,
whatever it did until then, that scope is closed again, so the check leaves the context as it was.
-/

namespace Entail

namespace Context

variable {c : Context} {s : Store}

/-! ## Closing and opening -/

theorem levelStarts_syncVars (c : Context) : c.syncVars.core.levelStarts = c.core.levelStarts := by
  have h (news : List Announcement) :
      (news.foldl (fun core a => core.ensureVar a.var) c.core).levelStarts = c.core.levelStarts :=
    Core.levelStarts_foldl (fun core _ => Core.levelStarts_ensureVar core _) _ _
  rw [← h c.vars.collect.1.toList, Array.foldl_toList]
  rfl

theorem levelStarts_dropVars (c : Context) (count : Nat) :
    (c.dropVars count).core.levelStarts = c.core.levelStarts := by
  unfold dropVars sweepVars
  simp only
  split
  · rfl
  · exact Core.levelStarts_foldl Core.levelStarts_releaseVar _ _

/-- Closing a scope goes back to level 0. -/
theorem levelStarts_rollback {a : Scope} {rest : List Scope} (hs : c.scopes = a :: rest) :
    c.rollback.core.levelStarts = #[] := by
  have hencoded (c : Context) (count : Nat) : (c.dropEncoded count).core = c.core := by
    obtain ⟨_, _, heq, -⟩ := Workspace.dropEncoded_eq c count
    rw [heq]
  unfold rollback restore
  rw [hs]
  refine (Core.levelStarts_assignUnits _).trans
    ((levelStarts_dropVars _ _).trans ((levelStarts_syncVars _).trans ?_))
  rw [hencoded]
  exact Core.levelStarts_popScopes _ _

/-- Opening a scope leaves the contents alone. -/
theorem contents_openScope (hc : c.Ok s) : c.openScope.contents = c.contents := by
  have hdb : c.syncVars.core.db = c.core.db := Workspace.db_foldl_ensureVar _ _
  rw [openScope_eq hc, ← contents_setCore c hdb]
  rfl

/-- The context as an interactive check starts to search in it. -/
def probe (c : Context) (stop : StopRequest) : Context :=
  { c.openScope with interrupted := stop == .atStart, status := .searching }

end Context

namespace Workspace

open Context

variable {w w₁ : Workspace}

/-- Closing the scope that was opened first takes back whatever was done in it. -/
theorem rollback_of_keeps (hw : w.Ok) (h : Keeps ⟨w.store, w.ctx.openScope⟩ w₁) :
    w₁.ctx.rollback.depth = w.ctx.depth ∧ w₁.ctx.rollback.core.decisionLevel = 0 ∧
      w₁.ctx.rollback.contents = w.ctx.contents := by
  obtain ⟨hok, hdepth, hopen, hwhole, -⟩ := openScope_spec hw
  obtain ⟨a, rest, hs⟩ : ∃ a rest, w₁.ctx.scopes = a :: rest := by
    apply List.exists_cons_of_length_pos
    have hlen : w₁.ctx.scopes.length = w.ctx.depth + 1 :=
      (congrArg List.length h.scopes).trans hdepth
    omega
  have hrest : w.ctx.here.depth = rest.length := by
    have hlen : (a :: rest).length = w.ctx.depth + 1 := by
      rw [← hs, h.scopes]
      exact hdepth
    have hcons : (a :: rest).length = rest.length + 1 := List.length_cons
    show w.ctx.depth = rest.length
    omega
  have hw₁ : w₁.Ok := ⟨h.store.wf, h.ok⟩
  obtain ⟨hok', hscopes, -, hback⟩ := rollback_spec hw₁ hs
  obtain ⟨hupTo, -, hwhole'⟩ := hback (h.open hopen)
  have hcontents : w₁.ctx.rollback.contents = w.ctx.openScope.contents :=
    contents_eq hok hok' hwhole (hwhole' hrest) (hupTo.trans (h.upTo hopen))
  refine ⟨(congrArg List.length hscopes).trans hrest.symm, ?_, ?_⟩
  · show w₁.ctx.rollback.core.levelStarts.size = 0
    rw [levelStarts_rollback hs]
    rfl
  · rw [hcontents, contents_openScope hw.ctx]

end Workspace

namespace Work

open Workspace Context

variable {w w₁ : Workspace} {p : Params} {stop : StopRequest} {fuel n : Nat}

/-! ## The search -/

/-- An outcome that is no verdict: the search saw a stop request or failed. -/
def Unfinished (outcome : Except Failure Status) : Prop :=
  outcome = .ok .interrupted ∨ ∃ e, outcome = .error e

/-- A stop request is seen by the next step. -/
theorem step_of_interrupted (h : w.ctx.interrupted = true ∨ stop = .atStep n) :
    ∃ w', step p stop n w = .ok (some .interrupted) w' := by
  have hseen : (if stop = .atStep n then w.ctx.stop else w.ctx).interrupted = true := by
    split
    · rfl
    next hne => exact h.resolve_right hne
  refine ⟨⟨w.store, if stop = .atStep n then w.ctx.stop else w.ctx⟩, ?_⟩
  unfold step
  rw [bind_of_ok (rfl : Work.change _ w = .ok () _), bind_of_ok (rfl : Work.look _ _ = .ok _ _)]
  simp only [hseen]
  rfl

/-- When the search of an interactive check sees a stop request or fails, the check answers so
and leaves the context idle, at level 0, in the scope in which it was and with the contents
that it had. -/
theorem checkSat_takes_back (hw : Reachable w) (hidle : w.ctx.status = .idle)
    (hmode : w.ctx.config.mode = .interactive)
    (hp : p.validate = .ok ()) {outcome : Except Failure Status} (houtcome : Unfinished outcome)
    (hsearch : attempt (search p stop fuel) ⟨w.store, w.ctx.probe stop⟩ = .ok outcome w₁) :
    ∃ w', attempt (checkSat p stop fuel) w = .ok outcome w' ∧ w'.ctx.status = .idle ∧
    w'.ctx.depth = w.ctx.depth ∧
      w'.ctx.core.decisionLevel = 0 ∧ w'.ctx.contents = w.ctx.contents := by
  have hok : w.Ok := (atRest_of_reachable hw).ok
  have hopen : Workspace.Ok ⟨w.store, w.ctx.openScope⟩ := ⟨hok.store, (openScope_spec hok).1⟩
  have hprobe : Keeps ⟨w.store, w.ctx.openScope⟩ ⟨w.store, w.ctx.probe stop⟩ :=
    ⟨Store.built_frame.refl hok.store, { hopen.ctx with }, rfl, rfl, rfl, rfl, fun _ => rfl⟩
  have hw₁ : endState (search p stop fuel ⟨w.store, w.ctx.probe stop⟩) = w₁ := by
    unfold attempt at hsearch
    cases hrun : search p stop fuel ⟨w.store, w.ctx.probe stop⟩ with
    | ok status w' =>
      rw [hrun] at hsearch
      cases hsearch
      rfl
    | error e w' =>
      rw [hrun] at hsearch
      cases hsearch
      rfl
  -- whatever the search did, it kept what is seen as of the scope that was opened for it
  have hmoves : Step ⟨w.store, w.ctx.probe stop⟩ w₁ :=
    hw₁ ▸ moves_search p stop fuel _ ⟨hok.store, hprobe.ok⟩
  have hback := rollback_of_keeps hok (hprobe.trans hmoves.keeps)
  have hfinish : w₁.ctx.finish true outcome = { w₁.ctx.rollback with status := .idle } := by
    rcases houtcome with h | ⟨e, h⟩
    · rw [h]
      rfl
    · rw [h]
      rfl
  have hrun : checkSat p stop fuel w = check (fun _ _ => outcome)
      ⟨w₁.store, w₁.ctx.finish true outcome⟩ := by
    unfold checkSat
    rw [bind_of_ok (rfl : look _ w = .ok w.ctx.status w), hidle]
    simp only
    rw [hp, bind_of_ok (rfl : check (fun _ _ => .ok ()) w = .ok () w),
      bind_of_ok (rfl : look _ w = .ok (w.ctx.config.mode == .interactive) w), hmode]
    show (change (·.openScope) >>= _) w = _
    rw [bind_of_ok (rfl : change _ w = .ok () ⟨w.store, w.ctx.openScope⟩),
      bind_of_ok (rfl : change _ _ = .ok () _)]
    exact bind_of_ok hsearch
  refine ⟨⟨w₁.store, w₁.ctx.finish true outcome⟩, ?_, ?_⟩
  · unfold attempt
    rw [hrun]
    unfold check
    cases outcome <;> rfl
  · rw [hfinish]
    exact ⟨rfl, hback⟩

/-- A stop request before a step of a search ends it there. -/
theorem search_of_searching {k : Nat} (h : Searching p (.atStep n) w n w₁) (hk : n < k) :
    ∃ w₂, search p (.atStep n) k w = .ok .interrupted w₂ := by
  have hsteps {m : Nat} {w₁ : Workspace} (h : Searching p (.atStep n) w m w₁) (hm : m ≤ n) :
      ∃ w₀ fuel, startSearch p w = .ok true w₀ ∧ fuel + m = k ∧
        steps p (.atStep n) k 0 w₀ = steps p (.atStep n) fuel m w₁ := by
    induction h with
    | start h => exact ⟨_, k, h, rfl, rfl⟩
    | @step m w₁ w₂ h hstep ih =>
      obtain ⟨w₀, fuel, hstart, hfuel, hsame⟩ := ih (by omega)
      obtain ⟨fuel, rfl⟩ : ∃ f, fuel = f + 1 := ⟨fuel - 1, by omega⟩
      refine ⟨w₀, fuel, hstart, by omega, ?_⟩
      rw [hsame, steps, bind_of_ok hstep]
  obtain ⟨w₀, fuel, hstart, hfuel, hsame⟩ := hsteps h (Nat.le_refl n)
  obtain ⟨w₂, hstop⟩ : ∃ w₂, step p (.atStep n) n w₁ = .ok (some .interrupted) w₂ :=
    step_of_interrupted (.inr rfl)
  obtain ⟨fuel, rfl⟩ : ∃ f, fuel = f + 1 := ⟨fuel - 1, by omega⟩
  refine ⟨w₂, ?_⟩
  unfold search
  rw [bind_of_ok hstart, if_pos rfl, hsame, steps, bind_of_ok hstop]
  rfl

/-- A check that is stopped when the search has made a decision: its scope and the decision go, and
the assertion stays. -/
theorem checkSat_takes_back_decision :
    let w := after ⟨.choice, .new { mode := .interactive }⟩ [.assert [.ofIndex 4]]
    Reachable w ∧ w.ctx.status = .idle ∧ w.ctx.config.mode = .interactive ∧
      ({} : Params).validate = .ok () ∧ w.ctx.assertions = #[.ofIndex 4] ∧
      (∃ w₁, Searching {} (.atStep 1) ⟨w.store, w.ctx.probe (.atStep 1)⟩ 1 w₁ ∧
        w₁.ctx.depth = w.ctx.depth + 1 ∧ w₁.ctx.core.decisionLevel = 1) ∧
      ∃ w', attempt (checkSat {} (.atStep 1) 2) w = .ok (.ok .interrupted) w' ∧
        w'.ctx.status = .idle ∧ w'.ctx.depth = w.ctx.depth ∧ w'.ctx.core.decisionLevel = 0 ∧
        w'.ctx.contents = w.ctx.contents := by
  intro w
  have hw : Reachable w := reachable_of_used (used_after Store.reached_choice.intact.wf _ _)
  have heq : w = ⟨.choice, choosing .interactive .choosing⟩ := after_choice .interactive
  have hidle : w.ctx.status = .idle := by
    rw [heq]
    rfl
  have hmode : w.ctx.config.mode = .interactive := by
    rw [heq]
    rfl
  have hp : ({} : Params).validate = .ok () := by decide
  have hok : Workspace.Ok ⟨.choice, choosing .interactive .choosing⟩ :=
    heq ▸ (atRest_of_reachable hw).ok
  obtain ⟨-, -, w₁, hsearching, -, -, hlevel, hdepth, -⟩ := searching_choosing (s := .choice)
    (c := (choosing .interactive .choosing).probe (.atStep 1))
    (nofun : StopRequest.atStep 1 ≠ .atStep 0) rfl rfl (openScope_spec hok).1.registry
    Egraph.conflict_empty.2.1
  rw [show (⟨.choice, (choosing .interactive .choosing).probe (.atStep 1)⟩ : Workspace) =
    ⟨w.store, w.ctx.probe (.atStep 1)⟩ by rw [heq]] at hsearching
  obtain ⟨w₂, hsearch⟩ := search_of_searching (k := 2) hsearching (by decide)
  have hattempt : attempt (search {} (.atStep 1) 2) ⟨w.store, w.ctx.probe (.atStep 1)⟩ =
      .ok (.ok .interrupted) w₂ := by
    unfold attempt
    rw [hsearch]
  refine ⟨hw, hidle, hmode, hp, by rw [heq]; rfl, ⟨w₁, hsearching, ?_, hlevel⟩,
    checkSat_takes_back hw hidle hmode hp (.inl rfl) hattempt⟩
  rw [hdepth, heq]
  rfl

end Work
end Entail
