import Entail.Proofs.Context.Plain

/-!
# Assertions that fail

A batch of assertions is looked at as a whole before anything is changed, so what is refused by
that look leaves everything as it was. The look does not know the definitions that are put into
the formulas afterwards. When a formula fails then, it and the formulas before it are
assertions already.
-/

namespace Entail

namespace Context

/-- The look at a batch of assertions: whether the status and the mode allow them, and whether each
is supported. -/
def vet (c : Context) (s : Store) (ts : List Term) : Except Failure Unit := do
  c.checkAssertAllowed
  ts.forM (c.validate s)

end Context

namespace Work

open Workspace Context

variable {w w' : Workspace} {e : Failure}

theorem status_of_allowed {c : Context} (h : c.checkAssertAllowed = .ok ())
    (hunsat : c.status ≠ .unsat) :
    c.reopen.status = .idle := by
  unfold checkAssertAllowed at h
  unfold reopen Status.hasModel
  cases hs : c.status with
  | idle => simp [hs]
  | unsat => exact absurd hs hunsat
  | sat | unknown => simp
  | searching | interrupted => simp [hs] at h

theorem assertions_reopen (c : Context) : c.reopen.assertions = c.assertions := by
  unfold reopen
  split <;> rfl

/-- When a formula of a batch fails, the assertions are the ones there were, the formulas before it
and itself. -/
theorem forM_process_error (ts : List Term) (hw : w.AtRest)
    (h : (ts.forM fun t => do Work.change (·.note t); Work.process t) w = .error e w') :
    ∃ before t after, ts = before ++ t :: after ∧
      w'.ctx.assertions.toList = w.ctx.assertions.toList ++ before ++ [t] ∧
      w'.ctx.status = w.ctx.status := by
  induction ts generalizing w with
  | nil => cases h
  | cons t ts ih =>
    have hnote : Rests w ⟨w.store, w.ctx.note t⟩ := ⟨keeps_note hw.ok t, hw.status⟩
    have hnoted : AtRest ⟨w.store, w.ctx.note t⟩ := rests_frame.stable hw hnote
    have hpush : (w.ctx.note t).assertions.toList = w.ctx.assertions.toList ++ [t] :=
      Array.toList_push
    have hstep := moves_process t ⟨w.store, w.ctx.note t⟩ hnoted.ok
    have hhead : (do Work.change (·.note t); Work.process t : Work Unit) w = Work.process t
        ⟨w.store, w.ctx.note t⟩ :=
      bind_of_ok rfl
    change ((do Work.change (·.note t); Work.process t : Work Unit) >>= fun _ => ts.forM _) w =
      _ at h
    cases hrun : Work.process t ⟨w.store, w.ctx.note t⟩ with
    | error e₁ w₁ =>
      rw [hrun] at hstep
      rw [bind_of_error (hhead.trans hrun)] at h
      cases h
      have hkept : w'.ctx.assertions = (w.ctx.note t).assertions := hstep.assertions
      refine ⟨[], t, ts, rfl, ?_, hstep.status⟩
      rw [hkept, hpush, List.append_nil]
    | ok _ w₁ =>
      rw [hrun] at hstep
      rw [bind_of_ok (hhead.trans hrun)] at h
      have hw₁ : w₁.AtRest := rests_frame.stable hnoted (hstep.rests hnoted)
      obtain ⟨before, u, after, hts, hassertions, hstatus⟩ := ih hw₁ h
      have hkept : w₁.ctx.assertions = (w.ctx.note t).assertions := hstep.assertions
      refine ⟨t :: before, u, after, by rw [hts]; rfl, ?_, hstatus.trans hstep.status⟩
      rw [hassertions, hkept, hpush]
      simp

/-- A batch that fails was refused by the look at it, and then nothing has changed; or a formula
failed after the look, and then it and the formulas before it have become assertions. -/
theorem assertAll_error {ts : List Term} (hw : w.AtRest) (h : assertAll ts w = .error e w') :
    (w.ctx.vet w.store ts = .error e ∧ w' = w) ∨
      (w.ctx.vet w.store ts = .ok () ∧ w'.ctx.status = .idle ∧
        ∃ before t after, ts = before ++ t :: after ∧
          w'.ctx.assertions.toList = w.ctx.assertions.toList ++ before ++ [t]) := by
  unfold assertAll at h
  unfold vet
  cases hallowed : w.ctx.checkAssertAllowed with
  | error e₁ =>
    rw [bind_of_error (check_of_error hallowed)] at h
    cases h
    exact .inl ⟨rfl, rfl⟩
  | ok =>
    rw [bind_of_ok (check_of_ok hallowed)] at h
    show (ts.forM (w.ctx.validate w.store) = _ ∧ _) ∨ (ts.forM (w.ctx.validate w.store) = _ ∧ _)
    cases hvalid : ts.forM (w.ctx.validate w.store) with
    | error e₁ =>
      rw [bind_of_error (check_of_error hvalid)] at h
      cases h
      exact .inl ⟨rfl, rfl⟩
    | ok =>
      rw [bind_of_ok (check_of_ok hvalid), bind_of_ok (rfl : Work.look _ w = .ok w.ctx.status w)]
        at h
      by_cases hunsat : w.ctx.status = .unsat
      · rw [if_pos hunsat] at h
        cases h
      rw [if_neg hunsat, bind_of_ok (rfl : Work.change _ w = .ok () ⟨w.store, w.ctx.reopen⟩)] at h
      have hreopened : AtRest ⟨w.store, w.ctx.reopen⟩ := rests_frame.stable hw (rests_reopen hw)
      -- the status is set last, which cannot fail
      cases hloop : (ts.forM fun t => do Work.change (·.note t); Work.process t)
        ⟨w.store, w.ctx.reopen⟩ with
      | ok _ w₁ =>
        rw [bind_of_ok hloop] at h
        cases h
      | error e₁ w₁ =>
        rw [bind_of_error hloop] at h
        cases h
        obtain ⟨before, t, after, hts, hassertions, hstatus⟩ :=
          forM_process_error ts hreopened hloop
        rw [show Context.assertions _ = _ from assertions_reopen w.ctx] at hassertions
        exact .inr ⟨rfl, hstatus.trans (status_of_allowed hallowed hunsat), before, t, after, hts,
          hassertions⟩

/-- A batch that fails leaves contents and status as they were exactly when it was refused by the
look at it. In any other case the failed formula and those before it are assertions, and the
status is idle. -/
theorem assertAll_error_unchanged_iff {ts : List Term} (hw : Reachable w)
    (h : assertAll ts w = .error e w') :
    ((w'.ctx.contents = w.ctx.contents ∧ w'.ctx.status = w.ctx.status) ↔
      w.ctx.vet w.store ts = .error e) ∧
      (w.ctx.vet w.store ts = .error e → w' = w) ∧
      (w.ctx.vet w.store ts ≠ .error e → w'.ctx.status = .idle ∧ ∃ before t after,
        ts = before ++ t :: after ∧
        w'.ctx.assertions.toList = w.ctx.assertions.toList ++ before ++ [t]) := by
  rcases assertAll_error (atRest_of_reachable hw) h with ⟨hvet, heq⟩ | ⟨hvet, hidle, hrest⟩
  · rw [heq]
    exact ⟨⟨fun _ => hvet, fun _ => ⟨rfl, rfl⟩⟩, fun _ => rfl, fun hne => absurd hvet hne⟩
  · have hne : w.ctx.vet w.store ts ≠ .error e := by
      rw [hvet]
      nofun
    have hmore : w'.ctx.contents ≠ w.ctx.contents := by
      intro hsame
      obtain ⟨before, t, after, -, hassertions⟩ := hrest
      have hlist : w'.ctx.assertions.toList = w.ctx.assertions.toList :=
        congrArg Contents.assertions hsame
      have hlength := congrArg List.length (hlist.symm.trans hassertions)
      simp only [List.length_append, List.length_singleton] at hlength
      omega
    exact ⟨⟨fun hsame => absurd hsame.1 hmore, fun herror => absurd herror hne⟩, fun herror =>
      absurd herror hne,
      fun _ => ⟨hidle, hrest⟩⟩

/-- A handle that stands for no term is refused by the look, and the formula before it in the batch
does not become an assertion. -/
theorem assertAll_error_unchanged_dangling :
    let w := after ⟨.choice, .new {}⟩ [.assert [.ofIndex 4]]
    let ts : List Term := [.ofIndex 2, .ofIndex 7]
    let e : Failure := .term (.invalidTerm (.ofIndex 7))
    Reachable w ∧ w.ctx.assertions = #[.ofIndex 4] ∧ assertAll ts w = .error e w ∧
      ((w.ctx.contents = w.ctx.contents ∧ w.ctx.status = w.ctx.status) ↔
        w.ctx.vet w.store ts = .error e) := by
  intro w ts e
  have hw : Reachable w := reachable_of_used (used_after Store.reached_choice.intact.wf {} _)
  have heq : w = ⟨.choice, choosing .pushPop .choosing⟩ := after_choice .pushPop
  have hfirst (core : Core) : (choosing .pushPop core).validate .choice (.ofIndex 2) = .ok () := by
    unfold choosing
    rw [Egraph.empty_eq]
    cbv
  have hsecond (core : Core) : (choosing .pushPop core).validate .choice (.ofIndex 7) =
      .error e := by
    unfold choosing
    rw [Egraph.empty_eq]
    cbv
  have hvalid : ts.forM (w.ctx.validate w.store) = .error e := by
    rw [heq]
    show ((choosing .pushPop .choosing).validate .choice (.ofIndex 2) >>= fun _ =>
      (choosing .pushPop .choosing).validate .choice (.ofIndex 7) >>= fun _ => _) = _
    rw [hfirst, hsecond]
    rfl
  have hallowed : w.ctx.checkAssertAllowed = .ok () := by
    rw [heq]
    rfl
  have herror : assertAll ts w = .error e w := by
    unfold assertAll
    rw [bind_of_ok (check_of_ok hallowed), bind_of_error (check_of_error hvalid)]
  exact ⟨hw, by rw [heq]; rfl, herror, (assertAll_error_unchanged_iff hw herror).1⟩

end Work
end Entail
