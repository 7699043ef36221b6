import Entail.Proofs.Context.Refusals
import Entail.Proofs.Engine
import Entail.Proofs.Store.Handles

/-!
# Quantified assertions that are refused

A quantified formula is looked at before anything is changed, but its patterns are not: they are
looked at when the definitions have been put into them, after a finished search was dropped. So a
pattern that is refused takes the search with it, and leaves everything else as it was. And a
pattern that is a dead handle is refused as long as there are no definitions; with definitions it
breaks the promise that a substitution relies on.
-/

namespace Entail

/-- What is refused is an answer to the caller. -/
def Answered {α : Type} (x : Except Failure α) : Prop :=
  ∀ f, x = .error f → f.isBrokenPromise = false

namespace Answered

variable {α β : Type} {x : Except Failure α} {f : α → Except Failure β}

theorem ok (a : α) : Answered (.ok a) := nofun

theorem error {e : Failure} (h : e.isBrokenPromise = false) :
    Answered (.error e : Except Failure α) := fun _ he => by
  cases he
  exact h

theorem bind (h : Answered x) (hf : ∀ a, Answered (f a)) : Answered (x >>= f) := by
  cases x with
  | ok a => exact hf a
  | error e => exact error (h e rfl)

theorem forM {g : α → Except Failure Unit} (as : List α) (h : ∀ a, Answered (g a)) :
    Answered (as.forM g) := by
  induction as with
  | nil => exact ok _
  | cons a as ih => exact bind (h a) fun _ => ih

/-- Whether the causes of a store are answers. -/
theorem isBrokenPromise_term {e : TermError} :
    (Failure.term e).isBrokenPromise = true ↔ ∃ t, e = .dangling t := by
  cases e <;> simp [Failure.isBrokenPromise]

theorem mapError {x : Except TermError α} (h : Store.Fair x) : Answered (x.mapError .term) := by
  cases x with
  | ok a => exact ok a
  | error e =>
    refine error (Bool.eq_false_iff.mpr fun hbroken => ?_)
    obtain ⟨t, ht⟩ := isBrokenPromise_term.mp hbroken
    exact h e rfl t ht

end Answered

namespace Context

variable {s : Store} {c : Context}

theorem answered_checkAssertAllowed (c : Context) : Answered c.checkAssertAllowed := by
  unfold checkAssertAllowed
  split
  · exact .error rfl
  · exact .error rfl
  · split
    · exact .ok _
    · exact .error rfl
  · split
    · exact .ok _
    · exact .error rfl
  · exact .ok _
  · exact .ok _

theorem answered_checkNode (s : Store) (root : Term) (bound : List Term) (u : Term) (iteOk : Bool) :
    Answered (checkNode s root bound u iteOk) := by
  unfold checkNode
  split
  · split
    · exact .ok _
    · exact .error rfl
  · exact .error rfl
  · split
    · exact .error rfl
    · exact .ok _
  · split
    · exact .error rfl
    · exact .ok _
  · split
    · exact .error rfl
    · exact .ok _
  · exact .ok _

/-- Whatever was seen before, a refusal is an answer. -/
theorem answered_bind {α β : Type} {op : BodyCheck α} {f : α → BodyCheck β}
    (h : ∀ seen, Answered (op seen))
    (hf : ∀ a seen, Answered (f a seen)) (seen : Std.HashSet (Term × Bool)) :
    Answered ((op >>= f) seen) :=
  .bind (h seen) fun x => hf x.1 x.2

theorem answered_checkBody (s : Store) (root : Term) (bound : List Term) (depth : Nat)
    (x : Term × Bool)
    (seen : Std.HashSet (Term × Bool)) : Answered (checkBody s root bound depth x seen) := by
  induction depth generalizing x seen with
  | zero => exact .ok _
  | succ depth ih =>
    unfold checkBody
    refine answered_bind (fun _ => .ok _) (fun known => ?_) seen
    split
    · exact fun _ => .ok _
    · refine answered_bind (fun _ => .ok _) fun _ => answered_bind (fun seen => ?_) fun parts => ?_
      · exact Answered.bind (answered_checkNode s root bound _ _) fun parts => .ok (parts, seen)
      · -- the parts are checked one after the other
        generalize parts.reverse = ys
        induction ys with
        | nil => exact fun _ => .ok _
        | cons y ys ihys => exact answered_bind (ih y) fun _ => ihys

theorem answered_validate (c : Context) (s : Store) (t : Term) : Answered (c.validate s t) := by
  have hrun (part : Term) (bound : List Term) (body : Term) :
      Answered ((checkBody s part bound (s.terms.slots.size + 1) (body, false)).run' ∅) :=
    .bind (answered_checkBody s part bound _ (body, false) ∅) fun _ => .ok _
  unfold validate
  refine .bind (.mapError (Store.Fair.checkBool s t)) fun _ => .forM _ fun part => ?_
  unfold validatePart
  split
  · split
    · exact .error rfl
    · exact hrun part _ _
  · exact hrun part _ _

/-- The look at a quantified formula: whether the status and the mode allow it, whether it is
supported, and whether it is universally quantified. -/
def vetQuantifier (c : Context) (s : Store) (t : Term) : Except Failure Unit := do
  c.checkAssertAllowed
  c.validate s t
  if t.isNegated || !(s.shape t).isQuantifier then throw (.notSupported t)

theorem answered_vetQuantifier (c : Context) (s : Store) (t : Term) :
    Answered (c.vetQuantifier s t) := by
  refine .bind (answered_checkAssertAllowed c) fun _ => .bind (answered_validate c s t) fun _ => ?_
  split
  · exact .error rfl
  · exact .ok _

theorem isAll_of_vetQuantifier {t : Term} (h : c.vetQuantifier s t = .ok ()) :
    s.Has t .bool ∧ s.IsAll t := by
  obtain ⟨_, -, h⟩ := Store.bind_eq_ok_iff.mp h
  obtain ⟨_, hvalid, h⟩ := Store.bind_eq_ok_iff.mp h
  refine ⟨has_of_validate hvalid, ?_⟩
  split at h
  · cases h
  next hnot =>
    rw [Bool.or_eq_true, not_or, Bool.not_eq_true, Bool.not_eq_true', Bool.not_eq_false] at hnot
    exact hnot

theorem answered_checkPatterns (s : Store) (vars ts : List Term) :
    Answered (Quant.Solver.checkPatterns s vars ts) := by
  induction ts with
  | nil => exact .ok _
  | cons t ts ih =>
    unfold Quant.Solver.checkPatterns
    refine .bind (.mapError (Store.Fair.check s t)) fun _ => ?_
    split
    · dsimp only
      split
      · exact .error rfl
      · exact .bind ih fun _ => .ok _
    · exact .error rfl

theorem answered_addConstraint (q : Quant.Solver) (s : Store) (t : Term) (patterns : List Term) :
    Answered (q.addConstraint s t patterns) := by
  unfold Quant.Solver.addConstraint
  split
  · refine .bind ?_ fun _ => .ok _
    unfold Quant.Solver.choosePatterns
    split
    · exact .ok _
    · refine .bind (answered_checkPatterns s _ _) fun covered => ?_
      split
      · exact .error rfl
      · exact .ok _
  · exact .error rfl

/-- Dropping a finished search leaves the contents alone. -/
theorem contents_reopen (hc : c.registry.Has c.solver) : c.reopen.contents = c.contents := by
  unfold reopen
  split
  · have hdb : c.core.resetTrail.assignUnits.2.db = c.core.db := by
      rw [Core.db_assignUnits, Core.db_resetTrail]
    have hcontents : Context.contents { c.clearSearch with status := .idle } = c.contents := by
      rw [← contents_setCore c hdb]
      unfold clearSearch
      rw [Theory.Registry.backtrack_eq hc]
      rfl
    exact hcontents
  · rfl

theorem reopen_eq_iff : c.reopen = c ↔ c.status.hasModel = false := by
  unfold reopen
  split
  next h =>
    refine iff_of_false (fun heq => ?_) (by rw [h]; nofun)
    have hidle : Status.idle = c.status := congrArg Context.status heq
    rw [← hidle] at h
    cases h
  next h => exact iff_of_true rfl (Bool.eq_false_iff.mpr h)

end Context

namespace Work

open Workspace Context

variable {w w' : Workspace} {formula t : Term} {patterns : List Term}

/-- What is done with a quantified formula after the look at it. -/
def takeQuantifier (formula : Term) (patterns : List Term) : Work Unit := do
  let σ ← look fun _ c => c.subst
  let t ← onStore (Store.subst σ formula)
  if t.isNegated || !(← shape t).isQuantifier then
    change (·.note formula)
    process t
  else
    let patterns ← onStore (patterns.mapM (Store.subst σ))
    addConstraint t patterns
    change (·.note formula)
  change (·.settle)

/-- What the look refuses leaves everything as it was, and a contradictory context takes
nothing in. -/
theorem assertQuantifier_eq (formula : Term) (patterns : List Term) (w : Workspace) :
    assertQuantifier formula patterns w =
    match w.ctx.vetQuantifier w.store formula with
    | .error f => .error f w
    | .ok () => if w.ctx.status = .unsat then .ok () w else takeQuantifier formula patterns
      ⟨w.store, w.ctx.reopen⟩ := by
  unfold assertQuantifier vetQuantifier
  cases hallowed : w.ctx.checkAssertAllowed with
  | error e =>
    rw [bind_of_error (check_of_error hallowed)]
    rfl
  | ok =>
    rw [bind_of_ok (check_of_ok hallowed)]
    cases hvalid : w.ctx.validate w.store formula with
    | error e =>
      rw [bind_of_error (check_of_error hvalid)]
      rfl
    | ok =>
      rw [bind_of_ok (check_of_ok hvalid)]
      show (checkQuantified formula >>= fun _ => _) w = match
        (if formula.isNegated || !(w.store.shape formula).isQuantifier
          then throw (.notSupported formula)
          else pure () : Except Failure Unit) with
        | .error f => _
        | .ok () => _
      cases hall : formula.isNegated || !(w.store.shape formula).isQuantifier with
      | true =>
        have hrefused : checkQuantified formula w = .error (.notSupported formula) w := by
          unfold checkQuantified
          rw [bind_of_ok (rfl : Work.shape formula w = .ok (w.store.shape formula) w), hall]
          rfl
        rw [bind_of_error hrefused]
        rfl
      | false =>
        have hpassed : checkQuantified formula w = .ok () w := by
          unfold checkQuantified
          rw [bind_of_ok (rfl : Work.shape formula w = .ok (w.store.shape formula) w), hall]
          rfl
        rw [bind_of_ok hpassed, bind_of_ok (rfl : Work.look _ w = .ok w.ctx.status w)]
        by_cases hunsat : w.ctx.status = .unsat
        · simp only [if_pos hunsat]
          rfl
        · simp only [if_neg hunsat]
          rfl

/-- The definitions are put into a quantified formula that stays one, and a pattern turns out
to be dead. -/
def Breaks (s : Store) (σ : Subst) (formula : Term) (patterns : List Term) : Prop :=
  σ.isEmpty = false ∧ ∃ t s', Store.subst σ formula s = .ok t s' ∧ s'.IsAll t ∧
    s'.Stumbles σ patterns

/-- A refusal leaves the context `c`, and is a broken promise exactly when `broken` holds. -/
def Outcome (c : Context) (broken : Prop) : EStateM.Result Failure Workspace Unit → Prop
  | .ok _ _ => ¬broken
  | .error f w => w.ctx = c ∧ (f.isBrokenPromise = true ↔ broken)

/-- A truth value is taken in without fail. -/
theorem process_truth (hw : w.store.Wf)
    (hconst : ∀ {x v}, w.ctx.subst[x]? = some v → (w.store.shape x).isUninterpreted = true)
    (ht : t = .top ∨ t = .bot) : ∃ w', process t w = .ok () w' := by
  have hsub : onStore (Store.subst w.ctx.subst t) w = .ok t w :=
    onStore_of_ok (Store.subst_truth hw hconst ht)
  obtain ⟨depth, hdepth⟩ : ∃ depth,
      (w.store.terms.slots.size + 2) * (w.store.terms.slots.size + 2) = depth + 1 :=
    ⟨_, (Nat.succ_pred (Nat.mul_ne_zero (Nat.succ_ne_zero _) (Nat.succ_ne_zero _))).symm⟩
  unfold process
  rw [bind_of_ok (rfl : Work.look _ w = .ok w.store.terms.slots.size w), hdepth]
  unfold processAt
  rw [bind_of_ok (rfl : Work.look _ w = .ok w.ctx.subst w), bind_of_ok hsub]
  rcases ht with rfl | rfl
  · exact ⟨w, rfl⟩
  · exact ⟨_, rfl⟩

/-- Patterns are refused before the constraint is registered, which cannot fail any more. -/
theorem takePatterns_outcome (hw : w.Settled) (formula t : Term) (patterns : List Term) :
    Outcome w.ctx (w.ctx.subst.isEmpty = false ∧ w.store.Stumbles w.ctx.subst patterns)
      ((do
        let patterns ← onStore (patterns.mapM (Store.subst w.ctx.subst))
        addConstraint t patterns
        change (·.note formula)
        change (·.settle) : Work Unit) w) := by
  have hdangling (hne : w.ctx.subst.isEmpty = false) :
      (∃ x s', patterns.mapM (Store.subst w.ctx.subst) w.store = .error (.dangling x) s') ↔
        w.store.Stumbles w.ctx.subst patterns :=
    Store.mapM_subst_dangling hw.rest.ok.store hw.typed.subst hne
  cases hsub : patterns.mapM (Store.subst w.ctx.subst) w.store with
  | error e s₁ =>
    rw [bind_of_error (onStore_of_error hsub)]
    refine ⟨rfl, ?_⟩
    have hne : w.ctx.subst.isEmpty = false := by
      -- without definitions nothing is refused
      refine Bool.eq_false_iff.mpr fun hempty => ?_
      obtain ⟨before, a, after, rs, s₂, -, -, ha⟩ := mapM_eq_error.mp hsub
      rw [Store.subst_of_isEmpty hempty] at ha
      cases ha
    rw [Answered.isBrokenPromise_term, ← hdangling hne]
    constructor
    · rintro ⟨x, rfl⟩
      exact ⟨hne, x, s₁, hsub⟩
    · rintro ⟨-, x, s', h⟩
      rw [hsub] at h
      cases h
      exact ⟨x, rfl⟩
  | ok ts s₁ =>
    have hfine : ¬(w.ctx.subst.isEmpty = false ∧ w.store.Stumbles w.ctx.subst patterns) := by
      rintro ⟨hne, h⟩
      obtain ⟨x, s', h⟩ := (hdangling hne).mpr h
      rw [hsub] at h
      cases h
    rw [bind_of_ok (onStore_of_ok hsub)]
    unfold addConstraint
    rw [bind_assoc, bind_of_ok (rfl : Work.look _ _ = .ok w.ctx.registry.quant? ⟨s₁, w.ctx⟩),
      hw.rest.ok.ctx.registry.quant?]
    cases hadd : w.ctx.solver.addConstraint s₁ t ts with
    | error f =>
      simp only [bind_assoc]
      rw [bind_of_error (check_of_error hadd)]
      exact ⟨rfl, iff_of_false (Bool.eq_false_iff.mp (answered_addConstraint _ _ _ _ f hadd)) hfine⟩
    | ok q =>
      simp only [bind_assoc]
      rw [bind_of_ok (check_of_ok hadd)]
      exact hfine

theorem takeQuantifier_outcome (hw : w.Settled) (hformula : w.store.IsAll formula)
    (patterns : List Term) :
    Outcome w.ctx (Breaks w.store w.ctx.subst formula patterns)
      (takeQuantifier formula patterns w) := by
  have hstore := hw.rest.ok.store
  have hσ := hw.typed.subst
  have hyields := Store.subst_all_yields hstore hσ hw.typed.eliminated hformula
  unfold takeQuantifier
  rw [bind_of_ok (rfl : Work.look _ w = .ok w.ctx.subst w)]
  cases hsub : Store.subst w.ctx.subst formula w.store with
  | error e s₁ =>
    rw [bind_of_error (onStore_of_error hsub)]
    refine ⟨rfl, iff_of_false (fun hbroken => ?_) ?_⟩
    · obtain ⟨x, hx⟩ := Answered.isBrokenPromise_term.mp hbroken
      exact hyields.fair hsub x hx
    · rintro ⟨-, t, s', hsub', -⟩
      rw [hsub] at hsub'
      cases hsub'
  | ok t s₁ =>
    obtain ⟨hlater, hbool, hcases⟩ := hyields.builds.of_ok hsub
    have hbreaks : Breaks w.store w.ctx.subst formula patterns ↔
        w.ctx.subst.isEmpty = false ∧ s₁.IsAll t ∧ s₁.Stumbles w.ctx.subst patterns := by
      refine ⟨?_, fun h => ⟨h.1, t, s₁, hsub, h.2⟩⟩
      rintro ⟨hne, t', s', hsub', h⟩
      rw [hsub] at hsub'
      cases hsub'
      exact ⟨hne, h⟩
    rw [hbreaks, bind_of_ok (onStore_of_ok hsub),
      bind_of_ok (rfl : Work.shape t ⟨s₁, w.ctx⟩ = .ok (s₁.shape t) ⟨s₁, w.ctx⟩)]
    have hw₁ : Settled ⟨s₁, w.ctx⟩ := hw.spares hlater.wf (hlater.ext.spares hstore _)
    by_cases hall : s₁.IsAll t
    · rw [if_neg (by simp [hall.1, hall.2])]
      simpa only [hall, true_and] using takePatterns_outcome hw₁ formula t patterns
    · have htruth : t = .top ∨ t = .bot := by
        rcases hcases with h | h | h
        · exact .inl h
        · exact .inr h
        · exact absurd h hall
      rw [if_pos (by
        rw [Bool.or_eq_true, Bool.not_eq_true']
        by_contra hnot
        rw [not_or, Bool.not_eq_true, Bool.not_eq_false] at hnot
        exact hall hnot)]
      obtain ⟨w', hprocess⟩ := process_truth (w := ⟨s₁, w.ctx.note formula⟩) hlater.wf
        hw₁.typed.eliminated htruth
      rw [bind_of_ok (rfl : Work.change _ _ = .ok () ⟨s₁, w.ctx.note formula⟩), bind_of_ok hprocess]
      exact fun h => hall h.2.1

/-! ## A pattern that is dead after a definition was put into the formula -/

/-- The definition is put into the formula, which stays a quantifier, and then a pattern is dead. -/
theorem breaks_linked : Breaks .linked ((∅ : Subst).insert (.ofIndex 2) (.ofIndex 3)) (.ofIndex 10)
    [.ofIndex 1000] := by
  refine ⟨Std.HashMap.isEmpty_insert, .ofIndex 12,
    endState (Store.all [.ofIndex 6] (.ofIndex 11)
      (endState (Store.or [.ofIndex 8, .ofIndex 3] .linked))), ?_, ?_,
    [], .ofIndex 1000, [], [], _, rfl, rfl, ?_⟩
  · rw [Store.subst_of_nonempty Std.HashMap.isEmpty_insert]
    cbv
  · constructor
    · cbv
    · cbv
  · cbv

set_option maxRecDepth 4000 in
/-- The formula is one that the context can take in. -/
theorem vetQuantifier_linked (core : Core) :
    (answered core).vetQuantifier .linked (.ofIndex 10) = .ok () := by
  have hvalid : (answered core).validate .linked (.ofIndex 10) = .ok () := by
    unfold answered linked fact
    rw [Egraph.empty_eq]
    cbv
  have hallowed : (answered core).checkAssertAllowed = .ok () := rfl
  have hall : (Store.linked.shape (.ofIndex 10)).isQuantifier = true := by
    rw [Store.shape_of_slots Store.slots_linked]
    rfl
  unfold vetQuantifier
  rw [hallowed, hvalid, hall]
  rfl

/-! ## What a refusal leaves -/

/-- What is asserted with patterns and refused leaves the contents of a context as they were. When
the look at the formula refuses it, nothing has changed at all; when something is refused after
that, a finished search is gone, so that nothing has changed exactly if there was none. A refusal is
an answer to the caller unless a pattern is dead by the time the definitions are put into it. -/
theorem assertQuantifier_refused {e : Engine} {c : Context} (he : e.Reached)
    (hc : c ∈ e.contexts.toList) (formula : Term) (patterns : List Term) :
    let w : Workspace := ⟨e.store, c⟩
    let vetted := c.vetQuantifier e.store formula
    ((∃ f w', assertQuantifier formula patterns w = .error f w' ∧ f.isBrokenPromise = true) ↔
      vetted = .ok () ∧ c.status ≠ .unsat ∧ Breaks e.store c.subst formula patterns) ∧
    ∀ f w', assertQuantifier formula patterns w = .error f w' →
      w'.ctx.contents = c.contents ∧ (vetted = .error f → w' = w) ∧
        (vetted ≠ .error f → w'.ctx = c.reopen) ∧
        (w'.ctx = c ↔ vetted = .error f ∨ c.status.hasModel = false) := by
  intro w vetted
  have hsettled : w.Settled := he.sound.contexts c hc
  have hrun := assertQuantifier_eq formula patterns w
  -- nothing has changed while the formula is vetted; afterwards only a finished search can be lost,
  -- for the rest is added when all patterns have passed
  cases hvet : w.ctx.vetQuantifier w.store formula with
  | error f =>
    have hvetted : vetted = .error f := hvet
    rw [hvet] at hrun
    refine ⟨iff_of_false ?_ (fun h => by rw [hvetted] at h; cases h.1), fun f' w' h => ?_⟩
    · rintro ⟨f', w', h, hbroken⟩
      cases hrun.symm.trans h
      exact Bool.eq_false_iff.mp (answered_vetQuantifier _ _ _ f hvet) hbroken
    · cases hrun.symm.trans h
      exact ⟨rfl, fun _ => rfl, fun h => absurd hvetted h, iff_of_true rfl (.inl hvetted)⟩
  | ok =>
    have hvetted : vetted = .ok () := hvet
    rw [hvet] at hrun
    by_cases hunsat : c.status = .unsat
    · simp only [show w.ctx.status = .unsat from hunsat, if_true] at hrun
      refine ⟨iff_of_false ?_ fun h => h.2.1 hunsat, fun f' w' h => ?_⟩
      · rintro ⟨f', w', h, -⟩
        cases hrun.symm.trans h
      · cases hrun.symm.trans h
    · simp only [show w.ctx.status ≠ .unsat from hunsat, if_false] at hrun
      have hreopened : Settled ⟨e.store, c.reopen⟩ :=
        ⟨rests_frame.stable hsettled.rest (rests_reopen hsettled.rest),
          hsettled.typed.reopen hsettled.rest.ok.ctx.registry⟩
      have hsubst : c.reopen.subst = c.subst := by
        unfold reopen
        split <;> rfl
      have houtcome := takeQuantifier_outcome hreopened (isAll_of_vetQuantifier hvet).2 patterns
      simp only [hsubst] at houtcome
      have hne (f : Failure) : vetted ≠ .error f := by
        rw [hvetted]
        nofun
      cases htake : takeQuantifier formula patterns ⟨e.store, c.reopen⟩ with
      | ok _ w₁ =>
        rw [htake] at houtcome
        refine ⟨iff_of_false ?_ fun h => houtcome h.2.2, fun f' w' h => ?_⟩
        · rintro ⟨f', w', h, -⟩
          cases (hrun.trans htake).symm.trans h
        · cases (hrun.trans htake).symm.trans h
      | error f w₁ =>
        rw [htake] at houtcome
        obtain ⟨hctx, hbroken⟩ := houtcome
        refine ⟨⟨?_, fun h => ⟨f, w₁, hrun.trans htake, hbroken.mpr h.2.2⟩⟩, fun f' w' h => ?_⟩
        · rintro ⟨f', w', h, hpromise⟩
          cases (hrun.trans htake).symm.trans h
          exact ⟨hvetted, hunsat, hbroken.mp hpromise⟩
        · cases (hrun.trans htake).symm.trans h
          refine ⟨?_, fun h => absurd h (hne f), fun _ => hctx, ?_⟩
          · rw [hctx]
            exact contents_reopen hsettled.rest.ok.ctx.registry
          · rw [hctx, reopen_eq_iff]
            exact (or_iff_right (hne f)).symm

set_option maxRecDepth 4000 in
/-- A finished search over a constant that was replaced, and a pattern that no term has: the refusal
is a broken promise, the contents are as before, and the search is gone. -/
theorem assertQuantifier_refused_dead : ∃ e c, Engine.Reached e ∧ c ∈ e.contexts.toList ∧
    c.status = .sat ∧ c.assertions = #[.ofIndex 3, (Term.ofIndex 5).neg] ∧
    c.subst[Term.ofIndex 2]? = some (.ofIndex 3) ∧
    ∃ f w', assertQuantifier (.ofIndex 10) [.ofIndex 1000] ⟨e.store, c⟩ = .error f w' ∧
      f.isBrokenPromise = true ∧ w'.ctx.contents = c.contents ∧ w'.ctx = c.reopen ∧ w'.ctx ≠ c := by
  obtain ⟨order, he⟩ := Engine.reached_linked
  let c : Context := answered (.known order)
  have hc : c ∈ (Engine.single .linked c).contexts.toList := List.mem_cons_self
  have hvetted : c.vetQuantifier .linked (.ofIndex 10) = .ok () := vetQuantifier_linked _
  have hsubst : c.subst[Term.ofIndex 2]? = some (.ofIndex 3) := Std.HashMap.getElem?_insert_self
  obtain ⟨hbroken, hrest⟩ := assertQuantifier_refused he hc (.ofIndex 10) [.ofIndex 1000]
  obtain ⟨f, w', hrefused, hpromise⟩ := hbroken.mpr ⟨hvetted, nofun, breaks_linked⟩
  have hne : c.vetQuantifier .linked (.ofIndex 10) ≠ .error f := by
    rw [hvetted]
    nofun
  obtain ⟨hcontents, -, hreopened, hsame⟩ := hrest f w' hrefused
  refine ⟨_, c, he, hc, rfl, rfl, hsubst, f, w', hrefused, hpromise, hcontents, hreopened hne,
    fun heq => ?_⟩
  rcases hsame.mp heq with hvet | hmodel
  · exact hne hvet
  · cases hmodel

end Work
end Entail
