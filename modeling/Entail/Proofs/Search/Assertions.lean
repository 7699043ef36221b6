import Entail.Proofs.Search.Vocabulary

/-!
# The assertions of the core

A core records whether one of its operations was called in a state that it is not meant for. Most
operations rely on nothing. Clauses are added and units assigned at level 0, only a literal without
value is enqueued, only a variable without value goes out of use, and propagation visits clauses
that are there.
-/

namespace Entail.Core

open Search

variable {c : Core} {l : Literal} {ns : List Nat}

theorem misused_require {ok : Bool} (h : ok = true) (c : Core) :
    (c.require ok).misused = c.misused := by
  rw [require, h, Bool.not_true, Bool.or_false]

/-! ## Operations that rely on nothing -/

@[simp] theorem misused_setSeen (c : Core) (v : Nat) (seen : Bool) :
    (c.setSeen v seen).misused = c.misused := rfl

@[simp] theorem misused_ensureVar (c : Core) (v : Nat) : (c.ensureVar v).misused = c.misused := by
  simp only [ensureVar]
  split <;> split <;> rfl

@[simp] theorem misused_bump (c : Core) (v : Nat) : (c.bump v).misused = c.misused := by
  simp only [bump]
  split <;> rfl

/-- Steps that rely on nothing do so one after the other. -/
theorem misused_foldl {α : Type} {f : Core → α → Core} (h : ∀ c a, (f c a).misused = c.misused)
    (as : List α) (c : Core) :
    (as.foldl f c).misused = c.misused := by
  induction as generalizing c with
  | nil => rfl
  | cons a as ih => rw [List.foldl_cons, ih, h]

@[simp] theorem misused_unassignFrom (c : Core) (start : Nat) :
    (c.unassignFrom start).misused = c.misused :=
  misused_foldl (f := unassign) (fun _ _ => rfl) _ c

@[simp] theorem misused_backtrack (c : Core) (level : Nat) :
    (c.backtrack level).misused = c.misused := by
  simp only [backtrack]
  split
  · rfl
  next start _ =>
    have h := misused_unassignFrom c start
    split <;> exact h

@[simp] theorem misused_resetTrail (c : Core) : c.resetTrail.misused = c.misused :=
  misused_unassignFrom c 0

@[simp] theorem misused_restart (c : Core) (factor : Float) :
    (c.restart factor).misused = c.misused :=
  misused_backtrack c 0

theorem misused_popOpen (bound : Nat) (c : Core) : (c.popOpen bound).2.misused = c.misused := by
  induction bound generalizing c with
  | zero => rfl
  | succ bound ih =>
    simp only [popOpen]
    split
    · rfl
    · split
      · rfl
      · exact ih _

@[simp] theorem misused_pickBranch (c : Core) : c.pickBranch.2.misused = c.misused := by
  have h := misused_popOpen c.order.size c
  unfold pickBranch
  split
  all_goals
    next heq =>
      rw [heq] at h
      exact h

@[simp] theorem misused_storeClause (c : Core) (cl : Clause) :
    (c.storeClause cl).2.misused = c.misused := by
  unfold storeClause
  cases c.freeClauses <;> rfl

@[simp] theorem misused_freeClause (depth : Nat) (c : Core) (n : Nat) :
    (freeClause depth c n).misused = c.misused := by
  unfold freeClause
  split
  · rfl
  · split <;> rfl

@[simp] theorem misused_popScopes (c : Core) (depth : Nat) :
    (c.popScopes depth).misused = c.misused :=
  (misused_foldl (misused_freeClause depth) (List.range c.clauses.size) c.resetTrail).trans
    (misused_resetTrail c)

@[simp] theorem misused_mergeScopes (c : Core) (depth : Nat) :
    (c.mergeScopes depth).misused = c.misused := rfl

/-! ## Analysis -/

theorem misused_absorbLit (top : Nat) (r : Resolution) (l : Literal) :
    (absorbLit top r l).core.misused = r.core.misused := by
  simp only [absorbLit]
  split
  · rfl
  · split <;> simp

theorem misused_absorb (top : Nat) (r : Resolution) (lits : List Literal) :
    (absorb top r lits).core.misused = r.core.misused := by
  unfold absorb
  induction lits generalizing r with
  | nil => rfl
  | cons l lits ih => rw [List.foldl_cons, ih, misused_absorbLit]

theorem misused_resolveDown (top length : Nat) (r : Resolution) :
    (resolveDown top length r).2.core.misused = r.core.misused := by
  induction length generalizing r with
  | zero => rfl
  | succ length ih =>
    simp only [resolveDown]
    repeat' split
    · rfl
    · exact ih r
    · rfl
    · rfl
    · rw [ih, misused_absorb]
      rfl

@[simp] theorem misused_analyze (c : Core) (conflict : List Literal) :
    (c.analyze conflict).2.misused = c.misused := by
  simp only [analyze]
  split
  · rfl
  · split
    all_goals
      next heq =>
        have h := congrArg (·.2.core.misused) heq
        simp only [misused_resolveDown, misused_absorb, misused_backtrack] at h
        try simp only [← Array.foldl_toList]
        first
        | exact h.symm
        | exact (misused_foldl (fun c (l : Literal) => misused_setSeen c l.var false) _ _).trans
            h.symm

/-! ## Assignment -/

/-- A literal without value is enqueued. -/
theorem misused_enqueue (h : c.value l = none) (r : Option Nat) :
    (c.enqueue l r).misused = c.misused :=
  misused_require (by rw [h]; rfl) c

theorem misused_decide (h : c.value l = none) : (c.decide l).misused = c.misused :=
  misused_enqueue (c := { c with levelStarts := _, stats := _ }) h none

@[simp] theorem misused_assignUnit (c : Core) (l : Literal) :
    (c.assignUnit l).2.misused = c.misused := by
  unfold assignUnit
  split
  · rfl
  · rfl
  next h => exact misused_enqueue h none

theorem misused_assignUnitList (us : List (Literal × Nat)) (c : Core) :
    (assignUnitList us c).2.misused = c.misused := by
  induction us generalizing c with
  | nil => rfl
  | cons u us ih =>
    have h := misused_assignUnit c u.1
    unfold assignUnitList
    split
    next heq =>
      rw [heq] at h
      rw [ih, h]
    next heq =>
      rw [heq] at h
      exact h

/-- Units are assigned at level 0. -/
theorem misused_assignUnits (h : c.decisionLevel = 0) : c.assignUnits.2.misused = c.misused := by
  have hrequire : (c.require (c.decisionLevel = 0)).misused = c.misused :=
    misused_require (decide_eq_true h) c
  simp only [assignUnits]
  split
  · exact hrequire
  · exact (misused_assignUnitList _ _).trans hrequire

/-- A search starts at level 0. -/
@[simp] theorem misused_startSearch (c : Core) (p : Params) :
    (c.startSearch p).2.misused = c.misused :=
  (misused_assignUnits
    (c := { c.resetTrail with decay := _, restartThreshold := _, conflictsSinceRestart := _ })
      rfl).trans
    (misused_resetTrail c)

/-- A clause is added at level 0. -/
theorem misused_addClause (h : c.decisionLevel = 0) (lits : List Literal) (scope : Nat) :
    (c.addClause lits scope).misused = c.misused := by
  have hensured : (lits.foldl (fun c l => c.ensureVar l.var)
      (c.require (c.decisionLevel = 0))).misused = c.misused :=
    (misused_foldl (fun c (l : Literal) => misused_ensureVar c l.var) lits _).trans
      (misused_require (decide_eq_true h) c)
  unfold addClause
  simp only
  generalize lits.foldl (fun c l => c.ensureVar l.var) (c.require (c.decisionLevel = 0)) =
    c₁ at hensured
  rw [← hensured]
  split
  · rfl
  · split
    · rfl
    · exact misused_assignUnit _ _
    · split
      · have hstored := misused_storeClause c₁
        split
        · exact hstored _
        · split
          next hnone =>
            exact (misused_enqueue (Option.isNone_iff_eq_none.mp hnone) _).trans (hstored _)
          · exact hstored _
        · exact hstored _
      · rfl

/-- The first literal of a learned clause has no value. -/
theorem misused_learn {first : Literal} (h : c.value first = none) (rest : List Literal)
    (scope : Nat) :
    (c.learn (first :: rest) scope).misused = c.misused := by
  unfold learn
  cases rest with
  | nil => exact misused_enqueue (c := { c with stats := _, units := _ }) h none
  | cons second rest =>
    dsimp only
    refine (misused_enqueue ?_ _).trans (misused_storeClause _ _)
    rw [← h]
    unfold storeClause
    cases c.freeClauses <;> rfl

/-! ## Variables -/

/-- Nothing has a value when the trail is empty. -/
theorem varValue_of_trail (h : c.state.Assigned) (htrail : c.state.trail = []) (v : Nat) :
    c.varValue v = none := by
  have hnone : c.value (.pos v) = none :=
    h.value_none.mpr (by rw [htrail]; exact ⟨List.not_mem_nil, List.not_mem_nil⟩)
  unfold value at hnone
  rw [Option.map_eq_none_iff, Literal.var_pos] at hnone
  exact hnone

theorem misused_releaseVars (h : ∀ v, c.varValue v = none) (ns : List Nat) :
    (ns.foldl releaseVar c).misused = c.misused := by
  induction ns generalizing c with
  | nil => rfl
  | cons n ns ih =>
    refine (ih fun v => ?_).trans (misused_require (by rw [h]; rfl) c)
    have hsame : (c.releaseVar n).varValue v = c.varValue v := by
      unfold releaseVar varValue
      rw [info_modifyVar]
      split <;> rfl
    exact hsame.trans (h v)

/-- Variables that nothing mentions go out of use. -/
theorem releaseVars_orderly (h : c.state.Orderly) (htrail : c.state.trail = []) (ns : List Nat)
    (hover : c.db.all.Over (· ∉ ns)) : (ns.foldl releaseVar c).state.Orderly := by
  induction ns generalizing c with
  | nil => exact h
  | cons n ns ih =>
    have hne {v : Nat} (hv : v ∉ n :: ns) : v ≠ n := fun he => hv (he ▸ List.mem_cons_self)
    have hreleased : (c.releaseVar n).state.Orderly := by
      rw [state_releaseVar]
      exact h.release htrail (fun hcl l hl => hne (hover.clauses hcl l hl))
        fun u hu => hne (hover.units u (Array.mem_toList_iff.mpr hu))
    refine ih hreleased htrail (hover.mono fun v hv hmem => hv (List.mem_cons_of_mem n hmem))

/-! ## Propagation -/

/-- The notes of the literals are of clauses that are there. -/
def Noted (c : Core) : Prop := ∀ code, ∀ n ∈ c.state.watchers code, (c.db.clause? n).isSome = true

/-- Notes of other clauses that are there may come in the place of some. -/
theorem Noted.of_watchers {c' : Core} (h : c.Noted) (hdb : c'.db = c.db)
    (hnew : ∀ code, ∀ n ∈ c'.state.watchers code, n ∈ c.state.watchers code ∨
      (c.db.clause? n).isSome = true) : c'.Noted := by
  intro code n hn
  rw [hdb]
  exact (hnew code n hn).elim (h code n) id

theorem Noted.watch (h : c.Noted) (l : Literal) {n : Nat} (hn : (c.db.clause? n).isSome = true) :
    (c.watch l n).Noted := by
  refine h.of_watchers rfl fun code m hm => ?_
  rw [state_watch] at hm
  unfold State.watch at hm
  simp only at hm
  split at hm
  · rcases List.mem_append.mp hm with hm | hm
    · exact .inl hm
    · exact .inr (List.mem_singleton.mp hm ▸ hn)
  · exact .inl hm

theorem Noted.setWatches (h : c.Noted) (l : Literal) {ns : Array Nat}
    (hns : ∀ n ∈ ns, (c.db.clause? n).isSome = true) :
    ({ c with watches := c.watches.setIfInBounds l.code ns } : Core).Noted := by
  refine h.of_watchers rfl fun code m hm => ?_
  rw [state_setWatches] at hm
  unfold State.setWatchers at hm
  simp only at hm
  split at hm
  · exact .inr (hns m (Array.mem_toList_iff.mp hm))
  · exact .inl hm

/-- The visit of a clause that is there. -/
theorem visit_noted (h : c.Noted) (l : Literal) {n : Nat} (hn : (c.db.clause? n).isSome = true) :
    (c.visit l n).core.Noted ∧ (c.visit l n).core.misused = c.misused := by
  obtain ⟨cl, hcl⟩ : ∃ cl, (c.clauses[n]?).join = some cl := by
    rw [clause?_db, Option.isSome_map] at hn
    exact Option.isSome_iff_exists.mp hn
  have hdb := db_visit c l n
  have hfirst := db_setClause hcl (content_watchedSecond cl l)
  unfold visit at hdb ⊢
  simp only [hcl] at hdb ⊢
  generalize cl.watchedSecond l = cl₁ at hdb hfirst ⊢
  have h₁ : ({ c with clauses := c.clauses.setIfInBounds n (some cl₁) } : Core).Noted :=
      h.of_watchers hfirst fun _ _ => .inl
  split
  · exact ⟨h₁, rfl⟩
  next hnot =>
    rw [if_neg hnot] at hdb
    split
    next cl₂ hre =>
      rw [hre] at hdb
      have h₂ : Noted
          { c with clauses := (c.clauses.setIfInBounds n (some cl₁)).setIfInBounds n (some cl₂) } :=
        h.of_watchers hdb fun _ _ => .inl
      exact ⟨h₂.watch cl₂.second (hdb.symm ▸ hn), rfl⟩
    next hre =>
      split
      · exact ⟨h₁, rfl⟩
      next hfalse =>
        refine ⟨h₁.of_watchers rfl fun _ _ => .inl, misused_enqueue
          (c := { c with clauses := _ }) ?_ _⟩
        -- the literal is neither true nor false
        unfold isFalse at hfalse
        match hvalue : ({ c with clauses := c.clauses.setIfInBounds n (some cl₁) } : Core).value
          cl₁.first with
        | none => rfl
        | some true => exact absurd hvalue hnot
        | some false =>
          rw [hvalue] at hfalse
          exact absurd rfl hfalse

/-- The visits of clauses that are there, one after the other. -/
theorem visitAll_noted (l : Literal) {ns : List Nat} (kept : Array Nat) (h : c.Noted)
    (hns : ∀ n ∈ ns, (c.db.clause? n).isSome = true)
    (hkept : ∀ n ∈ kept, (c.db.clause? n).isSome = true) :
    (visitAll l ns kept c).2.2.Noted ∧ (visitAll l ns kept c).2.2.misused = c.misused ∧
      ∀ n ∈ (visitAll l ns kept c).1, (c.db.clause? n).isSome = true := by
  induction ns generalizing kept c with
  | nil => exact ⟨h, rfl, hkept⟩
  | cons n ns ih =>
    have hdb := db_visit c l n
    obtain ⟨hvisited, hused⟩ := visit_noted h l (hns n List.mem_cons_self)
    have hrest (m : Nat) (hm : m ∈ ns) := hns m (List.mem_cons_of_mem n hm)
    have hpushed : ∀ m ∈ kept.push n, (c.db.clause? m).isSome = true := fun m hm => by
      rcases Array.mem_push.mp hm with hm | rfl
      · exact hkept m hm
      · exact hns m List.mem_cons_self
    unfold visitAll
    cases hvisit : c.visit l n with
    | satisfied c₁ | forced c₁ =>
      rw [hvisit] at hdb hvisited hused
      change c₁.db = c.db at hdb
      have hih := ih (c := c₁) (kept.push n) hvisited (hdb.symm ▸ hrest) (hdb.symm ▸ hpushed)
      rw [hdb] at hih
      exact ⟨hih.1, hih.2.1.trans hused, hih.2.2⟩
    | moved c₁ =>
      rw [hvisit] at hdb hvisited hused
      change c₁.db = c.db at hdb
      have hih := ih (c := c₁) kept hvisited (hdb.symm ▸ hrest) (hdb.symm ▸ hkept)
      rw [hdb] at hih
      exact ⟨hih.1, hih.2.1.trans hused, hih.2.2⟩
    | falsified c₁ lits =>
      rw [hvisit] at hvisited hused
      refine ⟨hvisited, hused, fun m hm => ?_⟩
      rcases Array.mem_append.mp hm with hm | hm
      · exact hpushed m hm
      · exact hrest m (List.mem_toArray.mp hm)

theorem propagateLit_noted (h : c.Noted) (x : Literal) :
    (c.propagateLit x).2.Noted ∧ (c.propagateLit x).2.misused = c.misused := by
  have htaken : ({ c with watches := c.watches.setIfInBounds x.neg.code #[] } : Core).Noted :=
    h.setWatches x.neg fun n hn => absurd hn (Array.not_mem_empty n)
  have hwatchers : ∀ n ∈ (c.watches.getD x.neg.code #[]).toList, (c.db.clause? n).isSome = true :=
    h x.neg.code
  unfold propagateLit
  simp only
  generalize (c.watches.getD x.neg.code #[]).toList = ns at hwatchers ⊢
  obtain ⟨hvisited, hused, hkept⟩ := visitAll_noted x.neg #[] htaken hwatchers fun n hn =>
    absurd hn (Array.not_mem_empty n)
  have hdb := db_visitAll x.neg ns #[] { c with watches := c.watches.setIfInBounds x.neg.code #[] }
  generalize visitAll x.neg ns #[] _ = r at hvisited hused hkept hdb ⊢
  rw [← hdb] at hkept
  exact ⟨hvisited.setWatches x.neg hkept, hused⟩

theorem misused_propagateUpTo (bound : Nat)
    (h : c.Noted) : (c.propagateUpTo bound).2.misused = c.misused := by
  induction bound generalizing c with
  | zero => rfl
  | succ bound ih =>
    simp only [propagateUpTo]
    split
    · rfl
    next x _ =>
      have hcounted : Noted { c with
          head := c.head + 1
          stats := { c.stats with propagations := c.stats.propagations + 1 } } :=
        h.of_watchers rfl fun _ _ => .inl
      obtain ⟨hnoted, hused⟩ := propagateLit_noted hcounted x
      split
      next heq =>
        rw [heq] at hused
        exact hused
      next heq =>
        rw [heq] at hnoted hused
        exact (ih hnoted).trans hused

/-- Propagation visits clauses that are there. -/
theorem misused_propagate (h : c.state.Watching) : c.propagate.2.misused = c.misused := by
  refine misused_propagateUpTo _ fun code n hn => ?_
  obtain ⟨x, y, hwatched, -⟩ := (h.mem (l := ⟨code⟩)).mp hn
  exact (h.isSome n).symm.trans (by rw [hwatched]; rfl)

/-! ## Conflicts -/

/-- Going back in two steps leaves the trail of the lower level. -/
theorem back_back {s : State} (hs : s.Assigned) {top level : Nat}
    (hlevel : level < (s.back top).starts.length) :
    ((s.back top).back level).trail = (s.back level).trail ∧ ((s.back top).back level).starts =
      (s.back level).starts := by
  unfold State.back at hlevel ⊢
  cases htop : s.starts[top]? with
  | none => exact ⟨rfl, rfl⟩
  | some last =>
    simp only [htop, List.length_take] at hlevel ⊢
    have hlt : level < top := by omega
    have hget : (s.starts.take top)[level]? = s.starts[level]? := List.getElem?_take_of_lt hlt
    obtain ⟨start, hstart⟩ : ∃ start, s.starts[level]? = some start :=
      ⟨_, List.getElem?_eq_getElem (by omega)⟩
    have hle : start < last := by
      obtain ⟨hlevel', rfl⟩ := List.getElem?_eq_some_iff.mp hstart
      obtain ⟨htop', rfl⟩ := List.getElem?_eq_some_iff.mp htop
      exact List.pairwise_iff_getElem.mp hs.starts level top hlevel' htop' hlt
    simp only [hget, hstart]
    refine ⟨?_, ?_⟩
    · show (s.trail.take last).take start = s.trail.take start
      rw [List.take_take, Nat.min_eq_left (Nat.le_of_lt hle)]
    · show (s.starts.take top).take level = s.starts.take level
      rw [List.take_take, Nat.min_eq_left (Nat.le_of_lt hlt)]

theorem starts_back_zero (s : State) : (s.back 0).starts = [] := by
  unfold State.back
  split
  next hnone =>
    exact List.eq_nil_of_length_eq_zero (Nat.le_zero.mp (List.getElem?_eq_none_iff.mp hnone))
  · rfl

theorem trail_learn (c : Core) (first : Literal) (rest : List Literal) (scope : Nat) :
    (c.learn (first :: rest) scope).state.trail = c.state.trail ++ [first] ∧
      (c.learn (first :: rest) scope).state.starts = c.state.starts := by
  unfold learn
  cases rest with
  | nil => exact ⟨Array.toList_push, rfl⟩
  | cons second rest =>
    dsimp only
    unfold storeClause
    cases c.freeClauses <;> exact ⟨Array.toList_push, rfl⟩

/-- What a conflict leads to, of a clause or of a theory: the search ends, or it goes back and on
with a learned clause. -/
theorem conflict_spec {lits : List Literal} (h : c.state.Orderly)
    (hback : ∀ level < c.state.starts.length, (c.state.back level).Running)
    (hfalse : ∀ k ∈ lits, k.neg ∈ c.state.trail) (scope : Nat) :
    (c.analyze lits).1 = .unsat ∧ (c.analyze lits).2.state = c.state ∨
      ∃ level first rest, (c.analyze lits).1 = .learnt level (first :: rest) ∧
        (((c.analyze lits).2.backtrack level).learn (first :: rest) scope).state.Running ∧
        (((c.analyze lits).2.backtrack level).learn (first :: rest) scope).misused = c.misused ∧
        (((c.analyze lits).2.backtrack level).learn (first :: rest) scope).state.trail =
          (c.state.back level).trail ++ [first] ∧
        (((c.analyze lits).2.backtrack level).learn (first :: rest) scope).state.starts =
          (c.state.back level).starts := by
  rcases analyze_false h.assigned h.unmarked hfalse with
    ⟨hunsat, hstate, -⟩ | ⟨top, level, first, rest, -, -, -, hlearnt, hstate, hflips, -⟩
  · exact .inl ⟨hunsat, hstate⟩
  · have hreturned := hflips.back (h.back top)
    have hrunning : ((c.state.back top).back level).Running := by
      by_cases htop : top < c.state.starts.length
      · exact (hback top htop).back level
      · have hsame : c.state.back top = c.state := by
          unfold State.back
          rw [List.getElem?_eq_none (Nat.le_of_not_lt htop)]
        have hlower := hflips.lower
        rw [hsame] at hlower ⊢
        exact hback level hlower
    obtain ⟨htrail, hstarts⟩ := back_back h.assigned hflips.lower
    rw [← hstate, ← state_backtrack] at hreturned hrunning htrail hstarts
    obtain ⟨htrail', hstarts'⟩ := trail_learn ((c.analyze lits).2.backtrack level) first rest scope
    refine .inr ⟨level, first, rest, hlearnt, (learn_running hrunning hreturned scope).1, ?_, ?_,
      ?_⟩
    · exact (misused_learn hreturned.value rest scope).trans (by simp)
    · rw [htrail', htrail]
    · rw [hstarts', hstarts]

/-! ## At level 0 -/

/-- `c'` has come from `c` at level 0, by clauses that were added and variables that were
taken into use. -/
structure Gathers (c c' : Core) : Prop where
  orderly : c'.state.Orderly
  running : c.state.Running → c'.state.Running
  starts : c'.state.starts = []
  trail : c.state.trail <+: c'.state.trail
  misused : c'.misused = c.misused

theorem decisionLevel_eq_zero (hstarts : c.state.starts = []) : c.decisionLevel = 0 :=
  (Array.length_toList).symm.trans (congrArg List.length hstarts)

theorem Gathers.refl (h : c.state.Orderly) (hstarts : c.state.starts = []) : Gathers c c :=
  ⟨h, id, hstarts, List.prefix_rfl, rfl⟩

theorem Gathers.trans {c' c'' : Core} (h : Gathers c c') (h' : Gathers c' c'') : Gathers c c'' :=
  ⟨h'.orderly, fun hr => h'.running (h.running hr), h'.starts, h.trail.trans h'.trail,
    h'.misused.trans h.misused⟩

theorem gathers_ensureVar (h : c.state.Orderly) (hstarts : c.state.starts = []) (v : Nat) :
    Gathers c (c.ensureVar v) := by
  refine ⟨?_, ?_, ?_, ?_, misused_ensureVar c v⟩
  all_goals rw [state_ensureVar]
  · exact h.ensure v
  · exact fun hr => (hr.ensure v).1
  · exact hstarts
  · exact List.prefix_rfl

theorem gathers_ensureVars {α : Type} (var : α → Nat) (as : List α) (h : c.state.Orderly)
    (hstarts : c.state.starts = []) :
    Gathers c (as.foldl (fun c a => c.ensureVar (var a)) c) := by
  induction as generalizing c with
  | nil => exact .refl h hstarts
  | cons a as ih =>
    have hone := gathers_ensureVar h hstarts (var a)
    exact hone.trans (ih hone.orderly hone.starts)

theorem gathers_addClause (h : c.state.Orderly) (hstarts : c.state.starts = [])
    (lits : List Literal) (scope : Nat) :
    Gathers c (c.addClause lits scope) := by
  have hensured := gathers_ensureVars (c := c.require (c.decisionLevel = 0)) Literal.var
    lits h hstarts
  obtain ⟨htrail, hstarts'⟩ := (addClause_added h lits scope).grown hensured.orderly
  exact ⟨addClause_spec h hstarts lits scope, fun hr => (addClause_running hr hstarts lits scope).1,
    hstarts'.trans hensured.starts, hensured.trail.trans htrail,
      misused_addClause (decisionLevel_eq_zero hstarts) lits scope⟩

end Entail.Core
