import Entail.Proofs.Search.Levels
import Entail.Proofs.Search.Scopes

/-!
# Runs of a core

A core is given clauses at level 0, drops and merges scopes, and searches, in any order; every
search starts afresh and may be left at any point. At each moment what the core holds follows from
its inputs, each thing from the inputs of its scope and of the scopes around it. So a search that
finds a contradiction is right, and when everything in use has a value after a propagation, these
values satisfy the inputs.
-/

namespace Entail

namespace Core

open Search Search.State

/-- What a core does. -/
inductive Stage where
  /-- No search goes on. -/
  | resting
  /-- A search goes on. -/
  | searching
  /-- A search goes on, and everything on the trail was propagated. -/
  | propagated

/-- No clause and no unit belongs to a scope deeper than `scope`. -/
def ScopesUpTo (c : Core) (scope : Nat) : Prop :=
  (∀ (n : Nat) (cl : Clause), (c.clauses[n]?).join = some cl → cl.scope ≤ scope) ∧
    ∀ u ∈ c.units, u.2 ≤ scope

/-- A core that was used in some way since it was made, and the clauses it was given that are
left, with their scopes. Clauses are added at level 0. A search learns clauses in scopes that are
deep enough. -/
inductive Run : Stage → List Input → Core → Prop where
  | new : Run .resting [] {}
  | add {ins c} (h : Run .resting ins c) (hlevel : c.decisionLevel = 0) (lits : List Literal)
    (scope : Nat) :
    Run .resting (ins ++ [(lits, scope)]) (c.addClause lits scope)
  | pop {ins c} (h : Run .resting ins c) (depth : Nat) :
    Run .resting (within depth ins) (c.popScopes depth)
  | merge {ins c} (h : Run .resting ins c) (depth : Nat) :
    Run .resting (lift depth ins) (c.mergeScopes depth)
  | back {ins c} (h : Run .resting ins c) (level : Nat) : Run .resting ins (c.backtrack level)
  | reset {ins c} (h : Run .resting ins c) : Run .resting ins c.resetTrail
  | start {ins c} (h : Run .resting ins c) (p : Params) (hstart : (c.startSearch p).1 = true) :
    Run .searching ins (c.startSearch p).2
  | refuse {ins c} (h : Run .resting ins c) (p : Params) : Run .resting ins (c.startSearch p).2
  | propagate {ins c} (h : Run .searching ins c) (hnone : c.propagate.1 = none) :
    Run .propagated ins c.propagate.2
  | learn {ins c} (h : Run .searching ins c) {lits : List Literal}
    (hconflict : c.propagate.1 = some lits) {level : Nat}
    {clause : List Literal} (hlearnt : (c.propagate.2.analyze lits).1 = .learnt level clause)
    {scope : Nat}
    (hscope : c.ScopesUpTo scope) :
    Run .searching ins (((c.propagate.2.analyze lits).2.backtrack level).learn clause scope)
  | refute {ins c} (h : Run .searching ins c) {lits : List Literal}
    (hconflict : c.propagate.1 = some lits) :
    Run .resting ins (c.propagate.2.analyze lits).2
  | restart {ins c} (h : Run .searching ins c) (factor : Float) :
    Run .searching ins (c.restart factor)
  | decide {ins c} (h : Run .propagated ins c) {l : Literal} (hpick : c.pickBranch.1 = some l) :
    Run .searching ins (c.pickBranch.2.decide l)
  | done {ins c} (h : Run .propagated ins c) : Run .resting ins c.pickBranch.2
  | again {ins c} (h : Run .propagated ins c) : Run .searching ins c
  | leave {ins c} (h : Run .searching ins c) : Run .resting ins c

/-- What is kept while a core does something. -/
def Stage.Keeps (s : State) : Stage → Prop
  | resting => s.Orderly
  | searching => s.Going
  | propagated => s.Going ∧ s.head = s.trail.length

theorem Stage.Keeps.orderly {s : State} {g : Stage} (h : g.Keeps s) : s.Orderly := by
  cases g with
  | resting => exact h
  | searching => exact State.Running.orderly h.1
  | propagated => exact State.Running.orderly h.1.1

variable {g : Stage} {ins : List Input} {c : Core} {a : Nat → Bool}

/-! ## The steps -/

theorem orderly_new : ({} : Core).state.Orderly := by
  have hcell (v : Nat) : ({} : Core).state.cell v = ({} : VarInfo).cell := by
    show (({} : Core).info v).cell = _
    simp [info]
  have hclause (n : Nat) : ({} : Core).state.db.clause? n = none := by
    show ({} : Core).db.clause? n = none
    rw [clause?_db]
    simp
  have hwatchers (code : Nat) : ({} : Core).state.watchers code = [] := by
    show ((#[] : Array (Array Nat)).getD code #[]).toList = []
    simp
  have hwatched (n : Nat) : ({} : Core).state.watched n = none := by
    show (((#[] : Array (Option Clause))[n]?).join).map (fun cl => (cl.first, cl.second)) = none
    simp
  have htrail (l : Literal) : l ∉ ({} : Core).state.trail := List.not_mem_nil
  have hplace (i : Nat) (l : Literal) : ({} : Core).state.trail[i]? ≠ some l := fun h =>
    htrail l (List.mem_of_getElem? h)
  have hstarts (i : Nat) : i ∉ ({} : Core).state.starts := List.not_mem_nil
  have hunits (u : Literal × Nat) : u ∉ ({} : Core).state.db.units := Array.not_mem_empty u
  -- nothing is assigned, stored or watched, so every field is about an empty table
  refine ⟨⟨List.nodup_nil, ?_, fun h => absurd h (hplace _ _), List.Pairwise.nil, fun h =>
    absurd h (hstarts _),
      Nat.le_refl _, fun h => absurd h (htrail _), fun h => absurd h (hplace _ _), fun h =>
        absurd h (hplace _ _)⟩,
    ⟨rfl, ?_, ?_, ?_, ?_, ?_, ?_, ?_⟩, ?_, fun l h => absurd h (htrail l), fun u h =>
      absurd h (hunits u),
    ⟨0, List.nodup_nil, fun h => absurd h List.not_mem_nil, ?_, fun h => absurd h (hunits _),
      fun h => ?_⟩,
    fun h => absurd h Bool.false_ne_true⟩
  · intro l
    rw [hcell]
    exact ⟨fun h => absurd h (Option.some_ne_none _).symm, fun h => absurd h (htrail l)⟩
  · intro v hv
    rw [hcell] at hv
    cases hv
  · intro n cl hn
    rw [hclause] at hn
    cases hn
  · intro n cl hn
    rw [hclause] at hn
    cases hn
  · intro n
    rw [hclause, hwatched]
    rfl
  · intro n x y cl hn
    rw [hwatched] at hn
    cases hn
  · intro l n
    rw [hwatchers]
    constructor
    · intro h
      cases h
    · rintro ⟨x, y, hn, -⟩
      rw [hwatched] at hn
      cases hn
  · intro l
    rw [hwatchers]
    exact List.nodup_nil
  · intro v
    rw [hcell]
    rfl
  · intro n cl hn
    rw [hclause] at hn
    cases hn
  · cases h

/-- What a core holds after it has learned a clause. -/
theorem learn_holds (hsound : c.db.Sound ins) (hcovers : c.db.Covers ins)
    (hok : ∃ depth, c.db.Ok depth) (hempty : c.db.empty = none) {scope : Nat}
    (hclause : ∀ {n cl}, c.db.clause? n = some cl → cl.2.1 ≤ scope)
    (hunit : ∀ {u}, u ∈ c.db.units → u.2 ≤ scope) {lits : List Literal}
    (hlits : ∀ {a}, c.db.Models a → ∃ l ∈ lits, l.Holds a) :
    (c.learn lits scope).db.Sound ins ∧ (c.learn lits scope).db.Covers ins := by
  obtain ⟨depth, hok⟩ := hok
  have hlearn {a : Nat → Bool} (ha : Satisfies a (within scope ins)) : ∃ l ∈ lits, l.Holds a :=
    Database.learn_sound hsound hclause hunit hempty hlits ha
  unfold learn
  match lits with
  | [] => exact ⟨hsound, hcovers⟩
  | [l] =>
    refine ⟨hsound.addUnit fun ha => ?_, fun x hx => (hcovers x hx).imp_right fun h =>
      h.addUnit l scope⟩
    obtain ⟨k, hk, hholds⟩ := hlearn ha
    rwa [List.mem_singleton.mp hk] at hholds
  | first :: second :: rest =>
    have hstore :=
      db_storeClause { c with stats := { c.stats with learned := c.stats.learned + 1 } }
      { first, second, rest, scope, learnt := true }
    simp only [db_enqueue, hstore]
    refine ⟨hsound.store hok fun ha => ?_, fun x hx => (hcovers x hx).imp_right fun h =>
      h.store hok _⟩
    obtain ⟨k, hk, hholds⟩ := hlearn ha
    exact ⟨k, Multiset.mem_coe.mpr hk, hholds⟩

/-- A falsified clause is analysed: either the clauses cannot be satisfied, or a clause
is learned. -/
theorem analyze_turn (h : c.state.Going) {lits : List Literal}
    (hconflict : c.propagate.1 = some lits) :
    (c.propagate.2.analyze lits).2.state.Halted ∧
      ((c.propagate.2.analyze lits).1 = .unsat ∧ (∀ a, ¬ c.db.Models a) ∨
        ∃ level first rest, (c.propagate.2.analyze lits).1 = .learnt level (first :: rest) ∧
          (c.propagate.2.analyze lits).2.state.Asserts level first rest) := by
  obtain ⟨hhalted, hfalsified⟩ := (propagate_turn h).2 lits hconflict
  obtain ⟨hstate, hcases⟩ :=
    analyze_spec hhalted.orderly.assigned hhalted.orderly.unmarked hfalsified
  rw [hstate]
  have hdb : c.propagate.2.state.db = c.db := db_propagate c
  rw [hdb] at hcases
  exact ⟨hhalted, hcases⟩

/-- What a run preserves. -/
theorem Run.keeps (h : Run g ins c) : g.Keeps c.state ∧ c.db.Sound ins ∧ c.db.Covers ins := by
  -- by induction on the run; only `learn` needs more than what its operation does, since the clause
  -- has to be entailed at its scope
  induction h with
  | new =>
    refine ⟨orderly_new, ⟨?_, nofun, nofun⟩, nofun⟩
    intro n cl hn
    rw [clause?_db] at hn
    simp at hn
  | @add ins c h hlevel lits scope ih =>
    obtain ⟨horderly, hsound, hcovers⟩ := ih
    have hstarts : c.state.starts = [] :=
      List.eq_nil_of_length_eq_zero (Array.length_toList.trans hlevel)
    obtain ⟨depth, hok⟩ := horderly.orderly.ok
    rw [db_addClause]
    exact ⟨addClause_spec horderly.orderly hstarts lits scope,
      Database.add_spec hsound hcovers hok lits scope⟩
  | @pop ins c h depth ih =>
    obtain ⟨horderly, hsound, hcovers⟩ := ih
    obtain ⟨top, hok⟩ := horderly.orderly.ok
    obtain ⟨hclause, hunits, hempty⟩ := db_popScopes hok depth
    exact ⟨popScopes_orderly horderly.orderly depth,
      Database.within_spec hsound hcovers hclause hunits hempty⟩
  | @merge ins c h depth ih =>
    obtain ⟨horderly, hsound, hcovers⟩ := ih
    rw [db_mergeScopes]
    exact ⟨mergeScopes_orderly horderly.orderly depth, Database.merge_sound hsound hcovers depth⟩
  | @back ins c h level ih =>
    obtain ⟨horderly, hheld⟩ := ih
    rw [state_backtrack, db_backtrack]
    exact ⟨horderly.orderly.back level, hheld⟩
  | @reset ins c h ih =>
    obtain ⟨horderly, hheld⟩ := ih
    rw [state_resetTrail, db_resetTrail]
    exact ⟨horderly.orderly.clear, hheld⟩
  | @start ins c h p hstart ih =>
    obtain ⟨horderly, hheld⟩ := ih
    rw [db_startSearch]
    exact ⟨(startSearch_spec horderly.orderly p).2.1 hstart, hheld⟩
  | @refuse ins c h p ih =>
    obtain ⟨horderly, hheld⟩ := ih
    rw [db_startSearch]
    exact ⟨(startSearch_spec horderly.orderly p).1, hheld⟩
  | @propagate ins c h hnone ih =>
    obtain ⟨hgoing, hheld⟩ := ih
    rw [db_propagate]
    exact ⟨(propagate_turn hgoing).1 hnone, hheld⟩
  | @learn ins c h lits hconflict level clause hlearnt scope hscope ih =>
    obtain ⟨hgoing, hsound, hcovers⟩ := ih
    obtain ⟨hhalted, hcases⟩ := analyze_turn hgoing hconflict
    rw [hlearnt] at hcases
    rcases hcases with ⟨hunsat, -⟩ | ⟨level', first, rest, heq, hasserts⟩
    · cases hunsat
    · cases heq
      have hback := hhalted.back hasserts.lower
      have hreturned := hasserts.toFlips.back hhalted.orderly
      rw [← state_backtrack] at hback hreturned
      have hdb : ((c.propagate.2.analyze lits).2.backtrack level).db = c.db := by
        rw [db_backtrack, db_analyze, db_propagate]
      refine ⟨learn_turn hback hreturned scope, ?_⟩
      apply learn_holds
      · rw [hdb]
        exact hsound
      · rw [hdb]
        exact hcovers
      · exact hback.orderly.ok
      · exact hback.intact.2
      · rw [hdb]
        intro n cl hn
        rw [clause?_db] at hn
        obtain ⟨cl', hcl', rfl⟩ := Option.map_eq_some_iff.mp hn
        exact hscope.1 n cl' hcl'
      · rw [hdb]
        intro u hu
        exact hscope.2 u hu
      · intro a ha
        rw [db_backtrack] at ha
        exact hasserts.entailed ha
  | @refute ins c h lits hconflict ih =>
    obtain ⟨hgoing, hheld⟩ := ih
    rw [db_analyze, db_propagate]
    exact ⟨(analyze_turn hgoing hconflict).1.orderly, hheld⟩
  | @restart ins c h factor ih =>
    obtain ⟨hgoing, hheld⟩ := ih
    have hstate : (c.restart factor).state = c.state.back 0 := state_backtrack c 0
    rw [db_restart]
    refine ⟨?_, hheld⟩
    show (c.restart factor).state.Going
    rw [hstate]
    exact hgoing.back 0
  | @decide ins c h l hpick ih =>
    obtain ⟨⟨hgoing, hhead⟩, hheld⟩ := ih
    obtain ⟨hvalue, hlive⟩ := open_of_pickBranch hpick
    rw [db_decide, db_pickBranch]
    refine ⟨?_, hheld⟩
    show (c.pickBranch.2.decide l).state.Going
    rw [state_decide, state_pickBranch]
    exact hgoing.decide hhead hvalue hlive
  | @done ins c h ih =>
    obtain ⟨⟨hgoing, -⟩, hheld⟩ := ih
    rw [db_pickBranch]
    refine ⟨?_, hheld⟩
    show c.pickBranch.2.state.Orderly
    rw [state_pickBranch]
    exact hgoing.orderly
  | again h ih => exact ⟨ih.1.1, ih.2⟩
  | leave h ih => exact ⟨State.Running.orderly ih.1.1, ih.2⟩

theorem live_propagate (h : c.state.Going) (v : Nat) :
    (c.propagate.2.info v).live = (c.info v).live :=
  (propagate_spec h.ready).grown.live v

theorem live_analyze (h : c.state.Going) {lits : List Literal}
    (hconflict : c.propagate.1 = some lits) (v : Nat) :
    ((c.propagate.2.analyze lits).2.info v).live = (c.info v).live := by
  obtain ⟨hhalted, hfalsified⟩ := (propagate_turn h).2 lits hconflict
  have hstate := (analyze_spec hhalted.orderly.assigned hhalted.orderly.unmarked hfalsified).1
  exact (congrArg (fun s => (s.cell v).live) hstate).trans (live_propagate h v)

/-- The variables of the inputs are in use. -/
theorem Run.live (h : Run g ins c) : ∀ x ∈ ins, ∀ l ∈ x.1, (c.info l.var).live = true := by
  induction h with
  | new => nofun
  | @add ins c h hlevel lits scope ih =>
    obtain ⟨hmono, hlits⟩ := live_addClause h.keeps.1.orderly lits scope
    intro x hx l hl
    rcases List.mem_append.mp hx with hx | hx
    · exact hmono _ (ih x hx l hl)
    · rw [List.mem_singleton.mp hx] at hl
      exact hlits l hl
  | @pop ins c h depth ih =>
    intro x hx l hl
    rw [live_popScopes]
    exact ih x (mem_within.mp hx).1 l hl
  | @merge ins c h depth ih =>
    intro x hx l hl
    obtain ⟨y, hy, rfl⟩ := List.mem_map.mp hx
    exact ih y hy l hl
  | back h level ih => simpa using ih
  | reset h ih => simpa using ih
  | start h p hstart ih => simpa using ih
  | refuse h p ih => simpa using ih
  | propagate h hnone ih =>
    intro x hx l hl
    rw [live_propagate h.keeps.1]
    exact ih x hx l hl
  | learn h hconflict hlearnt hscope ih =>
    intro x hx l hl
    rw [live_learn, live_backtrack, live_analyze h.keeps.1 hconflict]
    exact ih x hx l hl
  | refute h hconflict ih =>
    intro x hx l hl
    rw [live_analyze h.keeps.1 hconflict]
    exact ih x hx l hl
  | restart h factor ih =>
    intro x hx l hl
    exact (live_backtrack _ 0 l.var).trans (ih x hx l hl)
  | @decide ins c h l hpick ih =>
    intro x hx k hk
    have hstate := congrArg (fun s => (s.cell k.var).live) (state_pickBranch c)
    exact (live_enqueue _ l none k.var).trans (hstate.trans (ih x hx k hk))
  | @done ins c h ih =>
    intro x hx k hk
    have hstate := congrArg (fun s => (s.cell k.var).live) (state_pickBranch c)
    exact hstate.trans (ih x hx k hk)
  | again h ih => exact ih
  | leave h ih => exact ih

/-! ## What a search answers -/

/-- After a propagation, an input whose literals all have values has a true one. -/
theorem satisfied_of_assigned (h : Run .propagated ins c) {x : Input} (hx : x ∈ ins)
    (hvalue : ∀ l ∈ x.1, (c.varValue l.var).isSome = true) : ∃ l ∈ x.1, c.value l = some true := by
  obtain ⟨⟨hgoing, hhead⟩, -, hcovers⟩ := h.keeps
  have ha := hgoing.orderly.assigned
  have hassigned : ∀ l ∈ x.1, c.state.value l ≠ none := by
    intro l hl
    obtain ⟨b, hb⟩ := Option.isSome_iff_exists.mp (hvalue l hl)
    show (c.varValue l.var).map _ ≠ none
    rw [hb]
    nofun
  have htrue {l : Literal} (hl : l ∈ c.state.trail) : c.value l = some true := ha.value_true.mpr hl
  rcases hcovers x hx with ⟨l, hl, hneg⟩ | ⟨n, cl, hcl, -, hsub⟩ | ⟨u, hu, -, hmem⟩ | ⟨k, hk, -⟩
  · -- one of a literal and its negation is true
    by_cases hin : l ∈ c.state.trail
    · exact ⟨l, hl, htrue hin⟩
    · refine ⟨l.neg, hneg, htrue ?_⟩
      apply Decidable.byContradiction
      intro hnot
      exact hassigned l hl (ha.value_none.mpr ⟨hin, hnot⟩)
  · have hguarded := hgoing.guarded hgoing.intact
    rw [hhead] at hguarded
    obtain ⟨l, hl, hin⟩ := hguarded.satisfied ha hgoing.orderly.watching (Nat.le_refl _) hcl
      fun l hl => hassigned l (hsub l hl)
    exact ⟨l, hsub l hl, htrue hin⟩
  · exact ⟨u.1, hmem, htrue (hgoing.rooted u hu).1⟩
  · have hnone : c.db.empty = none := hgoing.intact.2
    rw [hnone] at hk
    cases hk

/-- When there is nothing to pick, everything in use has a value. -/
theorem assigned_of_pickBranch (hnone : c.pickBranch.1 = none) {v : Nat} (hv : v ≠ 0)
    (hlive : (c.info v).live = true) :
    (c.varValue v).isSome = true := by
  have hclosed := (pickBranch_spec c).2 hnone v hv
  unfold isOpen at hclosed
  rw [hlive, Bool.true_and] at hclosed
  cases hvalue : c.varValue v with
  | none =>
    rw [hvalue] at hclosed
    cases hclosed
  | some b => rfl

/-- A clause of one literal is a unit. -/
theorem addClause_unit (c : Core) (l : Literal) (scope : Nat) :
    let c₁ := (c.require (c.decisionLevel = 0)).ensureVar l.var
    c.addClause [l] scope = (({ c₁ with units := c₁.units.push (l, scope) } : Core).assignUnit
      l).2 := by
  have hnormalize : Literal.normalize [l] = [l] := by
    unfold Literal.normalize
    rw [List.mergeSort_singleton]
    rfl
  unfold addClause
  simp [hnormalize, Literal.hasComplement]

/-- A unit that holds already is only noted. -/
theorem addClause_of_true {c : Core} {l : Literal} {scope : Nat}
    (hlive : (c.info l.var).live = true)
    (hvalue : c.value l = some true) (hlevel : c.decisionLevel = 0) :
    c.addClause [l] scope = { c with units := c.units.push (l, scope) } := by
  have hrequire : c.require (c.decisionLevel = 0) = c := by
    simp [require, hlevel]
  have hassign : ({ c with units := c.units.push (l, scope) } : Core).assignUnit l =
      (true, { c with units := c.units.push (l, scope) }) := by
    unfold assignUnit
    rw [show ({ c with units := c.units.push (l, scope) } : Core).value l = some true from hvalue]
  rw [addClause_unit, hrequire, ensureVar_of_live hlive, hassign]

/-- Where all of the trail was propagated, nothing is left to do. -/
theorem propagate_of_done {c : Core} (h : c.trail[c.head]? = none) : c.propagate = (none, c) := by
  unfold propagate propagateUpTo
  rw [h]

/-- A clause of two literals is stored and watched when neither is false. -/
theorem addClause_pair (c : Core) {l l' : Literal} (scope : Nat)
    (hnormal : Literal.normalize [l, l'] = [l, l'])
    (hcomplement : Literal.hasComplement [l, l'] = false) :
    let c₁ := ((c.require (c.decisionLevel = 0)).ensureVar l.var).ensureVar l'.var
    c₁.isFalse l = false → c₁.isFalse l' = false →
      c.addClause [l, l'] scope = (c₁.storeClause ⟨l, l', [], scope, false⟩).2 := by
  intro c₁ hl hl'
  have hfold : [l, l'].foldl (fun c l => c.ensureVar l.var)
      (c.require (c.decisionLevel = 0)) = c₁ := rfl
  unfold addClause
  simp [hnormal, hcomplement, hfold, hl, hl']

/-- A core decides its inputs. It reports a contradiction only when the inputs have no satisfying
valuation: when a search does not start, when a conflict was found at level 0, and when the analysis
of a falsified clause learns nothing. When a search has nothing to pick any more, everything in use
has a value, and the values satisfy the inputs. And what is left when scopes are dropped follows
from the inputs that are left. -/
theorem run_decides (h : Run g ins c) :
    ((∀ p, (c.startSearch p).1 = false → ∀ a, ¬ Satisfies a ins) ∧
      (c.hasRootConflict = true → ∀ a, ¬ Satisfies a ins) ∧
      (g = .searching → ∀ lits, c.propagate.1 = some lits →
        (c.propagate.2.analyze lits).1 = .unsat ∧ (∀ a, ¬ Satisfies a ins) ∨
          ∃ level clause, (c.propagate.2.analyze lits).1 = .learnt level clause)) ∧
      (g = .propagated →
        (c.pickBranch.1 = none → ∀ v, v ≠ 0 → (c.info v).live = true →
          (c.varValue v).isSome = true) ∧
          ((∀ v, (c.info v).live = true → (c.varValue v).isSome = true) → ∀ x ∈ ins, ∃ l ∈ x.1,
            c.value l = some true)) ∧
      ∀ depth a, Satisfies a (within depth ins) →
        (∀ (n : Nat) (cl : Clause), ((c.popScopes depth).clauses[n]?).join = some cl →
          ∃ l ∈ cl.lits, l.Holds a) ∧
          (∀ u ∈ (c.popScopes depth).units, u.1.Holds a) ∧
          (c.popScopes depth).hasRootConflict = false := by
  obtain ⟨hkeeps, hsound, hcovers⟩ := h.keeps
  have hmodels {a : Nat → Bool} (ha : Satisfies a ins) : c.db.Models a :=
    hsound.models_of_satisfies ha
  -- the three answers that refute the inputs, the answer that finds a model, and what is held when
  -- scopes are closed
  refine ⟨⟨?_, ?_, ?_⟩, ?_, ?_⟩
  · intro p hp a ha
    exact (startSearch_spec hkeeps.orderly p).2.2 hp a (hmodels ha)
  · intro hroot a ha
    rcases Bool.or_eq_true_iff.mp hroot with hconflict | hempty
    · exact hkeeps.orderly.refuted hconflict a (hmodels ha)
    · have hnone : c.emptyClause = none := (hmodels ha).empty
      rw [hnone] at hempty
      cases hempty
  · rintro rfl lits hconflict
    rcases (analyze_turn hkeeps hconflict).2 with ⟨hunsat, hno⟩ | ⟨level, first, rest, hlearnt, -⟩
    · exact .inl ⟨hunsat, fun a ha => hno a (hmodels ha)⟩
    · exact .inr ⟨level, first :: rest, hlearnt⟩
  · rintro rfl
    refine ⟨fun hnone v hv hlive => assigned_of_pickBranch hnone hv hlive, fun hvalue x hx => ?_⟩
    exact satisfied_of_assigned h hx fun l hl => hvalue l.var (h.live x hx l hl)
  · intro depth a ha
    obtain ⟨top, hok⟩ := hkeeps.orderly.ok
    obtain ⟨hclause, hunits, hempty⟩ := db_popScopes hok depth
    have hleft := (Database.within_spec hsound hcovers hclause hunits hempty).1.models_of_satisfies
      ha
    refine ⟨fun n cl hcl => ?_, fun u hu => hleft.unit hu, ?_⟩
    · have hdb : (c.popScopes depth).db.clause? n = some cl.content := by
        rw [clause?_db, hcl]
        rfl
      obtain ⟨l, hl, hholds⟩ := hleft.clause hdb
      exact ⟨l, Multiset.mem_coe.mp hl, hholds⟩
    · have hnone : (c.popScopes depth).emptyClause = none := hleft.empty
      unfold hasRootConflict
      rw [hnone]
      rfl

/-- A unit and its negation in a deeper scope contradict each other, until the scope is dropped. -/
theorem run_decides_contradiction :
    let c := (({} : Core).addClause [.pos 1] 0).addClause [(Literal.pos 1).neg] 1
    c.hasRootConflict = true ∧ (∀ a, ¬ Satisfies a [([.pos 1], 0), ([(Literal.pos 1).neg], 1)]) ∧
      (c.popScopes 0).hasRootConflict = false := by
  intro c
  have hlevel : (({} : Core).addClause [.pos 1] 0).decisionLevel = 0 := by
    rw [addClause_unit]
    rfl
  have hrun : Run .resting [([.pos 1], 0), ([(Literal.pos 1).neg], 1)] c :=
    .add (.add .new rfl [.pos 1] 0) hlevel [(Literal.pos 1).neg] 1
  have hconflict : c.hasRootConflict = true := by
    show ((({} : Core).addClause [.pos 1] 0).addClause [(Literal.pos 1).neg] 1).hasRootConflict =
      true
    rw [addClause_unit, addClause_unit]
    rfl
  have hleft : Satisfies (fun _ => true)
      (within 0 [([.pos 1], 0), ([(Literal.pos 1).neg], 1)]) := by
    intro x hx
    obtain ⟨hmem, hscope⟩ := mem_within.mp hx
    rcases List.mem_cons.mp hmem with rfl | hmem
    · exact ⟨.pos 1, List.mem_cons_self, rfl⟩
    · rw [List.mem_singleton.mp hmem] at hscope
      exact absurd hscope (by decide)
  have hdecides := run_decides hrun
  exact ⟨hconflict, hdecides.1.2.1 hconflict, (hdecides.2.2 0 _ hleft).2.2⟩

/-! ## The solving loop -/

theorem scopesUpTo_of_ok {scope : Nat} (h : c.db.Ok scope) : c.ScopesUpTo scope := by
  refine ⟨fun n cl hcl => ?_, fun u hu => h.unit hu⟩
  have hn : c.db.clause? n = some cl.content := by
    rw [clause?_db, hcl]
    rfl
  exact h.clause hn

theorem ok_of_scopesUpTo {scope depth : Nat} (h : c.ScopesUpTo scope) (hok : c.db.Ok depth)
    (hempty : c.db.empty = none) :
    c.db.Ok scope := by
  refine ⟨hok.nodup, hok.free, fun {n cl} hn => ?_, fun {u} hu => h.2 u hu, fun {k} hk => ?_⟩
  · rw [clause?_db] at hn
    obtain ⟨cl', hcl', rfl⟩ := Option.map_eq_some_iff.mp hn
    exact h.1 n cl' hcl'
  · rw [hempty] at hk
    cases hk

/-- What the loop answers, and that it only takes steps of a search. -/
theorem solveLoop_decides (factor : Float) {scope : Nat} (fuel : Nat) (c : Core)
    (h : Run .searching ins c) (hok : c.db.Ok scope) :
    Run .resting ins (solveLoop factor scope fuel c).2 ∧
      ((solveLoop factor scope fuel c).1 = some false → ∀ a, ¬ Satisfies a ins) ∧
      ((solveLoop factor scope fuel c).1 = some true → ∃ c', Run .propagated ins c' ∧
        c'.pickBranch.1 = none ∧
        (solveLoop factor scope fuel c).2 = c'.pickBranch.2) := by
  -- by induction on the fuel: a turn is one step of a run, or gives the answer
  induction fuel generalizing c with
  | zero => exact ⟨h.leave, nofun, nofun⟩
  | succ fuel ih =>
    have hdecides := run_decides h
    unfold solveLoop
    by_cases hroot : c.hasRootConflict = true
    · rw [if_pos hroot]
      exact ⟨h.leave, fun _ => hdecides.1.2.1 hroot, nofun⟩
    rw [if_neg hroot]
    have hpropagate := Run.propagate h
    have hlearn := @Run.learn ins c h
    have hrefute := @Run.refute ins c h
    have hanalyze := hdecides.1.2.2 rfl
    have hdbp : c.propagate.2.db = c.db := db_propagate c
    generalize c.propagate = r at *
    obtain ⟨conflict, c₁⟩ := r
    simp only at *
    cases conflict with
    | some lits =>
      simp only
      have hlearn := @hlearn lits rfl
      have hrefute := @hrefute lits rfl
      have hdba : (c₁.analyze lits).2.db = c.db := (db_analyze c₁ lits).trans hdbp
      rcases hanalyze lits rfl with ⟨hunsat, hno⟩ | ⟨level, clause, hlearnt⟩
      · generalize c₁.analyze lits = r₂ at *
        obtain ⟨answer, c₂⟩ := r₂
        simp only at hunsat hrefute
        subst hunsat
        exact ⟨hrefute, fun _ => hno, nofun⟩
      · have hnext := hlearn hlearnt (scopesUpTo_of_ok hok)
        generalize c₁.analyze lits = r₂ at *
        obtain ⟨answer, c₂⟩ := r₂
        simp only at hlearnt hnext hdba
        subst hlearnt
        have hokay : ((c₂.backtrack level).learn clause scope).db.Ok scope := by
          apply (grows_learn _ clause).ok
          rw [db_backtrack, hdba]
          exact hok
        exact ih _ hnext hokay
    | none =>
      simp only
      have hsettled := hpropagate rfl
      have hok₁ : c₁.db.Ok scope := by
        rw [hdbp]
        exact hok
      by_cases hrestart : c₁.shouldRestart = true
      · rw [if_pos hrestart]
        exact ih _ (hsettled.again.restart factor) (by rw [db_restart]; exact hok₁)
      · rw [if_neg hrestart]
        have hdecide := @Run.decide ins c₁ hsettled
        have hdone := hsettled.done
        have hdbb : c₁.pickBranch.2.db = c₁.db := db_pickBranch c₁
        cases hpick : c₁.pickBranch with
        | mk l c₂ =>
          rw [hpick] at hdecide hdone hdbb
          cases l with
          | none => exact ⟨hdone, nofun, fun _ => ⟨c₁, hsettled, by rw [hpick], by rw [hpick]⟩⟩
          | some l =>
            simp only
            exact ih _ (hdecide rfl) (by rw [db_decide, hdbb]; exact hok₁)

/-- The solving loop decides the inputs: an answer is right, and after a positive one everything in
use has a value. -/
theorem solve_decides (h : Run .resting ins c) {scope : Nat} (hscope : c.ScopesUpTo scope)
    (p : Params) (fuel : Nat) :
    Run .resting ins (c.solve p scope fuel).2 ∧
      ((c.solve p scope fuel).1 = some false → ∀ a, ¬ Satisfies a ins) ∧
      ((c.solve p scope fuel).1 = some true → ∀ x ∈ ins, (∀ l ∈ x.1, l.var ≠ 0) →
        ∃ l ∈ x.1, (c.solve p scope fuel).2.value l = some true) := by
  have hstart := @Run.start ins c h p
  have hrefuse := h.refuse p
  have hno := (run_decides h).1.1 p
  have hdb := db_startSearch c p
  unfold solve
  generalize c.startSearch p = r at *
  obtain ⟨started, c₁⟩ := r
  simp only at *
  cases started with
  | false => exact ⟨hrefuse, fun _ => hno rfl, nofun⟩
  | true =>
    have hrun := hstart rfl
    have hgoing : c₁.state.Going := hrun.keeps.1
    obtain ⟨depth, hok⟩ := hgoing.orderly.ok
    have hscope₁ : c₁.ScopesUpTo scope := by
      obtain ⟨hclauses, hunits⟩ := hscope
      refine ⟨fun n cl hcl => ?_, fun u hu => hunits u ?_⟩
      · have hn : c.db.clause? n = some cl.content := by
          rw [← hdb, clause?_db, hcl]
          rfl
        rw [clause?_db] at hn
        obtain ⟨cl', hcl', hcontent⟩ := Option.map_eq_some_iff.mp hn
        have hsame : cl'.scope = cl.scope := congrArg (·.2.1) hcontent
        rw [← hsame]
        exact hclauses n cl' hcl'
      · rw [← show c₁.units = c.units from congrArg Database.units hdb]
        exact hu
    obtain ⟨hrest, hfalse, htrue⟩ := solveLoop_decides p.restartFactor.toFloat fuel c₁ hrun
      (ok_of_scopesUpTo hscope₁ hok hgoing.intact.2)
    refine ⟨hrest, hfalse, fun ht x hx hvars => ?_⟩
    obtain ⟨c₂, hrun₂, hpick, heq⟩ := htrue ht
    obtain ⟨l, hl, hvalue⟩ := satisfied_of_assigned hrun₂ hx fun l hl =>
      assigned_of_pickBranch hpick (hvars l hl) (hrun₂.live x hx l hl)
    refine ⟨l, hl, ?_⟩
    rw [heq]
    exact (congrArg (fun s => s.value l) (state_pickBranch c₂)).trans hvalue

end Core
end Entail
