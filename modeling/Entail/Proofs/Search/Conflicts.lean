import Entail.Proofs.Search.Assertions
import Entail.Proofs.Search.Courses

/-!
# What conflict analysis answers

A core may be used in many ways between two analyses. Variables come into use and go out of use,
searches start and are left, and a false clause is one that propagation met or one that another
theory found, at whatever levels. All that an analysis relies on is that the core is in order: a
literal of the trail that was not decided is a unit at level 0 or is forced by a clause whose other
literals were falsified before.
-/

namespace Entail

namespace Search.State

variable {s t : State} {l : Literal}

/-- A state in order in which each level starts before the head. -/
structure Staged (s : State) : Prop extends s.Orderly where
  latest : ∀ j ∈ s.starts, j ≤ s.head

namespace Staged

/-- Nothing has to be propagated at level 0. -/
theorem of_root (h : s.Orderly) (hstarts : s.starts = []) : s.Staged := by
  refine ⟨h, fun j hj => ?_⟩
  rw [hstarts] at hj
  cases hj

theorem back (h : s.Staged) (level : Nat) : (s.back level).Staged := by
  have horderly := h.toOrderly.back level
  unfold State.back at horderly ⊢
  cases hstart : s.starts[level]? with
  | none => exact h
  | some start =>
    rw [hstart] at horderly
    refine ⟨horderly, fun j hj => ?_⟩
    change j ∈ s.starts.take level at hj
    rw [h.assigned.take_starts hstart, List.mem_filter, decide_eq_true_eq] at hj
    have hle := h.latest j hj.1
    show j ≤ min s.head start
    omega

/-- A literal is decided when everything was propagated. -/
theorem decide (h : s.Staged) (hhead : s.head = s.trail.length) (hvalue : s.value l = none)
    (hlive : (s.cell l.var).live = true) : (s.decide l).Staged := by
  refine ⟨h.toOrderly.decide hvalue hlive, fun j hj => ?_⟩
  change j ∈ s.starts ++ [s.trail.length] at hj
  rcases List.mem_append.mp hj with hj | hj
  · exact h.latest j hj
  · show j ≤ s.head
    rw [List.mem_singleton.mp hj, hhead]

end Staged
end Search.State

namespace Core

open Search Search.State

/-- A core that was used since it was made. Clauses are added and units are made true at level 0, a
literal is decided when everything was propagated, and a variable goes out of use when the trail is
empty and nothing mentions it. What is analysed is a clause whose literals are false, and the clause
that is answered may be learned. -/
inductive Used : Core → Prop where
  | new : Used {}
  | ensure {c} (h : Used c) (v : Nat) : Used (c.ensureVar v)
  | release {c} (h : Used c) (htrail : c.trail = #[]) {v : Nat}
    (hclauses : ∀ (n : Nat) (cl : Clause), (c.clauses[n]?).join = some cl →
      ∀ l ∈ cl.lits, l.var ≠ v)
    (hunits : ∀ u ∈ c.units, u.1.var ≠ v) : Used (c.releaseVar v)
  | add {c} (h : Used c) (hlevel : c.decisionLevel = 0) (lits : List Literal) (scope : Nat) :
    Used (c.addClause lits scope)
  | assign {c} (h : Used c) (hlevel : c.decisionLevel = 0) : Used c.assignUnits.2
  | pop {c} (h : Used c) (depth : Nat) : Used (c.popScopes depth)
  | merge {c} (h : Used c) (depth : Nat) : Used (c.mergeScopes depth)
  | reset {c} (h : Used c) : Used c.resetTrail
  | start {c} (h : Used c) (p : Params) : Used (c.startSearch p).2
  | propagate {c} (h : Used c) : Used c.propagate.2
  | analyze {c} (h : Used c) {lits : List Literal} (hfalse : ∀ l ∈ lits, c.value l = some false) :
    Used (c.analyze lits).2
  | learn {c} (h : Used c) {lits : List Literal} (hfalse : ∀ l ∈ lits, c.value l = some false)
    {level : Nat}
    {clause : List Literal} (hlearnt : (c.analyze lits).1 = .learnt level clause) (scope : Nat) :
    Used (((c.analyze lits).2.backtrack level).learn clause scope)
  | back {c} (h : Used c) (level : Nat) : Used (c.backtrack level)
  | restart {c} (h : Used c) (factor : Float) : Used (c.restart factor)
  | pick {c} (h : Used c) : Used c.pickBranch.2
  | decide {c} (h : Used c) (hhead : c.head = c.trail.size) {l : Literal}
    (hlive : (c.info l.var).live = true)
    (hvalue : c.value l = none) : Used (c.decide l)

variable {c : Core} {lits : List Literal}

/-! ## Steps -/

theorem starts_of_level (hlevel : c.decisionLevel = 0) : c.state.starts = [] :=
  List.eq_nil_of_length_eq_zero (Array.length_toList.trans hlevel)

theorem propagate_staged (h : c.state.Staged) : c.propagate.2.state.Staged := by
  -- a contradiction may have been found before, so nothing is said of what guards what
  have hready : c.state.Ready False := ⟨h.assigned, h.watching, False.elim, h.latest⟩
  have hsettled := propagate_spec hready
  refine ⟨h.toOrderly.extends hsettled.grown.toExtends hsettled.assigned hsettled.watching,
    fun j hj => ?_⟩
  rw [hsettled.head]
  cases hconflict : c.propagate.1 with
  | none => exact (hsettled.none hconflict).2 j hj
  | some lits =>
    obtain ⟨-, place, hlt, -, hlatest⟩ := hsettled.some lits hconflict
    have hle := hlatest j hj
    omega

theorem learn_staged {first : Literal} {rest : List Literal} (h : c.state.Staged)
    (hr : c.state.Returned first rest)
    (scope : Nat) : (c.learn (first :: rest) scope).state.Staged := by
  rcases state_learn h.toOrderly first rest scope with ⟨rfl, hstate⟩ | ⟨cl, hlits, hstate⟩
  · rw [hstate]
    exact ⟨h.toOrderly.learn_unit (hr.root rfl) hr.value (hr.live first List.mem_cons_self) scope,
      h.latest⟩
  · rw [hstate]
    obtain ⟨rfl, rfl⟩ := List.cons.inj hlits
    refine ⟨h.toOrderly.learn_clause hr.nodup hr.live hr.value fun k hk => ?_, h.latest⟩
    exact (List.mem_cons.mp hk).imp_right (hr.false k)

/-- An analysis leaves the state, or goes back to a level above 0. -/
theorem analyze_state (h : c.state.Orderly) (hfalse : ∀ l ∈ lits, c.value l = some false) :
    ∃ level, (c.analyze lits).2.state = c.state.back level ∨
    (c.analyze lits).2.state = c.state := by
  rcases analyze_false h.assigned h.unmarked fun l hl =>
      h.assigned.value_false.mp (hfalse l hl) with
    ⟨-, hstate, -⟩ | ⟨top, -, -, -, -, -, -, -, hstate, -⟩
  · exact ⟨0, .inr hstate⟩
  · exact ⟨top, .inl hstate⟩

theorem analyze_staged (h : c.state.Staged) (hfalse : ∀ l ∈ lits, c.value l = some false) :
    (c.analyze lits).2.state.Staged := by
  obtain ⟨level, hstate | hstate⟩ := analyze_state h.toOrderly hfalse
  · rw [hstate]
    exact h.back level
  · rw [hstate]
    exact h

/-- Every use of a core leaves it in order. -/
theorem Used.staged (h : Used c) : c.state.Staged := by
  -- by induction on the use; a learned clause is false at the level returned to, but for its first
  -- literal
  induction h with
  | new => exact .of_root orderly_new rfl
  | @ensure c h v ih =>
    rw [state_ensureVar]
    exact ⟨ih.toOrderly.ensure v, ih.latest⟩
  | @release c h htrail v hclauses hunits ih =>
    rw [state_releaseVar]
    refine ⟨ih.toOrderly.release (congrArg Array.toList htrail) (fun hcontent l hl => ?_) hunits,
      ih.latest⟩
    obtain ⟨cl, hcl, rfl⟩ := clause_of_content hcontent
    exact hclauses _ cl hcl l (Multiset.mem_coe.mp hl)
  | @add c h hlevel lits scope ih =>
    have hadded := gathers_addClause ih.toOrderly (starts_of_level hlevel) lits scope
    exact .of_root hadded.orderly hadded.starts
  | @assign c h hlevel ih =>
    have hstarts := starts_of_level hlevel
    obtain ⟨horderly, -⟩ := assignUnits_spec ih.toOrderly hstarts
    refine .of_root horderly (starts_of_level ?_)
    unfold decisionLevel
    rw [levelStarts_assignUnits]
    exact hlevel
  | pop h depth ih =>
    have hrunning := popScopes_running ih.toOrderly depth
    exact ⟨hrunning.orderly, hrunning.latest⟩
  | @merge c h depth ih =>
    refine ⟨mergeScopes_orderly ih.toOrderly depth, ?_⟩
    rw [state_mergeScopes]
    exact ih.latest
  | reset h ih =>
    rw [state_resetTrail]
    exact .of_root ih.toOrderly.clear rfl
  | start h p ih =>
    have hrunning := (startSearch_running ih.toOrderly p).1
    exact ⟨hrunning.orderly, hrunning.latest⟩
  | propagate h ih => exact propagate_staged ih
  | analyze h hfalse ih => exact analyze_staged ih hfalse
  | @learn c h lits hfalse level clause hlearnt scope ih =>
    rcases analyze_false ih.assigned ih.unmarked fun l hl =>
        ih.assigned.value_false.mp (hfalse l hl) with
      ⟨hunsat, -⟩ | ⟨top, level', first, rest, -, -, -, heq, hstate, hflips, -⟩
    · rw [hlearnt] at hunsat
      cases hunsat
    · rw [hlearnt] at heq
      cases heq
      have hback := (analyze_staged ih hfalse).back level
      have hreturned := hflips.back (ih.toOrderly.back top)
      rw [← hstate] at hreturned
      rw [← state_backtrack] at hback hreturned
      exact learn_staged hback hreturned scope
  | back h level ih =>
    rw [state_backtrack]
    exact ih.back level
  | @restart c h factor ih =>
    have hstate : (c.restart factor).state = c.state.back 0 := state_backtrack c 0
    rw [hstate]
    exact ih.back 0
  | pick h ih =>
    rw [state_pickBranch]
    exact ih
  | @decide c h hhead l hlive hvalue ih =>
    rw [state_decide]
    exact ih.decide (hhead.trans Array.length_toList.symm) hvalue hlive

/-! ## The clause to learn -/

/-- A clause to learn from a false clause. Its first literal is of the highest level of the false
clause, and the others are of lower levels, of which the level of the second one is the highest. It
is true whenever the clauses, the units and the false clause are. -/
structure Asserting (c : Core) (lits : List Literal) (level : Nat) (first : Literal)
    (rest : List Literal) : Prop where
  isFalse : ∀ l ∈ first :: rest, c.value l = some false
  highest : (∀ l ∈ lits, c.level l.var ≤ c.level first.var) ∧ ∃ l ∈ lits,
    c.level l.var = c.level first.var
  lower : level < c.level first.var
  others : ∀ l ∈ rest, c.level l.var ≤ level
  second : level = (rest.head?.map fun l => c.level l.var).getD 0
  entailed : ∀ a : Nat → Bool,
    (∀ (n : Nat) (cl : Clause), (c.clauses[n]?).join = some cl → ∃ l ∈ cl.lits, l.Holds a) →
      (∀ u ∈ c.units, u.1.Holds a) →
      (∃ l ∈ lits, l.Holds a) → ∃ l ∈ first :: rest, l.Holds a

/-- A valuation that makes the clauses and the units true obeys the database. -/
theorem obeys_of_clauses {a : Nat → Bool}
    (hclauses : ∀ (n : Nat) (cl : Clause), (c.clauses[n]?).join = some cl →
      ∃ l ∈ cl.lits, l.Holds a)
    (hunits : ∀ u ∈ c.units, u.1.Holds a) : c.state.db.Obeys a := by
  refine ⟨fun hcontent => ?_, fun hu => hunits _ hu⟩
  obtain ⟨cl, hcl, rfl⟩ := clause_of_content hcontent
  obtain ⟨l, hl, hholds⟩ := hclauses _ cl hcl
  exact ⟨l, Multiset.mem_coe.mpr hl, hholds⟩

/-- The clause to learn, as it is found when the trail has gone back to the highest level of the
false clause. -/
theorem Asserting.of_flips (h : c.state.Orderly) {top level : Nat} {first : Literal}
    {rest : List Literal}
    (hflips : (c.state.back top).Flips level first rest) (hle : ∀ l ∈ lits, c.state.level l ≤ top)
    (htop : ∃ l ∈ lits, c.state.level l = top) (hbound : top ≤ c.state.starts.length)
    (hentailed : ∀ a, c.state.db.Obeys a → (∃ l ∈ lits, l.Holds a) → ∃ l ∈ first :: rest,
      l.Holds a) :
    c.Asserting lits level first rest := by
  have hlength : (c.state.back top).starts.length = top := length_starts_back hbound
  have hkept {l : Literal} (hl : l.neg ∈ (c.state.back top).trail) :
      l.neg ∈ c.state.trail ∧ (c.state.back top).level l = c.state.level l := by
    have hback := h.assigned.mem_of_back top hl
    rwa [level_neg, level_neg] at hback
  have hfirst : c.state.level first = top := by
    rw [← (hkept hflips.mem).2, hflips.latest, hlength]
  have hrest {l : Literal} (hl : l ∈ rest) := hkept (hflips.others l hl).1
  refine ⟨fun l hl => ?_, ⟨fun l hl => ?_, ?_⟩, ?_, fun l hl => ?_, ?_, fun a hclauses hunits => ?_⟩
  · apply h.assigned.value_false.mpr
    rcases List.mem_cons.mp hl with rfl | hl
    · exact (hkept hflips.mem).1
    · exact (hrest hl).1
  · exact (hle l hl).trans hfirst.ge
  · obtain ⟨l, hl, hlevel⟩ := htop
    exact ⟨l, hl, hlevel.trans hfirst.symm⟩
  · exact (hflips.lower.trans_eq hlength).trans_eq hfirst.symm
  · have hlevel := (hflips.others l hl).2
    rwa [(hrest hl).2] at hlevel
  · cases hhead : rest.head? with
    | none => exact hflips.root (List.head?_eq_none_iff.mp hhead)
    | some l =>
      rw [← hflips.second l hhead, (hrest (List.mem_of_mem_head? hhead)).2]
      rfl
  · exact hentailed a (obeys_of_clauses hclauses hunits)

/-- Conflict analysis ends with an asserting clause. It never finds that the clause was not false,
and it answers that there is no way out exactly when no literal of the clause is above level 0.
The clause that it answers otherwise is false but follows, and when the search has gone back to
the level in the answer, its first literal has no value and the others are false. No variable is
left marked. -/
theorem analyze_asserts (h : Used c) (hfalse : ∀ l ∈ lits, c.value l = some false) :
    (c.analyze lits).1 ≠ .stuck ∧ ((c.analyze lits).1 = .unsat ↔ ∀ l ∈ lits, c.level l.var = 0) ∧
      (∀ level clause, (c.analyze lits).1 = .learnt level clause →
        ∃ first rest, clause = first :: rest ∧ c.Asserting lits level first rest ∧
          ((c.analyze lits).2.backtrack level).value first = none ∧
          ∀ l ∈ rest, ((c.analyze lits).2.backtrack level).value l = some false) ∧
      ∀ v, (c.analyze lits).2.isSeen v = false := by
  have hs := h.staged
  have hmem : ∀ l ∈ lits, l.neg ∈ c.state.trail :=
    fun l hl => hs.assigned.value_false.mp (hfalse l hl)
  have hunmarked : ∀ v, (c.analyze lits).2.isSeen v = false := (analyze_staged hs hfalse).unmarked
  rcases analyze_false hs.assigned hs.unmarked hmem with
    ⟨hunsat, -, hzero⟩ | ⟨top, level, first, rest, hpos, hle, htop, hlearnt, hstate,
      hflips, hentailed⟩
  · rw [hunsat]
    refine ⟨nofun, ⟨fun _ => hzero, fun _ => rfl⟩, nofun, hunmarked⟩
  · have hbound : top ≤ c.state.starts.length := by
      obtain ⟨l, hl, hlevel⟩ := htop
      rw [← hlevel, ← level_neg]
      exact hs.assigned.level_le (hmem l hl)
    have hreturned := hflips.back (hs.toOrderly.back top)
    have hback := (hs.back top).back level
    rw [← hstate, ← state_backtrack] at hreturned hback
    rw [hlearnt]
    refine ⟨nofun, ⟨nofun, fun hzero => ?_⟩, fun level' clause heq => ?_, hunmarked⟩
    · obtain ⟨l, hl, hlevel⟩ := htop
      have hroot : c.state.level l = 0 := hzero l hl
      omega
    · cases heq
      refine ⟨first, rest, rfl, .of_flips hs.toOrderly hflips hle htop hbound hentailed,
        hreturned.value, fun l hl => ?_⟩
      exact hback.assigned.value_false.mpr (hreturned.false l hl)

/-- A decision and the literal that it forces are false in a clause of another theory. -/
theorem analyze_asserts_decided :
    let c := ((({} : Core).addClause [.pos 1, .pos 2] 0).decide (Literal.pos 1).neg).propagate.2
    let lits := [Literal.pos 1, (Literal.pos 2).neg]
    (∀ l ∈ lits, c.value l = some false) ∧ ∃ level first rest, (c.analyze lits).1 = .learnt level
      (first :: rest) ∧
      c.Asserting lits level first rest ∧
        ((c.analyze lits).2.backtrack level).value first = none := by
  intro c lits
  have hpair : Literal.normalize [.pos 1, .pos 2] = [.pos 1, .pos 2] := by
    rw [Literal.normalize, List.mergeSort_of_pairwise (by simp [Literal.le, Literal.pos])]
    rfl
  have hadded : (({} : Core).addClause [.pos 1, .pos 2] 0).head =
    (({} : Core).addClause [.pos 1, .pos 2] 0).trail.size ∧
      ((({} : Core).addClause [.pos 1, .pos 2] 0).info 1).live = true ∧
      (({} : Core).addClause [.pos 1, .pos 2] 0).value (Literal.pos 1).neg = none := by
    unfold addClause
    rw [hpair]
    exact ⟨rfl, rfl, rfl⟩
  have hvalues : c.value (.pos 1) = some false ∧ c.value (Literal.pos 2).neg = some false ∧
      c.level 1 = 1 := by
    unfold c addClause
    rw [hpair]
    exact ⟨rfl, rfl, rfl⟩
  have hused : Used c := .propagate (.decide (.add .new rfl _ 0) hadded.1 hadded.2.1 hadded.2.2)
  have hfalse : ∀ l ∈ lits, c.value l = some false :=
    List.forall_mem_cons.mpr ⟨hvalues.1, List.forall_mem_singleton.mpr hvalues.2.1⟩
  obtain ⟨hstuck, hunsat, hlearnt, -⟩ := analyze_asserts hused hfalse
  refine ⟨hfalse, ?_⟩
  cases hanalysis : (c.analyze lits).1 with
  | stuck => exact absurd hanalysis hstuck
  | unsat =>
    have hzero := hunsat.mp hanalysis (.pos 1) List.mem_cons_self
    exact absurd (hzero.symm.trans hvalues.2.2) Nat.zero_ne_one
  | learnt level clause =>
    obtain ⟨first, rest, rfl, hasserting, hnone, -⟩ := hlearnt level clause hanalysis
    exact ⟨level, first, rest, rfl, hasserting, hnone⟩

end Core
end Entail
