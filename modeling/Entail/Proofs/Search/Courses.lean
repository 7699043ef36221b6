import Entail.Proofs.Search.Levels
import Entail.Proofs.Search.Runs

/-!
# Courses of a core

A core may be searched at any time: clauses are added at level 0 in the middle of a search, a search
may go on with a contradiction that was found, and what another theory objects to is analysed like a
falsified clause. Only a decision has to wait for a propagation that finds no conflict, and after a
conflict at level 0 the next search starts afresh. In every such course a propagation is complete,
and what it forces has a reason.
-/

namespace Entail

namespace Core

open Search Search.State

/-- Where a core stands. -/
inductive Phase where
  /-- The last search has ended at a conflict at level 0. -/
  | ended
  /-- The trail was taken back, and units may have no value. -/
  | resting
  /-- A search goes on. -/
  | searching
  /-- A search goes on, and the last propagation found no conflict. -/
  | settled

/-- Where a core stands when there may be something to propagate again. -/
def Phase.unsettled : Phase → Phase
  | settled => searching
  | g => g

/-- A core that was used since it was made. A conflict is analysed, and the clause that is learned
from it becomes a reason, or the search ends. -/
inductive Course : Phase → Core → Prop where
  | new : Course .resting {}
  | add {g c} (h : Course g c) (hlevel : c.decisionLevel = 0) (lits : List Literal) (scope : Nat) :
    Course g.unsettled (c.addClause lits scope)
  | pop {g c} (h : Course g c) (depth : Nat) : Course .resting (c.popScopes depth)
  | merge {g c} (h : Course g c) (depth : Nat) : Course g (c.mergeScopes depth)
  | back {g c} (h : Course g c) (level : Nat) : Course g.unsettled (c.backtrack level)
  | reset {g c} (h : Course g c) : Course .resting c.resetTrail
  | start {g c} (h : Course g c) (p : Params) : Course .searching (c.startSearch p).2
  | propagate {c} (h : Course .searching c) (hnone : c.propagate.1 = none) :
    Course .settled c.propagate.2
  | learn {c} (h : Course .searching c) {lits : List Literal}
    (hconflict : c.propagate.1 = some lits) {level : Nat}
    {clause : List Literal} (hlearnt : (c.propagate.2.analyze lits).1 = .learnt level clause)
    (scope : Nat) :
    Course .searching (((c.propagate.2.analyze lits).2.backtrack level).learn clause scope)
  | refute {c} (h : Course .searching c) {lits : List Literal}
    (hconflict : c.propagate.1 = some lits) :
    Course .ended (c.propagate.2.analyze lits).2
  | object {c} (h : Course .settled c) {lits : List Literal} (hfalse : ∀ l ∈ lits,
    c.value l = some false) {level : Nat}
    {clause : List Literal} (hlearnt : (c.analyze lits).1 = .learnt level clause) (scope : Nat) :
    Course .searching (((c.analyze lits).2.backtrack level).learn clause scope)
  | dismiss {c} (h : Course .settled c) {lits : List Literal} (hfalse : ∀ l ∈ lits,
    c.value l = some false) :
    Course .ended (c.analyze lits).2
  | restart {g c} (h : Course g c) (factor : Float) : Course g.unsettled (c.restart factor)
  | pick {g c} (h : Course g c) : Course g c.pickBranch.2
  | decide {c} (h : Course .settled c) {l : Literal} (hlive : (c.info l.var).live = true)
    (hvalue : c.value l = none) :
    Course .searching (c.decide l)
  | again {c} (h : Course .settled c) : Course .searching c

/-- What is kept where a core stands. -/
def Phase.Keeps (s : State) : Phase → Prop
  | ended => s.Orderly
  | resting => s.Running
  | searching => s.Running ∧ (s.Intact → s.Rooted)
  | settled => (s.Running ∧ (s.Intact → s.Rooted)) ∧ s.head = s.trail.length

namespace Phase

variable {s t : State} {g : Phase}

theorem Keeps.orderly (h : g.Keeps s) : s.Orderly := by
  cases g with
  | ended => exact h
  | resting => exact State.Running.orderly h
  | searching => exact h.1.orderly
  | settled => exact h.1.1.orderly

theorem Keeps.running (h : g.Keeps s) (hg : g ≠ .ended) : s.Running := by
  cases g with
  | ended => exact absurd rfl hg
  | resting => exact h
  | searching => exact h.1
  | settled => exact h.1.1

theorem Keeps.rooted (h : g.Keeps s) (hg : g ≠ .ended) (hg' : g ≠ .resting) (hi : s.Intact) :
    s.Rooted := by
  cases g with
  | ended => exact absurd rfl hg
  | resting => exact absurd rfl hg'
  | searching => exact h.2 hi
  | settled => exact h.1.2 hi

/-- A step that keeps what is guarded keeps it wherever the core stands. -/
theorem Keeps.step (h : g.Keeps s) (horderly : s.Orderly → t.Orderly)
    (hrunning : s.Running → t.Running ∧ s.Admits t) :
    g.unsettled.Keeps t := by
  have hsearching (h : s.Running ∧ (s.Intact → s.Rooted)) : t.Running ∧ (t.Intact → t.Rooted) := by
    obtain ⟨ht, hadmits⟩ := hrunning h.1
    exact ⟨ht, fun hi => (hadmits hi).2 (h.2 (hadmits hi).1)⟩
  cases g with
  | ended => exact horderly h
  | resting => exact (hrunning h).1
  | searching => exact hsearching h
  | settled => exact hsearching h.1

end Phase

variable {g : Phase} {c : Core}

/-- A clause is learned from a conflict. -/
theorem learn_step {s : State} {level : Nat} {first : Literal} {rest : List Literal}
    (hrooted : s.Intact → s.Rooted)
    (hs : s.Orderly) (hflips : s.Flips level first rest) (hback : (s.back level).Running)
    (hstate : c.state = s) (scope : Nat) :
    Phase.searching.Keeps ((c.backtrack level).learn (first :: rest) scope).state := by
  have hreturned := hflips.back hs
  have hcontinues := Continues.back hs.assigned level
  rw [← hstate, ← state_backtrack] at hback hreturned hcontinues
  obtain ⟨hrunning, hlearn⟩ := learn_running hback hreturned scope
  have hall := hcontinues.trans hlearn
  rw [hstate] at hall
  exact ⟨hrunning, fun hi => hall.rooted (hrooted (hall.intact.mp hi))⟩

/-- What a course preserves. -/
theorem Course.keeps (h : Course g c) : g.Keeps c.state := by
  -- by induction on the course, each case in two halves: the state stays in order, and its root
  -- level stays settled where it was
  induction h with
  | new => exact orderly_new.running rfl rfl
  | @add g c h hlevel lits scope ih =>
    have hstarts : c.state.starts = [] :=
      List.eq_nil_of_length_eq_zero (Array.length_toList.trans hlevel)
    exact ih.step (fun hs => addClause_spec hs hstarts lits scope) fun hs =>
      addClause_running hs hstarts lits scope
  | pop h depth ih => exact popScopes_running ih.orderly depth
  | @merge g c h depth ih =>
    have hstep := ih.step (fun hs => mergeScopes_orderly hs depth) fun hs =>
      (mergeScopes_running hs depth).imp_right (·.admits)
    cases g with
    | ended => exact hstep
    | resting => exact hstep
    | searching => exact hstep
    | settled =>
      refine ⟨hstep, ?_⟩
      rw [state_mergeScopes]
      exact ih.2
  | @back g c h level ih =>
    rw [state_backtrack]
    exact ih.step (·.back level) fun hs =>
      ⟨hs.back level, (Continues.back hs.orderly.assigned level).admits⟩
  | reset h ih =>
    rw [state_resetTrail]
    exact ih.orderly.clear.running rfl rfl
  | @start g c h p ih =>
    exact startSearch_running ih.orderly p
  | @propagate c h hnone ih =>
    obtain ⟨hcontinues, hsettled, -⟩ := propagate_running ih.1
    obtain ⟨hrunning, hhead⟩ := hsettled hnone
    exact ⟨⟨hrunning, fun hi => hcontinues.rooted (ih.2 (hcontinues.intact.mp hi))⟩, hhead⟩
  | @learn c h lits hconflict level clause hlearnt scope ih =>
    obtain ⟨hcontinues, -, hstopped⟩ := propagate_running ih.1
    obtain ⟨hstopped, hfalsified⟩ := hstopped lits hconflict
    obtain ⟨hstate, hcases⟩ :=
      analyze_spec hstopped.orderly.assigned hstopped.orderly.unmarked hfalsified
    rcases hcases with ⟨hunsat, -⟩ | ⟨level', first, rest, heq, hasserts⟩
    · rw [hlearnt] at hunsat
      cases hunsat
    · rw [hlearnt] at heq
      cases heq
      exact learn_step (fun hi => hcontinues.rooted (ih.2 (hcontinues.intact.mp hi)))
        hstopped.orderly hasserts.toFlips
        (hstopped.back hasserts.lower) hstate scope
  | @refute c h lits hconflict ih =>
    obtain ⟨-, -, hstopped⟩ := propagate_running ih.1
    obtain ⟨hstopped, hfalsified⟩ := hstopped lits hconflict
    obtain ⟨hstate, -⟩ :=
      analyze_spec hstopped.orderly.assigned hstopped.orderly.unmarked hfalsified
    show State.Orderly _
    rw [hstate]
    exact hstopped.orderly
  | @object c h lits hfalse level clause hlearnt scope ih =>
    have hs := ih.orderly
    rcases analyze_false hs.assigned hs.unmarked fun l hl =>
        hs.assigned.value_false.mp (hfalse l hl) with
      ⟨hunsat, -⟩ | ⟨top, level', first, rest, -, -, -, heq, hstate, hflips, -⟩
    · rw [hlearnt] at hunsat
      cases hunsat
    · rw [hlearnt] at heq
      cases heq
      have hcontinues := Continues.back hs.assigned top
      exact learn_step (fun hi => hcontinues.rooted (ih.1.2 (hcontinues.intact.mp hi)))
        (hs.back top) hflips
        ((ih.1.1.back top).back level) hstate scope
  | @dismiss c h lits hfalse ih =>
    have hs := ih.orderly
    show State.Orderly _
    rcases analyze_false hs.assigned hs.unmarked fun l hl =>
        hs.assigned.value_false.mp (hfalse l hl) with
      ⟨-, hstate, -⟩ | ⟨top, -, -, -, -, -, -, -, hstate, -⟩
    · rw [hstate]
      exact hs
    · rw [hstate]
      exact hs.back top
  | @restart g c h factor ih =>
    have hstate : (c.restart factor).state = c.state.back 0 := state_backtrack c 0
    rw [hstate]
    exact ih.step (·.back 0) fun hs => ⟨hs.back 0, (Continues.back hs.orderly.assigned 0).admits⟩
  | pick h ih =>
    rw [state_pickBranch]
    exact ih
  | @decide c h l hlive hvalue ih =>
    rw [state_decide]
    obtain ⟨hrunning, hcontinues⟩ := ih.1.1.decide ih.2 hvalue hlive
    exact ⟨hrunning, fun hi => hcontinues.rooted (ih.1.2 (hcontinues.intact.mp hi))⟩
  | again h ih => exact ih.1

/-! ## What a propagation comes to -/

/-- A clause of the core is one of its database. -/
theorem content_of_clause {n : Nat} {cl : Clause} (h : (c.clauses[n]?).join = some cl) :
    c.state.db.clause? n = some cl.content := by
  show c.db.clause? n = _
  rw [clause?_db, h]
  rfl

theorem clause_of_content {n : Nat} {content : Content} (h : c.state.db.clause? n = some content) :
    ∃ cl : Clause, (c.clauses[n]?).join = some cl ∧ content = cl.content := by
  change c.db.clause? n = _ at h
  rw [clause?_db] at h
  obtain ⟨cl, hcl, heq⟩ := Option.map_eq_some_iff.mp h
  exact ⟨cl, hcl, heq.symm⟩

/-- Propagation is complete and sound in every course. When it finds no conflict and there is no
contradiction at level 0, every clause has a true literal or two that are not false, and in a search
every unit is true. A conflict that it answers is a clause whose literals are false. And a literal
that it makes true was forced by a clause whose other literals were made false before. -/
theorem propagate_complete (h : Course g c) (hg : g ≠ .ended) :
    (c.propagate.1 = none → c.propagate.2.hasRootConflict = false →
      (∀ (n : Nat) (cl : Clause), (c.propagate.2.clauses[n]?).join = some cl →
        (∃ l ∈ cl.lits, c.propagate.2.value l = some true) ∨
          ∃ k ∈ cl.lits, ∃ l ∈ cl.lits, k ≠ l ∧ c.propagate.2.value k ≠ some false ∧
          c.propagate.2.value l ≠ some false) ∧
        (g ≠ .resting → ∀ u ∈ c.propagate.2.units, c.propagate.2.value u.1 = some true)) ∧
      (∀ lits, c.propagate.1 = some lits →
        (∃ (n : Nat) (cl : Clause), (c.propagate.2.clauses[n]?).join = some cl ∧
          lits.Perm cl.lits) ∧
          ∀ l ∈ lits, c.propagate.2.value l = some false) ∧
      ∀ l, c.value l = none → c.propagate.2.value l = some true →
        ∃ (i n : Nat) (cl : Clause), c.propagate.2.trail[i]? = some l ∧
        (c.propagate.2.info l.var).reason = some n ∧
          (c.propagate.2.clauses[n]?).join = some cl ∧ l ∈ cl.lits ∧
          ∀ k ∈ cl.lits, k ≠ l → c.propagate.2.value k = some false ∧ ∃ j < i,
          c.propagate.2.trail[j]? = some k.neg := by
  have hkeeps := h.keeps
  have hrunning := hkeeps.running hg
  have hsettled := propagate_spec hrunning.ready
  obtain ⟨hcontinues, hnone, hsome⟩ := propagate_running hrunning
  have hbefore : ∀ l, c.value l = none → l ∉ c.state.trail := fun l hl =>
    (hrunning.orderly.assigned.value_none.mp hl).1
  generalize c.propagate.1 = conflict at *
  generalize c.propagate.2 = d at *
  have ha := hsettled.assigned
  -- values are read off the trail from here on
  have htrue (l : Literal) : d.value l = some true ↔ l ∈ d.state.trail := ha.value_true
  have hfalse (l : Literal) : d.value l = some false ↔ l.neg ∈ d.state.trail := ha.value_false
  refine ⟨fun hn hroot => ?_, fun lits hlits => ?_, fun l hvalue hl => ?_⟩
  · obtain ⟨hd, hhead⟩ := hnone hn
    have hintact : d.state.Intact := by
      unfold hasRootConflict at hroot
      rw [Bool.or_eq_false_iff] at hroot
      have hempty : d.emptyClause = none := by simpa using hroot.2
      exact ⟨hroot.1, hempty⟩
    refine ⟨fun n cl hcl => ?_, fun hg' u hu => ?_⟩
    · have hguarded := hd.guarded hintact
      rw [hhead] at hguarded
      simp only [htrue, hfalse, ne_eq]
      exact hguarded.complete hd.orderly.watching (Nat.le_refl _) (content_of_clause hcl)
    · exact (htrue u.1).mpr (hcontinues.rooted (hkeeps.rooted hg hg' (hcontinues.intact.mp hintact))
        u hu).1
  · obtain ⟨-, n, content, hcontent, hperm, hneg, -⟩ := hsome lits hlits
    obtain ⟨cl, hcl, rfl⟩ := clause_of_content hcontent
    exact ⟨⟨n, cl, hcl, Multiset.coe_eq_coe.mp hperm⟩, fun l hl => (hfalse l).mpr (hneg l hl)⟩
  · have hmem := (htrue l).mp hl
    obtain ⟨n, hreason⟩ := (hsettled.grown.forced l hmem).resolve_left (hbefore l hvalue)
    obtain ⟨i, hi⟩ := List.mem_iff_getElem?.mp hmem
    obtain ⟨content, hcontent, hl, hothers⟩ := ha.reason hi hreason
    obtain ⟨cl, hcl, rfl⟩ := clause_of_content hcontent
    have htrail (j : Nat) : d.trail[j]? = d.state.trail[j]? := Array.getElem?_toList.symm
    refine ⟨i, n, cl, (htrail i).trans hi, hreason, hcl, Multiset.mem_coe.mp hl, fun k hk hkl => ?_⟩
    have hneg := (hothers k (Multiset.mem_coe.mpr hk)).resolve_left hkl
    obtain ⟨j, hj⟩ := List.mem_iff_getElem?.mp hneg
    rw [List.getElem?_take] at hj
    split at hj
    next hlt => exact ⟨(hfalse k).mpr (List.mem_of_mem_take hneg), j, hlt, (htrail j).trans hj⟩
    next => cases hj

/-- A clause of two literals whose first one is false forces the second one. -/
theorem propagate_complete_forced :
    let c := (({} : Core).addClause [.pos 1, .pos 2] 0).addClause [(Literal.pos 1).neg] 0
    c.propagate.1 = none ∧
      (∀ (n : Nat) (cl : Clause), (c.propagate.2.clauses[n]?).join = some cl →
        (∃ l ∈ cl.lits, c.propagate.2.value l = some true) ∨
          ∃ k ∈ cl.lits, ∃ l ∈ cl.lits, k ≠ l ∧ c.propagate.2.value k ≠ some false ∧
            c.propagate.2.value l ≠ some false) ∧
      ∃ (n : Nat) (cl : Clause), (c.propagate.2.info 2).reason = some n ∧
        (c.propagate.2.clauses[n]?).join = some cl ∧
        Literal.pos 2 ∈ cl.lits := by
  intro c
  have hpair : Literal.normalize [.pos 1, .pos 2] = [.pos 1, .pos 2] := by
    rw [Literal.normalize, List.mergeSort_of_pairwise (by simp [Literal.le, Literal.pos])]
    rfl
  have hsingle : Literal.normalize [(Literal.pos 1).neg] = [(Literal.pos 1).neg] := by
    rw [Literal.normalize, List.mergeSort_singleton]
    rfl
  have hlevel : (({} : Core).addClause [.pos 1, .pos 2] 0).decisionLevel = 0 := by
    unfold addClause
    rw [hpair]
    rfl
  have hresult : c.propagate.1 = none ∧ c.propagate.2.hasRootConflict = false ∧
    c.value (.pos 2) = none ∧
      c.propagate.2.value (.pos 2) = some true := by
    show ((({} : Core).addClause [.pos 1, .pos 2] 0).addClause
      [(Literal.pos 1).neg] 0).propagate.1 = none ∧ _
    unfold c addClause
    rw [hpair, hsingle]
    exact ⟨rfl, rfl, rfl, rfl⟩
  have hcourse : Course .resting c := .add (.add .new rfl _ 0) hlevel _ 0
  obtain ⟨hcomplete, -, hforced⟩ := propagate_complete hcourse Phase.noConfusion
  obtain ⟨i, n, cl, -, hreason, hcl, hmem, -⟩ := hforced (.pos 2) hresult.2.2.1 hresult.2.2.2
  exact ⟨hresult.1, (hcomplete hresult.1 hresult.2.1).1, n, cl, hreason, hcl, hmem⟩

end Core
end Entail
