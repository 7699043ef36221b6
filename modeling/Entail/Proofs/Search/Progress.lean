import Entail.Proofs.Search.Assertions
import Mathlib.Data.Finset.Powerset

/-!
# Progress of the search

All that is on the trail is forced by the decisions on it. A conflict at a state in which everything
was propagated teaches a clause that is not there yet, since all of its literals but one are false
and the other has no value where the search goes back to. There are finitely many clauses over the
variables in use, so there are finitely many conflicts between two moments at which variables are
taken into use.
-/

namespace Entail

theorem Literal.mk'_eq_iff {v : Nat} {negated : Bool} {l : Literal} :
    Literal.mk' v negated = l ↔ l.var = v ∧ l.isNegated = negated := by
  obtain ⟨code⟩ := l
  simp only [Literal.mk', Literal.var, Literal.isNegated, Literal.mk.injEq]
  cases negated <;> simp <;> omega

end Entail

namespace Entail.Search

/-! ## Learned clauses and valuations -/

namespace Database

variable {d : Database} {depth : Nat} {a : Nat → Bool}

theorem models_store (h : d.Ok depth) (cl : Content) :
    (d.store cl).Models a ↔ d.Models a ∧ ∃ l ∈ cl.1, l.Holds a := by
  obtain ⟨n, hfree, hclause⟩ := clause?_store h cl
  refine ⟨fun ha => ⟨⟨fun {m x} hm => ha.clause (n := m) ?_, fun {u} hu =>
    ha.unit (units_store d cl ▸ hu), ?_⟩, ?_⟩, fun ha => ?_⟩
  · rw [hclause, if_neg ?_]
    · exact hm
    · rintro rfl
      rw [hfree] at hm
      cases hm
  · rw [← empty_store d cl]
    exact ha.empty
  · exact ha.clause ((hclause n).trans (if_pos rfl))
  · refine ⟨fun {m x} hm => ?_, fun {u} hu => ha.1.unit (units_store d cl ▸ hu),
      (empty_store d cl).trans ha.1.empty⟩
    rw [hclause] at hm
    split at hm
    · cases hm
      exact ha.2
    · exact ha.1.clause hm

theorem models_addUnit (l : Literal) (scope : Nat) :
    (d.addUnit l scope).Models a ↔ d.Models a ∧ l.Holds a := by
  have hmem {u : Literal × Nat} : u ∈ (d.addUnit l scope).units ↔ u ∈ d.units ∨ u = (l, scope) :=
    Array.mem_push
  refine ⟨fun ha => ⟨⟨ha.clause, fun hu => ha.unit (hmem.mpr (.inl hu)), ha.empty⟩,
    ha.unit (hmem.mpr (.inr rfl))⟩, fun ha => ?_⟩
  refine ⟨ha.1.clause, fun {u} hu => ?_, ha.1.empty⟩
  rcases hmem.mp hu with hu | rfl
  · exact ha.1.unit hu
  · exact ha.2

/-- A clause that is added counts as it stands. -/
theorem models_add (h : d.Ok depth) (lits : List Literal) (scope : Nat) :
    (d.add lits scope).Models a ↔ d.Models a ∧ ∃ l ∈ lits, l.Holds a := by
  have hsame : (∃ l ∈ lits, l.Holds a) ↔ ∃ l ∈ Literal.normalize lits, l.Holds a := by
    simp only [Literal.mem_normalize]
  rw [hsame]
  unfold add
  by_cases hcomplement : Literal.hasComplement (Literal.normalize lits) = true
  · simp only [hcomplement, if_true]
    obtain ⟨l, hl, hneg⟩ := Literal.exists_of_hasComplement hcomplement
    refine ⟨fun ha => ⟨ha, ?_⟩, fun ha => ha.1⟩
    by_cases hholds : l.Holds a
    · exact ⟨l, hl, hholds⟩
    · exact ⟨l.neg, hneg, Literal.holds_neg.mpr hholds⟩
  · simp only [hcomplement]
    match Literal.normalize lits with
    | [] => exact ⟨fun ha => absurd ha.empty nofun, fun ⟨_, l, hl, _⟩ => absurd hl List.not_mem_nil⟩
    | [l] =>
      refine (models_addUnit l scope).trans (and_congr_right fun _ => ?_)
      simp
    | first :: second :: rest => exact models_store h _

/-- Moving clauses to other scopes does not change what they say. -/
theorem models_merge (depth : Nat) : (d.merge depth).Models a ↔ d.Models a := by
  have hunits {u : Literal × Nat} : u ∈ (d.merge depth).units ↔ ∃ u' ∈ d.units,
    (u'.1, min u'.2 depth) = u := Array.mem_map
  refine ⟨fun h => ⟨fun {n cl} hcl => ?_, fun {u} hu => h.unit (u := (u.1, min u.2 depth))
    (hunits.mpr ⟨u, hu, rfl⟩), Option.map_eq_none_iff.mp h.empty⟩,
    fun h => ⟨fun {n cl} hcl => ?_, fun {u} hu => ?_, Option.map_eq_none_iff.mpr h.empty⟩⟩
  · have hmerge : (d.merge depth).clause? n = some (cl.1, min cl.2.1 depth, cl.2.2) := by
      rw [clause?_merge, hcl]
      rfl
    obtain ⟨l, hl, hholds⟩ := h.clause hmerge
    exact ⟨l, hl, hholds⟩
  · rw [clause?_merge] at hcl
    obtain ⟨cl', hcl', rfl⟩ := Option.map_eq_some_iff.mp hcl
    obtain ⟨l, hl, hholds⟩ := h.clause hcl'
    exact ⟨l, hl, hholds⟩
  · obtain ⟨u', hu', rfl⟩ := hunits.mp hu
    have hholds := h.unit hu'
    exact hholds

/-- The literals of some clause, a unit or a longer one, are those with the codes in `S`. -/
def Lists (d : Database) (S : Finset Nat) : Prop :=
  (∃ n cl, d.clause? n = some cl ∧ (cl.1.map Literal.code).toFinset = S) ∨ ∃ u ∈ d.units,
    {u.1.code} = S

variable {S : Finset Nat}

theorem Lists.store (hS : d.Lists S) (h : d.Ok depth) (cl : Content) : (d.store cl).Lists S := by
  obtain ⟨n, hfree, hclause⟩ := clause?_store h cl
  rcases hS with ⟨m, x, hm, hS⟩ | ⟨u, hu, hS⟩
  · refine .inl ⟨m, x, (hclause m).trans ((if_neg ?_).trans hm), hS⟩
    rintro rfl
    rw [hfree] at hm
    cases hm
  · exact .inr ⟨u, (units_store d cl).symm ▸ hu, hS⟩

theorem lists_store (h : d.Ok depth) (cl : Content) :
    (d.store cl).Lists (cl.1.map Literal.code).toFinset := by
  obtain ⟨n, -, hclause⟩ := clause?_store h cl
  exact .inl ⟨n, cl, (hclause n).trans (if_pos rfl), rfl⟩

theorem Lists.addUnit (hS : d.Lists S) (l : Literal) (scope : Nat) : (d.addUnit l scope).Lists S :=
  hS.imp_right fun ⟨u, hu, hS⟩ => ⟨u, Array.mem_push.mpr (.inl hu), hS⟩

theorem lists_addUnit (d : Database) (l : Literal) (scope : Nat) :
    (d.addUnit l scope).Lists {l.code} :=
  .inr ⟨(l, scope), Array.mem_push.mpr (.inr rfl), rfl⟩

end Database

/-- Codes of the literals of a clause. -/
def codes (lits : List Literal) : Finset Nat := (lits.map Literal.code).toFinset

theorem mem_codes {l : Literal} {lits : List Literal} : l.code ∈ codes lits ↔ l ∈ lits := by
  unfold codes
  rw [List.mem_toFinset, List.mem_map]
  exact ⟨fun ⟨k, hk, hcode⟩ => Literal.code_inj hcode ▸ hk, fun hl => ⟨l, hl, rfl⟩⟩

namespace State

variable {s t : State} {l first : Literal} {lits rest : List Literal} {level : Nat}

/-! ## Decisions -/

/-- The decisions on the trail, outermost first. -/
def decisions (s : State) : List Literal := s.starts.filterMap (s.trail[·]?)

theorem mem_trail_of_decisions (hl : l ∈ s.decisions) : l ∈ s.trail := by
  obtain ⟨i, -, hi⟩ := List.mem_filterMap.mp hl
  exact List.mem_of_getElem? hi

/-- A valuation of the clauses under which the decisions hold agrees with the whole trail: what else
is on the trail is the only literal of its reason that is not false already. -/
theorem Assigned.holds_of_decisions (h : s.Assigned) {a : Nat → Bool} (ha : s.db.Obeys a)
    (hdecisions : ∀ l ∈ s.decisions, l.Holds a) : ∀ l ∈ s.trail, l.Holds a := by
  have hplace (i : Nat) : ∀ l, s.trail[i]? = some l → l.Holds a := by
    induction i using Nat.strong_induction_on with
    | _ i ih =>
      intro l hl
      cases hreason : (s.cell l.var).reason with
      | some n =>
        obtain ⟨cl, hcl, -, hforces⟩ := h.reason hl hreason
        obtain ⟨k, hk, hholds⟩ := ha.clause hcl
        rcases hforces k hk with rfl | hneg
        · exact hholds
        · obtain ⟨j, hlt, hj⟩ := List.getElem_of_mem hneg
          rw [List.getElem_take] at hj
          rw [List.length_take] at hlt
          have hbefore := ih j (by omega) k.neg (List.getElem?_eq_some_iff.mpr ⟨by omega, hj⟩)
          exact absurd hholds (Literal.holds_neg.mp hbefore)
      | none =>
        rcases h.root hl hreason with hstart | ⟨-, d, hunit⟩
        · exact hdecisions l (List.mem_filterMap.mpr ⟨i, hstart, hl⟩)
        · exact ha.unit hunit
  intro l hl
  obtain ⟨i, hlt, hi⟩ := List.getElem_of_mem hl
  exact hplace i l (List.getElem?_eq_some_iff.mpr ⟨hlt, hi⟩)

/-! ## New clauses -/

open Classical in
/-- Number of sets of literals over the variables that are no clause. -/
noncomputable def missing (s : State) : Nat :=
  ((Finset.range (2 * s.size)).powerset.filter fun S => ¬ s.db.Lists S).card

theorem missing_congr (hsize : t.size = s.size) (hdb : t.db = s.db) : t.missing = s.missing := by
  unfold missing
  rw [hsize, hdb]

theorem missing_lt (hsize : t.size = s.size) (hold : ∀ S, s.db.Lists S → t.db.Lists S)
    {S : Finset Nat}
    (hS : S ⊆ Finset.range (2 * s.size)) (hnot : ¬ s.db.Lists S) (hnew : t.db.Lists S) :
    t.missing < s.missing := by
  classical
  unfold missing
  rw [hsize]
  refine Finset.card_lt_card ⟨fun S' hS' => ?_, fun hsub => ?_⟩
  · rw [Finset.mem_filter] at hS' ⊢
    exact ⟨hS'.1, fun hlists => hS'.2 (hold S' hlists)⟩
  · have hmem := hsub (Finset.mem_filter.mpr ⟨Finset.mem_powerset.mpr hS, hnot⟩)
    exact (Finset.mem_filter.mp hmem).2 hnew

theorem size_back (s : State) (level : Nat) : (s.back level).size = s.size := by
  unfold back
  split <;> rfl

/-- A clause whose first literal has no value and whose other literals are false is not there if
everything was propagated. -/
theorem Returned.not_lists (hr : s.Returned first rest) (h : s.Going)
    (hhead : s.head = s.trail.length) :
    ¬ s.db.Lists (codes (first :: rest)) := by
  have hassigned := h.orderly.assigned
  have hfirst := hassigned.value_none.mp hr.value
  rintro (⟨n, cl, hcl, hcodes⟩ | ⟨u, hu, hcodes⟩)
  · have hmem {k : Literal} (hk : k ∈ cl.1) : k = first ∨ k.neg ∈ s.trail := by
      have hcode : k.code ∈ codes (first :: rest) := by
        rw [← hcodes, Multiset.mem_toFinset]
        exact Multiset.mem_map_of_mem _ hk
      exact (List.mem_cons.mp (mem_codes.mp hcode)).imp_right (hr.false k)
    have hguarded : s.Guarded s.trail.length := hhead ▸ h.guarded h.intact
    rcases hguarded.complete h.orderly.watching (Nat.le_refl _) hcl with ⟨k, hk, htrue⟩ | ⟨x, hx, y,
      hy, hne, hxneg, hyneg⟩
    · rcases hmem hk with rfl | hneg
      · exact hfirst.1 htrue
      · exact hassigned.not_both htrue hneg
    · have hxfirst := (hmem hx).resolve_right hxneg
      have hyfirst := (hmem hy).resolve_right hyneg
      exact hne (hxfirst.trans hyfirst.symm)
  · have hcode : first.code ∈ ({u.1.code} : Finset Nat) := hcodes ▸ mem_codes.mpr List.mem_cons_self
    have heq : first = u.1 := Literal.code_inj (Finset.mem_singleton.mp hcode)
    exact hfirst.1 (heq ▸ (h.rooted u hu).1)

theorem Returned.codes_subset (hr : s.Returned first rest) (h : s.Orderly) :
    codes (first :: rest) ⊆ Finset.range (2 * s.size) := by
  intro n hn
  obtain ⟨l, hl, rfl⟩ := List.mem_map.mp (List.mem_toFinset.mp hn)
  have hlt : l.code / 2 < s.size := h.watching.inUse (hr.live l hl)
  exact Finset.mem_range.mpr (by omega)

end State
end Entail.Search

namespace Entail.Core

open Search State

variable {c : Core} {first : Literal} {lits rest : List Literal} {level : Nat} {a : Nat → Bool}

/-- The clauses after one was learned. -/
theorem models_learn (h : c.state.Orderly) (first : Literal) (rest : List Literal) (scope : Nat) :
    (c.learn (first :: rest) scope).state.db.Models a ↔ c.state.db.Models a ∧ ∃ l ∈ first :: rest,
    l.Holds a := by
  obtain ⟨depth, hok⟩ := h.ok
  rcases state_learn h first rest scope with ⟨rfl, hstate⟩ | ⟨cl, hlits, hstate⟩
  · rw [hstate]
    refine (Database.models_addUnit first scope).trans (and_congr_right fun _ => ?_)
    simp
  · rw [hstate, ← hlits]
    exact Database.models_store hok cl.content

/-- A clause that was not there is there once it is learned. -/
theorem missing_learn (h : c.state.Going) (hhead : c.state.head = c.state.trail.length)
    (hr : c.state.Returned first rest) (scope : Nat) :
    (c.learn (first :: rest) scope).state.missing < c.state.missing := by
  obtain ⟨depth, hok⟩ := h.orderly.ok
  have hsubset := hr.codes_subset h.orderly
  have hnot := hr.not_lists h hhead
  rcases state_learn h.orderly first rest scope with ⟨rfl, hstate⟩ | ⟨cl, hlits, hstate⟩
  · rw [hstate]
    exact missing_lt rfl (fun _ hS => hS.addUnit first scope) hsubset hnot
      (Database.lists_addUnit _ first scope)
  · rw [hstate]
    have hnew : (c.state.db.store cl.content).Lists (codes (first :: rest)) := by
      rw [← hlits]
      exact Database.lists_store hok cl.content
    exact missing_lt rfl (fun _ hS => hS.store hok cl.content) hsubset hnot hnew

end Entail.Core

namespace Entail.Search.State

variable {s t : State} {lits : List Literal} {level : Nat}

/-! ## Conflicts -/

/-- All literals of a clause are false, and on every level below there was nothing left
to propagate. -/
structure Disputed (s : State) (lits : List Literal) : Prop where
  orderly : s.Orderly
  latest : ∀ j ∈ s.starts, j ≤ s.head
  back : ∀ level < s.starts.length, (s.back level).Going
  false : ∀ l ∈ lits, l.neg ∈ s.trail

theorem Halted.disputed (h : s.Halted) (hfalse : ∀ l ∈ lits, l.neg ∈ s.trail) : s.Disputed lits :=
  ⟨h.orderly, fun _ hj => h.head ▸ Nat.le_of_lt (h.orderly.assigned.below hj), fun _ =>
    h.back, hfalse⟩

theorem Going.disputed (h : s.Going) (hfalse : ∀ l ∈ lits, l.neg ∈ s.trail) : s.Disputed lits :=
  ⟨h.orderly, h.latest, fun level _ => h.back level, hfalse⟩

/-- Going back to a lower level goes back to a moment at which everything was propagated. -/
theorem head_back (h : s.Assigned) (hlatest : ∀ j ∈ s.starts, j ≤ s.head)
    (hlevel : level < s.starts.length) :
    (s.back level).head = (s.back level).trail.length := by
  have hstart : s.starts[level]? = some s.starts[level] := List.getElem?_eq_getElem hlevel
  have hmem := List.getElem_mem hlevel
  unfold back
  rw [hstart]
  show min s.head s.starts[level] = (s.trail.take s.starts[level]).length
  rw [List.length_take, Nat.min_eq_right (hlatest _ hmem),
    Nat.min_eq_left (Nat.le_of_lt (h.below hmem))]

theorem latest_back (hlatest : ∀ j ∈ s.starts, j ≤ s.head) (h : s.Assigned) (level : Nat) :
    ∀ j ∈ (s.back level).starts, j ≤ (s.back level).head := by
  unfold back
  cases hstart : s.starts[level]? with
  | none => exact hlatest
  | some start =>
    intro j hj
    have hj : j ∈ s.starts.take level := hj
    rw [h.take_starts hstart, List.mem_filter] at hj
    have hlt : j < start := by simpa using hj.2
    exact Nat.le_min.mpr ⟨hlatest j hj.1, Nat.le_of_lt hlt⟩

end Entail.Search.State

namespace Entail.Core

open Search State

variable {c : Core} {lits : List Literal}

/-- What a conflict leads to, of a clause or of a theory: the search ends, or it goes back and on
with a learned clause, which follows from the conflict and was not there before. -/
theorem resolve_spec (h : c.state.Disputed lits) (scope : Nat) :
    (c.analyze lits).1 = .unsat ∧ (c.analyze lits).2.state = c.state ∧
    (∀ k ∈ lits, c.state.level k = 0) ∨
      ∃ level first rest, (c.analyze lits).1 = .learnt level (first :: rest) ∧
        let c' := ((c.analyze lits).2.backtrack level).learn (first :: rest) scope
        c'.state.Going ∧ c'.state.size = c.state.size ∧ c'.state.missing < c.state.missing ∧
          c'.state.trail = (c.state.back level).trail ++ [first] ∧
            c'.state.starts = (c.state.back level).starts ∧
          level < c.state.starts.length ∧ (∀ v, (c'.info v).live = (c.info v).live) ∧
          ∀ a, (c'.state.db.Models a → c.state.db.Models a) ∧
            (c.state.db.Models a → (∃ k ∈ lits, k.Holds a) → c'.state.db.Models a) := by
  have hassigned := h.orderly.assigned
  rcases analyze_false hassigned h.orderly.unmarked h.false with
    hunsat | ⟨top, level, first, rest, -, -, -, hlearnt, hstate, hflips, hentailed⟩
  · exact .inl hunsat
  · have hlevel : level < c.state.starts.length := by
      refine lt_of_lt_of_le hflips.lower ?_
      unfold State.back
      split
      · exact le_refl _
      · exact List.length_take_le' _ _
    have hlatest := latest_back h.latest hassigned top
    have hreturned := hflips.back (h.orderly.back top)
    have hhead := head_back (hassigned.back top) hlatest hflips.lower
    have hgoing : ((c.state.back top).back level).Going := by
      by_cases htop : top < c.state.starts.length
      · exact (h.back top htop).back level
      · have hsame : c.state.back top = c.state := by
          unfold State.back
          rw [List.getElem?_eq_none (Nat.le_of_not_lt htop)]
        rw [hsame]
        exact h.back level hlevel
    obtain ⟨htrail, hstarts⟩ := back_back hassigned hflips.lower
    have hsize : ((c.state.back top).back level).size = c.state.size :=
      (size_back _ _).trans (size_back _ _)
    have hdb : ((c.state.back top).back level).db = c.state.db := (db_back _ _).trans (db_back _ _)
    have hlive (v : Nat) : ((c.analyze lits).2.info v).live = (c.info v).live :=
      (congrArg (fun s : State => (s.cell v).live) hstate).trans (live_back c.state top v).1
    rw [← hstate, ← state_backtrack] at hreturned hgoing htrail hstarts hhead hsize hdb
    obtain ⟨htrail', hstarts'⟩ := trail_learn ((c.analyze lits).2.backtrack level) first rest scope
    have hmissing := missing_learn hgoing hhead hreturned scope
    refine .inr ⟨level, first, rest, hlearnt, learn_turn hgoing hreturned scope, ?_, ?_, ?_, ?_,
      hlevel, fun v => ?_, fun a => ?_⟩
    · rw [← hsize]
      rcases state_learn hgoing.orderly first rest scope with
        ⟨rfl, hlearned⟩ | ⟨cl, -, hlearned⟩ <;> rw [hlearned] <;> rfl
    · rwa [missing_congr hsize hdb] at hmissing
    · rw [htrail', htrail]
    · rw [hstarts', hstarts]
    · exact (live_learn _ _ _ v).trans ((live_backtrack _ _ v).trans (hlive v))
    · rw [models_learn hgoing.orderly, hdb]
      exact ⟨fun ha => ha.1, fun ha hlits => ⟨ha, hentailed a ha.obeys hlits⟩⟩

end Entail.Core
