import Entail.Proofs.Moves
import Entail.Search.Solve
import Mathlib.Data.Multiset.Filter

/-!
# The clauses of a core

Most operations of the core only change the assignment, or the order of the literals of a
clause. The others add a clause to the innermost scope, or drop or merge scopes. What a core
holds of the scopes up to a depth is not changed by adding to deeper scopes, and is what is left
when they are dropped.
-/

namespace Entail

namespace Search

/-- What a clause is, up to the order of its literals: the literals, the scope, and whether it
was learned. -/
abbrev Content := Multiset Literal × Nat × Bool

/-- What a clause is. -/
def Clause.content (cl : Clause) : Content := (cl.lits, cl.scope, cl.learnt)

/-- The clauses of a core. -/
structure Database where
  clauses : Array (Option Content)
  free : List Nat
  units : Array (Literal × Nat)
  empty : Option Nat

/-- Clauses by number, units, and the outermost scope that has the empty clause. -/
@[ext] structure Kept where
  clauses : Nat → Option Content
  units : List (Literal × Nat)
  empty : Option Nat

namespace Database

variable {d : Database} {k depth : Nat}

/-- The clause with a given number. -/
def clause? (d : Database) (n : Nat) : Option Content := (d.clauses[n]?).join

/-- What is there of the scopes up to `depth`. -/
def upTo (d : Database) (depth : Nat) : Kept where
  clauses n := (d.clause? n).filter (·.2.1 ≤ depth)
  units := d.units.toList.filter (·.2 ≤ depth)
  empty := d.empty.filter (· ≤ depth)

/-- Free numbers are numbers of no clause, and there is nothing of a scope deeper than `depth`. -/
structure Ok (depth : Nat) (d : Database) : Prop where
  nodup : d.free.Nodup
  free : ∀ {n}, n ∈ d.free → d.clauses[n]? = some none
  clause : ∀ {n cl}, d.clause? n = some cl → cl.2.1 ≤ depth
  unit : ∀ {u}, u ∈ d.units → u.2 ≤ depth
  empty : ∀ {n}, d.empty = some n → n ≤ depth

/-- Whatever was added belongs to the scope `depth`. -/
structure Grows (depth : Nat) (d e : Database) : Prop where
  ok : e.Ok depth
  upTo : ∀ {k}, k < depth → e.upTo k = d.upTo k

theorem Grows.refl (h : d.Ok depth) : d.Grows depth d := ⟨h, fun _ => rfl⟩

theorem Ok.mono (h : d.Ok depth) {deeper : Nat} (hle : depth ≤ deeper) : d.Ok deeper :=
  ⟨h.nodup, h.free, fun hc => Nat.le_trans (h.clause hc) hle, fun hu =>
    Nat.le_trans (h.unit hu) hle,
    fun hn => Nat.le_trans (h.empty hn) hle⟩

/-- Nothing is dropped with scopes that are as deep as the clauses are. -/
theorem Ok.upTo_eq (h : d.Ok depth) : d.upTo depth = ⟨d.clause?, d.units.toList, d.empty⟩ := by
  refine Kept.ext (funext fun n => ?_) ?_ ?_
  · show (d.clause? n).filter _ = d.clause? n
    cases hc : d.clause? n with
    | none => rfl
    | some cl => simp [Option.filter, h.clause hc]
  · exact List.filter_eq_self.mpr fun u hu => by simpa using h.unit (Array.mem_toList_iff.mp hu)
  · show d.empty.filter _ = d.empty
    cases he : d.empty with
    | none => rfl
    | some n => simp [Option.filter, h.empty he]

/-- Enters a clause under a free number. -/
def store (d : Database) (cl : Content) : Database :=
  match d.free with
  | n :: free => { d with clauses := d.clauses.setIfInBounds n (some cl), free }
  | [] => { d with clauses := d.clauses.push (some cl) }

/-- The number that the next clause gets. -/
def slot (d : Database) : Nat := d.free.headD d.clauses.size

/-- A clause gets a number that no clause has. -/
theorem clause?_slot (h : d.Ok depth) (cl : Content) :
    d.clause? d.slot = none ∧ ∀ m, (d.store cl).clause? m = if m = d.slot then some cl
      else d.clause? m := by
  unfold store clause? slot
  split
  next n free hfree =>
    have hmem : n ∈ d.free := by rw [hfree]; exact List.mem_cons_self
    have hn := h.free hmem
    obtain ⟨hlt, -⟩ := Array.getElem?_eq_some_iff.mp hn
    rw [hfree, List.headD_cons]
    refine ⟨by rw [hn]; rfl, fun m => ?_⟩
    rw [Array.getElem?_setIfInBounds]
    by_cases hm : m = n
    · subst hm
      simp [hlt]
    · simp [hm, Ne.symm hm]
  next hfree =>
    rw [hfree, List.headD_nil]
    refine ⟨by simp, fun m => ?_⟩
    rw [Array.getElem?_push]
    split <;> simp_all

/-- Storing fills one free number with the clause, and leaves the clauses at the other numbers. -/
theorem clause?_store (h : d.Ok depth) (cl : Content) :
    ∃ n, d.clause? n = none ∧ ∀ m, (d.store cl).clause? m = if m = n then some cl
      else d.clause? m :=
  ⟨d.slot, clause?_slot h cl⟩

/-- The free numbers stay exact when a clause of an open scope is stored. -/
theorem Ok.store (h : d.Ok depth) {cl : Content} (hcl : cl.2.1 ≤ depth) :
    (d.store cl).Ok depth := by
  obtain ⟨n, -, hclause⟩ := clause?_store h cl
  have hunits : (d.store cl).units = d.units := by unfold Database.store; split <;> rfl
  have hempty : (d.store cl).empty = d.empty := by unfold Database.store; split <;> rfl
  refine ⟨?_, ?_, ?_, ?_, ?_⟩
  · have := h.nodup
    unfold Database.store
    split <;> simp_all
  · intro m hm
    unfold Database.store at hm ⊢
    split at hm
    next i free hfree =>
      have hnodup := h.nodup
      rw [hfree, List.nodup_cons] at hnodup
      have hne : i ≠ m := fun he => hnodup.1 (he ▸ hm)
      rw [Array.getElem?_setIfInBounds, if_neg hne]
      exact h.free (by rw [hfree]; exact List.mem_cons_of_mem _ hm)
    next hfree =>
      rw [hfree] at hm
      cases hm
  · intro m c hm
    rw [hclause] at hm
    split at hm
    · cases hm
      exact hcl
    · exact h.clause hm
  · intro u hu
    exact h.unit (hunits ▸ hu)
  · intro m hm
    exact h.empty (hempty ▸ hm)

/-- A clause stored at the innermost scope leaves the clauses of the scopes below as they were. So
do a unit, an empty clause and a clause of any length that is added there. -/
theorem grows_store (h : d.Ok depth) {cl : Content} (hcl : cl.2.1 = depth) :
    d.Grows depth (d.store cl) := by
  refine ⟨h.store hcl.le, fun {k} hk => ?_⟩
  obtain ⟨n, hn, hclause⟩ := clause?_store h cl
  have hunits : (d.store cl).units = d.units := by unfold Database.store; split <;> rfl
  have hempty : (d.store cl).empty = d.empty := by unfold Database.store; split <;> rfl
  refine Kept.ext (funext fun m => ?_) (by rw [upTo, hunits]; rfl) (by rw [upTo, hempty]; rfl)
  show ((d.store cl).clause? m).filter _ = (d.clause? m).filter _
  rw [hclause]
  split
  next hm => simp [hm, hn, hcl, hk]
  next => rfl

/-- Adds a unit. -/
def addUnit (d : Database) (l : Literal) (scope : Nat) : Database :=
  { d with units := d.units.push (l, scope) }

theorem grows_addUnit (h : d.Ok depth) (l : Literal) : d.Grows depth (d.addUnit l depth) where
  ok := {
    nodup := h.nodup
    free := h.free
    clause := h.clause
    unit := by
      intro u hu
      rcases Array.mem_push.mp hu with hu | rfl
      · exact h.unit hu
      · exact Nat.le_refl _
    empty := h.empty }
  upTo hk := by
    have : ¬ depth ≤ _ := Nat.not_le_of_lt hk
    simp [upTo, addUnit, clause?, this]

/-- Adds the empty clause. -/
def addEmpty (d : Database) (scope : Nat) : Database :=
  { d with empty := some ((d.empty.map (min scope)).getD scope) }

theorem grows_addEmpty (h : d.Ok depth) : d.Grows depth (d.addEmpty depth) where
  ok := {
    nodup := h.nodup
    free := h.free
    clause := h.clause
    unit := h.unit
    empty := by
      intro n hn
      simp only [addEmpty, Option.some.injEq] at hn
      subst hn
      cases d.empty <;> simp }
  upTo {k} hk := by
    have hempty : (d.addEmpty depth).empty.filter (· ≤ k) = d.empty.filter (· ≤ k) := by
      cases he : d.empty with
      | none =>
        simp [addEmpty, he, hk]
      | some n =>
        have hn := h.empty he
        simp [addEmpty, he, Nat.min_eq_right hn]
    unfold upTo
    rw [hempty]
    rfl

/-- What adding a clause does to the clauses. -/
def add (d : Database) (lits : List Literal) (scope : Nat) : Database :=
  let lits := Literal.normalize lits
  if Literal.hasComplement lits then d
  else
    match lits with
    | [] => d.addEmpty scope
    | [l] => d.addUnit l scope
    | first :: second :: rest => d.store (↑(first :: second :: rest), scope, false)

theorem grows_add (h : d.Ok depth) (lits : List Literal) : d.Grows depth (d.add lits depth) := by
  unfold add
  simp only
  split
  · exact .refl h
  · split
    · exact grows_addEmpty h
    · exact grows_addUnit h _
    · exact grows_store h rfl

/-- Frees the clause with number `n` if it belongs to a scope deeper than `depth`. -/
def drop (depth : Nat) (d : Database) (n : Nat) : Database :=
  match d.clause? n with
  | none => d
  | some cl =>
    if cl.2.1 > depth then { d with clauses := d.clauses.setIfInBounds n none, free := n :: d.free }
      else d

/-- Free numbers stay apart from the numbers of clauses when one clause is freed. -/
theorem drop_spec (depth : Nat) (hnodup : d.free.Nodup)
    (hfree : ∀ n ∈ d.free, d.clauses[n]? = some none) (n : Nat) :
    (d.drop depth n).free.Nodup ∧ (∀ m ∈ (d.drop depth n).free, (d.drop depth n).clauses[m]? =
      some none) ∧
      ∀ m, (d.drop depth n).clause? m = if m = n then (d.clause? m).filter (·.2.1 ≤ depth)
        else d.clause? m := by
  have hstay (h : ∀ cl, d.clause? n = some cl → cl.2.1 ≤ depth) (m : Nat) :
      d.clause? m = if m = n then (d.clause? m).filter (·.2.1 ≤ depth) else d.clause? m := by
    split
    next hm =>
      subst hm
      cases hc : d.clause? m with
      | none => rfl
      | some cl => simp [Option.filter, h cl hc]
    next => rfl
  unfold drop
  cases hc : d.clause? n with
  | none => exact ⟨hnodup, hfree, hstay fun cl hcl => by rw [hc] at hcl; cases hcl⟩
  | some cl =>
    simp only
    split
    next hgt =>
      have hn : d.clauses[n]? = some (some cl) := Option.join_eq_some_iff.mp hc
      obtain ⟨hlt, -⟩ := Array.getElem?_eq_some_iff.mp hn
      have hnot : n ∉ d.free := fun hmem => by
        rw [hfree n hmem] at hn
        cases hn
      refine ⟨List.nodup_cons.mpr ⟨hnot, hnodup⟩, ?_, fun m => ?_⟩
      · intro m hm
        rw [Array.getElem?_setIfInBounds]
        split
        · rfl
        next hne => exact hfree m ((List.mem_cons.mp hm).resolve_left fun he => hne he.symm)
      · by_cases hm : m = n
        · subst hm
          rw [if_pos rfl, hc]
          simp [clause?, hlt, Option.filter, hgt]
        · simp [clause?, hm, Ne.symm hm]
    next hle => exact ⟨hnodup, hfree, hstay fun cl' hcl' => by rw [hc] at hcl'; cases hcl'; omega⟩

/-- Dropping a list of numbers frees those whose clauses are above the scope, and no other. -/
theorem foldl_drop_spec (depth : Nat) (ns : List Nat) (d : Database) (hnodup : d.free.Nodup)
    (hfree : ∀ n ∈ d.free, d.clauses[n]? = some none) :
    let e := ns.foldl (drop depth) d
    e.free.Nodup ∧ (∀ m ∈ e.free, e.clauses[m]? = some none) ∧
      ∀ m, e.clause? m = if m ∈ ns then (d.clause? m).filter (·.2.1 ≤ depth) else d.clause? m := by
  induction ns generalizing d with
  | nil => exact ⟨hnodup, hfree, fun m => by simp⟩
  | cons n ns ih =>
    obtain ⟨hnodup', hfree', hclause⟩ := drop_spec depth hnodup hfree n
    obtain ⟨h₁, h₂, h₃⟩ := ih (d.drop depth n) hnodup' hfree'
    refine ⟨h₁, h₂, fun m => ?_⟩
    rw [List.foldl_cons, h₃, hclause]
    by_cases hm : m = n
    · subst hm
      simp [Option.filter_filter]
    · simp [hm]

/-- Dropping clauses leaves the units and the empty clause alone. -/
theorem foldl_drop_rest (depth : Nat) (ns : List Nat) (d : Database) :
    (ns.foldl (drop depth) d).units = d.units ∧ (ns.foldl (drop depth) d).empty = d.empty := by
  induction ns generalizing d with
  | nil => exact ⟨rfl, rfl⟩
  | cons n ns ih =>
    rw [List.foldl_cons, (ih _).1, (ih _).2]
    unfold drop
    repeat' split
    all_goals exact ⟨rfl, rfl⟩

/-- Drops units and the empty clause of scopes deeper than `depth`. -/
def prune (depth : Nat) (d : Database) : Database :=
  { d with units := d.units.filter (·.2 ≤ depth), empty := d.empty.filter (· ≤ depth) }

/-- Freeing every clause of a deeper scope, and dropping the units of such scopes, leaves the scopes
up to `depth`. -/
theorem prune_spec {top : Nat} (h : d.Ok top) (depth : Nat) :
    let e := ((List.range d.clauses.size).foldl (drop depth) d).prune depth
    e.Ok depth ∧ ∀ {k}, k ≤ depth → e.upTo k = d.upTo k := by
  obtain ⟨hnodup, hfree, hclause⟩ := foldl_drop_spec depth (List.range d.clauses.size) d h.nodup
    fun n hn => h.free hn
  obtain ⟨hunits, hempty⟩ := foldl_drop_rest depth (List.range d.clauses.size) d
  generalize (List.range d.clauses.size).foldl (drop depth) d = e at *
  have hall (m : Nat) : e.clause? m = (d.clause? m).filter (·.2.1 ≤ depth) := by
    rw [hclause]
    split
    · rfl
    next hm =>
      rw [List.mem_range, Nat.not_lt] at hm
      simp [clause?, Array.getElem?_eq_none hm]
  refine ⟨⟨hnodup, fun {n} hn => hfree n hn, fun {n cl} hcl => ?_, fun {u} hu => ?_,
    fun {n} hn => ?_⟩, fun {k} hk => ?_⟩
  · have := hall n
    rw [show e.clause? n = some cl from hcl] at this
    simpa using (Option.filter_eq_some_iff.mp this.symm).2
  · simpa using (Array.mem_filter.mp hu).2
  · simpa using (Option.filter_eq_some_iff.mp hn).2
  · refine Kept.ext (funext fun n => ?_) ?_ ?_
    · show (e.clause? n).filter _ = (d.clause? n).filter _
      rw [hall, Option.filter_filter]
      congr 1
      funext cl
      simpa using fun h => Nat.le_trans h hk
    · show ((e.units.filter _).toList).filter _ = d.units.toList.filter _
      rw [hunits, Array.toList_filter, List.filter_filter]
      apply List.filter_congr
      intro u _
      simpa using fun h => Nat.le_trans h hk
    · show (e.empty.filter _).filter _ = d.empty.filter _
      rw [hempty, Option.filter_filter]
      congr 1
      funext n
      simpa using fun h => Nat.le_trans h hk

/-- Moves clauses of deeper scopes into the scope `depth`. -/
def merge (depth : Nat) (d : Database) : Database :=
  { d with
    clauses := d.clauses.map (·.map fun cl => (cl.1, min cl.2.1 depth, cl.2.2))
    units := d.units.map fun u => (u.1, min u.2 depth)
    empty := d.empty.map (min depth) }

/-- Merging deeper scopes into the scope `depth` changes nothing outside of it. -/
theorem merge_spec {top : Nat} (h : d.Ok top) (depth : Nat) :
    (d.merge depth).Ok depth ∧ ∀ {k}, k < depth → (d.merge depth).upTo k = d.upTo k := by
  have hclause (n : Nat) :
      (d.merge depth).clause? n = (d.clause? n).map fun cl => (cl.1, min cl.2.1 depth, cl.2.2) := by
    unfold clause? merge
    rw [Array.getElem?_map]
    rcases d.clauses[n]? with _ | _ | _ <;> rfl
  refine ⟨⟨h.nodup, fun {n} hn => ?_, fun {n cl} hcl => ?_, fun {u} hu => ?_, fun {n} hn => ?_⟩,
    fun {k} hk => ?_⟩
  · show (d.clauses.map _)[n]? = some none
    rw [Array.getElem?_map, h.free hn]
    rfl
  · rw [hclause] at hcl
    obtain ⟨c, -, rfl⟩ := Option.map_eq_some_iff.mp hcl
    exact Nat.min_le_right _ _
  · obtain ⟨v, -, rfl⟩ := Array.mem_map.mp hu
    exact Nat.min_le_right _ _
  · obtain ⟨m, -, rfl⟩ := Option.map_eq_some_iff.mp hn
    exact Nat.min_le_left _ _
  · have hle (m : Nat) : min m depth ≤ k ↔ m ≤ k := by omega
    refine Kept.ext (funext fun n => ?_) ?_ ?_
    · show ((d.merge depth).clause? n).filter _ = (d.clause? n).filter _
      rw [hclause]
      cases d.clause? n with
      | none => rfl
      | some cl =>
        by_cases hcl : cl.2.1 ≤ k
        · have hmin : min cl.2.1 depth = cl.2.1 := by omega
          simp [Option.filter, hcl, hmin]
        · have : ¬ min cl.2.1 depth ≤ k := by rwa [hle]
          simp [Option.filter, hcl, this]
    · show ((d.units.map _).toList).filter _ = d.units.toList.filter _
      rw [Array.toList_map]
      induction d.units.toList with
      | nil => rfl
      | cons u us ih =>
        rw [List.map_cons, List.filter_cons, List.filter_cons, ih]
        by_cases hu : u.2 ≤ k
        · have hmin : min u.2 depth = u.2 := by omega
          simp [hu, hmin]
        · have : ¬ min u.2 depth ≤ k := by rwa [hle]
          simp [hu, this]
    · show (d.empty.map _).filter _ = d.empty.filter _
      cases d.empty with
      | none => rfl
      | some m =>
        by_cases hm : m ≤ k
        · have hmin : min depth m = m := by omega
          simp [Option.filter, hm, hmin]
        · have : ¬ min depth m ≤ k := by omega
          simp [Option.filter, hm, this]

end Database
end Search

namespace Core

open Search

variable {c : Core} {depth : Nat}

/-- The clauses of a core, up to the order of their literals. -/
def db (c : Core) : Database :=
  ⟨c.clauses.map (·.map Clause.content), c.freeClauses, c.units, c.emptyClause⟩

/-! ## What leaves the clauses alone -/

/-- The database is what the core holds of its clauses. What a search does to variables, trail,
order and watches leaves it as it is; the lemmas say so for one operation each. -/
@[simp] theorem db_modifyVar (c : Core) (v : Nat) (f : VarInfo → VarInfo) :
    (c.modifyVar v f).db = c.db := rfl

@[simp] theorem db_enter (c : Core) (v : Nat) : (c.enter v).db = c.db := rfl

@[simp] theorem db_releaseVar (c : Core) (v : Nat) : (c.releaseVar v).db = c.db := rfl

@[simp] theorem db_rebuildOrder (c : Core) : c.rebuildOrder.db = c.db := rfl

@[simp] theorem db_enqueue (c : Core) (l : Literal) (r : Option Nat) : (c.enqueue l r).db = c.db :=
  rfl

@[simp] theorem db_decide (c : Core) (l : Literal) : (c.decide l).db = c.db := rfl

@[simp] theorem db_unassign (c : Core) (l : Literal) : (c.unassign l).db = c.db := rfl

@[simp] theorem db_setSeen (c : Core) (v : Nat) (seen : Bool) : (c.setSeen v seen).db = c.db := rfl

@[simp] theorem db_watch (c : Core) (l : Literal) (n : Nat) : (c.watch l n).db = c.db := rfl

@[simp] theorem db_ensureVar (c : Core) (v : Nat) : (c.ensureVar v).db = c.db := by
  simp only [ensureVar]
  split <;> split <;> rfl

@[simp] theorem db_bump (c : Core) (v : Nat) : (c.bump v).db = c.db := by
  simp only [bump]
  split <;> rfl

/-- Steps that leave the clauses alone do so one after the other. -/
theorem db_foldl {α : Type} {f : Core → α → Core} (h : ∀ c a, (f c a).db = c.db) (as : List α)
    (c : Core) :
    (as.foldl f c).db = c.db := by
  induction as generalizing c with
  | nil => rfl
  | cons a as ih => rw [List.foldl_cons, ih, h]

@[simp] theorem db_unassignFrom (c : Core) (start : Nat) : (c.unassignFrom start).db = c.db :=
  db_foldl db_unassign _ c

@[simp] theorem db_backtrack (c : Core) (level : Nat) : (c.backtrack level).db = c.db := by
  simp only [backtrack]
  split
  · rfl
  next start _ =>
    have h := db_unassignFrom c start
    split <;> exact h

@[simp] theorem db_resetTrail (c : Core) : c.resetTrail.db = c.db := db_unassignFrom c 0

@[simp] theorem db_assignUnit (c : Core) (l : Literal) : (c.assignUnit l).2.db = c.db := by
  unfold assignUnit
  split <;> rfl

theorem db_assignUnitList (us : List (Literal × Nat)) (c : Core) :
    (assignUnitList us c).2.db = c.db := by
  induction us generalizing c with
  | nil => rfl
  | cons u us ih =>
    have h := db_assignUnit c u.1
    unfold assignUnitList
    split
    next heq =>
      rw [heq] at h
      rw [ih, h]
    next heq =>
      rw [heq] at h
      exact h

@[simp] theorem db_assignUnits (c : Core) : c.assignUnits.2.db = c.db := by
  simp only [assignUnits]
  split
  · rfl
  · exact db_assignUnitList _ _

@[simp] theorem db_startSearch (c : Core) (p : Params) : (c.startSearch p).2.db = c.db := by
  rw [startSearch, db_assignUnits]
  exact db_resetTrail c

@[simp] theorem db_restart (c : Core) (factor : Float) : (c.restart factor).db = c.db :=
  db_backtrack c 0

theorem db_popOpen (bound : Nat) (c : Core) : (c.popOpen bound).2.db = c.db := by
  induction bound generalizing c with
  | zero => rfl
  | succ bound ih =>
    simp only [popOpen]
    split
    · rfl
    · split
      · rfl
      · exact ih _

@[simp] theorem db_pickBranch (c : Core) : c.pickBranch.2.db = c.db := by
  have h := db_popOpen c.order.size c
  unfold pickBranch
  split
  all_goals
    next heq =>
      rw [heq] at h
      exact h

theorem db_absorbLit (top : Nat) (r : Resolution) (l : Literal) :
    (absorbLit top r l).core.db = r.core.db := by
  simp only [absorbLit]
  split
  · rfl
  · split <;> simp

theorem db_absorb (top : Nat) (r : Resolution) (lits : List Literal) :
    (absorb top r lits).core.db = r.core.db := by
  unfold absorb
  induction lits generalizing r with
  | nil => rfl
  | cons l lits ih => rw [List.foldl_cons, ih, db_absorbLit]

theorem db_resolveDown (top length : Nat) (r : Resolution) :
    (resolveDown top length r).2.core.db = r.core.db := by
  induction length generalizing r with
  | zero => rfl
  | succ length ih =>
    simp only [resolveDown]
    repeat' split
    · rfl
    · exact ih r
    · rfl
    · rfl
    · rw [ih, db_absorb]
      rfl

/-- Analysing a conflict resolves clauses, and stores none. -/
@[simp] theorem db_analyze (c : Core) (conflict : List Literal) :
    (c.analyze conflict).2.db = c.db := by
  simp only [analyze]
  split
  · rfl
  · split
    all_goals
      next heq =>
        have h := congrArg (·.2.core.db) heq
        simp only [db_resolveDown, db_absorb, db_backtrack] at h
        try simp only [← Array.foldl_toList]
        first
        | exact h.symm
        | exact (db_foldl (fun c (l : Literal) => db_setSeen c l.var false) _ _).trans h.symm

/-! ## Propagation -/

theorem db_setClause {c : Core} {n : Nat} {cl cl' : Clause} (h : (c.clauses[n]?).join = some cl)
    (hcl : cl'.content = cl.content) :
    ({ c with clauses := c.clauses.setIfInBounds n (some cl') } : Core).db = c.db := by
  have hn : c.clauses[n]? = some (some cl) := by
    cases hc : c.clauses[n]? with
    | none => simp [hc] at h
    | some o => simpa [hc] using h
  obtain ⟨hlt, hget⟩ := Array.getElem?_eq_some_iff.mp hn
  unfold db
  congr 1
  apply Array.ext_getElem?
  intro i
  rw [Array.getElem?_map, Array.getElem?_map, Array.getElem?_setIfInBounds]
  by_cases hi : n = i
  · subst hi
    simp [hlt, hget, hcl]
  · simp [hi]

theorem content_watchedSecond (cl : Clause) (l : Literal) :
    (cl.watchedSecond l).content = cl.content := by
  unfold Clause.watchedSecond
  split
  · simp only [Clause.content, Clause.lits, Prod.mk.injEq, Multiset.coe_eq_coe, and_true]
    exact List.Perm.swap _ _ _
  · rfl

/-- Watching another literal reorders a clause and keeps its literals. -/
theorem content_rewatch {cl cl' : Clause} {good : Literal → Bool}
    (h : cl.rewatch? good = some cl') :
    cl'.content = cl.content := by
  unfold Clause.rewatch? at h
  split at h
  · cases h
  next l after hdrop =>
    cases h
    have hrest : cl.rest = cl.rest.takeWhile (fun l => !good l) ++ l :: after := by
      rw [← hdrop, List.takeWhile_append_dropWhile]
    simp only [Clause.content, Clause.lits, Prod.mk.injEq, Multiset.coe_eq_coe, and_true]
    conv_rhs => rw [hrest]
    refine List.Perm.cons _ ?_
    exact (List.perm_middle.cons l).trans
      ((List.Perm.swap _ _ _).trans (List.perm_middle.symm.cons _))

/-- The core that a visit leaves. -/
def Visit.core : Visit → Core
  | .satisfied c | .moved c | .forced c | .falsified c _ => c

/-- Visiting a watched clause may reorder its literals, which the database does not tell apart. -/
theorem db_visit (c : Core) (l : Literal) (n : Nat) : (c.visit l n).core.db = c.db := by
  simp only [visit]
  split
  · rfl
  next cl hcl =>
    have hfirst := db_setClause hcl (content_watchedSecond cl l)
    have hget : ((c.clauses.setIfInBounds n (some (cl.watchedSecond l)))[n]?).join = some
        (cl.watchedSecond l) := by
      have hlt : n < c.clauses.size := by
        by_contra hge
        simp [Array.getElem?_eq_none (Nat.le_of_not_lt hge)] at hcl
      simp [hlt]
    split
    · exact hfirst
    · split
      next cl' hre =>
        exact (db_setClause (c := { c with clauses := _ }) hget (content_rewatch hre)).trans hfirst
      · split
        · exact hfirst
        · exact hfirst

theorem db_visitAll (l : Literal) (ns : List Nat) (kept : Array Nat) (c : Core) :
    (visitAll l ns kept c).2.2.db = c.db := by
  induction ns generalizing kept c with
  | nil => rfl
  | cons n ns ih =>
    have h := db_visit c l n
    unfold visitAll
    split
    all_goals
      next heq =>
        rw [heq] at h
        first
        | exact (ih _ _).trans h
        | exact h

@[simp] theorem db_propagateLit (c : Core) (p : Literal) : (c.propagateLit p).2.db = c.db :=
  db_visitAll p.neg _ #[] _

theorem db_propagateUpTo (bound : Nat) (c : Core) : (c.propagateUpTo bound).2.db = c.db := by
  induction bound generalizing c with
  | zero => rfl
  | succ bound ih =>
    simp only [propagateUpTo]
    split
    · rfl
    next p _ =>
      have h := db_propagateLit
        { c with head := c.head + 1, stats := { c.stats with propagations := c.stats.propagations +
          1 } } p
      split
      all_goals
        next heq =>
          rw [heq] at h
          first
          | exact h
          | exact (ih _).trans h

/-- Propagation leaves the database as it is, however far it gets. -/
@[simp] theorem db_propagate (c : Core) : c.propagate.2.db = c.db := db_propagateUpTo _ c

/-! ## Adding clauses -/

theorem db_storeClause (c : Core) (cl : Clause) :
    (c.storeClause cl).2.db = c.db.store cl.content := by
  unfold storeClause Database.store
  cases hfree : c.freeClauses with
  | nil =>
    simp only [db_watch]
    simp [db, hfree]
  | cons n free =>
    simp only [db_watch]
    simp [db, hfree, Array.map_setIfInBounds]

/-- Adding a clause adds it to the clauses. -/
theorem db_addClause (c : Core) (lits : List Literal) (scope : Nat) :
    (c.addClause lits scope).db = c.db.add lits scope := by
  have hens : (lits.foldl (fun c l => c.ensureVar l.var) (c.require (c.decisionLevel = 0))).db =
      c.db :=
    db_foldl (fun c (l : Literal) => db_ensureVar c l.var) lits _
  unfold Database.add
  simp only [addClause]
  generalize lits.foldl (fun c l => c.ensureVar l.var) (c.require (c.decisionLevel = 0)) =
    c₁ at hens
  rw [← hens]
  generalize Literal.normalize lits = ls
  by_cases hcomplement : Literal.hasComplement ls = true
  · rw [if_pos hcomplement, if_pos hcomplement]
  rw [if_neg hcomplement, if_neg hcomplement]
  match ls with
  | [] => rfl
  | [l] => exact db_assignUnit _ _
  | x :: y :: zs =>
    simp only
    have hperm : ((x :: y :: zs).filter (fun l => !c₁.isFalse l) ++
        (x :: y :: zs).filter c₁.isFalse).Perm (x :: y :: zs) :=
      List.perm_append_comm.trans (List.filter_append_perm _ _)
    split
    next first second rest heq =>
      rw [heq] at hperm
      have hstore := db_storeClause c₁ { first, second, rest, scope, learnt := false }
      have hcontent : (Clause.mk first second rest scope false).content =
          (↑(x :: y :: zs), scope, false) :=
        congrArg (·, scope, false) (Quot.sound hperm)
      rw [hcontent] at hstore
      rw [← hstore]
      split
      · rfl
      · split <;> rfl
      · rfl
    next hnot =>
      -- two literals stay two literals
      have hlength := hperm.length_eq
      match hls : (x :: y :: zs).filter (fun l => !c₁.isFalse l) ++
        (x :: y :: zs).filter c₁.isFalse with
      | [] => simp [hls] at hlength
      | [_] => simp [hls] at hlength
      | first :: second :: rest => exact absurd hls (hnot first second rest)

/-- Adding a clause puts at most one thing into its scope. -/
theorem grows_addClause (h : c.db.Ok depth) (lits : List Literal) :
    c.db.Grows depth (c.addClause lits depth).db := by
  rw [db_addClause]
  exact Database.grows_add h lits

/-- A learned clause is added like any other, at the innermost scope. -/
theorem grows_learn (h : c.db.Ok depth) (lits : List Literal) :
    c.db.Grows depth (c.learn lits depth).db := by
  unfold learn
  split
  · exact .refl h
  next l => exact Database.grows_addUnit h l
  next first second rest =>
    have hstore :=
      db_storeClause { c with stats := { c.stats with learned := c.stats.learned + 1 } }
      { first, second, rest, scope := depth, learnt := true }
    have hgrows := Database.grows_store h
      (show (Clause.mk first second rest depth true).content.2.1 = depth from rfl)
    rw [show c.db.store _ = _ from hstore.symm] at hgrows
    exact hgrows

/-! ## Dropping and merging scopes -/

/-- A number names the same clause in the database and in the core. -/
theorem clause?_db (c : Core) (n : Nat) :
    c.db.clause? n = ((c.clauses[n]?).join).map Clause.content := by
  unfold Database.clause? db
  rw [Array.getElem?_map]
  rcases c.clauses[n]? with _ | _ | _ <;> rfl

theorem db_freeClause (c : Core) (n : Nat) : (freeClause depth c n).db = c.db.drop depth n := by
  unfold freeClause Database.drop
  rw [clause?_db]
  cases (c.clauses[n]?).join with
  | none => rfl
  | some cl =>
    show (ite _ _ _ : Core).db = ite _ _ _
    by_cases hcl : cl.scope > depth
    · rw [if_pos hcl, if_pos (show cl.content.2.1 > depth from hcl)]
      simp [db, Array.map_setIfInBounds]
    · rw [if_neg hcl, if_neg (show ¬ cl.content.2.1 > depth from hcl)]

theorem db_foldl_freeClause (ns : List Nat) (c : Core) :
    (ns.foldl (freeClause depth) c).db = ns.foldl (Database.drop depth) c.db := by
  induction ns generalizing c with
  | nil => rfl
  | cons n ns ih => rw [List.foldl_cons, List.foldl_cons, ih, db_freeClause]

/-- Dropping the scopes deeper than `depth` leaves what there is of the others. -/
theorem popScopes_spec {top : Nat} (h : c.db.Ok top) (depth : Nat) :
    (c.popScopes depth).db.Ok depth ∧ ∀ {k}, k ≤ depth →
    (c.popScopes depth).db.upTo k = c.db.upTo k := by
  have hsize : c.clauses.size = c.db.clauses.size := (Array.size_map ..).symm
  have hdb : (c.popScopes depth).db =
      ((List.range c.clauses.size).foldl (Database.drop depth) c.db).prune depth := by
    rw [← db_resetTrail c, ← db_foldl_freeClause]
    rfl
  rw [hdb, hsize]
  exact Database.prune_spec h depth

/-- Merging scopes in the core is merging them in the database. -/
theorem db_mergeScopes (c : Core) (depth : Nat) : (c.mergeScopes depth).db = c.db.merge depth := by
  unfold mergeScopes Database.merge db
  simp only [Array.map_map]
  congr 1
  apply Array.map_congr_left
  intro x _
  cases x <;> rfl

end Core
end Entail
