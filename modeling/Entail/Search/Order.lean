import Std.Data.TreeMap

/-!
# Order of decisions

The candidates for the next decision, as a bag of entries: a variable with the activity it had when
it was entered. An entry is never updated, so a variable may be there several times. The entry taken
next is the greatest one, by activity and then by variable.
-/

namespace Entail.Search

/-- An activity, as the bits of a non-negative double, and a variable. -/
abbrev Entry := UInt64 × Nat

/-- Entries by activity, then by variable. -/
def Entry.compare (a b : Entry) : Ordering := (Ord.compare a.1 b.1).then (Ord.compare a.2 b.2)

/-- A bag of entries. -/
structure Order where
  /-- How often each entry is in the bag; no count is zero. -/
  counts : Std.TreeMap Entry Nat Entry.compare
  /-- Number of entries, repetitions included. -/
  size : Nat

namespace Order

/-- The empty bag. -/
def empty : Order := ⟨∅, 0⟩

instance : Inhabited Order := ⟨empty⟩

/-- Adds one entry. -/
def push (o : Order) (e : Entry) : Order := ⟨o.counts.insert e (o.counts.getD e 0 + 1), o.size + 1⟩

/-- The bag of the entries of a list. -/
def ofList (es : List Entry) : Order := es.foldl push empty

/-- Takes the greatest entry out. -/
def pop? (o : Order) : Option (Entry × Order) :=
  match o.counts.maxEntry? with
  | none => none
  | some (e, n) =>
    let counts := if n ≤ 1 then o.counts.erase e else o.counts.insert e (n - 1)
    some (e, ⟨counts, o.size - 1⟩)

end Order
end Entail.Search
