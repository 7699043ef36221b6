import Std.Data.HashMap

/-!
# Arenas: interned keys in numbered slots

An arena gives every key it holds a slot number and finds that number again by the key, so that
equal keys share one slot. A sweep empties slots; an emptied slot is given out again before a new
one, the one emptied last first.
-/

namespace Entail

/-- Keys `κ` with a payload `ν`, each in a slot of its own. -/
structure Arena (κ ν : Type) [BEq κ] [Hashable κ] where
  /-- What each slot holds; `none` for an empty slot. -/
  slots : Array (Option (κ × ν))
  /-- Slot of every key that is held. -/
  index : Std.HashMap κ Nat
  /-- Empty slots that may be given out, the next one to be used first. -/
  free : List Nat

namespace Arena

variable {κ ν : Type} [BEq κ] [Hashable κ]

/-- An arena without keys, whose first `reserved` slots are empty and are never given out. -/
def empty (reserved : Nat) : Arena κ ν := ⟨Array.replicate reserved none, ∅, []⟩

instance : Inhabited (Arena κ ν) := ⟨empty 0⟩

/-- What slot `i` holds. -/
def get? (a : Arena κ ν) (i : Nat) : Option (κ × ν) := (a.slots[i]?).join

/-- Whether slot `i` holds a key. -/
def isLive (a : Arena κ ν) (i : Nat) : Bool := (a.get? i).isSome

/-- The slot that holds `key`. -/
def find? (a : Arena κ ν) (key : κ) : Option Nat := a.index[key]?

/-- Number of slots that are not waiting to be given out. -/
def inUse (a : Arena κ ν) : Nat := a.slots.size - a.free.length

/-- The slot of `key`, which is filled with `key` and `payload` when no slot holds the key yet. -/
def intern (a : Arena κ ν) (key : κ) (payload : ν) : Nat × Arena κ ν :=
  match a.index[key]? with
  | some i => (i, a)
  | none =>
    match a with
    | ⟨slots, index, i :: free⟩ =>
      (i, ⟨slots.setIfInBounds i (some (key, payload)), index.insert key i, free⟩)
    | ⟨slots, index, []⟩ =>
      let i := slots.size
      (i, ⟨slots.push (some (key, payload)), index.insert key i, []⟩)

/-- Empties slot `i`. -/
def erase (a : Arena κ ν) (i : Nat) : Arena κ ν :=
  match a.get? i with
  | none => a
  | some (key, _) => ⟨a.slots.setIfInBounds i none, a.index.erase key, i :: a.free⟩

/-- Slots that hold a key and are not marked, in increasing order. -/
def garbage (a : Arena κ ν) (marked : Nat → Bool) : List Nat :=
  (List.range a.slots.size).filter fun i => a.isLive i && !marked i

/-- Empties every slot that is not marked, in increasing order, and says which they were. -/
def sweep (a : Arena κ ν) (marked : Nat → Bool) : List Nat × Arena κ ν :=
  let dead := a.garbage marked
  (dead, dead.foldl erase a)

end Arena
end Entail
