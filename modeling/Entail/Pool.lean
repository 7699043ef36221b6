/-!
# Pools

A pool keeps things under handles. A slot that becomes free is used again, the one freed last first,
under a new version, so that a handle of something removed stays invalid.
-/

namespace Entail

/-- A slot and the version it had when the handle was given out. -/
structure Handle where
  slot : Nat
  version : Nat
deriving DecidableEq, Inhabited

/-- Things under handles. -/
structure Pool (α : Type) where
  /-- Version and content of each slot. -/
  slots : Array (Nat × Option α) := #[]
  /-- Empty slots, the one freed last first. -/
  free : List Nat := []
deriving Inhabited

namespace Pool

variable {α : Type}

/-- What is kept under a valid handle. -/
def get? (p : Pool α) (h : Handle) : Option α :=
  match p.slots[h.slot]? with
  | some (version, content) => if version = h.version then content else none
  | none => none

/-- Keeps something new. -/
def insert (p : Pool α) (a : α) : Handle × Pool α :=
  match p.free with
  | [] => (⟨p.slots.size, 0⟩, { p with slots := p.slots.push (0, some a) })
  | i :: free =>
    let version := ((p.slots[i]?).map (·.1 + 1)).getD 0
    (⟨i, version⟩, { slots := p.slots.setIfInBounds i (version, some a), free })

/-- Replaces what is kept under a valid handle. -/
def set (p : Pool α) (h : Handle) (a : α) : Pool α :=
  if (p.get? h).isSome then { p with slots := p.slots.setIfInBounds h.slot (h.version, some a) }
    else p

/-- Removes what is kept under a valid handle. -/
def erase? (p : Pool α) (h : Handle) : Option (Pool α) :=
  if (p.get? h).isSome then
    some { slots := p.slots.setIfInBounds h.slot (h.version, none), free := h.slot :: p.free }
  else none

/-- Everything that is kept, by slot. -/
def toList (p : Pool α) : List α := p.slots.toList.filterMap (·.2)

/-- Number of things that are kept. -/
def size (p : Pool α) : Nat := p.toList.length

end Pool
end Entail
