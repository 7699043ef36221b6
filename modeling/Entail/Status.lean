/-!
# Status of a context

Where a context stands between two operations, and the answers that a check gives.
-/

namespace Entail

/-- What a context is doing, or what its last check found. -/
inductive Status where
  | idle
  | searching
  | unknown
  | sat
  | unsat
  | interrupted
deriving DecidableEq, Inhabited

namespace Status

/-- Every status, at the place of its number. -/
def numbered : List Status := [.idle, .searching, .unknown, .sat, .unsat, .interrupted]

/-- Published number of a status. -/
def number (s : Status) : Nat := s.ctorIdx

/-- The status with a given number. -/
def ofNumber? (n : Nat) : Option Status := numbered[n]?

/-- Lower-case name of a status. -/
def name : Status → String
  | .idle => "idle"
  | .searching => "searching"
  | .unknown => "unknown"
  | .sat => "sat"
  | .unsat => "unsat"
  | .interrupted => "interrupted"

/-- Name of a status inside the description of a context. -/
def title : Status → String
  | .idle => "Idle"
  | .searching => "Searching"
  | .unknown => "Unknown"
  | .sat => "Sat"
  | .unsat => "Unsat"
  | .interrupted => "Interrupted"

/-- Whether a check ended with an assignment that a model can be read from. -/
def hasModel : Status → Bool
  | .sat | .unknown => true
  | _ => false

theorem ofNumber?_number (s : Status) : ofNumber? s.number = some s := by cases s <;> rfl

end Status
end Entail
