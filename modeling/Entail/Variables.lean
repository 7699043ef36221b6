import Entail.Arena
import Entail.Literal
import Entail.Store.Print

/-!
# Decision variables of terms

Positive terms that need a decision get a variable of their own. Variables are numbers from
one on; those of swept terms are given out again, the one freed last first. Listeners hear of
every new variable.
-/

namespace Entail

/-- What a listener heard: that `var` now stands for `term`. -/
structure Announcement where
  listener : Nat
  var : Nat
  term : Term
deriving DecidableEq

/-- Decision variables and the terms they stand for. -/
structure Variables where
  /-- Slot `v` holds the term of variable `v`; slot 0 is never given out. -/
  arena : Arena Term Unit
  /-- Number of listeners. -/
  listeners : Nat
  /-- What the listeners heard and nobody has collected yet, in order. -/
  heard : Array Announcement

namespace Variables

/-- No variables and no listeners. -/
def empty : Variables := ⟨.empty 1, 0, #[]⟩

instance : Inhabited Variables := ⟨empty⟩

/-- Number of live variables. -/
def size (vs : Variables) : Nat := vs.arena.inUse - 1

/-- One more than the greatest variable ever given out. -/
def capacity (vs : Variables) : Nat := vs.arena.slots.size

/-- Term of a live variable. -/
def term? (vs : Variables) (v : Nat) : Option Term := (vs.arena.get? v).map (·.1)

/-- Whether a variable is live. -/
def isLive (vs : Variables) (v : Nat) : Bool := vs.arena.isLive v

/-- Variable of a term, if it has one. -/
def find? (vs : Variables) (t : Term) : Option Nat := vs.arena.find? t

/-- Whether a term has a variable. -/
def has (vs : Variables) (t : Term) : Bool := (vs.find? t).isSome

/-- Live variables with their terms, in increasing order. -/
def toList (vs : Variables) : List (Nat × Term) :=
  (List.range vs.capacity).filterMap fun v => (vs.term? v).map (v, ·)

/-- Adds a listener, which hears of every variable from now on, and answers its number. -/
def listen (vs : Variables) : Nat × Variables :=
  (vs.listeners, { vs with listeners := vs.listeners + 1 })

/-- Variable of a positive term, given out when it has none yet. Every listener hears of a new
variable, in the order of the listeners. -/
def get (vs : Variables) (t : Term) : Nat × Variables :=
  match vs.arena.find? t with
  | some v => (v, vs)
  | none =>
    let (v, arena) := vs.arena.intern t ()
    let news := (List.range vs.listeners).map fun l => (⟨l, v, t⟩ : Announcement)
    (v, { vs with arena, heard := vs.heard ++ news.toArray })

/-- Variable of a term; a negated term has none. -/
def get? (vs : Variables) (t : Term) : Option (Nat × Variables) :=
  if t.isNegated then none else some (vs.get t)

/-- Collects what the listeners heard. -/
def collect (vs : Variables) : Array Announcement × Variables :=
  (vs.heard, { vs with heard := #[] })

/-- Removes live variables that are not marked, the smallest first, until as many are left as there
are distinct marks; answers those removed. There may not be more marks than live variables. -/
def sweep? (vs : Variables) (marks : Std.HashSet Nat) : Option (List Nat × Variables) :=
  if vs.size < marks.size then none
  else
    let dead := (vs.arena.garbage marks.contains).take (vs.size - marks.size)
    some (dead, { vs with arena := dead.foldl Arena.erase vs.arena })

/-- One line for every live variable, with its term. -/
def text (vs : Variables) (s : Store) : String :=
  String.join (vs.toList.map fun (v, t) => s!"v{v} := {(s.termDoc t).render 80}\n")

/-- Summary of the variables. -/
def summary (vs : Variables) : String :=
  s!"VariableDb \x7b size: {vs.size}, free: {vs.arena.free.length}, listeners: {vs.listeners} \x7d"

end Variables
end Entail
