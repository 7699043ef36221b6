import Std.Data.HashMap

/-!
# Names

A name may be given several times; the last giving hides the earlier ones until it is
removed. A value that has been given a name also has a *base name*, the first it was given,
by which it is printed.
-/

namespace Entail

/-- Names of values of type `α`. -/
structure Names (α : Type) [BEq α] [Hashable α] where
  /-- Values a name was given to, the last giving first. No stack is empty. -/
  bearers : Std.HashMap String (List α)
  /-- Base name of each value that has one. -/
  base : Std.HashMap α String

namespace Names

variable {α : Type} [BEq α] [Hashable α]

/-- The table without names. -/
def empty : Names α := ⟨∅, ∅⟩

instance : Inhabited (Names α) := ⟨empty⟩

/-- Values that `name` was given to, the last giving first. -/
def stack (n : Names α) (name : String) : List α := n.bearers.getD name []

/-- Replaces the stack of `name`; a name whose stack is empty is not kept. -/
def setStack (n : Names α) (name : String) : List α → Names α
  | [] => { n with bearers := n.bearers.erase name }
  | vs => { n with bearers := n.bearers.insert name vs }

/-- The value that `name` stands for now. -/
def find? (n : Names α) (name : String) : Option α := (n.stack name).head?

/-- The base name of `value`. -/
def nameOf? (n : Names α) (value : α) : Option String := n.base[value]?

/-- Gives `name` to `value`, hiding what it stood for. -/
def give (n : Names α) (name : String) (value : α) : Names α :=
  let n := n.setStack name (value :: n.stack name)
  { n with base := n.base.insertIfNew value name }

/-- Takes back the last giving of `name` and answers whom it was given to, whose base name it
no longer is. -/
def remove (n : Names α) (name : String) : Option α × Names α :=
  match n.stack name with
  | [] => (none, n)
  | v :: rest =>
    let n := n.setStack name rest
    (some v, if n.nameOf? v == some name then { n with base := n.base.erase v } else n)

/-- Drops the base name of `value`, and its last giving if that was to `value`. -/
def clear (n : Names α) (value : α) : Names α :=
  match n.nameOf? value with
  | none => n
  | some name =>
    let n := { n with base := n.base.erase value }
    match n.stack name with
    | v :: rest => if v == value then n.setStack name rest else n
    | [] => n

/-- Drops every giving of a name to `value`. -/
def forget (n : Names α) (value : α) : Names α :=
  { bearers := n.bearers.filterMap fun _ vs =>
      let vs := vs.filter (· != value)
      if vs.isEmpty then none else some vs
    base := n.base.erase value }

/-- Values that have a name: once for every giving and once for a base name, in no order. -/
def values (n : Names α) : List α := n.bearers.toList.flatMap (fun e => e.2) ++ n.base.keys

end Names
end Entail
