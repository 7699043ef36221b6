import Entail.Search.Basic

/-!
# Unit propagation

When a literal becomes false, the clauses that watch it look for another literal to watch. A clause
that finds none forces its other watched literal, or is falsified.
-/

namespace Entail

namespace Search.Clause

/-- Puts the watched literal `l` into second place. -/
def watchedSecond (cl : Clause) (l : Literal) : Clause :=
  if cl.first = l then { cl with first := cl.second, second := cl.first } else cl

/-- Exchanges the second literal with the first one of the rest that is good. -/
def rewatch? (cl : Clause) (good : Literal → Bool) : Option Clause :=
  match cl.rest.dropWhile fun l => !good l with
  | [] => none
  | l :: after =>
    let before := cl.rest.takeWhile fun l => !good l
    some { cl with second := l, rest := before ++ cl.second :: after }

end Search.Clause

namespace Core

open Search

/-- What the visit of a watching clause comes to. -/
inductive Visit where
  /-- The clause goes on watching the false literal: its other watched literal is true. -/
  | satisfied (c : Core)
  /-- The clause watches another literal from now on. -/
  | moved (c : Core)
  /-- The clause has forced its other watched literal. -/
  | forced (c : Core)
  /-- All literals of the clause are false. -/
  | falsified (c : Core) (lits : List Literal)

/-- Visits the clause with number `n`, which watches the literal `l` that has become false. -/
def visit (c : Core) (l : Literal) (n : Nat) : Visit :=
  match (c.clauses[n]?).join with
  | none => .satisfied (c.require false)
  | some cl =>
    let cl := cl.watchedSecond l
    let c := { c with clauses := c.clauses.setIfInBounds n (some cl) }
    if c.value cl.first = some true then .satisfied c
    else
      match cl.rewatch? fun k => !c.isFalse k with
      | some cl =>
        .moved ({ c with clauses := c.clauses.setIfInBounds n (some cl) }.watch cl.second n)
      | none =>
        if c.isFalse cl.first then .falsified c cl.lits else .forced (c.enqueue cl.first (some n))

/-- Visits clauses that watch `l` one after the other, up to the first falsified one. Answers those
that go on watching `l` and the falsified clause. -/
def visitAll (l : Literal) : List Nat → (kept : Array Nat) → Core →
    Array Nat × Option (List Literal) × Core
  | [], kept, c => (kept, none, c)
  | n :: rest, kept, c =>
    match c.visit l n with
    | .satisfied c | .forced c => visitAll l rest (kept.push n) c
    | .moved c => visitAll l rest kept c
    | .falsified c lits => (kept.push n ++ rest.toArray, some lits, c)

/-- Propagates one literal of the trail. -/
def propagateLit (c : Core) (p : Literal) : Option (List Literal) × Core :=
  let l := p.neg
  let watchers := (c.watches.getD l.code #[]).toList
  let c := { c with watches := c.watches.setIfInBounds l.code #[] }
  let (kept, conflict, c) := visitAll l watchers #[] c
  (conflict, { c with watches := c.watches.setIfInBounds l.code kept })

/-- Propagates literals of the trail, at most `bound` of them. -/
def propagateUpTo : (bound : Nat) → Core → Option (List Literal) × Core
  | 0, c => (none, c)
  | bound + 1, c =>
    match c.trail[c.head]? with
    | none => (none, c)
    | some p =>
      let c :=
        { c with head := c.head + 1, stats := { c.stats with propagations := c.stats.propagations +
          1 } }
      match c.propagateLit p with
      | (some conflict, c) => (some conflict, { c with head := c.trail.size })
      | (none, c) => propagateUpTo bound c

/-- Propagates what is on the trail until nothing more is forced, or up to a falsified clause,
whose literals are answered. Every variable is on the trail at most once, which bounds the
number of steps. -/
def propagate (c : Core) : Option (List Literal) × Core :=
  c.propagateUpTo (c.vars.size + c.trail.size + 1)

end Core
end Entail
