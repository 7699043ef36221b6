import Entail.Search.Analyze
import Entail.Search.Propagate

/-!
# Deciding and solving

Choice of the next decision, restarts, and the loop that decides a set of clauses.
-/

namespace Entail.Core

open Search

/-- The literal to decide for a variable: the value it had last. -/
def branchOn (c : Core) (v : Nat) : Literal := .mk' v !(c.info v).phase

/-- Takes candidates out, at most `bound` of them, up to the first open one. -/
def popOpen : (bound : Nat) → Core → Option Nat × Core
  | 0, c => (none, c)
  | bound + 1, c =>
    match c.order.pop? with
    | none => (none, c)
    | some ((_, v), order) =>
      let c := { c with order }
      if c.isOpen v then (some v, c) else popOpen bound c

/-- The most active open variable, with the value it had last. -/
def pickBranch (c : Core) : Option Literal × Core :=
  match c.popOpen c.order.size with
  | (some v, c) => (some (c.branchOn v), c)
  | (none, c) =>
    let v := (List.range c.vars.size).find? fun v => v ≠ 0 && c.isOpen v
    (v.map c.branchOn, c)

/-- Whether there were enough conflicts for a restart. -/
def shouldRestart (c : Core) : Bool := c.conflictsSinceRestart.toFloat >= c.restartThreshold

/-- Takes all decisions back and makes the next restart come later. -/
def restart (c : Core) (factor : Float) : Core :=
  let c := c.backtrack 0
  { c with
    conflictsSinceRestart := 0
    restartThreshold := c.restartThreshold * factor
    stats := { c.stats with restarts := c.stats.restarts + 1 } }

/-- Decides the clauses in at most `fuel` steps, tagging what is learned with `scope`. The
answer says whether there is an assignment that satisfies them all; there is none when the fuel
is used up. -/
def solveLoop (factor : Float) (scope : Nat) : (fuel : Nat) → Core → Option Bool × Core
  | 0, c => (none, c)
  | fuel + 1, c =>
    if c.hasRootConflict then (some false, c)
    else
      match c.propagate with
      | (some conflict, c) =>
        match c.analyze conflict with
        | (.unsat, c) => (some false, c)
        | (.stuck, c) => (none, c)
        | (.learnt level clause, c) =>
          solveLoop factor scope fuel ((c.backtrack level).learn clause scope)
      | (none, c) =>
        if c.shouldRestart then solveLoop factor scope fuel (c.restart factor)
        else
          match c.pickBranch with
          | (none, c) => (some true, c)
          | (some l, c) => solveLoop factor scope fuel (c.decide l)

/-- Starts a search and decides the clauses. -/
def solve (c : Core) (p : Params) (scope fuel : Nat) : Option Bool × Core :=
  match c.startSearch p with
  | (false, c) => (some false, c)
  | (true, c) => solveLoop p.restartFactor.toFloat scope fuel c

end Entail.Core
