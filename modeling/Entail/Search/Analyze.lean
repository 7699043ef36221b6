import Entail.Search.Basic

/-!
# Conflict analysis

A falsified clause is resolved with the reasons of its literals until one literal of the
highest level is left. The negations of that literal and of the lower ones it depends on are
the clause to learn.
-/

namespace Entail

namespace Search

/-- What the analysis of a conflict says. -/
inductive Analysis where
  /-- The conflict depends on no decision. -/
  | unsat
  /-- Go back to `level` and learn `clause`, whose first literal then becomes true. -/
  | learnt (level : Nat) (clause : List Literal)
  /-- The clause was not falsified by the trail. -/
  | stuck

/-- Where an analysis stands. -/
structure Resolution where
  core : Core
  /-- Literals below the highest level, in the order they were met. -/
  lower : Array Literal
  /-- Number of marked literals of the highest level that are still to be resolved. -/
  pending : Nat

end Search

namespace Core

open Search

/-- Sets the scratch mark of a variable. -/
def setSeen (c : Core) (v : Nat) (seen : Bool) : Core := c.modifyVar v ({ · with seen })

/-- Whether a variable is marked. -/
def isSeen (c : Core) (v : Nat) : Bool := (c.info v).seen

/-- Takes one literal of a falsified clause into account, unless it was met before or holds
at level 0. -/
def absorbLit (top : Nat) (r : Resolution) (l : Literal) : Resolution :=
  let v := l.var
  if r.core.isSeen v || r.core.level v = 0 then r
  else
    let core := (r.core.setSeen v true).bump v
    if core.level v ≥ top then { r with core, pending := r.pending + 1 }
    else { r with core, lower := r.lower.push l }

/-- Takes the literals of a falsified clause into account. -/
def absorb (top : Nat) (r : Resolution) (lits : List Literal) : Resolution :=
  lits.foldl (absorbLit top) r

/-- Goes down the first `length` literals of the trail, from the last one on, and resolves marked
literals with their reasons until one is left, which is answered. -/
def resolveDown (top : Nat) : (length : Nat) → Resolution → Option Literal × Resolution
  | 0, r => (none, r)
  | length + 1, r =>
    match r.core.trail[length]? with
    | none => (none, r)
    | some p =>
      if !r.core.isSeen p.var then resolveDown top length r
      else
        let r := { r with core := r.core.setSeen p.var false, pending := r.pending - 1 }
        if r.pending = 0 then (some p, r)
        else
          match (r.core.info p.var).reason.bind fun n => (r.core.clauses[n]?).join with
          | none => (none, r)
          | some cl => resolveDown top length (absorb top r (cl.lits.filter fun l => l.var ≠ p.var))

/-- Index of the first literal of the greatest level. -/
def deepest (c : Core) (lits : Array Literal) : Nat :=
  let step (best : Nat × Nat) (k : Nat) : Nat × Nat :=
    let lv := (lits[k]?.map fun l => c.level l.var).getD 0
    if lv > best.1 then (lv, k) else best
  ((List.range lits.size).foldl step (0, 0)).2

/-- Analyses a clause whose literals are all false. The trail first goes back to the highest level
of the clause. -/
def analyze (c : Core) (conflict : List Literal) : Analysis × Core :=
  let c := { c with
    stats := { c.stats with conflicts := c.stats.conflicts + 1 }
    conflictsSinceRestart := c.conflictsSinceRestart + 1 }
  let top := (conflict.map fun l => c.level l.var).foldl max 0
  if top = 0 then (.unsat, c)
  else
    let c := c.backtrack top
    match resolveDown top c.trail.size (absorb top ⟨c, #[], 0⟩ conflict) with
    | (none, r) => (.stuck, r.core)
    | (some uip, r) =>
      let c := r.lower.foldl (fun c l => c.setSeen l.var false) r.core
      let lower := r.lower.swapIfInBounds 0 (c.deepest r.lower)
      let level := (lower[0]?.map fun l => c.level l.var).getD 0
      (.learnt level (uip.neg :: lower.toList), { c with increment := c.increment / c.decay })

end Core
end Entail
