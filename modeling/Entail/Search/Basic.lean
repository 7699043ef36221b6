import Entail.Config.Params
import Entail.Literal
import Entail.Search.Order

/-!
# The search core: assignment and clauses

The core holds clauses over decision variables and a partial assignment, the *trail*. Every clause
belongs to a scope; leaving scopes drops their clauses. A clause of one literal is a *unit* and
stands in a list of its own; a longer clause is watched through two of its literals.
-/

namespace Entail.Search

/-- A clause of at least two literals. The first two are watched. -/
structure Clause where
  first : Literal
  second : Literal
  rest : List Literal
  /-- The scope that the clause belongs to. -/
  scope : Nat
  /-- Whether the clause was learned from a conflict. -/
  learnt : Bool
deriving Inhabited

/-- The literals of a clause, watched ones first. -/
def Clause.lits (c : Clause) : List Literal := c.first :: c.second :: c.rest

/-- What the core knows of one variable. -/
structure VarInfo where
  value : Option Bool := none
  /-- Decision level at which the variable was last assigned. -/
  level : Nat := 0
  /-- The clause that forced the value, if one did. -/
  reason : Option Nat := none
  activity : Float := 0.0
  /-- The value the variable had last. -/
  phase : Bool := false
  /-- Scratch mark of conflict analysis. -/
  seen : Bool := false
  /-- Whether the variable is in use. -/
  live : Bool := false
deriving Inhabited

/-- Counters of the work done. -/
structure Stats where
  decisions : Nat := 0
  conflicts : Nat := 0
  propagations : Nat := 0
  restarts : Nat := 0
  learned : Nat := 0
deriving DecidableEq, Inhabited

/-- The counters in a row. -/
def Stats.toList (s : Stats) : List Nat :=
  [s.decisions, s.conflicts, s.propagations, s.restarts, s.learned]

end Search

/-- Clauses, assignment and heuristics of a search. -/
structure Core where
  vars : Array Search.VarInfo := #[]
  order : Search.Order := .empty
  /-- Clauses by number; `none` for a number that is free. -/
  clauses : Array (Option Search.Clause) := #[]
  /-- Free clause numbers, the next one to be used first. -/
  freeClauses : List Nat := []
  /-- Numbers of the clauses that watch a literal, by the code of the literal. -/
  watches : Array (Array Nat) := #[]
  /-- Unit clauses with their scopes. -/
  units : Array (Literal × Nat) := #[]
  /-- Outermost scope that has the empty clause. -/
  emptyClause : Option Nat := none
  /-- Whether the clauses were found false at level 0. -/
  rootConflict : Bool := false
  /-- Literals that are true, in the order of their assignment. -/
  trail : Array Literal := #[]
  /-- Length of the trail before each decision. -/
  levelStarts : Array Nat := #[]
  /-- Number of trail literals that were propagated. -/
  head : Nat := 0
  increment : Float := 1.0
  decay : Float := 0.95
  restartThreshold : Float := 50.0
  conflictsSinceRestart : Nat := 0
  stats : Search.Stats := {}
  /-- Whether an operation was called in a state that it is not meant for. Nothing goes by this. -/
  misused : Bool := false
deriving Inhabited

namespace Core

open Search

/-! ## Reading the state -/

/-- What the core knows of a variable. -/
def info (c : Core) (v : Nat) : VarInfo := c.vars.getD v {}

/-- Value of a variable. -/
def varValue (c : Core) (v : Nat) : Option Bool := (c.info v).value

/-- Value of a literal. -/
def value (c : Core) (l : Literal) : Option Bool := (c.varValue l.var).map (· != l.isNegated)

/-- Whether a literal is false. -/
def isFalse (c : Core) (l : Literal) : Bool := c.value l == some false

/-- Level at which a variable was last assigned. -/
def level (c : Core) (v : Nat) : Nat := (c.info v).level

/-- Number of decisions on the trail. -/
def decisionLevel (c : Core) : Nat := c.levelStarts.size

/-- Decisions on the trail, outermost first. -/
def decisions (c : Core) : List Literal := c.levelStarts.toList.filterMap fun i => c.trail[i]?

/-- Number of variables in use. -/
def numVars (c : Core) : Nat := c.vars.countP (·.live)

/-- Number of clauses, units included. -/
def numClauses (c : Core) : Nat := c.clauses.countP (·.isSome) + c.units.size

/-- Number of learned clauses that are no units. -/
def numLearnt (c : Core) : Nat := c.clauses.countP fun x => (x.map (·.learnt)).getD false

/-- Whether an open scope has the empty clause. -/
def isTriviallyUnsat (c : Core) : Bool := c.emptyClause.isSome

/-- Whether the clauses are known to be false at level 0. -/
def hasRootConflict (c : Core) : Bool := c.rootConflict || c.emptyClause.isSome

/-- Whether a variable is in use and has no value. -/
def isOpen (c : Core) (v : Nat) : Bool := (c.info v).live && (c.varValue v).isNone

/-! ## Assertions -/

/-- Asserts what an operation relies on. -/
def require (c : Core) (ok : Bool) : Core := { c with misused := c.misused || !ok }

/-! ## Variables -/

/-- Changes what is known of a variable. -/
def modifyVar (c : Core) (v : Nat) (f : VarInfo → VarInfo) : Core :=
  { c with vars := c.vars.modify v f }

/-- Makes room for a variable and takes it into use. -/
def ensureVar (c : Core) (v : Nat) : Core :=
  let c :=
    if v < c.vars.size then c
    else
      { c with
        vars := c.vars ++ Array.replicate (v + 1 - c.vars.size) {}
        watches := c.watches ++ Array.replicate (2 * (v + 1) - c.watches.size) #[] }
  if (c.info v).live then c
  else
    { c with
      vars := c.vars.modify v ({ · with live := true })
      order := c.order.push ((0.0 : Float).toBits, v) }

/-- Takes an unassigned variable that no clause mentions out of use. -/
def releaseVar (c : Core) (v : Nat) : Core :=
  (c.require (c.varValue v).isNone).modifyVar v
    ({ · with live := false, activity := 0.0, phase := false })

/-- Enters a variable as a candidate with its present activity. -/
def enter (c : Core) (v : Nat) : Core :=
  { c with order := c.order.push ((c.info v).activity.toBits, v) }

/-- Replaces the candidates by the open variables. -/
def rebuildOrder (c : Core) : Core :=
  let entries := (List.range c.vars.size).filterMap fun v =>
    if v ≠ 0 && c.isOpen v then some ((c.info v).activity.toBits, v) else none
  { c with order := .ofList entries }

/-- Activities above this bound make all activities be scaled down. -/
def activityLimit : Float := 1e100

/-- Raises the activity of a variable. -/
def bump (c : Core) (v : Nat) : Core :=
  let increment := c.increment
  let c := c.modifyVar v fun x => { x with activity := x.activity + increment }
  if (c.info v).activity > activityLimit then
    let scale := 1.0 / activityLimit
    rebuildOrder
      { c with vars := c.vars.map fun x => { x with activity := x.activity * scale }, increment :=
        c.increment * scale }
  else c.enter v

/-! ## Assignment -/

/-- Makes an unassigned literal true at the present level. -/
def enqueue (c : Core) (l : Literal) (reason : Option Nat) : Core :=
  let level := c.decisionLevel
  { c.require (c.value l).isNone with
    vars := c.vars.modify l.var ({ · with value := some !l.isNegated, level, reason })
    trail := c.trail.push l }

/-- Opens a level with an unassigned literal as its decision. -/
def decide (c : Core) (l : Literal) : Core :=
  let c := { c with
    levelStarts := c.levelStarts.push c.trail.size
    stats := { c.stats with decisions := c.stats.decisions + 1 } }
  c.enqueue l none

/-- Takes the value of a literal back, keeping it as the phase of the variable, which is a
candidate again. -/
def unassign (c : Core) (l : Literal) : Core :=
  (c.modifyVar l.var ({ · with phase := !l.isNegated, value := none, reason := none })).enter l.var

/-- Takes back the trail from position `start` on, the last literal first. -/
def unassignFrom (c : Core) (start : Nat) : Core :=
  let undone := (c.trail.extract start c.trail.size).toList.reverse
  let c := undone.foldl unassign c
  { c with trail := c.trail.shrink start, head := min c.head start }

/-- Goes back to a level, keeping what was assigned at it. -/
def backtrack (c : Core) (level : Nat) : Core :=
  match c.levelStarts[level]? with
  | none => c
  | some start =>
    let c := c.unassignFrom start
    let c := { c with levelStarts := c.levelStarts.shrink level }
    if c.order.size > 8 * c.vars.size + 64 then c.rebuildOrder else c

/-- Takes every assignment back. -/
def resetTrail (c : Core) : Core :=
  { c.unassignFrom 0 with levelStarts := #[], head := 0, rootConflict := false }

/-- Makes one unit true; false when it is false already. -/
def assignUnit (c : Core) (l : Literal) : Bool × Core :=
  match c.value l with
  | some false => (false, { c with rootConflict := true })
  | some true => (true, c)
  | none => (true, c.enqueue l none)

/-- Makes units true one after the other, up to the first that is false already. -/
def assignUnitList : List (Literal × Nat) → Core → Bool × Core
  | [], c => (true, c)
  | (l, _) :: rest, c =>
    match c.assignUnit l with
    | (true, c) => assignUnitList rest c
    | (false, c) => (false, c)

/-- Makes every unit true at level 0, without propagation; false when that is not possible. -/
def assignUnits (c : Core) : Bool × Core :=
  let c := c.require (c.decisionLevel = 0)
  if c.emptyClause.isSome then (false, c) else assignUnitList c.units.toList c

/-- Prepares a search; false when the units contradict each other. -/
def startSearch (c : Core) (p : Params) : Bool × Core :=
  let c := { c.resetTrail with
    decay := p.varDecay.toFloat
    restartThreshold := p.restartThreshold.toFloat
    conflictsSinceRestart := 0 }
  c.assignUnits

/-! ## Clauses -/

/-- Adds a clause number to the watchers of a literal. -/
def watch (c : Core) (l : Literal) (n : Nat) : Core :=
  { c with watches := c.watches.modify l.code (·.push n) }

/-- Stores a clause under a free number and watches it. -/
def storeClause (c : Core) (cl : Clause) : Nat × Core :=
  let (n, c) : Nat × Core := match c.freeClauses with
    | n :: free =>
      (n, { c with clauses := c.clauses.setIfInBounds n (some cl), freeClauses := free })
    | [] => (c.clauses.size, { c with clauses := c.clauses.push (some cl) })
  (n, (c.watch cl.first n).watch cl.second n)

/-- Adds a clause of a scope at level 0. Repeated literals count once, and a clause with a literal
and its negation is dropped. Literals that are not false are watched first; a clause with one such
literal forces it. -/
def addClause (c : Core) (lits : List Literal) (scope : Nat) : Core :=
  let c := lits.foldl (fun c l => c.ensureVar l.var) (c.require (c.decisionLevel = 0))
  let lits := Literal.normalize lits
  if Literal.hasComplement lits then c
  else
    match lits with
    | [] =>
      { c with
        emptyClause := some ((c.emptyClause.map (min scope)).getD scope), rootConflict := true }
    | [l] =>
      let c := { c with units := c.units.push (l, scope) }
      (c.assignUnit l).2
    | _ =>
      let nonFalse := lits.filter fun l => !c.isFalse l
      match nonFalse ++ lits.filter c.isFalse with
      | first :: second :: rest =>
        let (n, c) := c.storeClause { first, second, rest, scope, learnt := false }
        match nonFalse with
        | [] => { c with rootConflict := true }
        | [l] => if (c.value l).isNone then c.enqueue l (some n) else c
        | _ => c
      | _ => c

/-- Frees the clause with number `n` if it belongs to a scope deeper than `depth`. -/
def freeClause (depth : Nat) (c : Core) (n : Nat) : Core :=
  match (c.clauses[n]?).join with
  | none => c
  | some cl =>
    if cl.scope > depth then
      { c with clauses := c.clauses.setIfInBounds n none, freeClauses := n :: c.freeClauses }
    else c

/-- Drops the assignment and every clause of a scope deeper than `depth`. -/
def popScopes (c : Core) (depth : Nat) : Core :=
  let c := (List.range c.clauses.size).foldl (freeClause depth) c.resetTrail
  let clauses := c.clauses
  { c with
    watches := c.watches.map (·.filter fun n => ((clauses[n]?).join).isSome)
    units := c.units.filter fun u => u.2 ≤ depth
    emptyClause := c.emptyClause.filter (· ≤ depth)
    rootConflict := false }

/-- Moves clauses of deeper scopes into the scope `depth`. -/
def mergeScopes (c : Core) (depth : Nat) : Core :=
  { c with
    clauses := c.clauses.map (·.map fun cl => { cl with scope := min cl.scope depth })
    units := c.units.map fun u => (u.1, min u.2 depth)
    emptyClause := c.emptyClause.map (min depth) }

/-- Records a learned clause after going back; its first literal becomes true. The empty clause is
never learned. -/
def learn (c : Core) (lits : List Literal) (scope : Nat) : Core :=
  let c := { c with stats := { c.stats with learned := c.stats.learned + 1 } }
  match lits with
  | [] => c
  | [l] => { c with units := c.units.push (l, scope) }.enqueue l none
  | first :: second :: rest =>
    let (n, c) := c.storeClause { first, second, rest, scope, learnt := true }
    c.enqueue first (some n)

end Core
end Entail
