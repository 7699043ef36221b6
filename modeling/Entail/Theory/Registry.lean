import Entail.Egraph.Explain
import Entail.Quant.Solver

/-!
# Theories of a search

A search is accompanied by the e-graph and by satellites, which read the classes of the e-graph.
They are called at fixed points of the search, the e-graph first and the satellites in the order of
their registration.
-/

namespace Entail.Theory

/-- What theories have to say. -/
structure Output where
  /-- A clause whose literals are all false. -/
  conflict : Option (List Literal) := none
  /-- Formulas to assert at level 0. -/
  formulas : List Term := []
deriving Inhabited

/-- What is said first counts as the conflict; formulas are collected. -/
def Output.append (a b : Output) : Output := ⟨a.conflict <|> b.conflict, a.formulas ++ b.formulas⟩

/-- A satellite that says the same at every call, to observe how it is called. -/
structure Script where
  /-- Number of the script, for the record of its calls. -/
  id : Nat
  output : Output := {}
  /-- Whether it claims progress after propagation. -/
  progress : Bool := false
  outcome : FinalCheck := .done
  complete : Bool := true

/-- A theory that reads the classes of the e-graph. -/
inductive Satellite where
  | quant (q : Quant.Solver)
  | script (p : Script)

/-- Points of a search at which satellites are called. -/
inductive Event where
  | start
  | propagate
  | final
  | level
  | backtrack (level : Nat)
  | push
  | pop
  | merge
  | reset

/-- Name of an event in the record of calls. -/
def Event.name : Event → String
  | .start => "start"
  | .propagate => "propagate"
  | .final => "final"
  | .level => "level"
  | .backtrack n => s!"backtrack {n}"
  | .push => "push"
  | .pop => "pop"
  | .merge => "merge"
  | .reset => "reset"

namespace Satellite

/-- Name of a satellite. -/
def name : Satellite → String
  | .quant _ => "quant"
  | .script _ => "stub"

/-- Record of a call; only scripts keep one. -/
def record (e : Event) : Satellite → List String
  | .quant _ => []
  | .script p => [s!"{p.id}:{e.name}"]

/-- Start of a search. -/
def startSearch (p : Params) : Satellite → Output × Satellite
  | .quant q => ({}, .quant (q.startSearch p))
  | .script x => (x.output, .script x)

/-- Cheap reasoning after propagation; says whether anything changed. -/
def propagate : Satellite → Bool × Output
  | .quant _ => (false, {})
  | .script x => (x.progress, x.output)

/-- A look at a complete assignment. -/
def finalCheck (g : Egraph) : Satellite → StateM Store (FinalCheck × Output × Satellite)
  | .quant q => do
    let (outcome, formulas, q) ← q.finalCheck (some g)
    return (outcome, { formulas }, .quant q)
  | .script x => return (x.outcome, x.output, .script x)

/-- Takes part in a change of scopes; levels and propagation leave satellites as they are. -/
def follow (e : Event) : Satellite → Satellite
  | .script x => .script x
  | .quant q => .quant <| match e with
    | .push => q.push
    | .pop => q.pop
    | .merge => q.mergeScope
    | .reset => {}
    | _ => q

/-- Whether being done proves that there is a model. -/
def isComplete : Satellite → Bool
  | .quant q => q.isComplete
  | .script x => x.complete

/-- Terms that a satellite refers to. -/
def roots : Satellite → List Term
  | .quant q => q.roots
  | .script x => x.output.formulas

end Satellite

/-- The e-graph and the satellites. -/
structure Registry where
  egraph : Egraph := .empty
  satellites : Array Satellite := #[]
  /-- Calls of scripts since they were last collected. -/
  calls : Array String := #[]
deriving Inhabited

namespace Registry

/-- Adds a satellite after the others. -/
def register (r : Registry) (s : Satellite) : Registry :=
  { r with satellites := r.satellites.push s }

/-- The quantifier solver: the first satellite that is one. -/
def quant? (r : Registry) : Option Quant.Solver :=
  r.satellites.findSome? fun
    | .quant q => some q
    | .script _ => none

/-- Replaces the first quantifier solver of a list. -/
def setFirstQuant (q : Quant.Solver) : List Satellite → List Satellite
  | [] => []
  | .quant _ :: rest => .quant q :: rest
  | .script x :: rest => .script x :: setFirstQuant q rest

/-- Replaces the quantifier solver. -/
def setQuant (r : Registry) (q : Quant.Solver) : Registry :=
  { r with satellites := (setFirstQuant q r.satellites.toList).toArray }

/-- Records a call of a satellite. -/
def recordCall (r : Registry) (e : Event) (s : Satellite) : Registry :=
  { r with calls := r.calls ++ (s.record e).toArray }

/-- Collects the calls recorded so far. -/
def collectCalls (r : Registry) : List String × Registry :=
  (r.calls.toList, { r with calls := #[] })

/-! ## Calls during a search -/

/-- Starts a search. -/
def startSearch (r : Registry) (p : Params) : Output × Registry :=
  let satellites := r.satellites
  let r := { r with egraph := r.egraph.startSearch, satellites := #[] }
  satellites.foldl (fun (out, r) s =>
    let (o, s') := s.startSearch p
    (out.append o, (r.recordCall .start s).register s')) ({}, r)

/-- Lets satellites propagate one after the other, up to the first conflict. -/
def propagateAll : List Satellite → (progress : Bool) → Output → Registry →
    (Bool × Output) × Registry
  | [], progress, out, r => ((progress, out), r)
  | s :: rest, progress, out, r =>
    if out.conflict.isSome then ((progress, out), r)
    else
      let (p, o) := s.propagate
      propagateAll rest (progress || p) (out.append o) (r.recordCall .propagate s)

/-- Lets the e-graph and the satellites propagate; says whether anything changed. -/
def propagate (r : Registry) (trail : Array Literal) : (Bool × Output) × Registry :=
  let (p, egraph) := r.egraph.propagate trail
  let r := { r with egraph }
  propagateAll r.satellites.toList p.changed { conflict := p.conflict } r

/-- Lets satellites look at a complete assignment one after the other. -/
def finalCheckAll (g : Egraph) : List Satellite → FinalCheck → Output → Registry →
    StateM Store ((FinalCheck × Output) × Registry)
  | [], outcome, out, r => return ((outcome, out), r)
  | s :: rest, outcome, out, r => do
    let (f, o, s') ← s.finalCheck g
    finalCheckAll g rest (outcome.join f) (out.append o) ((r.recordCall .final s).register s')

/-- Lets all theories look at a complete assignment. The e-graph has nothing to say at
this point. -/
def finalCheck (r : Registry) : StateM Store ((FinalCheck × Output) × Registry) :=
  finalCheckAll r.egraph r.satellites.toList .done {} { r with satellites := #[] }

/-- Tells the satellites of an event. -/
def notify (r : Registry) (e : Event) : Registry :=
  let r := r.satellites.foldl (recordCall · e) r
  { r with satellites := r.satellites.map (·.follow e) }

/-- Opens a level. -/
def openLevel (r : Registry) : Registry := { r with egraph := r.egraph.openLevel }.notify .level

/-- Goes back to a level. -/
def backtrack (r : Registry) (level : Nat) : Registry :=
  { r with egraph := r.egraph.backtrack level }.notify (.backtrack level)

/-- Opens a scope. -/
def push (r : Registry) : Registry := { r with egraph := r.egraph.push }.notify .push

/-- Closes the innermost scope. -/
def pop (r : Registry) : Registry := { r with egraph := r.egraph.pop }.notify .pop

/-- Closes the innermost scope, keeping what it holds. -/
def mergeScope (r : Registry) : Registry := { r with egraph := r.egraph.mergeScope }.notify .merge

/-- Forgets everything but which satellites there are. -/
def reset (r : Registry) : Registry := { r with egraph := .empty }.notify .reset

/-! ## Results -/

/-- Whether being done proves that there is a model. -/
def isComplete (r : Registry) : Bool := r.satellites.all (·.isComplete)

/-- Adds values to a model. -/
def addToModel (r : Registry) (s : Store) (m : Model) : Model := r.egraph.addToModel s m

/-- Terms that the theories refer to, in the order of the theories. -/
def roots (r : Registry) : List Term := r.egraph.roots ++ r.satellites.toList.flatMap (·.roots)

/-- Summary of the theories. -/
def summary (r : Registry) : String :=
  let names := ", ".intercalate (r.satellites.toList.map fun s => "\"" ++ s.name ++ "\"")
  s!"PluginRegistry \x7b egraph: \"egraph\", satellites: [{names}] \x7d"

end Registry
end Entail.Theory
