import Entail.Context.Assert
import Entail.Context.Scopes

/-!
# Checking

A check searches for an assignment that satisfies the clauses and to which the theories do not
object. Whenever the assignment is complete, the theories may add formulas; then the search goes
on from level 0.
-/

namespace Entail

/-- When a stop is requested from inside a check. -/
inductive StopRequest where
  | never
  /-- Before the search starts. -/
  | atStart
  /-- When instance number `n` of the check is produced, counted from one. -/
  | atInstance (n : Nat)
  /-- Before step number `n` of the search, counted from zero. -/
  | atStep (n : Nat)
  /-- While the theories look at a complete assignment in step number `n`. -/
  | atFinal (n : Nat)
deriving DecidableEq, Inhabited

/-- Ends a check. An interactive check that was refused or stopped leaves no trace; any other
interactive check merges its scope. -/
def Context.finish (interactive : Bool) (outcome : Except Failure Status) (c : Context) : Context :=
  match interactive, outcome with
  | true, .error _ | true, .ok .interrupted => { c.rollback with status := .idle }
  | false, .error _ => { c.clearSearch with status := .idle }
  | true, .ok result => { c.commit with status := result }
  | false, .ok result => { c with status := result }

namespace Work

/-- Learns from a clause whose literals are all false; answers whether the search can go on. -/
def resolve (conflict : List Literal) : Work Bool := do
  let analysis ← update fun c =>
    let (a, core) := c.core.analyze conflict
    (a, { c with core })
  match analysis with
  | .unsat => return false
  | .stuck => throw .unexplainedConflict
  | .learnt level clause =>
    change fun c => { c with
      core := (c.core.backtrack level).learn clause c.depth
      registry := c.registry.backtrack level }
    return true

/-- Asserts formulas of the theories at level 0; answers whether the search can go on. -/
def assertInstances (formulas : List Term) : Work Bool := do
  change fun c => { c with core := c.core.backtrack 0, registry := c.registry.backtrack 0 }
  formulas.forM process
  change (·.syncVars)
  look fun _ c => !c.core.hasRootConflict

/-- Propagates in the core and then in the theories; answers the first conflict. -/
def propagate : Work (Option (List Literal)) := do
  let conflict ← update fun c =>
    let (conflict, core) := c.core.propagate
    (conflict, { c with core })
  if conflict.isSome then return conflict
  update fun c =>
    let ((_, out), registry) := c.registry.propagate c.core.trail
    (out.conflict, { c with registry })

/-- Number of instances that the check has produced. -/
def numInstances (c : Context) : Nat := (c.registry.quant?.map (·.checkInstances)).getD 0

/-- Whether a stop is requested while the theories look at a complete assignment in step number `n`.
Their look raises the number of instances from `before` to `after`. -/
def stopsFinal (stop : StopRequest) (n before after : Nat) : Bool :=
  match stop with
  | .atInstance k => before < k && k ≤ after
  | .atFinal k => k == n
  | _ => false

/-- Lets the theories look at a complete assignment in step number `n`. -/
def finalCheck (stop : StopRequest) (n : Nat) : Work (FinalCheck × Theory.Output) :=
  fun ⟨store, c⟩ =>
  let before := numInstances c
  let (((outcome, out), registry), store) := c.registry.finalCheck store
  let c := { c with registry }
  let c := if stopsFinal stop n before (numInstances c) then c.stop else c
  .ok (outcome, out) ⟨store, c⟩

/-- Answers `unsat` when the search cannot go on. -/
def unlessStuck (op : Work Bool) : Work (Option Status) := do
      return if ← op then none else some .unsat

/-- What a complete assignment means in step number `n`. -/
def conclude (stop : StopRequest) (n : Nat) : Work (Option Status) := do
  let (outcome, out) ← finalCheck stop n
  if ← look fun _ c => c.interrupted then return some .interrupted
  match out.conflict with
  | some conflict => unlessStuck (resolve conflict)
  | none =>
    if outcome = .continue && !out.formulas.isEmpty then unlessStuck (assertInstances out.formulas)
    else if outcome = .incomplete then return some .unknown
    else look fun _ c => some (if c.registry.isComplete then .sat else .unknown)

/-- Step number `n` of the search; answers the status when the search is over. -/
def step (p : Params) (stop : StopRequest) (n : Nat) : Work (Option Status) := do
  change fun c => if stop = .atStep n then c.stop else c
  if ← look fun _ c => c.interrupted then return some .interrupted
  match ← propagate with
  | some conflict => unlessStuck (resolve conflict)
  | none =>
    if ← look fun _ c => c.core.shouldRestart then
      change fun c => { c with
        core := c.core.restart p.restartFactor.toFloat, registry := c.registry.backtrack 0 }
      return none
    let branch ← update fun c =>
      let (l, core) := c.core.pickBranch
      (l, { c with core })
    match branch with
    | some l =>
      change fun c => { c with core := c.core.decide l, registry := c.registry.openLevel }
      return none
    | none => conclude stop n

/-- Steps from number `n` on until the search is over, at most `fuel` times. -/
def steps (p : Params) (stop : StopRequest) : (fuel n : Nat) → Work Status
  | 0, _ => throw .outOfFuel
  | fuel + 1, n => do
    match ← step p stop n with
    | some status => return status
    | none => steps p stop fuel (n + 1)

/-- Starts the core and the theories; answers whether the search can go on. -/
def startSearch (p : Params) : Work Bool := do
  if ← look fun _ c => c.core.isTriviallyUnsat then return false
  let ok ← update fun c =>
    let (ok, core) := c.core.startSearch p
    (ok, { c with core })
  if !ok then return false
  let formulas ← update fun c =>
    let (out, registry) := c.registry.startSearch p
    (out.formulas, { c with registry })
  if formulas.isEmpty then return true
  assertInstances formulas

/-- Searches for an assignment, in at most `fuel` steps. -/
def search (p : Params) (stop : StopRequest) (fuel : Nat) : Work Status := do
  if ← startSearch p then steps p stop fuel 0 else return .unsat

/-- Runs an operation and answers its outcome. -/
def attempt {α : Type} (op : Work α) : Work (Except Failure α) := fun w =>
  match op w with
  | .ok a w => .ok (.ok a) w
  | .error e w => .ok (.error e) w

/-- Checks whether the assertions can hold together, in at most `fuel` steps. A check that is over
already answers its result. In interactive mode the check has a scope of its own. -/
def checkSat (p : Params) (stop : StopRequest) (fuel : Nat) : Work Status := do
  let status ← look fun _ c => c.status
  match status with
  | .sat | .unsat | .unknown => return status
  | .searching | .interrupted => throw (.invalidOperation status)
  | .idle =>
    check fun _ _ => p.validate
    let interactive ← look fun _ c => c.config.mode == .interactive
    if interactive then change (·.openScope)
    change fun c => { c with interrupted := stop == .atStart, status := .searching }
    let outcome ← attempt (search p stop fuel)
    change (·.finish interactive outcome)
    check fun _ _ => outcome

end Work

namespace Context

/-- Adds a clause that excludes the present assignment. -/
def block (c : Context) : Except Failure Context :=
  if !c.status.hasModel then .error (.invalidOperation c.status)
  else if !c.config.mode.hasManyChecks then .error .operationNotSupported
  else
    let clause := c.core.decisions.map (·.neg)
    .ok { c.clearSearch.addClause clause with status := if clause.isEmpty then .unsat else .idle }

end Context
end Entail
