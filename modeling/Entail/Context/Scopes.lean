import Entail.Context.Basic

/-!
# Scopes

Opening a scope marks the sizes of the logs. Closing it takes back everything that was logged since:
assertions, definitions, encoded terms, clauses, variables and the state of the theories.
-/

namespace Entail.Context

/-- Opens a scope. -/
def openScope (c : Context) : Context :=
  let c := c.syncVars
  let mark : Scope :=
    { assertions := c.assertions.size
      substLog := c.substLog.size
      cacheLog := c.cacheLog.size
      created := c.created.size }
  { c with scopes := mark :: c.scopes, registry := c.registry.push }

/-- Drops the definitions made after the first `count` ones. -/
def dropDefinitions (c : Context) (count : Nat) : Context :=
  { c with
    subst := (c.substLog.toList.drop count).foldl (fun m x => m.erase x) c.subst
    substLog := c.substLog.take count }

/-- Drops one entry of the caches. -/
def dropCached (c : Context) : Cached → Context
  | .literal t => { c with lits := c.lits.erase t }
  | .word t => { c with bits := c.bits.erase t }

/-- Drops the entries of the caches made after the first `count` ones. -/
def dropEncoded (c : Context) (count : Nat) : Context :=
  let c' := (c.cacheLog.toList.drop count).foldl dropCached c
  { c' with cacheLog := c.cacheLog.take count }

/-- Sweeps the variables that are not in `keep`. -/
def sweepVars (c : Context) (keep : Std.HashSet Nat) : Context :=
  match c.vars.sweep? keep with
  | none => c
  | some (swept, vars) => { c with vars, core := swept.foldl Core.releaseVar c.core }

/-- Drops the variables created after the first `count` ones, with the gate outputs among
their terms. -/
def dropVars (c : Context) (count : Nat) : Context :=
  let doomed : Std.HashSet Nat := .ofList (c.created.toList.drop count)
  let dead := (c.vars.toList.filter fun x => doomed.contains x.1).map (·.2)
  let keep := (c.vars.toList.filter fun x => !doomed.contains x.1).map (·.1)
  let aux := dead.foldl (fun aux t => aux.erase t) c.aux
  { c with aux, created := c.created.take count }.sweepVars (.ofList keep)

/-- Takes back what was done since `mark`, whose scope is closed already. -/
def restore (c : Context) (mark : Scope) : Context :=
  let c := { c with
    core := c.core.popScopes c.depth
    registry := (c.registry.backtrack 0).pop
    assertions := c.assertions.take mark.assertions }
  let c := (((c.dropDefinitions mark.substLog).dropEncoded mark.cacheLog).syncVars).dropVars
    mark.created
  { c with core := c.core.assignUnits.2 }

/-- Closes the innermost scope and takes back what was done in it. -/
def rollback (c : Context) : Context :=
  match c.scopes with
  | [] => c
  | mark :: scopes => { c with scopes }.restore mark

/-- Closes the innermost scope; what was done in it belongs to the scope around it. -/
def commit (c : Context) : Context :=
  match c.scopes with
  | [] => c
  | _ :: scopes =>
    { c with scopes, core := c.core.mergeScopes scopes.length, registry := c.registry.mergeScope }

/-- Opens a scope on request. A finished search is dropped. -/
def push (c : Context) : Except Failure Context :=
  if !c.config.mode.hasScopes then .error .operationNotSupported
  else
    match c.status with
    | .searching | .unsat | .interrupted => .error (.invalidOperation c.status)
    | .sat | .unknown => .ok { c.clearSearch with status := .idle }.openScope
    | .idle => .ok c.openScope

/-- Closes the innermost scope on request. -/
def pop (c : Context) : Except Failure Context :=
  if !c.config.mode.hasScopes then .error .operationNotSupported
  else if c.status = .searching || c.scopes.isEmpty then .error (.invalidOperation c.status)
  else .ok { c.rollback with status := .idle }

end Entail.Context
