import Entail.Context.Simplify
import Entail.Context.Validate

/-!
# Asserting

Formulas are checked before anything is changed, and then simplified and encoded one
after the other.
-/

namespace Entail

namespace Context

/-- Refuses assertions when the status or the mode does not allow them. -/
def checkAssertAllowed (c : Context) : Except Failure Unit :=
  match c.status with
  | .searching | .interrupted => .error (.invalidOperation c.status)
  | .sat | .unknown => if c.config.mode.hasManyChecks then .ok () else .error .operationNotSupported
  | .idle | .unsat => .ok ()

/-- Drops a finished search. -/
def reopen (c : Context) : Context :=
  if c.status.hasModel then { c.clearSearch with status := .idle } else c

/-- Sets the status after new clauses. -/
def settle (c : Context) : Context :=
  let c := c.syncVars
  { c with status := if c.core.hasRootConflict then .unsat else .idle }

/-- Notes an assertion. -/
def note (t : Term) (c : Context) : Context := { c with assertions := c.assertions.push t }

end Context

namespace Work

/-- Asserts formulas. An unsatisfiable context ignores them. -/
def assertAll (ts : List Term) : Work Unit := do
  check fun _ c => c.checkAssertAllowed
  check fun s c => ts.forM (c.validate s)
  if (← look fun _ c => c.status) = .unsat then return
  change (·.reopen)
  ts.forM fun t => do
    change (·.note t)
    process t
  change (·.settle)

/-- Asserts one formula. -/
def assert (t : Term) : Work Unit := assertAll [t]

/-- Refuses formulas that are not universally quantified. -/
def checkQuantified (t : Term) : Work Unit := do
  if t.isNegated || !(← shape t).isQuantifier then throw (.notSupported t)

/-- Asserts a universally quantified formula with patterns for its instances. -/
def assertQuantifier (formula : Term) (patterns : List Term) : Work Unit := do
  check fun _ c => c.checkAssertAllowed
  check fun s c => c.validate s formula
  checkQuantified formula
  if (← look fun _ c => c.status) = .unsat then return
  change (·.reopen)
  let σ ← look fun _ c => c.subst
  let t ← onStore (Store.subst σ formula)
  if t.isNegated || !(← shape t).isQuantifier then
    -- The definitions left nothing to instantiate.
    change (·.note formula)
    process t
  else
    let patterns ← onStore (patterns.mapM (Store.subst σ))
    addConstraint t patterns
    change (·.note formula)
  change (·.settle)

end Work
end Entail
