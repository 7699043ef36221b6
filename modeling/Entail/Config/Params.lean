import Entail.Config.Toml
import Entail.Failure

/-!
# Parameters of a check

Numbers that steer one search. A record is valid when the restart threshold grows, activities decay
and instances are allowed; only valid records are searched with.
-/

namespace Entail

/-- Parameters of one check. -/
structure Params where
  /-- Conflicts before the first restart. -/
  restartThreshold : Nat := 50
  /-- By how much the threshold grows at a restart. -/
  restartFactor : Binary64 := ⟨0x3ff8000000000000⟩
  /-- By how much activities decay after a conflict. -/
  varDecay : Binary64 := ⟨0x3fee666666666666⟩
  /-- Instances that one final check may produce. -/
  maxInstances : Nat := 1000
  /-- Instances that one check may produce before it gives up. -/
  maxTotalInstances : Nat := 100000
deriving DecidableEq, Inhabited

namespace Params

/-- Reads a counter, which is below `2 ^ 32`. -/
def counter? (s : String) : Option Nat := Binary64.natBelow? (Nat.pow 2 32) s

/-- Refuses records that no search may run with. -/
def validate (p : Params) : Except Failure Unit := do
  if p.restartThreshold = 0 then
    throw (.invalidValue "restart-threshold" (toString p.restartThreshold))
  if !(p.restartFactor.toFloat >= 1.0) then
    throw (.invalidValue "restart-factor" p.restartFactor.toText)
  if !(p.varDecay.toFloat > 0.0 && p.varDecay.toFloat <= 1.0) then
    throw (.invalidValue "var-decay" p.varDecay.toText)
  if p.maxInstances = 0 then
    throw (.invalidValue "max-instances" (toString p.maxInstances))
  if p.maxTotalInstances = 0 then
    throw (.invalidValue "max-total-instances" (toString p.maxTotalInstances))

/-- The value of a text, or a refusal that names the parameter. -/
def orInvalid {α : Type} (name value : String) : Option α → Except Failure α
  | some a => .ok a
  | none => .error (.invalidValue name value)

/-- Writes one parameter, whatever the record becomes. -/
def write (p : Params) (name value : String) : Except Failure Params :=
  match name with
  | "restart-threshold" => do
    return { p with restartThreshold := ← orInvalid name value (counter? value) }
  | "restart-factor" => do
    return { p with restartFactor := ← orInvalid name value (Binary64.ofText? value) }
  | "var-decay" => do return { p with varDecay := ← orInvalid name value (Binary64.ofText? value) }
  | "max-instances" => do return { p with maxInstances := ← orInvalid name value (counter? value) }
  | "max-total-instances" => do
    return { p with maxTotalInstances := ← orInvalid name value (counter? value) }
  | _ => .error (.unknownParameter name)

/-- Sets one parameter by name; the record has to be valid afterwards. -/
def set (p : Params) (name value : String) : Except Failure Params := do
  let p ← p.write name value
  p.validate
  return p

/-- Counter of a parameter text; it has to be an integer below `2 ^ 32`. -/
def counterEntry (t : Toml.Table) (name : String) (byDefault : Nat) : Except Failure Nat :=
  match t.find? name with
  | none => .ok byDefault
  | some (.integer n) => if 0 ≤ n && n < Nat.pow 2 32 then .ok n.toNat else .error .malformedConfig
  | some _ => .error .malformedConfig

/-- Factor of a parameter text; it has to be a number. -/
def factorEntry (t : Toml.Table) (name : String) (byDefault : Binary64) : Except Failure Binary64 :=
  match t.find? name with
  | none => .ok byDefault
  | some (.float x) => .ok x
  | some (.integer n) => .ok (.ofInt n)
  | some _ => .error .malformedConfig

/-- Reads a valid record from a text; what the text does not say is as by default, and other entries
are ignored. -/
def ofText (s : String) : Except Failure Params :=
  match Toml.parse? s with
  | none => .error .malformedConfig
  | some t => do
    let d : Params := {}
    let p : Params :=
      { restartThreshold := ← counterEntry t "restart-threshold" d.restartThreshold
        restartFactor := ← factorEntry t "restart-factor" d.restartFactor
        varDecay := ← factorEntry t "var-decay" d.varDecay
        maxInstances := ← counterEntry t "max-instances" d.maxInstances
        maxTotalInstances := ← counterEntry t "max-total-instances" d.maxTotalInstances }
    p.validate
    return p

end Params
end Entail
