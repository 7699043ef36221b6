import Entail.Config.Toml
import Entail.Failure

/-!
# Configuration of a context

What a context allows (its mode) and how it simplifies assertions (its options). Entries are set one
by one by name, or read from a text.
-/

namespace Entail

/-- How a context may be used. -/
inductive Mode where
  /-- One check and no assertion after it; no scopes. -/
  | oneShot
  /-- Assertions may follow a check; no scopes. -/
  | multiChecks
  /-- Assertions may follow a check and scopes may be opened. -/
  | pushPop
  /-- As `pushPop`, and an interrupted check leaves no trace. -/
  | interactive
deriving DecidableEq, Inhabited

namespace Mode

/-- Every mode. -/
def all : List Mode := [.oneShot, .multiChecks, .pushPop, .interactive]

/-- Published name of a mode. -/
def name : Mode → String
  | .oneShot => "one-shot"
  | .multiChecks => "multi-checks"
  | .pushPop => "push-pop"
  | .interactive => "interactive"

/-- Name of a mode inside the description of a context. -/
def title : Mode → String
  | .oneShot => "OneShot"
  | .multiChecks => "MultiChecks"
  | .pushPop => "PushPop"
  | .interactive => "Interactive"

/-- The mode with a given name. -/
def ofName? (s : String) : Option Mode := all.find? fun m => m.name = s

/-- Whether scopes may be opened. -/
def hasScopes : Mode → Bool
  | .pushPop | .interactive => true
  | _ => false

/-- Whether assertions may follow a check. -/
def hasManyChecks : Mode → Bool
  | .oneShot => false
  | _ => true

end Mode

/-- Simplifications of asserted formulas. -/
inductive Simplification where
  /-- A definition `x = t` removes `x` from all other formulas. -/
  | varElim
  /-- An equation between bitvector sums is solved for a summand. -/
  | bvArithElim
  /-- Conjunctions are split and nested disjunctions are joined. -/
  | flatten
deriving DecidableEq

namespace Simplification

/-- Every simplification. -/
def all : List Simplification := [.varElim, .bvArithElim, .flatten]

/-- Published name of a simplification. -/
def name : Simplification → String
  | .varElim => "var-elim"
  | .bvArithElim => "bvarith-elim"
  | .flatten => "flatten"

/-- The simplification with a given name; any other name is refused. -/
def ofName (s : String) : Except Failure Simplification :=
  match all.find? fun x => x.name = s with
  | some x => .ok x
  | none => .error (.unknownParameter s)

/-- The bit that stands for a simplification in a set of them. -/
def bit (x : Simplification) : Nat := Nat.pow 2 x.ctorIdx

end Simplification

/-- The simplifications that are switched on. -/
structure Options where
  varElim : Bool := true
  bvArithElim : Bool := true
  flatten : Bool := true
deriving DecidableEq, Inhabited

namespace Options

/-- Switches one simplification on or off. -/
def set (o : Options) (x : Simplification) (on : Bool) : Options :=
  match x with
  | .varElim => { o with varElim := on }
  | .bvArithElim => { o with bvArithElim := on }
  | .flatten => { o with flatten := on }

/-- Whether one simplification is on. -/
def isOn (o : Options) : Simplification → Bool
  | .varElim => o.varElim
  | .bvArithElim => o.bvArithElim
  | .flatten => o.flatten

/-- The set of simplifications as a number. -/
def bits (o : Options) : Nat :=
  ((Simplification.all.filter o.isOn).map Simplification.bit).foldr (· + ·) 0

end Options

/-- Configuration of a context. -/
structure Config where
  mode : Mode := .pushPop
  options : Options := {}
deriving DecidableEq, Inhabited

namespace Config

/-- Reads a switch. -/
def switch (name value : String) : Except Failure Bool :=
  if ["true", "1", "on", "yes"].contains value then .ok true
  else if ["false", "0", "off", "no"].contains value then .ok false
  else .error (.invalidValue name value)

/-- Sets one entry by name. -/
def set (c : Config) (name value : String) : Except Failure Config :=
  if name = "mode" then
    match Mode.ofName? value with
    | some mode => .ok { c with mode }
    | none => .error (.invalidValue name value)
  else do
    let x ← Simplification.ofName name
    return { c with options := c.options.set x (← switch name value) }

/-- Switch of a configuration text; a value of another sort is refused. -/
def switchEntry (t : Toml.Table) (x : Simplification) (o : Options) : Except Failure Options :=
  match t.find? x.name with
  | none => .ok o
  | some (.bool b) => .ok (o.set x b)
  | some _ => .error .malformedConfig

/-- Mode of a configuration text; a value of another sort is refused. -/
def modeEntry (t : Toml.Table) : Except Failure Mode :=
  match t.find? "mode" with
  | none => .ok .pushPop
  | some (.string s) =>
    match Mode.ofName? s with
    | some m => .ok m
    | none => .error .malformedConfig
  | some _ => .error .malformedConfig

/-- Reads a configuration from a text; what the text does not say is as by default, and other
entries are ignored. -/
def ofText (s : String) : Except Failure Config :=
  match Toml.parse? s with
  | none => .error .malformedConfig
  | some t => do
    let mode ← modeEntry t
    let options ← Simplification.all.foldlM (fun o x => switchEntry t x o) {}
    return { mode, options }

end Config
end Entail
