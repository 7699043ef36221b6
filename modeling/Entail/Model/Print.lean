import Entail.Model
import Entail.Store.Print

/-!
# Printing models

One line for every named constant that has a value, in the order of the names, then one for the
table of every named function.
-/

namespace Entail

open Doc

/-- Document of a value. -/
def Value.doc (s : Store) : Value → Doc
  | .bool b => constant (if b then "true" else "false")
  | .bv w v => constant (Bits.literal w v)
  | .abs ty i =>
    let sort := (s.typeNames.nameOf? ty).getD s!"tau!{ty.raw}"
    constant s!"@{sort}!{i}"

namespace Model

/-- Documents in the order of their keys; equal keys stay as they are. -/
def byKey (ds : List (String × Doc)) : List Doc := (ds.mergeSort fun a b => a.1 ≤ b.1).map (·.2)

/-- The line `(= t v)`, under the name of `t` if it has one. -/
def line? (s : Store) (t : Term) (v : Value) : Option (String × Doc) :=
  (s.termNames.nameOf? t).map fun name => (name, sexp (op "=") [s.termDoc t, v.doc s] 0)

/-- Lines of constants that have a value in the model. -/
def valueLines (m : Model) (s : Store) : List (String × Doc) :=
  m.values.toList.filterMap fun (t, v) => line? s t v

/-- Lines of constants that get their value from a definition. -/
def definitionLines (m : Model) (s : Store) : List (String × Doc) :=
  m.definitions.keys.filterMap fun x =>
    if m.values.contains x then none
    else
      match m.eval s x with
      | .ok v => line? s x v
      | .error _ => none

/-- The row `(= (f v₁ …) v)` of a function, under its text on one line. -/
def row (s : Store) (f : Term) (args : List Value) (v : Value) : String × Doc :=
  let call := sexp (s.termDoc f) (args.map (Value.doc s)) 1
  let d := sexp (op "=") [call, v.doc s] 1
  (d.render (Nat.pow 2 64 - 1), d)

/-- The table of a function, under its name if it has one. -/
def functionLine? (s : Store) (f : Term) (table : FunctionTable) : Option (String × Doc) :=
  (s.termNames.nameOf? f).map fun name =>
    (name, sexp (op "function") (s.termDoc f :: byKey (table.toList.map fun (args, v) =>
      row s f args v)) 0)

/-- Document of a model. -/
def doc (m : Model) (s : Store) : Doc :=
  let constants := byKey (m.valueLines s ++ m.definitionLines s)
  let functions := byKey (m.functions.toList.filterMap fun (f, table) => functionLine? s f table)
  lines (constants ++ functions)

/-- Text of a model. -/
def text (m : Model) (s : Store) (width : Nat) : String := (m.doc s).render width

/-- Writes the model, coloured and with an end of line, piece by piece into a sink; a sink that
fails says why. -/
def printTo {σ : Type} (m : Model) (s : Store) (width : Nat) (write : σ → String → Except String σ)
    (sink : σ) :
    Except Failure σ :=
  let pieces := ((m.doc s).layout width).map (·.toColoured) ++ ["\n"]
  (pieces.foldlM write sink).mapError Failure.output

end Model
end Entail
