import Entail.Store.Subst

/-!
# Models

A model gives values to uninterpreted constants and finite tables to functions; outside its table a
function has a default value. Constants that were replaced by a definition get their value from it.
Every other term is evaluated from its parts.
-/

namespace Entail

/-- Value of a term. -/
inductive Value where
  | bool (b : Bool)
  | bv (width value : Nat)
  /-- Element number `index` of an uninterpreted sort. -/
  | abs (ty : Ty) (index : Nat)
deriving DecidableEq, Hashable, Inhabited

namespace Value

/-- Value of an application that is missing in the table of its function. -/
def default (s : Store) (ty : Ty) : Value :=
  match s.tyShape? ty with
  | some (.bitVector w) => .bv w 0
  | some .bool => .bool false
  | _ => .abs ty 0

end Value

/-- Rows of a function: arguments and value. -/
abbrev FunctionTable := Std.HashMap (List Value) Value

/-- Values of constants and functions, and definitions. -/
structure Model where
  values : Std.HashMap Term Value
  functions : Std.HashMap Term FunctionTable
  /-- Definitions of constants that were replaced. -/
  definitions : Subst

namespace Model

/-- The model that says nothing. -/
def empty : Model := ⟨∅, ∅, ∅⟩

instance : Inhabited Model := ⟨empty⟩

/-- Gives a value to a constant. -/
def setValue (m : Model) (t : Term) (v : Value) : Model := { m with values := m.values.insert t v }

/-- Sets one row of a function. -/
def setRow (m : Model) (f : Term) (args : List Value) (v : Value) : Model :=
  { m with functions := m.functions.insert f ((m.functions.getD f ∅).insert args v) }

/-- Terms that the model refers to, in no order. -/
def roots (m : Model) : List Term :=
  m.values.keys ++ m.functions.keys ++ m.definitions.toList.flatMap fun (x, v) => [x, v]

/-! ## Evaluation -/

/-- Evaluation that remembers the values of positive terms. -/
abbrev EvalOp := StateT (Std.HashMap Term Value) (Except Failure)

/-- Truth value of `t`, where `eval` evaluates terms. -/
def evalBool (eval : Term → EvalOp Value) (t : Term) : EvalOp Bool := do
  match ← eval t with
  | .bool b => return b
  | _ => throw (.evalFailed t)

/-- Word of `t`, where `eval` evaluates terms. -/
def evalBv (eval : Term → EvalOp Value) (t : Term) : EvalOp (Nat × Nat) := do
  match ← eval t with
  | .bv w v => return (w, v)
  | _ => throw (.evalFailed t)

/-- Whether some term of a list is true; terms after the first true one are not evaluated. -/
def evalAny (eval : Term → EvalOp Value) : List Term → EvalOp Bool
  | [] => return false
  | t :: rest => do if ← evalBool eval t then return true else evalAny eval rest

/-- Value of the positive term `p` from the values of its parts. -/
def evalNode (m : Model) (s : Store) (eval : Term → EvalOp Value) (p : Term) : EvalOp Value := do
  match s.shape? p with
  | none => throw (.term (.dangling p))
  | some .truth => return .bool true
  | some (.bvConst w v) => return .bv w v
  | some (.uninterpreted ..) =>
    match m.values[p]?, m.definitions[p]? with
    | some v, _ => return v
    | none, some d => eval d
    | none, none => throw (.evalUnknown p)
  | some (.var ..) => throw (.evalFreeVariable p)
  | some (.all ..) => throw (.evalQuantifier p)
  | some (.ite c a b) => if ← evalBool eval c then eval a else eval b
  | some (.eq a b) =>
    let va ← eval a
    let vb ← eval b
    return .bool (va == vb)
  | some (.or args) => return .bool (← evalAny eval args)
  | some (.xor a b) =>
    let va ← evalBool eval a
    let vb ← evalBool eval b
    return .bool (va != vb)
  | some (.app f args) =>
    let vs ← args.mapM eval
    return ((m.functions.getD f ∅)[vs]?).getD (.default s (s.ty p))
  | some (.bit x i) =>
    let (_, v) ← evalBv eval x
    return .bool (v.testBit i)
  | some (.bvGe a b) =>
    let (_, x) ← evalBv eval a
    let (_, y) ← evalBv eval b
    return .bool (x ≥ y)
  | some (.bvSge a b) =>
    let (w, x) ← evalBv eval a
    let (_, y) ← evalBv eval b
    return .bool (Bits.signed w x ≥ Bits.signed w y)
  | some (.bvNeg x) =>
    let (w, v) ← evalBv eval x
    return .bv w (Bits.neg w v)
  | some (.bvSum args) =>
    match s.width? p with
    | none => throw (.evalFailed p)
    | some w =>
      let vs ← args.mapM (evalBv eval)
      return .bv w (Bits.trunc w ((vs.map (·.2)).foldr (· + ·) 0))
  | some (.bvProduct args) =>
    match s.width? p with
    | none => throw (.evalFailed p)
    | some w =>
      let vs ← args.mapM (evalBv eval)
      return .bv w (vs.foldl (fun acc v => Bits.trunc w (acc * v.2)) (Bits.trunc w 1))

/-- Value of a literal occurrence of a term whose positive value is `v`. -/
def withPolarity (t : Term) (v : Value) : Except Failure Value :=
  if !t.isNegated then .ok v
  else
    match v with
    | .bool b => .ok (.bool !b)
    | _ => .error (.evalFailed t)

/-- Value of `t`. `depth` bounds its nesting, definitions included. -/
def evalAt (m : Model) (s : Store) : (depth : Nat) → Term → EvalOp Value
  | 0, t => throw (.evalFailed t)
  | depth + 1, t => do
    let p := t.positive
    match (← get)[p]? with
    | some v => withPolarity t v
    | none =>
      let v ← m.evalNode s (m.evalAt s depth) p
      modify (·.insert p v)
      withPolarity t v

/-- Value of a valid term. -/
def eval (m : Model) (s : Store) (t : Term) : Except Failure Value :=
  match s.check t with
  | .error e => .error (.term e)
  | .ok () => (m.evalAt s (s.terms.slots.size + 1) t).run' ∅

/-! ## Queries -/

/-- Truth value of a boolean term. -/
def boolValue (m : Model) (s : Store) (t : Term) : Except Failure Bool :=
  match s.checkBool t with
  | .error e => .error (.term e)
  | .ok () => do
    match ← m.eval s t with
    | .bool b => return b
    | _ => throw (.evalFailed t)

/-- Bits of a bitvector, the least significant first. -/
def bvValue (m : Model) (s : Store) (t : Term) : Except Failure (List Bool) :=
  match s.checkBv t with
  | .error e => .error (.term e)
  | .ok _ => do
    match ← m.eval s t with
    | .bv w v => return Bits.bits w v
    | _ => throw (.evalFailed t)

/-- Whether all formulas are true; formulas after the first false one are not looked at. -/
def allTrue (m : Model) (s : Store) : List Term → Except Failure Bool
  | [] => .ok true
  | t :: rest => do if ← m.boolValue s t then m.allTrue s rest else return false

end Model
end Entail
