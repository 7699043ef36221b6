import Entail.Session

/-!
# Terms and types in a session

Constructors and questions about terms answer signed numbers; minus one, or zero for a question of
yes or no, is the sentinel.
-/

namespace Entail.Session

/-- Runs a constructor of terms. -/
def term (op : Store.Op Term) : Op Int := run (-1) do return word (← Engine.build op).raw

/-- Runs a constructor of types. -/
def type (op : Store.Op Ty) : Op Int := run (-1) do return word (← Engine.build op).raw

/-- Runs an operation on the store that says nothing but whether it succeeds. -/
def change (op : Store.Op Unit) : Op Int := succeed (Engine.build op)

/-- Asks the store for a number. -/
def number (sentinel : Int) (f : Store → Except TermError Nat) : Op Int :=
  run sentinel do return word (← Engine.query f)

/-- Asks the store for a yes or no. -/
def yes (f : Store → Except TermError Bool) : Op Int := number 0 fun s => (f s).map (·.toNat)

/-- Type of a term. -/
def typeOf (t : Term) : Op Int := type (Store.read (·.typeOf t))

/-- Width of a bitvector. -/
def width (t : Term) : Op Int := number 0 (·.checkBv t)

/-- Number of the constructor of a term. -/
def constructor (t : Term) : Op Int := number (-1) fun s => (s.constructor t).map (·.number)

/-- Number of children of a term. -/
def numChildren (t : Term) : Op Int := number (-1) fun s => (s.children t).map (·.length)

/-- One child of a term. -/
def child (t : Term) (i : Nat) : Op Int := term (Store.read (·.child t i))

/-- Whether a term is boolean. -/
def isBool (t : Term) : Op Int := yes fun s => (s.typeOf t).map (· == .bool)

/-- Index of a projection. -/
def projectionIndex (t : Term) : Op Int := number (-1) (·.projectionIndex t)

/-- Truth value of a boolean constant. -/
def boolConst (t : Term) : Op (Option Bool) := run? (Engine.query (·.boolConstValue t))

/-- Value of a bitvector constant. -/
def bvConst (t : Term) : Op (Option Nat) := run? (Engine.query (·.bvConstValue t))

/-- Text of a term. -/
def termText (t : Term) (width : Nat) : Op (Option String) := do
  return (← run? (Engine.query fun s => (s.check t).map fun _ => (s.termDoc t).render width)).map
    text

/-- Text of a type. -/
def typeText (ty : Ty) (width : Nat) : Op (Option String) := do
  return (← run? (Engine.query fun s => (s.checkTy ty).map fun _ => (s.tyDoc ty).render width)).map
    text

/-- Reads something off the store that may be missing. -/
def find? {α : Type} (f : Store → Option α) : Op (Option α) :=
  run none (Engine.look fun e => f e.store)

/-- The term with a name. -/
def termByName (name : String) : Op Int := do
      return ((← find? (·.termNames.find? name)).map (word ·.raw)).getD (-1)

/-- The type with a name. -/
def typeByName (name : String) : Op Int := do
      return ((← find? (·.typeNames.find? name)).map (word ·.raw)).getD (-1)

/-- Name of a term. -/
def termName (t : Term) : Op (Option String) := do return (← find? (·.termNames.nameOf? t)).map text

/-- Name of a type. -/
def typeName (ty : Ty) : Op (Option String) := do return (← find? (·.typeNames.nameOf? ty)).map text

/-- Takes back the last giving of a term name. -/
def removeName (name : String) : Op Unit := do let _ ← run? (Engine.build (Store.removeName name))

/-- Takes back the last giving of a type name. -/
def removeTypeName (name : String) : Op Unit := do
      let _ ← run? (Engine.build (Store.removeTypeName name))

/-- Numbers of terms and of types; zero when no engine is running. -/
def sizes : Op (Nat × Nat) := run (0, 0) (Engine.look fun e => (e.store.numTerms, e.store.numTypes))

/-- Collects garbage. -/
def collect (roots : List Term) (tyRoots : List Ty) (keepNamed : Bool) : Op Unit := do
  let _ ← run? (Engine.collect roots tyRoots keepNamed)

end Entail.Session
