import Entail.Arena
import Entail.Failure
import Entail.Names

/-!
# The term store

The store keeps types and terms, each interned in an arena, with their names and reference counts.
Operations that may extend the store and may be refused run in `Store.Op`; a refusal keeps whatever
was stored before it. Read-only checks are plain functions into `Except`.
-/

namespace Entail

/-- Types, terms, their names and their reference counts. -/
structure Store where
  types : Arena Ty.Shape Unit
  /-- Serial number of the next uninterpreted type. -/
  typeSerial : Nat
  /-- Positive reference counts, by type. -/
  typeRefs : Std.HashMap Ty Nat
  /-- Positive terms, each with its type. -/
  terms : Arena Term.Shape Ty
  /-- Serial number of the next uninterpreted constant or variable. -/
  termSerial : Nat
  /-- Positive reference counts, by slot. -/
  termRefs : Std.HashMap Nat Nat
  termNames : Names Term
  typeNames : Names Ty

namespace Store

/-- Widest bitvector there is. -/
def maxWidth : Nat := 64

/-- Largest number of factors of a product. -/
def maxDegree : Nat := 1024

/-- The store that holds the boolean type and the truth constant only. Slot 0 of the terms is
never used. -/
def empty : Store where
  types := ((Arena.empty 0).intern .bool ()).2
  typeSerial := 0
  typeRefs := ∅
  terms := ((Arena.empty 1).intern .truth .bool).2
  termSerial := 0
  termRefs := ∅
  termNames := .empty
  typeNames := .empty

instance : Inhabited Store := ⟨empty⟩

/-- Operations on a store that may be refused. The store reached before a refusal is kept. -/
abbrev Op := EStateM TermError Store

/-- Runs a read-only check as an operation. -/
def read {α : Type} (f : Store → Except TermError α) : Op α := fun s =>
  match f s with
  | .ok a => .ok a s
  | .error e => .error e s

/-- Reads a part of the store. -/
def look {α : Type} (f : Store → α) : Op α := fun s => .ok (f s) s

/-! ## Types -/

/-- Shape of a live type. -/
def tyShape? (s : Store) (ty : Ty) : Option Ty.Shape := (s.types.get? ty.raw).map (·.1)

/-- Whether a type handle is live. -/
def isValidTy (s : Store) (ty : Ty) : Bool := s.types.isLive ty.raw

/-- Refuses a dead type handle. -/
def checkTy (s : Store) (ty : Ty) : Except TermError Unit :=
  if s.isValidTy ty then .ok () else .error (.invalidType ty)

/-- Width of a bitvector type. -/
def tyWidth? (s : Store) (ty : Ty) : Option Nat :=
  match s.tyShape? ty with
  | some (.bitVector w) => some w
  | _ => none

/-- Whether a type is an uninterpreted sort. -/
def isSort (s : Store) (ty : Ty) : Bool :=
  match s.tyShape? ty with
  | some (.uninterpreted _) => true
  | _ => false

/-- Whether a type is a function type. -/
def isFunctionTy (s : Store) (ty : Ty) : Bool :=
  match s.tyShape? ty with
  | some (.function ..) => true
  | _ => false

/-- Number of live types. -/
def numTypes (s : Store) : Nat := s.types.inUse

/-- The type of a given shape, stored if it is new. -/
def internTy (shape : Ty.Shape) : Op Ty := fun s =>
  let (i, types) := s.types.intern shape ()
  .ok ⟨i⟩ { s with types }

/-- The type of bitvectors of a given width, which is between 1 and `maxWidth`. -/
def bvType (width : Nat) : Op Ty :=
  if width = 0 then throw (.positiveRequired 0)
  else if width > maxWidth then throw (.widthTooLarge width)
  else internTy (.bitVector width)

/-- A new uninterpreted sort. -/
def newSort : Op Ty := do
  let serial ← modifyGet fun s => (s.typeSerial, { s with typeSerial := s.typeSerial + 1 })
  internTy (.uninterpreted serial)

/-- The type of functions with at least one argument. -/
def functionType (domain : List Ty) (range : Ty) : Op Ty :=
  if domain.isEmpty then throw (.positiveRequired 0)
  else do
    read fun s => (domain ++ [range]).forM s.checkTy
    internTy (.function domain range)

/-! ## Terms -/

/-- Shape and type of the positive term in the slot of a live handle. -/
def node? (s : Store) (t : Term) : Option (Term.Shape × Ty) := s.terms.get? t.index

/-- Shape of the positive term in the slot of a live handle. -/
def shape? (s : Store) (t : Term) : Option Term.Shape := (s.node? t).map (·.1)

/-- Shape of the positive term of a handle; a dead handle has no parts. -/
def shape (s : Store) (t : Term) : Term.Shape := (s.shape? t).getD .truth

/-- Type of a live term; a dead handle counts as boolean. -/
def ty (s : Store) (t : Term) : Ty := ((s.node? t).map (·.2)).getD .bool

/-- Number of live terms, the truth constant included. -/
def numTerms (s : Store) : Nat := s.terms.inUse - 1

/-- A handle is valid when its slot is filled and it is positive or boolean. -/
def isValid (s : Store) (t : Term) : Bool :=
  match s.node? t with
  | some (_, ty) => !t.isNegated || ty == .bool
  | none => false

/-- Refuses an invalid handle. -/
def check (s : Store) (t : Term) : Except TermError Unit :=
  if s.isValid t then .ok () else .error (.invalidTerm t)

/-- Type of a valid term. -/
def typeOf (s : Store) (t : Term) : Except TermError Ty := do
  s.check t
  return s.ty t

/-- Refuses terms that are not boolean. -/
def checkBool (s : Store) (t : Term) : Except TermError Unit := do
  if (← s.typeOf t) ≠ .bool then throw (.typeMismatch t .bool)

/-- Width of a term, if it is a bitvector. -/
def width? (s : Store) (t : Term) : Option Nat := s.tyWidth? (s.ty t)

/-- Width of a bitvector; other terms are refused. -/
def checkBv (s : Store) (t : Term) : Except TermError Nat := do
  match s.tyWidth? (← s.typeOf t) with
  | some w => return w
  | none => throw (.bitvectorRequired t)

/-- Common width of two bitvectors. -/
def checkSameWidth (s : Store) (a b : Term) : Except TermError Nat := do
  let wa ← s.checkBv a
  let wb ← s.checkBv b
  if wa ≠ wb then throw (.incompatibleWidths a (s.ty a) b (s.ty b))
  return wa

/-- Common type of two terms. -/
def checkSameType (s : Store) (a b : Term) : Except TermError Ty := do
  let ta ← s.typeOf a
  let tb ← s.typeOf b
  if ta ≠ tb then throw (.incompatibleTypes a ta b tb)
  return ta

/-- Common width of at least one bitvector; each one is compared with the first. -/
def checkBvArgs (s : Store) : List Term → Except TermError Nat
  | [] => .error (.positiveRequired 0)
  | first :: rest => do
    let w ← s.checkBv first
    rest.forM fun t => do let _ ← s.checkSameWidth first t
    return w

/-- Value of a bitvector constant. -/
def constValue? (s : Store) (t : Term) : Option Nat :=
  match s.shape t with
  | .bvConst _ v => some v
  | _ => none

/-- The positive term of a given shape, stored with its type if it is new. -/
def intern (shape : Term.Shape) (ty : Ty) : Op Term := fun s =>
  let (i, terms) := s.terms.intern shape ty
  .ok (.ofIndex i) { s with terms }

/-- The positive term of a given shape, if it is stored. -/
def find? (s : Store) (shape : Term.Shape) : Option Term := (s.terms.find? shape).map .ofIndex

/-- A serial number that no constant or variable has had before. -/
def freshSerial : Op Nat := modifyGet fun s =>
      (s.termSerial, { s with termSerial := s.termSerial + 1 })

/-! ## Reference counts and names -/

/-- Adds one reference to a valid term. -/
def incref (t : Term) : Op Unit := do
  read (·.check t)
  modify fun s => { s with termRefs := s.termRefs.insert t.index (s.termRefs.getD t.index 0 + 1) }

/-- Takes one reference from a valid term that has any. -/
def decref (t : Term) : Op Unit := do
  read (·.check t)
  match ← look (·.termRefs.getD t.index 0) with
  | 0 => throw (.unreferencedTerm t)
  | 1 => modify fun s => { s with termRefs := s.termRefs.erase t.index }
  | n + 2 => modify fun s => { s with termRefs := s.termRefs.insert t.index (n + 1) }

/-- Number of references to a term. -/
def refcount (s : Store) (t : Term) : Nat := s.termRefs.getD t.index 0

/-- Adds one reference to a live type. -/
def increfTy (ty : Ty) : Op Unit := do
  read (·.checkTy ty)
  modify fun s => { s with typeRefs := s.typeRefs.insert ty (s.typeRefs.getD ty 0 + 1) }

/-- Takes one reference from a live type that has any. -/
def decrefTy (ty : Ty) : Op Unit := do
  read (·.checkTy ty)
  match ← look (·.typeRefs.getD ty 0) with
  | 0 => throw (.unreferencedType ty)
  | 1 => modify fun s => { s with typeRefs := s.typeRefs.erase ty }
  | n + 2 => modify fun s => { s with typeRefs := s.typeRefs.insert ty (n + 1) }

/-- Number of references to a type. -/
def refcountTy (s : Store) (ty : Ty) : Nat := s.typeRefs.getD ty 0

/-- Gives a name to a valid term. -/
def setName (t : Term) (name : String) : Op Unit := do
  read (·.check t)
  modify fun s => { s with termNames := s.termNames.give name t }

/-- Drops the base name of a valid term. -/
def clearName (t : Term) : Op Unit := do
  read (·.check t)
  modify fun s => { s with termNames := s.termNames.clear t }

/-- Takes back the last giving of a term name. -/
def removeName (name : String) : Op (Option Term) :=
  modifyGet fun s => let (t, termNames) := s.termNames.remove name; (t, { s with termNames })

/-- Gives a name to a live type. -/
def setTypeName (ty : Ty) (name : String) : Op Unit := do
  read (·.checkTy ty)
  modify fun s => { s with typeNames := s.typeNames.give name ty }

/-- Drops the base name of a live type. -/
def clearTypeName (ty : Ty) : Op Unit := do
  read (·.checkTy ty)
  modify fun s => { s with typeNames := s.typeNames.clear ty }

/-- Takes back the last giving of a type name. -/
def removeTypeName (name : String) : Op (Option Ty) :=
  modifyGet fun s => let (ty, typeNames) := s.typeNames.remove name; (ty, { s with typeNames })

end Store
end Entail
