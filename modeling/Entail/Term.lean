/-!
# Handles and shapes of types and terms

A type or a term is named by a number, its *handle*. What a handle stands for is its *shape*: the
outermost constructor over the handles of the parts. Boolean terms carry a polarity in bit 0 of the
handle, so negation is a change of handle and needs no shape of its own.
-/

namespace Entail

/-- Handle of a type. -/
structure Ty where
  raw : Nat
deriving DecidableEq, Hashable, Inhabited

namespace Ty

/-- The type of truth values, always present. -/
def bool : Ty := ⟨0⟩

/-- How a type handle reads inside a message. -/
def text (ty : Ty) : String := s!"TypeId({ty.raw})"

/-- What a type is made of. -/
inductive Shape where
  | bool
  | bitVector (width : Nat)
  | uninterpreted (serial : Nat)
  | function (domain : List Ty) (range : Ty)
deriving DecidableEq, Hashable, Inhabited

/-- The four sorts of types. -/
inductive Kind where
  | bool
  | bitVector
  | uninterpreted
  | function
deriving DecidableEq

/-- Published name of a kind. -/
def Kind.name : Kind → String
  | .bool => "Bool"
  | .bitVector => "BitVector"
  | .uninterpreted => "Uninterpreted"
  | .function => "Function"

namespace Shape

/-- The kind of a shape forgets its parts. -/
def kind : Shape → Kind
  | .bool => .bool
  | .bitVector _ => .bitVector
  | .uninterpreted _ => .uninterpreted
  | .function _ _ => .function

/-- Types that a shape mentions. -/
def parts : Shape → List Ty
  | .function domain range => domain ++ [range]
  | _ => []

end Shape
end Ty

/-- Handle of a term: twice the slot number, plus one when negated. -/
structure Term where
  raw : Nat
deriving DecidableEq, Hashable, Inhabited

namespace Term

/-- The truth constant, always present in slot 1. -/
def top : Term := ⟨2⟩

/-- The negation of `Term.top`. -/
def bot : Term := ⟨3⟩

/-- The positive term in slot `i`. -/
def ofIndex (i : Nat) : Term := ⟨2 * i⟩

/-- The slot that a term lives in; both polarities share it. -/
def index (t : Term) : Nat := t.raw / 2

/-- Whether the handle carries the negative polarity. -/
def isNegated (t : Term) : Bool := t.raw % 2 == 1

/-- The term in the same slot with positive polarity. -/
def positive (t : Term) : Term := ⟨2 * (t.raw / 2)⟩

/-- The term with the opposite polarity. -/
def neg (t : Term) : Term := if t.isNegated then ⟨t.raw - 1⟩ else ⟨t.raw + 1⟩

/-- Flips the polarity exactly when `flip` holds. -/
def negIf (flip : Bool) (t : Term) : Term := if flip then t.neg else t

/-- Total order by handle, in which a term stands right before its negation. -/
def le (a b : Term) : Bool := a.raw ≤ b.raw

/-- Terms in increasing order of handle. -/
def sort (ts : List Term) : List Term := ts.mergeSort Term.le

/-- How a term handle reads inside a message. -/
def text (t : Term) : String := s!"Term({t.raw})"

/-- What a positive term is made of. -/
inductive Shape where
  | truth
  | bvConst (width value : Nat)
  | uninterpreted (ty : Ty) (serial : Nat)
  /-- A variable, only meaningful below a quantifier that binds it. -/
  | var (ty : Ty) (serial : Nat)
  | ite (c a b : Term)
  | eq (a b : Term)
  | or (args : List Term)
  | xor (a b : Term)
  | app (f : Term) (args : List Term)
  | all (vars : List Term) (body : Term)
  | bit (x : Term) (i : Nat)
  | bvGe (a b : Term)
  | bvSge (a b : Term)
  | bvNeg (x : Term)
  | bvSum (args : List Term)
  | bvProduct (args : List Term)
deriving DecidableEq, Hashable, Inhabited

/-- Coarse classification of terms. -/
inductive Kind where
  | constant
  | uninterpreted
  | var
  | composite
  | projection
  | sum
  | product
deriving DecidableEq

/-- Published name of a kind. -/
def Kind.name : Kind → String
  | .constant => "Constant"
  | .uninterpreted => "Uninterpreted"
  | .var => "Variable"
  | .composite => "Composite"
  | .projection => "Projection"
  | .sum => "Sum"
  | .product => "Product"

/-- Fine classification of terms, in the order of their published numbers. -/
inductive Constructor where
  | boolConstant
  | bvConstant
  | uninterpreted
  | var
  | not
  | ite
  | eq
  | or
  | xor
  | app
  | all
  | bit
  | bvGe
  | bvSge
  | bvNeg
  | bvSum
  | bvProduct
deriving DecidableEq

namespace Constructor

/-- Every constructor, at the place of its number. -/
def numbered : List Constructor :=
  [.boolConstant, .bvConstant, .uninterpreted, .var, .not, .ite, .eq, .or, .xor, .app, .all,
    .bit, .bvGe,
    .bvSge, .bvNeg, .bvSum, .bvProduct]

/-- Published number of a constructor. -/
def number (c : Constructor) : Nat := c.ctorIdx

/-- The constructor with a given number. -/
def ofNumber? (n : Nat) : Option Constructor := numbered[n]?

/-- Published name of a constructor. -/
def name : Constructor → String
  | .boolConstant => "BoolConstant"
  | .bvConstant => "BvConstant"
  | .uninterpreted => "Uninterpreted"
  | .var => "Variable"
  | .not => "Not"
  | .ite => "Ite"
  | .eq => "Eq"
  | .or => "Or"
  | .xor => "Xor"
  | .app => "App"
  | .all => "Forall"
  | .bit => "BitSelect"
  | .bvGe => "BvGe"
  | .bvSge => "BvSge"
  | .bvNeg => "BvNeg"
  | .bvSum => "BvSum"
  | .bvProduct => "BvProduct"

theorem ofNumber?_number (c : Constructor) : ofNumber? c.number = some c := by cases c <;> rfl

end Constructor

namespace Shape

/-- Coarse class of a shape. -/
def kind : Shape → Kind
  | .truth | .bvConst .. => .constant
  | .uninterpreted .. => .uninterpreted
  | .var .. => .var
  | .bit .. => .projection
  | .bvSum _ => .sum
  | .bvProduct _ => .product
  | _ => .composite

/-- Fine class of a shape. -/
def constructor : Shape → Constructor
  | .truth => .boolConstant
  | .bvConst .. => .bvConstant
  | .uninterpreted .. => .uninterpreted
  | .var .. => .var
  | .ite .. => .ite
  | .eq .. => .eq
  | .or _ => .or
  | .xor .. => .xor
  | .app .. => .app
  | .all .. => .all
  | .bit .. => .bit
  | .bvGe .. => .bvGe
  | .bvSge .. => .bvSge
  | .bvNeg _ => .bvNeg
  | .bvSum _ => .bvSum
  | .bvProduct _ => .bvProduct

/-- Direct subterms, in a fixed order: the head of an application comes first, the body of a
quantifier last. -/
def children : Shape → List Term
  | .truth | .bvConst .. | .uninterpreted .. | .var .. => []
  | .ite c a b => [c, a, b]
  | .eq a b | .xor a b | .bvGe a b | .bvSge a b => [a, b]
  | .or args | .bvSum args | .bvProduct args => args
  | .app f args => f :: args
  | .all vars body => vars ++ [body]
  | .bit x _ | .bvNeg x => [x]

/-- Whether the shape is an uninterpreted constant. -/
def isUninterpreted : Shape → Bool
  | .uninterpreted .. => true
  | _ => false

/-- Whether the shape is a variable. -/
def isVariable : Shape → Bool
  | .var .. => true
  | _ => false

/-- Whether the shape is an if-then-else. -/
def isIte : Shape → Bool
  | .ite .. => true
  | _ => false

/-- Whether the shape is a universal quantifier. -/
def isQuantifier : Shape → Bool
  | .all .. => true
  | _ => false

end Shape

/-! ## Polarity -/

@[simp] theorem index_neg (t : Term) : t.neg.index = t.index := by
  unfold neg index isNegated
  split <;> simp_all <;> omega

@[simp] theorem neg_neg (t : Term) : t.neg.neg = t := by
  cases t with
  | mk r =>
    simp only [neg, isNegated, beq_iff_eq]
    split
    · have h : ¬ (r - 1) % 2 = 1 := by omega
      simp only [h, if_false, mk.injEq]
      omega
    · have h : (r + 1) % 2 = 1 := by omega
      simp [h]

@[simp] theorem isNegated_neg (t : Term) : t.neg.isNegated = !t.isNegated := by
  cases h : t.isNegated <;> simp [neg, h] <;> simp [isNegated] at h ⊢ <;> omega

@[simp] theorem index_positive (t : Term) : t.positive.index = t.index := by simp [positive, index]

@[simp] theorem isNegated_positive (t : Term) : t.positive.isNegated = false := by
  simp [positive, isNegated]

@[simp] theorem isNegated_ofIndex (i : Nat) : (ofIndex i).isNegated = false := by
  simp [ofIndex, isNegated]

@[simp] theorem index_ofIndex (i : Nat) : (ofIndex i).index = i := by simp [ofIndex, index]

theorem positive_of_not_isNegated {t : Term} (h : t.isNegated = false) : t.positive = t := by
  cases t with
  | mk r =>
    simp only [isNegated, beq_eq_false_iff_ne] at h
    simp only [positive, mk.injEq]
    omega

theorem neg_positive {t : Term} (h : t.isNegated = true) : t.positive.neg = t := by
  cases t with
  | mk r =>
    simp only [isNegated, beq_iff_eq] at h
    have h' : ¬ 2 * (r / 2) % 2 = 1 := by omega
    simp only [neg, positive, isNegated, beq_iff_eq, h', if_false, mk.injEq]
    omega

@[simp] theorem positive_neg (t : Term) : t.neg.positive = t.positive := by
  have h := index_neg t
  simp only [index] at h
  simp [positive, h]

end Term
end Entail
