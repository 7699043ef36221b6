import Entail.Store.Basic

/-!
# Looking into terms

Classification of terms, their children, and the list of everything a term is made of. The child
relation of a store has no cycles, so a walk along children is never deeper than the number of
slots; that number is the bound of the walks here.
-/

namespace Entail.Store

/-- Coarse class of a valid term. -/
def kind (s : Store) (t : Term) : Except TermError Term.Kind := do
  s.check t
  return (s.shape t).kind

/-- Fine class of a valid term; a negated term is a negation whatever its slot holds. -/
def constructor (s : Store) (t : Term) : Except TermError Term.Constructor := do
  s.check t
  return if t.isNegated then .not else (s.shape t).constructor

/-- Direct subterms of a valid term; a negation has its positive term as only child. -/
def children (s : Store) (t : Term) : Except TermError (List Term) := do
  s.check t
  return if t.isNegated then [t.positive] else (s.shape t).children

/-- The child number `i`, counted from zero. -/
def child (s : Store) (t : Term) (i : Nat) : Except TermError Term := do
  match (← s.children t)[i]? with
  | some c => return c
  | none => throw (.notApplicable t)

/-- Whether a term is a constant, an uninterpreted constant or a variable. -/
def isAtomic (s : Store) (t : Term) : Except TermError Bool := do
  let k ← s.kind t
  return !t.isNegated && (k == .constant || k == .uninterpreted || k == .var)

/-- Whether a term is a negation or built by a logical constructor. -/
def isComposite (s : Store) (t : Term) : Except TermError Bool := do
  let k ← s.kind t
  return t.isNegated || k == .composite

/-- Whether a term is a positive selection of one bit. -/
def isProjection (s : Store) (t : Term) : Except TermError Bool :=
  if t.isNegated then .ok false else do return (← s.kind t) == .projection

/-- Whether a term is a sum. -/
def isSum (s : Store) (t : Term) : Except TermError Bool := do return (← s.kind t) == .sum

/-- Whether a term is a product. -/
def isProduct (s : Store) (t : Term) : Except TermError Bool := do return (← s.kind t) == .product

/-- Truth value of a boolean constant. -/
def boolConstValue (s : Store) (t : Term) : Except TermError Bool := do
  s.check t
  match s.shape t with
  | .truth => return !t.isNegated
  | _ => throw (.notApplicable t)

/-- Value of a bitvector constant. -/
def bvConstValue (s : Store) (t : Term) : Except TermError Nat := do
  s.check t
  match s.constValue? t with
  | some v => return v
  | none => throw (.notApplicable t)

/-- Index of the bit that a positive projection selects. -/
def projectionIndex (s : Store) (t : Term) : Except TermError Nat := do
  s.check t
  match s.shape t with
  | .bit _ i => if t.isNegated then throw (.notApplicable t) else return i
  | _ => throw (.notApplicable t)

/-! ## Walks -/

/-- What a walk has met so far. -/
structure Walk where
  /-- Positive terms that were entered. -/
  seen : Std.HashSet Term
  /-- Positive terms that were left, in that order: children come before their parents. -/
  order : Array Term

/-- Enters the positive term of `t` unless it was entered before, and walks its children from the
last to the first. `depth` bounds the nesting. -/
def walk (s : Store) : (depth : Nat) → Term → Walk → Walk
  | 0, _, w => w
  | depth + 1, t, w =>
    let p := t.positive
    if w.seen.contains p then w
    else
      let w := (s.shape p).children.foldr (s.walk depth) { w with seen := w.seen.insert p }
      { w with order := w.order.push p }

/-- Everything reachable from `roots` along children. -/
def walkAll (s : Store) (roots : List Term) : Walk :=
  roots.foldl (fun w t => s.walk s.terms.slots.size t w) ⟨∅, #[]⟩

/-- Every distinct positive subterm of `t`, itself included, children first. -/
def subterms (s : Store) (t : Term) : List Term := (s.walkAll [t]).order.toList

/-- Whether the positive term of `x` is a subterm of `t`. -/
def occurs (s : Store) (x t : Term) : Bool := (s.walkAll [t]).seen.contains x.positive

/-- Whether no variable is a subterm of `t`. -/
def isGround (s : Store) (t : Term) : Bool := (s.subterms t).all fun u => !(s.shape u).isVariable

end Entail.Store
