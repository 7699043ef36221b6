import Entail.Context.Gates

/-!
# Encoding of terms

Every boolean term gets a literal and every bitvector a word of literals, with clauses that tie them
to the literals of their parts. Equalities of uninterpreted sorts and boolean applications get their
meaning from the e-graph. What was encoded is remembered, so a term that is shared is encoded once.
-/

namespace Entail

/-- How the parts of a term are encoded. -/
structure Encoder where
  /-- Literal of a boolean term. -/
  lit : Term → Work Literal
  /-- Word of a bitvector. -/
  word : Term → Work (List Literal)

namespace Encoder

open Work

/-- Literal of `ite c (x = z) (y = z)`. -/
def lifted (e : Encoder) (c x y z : Term) : Work Literal := do
  let eqX ← onStore (Store.eq x z)
  let eqY ← onStore (Store.eq y z)
  let t ← onStore (Store.ite c eqX eqY)
  e.lit t

/-- Literal of the equality `p` of `a` and `b`. Words are compared bit by bit. Between terms of an
uninterpreted sort an if-then-else is lifted out of the equality, and what is left is an atom of
the e-graph. -/
def equality (e : Encoder) (p a b : Term) : Work Literal := do
  if (← look fun s _ => s.width? a).isSome then
    let x ← e.word a
    let y ← e.word b
    equalGate x y
  else if !(← look fun s _ => s.isSort (s.ty a)) then throw (.notSupported p)
  else
    match ← shape a, ← shape b with
    | .ite c x y, _ => e.lifted c x y b
    | _, .ite c x y => e.lifted c x y a
    | _, _ =>
      let l ← atom p
      onEgraph fun s => Egraph.addEq s l.var a b
      return l

/-- Literal of a positive boolean term. -/
def boolean (e : Encoder) (p : Term) : Work Literal := do
  match ← shape p with
  | .truth => trueLit
  | .uninterpreted .. => atom p
  | .app .. =>
    let l ← atom p
    onEgraph fun s => Egraph.addPred s l.var p
    return l
  | .eq a b => e.equality p a b
  | .or args =>
    let lits ← args.mapM e.lit
    let out ← atom p
    clauses (orClauses out lits)
    return out
  | .xor a b =>
    let x ← e.lit a
    let y ← e.lit b
    let out ← atom p
    clauses (xorClauses out x y)
    return out
  | .ite c a b =>
    let z ← e.lit c
    let x ← e.lit a
    let y ← e.lit b
    let out ← atom p
    clauses (iteClauses out z x y)
    return out
  | .bit t i =>
    let bits ← e.word t
    return bits.getD i (← trueLit)
  | .bvGe a b =>
    let x ← e.word a
    let y ← e.word b
    geGate x y
  | .bvSge a b =>
    let x ← e.word a
    let y ← e.word b
    geGate (flipSign x) (flipSign y)
  | .var .. => throw (.freeVariable p)
  | .all .. => throw (.nestedQuantifier p)
  | .bvConst .. | .bvNeg _ | .bvSum _ | .bvProduct _ => throw (.notSupported p)

/-- Folds the words of `ts` into one, from the left. -/
def foldWords (e : Encoder) (op : List Literal → List Literal → Work (List Literal)) :
    List Term → Work (List Literal)
  | [] => return []
  | t :: ts => do ts.foldlM (fun acc t => do op acc (← e.word t)) (← e.word t)

/-- Word of a bitvector. -/
def bitvector (e : Encoder) (t : Term) : Work (List Literal) := do
  match ← look fun s _ => s.width? t with
  | none => throw (.notSupported t)
  | some width =>
    match ← shape t with
    | .bvConst _ value =>
      let one ← trueLit
      return (Bits.bits width value).map fun b => one.negIf !b
    | .uninterpreted .. => (List.range width).mapM fun i => do atom (← onStore (Store.bit t i))
    | .ite c a b =>
      let z ← e.lit c
      let x ← e.word a
      let y ← e.word b
      (x.zip y).mapM fun (x, y) => iteGate z x y
    | .bvNeg a => negater (← e.word a)
    | .bvSum args => do
      let zero ← falseLit
      e.foldWords (fun x y => adder x y zero) args
    | .bvProduct args => e.foldWords multiplier args
    | .var .. => throw (.freeVariable t)
    | _ => throw (.notSupported t)

/-- Remembers the literals of positive boolean terms. -/
def cachedLit (encode : Term → Work Literal) (t : Term) : Work Literal := do
  let p := t.positive
  match ← look fun _ c => c.lits[p]? with
  | some l => return l.negIf t.isNegated
  | none =>
    let l ← encode p
    change fun c => { c with lits := c.lits.insert p l, cacheLog := c.cacheLog.push (.literal p) }
    return l.negIf t.isNegated

/-- Remembers the words of bitvectors. -/
def cachedWord (encode : Term → Work (List Literal)) (t : Term) : Work (List Literal) := do
  match ← look fun _ c => c.bits[t]? with
  | some w => return w
  | none =>
    let w ← encode t
    change fun c => { c with bits := c.bits.insert t w, cacheLog := c.cacheLog.push (.word t) }
    return w

/-- The encoder for terms nested at most `depth` deep. -/
def nested : (depth : Nat) → Encoder
  | 0 => ⟨fun _ => throw .outOfFuel, fun _ => throw .outOfFuel⟩
  | depth + 1 => ⟨cachedLit fun p => (nested depth).boolean p, cachedWord fun t =>
    (nested depth).bitvector t⟩

end Encoder

namespace Work

/-- Literal of a boolean term. Lifting an if-then-else out of an equality can square the nesting. -/
def literalOf (t : Term) : Work Literal := do
  let n ← look fun s _ => s.terms.slots.size
  (Encoder.nested (2 * (n + 2) * (n + 2))).lit t

end Work
end Entail
