import Entail.Context.Basic

/-!
# Gates

A gate is a literal that clauses tie to a boolean function of other literals. A gate whose value is
clear from its inputs needs no clauses; any other gate gets a constant of its own as its output.
Words are lists of literals, the least significant bit first.
-/

namespace Entail.Work

/-- Adds a clause to the innermost scope. -/
def clause (lits : List Literal) : Work Unit := change (·.addClause lits)

/-- Adds clauses to the innermost scope. -/
def clauses (cs : List (List Literal)) : Work Unit := cs.forM clause

/-- The positive literal of a term's variable. -/
def atom (t : Term) : Work Literal := update (·.atom t)

/-- The literal that is always true. -/
def trueLit : Work Literal := look fun _ c => c.trueLit

/-- The literal that is always false. -/
def falseLit : Work Literal := look fun _ c => c.trueLit.neg

/-- Truth value of a literal that has the same one in every assignment. -/
def constant? (l : Literal) : Work (Option Bool) := look fun _ c =>
  if l = c.trueLit then some true else if l = c.trueLit.neg then some false else none

/-- A literal for the output of a gate, of a new boolean constant. -/
def freshLit : Work Literal := do
  let t ← onStore (Store.newConst .bool)
  change fun c => { c with aux := c.aux.insert t }
  atom t

/-! ## Definitions -/

/-- Clauses that say that `out` is the disjunction of `lits`. -/
def orClauses (out : Literal) (lits : List Literal) : List (List Literal) :=
  lits.map (fun l => [out, l.neg]) ++ [out.neg :: lits]

/-- Clauses that say that `out` is true exactly when `a` and `b` differ. -/
def xorClauses (out a b : Literal) : List (List Literal) :=
  [[out.neg, a, b], [out.neg, a.neg, b.neg], [out, a.neg, b], [out, a, b.neg]]

/-- Clauses that say that `out` is `a` when `c` is true and `b` when it is false. -/
def iteClauses (out c a b : Literal) : List (List Literal) :=
  [[c.neg, a.neg, out], [c.neg, a, out.neg], [c, b.neg, out], [c, b, out.neg], [a.neg, b.neg, out],
    [a, b, out.neg]]

/-- Clauses that say that `out` is true exactly when two of `a`, `b` and `c` are. -/
def majorityClauses (out a b c : Literal) : List (List Literal) :=
  [[a.neg, b.neg, out], [a.neg, c.neg, out], [b.neg, c.neg, out], [a, b, out.neg], [a, c, out.neg],
    [b, c, out.neg]]

/-! ## Gates with simplification -/

/-- Conjunction of two literals. -/
def andGate (a b : Literal) : Work Literal := do
  let x ← constant? a
  let y ← constant? b
  if x = some false || y = some false then falseLit
  else if x = some true then return b
  else if y = some true then return a
  else if a = b then return a
  else if a = b.neg then falseLit
  else
    let out ← freshLit
    clauses (orClauses out.neg [a.neg, b.neg])
    return out

/-- Disjunction of two literals. -/
def orGate (a b : Literal) : Work Literal := do return (← andGate a.neg b.neg).neg

/-- Whether two literals differ. -/
def xorGate (a b : Literal) : Work Literal := do
  match ← constant? a, ← constant? b with
  | some x, _ => return b.negIf x
  | none, some y => return a.negIf y
  | none, none =>
    if a = b then falseLit
    else if a = b.neg then trueLit
    else
      let out ← freshLit
      clauses (xorClauses out a b)
      return out

/-- The literal `a` when `c` is true and `b` when it is false. -/
def iteGate (c a b : Literal) : Work Literal := do
  match ← constant? c with
  | some x => return if x then a else b
  | none =>
    if a = b then return a
    else
      let out ← freshLit
      clauses (iteClauses out c a b)
      return out

/-- Whether at least two of three literals are true. -/
def majorityGate (a b c : Literal) : Work Literal := do
  match ← constant? a, ← constant? b, ← constant? c with
  | some x, _, _ => if x then orGate b c else andGate b c
  | none, some y, _ => if y then orGate a c else andGate a c
  | none, none, some z => if z then orGate a b else andGate a b
  | none, none, none =>
    if a = b || a = c then return a
    else if b = c then return b
    else
      let out ← freshLit
      clauses (majorityClauses out a b c)
      return out

/-! ## Words -/

/-- Sum of two words and a carry, bit by bit; the last carry is dropped. -/
def adder : (a b : List Literal) → (carry : Literal) → Work (List Literal)
  | a :: as, b :: bs, carry => do
    let half ← xorGate a b
    let sum ← xorGate half carry
    if as.isEmpty then return [sum]
    else
      let carry ← majorityGate a b carry
      return sum :: (← adder as bs carry)
  | _, _, _ => return []

/-- Adds to `acc` the word `a`, shifted by `shift`, times the bits `bs`, the first of which stands
at place `shift`. -/
def addProducts (a : List Literal) :
    (bs : List Literal) → (shift : Nat) → (acc : List Literal) → Work (List Literal)
  | [], _, acc => return acc
  | b :: bs, shift, acc => do
    if (← constant? b) = some false then addProducts a bs (shift + 1) acc
    else
      let zero ← falseLit
      let row ← (a.take (a.length - shift)).mapM (andGate · b)
      let acc ← adder acc (List.replicate shift zero ++ row) zero
      addProducts a bs (shift + 1) acc

/-- Product of two words, cut to their width. -/
def multiplier (a b : List Literal) : Work (List Literal) := do
  let zero ← falseLit
  addProducts a b 0 (List.replicate a.length zero)

/-- Negation of a word in two's complement. -/
def negater (a : List Literal) : Work (List Literal) := do
  let zero ← falseLit
  adder (a.map (·.neg)) (List.replicate a.length zero) zero.neg

/-- Whether two words are equal. -/
def equalGate (a b : List Literal) : Work Literal := do
  (a.zip b).foldlM (fun acc (x, y) => do andGate acc (← xorGate x y).neg) (← trueLit)

/-- Whether `a` is at least `b` as unsigned numbers: the carry out of `a - b`. -/
def geGate (a b : List Literal) : Work Literal := do
  (a.zip b).foldlM (fun carry (x, y) => majorityGate x y.neg carry) (← trueLit)

/-- A word with its sign bit flipped, so that the signed order becomes the unsigned one. -/
def flipSign (a : List Literal) : List Literal := a.modify (a.length - 1) Literal.neg

end Entail.Work
