import Entail.Store.Basic

/-!
# Building terms

One function per constructor. Each checks its arguments, simplifies lightly and stores what is left:
constants are folded, commutative arguments are sorted, sums and products are flattened. So terms
that are plainly equal are one term.
-/

namespace Entail

namespace Term

/-- Drops repetitions from a sorted list. -/
def dedup : List Term → List Term
  | a :: b :: rest => if a = b then dedup (b :: rest) else a :: dedup (b :: rest)
  | ts => ts

/-- Whether some term of a sorted list without repetitions is followed by its negation. -/
def hasComplement : List Term → Bool
  | a :: b :: rest => a.neg == b || hasComplement (b :: rest)
  | _ => false

/-- The boolean constant of a truth value. -/
def ofBool (b : Bool) : Term := if b then top else bot

end Term

namespace Store

/-! ## Atoms -/

/-- A new uninterpreted constant of a live type. -/
def newConst (ty : Ty) : Op Term := do
  read (·.checkTy ty)
  intern (.uninterpreted ty (← freshSerial)) ty

/-- A new variable of a live type. -/
def newVar (ty : Ty) : Op Term := do
  read (·.checkTy ty)
  intern (.var ty (← freshSerial)) ty

/-! ## Boolean structure -/

/-- Negation. -/
def not (t : Term) : Op Term := do
  read (·.checkBool t)
  return t.neg

/-- Disjunction of boolean terms that were checked. Truth wins, falsity and repetitions
are dropped. -/
def orOf (args : List Term) : Op Term :=
  if args.contains .top then pure .top
  else
    let kept := Term.dedup (Term.sort (args.filter (· ≠ .bot)))
    if Term.hasComplement kept then pure .top
    else
      match kept with
      | [] => pure .bot
      | [t] => pure t
      | ts => intern (.or ts) .bool

/-- Disjunction of any number of boolean terms. -/
def or (args : List Term) : Op Term := do
  read fun s => args.forM s.checkBool
  orOf args

/-- Conjunction, the negated disjunction of the negations. -/
def and (args : List Term) : Op Term := do
  read fun s => args.forM s.checkBool
  return (← orOf (args.map .neg)).neg

/-- Disjunction of two terms. -/
def or2 (a b : Term) : Op Term := or [a, b]

/-- Conjunction of two terms. -/
def and2 (a b : Term) : Op Term := and [a, b]

/-- Implication. -/
def implies (a b : Term) : Op Term := do
  read (·.checkBool a)
  or [a.neg, b]

/-- Exclusive or. The polarities of both arguments move to the result. -/
def xor2 (a b : Term) : Op Term := do
  read (·.checkBool a)
  read (·.checkBool b)
  let flip := a.isNegated != b.isNegated
  let a := a.positive
  let b := b.positive
  let r ←
    if a = b then pure .bot
    else if a = .top then pure b.neg
    else if b = .top then pure a.neg
    else if a.le b then intern (.xor a b) .bool
    else intern (.xor b a) .bool
  return r.negIf flip

/-- Exclusive or of any number of terms, from the left. -/
def xor (args : List Term) : Op Term := args.foldlM xor2 .bot

/-- Equivalence of two boolean terms. -/
def iff (a b : Term) : Op Term := do return (← xor2 a b).neg

/-- Choice between two different terms of type `ty` by a positive condition that is no constant. -/
def iteOf (ty : Ty) (c a b : Term) : Op Term :=
  if ty = .bool then
    if a = .top then or2 c b
    else if a = .bot then and2 c.neg b
    else if b = .top then or2 c.neg a
    else if b = .bot then and2 c a
    else if a = b.neg then iff c a
    else if a.isNegated && b.isNegated then do return (← intern (.ite c a.neg b.neg) ty).neg
    else intern (.ite c a b) ty
  else intern (.ite c a b) ty

/-- If-then-else. -/
def ite (c a b : Term) : Op Term := do
  read (·.checkBool c)
  let ty ← read (·.checkSameType a b)
  if c = .top || a = b then return a
  else if c = .bot then return b
  else if c.isNegated then iteOf ty c.neg b a
  else iteOf ty c a b

/-- Equality of two terms of one type. -/
def eq (a b : Term) : Op Term := do
  let ty ← read (·.checkSameType a b)
  if a = b then return .top
  else if ty = .bool then iff a b
  else
    match ← look fun s => (s.constValue? a, s.constValue? b) with
    | (some x, some y) => return .ofBool (x == y)
    | _ => if a.le b then intern (.eq a b) .bool else intern (.eq b a) .bool

/-- Disequality. -/
def neq (a b : Term) : Op Term := do return (← eq a b).neg

/-- Pairwise disequality of at least one term. The disequalities are stored one after the other,
each before the next pair is checked. -/
def distinct (args : List Term) : Op Term :=
  if args.isEmpty then throw (.positiveRequired 0)
  else do and (← pairs args)
where
  pairs : List Term → Op (List Term)
    | [] => pure []
    | a :: rest => do
      let here ← rest.mapM (neq a)
      return here ++ (← pairs rest)

/-! ## Functions and quantifiers -/

/-- Checks arguments against the domain of a function. -/
def checkArgs (s : Store) : List (Term × Ty) → Except TermError Unit
  | [] => .ok ()
  | (t, expected) :: rest => do
    if (← s.typeOf t) ≠ expected then throw (.typeMismatch t expected)
    s.checkArgs rest

/-- Range of a function that may be applied to the given arguments. -/
def checkApp (s : Store) (f : Term) (args : List Term) : Except TermError Ty := do
  match s.tyShape? (← s.typeOf f) with
  | some (.function domain range) =>
    if args.isEmpty then throw (.positiveRequired 0)
    if args.length ≠ domain.length then throw (.wrongArity f domain.length args.length)
    s.checkArgs (args.zip domain)
    return range
  | _ => throw (.functionRequired f)

/-- Application of a function to as many arguments as its domain has. -/
def app (f : Term) (args : List Term) : Op Term := do
  let range ← read (·.checkApp f args)
  intern (.app f args) range

/-- Checks that terms are variables, no two the same; `before` holds those already checked. -/
def checkVars (s : Store) (before : List Term) : List Term → Except TermError Unit
  | [] => .ok ()
  | v :: rest => do
    s.check v
    if v.isNegated || !(s.shape v).isVariable then throw (.variableRequired v)
    if before.contains v then throw (.duplicateVariable v)
    s.checkVars (v :: before) rest

/-- Universal quantification over at least one variable. A constant body needs no quantifier. -/
def all (vars : List Term) (body : Term) : Op Term :=
  if vars.isEmpty then throw (.positiveRequired 0)
  else do
    read (·.checkVars [] vars)
    read (·.checkBool body)
    if body = .top || body = .bot then return body
    else intern (.all vars body) .bool

/-- Existential quantification, the negated universal one of the negation. -/
def exists_ (vars : List Term) (body : Term) : Op Term := do
  read (·.checkBool body)
  return (← all vars body.neg).neg

/-! ## Bitvectors -/

/-- A constant, from the low bits of `value`. -/
def bvConst (width value : Nat) : Op Term := do
  let ty ← bvType width
  intern (.bvConst width (Bits.trunc width value)) ty

/-- A constant from its bits, the least significant first. -/
def bvConstOfBits (bs : List Bool) : Op Term := bvConst bs.length (Bits.ofBits bs)

/-- Summands of sums among `args`, and the other arguments themselves. -/
def summands (s : Store) (args : List Term) : List Term :=
  args.flatMap fun t => match s.shape t with
    | .bvSum inner => inner
    | _ => [t]

/-- Factors of products among `args`, and the other arguments themselves. -/
def factors (s : Store) (args : List Term) : List Term :=
  args.flatMap fun t => match s.shape t with
    | .bvProduct inner => inner
    | _ => [t]

/-- The values of the constants in a list, and the terms that are not constants. -/
def splitConsts (s : Store) (ts : List Term) : List Nat × List Term :=
  (ts.filterMap s.constValue?, ts.filter fun t => (s.constValue? t).isNone)

/-- Puts the constant `c` before `rest` unless it is the neutral one. -/
def withConst (width neutral c : Nat) (rest : List Term) : Op (List Term) :=
  if c = neutral then pure rest else do return (← bvConst width c) :: rest

/-- Sum of at least one bitvector. -/
def bvSum (args : List Term) : Op Term := do
  let width ← read (·.checkBvArgs args)
  let (consts, rest) ← look fun s => s.splitConsts (s.summands args)
  let c := Bits.trunc width (consts.foldr (· + ·) 0)
  if rest.isEmpty then bvConst width c
  else
    match ← withConst width 0 c rest with
    | [t] => return t
    | ts => intern (.bvSum (Term.sort ts)) (← look fun s => s.ty (args.headD .top))

/-- Sum of two bitvectors. -/
def bvAdd (a b : Term) : Op Term := bvSum [a, b]

/-- Negation modulo `2 ^ width`. -/
def bvNeg (a : Term) : Op Term := do
  let width ← read (·.checkBv a)
  match ← look (·.shape a) with
  | .bvConst _ v => bvConst width (Bits.neg width v)
  | .bvNeg x => return x
  | _ => intern (.bvNeg a) (← look (·.ty a))

/-- Difference of two bitvectors. -/
def bvSub (a b : Term) : Op Term := do
  let _ ← read (·.checkSameWidth a b)
  let nb ← bvNeg b
  bvSum [a, nb]

/-- Product of at least one bitvector, of at most `maxDegree` factors that are no constants. -/
def bvProduct (args : List Term) : Op Term := do
  let width ← read (·.checkBvArgs args)
  let (consts, rest) ← look fun s => s.splitConsts (s.factors args)
  let c := Bits.trunc width (consts.foldl (fun acc v => Bits.trunc width (acc * v)) 1)
  if c = 0 || rest.isEmpty then bvConst width c
  else if rest.length > maxDegree then throw (.degreeTooLarge rest.length)
  else
    match ← withConst width 1 c rest with
    | [t] => return t
    | ts => intern (.bvProduct (Term.sort ts)) (← look fun s => s.ty (args.headD .top))

/-- Product of two bitvectors. -/
def bvMul (a b : Term) : Op Term := bvProduct [a, b]

/-- Power of a bitvector. -/
def bvPower (a : Term) (degree : Nat) : Op Term := do
  let width ← read (·.checkBv a)
  if degree > maxDegree then throw (.degreeTooLarge degree)
  else if degree = 0 then bvConst width 1
  else bvProduct (List.replicate degree a)

/-- Unsigned `a ≥ b`. -/
def bvGe (a b : Term) : Op Term := do
  let _ ← read (·.checkSameWidth a b)
  if a = b then return .top
  else
    match ← look fun s => (s.constValue? a, s.constValue? b) with
    | (some x, some y) => return .ofBool (x ≥ y)
    | (none, some 0) => return .top
    | _ => intern (.bvGe a b) .bool

/-- Unsigned `a > b`. -/
def bvGt (a b : Term) : Op Term := do return (← bvGe b a).neg

/-- Unsigned `a ≤ b`. -/
def bvLe (a b : Term) : Op Term := bvGe b a

/-- Unsigned `a < b`. -/
def bvLt (a b : Term) : Op Term := do return (← bvGe a b).neg

/-- Signed `a ≥ b`. Everything is at least the word whose sign bit alone is set. -/
def bvSge (a b : Term) : Op Term := do
  let width ← read (·.checkSameWidth a b)
  if a = b then return .top
  else
    match ← look fun s => (s.constValue? a, s.constValue? b) with
    | (some x, some y) => return .ofBool (Bits.signed width x ≥ Bits.signed width y)
    | (none, some y) => if y = Nat.pow 2 (width - 1) then return .top else intern (.bvSge a b) .bool
    | _ => intern (.bvSge a b) .bool

/-- Signed `a > b`. -/
def bvSgt (a b : Term) : Op Term := do return (← bvSge b a).neg

/-- Signed `a ≤ b`. -/
def bvSle (a b : Term) : Op Term := bvSge b a

/-- Signed `a < b`. -/
def bvSlt (a b : Term) : Op Term := do return (← bvSge a b).neg

/-- Bit `i` of a bitvector; bit 0 is the least significant. -/
def bit (t : Term) (i : Nat) : Op Term := do
  let width ← read (·.checkBv t)
  if i ≥ width then throw (.bitOutOfRange t i)
  else
    match ← look (·.constValue? t) with
    | some v => return .ofBool (v.testBit i)
    | none => intern (.bit t i) .bool

end Store
end Entail
