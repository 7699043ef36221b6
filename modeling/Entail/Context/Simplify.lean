import Entail.Context.Encode

/-!
# Simplification of assertions

The definitions found so far are put into an asserted formula, which is then split, kept as a
quantifier, turned into a new definition, or encoded as a clause.
-/

namespace Entail

namespace Context

/-- Whether a term contains an if-then-else of an uninterpreted sort. -/
def hasSortedIte (s : Store) (t : Term) : Bool :=
  (s.subterms t).any fun u => (s.shape u).isIte && s.isSort (s.ty u)

/-- Whether a term has a decision variable, a word or a node. -/
def isEncoded (c : Context) (t : Term) : Bool :=
  c.vars.has t || c.bits.contains t || c.registry.egraph.nodeOf.contains t

/-- Whether the definition `x := v` may remove `x` from all formulas: `x` is a constant that nothing
depends on yet, the other definitions and the quantifiers included. -/
def canEliminate (c : Context) (s : Store) (x v : Term) : Bool :=
  !x.isNegated && (s.shape x).isUninterpreted && !s.isFunctionTy (s.ty x) && !c.subst.contains x &&
    !c.isEncoded x &&
    !s.occurs x v && !(c.subst.values.any (s.occurs x)) &&
      !(s.isSort (s.ty x) && hasSortedIte s v) &&
    !(c.registry.quant?.any (·.mentions s x))

/-- Disjuncts of a disjunction with positive disjunctions in it taken apart. `depth` bounds
the nesting. -/
def disjuncts (s : Store) : (depth : Nat) → List Term → List Term
  | 0, args => args
  | depth + 1, args => args.flatMap fun a =>
    match a.isNegated, s.shape a with
    | false, .or inner => disjuncts s depth inner
    | _, _ => [a]

end Context

namespace Work

/-- Solves `sum = r` for the first summand that can be eliminated, given the summands before it. A
summand qualifies when it occurs in itself only. -/
def solveFor (args : List Term) (r : Term) :
    (before : List Term) → List Term → Work (Option (Term × Term))
  | _, [] => return none
  | before, x :: after => do
    let ok ← look fun s c =>
      (args.countP (s.occurs x)) == 1 && !s.occurs x r && c.canEliminate s x r
    if ok then
      let rest ← onStore (Store.bvSum (before ++ after))
      let v ← onStore (Store.bvSub r rest)
      return some (x, v)
    else solveFor args r (before ++ [x]) after

/-- Solves `t = r` for a summand of `t`. -/
def solveSum (t r : Term) : Work (Option (Term × Term)) := do
  match ← shape t with
  | .bvSum args => solveFor args r [] args
  | _ => return none

/-- The first of the given definitions that can be used. -/
def firstDefinition (defs : List (Term × Term)) : Work (Option (Term × Term)) :=
  look fun s c => defs.find? fun (x, v) => c.canEliminate s x v

/-- A definition by an equation of bitvectors that is solved for a summand of one of its sides. -/
def solveEquation (a b : Term) : Work (Option (Term × Term)) := do
  if ← look fun s c => c.isOn .bvArithElim && (s.width? a).isSome then
    match ← solveSum a b with
    | some d => return some d
    | none => solveSum b a
  else return none

/-- A definition that says the same as the formula `t`. -/
def definition? (t : Term) : Work (Option (Term × Term)) := do
  match ← shape t with
  | .xor a b =>
    if ← look fun _ c => c.isOn .varElim then
      let flip := !t.isNegated
      firstDefinition [(a, b.negIf flip), (b, a.negIf flip)]
    else return none
  | .eq a b =>
    if t.isNegated then return none
    let direct ← if ← look fun _ c => c.isOn .varElim then firstDefinition [(a, b), (b, a)]
      else pure none
    if direct.isSome then return direct else solveEquation a b
  | _ => return none

/-- Body of a quantifier with its variables replaced by new constants. -/
def skolemize (vars : List Term) (body : Term) : Work Term := do
  let σ ← vars.foldlM (fun (σ : Subst) v => do
    let ty ← look fun s _ => s.ty v
    return σ.insert v (← onStore (Store.newConst ty))) ∅
  onStore (Store.subst σ body)

/-- Encodes a formula that is neither constant nor quantified. -/
def assertEncoded (t : Term) : Work Unit := do
  match t.isNegated || !(← look fun _ c => c.isOn .flatten), ← shape t with
  | false, .or args =>
    let leaves ← look fun s _ => Context.disjuncts s (s.terms.slots.size + 1) args
    clause (← leaves.mapM literalOf)
  | _, _ => clause [← literalOf t]

/-- Simplifies and encodes one formula, split at most `depth` times. -/
def processAt : (depth : Nat) → Term → Work Unit
  | 0, _ => throw .outOfFuel
  | depth + 1, t => do
    let σ ← look fun _ c => c.subst
    let t ← onStore (Store.subst σ t)
    if t = .top then return
    if t = .bot then
      clause []
      return
    match t.isNegated, ← look (fun _ c => c.isOn .flatten), ← shape t with
    | true, true, .or args => args.forM fun a => processAt depth a.neg
    | false, _, .all .. => addConstraint t []
    | true, _, .all vars body => do
      let body ← skolemize vars body
      processAt depth body.neg
    | _, _, _ =>
      match ← definition? t with
      | some (x, v) => change fun c =>
        { c with subst := c.subst.insert x v, substLog := c.substLog.push x }
      | none => assertEncoded t

/-- Simplifies and encodes one formula. The definitions found on the way can square the nesting. -/
def process (t : Term) : Work Unit := do
  let n ← look fun s _ => s.terms.slots.size
  processAt ((n + 2) * (n + 2)) t

end Work
end Entail
