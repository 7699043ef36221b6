import Entail.Context.Basic
import Entail.Store.Explore

/-!
# Supported formulas

A context looks at a formula before it changes anything. Quantifiers may stand at the top level only
and bind variables of uninterpreted sorts; there are no other variables. Applications take and give
elements of uninterpreted sorts, or are boolean. An if-then-else of an uninterpreted sort stands
under an equality, from which it is lifted.
-/

namespace Entail.Context

/-- Formulas that count as top level: the conjuncts of a conjunction when `flatten` is on, else the
formula itself. `depth` bounds the nesting. -/
def conjuncts (s : Store) (flatten : Bool) : (depth : Nat) → Term → List Term
  | 0, t => [t]
  | depth + 1, t =>
    match flatten && t.isNegated, s.shape t with
    | true, .or args => args.flatMap fun a => conjuncts s flatten depth a.neg
    | _, _ => [t]

/-- Checks that remember the terms they have seen, with and without leave for an if-then-else of an
uninterpreted sort. -/
abbrev BodyCheck := StateT (Std.HashSet (Term × Bool)) (Except Failure)

/-- Checks one node of a formula; answers the parts that are left to check, each with leave or not.
`root` is the formula to blame and `bound` are the variables that are bound. -/
def checkNode (s : Store) (root : Term) (bound : List Term) (u : Term) (iteOk : Bool) :
    Except Failure (List (Term × Bool)) :=
  match s.shape u with
  | .var .. => if bound.contains u then .ok [] else .error (.freeVariable root)
  | .all .. => .error (.nestedQuantifier u)
  | .app _ args =>
    if (s.width? u).isSome || s.isFunctionTy (s.ty u) || args.any fun a => !s.isSort (s.ty a) then
      .error (.notSupported u)
    else .ok (args.map (·, false))
  | .eq a b =>
    if s.isFunctionTy (s.ty a) then .error (.notSupported u)
    else
      let lift := s.isSort (s.ty a)
      .ok [(a, lift), (b, lift)]
  | .ite c a b =>
    if s.isFunctionTy (s.ty u) || (s.isSort (s.ty u) && !iteOk) then .error (.notSupported u)
    else .ok [(c, false), (a, iteOk), (b, iteOk)]
  | other => .ok (other.children.map (·, false))

/-- Checks a formula and its parts, from the last part to the first. `depth` bounds the nesting. -/
def checkBody (s : Store) (root : Term) (bound : List Term) :
    (depth : Nat) → Term × Bool → BodyCheck Unit
  | 0, _ => return
  | depth + 1, (t, iteOk) => do
    let u := t.positive
    if (← get).contains (u, iteOk) then return
    modify (·.insert (u, iteOk))
    let parts ← checkNode s root bound u iteOk
    parts.reverse.forM (checkBody s root bound depth)

/-- Checks a top-level formula. -/
def validatePart (s : Store) (part : Term) : Except Failure Unit :=
  let run (bound : List Term) (body : Term) : Except Failure Unit :=
    (checkBody s part bound (s.terms.slots.size + 1) (body, false)).run' ∅
  match s.shape part with
  | .all vars body =>
    match vars.find? fun v => !s.isSort (s.ty v) with
    | some v => .error (.notSupported v)
    | none => run vars body
  | _ => run [] part

/-- Refuses formulas that the context cannot handle. -/
def validate (c : Context) (s : Store) (t : Term) : Except Failure Unit := do
  (s.checkBool t).mapError .term
  (conjuncts s (c.isOn .flatten) (s.terms.slots.size + 1) t).forM (validatePart s)

end Entail.Context
