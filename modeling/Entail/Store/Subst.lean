import Entail.Store.Build

/-!
# Substitution

A substitution replaces atoms, all at once, and rebuilds what is above them through the simplifying
constructors. Below a quantifier the variables it binds are left alone.
-/

namespace Entail

/-- Replacements of positive atoms. -/
abbrev Subst := Std.HashMap Term Term

namespace Store

/-- Operations that remember what each positive term became. -/
abbrev SubstOp := StateT Subst Op

/-- Rebuilds the positive term `p` under `σ`, where `sub` applies a substitution to a
part of `p`. -/
def rebuild (sub : Subst → Term → SubstOp Term) (σ : Subst) (p : Term) : SubstOp Term := do
  match ← (look (·.shape? p) : Op _) with
  | none => throw (.dangling p)
  | some .truth | some (.bvConst ..) | some (.uninterpreted ..) | some (.var ..) => return p
  | some (.ite c a b) =>
    let c ← sub σ c
    let a ← sub σ a
    let b ← sub σ b
    ite c a b
  | some (.eq a b) =>
    let a ← sub σ a
    let b ← sub σ b
    eq a b
  | some (.xor a b) =>
    let a ← sub σ a
    let b ← sub σ b
    xor2 a b
  | some (.bvGe a b) =>
    let a ← sub σ a
    let b ← sub σ b
    bvGe a b
  | some (.bvSge a b) =>
    let a ← sub σ a
    let b ← sub σ b
    bvSge a b
  | some (.bvNeg x) =>
    let x ← sub σ x
    bvNeg x
  | some (.bit x i) =>
    let x ← sub σ x
    bit x i
  | some (.or args) =>
    let args ← args.mapM (sub σ)
    or args
  | some (.bvSum args) =>
    let args ← args.mapM (sub σ)
    bvSum args
  | some (.bvProduct args) =>
    let args ← args.mapM (sub σ)
    bvProduct args
  | some (.app f args) =>
    let f ← sub σ f
    let args ← args.mapM (sub σ)
    app f args
  | some (.all vars body) =>
    if vars.any σ.contains then
      -- What a term became under `σ` says nothing about the smaller substitution.
      let inner := vars.foldl (fun m v => m.erase v) σ
      let body ← if inner.isEmpty then pure body else (sub inner body).run' ∅
      all vars body
    else
      let body ← sub σ body
      all vars body

/-- Applies `σ` to `t`. `depth` bounds the nesting of `t`; a dead handle, and a term nested deeper,
is a broken promise of the caller. -/
def substAt : (depth : Nat) → (σ : Subst) → (t : Term) → SubstOp Term
  | 0, _, t => throw (.dangling t)
  | depth + 1, σ, t => do
    let p := t.positive
    match σ[p]? with
    | some r => return r.negIf t.isNegated
    | none =>
      match (← get)[p]? with
      | some r => return r.negIf t.isNegated
      | none =>
        let r ← rebuild (substAt depth) σ p
        modify (·.insert p r)
        return r.negIf t.isNegated

/-- Applies `σ` to a term that the caller promises to be live. -/
def subst (σ : Subst) (t : Term) : Op Term := do
  if σ.isEmpty then return t
  else (substAt ((← look (·.terms.slots.size)) + 1) σ t).run' ∅

/-- Checks that each pair has an atom on the left and a term of its type on the right. -/
def checkPairs (s : Store) : List (Term × Term) → Except TermError Unit
  | [] => .ok ()
  | (x, v) :: rest => do
    s.check x
    if x.isNegated || !((s.shape x).isUninterpreted || (s.shape x).isVariable)
      then throw (.variableRequired x)
    if (← s.typeOf v) ≠ s.ty x then throw (.typeMismatch v (s.ty x))
    s.checkPairs rest

/-- Replaces `x` by `v` in `t` for each pair `(x, v)`; of two pairs for one atom the
later counts. -/
def substTerm (pairs : List (Term × Term)) (t : Term) : Op Term := do
  read (·.check t)
  read (·.checkPairs pairs)
  subst (pairs.foldl (fun m p => m.insert p.1 p.2) ∅) t

end Store
end Entail
