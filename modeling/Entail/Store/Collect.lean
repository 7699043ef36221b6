import Entail.Store.Explore

/-!
# Garbage collection

A collection keeps what is reachable from its roots and empties all other slots. Roots are the
boolean type and the truth constant, the valid handles given by the caller, everything with a
reference count and, on demand, everything with a name.
-/

namespace Entail.Store

/-- Marks a type and the types it is made of. `depth` bounds the nesting. -/
def markTy (s : Store) : (depth : Nat) → Ty → Std.HashSet Ty → Std.HashSet Ty
  | 0, _, m => m
  | depth + 1, ty, m =>
    if m.contains ty then m
    else
      let parts := ((s.tyShape? ty).map (·.parts)).getD []
      parts.foldl (fun m part => s.markTy depth part m) (m.insert ty)

/-- Slots of the terms that a collection starts from. -/
def termRoots (s : Store) (roots : List Term) (keepNamed : Bool) : List Term :=
  .top :: roots.filter s.isValid ++ s.termRefs.keys.map .ofIndex ++
    (if keepNamed then s.termNames.values else [])

/-- The types that a collection starts from, those of surviving terms apart. -/
def typeRoots (s : Store) (roots : List Ty) (keepNamed : Bool) : List Ty :=
  .bool :: (roots ++ s.typeRefs.keys).filter s.isValidTy ++ (if keepNamed then s.typeNames.values
    else [])

/-- Forgets everything about a deleted term but its slot. -/
def dropTerm (s : Store) (i : Nat) : Store :=
  let t := Term.ofIndex i
  { s with termRefs := s.termRefs.erase i, termNames := (s.termNames.forget t).forget t.neg }

/-- Forgets everything about a deleted type but its slot. -/
def dropType (s : Store) (i : Nat) : Store :=
  { s with typeRefs := s.typeRefs.erase ⟨i⟩, typeNames := s.typeNames.forget ⟨i⟩ }

/-- Deletes what is not reachable from the roots; answers how many terms and types were deleted. -/
def collect (s : Store) (roots : List Term) (tyRoots : List Ty) (keepNamed : Bool) :
    (Nat × Nat) × Store :=
  let live := s.walkAll (s.termRoots roots keepNamed)
  let tys := s.typeRoots tyRoots keepNamed ++ live.order.toList.map s.ty
  let liveTys := tys.foldl (fun m ty => s.markTy s.types.slots.size ty m) ∅
  let (deadTerms, terms) := s.terms.sweep fun i => live.seen.contains (.ofIndex i)
  let (deadTypes, types) := s.types.sweep fun i => liveTys.contains ⟨i⟩
  let s := deadTypes.foldl dropType (deadTerms.foldl dropTerm { s with terms, types })
  ((deadTerms.length, deadTypes.length), s)

end Entail.Store
