import Entail.Doc
import Entail.Store.Basic

/-!
# Printing terms and types

Terms print as s-expressions. Types, uninterpreted constants and variables go by their base name if
they have one.
-/

namespace Entail.Store

open Doc

/-- Document of a type. `depth` bounds its nesting. -/
def tyDocAt (s : Store) : (depth : Nat) → Ty → Doc
  | 0, _ => styled .type "<invalid>"
  | depth + 1, ty =>
    match s.typeNames.nameOf? ty with
    | some name => styled .type name
    | none =>
      match s.tyShape? ty with
      | none => styled .type "<invalid>"
      | some .bool => styled .type "bool"
      | some (.bitVector w) => sexp (styled .type "bitvector") [constant (toString w)] 0
      | some (.uninterpreted _) => styled .type s!"tau!{ty.raw}"
      | some (.function domain range) =>
        sexp (op "->") ((domain ++ [range]).map (s.tyDocAt depth)) 0

/-- Document of a type. -/
def tyDoc (s : Store) (ty : Ty) : Doc := s.tyDocAt (s.types.slots.size + 1) ty

/-- Document of an atom: its base name, or a made-up one from its slot. -/
def atomDoc (s : Store) (mark : String) (t : Term) : Doc :=
  styled .ident ((s.termNames.nameOf? t).getD s!"{mark}!{t.index}")

/-- Document of a term that stands below `nesting` parentheses. `depth` bounds its own nesting. -/
def termDocAt (s : Store) : (depth : Nat) → (nesting : Nat) → Term → Doc
  | 0, _, _ => styled .ident "<invalid>"
  | depth + 1, nesting, t =>
    let sub := s.termDocAt depth (nesting + 1)
    if !s.isValid t then styled .ident "<invalid>"
    else if t = .bot then constant "false"
    else if t.isNegated then sexp (op "not") [sub t.positive] nesting
    else
      match s.shape t with
      | .truth => constant "true"
      | .bvConst w v => constant (Bits.literal w v)
      | .uninterpreted .. => s.atomDoc "t" t
      | .var .. => s.atomDoc "x" t
      | .ite c a b => sexp (keyword "ite") [sub c, sub a, sub b] nesting
      | .eq a b => sexp (op "=") [sub a, sub b] nesting
      | .or args => sexp (op "or") (args.map sub) nesting
      | .xor a b => sexp (op "xor") [sub a, sub b] nesting
      | .app f args => sexp (sub f) (args.map sub) nesting
      | .all vars body =>
        let bindings := vars.map fun v => sub v ++ plain "::" ++ s.tyDoc (s.ty v)
        sexp (keyword "forall") [sexp (bindings.headD .nil) bindings.tail (nesting + 1),
          sub body] nesting
      | .bit x i => sexp (op "bit") [sub x, constant (toString i)] nesting
      | .bvGe a b => sexp (op "bv-ge") [sub a, sub b] nesting
      | .bvSge a b => sexp (op "bv-sge") [sub a, sub b] nesting
      | .bvNeg x => sexp (op "bv-neg") [sub x] nesting
      | .bvSum args => sexp (op "bv-add") (args.map sub) nesting
      | .bvProduct args => sexp (op "bv-mul") (args.map sub) nesting

/-- Document of a term. -/
def termDoc (s : Store) (t : Term) : Doc := s.termDocAt (2 * s.terms.slots.size + 1) 0 t

end Entail.Store
