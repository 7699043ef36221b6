import Entail.Proofs.Semantics

/-!
# Valuations

Connectives, equalities and operations on words mean the same in every interpretation, in every
structure and in every model. What they share is a valuation: values for some terms of a store,
where the value of a term of one of these shapes comes from the values of its parts, and
nothing is said of other shapes. What a constructor builds is compared with its arguments once,
for all valuations.
-/

namespace Entail

namespace Term.Shape

/-- Shapes whose value is computed from the values of the parts alone. -/
def isInterpreted : Shape → Bool
  | .uninterpreted .. | .var .. | .app .. | .all .. => false
  | _ => true

/-- Interpreted shapes that have no value unless all their parts have one. The others may be decided
by some of them. -/
def isStrict : Shape → Bool
  | .ite .. | .or _ => false
  | shape => shape.isInterpreted

theorem isInterpreted_of_isStrict {shape : Shape} (h : shape.isStrict = true) :
    shape.isInterpreted = true := by
  cases shape <;> first | rfl | cases h

theorem not_atom_of_isInterpreted {shape : Shape} (h : shape.isInterpreted = true) :
    shape.isUninterpreted = false ∧ shape.isVariable = false ∧ shape.isQuantifier = false := by
  cases shape <;> first | exact ⟨rfl, rfl, rfl⟩ | cases h

/-- Value of a term of an interpreted shape from the values of its parts, in this order; `w` is the
width of the parts of an operation on words. -/
noncomputable def combine {elems : Ty → Type} (shape : Shape) (w : Nat) (xs : List (Val elems)) :
    Val elems :=
  match shape, xs with
  | .truth, _ => .bool true
  | .bvConst _ n, _ => .word n
  | .ite .., [c, a, b] => if c.toBool then a else b
  | .eq .., [x, y] => .ofProp (x = y)
  | .or _, xs => .ofProp (∃ x ∈ xs, x.toBool = true)
  | .xor .., [x, y] => .bool (x.toBool != y.toBool)
  | .bit _ i, [x] => .bool (x.toNat.testBit i)
  | .bvGe .., [x, y] => .ofProp (y.toNat ≤ x.toNat)
  | .bvSge .., [x, y] => .ofProp (Bits.signed w y.toNat ≤ Bits.signed w x.toNat)
  | .bvNeg _, [x] => .word (Bits.neg w x.toNat)
  | .bvSum _, xs => .word (Bits.trunc w ((xs.map Val.toNat).foldr (· + ·) 0))
  | .bvProduct _, xs => .word (Bits.trunc w ((xs.map Val.toNat).foldr (· * ·) 1))
  | _, _ => .bool false

end Term.Shape

/-- Values of the terms that `defined` holds of. -/
structure Valuation (elems : Ty → Type) where
  defined : Term → Prop
  value : Term → Val elems

/-- Width of the parts of an operation on words. -/
def Store.partWidth (s : Store) (shape : Term.Shape) : Nat :=
  Interp.width s (shape.children.headD .top)

namespace Valuation

variable {elems : Ty → Type} {V : Valuation elems} {s s' : Store} {shape : Term.Shape}
  {t p : Term} {ty : Ty}

/-- Values are of their types, and the value of a term of an interpreted shape comes from the values
of its parts. It is defined if they are, and under a strict shape only then. -/
structure Lawful (V : Valuation elems) (s : Store) : Prop where
  is_type : ∀ {t ty}, V.defined t → s.Has t ty → (V.value t).Is s ty
  neg : ∀ {t}, V.defined t → s.Has t .bool → V.defined t.neg ∧ V.value t.neg = (V.value t).not
  node_defined : ∀ {p shape ty}, s.node? p = some (shape, ty) → p.isNegated = false →
    shape.isInterpreted = true →
    (∀ c ∈ shape.children, V.defined c) → V.defined p
  part : ∀ {p shape ty}, s.node? p = some (shape, ty) → p.isNegated = false →
    shape.isStrict = true →
    V.defined p → ∀ c ∈ shape.children, V.defined c
  node : ∀ {p shape ty}, s.node? p = some (shape, ty) → p.isNegated = false →
    shape.isInterpreted = true →
    V.defined p → V.value p = shape.combine (s.partWidth shape) (shape.children.map V.value)

/-- The valuation of the terms of a store only. -/
def restrict (V : Valuation elems) (s : Store) : Valuation elems where
  defined t := V.defined t ∧ ∃ ty, s.Has t ty
  value := V.value

namespace Lawful

/-- The width of the parts of a shape does not change when the store grows. -/
theorem partWidth_eq (hs : s.Wf) (e : s.Extends s') (ht : s.Typed shape ty) :
    s'.partWidth shape = s.partWidth shape := by
  unfold Store.partWidth
  cases hch : shape.children with
  | nil => exact Interp.width_of_has hs e ⟨⟨_, hs.truth⟩, fun h => by cases h⟩
  | cons c rest =>
    obtain ⟨tc, hc⟩ := ht.live (hch ▸ List.mem_cons_self)
    exact Interp.width_of_has hs e hc

/-- What is lawful in a store that has grown was lawful before. -/
theorem restrict (h : V.Lawful s') (hs : s.Wf) (e : s.Extends s') : (V.restrict s).Lawful s where
  is_type {t ty} hdef ht := by
    obtain ⟨tyShape, hty⟩ := hs.ty_live ht
    exact (Interp.is_iff e hty).mp (h.is_type hdef.1 (e.has ht))
  neg {t} hdef ht := by
    obtain ⟨hneg, hvalue⟩ := h.neg hdef.1 (e.has ht)
    exact ⟨⟨hneg, _, ht.neg⟩, hvalue⟩
  node_defined {p shape ty} hn hp hshape hkids :=
    ⟨h.node_defined (e.node hn) hp hshape fun c hc => (hkids c hc).1, ty, ⟨_, hn⟩, by simp [hp]⟩
  part {p shape ty} hn hp hshape hdef c hc :=
    ⟨h.part (e.node hn) hp hshape hdef.1 c hc, (hs.typed hn).live hc⟩
  node {p shape ty} hn hp hshape hdef := by
    rw [← partWidth_eq hs e (hs.typed hn)]
    exact h.node (e.node hn) hp hshape hdef.1

/-! ### Truth values and words -/

theorem top (h : V.Lawful s) (hs : s.Wf) : V.defined .top ∧ V.value .top = .bool true := by
  have hdef : V.defined .top := h.node_defined hs.truth rfl rfl fun _ hc => by cases hc
  exact ⟨hdef, h.node hs.truth rfl rfl hdef⟩

theorem bot (h : V.Lawful s) (hs : s.Wf) : V.defined .bot ∧ V.value .bot = .bool false := by
  obtain ⟨hdef, hvalue⟩ := h.top hs
  obtain ⟨hneg, hnot⟩ := h.neg hdef ⟨⟨_, hs.truth⟩, fun _ => rfl⟩
  exact ⟨hneg, hnot.trans (by rw [hvalue]; rfl)⟩

theorem value_bool (h : V.Lawful s) (hs : s.Wf) (hdef : V.defined t) (ht : s.Has t .bool) :
    V.value t = .bool (V.value t).toBool := by
  obtain ⟨b, hb⟩ := (Interp.is_bool hs).mp (h.is_type hdef ht)
  rw [hb]
  rfl

theorem value_neg (h : V.Lawful s) (hs : s.Wf) (hdef : V.defined t) (ht : s.Has t .bool) :
    V.value t.neg = .bool !(V.value t).toBool := by
  rw [(h.neg hdef ht).2, h.value_bool hs hdef ht]
  rfl

/-- Polarity does not matter for being defined. -/
theorem positive (h : V.Lawful s) (hdef : V.defined t) (ht : s.Has t ty) :
    V.defined t.positive := by
  cases hneg : t.isNegated with
  | false => rwa [Term.positive_of_not_isNegated hneg]
  | true =>
    have hbool := ht.2 hneg
    subst hbool
    have hdef' := (h.neg hdef ht).1
    rwa [← Term.neg_positive hneg, Term.neg_neg] at hdef'

theorem value_positive (h : V.Lawful s) (hs : s.Wf) (hdef : V.defined t) (ht : s.Has t .bool) :
    V.value t = .bool ((V.value t.positive).toBool != t.isNegated) := by
  have hpos := h.positive hdef ht
  cases hneg : t.isNegated with
  | false =>
    rw [Term.positive_of_not_isNegated hneg, Bool.bne_false]
    exact h.value_bool hs hdef ht
  | true =>
    rw [Bool.bne_true, ← h.value_neg hs hpos ht.positive, Term.neg_positive hneg]

theorem value_word (h : V.Lawful s) (hdef : V.defined t) {w : Nat} (ht : s.HasWidth t w) :
    V.value t = .word (V.value t).toNat ∧ (V.value t).toNat < Bits.modulus w := by
  obtain ⟨ty, hty, hw⟩ := ht
  obtain ⟨n, hn, hlt⟩ := (Interp.is_word hw).mp (h.is_type hdef hty)
  rw [hn]
  exact ⟨rfl, hlt⟩

end Lawful
end Valuation

/-! ## Interpretations -/

namespace Interp

variable {I : Interp} {s : Store} {ρ : I.Env} {shape : Term.Shape} {p : Term} {ty : Ty}

/-- The value of a node of an interpreted shape. -/
theorem node_eq_combine (hp : s.Has p ty) (ht : s.Typed shape ty)
    (hshape : shape.isInterpreted = true) :
    I.node s (I.value s) ρ p shape = shape.combine (s.partWidth shape)
      (shape.children.map (I.value s ρ)) := by
  cases shape with
  | truth | bvConst | ite | eq | xor | bit | bvGe | bvNeg => rfl
  | or args => simp [node, Term.Shape.combine, Term.Shape.children]
  | bvSge a b =>
    obtain ⟨-, w, ⟨tya, ha, hwa⟩, ⟨tyb, hb, hwb⟩⟩ := ht
    have hwidth : s.partWidth (.bvSge a b) = w := width_of_ty ha hwa
    simp only [node, Term.Shape.combine, Term.Shape.children, List.map_cons, List.map_nil, hwidth,
      width_of_ty ha hwa,
      width_of_ty hb hwb]
  | bvSum args | bvProduct args =>
    obtain ⟨hne, hall, w, hw⟩ := ht
    obtain ⟨a, rest, rfl⟩ := List.exists_cons_of_ne_nil hne
    have hwidth : width s p = width s a := by
      rw [width_of_ty hp hw, width_of_ty (hall a List.mem_cons_self) hw]
    simp only [node, Term.Shape.combine, Term.Shape.children, Store.partWidth, List.headD_cons,
      hwidth, List.map_map]
    rfl
  | _ => cases hshape

/-- The values of the terms that `defined` holds of. -/
noncomputable def valuation (I : Interp) (s : Store) (ρ : I.Env) (defined : Term → Prop) :
    Valuation I.elems where
  defined := defined
  value := I.value s ρ

theorem valuation_lawful (hs : s.Wf) (hI : I.Fits s) (hρ : I.EnvFits s ρ) {defined : Term → Prop}
    (hneg : ∀ t, defined t → defined t.neg)
    (hparts : ∀ {p shape ty}, s.node? p = some (shape, ty) → shape.isInterpreted = true →
      (defined p ↔ ∀ c ∈ shape.children, defined c)) : (I.valuation s ρ defined).Lawful s where
  is_type _ ht := value_is hs hI hρ ht
  neg hdef ht := ⟨hneg _ hdef, value_neg hs ht ρ⟩
  node_defined hn _ hshape := (hparts hn hshape).mpr
  part hn _ hshape := (hparts hn (Term.Shape.isInterpreted_of_isStrict hshape)).mp
  node {p shape ty} hn hp hshape _ := by
    show I.value s ρ p = _
    rw [value_eq hs hn, hp, Term.positive_of_not_isNegated hp]
    exact node_eq_combine ⟨⟨_, hn⟩, by simp [hp]⟩ (hs.typed hn) hshape

/-- The range of a function type. -/
def rangeTy (s : Store) (ty : Ty) : Ty :=
  match s.tyShape? ty with
  | some (.function _ range) => range
  | _ => ty

/-- Every store has an interpretation and values of variables that respect its types. -/
theorem exists_fits (s : Store) : ∃ (I : Interp) (ρ : I.Env), I.Fits s ∧ I.EnvFits s ρ := by
  let base : Interp := ⟨fun _ => Unit, fun _ => ⟨()⟩, fun _ _ => .bool false, fun _ _ _ =>
    .bool false⟩
  let I : Interp :=
    ⟨fun _ => Unit, fun _ => ⟨()⟩, fun ty _ => base.default s ty, fun ty _ _ =>
      base.default s (rangeTy s ty)⟩
  refine ⟨I, fun v => base.default s (s.ty v), ⟨fun ty n => default_is base s ty, ?_⟩,
    fun v ty n hn => ?_⟩
  · intro ty n domain range args hty _
    have hrange : rangeTy s ty = range := by simp only [rangeTy, hty]
    exact hrange ▸ default_is base s (rangeTy s ty)
  · have hty : s.ty v = ty := by simp [Store.ty, hn]
    exact hty ▸ default_is base s (s.ty v)

end Interp
end Entail
