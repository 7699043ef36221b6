import Entail.Proofs.Arena
import Entail.Proofs.Moves
import Entail.Store.Build

/-!
# Well-formed stores

In a well-formed store every term is typed by its shape, its parts are in the store too, and no term
is a part of itself. The store only grows: a handle that is live keeps its shape and its type.
Interning a typed shape keeps all of this.
-/

namespace Entail.Store

/-! ## Slots of terms -/

section Slots

variable {s : Store} {slots : Array (Option (Term.Shape × Ty))}

theorem node?_of_slots (h : s.terms.slots = slots) (t : Term) : s.node? t = slots[t.index]?.join :=
  h ▸ rfl

theorem shape_of_slots (h : s.terms.slots = slots) (t : Term) :
    s.shape t = (slots[t.index]?.join.map (·.1)).getD .truth :=
  h ▸ rfl

theorem ty_of_slots (h : s.terms.slots = slots) (t : Term) :
    s.ty t = (slots[t.index]?.join.map (·.2)).getD .bool :=
  h ▸ rfl

end Slots

/-! ## What is well-formed -/

/-- `t` is a valid handle of type `ty`. -/
def Has (s : Store) (t : Term) (ty : Ty) : Prop :=
  (∃ shape, s.node? t = some (shape, ty)) ∧ (t.isNegated = true → ty = .bool)

/-- `t` is a bitvector of width `w`. -/
def HasWidth (s : Store) (t : Term) (w : Nat) : Prop :=
  ∃ ty, s.Has t ty ∧ s.tyShape? ty = some (.bitVector w)

/-- `v` is a positive handle of a variable. -/
def IsVar (s : Store) (v : Term) : Prop :=
  v.isNegated = false ∧ ∃ ty n, s.node? v = some (.var ty n, ty)

/-- Terms with a shape have type `ty`. -/
def Typed (s : Store) : Term.Shape → Ty → Prop
  | .truth, ty => ty = .bool
  | .bvConst w v, ty => s.tyShape? ty = some (.bitVector w) ∧ v < Bits.modulus w
  | .uninterpreted ty' _, ty | .var ty' _, ty => ty = ty' ∧ ∃ shape, s.tyShape? ty = some shape
  | .ite c a b, ty => s.Has c .bool ∧ s.Has a ty ∧ s.Has b ty
  | .eq a b, ty => ty = .bool ∧ ∃ ty', ty' ≠ .bool ∧ s.Has a ty' ∧ s.Has b ty'
  | .or args, ty => ty = .bool ∧ ∀ a ∈ args, s.Has a .bool
  | .xor a b, ty => ty = .bool ∧ s.Has a .bool ∧ s.Has b .bool
  | .app f args, ty =>
    ∃ tf domain, s.Has f tf ∧ s.tyShape? tf = some (.function domain ty) ∧
      List.Forall₂ s.Has args domain
  | .all vars body, ty => ty = .bool ∧ vars.Nodup ∧ (∀ v ∈ vars, s.IsVar v) ∧ s.Has body .bool
  | .bit x i, ty => ty = .bool ∧ ∃ w, s.HasWidth x w ∧ i < w
  | .bvGe a b, ty | .bvSge a b, ty => ty = .bool ∧ ∃ w, s.HasWidth a w ∧ s.HasWidth b w
  | .bvNeg x, ty => s.Has x ty ∧ ∃ w, s.tyShape? ty = some (.bitVector w)
  | .bvSum args, ty | .bvProduct args, ty =>
    args ≠ [] ∧ (∀ a ∈ args, s.Has a ty) ∧ ∃ w, s.tyShape? ty = some (.bitVector w)

/-- The types that a shape of a type mentions are live, and widths are in range. -/
def TyOk (s : Store) : Ty.Shape → Prop
  | .bool => True
  | .bitVector w => 0 < w ∧ w ≤ maxWidth
  | .uninterpreted n => n < s.typeSerial
  | .function domain range =>
    domain ≠ [] ∧ ∀ ty ∈ domain ++ [range], ∃ shape, s.tyShape? ty = some shape

/-- The serial number of a constant or a variable is below `bound`. -/
def SerialBelow (bound : Nat) : Term.Shape → Prop
  | .uninterpreted _ n | .var _ n => n < bound
  | _ => True

/-- Everything in the store is typed and made of parts that are in the store, and `rank` goes down
from a term to its parts. -/
structure Wf (s : Store) : Prop where
  types : s.types.Valid 0
  terms : s.terms.Valid 1
  bool_ty : s.tyShape? .bool = some .bool
  truth : s.node? .top = some (.truth, .bool)
  ty_ok : ∀ {ty shape}, s.tyShape? ty = some shape → s.TyOk shape
  typed : ∀ {i shape ty}, s.terms.get? i = some (shape, ty) → s.Typed shape ty
  live_ty : ∀ {i shape ty}, s.terms.get? i = some (shape, ty) → ∃ tyShape,
    s.tyShape? ty = some tyShape
  serial : ∀ {i shape ty}, s.terms.get? i = some (shape, ty) → SerialBelow s.termSerial shape
  ranked : ∃ rank : Nat → Nat, ∀ {i shape ty}, s.terms.get? i = some (shape, ty) →
    ∀ c ∈ shape.children, rank c.index < rank i

/-- Live handles of `s` stand for the same in `s'`. -/
structure Extends (s s' : Store) : Prop where
  ty : ∀ {ty shape}, s.tyShape? ty = some shape → s'.tyShape? ty = some shape
  node : ∀ {t n}, s.node? t = some n → s'.node? t = some n
  typeSerial : s.typeSerial ≤ s'.typeSerial
  termSerial : s.termSerial ≤ s'.termSerial
  slots : s.terms.slots.size ≤ s'.terms.slots.size

/-- `s'` is well-formed and extends `s`. -/
structure Later (s s' : Store) : Prop where
  wf : s'.Wf
  ext : s.Extends s'

/-- Typing looks at the type, the parts and the types of the parts only. -/
theorem Typed.transfer {s s' : Store} {shape : Term.Shape} {ty : Ty} (ht : s.Typed shape ty)
    (hty : ∀ {tyShape}, s.tyShape? ty = some tyShape → s'.tyShape? ty = some tyShape)
    (hnode : ∀ c ∈ shape.children, ∀ {n}, s.node? c = some n → s'.node? c = some n)
    (hpart : ∀ c ∈ shape.children, ∀ {u tyShape}, s.Has c u → s.tyShape? u = some tyShape →
      s'.tyShape? u = some tyShape) :
    s'.Typed shape ty := by
  have has {c : Term} {u : Ty} (hc : c ∈ shape.children) (h : s.Has c u) : s'.Has c u :=
    ⟨h.1.imp fun _ => hnode c hc, h.2⟩
  have width {c : Term} {w : Nat} (hc : c ∈ shape.children) (h : s.HasWidth c w) :
      s'.HasWidth c w := by
    obtain ⟨u, hu, hw⟩ := h
    exact ⟨u, has hc hu, hpart c hc hu hw⟩
  cases shape with
  | truth => exact ht
  | bvConst => exact ⟨hty ht.1, ht.2⟩
  | uninterpreted | var => exact ⟨ht.1, ht.2.imp fun _ => hty⟩
  | ite =>
    exact ⟨has (by simp [Term.Shape.children]) ht.1, has (by simp [Term.Shape.children]) ht.2.1,
      has (by simp [Term.Shape.children]) ht.2.2⟩
  | eq =>
    obtain ⟨hbool, u, hne, ha, hb⟩ := ht
    exact ⟨hbool, u, hne, has (by simp [Term.Shape.children]) ha,
      has (by simp [Term.Shape.children]) hb⟩
  | or => exact ⟨ht.1, fun a ha => has ha (ht.2 a ha)⟩
  | xor =>
    exact ⟨ht.1, has (by simp [Term.Shape.children]) ht.2.1,
      has (by simp [Term.Shape.children]) ht.2.2⟩
  | app f args =>
    obtain ⟨tf, domain, hf, hshape, hargs⟩ := ht
    refine ⟨tf, domain, has List.mem_cons_self hf, hpart f List.mem_cons_self hf hshape, ?_⟩
    refine List.forall₂_iff_get.mpr ⟨hargs.length_eq, fun i hi hd => ?_⟩
    exact has (List.mem_cons_of_mem f (List.get_mem args ⟨i, hi⟩))
      ((List.forall₂_iff_get.mp hargs).2 i hi hd)
  | all vars body =>
    refine ⟨ht.1, ht.2.1, fun v hv => ?_, has (by simp [Term.Shape.children]) ht.2.2.2⟩
    obtain ⟨hneg, u, n, hn⟩ := ht.2.2.1 v hv
    exact ⟨hneg, u, n, hnode v (List.mem_append_left _ hv) hn⟩
  | bit =>
    obtain ⟨hbool, w, hx, hi⟩ := ht
    exact ⟨hbool, w, width (by simp [Term.Shape.children]) hx, hi⟩
  | bvGe | bvSge =>
    obtain ⟨hbool, w, ha, hb⟩ := ht
    exact ⟨hbool, w, width (by simp [Term.Shape.children]) ha,
      width (by simp [Term.Shape.children]) hb⟩
  | bvNeg => exact ⟨has (by simp [Term.Shape.children]) ht.1, ht.2.imp fun _ => hty⟩
  | bvSum | bvProduct => exact ⟨ht.1, fun a ha => has ha (ht.2.1 a ha), ht.2.2.imp fun _ => hty⟩

/-! ## Growth -/

namespace Extends

variable {s s' s'' : Store}

theorem refl (s : Store) : s.Extends s := ⟨id, id, Nat.le_refl _, Nat.le_refl _, Nat.le_refl _⟩

theorem trans (h : s.Extends s') (h' : s'.Extends s'') : s.Extends s'' where
  ty hty := h'.ty (h.ty hty)
  node hn := h'.node (h.node hn)
  typeSerial := Nat.le_trans h.typeSerial h'.typeSerial
  termSerial := Nat.le_trans h.termSerial h'.termSerial
  slots := Nat.le_trans h.slots h'.slots

theorem has (h : s.Extends s') {t : Term} {ty : Ty} (ht : s.Has t ty) : s'.Has t ty := by
  obtain ⟨⟨shape, hn⟩, hneg⟩ := ht
  exact ⟨⟨shape, h.node hn⟩, hneg⟩

theorem hasWidth (h : s.Extends s') {t : Term} {w : Nat} (ht : s.HasWidth t w) :
    s'.HasWidth t w := by
  obtain ⟨ty, hty, hw⟩ := ht
  exact ⟨ty, h.has hty, h.ty hw⟩

theorem isVar (h : s.Extends s') {v : Term} (hv : s.IsVar v) : s'.IsVar v := by
  obtain ⟨hneg, ty, n, hn⟩ := hv
  exact ⟨hneg, ty, n, h.node hn⟩

theorem typed (h : s.Extends s') {shape : Term.Shape} {ty : Ty} (ht : s.Typed shape ty) :
    s'.Typed shape ty :=
  ht.transfer h.ty (fun _ _ => h.node) fun _ _ _ _ _ => h.ty

theorem tyOk (h : s.Extends s') {shape : Ty.Shape} (ht : s.TyOk shape) : s'.TyOk shape := by
  cases shape with
  | bool => trivial
  | bitVector => exact ht
  | uninterpreted => exact Nat.lt_of_lt_of_le ht h.typeSerial
  | function =>
    refine ⟨ht.1, fun ty hty => ?_⟩
    obtain ⟨shape, hs⟩ := ht.2 ty hty
    exact ⟨shape, h.ty hs⟩

end Extends

theorem later_frame : Frame Wf Later where
  refl h := ⟨h, .refl _⟩
  trans h h' := ⟨h'.wf, h.ext.trans h'.ext⟩
  stable _ h := h.wf

/-! ## Typing -/

section Typing

variable {s : Store} {t : Term} {ty ty' : Ty} {shape : Term.Shape}

theorem Has.unique (h : s.Has t ty) (h' : s.Has t ty') : ty = ty' := by
  obtain ⟨⟨shape, hn⟩, -⟩ := h
  obtain ⟨⟨shape', hn'⟩, -⟩ := h'
  rw [hn] at hn'
  cases hn'
  rfl

theorem Has.ty_eq (h : s.Has t ty) : s.ty t = ty := by
  obtain ⟨⟨shape, hn⟩, -⟩ := h
  simp [Store.ty, hn]

/-- The shape of a live term is its entry. -/
theorem Has.node (h : s.Has t ty) : s.node? t = some (s.shape t, ty) := by
  obtain ⟨⟨shape, hn⟩, -⟩ := h
  simp [Store.shape, shape?, hn]

/-- A shape that is not that of truth is the shape of a term in the store. -/
theorem node_of_shape {shape : Term.Shape} (h : s.shape t = shape) (hne : shape ≠ .truth) :
    ∃ ty, s.node? t = some (shape, ty) := by
  cases hn : s.node? t with
  | none => exact absurd (h.symm.trans (by simp [Store.shape, shape?, hn])) hne
  | some n => exact ⟨n.2, by simp [← h, Store.shape, shape?, hn]⟩

theorem Has.neg (h : s.Has t .bool) : s.Has t.neg .bool := by
  obtain ⟨⟨shape, hn⟩, -⟩ := h
  refine ⟨⟨shape, ?_⟩, fun _ => rfl⟩
  unfold node? at hn ⊢
  rwa [Term.index_neg]

theorem Has.positive (h : s.Has t ty) : s.Has t.positive ty := by
  obtain ⟨⟨shape, hn⟩, -⟩ := h
  refine ⟨⟨shape, ?_⟩, by simp⟩
  unfold node? at hn ⊢
  rwa [Term.index_positive]

theorem HasWidth.unique {w w' : Nat} (h : s.HasWidth t w) (h' : s.HasWidth t w') : w = w' := by
  obtain ⟨ty, hty, hw⟩ := h
  obtain ⟨ty', hty', hw'⟩ := h'
  rw [hty.unique hty', hw'] at hw
  cases hw
  rfl

theorem IsVar.has {v : Term} (h : s.IsVar v) : ∃ ty, s.Has v ty := by
  obtain ⟨hneg, ty, n, hn⟩ := h
  exact ⟨ty, ⟨_, hn⟩, by simp [hneg]⟩

/-- Types are interned: a shape determines its type. -/
theorem Wf.ty_unique (h : s.Wf) {shape : Ty.Shape} (ht : s.tyShape? ty = some shape)
    (ht' : s.tyShape? ty' = some shape) : ty = ty' := by
  unfold tyShape? at ht ht'
  obtain ⟨⟨_, u⟩, hg, rfl⟩ := Option.map_eq_some_iff.mp ht
  obtain ⟨⟨_, u'⟩, hg', heq⟩ := Option.map_eq_some_iff.mp ht'
  simp only at heq
  subst heq
  have hraw := h.types.slot_unique hg hg'
  cases ty
  cases ty'
  exact congrArg Ty.mk hraw

theorem Wf.ty_live (h : s.Wf) (ht : s.Has t ty) : ∃ shape, s.tyShape? ty = some shape := by
  obtain ⟨⟨shape, hn⟩, -⟩ := ht
  exact h.live_ty hn

/-- A shape determines the type of its terms. -/
theorem Wf.typed_unique (h : s.Wf) (ht : s.Typed shape ty) (ht' : s.Typed shape ty') :
    ty = ty' := by
  cases shape with
  | truth | or | xor | eq | all | bit | bvGe | bvSge =>
    first
    | exact ht.trans ht'.symm
    | exact ht.1.trans ht'.1.symm
  | uninterpreted | var => exact ht.1.trans ht'.1.symm
  | bvConst => exact h.ty_unique ht.1 ht'.1
  | ite => exact ht.2.1.unique ht'.2.1
  | app =>
    obtain ⟨tf, domain, hf, hshape, -⟩ := ht
    obtain ⟨tf', domain', hf', hshape', -⟩ := ht'
    rw [hf.unique hf', hshape'] at hshape
    cases hshape
    rfl
  | bvNeg => exact ht.1.unique ht'.1
  | bvSum args | bvProduct args =>
    obtain ⟨hne, hall, -⟩ := ht
    obtain ⟨a, ha⟩ := List.exists_mem_of_ne_nil _ hne
    exact (hall a ha).unique (ht'.2.1 a ha)

theorem exists_has_of_forall₂ {ts : List Term} {tys : List Ty} (h : List.Forall₂ s.Has ts tys)
    (ht : t ∈ ts) :
    ∃ ty, s.Has t ty := by
  induction h with
  | nil => cases ht
  | cons hab _ ih =>
    rcases List.mem_cons.mp ht with rfl | hmem
    · exact ⟨_, hab⟩
    · exact ih hmem

/-- The parts of a typed shape are live. -/
theorem Typed.live (ht : s.Typed shape ty) {c : Term} (hc : c ∈ shape.children) :
    ∃ ty, s.Has c ty := by
  cases shape with
  | truth | bvConst | uninterpreted | var => simp [Term.Shape.children] at hc
  | ite c' a b =>
    simp only [Term.Shape.children, List.mem_cons, List.not_mem_nil, or_false] at hc
    rcases hc with rfl | rfl | rfl
    · exact ⟨_, ht.1⟩
    · exact ⟨_, ht.2.1⟩
    · exact ⟨_, ht.2.2⟩
  | eq a b =>
    obtain ⟨-, ty', -, ha, hb⟩ := ht
    simp only [Term.Shape.children, List.mem_cons, List.not_mem_nil, or_false] at hc
    rcases hc with rfl | rfl
    · exact ⟨_, ha⟩
    · exact ⟨_, hb⟩
  | xor a b =>
    simp only [Term.Shape.children, List.mem_cons, List.not_mem_nil, or_false] at hc
    rcases hc with rfl | rfl
    · exact ⟨_, ht.2.1⟩
    · exact ⟨_, ht.2.2⟩
  | bvGe a b | bvSge a b =>
    obtain ⟨-, w, ⟨ta, ha, -⟩, ⟨tb, hb, -⟩⟩ := ht
    simp only [Term.Shape.children, List.mem_cons, List.not_mem_nil, or_false] at hc
    rcases hc with rfl | rfl
    · exact ⟨_, ha⟩
    · exact ⟨_, hb⟩
  | or args => exact ⟨_, ht.2 c hc⟩
  | bvSum args | bvProduct args => exact ⟨_, ht.2.1 c hc⟩
  | app f args =>
    obtain ⟨tf, domain, hf, -, hargs⟩ := ht
    rcases List.mem_cons.mp hc with rfl | hmem
    · exact ⟨_, hf⟩
    · exact exists_has_of_forall₂ hargs hmem
  | all vars body =>
    rcases List.mem_append.mp hc with hv | hb
    · exact (ht.2.2.1 c hv).has
    · rw [List.mem_singleton] at hb
      exact ⟨_, hb ▸ ht.2.2.2⟩
  | bit x i =>
    obtain ⟨-, w, ⟨tx, hx, -⟩, -⟩ := ht
    simp only [Term.Shape.children, List.mem_singleton] at hc
    exact ⟨_, hc ▸ hx⟩
  | bvNeg x =>
    simp only [Term.Shape.children, List.mem_singleton] at hc
    exact ⟨_, hc ▸ ht.1⟩

/-- What holds of a live term when it holds of its parts, holds of all live terms. -/
theorem Wf.induct (h : s.Wf) {P : Term → Prop}
    (step : ∀ {t shape ty}, s.Has t ty → s.node? t = some (shape, ty) →
      (∀ c ∈ shape.children, P c) → P t) {t : Term}
    {ty : Ty} (ht : s.Has t ty) : P t := by
  obtain ⟨rank, hrank⟩ := h.ranked
  generalize hr : rank t.index = r
  induction r using Nat.strongRecOn generalizing t ty with
  | ind r ih =>
    obtain ⟨shape, hn⟩ := ht.1
    refine step ht hn fun c hc => ?_
    obtain ⟨tc, htc⟩ := (h.typed hn).live hc
    exact ih _ (hr ▸ hrank hn c hc) htc rfl

theorem countP_lt_countP {α : Type} {p q : α → Bool} {l : List α}
    (h : ∀ x ∈ l, p x = true → q x = true)
    (hx : ∃ x ∈ l, q x = true ∧ p x = false) : l.countP p < l.countP q := by
  induction l with
  | nil => simp at hx
  | cons a l ih =>
    have hle : l.countP p ≤ l.countP q := List.countP_mono_left fun x hx' =>
      h x (List.mem_cons_of_mem _ hx')
    have ha := h a List.mem_cons_self
    obtain ⟨x, hmem, hq, hp⟩ := hx
    simp only [List.countP_cons]
    rcases List.mem_cons.mp hmem with rfl | hmem
    · rw [if_pos hq, hp]
      simp
      omega
    · have := ih (fun x hx' => h x (List.mem_cons_of_mem _ hx')) ⟨x, hmem, hq, hp⟩
      cases hpa : p a
      · cases q a <;> simp <;> omega
      · rw [ha hpa]
        simp
        omega

/-- The slots of a well-formed store bound the nesting of its terms: count the live slots of
smaller rank. -/
theorem Wf.bounded (h : s.Wf) : ∃ rank : Nat → Nat,
    (∀ {i shape ty}, s.terms.get? i = some (shape, ty) → ∀ c ∈ shape.children,
      rank c.index < rank i) ∧
      ∀ {i x}, s.terms.get? i = some x → rank i < s.terms.slots.size := by
  obtain ⟨rank, hrank⟩ := h.ranked
  let below (r j : Nat) : Bool := s.terms.isLive j && decide (rank j < r)
  refine ⟨fun i => (List.range s.terms.slots.size).countP (below (rank i)), ?_, ?_⟩
  · intro i shape ty hi c hc
    have hlt := hrank hi c hc
    obtain ⟨tc, ⟨⟨shc, hcn⟩, -⟩⟩ := (h.typed hi).live hc
    have hcn : s.terms.get? c.index = some (shc, tc) := hcn
    refine countP_lt_countP (fun j _ hj => ?_) ⟨c.index, List.mem_range.mpr (Arena.lt_of_get? hcn),
      ?_, ?_⟩
    · simp only [below, Bool.and_eq_true, decide_eq_true_eq] at hj ⊢
      exact ⟨hj.1, by omega⟩
    · simp only [below, Arena.isLive, hcn]
      simpa using hlt
    · simp [below]
  · intro i x hi
    have hmem : i ∈ List.range s.terms.slots.size := List.mem_range.mpr (Arena.lt_of_get? hi)
    have hcount := countP_lt_countP (p := below (rank i)) (q := fun _ => true) (fun _ _ _ => rfl)
      ⟨i, hmem, rfl, by simp [below]⟩
    simpa using hcount

end Typing

/-! ## Interning -/

section Intern

variable {s : Store}

theorem Wf.rank_children (hw : s.Wf) :
    ∃ rank : Term → Nat, ∀ t, ∀ c ∈ (s.shape t).children, rank c < rank t := by
  obtain ⟨rank, hrank⟩ := hw.ranked
  refine ⟨fun t => rank t.index, fun t c hc => ?_⟩
  cases hn : s.node? t with
  | none => simp [shape, shape?, hn, Term.Shape.children] at hc
  | some n =>
    rw [shape, shape?, hn] at hc
    exact hrank hn c hc

/-- The live terms are those whose rank is below some bound. -/
theorem Wf.rank_live (hw : s.Wf) : ∃ (rank : Term → Nat) (top : Nat),
    (∀ t, ∀ c ∈ (s.shape t).children, rank c < rank t) ∧ ∀ t, rank t < top ↔ ∃ ty, s.Has t ty := by
  classical
  obtain ⟨rank, hrank, hbound⟩ := hw.bounded
  refine ⟨fun t => if ∃ ty, s.Has t ty then rank t.index else s.terms.slots.size,
    s.terms.slots.size, fun t c hc => ?_,
    fun t => ?_⟩
  · beta_reduce
    cases hn : s.node? t with
    | none => simp [shape, shape?, hn, Term.Shape.children] at hc
    | some n =>
      rw [shape, shape?, hn] at hc
      have hlt : rank c.index < rank t.index := hrank hn c hc
      have hlive : ∃ ty, s.Has c ty := (hw.typed hn).live hc
      rw [if_pos hlive]
      split
      · exact hlt
      · exact Nat.lt_trans hlt (hbound hn)
  · beta_reduce
    split
    next hlive =>
      have hbelow : rank t.index < s.terms.slots.size := by
        obtain ⟨ty, ⟨shape, hn⟩, -⟩ := hlive
        exact hbound hn
      exact ⟨fun _ => hlive, fun _ => hbelow⟩
    next hdead => exact ⟨fun hlt => absurd hlt (Nat.lt_irrefl _), fun hlive => absurd hlive hdead⟩

theorem serialBelow_mono {shape : Term.Shape} {m n : Nat} (h : SerialBelow m shape) (hle : m ≤ n) :
    SerialBelow n shape := by
  cases shape with
  | uninterpreted | var => exact Nat.lt_of_lt_of_le h hle
  | _ => trivial

theorem size_le_intern {κ ν : Type} [BEq κ] [Hashable κ] (a : Arena κ ν) (key : κ) (payload : ν) :
    a.slots.size ≤ (a.intern key payload).2.slots.size := by
  obtain ⟨slots, index, free⟩ := a
  unfold Arena.intern
  split
  · exact Nat.le_refl _
  · cases free <;> simp

theorem exists_bound {α : Type} (f : α → Nat) (as : List α) : ∃ top, ∀ a ∈ as, f a < top := by
  induction as with
  | nil => exact ⟨0, by simp⟩
  | cons a as ih =>
    obtain ⟨top, htop⟩ := ih
    refine ⟨max top (f a + 1), fun b hb => ?_⟩
    rcases List.mem_cons.mp hb with rfl | hmem
    · omega
    · have := htop b hmem
      omega

/-- A store with a larger arena of terms in which every new term is typed. -/
theorem Wf.withTerms (h : s.Wf) {terms : Arena Term.Shape Ty} {i : Nat} {shape : Term.Shape}
    {ty : Ty} (hv : terms.Valid 1) (hdead : s.terms.get? i = none)
    (hget : ∀ j, terms.get? j = if j = i then some (shape, ty) else s.terms.get? j)
    (hsize : s.terms.slots.size ≤ terms.slots.size) (ht : s.Typed shape ty)
    (hlive : ∃ tyShape, s.tyShape? ty = some tyShape) (hser : SerialBelow s.termSerial shape) :
    Later s { s with terms } := by
  have hold : ∀ {j x}, s.terms.get? j = some x → terms.get? j = some x := by
    intro j x hj
    rw [hget, if_neg, hj]
    intro heq
    rw [heq, hdead] at hj
    cases hj
  have hext : s.Extends { s with terms } := ⟨id, hold, Nat.le_refl _, Nat.le_refl _, hsize⟩
  have hnew : ∀ {j sh tj}, terms.get? j = some (sh, tj) → (j = i ∧ sh = shape ∧ tj = ty) ∨
      s.terms.get? j = some (sh, tj) := by
    intro j sh tj hj
    rw [hget] at hj
    split at hj
    next heq =>
      cases hj
      exact .inl ⟨heq, rfl, rfl⟩
    next => exact .inr hj
  refine ⟨⟨h.types, hv, h.bool_ty, hold h.truth, fun hty => hext.tyOk (h.ty_ok hty), ?_, ?_,
    ?_, ?_⟩, hext⟩
  · intro j sh tj hj
    rcases hnew hj with ⟨-, rfl, rfl⟩ | hj
    · exact hext.typed ht
    · exact hext.typed (h.typed hj)
  · intro j sh tj hj
    rcases hnew hj with ⟨-, rfl, rfl⟩ | hj
    · exact hlive
    · exact h.live_ty hj
  · intro j sh tj hj
    rcases hnew hj with ⟨-, rfl, rfl⟩ | hj
    · exact hser
    · exact h.serial hj
  · -- the new term is ranked above its parts; nothing has it as a part, since parts are live
    obtain ⟨rank, hrank⟩ := h.ranked
    obtain ⟨top, htop⟩ := exists_bound (fun c : Term => rank c.index) shape.children
    refine ⟨fun j => if j = i then top else rank j, ?_⟩
    intro j sh tj hj c hc
    rcases hnew hj with ⟨rfl, rfl, rfl⟩ | hj
    · have hci : c.index ≠ j := by
        obtain ⟨tc, ⟨⟨shc, hcn⟩, -⟩⟩ := ht.live hc
        intro heq
        unfold node? at hcn
        rw [heq, hdead] at hcn
        cases hcn
      simp only [if_neg hci, if_pos]
      exact htop c hc
    · have hji : j ≠ i := by
        intro heq
        rw [heq, hdead] at hj
        cases hj
      have hci : c.index ≠ i := by
        obtain ⟨tc, ⟨⟨shc, hcn⟩, -⟩⟩ := (h.typed hj).live hc
        intro heq
        unfold node? at hcn
        rw [heq, hdead] at hcn
        cases hcn
      simp only [if_neg hci, if_neg hji]
      exact hrank hj c hc

/-- Interning a typed shape answers a positive term of that shape. -/
theorem intern_spec (h : s.Wf) {shape : Term.Shape} {ty : Ty} (ht : s.Typed shape ty)
    (hlive : ∃ tyShape, s.tyShape? ty = some tyShape) (hser : SerialBelow s.termSerial shape) :
    ∃ i s', intern shape ty s = .ok (.ofIndex i) s' ∧ Later s s' ∧
    s'.terms.get? i = some (shape, ty) := by
  refine ⟨(s.terms.intern shape ty).1, { s with terms := (s.terms.intern shape ty).2 }, rfl, ?_⟩
  cases hf : s.terms.find? shape with
  | some i =>
    rw [Arena.intern_of_find hf]
    obtain ⟨ty', hi⟩ := h.terms.get_of_find hf
    have hty : ty = ty' := h.typed_unique ht (h.typed hi)
    exact ⟨later_frame.refl h, hty ▸ hi⟩
  | none =>
    obtain ⟨hdead, -, hget, hv⟩ := h.terms.intern_new hf ty
    refine ⟨h.withTerms hv hdead hget (size_le_intern _ _ _) ht hlive hser, ?_⟩
    rw [hget, if_pos rfl]

/-- Interning a shape of types whose parts are live. -/
theorem internTy_spec (h : s.Wf) (shape : Ty.Shape) (ht : s.TyOk shape) :
    ∃ ty s', internTy shape s = .ok ty s' ∧ Later s s' ∧ s'.tyShape? ty = some shape ∧
    s'.terms = s.terms ∧
      s'.termSerial = s.termSerial := by
  refine ⟨⟨(s.types.intern shape ()).1⟩, { s with types := (s.types.intern shape ()).2 }, rfl, ?_⟩
  obtain ⟨hv, hold, v, hnew⟩ := h.types.intern shape ()
  have hty : ∀ {ty sh}, s.tyShape? ty = some sh →
      ({ s with types := (s.types.intern shape ()).2 } : Store).tyShape? ty = some sh := by
    intro ty sh hsh
    unfold tyShape? at hsh ⊢
    obtain ⟨x, hx, rfl⟩ := Option.map_eq_some_iff.mp hsh
    rw [hold _ x hx]
    rfl
  have hext : s.Extends { s with types := (s.types.intern shape ()).2 } :=
    ⟨hty, id, Nat.le_refl _, Nat.le_refl _, Nat.le_refl _⟩
  refine ⟨⟨⟨hv, h.terms, hty h.bool_ty, h.truth, ?_, fun hi => hext.typed (h.typed hi), ?_,
    h.serial, h.ranked⟩, hext⟩,
    ?_, rfl, rfl⟩
  · intro ty sh hsh
    cases hs : s.tyShape? ty with
    | some sh' =>
      rw [hty hs] at hsh
      cases hsh
      exact hext.tyOk (h.ty_ok hs)
    | none =>
      have hne : sh = shape := by
        unfold tyShape? at hsh hs
        obtain ⟨⟨sh', u⟩, hx, rfl⟩ := Option.map_eq_some_iff.mp hsh
        cases hf : s.types.find? shape with
        | some i =>
          rw [Arena.intern_of_find hf] at hx
          rw [hx] at hs
          cases hs
        | none =>
          obtain ⟨-, -, hget, -⟩ := h.types.intern_new hf ()
          rw [hget] at hx
          split at hx
          · cases hx
            rfl
          · rw [hx] at hs
            cases hs
      exact hne ▸ hext.tyOk ht
  · intro i sh ty hi
    obtain ⟨tsh, hts⟩ := h.live_ty hi
    exact ⟨tsh, hty hts⟩
  · unfold tyShape?
    rw [hnew]
    rfl

end Intern

/-- The store with the boolean type and the truth constant only is well-formed. -/
theorem wf_empty : Store.empty.Wf := by
  have hty := (Arena.valid_empty (κ := Ty.Shape) (ν := Unit) 0).intern_new
    (Arena.find?_empty 0 .bool) ()
  have htm := (Arena.valid_empty (κ := Term.Shape) (ν := Ty) 1).intern_new
    (Arena.find?_empty 1 .truth) .bool
  have hi₁ : ((Arena.empty 0 : Arena Ty.Shape Unit).intern .bool ()).1 = 0 := by
    simp [Arena.intern, Arena.empty]
  have hi₂ : ((Arena.empty 1 : Arena Term.Shape Ty).intern .truth .bool).1 = 1 := by
    simp [Arena.intern, Arena.empty]
  obtain ⟨-, -, hgty, hvty⟩ := hty
  obtain ⟨-, -, hgtm, hvtm⟩ := htm
  rw [hi₁] at hgty
  rw [hi₂] at hgtm
  have hshape : ∀ {ty shape}, Store.empty.tyShape? ty = some shape → shape = .bool := by
    intro ty shape h
    unfold tyShape? Store.empty at h
    rw [hgty] at h
    split at h
    · simpa using h.symm
    · simp at h
  have hnode : ∀ {i shape ty}, Store.empty.terms.get? i = some (shape, ty) → shape = .truth ∧
      ty = .bool := by
    intro i shape ty h
    unfold Store.empty at h
    rw [hgtm] at h
    split at h
    · cases h
      exact ⟨rfl, rfl⟩
    · simp at h
  have hbool : Store.empty.tyShape? .bool = some .bool := by
    unfold tyShape? Store.empty
    rw [hgty]
    rfl
  refine ⟨hvty, hvtm, hbool, ?_, ?_, ?_, ?_, ?_, ⟨fun _ => 0, ?_⟩⟩
  · unfold node? Store.empty
    rw [hgtm]
    rfl
  · intro ty shape h
    rw [hshape h]
    trivial
  · intro i shape ty h
    obtain ⟨rfl, rfl⟩ := hnode h
    rfl
  · intro i shape ty h
    obtain ⟨rfl, rfl⟩ := hnode h
    exact ⟨_, hbool⟩
  · intro i shape ty h
    obtain ⟨rfl, rfl⟩ := hnode h
    trivial
  · intro i shape ty h c hc
    obtain ⟨rfl, rfl⟩ := hnode h
    cases hc

end Entail.Store
