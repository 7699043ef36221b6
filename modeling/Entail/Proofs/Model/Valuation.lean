import Entail.Proofs.Model.Words

/-!
# Models as valuations

A model gives values to some terms of a store. Its values are read as values over elements, so that
what holds in every valuation, such as what a constructor builds, holds of evaluation.
-/

namespace Entail

namespace Value

/-- The value of a term of type `ty` over elements. What is no truth value and no word of the type
stands for itself. -/
def toVal (s : Store) (ty : Ty) : Value → Val fun _ => Value
  | .bool b => .bool b
  | .bv w n => if s.tyWidth? ty = some w then .word n else .elem ty (.bv w n)
  | .abs sort i => .elem ty (.abs sort i)

variable {s : Store} {ty : Ty} {u v : Value}

theorem toVal_word {w : Nat} (hw : s.tyShape? ty = some (.bitVector w)) (n : Nat) :
    (bv w n).toVal s ty = .word n := by
  rw [toVal, if_pos (Store.tyWidth?_eq_some.mpr hw)]

/-- The value of a term of type `ty` that a value over elements comes from. -/
def ofVal (s : Store) (ty : Ty) : Val (fun _ => Value) → Value
  | .bool b => .bool b
  | .word n => .bv ((s.tyWidth? ty).getD 0) n
  | .elem _ v => v

theorem ofVal_toVal (s : Store) (ty : Ty) (v : Value) : ofVal s ty (v.toVal s ty) = v := by
  cases v with
  | bool b => rfl
  | abs sort i => rfl
  | bv w n =>
    show ofVal s ty (if s.tyWidth? ty = some w then .word n else .elem ty (.bv w n)) = _
    split
    next hw => rw [ofVal, hw, Option.getD_some]
    next => rfl

/-- Values of terms of one type are not confused. -/
theorem toVal_injective (s : Store) (ty : Ty) : Function.Injective (toVal s ty) :=
  Function.LeftInverse.injective (ofVal_toVal s ty)

theorem Fits.toVal_is (h : v.Fits s ty) : (v.toVal s ty).Is s ty := by
  unfold Fits at h
  unfold Val.Is
  cases hty : s.tyShape? ty with
  | none => trivial
  | some tyShape =>
    rw [hty] at h
    cases tyShape with
    | bool =>
      obtain ⟨b, rfl⟩ := h
      exact ⟨b, rfl⟩
    | bitVector w =>
      obtain ⟨n, rfl, hlt⟩ := h
      exact ⟨n, toVal_word hty n, hlt⟩
    | uninterpreted k =>
      obtain ⟨i, rfl⟩ := h
      exact ⟨_, rfl⟩
    | function => trivial

end Value

namespace Model

variable {m : Model} {s s' : Store} {t a b p : Term} {ty : Ty} {shape : Term.Shape}
  {u v : Value} {w n : Nat}

/-! ## Nodes -/

/-- A node has a value when all its parts have one, and over elements it comes from theirs. -/
theorem exists_nodeValue (hs : s.Wf) (ht : s.Typed shape ty) (hp : s.Has p ty)
    (hshape : shape.isInterpreted = true)
    {val : Term → Value → Prop} {x : Term → Value} (hval : ∀ c ∈ shape.children, val c (x c))
    (hfits : ∀ c ∈ shape.children, (x c).Fits s (s.ty c)) :
    ∃ v, NodeValue m s val p shape v ∧ v.Fits s ty ∧ v.toVal s ty =
      shape.combine (s.partWidth shape) (shape.children.map fun c => (x c).toVal s (s.ty c)) := by
  -- what one child contributes as a truth value or as a word, and a list of words together
  have truth {c : Term} (hc : c ∈ shape.children) (hty : s.Has c .bool) :
      ∃ y, val c (.bool y) ∧ (x c).toVal s (s.ty c) = .bool y := by
    obtain ⟨y, hy⟩ := (Value.fits_bool hs).mp (hty.ty_eq ▸ hfits c hc)
    exact ⟨y, hy ▸ hval c hc, by rw [hy]; rfl⟩
  have word {c : Term} {w : Nat} (hc : c ∈ shape.children) (hw : s.HasWidth c w) :
      ∃ n, val c (.bv w n) ∧ (x c).toVal s (s.ty c) = .word n := by
    obtain ⟨tc, hctc, hwidth⟩ := hw
    obtain ⟨n, hn, -⟩ := (Value.fits_word hwidth).mp (hctc.ty_eq ▸ hfits c hc)
    exact ⟨n, hn ▸ hval c hc, by rw [hn, hctc.ty_eq, Value.toVal_word hwidth]⟩
  have words {args : List Term} {w : Nat} (hargs : ∀ a ∈ args, a ∈ shape.children ∧
    s.HasWidth a w) :
      ∃ ns, List.Forall₂ (fun a n => ∃ w', val a (.bv w' n)) args ns ∧
        (args.map fun a => (x a).toVal s (s.ty a)).map Val.toNat = ns := by
    induction args with
    | nil => exact ⟨[], .nil, rfl⟩
    | cons a args ih =>
      obtain ⟨n, hn, heq⟩ := word (hargs a List.mem_cons_self).1 (hargs a List.mem_cons_self).2
      obtain ⟨ns, hns, hmap⟩ := ih fun c hc => hargs c (List.mem_cons_of_mem _ hc)
      exact ⟨n :: ns, .cons ⟨w, hn⟩ hns, by rw [List.map_cons, List.map_cons, heq, hmap]; rfl⟩
  have width {w : Nat} (hw : s.tyShape? ty = some (.bitVector w)) : s.width? p = some w := by
    rw [Store.width?, hp.ty_eq, Store.tyWidth?_eq_some, hw]
  have bool {y : Bool} (hty : ty = .bool) : (Value.bool y).Fits s ty :=
    hty ▸ (Value.fits_bool hs).mpr ⟨y, rfl⟩
  cases shape with
  | uninterpreted | var | app | all => cases hshape
  | truth => exact ⟨_, .truth, bool ht, rfl⟩
  | bvConst w n =>
    exact ⟨_, .bvConst, (Value.fits_word ht.1).mpr ⟨n, rfl, ht.2⟩, Value.toVal_word ht.1 n⟩
  | ite c a b =>
    have ha : a ∈ (Term.Shape.ite c a b).children := by simp [Term.Shape.children]
    have hb : b ∈ (Term.Shape.ite c a b).children := by simp [Term.Shape.children]
    obtain ⟨y, hy, heq⟩ := truth (by simp [Term.Shape.children]) ht.1
    simp only [Term.Shape.combine, Term.Shape.children, List.map_cons, List.map_nil, heq]
    cases y with
    | true => exact ⟨x a, .ite hy (hval a ha), ht.2.1.ty_eq ▸ hfits a ha, by rw [ht.2.1.ty_eq]; rfl⟩
    | false =>
      exact ⟨x b, .ite hy (hval b hb), ht.2.2.ty_eq ▸ hfits b hb, by rw [ht.2.2.ty_eq]; rfl⟩
  | eq a b =>
    obtain ⟨rfl, ty', -, ha, hb⟩ := ht
    refine ⟨_, .eq (hval a (by simp [Term.Shape.children]))
      (hval b (by simp [Term.Shape.children])), bool rfl, ?_⟩
    simp only [Term.Shape.combine, Term.Shape.children, List.map_cons, List.map_nil,
      ha.ty_eq, hb.ty_eq,
      (Value.toVal_injective s ty').eq_iff]
    exact (Val.ofProp_eq_bool beq_iff_eq.symm).symm
  | or args =>
    have hall : ∀ a ∈ args, val a (.bool ((x a).toVal s (s.ty a)).toBool) := fun a ha => by
      obtain ⟨y, hy, heq⟩ := truth ha (ht.2 a ha)
      rwa [heq]
    exact ⟨_, .or hall, bool ht.1, (Val.ofProp_eq_bool (by simp [Term.Shape.children])).symm⟩
  | xor a b =>
    obtain ⟨y, hy, heq⟩ := truth (by simp [Term.Shape.children]) ht.2.1
    obtain ⟨z, hz, heq'⟩ := truth (by simp [Term.Shape.children]) ht.2.2
    refine ⟨_, .xor hy hz, bool ht.1, ?_⟩
    simp only [Term.Shape.combine, Term.Shape.children, List.map_cons, List.map_nil, heq, heq']
    rfl
  | bit c i =>
    obtain ⟨rfl, w, hw, -⟩ := ht
    obtain ⟨n, hn, heq⟩ := word (by simp [Term.Shape.children]) hw
    refine ⟨_, .bit hn, bool rfl, ?_⟩
    simp only [Term.Shape.combine, Term.Shape.children, List.map_cons, List.map_nil, heq]
    rfl
  | bvGe a b =>
    obtain ⟨rfl, w, ha, hb⟩ := ht
    obtain ⟨y, hy, heq⟩ := word (by simp [Term.Shape.children]) ha
    obtain ⟨z, hz, heq'⟩ := word (by simp [Term.Shape.children]) hb
    refine ⟨_, .bvGe hy hz, bool rfl, ?_⟩
    simp only [Term.Shape.combine, Term.Shape.children, List.map_cons, List.map_nil, heq, heq']
    exact (Val.ofProp_eq_bool (by simp)).symm
  | bvSge a b =>
    obtain ⟨rfl, w, ha, hb⟩ := ht
    obtain ⟨y, hy, heq⟩ := word (by simp [Term.Shape.children]) ha
    obtain ⟨z, hz, heq'⟩ := word (by simp [Term.Shape.children]) hb
    have hwidth : s.partWidth (.bvSge a b) = w := ha.width_eq
    refine ⟨_, .bvSge hy hz, bool rfl, ?_⟩
    simp only [Term.Shape.combine, Term.Shape.children, List.map_cons, List.map_nil, heq,
      heq', hwidth]
    exact (Val.ofProp_eq_bool (by simp)).symm
  | bvNeg c =>
    obtain ⟨hc, w, hw⟩ := ht
    obtain ⟨n, hn, heq⟩ := word (by simp [Term.Shape.children]) ⟨ty, hc, hw⟩
    have hwidth : s.partWidth (.bvNeg c) = w := Interp.width_of_ty hc hw
    refine ⟨_, .bvNeg hn, (Value.fits_word hw).mpr ⟨_, rfl, Bits.neg_lt w n⟩, ?_⟩
    simp only [Term.Shape.combine, Term.Shape.children, List.map_cons, List.map_nil, heq, hwidth]
    exact Value.toVal_word hw _
  | bvSum args =>
    obtain ⟨hne, hall, w, hw⟩ := ht
    obtain ⟨ns, hns, hmap⟩ := words fun a ha => ⟨ha, ty, hall a ha, hw⟩
    obtain ⟨first, more, rfl⟩ := List.exists_cons_of_ne_nil hne
    have hwidth : Interp.width s first = w := Interp.width_of_ty (hall first List.mem_cons_self) hw
    refine ⟨_, .bvSum (width hw) hns, (Value.fits_word hw).mpr ⟨_, rfl, Bits.trunc_lt _ _⟩, ?_⟩
    rw [Value.toVal_word hw, ← hmap]
    simp only [Term.Shape.combine, Term.Shape.children, Store.partWidth, List.headD_cons, hwidth]
    rfl
  | bvProduct args =>
    obtain ⟨hne, hall, w, hw⟩ := ht
    obtain ⟨ns, hns, hmap⟩ := words fun a ha => ⟨ha, ty, hall a ha, hw⟩
    obtain ⟨first, more, rfl⟩ := List.exists_cons_of_ne_nil hne
    have hwidth : Interp.width s first = w := Interp.width_of_ty (hall first List.mem_cons_self) hw
    refine ⟨_, .bvProduct (width hw) hns, (Value.fits_word hw).mpr ⟨_, rfl, Bits.trunc_lt _ _⟩, ?_⟩
    rw [Value.toVal_word hw, ← hmap]
    simp only [Term.Shape.combine, Term.Shape.children, Store.partWidth, List.headD_cons, hwidth]
    rfl

/-- The parts of a node of a strict shape have values if it has one. -/
theorem NodeValue.strict (hshape : shape.isStrict = true)
    (h : NodeValue m s (m.Evaluates s) p shape v) :
    ∀ c ∈ shape.children, ∃ u, m.Evaluates s c u := by
  have words {args : List Term} {ns : List Nat}
      (h : List.Forall₂ (fun a n => ∃ w, m.Evaluates s a (.bv w n)) args ns) : ∀ a ∈ args, ∃ u,
      m.Evaluates s a u := by
    induction h with
    | nil => simp
    | cons ha _ ih =>
      obtain ⟨w, ha⟩ := ha
      exact List.forall_mem_cons.mpr ⟨⟨_, ha⟩, ih⟩
  cases h with
  | truth | bvConst => exact nofun
  | valued | defined | app | ite | orTrue | orFalse => cases hshape
  | eq ha hb => exact List.forall_mem_cons.mpr ⟨⟨_, ha⟩, List.forall_mem_singleton.mpr ⟨_, hb⟩⟩
  | xor ha hb | bvGe ha hb | bvSge ha hb =>
    exact List.forall_mem_cons.mpr ⟨⟨_, ha⟩, List.forall_mem_singleton.mpr ⟨_, hb⟩⟩
  | bit hx | bvNeg hx => exact List.forall_mem_singleton.mpr ⟨_, hx⟩
  | bvSum _ hargs | bvProduct _ hargs => exact words hargs

/-! ## Values over elements -/

open Classical in
/-- The value of a term over elements; terms without value count as false. -/
noncomputable def val (m : Model) (s : Store) (t : Term) : Val fun _ => Value :=
  if h : ∃ x ty v, m.IsValue s t ty v ∧ x = v.toVal s ty then h.choose else .bool false

theorem IsValue.val_eq (h : m.IsValue s t ty v) : m.val s t = v.toVal s ty := by
  have hex : ∃ x ty v, m.IsValue s t ty v ∧ x = v.toVal s ty := ⟨_, ty, v, h, rfl⟩
  obtain ⟨ty', v', h', heq⟩ := hex.choose_spec
  rw [val, dif_pos hex, heq, h'.has.unique h.has, h'.value.unique h.value]

theorem IsTruth.val_eq (hs : s.Wf) {x : Bool} (h : m.IsTruth s t x) : m.val s t = .bool x :=
  IsValue.val_eq ⟨h.has, h.value, (Value.fits_bool hs).mpr ⟨x, rfl⟩⟩

/-- Terms of one type have the same value exactly when their values over elements are the same. -/
theorem IsValue.val_eq_val_iff (ha : m.IsValue s a ty u) (hb : m.IsValue s b ty v) :
    m.val s a = m.val s b ↔ u = v := by
  rw [ha.val_eq, hb.val_eq, (Value.toVal_injective s ty).eq_iff]

/-- `t` has a value of its type; under a strict shape the parts have values of theirs, and
so on down. -/
inductive Valued (m : Model) (s : Store) : Term → Prop where
  | intro {t : Term} {ty : Ty} {v : Value} (h : m.IsValue s t ty v)
    (hparts : ∀ {shape : Term.Shape} {ty' : Ty}, s.node? t = some (shape, ty') →
      shape.isStrict = true →
      ∀ c ∈ shape.children, Valued m s c) : Valued m s t

namespace Valued

theorem isValue (h : m.Valued s t) : ∃ ty v, m.IsValue s t ty v := by
  obtain ⟨h, -⟩ := h
  exact ⟨_, _, h⟩

theorem part (h : m.Valued s t) (hn : s.node? t = some (shape, ty))
    (hshape : shape.isStrict = true) :
    ∀ c ∈ shape.children, m.Valued s c := by
  obtain ⟨-, hparts⟩ := h
  exact hparts hn hshape

/-- What is valued stays so when the store grows. -/
theorem extends_ (h : m.Valued s t) (hs : s.Wf) (e : s.Extends s') : m.Valued s' t := by
  induction h with
  | intro h _ ih =>
    refine .intro (h.extends_ hs e) fun hn hshape c hc => ih (Eq.trans ?_ hn) hshape c hc
    rw [e.node h.has.node, h.has.node]

end Valued

/-- In a model that is well typed, every live term that has a value is valued. -/
theorem Evaluates.valued (hm : m.WellTyped s) (hs : s.Wf) (h : m.Evaluates s t v)
    (ht : s.Has t ty) : m.Valued s t := by
  refine hs.induct (P := fun t => ∀ v, m.Evaluates s t v → m.Valued s t)
    (fun {t shape ty} ht hn ih v h => ?_) ht v h
  refine .intro (h.isValue hm hs ht) fun {shape' ty'} hn' hshape c hc => ?_
  obtain ⟨rfl, rfl⟩ := Prod.mk.inj (Option.some.inj (hn.symm.trans hn'))
  obtain ⟨shape', v₀, hshape', hnode, -⟩ := evaluates_iff.mp h
  rw [Store.shape?, hn] at hshape'
  cases hshape'
  obtain ⟨u, hu⟩ := hnode.strict hshape c hc
  exact ih c hc u hu

/-- The terms that are valued, with their values. -/
noncomputable def valuation (m : Model) (s : Store) : Valuation fun _ => Value where
  defined := m.Valued s
  value := m.val s

/-- The value of a node comes from the values of its parts; those that it does without
need no value. -/
theorem Valued.val_eq_combine (hs : s.Wf) (h : m.Valued s p) (hn : s.node? p = some (shape, ty))
    (hp : p.isNegated = false) (hshape : shape.isInterpreted = true) :
    m.val s p = shape.combine (s.partWidth shape) (shape.children.map (m.val s)) := by
  have hty : s.Has p ty := ⟨⟨_, hn⟩, by simp [hp]⟩
  have htyped := hs.typed hn
  obtain ⟨ty', v, hv⟩ := h.isValue
  obtain rfl := hv.has.unique hty
  have truth {c : Term} {x : Bool} (hc : m.Evaluates s c (.bool x)) (hty : s.Has c .bool) :
      m.val s c = .bool x :=
    IsTruth.val_eq hs ⟨hty, hc⟩
  rw [hv.val_eq]
  cases hstrict : shape.isStrict with
  | true =>
    -- all parts have values, so the node has the value that they make
    choose! tc x hx using fun c hc => (h.part hn hstrict c hc).isValue
    obtain ⟨v', hv', -, heq⟩ := exists_nodeValue (m := m) hs htyped hty hshape
      (fun c hc => (hx c hc).value)
      fun c hc => (hx c hc).has.ty_eq ▸ (hx c hc).fits
    obtain rfl := hv.value.unique (.of_node hn hp hv')
    refine heq.trans (congrArg _ (List.map_congr_left fun c hc => ?_))
    rw [(hx c hc).val_eq, (hx c hc).has.ty_eq]
  | false =>
  have hnode := hv.value.node hn hp
  cases hnode with
  | valued | defined | app => cases hshape
  | @ite c a b x _ hc hbranch =>
    simp only [Term.Shape.combine, Term.Shape.children, List.map_cons, List.map_nil,
      truth hc htyped.1]
    cases x with
    | true => exact (IsValue.val_eq ⟨htyped.2.1, hbranch, hv.fits⟩).symm
    | false => exact (IsValue.val_eq ⟨htyped.2.2, hbranch, hv.fits⟩).symm
  | @orTrue before after a _ ha =>
    refine (Val.ofProp_eq_bool (iff_of_true ⟨m.val s a, ?_, ?_⟩ rfl)).symm
    · exact List.mem_map.mpr ⟨a, by simp [Term.Shape.children], rfl⟩
    · rw [truth ha (htyped.2 a (by simp))]
      rfl
  | @orFalse args hargs =>
    refine (Val.ofProp_eq_bool (iff_of_false ?_ Bool.false_ne_true)).symm
    rintro ⟨x, hx, htrue⟩
    obtain ⟨a, ha, rfl⟩ := List.mem_map.mp hx
    rw [truth (hargs a ha) (htyped.2 a ha)] at htrue
    cases htrue
  | truth | bvConst | eq | xor | bit | bvGe | bvSge | bvNeg | bvSum | bvProduct => cases hstrict

theorem valuation_lawful (hs : s.Wf) : (m.valuation s).Lawful s where
  is_type := by
    intro t ty h ht
    obtain ⟨ty', v, hv⟩ := h.isValue
    obtain rfl := hv.has.unique ht
    have his : (m.val s t).Is s ty' := hv.val_eq ▸ hv.fits.toVal_is
    exact his
  neg := by
    intro t h ht
    obtain ⟨ty', v, hv⟩ := h.isValue
    obtain rfl := hv.has.unique ht
    obtain ⟨x, rfl, hx⟩ := hv.truth hs
    refine ⟨.intro ⟨hx.neg.has, hx.neg.value, (Value.fits_bool hs).mpr ⟨_, rfl⟩⟩ fun hn => ?_, ?_⟩
    · rw [Store.node?, Term.index_neg] at hn
      exact h.part hn
    · exact (hx.neg.val_eq hs).trans
        (by rw [show (m.valuation s).value t = .bool x from hx.val_eq hs]; rfl)
  node_defined {p shape ty} hn hp hshape hkids := by
    have hty : s.Has p ty := ⟨⟨_, hn⟩, by simp [hp]⟩
    choose! tc x hx using fun c hc => (hkids c hc).isValue
    obtain ⟨v, hv, hfits, -⟩ := exists_nodeValue (m := m) hs (hs.typed hn) hty hshape
      (fun c hc => (hx c hc).value)
      fun c hc => (hx c hc).has.ty_eq ▸ (hx c hc).fits
    refine .intro ⟨hty, .of_node hn hp hv, hfits⟩ fun {shape' ty'} hn' _ => ?_
    obtain ⟨rfl, rfl⟩ := Prod.mk.inj (Option.some.inj (hn.symm.trans hn'))
    exact hkids
  part hn _ hshape hdef := hdef.part hn hshape
  node hn hp hshape hdef := hdef.val_eq_combine hs hn hp hshape

/-- Two terms of a type have the same value in a well-typed model when both are valued and their
values over elements are the same. -/
theorem exists_evaluates_iff (hs : s.Wf) (hm : m.WellTyped s) (ha : s.Has a ty) (hb : s.Has b ty) :
    (∃ u, m.Evaluates s a u ∧ m.Evaluates s b u) ↔
      (m.valuation s).defined a ∧ (m.valuation s).defined b ∧
      (m.valuation s).value a = (m.valuation s).value b := by
  constructor
  · rintro ⟨u, hau, hbu⟩
    exact ⟨hau.valued hm hs ha, hbu.valued hm hs hb,
      ((hau.isValue hm hs ha).val_eq_val_iff (hbu.isValue hm hs hb)).mpr rfl⟩
  · rintro ⟨hda, hdb, heq⟩
    obtain ⟨ta, u, hau⟩ := hda.isValue
    obtain ⟨tb, v, hbv⟩ := hdb.isValue
    obtain rfl := hau.has.unique ha
    obtain rfl := hbv.has.unique hb
    obtain rfl := (hau.val_eq_val_iff hbv).mp heq
    exact ⟨u, hau.value, hbv.value⟩

end Model
end Entail
