import Entail.Proofs.Store.Build
import Mathlib.Data.Nat.ModEq

/-!
# What the constructors of bitvectors build

Sums and products are flattened, their constants are folded and their arguments are sorted. Modulo
the number of words none of this changes the value; the argument is the same for both, so it is made
once, for an operation that is associative, commutative and respects the modulus.
-/

namespace Entail

namespace Bits

theorem trunc_modEq (w n : Nat) : trunc w n ≡ n [MOD modulus w] := Nat.mod_modEq n _

theorem trunc_eq_of_lt {w n : Nat} (h : n < modulus w) : trunc w n = n := Nat.mod_eq_of_lt h

theorem trunc_eq_trunc {w m n : Nat} (h : m ≡ n [MOD modulus w]) : trunc w m = trunc w n := h

end Bits

/-- An operation on words that sums and products have in common. -/
structure WordOp where
  op : Nat → Nat → Nat
  neutral : Nat
  comm : ∀ a b, op a b = op b a
  assoc : ∀ a b c, op (op a b) c = op a (op b c)
  neutral_op : ∀ a, op neutral a = a
  modEq : ∀ {m a a' b b'}, a ≡ a' [MOD m] → b ≡ b' [MOD m] → op a b ≡ op a' b' [MOD m]

namespace WordOp

/-- Addition of words. -/
def add : WordOp := ⟨(· + ·), 0, Nat.add_comm, Nat.add_assoc, Nat.zero_add, Nat.ModEq.add⟩

/-- Multiplication of words. -/
def mul : WordOp := ⟨(· * ·), 1, Nat.mul_comm, Nat.mul_assoc, Nat.one_mul, Nat.ModEq.mul⟩

variable (o : WordOp)

/-- The operation over a list. -/
def fold (ns : List Nat) : Nat := ns.foldr o.op o.neutral

/-- Addition and multiplication may be reordered. -/
theorem op_left_comm (a b c : Nat) : o.op a (o.op b c) = o.op b (o.op a c) := by
  rw [← o.assoc, o.comm a b, o.assoc]

/-- The value of two lists is that of the first combined with that of the second. -/
theorem fold_append (ms ns : List Nat) : o.fold (ms ++ ns) = o.op (o.fold ms) (o.fold ns) := by
  induction ms with
  | nil => exact (o.neutral_op _).symm
  | cons m ms ih =>
    show o.op m (o.fold (ms ++ ns)) = o.op (o.op m (o.fold ms)) (o.fold ns)
    rw [ih, o.assoc]

/-- The value of a list does not depend on its order. -/
theorem fold_perm {ms ns : List Nat} (h : ms.Perm ns) : o.fold ms = o.fold ns := by
  induction h with
  | nil => rfl
  | cons a _ ih => exact congrArg (o.op a) ih
  | swap a b l => exact o.op_left_comm b a _
  | trans _ _ ih₁ ih₂ => exact ih₁.trans ih₂

/-- Taking terms apart into parts of the same value modulo `m`. -/
theorem fold_flatMap {m : Nat} {v : Term → Nat} {parts : Term → List Term} {ts : List Term}
    (h : ∀ t ∈ ts, v t ≡ o.fold ((parts t).map v) [MOD m]) :
    o.fold (ts.map v) ≡ o.fold ((ts.flatMap parts).map v) [MOD m] := by
  induction ts with
  | nil => rfl
  | cons t ts ih =>
    rw [List.flatMap_cons, List.map_append, fold_append]
    exact o.modEq (h t List.mem_cons_self) (ih fun u hu => h u (List.mem_cons_of_mem _ hu))

/-- Setting the constants apart. -/
theorem fold_splitConsts {s : Store} {v : Term → Nat} (ts : List Term)
    (h : ∀ t ∈ ts, ∀ n, s.constValue? t = some n → v t = n) :
    o.fold (ts.map v) = o.op (o.fold (s.splitConsts ts).1)
      (o.fold ((s.splitConsts ts).2.map v)) := by
  induction ts with
  | nil => exact (o.neutral_op _).symm
  | cons t ts ih =>
    have ih := ih fun u hu => h u (List.mem_cons_of_mem _ hu)
    unfold Store.splitConsts at ih ⊢
    show o.op (v t) (o.fold (ts.map v)) = _
    rw [ih]
    cases hc : s.constValue? t with
    | none =>
      simp only [List.filterMap_cons, hc, List.filter_cons, Option.isNone_none, if_true,
        List.map_cons]
      exact o.op_left_comm _ _ _
    | some n =>
      simp only [List.filterMap_cons, hc, List.filter_cons, Option.isNone_some, Bool.false_eq_true,
        if_false]
      rw [h t List.mem_cons_self n hc, ← o.assoc]
      rfl

end WordOp

namespace Store

variable {s s' : Store} {elems : Ty → Type} {V : Valuation elems}

/-- The numbers of words under an interpretation. -/
noncomputable def num (s : Store) (I : Interp) (ρ : I.Env) (t : Term) : Nat := (I.value s ρ t).toNat

theorem HasWidth.width_eq {t : Term} {w : Nat} (ht : s.HasWidth t w) : Interp.width s t = w := by
  obtain ⟨ty, hty, hw⟩ := ht
  exact Interp.width_of_ty hty hw

/-- All words of one width have one type. -/
theorem Wf.has_of_hasWidth (h : s.Wf) {t : Term} {ty : Ty} {w : Nat} (ht : s.HasWidth t w)
    (hty : s.tyShape? ty = some (.bitVector w)) : s.Has t ty := by
  obtain ⟨ty', ht', hw⟩ := ht
  exact h.ty_unique hw hty ▸ ht'

/-- The handle of a word is never negated. -/
theorem HasWidth.not_isNegated (h : s.Wf) {t : Term} {w : Nat} (ht : s.HasWidth t w) :
    t.isNegated = false := by
  obtain ⟨ty, hty, hw⟩ := ht
  refine hty.not_isNegated ?_
  rintro rfl
  rw [h.bool_ty] at hw
  cases hw

theorem node?_of_shape_eq {t : Term} {ty : Ty} {shape : Term.Shape} (ht : s.Has t ty)
    (hs : s.shape t = shape) :
    s.node? t = some (shape, ty) := by
  obtain ⟨⟨sh, hn⟩, -⟩ := ht
  rw [Interp.node?_of_shape hn] at hs
  rw [hn, ← hs]

/-- The type of words of a width is found or stored. -/
theorem bvType_builds (h : s.Wf) (w : Nat) :
    Builds s (bvType w) fun ty s' => s'.tyShape? ty = some (.bitVector w) := by
  unfold bvType
  split
  · exact .throw h _
  split
  · exact .throw h _
  next hpos hle =>
    obtain ⟨ty, s', heq, hs, hty, -, -⟩ := internTy_spec h (.bitVector w) ⟨by omega, by omega⟩
    unfold Builds Ends
    rw [heq]
    exact ⟨hs, hty⟩

/-- A constant has the value given, cut to its width. -/
theorem bvConst_stands (h : s.Wf) (w n : Nat) :
    Builds s (bvConst w n) fun t s' => ∃ ty, s'.tyShape? ty = some (.bitVector w) ∧
      s'.Stands [] t ty fun _ _ => .word (Bits.trunc w n) := by
  refine .bind (bvType_builds h w) fun ty s₁ hs₁ hty => ?_
  refine .intern hs₁.wf (.bvConst w (Bits.trunc w n)) _ ⟨hty, Bits.trunc_lt w n⟩ ⟨_, hty⟩ trivial
    fun t s' hs ht hn => ?_
  exact ⟨ty, hs.ext.ty hty, stands_of_node hn ht rfl fun _ _ _ hc => by cases hc⟩

/-! ## Sums and products -/

theorem WordOp.fold_singleton (o : WordOp) (n : Nat) : o.fold [n] = n := by
  show o.op n o.neutral = n
  rw [o.comm, o.neutral_op]

/-- Sums and products, each with the operation that folds its arguments. -/
def IsFold (o : WordOp) (mk : List Term → Term.Shape) : Prop :=
  (o = .add ∧ mk = .bvSum) ∨ (o = .mul ∧ mk = .bvProduct)

section Folds

variable {o : WordOp} {mk : List Term → Term.Shape} {args rest ts : List Term} {t : Term}
  {ty : Ty} {w c : Nat}

/-- The value of a sum or a product from the values of its arguments. -/
theorem IsFold.value (hmk : IsFold o mk) (h : s.Wf) (hV : V.Lawful s)
    (hn : s.node? t = some (mk args, ty))
    (ht : t.isNegated = false) (hty : s.tyShape? ty = some (.bitVector w)) (hdef : V.defined t) :
    (∀ a ∈ args, V.defined a) ∧ V.value t = .word
      (Bits.trunc w (o.fold (args.map fun a => (V.value a).toNat))) := by
  have htyped := h.typed hn
  obtain ⟨hne, hall⟩ : args ≠ [] ∧ ∀ a ∈ args, s.Has a ty := by
    rcases hmk with ⟨-, rfl⟩ | ⟨-, rfl⟩
    · exact ⟨htyped.1, htyped.2.1⟩
    · exact ⟨htyped.1, htyped.2.1⟩
  obtain ⟨first, more, rfl⟩ := List.exists_cons_of_ne_nil hne
  have hwidth : Interp.width s first = w := Interp.width_of_ty (hall first List.mem_cons_self) hty
  rcases hmk with ⟨rfl, rfl⟩ | ⟨rfl, rfl⟩
  · refine ⟨hV.part hn ht rfl hdef, ?_⟩
    rw [hV.node hn ht rfl hdef, show s.partWidth (.bvSum (first :: more)) = w from hwidth]
    simp only [Term.Shape.combine, Term.Shape.children, List.map_map]
    rfl
  · refine ⟨hV.part hn ht rfl hdef, ?_⟩
    rw [hV.node hn ht rfl hdef, show s.partWidth (.bvProduct (first :: more)) = w from hwidth]
    simp only [Term.Shape.combine, Term.Shape.children, List.map_map]
    rfl

/-- A sum or a product has a value when its arguments have one. -/
theorem IsFold.defined (hmk : IsFold o mk) (hV : V.Lawful s) (hn : s.node? t = some (mk args, ty))
    (ht : t.isNegated = false) (hargs : ∀ a ∈ args, V.defined a) : V.defined t := by
  rcases hmk with ⟨-, rfl⟩ | ⟨-, rfl⟩
  · exact hV.node_defined hn ht rfl hargs
  · exact hV.node_defined hn ht rfl hargs

/-- Taking sums or products among the arguments apart. -/
theorem IsFold.flatMap (hmk : IsFold o mk) (h : s.Wf) {part : Term → List Term}
    (hpart : ∀ t, part t = [t] ∨ s.shape t = mk (part t)) (hargs : ∀ a ∈ args, s.HasWidth a w) :
    (∀ t ∈ args.flatMap part, s.HasWidth t w) ∧ ∀ {elems : Ty → Type} {V : Valuation elems},
    V.Lawful s →
      (∀ a ∈ args, V.defined a) → (∀ t ∈ args.flatMap part, V.defined t) ∧
        o.fold (args.map fun a => (V.value a).toNat) ≡ o.fold ((args.flatMap part).map fun a =>
          (V.value a).toNat)
          [MOD Bits.modulus w] := by
  have hnode : ∀ a ∈ args, s.shape a = mk (part a) → ∃ ty, s.tyShape? ty = some (.bitVector w) ∧
      s.node? a = some (mk (part a), ty) := fun a ha hshape => by
    obtain ⟨ty, hty, hw⟩ := hargs a ha
    exact ⟨ty, hw, node?_of_shape_eq hty hshape⟩
  refine ⟨fun t ht => ?_, fun {elems V} hV hdef => ⟨fun t ht => ?_, o.fold_flatMap fun a ha => ?_⟩⟩
  · obtain ⟨a, ha, hta⟩ := List.mem_flatMap.mp ht
    rcases hpart a with hself | hshape
    · rw [hself] at hta
      exact List.mem_singleton.mp hta ▸ hargs a ha
    · obtain ⟨ty, hw, hn⟩ := hnode a ha hshape
      have htyped := h.typed hn
      refine ⟨ty, ?_, hw⟩
      rcases hmk with ⟨-, rfl⟩ | ⟨-, rfl⟩
      · exact htyped.2.1 t hta
      · exact htyped.2.1 t hta
  · obtain ⟨a, ha, hta⟩ := List.mem_flatMap.mp ht
    rcases hpart a with hself | hshape
    · rw [hself] at hta
      exact List.mem_singleton.mp hta ▸ hdef a ha
    · obtain ⟨ty, hw, hn⟩ := hnode a ha hshape
      exact (hmk.value h hV hn ((hargs a ha).not_isNegated h) hw (hdef a ha)).1 t hta
  · rcases hpart a with hself | hshape
    · rw [hself, List.map_singleton, WordOp.fold_singleton]
    · obtain ⟨ty, hw, hn⟩ := hnode a ha hshape
      rw [(hmk.value h hV hn ((hargs a ha).not_isNegated h) hw (hdef a ha)).2]
      exact Bits.trunc_modEq _ _

/-- The summands of a list of words have its width and its sum. -/
theorem summands_spec (h : s.Wf) (hargs : ∀ a ∈ args, s.HasWidth a w) :
    (∀ t ∈ s.summands args, s.HasWidth t w) ∧ ∀ {elems : Ty → Type} {V : Valuation elems},
    V.Lawful s →
      (∀ a ∈ args, V.defined a) → (∀ t ∈ s.summands args, V.defined t) ∧
        WordOp.add.fold (args.map fun a => (V.value a).toNat) ≡
          WordOp.add.fold ((s.summands args).map fun a => (V.value a).toNat)
            [MOD Bits.modulus w] := by
  refine IsFold.flatMap (.inl ⟨rfl, rfl⟩) h (fun t => ?_) hargs
  split
  next inner hshape => exact .inr hshape
  next => exact .inl rfl

/-- The factors of a list of words have its width and its product. -/
theorem factors_spec (h : s.Wf) (hargs : ∀ a ∈ args, s.HasWidth a w) :
    (∀ t ∈ s.factors args, s.HasWidth t w) ∧ ∀ {elems : Ty → Type} {V : Valuation elems},
    V.Lawful s →
      (∀ a ∈ args, V.defined a) → (∀ t ∈ s.factors args, V.defined t) ∧
        WordOp.mul.fold (args.map fun a => (V.value a).toNat) ≡
          WordOp.mul.fold ((s.factors args).map fun a => (V.value a).toNat)
            [MOD Bits.modulus w] := by
  refine IsFold.flatMap (.inr ⟨rfl, rfl⟩) h (fun t => ?_) hargs
  split
  next inner hshape => exact .inr hshape
  next => exact .inl rfl

theorem splitConsts_mem (ht : t ∈ (s.splitConsts ts).2) : t ∈ ts := (List.mem_filter.mp ht).1

/-- Setting the constants apart. -/
theorem splitConsts_spec (h : s.Wf) (o : WordOp) (hts : ∀ t ∈ ts, s.HasWidth t w) (hV : V.Lawful s)
    (hdef : ∀ t ∈ ts, V.defined t) : o.fold (ts.map fun a => (V.value a).toNat) =
      o.op (o.fold (s.splitConsts ts).1)
        (o.fold ((s.splitConsts ts).2.map fun a => (V.value a).toNat)) :=
  o.fold_splitConsts ts fun t ht n hc => by
    rw [value_const hV (hdef t ht) ((hts t ht).not_isNegated h) hc]
    rfl

/-- The list with the folded constant in front has the same value as the constant and the
other arguments. -/
theorem withConst_stands (h : s.Wf) (o : WordOp) (hrest : ∀ t ∈ rest, s.HasWidth t w) :
    Builds s (withConst w o.neutral c rest) fun ts s' => (∀ t ∈ ts, s'.HasWidth t w) ∧ rest ⊆ ts ∧
      ∀ (elems : Ty → Type) (V : Valuation elems), V.Lawful s' → (∀ t ∈ rest, V.defined t) →
        (∀ t ∈ ts, V.defined t) ∧ o.fold (ts.map fun a => (V.value a).toNat) ≡
          o.op c (o.fold (rest.map fun a => (V.value a).toNat)) [MOD Bits.modulus w] := by
  unfold withConst
  split
  next hc =>
    refine .pure h ⟨hrest, List.Subset.refl _, fun _ _ _ hdef => ⟨hdef, ?_⟩⟩
    rw [hc, o.neutral_op]
  next =>
    refine .bind (bvConst_stands h w c) fun t s' hs ht => .pure hs.wf ?_
    obtain ⟨ty, hty, ht⟩ := ht
    refine ⟨List.forall_mem_cons.mpr ⟨⟨ty, ht.has, hty⟩, fun u hu => hs.ext.hasWidth (hrest u hu)⟩,
      List.subset_cons_self _ _, fun _ _ hV hdef => ⟨List.forall_mem_cons.mpr ⟨?_, hdef⟩, ?_⟩⟩
    · exact ht.defined hV (by simp)
    · rw [List.map_cons, ht.value hV (by simp)]
      exact o.modEq (Bits.trunc_modEq w c) rfl

/-- A new sum or product over the sorted arguments. -/
theorem collect_stands (h : s.Wf) (hmk : IsFold o mk) (hne : ts ≠ [])
    (hts : ∀ t ∈ ts, s.HasWidth t w) (hty : s.tyShape? ty = some (.bitVector w)) :
    Builds s (intern (mk (Term.sort ts)) ty) fun t s' => s'.Needs ts t ∧
      s'.Stands ts t ty fun _ v => .word (Bits.trunc w (o.fold (ts.map fun a => (v a).toNat))) := by
  have hperm : (Term.sort ts).Perm ts := List.mergeSort_perm ts Term.le
  have hsort : Term.sort ts ≠ [] := fun hnil => hne (List.nil_perm.mp (hnil ▸ hperm))
  have hall : ∀ t ∈ Term.sort ts, s.Has t ty :=
    fun t ht => h.has_of_hasWidth (hts t (Term.mem_sort.mp ht)) hty
  obtain ⟨htyped, hserial⟩ : s.Typed (mk (Term.sort ts)) ty ∧
      SerialBelow s.termSerial (mk (Term.sort ts)) := by
    rcases hmk with ⟨-, rfl⟩ | ⟨-, rfl⟩
    · exact ⟨⟨hsort, hall, w, hty⟩, trivial⟩
    · exact ⟨⟨hsort, hall, w, hty⟩, trivial⟩
  refine .intern h (mk (Term.sort ts)) ty htyped ⟨_, hty⟩ hserial fun t s' hs ht hn => ?_
  have hvalue {elems : Ty → Type} {V : Valuation elems} (hV : V.Lawful s') (hdef : V.defined t) :=
    hmk.value hs.wf hV hn ht (hs.ext.ty hty) hdef
  have hdefined {elems : Ty → Type} {V : Valuation elems} (hV : V.Lawful s')
    (hdef : ∀ a ∈ ts, V.defined a) :
      V.defined t := hmk.defined hV hn ht fun a ha => hdef a (Term.mem_sort.mp ha)
  refine ⟨fun _ _ hV hdef a ha => (hvalue hV hdef).1 a (Term.mem_sort.mpr ha),
    ⟨⟨_, hn⟩, by simp [ht]⟩, hdefined, ?_⟩
  intro _ _ hV hdef
  rw [(hvalue hV (hdefined hV hdef)).2, o.fold_perm (hperm.map _)]

/-- What is left of a sum or a product after its constants were folded: the only argument, or
a new term. -/
theorem folded_stands (h : s.Wf) (hmk : IsFold o mk) {first : Term} (hne : rest ≠ [])
    (hrest : ∀ t ∈ rest, s.HasWidth t w) (hfirst : s.Has first ty)
    (hty : s.tyShape? ty = some (.bitVector w)) :
    Builds s (do
      match ← withConst w o.neutral c rest with
      | [t] => return t
      | ts => intern (mk (Term.sort ts)) (← look fun s => s.ty first)) fun t s' => s'.Needs rest t ∧
      s'.Stands rest t ty fun _ v =>
        .word (Bits.trunc w (o.op c (o.fold (rest.map fun a => (v a).toNat)))) := by
  refine .bind (withConst_stands h o hrest) fun ts s₁ hs₁ hts => ?_
  obtain ⟨hwidths, hsub, hfold⟩ := hts
  have hts : ts ≠ [] := fun hnil => hne (List.subset_nil.mp (hnil ▸ hsub))
  have hty₁ := hs₁.ext.ty hty
  match ts, hwidths, hts, hsub, hfold with
  | [t], hwidths, _, hsub, hfold =>
    have ht := hwidths t List.mem_cons_self
    refine .pure hs₁.wf ⟨fun _ _ _ hdef a ha => List.mem_singleton.mp (hsub ha) ▸ hdef,
      hs₁.wf.has_of_hasWidth ht hty₁, fun hV hdef => ?_, fun hV hdef => ?_⟩
    · exact (hfold _ _ hV hdef).1 t List.mem_cons_self
    · obtain ⟨hdefs, hmod⟩ := hfold _ _ hV hdef
      obtain ⟨hvalue, hlt⟩ := hV.value_word (hdefs t List.mem_cons_self) ht
      rw [List.map_singleton, WordOp.fold_singleton] at hmod
      rw [hvalue, ← Bits.trunc_eq_trunc hmod, Bits.trunc_eq_of_lt hlt]
  | a :: b :: ts, hwidths, hts, hsub, hfold =>
    refine .look_bind ?_
    rw [(hs₁.ext.has hfirst).ty_eq]
    refine (collect_stands hs₁.wf hmk hts hwidths hty₁).mono fun t s' hs ⟨hneeds, ht⟩ =>
      ⟨fun _ _ hV hdef c hc => hneeds hV hdef c (hsub hc), ?_⟩
    have hdown {elems : Ty → Type} {V : Valuation elems} (hV : V.Lawful s') (hdef : ∀ a ∈ rest,
        V.defined a) :=
      hfold elems (V.restrict s₁) (hV.restrict hs₁.wf hs.ext) fun u hu => by
        obtain ⟨tu, hu', -⟩ := hrest u hu
        exact ⟨hdef u hu, tu, hs₁.ext.has hu'⟩
    refine (ht.widen fun hV hdef u hu => ((hdown hV hdef).1 u hu).1).congr fun hV hdef => ?_
    exact congrArg Val.word (Bits.trunc_eq_trunc (hdown hV hdef).2)

/-- Summands that have values, but for constants, make the arguments have values. -/
theorem defined_of_summands (h : s.Wf) (hargs : ∀ a ∈ args, s.HasWidth a w) (e : s.Extends s')
    (hV : V.Lawful s')
    (hdef : ∀ t ∈ (s.splitConsts (s.summands args)).2, V.defined t) : ∀ a ∈ args, V.defined a := by
  obtain ⟨hwidths, -⟩ := summands_spec h hargs
  have hall : ∀ t ∈ s.summands args, V.defined t := fun t ht => by
    cases hc : s.constValue? t with
    | none => exact hdef t (List.mem_filter.mpr ⟨ht, by rw [hc]; rfl⟩)
    | some n =>
      obtain ⟨w', ty, hn⟩ := constValue?_eq_some hc
      exact hV.node_defined (e.node hn) ((hwidths t ht).not_isNegated h) rfl fun _ hmem => by
        cases hmem
  intro a ha
  by_cases hsum : ∃ inner, s.shape a = .bvSum inner
  · obtain ⟨inner, hshape⟩ := hsum
    obtain ⟨ty, hty, -⟩ := hargs a ha
    refine hV.node_defined (e.node (node?_of_shape_eq hty hshape))
      ((hargs a ha).not_isNegated h) rfl fun c hc => ?_
    exact hall c (List.mem_flatMap.mpr ⟨a, ha, by rw [hshape]; exact hc⟩)
  · refine hall a (List.mem_flatMap.mpr ⟨a, ha, ?_⟩)
    split
    next inner hshape => exact (hsum ⟨inner, hshape⟩).elim
    next => exact List.mem_singleton.mpr rfl

/-- A sum has the sum of its arguments for a value, cut to the width, whatever was flattened or
folded. -/
theorem bvSum_stands (h : s.Wf) (args : List Term) :
    Builds s (bvSum args) fun t s' => ∃ ty w, s.tyShape? ty = some (.bitVector w) ∧
    (∀ a ∈ args, s.Has a ty) ∧
      s'.Needs args t ∧ s'.Stands args t ty fun _ v =>
        .word (Bits.trunc w (WordOp.add.fold (args.map fun a => (v a).toNat))) := by
  refine .read_bind h fun w hw => ?_
  obtain ⟨hne, hargs⟩ := checkBvArgs_eq_ok hw
  obtain ⟨first, more, rfl⟩ := List.exists_cons_of_ne_nil hne
  obtain ⟨ty, hfirst, hty⟩ := hargs first List.mem_cons_self
  have hall : ∀ a ∈ first :: more, s.Has a ty := fun a ha => h.has_of_hasWidth (hargs a ha) hty
  obtain ⟨hparts, hmod⟩ := summands_spec h hargs
  refine .look_bind ?_
  have hrest : ∀ t ∈ (s.splitConsts (s.summands (first :: more))).2, s.HasWidth t w :=
    fun t ht => hparts t (splitConsts_mem ht)
  -- the folded constant and the rest make up the sum
  have hsum {s' : Store} (hs : Later s s') {elems : Ty → Type} {V : Valuation elems}
    (hV : V.Lawful s')
      (hdef : ∀ a ∈ first :: more, V.defined a) :
      (∀ t ∈ (s.splitConsts (s.summands (first :: more))).2, V.defined t) ∧
        Bits.trunc w (WordOp.add.op (Bits.trunc w
          (WordOp.add.fold (s.splitConsts (s.summands (first :: more))).1))
          (WordOp.add.fold ((s.splitConsts (s.summands (first :: more))).2.map fun a =>
            (V.value a).toNat))) =
        Bits.trunc w (WordOp.add.fold ((first :: more).map fun a => (V.value a).toNat)) := by
    have hV' := hV.restrict h hs.ext
    obtain ⟨hdefs, hfold⟩ := hmod hV' fun a ha => ⟨hdef a ha, ty, hall a ha⟩
    refine ⟨fun t ht => (hdefs t (splitConsts_mem ht)).1, Bits.trunc_eq_trunc ?_⟩
    exact (WordOp.add.modEq (Bits.trunc_modEq w _) rfl).trans
      ((splitConsts_spec h .add hparts hV' hdefs).symm ▸ hfold.symm)
  have hback {s' : Store} (hs : Later s s') {elems : Ty → Type} {V : Valuation elems}
      (hV : V.Lawful s') :=
    defined_of_summands h hargs hs.ext hV
  generalize s.splitConsts (s.summands (first :: more)) = split at hrest hsum hback
  obtain ⟨consts, rest⟩ := split
  simp only
  split
  next hempty =>
    obtain rfl := List.isEmpty_iff.mp hempty
    refine (bvConst_stands h w _).mono fun t s' hs ⟨ty', hty', ht⟩ =>
      ⟨ty, w, hty, hall, fun _ _ hV _ => hback hs hV (by simp), ?_⟩
    rw [hs.wf.ty_unique (hs.ext.ty hty) hty']
    exact (ht.widen (by simp)).congr fun hV hdef => congrArg Val.word (hsum hs hV hdef).2
  next hempty =>
    refine (folded_stands h (.inl ⟨rfl, rfl⟩) (fun hnil => hempty (List.isEmpty_iff.mpr hnil)) hrest
      hfirst hty).mono
      fun t s' hs ⟨hneeds, ht⟩ => ⟨ty, w, hty, hall, fun _ _ hV hdef =>
        hback hs hV (hneeds hV hdef), ?_⟩
    exact (ht.widen fun hV hdef => (hsum hs hV hdef).1).congr fun hV hdef =>
      congrArg Val.word (hsum hs hV hdef).2

/-- Cutting after every factor or once at the end gives one product. -/
theorem foldl_trunc_modEq (w : Nat) (ns : List Nat) (n : Nat) :
    ns.foldl (fun acc v => Bits.trunc w (acc * v)) n ≡ n * WordOp.mul.fold ns
      [MOD Bits.modulus w] := by
  induction ns generalizing n with
  | nil =>
    show n ≡ n * 1 [MOD Bits.modulus w]
    rw [Nat.mul_one]
  | cons m ns ih =>
    refine (ih _).trans ?_
    show Bits.trunc w (n * m) * WordOp.mul.fold ns ≡ n * (m * WordOp.mul.fold ns)
      [MOD Bits.modulus w]
    rw [← Nat.mul_assoc]
    exact (Bits.trunc_modEq w _).mul_right _

/-- A product has the product of its arguments for a value, cut to the width. -/
theorem bvProduct_stands (h : s.Wf) (args : List Term) :
    Builds s (bvProduct args) fun t s' => ∃ ty w, s.tyShape? ty = some (.bitVector w) ∧
    (∀ a ∈ args, s.Has a ty) ∧
      s'.Stands args t ty fun _ v =>
        .word (Bits.trunc w (WordOp.mul.fold (args.map fun a => (v a).toNat))) := by
  refine .read_bind h fun w hw => ?_
  obtain ⟨hne, hargs⟩ := checkBvArgs_eq_ok hw
  obtain ⟨first, more, rfl⟩ := List.exists_cons_of_ne_nil hne
  obtain ⟨ty, hfirst, hty⟩ := hargs first List.mem_cons_self
  have hall : ∀ a ∈ first :: more, s.Has a ty := fun a ha => h.has_of_hasWidth (hargs a ha) hty
  obtain ⟨hparts, hmod⟩ := factors_spec h hargs
  refine .look_bind ?_
  have hrest : ∀ t ∈ (s.splitConsts (s.factors (first :: more))).2, s.HasWidth t w :=
    fun t ht => hparts t (splitConsts_mem ht)
  have hconst (consts : List Nat) :
      Bits.trunc w (consts.foldl (fun acc v => Bits.trunc w (acc * v)) 1) ≡ WordOp.mul.fold consts
        [MOD Bits.modulus w] :=
    (Bits.trunc_modEq w _).trans ((foldl_trunc_modEq w consts 1).trans (by rw [Nat.one_mul]))
  -- the folded constant and the rest make up the product
  have hproduct {s' : Store} (hs : Later s s') {elems : Ty → Type} {V : Valuation elems}
    (hV : V.Lawful s')
      (hdef : ∀ a ∈ first :: more, V.defined a) :
      (∀ t ∈ (s.splitConsts (s.factors (first :: more))).2, V.defined t) ∧
        Bits.trunc w
          (WordOp.mul.op (Bits.trunc w ((s.splitConsts (s.factors (first :: more))).1.foldl
            (fun acc v => Bits.trunc w (acc * v)) 1))
          (WordOp.mul.fold ((s.splitConsts (s.factors (first :: more))).2.map fun a =>
            (V.value a).toNat))) =
        Bits.trunc w (WordOp.mul.fold ((first :: more).map fun a => (V.value a).toNat)) := by
    have hV' := hV.restrict h hs.ext
    obtain ⟨hdefs, hfold⟩ := hmod hV' fun a ha => ⟨hdef a ha, ty, hall a ha⟩
    refine ⟨fun t ht => (hdefs t (splitConsts_mem ht)).1, Bits.trunc_eq_trunc ?_⟩
    exact (WordOp.mul.modEq (hconst _) rfl).trans
      ((splitConsts_spec h .mul hparts hV' hdefs).symm ▸ hfold.symm)
  generalize s.splitConsts (s.factors (first :: more)) = split at hrest hproduct
  obtain ⟨consts, rest⟩ := split
  simp only
  split
  next hempty =>
    refine (bvConst_stands h w _).mono fun t s' hs ⟨ty', hty', ht⟩ => ⟨ty, w, hty, hall, ?_⟩
    rw [hs.wf.ty_unique (hs.ext.ty hty) hty']
    refine (ht.widen (by simp)).congr fun hV hdef =>
      congrArg Val.word (Eq.trans ?_ (hproduct hs hV hdef).2)
    -- either the constant is zero, or there is nothing but constants
    rcases Bool.or_eq_true_iff.mp hempty with hzero | hnil
    · rw [of_decide_eq_true hzero]
      exact congrArg _ (Nat.zero_mul _).symm
    · rw [List.isEmpty_iff.mp hnil]
      exact congrArg _ (Nat.mul_one _).symm
  next hempty =>
  split
  · exact .throw h _
  · refine (folded_stands h (.inr ⟨rfl, rfl⟩) (fun hnil =>
      hempty (Bool.or_eq_true_iff.mpr (.inr (List.isEmpty_iff.mpr hnil)))) hrest hfirst hty).mono
      fun t s' hs ⟨_, ht⟩ => ⟨ty, w, hty, hall, ?_⟩
    exact (ht.widen fun hV hdef => (hproduct hs hV hdef).1).congr fun hV hdef =>
      congrArg Val.word (hproduct hs hV hdef).2

end Folds

/-! ## Negation, comparisons and bits -/

/-- Negating a word twice gives the word back. -/
theorem neg_neg_word {w n : Nat} (h : n < Bits.modulus w) : Bits.neg w (Bits.neg w n) = n := by
  have hpos := Bits.modulus_pos w
  unfold Bits.neg Bits.trunc
  generalize Bits.modulus w = m at *
  rw [Nat.mod_eq_of_lt h, Nat.mod_mod]
  rcases Nat.eq_zero_or_pos n with rfl | hn
  · simp
  · rw [Nat.mod_eq_of_lt (by omega : m - n < m), Nat.mod_eq_of_lt (by omega)]
    omega

theorem neg_trunc (w n : Nat) : Bits.trunc w (Bits.neg w n) = Bits.neg w n := by
  unfold Bits.neg Bits.trunc
  exact Nat.mod_mod _ _

/-- The negation of a word has the negated value. -/
theorem bvNeg_stands (h : s.Wf) (a : Term) :
    Builds s (bvNeg a) fun t s' => ∃ ty w, s.tyShape? ty = some (.bitVector w) ∧ s.Has a ty ∧
    s'.Needs [a] t ∧
      s'.Stands [a] t ty fun _ v => .word (Bits.neg w (v a).toNat) := by
  refine .read_bind h fun w hw => ?_
  have ha := checkBv_eq_ok hw
  have hneg := ha.not_isNegated h
  obtain ⟨ty, hty, hwty⟩ := ha
  refine .look_bind ?_
  split
  next w' n hsh =>
    refine (bvConst_stands h w _).mono fun t s' hs ⟨ty', hty', ht⟩ =>
      ⟨ty, w, hwty, hty, fun _ _ hV _ => List.forall_mem_singleton.mpr ?_, ?_⟩
    · exact hV.node_defined (hs.ext.node (node?_of_shape_eq hty hsh)) hneg rfl fun _ hc => by
        cases hc
    rw [hs.wf.ty_unique (hs.ext.ty hwty) hty']
    refine (ht.widen (by simp)).congr fun hV hdef => congrArg Val.word ?_
    rw [hV.node (hs.ext.node (node?_of_shape_eq hty hsh)) hneg rfl (hdef a (by simp))]
    exact neg_trunc w n
  next x hsh =>
    have hn := node?_of_shape_eq hty hsh
    obtain ⟨hx, -⟩ := h.typed hn
    refine .pure h ⟨ty, w, hwty, hty, fun _ _ hV hdef => List.forall_mem_singleton.mpr ?_, hx,
      fun hV hdef => ?_,
      fun hV hdef => ?_⟩
    · exact hV.node_defined hn hneg rfl (List.forall_mem_singleton.mpr hdef)
    · exact hV.part hn hneg rfl (hdef a (by simp)) x (by simp [Term.Shape.children])
    · have hdefx := hV.part hn hneg rfl (hdef a (by simp)) x (by simp [Term.Shape.children])
      obtain ⟨hval, hlt⟩ := hV.value_word hdefx ⟨ty, hx, hwty⟩
      have hwidth : s.partWidth (.bvNeg x) = w := Interp.width_of_ty hx hwty
      rw [hV.node hn hneg rfl (hdef a (by simp)), hwidth]
      simp only [Term.Shape.combine, Term.Shape.children, List.map_cons, List.map_nil,
        Val.toNat_word, neg_neg_word hlt]
      exact hval
  next =>
    refine .look_bind ?_
    rw [hty.ty_eq]
    refine .intern h (.bvNeg a) _ ⟨hty, w, hwty⟩ ⟨_, hwty⟩ trivial fun t s' hs ht hn =>
      ⟨ty, w, hwty, hty, fun _ _ hV => hV.part hn ht rfl, ?_⟩
    refine (stands_of_node hn ht rfl fun _ hdef => hdef).congr fun _ _ => ?_
    rw [show s'.partWidth (.bvNeg a) = w from Interp.width_of_ty (hs.ext.has hty) (hs.ext.ty hwty)]
    rfl

/-- A difference is the sum with the negation. -/
theorem bvSub_stands (h : s.Wf) (a b : Term) :
    Builds s (bvSub a b) fun t s' => ∃ ty w, s.tyShape? ty = some (.bitVector w) ∧ s.Has a ty ∧
    s.Has b ty ∧
      s'.Needs [a, b] t ∧ s'.Stands [a, b] t ty fun _ v =>
        .word (Bits.trunc w ((v a).toNat + Bits.neg w (v b).toNat)) := by
  refine .read_bind h fun w hw => ?_
  obtain ⟨ha, hb⟩ := checkSameWidth_eq_ok hw
  refine .bind (bvNeg_stands h b) fun nb s₁ hs₁ ⟨ty, w', hty, hbty, hneeds, hnb⟩ => ?_
  obtain rfl := HasWidth.unique ⟨ty, hbty, hty⟩ hb
  refine (bvSum_stands hs₁.wf [a, nb]).mono fun t s' hs ⟨ty', w'', hty', hall, hsum, ht⟩ => ?_
  have haty := h.has_of_hasWidth ha hty
  obtain rfl := (hall a (by simp)).unique (hs₁.ext.has haty)
  rw [hs₁.ext.ty hty] at hty'
  cases hty'
  replace hneeds := hneeds.later hs₁.wf hnb.has hs
  replace hnb := hnb.later hs₁.wf (by simpa using ⟨ty', hs₁.ext.has hbty⟩) hs
  refine ⟨ty', w', hty, haty, hbty, fun _ _ hV hdef => ?_, (ht.widen fun hV hdef => ?_).congr
    fun hV hdef => ?_⟩
  · have hsum := hsum hV hdef
    exact List.forall_mem_cons.mpr ⟨hsum a (by simp), hneeds hV (hsum nb (by simp))⟩
  · simpa using ⟨hdef a (by simp), hnb.defined hV (by simpa using hdef b (by simp))⟩
  · rw [List.map_cons, List.map_singleton, hnb.value hV (by simpa using hdef b (by simp))]
    rfl

/-- The unsigned comparison compares the values. -/
theorem bvGe_stands (h : s.Wf) (a b : Term) :
    Builds s (bvGe a b) fun t s' => (∃ w, s.HasWidth a w ∧ s.HasWidth b w) ∧
      s'.Stands [a, b] t .bool fun _ v => .ofProp ((v b).toNat ≤ (v a).toNat) := by
  refine .read_bind h fun w hw => ?_
  obtain ⟨ha, hb⟩ := checkSameWidth_eq_ok hw
  have hna := ha.not_isNegated h
  have hnb := hb.not_isNegated h
  split
  next heq =>
    refine .pure h ⟨⟨w, ha, hb⟩, (stands_top h).congr fun _ _ => (Val.ofProp_eq_bool ?_).symm⟩
    simp [heq]
  next =>
  refine .look_bind ?_
  split
  next x y hxy =>
    obtain ⟨hx, hy⟩ := Prod.mk.inj hxy
    refine .pure h ⟨⟨w, ha, hb⟩, (stands_ofBool h _).congr fun hV hdef =>
      (Val.ofProp_eq_bool ?_).symm⟩
    rw [value_const hV (hdef a (by simp)) hna hx, value_const hV (hdef b (by simp)) hnb hy]
    simp
  next hxy =>
    refine .pure h ⟨⟨w, ha, hb⟩, (stands_top h).congr fun hV hdef => (Val.ofProp_eq_bool ?_).symm⟩
    rw [value_const hV (hdef b (by simp)) hnb (Prod.mk.inj hxy).2]
    simp
  next =>
    exact .intern h (.bvGe a b) _ ⟨rfl, w, ha, hb⟩ ⟨_, h.bool_ty⟩ trivial
      fun t s' hs ht hn => ⟨⟨w, ha, hb⟩, stands_of_node hn ht rfl fun _ hdef => hdef⟩

theorem span_eq {w : Nat} (hpos : 0 < w) (hle : w ≤ maxWidth) : Bits.span w = w := by
  unfold maxWidth at hle
  unfold Bits.span
  split <;> omega

theorem modulus_eq {w : Nat} (hle : w ≤ maxWidth) : Bits.modulus w = Nat.pow 2 w := by
  unfold maxWidth at hle
  unfold Bits.modulus
  rw [Nat.min_eq_left hle]

theorem modulus_eq_two_mul {w : Nat} (hpos : 0 < w) (hle : w ≤ maxWidth) :
    Bits.modulus w = 2 * Nat.pow 2 (w - 1) := by
  rw [modulus_eq hle]
  obtain ⟨k, rfl⟩ : ∃ k, w = k + 1 := ⟨w - 1, by omega⟩
  exact (Nat.pow_succ (n := 2) (m := k)).trans (Nat.mul_comm _ _)

/-- The word whose sign bit alone is set is the least one. -/
theorem signed_min_le {w : Nat} (hpos : 0 < w) (hle : w ≤ maxWidth) (n : Nat) :
    Bits.signed w (Nat.pow 2 (w - 1)) ≤ Bits.signed w n := by
  have hm := modulus_eq_two_mul hpos hle
  have hn := Bits.trunc_lt w n
  have hhalf : 0 < Nat.pow 2 (w - 1) := Nat.two_pow_pos _
  unfold Bits.signed
  rw [span_eq hpos hle]
  simp only
  rw [Bits.trunc_eq_of_lt (show Nat.pow 2 (w - 1) < Bits.modulus w by omega), if_neg (by omega)]
  split <;> omega

/-- The signed comparison compares the values as signed numbers. -/
theorem bvSge_stands (h : s.Wf) (a b : Term) :
    Builds s (bvSge a b) fun t s' => ∃ w, s.HasWidth a w ∧ s.HasWidth b w ∧
      s'.Stands [a, b] t .bool fun _ v =>
        .ofProp (Bits.signed w (v b).toNat ≤ Bits.signed w (v a).toNat) := by
  refine .read_bind h fun w hw => ?_
  obtain ⟨ha, hb⟩ := checkSameWidth_eq_ok hw
  have hnb := hb.not_isNegated h
  have hnode : Builds s (Store.intern (.bvSge a b) .bool) fun t s' => ∃ w, s.HasWidth a w ∧
    s.HasWidth b w ∧
      s'.Stands [a, b] t .bool fun _ v =>
        .ofProp (Bits.signed w (v b).toNat ≤ Bits.signed w (v a).toNat) := by
    refine .intern h (.bvSge a b) _ ⟨rfl, w, ha, hb⟩ ⟨_, h.bool_ty⟩ trivial
      fun t s' hs ht hn => ⟨w, ha, hb, (stands_of_node hn ht rfl fun _ hdef => hdef).congr
        fun _ _ => ?_⟩
    rw [show s'.partWidth (.bvSge a b) = w from (hs.ext.hasWidth ha).width_eq]
    rfl
  split
  next heq =>
    refine .pure h ⟨w, ha, hb, (stands_top h).congr fun _ _ => (Val.ofProp_eq_bool ?_).symm⟩
    simp [heq]
  next =>
  refine .look_bind ?_
  split
  next x y hxy =>
    obtain ⟨hx, hy⟩ := Prod.mk.inj hxy
    refine .pure h ⟨w, ha, hb, (stands_ofBool h _).congr fun hV hdef =>
      (Val.ofProp_eq_bool ?_).symm⟩
    rw [value_const hV (hdef a (by simp)) (ha.not_isNegated h) hx,
      value_const hV (hdef b (by simp)) hnb hy]
    simp
  next y hxy =>
    split
    next hmin =>
      refine .pure h ⟨w, ha, hb, (stands_top h).congr fun hV hdef => (Val.ofProp_eq_bool ?_).symm⟩
      obtain ⟨ty, -, hty⟩ := hb
      obtain ⟨hpos, hle⟩ := h.ty_ok hty
      rw [value_const hV (hdef b (by simp)) hnb (Prod.mk.inj hxy).2, hmin]
      exact iff_of_true (signed_min_le hpos hle _) rfl
    next => exact hnode
  next => exact hnode

/-- A bit of a word is true where the digit of its value is one. -/
theorem bit_stands (h : s.Wf) (x : Term) (i : Nat) :
    Builds s (bit x i) fun t s' => (∃ w, s.HasWidth x w ∧ i < w) ∧
      (s.constValue? x = none → t.isNegated = false ∧ s'.node? t = some (.bit x i, .bool)) ∧
      s'.Stands [x] t .bool fun _ v => .bool ((v x).toNat.testBit i) := by
  refine .read_bind h fun w hw => ?_
  have hx := checkBv_eq_ok hw
  split
  · exact .throw h _
  next hi =>
  refine .look_bind ?_
  split
  next n hn =>
    refine .pure h ⟨⟨w, hx, by omega⟩, by simp [hn], (stands_ofBool h _).congr fun hV hdef => ?_⟩
    rw [value_const hV (hdef x (by simp)) (hx.not_isNegated h) hn]
    rfl
  next =>
    exact .intern h (.bit x i) _ ⟨rfl, w, hx, by omega⟩ ⟨_, h.bool_ty⟩ trivial
      fun t s' hs ht hn =>
        ⟨⟨w, hx, by omega⟩, fun _ => ⟨ht, hn⟩, stands_of_node hn ht rfl fun _ hdef => hdef⟩

/-! ## In interpretations -/

theorem bvConst_builds (h : s.Wf) (w n : Nat) :
    Builds s (bvConst w n) fun t s' => ∃ ty, s'.tyShape? ty = some (.bitVector w) ∧
      s'.Denotes [] t ty fun _ _ => .word (Bits.trunc w n) :=
  (bvConst_stands h w n).mono fun _ _ hs ⟨ty, hty, ht⟩ => ⟨ty, hty, ht.denotes hs.wf⟩

/-- In an interpretation, a sum has the sum of the values. The lemmas below say the same of the
other constructors of words. -/
theorem bvSum_builds (h : s.Wf) (args : List Term) :
    Builds s (bvSum args) fun t s' => ∃ ty w, s.tyShape? ty = some (.bitVector w) ∧
    (∀ a ∈ args, s.Has a ty) ∧
      s'.Denotes args t ty fun I ρ =>
        .word (Bits.trunc w (WordOp.add.fold (args.map (s'.num I ρ)))) :=
  (bvSum_stands h args).mono fun _ _ hs ⟨ty, w, hty, hall, _, ht⟩ =>
    ⟨ty, w, hty, hall, ht.denotes hs.wf⟩

theorem bvProduct_builds (h : s.Wf) (args : List Term) :
    Builds s (bvProduct args) fun t s' => ∃ ty w, s.tyShape? ty = some (.bitVector w) ∧
    (∀ a ∈ args, s.Has a ty) ∧
      s'.Denotes args t ty fun I ρ =>
        .word (Bits.trunc w (WordOp.mul.fold (args.map (s'.num I ρ)))) :=
  (bvProduct_stands h args).mono fun _ _ hs ⟨ty, w, hty, hall, ht⟩ =>
    ⟨ty, w, hty, hall, ht.denotes hs.wf⟩

theorem bvNeg_builds (h : s.Wf) (a : Term) :
    Builds s (bvNeg a) fun t s' => ∃ ty w, s.tyShape? ty = some (.bitVector w) ∧ s.Has a ty ∧
      s'.Denotes [a] t ty fun I ρ => .word (Bits.neg w (s'.num I ρ a)) :=
  (bvNeg_stands h a).mono fun _ _ hs ⟨ty, w, hty, ha, _, ht⟩ => ⟨ty, w, hty, ha, ht.denotes hs.wf⟩

theorem bvSub_builds (h : s.Wf) (a b : Term) :
    Builds s (bvSub a b) fun t s' => ∃ ty w, s.tyShape? ty = some (.bitVector w) ∧ s.Has a ty ∧
    s.Has b ty ∧
      s'.Denotes [a, b] t ty fun I ρ =>
        .word (Bits.trunc w (s'.num I ρ a + Bits.neg w (s'.num I ρ b))) :=
  (bvSub_stands h a b).mono fun _ _ hs ⟨ty, w, hty, ha, hb, _, ht⟩ =>
    ⟨ty, w, hty, ha, hb, ht.denotes hs.wf⟩

theorem bvGe_builds (h : s.Wf) (a b : Term) :
    Builds s (bvGe a b) fun t s' => (∃ w, s.HasWidth a w ∧ s.HasWidth b w) ∧
      s'.Denotes [a, b] t .bool fun I ρ => .ofProp (s'.num I ρ b ≤ s'.num I ρ a) :=
  (bvGe_stands h a b).mono fun _ _ hs ⟨hab, ht⟩ => ⟨hab, ht.denotes hs.wf⟩

theorem bvSge_builds (h : s.Wf) (a b : Term) :
    Builds s (bvSge a b) fun t s' => ∃ w, s.HasWidth a w ∧ s.HasWidth b w ∧
      s'.Denotes [a, b] t .bool fun I ρ =>
        .ofProp (Bits.signed w (s'.num I ρ b) ≤ Bits.signed w (s'.num I ρ a)) :=
  (bvSge_stands h a b).mono fun _ _ hs ⟨w, ha, hb, ht⟩ => ⟨w, ha, hb, ht.denotes hs.wf⟩

theorem bit_builds (h : s.Wf) (x : Term) (i : Nat) :
    Builds s (bit x i) fun t s' => (∃ w, s.HasWidth x w ∧ i < w) ∧
      (s.constValue? x = none → t.isNegated = false ∧ s'.node? t = some (.bit x i, .bool)) ∧
      s'.Denotes [x] t .bool fun I ρ => .bool ((s'.num I ρ x).testBit i) :=
  (bit_stands h x i).mono fun _ _ hs ⟨hx, hn, ht⟩ => ⟨hx, hn, ht.denotes hs.wf⟩

end Store
end Entail
