import Entail.Proofs.Model.Constructors

/-!
# Values of constructed bitvectors

The constructors of bitvectors flatten sums and products, fold constants and drop comparisons whose
outcome is clear. The word that a model gives to what they build is the one that the operation has
on the words of the arguments.
-/

namespace Entail.Model

open Store (Builds IsFold Later)

variable {m : Model} {s s' : Store} {t : Term} {ty : Ty} {shape : Term.Shape} {w n : Nat}

/-- `t` is a bitvector of width `w` with the value `n`. -/
structure IsWord (m : Model) (s : Store) (w : Nat) (t : Term) (n : Nat) : Prop where
  width : s.HasWidth t w
  value : m.Evaluates s t (.bv w n)
  lt : n < Bits.modulus w

/-- The value of a bitvector is a word of its width. -/
theorem IsValue.word {v : Value} (h : m.IsValue s t ty v) (hw : s.HasWidth t w) :
    ∃ n, v = .bv w n ∧ m.IsWord s w t n := by
  obtain ⟨ty', hty, hshape⟩ := hw
  obtain rfl := hty.unique h.has
  obtain ⟨n, rfl, hlt⟩ := (Value.fits_word hshape).mp h.fits
  exact ⟨n, rfl, ⟨ty', hty, hshape⟩, h.value, hlt⟩

/-- The value of a live term is of its type. -/
theorem Evaluates.isValue (hm : m.WellTyped s) (hs : s.Wf) {v : Value} (h : m.Evaluates s t v)
    (ht : s.Has t ty) :
    m.IsValue s t ty v := ⟨ht, h, h.fits hm hs ht⟩

namespace IsWord

variable {n' : Nat}

theorem unique (h : m.IsWord s w t n) (h' : m.IsWord s w t n') : n = n' := by
  cases h.value.unique h'.value
  rfl

theorem extends_ (h : m.IsWord s w t n) (hs : s.Wf) (e : s.Extends s') : m.IsWord s' w t n :=
  ⟨e.hasWidth h.width, h.value.extends_ hs e, h.lt⟩

theorem of_node (hn : s.node? t = some (shape, ty)) (ht : t.isNegated = false)
    (hty : s.tyShape? ty = some (.bitVector w)) (hlt : n < Bits.modulus w)
    (h : NodeValue m s (m.Evaluates s) t shape (.bv w n)) : m.IsWord s w t n :=
  ⟨⟨ty, ⟨⟨_, hn⟩, by simp [ht]⟩, hty⟩, .of_node hn ht h, hlt⟩

theorem const (h : m.IsWord s w t n) (hs : s.Wf) {c : Nat} (hc : s.constValue? t = some c) :
    n = c := by
  obtain ⟨ty, hty, -⟩ := h.width
  obtain ⟨w', -, heq⟩ := h.value.const hs hty hc
  cases heq
  rfl

/-- The value of a word of a given shape is that of its node. -/
theorem node (h : m.IsWord s w t n) (hs : s.Wf) (hshape : s.shape t = shape) :
    s.Typed shape (s.ty t) ∧ NodeValue m s (m.Evaluates s) t shape (.bv w n) := by
  obtain ⟨ty, hty, -⟩ := h.width
  have hn := Store.node?_of_shape_eq hty hshape
  exact ⟨hty.ty_eq ▸ hs.typed hn, h.value.node hn (h.width.not_isNegated hs)⟩

end IsWord

theorem bvConst_isWord (m : Model) (hs : s.Wf) (w n : Nat) :
    Builds s (Store.bvConst w n) fun t s' =>
      m.IsWord s' w t (Bits.trunc w n) ∧ s'.shape t = .bvConst w (Bits.trunc w n) := by
  refine .bind (Store.bvType_builds hs w) fun ty s₁ hs₁ hty => ?_
  refine .intern hs₁.wf (.bvConst w (Bits.trunc w n)) _ ⟨hty, Bits.trunc_lt w n⟩ ⟨_, hty⟩ trivial
    fun t s' hs' ht hn => ?_
  exact ⟨.of_node hn ht (hs'.ext.ty hty) (Bits.trunc_lt w n) .bvConst, Interp.node?_of_shape hn⟩

/-! ## Sums and products -/

open Classical in
/-- The number of the word that is the value of `t`. -/
noncomputable def number (m : Model) (s : Store) (t : Term) : Nat :=
  if h : ∃ n w, m.IsWord s w t n then h.choose else 0

theorem IsWord.number_eq (h : m.IsWord s w t n) : m.number s t = n := by
  have hex : ∃ n w, m.IsWord s w t n := ⟨n, w, h⟩
  rw [number, dif_pos hex]
  obtain ⟨w', hword⟩ := hex.choose_spec
  obtain rfl := h.width.unique hword.width
  exact hword.unique h

theorem IsWord.eq_number {f : Term → Nat} {ts : List Term} (h : ∀ t ∈ ts, m.IsWord s w t (f t)) :
    ts.map f = ts.map (m.number s) := List.map_congr_left fun t ht => (h t ht).number_eq.symm

/-- `ts` are words of one width. -/
def Words (m : Model) (s : Store) (w : Nat) (ts : List Term) : Prop :=
  ∀ t ∈ ts, m.IsWord s w t (m.number s t)

theorem Words.of_forall {f : Term → Nat} {ts : List Term} (h : ∀ t ∈ ts, m.IsWord s w t (f t)) :
    m.Words s w ts :=
  fun t ht => (h t ht).number_eq.symm ▸ h t ht

theorem Words.extends_ {ts : List Term} (h : m.Words s w ts) (hs : s.Wf) (e : s.Extends s') :
    m.Words s' w ts ∧ ts.map (m.number s') = ts.map (m.number s) := by
  have hlater : ∀ t ∈ ts, m.IsWord s' w t (m.number s t) := fun t ht => (h t ht).extends_ hs e
  exact ⟨.of_forall hlater, (IsWord.eq_number hlater).symm⟩

theorem Words.of_forall₂ {ts : List Term} {ns : List Nat} (h : List.Forall₂ (m.IsWord s w) ts ns) :
    m.Words s w ts ∧ ts.map (m.number s) = ns := by
  induction h with
  | nil => exact ⟨fun t ht => absurd ht List.not_mem_nil, rfl⟩
  | cons ht _ ih =>
    refine ⟨fun u hu => ?_, by rw [List.map_cons, ht.number_eq, ih.2]⟩
    rcases List.mem_cons.mp hu with rfl | hu
    · exact ht.number_eq.symm ▸ ht
    · exact ih.1 u hu

section Folded

variable {o : WordOp} {mk : List Term → Term.Shape} {args inner rest ts : List Term}

/-- The value of a sum or a product is folded from the values of its arguments. -/
theorem NodeValue.fold {val : Term → Value → Prop} (hmk : IsFold o mk) {ns : List Nat}
    (hw : s.width? t = some w) (h : List.Forall₂ (fun a n => ∃ w', val a (.bv w' n)) inner ns) :
    NodeValue m s val t (mk inner) (.bv w (Bits.trunc w (o.fold ns))) := by
  rcases hmk with ⟨rfl, rfl⟩ | ⟨rfl, rfl⟩
  · exact .bvSum hw h
  · exact .bvProduct hw h

/-- If `t` is a sum or a product, its arguments are words, and its value is folded from theirs. -/
def Unfolds (m : Model) (s : Store) (o : WordOp) (mk : List Term → Term.Shape) (w : Nat)
    (t : Term) : Prop :=
  ∀ ⦃inner⦄, s.shape t = mk inner →
    m.Words s w inner ∧ m.number s t = Bits.trunc w (o.fold (inner.map (m.number s)))

theorem IsWord.unfolds (h : m.IsWord s w t n) (hm : m.WellTyped s) (hs : s.Wf) (hmk : IsFold o mk) :
    m.Unfolds s o mk w t := by
  intro inner hshape
  obtain ⟨ty, hty, hw⟩ := h.width
  obtain ⟨htyped, hnode⟩ := h.node hs hshape
  rw [hty.ty_eq] at htyped
  obtain ⟨hall, ns, hns, hvals⟩ : (∀ c ∈ inner, s.Has c ty) ∧ ∃ ns, n = Bits.trunc w (o.fold ns) ∧
      List.Forall₂ (fun a n => ∃ w', m.Evaluates s a (.bv w' n)) inner ns := by
    rcases hmk with ⟨rfl, rfl⟩ | ⟨rfl, rfl⟩
    · cases hnode with
      | bvSum _ hvals => exact ⟨htyped.2.1, _, rfl, hvals⟩
    · cases hnode with
      | bvProduct _ hvals => exact ⟨htyped.2.1, _, rfl, hvals⟩
  have hwords : List.Forall₂ (m.IsWord s w) inner ns := by
    refine ((List.forall₂_and_left ..).mpr ⟨hall, hvals⟩).imp ?_
    rintro c k ⟨hc, w', hv⟩
    obtain ⟨k', heq, hk⟩ := (hv.isValue hm hs hc).word ⟨ty, hc, hw⟩
    cases heq
    exact hk
  obtain ⟨hinner, rfl⟩ := Words.of_forall₂ hwords
  exact ⟨hinner, h.number_eq.trans hns⟩

theorem Unfolds.extends_ (h : m.Unfolds s o mk w t) (ht : m.IsWord s w t n) (hs : s.Wf)
    (e : s.Extends s') :
    m.Unfolds s' o mk w t := by
  intro inner hshape
  obtain ⟨ty, hty, -⟩ := ht.width
  rw [Interp.shape_of_has e hty] at hshape
  obtain ⟨hinner, hvalue⟩ := h hshape
  obtain ⟨hinner', hsame⟩ := hinner.extends_ hs e
  rw [ht.number_eq] at hvalue
  exact ⟨hinner', by rw [(ht.extends_ hs e).number_eq, hsame, hvalue]⟩

/-- Taking sums or products among the arguments apart. -/
theorem Words.flatMap {part : Term → List Term}
    (hpart : ∀ t, part t = [t] ∨ s.shape t = mk (part t))
    (h : m.Words s w args) (hunf : ∀ a ∈ args, m.Unfolds s o mk w a) :
    m.Words s w (args.flatMap part) ∧ o.fold (args.map (m.number s)) ≡ o.fold
      ((args.flatMap part).map (m.number s))
      [MOD Bits.modulus w] := by
  constructor
  · intro t ht
    obtain ⟨a, ha, hta⟩ := List.mem_flatMap.mp ht
    rcases hpart a with hself | hshape
    · rw [hself] at hta
      exact List.mem_singleton.mp hta ▸ h a ha
    · exact (hunf a ha hshape).1 t hta
  · refine o.fold_flatMap fun a ha => ?_
    rcases hpart a with hself | hshape
    · rw [hself, List.map_singleton, Store.WordOp.fold_singleton]
    · rw [(hunf a ha hshape).2]
      exact Bits.trunc_modEq _ _

theorem Words.summands (h : m.Words s w args) (hunf : ∀ a ∈ args, m.Unfolds s .add .bvSum w a) :
    m.Words s w (s.summands args) ∧
      WordOp.add.fold (args.map (m.number s)) ≡ WordOp.add.fold ((s.summands args).map (m.number s))
        [MOD Bits.modulus w] := by
  refine Words.flatMap (fun t => ?_) h hunf
  split
  next inner hshape => exact .inr hshape
  next => exact .inl rfl

theorem Words.factors (h : m.Words s w args) (hunf : ∀ a ∈ args, m.Unfolds s .mul .bvProduct w a) :
    m.Words s w (s.factors args) ∧
      WordOp.mul.fold (args.map (m.number s)) ≡ WordOp.mul.fold ((s.factors args).map (m.number s))
        [MOD Bits.modulus w] := by
  refine Words.flatMap (fun t => ?_) h hunf
  split
  next inner hshape => exact .inr hshape
  next => exact .inl rfl

/-- Setting the constants apart. -/
theorem Words.splitConsts (hs : s.Wf) (h : m.Words s w ts) : m.Words s w (s.splitConsts ts).2 ∧
    o.fold (ts.map (m.number s)) =
      o.op (o.fold (s.splitConsts ts).1) (o.fold ((s.splitConsts ts).2.map (m.number s))) :=
  ⟨fun t ht => h t (Store.splitConsts_mem ht), o.fold_splitConsts ts fun t ht _ hc =>
    (h t ht).const hs hc⟩

/-- The list with the folded constant in front has the same value as the constant and the
other arguments. -/
theorem withConst_words (hs : s.Wf) (o : WordOp) {c : Nat} (h : m.Words s w rest) :
    Builds s (Store.withConst w o.neutral c rest) fun ts s' => m.Words s' w ts ∧
    (rest ≠ [] → ts ≠ []) ∧
      o.fold (ts.map (m.number s')) ≡ o.op c (o.fold (rest.map (m.number s)))
        [MOD Bits.modulus w] := by
  unfold Store.withConst
  split
  next hc =>
    refine .pure hs ⟨h, id, ?_⟩
    rw [hc, o.neutral_op]
  next =>
    refine .bind (bvConst_isWord m hs w c) fun t s' hs' ht => .pure hs'.wf ?_
    obtain ⟨ht, -⟩ := ht
    obtain ⟨hrest, hsame⟩ := h.extends_ hs hs'.ext
    refine ⟨fun u hu => ?_, fun _ => List.cons_ne_nil _ _, ?_⟩
    · rcases List.mem_cons.mp hu with rfl | hu
      · exact ht.number_eq.symm ▸ ht
      · exact hrest u hu
    · rw [List.map_cons, hsame, ht.number_eq]
      exact o.modEq (Bits.trunc_modEq w c) rfl

/-- A sum or a product of the listed words: the only one, or a new term over the sorted list. -/
theorem collect_isWord (hs : s.Wf) (hmk : IsFold o mk) (hne : ts ≠ []) (h : m.Words s w ts)
    (hty : s.tyShape? ty = some (.bitVector w)) :
    Builds s (Store.intern (mk (Term.sort ts)) ty) fun t s' =>
      m.IsWord s' w t (Bits.trunc w (o.fold (ts.map (m.number s)))) := by
  have hperm : (Term.sort ts).Perm ts := List.mergeSort_perm ts Term.le
  have hsort : Term.sort ts ≠ [] := fun hnil => hne (List.nil_perm.mp (hnil ▸ hperm))
  have htyped : s.Typed (mk (Term.sort ts)) ty := by
    have hall : ∀ t ∈ Term.sort ts, s.Has t ty :=
      fun t ht => hs.has_of_hasWidth (h t (Term.mem_sort.mp ht)).width hty
    rcases hmk with ⟨rfl, rfl⟩ | ⟨rfl, rfl⟩
    · exact ⟨hsort, hall, w, hty⟩
    · exact ⟨hsort, hall, w, hty⟩
  have hserial : Store.SerialBelow s.termSerial (mk (Term.sort ts)) := by
    rcases hmk with ⟨rfl, rfl⟩ | ⟨rfl, rfl⟩
    · trivial
    · trivial
  refine .intern hs _ ty htyped ⟨_, hty⟩ hserial fun t s' hs' ht hn => ?_
  have hty' := hs'.ext.ty hty
  have hwidth : s'.width? t = some w := by
    have htyp : s'.ty t = ty := by simp [Store.ty, hn]
    rw [Store.width?, htyp, Store.tyWidth?_eq_some, hty']
  have hvals : List.Forall₂ (fun a n => ∃ w', m.Evaluates s' a (.bv w' n)) (Term.sort ts)
      ((Term.sort ts).map (m.number s)) := by
    refine List.forall₂_map_right_iff.mpr (List.forall₂_same.mpr fun a ha => ⟨w, ?_⟩)
    exact (h a (Term.mem_sort.mp ha)).value.extends_ hs hs'.ext
  rw [← o.fold_perm (hperm.map (m.number s))]
  exact .of_node hn ht hty' (Bits.trunc_lt w _) (.fold hmk hwidth hvals)

/-- What is left of a sum or a product after its constants were folded. -/
theorem folded_isWord (hs : s.Wf) (hmk : IsFold o mk) {first : Term} {c : Nat} (hne : rest ≠ [])
    (h : m.Words s w rest) (hfirst : s.Has first ty) (hty : s.tyShape? ty = some (.bitVector w)) :
    Builds s (do
      match ← Store.withConst w o.neutral c rest with
      | [t] => return t
      | ts => Store.intern (mk (Term.sort ts)) (← Store.look fun s => s.ty first)) fun t s' =>
      m.IsWord s' w t (Bits.trunc w (o.op c (o.fold (rest.map (m.number s))))) := by
  refine .bind (withConst_words hs o h) fun ts s₁ hs₁ hts => ?_
  obtain ⟨hwords, hnonempty, hfold⟩ := hts
  have hts := hnonempty hne
  rw [← Bits.trunc_eq_trunc hfold]
  match ts, hwords, hts with
  | [t], hwords, _ =>
    have ht := hwords t (List.mem_singleton_self t)
    rw [List.map_singleton, Store.WordOp.fold_singleton, Bits.trunc_eq_of_lt ht.lt]
    exact .pure hs₁.wf ht
  | a :: b :: ts, hwords, hts =>
    refine .look_bind ?_
    rw [(hs₁.ext.has hfirst).ty_eq]
    exact collect_isWord hs₁.wf hmk hts hwords (hs₁.ext.ty hty)

theorem bvSum_isWord (hs : s.Wf) {f : Term → Nat} (hf : ∀ a ∈ args, m.IsWord s w a (f a))
    (hunf : ∀ a ∈ args, m.Unfolds s .add .bvSum w a) :
    Builds s (Store.bvSum args) fun t s' =>
      m.IsWord s' w t (Bits.trunc w (WordOp.add.fold (args.map f))) := by
  refine .read_bind hs fun width hwidth => ?_
  obtain ⟨hne, hargs⟩ := Store.checkBvArgs_eq_ok hwidth
  obtain ⟨first, more, rfl⟩ := List.exists_cons_of_ne_nil hne
  obtain rfl := (hargs first (List.mem_cons_self ..)).unique
    (hf first (List.mem_cons_self ..)).width
  obtain ⟨ty, hfirst, hty⟩ := hargs first (List.mem_cons_self ..)
  obtain ⟨hparts, hmod⟩ := (Words.of_forall hf).summands hunf
  obtain ⟨hrest, hsplit⟩ := hparts.splitConsts (o := .add) hs
  refine .look_bind ?_
  rw [IsWord.eq_number hf]
  generalize s.splitConsts (s.summands (first :: more)) = split at hrest hsplit
  obtain ⟨consts, rest⟩ := split
  -- the folded constant and the rest make up the sum
  have hvalue : Bits.trunc width (WordOp.add.op (Bits.trunc width (WordOp.add.fold consts))
      (WordOp.add.fold (rest.map (m.number s)))) =
      Bits.trunc width (WordOp.add.fold ((first :: more).map (m.number s))) :=
    Bits.trunc_eq_trunc ((WordOp.add.modEq (Bits.trunc_modEq width _) rfl).trans
      (hsplit ▸ hmod.symm))
  simp only
  split
  next hempty =>
    obtain rfl := List.isEmpty_iff.mp hempty
    exact hvalue ▸ (bvConst_isWord m hs width _).mono fun t s' _ ht => ht.1
  next hempty =>
    exact hvalue ▸ folded_isWord hs (.inl ⟨rfl, rfl⟩) (fun hnil => hempty (by simp [hnil]))
      hrest hfirst hty

theorem bvProduct_isWord (hs : s.Wf) {f : Term → Nat} (hf : ∀ a ∈ args, m.IsWord s w a (f a))
    (hunf : ∀ a ∈ args, m.Unfolds s .mul .bvProduct w a) :
    Builds s (Store.bvProduct args) fun t s' =>
      m.IsWord s' w t (Bits.trunc w (WordOp.mul.fold (args.map f))) := by
  refine .read_bind hs fun width hwidth => ?_
  obtain ⟨hne, hargs⟩ := Store.checkBvArgs_eq_ok hwidth
  obtain ⟨first, more, rfl⟩ := List.exists_cons_of_ne_nil hne
  obtain rfl := (hargs first (List.mem_cons_self ..)).unique
    (hf first (List.mem_cons_self ..)).width
  obtain ⟨ty, hfirst, hty⟩ := hargs first (List.mem_cons_self ..)
  obtain ⟨hparts, hmod⟩ := (Words.of_forall hf).factors hunf
  obtain ⟨hrest, hsplit⟩ := hparts.splitConsts (o := .mul) hs
  refine .look_bind ?_
  rw [IsWord.eq_number hf]
  generalize s.splitConsts (s.factors (first :: more)) = split at hrest hsplit
  obtain ⟨consts, rest⟩ := split
  have hconst : Bits.trunc width (consts.foldl (fun acc v => Bits.trunc width (acc * v)) 1) ≡
    WordOp.mul.fold consts
      [MOD Bits.modulus width] :=
    (Bits.trunc_modEq width _).trans ((Store.foldl_trunc_modEq width consts 1).trans
      (by rw [Nat.one_mul]))
  have hvalue : Bits.trunc width (WordOp.mul.op
      (Bits.trunc width (consts.foldl (fun acc v => Bits.trunc width (acc * v)) 1))
      (WordOp.mul.fold (rest.map (m.number s)))) =
      Bits.trunc width (WordOp.mul.fold ((first :: more).map (m.number s))) :=
    Bits.trunc_eq_trunc ((WordOp.mul.modEq hconst rfl).trans (hsplit ▸ hmod.symm))
  simp only
  split
  next hempty =>
    -- either the constant is zero, or there is nothing but constants
    have hsame : Bits.trunc width (WordOp.mul.op
        (Bits.trunc width (consts.foldl (fun acc v => Bits.trunc width (acc * v)) 1))
        (WordOp.mul.fold (rest.map (m.number s)))) =
        Bits.trunc width (Bits.trunc width
          (consts.foldl (fun acc v => Bits.trunc width (acc * v)) 1)) := by
      rcases Bool.or_eq_true_iff.mp hempty with hzero | hnil
      · rw [of_decide_eq_true hzero]
        exact congrArg _ (Nat.zero_mul _)
      · rw [List.isEmpty_iff.mp hnil]
        exact congrArg _ (Nat.mul_one _)
    rw [← hvalue, hsame]
    exact (bvConst_isWord m hs width _).mono fun t s' _ ht => ht.1
  next hempty =>
  split
  · exact .throw hs _
  · exact hvalue ▸ folded_isWord hs (.inr ⟨rfl, rfl⟩) (fun hnil => hempty (by simp [hnil]))
      hrest hfirst hty

end Folded

/-! ## Negation, differences and powers -/

theorem bvNeg_isWord (hm : m.WellTyped s) (hs : s.Wf) {a : Term} (ha : m.IsWord s w a n) :
    Builds s (Store.bvNeg a) fun t s' => m.IsWord s' w t (Bits.neg w n) ∧
    m.Unfolds s' .add .bvSum w t := by
  refine .read_bind hs fun width hwidth => ?_
  obtain rfl := (Store.checkBv_eq_ok hwidth).unique ha.width
  obtain ⟨ty, hty, hw⟩ := ha.width
  refine .look_bind ?_
  split
  next w' v hshape =>
    obtain rfl := ha.const hs (c := v) (by simp [Store.constValue?, hshape])
    refine (bvConst_isWord m hs width _).mono fun t s' _ ht => ?_
    rw [Store.neg_trunc] at ht
    refine ⟨ht.1, fun inner hsum => ?_⟩
    rw [ht.2] at hsum
    cases hsum
  next x hshape =>
    obtain ⟨htyped, hnode⟩ := ha.node hs hshape
    rw [hty.ty_eq] at htyped
    refine .pure hs ?_
    cases hnode with
    | @bvNeg _ _ k hx =>
      obtain ⟨k', heq, hword⟩ := (hx.isValue hm hs htyped.1).word ⟨ty, htyped.1, hw⟩
      cases heq
      rw [Store.neg_neg_word hword.lt]
      exact ⟨hword, hword.unfolds hm hs (.inl ⟨rfl, rfl⟩)⟩
  next =>
    refine .look_bind ?_
    rw [hty.ty_eq]
    refine .intern hs (.bvNeg a) _ ⟨hty, width, hw⟩ ⟨_, hw⟩ trivial fun t s' hs' ht hn =>
      ⟨?_, fun inner hsum => ?_⟩
    · exact .of_node hn ht (hs'.ext.ty hw) (Bits.neg_lt width n)
        (.bvNeg (ha.value.extends_ hs hs'.ext))
    · rw [Interp.node?_of_shape hn] at hsum
      cases hsum

/-- The values of two words as a function of the words. -/
theorem IsWord.exists_values₂ {a b : Term} {k : Nat} (ha : m.IsWord s w a n)
    (hb : m.IsWord s w b k) :
    (∀ c ∈ [a, b], m.IsWord s w c (m.number s c)) ∧ [a, b].map (m.number s) = [n, k] := by
  refine ⟨fun c hc => ?_, by rw [List.map_cons, List.map_singleton, ha.number_eq, hb.number_eq]⟩
  rcases List.mem_pair.mp hc with rfl | rfl
  · exact ha.number_eq.symm ▸ ha
  · exact hb.number_eq.symm ▸ hb

theorem bvSub_isWord (hm : m.WellTyped s) (hs : s.Wf) {a b : Term} {k : Nat} (ha : m.IsWord s w a n)
    (hb : m.IsWord s w b k) :
    Builds s (Store.bvSub a b) fun t s' => m.IsWord s' w t (Bits.trunc w (n + Bits.neg w k)) := by
  refine .read_bind hs fun _ _ => .bind (bvNeg_isWord hm hs hb) fun nb s₁ hs₁ hnb => ?_
  obtain ⟨hnb, hunf⟩ := hnb
  have ha₁ := ha.extends_ hs hs₁.ext
  obtain ⟨hwords, hvals⟩ := IsWord.exists_values₂ ha₁ hnb
  have hsum := bvSum_isWord hs₁.wf hwords fun c hc => by
    rcases List.mem_pair.mp hc with rfl | rfl
    · exact (ha.unfolds hm hs (.inl ⟨rfl, rfl⟩)).extends_ ha hs hs₁.ext
    · exact hunf
  rwa [hvals] at hsum

theorem bvPower_isWord (hm : m.WellTyped s) (hs : s.Wf) {a : Term} (ha : m.IsWord s w a n)
    (degree : Nat) :
    Builds s (Store.bvPower a degree) fun t s' => m.IsWord s' w t (Bits.trunc w (n ^ degree)) := by
  refine .read_bind hs fun width hwidth => ?_
  obtain rfl := (Store.checkBv_eq_ok hwidth).unique ha.width
  split
  · exact .throw hs _
  split
  next hzero =>
    rw [hzero, Nat.pow_zero]
    exact (bvConst_isWord m hs width 1).mono fun t s' _ ht => ht.1
  next =>
    have hargs : ∀ c ∈ List.replicate degree a, c = a := fun c hc => (List.mem_replicate.mp hc).2
    have hproduct := bvProduct_isWord (f := fun _ => n) hs (fun c hc => hargs c hc ▸ ha)
      fun c hc => hargs c hc ▸ ha.unfolds hm hs (.inr ⟨rfl, rfl⟩)
    have hpower (d : Nat) : WordOp.mul.fold (List.replicate d n) = n ^ d := by
      induction d with
      | zero => rfl
      | succ d ih => exact (congrArg (n * ·) ih).trans (Nat.pow_succ'.symm)
    rwa [List.map_replicate, hpower] at hproduct

/-! ## Comparisons and bits -/

section Compare

variable {a b : Term} {k : Nat}

theorem bvGe_isTruth (hs : s.Wf) (ha : m.IsWord s w a n) (hb : m.IsWord s w b k) :
    Builds s (Store.bvGe a b) fun t s' => m.IsTruth s' t (decide (n ≥ k)) := by
  refine .read_bind hs fun _ _ => ?_
  split
  next heq =>
    obtain rfl := ha.unique (heq ▸ hb)
    exact .pure hs (by simpa using IsTruth.top hs)
  next =>
  refine .look_bind ?_
  split
  next x y hxy =>
    obtain ⟨hx, hy⟩ := Prod.mk.inj hxy
    obtain rfl := ha.const hs hx
    obtain rfl := hb.const hs hy
    exact .pure hs (.ofBool hs _)
  next hxy =>
    obtain rfl := hb.const hs (Prod.mk.inj hxy).2
    exact .pure hs (by simpa using IsTruth.top hs)
  next =>
    refine .intern hs (.bvGe a b) _ ⟨rfl, w, ha.width, hb.width⟩ ⟨_, hs.bool_ty⟩ trivial
      fun t s' hs' ht hn => ?_
    exact .of_node hn ht (.bvGe (ha.value.extends_ hs hs'.ext) (hb.value.extends_ hs hs'.ext))

theorem bvSge_isTruth (hs : s.Wf) (ha : m.IsWord s w a n) (hb : m.IsWord s w b k) :
    Builds s (Store.bvSge a b) fun t s' =>
      m.IsTruth s' t (decide (Bits.signed w n ≥ Bits.signed w k)) := by
  refine .read_bind hs fun width hwidth => ?_
  obtain rfl := (Store.checkSameWidth_eq_ok hwidth).1.unique ha.width
  have hnode : Builds s (Store.intern (.bvSge a b) .bool) fun t s' =>
      m.IsTruth s' t (decide (Bits.signed width n ≥ Bits.signed width k)) := by
    refine .intern hs (.bvSge a b) _ ⟨rfl, width, ha.width, hb.width⟩ ⟨_, hs.bool_ty⟩ trivial
      fun t s' hs' ht hn => ?_
    exact .of_node hn ht (.bvSge (ha.value.extends_ hs hs'.ext) (hb.value.extends_ hs hs'.ext))
  split
  next heq =>
    obtain rfl := ha.unique (heq ▸ hb)
    exact .pure hs (by simpa using IsTruth.top hs)
  next =>
  refine .look_bind ?_
  split
  next x y hxy =>
    obtain ⟨hx, hy⟩ := Prod.mk.inj hxy
    obtain rfl := ha.const hs hx
    obtain rfl := hb.const hs hy
    exact .pure hs (.ofBool hs _)
  next y hxy =>
    split
    next hmin =>
      -- nothing is less than the word whose sign bit alone is set
      obtain rfl := hb.const hs (Prod.mk.inj hxy).2
      obtain ⟨ty, -, hty⟩ := hb.width
      obtain ⟨hpos, hle⟩ := hs.ty_ok hty
      have htrue : decide (Bits.signed width n ≥ Bits.signed width k) = true :=
        decide_eq_true (hmin ▸ Store.signed_min_le hpos hle n)
      exact .pure hs (htrue ▸ .top hs)
    next => exact hnode
  next => exact hnode

theorem bit_isTruth (hs : s.Wf) (ha : m.IsWord s w a n) (i : Nat) :
    Builds s (Store.bit a i) fun t s' => i < w ∧ m.IsTruth s' t (n.testBit i) := by
  refine .read_bind hs fun width hwidth => ?_
  obtain rfl := (Store.checkBv_eq_ok hwidth).unique ha.width
  split
  · exact .throw hs _
  next hi =>
  have hi : i < width := Nat.lt_of_not_le hi
  refine .look_bind ?_
  split
  next v hv =>
    obtain rfl := ha.const hs hv
    exact .pure hs ⟨hi, .ofBool hs _⟩
  next =>
    refine .intern hs (.bit a i) _ ⟨rfl, width, ha.width, hi⟩ ⟨_, hs.bool_ty⟩ trivial
      fun t s' hs' ht hn => ⟨hi, ?_⟩
    exact .of_node hn ht (.bit (ha.value.extends_ hs hs'.ext))

end Compare
end Entail.Model
