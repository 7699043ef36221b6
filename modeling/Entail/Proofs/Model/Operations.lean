import Entail.Proofs.Model.Words
import Entail.Proofs.Store.Runs
import Mathlib

/-!
# Constructors preserve meaning

The quantifier-free constructors in one place, each beside the operation on values that it stands
for: a connective, or an operation on bit vectors. In a well-typed model the term that a
constructor builds has the value of the operation, however its arguments are nested and whatever
the constructor simplifies.
-/

namespace Entail

/-- The value that a bit vector stands for. -/
def Value.ofWord {w : Nat} (x : BitVec w) : Value := .bv w x.toNat

/-- Comparisons of words. -/
inductive Comparison where
  | ge | gt | le | lt | sge | sgt | sle | slt

namespace Comparison

/-- The constructor of a comparison. -/
def run : Comparison → Term → Term → Store.Op Term
  | ge => Store.bvGe
  | gt => Store.bvGt
  | le => Store.bvLe
  | lt => Store.bvLt
  | sge => Store.bvSge
  | sgt => Store.bvSgt
  | sle => Store.bvSle
  | slt => Store.bvSlt

/-- The outcome of a comparison; the signed ones read words in two's complement. -/
def holds {w : Nat} : Comparison → BitVec w → BitVec w → Bool
  | ge, x, y => y.ule x
  | gt, x, y => y.ult x
  | le, x, y => x.ule y
  | lt, x, y => x.ult y
  | sge, x, y => y.sle x
  | sgt, x, y => y.slt x
  | sle, x, y => x.sle y
  | slt, x, y => x.slt y

end Comparison

/-- A quantifier-free constructor with its arguments. -/
inductive Construction where
  | not (t : Term)
  | or (ts : List Term)
  | and (ts : List Term)
  | implies (a b : Term)
  | xor2 (a b : Term)
  | xor (ts : List Term)
  | iff (a b : Term)
  | ite (c a b : Term)
  | eq (a b : Term)
  | neq (a b : Term)
  | distinct (ts : List Term)
  | bvConst (width value : Nat)
  | bvSum (ts : List Term)
  | bvSub (a b : Term)
  | bvNeg (t : Term)
  | bvProduct (ts : List Term)
  | bvPower (t : Term) (degree : Nat)
  | compare (op : Comparison) (a b : Term)
  | bit (t : Term) (i : Nat)

namespace Construction

/-- The constructor as an operation on the store. -/
def run : Construction → Store.Op Term
  | not t => Store.not t
  | or ts => Store.or ts
  | and ts => Store.and ts
  | implies a b => Store.implies a b
  | xor2 a b => Store.xor2 a b
  | xor ts => Store.xor ts
  | iff a b => Store.iff a b
  | ite c a b => Store.ite c a b
  | eq a b => Store.eq a b
  | neq a b => Store.neq a b
  | distinct ts => Store.distinct ts
  | bvConst width value => Store.bvConst width value
  | bvSum ts => Store.bvSum ts
  | bvSub a b => Store.bvSub a b
  | bvNeg t => Store.bvNeg t
  | bvProduct ts => Store.bvProduct ts
  | bvPower t degree => Store.bvPower t degree
  | compare op a b => op.run a b
  | bit t i => Store.bit t i

/-- The terms that the constructor is applied to. -/
def args : Construction → List Term
  | not t | bvNeg t | bvPower t _ | bit t _ => [t]
  | or ts | and ts | xor ts | distinct ts | bvSum ts | bvProduct ts => ts
  | implies a b | xor2 a b | iff a b | eq a b | neq a b | bvSub a b | compare _ a b => [a, b]
  | ite c a b => [c, a, b]
  | bvConst .. => []

/-- The value of the operation on values of the arguments. Words of one width `w` are bit vectors,
with arithmetic modulo `2 ^ w`. -/
inductive Standard : Construction → List Value → Value → Prop where
  | not (t : Term) (x : Bool) : Standard (.not t) [.bool x] (.bool !x)
  | or (ts : List Term) (xs : List Bool) : Standard (.or ts) (xs.map .bool) (.bool (xs.any id))
  | and (ts : List Term) (xs : List Bool) : Standard (.and ts) (xs.map .bool) (.bool (xs.all id))
  | implies (a b : Term) (x y : Bool) : Standard (.implies a b) [.bool x, .bool y] (.bool (!x || y))
  | xor2 (a b : Term) (x y : Bool) : Standard (.xor2 a b) [.bool x, .bool y] (.bool (x ^^ y))
  | xor (ts : List Term) (xs : List Bool) :
    Standard (.xor ts) (xs.map .bool) (.bool (xs.foldl Bool.xor false))
  | iff (a b : Term) (x y : Bool) : Standard (.iff a b) [.bool x, .bool y] (.bool (x == y))
  | ite (c a b : Term) (x : Bool) (u v : Value) :
    Standard (.ite c a b) [.bool x, u, v] (if x then u else v)
  | eq (a b : Term) (u v : Value) : Standard (.eq a b) [u, v] (.bool (decide (u = v)))
  | neq (a b : Term) (u v : Value) : Standard (.neq a b) [u, v] (.bool (decide (u ≠ v)))
  | distinct (ts : List Term) (vs : List Value) :
    Standard (.distinct ts) vs (.bool (decide vs.Nodup))
  | bvConst (w n : Nat) : Standard (.bvConst w n) [] (.ofWord (BitVec.ofNat w n))
  | bvSum (ts : List Term) {w : Nat} (xs : List (BitVec w)) (hne : xs ≠ []) :
    Standard (.bvSum ts) (xs.map .ofWord) (.ofWord xs.sum)
  | bvSub (a b : Term) {w : Nat} (x y : BitVec w) :
    Standard (.bvSub a b) [.ofWord x, .ofWord y] (.ofWord (x - y))
  | bvNeg (t : Term) {w : Nat} (x : BitVec w) : Standard (.bvNeg t) [.ofWord x] (.ofWord (-x))
  | bvProduct (ts : List Term) {w : Nat} (xs : List (BitVec w)) (hne : xs ≠ []) :
    Standard (.bvProduct ts) (xs.map .ofWord) (.ofWord xs.prod)
  | bvPower (t : Term) (degree : Nat) {w : Nat} (x : BitVec w) :
    Standard (.bvPower t degree) [.ofWord x] (.ofWord (x ^ degree))
  | compare (op : Comparison) (a b : Term) {w : Nat} (x y : BitVec w) :
    Standard (.compare op a b) [.ofWord x, .ofWord y] (.bool (op.holds x y))
  | bit (t : Term) {i w : Nat} (x : BitVec w) (hi : i < w) :
    Standard (.bit t i) [.ofWord x] (.bool x[i])

end Construction

/-! ## Words as bit vectors -/

namespace Bits

variable {w : Nat}

theorem trunc_eq_toNat_ofNat (hw : w ≤ Store.maxWidth) (n : Nat) :
    trunc w n = (BitVec.ofNat w n).toNat := by
  rw [BitVec.toNat_ofNat, trunc, Store.modulus_eq hw]
  rfl

theorem neg_eq_toNat_neg (hw : w ≤ Store.maxWidth) (x : BitVec w) : neg w x.toNat = (-x).toNat := by
  have hm : modulus w = 2 ^ w := Store.modulus_eq hw
  rw [BitVec.toNat_neg, neg, trunc, trunc, hm, Nat.mod_eq_of_lt x.isLt]

theorem signed_eq_toInt (hpos : 0 < w) (hw : w ≤ Store.maxWidth) (x : BitVec w) :
    signed w x.toNat = x.toInt := by
  have hm : modulus w = 2 ^ w := Store.modulus_eq hw
  rw [BitVec.toInt_eq_toNat_cond, signed, Store.span_eq hpos hw, hm, trunc_eq_of_lt (hm ▸ x.isLt)]

theorem trunc_add_neg (hw : w ≤ Store.maxWidth) (x y : BitVec w) :
    trunc w (x.toNat + neg w y.toNat) = (x - y).toNat := by
  have hm : modulus w = 2 ^ w := Store.modulus_eq hw
  rw [BitVec.sub_eq_add_neg, BitVec.toNat_add, neg_eq_toNat_neg hw, trunc, hm]

theorem trunc_pow (hw : w ≤ Store.maxWidth) (x : BitVec w) (n : Nat) :
    trunc w (x.toNat ^ n) = (x ^ n).toNat := by
  have hm : modulus w = 2 ^ w := Store.modulus_eq hw
  induction n with
  | zero => exact (trunc_eq_toNat_ofNat hw 1).trans (by rw [BitVec.pow_zero])
  | succ n ih =>
    rw [BitVec.pow_succ, BitVec.toNat_mul, ← ih, ← hm, Nat.pow_succ]
    exact (Nat.mod_mul_mod _ _ _).symm

theorem trunc_fold_add (hw : w ≤ Store.maxWidth) (xs : List (BitVec w)) :
    trunc w (WordOp.add.fold (xs.map BitVec.toNat)) = xs.sum.toNat := by
  have hm : modulus w = 2 ^ w := Store.modulus_eq hw
  induction xs with
  | nil => exact Nat.zero_mod _
  | cons x xs ih =>
    rw [List.sum_cons, BitVec.toNat_add, ← ih, ← hm]
    exact (Nat.add_mod_mod _ _ _).symm

theorem trunc_fold_mul (hw : w ≤ Store.maxWidth) (xs : List (BitVec w)) :
    trunc w (WordOp.mul.fold (xs.map BitVec.toNat)) = xs.prod.toNat := by
  have hm : modulus w = 2 ^ w := Store.modulus_eq hw
  induction xs with
  | nil => exact (trunc_eq_toNat_ofNat hw 1).trans rfl
  | cons x xs ih =>
    rw [List.prod_cons, BitVec.toNat_mul, ← ih, ← hm]
    exact (Nat.mul_mod_mod _ _ _).symm

end Bits

namespace Model

open Store (Builds Later later_frame)

variable {m : Model} {s s' : Store} {t a b : Term} {ty tya tyb : Ty} {w : Nat} {u v : Value}
  {ts : List Term}

/-- The terms have the values in the list. -/
def Values (m : Model) (s : Store) (ts : List Term) (vs : List Value) : Prop :=
  List.Forall₂ (fun t v => ∃ ty, m.IsValue s t ty v) ts vs

theorem Values.extends_ {vs : List Value} (h : m.Values s ts vs) (hs : s.Wf) (e : s.Extends s') :
    m.Values s' ts vs :=
  h.imp fun _ _ ⟨ty, hv⟩ => ⟨ty, hv.extends_ hs e⟩

/-- What a relation with unique values gives to the terms of a list is given by a function. -/
theorem exists_map_of_forall₂ {α : Type} [Inhabited α] {R : Term → α → Prop}
    (hunique : Relator.RightUnique R) {as : List α} (h : List.Forall₂ R ts as) :
    ∃ f : Term → α, (∀ t ∈ ts, R t (f t)) ∧ ts.map f = as := by
  classical
  have hf {t : Term} {a : α} (ht : R t a) : (if h : ∃ a, R t a then h.choose else default) = a := by
    have hex : ∃ a, R t a := ⟨a, ht⟩
    rw [dif_pos hex]
    exact hunique hex.choose_spec ht
  refine ⟨fun t => if h : ∃ a, R t a then h.choose else default, ?_⟩
  induction h with
  | nil => exact ⟨fun t ht => absurd ht List.not_mem_nil, rfl⟩
  | @cons t a _ _ ht _ ih =>
    refine ⟨fun u hu => ?_, by rw [List.map_cons, hf ht, ih.2]⟩
    rcases List.mem_cons.mp hu with rfl | hu
    · show R u (if h : ∃ a, R u a then h.choose else default)
      rwa [hf ht]
    · exact ih.1 u hu

theorem Values.single {vs : List Value} (h : m.Values s [t] vs) :
    ∃ v, vs = [v] ∧ ∃ ty, m.IsValue s t ty v := by
  cases h with
  | cons ht h =>
    cases h
    exact ⟨_, rfl, ht⟩

theorem Values.pair {vs : List Value} (h : m.Values s [a, b] vs) :
    ∃ u v, vs = [u, v] ∧ (∃ ty, m.IsValue s a ty u) ∧ ∃ ty, m.IsValue s b ty v := by
  cases h with
  | cons ha h =>
    cases h with
    | cons hb h =>
      cases h
      exact ⟨_, _, rfl, ha, hb⟩

theorem Values.exists_map {vs : List Value} (h : m.Values s ts vs) :
    ∃ f : Term → Value, (∀ t ∈ ts, ∃ ty, m.IsValue s t ty (f t)) ∧ ts.map f = vs :=
  exists_map_of_forall₂ (fun _ _ _ ⟨_, h⟩ ⟨_, h'⟩ => h.value.unique h'.value) h

/-- The values of formulas are truth values. -/
theorem Values.truths {vs : List Value} (h : m.Values s ts vs) (hs : s.Wf)
    (hts : ∀ t ∈ ts, s.Has t .bool) :
    ∃ (xs : List Bool) (f : Term → Bool), vs = xs.map .bool ∧ ts.map f = xs ∧ ∀ t ∈ ts,
    m.IsTruth s t (f t) := by
  obtain ⟨xs, rfl, htruths⟩ : ∃ xs : List Bool, vs = xs.map .bool ∧
      List.Forall₂ (m.IsTruth s) ts xs := by
    induction h with
    | nil => exact ⟨[], rfl, .nil⟩
    | cons hv _ ih =>
      obtain ⟨ty, hv⟩ := hv
      obtain rfl := hv.has.unique (hts _ (List.mem_cons_self ..))
      obtain ⟨x, rfl, hx⟩ := hv.truth hs
      obtain ⟨xs, rfl, hxs⟩ := ih fun t ht => hts t (List.mem_cons_of_mem _ ht)
      exact ⟨x :: xs, rfl, .cons hx hxs⟩
  obtain ⟨f, hf, hmap⟩ := exists_map_of_forall₂ (fun _ _ _ h h' => h.unique h') htruths
  exact ⟨xs, f, rfl, hmap, hf⟩

/-- The value of a bitvector is that of a bit vector. -/
theorem IsValue.bitVec (h : m.IsValue s t ty v) (hs : s.Wf) (hw : s.HasWidth t w) :
    ∃ x : BitVec w, v = .ofWord x ∧ m.IsWord s w t x.toNat := by
  obtain ⟨n, rfl, hword⟩ := h.word hw
  obtain ⟨_, -, hty⟩ := hw
  have hn : (BitVec.ofNat w n).toNat = n := by
    rw [← Bits.trunc_eq_toNat_ofNat (hs.ty_ok hty).2, Bits.trunc_eq_of_lt hword.lt]
  exact ⟨BitVec.ofNat w n, by rw [Value.ofWord, hn], hn.symm ▸ hword⟩

theorem Values.bitVecs {vs : List Value} (h : m.Values s ts vs) (hs : s.Wf)
    (hts : ∀ t ∈ ts, s.HasWidth t w) :
    ∃ (xs : List (BitVec w)) (f : Term → Nat), vs = xs.map .ofWord ∧
    ts.map f = xs.map BitVec.toNat ∧
      ∀ t ∈ ts, m.IsWord s w t (f t) := by
  obtain ⟨xs, rfl, hwords⟩ : ∃ xs : List (BitVec w), vs = xs.map .ofWord ∧
      List.Forall₂ (m.IsWord s w) ts (xs.map BitVec.toNat) := by
    induction h with
    | nil => exact ⟨[], rfl, .nil⟩
    | cons hv _ ih =>
      obtain ⟨ty, hv⟩ := hv
      obtain ⟨x, rfl, hx⟩ := hv.bitVec hs (hts _ (List.mem_cons_self ..))
      obtain ⟨xs, rfl, hxs⟩ := ih fun t ht => hts t (List.mem_cons_of_mem _ ht)
      exact ⟨x :: xs, rfl, .cons hx hxs⟩
  obtain ⟨f, hf, hmap⟩ := exists_map_of_forall₂ (fun _ _ _ h h' => h.unique h') hwords
  exact ⟨xs, f, rfl, hmap, hf⟩

theorem IsTruth.eval_eq {b : Bool} (h : m.IsTruth s t b) : m.eval s t = .ok (.bool b) :=
  eval_eq_ok_iff.mpr ⟨Store.isValid_iff.mpr ⟨_, h.has⟩, h.value⟩

theorem IsWord.eval_eq {n : Nat} (h : m.IsWord s w t n) : m.eval s t = .ok (.bv w n) := by
  obtain ⟨ty, hty, -⟩ := h.width
  exact eval_eq_ok_iff.mpr ⟨Store.isValid_iff.mpr ⟨ty, hty⟩, h.value⟩

theorem IsWord.width_le {n : Nat} (h : m.IsWord s w t n) (hs : s.Wf) :
    0 < w ∧ w ≤ Store.maxWidth := by
  obtain ⟨_, -, hty⟩ := h.width
  exact hs.ty_ok hty

/-! ## Constructors that check their arguments -/

theorem xor2_values (hs : s.Wf) (ha : m.IsValue s a tya u) (hb : m.IsValue s b tyb v) :
    Builds s (Store.xor2 a b) fun t s' => ∃ x y, u = .bool x ∧ v = .bool y ∧
    m.IsTruth s' t (x ^^ y) := by
  refine .of_checks hs fun _ hchk _ hchk' => ?_
  obtain rfl := ha.has.unique (Store.checkBool_eq_ok hchk)
  obtain rfl := hb.has.unique (Store.checkBool_eq_ok hchk')
  obtain ⟨x, rfl, hx⟩ := ha.truth hs
  obtain ⟨y, rfl, hy⟩ := hb.truth hs
  exact (xor2_isTruth hs hx hy).mono fun t s' _ ht => ⟨x, y, rfl, rfl, Bool.bne_eq_xor ▸ ht⟩

/-- Exclusive or of any number of terms. Each is checked when its turn comes. -/
theorem foldlM_xor2_values (hs : s.Wf) {vs : List Value} {x : Bool} (ht : m.IsTruth s t x)
    (hvs : m.Values s ts vs) :
    Builds s (ts.foldlM Store.xor2 t) fun t s' =>
      ∃ xs : List Bool, vs = xs.map .bool ∧ m.IsTruth s' t (xs.foldl Bool.xor x) := by
  induction ts generalizing s t x vs with
  | nil =>
    cases hvs
    exact .pure hs ⟨[], rfl, ht⟩
  | cons a ts ih =>
    cases hvs with
    | cons ha hvs =>
      obtain ⟨ty, ha⟩ := ha
      rw [List.foldlM_cons]
      refine .bind (xor2_values hs ⟨ht.has, ht.value, (Value.fits_bool hs).mpr ⟨x, rfl⟩⟩ ha)
        fun r s' hs' hr => ?_
      obtain ⟨x', y, heq, rfl, hr⟩ := hr
      cases heq
      refine (ih hs'.wf hr (Values.extends_ hvs hs hs'.ext)).mono fun r' s'' _ hr' => ?_
      obtain ⟨xs, rfl, hr'⟩ := hr'
      exact ⟨y :: xs, rfl, hr'⟩

theorem ite_values (hs : s.Wf) {c : Term} {x : Bool} (hc : m.IsTruth s c x)
    (ha : m.IsValue s a tya u) (hb : m.IsValue s b tyb v) :
    Builds s (Store.ite c a b) fun t s' => m.eval s' t = .ok (if x then u else v) := by
  have htyped : Builds s (Store.ite c a b) fun t s' => ∃ ty, s'.Has t ty :=
    (Store.ite_builds hs c a b).mono fun t s' _ ⟨ty, _, _, _, ht⟩ => ⟨ty, ht.has⟩
  exact (htyped.and (ite_evaluates hs hc.value ha hb)).mono fun t s' _ ht =>
    eval_eq_ok_iff.mpr ⟨Store.isValid_iff.mpr ht.1, ht.2⟩

theorem bvGe_values (hs : s.Wf) (ha : m.IsValue s a tya u) (hb : m.IsValue s b tyb v) :
    Builds s (Store.bvGe a b) fun t s' =>
      ∃ (w : Nat) (x y : BitVec w), u = .ofWord x ∧ v = .ofWord y ∧ m.IsTruth s' t (y.ule x) := by
  refine .of_check hs fun w hchk => ?_
  obtain ⟨hwa, hwb⟩ := Store.checkSameWidth_eq_ok hchk
  obtain ⟨x, rfl, hx⟩ := ha.bitVec hs hwa
  obtain ⟨y, rfl, hy⟩ := hb.bitVec hs hwb
  exact (bvGe_isTruth hs hx hy).mono fun t s' _ ht => ⟨w, x, y, rfl, rfl, ht⟩

theorem bvSge_values (hs : s.Wf) (ha : m.IsValue s a tya u) (hb : m.IsValue s b tyb v) :
    Builds s (Store.bvSge a b) fun t s' =>
      ∃ (w : Nat) (x y : BitVec w), u = .ofWord x ∧ v = .ofWord y ∧ m.IsTruth s' t (y.sle x) := by
  refine .of_check hs fun w hchk => ?_
  obtain ⟨hwa, hwb⟩ := Store.checkSameWidth_eq_ok hchk
  obtain ⟨x, rfl, hx⟩ := ha.bitVec hs hwa
  obtain ⟨y, rfl, hy⟩ := hb.bitVec hs hwb
  obtain ⟨hpos, hle⟩ := hx.width_le hs
  refine (bvSge_isTruth hs hx hy).mono fun t s' _ ht => ⟨w, x, y, rfl, rfl, ?_⟩
  rwa [Bits.signed_eq_toInt hpos hle, Bits.signed_eq_toInt hpos hle] at ht

/-- The comparisons come down to two, with the arguments exchanged or the outcome negated. -/
theorem compare_values (hs : s.Wf) (op : Comparison) (ha : m.IsValue s a tya u)
    (hb : m.IsValue s b tyb v) :
    Builds s (op.run a b) fun t s' =>
      ∃ (w : Nat) (x y : BitVec w), u = .ofWord x ∧ v = .ofWord y ∧
      m.IsTruth s' t (op.holds x y) := by
  cases op with
  | ge => exact bvGe_values hs ha hb
  | le =>
    refine (bvGe_values hs hb ha).mono fun t s' _ ht => ?_
    obtain ⟨w, y, x, rfl, rfl, ht⟩ := ht
    exact ⟨w, x, y, rfl, rfl, ht⟩
  | gt =>
    refine .bind (bvGe_values hs hb ha) fun t s' hs' ht => .pure hs'.wf ?_
    obtain ⟨w, y, x, rfl, rfl, ht⟩ := ht
    have hholds : Comparison.gt.holds x y = !x.ule y := by
      simp [Comparison.holds, BitVec.ule_eq_not_ult]
    exact ⟨w, x, y, rfl, rfl, hholds ▸ ht.neg⟩
  | lt =>
    refine .bind (bvGe_values hs ha hb) fun t s' hs' ht => .pure hs'.wf ?_
    obtain ⟨w, x, y, rfl, rfl, ht⟩ := ht
    have hholds : Comparison.lt.holds x y = !y.ule x := by
      simp [Comparison.holds, BitVec.ule_eq_not_ult]
    exact ⟨w, x, y, rfl, rfl, hholds ▸ ht.neg⟩
  | sge => exact bvSge_values hs ha hb
  | sle =>
    refine (bvSge_values hs hb ha).mono fun t s' _ ht => ?_
    obtain ⟨w, y, x, rfl, rfl, ht⟩ := ht
    exact ⟨w, x, y, rfl, rfl, ht⟩
  | sgt =>
    refine .bind (bvSge_values hs hb ha) fun t s' hs' ht => .pure hs'.wf ?_
    obtain ⟨w, y, x, rfl, rfl, ht⟩ := ht
    have hholds : Comparison.sgt.holds x y = !x.sle y := by
      simp [Comparison.holds, BitVec.sle_eq_not_slt]
    exact ⟨w, x, y, rfl, rfl, hholds ▸ ht.neg⟩
  | slt =>
    refine .bind (bvSge_values hs ha hb) fun t s' hs' ht => .pure hs'.wf ?_
    obtain ⟨w, x, y, rfl, rfl, ht⟩ := ht
    have hholds : Comparison.slt.holds x y = !y.sle x := by
      simp [Comparison.holds, BitVec.sle_eq_not_slt]
    exact ⟨w, x, y, rfl, rfl, hholds ▸ ht.neg⟩

/-! ## Every constructor -/

/-- What a constructor builds has the value of its operation. -/
theorem Construction.builds (hm : m.WellTyped s) (hs : s.Wf) (c : Construction) {vs : List Value}
    (hvs : m.Values s c.args vs) :
    Builds s c.run fun t s' => ∃ v, c.Standard vs v ∧ m.eval s' t = .ok v := by
  -- the check of each constructor says of which kind the values of the arguments are, and the
  -- operation on these is then the standard one
  cases c with
  | not t =>
    refine .of_check hs fun _ hchk => ?_
    obtain ⟨xs, f, rfl, rfl, hf⟩ :=
      hvs.truths hs (List.forall_mem_singleton.mpr (Store.checkBool_eq_ok hchk))
    exact (not_isTruth hs (hf t (List.mem_singleton_self t))).mono fun r s' _ hr =>
      ⟨_, .not t (f t), hr.eval_eq⟩
  | or ts =>
    refine .of_check hs fun _ hchk => ?_
    obtain ⟨xs, f, rfl, rfl, hf⟩ := hvs.truths hs fun t ht =>
      Store.checkBool_eq_ok (Store.forM_eq_ok hchk t ht)
    refine (or_isTruth hs hf).mono fun t s' _ ht => ⟨_, .or ts _, ?_⟩
    rw [List.any_map]
    exact ht.eval_eq
  | and ts =>
    refine .of_check hs fun _ hchk => ?_
    obtain ⟨xs, f, rfl, rfl, hf⟩ := hvs.truths hs fun t ht =>
      Store.checkBool_eq_ok (Store.forM_eq_ok hchk t ht)
    refine (and_isTruth hs hf).mono fun t s' _ ht => ⟨_, .and ts _, ?_⟩
    rw [List.all_map]
    exact ht.eval_eq
  | implies a b =>
    refine .of_checks hs fun _ hchk _ hchk' => ?_
    have hbool := Store.checkBool_eq_ok (Store.forM_eq_ok hchk' b (List.mem_pair.mpr (.inr rfl)))
    obtain ⟨u, v, rfl, ⟨tya, ha⟩, ⟨tyb, hb⟩⟩ := hvs.pair
    obtain rfl := ha.has.unique (Store.checkBool_eq_ok hchk)
    obtain rfl := hb.has.unique hbool
    obtain ⟨x, rfl, hx⟩ := ha.truth hs
    obtain ⟨y, rfl, hy⟩ := hb.truth hs
    exact (implies_isTruth hs hx hy).mono fun t s' _ ht => ⟨_, .implies a b x y, ht.eval_eq⟩
  | xor2 a b =>
    obtain ⟨u, v, rfl, ⟨tya, ha⟩, ⟨tyb, hb⟩⟩ := hvs.pair
    refine (xor2_values hs ha hb).mono fun t s' _ ht => ?_
    obtain ⟨x, y, rfl, rfl, ht⟩ := ht
    exact ⟨_, .xor2 a b x y, ht.eval_eq⟩
  | xor ts =>
    refine (foldlM_xor2_values hs (.bot hs) hvs).mono fun t s' _ ht => ?_
    obtain ⟨xs, rfl, ht⟩ := ht
    exact ⟨_, .xor ts xs, ht.eval_eq⟩
  | iff a b =>
    obtain ⟨u, v, rfl, ⟨tya, ha⟩, ⟨tyb, hb⟩⟩ := hvs.pair
    refine .bind (xor2_values hs ha hb) fun t s' hs' ht => .pure hs'.wf ?_
    obtain ⟨x, y, rfl, rfl, ht⟩ := ht
    have hiff : (!(x ^^ y)) = (x == y) := by cases x <;> cases y <;> rfl
    exact ⟨_, .iff a b x y, hiff ▸ ht.neg.eval_eq⟩
  | ite c a b =>
    cases hvs with
    | cons hc hvs =>
      obtain ⟨tyc, hc⟩ := hc
      obtain ⟨u, v, rfl, ⟨tya, ha⟩, ⟨tyb, hb⟩⟩ := Values.pair hvs
      refine .of_check hs fun _ hchk => ?_
      obtain rfl := hc.has.unique (Store.checkBool_eq_ok hchk)
      obtain ⟨x, rfl, hx⟩ := hc.truth hs
      exact (ite_values hs hx ha hb).mono fun t s' _ ht => ⟨_, .ite c a b x u v, ht⟩
  | eq a b =>
    obtain ⟨u, v, rfl, ⟨tya, ha⟩, ⟨tyb, hb⟩⟩ := hvs.pair
    refine (eq_isTruth hs ha hb).mono fun t s' _ ht => ⟨_, .eq a b u v, ?_⟩
    rw [← beq_eq_decide]
    exact ht.eval_eq
  | neq a b =>
    obtain ⟨u, v, rfl, ⟨tya, ha⟩, ⟨tyb, hb⟩⟩ := hvs.pair
    refine (neq_isTruth hs ha hb).mono fun t s' _ ht => ⟨_, .neq a b u v, ?_⟩
    rw [decide_not, ← beq_eq_decide]
    exact ht.eval_eq
  | distinct ts =>
    obtain ⟨f, hf, rfl⟩ := hvs.exists_map
    exact (distinct_isTruth hs hf).mono fun t s' _ ht => ⟨_, .distinct ts _, ht.eval_eq⟩
  | bvConst w n =>
    cases hvs
    refine (bvConst_isWord m hs w n).mono fun t s' hs' ht => ⟨_, .bvConst w n, ?_⟩
    rw [Value.ofWord, ← Bits.trunc_eq_toNat_ofNat (ht.1.width_le hs'.wf).2]
    exact ht.1.eval_eq
  | bvSum ts =>
    refine .of_check hs fun w hchk => ?_
    obtain ⟨hne, hwidths⟩ := Store.checkBvArgs_eq_ok hchk
    obtain ⟨xs, f, rfl, hmap, hf⟩ := hvs.bitVecs hs hwidths
    have hxs : xs ≠ [] := fun hnil => hne (List.map_eq_nil_iff.mp (hmap.trans (hnil ▸ rfl)))
    refine (bvSum_isWord hs hf fun a ha => (hf a ha).unfolds hm hs (.inl ⟨rfl, rfl⟩)).mono
      fun t s' hs' ht => ⟨_, .bvSum ts xs hxs, ?_⟩
    rw [Value.ofWord, ← Bits.trunc_fold_add (ht.width_le hs'.wf).2, ← hmap]
    exact ht.eval_eq
  | bvSub a b =>
    obtain ⟨u, v, rfl, ⟨tya, ha⟩, ⟨tyb, hb⟩⟩ := hvs.pair
    refine .of_check hs fun w hchk => ?_
    obtain ⟨hwa, hwb⟩ := Store.checkSameWidth_eq_ok hchk
    obtain ⟨x, rfl, hx⟩ := ha.bitVec hs hwa
    obtain ⟨y, rfl, hy⟩ := hb.bitVec hs hwb
    refine (bvSub_isWord hm hs hx hy).mono fun t s' hs' ht => ⟨_, .bvSub a b x y, ?_⟩
    rw [Value.ofWord, ← Bits.trunc_add_neg (ht.width_le hs'.wf).2]
    exact ht.eval_eq
  | bvNeg t =>
    obtain ⟨v, rfl, ty, ht⟩ := hvs.single
    refine .of_check hs fun w hchk => ?_
    obtain ⟨x, rfl, hx⟩ := ht.bitVec hs (Store.checkBv_eq_ok hchk)
    refine (bvNeg_isWord hm hs hx).mono fun r s' _ hr => ⟨_, .bvNeg t x, ?_⟩
    rw [Value.ofWord, ← Bits.neg_eq_toNat_neg (hx.width_le hs).2]
    exact hr.1.eval_eq
  | bvProduct ts =>
    refine .of_check hs fun w hchk => ?_
    obtain ⟨hne, hwidths⟩ := Store.checkBvArgs_eq_ok hchk
    obtain ⟨xs, f, rfl, hmap, hf⟩ := hvs.bitVecs hs hwidths
    have hxs : xs ≠ [] := fun hnil => hne (List.map_eq_nil_iff.mp (hmap.trans (hnil ▸ rfl)))
    refine (bvProduct_isWord hs hf fun a ha => (hf a ha).unfolds hm hs (.inr ⟨rfl, rfl⟩)).mono
      fun t s' hs' ht => ⟨_, .bvProduct ts xs hxs, ?_⟩
    rw [Value.ofWord, ← Bits.trunc_fold_mul (ht.width_le hs'.wf).2, ← hmap]
    exact ht.eval_eq
  | bvPower t degree =>
    obtain ⟨v, rfl, ty, ht⟩ := hvs.single
    refine .of_check hs fun w hchk => ?_
    obtain ⟨x, rfl, hx⟩ := ht.bitVec hs (Store.checkBv_eq_ok hchk)
    refine (bvPower_isWord hm hs hx degree).mono fun r s' _ hr => ⟨_, .bvPower t degree x, ?_⟩
    rw [Value.ofWord, ← Bits.trunc_pow (hx.width_le hs).2]
    exact hr.eval_eq
  | compare op a b =>
    obtain ⟨u, v, rfl, ⟨tya, ha⟩, ⟨tyb, hb⟩⟩ := hvs.pair
    refine (compare_values hs op ha hb).mono fun t s' _ ht => ?_
    obtain ⟨w, x, y, rfl, rfl, ht⟩ := ht
    exact ⟨_, .compare op a b x y, ht.eval_eq⟩
  | bit t i =>
    obtain ⟨v, rfl, ty, ht⟩ := hvs.single
    refine .of_check hs fun w hchk => ?_
    obtain ⟨x, rfl, hx⟩ := ht.bitVec hs (Store.checkBv_eq_ok hchk)
    refine (bit_isTruth hs hx i).mono fun r s' _ hr => ⟨_, .bit t x hr.1, ?_⟩
    rw [BitVec.getElem_eq_testBit_toNat]
    exact hr.2.eval_eq

/-- Simplifying constructors preserve meaning: in every store that is reached and every well-typed
model, what is built from terms that evaluate evaluates to the standard value of the operation on
their values. -/
theorem eval_construction (hs : Store.Reached s) (hm : m.WellTyped s) {c : Construction}
    (hrun : c.run s = .ok t s')
    {vs : List Value} (hvs : List.Forall₂ (fun a v => m.eval s a = .ok v) c.args vs) :
    ∃ v, c.Standard vs v ∧ m.eval s' t = .ok v := by
  have hwf := hs.intact.wf
  have hvalues : m.Values s c.args vs := hvs.imp fun a v ha => by
    obtain ⟨hvalid, heval⟩ := eval_eq_ok_iff.mp ha
    obtain ⟨ty, hty⟩ := Store.isValid_iff.mp hvalid
    exact ⟨ty, heval.isValue hm hwf hty⟩
  have hbuilt := Construction.builds hm hwf c hvalues
  unfold Builds Ends at hbuilt
  rw [hrun] at hbuilt
  exact hbuilt.2

/-- A store with one bitvector of 8 bits. -/
def oneWord : Store := endState (Store.newConst ⟨1⟩ (endState (Store.bvType 8 .empty)))

theorem reached_oneWord : Store.Reached oneWord :=
  (Store.Reached.empty.build (.bvType 8)).build (.newConst ⟨1⟩)

/-- Whether an operation was not refused. -/
def ran {ε σ α : Type} : EStateM.Result ε σ α → Bool
  | .ok .. => true
  | .error .. => false

/-- Twice 200, modulo 256. -/
theorem eval_construction_oneWord :
    Store.Reached oneWord ∧ (Model.empty.setValue (.ofIndex 2) (.bv 8 200)).WellTyped oneWord ∧
      ∃ t s', (Construction.bvSum [.ofIndex 2, .ofIndex 2]).run oneWord = .ok t s' ∧
        ∃ v, (Construction.bvSum [.ofIndex 2, .ofIndex 2]).Standard [.bv 8 200, .bv 8 200] v ∧
          (Model.empty.setValue (.ofIndex 2) (.bv 8 200)).eval s' t = .ok v := by
  have hx : oneWord.node? (.ofIndex 2) = some (.uninterpreted ⟨1⟩ 0, ⟨1⟩) := by cbv
  have hwidth : oneWord.tyShape? ⟨1⟩ = some (.bitVector 8) := by cbv
  have heval : (Model.empty.setValue (.ofIndex 2) (.bv 8 200)).eval oneWord (.ofIndex 2) = .ok
    (.bv 8 200) := by cbv
  have hsucceeds : ran ((Construction.bvSum [.ofIndex 2, .ofIndex 2]).run oneWord) = true := by cbv
  have hxty : oneWord.Has (.ofIndex 2) ⟨1⟩ := ⟨⟨_, hx⟩, by simp⟩
  have hm : (Model.empty.setValue (.ofIndex 2) (.bv 8 200)).WellTyped oneWord :=
    ((TablesFit.empty _).setValue hxty
      ((Value.fits_word hwidth).mpr ⟨200, rfl, by decide⟩)).wellTyped
      reached_oneWord.intact.wf
  cases hrun : (Construction.bvSum [.ofIndex 2, .ofIndex 2]).run oneWord with
  | error e s' =>
    rw [hrun] at hsucceeds
    cases hsucceeds
  | ok t s' =>
    exact ⟨reached_oneWord, hm, t, s', rfl, eval_construction reached_oneWord hm hrun
      (.cons heval (.cons heval .nil))⟩

end Model
end Entail
