import Entail.Proofs.Store.Subterms
import Entail.Proofs.Store.Words
import Entail.Proofs.Structures
import Mathlib.Data.Nat.Bitwise
import Mathlib.Tactic.Ring

/-!
# Atoms

An encoding into clauses leaves some formulas open: boolean constants and applications, the bits of
constants that are words, and equalities between elements of sorts. Truth values for these give
every term a value. Nothing ties the equalities to each other, as the clauses alone do not either;
the element that a term of a sort stands for is the term itself, or what the conditions of an
if-then-else leave of it.
-/

/-!
## Numbers as lists of bits

A word is encoded by the list of its bits, the least significant one first. The circuits for sums,
products, negations and comparisons go through such lists bit by bit; this file says what they
compute in numbers.
-/

namespace Entail.Bits

variable {b : Bool} {bs cs : List Bool} {n w : Nat}

theorem ofBits_cons (b : Bool) (bs : List Bool) : ofBits (b :: bs) = b.toNat + 2 * ofBits bs := rfl

/-- A list of bits is a number of that many bits. -/
theorem ofBits_lt (bs : List Bool) : ofBits bs < 2 ^ bs.length := by
  induction bs with
  | nil => simp [ofBits]
  | cons b bs ih =>
    have hb : b.toNat ≤ 1 := Bool.toNat_le b
    rw [List.length_cons, Nat.pow_succ, ofBits_cons]
    omega

/-- The bits of a number that was put together from bits. -/
theorem testBit_ofBits (bs : List Bool) (i : Nat) : (ofBits bs).testBit i = bs.getD i false := by
  induction bs generalizing i with
  | nil => simp [ofBits]
  | cons b bs ih =>
    have hcons : ofBits (b :: bs) = Nat.bit b (ofBits bs) := by
      rw [Nat.bit_val, Nat.add_comm]
      rfl
    rw [hcons]
    cases i with
    | zero => exact Nat.testBit_bit_zero _ _
    | succ i => exact (Nat.testBit_bit_succ _ _ _).trans (ih i)

/-- Lists of one length are told apart by their numbers. -/
theorem ofBits_inj (hlen : bs.length = cs.length) : ofBits bs = ofBits cs ↔ bs = cs := by
  refine ⟨fun h => List.ext_getElem hlen fun i hi hi' => ?_, fun h => h ▸ rfl⟩
  have hbit := congrArg (·.testBit i) h
  simpa [testBit_ofBits, hi, hi'] using hbit

theorem ofBits_append (bs cs : List Bool) :
    ofBits (bs ++ cs) = ofBits bs + 2 ^ bs.length * ofBits cs := by
  induction bs with
  | nil => simp [ofBits]
  | cons b bs ih =>
    rw [List.cons_append, ofBits_cons, ofBits_cons, ih, List.length_cons, Nat.pow_succ]
    ring

theorem ofBits_replicate_false (n : Nat) : ofBits (List.replicate n false) = 0 := by
  induction n with
  | zero => rfl
  | succ n ih => rw [List.replicate_succ, ofBits_cons, ih]; rfl

/-- The low bits of a number. -/
theorem ofBits_take (bs : List Bool) (n : Nat) : ofBits (bs.take n) = ofBits bs % 2 ^ n := by
  refine Nat.eq_of_testBit_eq fun i => ?_
  rw [Nat.testBit_mod_two_pow, testBit_ofBits, testBit_ofBits, List.getD_eq_getElem?_getD,
    List.getElem?_take,
    List.getD_eq_getElem?_getD]
  by_cases hi : i < n <;> simp [hi]

/-- A number and the one with all bits flipped sum up to all ones. -/
theorem ofBits_map_not (bs : List Bool) : ofBits (bs.map (!·)) + ofBits bs + 1 = 2 ^ bs.length := by
  induction bs with
  | nil => rfl
  | cons b bs ih =>
    rw [List.map_cons, ofBits_cons, ofBits_cons, List.length_cons, Nat.pow_succ, ← ih]
    cases b <;> simp <;> omega

/-- A row of a product. -/
theorem ofBits_map_and (bs : List Bool) (b : Bool) :
    ofBits (bs.map (· && b)) = b.toNat * ofBits bs := by
  induction bs with
  | nil => simp [ofBits]
  | cons c bs ih =>
    rw [List.map_cons, ofBits_cons, ih, ofBits_cons]
    cases b <;> cases c <;> simp

/-- The bits of a number put it together. -/
theorem ofBits_testBits (hn : n < 2 ^ w) : ofBits ((List.range w).map n.testBit) = n := by
  refine Nat.eq_of_testBit_eq fun i => ?_
  rw [testBit_ofBits]
  by_cases hi : i < w
  · simp [hi]
  · have hlarge : n.testBit i = false :=
      Nat.testBit_lt_two_pow (Nat.lt_of_lt_of_le hn (Nat.pow_le_pow_right (by omega) (by omega)))
    simp [hi, hlarge]

theorem ofBits_bits (hw : w ≤ Store.maxWidth) (hn : n < 2 ^ w) : ofBits (bits w n) = n := by
  unfold Store.maxWidth at hw
  have hbits : bits w n = (List.range w).map n.testBit := by
    refine List.map_congr_left fun i hi => ?_
    have hlt := List.mem_range.mp hi
    rw [Nat.mod_eq_of_lt (by omega)]
  rw [hbits, ofBits_testBits hn]

/-! ## Circuits -/

/-- Two bits and a carry sum up to a bit and a carry. -/
theorem toNat_fullAdder (x y c : Bool) :
    ((x != y) != c).toNat + 2 * (Bool.atLeastTwo x y c).toNat = x.toNat + y.toNat + c.toNat := by
  cases x <;> cases y <;> cases c <;> rfl

/-- One place of a sum whose last carry is dropped. -/
theorem sum_step (x y c : Bool) (m k n : Nat) :
    ((x != y) != c).toNat + 2 * ((m + k + (Bool.atLeastTwo x y c).toNat) % 2 ^ n) =
      (x.toNat + 2 * m + (y.toNat + 2 * k) + c.toNat) % 2 ^ (n + 1) := by
  have hsum := toNat_fullAdder x y c
  have hbit : ((x != y) != c).toNat ≤ 1 := Bool.toNat_le _
  have hrest : x.toNat + 2 * m + (y.toNat + 2 * k) + c.toNat =
      ((x != y) != c).toNat + 2 * (m + k + (Bool.atLeastTwo x y c).toNat) := by omega
  rw [hrest]
  generalize m + k + (Bool.atLeastTwo x y c).toNat = r
  have hlt : r % 2 ^ n < 2 ^ n := Nat.mod_lt _ (Nat.two_pow_pos n)
  have hpos : 0 < 2 ^ n := Nat.two_pow_pos n
  have hsmall : ((x != y) != c).toNat % (2 * 2 ^ n) = ((x != y) != c).toNat :=
    Nat.mod_eq_of_lt (by omega)
  rw [Nat.pow_succ, Nat.mul_comm (2 ^ n) 2, Nat.add_mod, Nat.mul_mod_mul_left, hsmall]
  exact (Nat.mod_eq_of_lt (by omega)).symm

/-- One place of a comparison: the carry out of a difference. -/
theorem carry_step (x y c : Bool) (m k : Nat) :
    k < m + (Bool.atLeastTwo x (!y) c).toNat ↔ y.toNat + 2 * k < x.toNat + 2 * m + c.toNat := by
  cases x <;> cases y <;> cases c <;> simp <;> omega

/-- One row of a product, shifted to its place and cut to the width. -/
theorem row_shifted (a : Nat) (b : Bool) {shift n : Nat} (h : shift ≤ n) :
    2 ^ shift * (b.toNat * (a % 2 ^ (n - shift))) = (2 ^ shift * (b.toNat * a)) % 2 ^ n := by
  have hsplit : 2 ^ n = 2 ^ shift * 2 ^ (n - shift) := by rw [← Nat.pow_add, Nat.add_sub_cancel' h]
  rw [hsplit, Nat.mul_mod_mul_left]
  cases b <;> simp

/-- One step of a product that is summed up row by row. -/
theorem product_step (acc a m n shift : Nat) (b : Bool) :
    ((acc + 2 ^ shift * (b.toNat * a)) % 2 ^ n + a * 2 ^ (shift + 1) * m) % 2 ^ n =
      (acc + a * 2 ^ shift * (b.toNat + 2 * m)) % 2 ^ n := by
  rw [Nat.mod_add_mod, Nat.pow_succ]
  congr 1
  ring

/-! ## Signed words -/

/-- The number of a word whose sign bit is flipped. -/
def flipped (w n : Nat) : Nat := if n < 2 ^ (w - 1) then n + 2 ^ (w - 1) else n - 2 ^ (w - 1)

theorem ofBits_flip (hne : bs ≠ []) :
    ofBits (bs.modify (bs.length - 1) (!·)) = flipped bs.length (ofBits bs) := by
  obtain ⟨init, last, rfl⟩ : ∃ init last, bs = init ++ [last] :=
    ⟨bs.dropLast, bs.getLast hne, (List.dropLast_append_getLast hne).symm⟩
  have hlt := ofBits_lt init
  have hmodify : (init ++ [last]).modify ((init ++ [last]).length - 1) (!·) = init ++ [!last] := by
    rw [List.length_append, List.length_singleton, Nat.add_sub_cancel]
    induction init with
    | nil => rfl
    | cons b init ih => simpa [List.modify_succ_cons] using ih (by simp) (ofBits_lt init)
  have hsingle (b : Bool) : ofBits [b] = b.toNat := rfl
  rw [hmodify, ofBits_append, ofBits_append, hsingle, hsingle, List.length_append,
    List.length_singleton]
  unfold flipped
  rw [Nat.add_sub_cancel]
  cases last with
  | false => simp [hlt]
  | true => simp

/-- Flipping the sign bits makes the signed order the unsigned one. -/
theorem signed_le_iff (hpos : 0 < w) (hw : w ≤ Store.maxWidth) {m n : Nat} (hm : m < 2 ^ w)
    (hn : n < 2 ^ w) :
    signed w m ≤ signed w n ↔ flipped w m ≤ flipped w n := by
  have hmod : modulus w = 2 ^ w := Store.modulus_eq hw
  have hhalf : modulus w = 2 * 2 ^ (w - 1) := Store.modulus_eq_two_mul hpos hw
  unfold signed flipped
  rw [Store.span_eq hpos hw]
  simp only
  rw [trunc_eq_of_lt (hmod ▸ hm), trunc_eq_of_lt (hmod ▸ hn)]
  split <;> split <;> split <;> split <;> omega

end Entail.Bits

namespace Entail

namespace Store

variable {s s' : Store} {t : Term} {shape : Term.Shape} {ty : Ty}

/-- The type of a term that stays is the same and has the same shape. -/
theorem Stays.same_ty (hs : s.Stays s' t) (hn : s.node? t = some (shape, ty)) :
    s'.ty t = s.ty t ∧ s'.tyShape? (s.ty t) = s.tyShape? (s.ty t) := by
  obtain ⟨tyShape, hshape, hshape'⟩ := hs.ty .refl hn .refl
  simp [Store.ty, hn, hs.node_eq hn, hshape, hshape']

/-- Parts that stay are as wide as before. -/
theorem partWidth_of_stays (h : s.Wf) (h' : s'.Wf) (ht : s.Typed shape ty)
    (hparts : ∀ {c}, c ∈ shape.children → s.Stays s' c) :
    s'.partWidth shape = s.partWidth shape := by
  unfold partWidth Interp.width width? tyWidth?
  cases hch : shape.children with
  | nil =>
    have htop (r : Store) (hr : r.Wf) : r.ty .top = .bool := by simp [Store.ty, hr.truth]
    simp [htop s h, htop s' h', h.bool_ty, h'.bool_ty]
  | cons c rest =>
    have hc : c ∈ shape.children := hch ▸ List.mem_cons_self
    obtain ⟨tc, ⟨shapec, hnc⟩, -⟩ := ht.live hc
    obtain ⟨h₁, h₂⟩ := (hparts hc).same_ty hnc
    rw [List.headD_cons, h₁, h₂]

end Store

/-- Truth values of atoms. -/
structure Atoms where
  /-- Whether a boolean constant or application is true. -/
  holds : Term → Bool
  /-- A bit of a constant that is a word. -/
  bit : Term → Nat → Bool
  /-- Whether two terms of a sort are equal. -/
  same : Term → Term → Bool
  same_self : ∀ t, same t t = true
  same_comm : ∀ t u, same t u = same u t

namespace Atoms

/-- Terms of a sort are their own elements. -/
abbrev Element : Ty → Type := fun _ => Term

/-- Value of a positive term that nothing is known of but its atoms. -/
def leaf (A : Atoms) (s : Store) (p : Term) : Val Element :=
  match s.tyShape? (s.ty p) with
  | some .bool => .bool (A.holds p)
  | some (.bitVector w) => .word (Bits.ofBits ((List.range w).map (A.bit p)))
  | _ => .elem (s.ty p) p

/-- Whether two values are equal; between elements that is left to the atoms. -/
def equal (A : Atoms) : Val Element → Val Element → Bool
  | .bool x, .bool y => x == y
  | .word m, .word n => m == n
  | .elem _ t, .elem _ u => A.same t u
  | _, _ => false

/-- Value of the positive term `p` with a given shape, where `value` gives the values of its
parts. -/
noncomputable def node (A : Atoms) (s : Store) (value : Term → Val Element) (p : Term)
    (shape : Term.Shape) :
    Val Element :=
  match shape with
  | .uninterpreted .. | .var .. | .app .. | .all .. => A.leaf s p
  | .eq a b => .bool (A.equal (value a) (value b))
  | shape => shape.combine (s.partWidth shape) (shape.children.map value)

/-- Value of a term that is nested less than `depth` deep. -/
noncomputable def valueAt (A : Atoms) (s : Store) : (depth : Nat) → Term → Val Element
  | 0, _ => .bool false
  | depth + 1, t => (A.node s (A.valueAt s depth) t.positive (s.shape t)).negIf t.isNegated

/-- Value of a term. -/
noncomputable def value (A : Atoms) (s : Store) (t : Term) : Val Element :=
  A.valueAt s (s.terms.slots.size + 1) t

variable {A : Atoms} {s s' : Store} {t p : Term} {shape : Term.Shape} {ty : Ty}

theorem node_congr {f g : Term → Val Element} (p : Term) (h : ∀ c ∈ shape.children, f c = g c) :
    A.node s f p shape = A.node s g p shape := by
  have hmap : shape.children.map f = shape.children.map g := List.map_congr_left h
  cases shape with
  | uninterpreted | var | app | all => rfl
  | eq a b =>
    simp only [node, h a (by simp [Term.Shape.children]), h b (by simp [Term.Shape.children])]
  | _ => simp only [node, hmap]

/-- The value of a term from the values of its parts. -/
theorem value_eq (h : s.Wf) (hn : s.node? t = some (shape, ty)) :
    A.value s t = (A.node s (A.value s) t.positive shape).negIf t.isNegated := by
  have hparts : s.FromParts fun f (u : Unit) t =>
      (A.node s (f u) t.positive (s.shape t)).negIf t.isNegated := by
    intro t shape ty f g hn hfg u
    simp only [Interp.node?_of_shape hn]
    exact congrArg _ (node_congr _ fun c hc => hfg c hc u)
  have hvalue := hparts.level_eq h (fun d _ t => A.valueAt s d t) (fun _ _ _ => rfl) hn ()
  rwa [Interp.node?_of_shape hn] at hvalue

/-- The value of a positive term. -/
theorem value_of_node (h : s.Wf) (hn : s.node? p = some (shape, ty)) (hp : p.isNegated = false) :
    A.value s p = A.node s (A.value s) p shape := by
  rw [value_eq h hn, hp, Term.positive_of_not_isNegated hp]
  rfl

theorem value_neg (h : s.Wf) (ht : s.Has t ty) : A.value s t.neg = (A.value s t).not := by
  obtain ⟨⟨shape, hn⟩, -⟩ := ht
  have hn' : s.node? t.neg = some (shape, ty) := by rwa [Store.node?, Term.index_neg]
  rw [value_eq h hn, value_eq h hn', Term.positive_neg, Term.isNegated_neg]
  cases t.isNegated <;> simp [Val.negIf]

/-! ## Types of values -/

theorem leaf_inhabits (h : s.Wf) (hn : s.node? p = some (shape, ty)) :
    (A.leaf s p).Inhabits s ty := by
  obtain ⟨tyShape, hty⟩ := h.live_ty hn
  have hp : s.ty p = ty := by simp [Store.ty, hn]
  unfold leaf Val.Inhabits
  rw [hp, hty]
  cases tyShape with
  | bool => exact ⟨_, rfl⟩
  | bitVector w =>
    refine ⟨_, rfl, ?_⟩
    rw [Store.modulus_eq (h.ty_ok hty).2]
    simpa using Bits.ofBits_lt ((List.range w).map (A.bit p))
  | uninterpreted | function => exact ⟨p, rfl⟩

/-- The value of a term is of its type. -/
theorem value_inhabits (h : s.Wf) (ht : s.Has t ty) : (A.value s t).Inhabits s ty := by
  refine h.induct (P := fun t => ∀ ty, s.Has t ty → (A.value s t).Inhabits s ty)
    (fun {t shape ty} ht hn ih ty' ht' => ?_) ht ty ht
  obtain rfl := ht.unique ht'
  have htyped := h.typed hn
  have hnode : (A.node s (A.value s) t.positive shape).Inhabits s ty := by
    cases shape with
    | uninterpreted | var | app | all =>
      exact leaf_inhabits h (by rwa [Store.node?, Term.index_positive])
    | eq a b => exact htyped.1 ▸ (Val.inhabits_bool h).mpr ⟨_, rfl⟩
    | _ => exact Term.Shape.combine_inhabits h htyped rfl ih
  rw [value_eq h hn]
  cases hneg : t.isNegated with
  | false => exact hnode
  | true =>
    obtain rfl := ht.2 hneg
    obtain ⟨b, hb⟩ := (Val.inhabits_bool h).mp hnode
    exact (Val.inhabits_bool h).mpr ⟨!b, by rw [hb]; rfl⟩

theorem value_bool (h : s.Wf) (ht : s.Has t .bool) : A.value s t = .bool (A.value s t).toBool := by
  obtain ⟨b, hb⟩ := (Val.inhabits_bool h).mp (A.value_inhabits h ht)
  rw [hb]
  rfl

theorem value_word (h : s.Wf) {w : Nat} (ht : s.HasWidth t w) :
    A.value s t = .word (A.value s t).toNat ∧ (A.value s t).toNat < 2 ^ w := by
  obtain ⟨ty, ht, hty⟩ := ht
  obtain ⟨n, hn, hlt⟩ := (Val.inhabits_word hty).mp (A.value_inhabits h ht)
  rw [Store.modulus_eq (h.ty_ok hty).2] at hlt
  rw [hn]
  exact ⟨rfl, hlt⟩

theorem toBool_neg (h : s.Wf) (ht : s.Has t .bool) :
    (A.value s t.neg).toBool = !(A.value s t).toBool := by
  rw [value_neg h ht, value_bool h ht]
  rfl

/-! ## Other stores -/

/-- The value of a term is the same in every store where all that it is made of is the same. -/
theorem value_of_stays (h : s.Wf) (h' : s'.Wf) (hs : s.Stays s' t) (ht : s.Has t ty) :
    A.value s' t = A.value s t := by
  refine h.induct (P := fun t => s.Stays s' t → A.value s' t = A.value s t)
    (fun {t shape ty} ht hn ih hs => ?_) ht hs
  have htyped := h.typed hn
  have hpart {c : Term} (hc : c ∈ shape.children) : s.Stays s' c :=
    hs.part (Store.Below.child .refl hn hc) (Store.isValid_iff.mpr (htyped.live hc))
  have hleaf : A.leaf s' t.positive = A.leaf s t.positive := by
    have hpos (r : Store) : r.ty t.positive = r.ty t := by
      simp [Store.ty, Store.node?, Term.index_positive]
    obtain ⟨h₁, h₂⟩ := hs.same_ty hn
    unfold leaf
    rw [hpos, hpos, h₁, h₂]
  have hwidth : s'.partWidth shape = s.partWidth shape := Store.partWidth_of_stays h h' htyped hpart
  have hnode : A.node s' (A.value s') t.positive shape = A.node s (A.value s) t.positive shape := by
    rw [node_congr _ fun c hc => ih c hc (hpart hc)]
    cases shape with
    | uninterpreted | var | app | all => exact hleaf
    | eq => rfl
    | _ => simp only [node, hwidth]
  rw [value_eq h hn, value_eq h' (hs.node_eq hn), hnode]

theorem value_of_extends (h : s.Wf) (h' : s'.Wf) (e : s.Extends s') (ht : s.Has t ty) :
    A.value s' t = A.value s t :=
  value_of_stays h h' (e.stays h (Store.isValid_iff.mpr ⟨ty, ht⟩)) ht

/-- Another truth value for one term. -/
def set (A : Atoms) (p : Term) (b : Bool) : Atoms :=
  { A with holds := fun q => if q = p then b else A.holds q }

/-- What is said of a term that a store does not have is nothing to its terms. -/
theorem value_set (h : s.Wf) (hp : s.node? p = none) (b : Bool) (ht : s.Has t ty) :
    (A.set p b).value s t = A.value s t := by
  refine h.induct (P := fun t => (A.set p b).value s t = A.value s t)
    (fun {t shape ty} ht hn ih => ?_) ht
  have hne : t.positive ≠ p := by
    rintro rfl
    rw [Store.node?, Term.index_positive] at hp
    rw [Store.node?, hp] at hn
    cases hn
  have hleaf : (A.set p b).leaf s t.positive = A.leaf s t.positive := by
    unfold leaf set
    simp only [if_neg hne]
  have hnode : (A.set p b).node s ((A.set p b).value s) t.positive shape = A.node s
      (A.value s) t.positive shape := by
    rw [node_congr _ ih]
    cases shape with
    | uninterpreted | var | app | all => exact hleaf
    | eq => rfl
    | _ => rfl
  rw [value_eq h hn, value_eq h hn, hnode]

/-! ## Atoms of a store -/

/-- What is given for a term, if it is an atom: a constant or an application, a bit of a constant,
or an equality of a sort without an if-then-else on either side. -/
def atom? (A : Atoms) (s : Store) (p : Term) : Option Bool :=
  match s.shape p with
  | .uninterpreted .. | .app .. => some (A.holds p)
  | .bit x i => if (s.shape x).isUninterpreted then some (A.bit x i) else none
  | .eq a b => if s.isSort (s.ty a) && !(s.shape a).isIte && !(s.shape b).isIte then some
    (A.same a b) else none
  | _ => none

/-- A term of a sort that is no if-then-else is its own element. -/
theorem value_of_isSort (h : s.Wf) (ht : s.Has t ty)
    (hsort : s.isSort ty = true) (hite : (s.shape t).isIte = false) :
    A.value s t = .elem ty t := by
  have hneg : t.isNegated = false := ht.not_isNegated fun hbool => by
    rw [hbool, Store.isSort, h.bool_ty] at hsort
    cases hsort
  unfold Store.isSort at hsort
  split at hsort
  next n hty =>
    have hleaf : A.leaf s t = .elem ty t := by
      unfold leaf
      rw [ht.ty_eq, hty]
    have htyped := h.typed ht.node
    rw [value_of_node h ht.node hneg]
    cases hshape : s.shape t with
    | uninterpreted | var | app | all => exact hleaf
    | ite => rw [hshape] at hite; cases hite
    | truth => rw [hshape] at htyped; rw [htyped, h.bool_ty] at hty; cases hty
    | bvConst => rw [hshape] at htyped; rw [htyped.1] at hty; cases hty
    | eq | or | xor | bit | bvGe | bvSge =>
      rw [hshape] at htyped; rw [htyped.1, h.bool_ty] at hty; cases hty
    | bvNeg => rw [hshape] at htyped; obtain ⟨-, w, hw⟩ := htyped; rw [hw] at hty; cases hty
    | bvSum | bvProduct =>
      rw [hshape] at htyped; obtain ⟨-, -, w, hw⟩ := htyped; rw [hw] at hty; cases hty
  next => cases hsort

/-- A constant that is a word is put together from its bits. -/
theorem value_of_uninterpreted (h : s.Wf) {w : Nat} (ht : s.HasWidth t w)
    (hshape : (s.shape t).isUninterpreted = true) :
    A.value s t = .word (Bits.ofBits ((List.range w).map (A.bit t))) := by
  have hneg := Store.HasWidth.not_isNegated h ht
  obtain ⟨ty, ht, hty⟩ := ht
  rw [value_of_node h ht.node hneg]
  cases hs : s.shape t with
  | uninterpreted =>
    show A.leaf s t = _
    unfold leaf
    rw [ht.ty_eq, hty]
  | _ => rw [hs] at hshape; cases hshape

/-- The value of an atom is what is given for it. -/
theorem value_of_atom? (h : s.Wf) (hp : s.Has p .bool) (hneg : p.isNegated = false) {b : Bool}
    (hb : A.atom? s p = some b) : A.value s p = .bool b := by
  have hn := hp.node
  have htyped := h.typed hn
  rw [value_of_node h hn hneg]
  unfold atom? at hb
  have hleaf : A.leaf s p = .bool (A.holds p) := by
    unfold leaf
    rw [hp.ty_eq, h.bool_ty]
  split at hb
  next hs => cases hb; rw [hs]; exact hleaf
  next hs => cases hb; rw [hs]; exact hleaf
  next x i hs =>
    rw [hs] at htyped ⊢
    obtain ⟨-, w, hx, hi⟩ := htyped
    split at hb
    next hconst =>
      cases hb
      simp only [node, Term.Shape.combine, Term.Shape.children, List.map_cons, List.map_nil,
        value_of_uninterpreted h hx hconst, Val.toNat, Bits.testBit_ofBits]
      simp [hi]
    next => cases hb
  next a b' hs =>
    rw [hs] at htyped ⊢
    obtain ⟨-, ty, -, ha, hb'⟩ := htyped
    split at hb
    next hcond =>
      cases hb
      simp only [Bool.and_eq_true, Bool.not_eq_true', ha.ty_eq] at hcond
      simp only [node, value_of_isSort h ha hcond.1.1 hcond.1.2,
        value_of_isSort h hb' hcond.1.1 hcond.2, equal]
    next => cases hb
  next => cases hb

end Atoms
end Entail
