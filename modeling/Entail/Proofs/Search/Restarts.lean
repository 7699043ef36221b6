import Entail.Proofs.Search.Clauses
import Mathlib.Tactic

/-!
# Restarts

A restart is due when there were as many conflicts since the last one as a threshold, a
floating-point number that every restart multiplies by a factor. With valid parameters both are at
least one, and so is the product after rounding: the number is infinite, or its mantissa has all its
bits and its exponent is large enough. So after a restart the next one needs a conflict.
-/

namespace Entail

open Float.Model Float.Model.UnpackedFloat

/-- A number that is at least one, taken apart: it is infinite, or its mantissa has all its bits. -/
inductive Large : UnpackedFloat → Prop where
  | infinity : Large (.infinity .positive)
  | finite {m : Nat} {e : Int} {h : 0 < m} (hlow : 2 ^ 52 ≤ m) (hhigh : m < 2 ^ 53) (he : -52 ≤ e) :
    Large (.finite .positive m e h)

namespace Large

theorem mantissa_shiftRight (em : ExtendedMantissa) (n : Nat) :
    (em >>> n).mantissa = em.mantissa / 2 ^ n := by
  show (Nat.repeat ExtendedMantissa.shiftRightOne n em).mantissa = _
  induction n with
  | zero => simp [Nat.repeat]
  | succ n ih =>
    show (Nat.repeat ExtendedMantissa.shiftRightOne n em).mantissa / 2 = _
    rw [ih, Nat.div_div_eq_div_mul, Nat.pow_succ]

/-- Rounding to the nearest never goes below the mantissa that is cut off. -/
theorem le_roundedMantissa (em : ExtendedMantissa) : em.mantissa ≤ em.roundedMantissa := by
  obtain ⟨m, round, sticky⟩ := em
  unfold ExtendedMantissa.roundedMantissa
  cases round <;> cases sticky <;> simp [ExtendedMantissa.accuracy, Accuracy.roundToNearestEven]

/-- Shifting a number of at least one leaves the first 53 bits of its mantissa. -/
theorem shiftToTargetExponent {m : Nat} {e : Int} (hlow : 2 ^ 52 ≤ m) (he : 0 ≤ (m.log2 : Int) + e)
    (accuracy : Accuracy) :
    let x := UnpackedFloat.shiftToTargetExponent Format.binary64 m e accuracy
    2 ^ 52 ≤ x.1.mantissa ∧ x.1.mantissa < 2 ^ 53 ∧ x.2 = m.log2 + e - 52 := by
  have hbits : 52 ≤ m.log2 := (Nat.le_log2 (by omega)).mpr hlow
  have htarget : Format.binary64.targetExponent (totalExponent m e) = m.log2 + e - 52 := by
    unfold Format.targetExponent totalExponent Format.minExponent Format.mantissaBits
    norm_num
    omega
  have hmantissa : (ExtendedMantissa.ofMantissaAndAccuracy m accuracy).mantissa = m := by
    unfold ExtendedMantissa.ofMantissaAndAccuracy
    split <;> rfl
  intro x
  have hx : x = (ExtendedMantissa.ofMantissaAndAccuracy m accuracy >>> (m.log2 - 52),
      e + (m.log2 - 52 : Nat)) := by
    have hshift : ((m.log2 : Int) + e - 52 - e).toNat = m.log2 - 52 := by omega
    show shiftToExponent m e accuracy _ = _
    rw [htarget, shiftToExponent, hshift]
  rw [hx, mantissa_shiftRight, hmantissa]
  refine ⟨?_, ?_, by omega⟩
  · rw [Nat.le_div_iff_mul_le (by positivity), ← Nat.pow_add, Nat.add_sub_cancel' hbits]
    exact Nat.log2_self_le (by omega)
  · rw [Nat.div_lt_iff_lt_mul (by positivity), ← Nat.pow_add, show 53 + (m.log2 - 52) =
      m.log2 + 1 by omega]
    exact Nat.lt_log2_self

/-- Rounding a number with enough digits keeps it large. -/
theorem roundWithAccuracy {m : Nat} {e : Int} (hlow : 2 ^ 52 ≤ m) (he : 0 ≤ (m.log2 : Int) + e) :
    Large (UnpackedFloat.roundWithAccuracy Format.binary64 .positive m e .exact) := by
  let x := UnpackedFloat.shiftToTargetExponent Format.binary64 m e .exact
  obtain ⟨hfirst, -, hexponent⟩ : 2 ^ 52 ≤ x.1.mantissa ∧ _ ∧ x.2 = m.log2 + e - 52 :=
    shiftToTargetExponent hlow he .exact
  have hrounded : 2 ^ 52 ≤ x.1.roundedMantissa := hfirst.trans (le_roundedMantissa x.1)
  have hbits : 52 ≤ x.1.roundedMantissa.log2 := (Nat.le_log2 (by omega)).mpr hrounded
  -- rounding may need another bit, so the mantissa is shifted once more
  let y := UnpackedFloat.shiftToTargetExponent Format.binary64 x.1.roundedMantissa x.2 .exact
  obtain ⟨hlow', hhigh', hexponent'⟩ : 2 ^ 52 ≤ y.1.mantissa ∧ y.1.mantissa < 2 ^ 53 ∧ y.2 = _ :=
    shiftToTargetExponent hrounded (by omega) .exact
  show Large (if h : y.1.mantissa = 0 then .zero .positive
    else .finite .positive y.1.mantissa y.2 (Nat.pos_of_ne_zero h))
  rw [dif_neg (by omega)]
  exact .finite hlow' hhigh' (by omega)

/-- The product of two large numbers is large: that is what keeps the limit from shrinking. -/
theorem mul {a b : UnpackedFloat} (ha : Large a) (hb : Large b) :
    Large (UnpackedFloat.mul Format.binary64 a b) := by
  cases ha with
  | infinity => cases hb <;> exact .infinity
  | @finite m e h hlow hhigh he =>
    cases hb with
    | infinity => exact .infinity
    | @finite m' e' h' hlow' hhigh' he' =>
      have hle : 2 ^ 104 ≤ m * m' := le_trans (by norm_num) (Nat.mul_le_mul hlow hlow')
      have hbits : 104 ≤ (m * m').log2 := (Nat.le_log2 (by omega)).mpr hle
      exact roundWithAccuracy (by omega) (by omega)

/-- A number with all bits and no infinite exponent is a large one, when it is large enough. -/
theorem unpack_packComponents {exponent : BitVec 11} (hlow : 1023 ≤ exponent.toNat)
    (hhigh : exponent.toNat < 2047) (mantissa : BitVec 52) :
    Large (UnpackedFloat.unpack Format.binary64
      (packComponents Format.binary64 .positive exponent mantissa)) := by
  have hsign : Sign.ofBitVec (unpackSign
      (packComponents Format.binary64 .positive exponent mantissa)) = .positive := by
    unfold unpackSign packComponents BitVec.extractLsb
    rw [BitVec.extractLsb'_append_eq_of_le (by decide), BitVec.extractLsb'_append_eq_of_le
      (by decide)]
    rfl
  have hzero : exponent ≠ 0#_ := fun h => by
    rw [h] at hlow
    exact absurd hlow (by decide)
  have hones : exponent ≠ -1#_ := fun h => by
    rw [h] at hhigh
    exact absurd hhigh (by decide)
  have hmantissa : (1#1 ++ mantissa).toNat = 2 ^ 52 + mantissa.toNat := by
    rw [BitVec.toNat_append, ← Nat.shiftLeft_add_eq_or_of_lt mantissa.isLt]
    rfl
  have hpositive {s : Sign} {m : Nat} {e : Int} {h : 0 < m} (hs : s = .positive)
    (hm : m = 2 ^ 52 + mantissa.toNat)
      (he : -52 ≤ e) : Large (.finite s m e h) := by
    have := mantissa.isLt
    subst hs
    exact .finite (by omega) (by omega) he
  let b := packComponents Format.binary64 .positive exponent mantissa
  show Large (if @unpackExponent Format.binary64 b = -1#_ then _ else
    if @unpackExponent Format.binary64 b = 0#_ then _ else _)
  rw [unpackExponent_packComponents, if_neg hones, if_neg hzero]
  refine hpositive hsign ?_ ?_
  · rw [unpackMantissa_packComponents]
    exact hmantissa
  · show -52 ≤ (exponent.toNat : Int) - ((1023 : Nat) + (52 : Nat))
    omega

/-- A large number stays large when it is packed into its 64 bits. -/
theorem pack {a : UnpackedFloat} (ha : Large a) : Large (Float.Model.pack a).unpack := by
  have hinfinity : Large (Float.Model.pack (.infinity .positive)).unpack := by
    rw [show (Float.Model.pack (.infinity .positive)).unpack = .infinity .positive from rfl]
    exact .infinity
  cases ha with
  | infinity => exact hinfinity
  | @finite m e h hlow hhigh he =>
    have hbits : m.log2 = 52 := (Nat.log2_eq_iff (by omega)).mpr ⟨hlow, hhigh⟩
    show Large (UnpackedFloat.unpack Format.binary64 (UnpackedFloat.pack Format.binary64 _))
    unfold UnpackedFloat.pack
    simp only [hbits]
    have hbiased : ((e + Format.binary64.exponentBias + (52 : Nat)).toNat : Int) = e + 1075 := by
      have hbias : Format.binary64.exponentBias = 1023 := rfl
      omega
    generalize (e + Format.binary64.exponentBias + (52 : Nat)).toNat = biased at hbiased
    split
    · exact hinfinity
    next hfits =>
      have htoNat : (BitVec.ofNat 11 biased).toNat = biased := by
        rw [BitVec.toNat_ofNat, Nat.mod_eq_of_lt (by omega)]
      exact unpack_packComponents (by omega) (by omega) _

theorem of_unpack {b : BitVec 64} {s : Sign} {m : Nat} {e : Int} {h : 0 < m} (he : -52 ≤ e)
    (hb : UnpackedFloat.unpack Format.binary64 b = .finite s m e h) : 2 ^ 52 ≤ m ∧ m < 2 ^ 53 := by
  have hmantissa : (1#1 ++ @unpackMantissa Format.binary64 b).toNat =
      2 ^ 52 + (@unpackMantissa Format.binary64 b).toNat := by
    rw [BitVec.toNat_append, ← Nat.shiftLeft_add_eq_or_of_lt (BitVec.isLt _)]
    rfl
  have hlt := (@unpackMantissa Format.binary64 b).isLt
  change (if @unpackExponent Format.binary64 b = -1#_ then (if @unpackMantissa Format.binary64 b =
    0#_ then _ else _)
    else if @unpackExponent Format.binary64 b = 0#_ then
      (if hm : @unpackMantissa Format.binary64 b = 0#_ then _ else _) else _) = _ at hb
  by_cases hones : @unpackExponent Format.binary64 b = -1#_
  · rw [if_pos hones] at hb
    by_cases hm : @unpackMantissa Format.binary64 b = 0#_
    · rw [if_pos hm] at hb
      cases hb
    · rw [if_neg hm] at hb
      cases hb
  rw [if_neg hones] at hb
  by_cases hzero : @unpackExponent Format.binary64 b = 0#_
  · -- the exponent of a number without all bits is the least one
    rw [if_pos hzero] at hb
    by_cases hm : @unpackMantissa Format.binary64 b = 0#_
    · rw [dif_pos hm] at hb
      cases hb
    · rw [dif_neg hm] at hb
      obtain ⟨-, -, rfl⟩ := UnpackedFloat.finite.inj hb
      rw [hzero] at he
      exact absurd he (by decide)
  · rw [if_neg hzero] at hb
    obtain ⟨-, rfl, -⟩ := UnpackedFloat.finite.inj hb
    change 2 ^ 52 ≤ (1#1 ++ @unpackMantissa Format.binary64 b).toNat ∧
      (1#1 ++ @unpackMantissa Format.binary64 b).toNat < 2 ^ 53
    change (@unpackMantissa Format.binary64 b).toNat < 2 ^ 52 at hlt
    omega

/-- What compares as at least one is large. -/
theorem of_one_le {x : Float} (h : 1.0 ≤ x) : Large x.toModel.unpack := by
  have hone : (1.0 : Float).toModel.unpack = .finite .positive (2 ^ 52) (-52) (by decide) := by
    have hbits : (1.0 : Float).toModel.toBits.toBitVec = 0x3FF0000000000000#64 := by
      with_unfolding_all rfl
    show UnpackedFloat.unpack Format.binary64 (1.0 : Float).toModel.toBits.toBitVec = _
    rw [hbits]
    rfl
  have hle : (1.0 : Float).toModel.unpack.le x.toModel.unpack = true := of_decide_eq_true h
  rw [hone] at hle
  cases hx : x.toModel.unpack with
  | infinity s =>
    rw [hx] at hle
    cases s with
    | positive => exact .infinity
    | negative => cases hle
  | notANumber | zero =>
    rw [hx] at hle
    cases hle
  | finite s m e hm =>
    rw [hx] at hle
    cases s with
    | negative => cases hle
    | positive =>
      have hcompare : ((compare (-52) e).then (compare (2 ^ 52) m)).isLE = true := hle
      have he : -52 ≤ e := by
        by_contra hlt
        rw [Int.compare_eq_gt.mpr (by omega)] at hcompare
        cases hcompare
      obtain ⟨hlow, hhigh⟩ := of_unpack he hx
      exact .finite hlow hhigh he

/-- Zero is not at least a large number. -/
theorem zero_lt {x : Float} (h : Large x.toModel.unpack) : ¬ x ≤ Nat.toFloat 0 := by
  have hzero : (Nat.toFloat 0).toModel.unpack = .zero .positive := by
    have hbits : (Nat.toFloat 0).toModel.toBits.toBitVec = 0#64 := by with_unfolding_all rfl
    show UnpackedFloat.unpack Format.binary64 (Nat.toFloat 0).toModel.toBits.toBitVec = _
    rw [hbits]
    rfl
  intro hle
  have hle : x.toModel.unpack.le (Nat.toFloat 0).toModel.unpack = true := of_decide_eq_true hle
  rw [hzero] at hle
  cases hx : x.toModel.unpack with
  | infinity | finite =>
    rw [hx] at hle h
    cases h
    cases hle
  | notANumber | zero =>
    rw [hx] at h
    cases h

/-- A positive integer that fits the mantissa is large. -/
theorem round {n : Nat} (hn : 0 < n) (hfits : n < 2 ^ 53) :
    Large (UnpackedFloat.round Format.binary64 .positive n 0) := by
  have hbits : n.log2 ≤ 52 := Nat.le_of_lt_succ ((Nat.log2_lt (by omega)).mpr hfits)
  have htarget : Format.binary64.targetExponent (totalExponent n 0) = n.log2 - 52 := by
    unfold Format.targetExponent totalExponent Format.minExponent Format.mantissaBits
    norm_num
    omega
  have hshift : (0 - ((n.log2 : Int) - 52)).toNat = 52 - n.log2 := by omega
  have hlog : (n <<< (52 - n.log2)).log2 = 52 := by
    rw [Nat.shiftLeft_eq, Nat.log2_eq_iff (by positivity)]
    have hlow := Nat.log2_self_le (n := n) (by omega)
    have hhigh := Nat.lt_log2_self (n := n)
    have hsum : n.log2 + (52 - n.log2) = 52 := by omega
    constructor
    · calc 2 ^ 52 = 2 ^ n.log2 * 2 ^ (52 - n.log2) := by rw [← Nat.pow_add, hsum]
        _ ≤ n * 2 ^ (52 - n.log2) := Nat.mul_le_mul_right _ hlow
    · calc n * 2 ^ (52 - n.log2) < 2 ^ (n.log2 + 1) * 2 ^ (52 - n.log2) :=
          Nat.mul_lt_mul_of_pos_right hhigh (by positivity)
        _ = 2 ^ 53 := by rw [← Nat.pow_add, show n.log2 + 1 + (52 - n.log2) = 53 by omega]
  have hlow : 2 ^ 52 ≤ n <<< (52 - n.log2) := by
    have := Nat.log2_self_le (n := n <<< (52 - n.log2)) (fun h => by rw [h] at hlog; cases hlog)
    rwa [hlog] at this
  unfold UnpackedFloat.round decreaseExponent
  simp only [htarget, hshift]
  exact roundWithAccuracy hlow (by omega)

/-- The number of a positive count is large. -/
theorem toFloat {n : Nat} (hn : 0 < n) : Large n.toFloat.toModel.unpack := by
  show Large (Float.ofScientific n false 0).toModel.unpack
  unfold Float.ofScientific
  split
  next hfits =>
    have hone : Float.ofBits 0x3FF0000000000000 = 1.0 := by with_unfolding_all rfl
    have hround : Large (UnpackedFloat.ofNat Format.binary64 n) := by
      have hgt : compare (n : Int) 0 = .gt := Int.compare_eq_gt.mpr (by omega)
      unfold UnpackedFloat.ofNat UnpackedFloat.ofInt UnpackedFloat.normalize
      rw [hgt]
      exact round hn hfits.1
    have hcount : n.toUInt64.toNat = n := Nat.mod_eq_of_lt (hfits.1.trans (by norm_num))
    have hleft : Large n.toUInt64.toFloat.toModel.unpack := by
      show Large (Float.Model.pack (UnpackedFloat.ofNat Format.binary64 n.toUInt64.toNat)).unpack
      rw [hcount]
      exact hround.pack
    have hright : Large (Float.ofBits 0x3FF0000000000000).toModel.unpack := by
      rw [hone]
      exact of_one_le (by with_unfolding_all decide)
    exact (hleft.mul hright).pack
  next hfits =>
    have hlarge : 2 ^ 53 ≤ n := by omega
    have hlow : 2 ^ 106 ≤ n <<< 53 * 10 ^ 0 := by
      rw [Nat.shiftLeft_eq]
      omega
    have hbits : 106 ≤ (n <<< 53 * 10 ^ 0).log2 := (Nat.le_log2 (by omega)).mpr hlow
    have hrounded := roundWithAccuracy (m := n <<< 53 * 10 ^ 0) (e := -53 + 0) (by omega) (by omega)
    have hproduct : Large (UnpackedFloat.ofScientific Format.binary64 n 0) := by
      unfold UnpackedFloat.ofScientific
      rw [dif_neg (by omega), if_neg (by decide), if_neg ?_, if_pos (by decide)]
      · exact hrounded
      · rw [show (2 : Int) ^ Format.binary64.exponentBits = 2048 from rfl]
        omega
    exact hproduct.pack

end Large

namespace Core

open Search

/-- What the next restart depends on: conflicts since the last one, and how many there may be. -/
def pace (c : Core) : Nat × Float := (c.conflictsSinceRestart, c.restartThreshold)

/-- Whether to restart depends on the count of conflicts and the limit alone. -/
theorem shouldRestart_eq (c : Core) :
    c.shouldRestart = Decidable.decide (c.pace.2 ≤ c.pace.1.toFloat) := rfl

/-! ## Operations that leave the pace as it is -/

@[simp] theorem pace_enqueue (c : Core) (l : Literal) (r : Option Nat) :
    (c.enqueue l r).pace = c.pace := rfl

@[simp] theorem pace_decide (c : Core) (l : Literal) : (c.decide l).pace = c.pace := rfl

@[simp] theorem pace_setSeen (c : Core) (v : Nat) (seen : Bool) :
    (c.setSeen v seen).pace = c.pace := rfl

@[simp] theorem pace_ensureVar (c : Core) (v : Nat) : (c.ensureVar v).pace = c.pace := by
  simp only [ensureVar]
  split <;> split <;> rfl

@[simp] theorem pace_bump (c : Core) (v : Nat) : (c.bump v).pace = c.pace := by
  simp only [bump]
  split <;> rfl

/-- A fold keeps the pace if each of its steps does. -/
theorem pace_foldl {α : Type} {f : Core → α → Core} (h : ∀ c a, (f c a).pace = c.pace) (as : List α)
    (c : Core) :
    (as.foldl f c).pace = c.pace := by
  induction as generalizing c with
  | nil => rfl
  | cons a as ih => rw [List.foldl_cons, ih, h]

@[simp] theorem pace_backtrack (c : Core) (level : Nat) : (c.backtrack level).pace = c.pace := by
  simp only [backtrack]
  split
  · rfl
  next start _ =>
    have h : (c.unassignFrom start).pace = c.pace := pace_foldl (f := unassign) (fun _ _ => rfl) _ c
    split <;> exact h

@[simp] theorem pace_storeClause (c : Core) (cl : Clause) : (c.storeClause cl).2.pace = c.pace := by
  unfold storeClause
  cases c.freeClauses <;> rfl

@[simp] theorem pace_assignUnit (c : Core) (l : Literal) : (c.assignUnit l).2.pace = c.pace := by
  unfold assignUnit
  split <;> rfl

theorem pace_addClause (c : Core) (lits : List Literal) (scope : Nat) :
    (c.addClause lits scope).pace = c.pace := by
  have hensured : (lits.foldl (fun c l => c.ensureVar l.var)
      (c.require (c.decisionLevel = 0))).pace = c.pace :=
    pace_foldl (fun c (l : Literal) => pace_ensureVar c l.var) lits _
  unfold addClause
  simp only
  generalize lits.foldl (fun c l => c.ensureVar l.var) (c.require (c.decisionLevel = 0)) =
    c₁ at hensured
  rw [← hensured]
  split
  · rfl
  · split
    · rfl
    · exact pace_assignUnit _ _
    · split
      · have hstored := pace_storeClause c₁
        split
        · exact hstored _
        · split <;> exact hstored _
        · exact hstored _
      · rfl

@[simp] theorem pace_learn (c : Core) (lits : List Literal) (scope : Nat) :
    (c.learn lits scope).pace = c.pace := by
  unfold learn
  split
  · rfl
  · rfl
  · exact pace_storeClause { c with stats := _ } _

theorem pace_popOpen (bound : Nat) (c : Core) : (c.popOpen bound).2.pace = c.pace := by
  induction bound generalizing c with
  | zero => rfl
  | succ bound ih =>
    simp only [popOpen]
    split
    · rfl
    · split
      · rfl
      · exact ih _

@[simp] theorem pace_pickBranch (c : Core) : c.pickBranch.2.pace = c.pace := by
  have h := pace_popOpen c.order.size c
  unfold pickBranch
  split
  all_goals
    next heq =>
      rw [heq] at h
      exact h

theorem pace_visit (c : Core) (l : Literal) (n : Nat) : (c.visit l n).core.pace = c.pace := by
  unfold visit
  split
  · rfl
  · simp only
    split
    · rfl
    · split
      · rfl
      · split <;> rfl

theorem pace_visitAll (l : Literal) (ns : List Nat) (kept : Array Nat) (c : Core) :
    (visitAll l ns kept c).2.2.pace = c.pace := by
  induction ns generalizing kept c with
  | nil => rfl
  | cons n ns ih =>
    have hvisited := pace_visit c l n
    unfold visitAll
    cases hvisit : c.visit l n with
    | satisfied c₁ | forced c₁ | moved c₁ =>
      rw [hvisit] at hvisited
      exact (ih _ c₁).trans hvisited
    | falsified c₁ lits =>
      rw [hvisit] at hvisited
      exact hvisited

theorem pace_propagateUpTo (bound : Nat) (c : Core) : (c.propagateUpTo bound).2.pace = c.pace := by
  induction bound generalizing c with
  | zero => rfl
  | succ bound ih =>
    simp only [propagateUpTo]
    split
    · rfl
    next x _ =>
      have hlit (c₁ : Core) : (c₁.propagateLit x).2.pace = c₁.pace :=
        pace_visitAll x.neg _ #[] { c₁ with watches := c₁.watches.setIfInBounds x.neg.code #[] }
      have hvisited := hlit
        { c with
          head := c.head + 1
          stats := { c.stats with propagations := c.stats.propagations + 1 } }
      split
      next heq =>
        rw [heq] at hvisited
        exact hvisited
      next heq =>
        rw [heq] at hvisited
        exact (ih _).trans hvisited

@[simp] theorem pace_propagate (c : Core) : c.propagate.2.pace = c.pace := pace_propagateUpTo _ c

/-! ## Conflicts and restarts -/

theorem pace_absorbLit (top : Nat) (r : Resolution) (l : Literal) :
    (absorbLit top r l).core.pace = r.core.pace := by
  simp only [absorbLit]
  split
  · rfl
  · split <;> simp

theorem pace_absorb (top : Nat) (r : Resolution) (lits : List Literal) :
    (absorb top r lits).core.pace = r.core.pace := by
  unfold absorb
  induction lits generalizing r with
  | nil => rfl
  | cons l lits ih => rw [List.foldl_cons, ih, pace_absorbLit]

theorem pace_resolveDown (top length : Nat) (r : Resolution) :
    (resolveDown top length r).2.core.pace = r.core.pace := by
  induction length generalizing r with
  | zero => rfl
  | succ length ih =>
    simp only [resolveDown]
    repeat' split
    · rfl
    · exact ih r
    · rfl
    · rfl
    · rw [ih, pace_absorb]
      rfl

/-- An analysis counts one conflict. -/
theorem pace_analyze (c : Core) (conflict : List Literal) :
    (c.analyze conflict).2.pace = (c.conflictsSinceRestart + 1, c.restartThreshold) := by
  simp only [analyze]
  split
  · rfl
  · split
    all_goals
      next heq =>
        have h := congrArg (·.2.core.pace) heq
        simp only [pace_resolveDown, pace_absorb, pace_backtrack] at h
        try simp only [← Array.foldl_toList]
        first
        | exact h.symm
        | exact (pace_foldl (fun c (l : Literal) => pace_setSeen c l.var false) _ _).trans h.symm

/-- A restart begins to count anew, against a limit that is multiplied by the factor. -/
theorem pace_restart (c : Core) (factor : Float) :
    (c.restart factor).pace = (0, c.restartThreshold * factor) := by
  have h : (c.backtrack 0).restartThreshold = c.restartThreshold :=
    congrArg Prod.snd (pace_backtrack c 0)
  unfold restart pace
  simp only [h]

theorem pace_assignUnitList (us : List (Literal × Nat)) (c : Core) :
    (assignUnitList us c).2.pace = c.pace := by
  induction us generalizing c with
  | nil => rfl
  | cons u us ih =>
    have h := pace_assignUnit c u.1
    unfold assignUnitList
    split
    next heq =>
      rw [heq] at h
      rw [ih, h]
    next heq =>
      rw [heq] at h
      exact h

/-- A search begins to count at zero, against the limit that was set. -/
theorem pace_startSearch (c : Core) (p : Params) :
    (c.startSearch p).2.pace = (0, p.restartThreshold.toFloat) := by
  unfold startSearch assignUnits
  simp only
  split
  · rfl
  · exact pace_assignUnitList _ _

/-- There is no restart before the next conflict. -/
def Paced (c : Core) : Prop := Large c.restartThreshold.toModel.unpack

/-- Whether the limit is at least one is read off the pace. -/
theorem Paced.of_pace {c c' : Core} (h : c.Paced) (hpace : c'.pace.2 = c.pace.2) : c'.Paced := by
  unfold Paced
  rw [show c'.restartThreshold = c.restartThreshold from hpace]
  exact h

/-- With valid parameters the threshold of a search is at least one. -/
theorem paced_startSearch {p : Params} (hp : p.validate = .ok ()) (c : Core) :
    (c.startSearch p).2.Paced := by
  have hthreshold : (c.startSearch p).2.restartThreshold = p.restartThreshold.toFloat :=
    congrArg Prod.snd (pace_startSearch c p)
  unfold Paced
  rw [hthreshold]
  refine .toFloat (Nat.pos_of_ne_zero fun hzero => ?_)
  unfold Params.validate at hp
  rw [hzero] at hp
  cases hp

/-- Parameters that are accepted have a factor of one at least. -/
theorem one_le_restartFactor {p : Params} (hp : p.validate = .ok ()) :
    1.0 ≤ p.restartFactor.toFloat := by
  by_contra hlt
  unfold Params.validate at hp
  dsimp only at hp
  split at hp
  · cases hp
  · rw [if_pos (by simpa using hlt)] at hp
    cases hp

/-- After a restart the next one needs a conflict. -/
theorem restart_paced {c : Core} (h : c.Paced) {factor : Float} (hfactor : 1.0 ≤ factor) :
    (c.restart factor).Paced ∧ (c.restart factor).shouldRestart = false := by
  have hpace := pace_restart c factor
  have hlarge : (c.restart factor).Paced := by
    unfold Paced
    rw [show (c.restart factor).restartThreshold = c.restartThreshold * factor
      from congrArg Prod.snd hpace]
    exact (h.mul (.of_one_le hfactor)).pack
  refine ⟨hlarge, decide_eq_false ?_⟩
  rw [show (c.restart factor).conflictsSinceRestart = 0 from congrArg Prod.fst hpace]
  exact hlarge.zero_lt

end Core

end Entail
