import Entail.Proofs.Store.Supported
import Entail.Proofs.Store.Types
import Mathlib.Tactic.Linarith

/-!
# The depth that an encoding takes

An equality between elements of a sort is encoded by lifting the if-then-elses out of its sides, one
after the other, which makes new formulas. What that costs is known before: two levels for each
if-then-else on the two sides. As the nesting of a store is bounded by its slots, so is what the
encoding of any term costs, by a square.
-/

namespace Entail.Store

variable {s s' : Store} {t u a b c : Term} {ty ty' : Ty} {shape : Term.Shape} {g g' d d' i j : Nat}

/-- The encoding of the term is nested `d` deep at most, if `g` if-then-elses at most are lifted out
of the term where it is a side of an equality. -/
inductive Costs (s : Store) : Nat → Nat → Term → Prop where
  | element {g d : Nat} {t : Term} {shape : Term.Shape} {ty : Ty} {n : Nat}
    (hn : s.node? t = some (shape, ty))
    (hty : s.tyShape? ty = some (.uninterpreted n)) (hite : shape.isIte = false) : Costs s g d t
  | choice {g i d : Nat} {t c a b : Term} {ty : Ty} {n : Nat}
    (hn : s.node? t = some (.ite c a b, ty))
    (hty : s.tyShape? ty = some (.uninterpreted n)) (hc : Costs s i d c) (ha : Costs s g d a)
    (hb : Costs s g d b) :
    Costs s (g + 1) d t
  | equation {g d i j : Nat} {t a b : Term} {ty ty' : Ty} {n : Nat}
    (hn : s.node? t = some (.eq a b, ty))
    (hty : s.Has a ty') (hshape : s.tyShape? ty' = some (.uninterpreted n)) (ha : Costs s i d a)
    (hb : Costs s j d b) :
    Costs s g (d + 2 * (i + j) + 1) t
  | node {g i d : Nat} {t : Term} {shape : Term.Shape} {ty : Ty} {tyShape : Ty.Shape}
    (hn : s.node? t = some (shape, ty)) (hty : s.tyShape? ty = some tyShape)
    (hsort : ∀ n, tyShape ≠ .uninterpreted n)
    (heq : ∀ a b, shape = .eq a b →
      ∃ ty' tyShape, s.Has a ty' ∧ s.tyShape? ty' = some tyShape ∧ ∀ n, tyShape ≠ .uninterpreted n)
    (hparts : ∀ c ∈ shape.children, Costs s i d c) : Costs s g (d + 1) t

namespace Costs

/-- Polarity does not matter. -/
theorem congr (h : s.Costs g d t) (hi : u.index = t.index) : s.Costs g d u := by
  cases h with
  | element hn hty hite => exact .element ((node?_congr hi).trans hn) hty hite
  | choice hn hty hc ha hb => exact .choice ((node?_congr hi).trans hn) hty hc ha hb
  | equation hn hty hshape ha hb => exact .equation ((node?_congr hi).trans hn) hty hshape ha hb
  | node hn hty hsort heq hparts => exact .node ((node?_congr hi).trans hn) hty hsort heq hparts

theorem neg (h : s.Costs g d t) : s.Costs g d t.neg := h.congr (Term.index_neg t)

theorem of_neg (h : s.Costs g d t.neg) : s.Costs g d t := h.congr (Term.index_neg t).symm

theorem positive (h : s.Costs g d t) : s.Costs g d t.positive := h.congr (Term.index_positive t)

theorem later (h : s.Costs g d t) (hs : s.Extends s') : s'.Costs g d t := by
  induction h with
  | element hn hty hite => exact .element (hs.node hn) (hs.ty hty) hite
  | choice hn hty _ _ _ ihc iha ihb => exact .choice (hs.node hn) (hs.ty hty) ihc iha ihb
  | equation hn hty hshape _ _ iha ihb =>
    exact .equation (hs.node hn) (hs.has hty) (hs.ty hshape) iha ihb
  | node hn hty hsort heq _ ih =>
    refine .node (hs.node hn) (hs.ty hty) hsort (fun a b h => ?_) ih
    obtain ⟨ty', tyShape, ha, hty', hsort'⟩ := heq a b h
    exact ⟨ty', tyShape, hs.has ha, hs.ty hty', hsort'⟩

theorem mono (h : s.Costs g d t) (hg : g ≤ g') (hd : d ≤ d') : s.Costs g' d' t := by
  induction h generalizing g' d' with
  | element hn hty hite => exact .element hn hty hite
  | choice hn hty _ _ _ ihc iha ihb =>
    obtain ⟨k, rfl⟩ := Nat.exists_eq_add_of_lt hg
    exact .choice hn hty (ihc (Nat.le_refl _) hd) (iha (Nat.le_add_right ..) hd)
      (ihb (Nat.le_add_right ..) hd)
  | @equation _ d i j _ _ _ _ _ _ hn hty hshape _ _ iha ihb =>
    obtain ⟨k, rfl⟩ := Nat.exists_eq_add_of_le hd
    have heq : d + 2 * (i + j) + 1 + k = (d + k) + 2 * (i + j) + 1 := by omega
    rw [heq]
    exact .equation hn hty hshape (iha (Nat.le_refl _) (Nat.le_add_right ..))
      (ihb (Nat.le_refl _) (Nat.le_add_right ..))
  | @node _ i d _ _ _ _ hn hty hsort heq _ ih =>
    obtain ⟨k, rfl⟩ := Nat.exists_eq_add_of_le hd
    rw [Nat.add_right_comm]
    exact .node hn hty hsort heq fun c hc => ih c hc (Nat.le_refl i) (Nat.le_add_right ..)

/-- An element of a sort that is an if-then-else. -/
theorem of_ite (h : s.Costs g d t) {n : Nat} (hn : s.node? t = some (.ite c a b, ty))
    (hty : s.tyShape? ty = some (.uninterpreted n)) :
    ∃ k i, g = k + 1 ∧ s.Costs i d c ∧ s.Costs k d a ∧ s.Costs k d b := by
  cases h with
  | element hn' _ hite =>
    cases hn.symm.trans hn'
    cases hite
  | @choice k i _ _ _ _ _ _ _ hn' _ hc ha hb =>
    cases hn.symm.trans hn'
    exact ⟨k, i, rfl, hc, ha, hb⟩
  | equation hn' => cases hn.symm.trans hn'
  | node hn' hty' hsort =>
    cases hn.symm.trans hn'
    cases hty.symm.trans hty'
    exact absurd rfl (hsort n)

/-- An equality between elements of a sort. -/
theorem of_eq (hw : s.Wf) (h : s.Costs g d t) {n : Nat} (hn : s.node? t = some (.eq a b, ty))
    (ha : s.Has a ty') (hty : s.tyShape? ty' = some (.uninterpreted n)) :
    ∃ k i j, d = k + 2 * (i + j) + 1 ∧ s.Costs i k a ∧ s.Costs j k b := by
  cases h with
  | element hn' hty' =>
    cases hn.symm.trans hn'
    obtain ⟨rfl, -⟩ := hw.typed hn
    cases hw.bool_ty.symm.trans hty'
  | choice hn' => cases hn.symm.trans hn'
  | @equation _ k i j _ _ _ _ _ _ hn' _ _ ha hb =>
    cases hn.symm.trans hn'
    exact ⟨k, i, j, rfl, ha, hb⟩
  | node hn' _ _ heq =>
    cases hn.symm.trans hn'
    obtain ⟨ty₁, tyShape, ha', hty₁, hsort⟩ := heq a b rfl
    cases ha.unique ha'
    cases hty.symm.trans hty₁
    exact absurd rfl (hsort n)

/-- The parts of a term that is no element of a sort, and no equality between such
elements, cost less. -/
theorem part (h : s.Costs g d t) (hn : s.node? t = some (shape, ty)) {tyShape : Ty.Shape}
    (hty : s.tyShape? ty = some tyShape) (hsort : ∀ n, tyShape ≠ .uninterpreted n)
    (heq : ∀ a b ty' n, shape = .eq a b → s.Has a ty' → s.tyShape? ty' ≠ some (.uninterpreted n)) :
    ∃ k i, d = k + 1 ∧ ∀ c ∈ shape.children, s.Costs i k c := by
  cases h with
  | element hn' hty' | choice hn' hty' =>
    cases hn.symm.trans hn'
    cases hty.symm.trans hty'
    exact absurd rfl (hsort _)
  | equation hn' ha hty' =>
    cases hn.symm.trans hn'
    exact absurd hty' (heq _ _ _ _ rfl ha)
  | @node _ i k _ _ _ _ hn' _ _ _ hparts =>
    cases hn.symm.trans hn'
    exact ⟨k, i, rfl, hparts⟩

end Costs

/-- Formulas cost something. -/
theorem costs_top (hw : s.Wf) : s.Costs g (d + 1) .top :=
  .node (i := 0) hw.truth hw.bool_ty nofun nofun nofun

/-- A connective over formulas costs one more. -/
theorem Made.costs {D : Term → Prop}
    (h : s.Made D (fun shape => shape.isConnective = true ∧ Over D shape) t) (hw : s.Wf)
    (hD : ∀ u, D u → s.Has u .bool ∧ s.Costs g d u) : s.Costs g (d + 1) t := by
  induction h with
  | top => exact costs_top hw
  | given h => exact (hD _ h).2.mono (Nat.le_refl _) (Nat.le_succ _)
  | @node t shape ty hn h =>
    obtain ⟨hconn, hover⟩ := h
    have hpart : ∀ c ∈ shape.children, s.Has c .bool ∧ s.Costs g d c := fun c hc =>
      (hover c hc).elim (hD c) fun hneg => ⟨c.neg_neg ▸ (hD _ hneg).1.neg, (hD _ hneg).2.of_neg⟩
    have hbool : ty = .bool := by
      have htyped := hw.typed hn
      cases shape with
      | or args => exact htyped.1
      | xor a b => exact htyped.1
      | ite c a b => exact htyped.2.1.unique (hpart a (by simp [Term.Shape.children])).1
      | _ => cases hconn
    subst hbool
    refine .node hn hw.bool_ty (by simp) (fun a b heq => ?_) fun c hc => (hpart c hc).2
    rw [heq] at hconn
    cases hconn
  | neg _ ih => exact ih.neg

/-- What a term of a given rank costs at most. -/
theorem costs_of_rank (hw : s.Wf) {rank : Nat → Nat}
    (hrank : ∀ {i shape ty}, s.terms.get? i = some (shape, ty) → ∀ c ∈ shape.children,
      rank c.index < rank i)
    (ht : s.Has t ty) : s.Costs (rank t.index) (2 * rank t.index * (rank t.index + 1) + 1) t := by
  induction hr : rank t.index using Nat.strongRecOn generalizing t ty with
  | ind r ih =>
    subst hr
    have hn := ht.node
    obtain ⟨tyShape, hty⟩ := hw.ty_live ht
    have part {c : Term} (hc : c ∈ (s.shape t).children) {k : Nat} (hk : rank t.index = k + 1) :
        s.Costs k (2 * k * (k + 1) + 1) c := by
      obtain ⟨tc, hctc⟩ := (hw.typed hn).live hc
      have hlt : rank c.index ≤ k := by
        have hlt : rank c.index < rank t.index := hrank hn c hc
        omega
      refine (ih _ (hrank hn c hc) hctc rfl).mono hlt ?_
      exact Nat.add_le_add_right (Nat.mul_le_mul (Nat.mul_le_mul_left 2 hlt)
        (Nat.add_le_add_right hlt 1)) 1
    -- a term with parts has a positive rank
    have pos {c : Term} (hc : c ∈ (s.shape t).children) : ∃ k, rank t.index = k + 1 :=
      Nat.exists_eq_succ_of_ne_zero (Nat.ne_of_gt
        (Nat.lt_of_le_of_lt (Nat.zero_le _) (hrank hn c hc)))
    by_cases hsort : ∃ n, tyShape = .uninterpreted n
    · obtain ⟨n, rfl⟩ := hsort
      cases hite : (s.shape t).isIte with
      | false => exact .element hn hty hite
      | true =>
        cases hshape : s.shape t with
        | ite c a b =>
          have hmem : c ∈ (s.shape t).children ∧ a ∈ (s.shape t).children ∧
              b ∈ (s.shape t).children := by
            simp [hshape, Term.Shape.children]
          obtain ⟨k, hk⟩ := pos hmem.1
          rw [hshape] at hn
          rw [hk]
          refine (Costs.choice hn hty (part hmem.1 hk) (part hmem.2.1 hk) (part hmem.2.2 hk)).mono
            (Nat.le_refl _) ?_
          nlinarith
        | _ => simp [hshape, Term.Shape.isIte] at hite
    · replace hsort : ∀ n, tyShape ≠ .uninterpreted n := fun n h => hsort ⟨n, h⟩
      by_cases heq : ∃ a b ty' n, s.shape t = .eq a b ∧ s.Has a ty' ∧
        s.tyShape? ty' = some (.uninterpreted n)
      · obtain ⟨a, b, ty', n, hshape, ha, hty'⟩ := heq
        have hmem : a ∈ (s.shape t).children ∧ b ∈ (s.shape t).children := by
          simp [hshape, Term.Shape.children]
        obtain ⟨k, hk⟩ := pos hmem.1
        rw [hshape] at hn
        rw [hk]
        refine (Costs.equation hn ha hty' (part hmem.1 hk) (part hmem.2 hk)).mono (Nat.le_refl _) ?_
        nlinarith
      · have heq : ∀ a b, s.shape t = .eq a b →
            ∃ ty' tyShape, s.Has a ty' ∧ s.tyShape? ty' = some tyShape ∧ ∀ n,
              tyShape ≠ .uninterpreted n := by
          intro a b hshape
          have htyped := hw.typed hn
          rw [hshape] at htyped
          obtain ⟨-, ty', -, ha, -⟩ := htyped
          obtain ⟨shape', hshape'⟩ := hw.ty_live ha
          exact ⟨ty', shape', ha, hshape', fun n hn => heq ⟨a, b, ty', n, hshape, ha, hn ▸ hshape'⟩⟩
        cases hk : rank t.index with
        | zero =>
          refine .node (i := 0) hn hty hsort heq fun c hc => ?_
          obtain ⟨k, hk'⟩ := pos hc
          omega
        | succ k =>
          refine (Costs.node hn hty hsort heq fun c hc => part hc hk).mono (Nat.le_refl _) ?_
          nlinarith

/-- The encoding of a term costs less than the square of the slots. -/
theorem exists_costs (hw : s.Wf) (ht : s.Has t ty) :
    ∃ g d, d < 2 * (s.terms.slots.size + 2) * (s.terms.slots.size + 2) ∧ s.Costs g d t := by
  obtain ⟨rank, hrank, hbound⟩ := hw.bounded
  refine ⟨_, _, ?_, costs_of_rank hw hrank ht⟩
  have hlt : rank t.index < s.terms.slots.size := hbound ht.node
  nlinarith

end Entail.Store
