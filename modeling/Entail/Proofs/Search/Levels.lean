import Entail.Search.Solve

/-!
# Decision levels

Only decisions open levels, and only going back closes them. Changes of the variables and the units
leave the levels alone, so a core whose trail was taken back stays at level 0 while its clauses are
put in order again.
-/

namespace Entail.Core

open Search

@[simp] theorem levelStarts_releaseVar (c : Core) (v : Nat) :
    (c.releaseVar v).levelStarts = c.levelStarts := rfl

@[simp] theorem levelStarts_enqueue (c : Core) (l : Literal) (r : Option Nat) :
    (c.enqueue l r).levelStarts = c.levelStarts := rfl

@[simp] theorem levelStarts_ensureVar (c : Core) (v : Nat) :
    (c.ensureVar v).levelStarts = c.levelStarts := by
  simp only [ensureVar]
  split <;> split <;> rfl

@[simp] theorem levelStarts_assignUnit (c : Core) (l : Literal) :
    (c.assignUnit l).2.levelStarts = c.levelStarts := by
  unfold assignUnit
  split <;> rfl

@[simp] theorem levelStarts_freeClause (depth : Nat) (c : Core) (n : Nat) :
    (freeClause depth c n).levelStarts = c.levelStarts := by
  unfold freeClause
  split
  · rfl
  · split <;> rfl

/-- Steps that leave the levels alone do so one after the other. -/
theorem levelStarts_foldl {α : Type} {f : Core → α → Core}
    (h : ∀ c a, (f c a).levelStarts = c.levelStarts)
    (as : List α) (c : Core) : (as.foldl f c).levelStarts = c.levelStarts := by
  induction as generalizing c with
  | nil => rfl
  | cons a as ih => rw [List.foldl_cons, ih, h]

theorem levelStarts_assignUnitList (us : List (Literal × Nat)) (c : Core) :
    (assignUnitList us c).2.levelStarts = c.levelStarts := by
  induction us generalizing c with
  | nil => rfl
  | cons u us ih =>
    have h := levelStarts_assignUnit c u.1
    unfold assignUnitList
    split
    next heq =>
      rw [heq] at h
      rw [ih, h]
    next heq =>
      rw [heq] at h
      exact h

@[simp] theorem levelStarts_assignUnits (c : Core) :
    c.assignUnits.2.levelStarts = c.levelStarts := by
  simp only [assignUnits]
  split
  · rfl
  · exact levelStarts_assignUnitList _ _

/-- Dropping scopes goes back to level 0. -/
@[simp] theorem levelStarts_popScopes (c : Core) (depth : Nat) :
    (c.popScopes depth).levelStarts = #[] :=
  levelStarts_foldl (levelStarts_freeClause depth) (List.range c.clauses.size) c.resetTrail

/-- A decision opens a level. -/
theorem decisionLevel_decide (c : Core) (l : Literal) :
    (c.decide l).decisionLevel = c.decisionLevel + 1 := by
  unfold decide decisionLevel
  rw [levelStarts_enqueue, Array.size_push]

/-- A variable in use is below the size of the table. -/
theorem lt_size_of_live {c : Core} {v : Nat} (hlive : (c.info v).live = true) :
    v < c.vars.size := by
  refine Nat.lt_of_not_le fun hge => ?_
  have hnone : c.info v = {} := by simp [info, Array.getElem?_eq_none hge]
  rw [hnone] at hlive
  cases hlive

/-- A variable in use is not taken into use again. -/
theorem ensureVar_of_live {c : Core} {v : Nat} (h : (c.info v).live = true) :
    c.ensureVar v = c := by
  unfold ensureVar
  simp only [if_pos (lt_size_of_live h), h, if_true]

end Entail.Core
