/-!
# Literals

A decision variable is a number; zero is no variable. A literal is a variable with a polarity.
-/

namespace Entail

/-- Literal of a decision variable: twice the variable, plus one when negated. -/
structure Literal where
  code : Nat
deriving DecidableEq, Hashable, Inhabited

namespace Literal

/-- The positive literal of a variable. -/
def pos (v : Nat) : Literal := ⟨2 * v⟩

/-- The literal of a variable with a polarity. -/
def mk' (v : Nat) (negated : Bool) : Literal := ⟨2 * v + negated.toNat⟩

/-- The variable of a literal. -/
def var (l : Literal) : Nat := l.code / 2

/-- Whether a literal is negated. -/
def isNegated (l : Literal) : Bool := l.code % 2 == 1

/-- The literal of the same variable with the opposite polarity. -/
def neg (l : Literal) : Literal := if l.isNegated then ⟨l.code - 1⟩ else ⟨l.code + 1⟩

/-- Flips the polarity exactly when `flip` holds. -/
def negIf (flip : Bool) (l : Literal) : Literal := if flip then l.neg else l

/-- Total order by code, in which a literal stands right before its negation. -/
def le (a b : Literal) : Bool := a.code ≤ b.code

/-- Drops repetitions from a sorted list. -/
def dedup : List Literal → List Literal
  | a :: b :: rest => if a = b then dedup (b :: rest) else a :: dedup (b :: rest)
  | ls => ls

/-- The literals of a list in increasing order, each once. -/
def normalize (ls : List Literal) : List Literal := dedup (ls.mergeSort le)

/-- Whether some literal of a sorted list without repetitions is followed by its negation. -/
def hasComplement : List Literal → Bool
  | a :: b :: rest => a.neg == b || hasComplement (b :: rest)
  | _ => false

/-- Text of a literal. -/
def text (l : Literal) : String := if l.isNegated then s!"~v{l.var}" else s!"v{l.var}"

@[simp] theorem var_pos (v : Nat) : (pos v).var = v := by simp [pos, var]

@[simp] theorem var_neg (l : Literal) : l.neg.var = l.var := by
  unfold neg var isNegated
  split <;> simp_all <;> omega

@[simp] theorem neg_neg (l : Literal) : l.neg.neg = l := by
  cases l with
  | mk c =>
    simp only [neg, isNegated, beq_iff_eq]
    split
    · have h : ¬ (c - 1) % 2 = 1 := by omega
      simp only [h, if_false, mk.injEq]
      omega
    · have h : (c + 1) % 2 = 1 := by omega
      simp [h]

@[simp] theorem isNegated_pos (v : Nat) : (pos v).isNegated = false := by simp [pos, isNegated]

@[simp] theorem isNegated_neg (l : Literal) : l.neg.isNegated = !l.isNegated := by
  cases h : l.isNegated <;> simp [neg, h] <;> simp [isNegated] at h ⊢ <;> omega

end Literal
end Entail
