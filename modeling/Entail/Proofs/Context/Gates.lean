import Entail.Context.Gates
import Entail.Proofs.Moves

/-!
# What gates are made of

A gate reads the literal of truth, and when its value is not clear from its inputs it takes a new
output and adds the clauses that define it. So whatever an output and its clauses do to a workspace
is all that gates and words of gates do.
-/

namespace Entail.Work

variable {α : Type} {P : Workspace → Prop} {R : Workspace → Workspace → Prop} (hR : Frame P R)

include hR

/-- Reading stays in every frame. -/
theorem moves_look (f : Store → Context → α) : Moves P R (look f) := fun _ h => hR.refl h

variable (hdefine : ∀ cs : Literal → List (List Literal),
  Moves P R (do let out ← freshLit; clauses (cs out); return out))

include hdefine

/-- A conjunction is constant, one of its inputs, or a new output with its clauses. -/
theorem moves_andGate (a b : Literal) : Moves P R (andGate a b) := by
  refine hR.bind (moves_look hR _) fun x => hR.bind (moves_look hR _) fun y => ?_
  repeat' split
  · exact moves_look hR _
  · exact hR.pure _
  · exact hR.pure _
  · exact hR.pure _
  · exact moves_look hR _
  · exact hdefine fun out => orClauses out.neg [a.neg, b.neg]

/-- A disjunction is the conjunction of the negations, negated. -/
theorem moves_orGate (a b : Literal) : Moves P R (orGate a b) :=
  hR.bind (moves_andGate hR hdefine a.neg b.neg) fun _ => hR.pure _

/-- An exclusive disjunction is one input up to polarity, or a new output. -/
theorem moves_xorGate (a b : Literal) : Moves P R (xorGate a b) := by
  refine hR.bind (moves_look hR _) fun x => hR.bind (moves_look hR _) fun y => ?_
  split
  · exact hR.pure _
  · exact hR.pure _
  · split
    · exact moves_look hR _
    · split
      · exact moves_look hR _
      · exact hdefine fun out => xorClauses out a b

/-- A choice with a known condition is one of its branches. -/
theorem moves_iteGate (c a b : Literal) : Moves P R (iteGate c a b) := by
  refine hR.bind (moves_look hR _) fun x => ?_
  split
  · exact hR.pure _
  · split
    · exact hR.pure _
    · exact hdefine fun out => iteClauses out c a b

/-- With one input known, the majority of three is a conjunction or a disjunction of the others. -/
theorem moves_majorityGate (a b c : Literal) : Moves P R (majorityGate a b c) := by
  refine hR.bind (moves_look hR _) fun x => hR.bind (moves_look hR _) fun y =>
    hR.bind (moves_look hR _) fun z => ?_
  have hor := moves_orGate hR hdefine
  have hand := moves_andGate hR hdefine
  split
  · split
    · exact hor b c
    · exact hand b c
  · split
    · exact hor a c
    · exact hand a c
  · split
    · exact hor a b
    · exact hand a b
  · split
    · exact hR.pure _
    · split
      · exact hR.pure _
      · exact hdefine fun out => majorityClauses out a b c

/-- An adder goes through the digits, with a sum and a carry for each of them. -/
theorem moves_adder (a b : List Literal) (carry : Literal) : Moves P R (adder a b carry) := by
  induction a generalizing b carry with
  | nil => exact hR.pure _
  | cons a as ih =>
    cases b with
    | nil => exact hR.pure _
    | cons b bs =>
      refine hR.bind (moves_xorGate hR hdefine a b) fun half =>
        hR.bind (moves_xorGate hR hdefine half carry) fun sum => ?_
      split
      · exact hR.pure _
      · exact hR.bind (moves_majorityGate hR hdefine a b carry) fun carry =>
          hR.bind (ih bs carry) fun _ => hR.pure _

/-- Each digit of the second factor adds a shifted row of conjunctions. -/
theorem moves_addProducts (a bs : List Literal) (shift : Nat) (acc : List Literal) :
    Moves P R (addProducts a bs shift acc) := by
  induction bs generalizing shift acc with
  | nil => exact hR.pure _
  | cons b bs ih =>
    refine hR.bind (moves_look hR _) fun x => ?_
    split
    · exact ih _ _
    · refine hR.bind (moves_look hR _) fun zero => ?_
      refine hR.bind (hR.mapM _ fun x _ => moves_andGate hR hdefine x b) fun row => ?_
      exact hR.bind (moves_adder hR hdefine acc _ zero) fun acc => ih _ acc

theorem moves_multiplier (a b : List Literal) : Moves P R (multiplier a b) :=
  hR.bind (moves_look hR _) fun _ => moves_addProducts hR hdefine a b 0 _

/-- A word is negated by adding one to its complement. -/
theorem moves_negater (a : List Literal) : Moves P R (negater a) :=
  hR.bind (moves_look hR _) fun _ => moves_adder hR hdefine _ _ _

/-- Words are equal when no two digits differ. -/
theorem moves_equalGate (a b : List Literal) : Moves P R (equalGate a b) :=
  hR.bind (moves_look hR _) fun l => hR.foldlM _ l fun acc (x, y) _ =>
    hR.bind (moves_xorGate hR hdefine x y) fun d => moves_andGate hR hdefine acc d.neg

/-- A comparison is the last carry of a subtraction. -/
theorem moves_geGate (a b : List Literal) : Moves P R (geGate a b) :=
  hR.bind (moves_look hR _) fun l => hR.foldlM _ l fun carry (x, y) _ =>
    moves_majorityGate hR hdefine x y.neg carry

end Entail.Work
