import Entail.Bits
import Entail.Context.Gates
import Entail.Proofs.Search.Progress
import Entail.Proofs.Search.Vocabulary

/-!
# What the clauses of gates say

Clauses define the output of a gate: a valuation of the variables satisfies them exactly when the
output has the truth value that the gate computes. What a core holds after a clause was added
entails the clause and what was held before, however the clause was rewritten on the way.
-/

namespace Entail

namespace Literal

variable {a b : Nat → Bool} {l : Literal}

/-- Truth value of a literal. -/
def eval (a : Nat → Bool) (l : Literal) : Bool := a l.var != l.isNegated

/-- A literal holds under an assignment where it evaluates to true. -/
theorem holds_iff : l.Holds a ↔ l.eval a = true := by
  unfold Holds eval
  cases a l.var <;> cases l.isNegated <;> simp

@[simp] theorem eval_neg (a : Nat → Bool) (l : Literal) : l.neg.eval a = !l.eval a := by
  unfold eval
  rw [var_neg, isNegated_neg]
  cases a l.var <;> cases l.isNegated <;> rfl

theorem eval_negIf (a : Nat → Bool) (flip : Bool) (l : Literal) :
    (l.negIf flip).eval a = (l.eval a != flip) := by
  cases flip with
  | false => exact (Bool.bne_false _).symm
  | true => exact (eval_neg a l).trans (Bool.bne_true _).symm

@[simp] theorem eval_pos (a : Nat → Bool) (v : Nat) : (pos v).eval a = a v := by simp [eval]

@[simp] theorem var_negIf (flip : Bool) (l : Literal) : (l.negIf flip).var = l.var := by
  cases flip with
  | false => rfl
  | true => exact var_neg l

/-- The number that a word makes. -/
def number (a : Nat → Bool) (word : List Literal) : Nat := Bits.ofBits (word.map (·.eval a))

theorem number_cons (a : Nat → Bool) (l : Literal) (word : List Literal) :
    number a (l :: word) = (l.eval a).toNat + 2 * number a word := rfl

/-- A literal looks at its own variable only. -/
theorem eval_congr (h : a l.var = b l.var) : l.eval a = l.eval b := by
  unfold eval
  rw [h]

end Literal

namespace Search

variable {a b : Nat → Bool} {cs ds : List (List Literal)} {ls : List Literal}

/-- A valuation satisfies every one of the clauses. -/
def Meets (a : Nat → Bool) (cs : List (List Literal)) : Prop := ∀ ls ∈ cs, ∃ l ∈ ls, l.eval a = true

theorem meets_nil (a : Nat → Bool) : Meets a [] := List.forall_mem_nil _

/-- Two lists of clauses are met where both are. -/
theorem meets_append : Meets a (cs ++ ds) ↔ Meets a cs ∧ Meets a ds := List.forall_mem_append

theorem meets_singleton : Meets a [ls] ↔ ∃ l ∈ ls, l.eval a = true := List.forall_mem_singleton

/-- Literals over variables on which two valuations agree have the same truth values. -/
theorem Over.eval_eq {vs : Nat → Prop} (h : Over vs ls) (hab : ∀ v, vs v → a v = b v) {l : Literal}
    (hl : l ∈ ls) :
    l.eval a = l.eval b :=
  Literal.eval_congr (hab _ (h l hl))

theorem over_cons {vs : Nat → Prop} {l : Literal} : Over vs (l :: ls) ↔ vs l.var ∧ Over vs ls :=
  List.forall_mem_cons

theorem over_pair {vs : Nat → Prop} {k l : Literal} : Over vs [k, l] ↔ vs k.var ∧ vs l.var := by
  simp [Over]

theorem over_triple {vs : Nat → Prop} {j k l : Literal} :
    Over vs [j, k, l] ↔ vs j.var ∧ vs k.var ∧ vs l.var := by
  simp [Over]

theorem over_append {vs : Nat → Prop} {ks : List Literal} :
    Over vs (ks ++ ls) ↔ Over vs ks ∧ Over vs ls :=
  List.forall_mem_append

/-- Clauses over some variables are met or not by the values of these alone. -/
theorem Meets.congr {vs : Nat → Prop} (h : Meets a cs) (hcs : ∀ ls ∈ cs, Over vs ls)
    (hab : ∀ v, vs v → a v = b v) :
    Meets b cs := by
  intro ls hls
  obtain ⟨l, hl, heval⟩ := h ls hls
  exact ⟨l, hl, ((hcs ls hls).eval_eq hab hl).symm.trans heval⟩

/-- A word over some variables has its number from the values of these alone. -/
theorem Over.number_eq {vs : Nat → Prop} (h : Over vs ls) (hab : ∀ v, vs v → a v = b v) :
    Literal.number a ls = Literal.number b ls :=
  congrArg Bits.ofBits (List.map_congr_left fun _ hl => h.eval_eq hab hl)

/-! ## Gates -/

open Work

/-- Everything that is known of a clause is in the truth values of its literals. -/
theorem meets_orClauses (a : Nat → Bool) (out : Literal) (ls : List Literal) :
    Meets a (orClauses out ls) ↔ out.eval a = ls.any (·.eval a) := by
  have hrow (l : Literal) : (∃ k ∈ [out, l.neg], k.eval a = true) ↔
      (l.eval a = true → out.eval a = true) := by
    simp only [List.mem_cons, List.not_mem_nil, or_false, exists_eq_or_imp, exists_eq_left,
      Literal.eval_neg]
    cases out.eval a <;> cases l.eval a <;> simp
  have hlast : (∃ k ∈ out.neg :: ls, k.eval a = true) ↔
      (out.eval a = true → ls.any (·.eval a) = true) := by
    rw [List.any_eq_true]
    simp only [List.mem_cons, exists_eq_or_imp, Literal.eval_neg]
    cases out.eval a <;> simp
  unfold orClauses
  rw [meets_append, meets_singleton, hlast]
  unfold Meets
  rw [List.forall_mem_map]
  constructor
  · rintro ⟨hrows, hlast⟩
    rw [Bool.eq_iff_iff]
    refine ⟨hlast, fun hany => ?_⟩
    obtain ⟨l, hl, heval⟩ := List.any_eq_true.mp hany
    exact (hrow l).mp (hrows l hl) heval
  · intro heq
    refine ⟨fun l hl => (hrow l).mpr fun heval => ?_, fun hout => heq ▸ hout⟩
    exact heq.trans (List.any_eq_true.mpr ⟨l, hl, heval⟩)

/-- The clauses of an exclusive disjunction are met where the output is what the inputs make it. -/
theorem meets_xorClauses (a : Nat → Bool) (out x y : Literal) :
    Meets a (xorClauses out x y) ↔ out.eval a = (x.eval a != y.eval a) := by
  simp only [Meets, xorClauses, List.mem_cons, List.not_mem_nil, or_false,
    forall_eq_or_imp, forall_eq,
    exists_eq_or_imp, exists_eq_left, Literal.eval_neg]
  cases out.eval a <;> cases x.eval a <;> cases y.eval a <;> simp

/-- The clauses of a choice are met where the output is the branch that the condition selects. -/
theorem meets_iteClauses (a : Nat → Bool) (out c x y : Literal) :
    Meets a (iteClauses out c x y) ↔ out.eval a = if c.eval a then x.eval a else y.eval a := by
  simp only [Meets, iteClauses, List.mem_cons, List.not_mem_nil, or_false,
    forall_eq_or_imp, forall_eq,
    exists_eq_or_imp, exists_eq_left, Literal.eval_neg]
  cases out.eval a <;> cases c.eval a <;> cases x.eval a <;> cases y.eval a <;> simp

/-- The clauses of a majority are met where the output is the value of two of the inputs at
least. -/
theorem meets_majorityClauses (a : Nat → Bool) (out x y z : Literal) :
    Meets a (majorityClauses out x y z) ↔ out.eval a = Bool.atLeastTwo (x.eval a) (y.eval a)
      (z.eval a) := by
  simp only [Meets, majorityClauses, List.mem_cons, List.not_mem_nil, or_false,
    forall_eq_or_imp, forall_eq,
    exists_eq_or_imp, exists_eq_left, Literal.eval_neg]
  cases out.eval a <;> cases x.eval a <;> cases y.eval a <;> cases z.eval a <;>
    simp [Bool.atLeastTwo]

/-! ## Adding clauses -/

/-- A valuation satisfies the clauses and units, and none is empty. -/
structure Kept.Models (a : Nat → Bool) (k : Kept) : Prop where
  clause : ∀ {n cl}, k.clauses n = some cl → ∃ l ∈ cl.1, l.eval a = true
  unit : ∀ {u}, u ∈ k.units → u.1.eval a = true
  empty : k.empty = none

namespace Database

variable {d : Database} {depth scope : Nat}

theorem all_models : d.all.Models a ↔ d.Models a := by
  refine ⟨fun h => ⟨fun hcl => ?_, fun hu => ?_, h.empty⟩, fun h =>
    ⟨fun hcl => ?_, fun hu => ?_, h.empty⟩⟩
  · obtain ⟨l, hl, heval⟩ := h.clause hcl
    exact ⟨l, hl, Literal.holds_iff.mpr heval⟩
  · exact Literal.holds_iff.mpr (h.unit (Array.mem_toList_iff.mpr hu))
  · obtain ⟨l, hl, hholds⟩ := h.clause hcl
    exact ⟨l, hl, Literal.holds_iff.mp hholds⟩
  · exact Literal.holds_iff.mp (h.unit (Array.mem_toList_iff.mp hu))

/-- What is held after a clause was added is the clause and what was held. -/
theorem all_models_add (hd : d.Ok depth) :
    (d.add ls scope).all.Models a ↔ d.all.Models a ∧ ∃ l ∈ ls, l.eval a = true := by
  simp only [all_models, models_add hd ls scope, Literal.holds_iff]

/-- Adds clauses, one after the other. -/
def addAll (d : Database) (cs : List (List Literal)) (scope : Nat) : Database :=
  cs.foldl (fun d ls => d.add ls scope) d

/-- Clauses may be added in two parts. -/
theorem addAll_append (d : Database) (cs ds : List (List Literal)) (scope : Nat) :
    d.addAll (cs ++ ds) scope = (d.addAll cs scope).addAll ds scope := List.foldl_append

/-- What satisfies a database after clauses were added satisfied it before, and meets the
clauses. -/
theorem models_addAll (hd : d.Ok depth) :
    (d.addAll cs depth).all.Models a ↔ d.all.Models a ∧ Meets a cs := by
  induction cs generalizing d with
  | nil => exact (and_iff_left (meets_nil a)).symm
  | cons ls cs ih =>
    rw [show d.addAll (ls :: cs) depth = (d.add ls depth).addAll cs depth from rfl,
      ih (grows_add hd ls).ok,
      all_models_add hd, and_assoc]
    exact and_congr_right fun _ =>
      (List.forall_mem_cons (p := fun ls : List Literal => ∃ l ∈ ls, l.eval a = true)).symm

/-- Merging scopes loses no clause. -/
theorem all_models_merge (h : (d.merge depth).all.Models a) : d.all.Models a :=
  all_models.mpr ((models_merge depth).mp (all_models.mp h))

end Database

/-- What is held after a clause was learned entails what was held. -/
theorem models_learn {c : Core} {depth scope : Nat} (hc : c.db.Ok depth)
    (h : (c.learn ls scope).db.all.Models a) :
    c.db.all.Models a := by
  unfold Core.learn at h
  dsimp only at h
  split at h
  · exact h
  next l =>
    rw [Core.db_enqueue] at h
    exact Database.all_models.mpr ((Database.models_addUnit l scope).mp
      (Database.all_models.mp h)).1
  next first second rest =>
    rw [Core.db_enqueue, Core.db_storeClause] at h
    exact Database.all_models.mpr ((Database.models_store hc _).mp (Database.all_models.mp h)).1

end Search
end Entail
