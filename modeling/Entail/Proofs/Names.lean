import Entail.Names
import Mathlib.Tactic.Common
import Std.Data.HashMap.Lemmas

/-!
# Names

A value has a name when it is on the stack of some name or has a base name. Forgetting a value
takes it out of every stack and leaves the order of the rest. In every table that operations lead
to, a value is on the stack of its base name. Taking a name back undoes giving it, with one
exception: a value whose base name was already the name given loses its base name, although it
still bears the name.
-/

namespace Entail.Names

variable {α : Type} [BEq α] [Hashable α] [LawfulBEq α] [LawfulHashable α]

/-- Some name was given to `v`, or `v` has a base name. -/
def Bears (n : Names α) (v : α) : Prop :=
  (∃ name, v ∈ n.stack name) ∨ ∃ name, n.nameOf? v = some name

omit [LawfulBEq α] [LawfulHashable α] in
theorem mem_stack {n : Names α} {name : String} {v : α} :
    v ∈ n.stack name ↔ ∃ vs, n.bearers[name]? = some vs ∧ v ∈ vs := by
  unfold stack
  rw [Std.HashMap.getD_eq_getD_getElem?]
  cases n.bearers[name]? <;> simp

theorem mem_values {n : Names α} {v : α} : v ∈ n.values ↔ n.Bears v := by
  unfold values Bears nameOf?
  rw [List.mem_append, List.mem_flatMap, Std.HashMap.mem_keys]
  refine or_congr ⟨?_, ?_⟩ ?_
  · rintro ⟨⟨name, vs⟩, he, hv⟩
    exact ⟨name, mem_stack.mpr ⟨vs, Std.HashMap.mem_toList_iff_getElem?_eq_some.mp he, hv⟩⟩
  · rintro ⟨name, hv⟩
    obtain ⟨vs, he, hv⟩ := mem_stack.mp hv
    exact ⟨(name, vs), Std.HashMap.mem_toList_iff_getElem?_eq_some.mpr he, hv⟩
  · rw [← Option.isSome_iff_exists, Std.HashMap.isSome_getElem?_iff_mem]

omit [LawfulHashable α] in
theorem stack_forget (n : Names α) (v : α) (name : String) :
    (n.forget v).stack name = (n.stack name).filter (· != v) := by
  unfold forget stack
  rw [Std.HashMap.getD_eq_getD_getElem?, Std.HashMap.getD_eq_getD_getElem?,
    Std.HashMap.getElem?_filterMap']
  cases n.bearers[name]? with
  | none => rfl
  | some vs =>
    simp only [Option.bind_some, Option.getD_some]
    split
    next hempty => simpa using (List.isEmpty_iff.mp hempty).symm
    next => rfl

theorem nameOf?_forget (n : Names α) (v u : α) :
    (n.forget v).nameOf? u = if v == u then none else n.nameOf? u := by
  unfold forget nameOf?
  rw [Std.HashMap.getElem?_erase]

omit [LawfulBEq α] [LawfulHashable α] in
/-- Forgetting values one after the other, each time a few. -/
theorem foldl_forget {ι : Type} (f : Names α → ι → Names α) (p : ι → α → Bool)
    (hstack : ∀ n i name, (f n i).stack name = (n.stack name).filter fun v => !p i v)
    (hname : ∀ n i v, (f n i).nameOf? v = if p i v then none else n.nameOf? v) (is : List ι)
    (n : Names α) :
    (∀ name, (is.foldl f n).stack name = (n.stack name).filter fun v => !is.any (p · v)) ∧
      ∀ v, (is.foldl f n).nameOf? v = if is.any (p · v) then none else n.nameOf? v := by
  induction is generalizing n with
  | nil => exact ⟨fun name => (List.filter_eq_self.mpr (by simp)).symm, fun v => rfl⟩
  | cons i is ih =>
    obtain ⟨hs, hn⟩ := ih (f n i)
    refine ⟨fun name => ?_, fun v => ?_⟩
    · rw [List.foldl_cons, hs, hstack, List.filter_filter]
      congr 1
      funext v
      simp [Bool.and_comm]
    · rw [List.foldl_cons, hn, hname, List.any_cons]
      cases p i v <;> cases is.any (p · v) <;> rfl

end Entail.Names

namespace Entail.Names

/-! ## What operations lead to -/

variable {α : Type} [BEq α] [Hashable α]

/-- Tables that giving, taking back, clearing and forgetting lead to. -/
inductive Reached : Names α → Prop where
  | empty : Reached empty
  | give {n : Names α} (name : String) (value : α) : Reached n → Reached (n.give name value)
  | remove {n : Names α} (name : String) : Reached n → Reached (n.remove name).2
  | clear {n : Names α} (value : α) : Reached n → Reached (n.clear value)
  | forget {n : Names α} (value : α) : Reached n → Reached (n.forget value)

/-- Two tables with the same answers. -/
structure Answers (n n' : Names α) : Prop where
  find? (name : String) : n.find? name = n'.find? name
  nameOf? (value : α) : n.nameOf? value = n'.nameOf? value

/-- Every value is on the stack of its base name. -/
def Grounded (n : Names α) : Prop :=
  ∀ {value : α} {name : String}, n.nameOf? value = some name → value ∈ n.stack name

/-! ## What the operations do -/

@[simp] theorem stack_empty (name : String) : (empty : Names α).stack name = [] := by
  simp [stack, empty]

@[simp] theorem nameOf?_empty (value : α) : (empty : Names α).nameOf? value = none := by
  simp [nameOf?, empty]

theorem stack_setStack (n : Names α) (name : String) (vs : List α) (other : String) :
    (n.setStack name vs).stack other = if name == other then vs else n.stack other := by
  cases vs with
  | nil => exact Std.HashMap.getD_erase
  | cons v vs => exact Std.HashMap.getD_insert

@[simp] theorem nameOf?_setStack (n : Names α) (name : String) (vs : List α) (value : α) :
    (n.setStack name vs).nameOf? value = n.nameOf? value := by
  cases vs <;> rfl

theorem stack_give (n : Names α) (name : String) (value : α) (other : String) :
    (n.give name value).stack other = if name == other then value :: n.stack name
      else n.stack other :=
  stack_setStack n name (value :: n.stack name) other

theorem find?_give_self (n : Names α) (name : String) (value : α) :
    (n.give name value).find? name = some value := by
  rw [find?, stack_give, beq_self_eq_true, if_pos rfl, List.head?_cons]

theorem stack_remove (n : Names α) (name other : String) :
    (n.remove name).2.stack other = if name == other then (n.stack name).tail
      else n.stack other := by
  unfold remove
  split
  next hnil =>
    split
    next heq => rw [← eq_of_beq heq, hnil, List.tail_nil]
    next => rfl
  next v rest hcons =>
    rw [hcons, List.tail_cons, ← stack_setStack n name rest other]
    dsimp only
    split <;> rfl

theorem remove_fst (n : Names α) (name : String) : (n.remove name).1 = n.find? name := by
  unfold remove find?
  split
  next hnil => rw [hnil, List.head?_nil]
  next v rest hcons => rw [hcons, List.head?_cons]

variable [LawfulBEq α] [LawfulHashable α]

/-- A value keeps the base name it has. -/
theorem nameOf?_give (n : Names α) (name : String) (value u : α) :
    (n.give name value).nameOf? u = if value == u then some ((n.nameOf? u).getD name)
      else n.nameOf? u := by
  show (n.base.insertIfNew value name)[u]? = _
  rw [Std.HashMap.getElem?_insertIfNew]
  by_cases heq : value = u
  · subst heq
    by_cases hmem : value ∈ n.base
    · simp [nameOf?, hmem]
    · simp [nameOf?, hmem]
  · simp [nameOf?, heq]

/-- The value that is taken off a name loses its base name if that is the name. -/
theorem nameOf?_remove (n : Names α) (name : String) (u : α) :
    (n.remove name).2.nameOf? u =
      if n.find? name == some u && n.nameOf? u == some name then none else n.nameOf? u := by
  unfold remove find?
  split
  next hnil => simp [hnil]
  next v rest hcons =>
    rw [hcons, List.head?_cons]
    dsimp only
    rw [nameOf?_setStack]
    by_cases hv : v = u
    · subst hv
      split
      next hname =>
        rw [hname, beq_self_eq_true, Bool.and_self, if_pos rfl]
        exact Std.HashMap.getElem?_erase_self
      next hname => simp [hname]
    · have hne : (some v == some u) = false := by simpa using hv
      rw [hne, Bool.false_and, if_neg Bool.false_ne_true]
      split
      · rw [← nameOf?_setStack n name rest u]
        exact Std.HashMap.getElem?_erase.trans (if_neg (by simpa using hv))
      · exact nameOf?_setStack n name rest u

theorem nameOf?_clear (n : Names α) (value u : α) :
    (n.clear value).nameOf? u = if value == u then none else n.nameOf? u := by
  have herase (n : Names α) :
      nameOf? { n with base := n.base.erase value } u = if value == u then none else n.nameOf? u :=
    Std.HashMap.getElem?_erase
  unfold clear
  split
  next hnone =>
    split
    next heq => rw [← eq_of_beq heq, hnone]
    next => rfl
  next name _ =>
    dsimp only
    split
    · split
      · rw [nameOf?_setStack, herase]
      · exact herase n
    · exact herase n

omit [LawfulHashable α] in
/-- Clearing a value takes it off no stack but that of its base name. -/
theorem mem_stack_clear {n : Names α} {value u : α} {name : String} (hne : u ≠ value)
    (hu : u ∈ n.stack name) :
    u ∈ (n.clear value).stack name := by
  unfold clear
  split
  · exact hu
  next base _ =>
    dsimp only
    split
    next v rest hcons =>
      change n.stack base = v :: rest at hcons
      split
      next hv =>
        rw [stack_setStack]
        split
        next heq =>
          rw [← eq_of_beq heq, hcons] at hu
          exact (List.mem_cons.mp hu).resolve_left fun h => hne (h.trans (eq_of_beq hv))
        next => exact hu
      next => exact hu
    next => exact hu

/-! ## Values bear their base names -/

theorem Grounded.give {n : Names α} (h : n.Grounded) (name : String) (value : α) :
    (n.give name value).Grounded := by
  intro u other hu
  have hmem : u ∈ n.stack other → u ∈ (n.give name value).stack other := by
    rw [stack_give]
    split
    next heq => exact eq_of_beq heq ▸ List.mem_cons_of_mem value
    next => exact id
  rw [nameOf?_give] at hu
  split at hu
  next hnew =>
    cases hbase : n.nameOf? u with
    | some base =>
      rw [hbase] at hu
      exact hmem (h (hbase.trans hu))
    | none =>
      -- `other` is the name given, as the first name of its value
      rw [hbase] at hu
      obtain rfl : name = other := Option.some.inj hu
      rw [stack_give, beq_self_eq_true, if_pos rfl, eq_of_beq hnew]
      exact List.mem_cons_self
  next => exact hmem (h hu)

theorem Grounded.remove {n : Names α} (h : n.Grounded) (name : String) :
    (n.remove name).2.Grounded := by
  intro u other hu
  rw [nameOf?_remove] at hu
  rw [stack_remove]
  split at hu
  next => cases hu
  next hkept =>
    have hmem := h hu
    split
    next heq =>
      -- the value is not the one on top, or `name` would be its base name no longer
      obtain rfl := eq_of_beq heq
      cases hs : n.stack name with
      | nil => simp [hs] at hmem
      | cons v rest =>
        rw [hs] at hmem
        refine (List.mem_cons.mp hmem).resolve_left fun htop => hkept ?_
        rw [find?, hs, hu, ← htop, List.head?_cons, beq_self_eq_true, beq_self_eq_true,
          Bool.and_self]
    next => exact hmem

theorem Grounded.clear {n : Names α} (h : n.Grounded) (value : α) : (n.clear value).Grounded := by
  intro u name hu
  rw [nameOf?_clear] at hu
  split at hu
  next => cases hu
  next hne =>
    refine mem_stack_clear (fun heq => hne ?_) (h hu)
    rw [heq, beq_self_eq_true]

theorem Grounded.forget {n : Names α} (h : n.Grounded) (value : α) : (n.forget value).Grounded := by
  intro u name hu
  rw [nameOf?_forget] at hu
  split at hu
  next => cases hu
  next hne =>
    rw [stack_forget, List.mem_filter]
    refine ⟨h hu, ?_⟩
    rw [bne_iff_ne]
    intro heq
    rw [heq, beq_self_eq_true] at hne
    exact hne rfl

/-- In every table that operations lead to, a value is on the stack of its base name. -/
theorem Reached.grounded {n : Names α} (h : n.Reached) : n.Grounded := by
  induction h with
  | empty =>
    intro value name hname
    rw [nameOf?_empty] at hname
    cases hname
  | give name value _ ih => exact ih.give name value
  | remove name _ ih => exact ih.remove name
  | clear value _ ih => exact ih.clear value
  | forget value _ ih => exact ih.forget value

/-! ## Giving and taking back -/

omit [LawfulBEq α] [LawfulHashable α] in
theorem stack_remove_give (n : Names α) (name : String) (value : α) (other : String) :
    ((n.give name value).remove name).2.stack other = n.stack other := by
  rw [stack_remove, stack_give, stack_give, beq_self_eq_true, if_pos rfl, List.tail_cons]
  split
  next heq => rw [eq_of_beq heq]
  next => rfl

/-- A base name is lost when it is given again and taken back; all others are as before. -/
theorem nameOf?_remove_give (n : Names α) (name : String) (value u : α) :
    ((n.give name value).remove name).2.nameOf? u =
      if value == u && n.nameOf? u == some name then none else n.nameOf? u := by
  rw [nameOf?_remove, find?_give_self, nameOf?_give]
  by_cases heq : value = u
  · subst heq
    cases hbase : n.nameOf? value with
    | none => simp
    | some base => simp
  · simp [heq]

/-- Taking back the name just given answers the value and restores every name. All base names are
restored as well, unless the value had this base name before: then it loses it, although it still
bears the name. And values bear their base names. -/
theorem remove_give {n : Names α} (h : n.Reached) (name : String) (value : α) :
    ((n.give name value).remove name).1 = some value ∧
      (∀ other, ((n.give name value).remove name).2.stack other = n.stack other) ∧
      (((n.give name value).remove name).2.Answers n ↔ n.nameOf? value ≠ some name) ∧
      (n.nameOf? value = some name →
        ((n.give name value).remove name).2.nameOf? value = none ∧
          value ∈ ((n.give name value).remove name).2.stack name ∧
          ∀ u, u ≠ value → ((n.give name value).remove name).2.nameOf? u = n.nameOf? u) ∧
      ∀ u base, n.nameOf? u = some base → u ∈ n.stack base := by
  have hstack := stack_remove_give n name value
  have hlost (hname : n.nameOf? value = some name) :
      ((n.give name value).remove name).2.nameOf? value = none := by
    rw [nameOf?_remove_give, hname, beq_self_eq_true, beq_self_eq_true, Bool.and_self, if_pos rfl]
  have hkept {u : α} (hu : ¬(u = value ∧ n.nameOf? value = some name)) :
      ((n.give name value).remove name).2.nameOf? u = n.nameOf? u := by
    rw [nameOf?_remove_give, if_neg]
    intro hcond
    rw [Bool.and_eq_true, beq_iff_eq, beq_iff_eq] at hcond
    exact hu ⟨hcond.1.symm, hcond.1 ▸ hcond.2⟩
  refine ⟨(remove_fst _ name).trans (find?_give_self n name value), hstack,
    ⟨fun hsame hname => ?_, fun hname => ?_⟩,
    fun hname => ⟨hlost hname, ?_, fun u hu => hkept fun heq => hu heq.1⟩, fun u base => h.grounded⟩
  · have hbase := hsame.nameOf? value
    rw [hlost hname, hname] at hbase
    cases hbase
  · refine ⟨fun other => ?_, fun u => hkept fun heq => hname heq.2⟩
    rw [find?, hstack, find?]
  · rw [hstack]
    exact h.grounded hname

/-- A number that bears a name is given it once more and has it taken back: the name still stands
for the number, which has no base name any more. -/
theorem remove_give_again :
    let n := (empty : Names Nat).give "x" 7
    let r := (n.give "x" 7).remove "x"
    n.nameOf? 7 = some "x" ∧ r.1 = some 7 ∧ r.2.find? "x" = some 7 ∧ r.2.nameOf? 7 = none := by
  intro n r
  have hname : n.nameOf? 7 = some "x" := by
    rw [nameOf?_give, nameOf?_empty, beq_self_eq_true, if_pos rfl]
    rfl
  obtain ⟨hvalue, hstack, -, hlost, -⟩ := remove_give (.give "x" 7 .empty : n.Reached) "x" 7
  refine ⟨hname, hvalue, ?_, (hlost hname).1⟩
  rw [find?, hstack]
  exact find?_give_self empty "x" 7

end Entail.Names
