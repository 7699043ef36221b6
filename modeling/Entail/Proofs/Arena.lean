import Entail.Arena
import Mathlib.Data.List.Nodup
import Mathlib.Data.List.Perm.Basic
import Mathlib.Tactic.Common

/-!
# Arenas: slots and keys are inverse to each other

`Arena.Valid reserved a` says that the index of `a` finds exactly the keys its slots hold, and that
the free list holds every empty slot once, except for the first `reserved` ones, which are never
given out. The empty arena is valid, and interning and erasing keep an arena valid; each operation
is described by what it does to `get?`.
-/

namespace Entail.Arena

variable {κ ν : Type} [BEq κ] [Hashable κ]

/-- Slots and index are inverse to each other, and the free list holds the empty slots beyond the
first `reserved`. -/
structure Valid (reserved : Nat) (a : Arena κ ν) : Prop where
  get_of_find : ∀ {key i}, a.find? key = some i → ∃ v, a.get? i = some (key, v)
  find_of_get : ∀ {i key v}, a.get? i = some (key, v) → a.find? key = some i
  mem_free : ∀ {i}, i ∈ a.free ↔ i < a.slots.size ∧ reserved ≤ i ∧ a.get? i = none
  nodup_free : a.free.Nodup
  dead_of_reserved : ∀ {i}, i < reserved → a.get? i = none
  reserved_le : reserved ≤ a.slots.size

theorem lt_of_get? {a : Arena κ ν} {i : Nat} {x : κ × ν} (h : a.get? i = some x) :
    i < a.slots.size := by
  unfold get? at h
  by_contra hi
  rw [Array.getElem?_eq_none (by omega)] at h
  simp at h

theorem isLive_iff {a : Arena κ ν} {i : Nat} : a.isLive i = true ↔ ∃ x, a.get? i = some x := by
  unfold isLive
  rw [Option.isSome_iff_exists]

theorem get?_push (slots : Array (Option (κ × ν))) (index : Std.HashMap κ Nat) (free : List Nat)
    (x : Option (κ × ν)) (j : Nat) :
    get? ⟨slots.push x, index, free⟩ j = if j = slots.size then x
      else get? ⟨slots, index, free⟩ j := by
  unfold get?
  rw [Array.getElem?_push]
  split <;> simp

theorem get?_set {slots : Array (Option (κ × ν))} {i : Nat} (hi : i < slots.size)
    (index : Std.HashMap κ Nat) (free : List Nat) (x : Option (κ × ν)) (j : Nat) :
    get? ⟨slots.setIfInBounds i x, index, free⟩ j = if j = i then x
      else get? ⟨slots, index, free⟩ j := by
  unfold get?
  rw [Array.getElem?_setIfInBounds]
  by_cases hij : i = j
  · subst hij
    simp [hi]
  · simp [hij, Ne.symm hij]

@[simp] theorem get?_empty (reserved i : Nat) : (empty reserved : Arena κ ν).get? i = none := by
  unfold get? empty
  rw [Array.getElem?_replicate]
  split <;> rfl

@[simp] theorem find?_empty (reserved : Nat) (key : κ) :
    (empty reserved : Arena κ ν).find? key = none := by
  simp [find?, empty]

theorem valid_empty (reserved : Nat) : (empty reserved : Arena κ ν).Valid reserved where
  get_of_find h := by simp [find?, empty] at h
  find_of_get h := by simp at h
  mem_free := by
    intro i
    simp only [empty, List.not_mem_nil, Array.size_replicate, false_iff, not_and]
    intro hi hr
    omega
  nodup_free := List.nodup_nil
  dead_of_reserved _ := get?_empty _ _
  reserved_le := by simp [empty]

theorem intern_of_find {a : Arena κ ν} {key : κ} {i : Nat} (h : a.find? key = some i)
    (payload : ν) :
    a.intern key payload = (i, a) := by
  unfold find? at h
  simp [intern, h]

/-- What a slot holds was interned just now or before. -/
theorem get?_intern {a : Arena κ ν} {key : κ} {payload : ν} {i : Nat} {x : κ × ν}
    (h : (a.intern key payload).2.get? i = some x) : x = (key, payload) ∨ a.get? i = some x := by
  obtain ⟨slots, index, free⟩ := a
  unfold intern at h
  split at h
  · exact .inr h
  · cases free with
    | nil =>
      rw [show (⟨slots.push (some (key, payload)), index.insert key slots.size, []⟩ :
        Arena κ ν).get? i = _ from get?_push ..] at h
      split at h
      · exact .inl (Option.some.inj h).symm
      · exact .inr h
    | cons j free =>
      by_cases hj : j < slots.size
      · rw [show (⟨slots.setIfInBounds j (some (key, payload)), index.insert key j, free⟩ : Arena κ
          ν).get? i = _ from
          get?_set hj ..] at h
        split at h
        · exact .inl (Option.some.inj h).symm
        · exact .inr h
      · have hsame : slots.setIfInBounds j (some (key, payload)) = slots := by
          simp [Array.setIfInBounds, hj]
        rw [show (⟨slots, index, j :: free⟩ : Arena κ ν).get? i = some x from hsame ▸ h]
        exact .inr rfl

theorem get?_erase (a : Arena κ ν) (i j : Nat) :
    (a.erase i).get? j = if j = i then none else a.get? j := by
  cases hi : a.get? i with
  | none =>
    have herase : a.erase i = a := by simp [erase, hi]
    rw [herase]
    split
    next heq => rw [heq, hi]
    next => rfl
  | some x =>
    have herase : a.erase i = ⟨a.slots.setIfInBounds i none, a.index.erase x.1, i :: a.free⟩ := by
      simp [erase, hi]
    rw [herase, get?_set (lt_of_get? hi)]
    rfl

theorem mem_garbage {a : Arena κ ν} {marked : Nat → Bool} {i : Nat} :
    i ∈ a.garbage marked ↔ a.isLive i = true ∧ marked i = false := by
  unfold garbage
  simp only [List.mem_filter, List.mem_range, Bool.and_eq_true, Bool.not_eq_true',
    and_iff_right_iff_imp]
  intro h
  obtain ⟨x, hx⟩ := isLive_iff.mp h.1
  exact lt_of_get? hx

theorem length_garbage (a : Arena κ ν) (marked : Nat → Bool) :
    (a.garbage marked).length = (List.range a.slots.size).countP fun i =>
      decide (i ∈ a.garbage marked) := by
  have hcount : (a.garbage marked).length = (List.range a.slots.size).countP fun i =>
      a.isLive i && !marked i :=
    List.countP_eq_length_filter.symm
  rw [hcount]
  refine List.countP_congr fun i _ => ?_
  rw [decide_eq_true_eq, mem_garbage, Bool.and_eq_true, Bool.not_eq_true']

namespace Valid

variable {a : Arena κ ν} {reserved : Nat}

/-- A key is held by one slot only. -/
theorem slot_unique (h : a.Valid reserved) {i j : Nat} {key : κ} {v w : ν}
    (hi : a.get? i = some (key, v)) (hj : a.get? j = some (key, w)) : i = j := by
  have hij := h.find_of_get hi
  rw [h.find_of_get hj] at hij
  exact (Option.some.inj hij).symm

theorem find_eq_none (h : a.Valid reserved) {key : κ} (hkey : ∀ i v, a.get? i ≠ some (key, v)) :
    a.find? key = none := by
  cases hf : a.find? key with
  | none => rfl
  | some i =>
    obtain ⟨v, hi⟩ := h.get_of_find hf
    exact absurd hi (hkey i v)

/-- Every slot is reserved, free or filled. -/
theorem count_live (h : a.Valid reserved) :
    (List.range a.slots.size).countP a.isLive + a.free.length + reserved = a.slots.size := by
  have hperm : a.free.Perm ((List.range a.slots.size).filter fun i => !a.isLive i && !decide
      (i < reserved)) := by
    refine (List.perm_ext_iff_of_nodup h.nodup_free (List.nodup_range.filter _)).mpr ?_
    intro i
    rw [h.mem_free, List.mem_filter, List.mem_range]
    simp only [isLive, Bool.and_eq_true, Bool.not_eq_true', Option.isSome_eq_false_iff,
      Option.isNone_iff_eq_none,
      decide_eq_false_iff_not, Nat.not_lt]
    tauto
  have hreserved : (List.range a.slots.size).countP
      (fun i => !a.isLive i && decide (i < reserved)) = reserved := by
    have hle := h.reserved_le
    have hsplit : a.slots.size = reserved + (a.slots.size - reserved) := by omega
    rw [hsplit, List.range_add, List.countP_append]
    have h₁ : (List.range reserved).countP (fun i => !a.isLive i && decide (i < reserved)) =
        reserved := by
      rw [List.countP_eq_length.mpr, List.length_range]
      intro i hi
      rw [List.mem_range] at hi
      simp [isLive, h.dead_of_reserved hi, hi]
    have h₂ : ((List.range (a.slots.size - reserved)).map (reserved + ·)).countP
        (fun i => !a.isLive i && decide (i < reserved)) = 0 := by
      rw [List.countP_eq_zero]
      intro i hi
      obtain ⟨k, -, rfl⟩ := List.mem_map.mp hi
      simp
    omega
  have hlen := hperm.length_eq
  rw [← List.countP_eq_length_filter] at hlen
  have hall := List.length_eq_countP_add_countP a.isLive (l := List.range a.slots.size)
  have hdead : (List.range a.slots.size).countP (fun i => !a.isLive i) =
      (List.range a.slots.size).countP (fun i => !a.isLive i && !decide (i < reserved)) +
        (List.range a.slots.size).countP (fun i => !a.isLive i && decide (i < reserved)) := by
    generalize List.range a.slots.size = l
    induction l with
    | nil => rfl
    | cons i l ih =>
      simp only [List.countP_cons]
      cases a.isLive i <;> cases decide (i < reserved) <;> simp <;> omega
  rw [List.length_range] at hall
  have hnot : (List.range a.slots.size).countP (fun i => ¬a.isLive i = true) =
      (List.range a.slots.size).countP (fun i => !a.isLive i) := by
    congr 1
    funext i
    simp
  omega

variable [LawfulBEq κ] [LawfulHashable κ]

/-- Filling an empty slot `i` with a key that is not held, and taking `i` off the free list. -/
theorem fill (h : a.Valid reserved) {key : κ} {payload : ν} {i : Nat} {b : Arena κ ν}
    (hkey : a.find? key = none) (hdead : a.get? i = none) (hi : reserved ≤ i)
    (hget : ∀ j, b.get? j = if j = i then some (key, payload) else a.get? j)
    (hindex : b.index = a.index.insert key i)
    (hsize : ∀ j, j < b.slots.size ↔ j < a.slots.size ∨ j = i)
    (hfree : ∀ j, j ∈ b.free ↔ j ∈ a.free ∧ j ≠ i) (hnd : b.free.Nodup) : b.Valid reserved := by
  have hfind : ∀ k, b.find? k = if key == k then some i else a.find? k := by
    intro k
    unfold find?
    rw [hindex, Std.HashMap.getElem?_insert]
  constructor
  · intro k j hk
    rw [hfind] at hk
    rw [hget]
    split at hk
    next heq =>
      cases hk
      exact ⟨payload, by simp [eq_of_beq heq]⟩
    next =>
      obtain ⟨v, hj⟩ := h.get_of_find hk
      refine ⟨v, ?_⟩
      rw [if_neg, hj]
      intro hji
      rw [hji, hdead] at hj
      cases hj
  · intro j k v hj
    rw [hget] at hj
    rw [hfind]
    split at hj
    next heq =>
      cases hj
      simp [heq]
    next =>
      have hk := h.find_of_get hj
      rw [if_neg, hk]
      intro heq
      rw [← eq_of_beq heq, hkey] at hk
      cases hk
  · intro j
    rw [hfree, h.mem_free, hsize, hget]
    by_cases hji : j = i
    · simp [hji]
    · simp [hji]
  · exact hnd
  · intro j hj
    rw [hget, if_neg (by omega)]
    exact h.dead_of_reserved hj
  · by_contra hlt
    have hb := (hsize b.slots.size).not.mp (Nat.lt_irrefl _)
    have := h.reserved_le
    omega

/-- Emptying a slot `i` that holds a key, and putting `i` on the free list. -/
theorem clear (h : a.Valid reserved) {key : κ} {payload : ν} {i : Nat}
    (hi : a.get? i = some (key, payload)) :
    (a.erase i).Valid reserved := by
  have hlt := lt_of_get? hi
  have herase : a.erase i = ⟨a.slots.setIfInBounds i none, a.index.erase key, i :: a.free⟩ := by
    unfold erase
    rw [hi]
  have hget := get?_erase a i
  have hfind : ∀ k, (a.erase i).find? k = if key == k then none else a.find? k := by
    intro k
    rw [herase]
    exact Std.HashMap.getElem?_erase
  have hri : reserved ≤ i := by
    by_contra hlt'
    rw [h.dead_of_reserved (by omega)] at hi
    cases hi
  constructor
  · intro k j hk
    rw [hfind] at hk
    split at hk
    next => cases hk
    next hne =>
      obtain ⟨v, hj⟩ := h.get_of_find hk
      refine ⟨v, ?_⟩
      rw [hget, if_neg, hj]
      intro hji
      rw [hji, hi] at hj
      cases hj
      simp at hne
  · intro j k v hj
    rw [hget] at hj
    split at hj
    next => cases hj
    next hne =>
      rw [hfind, if_neg, h.find_of_get hj]
      intro heq
      have hk := eq_of_beq heq
      subst hk
      exact hne (h.slot_unique hj hi)
  · intro j
    have hfree : (a.erase i).free = i :: a.free := by rw [herase]
    have hsize : (a.erase i).slots.size = a.slots.size := by rw [herase]; simp
    rw [hfree, hsize, hget, List.mem_cons, h.mem_free]
    by_cases hji : j = i
    · simp [hji, hlt, hri]
    · simp [hji]
  · rw [herase]
    refine List.nodup_cons.mpr ⟨?_, h.nodup_free⟩
    intro hmem
    rw [(h.mem_free.mp hmem).2.2] at hi
    cases hi
  · intro j hj
    rw [hget, if_neg (by omega)]
    exact h.dead_of_reserved hj
  · rw [herase]
    simpa using h.reserved_le

theorem erase (h : a.Valid reserved) (i : Nat) : (a.erase i).Valid reserved := by
  cases hi : a.get? i with
  | none =>
    have herase : a.erase i = a := by simp [Arena.erase, hi]
    rwa [herase]
  | some x => exact h.clear hi

/-- Emptying slots one after the other. -/
theorem foldl_erase (h : a.Valid reserved) (is : List Nat) :
    (is.foldl Arena.erase a).Valid reserved ∧
      ∀ j, (is.foldl Arena.erase a).get? j = if j ∈ is then none else a.get? j := by
  induction is generalizing a with
  | nil => exact ⟨h, fun j => by simp⟩
  | cons i is ih =>
    obtain ⟨hv, hget⟩ := ih (h.erase i)
    refine ⟨hv, fun j => ?_⟩
    rw [List.foldl_cons, hget, get?_erase]
    by_cases hji : j = i
    · simp [hji]
    · simp [hji]

/-- A sweep empties the slots that are not marked. -/
theorem sweep (h : a.Valid reserved) (marked : Nat → Bool) :
    (a.sweep marked).2.Valid reserved ∧ ∀ j, (a.sweep marked).2.get? j = if marked j then a.get? j
      else none := by
  obtain ⟨hv, hget⟩ := h.foldl_erase (a.garbage marked)
  refine ⟨hv, fun j => (hget j).trans ?_⟩
  by_cases hj : marked j
  · simp [mem_garbage, hj]
  · cases hlive : a.get? j <;> simp [mem_garbage, isLive, hj, hlive]

/-- Interning a key that is not held fills an empty slot with it. -/
theorem intern_new (h : a.Valid reserved) {key : κ} (hkey : a.find? key = none) (payload : ν) :
    a.get? (a.intern key payload).1 = none ∧ reserved ≤ (a.intern key payload).1 ∧
      (∀ j, (a.intern key payload).2.get? j =
        if j = (a.intern key payload).1 then some (key, payload) else a.get? j) ∧
      (a.intern key payload).2.Valid reserved := by
  obtain ⟨slots, index, free⟩ := a
  have hidx : index[key]? = none := hkey
  -- the two ways of finding room differ only in the slot that is filled
  cases free with
  | nil =>
    have hin : intern (⟨slots, index, []⟩ : Arena κ ν) key payload =
        (slots.size, ⟨slots.push (some (key, payload)), index.insert key slots.size, []⟩) := by
      simp [intern, hidx]
    have hdead : get? (⟨slots, index, []⟩ : Arena κ ν) slots.size = none := by simp [get?]
    have hget : ∀ j, get? ⟨slots.push (some (key, payload)), index.insert key slots.size, []⟩ j =
        if j = slots.size then some (key, payload) else get? ⟨slots, index, []⟩ j := by
      intro j
      rw [get?_push]
      rfl
    rw [hin]
    refine ⟨hdead, h.reserved_le, hget, ?_⟩
    refine h.fill (i := slots.size) hkey hdead h.reserved_le hget rfl ?_ ?_ List.nodup_nil
    · intro j
      simp only [Array.size_push]
      omega
    · simp
  | cons i free =>
    have hin : intern (⟨slots, index, i :: free⟩ : Arena κ ν) key payload =
        (i, ⟨slots.setIfInBounds i (some (key, payload)), index.insert key i, free⟩) := by
      simp [intern, hidx]
    obtain ⟨hlt, hri, hdead⟩ := h.mem_free.mp (List.mem_cons_self (a := i) (l := free))
    have hget : ∀ j, get? ⟨slots.setIfInBounds i (some (key, payload)), index.insert key i,
      free⟩ j =
        if j = i then some (key, payload) else get? ⟨slots, index, i :: free⟩ j := by
      intro j
      rw [get?_set hlt]
      rfl
    have hnd := List.nodup_cons.mp h.nodup_free
    rw [hin]
    refine ⟨hdead, hri, hget, ?_⟩
    refine h.fill (i := i) hkey hdead hri hget rfl ?_ ?_ hnd.2
    · intro j
      simp only [Array.size_setIfInBounds]
      have hlt' : i < slots.size := hlt
      omega
    · intro j
      simp only [List.mem_cons]
      constructor
      · intro hj
        exact ⟨.inr hj, fun hji => hnd.1 (hji ▸ hj)⟩
      · rintro ⟨hj | hj, hne⟩
        · exact absurd hj hne
        · exact hj

/-- Interning never changes a slot that is filled, and leaves the key in the slot it answers. -/
theorem intern (h : a.Valid reserved) (key : κ) (payload : ν) :
    (a.intern key payload).2.Valid reserved ∧
      (∀ j x, a.get? j = some x → (a.intern key payload).2.get? j = some x) ∧
      ∃ v, (a.intern key payload).2.get? (a.intern key payload).1 = some (key, v) := by
  cases hf : a.find? key with
  | some i =>
    rw [intern_of_find hf]
    exact ⟨h, fun _ _ hj => hj, h.get_of_find hf⟩
  | none =>
    obtain ⟨hdead, -, hget, hv⟩ := h.intern_new hf payload
    refine ⟨hv, ?_, payload, ?_⟩
    · intro j x hj
      rw [hget, if_neg, hj]
      intro heq
      rw [heq, hdead] at hj
      cases hj
    · rw [hget, if_pos rfl]

end Valid
end Entail.Arena
