import Mathlib.Tactic.Common
import Std.Data.HashMap
import Std.Data.HashSet

/-!
# Tables that are taken back by a log

A scope is closed by erasing the keys that were logged since it was opened. `upTo` is what a
table is going to be then. New entries do not change it, as long as their keys are logged and
were not in it.
-/

namespace Entail

variable {ι κ ν : Type} [DecidableEq ι]

/-- The entries of a table whose keys are not among those logged after the first `count` ones. -/
def upTo (log : List ι) (count : Nat) (entry : κ → ι) (table : κ → Option ν) (k : κ) : Option ν :=
  if entry k ∈ log.drop count then none else table k

section

variable {log : List ι} {count : Nat} {entry : κ → ι} {table table' : κ → Option ν}

/-- A log that is not longer than `count` takes nothing back. -/
theorem upTo_of_length_le (h : log.length ≤ count) : upTo log count entry table = table := by
  funext k
  simp [upTo, List.drop_eq_nil_of_le h]

/-- A new key is logged. -/
theorem upTo_insert (hcount : count ≤ log.length) (hentry : ∀ i j, entry i = entry j → i = j)
    {k : κ} (hnew : upTo log count entry table k = none) (h : ∀ j, j ≠ k → table' j = table j) :
    upTo (log ++ [entry k]) count entry table' = upTo log count entry table := by
  funext j
  by_cases hj : j = k
  · subst hj
    rw [hnew]
    simp [upTo, List.drop_append_of_le_length hcount]
  · have hne : entry j ≠ entry k := fun he => hj (hentry j k he)
    simp [upTo, List.drop_append_of_le_length hcount, hne, h j hj]

/-- The log may have keys of other tables. -/
theorem upTo_other (hcount : count ≤ log.length) {i : ι} (h : ∀ k, entry k ≠ i) :
    upTo (log ++ [i]) count entry table = upTo log count entry table := by
  funext k
  simp [upTo, List.drop_append_of_le_length hcount, h k]

omit [DecidableEq ι] in
theorem drop_eq_append {m : Nat} (hmark : count ≤ m) (log : List ι) :
    log.drop count = (log.take m).drop count ++ log.drop m := by
  conv_lhs => rw [← List.take_append_drop m log]
  rw [List.drop_append, List.length_take, List.drop_drop]
  by_cases hlen : m ≤ log.length
  · rw [Nat.min_eq_left hlen, Nat.sub_eq_zero_of_le hmark, Nat.add_zero]
  · have hnil : log.drop m = [] := List.drop_eq_nil_of_le (by omega)
    rw [hnil, show log.drop (m + (count - min m log.length)) = []
      from List.drop_eq_nil_of_le (by omega)]

/-- Taking something back does not change what is taken back later. -/
theorem upTo_take {m : Nat} (hmark : count ≤ m) (h : ∀ k, table' k = upTo log m entry table k) :
    upTo (log.take m) count entry table' = upTo log count entry table := by
  funext k
  unfold upTo at h ⊢
  rw [h, drop_eq_append hmark log]
  by_cases hlow : entry k ∈ (log.take m).drop count <;> simp [hlow]

end

/-! ## Erasing a list of keys -/

variable [DecidableEq κ] [Hashable κ]

theorem getElem?_foldl_erase (ks : List κ) (m : Std.HashMap κ ν) (k : κ) :
    (ks.foldl (fun m k => m.erase k) m)[k]? = if k ∈ ks then none else m[k]? := by
  induction ks generalizing m with
  | nil => simp
  | cons j ks ih =>
    rw [List.foldl_cons, ih, Std.HashMap.getElem?_erase]
    by_cases hk : k ∈ ks
    · simp [hk]
    · by_cases hj : j = k
      · simp [hj]
      · simp [hk, hj, Ne.symm hj]

theorem mem_foldl_erase (ks : List κ) (m : Std.HashSet κ) (k : κ) :
    k ∈ ks.foldl (fun m k => m.erase k) m ↔ k ∈ m ∧ k ∉ ks := by
  induction ks generalizing m with
  | nil => simp
  | cons j ks ih =>
    rw [List.foldl_cons, ih, Std.HashSet.mem_erase]
    simp only [List.mem_cons, not_or, beq_eq_false_iff_ne, ne_eq]
    constructor
    · rintro ⟨⟨hj, hm⟩, hk⟩
      exact ⟨hm, fun h => hj h.symm, hk⟩
    · rintro ⟨hm, hj, hk⟩
      exact ⟨⟨fun h => hj h.symm, hm⟩, hk⟩

/-- The values of a table are those that are found in it. -/
theorem mem_values {m : Std.HashMap κ ν} {v : ν} : v ∈ m.values ↔ ∃ k : κ, m[k]? = some v := by
  have hvalues : m.values = m.toList.map (·.2) := by
    show m.inner.inner.values = (Std.DHashMap.Raw.Const.toList m.inner.inner).map (·.2)
    rw [Std.DHashMap.Internal.Raw.values_eq_values_toListModel,
      Std.DHashMap.Internal.Raw.Const.toList_eq_toListModel_map, Std.Internal.List.values_eq_map,
        List.map_map]
    rfl
  rw [hvalues, List.mem_map]
  constructor
  · rintro ⟨⟨k, u⟩, hk, rfl⟩
    exact ⟨k, Std.HashMap.mem_toList_iff_getElem?_eq_some.mp hk⟩
  · rintro ⟨k, hk⟩
    exact ⟨(k, v), Std.HashMap.mem_toList_iff_getElem?_eq_some.mpr hk, rfl⟩

/-! ## Finding entries by their keys -/

section Index

variable {α : Type} {key : α → κ} {xs : Array α} {index : Std.HashMap κ Nat} {k : κ} {i : Nat}

/-- Key of the entry number `i`. -/
def keyAt (key : α → κ) (xs : Array α) (i : Nat) : Option κ := (xs[i]?).map key

/-- The numbers of the entries of `xs` are found by their keys. -/
def Indexes (key : α → κ) (xs : Array α) (index : Std.HashMap κ Nat) : Prop :=
  ∀ k i, index[k]? = some i ↔ keyAt key xs i = some k

omit [DecidableEq κ] [Hashable κ] in
theorem lt_of_keyAt (h : keyAt key xs i = some k) : i < xs.size := by
  by_contra hge
  rw [keyAt, Array.getElem?_eq_none (Nat.le_of_not_lt hge)] at h
  cases h

omit [DecidableEq κ] [Hashable κ] in
theorem keyAt_push (xs : Array α) (x : α) (i : Nat) :
    keyAt key (xs.push x) i = if i = xs.size then some (key x) else keyAt key xs i := by
  unfold keyAt
  rw [Array.getElem?_push]
  split <;> rfl

omit [DecidableEq κ] [Hashable κ] in
theorem getElem?_of_isPrefix {ys : Array α} (h : xs.toList <+: ys.toList) (hi : i < xs.size) :
    ys[i]? = xs[i]? := by
  obtain ⟨l, hl⟩ := h
  rw [← Array.getElem?_toList, ← hl, List.getElem?_append_left (by simpa using hi),
    Array.getElem?_toList]

omit [DecidableEq κ] [Hashable κ] in
theorem size_le_of_isPrefix {ys : Array α} (h : xs.toList <+: ys.toList) : xs.size ≤ ys.size := by
  simpa using h.length_le

omit [DecidableEq κ] [Hashable κ] in
theorem keyAt_of_isPrefix {ys : Array α} (h : xs.toList <+: ys.toList)
    (hk : keyAt key xs i = some k) :
    keyAt key ys i = some k := by
  rw [keyAt, getElem?_of_isPrefix h (lt_of_keyAt hk)]
  exact hk

theorem Indexes.empty : Indexes key #[] ∅ := by
  intro k i
  simp [keyAt]

/-- An entry with a new key may be added at the end. -/
theorem Indexes.push (h : Indexes key xs index) {x : α} (hnew : index[key x]? = none) :
    Indexes key (xs.push x) (index.insert (key x) xs.size) := by
  intro k i
  rw [keyAt_push, Std.HashMap.getElem?_insert]
  by_cases hk : key x = k
  · subst hk
    rw [if_pos (by simp)]
    by_cases hi : i = xs.size
    · simp [hi]
    · rw [if_neg hi, ← h, hnew]
      simp [Ne.symm hi]
  · rw [if_neg (by simpa using hk), h]
    by_cases hi : i = xs.size
    · subst hi
      simp only [if_true, Option.some.injEq, hk, iff_false]
      intro hkey
      exact absurd (lt_of_keyAt hkey) (Nat.lt_irrefl _)
    · rw [if_neg hi]

/-- The entries from number `count` on may be dropped with their keys. -/
theorem Indexes.take (h : Indexes key xs index) (count : Nat) :
    Indexes key (xs.take count) ((xs.toList.drop count).foldl
      (fun m x => m.erase (key x)) index) := by
  intro k i
  have hfold := getElem?_foldl_erase ((xs.toList.drop count).map key) index k
  rw [List.foldl_map] at hfold
  have htake : keyAt key (xs.take count) i = if i < count then keyAt key xs i else none := by
    unfold keyAt
    rw [← Array.getElem?_toList, Array.take_eq_extract, Array.toList_extract]
    simp only [List.extract_eq_take_drop, Nat.sub_zero, List.drop_zero, List.getElem?_take,
      Array.getElem?_toList]
    split <;> rfl
  have hmem : k ∈ (xs.toList.drop count).map key ↔ ∃ j, count ≤ j ∧ keyAt key xs j = some k := by
    rw [List.mem_iff_getElem?]
    simp only [List.getElem?_map, List.getElem?_drop, Array.getElem?_toList]
    constructor
    · rintro ⟨j, hj⟩
      exact ⟨count + j, Nat.le_add_right _ _, hj⟩
    · rintro ⟨j, hle, hj⟩
      exact ⟨j - count, by rwa [Nat.add_sub_cancel' hle]⟩
  rw [hfold, htake]
  split
  next hk =>
    obtain ⟨j, hle, hj⟩ := hmem.mp hk
    simp only [reduceCtorEq, false_iff]
    split
    next hi =>
      intro hik
      have := (h _ _).mpr hik
      rw [(h _ _).mpr hj, Option.some.injEq] at this
      omega
    next => exact nofun
  next hk =>
    rw [h]
    split
    next => rfl
    next hi =>
      simp only [reduceCtorEq, iff_false]
      exact fun hik => hk (hmem.mpr ⟨i, Nat.le_of_not_lt hi, hik⟩)

theorem Indexes.unique (h : Indexes key xs index) {j : Nat} (hi : keyAt key xs i = some k)
    (hj : keyAt key xs j = some k) : i = j := by
  have := (h _ _).mpr hi
  rw [(h _ _).mpr hj] at this
  exact (Option.some.inj this).symm

/-- A key in the index is that of an entry. -/
theorem Indexes.exists_of_mem (h : Indexes key xs index) (hk : k ∈ index) :
    ∃ x ∈ xs, key x = k := by
  obtain ⟨i, hi⟩ := Option.isSome_iff_exists.mp (Std.HashMap.isSome_getElem?_iff_mem.mpr hk)
  obtain ⟨x, hx, hkey⟩ := Option.map_eq_some_iff.mp ((h k i).mp hi)
  exact ⟨x, Array.mem_of_getElem? hx, hkey⟩

end Index
end Entail
