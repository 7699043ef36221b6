import Entail.Proofs.Variables
import Mathlib

/-!
# Histories of variables

A history lists what happened to variables since there were none: which listeners came, which
variables were given out and which were freed. It determines the variable that a new term gets,
which is the one freed last of those that are free, and what the listeners heard. At every point of
a history variables and terms are inverse to each other, and the free list holds every free
variable once.

A sweep frees unmarked variables, the smallest first, until as many are left as there are marks. So
it keeps an unmarked variable for every mark that is on no live variable, the greatest ones, and it
is exact only if there is no such mark.
-/

namespace Entail

namespace Arena

variable {κ ν : Type} [BEq κ] [Hashable κ] {a : Arena κ ν}

/-- A new key goes into the slot emptied last, or else into a slot behind all others. -/
theorem intern_slot {key : κ} (hkey : a.find? key = none) (payload : ν) :
    (a.intern key payload).1 = a.free.headD a.slots.size ∧
    (a.intern key payload).2.free = a.free.tail ∧
      (a.intern key payload).2.slots.size = a.slots.size + if a.free = [] then 1 else 0 := by
  obtain ⟨slots, index, free⟩ := a
  have hidx : index[key]? = none := hkey
  cases free with
  | nil => simp [intern, hidx]
  | cons i free => simp [intern, hidx]

theorem free_erase {i : Nat} (h : a.isLive i = true) :
    (a.erase i).free = i :: a.free ∧ (a.erase i).slots.size = a.slots.size := by
  obtain ⟨x, hx⟩ := isLive_iff.mp h
  simp [erase, hx]

/-- Slots that are emptied one after the other are given out again in the opposite order. -/
theorem free_foldl_erase {is : List Nat} (hnodup : is.Nodup) (hlive : ∀ i ∈ is, a.isLive i = true) :
    (is.foldl erase a).free = is.reverse ++ a.free ∧
    (is.foldl erase a).slots.size = a.slots.size := by
  induction is generalizing a with
  | nil => exact ⟨rfl, rfl⟩
  | cons i is ih =>
    rw [List.nodup_cons] at hnodup
    have hstill (j : Nat) (hj : j ∈ is) : (a.erase i).isLive j = true := by
      have hne : j ≠ i := fun heq => hnodup.1 (heq ▸ hj)
      unfold isLive
      rw [get?_erase, if_neg hne]
      exact hlive j (List.mem_cons_of_mem i hj)
    obtain ⟨hfree, hsize⟩ := free_erase (hlive i List.mem_cons_self)
    obtain ⟨hfree', hsize'⟩ := ih hnodup.2 hstill
    refine ⟨?_, hsize'.trans hsize⟩
    rw [List.foldl_cons, hfree', hfree, List.reverse_cons, List.append_assoc, List.singleton_append]

theorem nodup_garbage (a : Arena κ ν) (marked : Nat → Bool) : (a.garbage marked).Nodup :=
  List.nodup_range.filter _

end Arena

namespace Variables

variable {vs vs' : Variables} {t : Term} {v : Nat} {marks : Std.HashSet Nat} {dead : List Nat}

/-! ## Events -/

/-- What can happen to variables. -/
inductive Event where
  /-- A listener was added. -/
  | listening
  /-- Variable `v` was given to the term `t`. -/
  | given (v : Nat) (t : Term)
  /-- Variable `v` was freed. -/
  | freed (v : Nat)
deriving DecidableEq

namespace Event

/-- The variables that were freed, the last one first. -/
def freedLast (log : List Event) : List Nat :=
  (log.filterMap fun | .freed v => some v | _ => none).reverse

/-- What is heard in the course of events when `listeners` are there at first: every listener in
turn hears of each variable that is given out. -/
def announcements : (listeners : Nat) → List Event → List Announcement
  | _, [] => []
  | k, .listening :: log => announcements (k + 1) log
  | k, .given v t :: log => (List.range k).map (fun l => ⟨l, v, t⟩) ++ announcements k log
  | k, .freed _ :: log => announcements k log

variable {log log' : List Event}

theorem announcements_append (k : Nat) (log log' : List Event) :
    announcements k (log ++ log') = announcements k log ++ announcements
      (k + log.count .listening) log' := by
  induction log generalizing k with
  | nil => rfl
  | cons e log ih =>
    cases e with
    | listening =>
      rw [List.cons_append, announcements, announcements, ih, List.count_cons_self,
        Nat.add_right_comm, Nat.add_assoc]
    | given v t =>
      rw [List.cons_append, announcements, announcements, ih, List.append_assoc,
        List.count_cons_of_ne (by simp)]
    | freed v =>
      rw [List.cons_append, announcements, announcements, ih, List.count_cons_of_ne (by simp)]

theorem announcements_freed (k : Nat) (dead : List Nat) :
    announcements k (dead.map .freed) = [] := by
  induction dead with
  | nil => rfl
  | cons v dead ih => exact ih

theorem freedLast_append_freed (log : List Event) (dead : List Nat) :
    freedLast (log ++ dead.map .freed) = dead.reverse ++ freedLast log := by
  have hdead : (dead.map Event.freed).filterMap (fun | .freed v => some v | _ => none) = dead := by
    rw [List.filterMap_map]
    exact List.filterMap_some
  rw [freedLast, List.filterMap_append, hdead, List.reverse_append, freedLast]

@[simp] theorem freedLast_append_listening (log : List Event) :
    freedLast (log ++ [.listening]) = freedLast log := by
  simp [freedLast]

@[simp] theorem freedLast_append_given (log : List Event) (v : Nat) (t : Term) :
    freedLast (log ++ [.given v t]) = freedLast log := by
  simp [freedLast]

end Event

open Event

/-- Variables and what happened to them since there were none. -/
inductive History : Variables → List Event → Prop where
  | start : History empty []
  | listen {vs : Variables} {log : List Event} : History vs log →
    History vs.listen.2 (log ++ [.listening])
  | get {vs vs' : Variables} {log : List Event} {t : Term} {v : Nat} : History vs log →
    vs.get? t = some (v, vs') →
      History vs' (log ++ if vs.has t then [] else [.given v t])
  | sweep {vs vs' : Variables} {log : List Event} {marks : Std.HashSet Nat} {dead : List Nat} :
    History vs log →
      vs.sweep? marks = some (dead, vs') → History vs' (log ++ dead.map .freed)

/-! ## What the operations do -/

theorem get?_eq_some : vs.get? t = some (v, vs') ↔ t.isNegated = false ∧ vs.get t = (v, vs') := by
  unfold get?
  cases t.isNegated <;> simp

theorem get_of_find? (h : vs.find? t = some v) : vs.get t = (v, vs) := by
  unfold get
  rw [show vs.arena.find? t = some v from h]

/-- A new variable, and that every listener hears of it in turn. -/
theorem get_of_new (h : vs.find? t = none) :
    vs.get t = ((vs.arena.intern t ()).1,
      { vs with
        arena := (vs.arena.intern t ()).2
        heard := vs.heard ++ ((List.range vs.listeners).map fun l =>
          ⟨l, (vs.arena.intern t ()).1, t⟩).toArray }) := by
  unfold get
  rw [show vs.arena.find? t = none from h]

theorem sweep?_eq_some :
    vs.sweep? marks = some (dead, vs') ↔
      marks.size ≤ vs.size ∧ dead = (vs.arena.garbage marks.contains).take (vs.size - marks.size) ∧
        vs' = { vs with arena := dead.foldl Arena.erase vs.arena } := by
  unfold sweep?
  split
  next hlt =>
    simp only [reduceCtorEq, false_iff, not_and]
    omega
  next hle =>
    rw [Option.some.injEq, Prod.mk.injEq]
    constructor
    · rintro ⟨rfl, rfl⟩
      exact ⟨Nat.le_of_not_lt hle, rfl, rfl⟩
    · rintro ⟨-, rfl, rfl⟩
      exact ⟨rfl, rfl⟩

/-- A sweep frees different live variables that are not marked. -/
theorem nodup_of_sweep? (h : vs.sweep? marks = some (dead, vs')) :
    dead.Nodup ∧ ∀ v ∈ dead, vs.isLive v = true ∧ v ∉ marks := by
  obtain ⟨-, rfl, -⟩ := sweep?_eq_some.mp h
  refine ⟨(vs.arena.nodup_garbage _).sublist (List.take_sublist _ _), fun v hv => ?_⟩
  obtain ⟨hlive, hmark⟩ := Arena.mem_garbage.mp (List.mem_of_mem_take hv)
  exact ⟨hlive, by simpa using hmark⟩

theorem term?_of_sweep? (hvalid : vs.arena.Valid 1) (h : vs.sweep? marks = some (dead, vs'))
    (v : Nat) :
    vs'.term? v = if v ∈ dead then none else vs.term? v := by
  obtain ⟨-, -, rfl⟩ := sweep?_eq_some.mp h
  unfold term?
  rw [(hvalid.foldl_erase dead).2]
  split <;> rfl

theorem isLive_eq_false : vs.isLive v = false ↔ vs.term? v = none := by
  rw [← Bool.not_eq_true, isLive_eq_true, term?]
  simp [Option.eq_none_iff_forall_ne_some]

theorem eraseDups_of_nodup {l : List Nat} (h : l.Nodup) : l.eraseDups = l := by
  induction l with
  | nil => rfl
  | cons v l ih =>
    rw [List.nodup_cons] at h
    have hother : l.filter (fun u => !u == v) = l := by
      refine List.filter_eq_self.mpr fun u hu => ?_
      have hne : u ≠ v := fun heq => h.1 (heq ▸ hu)
      simpa using hne
    rw [List.eraseDups_cons, hother, ih h.2]

/-! ## What is kept -/

/-- What a history tells of the variables. -/
structure Kept (vs : Variables) (log : List Event) : Prop where
  arena : vs.arena.Valid 1
  /-- The free variables are in the order in which they were freed, the last one first. -/
  free : vs.arena.free = ((freedLast log).filter fun v => !vs.isLive v).eraseDups
  given (v : Nat) : (∃ t, .given v t ∈ log) ↔ v ≠ 0 ∧ v < vs.capacity
  listeners : vs.listeners = log.count .listening
  heard : vs.heard.toList = announcements 0 log

theorem kept_empty : Kept empty [] where
  arena := Arena.valid_empty 1
  free := rfl
  given v := by
    have hcap : capacity empty = 1 := rfl
    rw [hcap]
    simp only [List.not_mem_nil, exists_false, false_iff, not_and]
    omega
  listeners := rfl
  heard := rfl

variable {log : List Event}

theorem Kept.listen (h : vs.Kept log) : vs.listen.2.Kept (log ++ [.listening]) where
  arena := h.arena
  free := by
    rw [freedLast_append_listening]
    exact h.free
  given v := by
    have hcap : vs.listen.2.capacity = vs.capacity := rfl
    simpa [hcap] using h.given v
  listeners := by
    rw [List.count_append, ← h.listeners]
    rfl
  heard := by
    rw [announcements_append, ← h.heard]
    exact (List.append_nil _).symm

/-- The variable of a new term: the one freed last of those that are free, or the next number. -/
theorem Kept.new (h : vs.Kept log) (hnew : vs.find? t = none) :
    (vs.get t).1 = ((freedLast log).find? fun v => !vs.isLive v).getD vs.capacity := by
  have hhead : vs.arena.free.head? = (freedLast log).find? fun v => !vs.isLive v := by
    rw [h.free, ← List.head?_filter]
    cases (freedLast log).filter fun v => !vs.isLive v with
    | nil => rfl
    | cons v rest => rw [List.eraseDups_cons, List.head?_cons, List.head?_cons]
  rw [get_of_new hnew, ← hhead, ← List.headD_eq_head?_getD]
  exact (Arena.intern_slot hnew ()).1

/-- A new variable was free, and stands for its term now. -/
theorem Kept.term?_get (h : vs.Kept log) (hnew : vs.find? t = none) :
    vs.term? (vs.get t).1 = none ∧ (vs.get t).1 ≠ 0 ∧
      (∀ u, (vs.get t).2.term? u = if u = (vs.get t).1 then some t else vs.term? u) ∧
      (vs.get t).2.arena.Valid 1 := by
  obtain ⟨hdead, hpos, hget, hvalid⟩ := h.arena.intern_new hnew ()
  rw [get_of_new hnew]
  refine ⟨term?_eq_none.mpr hdead, Nat.ne_of_gt hpos, fun u => ?_, hvalid⟩
  unfold term?
  rw [hget]
  split <;> rfl

theorem Kept.get (h : vs.Kept log) (hnew : vs.find? t = none) :
    (vs.get t).2.Kept (log ++ [.given (vs.get t).1 t]) := by
  obtain ⟨hdead, hpos, hterm, hvalid⟩ := h.term?_get hnew
  obtain ⟨hslot, htail, hsize⟩ := Arena.intern_slot hnew ()
  have heq := get_of_new hnew
  set v := (vs.get t).1 with hv
  have hv' : v = (vs.arena.intern t ()).1 := by rw [hv, heq]
  have hlive (u : Nat) : (!(vs.get t).2.isLive u) = (!u == v && !vs.isLive u) := by
    by_cases huv : u = v
    · have hu : (vs.get t).2.isLive u = true := isLive_eq_true.mpr ⟨t, by rw [hterm, if_pos huv]⟩
      rw [hu, beq_iff_eq.mpr huv, Bool.not_true, Bool.false_and]
    · have hu : (vs.get t).2.isLive u = vs.isLive u := by
        rw [Bool.eq_iff_iff, isLive_eq_true, isLive_eq_true, hterm, if_neg huv]
      rw [hu, beq_eq_false_iff_ne.mpr huv, Bool.not_false, Bool.true_and]
  have hfree : (vs.get t).2.arena.free = vs.arena.free.tail := by
    rw [heq]
    exact htail
  have hcap : (vs.get t).2.capacity = vs.capacity + if vs.arena.free = [] then 1 else 0 := by
    rw [heq]
    exact hsize
  refine ⟨hvalid, ?_, fun u => ?_, ?_, ?_⟩
  · -- the new variable was the first free one, so what follows it is left
    rw [hfree, freedLast_append_given, h.free]
    simp only [hlive]
    rw [← List.filter_filter]
    rw [h.free] at hslot
    cases hL : (freedLast log).filter fun u => !vs.isLive u with
    | nil => rfl
    | cons w rest =>
      rw [hL, List.eraseDups_cons, List.headD_cons] at hslot
      have hw : w = v := hslot.symm.trans hv'.symm
      rw [List.eraseDups_cons, List.tail_cons, hw, List.filter_cons_of_neg (by simp)]
  · have hevent : (∃ s, Event.given u s ∈ log ++ [.given v t]) ↔ (∃ s, Event.given u s ∈ log) ∨
        u = v := by
      simp only [List.mem_append, List.mem_singleton, Event.given.injEq, exists_or, exists_and_left,
        exists_eq, and_true]
    rw [hevent, h.given, hcap]
    cases hf : vs.arena.free with
    | nil =>
      have hv : v = vs.capacity := by rw [hv', hslot, hf]; rfl
      rw [if_pos rfl]
      omega
    | cons w rest =>
      have hw : v = w := by rw [hv', hslot, hf]; rfl
      have hlt : w < vs.capacity := (h.arena.mem_free.mp (hf ▸ List.mem_cons_self)).1
      rw [if_neg (List.cons_ne_nil w rest)]
      omega
  · have hsame : (vs.get t).2.listeners = vs.listeners := by rw [heq]
    rw [hsame, h.listeners, List.count_append]
    rfl
  · have hheard : (vs.get t).2.heard.toList = vs.heard.toList ++ (List.range vs.listeners).map
        fun l => ⟨l, v, t⟩ := by
      rw [heq, hv']
      simp
    rw [hheard, h.heard, announcements_append, Nat.zero_add, ← h.listeners]
    simp [announcements]

theorem Kept.sweep (h : vs.Kept log) (hsweep : vs.sweep? marks = some (dead, vs')) :
    vs'.Kept (log ++ dead.map .freed) := by
  obtain ⟨hnodup, hdead⟩ := nodup_of_sweep? hsweep
  obtain ⟨-, -, rfl⟩ := sweep?_eq_some.mp hsweep
  obtain ⟨hfree, hsize⟩ := Arena.free_foldl_erase hnodup fun v hv => (hdead v hv).1
  obtain ⟨hvalid, hget⟩ := h.arena.foldl_erase dead
  have hlive (v : Nat) : (!Arena.isLive (dead.foldl Arena.erase vs.arena) v) =
      (!vs.isLive v || dead.contains v) := by
    unfold isLive Arena.isLive
    rw [hget]
    by_cases hv : v ∈ dead
    · simp [hv]
    · simp [hv]
  refine ⟨hvalid, ?_, fun v => ?_, ?_, ?_⟩
  · -- what was freed before and lived again is at its last place only
    show (dead.foldl Arena.erase vs.arena).free = _
    have hall : dead.reverse.filter
      (fun v => !isLive { vs with arena := dead.foldl Arena.erase vs.arena } v) =
        dead.reverse := by
      refine List.filter_eq_self.mpr fun v hv => (hlive v).trans ?_
      simp [List.mem_reverse.mp hv]
    have hrest : ((freedLast log).filter fun v =>
      !isLive { vs with arena := dead.foldl Arena.erase vs.arena } v).removeAll
        dead.reverse = (freedLast log).filter fun v => !vs.isLive v := by
      rw [List.removeAll, List.filter_filter]
      refine List.filter_congr fun v _ => ?_
      rw [show (!isLive { vs with arena := dead.foldl Arena.erase vs.arena } v) = _ from hlive v]
      by_cases hv : v ∈ dead
      · simp [hv, (hdead v hv).1]
      · simp [hv]
    rw [hfree, freedLast_append_freed, List.filter_append, List.eraseDups_append, hall,
      hrest, h.free,
      eraseDups_of_nodup (List.nodup_reverse.mpr hnodup)]
  · have hcap : capacity { vs with arena := dead.foldl Arena.erase vs.arena } = vs.capacity := hsize
    rw [hcap, ← h.given]
    simp
  · show vs.listeners = _
    have hnone : (dead.map Event.freed).count .listening = 0 := List.count_eq_zero.mpr (by simp)
    rw [h.listeners, List.count_append, hnone, Nat.add_zero]
  · show vs.heard.toList = _
    rw [h.heard, announcements_append, announcements_freed, List.append_nil]

theorem History.kept (h : History vs log) : vs.Kept log := by
  induction h with
  | start => exact kept_empty
  | listen _ ih => exact ih.listen
  | @get vs vs' log t v _ hget ih =>
    obtain ⟨-, hget⟩ := get?_eq_some.mp hget
    cases hf : vs.find? t with
    | some u =>
      rw [get_of_find? hf] at hget
      obtain ⟨-, rfl⟩ := Prod.mk.inj hget
      rw [has, hf, Option.isSome_some, if_pos rfl, List.append_nil]
      exact ih
    | none =>
      have hkept := ih.get hf
      rw [hget] at hkept
      rw [has, hf, Option.isSome_none, if_neg Bool.false_ne_true]
      exact hkept
  | sweep _ hsweep ih => exact ih.sweep hsweep

/-! ## Variables and terms -/

theorem Kept.find?_eq_some (h : vs.Kept log) : vs.find? t = some v ↔ vs.term? v = some t := by
  rw [term?_eq_some]
  constructor
  · intro hf
    obtain ⟨⟨⟩, hget⟩ := h.arena.get_of_find hf
    exact hget
  · exact h.arena.find_of_get

theorem Kept.isLive_zero (h : vs.Kept log) : vs.isLive 0 = false :=
  isLive_eq_false.mpr (term?_eq_none.mpr (h.arena.dead_of_reserved Nat.one_pos))

theorem length_toList (vs : Variables) :
    vs.toList.length = (List.range vs.capacity).countP vs.isLive := by
  unfold toList
  rw [List.length_filterMap_eq_countP]
  refine List.countP_congr fun v _ => ?_
  rw [Option.isSome_map, isLive_eq_true, Option.isSome_iff_exists]

theorem Kept.size_eq (h : vs.Kept log) : vs.size = vs.toList.length := by
  have hcount := h.arena.count_live
  rw [length_toList]
  have hlive : (List.range vs.capacity).countP vs.isLive = (List.range vs.arena.slots.size).countP
    vs.arena.isLive := rfl
  unfold size Arena.inUse
  omega

theorem Kept.count_free (h : vs.Kept log) (v : Nat) :
    vs.arena.free.count v = if v ≠ 0 ∧ v < vs.capacity ∧ vs.isLive v = false then 1 else 0 := by
  rw [h.arena.nodup_free.count]
  refine if_congr ?_ rfl rfl
  rw [h.arena.mem_free, isLive_eq_false, term?_eq_none, Nat.one_le_iff_ne_zero]
  exact ⟨fun hv => ⟨hv.2.1, hv.1, hv.2.2⟩, fun hv => ⟨hv.2.1, hv.1, hv.2.2⟩⟩

theorem lt_capacity (h : vs.isLive v = true) : v < vs.capacity := by
  obtain ⟨t, ht⟩ := isLive_eq_true.mp h
  exact Arena.lt_of_get? (term?_eq_some.mp ht)

theorem nodup_marks (marks : Std.HashSet Nat) : marks.toList.Nodup :=
  List.nodup_iff_pairwise_ne.mpr (Std.HashSet.distinct_toList.imp fun hne =>
    beq_eq_false_iff_ne.mp hne)

/-- Marks on live variables are no more than there are live variables. -/
theorem Kept.size_marks_le (h : vs.Kept log) (hmarks : ∀ v ∈ marks, vs.isLive v = true) :
    marks.size ≤ vs.size := by
  rw [h.size_eq, length_toList, List.countP_eq_length_filter, ← Std.HashSet.length_toList]
  refine (List.subperm_of_subset (nodup_marks marks) fun v hv => ?_).length_le
  have hlive := hmarks v (Std.HashSet.mem_toList.mp hv)
  exact List.mem_filter.mpr ⟨List.mem_range.mpr (lt_capacity hlive), hlive⟩

/-- Variables and terms are inverse to each other, free variables are kept once, in the order of
their freeing, and every listener hears once of every variable that is given out. -/
structure Bijection (vs : Variables) (log : List Event) : Prop where
  inverse (t : Term) (v : Nat) : vs.find? t = some v ↔ vs.term? v = some t
  null : vs.isLive 0 = false ∧ ∀ t, .given 0 t ∉ log
  /-- The variables ever given out are those from one to the capacity. -/
  given (v : Nat) : (∃ t, .given v t ∈ log) ↔ v ≠ 0 ∧ v < vs.capacity
  free (v : Nat) : vs.arena.free.count v = if v ≠ 0 ∧ v < vs.capacity ∧ vs.isLive v = false then 1
    else 0
  size : vs.size = vs.toList.length
  /-- Every positive term has a variable or gets one: that freed last of those that are free, or the
  next unused one. -/
  get (t : Term) : t.isNegated = false → ∃ v vs', vs.get? t = some (v, vs') ∧
    (∀ u, vs.find? t = some u → v = u ∧ vs' = vs) ∧
    (vs.find? t = none → v = ((freedLast log).find? fun u => !vs.isLive u).getD vs.capacity ∧
      ∀ u, vs'.term? u = if u = v then some t else vs.term? u)
  heard : vs.heard.toList = announcements 0 log
  /-- A sweep that marks live variables keeps them, with their terms. -/
  sweep (marks : Std.HashSet Nat) : (∀ v ∈ marks, vs.isLive v = true) → ∃ dead vs',
    vs.sweep? marks = some (dead, vs') ∧
    ∀ v ∈ marks, ∀ t, vs.term? v = some t → vs'.term? v = some t ∧ vs'.find? t = some v

/-- At every point of a history, variables and terms are in bijection. -/
theorem bijection_of_history (h : History vs log) : vs.Bijection log := by
  have hkept := h.kept
  refine ⟨fun t v => hkept.find?_eq_some, ⟨hkept.isLive_zero, fun t ht => ?_⟩, hkept.given,
    hkept.count_free,
    hkept.size_eq, fun t ht => ?_, hkept.heard, fun marks hmarks => ?_⟩
  · exact ((hkept.given 0).mp ⟨t, ht⟩).1 rfl
  · refine ⟨(vs.get t).1, (vs.get t).2, get?_eq_some.mpr ⟨ht, rfl⟩, fun u hu => ?_, fun hnew =>
      ⟨hkept.new hnew, ?_⟩⟩
    · rw [get_of_find? hu]
      exact ⟨rfl, rfl⟩
    · exact (hkept.term?_get hnew).2.2.1
  · obtain ⟨dead, vs', hsweep⟩ : ∃ dead vs', vs.sweep? marks = some (dead, vs') :=
      ⟨_, _, sweep?_eq_some.mpr ⟨hkept.size_marks_le hmarks, rfl, rfl⟩⟩
    refine ⟨dead, vs', hsweep, fun v hv t ht => ?_⟩
    have hterm : vs'.term? v = some t := by
      rw [term?_of_sweep? hkept.arena hsweep, if_neg fun hdead =>
        ((nodup_of_sweep? hsweep).2 v hdead).2 hv, ht]
    exact ⟨hterm, (hkept.sweep hsweep).find?_eq_some.mpr hterm⟩

/-- Variables of a listener and one term. -/
def oneGiven : Variables := (empty.listen.2.get (.ofIndex 2)).2

/-- Another term has a variable, too. -/
def twoGiven : Variables := (oneGiven.get (.ofIndex 3)).2

theorem history_twoGiven :
    twoGiven.History [.listening, .given 1 (.ofIndex 2), .given 2 (.ofIndex 3)] := by
  have hfirst : empty.listen.2.get? (.ofIndex 2) = some (1, oneGiven) := by
    refine get?_eq_some.mpr ⟨rfl, Prod.ext ?_ rfl⟩
    cbv
  have hsecond : oneGiven.get? (.ofIndex 3) = some (2, twoGiven) := by
    refine get?_eq_some.mpr ⟨rfl, Prod.ext ?_ rfl⟩
    cbv
  have hnone : empty.listen.2.has (.ofIndex 2) = false := by cbv
  have hother : oneGiven.has (.ofIndex 3) = false := by cbv
  have h := (History.start.listen.get hfirst).get hsecond
  rw [hnone, hother] at h
  exact h

/-- A sweep frees the first of the two. -/
theorem sweep?_twoGiven : ∃ vs, twoGiven.sweep? ((∅ : Std.HashSet Nat).insert 2) = some
      ([1], vs) := by
  have hsize : twoGiven.size = 2 := by cbv
  have hmarks : ((∅ : Std.HashSet Nat).insert 2).size = 1 := by rw [Std.HashSet.size_insert]; simp
  have hcontains : ((∅ : Std.HashSet Nat).insert 2).contains = fun v => 2 == v := by
    funext v
    simp [Std.HashSet.contains_insert]
  have hgarbage : twoGiven.arena.garbage (fun v => 2 == v) = [1] := by cbv
  refine ⟨_, sweep?_eq_some.mpr ⟨?_, ?_, rfl⟩⟩
  · rw [hsize, hmarks]
    decide
  · rw [hsize, hmarks, hcontains, hgarbage]
    rfl

/-- The variable that was freed goes to the next term. -/
theorem bijection_of_history_freed :
    ∃ vs, History vs [.listening, .given 1 (.ofIndex 2), .given 2 (.ofIndex 3), .freed 1] ∧
      vs.heard.toList = [⟨0, 1, .ofIndex 2⟩, ⟨0, 2, .ofIndex 3⟩] ∧ ∃ vs',
      vs.get? (.ofIndex 4) = some (1, vs') := by
  obtain ⟨vs, hsweep⟩ := sweep?_twoGiven
  have hvs := history_twoGiven.sweep hsweep
  have hbij := bijection_of_history hvs
  have hterm := term?_of_sweep? history_twoGiven.kept.arena hsweep
  have hnew : vs.find? (.ofIndex 4) = none := by
    have hfind : twoGiven.find? (.ofIndex 4) = none := by cbv
    refine Option.eq_none_iff_forall_ne_some.mpr fun v hv => ?_
    rw [hbij.inverse, hterm] at hv
    split at hv
    · cases hv
    · rw [← history_twoGiven.kept.find?_eq_some, hfind] at hv
      cases hv
  have hfree : vs.isLive 1 = false :=
    isLive_eq_false.mpr ((hterm 1).trans (if_pos List.mem_cons_self))
  obtain ⟨v, vs', hget, -, hv⟩ := hbij.get (.ofIndex 4) rfl
  refine ⟨vs, hvs, hbij.heard, vs', hget.trans ?_⟩
  rw [(hv hnew).1, show freedLast _ = [1] from rfl]
  simp [hfree]

end Variables
end Entail

namespace Entail.Variables

/-! ## Sweeps -/

variable {vs vs' : Variables} {log : List Event} {marks : Std.HashSet Nat} {dead : List Nat}

/-- Live variables that are not marked, in increasing order. -/
def unmarked (vs : Variables) (marks : Std.HashSet Nat) : List Nat :=
  (List.range vs.capacity).filter fun v => vs.isLive v && !marks.contains v

/-- Number of marks that are on no live variable. -/
def stray (vs : Variables) (marks : Std.HashSet Nat) : Nat :=
  marks.toList.countP fun v => !vs.isLive v

/-- After the sweep exactly the marked ones of the live variables are live, and `dead` lists the
others in increasing order. -/
structure Exact (vs vs' : Variables) (marks : Std.HashSet Nat) (dead : List Nat) : Prop where
  live (v : Nat) : vs'.isLive v = true ↔ vs.isLive v = true ∧ v ∈ marks
  sorted : dead.Pairwise (· < ·)
  dead (v : Nat) : v ∈ dead ↔ vs.isLive v = true ∧ v ∉ marks

theorem mem_unmarked {v : Nat} : v ∈ vs.unmarked marks ↔ vs.isLive v = true ∧ v ∉ marks :=
  Arena.mem_garbage.trans (by simp [isLive])

theorem pairwise_unmarked (vs : Variables) (marks : Std.HashSet Nat) :
    (vs.unmarked marks).Pairwise (· < ·) :=
  List.pairwise_lt_range.filter _

/-- Every live variable is marked or not, and every mark is on a live variable or astray. -/
theorem Kept.length_unmarked (h : vs.Kept log) (marks : Std.HashSet Nat) :
    (vs.unmarked marks).length + marks.size = vs.size + vs.stray marks := by
  have hlive : ((List.range vs.capacity).filter vs.isLive).countP marks.contains =
      marks.toList.countP vs.isLive := by
    rw [List.countP_eq_length_filter, List.countP_eq_length_filter, List.filter_filter]
    apply List.Perm.length_eq
    refine (List.perm_ext_iff_of_nodup (List.nodup_range.filter _)
      ((nodup_marks marks).filter _)).mpr fun v => ?_
    rw [List.mem_filter, List.mem_filter, List.mem_range, Std.HashSet.mem_toList, Bool.and_eq_true,
      Std.HashSet.contains_iff_mem]
    exact ⟨fun hv => ⟨hv.2.1, hv.2.2⟩, fun hv => ⟨lt_capacity hv.2, hv.1, hv.2⟩⟩
  have hdead : ((List.range vs.capacity).filter vs.isLive).countP (fun v => !marks.contains v) =
      (vs.unmarked marks).length := by
    rw [List.countP_eq_length_filter, List.filter_filter, unmarked]
    congr 2
    funext v
    rw [Bool.and_comm]
  have hsplit := List.length_eq_countP_add_countP marks.contains
    (l := (List.range vs.capacity).filter vs.isLive)
  have hmarks := List.length_eq_countP_add_countP vs.isLive (l := marks.toList)
  simp only [Bool.not_eq_true, Bool.decide_eq_false] at hsplit hmarks
  rw [Std.HashSet.length_toList] at hmarks
  rw [h.size_eq, length_toList, List.countP_eq_length_filter, hsplit, hlive, hdead, hmarks, stray]
  omega

theorem stray_eq_zero : vs.stray marks = 0 ↔ ∀ v ∈ marks, vs.isLive v = true := by
  simp [stray, List.countP_eq_zero]

/-- What a sweep removes comes first among the unmarked variables; as many of them stay as marks
are astray. -/
theorem Kept.unmarked_eq (h : vs.Kept log) (hsweep : vs.sweep? marks = some (dead, vs')) :
    ∃ kept, vs.unmarked marks = dead ++ kept ∧ dead.length = vs.size - marks.size ∧
    kept.length = vs.stray marks := by
  have hlength := h.length_unmarked marks
  obtain ⟨hle, hdead, -⟩ := sweep?_eq_some.mp hsweep
  change dead = (vs.unmarked marks).take (vs.size - marks.size) at hdead
  refine ⟨(vs.unmarked marks).drop (vs.size - marks.size), ?_, ?_, ?_⟩
  · rw [hdead, List.take_append_drop]
  · rw [hdead, List.length_take]
    omega
  · rw [List.length_drop]
    omega

/-- A sweep fails exactly when there are more marks than live variables. Otherwise it removes as
many unmarked variables as there are live variables beyond the number of marks, the smallest ones.
As many unmarked variables stay as marks are on no live variable, so the sweep is exact if and only
if all marks are on live variables. -/
theorem sweep_exact_iff (h : History vs log) (marks : Std.HashSet Nat) :
    (vs.sweep? marks = none ↔ vs.size < marks.size) ∧
      ∀ dead vs', vs.sweep? marks = some (dead, vs') →
        (∃ kept, vs.unmarked marks = dead ++ kept ∧ dead.length = vs.size - marks.size ∧
          kept.length = vs.stray marks) ∧
        (∀ v, vs'.term? v = if v ∈ dead then none else vs.term? v) ∧
        (vs.Exact vs' marks dead ↔ ∀ v ∈ marks, vs.isLive v = true) := by
  have hkept := h.kept
  refine ⟨?_, fun dead vs' hsweep => ?_⟩
  · unfold sweep?
    split
    next hlt => simp [hlt]
    next hge => simp [hge]
  · obtain ⟨kept, happ, hdead, hstay⟩ := hkept.unmarked_eq hsweep
    have hterm := term?_of_sweep? hkept.arena hsweep
    refine ⟨⟨kept, happ, hdead, hstay⟩, hterm, ?_⟩
    rw [← stray_eq_zero, ← hstay]
    constructor
    · intro hexact
      -- what stays is unmarked, and would have to be removed
      refine List.length_eq_zero_iff.mpr (List.eq_nil_iff_forall_not_mem.mpr fun v hv => ?_)
      have hmem : v ∈ vs.unmarked marks := happ ▸ List.mem_append_right dead hv
      have hnodup : (dead ++ kept).Nodup := happ ▸ (pairwise_unmarked vs marks).imp Nat.ne_of_lt
      exact (List.nodup_append.mp hnodup).2.2 v
        ((hexact.dead v).mpr (mem_unmarked.mp hmem)) v hv rfl
    · intro hnone
      rw [List.length_eq_zero_iff.mp hnone, List.append_nil] at happ
      refine ⟨fun v => ?_, happ ▸ pairwise_unmarked vs marks, fun v => happ ▸ mem_unmarked⟩
      rw [isLive_eq_true, hterm, ← happ]
      split
      next hv =>
        have hmark := (mem_unmarked.mp hv).2
        simp [hmark]
      next hv =>
        rw [← isLive_eq_true]
        refine ⟨fun hlive => ⟨hlive, ?_⟩, And.left⟩
        by_contra hmark
        exact hv (mem_unmarked.mpr ⟨hlive, hmark⟩)

/-- Two variables are live and the marks are on the first of them and on a number that is no
variable. Nothing is removed, so the second variable stays, although it is not marked. -/
theorem sweep_exact_iff_stray :
    let marks := ((∅ : Std.HashSet Nat).insert 1).insert 7
    ∃ vs', twoGiven.sweep? marks = some ([], vs') ∧ vs'.isLive 2 = true ∧ 2 ∉ marks ∧
      ¬twoGiven.Exact vs' marks [] := by
  intro marks
  have hsize : twoGiven.size = 2 := by cbv
  have hmarks : marks.size = 2 := by simp [marks, Std.HashSet.size_insert]
  have hlive : twoGiven.isLive 2 = true := by cbv
  have hdead : twoGiven.isLive 7 = false := by cbv
  obtain ⟨hfails, hsweeps⟩ := sweep_exact_iff history_twoGiven marks
  obtain ⟨⟨dead, vs'⟩, hsweep⟩ := Option.ne_none_iff_exists'.mp fun hnone => by
    have hlt := hfails.mp hnone
    omega
  obtain ⟨⟨_, -, hlength, -⟩, hterm, hexact⟩ := hsweeps dead vs' hsweep
  obtain rfl : dead = [] := List.length_eq_zero_iff.mp (by omega)
  refine ⟨vs', hsweep, ?_, by simp [marks], fun hex => ?_⟩
  · rw [isLive_eq_true, hterm, if_neg List.not_mem_nil, ← isLive_eq_true]
    exact hlive
  · have hseven := hexact.mp hex 7 (by simp [marks])
    rw [hdead] at hseven
    cases hseven

end Entail.Variables
