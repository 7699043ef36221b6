import Entail.Proofs.Arena
import Entail.Variables

/-!
# Variables of terms

A variable is given out when its slot was empty, and the term of a variable does not change until it
is swept. A sweep with the right number of marks keeps the marked variables and no others.
-/

namespace Entail.Variables

variable {vs : Variables} {t : Term} {v : Nat}

/-- Variables with one listener. -/
structure Ok (vs : Variables) : Prop where
  arena : vs.arena.Valid 1
  listeners : vs.listeners = 1

theorem term?_eq_some : vs.term? v = some t ↔ vs.arena.get? v = some (t, ()) := by
  unfold term?
  rw [Option.map_eq_some_iff]
  constructor
  · rintro ⟨⟨t', u⟩, h, rfl⟩
    exact h
  · intro h
    exact ⟨_, h, rfl⟩

theorem term?_eq_none : vs.term? v = none ↔ vs.arena.get? v = none := Option.map_eq_none_iff

/-- Looking a term up and looking its variable up are inverse to each other. -/
theorem Ok.find?_eq_some (h : vs.Ok) : vs.find? t = some v ↔ vs.term? v = some t := by
  rw [term?_eq_some]
  constructor
  · intro hf
    obtain ⟨⟨⟩, hget⟩ := h.arena.get_of_find hf
    exact hget
  · exact h.arena.find_of_get

/-- No two live variables are of one term. -/
theorem Ok.term_unique (h : vs.Ok) {u : Nat} (hv : vs.term? v = some t) (hu : vs.term? u = some t) :
    v = u :=
  h.arena.slot_unique (term?_eq_some.mp hv) (term?_eq_some.mp hu)

/-- The listing holds the live variables with their terms. -/
theorem mem_toList {x : Nat × Term} : x ∈ vs.toList ↔ vs.term? x.1 = some x.2 := by
  unfold toList
  rw [List.mem_filterMap]
  constructor
  · rintro ⟨v, -, hv⟩
    obtain ⟨t, ht, rfl⟩ := Option.map_eq_some_iff.mp hv
    exact ht
  · intro h
    refine ⟨x.1, ?_, by rw [h]; rfl⟩
    rw [List.mem_range]
    exact Arena.lt_of_get? (term?_eq_some.mp h)

/-- The listing holds every variable once. -/
theorem nodup_toList (vs : Variables) : (vs.toList.map (·.1)).Nodup := by
  have hsub : (vs.toList.map (·.1)).Sublist (List.range vs.capacity) := by
    unfold toList
    induction List.range vs.capacity with
    | nil => simp
    | cons v us ih =>
      rw [List.filterMap_cons]
      cases vs.term? v with
      | none => exact ih.cons v
      | some t => exact ih.cons_cons v
  exact List.nodup_range.sublist hsub

/-- A term has its variable already, or gets one whose slot was empty and of which the
listener hears. -/
theorem Ok.get (h : vs.Ok) (t : Term) :
    (vs.get t).2.Ok ∧ (vs.get t).2.term? (vs.get t).1 = some t ∧
      ((vs.get t).2 = vs ∨
        vs.find? t = none ∧ vs.term? (vs.get t).1 = none ∧
          (∀ u, (vs.get t).2.term? u = if u = (vs.get t).1 then some t else vs.term? u) ∧
          (vs.get t).2.heard = vs.heard.push ⟨0, (vs.get t).1, t⟩) := by
  unfold Variables.get
  split
  next v hv => exact ⟨h, h.find?_eq_some.mp hv, .inl rfl⟩
  next hnone =>
    obtain ⟨hdead, -, hget, hvalid⟩ := h.arena.intern_new hnone ()
    have hterm (u : Nat) : term? { vs with arena := (vs.arena.intern t ()).2 } u =
        if u = (vs.arena.intern t ()).1 then some t else vs.term? u := by
      unfold term?
      rw [hget]
      split <;> rfl
    refine ⟨⟨hvalid, h.listeners⟩, ?_, .inr ⟨hnone, term?_eq_none.mpr hdead, hterm, ?_⟩⟩
    · exact (hterm _).trans (if_pos rfl)
    · simp [h.listeners]

theorem Ok.collect (h : vs.Ok) : vs.collect.2.Ok := ⟨h.arena, h.listeners⟩

/-- The size is the number of variables that are live. -/
theorem Ok.size_eq (h : vs.Ok) : vs.size = (List.range vs.capacity).countP vs.isLive := by
  have hcount := h.arena.count_live
  have : (List.range vs.capacity).countP vs.isLive = (List.range vs.arena.slots.size).countP
    vs.arena.isLive := rfl
  unfold size Arena.inUse
  omega

theorem isLive_eq_true : vs.isLive v = true ↔ ∃ t, vs.term? v = some t := by
  unfold isLive
  rw [Arena.isLive_iff]
  constructor
  · rintro ⟨⟨t, u⟩, h⟩
    exact ⟨t, term?_eq_some.mpr h⟩
  · rintro ⟨t, h⟩
    exact ⟨_, term?_eq_some.mp h⟩

/-- A sweep that keeps `keep`, which are live variables, removes all others. -/
theorem Ok.sweep (h : vs.Ok) (keep : List Nat) (hnodup : keep.Nodup)
    (hlive : ∀ v ∈ keep, vs.isLive v = true) :
    ∃ dead vs', vs.sweep? (.ofList keep) = some (dead, vs') ∧ vs'.Ok ∧ vs'.heard = vs.heard ∧
      ∀ v, vs'.term? v = if v ∈ keep then vs.term? v else none := by
  have hcontains (v : Nat) : (Std.HashSet.ofList keep).contains v = decide (v ∈ keep) := by
    rw [Std.HashSet.contains_ofList, List.contains_eq_mem]
  have hsize : (Std.HashSet.ofList keep).size = keep.length := by
    apply Std.HashSet.size_ofList
    exact (List.nodup_iff_pairwise_ne.mp hnodup).imp fun hne => beq_eq_false_iff_ne.mpr hne
  have hlt (v : Nat) (hv : vs.isLive v = true) : v ∈ List.range vs.capacity := by
    obtain ⟨t, ht⟩ := isLive_eq_true.mp hv
    exact List.mem_range.mpr (Arena.lt_of_get? (term?_eq_some.mp ht))
  -- the live variables are those to keep and the garbage
  have hkeep : ((List.range vs.capacity).filter vs.isLive).countP (fun v => decide (v ∈ keep)) =
      keep.length := by
    rw [List.countP_eq_length_filter, List.filter_filter]
    apply List.Perm.length_eq
    refine (List.perm_ext_iff_of_nodup (List.nodup_range.filter _) hnodup).mpr fun v => ?_
    rw [List.mem_filter, Bool.and_eq_true, decide_eq_true_eq]
    exact ⟨fun hv => hv.2.1, fun hv => ⟨hlt v (hlive v hv), hv, hlive v hv⟩⟩
  have hgarbage : (vs.arena.garbage (Std.HashSet.ofList keep).contains).length + keep.length =
      vs.size := by
    have hsplit := List.length_eq_countP_add_countP (fun v => decide (v ∈ keep))
      (l := (List.range vs.capacity).filter vs.isLive)
    rw [hkeep, List.countP_eq_length_filter, List.filter_filter, ← List.countP_eq_length_filter,
      ← h.size_eq] at hsplit
    rw [hsplit, Nat.add_comm]
    congr 2
    apply List.filter_congr
    intro v _
    rw [hcontains, Bool.and_comm]
    simp [isLive]
  have hall : (vs.arena.garbage (Std.HashSet.ofList keep).contains).take (vs.size - keep.length) =
      vs.arena.garbage (Std.HashSet.ofList keep).contains := List.take_of_length_le (by omega)
  obtain ⟨hvalid, hget⟩ := h.arena.foldl_erase (vs.arena.garbage (Std.HashSet.ofList keep).contains)
  refine ⟨vs.arena.garbage (Std.HashSet.ofList keep).contains, { vs with arena := _ }, ?_,
    ⟨hvalid, h.listeners⟩, rfl, fun v => ?_⟩
  · unfold sweep?
    rw [hsize, if_neg (by omega), hall]
  · show (Arena.get? _ v).map _ = _
    rw [hget]
    by_cases hv : v ∈ keep
    · rw [if_pos hv, if_neg]
      · rfl
      · simp [Arena.garbage, hcontains, hv]
    · rw [if_neg hv]
      split
      · rfl
      next hnot =>
        cases hgv : vs.arena.get? v with
        | none => rfl
        | some x =>
          have hlv : vs.arena.isLive v = true := Arena.isLive_iff.mpr ⟨x, hgv⟩
          refine absurd (List.mem_filter.mpr ⟨hlt v hlv, ?_⟩) hnot
          simp [hlv, hcontains, hv]

end Entail.Variables
