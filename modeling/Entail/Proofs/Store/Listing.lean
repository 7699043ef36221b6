import Entail.Proofs.Store.Subterms
import Entail.Proofs.Store.Untouched

/-!
# The order of a listing of subterms

A walk enters a term before its parts and leaves it after them. A term that was entered and not left
yet is one that the walk is below of, so, as terms are not parts of themselves, the parts of a term
have all been left when it is. The nesting of a store's terms is less than its number of slots, so
the bound of a walk is never met.
-/

namespace Entail.Store

variable {s : Store} {rank : Nat → Nat} {t u : Term} {order : List Term} {w : Walk} {depth : Nat}

/-- Everything in the list stands after the positive terms of its parts. -/
def PartsFirst (s : Store) (order : List Term) : Prop :=
  ∀ before u after, order = before ++ u :: after → ∀ c ∈ (s.shape u).children, c.positive ∈ before

theorem partsFirst_nil : s.PartsFirst [] := fun _ _ _ h => by simp at h

theorem PartsFirst.concat (h : s.PartsFirst order)
    (hparts : ∀ c ∈ (s.shape u).children, c.positive ∈ order) :
    s.PartsFirst (order ++ [u]) := by
  intro before v after heq c hc
  rcases List.eq_nil_or_concat after with rfl | ⟨after, last, rfl⟩
  · obtain ⟨rfl, hlast⟩ := List.append_inj' heq rfl
    obtain rfl := List.singleton_injective hlast
    exact hparts c hc
  · rw [List.concat_eq_append, ← List.cons_append, ← List.append_assoc] at heq
    exact h before v after (List.append_inj' heq rfl).1 c hc

/-- No part of a term is ranked as high as the term. -/
def Ranks (s : Store) (rank : Nat → Nat) : Prop :=
  ∀ {i shape ty}, s.terms.get? i = some (shape, ty) → ∀ c ∈ shape.children, rank c.index < rank i

theorem Ranks.lt (h : s.Ranks rank) {c : Term} (hc : c ∈ (s.shape t).children) :
    rank c.index < rank t.index := by
  cases hn : s.node? t with
  | none => simp [shape, shape?, hn, Term.Shape.children] at hc
  | some n => exact h hn c (by simpa [shape, shape?, hn] using hc)

/-! ## The bound of a walk -/

/-- A walk that may go deeper than the rank of a term does not depend on how deep it may go. -/
theorem walk_eq (h : s.Ranks rank) {depth' : Nat} (hdepth : rank t.index < depth)
    (hdepth' : rank t.index < depth') (w : Walk) :
    s.walk depth t w = s.walk depth' t w := by
  induction depth generalizing t depth' w with
  | zero => cases hdepth
  | succ depth ih =>
    cases depth' with
    | zero => cases hdepth'
    | succ depth' =>
      have hkids : ∀ c ∈ (s.shape t.positive).children, ∀ w,
          s.walk depth c w = s.walk depth' c w := by
        intro c hc w
        have hlt := h.lt hc
        rw [Term.index_positive] at hlt
        exact ih (by omega) (by omega) w
      simp only [walk]
      rw [List.foldr_ext _ _ _ hkids]

/-! ## What a walk leaves -/

/-- A walk on its way to terms of ranks below `bound`: what was left is listed once and after its
parts, and what was entered and not left yet is not ranked below `bound`. -/
structure Walk.Underway (s : Store) (rank : Nat → Nat) (bound : Nat) (w : Walk) : Prop where
  nodup : w.order.toList.Nodup
  partsFirst : s.PartsFirst w.order.toList
  entered : ∀ u ∈ w.order, u ∈ w.seen
  above : ∀ u ∈ w.seen, u ∉ w.order → bound ≤ rank u.index

namespace Walk.Underway

variable {bound : Nat} {p : Term}

theorem start (s : Store) (rank : Nat → Nat) (bound : Nat) : Walk.Underway s rank bound ⟨∅, #[]⟩ :=
  ⟨List.nodup_nil, partsFirst_nil,
    fun _ h => by simp at h, fun _ h => absurd h Std.HashSet.not_mem_empty⟩

/-- On the way to the parts of a term that is entered. -/
theorem enter (hw : w.Underway s rank bound) (hp : rank p.index < bound) :
    Walk.Underway s rank (rank p.index) { w with seen := w.seen.insert p } where
  nodup := hw.nodup
  partsFirst := hw.partsFirst
  entered u hu := Std.HashSet.mem_insert.mpr (.inr (hw.entered u hu))
  above u hu hout := by
    rcases Std.HashSet.mem_insert.mp hu with hpu | hu
    · rw [eq_of_beq hpu]
    · exact (hp.trans_le (hw.above u hu hout)).le

/-- A term is left when its parts have been. -/
theorem leave (hw : w.Underway s rank bound) (hp : p ∉ w.seen) {w' : Walk}
    (hw' : w'.Underway s rank (rank p.index))
    (hleaves : Leaves { w with seen := w.seen.insert p } w')
    (hparts : ∀ c ∈ (s.shape p).children, c.positive ∈ w'.order) :
    Walk.Underway s rank bound { w' with order := w'.order.push p } := by
  have hself : p ∈ w'.seen := hleaves.seen p Std.HashSet.mem_insert_self
  have hnot : p ∉ w'.order := by
    rw [hleaves.order]
    rintro (hold | hnew)
    · exact hp (hw.entered p hold)
    · exact hnew.2 Std.HashSet.mem_insert_self
  refine ⟨?_, ?_, fun u hu => ?_, fun u hu hout => ?_⟩
  · rw [Array.toList_push]
    refine List.nodup_append.mpr ⟨hw'.nodup, List.nodup_singleton p, fun u hu v hv huv => ?_⟩
    rw [huv, List.mem_singleton.mp hv] at hu
    exact hnot (Array.mem_toList_iff.mp hu)
  · rw [Array.toList_push]
    exact hw'.partsFirst.concat fun c hc => Array.mem_toList_iff.mpr (hparts c hc)
  · rcases Array.mem_push.mp hu with hu | rfl
    · exact hw'.entered u hu
    · exact hself
  · -- what is still not left was so when the term was entered
    have hu' : u ∉ w'.order := fun h => hout (Array.mem_push.mpr (.inl h))
    have hne : u ≠ p := fun h => hout (Array.mem_push.mpr (.inr h))
    have hseen : u ∈ w.seen := by
      by_contra hnew
      refine hu' ((hleaves.order u).mpr (.inr ⟨hu, fun h => ?_⟩))
      rcases Std.HashSet.mem_insert.mp h with hpu | h
      · exact hne (eq_of_beq hpu).symm
      · exact hnew h
    exact hw.above u hseen fun h => hu' ((hleaves.order u).mpr (.inl h))

end Walk.Underway

/-- A walk leaves the term that it is sent to, if it has not been left before. -/
theorem walk_underway (h : s.Ranks rank) {bound : Nat} (hdepth : rank t.index < depth)
    (ht : rank t.index < bound) (hw : w.Underway s rank bound) :
    (s.walk depth t w).Underway s rank bound ∧ t.positive ∈ (s.walk depth t w).order := by
  induction depth generalizing t w bound with
  | zero => cases hdepth
  | succ depth ih =>
    have hfold : ∀ (ts : List Term) {r : Nat} {w : Walk}, (∀ c ∈ ts, rank c.index < r ∧ r ≤ depth) →
        w.Underway s rank r → (ts.foldr (s.walk depth) w).Underway s rank r ∧
          Leaves w (ts.foldr (s.walk depth) w) ∧
          ∀ c ∈ ts, c.positive ∈ (ts.foldr (s.walk depth) w).order := by
      -- the last child is walked first
      intro ts
      induction ts with
      | nil => exact fun _ hw => ⟨hw, .refl _, nofun⟩
      | cons c ts ihts =>
        intro r w hts hw
        obtain ⟨hrest, hleaves, hmem⟩ := ihts (fun c hc => hts c (List.mem_cons_of_mem _ hc)) hw
        obtain ⟨hlt, hle⟩ := hts c List.mem_cons_self
        obtain ⟨hfirst, hc⟩ := ih (hlt.trans_le hle) hlt hrest
        have hstep := leaves_walk s depth c (ts.foldr (s.walk depth) w)
        refine ⟨hfirst, hleaves.trans hstep, fun c' hc' => ?_⟩
        rcases List.mem_cons.mp hc' with rfl | hc'
        · exact hc
        · exact (hstep.order _).mpr (.inl (hmem c' hc'))
    unfold walk
    simp only
    split
    next hseen =>
      -- an entered term that is not left yet is not ranked below the bound
      refine ⟨hw, by_contra fun hout => ?_⟩
      have hle := hw.above _ (Std.HashSet.mem_iff_contains.mpr hseen) hout
      rw [Term.index_positive] at hle
      omega
    next hnew =>
      have hp : t.positive ∉ w.seen := fun h => hnew (Std.HashSet.mem_iff_contains.mp h)
      have hin := hw.enter (p := t.positive) (by rwa [Term.index_positive])
      obtain ⟨hkids, hleaves, hparts⟩ := hfold (s.shape t.positive).children (fun c hc => by
        have hlt := h.lt hc
        rw [Term.index_positive] at hlt ⊢
        omega) hin
      exact ⟨hw.leave hp hkids hleaves hparts, Array.mem_push_self⟩

/-! ## Listings -/

theorem Wf.ranks (hw : s.Wf) (ht : s.isValid t = true) :
    ∃ rank : Nat → Nat, s.Ranks rank ∧ rank t.index < s.terms.slots.size := by
  obtain ⟨rank, hrank, hbound⟩ := hw.bounded
  obtain ⟨ty, ⟨⟨shape, hn⟩, -⟩⟩ := isValid_iff.mp ht
  exact ⟨rank, hrank, hbound hn⟩

/-- The subterms of a valid term are the positive terms that it is made of. -/
theorem mem_subterms_iff (hw : s.Wf) (ht : s.isValid t = true) :
    u ∈ s.subterms t ↔ u.isNegated = false ∧ s.Below t u := by
  refine ⟨fun hu => ⟨(mem_subterms hw ht hu).2.1, (mem_subterms hw ht hu).1⟩,
    fun ⟨hpos, hbelow⟩ => ?_⟩
  have hlive : s.terms.isLive u.index = true := Arena.isLive_iff.mpr (hbelow.live hw ht)
  have hseen := (mem_seen_walkAll hw [t] hlive).mpr ⟨t, List.mem_singleton_self t, hbelow⟩
  rw [show Term.ofIndex u.index = u from Term.positive_of_not_isNegated hpos] at hseen
  exact Array.mem_toList_iff.mpr ((mem_order_walkAll s [t] u).mpr hseen)

/-- The term itself is left last. -/
theorem getLast?_subterms (hw : s.Wf) (ht : s.isValid t = true) :
    (s.subterms t).getLast? = some t.positive := by
  obtain ⟨rank, -, hbound⟩ := hw.ranks ht
  obtain ⟨n, hn⟩ := Nat.exists_eq_succ_of_ne_zero (Nat.ne_of_gt (Nat.zero_lt_of_lt hbound))
  have hwalk : s.subterms t = (s.walk (n + 1) t ⟨∅, #[]⟩).order.toList := by
    rw [subterms, walkAll, hn]
    rfl
  rw [hwalk, walk]
  simp

theorem nodup_subterms (hw : s.Wf) (ht : s.isValid t = true) : (s.subterms t).Nodup := by
  obtain ⟨rank, hrank, hbound⟩ := hw.ranks ht
  exact (walk_underway hrank hbound (Nat.lt_succ_self _) (.start s rank _)).1.nodup

/-- However a store was used, the subterms of a valid term are listed once each, after their parts,
and the term itself last. A walk to find them ends within the number of slots. -/
theorem subterms_of_reached (h : Reached s) (ht : s.isValid t = true) :
    (∀ depth ≥ s.terms.slots.size, (s.walk depth t ⟨∅, #[]⟩).order.toList = s.subterms t) ∧
      (∀ u, u ∈ s.subterms t ↔ u.isNegated = false ∧ s.Below t u) ∧ (s.subterms t).Nodup ∧
      s.PartsFirst (s.subterms t) ∧ (s.subterms t).getLast? = some t.positive ∧
      ∀ x, s.occurs x t = true ↔ x.positive ∈ s.subterms t := by
  have hw := h.intact.wf
  obtain ⟨rank, hrank, hbound⟩ := hw.ranks ht
  obtain ⟨hunderway, -⟩ := walk_underway hrank hbound (Nat.lt_succ_self _) (.start s rank _)
  refine ⟨fun depth hdepth => ?_, fun u => mem_subterms_iff hw ht, nodup_subterms hw ht,
    hunderway.partsFirst,
    getLast?_subterms hw ht, fun x => ?_⟩
  · rw [walk_eq hrank (hbound.trans_le hdepth) hbound]
    rfl
  · rw [occurs, Std.HashSet.contains_iff_mem, ← mem_order_walkAll]
    exact Array.mem_toList_iff.symm

/-- Of a quantified choice whose condition and branches share the variables, each term is
listed once. -/
theorem subterms_guarded : Reached guarded ∧ guarded.isValid (Term.ofIndex 11).neg = true ∧
    guarded.subterms (Term.ofIndex 11).neg = [3, 2, 9, 5, 6, 8, 7, 10, 11].map .ofIndex ∧
    guarded.PartsFirst (guarded.subterms (Term.ofIndex 11).neg) ∧
    guarded.occurs (Term.ofIndex 5).neg (Term.ofIndex 11).neg = true := by
  have hvalid : guarded.isValid (Term.ofIndex 11).neg = true := by cbv
  have hlist : guarded.subterms (Term.ofIndex 11).neg = [3, 2, 9, 5, 6, 8, 7, 10,
    11].map .ofIndex := by cbv
  obtain ⟨-, -, -, hparts, -, hoccurs⟩ := subterms_of_reached reached_guarded hvalid
  refine ⟨reached_guarded, hvalid, hlist, hparts, (hoccurs _).mpr ?_⟩
  rw [hlist]
  decide

end Entail.Store
