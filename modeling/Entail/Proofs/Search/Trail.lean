import Entail.Proofs.Search.Entailment
import Entail.Proofs.Search.State

/-!
# The trail

The trail lists the literals that are true, in the order of their assignment. A literal with a
reason was forced by that clause, whose other literals were false before; one without a reason is a
decision, or a unit at level 0. So every literal at level 0 is true in each valuation that
satisfies the clauses.
-/

namespace Entail.Search

namespace State

variable {s t : State} {l k : Literal} {i n : Nat}

/-- Value of a literal. -/
def value (s : State) (l : Literal) : Option Bool := (s.cell l.var).value.map (· != l.isNegated)

/-- Level of a literal. -/
def level (s : State) (l : Literal) : Nat := (s.cell l.var).level

/-- A clause has become a reason for `l` when the literals before were those of `before`. -/
def Forces (s : State) (n : Nat) (l : Literal) (before : List Literal) : Prop :=
  ∃ cl, s.db.clause? n = some cl ∧ l ∈ cl.1 ∧ ∀ k ∈ cl.1, k = l ∨ k.neg ∈ before

/-- The trail and what is known of the variables fit together. -/
structure Assigned (s : State) : Prop where
  nodup : (s.trail.map Literal.var).Nodup
  value : ∀ {l}, (s.cell l.var).value = some (!l.isNegated) ↔ l ∈ s.trail
  /-- The level of a literal is the number of decisions up to its place. -/
  level : ∀ {i l}, s.trail[i]? = some l → s.level l = s.starts.countP (· ≤ i)
  starts : s.starts.Pairwise (· < ·)
  below : ∀ {i}, i ∈ s.starts → i < s.trail.length
  head : s.head ≤ s.trail.length
  bound : ∀ {l}, l ∈ s.trail → l.var < s.size
  reason : ∀ {i l n}, s.trail[i]? = some l → (s.cell l.var).reason = some n →
    s.Forces n l (s.trail.take i)
  root : ∀ {i l}, s.trail[i]? = some l → (s.cell l.var).reason = none →
    i ∈ s.starts ∨ (∀ j ∈ s.starts, i < j) ∧ ∃ d, (l, d) ∈ s.db.units

namespace Assigned

/-! ## Values -/

theorem value_true (h : s.Assigned) : s.value l = some true ↔ l ∈ s.trail := by
  rw [← h.value]
  unfold State.value
  rcases (s.cell l.var).value with _ | _ | _ <;> cases l.isNegated <;> simp

theorem value_false (h : s.Assigned) : s.value l = some false ↔ l.neg ∈ s.trail := by
  rw [← h.value]
  unfold State.value
  rw [Literal.var_neg, Literal.isNegated_neg]
  rcases (s.cell l.var).value with _ | _ | _ <;> cases l.isNegated <;> simp

theorem value_none (h : s.Assigned) : s.value l = none ↔ l ∉ s.trail ∧ l.neg ∉ s.trail := by
  rw [← h.value_true, ← h.value_false]
  rcases s.value l with _ | _ | _ <;> simp

/-- A literal and its negation are not both true. -/
theorem not_both (h : s.Assigned) (hl : l ∈ s.trail) : l.neg ∉ s.trail := by
  rw [← h.value_true] at hl
  rw [← h.value_false, hl]
  simp

/-- A variable has one literal on the trail. -/
theorem eq_of_var (h : s.Assigned) (hl : l ∈ s.trail) (hk : k ∈ s.trail) (hvar : l.var = k.var) :
    l = k := by
  rcases Literal.eq_or_eq_neg hvar with he | he
  · exact he
  · rw [he] at hl
    exact absurd hl (h.not_both hk)

theorem level_of_mem (h : s.Assigned) (hl : l ∈ s.trail) :
    ∃ i, s.trail[i]? = some l ∧ s.level l = s.starts.countP (· ≤ i) := by
  obtain ⟨i, hi⟩ := List.mem_iff_getElem?.mp hl
  exact ⟨i, hi, h.level hi⟩

theorem level_le (h : s.Assigned) (hl : l ∈ s.trail) : s.level l ≤ s.starts.length := by
  obtain ⟨i, -, hlevel⟩ := h.level_of_mem hl
  rw [hlevel]
  exact List.countP_le_length

/-- Literals are on the trail in the order of their levels. -/
theorem level_mono (h : s.Assigned) {j : Nat} (hi : s.trail[i]? = some l)
    (hj : s.trail[j]? = some k) (hij : i ≤ j) :
    s.level l ≤ s.level k := by
  rw [h.level hi, h.level hj]
  apply List.countP_mono_left
  intro x _ hx
  simp only [decide_eq_true_eq] at hx ⊢
  omega

theorem countP_le_split (starts : List Nat) {i j : Nat} (hij : i ≤ j + 1) :
    starts.countP (· ≤ j) = starts.countP (· < i) + starts.countP fun x => i ≤ x ∧ x ≤ j := by
  induction starts with
  | nil => rfl
  | cons x xs ih =>
    rw [List.countP_cons, List.countP_cons, List.countP_cons, ih]
    simp only [decide_eq_true_eq]
    split <;> split <;> split <;> omega

/-- A literal behind a decision has a level above those before it. -/
theorem level_lt (h : s.Assigned) {j start : Nat} (hi : s.trail[i]? = some l)
    (hj : s.trail[j]? = some k)
    (hstart : start ∈ s.starts) (his : i < start) (hsj : start ≤ j) : s.level l < s.level k := by
  rw [h.level hi, h.level hj]
  have hsplit := countP_le_split s.starts (i := i + 1) (j := j) (by omega)
  have hsame : s.starts.countP (· < i + 1) = s.starts.countP (· ≤ i) := by
    apply List.countP_congr
    intro x _
    simp only [decide_eq_true_eq]
    omega
  have hpos : 0 < s.starts.countP fun x => i + 1 ≤ x ∧ x ≤ j := by
    rw [List.countP_pos_iff]
    exact ⟨start, hstart, by simpa using ⟨his, hsj⟩⟩
  omega

theorem level_eq_zero (h : s.Assigned) (hi : s.trail[i]? = some l) :
    s.level l = 0 ↔ ∀ j ∈ s.starts, i < j := by
  rw [h.level hi, List.countP_eq_zero]
  simp

/-! ## Level 0 -/

/-- What is true at level 0 is true in every valuation that satisfies the clauses. -/
theorem root_holds (h : s.Assigned) {a : Nat → Bool} (ha : s.db.Obeys a) (hl : l ∈ s.trail)
    (hlevel : s.level l = 0) :
    l.Holds a := by
  obtain ⟨i, hi⟩ := List.mem_iff_getElem?.mp hl
  clear hl
  -- by induction on the place: the literals that falsified the rest of a reason stand before, at
  -- level 0 as well
  induction i using Nat.strong_induction_on generalizing l with
  | _ i ih =>
    cases hreason : (s.cell l.var).reason with
    | none =>
      rcases h.root hi hreason with hstart | ⟨-, d, hunit⟩
      · have hlt := (h.level_eq_zero hi).mp hlevel i hstart
        omega
      · exact ha.unit hunit
    | some n =>
      obtain ⟨cl, hcl, -, hothers⟩ := h.reason hi hreason
      obtain ⟨k, hk, hholds⟩ := ha.clause hcl
      rcases hothers k hk with rfl | hbefore
      · exact hholds
      · obtain ⟨j, hj⟩ := List.mem_iff_getElem?.mp hbefore
        rw [List.getElem?_take] at hj
        split at hj
        next hji =>
          have hlevel' : s.level k.neg = 0 := by
            have hle := h.level_mono hj hi (by omega)
            omega
          exact absurd hholds (Literal.holds_neg.mp (ih j hji hlevel' hj))
        next => cases hj

/-! ## Changes -/

/-- A state with the same trail, where clauses and units kept their literals. -/
theorem of_same (h : s.Assigned)
    (hcell : ∀ v, (t.cell v).value = (s.cell v).value ∧ (t.cell v).level = (s.cell v).level ∧
      (t.cell v).reason = (s.cell v).reason) (hsize : s.size ≤ t.size)
    (hclause : ∀ {n cl}, s.db.clause? n = some cl → ∃ cl', t.db.clause? n = some cl' ∧ cl'.1 = cl.1)
    (hunit : ∀ {l d}, (l, d) ∈ s.db.units → ∃ d', (l, d') ∈ t.db.units)
    (htrail : t.trail = s.trail) (hstarts : t.starts = s.starts) (hhead : t.head ≤ t.trail.length) :
    t.Assigned where
  nodup := by
    rw [htrail]
    exact h.nodup
  value {l} := by
    rw [(hcell _).1, htrail]
    exact h.value
  level {i l} hi := by
    rw [htrail] at hi
    rw [hstarts, ← h.level hi]
    exact (hcell _).2.1
  starts := by
    rw [hstarts]
    exact h.starts
  below {i} hi := by
    rw [hstarts] at hi
    rw [htrail]
    exact h.below hi
  head := hhead
  bound {l} hl := by
    rw [htrail] at hl
    exact Nat.lt_of_lt_of_le (h.bound hl) hsize
  reason {i l n} hi hreason := by
    rw [htrail] at hi
    rw [(hcell _).2.2] at hreason
    obtain ⟨cl, hcl, hl, hothers⟩ := h.reason hi hreason
    obtain ⟨cl', hcl', hsame⟩ := hclause hcl
    rw [htrail]
    exact ⟨cl', hcl', hsame ▸ hl, hsame ▸ hothers⟩
  root {i l} hi hreason := by
    rw [htrail] at hi
    rw [(hcell _).2.2] at hreason
    rw [hstarts]
    rcases h.root hi hreason with hstart | ⟨hlevel, d, hd⟩
    · exact .inl hstart
    · exact .inr ⟨hlevel, hunit hd⟩

theorem cell_assign (s : State) (l : Literal) (r : Option Nat) (hl : l.var < s.size) (v : Nat) :
    (s.assign l r).cell v =
      if v = l.var
        then { s.cell v with value := some !l.isNegated, level := s.starts.length, reason := r }
      else s.cell v := by
  unfold assign set
  by_cases hv : v = l.var
  · subst hv
    simp [hl]
  · simp [hv]

/-- What is on the trail keeps its level. -/
theorem level_push (h : s.Assigned) (hvalue : s.value l = none) (r : Option Nat) (hl : l.var <
      s.size) (starts : List Nat) :
    ∀ k ∈ s.trail, ({ s with starts }.assign l r).level k = s.level k := by
  obtain ⟨hpos, hneg⟩ := h.value_none.mp hvalue
  intro k hk
  have hne : k.var ≠ l.var := by
    intro he
    rcases Literal.eq_or_eq_neg he with rfl | rfl
    · exact hpos hk
    · exact hneg hk
  unfold State.level
  rw [cell_assign { s with starts } l r hl, if_neg hne]

/-- A literal without value becomes true at the present level, or at a new level as its decision. -/
theorem push (h : s.Assigned) (hvalue : s.value l = none) (hvar : l.var < s.size) {ext : List Nat}
    (hext : ext = [] ∨ ext = [s.trail.length]) {r : Option Nat}
    (hreason : ∀ {n}, r = some n → s.Forces n l s.trail)
    (hroot : r = none → ext = [s.trail.length] ∨ s.starts ++ ext = [] ∧ ∃ d, (l, d) ∈ s.db.units) :
    ({ s with starts := s.starts ++ ext }.assign l r).Assigned := by
  obtain ⟨hpos, hneg⟩ := h.value_none.mp hvalue
  have hcell := cell_assign { s with starts := s.starts ++ ext } l r hvar
  have hnew {k : Literal} (hk : k ∈ s.trail) : k.var ≠ l.var := by
    intro hkl
    rcases Literal.eq_or_eq_neg hkl with rfl | rfl
    · exact hpos hk
    · exact hneg hk
  have hold {k : Literal} (hk : k ∈ s.trail) :
      ({ s with starts := s.starts ++ ext }.assign l r).cell k.var = s.cell k.var := by
    rw [hcell, if_neg (hnew hk)]
  have hextlt {j : Nat} (hj : j ∈ ext) : j = s.trail.length := by
    rcases hext with rfl | rfl
    · cases hj
    · exact List.mem_singleton.mp hj
  have hplace {i : Nat} {k : Literal} (hi : (s.trail ++ [l])[i]? = some k) :
      s.trail[i]? = some k ∧ i < s.trail.length ∨ k = l ∧ i = s.trail.length := by
    rw [List.getElem?_append] at hi
    split at hi
    next hlt => exact .inl ⟨hi, hlt⟩
    next hge =>
      rw [List.getElem?_singleton] at hi
      split at hi
      next hzero => exact .inr ⟨(Option.some.inj hi).symm, by omega⟩
      next => cases hi
  -- the fields of `Assigned` in turn; `hplace` tells the new end of the trail from what was there
  refine ⟨?_, ?_, ?_, ?_, ?_, ?_, ?_, ?_, ?_⟩
  · show ((s.trail ++ [l]).map Literal.var).Nodup
    rw [List.map_append, List.nodup_append]
    refine ⟨h.nodup, List.nodup_singleton _, ?_⟩
    intro v hv w hw
    obtain ⟨k, hk, rfl⟩ := List.mem_map.mp hv
    rw [List.map_singleton, List.mem_singleton] at hw
    rw [hw]
    exact hnew hk
  · intro k
    rw [hcell]
    show _ ↔ k ∈ s.trail ++ [l]
    rw [List.mem_append, List.mem_singleton]
    by_cases hkl : k.var = l.var
    · rw [if_pos hkl]
      have hnot : k ∉ s.trail := fun hk => hnew hk hkl
      have hsign : some (!l.isNegated) = some (!k.isNegated) ↔ k = l := by
        constructor
        · intro hs
          apply Literal.ext_of_var hkl
          have hs' := Option.some.inj hs
          revert hs'
          cases l.isNegated <;> cases k.isNegated <;> simp
        · intro hs
          rw [hs]
      simp only [hnot, false_or]
      exact hsign
    · rw [if_neg hkl]
      have hne : k ≠ l := fun he => hkl (congrArg Literal.var he)
      simp only [hne, or_false]
      exact h.value
  · intro i k hi
    show (State.cell _ k.var).level = (s.starts ++ ext).countP (· ≤ i)
    rcases hplace hi with ⟨hi, hlt⟩ | ⟨rfl, rfl⟩
    · have hzero : ext.countP (· ≤ i) = 0 := by
        rw [List.countP_eq_zero]
        intro j hj
        have := hextlt hj
        simp only [decide_eq_true_eq]
        omega
      rw [hold (List.mem_of_getElem? hi), List.countP_append, hzero, Nat.add_zero]
      exact h.level hi
    · rw [hcell, if_pos rfl]
      show (s.starts ++ ext).length = _
      symm
      rw [List.countP_eq_length]
      intro j hj
      rcases List.mem_append.mp hj with hj | hj
      · have := h.below hj
        simp only [decide_eq_true_eq]
        omega
      · have := hextlt hj
        simp only [decide_eq_true_eq]
        omega
  · show (s.starts ++ ext).Pairwise (· < ·)
    rw [List.pairwise_append]
    refine ⟨h.starts, ?_, ?_⟩
    · rcases hext with rfl | rfl
      · exact List.Pairwise.nil
      · exact List.pairwise_singleton _ _
    · intro i hi j hj
      have hlt := h.below hi
      have := hextlt hj
      omega
  · intro i hi
    show i < (s.trail ++ [l]).length
    rw [List.length_append, List.length_singleton]
    rcases List.mem_append.mp hi with hi | hi
    · have := h.below hi
      omega
    · have := hextlt hi
      omega
  · show s.head ≤ (s.trail ++ [l]).length
    have := h.head
    rw [List.length_append]
    omega
  · intro k hk
    rcases List.mem_append.mp hk with hk | hk
    · exact h.bound hk
    · rw [List.mem_singleton.mp hk]
      exact hvar
  · intro i k n hi hn
    rcases hplace hi with ⟨hi, hlt⟩ | ⟨rfl, rfl⟩
    · rw [hold (List.mem_of_getElem? hi)] at hn
      show s.Forces n k ((s.trail ++ [l]).take i)
      rw [List.take_append_of_le_length (by omega)]
      exact h.reason hi hn
    · rw [hcell, if_pos rfl] at hn
      show s.Forces n k ((s.trail ++ [k]).take s.trail.length)
      rw [List.take_append_of_le_length (Nat.le_refl _), List.take_length]
      exact hreason hn
  · intro i k hi hn
    show i ∈ s.starts ++ ext ∨ (∀ j ∈ s.starts ++ ext, i < j) ∧ ∃ d, (k, d) ∈ s.db.units
    rcases hplace hi with ⟨hi, hlt⟩ | ⟨rfl, rfl⟩
    · rw [hold (List.mem_of_getElem? hi)] at hn
      rcases h.root hi hn with hstart | ⟨hlevel, hunit⟩
      · exact .inl (List.mem_append_left _ hstart)
      · refine .inr ⟨fun j hj => ?_, hunit⟩
        rcases List.mem_append.mp hj with hj | hj
        · exact hlevel j hj
        · have := hextlt hj
          omega
    · rw [hcell, if_pos rfl] at hn
      rcases hroot hn with hnew | ⟨hnil, hunit⟩
      · refine .inl (List.mem_append_right _ ?_)
        rw [hnew]
        exact List.mem_cons_self
      · refine .inr ⟨fun j hj => ?_, hunit⟩
        rw [hnil] at hj
        cases hj

/-- A literal is forced, or is a unit at level 0. -/
theorem assign (h : s.Assigned) (hvalue : s.value l = none) (hvar : l.var < s.size) {r : Option Nat}
    (hreason : ∀ {n}, r = some n → s.Forces n l s.trail)
    (hroot : r = none → s.starts = [] ∧ ∃ d, (l, d) ∈ s.db.units) : (s.assign l r).Assigned := by
  have hpush := h.push hvalue hvar (.inl rfl) hreason fun hr =>
    .inr (by rw [List.append_nil]; exact hroot hr)
  rwa [List.append_nil] at hpush

/-- A literal is decided. -/
theorem decide (h : s.Assigned) (hvalue : s.value l = none) (hvar : l.var < s.size) :
    (s.decide l).Assigned :=
  h.push hvalue hvar (.inr rfl) (fun hn => by cases hn) fun _ => .inl rfl

theorem cell_cut (h : s.Assigned) (start v : Nat) :
    (s.cut start).cell v =
      if v ∈ (s.trail.drop start).map Literal.var
        then { s.cell v with value := none, reason := none } else s.cell v := by
  unfold cut unassign
  by_cases hv : v ∈ (s.trail.drop start).map Literal.var
  · obtain ⟨l, hl, rfl⟩ := List.mem_map.mp hv
    have hlt := h.bound (List.mem_of_mem_drop hl)
    simp only [hv, hlt, and_self, if_true]
  · simp only [hv, false_and, if_false]

/-- What is before the cut is not what is cut off. -/
theorem not_mem_drop (h : s.Assigned) {start : Nat} (hl : l ∈ s.trail.take start) :
    l.var ∉ (s.trail.drop start).map Literal.var := by
  have hnodup := h.nodup
  rw [← List.take_append_drop start s.trail, List.map_append, List.nodup_append] at hnodup
  intro hmem
  exact hnodup.2.2 _ (List.mem_map.mpr ⟨l, hl, rfl⟩) _ hmem rfl

/-- A variable is on the trail once. -/
theorem var_not_mem_take (h : s.Assigned) (hi : s.trail[i]? = some l) :
    l.var ∉ (s.trail.take i).map Literal.var := by
  intro hmem
  obtain ⟨k, hk, hkl⟩ := List.mem_map.mp hmem
  have hdrop : l ∈ s.trail.drop i := by
    apply List.mem_of_getElem? (i := 0)
    rw [List.getElem?_drop, Nat.add_zero, hi]
  exact h.not_mem_drop hk (List.mem_map.mpr ⟨l, hdrop, hkl.symm⟩)

/-- Cutting the trail off at a place, with the decisions from there on. -/
theorem cut (h : s.Assigned) (start : Nat) {t : State} (hcell : t.cell = (s.cut start).cell)
    (hsize : t.size = s.size) (hdb : t.db = s.db) (htrail : t.trail = s.trail.take start)
    (hstarts : t.starts = s.starts.filter (· < start))
    (hhead : t.head ≤ t.trail.length) : t.Assigned := by
  have hkept {k : Literal} (hk : k ∈ s.trail.take start) : t.cell k.var = s.cell k.var := by
    rw [hcell, h.cell_cut, if_neg (h.not_mem_drop hk)]
  -- what is left of the trail stands where it stood, so every field is read off the old one
  have hplace {i : Nat} {k : Literal} (hi : t.trail[i]? = some k) :
      i < start ∧ s.trail[i]? = some k ∧ k ∈ s.trail.take start := by
    rw [htrail] at hi
    have hmem := List.mem_of_getElem? hi
    rw [List.getElem?_take] at hi
    split at hi
    next hlt => exact ⟨hlt, hi, hmem⟩
    next => cases hi
  have hmemStarts {j : Nat} : j ∈ t.starts ↔ j ∈ s.starts ∧ j < start := by
    rw [hstarts, List.mem_filter]
    simp
  refine ⟨?_, ?_, ?_, ?_, ?_, hhead, ?_, ?_, ?_⟩
  · rw [htrail, List.map_take]
    exact h.nodup.sublist (List.take_sublist _ _)
  · intro k
    rw [hcell, h.cell_cut, htrail]
    by_cases hdrop : k.var ∈ (s.trail.drop start).map Literal.var
    · rw [if_pos hdrop]
      constructor
      · intro hvalue
        cases hvalue
      · intro hk
        exact absurd hdrop (h.not_mem_drop hk)
    · rw [if_neg hdrop, h.value]
      constructor
      · intro hk
        rw [← List.take_append_drop start s.trail] at hk
        rcases List.mem_append.mp hk with hk | hk
        · exact hk
        · exact absurd (List.mem_map.mpr ⟨k, hk, rfl⟩) hdrop
      · exact List.mem_of_mem_take
  · intro i k hi
    obtain ⟨hlt, hi, hmem⟩ := hplace hi
    show (t.cell k.var).level = _
    rw [hkept hmem, hstarts, List.countP_filter]
    rw [show (s.cell k.var).level = _ from h.level hi]
    apply List.countP_congr
    intro j _
    simp only [decide_eq_true_eq, Bool.and_eq_true]
    omega
  · rw [hstarts]
    exact h.starts.filter _
  · intro i hi
    obtain ⟨hi, hlt⟩ := hmemStarts.mp hi
    have := h.below hi
    rw [htrail, List.length_take]
    omega
  · intro k hk
    rw [htrail] at hk
    rw [hsize]
    exact h.bound (List.mem_of_mem_take hk)
  · intro i k n hi hn
    obtain ⟨hlt, hi, hmem⟩ := hplace hi
    rw [hkept hmem] at hn
    have hforces := h.reason hi hn
    unfold Forces at hforces ⊢
    rw [hdb, htrail, List.take_take, Nat.min_eq_left (Nat.le_of_lt hlt)]
    exact hforces
  · intro i k hi hn
    obtain ⟨hlt, hi, hmem⟩ := hplace hi
    rw [hkept hmem] at hn
    rw [hdb]
    rcases h.root hi hn with hstart | ⟨hlevel, hunit⟩
    · exact .inl (hmemStarts.mpr ⟨hstart, hlt⟩)
    · exact .inr ⟨fun j hj => hlevel j (hmemStarts.mp hj).1, hunit⟩

/-- Everything is taken back. -/
theorem clear (h : s.Assigned) : s.clear.Assigned := by
  apply h.cut 0 (t := s.clear) rfl rfl rfl rfl
  · show [] = s.starts.filter (· < 0)
    simp
  · exact Nat.zero_le _

/-- Levels up to `level` start before the next one. -/
theorem take_starts (h : s.Assigned) {level start : Nat} (hstart : s.starts[level]? = some start) :
    s.starts.take level = s.starts.filter (· < start) := by
  obtain ⟨hlt, hget⟩ := List.getElem?_eq_some_iff.mp hstart
  have hsplit : s.starts = s.starts.take level ++ s.starts.drop level :=
    (List.take_append_drop _ _).symm
  have hsorted := h.starts
  rw [hsplit, List.pairwise_append] at hsorted
  have hmem : start ∈ s.starts.drop level := by
    rw [List.mem_iff_getElem?]
    exact ⟨0, by rw [List.getElem?_drop, Nat.add_zero, hstart]⟩
  have hlow : (s.starts.take level).filter (· < start) = s.starts.take level := by
    rw [List.filter_eq_self]
    intro j hj
    simpa using hsorted.2.2 j hj start hmem
  have hhigh : (s.starts.drop level).filter (· < start) = [] := by
    rw [List.filter_eq_nil_iff]
    intro j hj
    have hdrop : s.starts.drop level = start :: s.starts.drop (level + 1) := by
      rw [← hget]
      exact List.drop_eq_getElem_cons hlt
    have htail := hsorted.2.1
    rw [hdrop] at hj htail
    rcases List.mem_cons.mp hj with rfl | hj
    · simp
    · have := (List.pairwise_cons.mp htail).1 j hj
      simp only [decide_eq_true_eq]
      omega
  conv_rhs => rw [hsplit, List.filter_append, hlow, hhigh, List.append_nil]

/-- What is before the start of a level is of a lower level. -/
theorem lt_start_iff (h : s.Assigned) {level start : Nat} (hstart : s.starts[level]? = some start)
    (hi : s.trail[i]? = some l) : i < start ↔ s.level l ≤ level := by
  have hcount : s.starts.countP (· < start) = level := by
    have hlt := (List.getElem?_eq_some_iff.mp hstart).1
    rw [List.countP_eq_length_filter, ← h.take_starts hstart, List.length_take]
    omega
  rw [h.level hi]
  constructor
  · intro hlt
    rw [← hcount]
    apply List.countP_mono_left
    intro x _ hx
    simp only [decide_eq_true_eq] at hx ⊢
    omega
  · intro hle
    apply Nat.lt_of_not_le
    intro hge
    have hsplit := countP_le_split s.starts (i := start) (j := i) (by omega)
    have hpos : 0 < s.starts.countP fun x => start ≤ x ∧ x ≤ i := by
      rw [List.countP_pos_iff]
      exact ⟨start, List.mem_of_getElem? hstart, by simpa using hge⟩
    omega

/-- The search goes back to a level. -/
theorem back (h : s.Assigned) (level : Nat) : (s.back level).Assigned := by
  unfold State.back
  cases hstart : s.starts[level]? with
  | none => exact h
  | some start =>
    have hhead : min s.head start ≤ (s.trail.take start).length := by
      have := h.head
      rw [List.length_take]
      omega
    exact h.cut start (t := { s.cut start with starts := s.starts.take level }) rfl rfl rfl rfl
      (h.take_starts hstart) hhead

/-- A literal of a level that is kept stays on the trail, at its level. -/
theorem mem_back (h : s.Assigned) (level : Nat) (hl : l ∈ s.trail) (hlevel : s.level l ≤ level) :
    l ∈ (s.back level).trail ∧ (s.back level).level l = s.level l := by
  unfold State.back
  cases hstart : s.starts[level]? with
  | none => exact ⟨hl, rfl⟩
  | some start =>
    obtain ⟨i, hi⟩ := List.mem_iff_getElem?.mp hl
    have hlt := (h.lt_start_iff hstart hi).mpr hlevel
    have htake : l ∈ s.trail.take start := by
      apply List.mem_of_getElem? (i := i)
      rw [List.getElem?_take, if_pos hlt, hi]
    refine ⟨htake, ?_⟩
    show ((s.cut start).cell l.var).level = _
    rw [h.cell_cut, if_neg (h.not_mem_drop htake)]
    rfl

/-- What is left on the trail was there before, at its level. -/
theorem mem_of_back (h : s.Assigned) (level : Nat) (hl : l ∈ (s.back level).trail) :
    l ∈ s.trail ∧ (s.back level).level l = s.level l := by
  unfold State.back at hl ⊢
  cases hstart : s.starts[level]? with
  | none =>
    rw [hstart] at hl
    exact ⟨hl, rfl⟩
  | some start =>
    rw [hstart] at hl
    change l ∈ s.trail.take start at hl
    refine ⟨List.mem_of_mem_take hl, ?_⟩
    show ((s.cut start).cell l.var).level = _
    rw [h.cell_cut, if_neg (h.not_mem_drop hl)]
    rfl

end Assigned

/-! ## What going back does not change -/

theorem live_cut (s : State) (start v : Nat) :
    ((s.cut start).cell v).live = (s.cell v).live ∧
    ((s.cut start).cell v).seen = (s.cell v).seen := by
  unfold cut unassign
  simp only
  split
  · exact ⟨rfl, rfl⟩
  · exact ⟨rfl, rfl⟩

theorem live_back (s : State) (level v : Nat) :
    ((s.back level).cell v).live = (s.cell v).live ∧
    ((s.back level).cell v).seen = (s.cell v).seen := by
  unfold back
  split
  · exact ⟨rfl, rfl⟩
  next start _ => exact live_cut s start v

theorem db_back (s : State) (level : Nat) : (s.back level).db = s.db := by
  unfold back
  split <;> rfl

theorem conflict_back (s : State) (level : Nat) : (s.back level).conflict = s.conflict := by
  unfold back
  split <;> rfl

theorem length_starts_back {s : State} {level : Nat} (h : level ≤ s.starts.length) :
    (s.back level).starts.length = level := by
  unfold back
  split
  next hnone => exact Nat.le_antisymm h (List.getElem?_eq_none_iff.mp hnone) |>.symm
  next => exact List.length_take_of_le h

end State
end Entail.Search
