import Entail.Proofs.Search.Propagate

/-!
# Conflict analysis

The marked literals are false, and in every valuation that satisfies the clauses one of them is
true. Those of the present level are counted, and are replaced by literals that were falsified
before until one is left. Its negation and the marked literals of lower levels form a clause that
follows from the clauses.
-/

namespace Entail

namespace Search

variable {ls : List Literal} {p : Literal}

/-! ## Marks -/

/-- Sets the mark of one variable. -/
def markAs (m : Nat → Bool) (v : Nat) (b : Bool) : Nat → Bool := fun u => if u = v then b else m u

/-- Number of literals that `q` holds of and whose variables are marked. -/
def countMarked (q : Literal → Bool) (m : Nat → Bool) (ls : List Literal) : Nat :=
  ls.countP fun l => q l && m l.var

/-- Marks of other variables do not matter. -/
theorem countMarked_of_not_mem (q : Literal → Bool) (m : Nat → Bool) {v : Nat} (b : Bool)
    (hv : v ∉ ls.map Literal.var) : countMarked q (markAs m v b) ls = countMarked q m ls := by
  apply List.countP_congr
  intro l hl
  have hne : l.var ≠ v := fun he => hv (List.mem_map.mpr ⟨l, hl, he⟩)
  simp [markAs, hne]

/-- Marking one literal makes one more. -/
theorem countMarked_mark {q : Literal → Bool} {m : Nat → Bool} (hnodup : (ls.map Literal.var).Nodup)
    (hp : p ∈ ls) (hq : q p = true) (hm : m p.var = false) :
    countMarked q (markAs m p.var true) ls = countMarked q m ls + 1 := by
  induction ls with
  | nil => cases hp
  | cons l ls ih =>
    obtain ⟨hnot, hnodup⟩ := List.nodup_cons.mp hnodup
    unfold countMarked
    rw [List.countP_cons, List.countP_cons]
    rcases List.mem_cons.mp hp with rfl | hp
    · have hrest := countMarked_of_not_mem q m true hnot
      unfold countMarked at hrest
      rw [hrest]
      simp [markAs, hq, hm]
    · have hne : l.var ≠ p.var := fun he => hnot (he ▸ List.mem_map.mpr ⟨p, hp, rfl⟩)
      have hrest := ih hnodup hp
      unfold countMarked at hrest
      rw [hrest]
      simp only [markAs, if_neg hne]
      omega

namespace State

variable {s : State} {m : Nat → Bool} {v : Nat}

/-- The state with other marks. -/
def mark (s : State) (m : Nat → Bool) : State :=
  { s with cell := fun v => { s.cell v with seen := m v } }

theorem mark_set (hv : v < s.size) (b : Bool) :
    (s.mark m).set v ({ · with seen := b }) = s.mark (markAs m v b) := by
  refine State.ext (funext fun u => ?_) rfl rfl rfl rfl rfl rfl rfl rfl rfl
  show (if u = v ∧ u < s.size then { s.cell u with seen := b } else { s.cell u with seen := m u }) =
    { s.cell u with seen := if u = v then b else m u }
  by_cases hu : u = v
  · have hlt : u < s.size := hu ▸ hv
    simp [hu, hv]
  · simp [hu]

/-- Marks as they are. -/
theorem mark_self (h : ∀ v, (s.cell v).seen = m v) : s.mark m = s := by
  refine State.ext (funext fun v => ?_) rfl rfl rfl rfl rfl rfl rfl rfl rfl
  show { s.cell v with seen := m v } = s.cell v
  rw [← h v]

/-- A clause to learn. All its literals are false, the first since the present level, the others
since `level` or before. -/
structure Flips (s : State) (level : Nat) (first : Literal) (rest : List Literal) : Prop where
  mem : first.neg ∈ s.trail
  latest : s.level first = s.starts.length
  lower : level < s.starts.length
  others : ∀ l ∈ rest, l.neg ∈ s.trail ∧ s.level l ≤ level
  second : ∀ l, rest.head? = some l → s.level l = level
  root : rest = [] → level = 0
  nodup : (first :: rest).Nodup

/-- A clause to learn that follows from the clauses. -/
structure Asserts (s : State) (level : Nat) (first : Literal) (rest : List Literal) : Prop
    extends s.Flips level first rest where
  entailed : ∀ {a}, s.db.Models a → ∃ l ∈ first :: rest, l.Holds a

/-- Where an analysis stands: the marks are those of the literals below the highest level and of
some literals of the highest level among the first `len` of the trail, which are counted. -/
structure Resolving (s : State) (len : Nat) (r : Resolution) (m : Nat → Bool) : Prop where
  state : r.core.state = s.mark m
  lower : ∀ l ∈ r.lower.toList, l.neg ∈ s.trail ∧ s.level l < s.starts.length ∧ m l.var = true
  nodup : (r.lower.toList.map Literal.var).Nodup
  marked : ∀ v, m v = true → (∃ l ∈ r.lower.toList, l.var = v) ∨
    ∃ p ∈ s.trail.take len, p.var = v ∧ s.level p = s.starts.length
  pending : r.pending = countMarked (fun p => s.level p = s.starts.length) m (s.trail.take len)

/-- One of the marked literals is true in each valuation that `q` holds of. -/
def Covered (s : State) (q : (Nat → Bool) → Prop) (m : Nat → Bool) : Prop :=
  ∀ a, q a → ∃ l : Literal, l.Holds a ∧ l.neg ∈ s.trail ∧ m l.var = true

end State
end Search

namespace Core

open Search Search.State

variable {s : State} {len : Nat} {r : Resolution} {m : Nat → Bool} {l : Literal}
  {q : (Nat → Bool) → Prop}

/-! ## Taking literals into account -/

theorem state_mark_bump {c : Core} (hc : c.state = s.mark m) {v : Nat} (hv : v < s.size) :
    ((c.setSeen v true).bump v).state = s.mark (markAs m v true) := by
  rw [state_bump, state_setSeen, hc, mark_set hv]

theorem absorbLit_spec (hs : s.Assigned) (h : s.Resolving len r m) (hl : l.neg ∈ s.trail.take len) :
    ∃ m', s.Resolving len (absorbLit s.starts.length r l) m' ∧ (∀ v, m v = true → m' v = true) ∧
      (s.level l ≠ 0 → m' l.var = true) ∧ r.pending ≤ (absorbLit s.starts.length r l).pending := by
  have hltrail : l.neg ∈ s.trail := List.mem_of_mem_take hl
  have hvar : l.var < s.size := by
    have hbound := hs.bound hltrail
    rwa [Literal.var_neg] at hbound
  have hle : s.level l ≤ s.starts.length := by
    rw [← level_neg]
    exact hs.level_le hltrail
  have hseen : r.core.isSeen l.var = m l.var := congrArg (fun t => (t.cell l.var).seen) h.state
  have hlevel {c : Core} {m' : Nat → Bool} (hc : c.state = s.mark m') : c.level l.var = s.level l :=
    congrArg (fun t => (t.cell l.var).level) hc
  unfold absorbLit
  simp only [hseen, hlevel h.state]
  -- a literal that is marked, or false at level 0, is left out
  split
  next hskip =>
    refine ⟨m, h, fun v hv => hv, fun hzero => ?_, Nat.le_refl _⟩
    simpa [hzero] using hskip
  next hnew =>
    have hnew : m l.var = false ∧ s.level l ≠ 0 := by simpa using hnew
    have hcore := state_mark_bump h.state hvar
    simp only [hlevel hcore]
    generalize (r.core.setSeen l.var true).bump l.var = c at hcore
    have hmono (v : Nat) (hv : m v = true) : markAs m l.var true v = true := by
      unfold markAs
      split
      · rfl
      · exact hv
    have hself : markAs m l.var true l.var = true := if_pos rfl
    have hlower : ∀ k ∈ r.lower.toList,
        k.neg ∈ s.trail ∧ s.level k < s.starts.length ∧ markAs m l.var true k.var = true := by
      intro k hk
      obtain ⟨hneg, hlt, hmark⟩ := h.lower k hk
      exact ⟨hneg, hlt, hmono _ hmark⟩
    have hnodup : ((s.trail.take len).map Literal.var).Nodup := by
      rw [List.map_take]
      exact hs.nodup.sublist (List.take_sublist _ _)
    have hcount := countMarked_mark (q := fun p => s.level p = s.starts.length) (m := m) hnodup hl
    rw [Literal.var_neg, level_neg, decide_eq_true_eq] at hcount
    -- a literal of the highest level is counted, one of a lower level goes into the clause
    by_cases htop : s.level l ≥ s.starts.length
    · rw [if_pos htop]
      have heq : s.level l = s.starts.length := Nat.le_antisymm hle htop
      refine ⟨markAs m l.var true, ⟨hcore, hlower, h.nodup, ?_, ?_⟩, hmono, fun _ => hself,
        Nat.le_succ _⟩
      · intro v hv
        by_cases hvl : v = l.var
        · exact .inr ⟨l.neg, hl, by rw [Literal.var_neg, hvl], by rw [level_neg, heq]⟩
        · rw [markAs, if_neg hvl] at hv
          exact h.marked v hv
      · rw [hcount heq hnew.1, ← h.pending]
    · rw [if_neg htop]
      have hpush : (r.lower.push l).toList = r.lower.toList ++ [l] := Array.toList_push
      refine ⟨markAs m l.var true, ⟨hcore, ?_, ?_, ?_, ?_⟩, hmono, fun _ => hself, Nat.le_refl _⟩
      · intro k hk
        rw [hpush] at hk
        rcases List.mem_append.mp hk with hk | hk
        · exact hlower k hk
        · rw [List.mem_singleton.mp hk]
          exact ⟨hltrail, Nat.lt_of_not_le htop, hself⟩
      · rw [hpush, List.map_append, List.nodup_append]
        refine ⟨h.nodup, List.nodup_singleton _, ?_⟩
        intro v hv w hw hvw
        obtain ⟨k, hk, rfl⟩ := List.mem_map.mp hv
        rw [List.map_singleton, List.mem_singleton] at hw
        have hmark := (h.lower k hk).2.2
        rw [hvw, hw, hnew.1] at hmark
        cases hmark
      · intro v hv
        rw [hpush]
        by_cases hvl : v = l.var
        · exact .inl ⟨l, List.mem_append_right _ List.mem_cons_self, hvl.symm⟩
        · rw [markAs, if_neg hvl] at hv
          refine (h.marked v hv).imp_left fun hk => ?_
          obtain ⟨k, hk, hkv⟩ := hk
          exact ⟨k, List.mem_append_left _ hk, hkv⟩
      · -- the literal is not of the highest level, so it is not counted
        show r.pending = _
        rw [h.pending]
        apply List.countP_congr
        intro p _
        by_cases hp : p.var = l.var
        · have hlevelp : s.level p = s.level l := congrArg (fun v => (s.cell v).level) hp
          have hne : ¬ s.level p = s.starts.length := by omega
          simp [hne]
        · simp [markAs, hp]

theorem absorb_spec (hs : s.Assigned) {ls : List Literal} (h : s.Resolving len r m)
    (hls : ∀ l ∈ ls, l.neg ∈ s.trail.take len) :
    ∃ m', s.Resolving len (absorb s.starts.length r ls) m' ∧ (∀ v, m v = true → m' v = true) ∧
      (∀ l ∈ ls, s.level l ≠ 0 → m' l.var = true) ∧
      r.pending ≤ (absorb s.starts.length r ls).pending := by
  induction ls generalizing r m with
  | nil => exact ⟨m, h, fun v hv => hv, fun l hl => (List.not_mem_nil hl).elim, Nat.le_refl _⟩
  | cons l ls ih =>
    obtain ⟨m₁, h₁, hmono₁, hself₁, hle₁⟩ := absorbLit_spec hs h (hls l List.mem_cons_self)
    obtain ⟨m₂, h₂, hmono₂, hself₂, hle₂⟩ := ih h₁ fun k hk => hls k (List.mem_cons_of_mem _ hk)
    refine ⟨m₂, h₂, fun v hv => hmono₂ v (hmono₁ v hv), ?_, Nat.le_trans hle₁ hle₂⟩
    intro k hk hlevel
    rcases List.mem_cons.mp hk with rfl | hk
    · exact hmono₂ _ (hself₁ hlevel)
    · exact hself₂ k hk hlevel

/-- When a clause is taken into account, one of its literals that are true in a valuation is
marked. -/
theorem covered_of_clause (hs : s.Assigned) {p : Literal → Prop} {a : Nat → Bool}
    (ha : s.db.Obeys a) (hclause : ∃ k : Literal, p k ∧ k.Holds a)
    (hfalse : ∀ k : Literal, p k → k.Holds a → k.neg ∈ s.trail ∧ (s.level k ≠ 0 → m k.var = true)) :
    ∃ k : Literal, k.Holds a ∧ k.neg ∈ s.trail ∧ m k.var = true := by
  obtain ⟨k, hk, hholds⟩ := hclause
  obtain ⟨hneg, hmark⟩ := hfalse k hk hholds
  refine ⟨k, hholds, hneg, hmark fun hzero => ?_⟩
  have hroot := hs.root_holds ha hneg (by rw [level_neg, hzero])
  exact Literal.holds_neg.mp hroot hholds

/-! ## Going down the trail -/

/-- What is left in the end: the literal `uip` of the highest level, and marked literals below
that level. -/
structure Resolved (s : State) (q : (Nat → Bool) → Prop) (uip : Literal) (r : Resolution)
    (m : Nat → Bool) : Prop where
  state : r.core.state = s.mark m
  mem : uip ∈ s.trail
  latest : s.level uip = s.starts.length
  lower : ∀ l ∈ r.lower.toList, l.neg ∈ s.trail ∧ s.level l < s.starts.length
  nodup : (r.lower.toList.map Literal.var).Nodup
  marked : ∀ v, m v = true → ∃ l ∈ r.lower.toList, l.var = v
  entailed : ∀ {a}, q a → ∃ l ∈ uip.neg :: r.lower.toList, l.Holds a

/-- The last literal is passed over when it is not marked. -/
theorem skip_spec (h : s.Resolving (len + 1) r m) {p : Literal} (hget : s.trail[len]? = some p)
    (hp : m p.var = false) :
    s.Resolving len r m := by
  have htake : s.trail.take (len + 1) = s.trail.take len ++ [p] := by
    rw [List.take_add_one, hget]
    rfl
  refine ⟨h.state, h.lower, h.nodup, ?_, ?_⟩
  · intro v hv
    refine (h.marked v hv).imp_right fun hq => ?_
    obtain ⟨q, hq, hqv, hlevel⟩ := hq
    rw [htake, List.mem_append, List.mem_singleton] at hq
    rcases hq with hq | rfl
    · exact ⟨q, hq, hqv, hlevel⟩
    · rw [hqv, hv] at hp
      cases hp
  · rw [h.pending, htake]
    unfold countMarked
    rw [List.countP_append, List.countP_singleton]
    simp [hp]

/-- The last literal is of the highest level when it is marked, and is not counted any more. -/
theorem take_spec (hs : s.Assigned) (h : s.Resolving (len + 1) r m) (hpending : 0 < r.pending)
    {p : Literal} (hget : s.trail[len]? = some p) (hp : m p.var = true) :
    s.level p = s.starts.length ∧
      s.Resolving len { r with core := r.core.setSeen p.var false, pending := r.pending - 1 }
        (markAs m p.var false) := by
  have hmem : p ∈ s.trail := List.mem_of_getElem? hget
  have htake : s.trail.take (len + 1) = s.trail.take len ++ [p] := by
    rw [List.take_add_one, hget]
    rfl
  -- a marked literal of the highest level comes before or is `p`
  have hlevel : s.level p = s.starts.length := by
    have hpos := hpending
    rw [h.pending] at hpos
    obtain ⟨q, hq, hqm⟩ := List.countP_pos_iff.mp hpos
    rw [Bool.and_eq_true, decide_eq_true_eq] at hqm
    obtain ⟨i, hi⟩ := List.mem_iff_getElem?.mp hq
    rw [List.getElem?_take] at hi
    split at hi
    next hile =>
      have hle := hs.level_mono hi hget (by omega)
      have hle' := hs.level_le hmem
      omega
    next => cases hi
  have hmarkAs {v : Nat} (hv : v ≠ p.var) : markAs m p.var false v = m v := if_neg hv
  refine ⟨hlevel, ?_, ?_, h.nodup, ?_, ?_⟩
  · rw [state_setSeen, h.state, mark_set (hs.bound hmem)]
  · intro l hl
    obtain ⟨hneg, hlt, hml⟩ := h.lower l hl
    have hne : l.var ≠ p.var := by
      intro he
      have hsame : s.level l = s.level p := congrArg (fun v => (s.cell v).level) he
      omega
    exact ⟨hneg, hlt, (hmarkAs hne).trans hml⟩
  · intro v hv
    have hvp : v ≠ p.var := by
      intro he
      rw [he, markAs, if_pos rfl] at hv
      cases hv
    rw [hmarkAs hvp] at hv
    refine (h.marked v hv).imp_right fun hq => ?_
    obtain ⟨q, hq, hqv, hqlevel⟩ := hq
    rw [htake, List.mem_append, List.mem_singleton] at hq
    rcases hq with hq | rfl
    · exact ⟨q, hq, hqv, hqlevel⟩
    · exact absurd hqv.symm hvp
  · rw [countMarked_of_not_mem _ _ _ (hs.var_not_mem_take hget)]
    show r.pending - 1 = _
    rw [h.pending, htake]
    unfold countMarked
    rw [List.countP_append, List.countP_singleton]
    simp [hlevel, hp]

/-- When nothing of the highest level is marked, the marks are those of the lower literals. -/
theorem marked_of_pending (h : s.Resolving len r m) (hzero : r.pending = 0) {v : Nat}
    (hv : m v = true) :
    ∃ l ∈ r.lower.toList, l.var = v := by
  rcases h.marked v hv with hlow | ⟨q, hq, hqv, hlevel⟩
  · exact hlow
  · have hcounted : 0 < countMarked (fun p => s.level p = s.starts.length) m
        (s.trail.take len) := by
      apply List.countP_pos_iff.mpr
      exact ⟨q, hq, by simp [hlevel, hqv, hv]⟩
    rw [← h.pending] at hcounted
    omega

/-- As long as another literal of the highest level is marked, `p` has a reason. -/
theorem reason_of_pending (hs : s.Assigned) (hpos : 0 < s.starts.length) (h : s.Resolving len r m)
    (hpending : 0 < r.pending) {p : Literal} (hget : s.trail[len]? = some p)
    (hlevel : s.level p = s.starts.length) :
    ∃ n, (s.cell p.var).reason = some n := by
  cases hreason : (s.cell p.var).reason with
  | some n => exact ⟨n, rfl⟩
  | none =>
    rcases hs.root hget hreason with hstart | ⟨hroot, -⟩
    · -- `p` is the decision of the highest level, so nothing before is of that level
      rw [h.pending] at hpending
      obtain ⟨q, hq, hqm⟩ := List.countP_pos_iff.mp hpending
      rw [Bool.and_eq_true, decide_eq_true_eq] at hqm
      obtain ⟨i, hi⟩ := List.mem_iff_getElem?.mp hq
      rw [List.getElem?_take] at hi
      split at hi
      next hilt =>
        have hlt := hs.level_lt hi hget hstart hilt (Nat.le_refl len)
        omega
      next => cases hi
    · have hzero := (hs.level_eq_zero hget).mpr hroot
      omega

/-- The analysis ends with one literal of the highest level. -/
theorem resolveDown_spec (hq : ∀ a, q a → s.db.Obeys a) (hs : s.Assigned)
    (hpos : 0 < s.starts.length)
    (h : s.Resolving len r m) (hcovered : s.Covered q m) (hpending : 0 < r.pending)
    (hlen : len ≤ s.trail.length) :
    ∃ uip r' m', resolveDown s.starts.length len r = (some uip, r') ∧ Resolved s q uip r' m' := by
  induction len generalizing r m with
  | zero =>
    have hzero : r.pending = 0 := by
      rw [h.pending]
      rfl
    omega
  | succ len ih =>
    have htrail : r.core.trail[len]? = s.trail[len]? := by
      rw [← Array.getElem?_toList]
      exact congrArg (fun t => t.trail[len]?) h.state
    have hget : s.trail[len]? = some s.trail[len] := List.getElem?_eq_getElem hlen
    generalize s.trail[len] = p at hget
    have hp : p ∈ s.trail := List.mem_of_getElem? hget
    have hseen : r.core.isSeen p.var = m p.var := congrArg (fun t => (t.cell p.var).seen) h.state
    unfold resolveDown
    rw [htrail, hget]
    simp only [hseen]
    cases hmark : m p.var with
    | false => simpa using ih (skip_spec h hget hmark) hcovered hpending (Nat.le_of_lt hlen)
    | true =>
      obtain ⟨hlevel, h₁⟩ := take_spec hs h hpending hget hmark
      -- what is true in a valuation is the negation of `p`, or is still marked
      have hsplit {l : Literal} (hneg : l.neg ∈ s.trail) (hl : m l.var = true) :
          l = p.neg ∨ markAs m p.var false l.var = true := by
        by_cases hlp : l.var = p.var
        · have he := hs.eq_of_var hneg hp (by rw [Literal.var_neg, hlp])
          exact .inl (by rw [← he, Literal.neg_neg])
        · exact .inr ((if_neg hlp).trans hl)
      generalize r.core.setSeen p.var false = c₁ at h₁
      generalize markAs m p.var false = m₁ at h₁ hsplit
      simp only [Bool.not_true, Bool.false_eq_true, if_false]
      by_cases hzero : r.pending - 1 = 0
      · rw [if_pos hzero]
        refine ⟨p, _, m₁, rfl, h₁.state, hp, hlevel, ?_, h₁.nodup, fun v hv =>
          marked_of_pending h₁ hzero hv, ?_⟩
        · intro l hl
          obtain ⟨hneg, hlt, -⟩ := h₁.lower l hl
          exact ⟨hneg, hlt⟩
        · intro a ha
          obtain ⟨l, hholds, hneg, hl⟩ := hcovered a ha
          rcases hsplit hneg hl with he | hl
          · exact ⟨l, he ▸ List.mem_cons_self, hholds⟩
          · obtain ⟨k, hk, hkl⟩ := marked_of_pending h₁ hzero hl
            have he := hs.eq_of_var (h₁.lower k hk).1 hneg
              (by rw [Literal.var_neg, Literal.var_neg, hkl])
            rw [Literal.neg_inj] at he
            exact ⟨k, List.mem_cons_of_mem _ hk, he ▸ hholds⟩
      · rw [if_neg hzero]
        have hpending₁ : 0 < r.pending - 1 := Nat.pos_of_ne_zero hzero
        obtain ⟨n, hn⟩ := reason_of_pending hs hpos h₁ hpending₁ hget hlevel
        obtain ⟨content, hcontent, -, hothers⟩ := hs.reason hget hn
        have hreason : (c₁.info p.var).reason = some n := by
          rw [← hn]
          exact congrArg (fun t => (t.cell p.var).reason) h₁.state
        have hdb : c₁.db.clause? n = some content := by
          rw [← hcontent]
          exact congrArg (fun t => t.db.clause? n) h₁.state
        rw [clause?_db] at hdb
        obtain ⟨cl, hcl, rfl⟩ := Option.map_eq_some_iff.mp hdb
        rw [hreason, Option.bind_some, hcl]
        have hfalse : ∀ l ∈ cl.lits.filter (fun l => l.var ≠ p.var), l.neg ∈ s.trail.take len := by
          intro l hl
          obtain ⟨hl, hne⟩ := List.mem_filter.mp hl
          refine (hothers l (Multiset.mem_coe.mpr hl)).resolve_left ?_
          intro he
          rw [he] at hne
          simp at hne
        obtain ⟨m₂, h₂, hmono, hself, hle⟩ := absorb_spec hs h₁ hfalse
        simp only
        apply ih h₂ _ (Nat.lt_of_lt_of_le hpending₁ hle) (Nat.le_of_lt hlen)
        intro a ha
        obtain ⟨l, hholds, hneg, hl⟩ := hcovered a ha
        rcases hsplit hneg hl with rfl | hl
        · apply covered_of_clause hs (hq a ha) ((hq a ha).clause hcontent)
          intro k hk hkholds
          have hne : k ≠ p := fun he => Literal.holds_neg.mp hholds (he ▸ hkholds)
          have hbefore := (hothers k hk).resolve_left hne
          refine ⟨List.mem_of_mem_take hbefore, ?_⟩
          have hkp : k.var ≠ p.var := by
            intro he
            exact hs.var_not_mem_take hget
              (List.mem_map.mpr ⟨k.neg, hbefore, by rw [Literal.var_neg, he]⟩)
          exact hself k (List.mem_filter.mpr ⟨Multiset.mem_coe.mp hk, by simpa using hkp⟩)
        · exact ⟨l, hholds, hneg, hmono _ hl⟩

/-! ## The clause to learn -/

/-- Level of the literal at a place, 0 when there is none. -/
def levelAt (c : Core) (lits : Array Literal) (k : Nat) : Nat :=
  (lits[k]?.map fun l => c.level l.var).getD 0

theorem foldl_deepest (f : Nat → Nat) (n : Nat) :
    let best := (List.range n).foldl (fun best k => if f k > best.1 then (f k, k) else best) (0, 0)
    (∀ i < n, f i ≤ best.1) ∧ (best = (0, 0) ∨ best.1 = f best.2 ∧ best.2 < n) := by
  induction n with
  | zero => exact ⟨fun i hi => absurd hi (Nat.not_lt_zero i), .inl rfl⟩
  | succ n ih =>
    simp only [List.range_succ, List.foldl_append, List.foldl_cons, List.foldl_nil]
    generalize (List.range n).foldl (fun best k => if f k > best.1 then (f k, k) else best)
      (0, 0) = best at ih
    obtain ⟨hle, hbest⟩ := ih
    split
    next hgt =>
      refine ⟨fun i hi => ?_, .inr ⟨rfl, Nat.lt_succ_self n⟩⟩
      by_cases hin : i = n
      · rw [hin]
      · have := hle i (by omega)
        simp only
        omega
    next hgt =>
      refine ⟨fun i hi => ?_, hbest.imp_right fun hb => ⟨hb.1, Nat.lt_succ_of_lt hb.2⟩⟩
      by_cases hin : i = n
      · rw [hin]
        omega
      · exact hle i (by omega)

/-- The deepest literal is of the greatest level. -/
theorem deepest_spec (c : Core) {lits : Array Literal} (hne : 0 < lits.size) :
    c.deepest lits < lits.size ∧ ∀ i < lits.size, c.levelAt lits i ≤ c.levelAt lits
      (c.deepest lits) := by
  obtain ⟨hle, hbest⟩ := foldl_deepest (c.levelAt lits) lits.size
  have hdeepest : c.deepest lits = ((List.range lits.size).foldl
      (fun best k => if c.levelAt lits k > best.1 then (c.levelAt lits k, k) else best)
        (0, 0)).2 := rfl
  rw [hdeepest]
  generalize (List.range lits.size).foldl
    (fun best k => if c.levelAt lits k > best.1 then (c.levelAt lits k, k) else best) (0, 0) =
      best at hle hbest
  rcases hbest with rfl | ⟨heq, hlt⟩
  · refine ⟨hne, fun i hi => ?_⟩
    have hzero : c.levelAt lits i ≤ 0 := hle i hi
    omega
  · refine ⟨hlt, fun i hi => ?_⟩
    rw [← heq]
    exact hle i hi

/-- The deepest literal is put first. -/
theorem swap_deepest_spec (c : Core) (lits : Array Literal) :
    let swapped := lits.swapIfInBounds 0 (c.deepest lits)
    swapped.toList.Perm lits.toList ∧ (∀ l ∈ swapped.toList, c.level l.var ≤ c.levelAt swapped 0) ∧
      (∀ l, swapped.toList.head? = some l → c.level l.var = c.levelAt swapped 0) ∧
      (swapped.toList = [] → c.levelAt swapped 0 = 0) := by
  intro swapped
  have hhead : ∀ l, swapped.toList.head? = some l → c.level l.var = c.levelAt swapped 0 := by
    intro l hl
    have hzero : swapped[0]? = some l := by
      rw [← Array.getElem?_toList, ← List.head?_eq_getElem?, hl]
    rw [levelAt, hzero]
    rfl
  by_cases hne : 0 < lits.size
  · obtain ⟨hlt, hle⟩ := c.deepest_spec hne
    have hswap : swapped = lits.swap 0 (c.deepest lits) hne hlt := by
      show lits.swapIfInBounds 0 (c.deepest lits) = _
      unfold Array.swapIfInBounds
      rw [dif_pos hne, dif_pos hlt]
    have hperm : swapped.toList.Perm lits.toList := by
      rw [hswap]
      exact Array.perm_iff_toList_perm.mp (Array.swap_perm hne hlt)
    have hlevel : c.levelAt swapped 0 = c.levelAt lits (c.deepest lits) := by
      unfold levelAt
      rw [hswap, Array.getElem?_swap]
      split
      next he => rw [he, Array.getElem?_eq_getElem hne]
      next => rw [if_pos rfl, Array.getElem?_eq_getElem hlt]
    refine ⟨hperm, ?_, hhead, ?_⟩
    · intro l hl
      obtain ⟨i, hi⟩ := List.mem_iff_getElem?.mp (hperm.mem_iff.mp hl)
      rw [Array.getElem?_toList] at hi
      have hli := hle i (Array.getElem?_eq_some_iff.mp hi).1
      rw [hlevel]
      rwa [levelAt, hi] at hli
    · intro hnil
      have hlength := hperm.length_eq
      rw [hnil, Array.length_toList] at hlength
      exact absurd hlength.symm (Nat.ne_of_gt hne)
  · have hempty : lits = #[] := Array.eq_empty_of_size_eq_zero (by omega)
    have hswap : swapped = #[] := by
      show lits.swapIfInBounds 0 (c.deepest lits) = _
      rw [hempty]
      rfl
    refine ⟨by rw [hswap, hempty], ?_, hhead, fun _ => by rw [hswap]; rfl⟩
    intro l hl
    rw [hswap] at hl
    cases hl

/-! ## The whole analysis -/

/-- Marks are taken back. -/
theorem foldl_setSeen_spec (ls : List Literal) {c : Core} {m : Nat → Bool} (hc : c.state = s.mark m)
    (hbound : ∀ l ∈ ls, l.var < s.size) (hmarked : ∀ v, m v = true → ∃ l ∈ ls, l.var = v) :
    (ls.foldl (fun c l => c.setSeen l.var false) c).state = s.mark fun _ => false := by
  induction ls generalizing c m with
  | nil =>
    have hnone : m = fun _ => false := by
      funext v
      cases hv : m v with
      | false => rfl
      | true =>
        obtain ⟨l, hl, -⟩ := hmarked v hv
        cases hl
    rw [← hnone]
    exact hc
  | cons l ls ih =>
    rw [List.foldl_cons]
    apply ih (m := markAs m l.var false)
    · rw [state_setSeen, hc, mark_set (hbound l List.mem_cons_self)]
    · exact fun k hk => hbound k (List.mem_cons_of_mem _ hk)
    · intro v hv
      unfold markAs at hv
      split at hv
      next => cases hv
      next hne =>
        obtain ⟨k, hk, hkv⟩ := hmarked v hv
        rcases List.mem_cons.mp hk with rfl | hk
        · exact absurd hkv.symm hne
        · exact ⟨k, hk, hkv⟩

/-- The greatest level of the literals of a clause. -/
theorem top_spec (c : Core) (lits : List Literal) :
    (∀ l ∈ lits, c.level l.var ≤ (lits.map fun l => c.level l.var).foldl max 0) ∧
      (0 < (lits.map fun l => c.level l.var).foldl max 0 →
        ∃ l ∈ lits, c.level l.var = (lits.map fun l => c.level l.var).foldl max 0) := by
  generalize hns : lits.map (fun l => c.level l.var) = ns
  have hmem {l : Literal} (hl : l ∈ lits) : c.level l.var ∈ ns := by
    rw [← hns]
    exact List.mem_map.mpr ⟨l, hl, rfl⟩
  rw [List.foldl_max]
  cases hmax : ns.max? with
  | none =>
    rw [List.max?_eq_none_iff] at hmax
    rw [hmax] at hmem
    exact ⟨fun l hl => (List.not_mem_nil (hmem hl)).elim, fun h => absurd h (Nat.lt_irrefl 0)⟩
  | some top =>
    obtain ⟨htop, hle⟩ := List.max?_eq_some_iff.mp hmax
    rw [Option.getD_some, Nat.zero_max]
    refine ⟨fun l hl => hle _ (hmem hl), fun _ => ?_⟩
    rw [← hns] at htop
    exact List.mem_map.mp htop

/-- The analysis of a clause whose literals are false goes back to the greatest of their levels,
where it answers a clause to learn. That clause holds whenever the clauses and the false one do.
When all its literals are false at level 0, the false clause contradicts the clauses. -/
theorem analyze_false {c : Core} {lits : List Literal} (hs : c.state.Assigned)
    (hseen : ∀ v, (c.state.cell v).seen = false) (hfalse : ∀ k ∈ lits, k.neg ∈ c.state.trail) :
    (c.analyze lits).1 = .unsat ∧ (c.analyze lits).2.state = c.state ∧
    (∀ k ∈ lits, c.state.level k = 0) ∨
      ∃ top level first rest, 0 < top ∧ (∀ k ∈ lits, c.state.level k ≤ top) ∧
      (∃ k ∈ lits, c.state.level k = top) ∧
        (c.analyze lits).1 = .learnt level (first :: rest) ∧
        (c.analyze lits).2.state = c.state.back top ∧
        (c.state.back top).Flips level first rest ∧
        ∀ a, c.state.db.Obeys a → (∃ k ∈ lits, k.Holds a) → ∃ l ∈ first :: rest, l.Holds a := by
  unfold analyze
  generalize hc₁ : ({ c with
    stats := { c.stats with conflicts := c.stats.conflicts + 1 }
    conflictsSinceRestart := c.conflictsSinceRestart + 1 } : Core) = c₁
  have hstate : c₁.state = c.state := by
    rw [← hc₁]
    rfl
  simp only
  obtain ⟨hle, hmax⟩ := top_spec c₁ lits
  generalize (lits.map fun l => c₁.level l.var).foldl max 0 = top at hle hmax
  have hlevel (l : Literal) : c₁.level l.var = c.state.level l :=
    congrArg (fun t => (t.cell l.var).level) hstate
  simp only [hlevel] at hle hmax
  by_cases hzero : top = 0
  · rw [if_pos hzero]
    exact .inl ⟨rfl, hstate, fun k hk => Nat.le_zero.mp (hzero ▸ hle k hk)⟩
  obtain ⟨k, hk, hktop⟩ := hmax (Nat.pos_of_ne_zero hzero)
  have htop : top ≤ c.state.starts.length := by
    rw [← hktop, ← level_neg]
    exact hs.level_le (hfalse k hk)
  rw [if_neg hzero]
  have hback : (c₁.backtrack top).state = c.state.back top := by rw [state_backtrack, hstate]
  refine .inr ⟨top, ?_⟩
  -- what is false stays false when the trail goes back to the greatest level
  have hneg : ∀ k ∈ lits, k.neg ∈ (c.state.back top).trail ∧
      (c.state.back top).level k = c.state.level k := by
    intro k hk
    have hkept := hs.mem_back top (hfalse k hk) (by rw [level_neg]; exact hle k hk)
    rwa [level_neg, level_neg] at hkept
  have hlength := length_starts_back htop
  have hs₂ := hs.back top
  have hseen₂ : ∀ v, ((c.state.back top).cell v).seen = false :=
    fun v => (live_back c.state top v).2.trans (hseen v)
  have hdb := db_back c.state top
  rw [← hback] at hneg hlength hs₂ hseen₂ hdb ⊢
  generalize c₁.backtrack top = c₂ at hneg hlength hs₂ hseen₂ hdb
  subst hlength
  have hsize : c₂.trail.size = c₂.state.trail.length := Array.length_toList.symm
  rw [hsize]
  have h₀ : c₂.state.Resolving c₂.state.trail.length ⟨c₂, #[], 0⟩ fun _ => false := by
    refine ⟨(mark_self hseen₂).symm, fun l hl => ?_, List.nodup_nil, fun v hv => ?_, ?_⟩
    · cases hl
    · cases hv
    · simp [countMarked]
  have hbefore : ∀ l ∈ lits, l.neg ∈ c₂.state.trail.take c₂.state.trail.length := by
    rw [List.take_length]
    exact fun l hl => (hneg l hl).1
  obtain ⟨m₁, h₁, -, hself, -⟩ := absorb_spec hs₂ h₀ hbefore
  have hcovered : c₂.state.Covered (fun a => c₂.state.db.Obeys a ∧ ∃ k ∈ lits, k.Holds a) m₁ := by
    rintro a ⟨ha, hclause⟩
    exact covered_of_clause hs₂ ha hclause fun l hl _ => ⟨(hneg l hl).1, hself l hl⟩
  have hpending : 0 < (absorb c₂.state.starts.length ⟨c₂, #[], 0⟩ lits).pending := by
    rw [h₁.pending]
    apply List.countP_pos_iff.mpr
    refine ⟨k.neg, by rw [List.take_length]; exact (hneg k hk).1, ?_⟩
    have hklevel : c₂.state.level k = c₂.state.starts.length := (hneg k hk).2.trans hktop
    have hmark := hself k hk (by omega)
    simp [level_neg, Literal.var_neg, hklevel, hmark]
  obtain ⟨uip, r, m, hdown, hr⟩ :=
    resolveDown_spec (fun a ha => ha.1) hs₂ (Nat.pos_of_ne_zero hzero) h₁ hcovered hpending
    (Nat.le_refl _)
  rw [hdown]
  simp only [← Array.foldl_toList]
  generalize hc₃ : r.lower.toList.foldl (fun c l => c.setSeen l.var false) r.core = c₃
  have hstate₃ : c₃.state = c₂.state := by
    rw [← hc₃, foldl_setSeen_spec _ hr.state _ hr.marked]
    · exact mark_self hseen₂
    · intro l hl
      have hbound := hs₂.bound (hr.lower l hl).1
      rwa [Literal.var_neg] at hbound
  have hlevel₃ (l : Literal) : c₃.level l.var = c₂.state.level l :=
    congrArg (fun t => (t.cell l.var).level) hstate₃
  obtain ⟨hperm, hdeep, hhead, hnil⟩ := c₃.swap_deepest_spec r.lower
  simp only [hlevel₃] at hdeep hhead
  generalize hswapped : r.lower.swapIfInBounds 0 (c₃.deepest r.lower) =
    swapped at hperm hdeep hhead hnil
  refine ⟨c₃.levelAt swapped 0, uip.neg, swapped.toList, Nat.pos_of_ne_zero hzero, hle,
    ⟨k, hk, hktop⟩, by rw [← hswapped]; rfl,
    hstate₃, ?_, ?_⟩
  have hlower {l : Literal} (hl : l ∈ swapped.toList) := hr.lower l (hperm.mem_iff.mp hl)
  · refine ⟨?_, ?_, ?_, fun l hl => ⟨(hlower hl).1, hdeep l hl⟩, hhead, hnil, ?_⟩
    · rw [Literal.neg_neg]
      exact hr.mem
    · rw [level_neg]
      exact hr.latest
    · cases hlist : swapped.toList with
      | nil =>
        rw [hnil hlist]
        exact Nat.pos_of_ne_zero hzero
      | cons l rest =>
        have hl : l ∈ swapped.toList := by
          rw [hlist]
          exact List.mem_cons_self
        rw [← hhead l (by rw [hlist]; rfl)]
        exact (hlower hl).2
    · have hnodup : swapped.toList.Nodup := hperm.nodup_iff.mpr (List.Nodup.of_map _ hr.nodup)
      refine List.nodup_cons.mpr ⟨fun hl => ?_, hnodup⟩
      have hlt := (hlower hl).2
      rw [level_neg, hr.latest] at hlt
      exact Nat.lt_irrefl _ hlt
  · intro a ha hclause
    rw [← hdb] at ha
    obtain ⟨l, hl, hholds⟩ := hr.entailed ⟨ha, hclause⟩
    rw [List.mem_cons, ← hperm.mem_iff] at hl
    exact ⟨l, List.mem_cons.mpr hl, hholds⟩

/-- The analysis of a falsified clause answers a clause that follows from the clauses, or finds that
they cannot be satisfied. The state is the same afterwards. -/
theorem analyze_spec {c : Core} {lits : List Literal} (hs : c.state.Assigned)
    (hseen : ∀ v, (c.state.cell v).seen = false) (h : c.state.Falsified lits) :
    (c.analyze lits).2.state = c.state ∧
      ((c.analyze lits).1 = .unsat ∧ (∀ a, ¬ c.state.db.Models a) ∨
        ∃ level first rest, (c.analyze lits).1 = .learnt level (first :: rest) ∧
        c.state.Asserts level first rest) := by
  obtain ⟨n, cl, hcl, hlits, hfalse, k, hk, hklevel⟩ := h
  have hholds {a : Nat → Bool} (ha : c.state.db.Models a) : ∃ l ∈ lits, l.Holds a := by
    obtain ⟨l, hl, hholds⟩ := ha.clause hcl
    rw [← hlits] at hl
    exact ⟨l, Multiset.mem_coe.mp hl, hholds⟩
  rcases analyze_false hs hseen hfalse with ⟨hunsat, hstate, hzero⟩ |
    ⟨top, level, first, rest, -, hle, ⟨k', hk', htop⟩, hlearnt, hstate, hflips, hentailed⟩
  · refine ⟨hstate, .inl ⟨hunsat, fun a ha => ?_⟩⟩
    obtain ⟨l, hl, hl'⟩ := hholds ha
    exact Literal.holds_neg.mp (hs.root_holds ha.obeys (hfalse l hl)
      (by rw [level_neg, hzero l hl])) hl'
  · -- the literals are false since the present level, to which the trail goes back
    have hpresent : top = c.state.starts.length := by
      have hge := hle k hk
      have hbound := hs.level_le (hfalse k' hk')
      rw [level_neg] at hbound
      omega
    have hback : c.state.back top = c.state := by
      unfold State.back
      rw [hpresent, List.getElem?_eq_none (Nat.le_refl _)]
    rw [hback] at hstate hflips
    exact ⟨hstate, .inr ⟨level, first, rest, hlearnt, hflips, fun ha => hentailed _ ha.obeys
      (hholds ha)⟩⟩

end Core
end Entail
