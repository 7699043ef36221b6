import Entail.Proofs.Search.Trail

/-!
# Watched literals

Every clause watches two of its literals, and each literal notes exactly the clauses that watch it.
When a watched literal has become false and was propagated, the other one is true, and was so at the
same level or before. So a clause whose literals all have values is satisfied once everything on the
trail was propagated, and going back to a level does not change that.
-/

namespace Entail.Search.State

variable {s t : State} {l k x y : Literal} {n i bound : Nat}

/-- The notes of the literals are the watched literals of the clauses, whose variables
are in use. -/
structure Watching (s : State) : Prop where
  room : s.room = 2 * s.size
  inUse : ∀ {v}, (s.cell v).live = true → v < s.size
  live : ∀ {n cl}, s.db.clause? n = some cl → ∀ l ∈ cl.1, (s.cell l.var).live = true
  nodup : ∀ {n cl}, s.db.clause? n = some cl → cl.1.Nodup
  isSome : ∀ n, (s.watched n).isSome = (s.db.clause? n).isSome
  pair : ∀ {n x y cl}, s.watched n = some (x, y) → s.db.clause? n = some cl →
    ({x, y} : Multiset Literal) ≤ cl.1
  mem : ∀ {l n}, n ∈ s.watchers l.code ↔ ∃ x y, s.watched n = some (x, y) ∧ (l = x ∨ l = y)
  once : ∀ l : Literal, (s.watchers l.code).Nodup

/-- When `x` was false before the place `bound`, `y` is true since the same level or before. -/
def Guards (s : State) (bound : Nat) (x y : Literal) : Prop :=
  ∀ i < bound, s.trail[i]? = some x.neg → y ∈ s.trail ∧ s.level y ≤ s.level x

/-- The watched literals of each clause guard each other. -/
def Guarded (s : State) (bound : Nat) : Prop :=
  ∀ n x y, s.watched n = some (x, y) → s.Guards bound x y ∧ s.Guards bound y x

namespace Watching

/-- The clause of two watched literals. -/
theorem clause (h : s.Watching) (hn : s.watched n = some (x, y)) :
    ∃ cl, s.db.clause? n = some cl ∧ x ∈ cl.1 ∧ y ∈ cl.1 ∧ x ≠ y := by
  have hsome := h.isSome n
  rw [hn] at hsome
  obtain ⟨cl, hcl⟩ := Option.isSome_iff_exists.mp hsome.symm
  have hpair := h.pair hn hcl
  have hnodup : ({x, y} : Multiset Literal).Nodup := Multiset.nodup_of_le hpair (h.nodup hcl)
  refine ⟨cl, hcl, Multiset.mem_of_le hpair (by simp), Multiset.mem_of_le hpair (by simp), ?_⟩
  intro he
  rw [he] at hnodup
  simp at hnodup

theorem code_lt (h : s.Watching) (hl : l.var < s.size) : l.code < s.room := by
  have hroom := h.room
  unfold Literal.var at hl
  omega

/-! ## Changes -/

/-- A state with the same clauses, the same notes and the same variables in use. -/
theorem of_same (h : s.Watching) (hroom : t.room = s.room) (hsize : t.size = s.size)
    (hlive : ∀ v, (t.cell v).live = (s.cell v).live) (hdb : t.db = s.db)
    (hwatched : t.watched = s.watched) (hwatchers : t.watchers = s.watchers) : t.Watching where
  room := by rw [hroom, hsize, h.room]
  inUse {v} hv := by
    rw [hlive] at hv
    rw [hsize]
    exact h.inUse hv
  live {n cl} hcl l hl := by
    rw [hdb] at hcl
    rw [hlive]
    exact h.live hcl l hl
  nodup {n cl} hcl := by
    rw [hdb] at hcl
    exact h.nodup hcl
  isSome n := by rw [hwatched, hdb, h.isSome]
  pair {n x y cl} hn hcl := by
    rw [hwatched] at hn
    rw [hdb] at hcl
    exact h.pair hn hcl
  mem {l n} := by
    rw [hwatchers, hwatched]
    exact h.mem
  once l := by
    rw [hwatchers]
    exact h.once l

/-- The two watched literals change places. -/
theorem swap (h : s.Watching) (hn : s.watched n = some (x, y) ∨ s.watched n = some (y, x)) :
    (s.setWatched n x y).Watching := by
  have hsome : (s.watched n).isSome = true := by
    rcases hn with hn | hn <;> rw [hn] <;> rfl
  have hpair {cl : Content} (hcl : s.db.clause? n = some cl) :
      ({x, y} : Multiset Literal) ≤ cl.1 := by
    rcases hn with hn | hn
    · exact h.pair hn hcl
    · rw [Multiset.pair_comm]
      exact h.pair hn hcl
  refine ⟨h.room, h.inUse, h.live, h.nodup, ?_, ?_, ?_, h.once⟩
  · intro m
    show (if m = n then some (x, y) else s.watched m).isSome = _
    split
    next hm =>
      show true = (s.db.clause? m).isSome
      rw [hm, ← h.isSome n, hsome]
    next => exact h.isSome m
  · intro m x' y' cl hm hcl
    change (if m = n then some (x, y) else s.watched m) = _ at hm
    split at hm
    next he =>
      cases hm
      rw [he] at hcl
      exact hpair hcl
    next => exact h.pair hm hcl
  · intro l m
    show m ∈ s.watchers l.code ↔ ∃ x' y', (if m = n then some (x, y) else s.watched m) = some
      (x', y') ∧ _
    rw [h.mem]
    by_cases hm : m = n
    · rw [if_pos hm, hm]
      rcases hn with hn | hn
      · rw [hn]
      · rw [hn]
        constructor
        · rintro ⟨_, _, he, hl⟩
          cases he
          exact ⟨x, y, rfl, hl.symm⟩
        · rintro ⟨_, _, he, hl⟩
          cases he
          exact ⟨y, x, rfl, hl.symm⟩
    · rw [if_neg hm]

/-- A clause that watches `l` watches another one of its literals from now on. -/
theorem move {o : Literal} {kept rest : List Nat}
    (h : (s.setWatchers l (kept ++ n :: rest)).Watching)
    (hn : s.watched n = some (o, l) ∨ s.watched n = some (l, o))
    (hpair : ∀ {cl}, s.db.clause? n = some cl → ({o, k} : Multiset Literal) ≤ cl.1)
    (hk : k.var < s.size) (hkl : k ≠ l) (hko : k ≠ o) (hl : l.var < s.size) :
    (((s.setWatched n o k).watch k n).setWatchers l (kept ++ rest)).Watching := by
  have hlroom : l.code < s.room := h.code_lt hl
  have hkroom : k.code < s.room := h.code_lt hk
  have hcodes : k.code ≠ l.code := fun he => hkl (Literal.code_inj he)
  -- what the literals note before and after
  have hbefore (m : Literal) : (s.setWatchers l (kept ++ n :: rest)).watchers m.code =
      if m = l then kept ++ n :: rest else s.watchers m.code := by
    show (if m.code = l.code ∧ m.code < s.room then _ else _) = _
    by_cases hm : m = l
    · rw [hm]
      simp [hlroom]
    · have : m.code ≠ l.code := fun he => hm (Literal.code_inj he)
      simp [hm, this]
  have hafter (m : Literal) : (((s.setWatched n o k).watch k n).setWatchers l
    (kept ++ rest)).watchers m.code =
      if m = l then kept ++ rest else if m = k then s.watchers m.code ++ [n]
        else s.watchers m.code := by
    show (if m.code = l.code ∧ m.code < s.room then _ else if m.code = k.code ∧
      m.code < s.room then _ else _) = _
    by_cases hm : m = l
    · rw [hm]
      simp [hlroom]
    · have hml : m.code ≠ l.code := fun he => hm (Literal.code_inj he)
      by_cases hmk : m = k
      · rw [hmk]
        simp [hkroom, hkl, hcodes]
        rfl
      · have hmk' : m.code ≠ k.code := fun he => hmk (Literal.code_inj he)
        simp [hm, hml, hmk, hmk']
        rfl
  have hmem (m : Literal) (j : Nat) : j ∈ (if m = l then kept ++ n :: rest else s.watchers m.code) ↔
      ∃ x y, s.watched j = some (x, y) ∧ (m = x ∨ m = y) := by
    rw [← hbefore]
    exact h.mem
  have honce (m : Literal) : (if m = l then kept ++ n :: rest else s.watchers m.code).Nodup := by
    rw [← hbefore]
    exact h.once m
  have hlist := honce l
  rw [if_pos rfl] at hlist
  have hnot : n ∉ kept ++ rest := by
    have hperm : (kept ++ n :: rest).Perm (n :: (kept ++ rest)) := List.perm_middle
    exact (List.nodup_cons.mp (hperm.nodup_iff.mp hlist)).1
  have hwatching (m : Literal) : n ∈ (if m = l then kept ++ n :: rest else s.watchers m.code) ↔
      m = o ∨ m = l := by
    rw [hmem]
    rcases hn with hn | hn
    · rw [hn]
      constructor
      · rintro ⟨_, _, he, hm⟩
        cases he
        exact hm
      · exact fun hm => ⟨o, l, rfl, hm⟩
    · rw [hn]
      constructor
      · rintro ⟨_, _, he, hm⟩
        cases he
        exact hm.symm
      · exact fun hm => ⟨l, o, rfl, hm.symm⟩
  refine ⟨h.room, h.inUse, h.live, h.nodup, ?_, ?_, ?_, ?_⟩
  · intro m
    show (if m = n then some (o, k) else s.watched m).isSome = (s.db.clause? m).isSome
    have hm := h.isSome m
    split
    next he =>
      rw [he] at hm ⊢
      rw [← show (s.watched n).isSome = (s.db.clause? n).isSome from hm]
      rcases hn with hn | hn <;> rw [hn] <;> rfl
    next => exact hm
  · intro m x y cl hm hcl
    change (if m = n then some (o, k) else s.watched m) = some (x, y) at hm
    split at hm
    next he =>
      cases hm
      rw [he] at hcl
      exact hpair hcl
    next => exact h.pair hm hcl
  · intro m j
    rw [hafter]
    show _ ↔ ∃ x y, (if j = n then some (o, k) else s.watched j) = some (x, y) ∧ (m = x ∨ m = y)
    by_cases hj : j = n
    · -- the clause that moves is noted by `o` as before, and by `k`
      rw [if_pos hj, hj]
      have hright : (∃ x y, some (o, k) = some (x, y) ∧ (m = x ∨ m = y)) ↔ m = o ∨ m = k := by
        constructor
        · rintro ⟨_, _, he, hm⟩
          cases he
          exact hm
        · exact fun hm => ⟨o, k, rfl, hm⟩
      rw [hright]
      have hnoted := hwatching m
      by_cases hml : m = l
      · rw [if_pos hml]
        have hlo : l ≠ o := by
          obtain ⟨cl, -, -, -, hne⟩ | ⟨cl, -, -, -, hne⟩ := hn.imp (h.clause ·) (h.clause ·)
          · exact hne.symm
          · exact hne
        rw [hml]
        constructor
        · exact fun hmem => absurd hmem hnot
        · rintro (he | he)
          · exact absurd he hlo
          · exact absurd he.symm hkl
      · rw [if_neg hml] at hnoted ⊢
        by_cases hmk : m = k
        · rw [if_pos hmk]
          simp [hmk]
        · rw [if_neg hmk, hnoted]
          simp [hml, hmk]
    · rw [if_neg hj, ← hmem]
      by_cases hml : m = l
      · rw [if_pos hml, if_pos hml]
        simp [hj]
      · rw [if_neg hml, if_neg hml]
        by_cases hmk : m = k
        · rw [if_pos hmk]
          simp [hj]
        · rw [if_neg hmk]
  · intro m
    rw [hafter]
    by_cases hml : m = l
    · rw [if_pos hml]
      exact hlist.sublist (List.Sublist.append (List.Sublist.refl kept)
        (List.sublist_cons_self n rest))
    · rw [if_neg hml]
      have hone := honce m
      rw [if_neg hml] at hone
      by_cases hmk : m = k
      · rw [if_pos hmk, List.nodup_append]
        refine ⟨hone, List.nodup_singleton n, ?_⟩
        intro j hj j' hj'
        rw [List.mem_singleton] at hj'
        rw [hj']
        intro he
        have hnoted := hwatching m
        rw [if_neg hml, ← he] at hnoted
        rcases hnoted.mp hj with ho | hl'
        · exact hko (hmk.symm.trans ho)
        · exact hml hl'
      · rw [if_neg hmk]
        exact hone

/-- A clause is stored and watched. -/
theorem store (h : s.Watching) {depth : Nat} (hok : s.db.Ok depth) {cl : Clause}
    (hnodup : cl.lits.Nodup)
    (hlive : ∀ l ∈ cl.lits, (s.cell l.var).live = true) : (s.store s.db.slot cl).Watching := by
  obtain ⟨hfree, hclause⟩ := Database.clause?_slot hok cl.content
  have hfirst : cl.first.var < s.size := h.inUse (hlive _ (by simp [Clause.lits]))
  have hsecond : cl.second.var < s.size := h.inUse (hlive _ (by simp [Clause.lits]))
  have hne : cl.first ≠ cl.second := by
    intro he
    simp [Clause.lits, he] at hnodup
  have hunwatched : s.watched s.db.slot = none := by
    have hsome := h.isSome s.db.slot
    rw [hfree] at hsome
    exact Option.isNone_iff_eq_none.mp (by simpa using hsome)
  have hunnoted (l : Literal) : s.db.slot ∉ s.watchers l.code := by
    intro hmem
    obtain ⟨x, y, hxy, -⟩ := h.mem.mp hmem
    rw [hunwatched] at hxy
    cases hxy
  -- the two lists are written one after the other, and are different lists since the literals are
  have hwatchers (l : Literal) : (s.store s.db.slot cl).watchers l.code =
      if l = cl.first ∨ l = cl.second then s.watchers l.code ++ [s.db.slot]
        else s.watchers l.code := by
    have hroom₁ : cl.first.code < s.room := h.code_lt hfirst
    have hroom₂ : cl.second.code < s.room := h.code_lt hsecond
    have hcodes : cl.second.code ≠ cl.first.code := fun he => hne (Literal.code_inj he).symm
    show (if l.code = cl.second.code ∧ l.code < s.room then
        (if l.code = cl.first.code ∧ l.code < s.room then s.watchers l.code ++ [s.db.slot]
          else s.watchers l.code) ++
          [s.db.slot]
      else if l.code = cl.first.code ∧ l.code < s.room then s.watchers l.code ++ [s.db.slot]
        else s.watchers l.code) = _
    by_cases h₁ : l = cl.first
    · rw [h₁]
      simp [hroom₁, hcodes.symm]
    · have hcode₁ : l.code ≠ cl.first.code := fun he => h₁ (Literal.code_inj he)
      by_cases h₂ : l = cl.second
      · rw [h₂]
        simp [hroom₂, hcodes]
      · have hcode₂ : l.code ≠ cl.second.code := fun he => h₂ (Literal.code_inj he)
        simp [h₁, h₂, hcode₁, hcode₂]
  have hstored (m : Nat) : (s.store s.db.slot cl).db.clause? m = if m =
      s.db.slot then some cl.content else s.db.clause? m :=
    hclause m
  -- the fields of `Watching` in turn: the free number gets the clause, and no other is touched
  refine ⟨h.room, h.inUse, ?_, ?_, ?_, ?_, ?_, ?_⟩
  · intro m cl' hm l hl
    rw [hstored] at hm
    split at hm
    next =>
      cases hm
      exact hlive l (Multiset.mem_coe.mp hl)
    next => exact h.live hm l hl
  · intro m cl' hm
    rw [hstored] at hm
    split at hm
    next =>
      cases hm
      exact Multiset.coe_nodup.mpr hnodup
    next => exact h.nodup hm
  · intro m
    rw [hstored]
    show (if m = s.db.slot then some (cl.first, cl.second) else s.watched m).isSome = _
    split
    next => rfl
    next => exact h.isSome m
  · intro m x y cl' hm hcl
    rw [hstored] at hcl
    change (if m = s.db.slot then some (cl.first, cl.second) else s.watched m) = some (x, y) at hm
    split at hm
    next hslot =>
      rw [if_pos hslot] at hcl
      cases hm
      cases hcl
      show (↑[cl.first, cl.second] : Multiset Literal) ≤ ↑cl.lits
      exact Multiset.coe_le.mpr (List.sublist_append_left [cl.first, cl.second] cl.rest).subperm
    next hslot =>
      rw [if_neg hslot] at hcl
      exact h.pair hm hcl
  · intro l m
    rw [hwatchers]
    show _ ↔ ∃ x y, (if m = s.db.slot then some (cl.first, cl.second) else s.watched m) = some
      (x, y) ∧ (l = x ∨ l = y)
    by_cases hm : m = s.db.slot
    · rw [if_pos hm, hm]
      have hright : (∃ x y, some (cl.first, cl.second) = some (x, y) ∧ (l = x ∨ l = y)) ↔
          l = cl.first ∨ l = cl.second := by
        constructor
        · rintro ⟨_, _, he, hl⟩
          cases he
          exact hl
        · exact fun hl => ⟨_, _, rfl, hl⟩
      rw [hright]
      by_cases hl : l = cl.first ∨ l = cl.second
      · simp [hl]
      · simp [hl, hunnoted l]
    · rw [if_neg hm, ← h.mem]
      split
      · simp [hm]
      · rfl
  · intro l
    rw [hwatchers]
    split
    · rw [List.nodup_append]
      refine ⟨h.once l, List.nodup_singleton _, ?_⟩
      intro j hj j' hj'
      rw [List.mem_singleton] at hj'
      rw [hj']
      intro he
      rw [he] at hj
      exact hunnoted l hj
    · exact h.once l

end Watching

/-! ## Guarding -/

theorem level_neg (s : State) (l : Literal) : s.level l.neg = s.level l := by
  unfold State.level
  rw [Literal.var_neg]

/-- Literals keep guarding each other when the trail grows. -/
theorem Guards.extend (h : s.Guards bound x y) (htrail : s.trail <+: t.trail)
    (hlevel : ∀ l ∈ s.trail, t.level l = s.level l) (hbound : bound ≤ s.trail.length) :
    t.Guards bound x y := by
  intro i hi hx
  have hlt : i < s.trail.length := by omega
  have hx' : s.trail[i]? = some x.neg := by
    obtain ⟨more, hmore⟩ := htrail
    rw [← hx, ← hmore, List.getElem?_append_left hlt]
  obtain ⟨hy, hle⟩ := h i hi hx'
  have hxmem : x.neg ∈ s.trail := List.mem_of_getElem? hx'
  refine ⟨htrail.subset hy, ?_⟩
  rw [hlevel y hy, ← level_neg t x, hlevel _ hxmem, level_neg]
  exact hle

/-- Literals whose negations are not true guard everything. -/
theorem guards_of_not_mem (h : x.neg ∉ s.trail) : s.Guards bound x y :=
  fun _ _ hx => absurd (List.mem_of_getElem? hx) h

/-- A literal that is true at the level of `x` or before guards `x`. -/
theorem guards_of_mem (hy : y ∈ s.trail) (hlevel : s.level y ≤ s.level x) : s.Guards bound x y :=
  fun _ _ _ => ⟨hy, hlevel⟩

theorem Guards.mono (h : s.Guards bound x y) {bound' : Nat} (hle : bound' ≤ bound) :
    s.Guards bound' x y :=
  fun i hi => h i (Nat.lt_of_lt_of_le hi hle)

/-- Literals keep guarding each other when the search goes back to a level. -/
theorem Guards.back (h : s.Guards bound x y) (hs : s.Assigned) {level start : Nat}
    (hstart : s.starts[level]? = some start)
    {bound' : Nat} (hle : bound' ≤ bound) (hcut : bound' ≤ start) :
    (s.back level).Guards bound' x y := by
  have ht := hs.back level
  have htrail : (s.back level).trail = s.trail.take start := by
    unfold State.back
    rw [hstart]
    rfl
  have hmem : start ∈ s.starts := List.mem_of_getElem? hstart
  have hlevels {k : Literal} (hk : k ∈ s.trail.take start) :
      (s.back level).level k = s.level k := by
    unfold State.back State.level
    rw [hstart]
    show ((s.cut start).cell k.var).level = _
    rw [hs.cell_cut, if_neg (hs.not_mem_drop hk)]
  intro i hi hx
  rw [htrail, List.getElem?_take, if_pos (by omega)] at hx
  obtain ⟨hy, hlevel⟩ := h i (by omega) hx
  obtain ⟨j, hj⟩ := List.mem_iff_getElem?.mp hy
  -- a literal behind the cut has a level above those before it
  have hjlt : j < start := by
    apply Nat.lt_of_not_le
    intro hle'
    have hlt := hs.level_lt hx hj hmem (by omega) hle'
    rw [level_neg] at hlt
    omega
  have hytake : y ∈ s.trail.take start := by
    apply List.mem_of_getElem? (i := j)
    rw [List.getElem?_take, if_pos hjlt, hj]
  have hxtake : x.neg ∈ s.trail.take start := by
    apply List.mem_of_getElem? (i := i)
    rw [List.getElem?_take, if_pos (by omega), hx]
  refine ⟨by rw [htrail]; exact hytake, ?_⟩
  rw [hlevels hytake, ← level_neg (s.back level) x, hlevels hxtake, level_neg]
  exact hlevel

/-- When everything on the trail was propagated, a clause has a true literal or two that
are not false. -/
theorem Guarded.complete (h : s.Guarded bound) (hw : s.Watching) (hbound : s.trail.length ≤ bound)
    {cl : Content} (hcl : s.db.clause? n = some cl) :
    (∃ l ∈ cl.1, l ∈ s.trail) ∨ ∃ x ∈ cl.1, ∃ y ∈ cl.1, x ≠ y ∧ x.neg ∉ s.trail ∧
    y.neg ∉ s.trail := by
  have hsome := hw.isSome n
  rw [hcl] at hsome
  obtain ⟨⟨x, y⟩, hxy⟩ := Option.isSome_iff_exists.mp hsome
  obtain ⟨cl', hcl', hx, hy, hne⟩ := hw.clause hxy
  rw [hcl] at hcl'
  cases hcl'
  -- when one watched literal is false, the other one is true
  have hother {x y : Literal} (hg : s.Guards bound x y) (hfalse : x.neg ∈ s.trail) :
      y ∈ s.trail := by
    obtain ⟨i, hi⟩ := List.mem_iff_getElem?.mp hfalse
    have hlt := (List.getElem?_eq_some_iff.mp hi).1
    exact (hg i (by omega) hi).1
  by_cases hxfalse : x.neg ∈ s.trail
  · exact .inl ⟨y, hy, hother (h n x y hxy).1 hxfalse⟩
  by_cases hyfalse : y.neg ∈ s.trail
  · exact .inl ⟨x, hx, hother (h n x y hxy).2 hyfalse⟩
  exact .inr ⟨x, hx, y, hy, hne, hxfalse, hyfalse⟩

/-- When everything on the trail was propagated, a clause whose literals all have values has
a true one. -/
theorem Guarded.satisfied (h : s.Guarded bound) (hs : s.Assigned) (hw : s.Watching)
    (hbound : s.trail.length ≤ bound)
    {cl : Content} (hcl : s.db.clause? n = some cl) (hvalue : ∀ l ∈ cl.1, s.value l ≠ none) :
    ∃ l ∈ cl.1, l ∈ s.trail := by
  rcases h.complete hw hbound hcl with htrue | ⟨x, hx, -, -, -, hnot, -⟩
  · exact htrue
  · refine ⟨x, hx, ?_⟩
    apply Decidable.byContradiction
    intro hfalse
    exact hvalue x hx (hs.value_none.mpr ⟨hfalse, hnot⟩)

end Entail.Search.State
