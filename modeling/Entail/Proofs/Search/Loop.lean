import Entail.Proofs.Search.Analyze
import Entail.Search.Solve

/-!
# The turns of a search

Whatever is done to a core keeps its state in order: the trail, the notes of the watched literals
and the variables in use fit together, and what was found false at level 0 is false. During a search
everything before the head was propagated as well. This is what starting, learning, going back and
deciding preserve.
-/

namespace Entail

namespace Search.State

variable {s t : State} {l k : Literal} {n level : Nat}

/-- The state is in order. -/
structure Orderly (s : State) : Prop where
  assigned : s.Assigned
  watching : s.Watching
  unmarked : ∀ v, (s.cell v).seen = false
  used : ∀ l ∈ s.trail, (s.cell l.var).live = true
  units : ∀ u ∈ s.db.units, (s.cell u.1.var).live = true
  ok : ∃ depth, s.db.Ok depth
  refuted : s.conflict = true → ∀ a, ¬ s.db.Models a

/-- No contradiction was found. -/
def Intact (s : State) : Prop := s.conflict = false ∧ s.db.empty = none

/-- Units are true at level 0. -/
def Rooted (s : State) : Prop := ∀ u ∈ s.db.units, u.1 ∈ s.trail ∧ s.level u.1 = 0

/-- Everything before the head was propagated, unless a contradiction was found. -/
structure Running (s : State) : Prop where
  orderly : s.Orderly
  latest : ∀ j ∈ s.starts, j ≤ s.head
  guarded : s.Intact → s.Guarded s.head

/-- A search goes on: units are true at level 0, everything before the head was propagated, and no
contradiction was found. -/
structure Going (s : State) : Prop extends s.Running where
  rooted : s.Rooted
  intact : s.Intact

/-- The search has found no contradiction, and the units stay true at level 0. -/
structure Continues (s t : State) : Prop where
  intact : t.Intact ↔ s.Intact
  rooted : s.Rooted → t.Rooted

theorem Running.ready (h : s.Running) : s.Ready s.Intact :=
  ⟨h.orderly.assigned, h.orderly.watching, h.guarded, h.latest⟩

theorem Going.ready (h : s.Going) : s.Ready True :=
  ⟨h.orderly.assigned, h.orderly.watching, fun _ => h.guarded h.intact, h.latest⟩

theorem Going.continues (h : s.Going) (hc : s.Continues t) (ht : t.Running) : t.Going :=
  ⟨ht, hc.rooted h.rooted, hc.intact.mpr h.intact⟩

theorem Continues.trans {u : State} (h : s.Continues t) (h' : t.Continues u) : s.Continues u :=
  ⟨h'.intact.trans h.intact, fun hr => h'.rooted (h.rooted hr)⟩

/-- Units stay true when the trail grows and their number does not. -/
theorem Continues.of_grown (hdb : t.db = s.db) (hconflict : t.conflict = s.conflict)
    (htrail : s.trail <+: t.trail)
    (hlevel : ∀ k ∈ s.trail, t.level k = s.level k) : s.Continues t := by
  refine ⟨by rw [Intact, Intact, hdb, hconflict], fun hr u hu => ?_⟩
  rw [hdb] at hu
  obtain ⟨hmem, hzero⟩ := hr u hu
  exact ⟨htrail.subset hmem, (hlevel _ hmem).trans hzero⟩

theorem Continues.extends (h : s.Extends t) (hs : s.Assigned) (ht : t.Assigned) : s.Continues t :=
  .of_grown h.db h.conflict h.trail fun _ hk => h.level_eq hs ht hk

/-! ## Going back -/

/-- What is left when the trail is cut off is in order. -/
theorem Orderly.cut (h : s.Orderly) {start : Nat} (hcell : t.cell = (s.cut start).cell)
    (ht : t.Assigned)
    (htrail : t.trail = s.trail.take start) (hsize : t.size = s.size) (hroom : t.room = s.room)
    (hdb : t.db = s.db) (hwatched : t.watched = s.watched) (hwatchers : t.watchers = s.watchers)
    (hrefuted : t.conflict = true → s.conflict = true) : t.Orderly := by
  have hlive (v : Nat) : (t.cell v).live = (s.cell v).live := by
    rw [hcell]
    exact (live_cut s start v).1
  refine ⟨ht, h.watching.of_same hroom hsize hlive hdb hwatched hwatchers, ?_, ?_, ?_, ?_, ?_⟩
  · intro v
    rw [hcell, (live_cut s start v).2]
    exact h.unmarked v
  · intro l hl
    rw [htrail] at hl
    rw [hlive]
    exact h.used l (List.mem_of_mem_take hl)
  · rw [hdb]
    intro u hu
    rw [hlive]
    exact h.units u hu
  · rw [hdb]
    exact h.ok
  · intro hc
    rw [hdb]
    exact h.refuted (hrefuted hc)

theorem Orderly.back (h : s.Orderly) (level : Nat) : (s.back level).Orderly := by
  have ht := h.assigned.back level
  unfold State.back at ht ⊢
  cases hstart : s.starts[level]? with
  | none => exact h
  | some start =>
    rw [hstart] at ht
    exact h.cut rfl ht rfl rfl rfl rfl rfl rfl id

theorem Orderly.clear (h : s.Orderly) : s.clear.Orderly := by
  have hcell : s.clear.cell = (s.cut 0).cell := rfl
  apply h.cut hcell h.assigned.clear rfl rfl rfl rfl rfl rfl
  intro hc
  cases hc

/-- Nothing is propagated when the trail was taken back. -/
theorem Orderly.running (h : s.Orderly) (hstarts : s.starts = []) (hhead : s.head = 0) :
    s.Running := by
  refine ⟨h, fun j hj => ?_, fun _ n x y _ => ?_⟩
  · rw [hstarts] at hj
    cases hj
  · rw [hhead]
    exact ⟨fun i hi => absurd hi (Nat.not_lt_zero i), fun i hi => absurd hi (Nat.not_lt_zero i)⟩

theorem Continues.back (hs : s.Assigned) (level : Nat) : s.Continues (s.back level) := by
  refine ⟨by rw [Intact, Intact, db_back, conflict_back], fun hr u hu => ?_⟩
  rw [db_back] at hu
  obtain ⟨hmem, hzero⟩ := hr u hu
  have hkept := hs.mem_back level hmem (by omega)
  exact ⟨hkept.1, hkept.2.trans hzero⟩

theorem Running.back (h : s.Running) (level : Nat) : (s.back level).Running := by
  have horderly := h.orderly.back level
  have hintact := (Continues.back h.orderly.assigned level).intact
  cases hstart : s.starts[level]? with
  | none =>
    have hsame : s.back level = s := by
      unfold State.back
      rw [hstart]
    rw [hsame]
    exact h
  | some start =>
    have hguards {x y : Literal} (hg : s.Guards s.head x y) :
        (s.back level).Guards (min s.head start) x y :=
      hg.back h.orderly.assigned hstart (Nat.min_le_left _ _) (Nat.min_le_right _ _)
    have hback : s.back level = { s.cut start with starts := s.starts.take level } := by
      unfold State.back
      rw [hstart]
    refine ⟨horderly, ?_, ?_⟩
    · intro j hj
      rw [hback] at hj ⊢
      change j ∈ s.starts.take level at hj
      rw [h.orderly.assigned.take_starts hstart, List.mem_filter] at hj
      have hle := h.latest j hj.1
      have hlt : j < start := by simpa using hj.2
      show j ≤ min s.head start
      omega
    · intro hi n x y hn
      rw [hback] at hn
      have hboth := h.guarded (hintact.mp hi) n x y hn
      have hhead : (s.back level).head = min s.head start := by rw [hback]; rfl
      rw [hhead]
      exact ⟨hguards hboth.1, hguards hboth.2⟩

theorem Going.back (h : s.Going) (level : Nat) : (s.back level).Going :=
  h.continues (.back h.orderly.assigned level) (h.toRunning.back level)

/-! ## More on the trail -/

/-- What is forced, or is a unit at level 0, is in use. -/
theorem Orderly.extends (h : s.Orderly) (hext : s.Extends t) (ht : t.Assigned) (hw : t.Watching) :
    t.Orderly := by
  refine ⟨ht, hw, ?_, ?_, ?_, ?_, ?_⟩
  · intro v
    rw [hext.seen]
    exact h.unmarked v
  · intro l hl
    obtain ⟨i, hi⟩ := List.mem_iff_getElem?.mp hl
    cases hreason : (t.cell l.var).reason with
    | some n =>
      obtain ⟨cl, hcl, hmem, -⟩ := ht.reason hi hreason
      exact hw.live hcl l hmem
    | none =>
      rw [hext.live]
      rcases ht.root hi hreason with hstart | ⟨-, d, hunit⟩
      · rw [hext.starts] at hstart
        have hlt := h.assigned.below hstart
        obtain ⟨more, hmore⟩ := hext.trail
        rw [← hmore, List.getElem?_append_left hlt] at hi
        exact h.used l (List.mem_of_getElem? hi)
      · rw [hext.db] at hunit
        exact h.units _ hunit
  · rw [hext.db]
    intro u hu
    rw [hext.live]
    exact h.units u hu
  · rw [hext.db]
    exact h.ok
  · rw [hext.db, hext.conflict]
    exact h.refuted

/-- A literal is forced, or is a unit at level 0. -/
theorem Orderly.assign (h : s.Orderly) (hvalue : s.value l = none)
    (hlive : (s.cell l.var).live = true) {r : Option Nat}
    (hreason : ∀ {n}, r = some n → s.Forces n l s.trail)
    (hroot : r = none → s.starts = [] ∧ ∃ d, (l, d) ∈ s.db.units) : (s.assign l r).Orderly := by
  have hext := Extends.assign s l r
  have hwatching : (s.assign l r).Watching := h.watching.of_same rfl rfl hext.live rfl rfl rfl
  exact h.extends hext (h.assigned.assign hvalue (h.watching.inUse hlive) hreason hroot) hwatching

/-- A literal in use is decided. -/
theorem Orderly.decide (h : s.Orderly) (hvalue : s.value l = none)
    (hlive : (s.cell l.var).live = true) :
    (s.decide l).Orderly := by
  have hvar := h.watching.inUse hlive
  have hcells := Extends.assign { s with starts := s.starts ++ [s.trail.length] } l none
  have htrail : (s.decide l).trail = s.trail ++ [l] := rfl
  refine ⟨h.assigned.decide hvalue hvar, h.watching.of_same rfl rfl hcells.live rfl rfl rfl, ?_, ?_,
    ?_, h.ok, h.refuted⟩
  · intro v
    exact (hcells.seen v).trans (h.unmarked v)
  · intro k hk
    refine (hcells.live k.var).trans ?_
    rw [htrail, List.mem_append, List.mem_singleton] at hk
    rcases hk with hk | rfl
    · exact h.used k hk
    · exact hlive
  · intro u hu
    exact (hcells.live u.1.var).trans (h.units u hu)

/-- On a longer trail it is enough that the literals guard each other that are watched since. -/
theorem Running.grow (h : s.Running) (ht : t.Orderly)
    (hlatest : ∀ j ∈ t.starts, j ∈ s.starts ∨ j ≤ s.head)
    (hhead : t.head = s.head) (htrail : s.trail <+: t.trail)
    (hlevel : ∀ l ∈ s.trail, t.level l = s.level l) (hintact : t.Intact → s.Intact)
    (hwatched : ∀ {m x y}, t.watched m = some (x, y) →
      s.watched m = some (x, y) ∨ t.Guards s.head x y ∧ t.Guards s.head y x) : t.Running := by
  refine ⟨ht, fun j hj => ?_, fun hi m x y hm => ?_⟩
  · rw [hhead]
    exact (hlatest j hj).elim (h.latest j) id
  · rw [hhead]
    refine (hwatched hm).elim (fun hm => ?_) id
    have hboth := h.guarded (hintact hi) m x y hm
    exact ⟨hboth.1.extend htrail hlevel h.orderly.assigned.head,
      hboth.2.extend htrail hlevel h.orderly.assigned.head⟩

/-- A literal in use is decided when everything on the trail was propagated. -/
theorem Running.decide (h : s.Running) (hhead : s.head = s.trail.length) (hvalue : s.value l = none)
    (hlive : (s.cell l.var).live = true) : (s.decide l).Running ∧ s.Continues (s.decide l) := by
  have hvar := h.orderly.watching.inUse hlive
  have hlevel := h.orderly.assigned.level_push hvalue none hvar (s.starts ++ [s.trail.length])
  have htrail : s.trail <+: (s.decide l).trail := List.prefix_append _ _
  refine ⟨h.grow (h.orderly.decide hvalue hlive) (fun j hj => ?_) rfl htrail hlevel id .inl,
    .of_grown rfl rfl htrail hlevel⟩
  exact (List.mem_append.mp hj).imp_right fun hj => (List.mem_singleton.mp hj).trans_le hhead.ge

theorem Going.decide (h : s.Going) (hhead : s.head = s.trail.length) (hvalue : s.value l = none)
    (hlive : (s.cell l.var).live = true) : (s.decide l).Going :=
  have hdecide := h.toRunning.decide hhead hvalue hlive
  h.continues hdecide.2 hdecide.1

/-! ## More clauses -/

/-- The trail fits a state with more clauses and units. -/
theorem Assigned.more (h : s.Assigned) {d : Database}
    (hclause : ∀ {n cl}, s.db.clause? n = some cl → d.clause? n = some cl)
    (hunit : ∀ {u}, u ∈ s.db.units → u ∈ d.units) : ({ s with db := d } : State).Assigned :=
  h.of_same (fun _ => ⟨rfl, rfl, rfl⟩) (Nat.le_refl _) (fun hcl => ⟨_, hclause hcl, rfl⟩)
    (fun hu => ⟨_, hunit hu⟩) rfl rfl
    h.head

/-- A unit is added. -/
theorem Orderly.addUnit (h : s.Orderly) (hlive : (s.cell l.var).live = true) (scope : Nat) :
    ({ s with db := s.db.addUnit l scope } : State).Orderly := by
  have hmem {u : Literal × Nat} (hu : u ∈ s.db.units) : u ∈ (s.db.addUnit l scope).units :=
    Array.mem_push.mpr (.inl hu)
  refine ⟨h.assigned.more id hmem, ?_, h.unmarked, h.used, ?_, ?_, ?_⟩
  · exact ⟨h.watching.room, h.watching.inUse, h.watching.live, h.watching.nodup, h.watching.isSome,
      h.watching.pair,
      h.watching.mem, h.watching.once⟩
  · intro u hu
    rcases Array.mem_push.mp hu with hu | rfl
    · exact h.units u hu
    · exact hlive
  · obtain ⟨depth, hok⟩ := h.ok
    exact ⟨max depth scope, hok.nodup, hok.free, fun hcl => Nat.le_trans (hok.clause hcl)
      (Nat.le_max_left _ _),
      fun hu => by
        rcases Array.mem_push.mp hu with hu | rfl
        · exact Nat.le_trans (hok.unit hu) (Nat.le_max_left _ _)
        · exact Nat.le_max_right _ _,
      fun hk => Nat.le_trans (hok.empty hk) (Nat.le_max_left _ _)⟩
  · intro hc a ha
    exact h.refuted hc a ⟨ha.clause, fun hu => ha.unit (hmem hu), ha.empty⟩

/-- A clause is stored and watched. -/
theorem Orderly.store (h : s.Orderly) {cl : Clause} (hnodup : cl.lits.Nodup)
    (hlive : ∀ l ∈ cl.lits, (s.cell l.var).live = true) : (s.store s.db.slot cl).Orderly := by
  obtain ⟨depth, hok⟩ := h.ok
  obtain ⟨hfree, hclause⟩ := Database.clause?_slot hok cl.content
  have hkept {n : Nat} {cl' : Content} (hn : s.db.clause? n = some cl') :
      (s.db.store cl.content).clause? n = some cl' := by
    have hne : n ≠ s.db.slot := by
      intro he
      rw [he, hfree] at hn
      cases hn
    rw [hclause, if_neg hne]
    exact hn
  have hunits : (s.db.store cl.content).units = s.db.units := Database.units_store s.db cl.content
  have hassigned : (s.store s.db.slot cl).Assigned :=
    h.assigned.of_same (fun _ => ⟨rfl, rfl, rfl⟩) (Nat.le_refl _) (fun hn => ⟨_, hkept hn, rfl⟩)
      (fun {l d} hu =>
        ⟨d, by rw [show (s.store s.db.slot cl).db.units = s.db.units from hunits]; exact hu⟩) rfl
          rfl
      h.assigned.head
  refine ⟨hassigned, h.watching.store hok hnodup hlive, h.unmarked, h.used, ?_, ?_, ?_⟩
  · intro u hu
    rw [show (s.store s.db.slot cl).db.units = s.db.units from hunits] at hu
    exact h.units u hu
  · have hdeep := hok.mono (Nat.le_max_left depth cl.scope)
    exact ⟨max depth cl.scope, hdeep.store (Nat.le_max_right _ _)⟩
  · intro hc a ha
    refine h.refuted hc a ⟨fun hn => ha.clause (hkept hn), fun hu => ha.unit ?_, ?_⟩
    · rw [show (s.store s.db.slot cl).db.units = s.db.units from hunits]
      exact hu
    · exact (Database.empty_store s.db cl.content).symm.trans ha.empty

/-! ## Learning -/

/-- A unit is learned at level 0, where it becomes true. -/
theorem Orderly.learn_unit (h : s.Orderly) (hstarts : s.starts = []) (hvalue : s.value l = none)
    (hlive : (s.cell l.var).live = true) (scope : Nat) :
    ({ s with db := s.db.addUnit l scope }.assign l none : State).Orderly := by
  have hunit : (l, scope) ∈ (s.db.addUnit l scope).units := Array.mem_push.mpr (.inr rfl)
  apply (h.addUnit hlive scope).assign hvalue hlive
  · intro n hn
    cases hn
  · exact fun _ => ⟨hstarts, scope, hunit⟩

theorem Running.learn_unit (h : s.Running) (hstarts : s.starts = []) (hvalue : s.value l = none)
    (hlive : (s.cell l.var).live = true) (scope : Nat) :
    ({ s with db := s.db.addUnit l scope }.assign l none : State).Running ∧
      s.Continues ({ s with db := s.db.addUnit l scope }.assign l none) := by
  have hadded := h.orderly.addUnit hlive scope
  have hext := Extends.assign { s with db := s.db.addUnit l scope } l none
  have hlevel := hadded.assigned.level_push hvalue none (h.orderly.watching.inUse hlive) s.starts
  have horderly := h.orderly.learn_unit hstarts hvalue hlive scope
  refine ⟨h.grow horderly (fun _ hj => .inl hj) rfl hext.trail hlevel id .inl, Iff.rfl,
    fun hr u hu => ?_⟩
  · rcases Array.mem_push.mp hu with hu | rfl
    · obtain ⟨hmem, hzero⟩ := hr u hu
      exact ⟨hext.trail.subset hmem, (hlevel _ hmem).trans hzero⟩
    · have hmem : l ∈ ({ s with db := s.db.addUnit l scope }.assign l none : State).trail :=
        List.mem_append_right _ List.mem_cons_self
      have hle := horderly.assigned.level_le hmem
      have hnil : ({ s with db := s.db.addUnit l scope }.assign l none : State).starts = [] :=
        hstarts
      rw [hnil] at hle
      exact ⟨hmem, Nat.le_zero.mp hle⟩

/-- A longer clause is learned where its first literal has no value and the others are false. -/
theorem Orderly.learn_clause (h : s.Orderly) {cl : Clause} (hnodup : cl.lits.Nodup)
    (hlive : ∀ l ∈ cl.lits, (s.cell l.var).live = true) (hvalue : s.value cl.first = none)
    (hfalse : ∀ k ∈ cl.lits, k = cl.first ∨ k.neg ∈ s.trail) :
    ((s.store s.db.slot cl).assign cl.first (some s.db.slot)).Orderly := by
  have hfirst : cl.first ∈ cl.lits := List.mem_cons_self
  obtain ⟨depth, hok⟩ := h.ok
  have hclause : (s.db.store cl.content).clause? s.db.slot = some cl.content := by
    rw [(Database.clause?_slot hok cl.content).2, if_pos rfl]
  have hforces : (s.store s.db.slot cl).Forces s.db.slot cl.first s.trail :=
    ⟨cl.content, hclause, Multiset.mem_coe.mpr hfirst, fun k hk =>
      hfalse k (Multiset.mem_coe.mp hk)⟩
  apply (h.store hnodup hlive).assign hvalue (hlive _ hfirst)
  · intro n hn
    cases hn
    exact hforces
  · intro hn
    cases hn

/-- A longer clause is learned at the level of its second literal, where its first literal
becomes true. -/
theorem Running.learn_clause (h : s.Running) {cl : Clause} (hnodup : cl.lits.Nodup)
    (hlive : ∀ l ∈ cl.lits, (s.cell l.var).live = true) (hvalue : s.value cl.first = none)
    (hfalse : ∀ k ∈ cl.lits, k = cl.first ∨ k.neg ∈ s.trail)
    (hsecond : s.level cl.second = s.starts.length) :
    ((s.store s.db.slot cl).assign cl.first (some s.db.slot)).Running ∧
      s.Continues ((s.store s.db.slot cl).assign cl.first (some s.db.slot)) := by
  have hstored := h.orderly.store hnodup hlive
  have hsecondMem : cl.second ∈ cl.lits := List.mem_cons_of_mem _ List.mem_cons_self
  have hvar := h.orderly.watching.inUse (hlive _ List.mem_cons_self)
  have hext := Extends.assign (s.store s.db.slot cl) cl.first (some s.db.slot)
  have hlevel := hstored.assigned.level_push hvalue (some s.db.slot) hvar s.starts
  have horderly := h.orderly.learn_clause hnodup hlive hvalue hfalse
  have htrail : ((s.store s.db.slot cl).assign cl.first (some s.db.slot)).trail = s.trail ++
    [cl.first] := rfl
  have hintact : ((s.store s.db.slot cl).assign cl.first (some s.db.slot)).Intact ↔ s.Intact := by
    show s.conflict = false ∧ (s.db.store cl.content).empty = none ↔ s.conflict = false ∧
      s.db.empty = none
    rw [Database.empty_store]
  refine ⟨h.grow horderly (fun _ hj => .inl hj) rfl hext.trail hlevel hintact.mp fun {m x y} hm =>
    ?_, hintact,
    fun hr u hu => ?_⟩
  · change (if m = s.db.slot then some (cl.first, cl.second) else s.watched m) = some (x, y) at hm
    split at hm
    next =>
      cases hm
      refine .inr ⟨?_, ?_⟩
      · -- the first literal is true
        apply guards_of_not_mem
        rw [htrail, List.mem_append, List.mem_singleton]
        rintro (hneg | he)
        · exact (h.orderly.assigned.value_none.mp hvalue).2 hneg
        · exact cl.first.neg_ne he
      · have hmem : cl.first ∈ ((s.store s.db.slot cl).assign cl.first (some s.db.slot)).trail := by
          rw [htrail]
          exact List.mem_append_right _ List.mem_cons_self
        have hneg : cl.second.neg ∈ s.trail := by
          refine (hfalse _ hsecondMem).resolve_left fun he => ?_
          rw [Clause.lits, he] at hnodup
          simp at hnodup
        apply guards_of_mem hmem
        have hsame := hlevel _ hneg
        rw [level_neg, level_neg] at hsame
        exact (horderly.assigned.level_le hmem).trans (hsecond.symm.trans hsame.symm).le
    next => exact .inl hm
  · rw [show ((s.store s.db.slot cl).assign cl.first (some s.db.slot)).db.units = s.db.units from
      Database.units_store s.db cl.content] at hu
    obtain ⟨hmem, hzero⟩ := hr u hu
    exact ⟨hext.trail.subset hmem, (hlevel _ hmem).trans hzero⟩

/-- A propagation has stopped at a falsified clause. It went on as long as the head was at an
earlier place. -/
structure Stopped (s : State) : Prop where
  orderly : s.Orderly
  head : s.head = s.trail.length
  running : ∃ h, ({ s with head := h } : State).Running

/-- The search has stopped at a falsified clause. -/
structure Halted (s : State) : Prop extends s.Stopped where
  rooted : s.Rooted
  intact : s.Intact

/-- The search has gone back to the level at which a clause becomes a reason. -/
structure Returned (s : State) (first : Literal) (rest : List Literal) : Prop where
  value : s.value first = none
  false : ∀ k ∈ rest, k.neg ∈ s.trail
  second : ∀ k, rest.head? = some k → s.level k = s.starts.length
  root : rest = [] → s.starts = []
  live : ∀ k ∈ first :: rest, (s.cell k.var).live = true
  nodup : (first :: rest).Nodup

theorem Stopped.back (h : s.Stopped) (hlevel : level < s.starts.length) :
    (s.back level).Running := by
  obtain ⟨start, hstart⟩ : ∃ start, s.starts[level]? = some start :=
    ⟨_, List.getElem?_eq_getElem hlevel⟩
  have hmem : start ∈ s.starts := List.mem_of_getElem? hstart
  have hbelow := h.orderly.assigned.below hmem
  obtain ⟨place, hrunning⟩ := h.running
  have hle : start ≤ place := hrunning.latest start hmem
  -- both heads are behind the start of the next level
  have hback : ({ s with head := place } : State).back level = s.back level := by
    unfold State.back
    simp only [hstart]
    refine State.ext rfl rfl rfl rfl rfl rfl rfl rfl ?_ rfl
    show min place start = min s.head start
    rw [h.head]
    omega
  rw [← hback]
  exact hrunning.back level

theorem Halted.back (h : s.Halted) (hlevel : level < s.starts.length) : (s.back level).Going :=
  have hc := Continues.back h.orderly.assigned level
  ⟨h.toStopped.back hlevel, hc.rooted h.rooted, hc.intact.mpr h.intact⟩

theorem Flips.back {first : Literal} {rest : List Literal} (h : s.Flips level first rest)
    (hs : s.Orderly) :
    (s.back level).Returned first rest := by
  have ha := hs.assigned
  have hlength : (s.back level).starts.length = level := length_starts_back (Nat.le_of_lt h.lower)
  have hkept {k : Literal} (hk : k ∈ rest) : k.neg ∈ (s.back level).trail ∧
      (s.back level).level k = s.level k := by
    have hback := ha.mem_back level (h.others k hk).1 (by rw [level_neg]; exact (h.others k hk).2)
    rwa [level_neg, level_neg] at hback
  refine ⟨?_, fun k hk => (hkept hk).1, ?_, ?_, ?_, h.nodup⟩
  · rw [(ha.back level).value_none]
    obtain ⟨start, hstart⟩ : ∃ start, s.starts[level]? = some start :=
      ⟨_, List.getElem?_eq_getElem h.lower⟩
    have htrail : (s.back level).trail = s.trail.take start := by
      unfold State.back
      rw [hstart]
      rfl
    rw [htrail]
    constructor
    · intro hin
      have hnot := ha.not_both h.mem
      rw [Literal.neg_neg] at hnot
      exact hnot (List.mem_of_mem_take hin)
    · intro hin
      obtain ⟨i, hi⟩ := List.mem_iff_getElem?.mp hin
      rw [List.getElem?_take] at hi
      split at hi
      next hlt =>
        have hle := (ha.lt_start_iff hstart hi).mp hlt
        rw [level_neg, h.latest] at hle
        have := h.lower
        omega
      next => cases hi
  · intro k hk
    rw [(hkept (List.mem_of_mem_head? hk)).2, hlength]
    exact h.second k hk
  · intro hnil
    exact List.eq_nil_of_length_eq_zero (hlength.trans (h.root hnil))
  · intro k hk
    have hneg : k.neg ∈ s.trail := by
      rcases List.mem_cons.mp hk with rfl | hk
      · exact h.mem
      · exact (h.others k hk).1
    have hlive := hs.used _ hneg
    rw [Literal.var_neg] at hlive
    exact (live_back s level k.var).1.trans hlive

/-! ## Contradictions -/

/-- Units that were made true at level 0. -/
structure Assigns (s t : State) (units : List (Literal × Nat)) : Prop extends s.Extends t where
  head : t.head = s.head
  mem : ∀ u ∈ units, u.1 ∈ t.trail

/-- Units that contradict what is true at level 0. -/
structure Contradicts (s t : State) : Prop where
  flagged : ¬ t.Intact
  refuted : ∀ a, ¬ s.db.Models a
  starts : t.starts = []

/-- No valuation that satisfies the clauses makes a literal true that is false at level 0. -/
theorem Assigned.not_holds_of_root (h : s.Assigned) (hstarts : s.starts = [])
    (hneg : l.neg ∈ s.trail) {a : Nat → Bool} (ha : s.db.Models a) : ¬ l.Holds a := by
  have hle := h.level_le hneg
  rw [hstarts] at hle
  exact Literal.holds_neg.mp (h.root_holds ha.obeys hneg (Nat.le_zero.mp hle))

theorem Orderly.fail (h : s.Orderly) (hno : ∀ a, ¬ s.db.Models a) :
    ({ s with conflict := true } : State).Orderly where
  assigned := ⟨h.assigned.nodup, h.assigned.value, h.assigned.level, h.assigned.starts,
    h.assigned.below, h.assigned.head,
    h.assigned.bound, h.assigned.reason, h.assigned.root⟩
  watching := h.watching.of_same rfl rfl (fun _ => rfl) rfl rfl rfl
  unmarked := h.unmarked
  used := h.used
  units := h.units
  ok := h.ok
  refuted _ := hno

end Search.State

namespace Core

open Search Search.State

variable {c : Core} {l : Literal}

/-! ## Starting -/

/-- A unit becomes true at level 0, or contradicts what is true there. -/
theorem assignUnit_spec (h : c.state.Orderly) (hstarts : c.state.starts = []) {d : Nat}
    (hu : (l, d) ∈ c.db.units) :
    (c.assignUnit l).2.state.Orderly ∧
      ((c.assignUnit l).1 = true → c.state.Assigns (c.assignUnit l).2.state [(l, d)]) ∧
      ((c.assignUnit l).1 = false → c.state.Contradicts (c.assignUnit l).2.state) := by
  have hvalue : c.value l = c.state.value l := rfl
  unfold assignUnit
  split
  next hfalse =>
    have hno : ∀ a, ¬ c.db.Models a := by
      intro a ha
      have hneg := h.assigned.value_false.mp (hvalue.symm.trans hfalse)
      exact h.assigned.not_holds_of_root hstarts hneg ha (ha.unit hu)
    exact ⟨h.fail hno, nofun, fun _ => ⟨fun hi => (Bool.false_ne_true hi.1.symm).elim,
      hno, hstarts⟩⟩
  next htrue =>
    refine ⟨h, fun _ => ⟨Extends.refl _, rfl, fun u hu => ?_⟩, nofun⟩
    rw [List.mem_singleton.mp hu]
    exact h.assigned.value_true.mp (hvalue.symm.trans htrue)
  next hnone =>
    simp only [state_enqueue]
    have hroot : (none : Option Nat) = none → c.state.starts = [] ∧ ∃ d,
      (l, d) ∈ c.state.db.units := fun _ => ⟨hstarts, d, hu⟩
    refine ⟨h.assign (hvalue.symm.trans hnone) (h.units _ hu) (fun hr => by cases hr) hroot,
      fun _ => ?_, nofun⟩
    refine ⟨Extends.assign _ l none, rfl, fun u hu => ?_⟩
    rw [List.mem_singleton.mp hu]
    exact List.mem_append_right _ List.mem_cons_self

theorem assignUnitList_spec (us : List (Literal × Nat)) (c : Core) (h : c.state.Orderly)
    (hstarts : c.state.starts = []) (hus : ∀ u ∈ us, u ∈ c.db.units) :
    (assignUnitList us c).2.state.Orderly ∧
      ((assignUnitList us c).1 = true → c.state.Assigns (assignUnitList us c).2.state us) ∧
      ((assignUnitList us c).1 = false → c.state.Contradicts (assignUnitList us c).2.state) := by
  induction us generalizing c with
  | nil => exact ⟨h, fun _ => ⟨Extends.refl _, rfl, fun u hu => by cases hu⟩, nofun⟩
  | cons u us ih =>
    have hone := assignUnit_spec h hstarts (hus u List.mem_cons_self)
    have hdb := db_assignUnit c u.1
    unfold assignUnitList
    split
    next c₁ heq =>
      rw [heq] at hone hdb
      obtain ⟨h₁, hassigns₁, -⟩ := hone
      simp only at h₁ hassigns₁ hdb
      have hassigns₁ := hassigns₁ trivial
      obtain ⟨h₂, hassigns₂, hno₂⟩ := ih c₁ h₁ (hassigns₁.starts.trans hstarts) fun u hu => by
        rw [hdb]
        exact hus u (List.mem_cons_of_mem _ hu)
      refine ⟨h₂, fun ht => ?_, fun hf => ?_⟩
      · have hassigns₂ := hassigns₂ ht
        refine ⟨hassigns₁.toExtends.trans hassigns₂.toExtends, hassigns₂.head.trans hassigns₁.head,
          fun k hk => ?_⟩
        rcases List.mem_cons.mp hk with rfl | hk
        · exact hassigns₂.trail.subset (hassigns₁.mem _ List.mem_cons_self)
        · exact hassigns₂.mem k hk
      · have hno₂ := hno₂ hf
        refine ⟨hno₂.flagged, fun a ha => hno₂.refuted a ?_, hno₂.starts⟩
        rw [show c₁.state.db = c.state.db from hdb]
        exact ha
    next c₁ heq =>
      rw [heq] at hone
      exact ⟨hone.1, nofun, hone.2.2⟩

/-- Units are made true at level 0, unless the units and the empty clause contradict each other. -/
theorem assignUnits_spec (h : c.state.Orderly) (hstarts : c.state.starts = []) :
    c.assignUnits.2.state.Orderly ∧
      (c.assignUnits.1 = true → c.state.Assigns c.assignUnits.2.state c.state.db.units.toList ∧
        c.state.db.empty = none) ∧
      (c.assignUnits.1 = false → c.state.Contradicts c.assignUnits.2.state) := by
  simp only [assignUnits]
  split
  next hempty =>
    obtain ⟨n, hn⟩ := Option.isSome_iff_exists.mp hempty
    have hempty' : c.state.db.empty = some n := hn
    refine ⟨h, fun ht => absurd ht Bool.false_ne_true, fun _ =>
      ⟨fun hi => ?_, fun a ha => ?_, hstarts⟩⟩
    · rw [show c.state.db.empty = none from hi.2] at hempty'
      cases hempty'
    · rw [ha.empty] at hempty'
      cases hempty'
  next hempty =>
    obtain ⟨horderly, hassigns, hno⟩ := assignUnitList_spec c.units.toList (c.require _) h hstarts
      fun u hu => Array.mem_toList_iff.mp hu
    refine ⟨horderly, fun ht => ⟨hassigns ht, ?_⟩, hno⟩
    exact Option.not_isSome_iff_eq_none.mp hempty

/-- The trail is taken back and the units are made true, unless the units and the empty clause
contradict each other. -/
theorem startSearch_cases (h : c.state.Orderly) (p : Params) :
    (c.startSearch p).2.state.Orderly ∧
    ((c.startSearch p).1 = true → (c.startSearch p).2.state.Going) ∧
      ((c.startSearch p).1 = false → c.state.Contradicts (c.startSearch p).2.state) := by
  unfold startSearch
  generalize hc₁ : ({ c.resetTrail with
    decay := p.varDecay.toFloat
    restartThreshold := p.restartThreshold.toFloat
    conflictsSinceRestart := 0 } : Core) = c₁
  have hstate : c₁.state = c.state.clear := by
    rw [← state_resetTrail, ← hc₁]
    rfl
  have hdb : c₁.state.db = c.state.db := by rw [hstate]; rfl
  have h₁ : c₁.state.Orderly := by
    rw [hstate]
    exact h.clear
  have hstarts : c₁.state.starts = [] := by
    rw [hstate]
    rfl
  obtain ⟨h₂, hassigns, hno⟩ := assignUnits_spec h₁ hstarts
  simp only
  refine ⟨h₂, fun ht => ?_, fun hf => ?_⟩
  · obtain ⟨hassigns, hempty⟩ := hassigns ht
    have hzero : c₁.assignUnits.2.state.head = 0 := by
      rw [hassigns.head, hstate]
      rfl
    refine ⟨h₂.running (hassigns.starts.trans hstarts) hzero, ?_, ?_, ?_⟩
    · rw [Rooted, hassigns.db]
      intro u hu
      have hmem := hassigns.mem u (Array.mem_toList_iff.mpr hu)
      have hle := h₂.assigned.level_le hmem
      rw [hassigns.starts, hstarts] at hle
      exact ⟨hmem, Nat.le_zero.mp hle⟩
    · rw [hassigns.conflict, hstate]
      rfl
    · rw [hassigns.db]
      exact hempty
  · have hno := hno hf
    refine ⟨hno.flagged, fun a ha => hno.refuted a ?_, hno.starts⟩
    rw [hdb]
    exact ha

theorem startSearch_spec (h : c.state.Orderly) (p : Params) :
    (c.startSearch p).2.state.Orderly ∧
    ((c.startSearch p).1 = true → (c.startSearch p).2.state.Going) ∧
      ((c.startSearch p).1 = false → ∀ a, ¬ c.db.Models a) := by
  obtain ⟨horderly, hgoing, hno⟩ := startSearch_cases h p
  exact ⟨horderly, hgoing, fun hf => (hno hf).refuted⟩

theorem startSearch_running (h : c.state.Orderly) (p : Params) :
    (c.startSearch p).2.state.Running ∧
    ((c.startSearch p).2.state.Intact → (c.startSearch p).2.state.Rooted) := by
  obtain ⟨horderly, hgoing, hno⟩ := startSearch_cases h p
  cases hstart : (c.startSearch p).1 with
  | true => exact ⟨(hgoing hstart).toRunning, fun _ => (hgoing hstart).rooted⟩
  | false =>
    have hno := hno hstart
    refine ⟨⟨horderly, fun j hj => ?_, fun hi => absurd hi hno.flagged⟩, fun hi =>
      absurd hi hno.flagged⟩
    rw [hno.starts] at hj
    cases hj

/-! ## Propagating and learning -/

/-- Propagation comes to an end, or stops at a falsified clause. -/
theorem propagate_running (h : c.state.Running) :
    c.state.Continues c.propagate.2.state ∧
      (c.propagate.1 = none →
        c.propagate.2.state.Running ∧ c.propagate.2.state.head = c.propagate.2.state.trail.length) ∧
      ∀ lits, c.propagate.1 = some lits → c.propagate.2.state.Stopped ∧
      c.propagate.2.state.Falsified lits := by
  have hs := propagate_spec h.ready
  have horderly := h.orderly.extends hs.grown.toExtends hs.assigned hs.watching
  have hcontinues := Continues.extends hs.grown.toExtends h.orderly.assigned hs.assigned
  refine ⟨hcontinues, fun hnone => ?_, fun lits hsome => ?_⟩
  · obtain ⟨hguarded, hlatest⟩ := hs.none hnone
    refine ⟨⟨horderly, ?_, fun hi => ?_⟩, hs.head⟩
    · rw [hs.head]
      exact hlatest
    · rw [hs.head]
      exact hguarded (hcontinues.intact.mp hi)
  · obtain ⟨hfalsified, place, hlt, hguarded, hlatest⟩ := hs.some lits hsome
    have ha := hs.assigned
    refine ⟨⟨horderly, hs.head, place, ⟨?_, ?_, horderly.unmarked, horderly.used, horderly.units,
      horderly.ok,
      horderly.refuted⟩, hlatest, fun hi => hguarded (hcontinues.intact.mp hi)⟩, hfalsified⟩
    · exact ⟨ha.nodup, ha.value, ha.level, ha.starts, ha.below, Nat.le_of_lt hlt, ha.bound,
        ha.reason, ha.root⟩
    · exact hs.watching.of_same rfl rfl (fun _ => rfl) rfl rfl rfl

theorem propagate_turn (h : c.state.Going) :
    (c.propagate.1 = none → c.propagate.2.state.Going ∧
      c.propagate.2.state.head = c.propagate.2.state.trail.length) ∧
      ∀ lits, c.propagate.1 = some lits → c.propagate.2.state.Halted ∧
      c.propagate.2.state.Falsified lits := by
  obtain ⟨hcontinues, hnone, hsome⟩ := propagate_running h.toRunning
  refine ⟨fun hn => ⟨h.continues hcontinues (hnone hn).1, (hnone hn).2⟩, fun lits hs =>
    ⟨?_, (hsome lits hs).2⟩⟩
  exact ⟨(hsome lits hs).1, hcontinues.rooted h.rooted, hcontinues.intact.mpr h.intact⟩

/-- A learned clause is a unit, or is stored as the reason of its first literal. -/
theorem state_learn (h : c.state.Orderly) (first : Literal) (rest : List Literal) (scope : Nat) :
    rest = [] ∧ (c.learn (first :: rest) scope).state =
        { c.state with db := c.state.db.addUnit first scope }.assign first none ∨
      ∃ cl : Clause, cl.lits = first :: rest ∧ (c.learn (first :: rest) scope).state =
        (c.state.store c.state.db.slot cl).assign cl.first (some c.state.db.slot) := by
  unfold learn
  generalize hc₁ : ({ c with stats := { c.stats with learned := c.stats.learned + 1 } } : Core) = c₁
  have hstate : c₁.state = c.state := by
    rw [← hc₁]
    rfl
  rw [← hstate] at h ⊢
  cases rest with
  | nil =>
    simp only [state_enqueue, state_addUnit]
    exact .inl ⟨trivial, rfl⟩
  | cons second rest =>
    obtain ⟨depth, hok⟩ := h.ok
    have hstore := state_storeClause hok ⟨first, second, rest, scope, true⟩
    simp only [state_enqueue, hstore.1, hstore.2]
    exact .inr ⟨⟨first, second, rest, scope, true⟩, rfl, rfl⟩

/-- A learned clause becomes a reason. -/
theorem learn_running {first : Literal} {rest : List Literal} (h : c.state.Running)
    (hr : c.state.Returned first rest) (scope : Nat) :
    (c.learn (first :: rest) scope).state.Running ∧
    c.state.Continues (c.learn (first :: rest) scope).state := by
  rcases state_learn h.orderly first rest scope with ⟨rfl, hstate⟩ | ⟨cl, hlits, hstate⟩
  · rw [hstate]
    exact h.learn_unit (hr.root rfl) hr.value (hr.live first List.mem_cons_self) scope
  · rw [hstate]
    obtain ⟨rfl, rfl⟩ := List.cons.inj hlits
    exact h.learn_clause hr.nodup hr.live hr.value (fun k hk => (List.mem_cons.mp hk).imp_right
      (hr.false k))
      (hr.second cl.second rfl)

/-- The search goes on with the learned clause. -/
theorem learn_turn {first : Literal} {rest : List Literal} (h : c.state.Going)
    (hr : c.state.Returned first rest)
    (scope : Nat) : (c.learn (first :: rest) scope).state.Going :=
  have hlearn := learn_running h.toRunning hr scope
  h.continues hlearn.2 hlearn.1

/-! ## Deciding -/

theorem state_popOpen (bound : Nat) (c : Core) : (c.popOpen bound).2.state = c.state := by
  induction bound generalizing c with
  | zero => rfl
  | succ bound ih =>
    unfold popOpen
    split
    · rfl
    · simp only
      split
      · rfl
      · exact (ih _).trans rfl

theorem isOpen_popOpen (bound : Nat) (c : Core) :
    ∀ v, (c.popOpen bound).1 = some v → c.isOpen v = true := by
  induction bound generalizing c with
  | zero =>
    intro v hv
    cases hv
  | succ bound ih =>
    unfold popOpen
    split
    · intro v hv
      cases hv
    · simp only
      split
      next hopen =>
        intro v hv
        cases hv
        exact hopen
      next =>
        exact ih _

theorem state_pickBranch (c : Core) : c.pickBranch.2.state = c.state := by
  have h := state_popOpen c.order.size c
  unfold pickBranch
  split
  all_goals
    next heq =>
      rw [heq] at h
      exact h

/-- A variable in use without value is picked if there is one. -/
theorem pickBranch_spec (c : Core) :
    (∀ l, c.pickBranch.1 = some l → c.isOpen l.var = true) ∧
      (c.pickBranch.1 = none → ∀ v, v ≠ 0 → c.isOpen v = false) := by
  have hstate := state_popOpen c.order.size c
  have hopen := isOpen_popOpen c.order.size c
  have hvar (v : Nat) (b : Bool) : (Literal.mk' v b).var = v := by
    unfold Literal.mk' Literal.var
    cases b <;> simp
    omega
  unfold pickBranch
  generalize c.popOpen c.order.size = r at hstate hopen
  obtain ⟨found, c₁⟩ := r
  have hsame (v : Nat) : c₁.isOpen v = c.isOpen v := by
    have hinfo : (c₁.info v).cell = (c.info v).cell := congrArg (fun t => t.cell v) hstate
    have hlive : (c₁.info v).live = (c.info v).live := congrArg Cell.live hinfo
    have hvalue : (c₁.info v).value = (c.info v).value := congrArg Cell.value hinfo
    unfold isOpen varValue
    rw [hlive, hvalue]
  cases found with
  | some v =>
    refine ⟨fun l hl => ?_, nofun⟩
    cases hl
    rw [branchOn, hvar]
    exact hopen v rfl
  | none =>
    simp only [Option.map_eq_some_iff, Option.map_eq_none_iff, List.find?_eq_none]
    constructor
    · rintro l ⟨v, hv, rfl⟩
      have hfound := List.find?_some hv
      rw [Bool.and_eq_true] at hfound
      rw [branchOn, hvar, ← hsame]
      exact hfound.2
    · intro hnone v hv
      by_cases hlt : v < c₁.vars.size
      · have hnot := hnone v (List.mem_range.mpr hlt)
        rw [← hsame]
        simpa [hv] using hnot
      · rw [← hsame]
        unfold isOpen info
        simp [hlt]

/-- The choice of a branch takes candidates away, and nothing else. -/
theorem pickBranch_eq (c : Core) : ∃ order, c.pickBranch.2 = { c with order } := by
  have hpop (bound : Nat) (c : Core) : ∃ order, (c.popOpen bound).2 = { c with order } := by
    induction bound generalizing c with
    | zero => exact ⟨_, rfl⟩
    | succ bound ih =>
      unfold popOpen
      split
      · exact ⟨_, rfl⟩
      · dsimp only
        split
        · exact ⟨_, rfl⟩
        · obtain ⟨order, h⟩ := ih { c with order := _ }
          exact ⟨order, h⟩
  obtain ⟨order, h⟩ := hpop c.order.size c
  refine ⟨order, ?_⟩
  unfold pickBranch
  rw [← h]
  cases hpopped : c.popOpen c.order.size with
  | mk v c' => cases v <;> rfl

/-- When no variable is open, there is nothing to decide. -/
theorem pickBranch_eq_none
    (h : (List.range c.vars.size).all (fun v => !c.isOpen v) = true) : c.pickBranch.1 = none := by
  cases hpick : c.pickBranch.1 with
  | none => rfl
  | some l =>
    have hopen := (pickBranch_spec c).1 l hpick
    by_cases hv : l.var < c.vars.size
    · have hclosed := List.all_eq_true.mp h l.var (List.mem_range.mpr hv)
      rw [hopen] at hclosed
      cases hclosed
    · unfold isOpen info at hopen
      rw [Array.getD_eq_getD_getElem?, Array.getElem?_eq_none (Nat.le_of_not_lt hv)] at hopen
      cases hopen

/-- What is picked has no value. -/
theorem open_of_pickBranch (hpick : c.pickBranch.1 = some l) :
    c.state.value l = none ∧ (c.state.cell l.var).live = true := by
  have hopen := (pickBranch_spec c).1 l hpick
  unfold isOpen at hopen
  rw [Bool.and_eq_true] at hopen
  refine ⟨?_, hopen.1⟩
  show (c.varValue l.var).map _ = none
  rw [Option.isNone_iff_eq_none.mp hopen.2]
  rfl

end Core
end Entail
