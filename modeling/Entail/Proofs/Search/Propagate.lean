import Entail.Proofs.Search.Watches
import Mathlib.Data.List.TakeWhile

/-!
# Propagation

The visit of a clause keeps the notes and the trail in order and makes the watched literals of the
clause guard each other up to the literal that is propagated. When nothing more is forced, all
watched literals guard each other. When a clause is falsified, its literals are false, and at least
one of them was falsified at the present level.
-/

namespace Entail

namespace Search

namespace Clause

variable {cl cl' : Clause} {l : Literal} {good : Literal → Bool}

/-! ## Watching another literal -/

theorem second_watchedSecond (h : cl.first = l ∨ cl.second = l) :
    (cl.watchedSecond l).second = l := by
  unfold watchedSecond
  split
  next hfirst => exact hfirst
  next hfirst => exact h.resolve_left hfirst

theorem watched_of_watchedSecond (h : cl.first = l ∨ cl.second = l) :
    (cl.first, cl.second) = ((cl.watchedSecond l).first, l) ∨
    (cl.first, cl.second) = (l, (cl.watchedSecond l).first) := by
  unfold watchedSecond
  split
  next hfirst => exact .inr (by rw [hfirst])
  next hfirst => exact .inl (by rw [h.resolve_left hfirst])

theorem rewatch_some (h : cl.rewatch? good = some cl') :
    cl'.first = cl.first ∧ good cl'.second = true := by
  unfold rewatch? at h
  split at h
  · cases h
  next l after hdrop =>
    cases h
    have hhead := List.head?_dropWhile_not (fun l => !good l) cl.rest
    rw [hdrop] at hhead
    exact ⟨rfl, by simpa using hhead⟩

theorem rewatch_none (h : cl.rewatch? good = none) : ∀ k ∈ cl.rest, good k = false := by
  unfold rewatch? at h
  split at h
  next hdrop =>
    intro k hk
    have hall := List.dropWhile_eq_nil_iff.mp hdrop k hk
    simpa using hall
  · cases h

end Clause

namespace State

variable {s t : State} {l o : Literal} {n : Nat} {cl : Content}

/-- What the visit of the clause `n` comes to, which watches the false literal `l` and `o`. -/
inductive Visited (s : State) (l o : Literal) (n : Nat) (cl : Content) : Core.Visit → Prop
  | satisfied {c} (hstate : c.state = s.setWatched n o l) (htrue : s.value o = some true) :
    Visited s l o n cl (.satisfied c)
  | moved {c k} (hstate : c.state = (s.setWatched n o k).watch k n)
    (hpair : ({o, k} : Multiset Literal) ≤ cl.1)
    (hvalue : s.value k ≠ some false) : Visited s l o n cl (.moved c)
  | forced {c} (hstate : c.state = (s.setWatched n o l).assign o (some n))
    (hvalue : s.value o = none)
    (hfalse : ∀ k ∈ cl.1, k = o ∨ k = l ∨ s.value k = some false) : Visited s l o n cl (.forced c)
  | falsified {c} {lits : List Literal} (hstate : c.state = s.setWatched n o l)
    (hlits : (lits : Multiset Literal) = cl.1) (hvalue : s.value o = some false)
    (hfalse : ∀ k ∈ cl.1, k = o ∨ k = l ∨ s.value k = some false) :
    Visited s l o n cl (.falsified c lits)

theorem setWatched_setWatched (s : State) (n : Nat) (x y z w : Literal) :
    (s.setWatched n x y).setWatched n z w = s.setWatched n z w := by
  refine State.ext rfl rfl rfl (funext fun m => ?_) rfl rfl rfl rfl rfl rfl
  show (if m = n then some (z, w) else if m = n then some (x, y) else s.watched m) =
    if m = n then some (z, w) else s.watched m
  by_cases hm : m = n
  · rw [if_pos hm, if_pos hm]
  · rw [if_neg hm, if_neg hm, if_neg hm]

end State

end Search

namespace Core

open Search Search.State

variable {c : Core} {l : Literal} {n : Nat}

/-- A visit in terms of the state. -/
theorem visit_spec {x y : Literal} (hn : c.state.watched n = some (x, y)) (hl : l = x ∨ l = y) :
    ∃ o cl, (c.state.watched n = some (o, l) ∨ c.state.watched n = some (l, o)) ∧
    c.state.db.clause? n = some cl ∧
      c.state.Visited l o n cl (c.visit l n) := by
  obtain ⟨cl, hcl, hxy⟩ := Option.map_eq_some_iff.mp hn
  cases hxy
  have hl' : cl.first = l ∨ cl.second = l := hl.imp Eq.symm Eq.symm
  have hsecond := Clause.second_watchedSecond hl'
  have hcontent := content_watchedSecond cl l
  have hdb : c.state.db.clause? n = some cl.content := by
    show c.db.clause? n = _
    rw [clause?_db, hcl]
    rfl
  refine ⟨(cl.watchedSecond l).first, cl.content, ?_, hdb, ?_⟩
  · rw [hn]
    exact (Clause.watched_of_watchedSecond hl').imp (congrArg some) (congrArg some)
  have hlt : n < c.clauses.size := by
    apply Nat.lt_of_not_le
    intro hle
    simp [Array.getElem?_eq_none hle] at hcl
  have hstate := state_setClause hcl hcontent
  have hstored : ((c.clauses.setIfInBounds n (some (cl.watchedSecond l)))[n]?).join = some
      (cl.watchedSecond l) := by
    simp [hlt]
  rw [hsecond] at hstate
  unfold visit
  rw [hcl]
  simp only
  generalize cl.watchedSecond l = cl' at *
  generalize hc₁ : ({ c with clauses := c.clauses.setIfInBounds n (some cl') } : Core) = c₁ at *
  have hget : (c₁.clauses[n]?).join = some cl' := by
    rw [← hc₁]
    exact hstored
  have hvalue (k : Literal) : c₁.value k = c.state.value k := by
    rw [← hc₁]
    rfl
  have hisFalse (k : Literal) : c₁.isFalse k = true ↔ c.state.value k = some false := by
    unfold isFalse
    rw [hvalue]
    exact beq_iff_eq
  have hmem {k : Literal} (hk : k ∈ cl.content.1) : k = cl'.first ∨ k = l ∨ k ∈ cl'.rest := by
    rw [← hcontent] at hk
    have hk' : k ∈ cl'.first :: cl'.second :: cl'.rest := Multiset.mem_coe.mp hk
    rw [hsecond] at hk'
    simpa using hk'
  -- the outcomes in the order in which the visit looks for them
  by_cases htrue : c₁.value cl'.first = some true
  · rw [if_pos htrue]
    exact .satisfied hstate (by rwa [hvalue] at htrue)
  · rw [if_neg htrue]
    cases hre : cl'.rewatch? fun k => !c₁.isFalse k with
    | some cl'' =>
      obtain ⟨hfirst, hgood⟩ := Clause.rewatch_some hre
      have hcontent' := content_rewatch hre
      simp only
      refine .moved (k := cl''.second) ?_ ?_ ?_
      · have hset := state_setClause hget hcontent'
        rw [hstate, setWatched_setWatched, hfirst, ← hc₁] at hset
        rw [state_watch]
        exact congrArg (·.watch cl''.second n) hset
      · rw [← hcontent, ← hcontent', ← hfirst]
        show (↑[cl''.first, cl''.second] : Multiset Literal) ≤ ↑cl''.lits
        exact Multiset.coe_le.mpr (List.sublist_append_left
          [cl''.first, cl''.second] cl''.rest).subperm
      · intro hfalse
        rw [(hisFalse _).mpr hfalse] at hgood
        cases hgood
    | none =>
      have hrest := Clause.rewatch_none hre
      have hfalse : ∀ k ∈ cl.content.1, k = cl'.first ∨ k = l ∨ c.state.value k = some false := by
        intro k hk
        refine (hmem hk).imp_right (Or.imp_right fun hk => ?_)
        rw [← hisFalse]
        simpa using hrest k hk
      simp only
      by_cases hfirst : c₁.isFalse cl'.first = true
      · rw [if_pos hfirst]
        refine .falsified hstate ?_ ((hisFalse _).mp hfirst) hfalse
        exact congrArg Prod.fst hcontent
      · rw [if_neg hfirst]
        refine .forced (by rw [state_enqueue, hstate]) ?_ hfalse
        rw [hisFalse] at hfirst
        rw [hvalue] at htrue
        revert hfirst htrue
        rcases c.state.value cl'.first with _ | _ | _ <;> simp

end Core

namespace Search.State

variable {intact : Prop} {s t u : State} {l o k x y : Literal} {n h : Nat} {cl : Content}

/-! ## What propagation does not change -/

/-- The trail has grown at the present level, and nothing else has changed but which literals
are watched. -/
structure Extends (s t : State) : Prop where
  trail : s.trail <+: t.trail
  starts : t.starts = s.starts
  size : t.size = s.size
  room : t.room = s.room
  db : t.db = s.db
  conflict : t.conflict = s.conflict
  seen : ∀ v, (t.cell v).seen = (s.cell v).seen
  live : ∀ v, (t.cell v).live = (s.cell v).live

namespace Extends

theorem refl (s : State) : s.Extends s :=
  ⟨List.prefix_rfl, rfl, rfl, rfl, rfl, rfl, fun _ => rfl, fun _ => rfl⟩

theorem trans (h : s.Extends t) (h' : t.Extends u) : s.Extends u where
  trail := h.trail.trans h'.trail
  starts := h'.starts.trans h.starts
  size := h'.size.trans h.size
  room := h'.room.trans h.room
  db := h'.db.trans h.db
  conflict := h'.conflict.trans h.conflict
  seen v := (h'.seen v).trans (h.seen v)
  live v := (h'.live v).trans (h.live v)

theorem assign (s : State) (l : Literal) (r : Option Nat) : s.Extends (s.assign l r) := by
  refine ⟨List.prefix_append _ _, rfl, rfl, rfl, rfl, rfl, fun v => ?_, fun v => ?_⟩
  · unfold State.assign set
    simp only
    split <;> rfl
  · unfold State.assign set
    simp only
    split <;> rfl

theorem setWatched (s : State) (n : Nat) (x y : Literal) : s.Extends (s.setWatched n x y) :=
  ⟨List.prefix_rfl, rfl, rfl, rfl, rfl, rfl, fun _ => rfl, fun _ => rfl⟩

theorem watch (s : State) (l : Literal) (n : Nat) : s.Extends (s.watch l n) :=
  ⟨List.prefix_rfl, rfl, rfl, rfl, rfl, rfl, fun _ => rfl, fun _ => rfl⟩

theorem setWatchers (s : State) (l : Literal) (ns : List Nat) : s.Extends (s.setWatchers l ns) :=
  ⟨List.prefix_rfl, rfl, rfl, rfl, rfl, rfl, fun _ => rfl, fun _ => rfl⟩

/-- What is on the trail keeps its level. -/
theorem level_eq (h : s.Extends t) (hs : s.Assigned) (ht : t.Assigned) (hl : l ∈ s.trail) :
    t.level l = s.level l := by
  obtain ⟨i, hi, hlevel⟩ := hs.level_of_mem hl
  have hi' : t.trail[i]? = some l := by
    obtain ⟨more, hmore⟩ := h.trail
    rw [← hmore, List.getElem?_append_left (List.getElem?_eq_some_iff.mp hi).1, hi]
  rw [ht.level hi', hlevel, h.starts]

end Extends

/-- The trail has grown at the present level by literals that clauses have forced. -/
structure Derives (s t : State) : Prop extends s.Extends t where
  kept : ∀ l ∈ s.trail, (t.cell l.var).reason = (s.cell l.var).reason
  forced : ∀ l ∈ t.trail, l ∈ s.trail ∨ ∃ n, (t.cell l.var).reason = some n

namespace Derives

/-- Nothing is forced when the trail and the reasons stay. -/
theorem of_same (h : s.Extends t) (htrail : t.trail = s.trail) (hcell : t.cell = s.cell) :
    s.Derives t :=
  ⟨h, fun _ _ => by rw [hcell], fun _ hl => .inl (htrail ▸ hl)⟩

theorem refl (s : State) : s.Derives s := of_same (.refl s) rfl rfl

theorem trans (h : s.Derives t) (h' : t.Derives u) : s.Derives u where
  toExtends := h.toExtends.trans h'.toExtends
  kept l hl := (h'.kept l (h.trail.subset hl)).trans (h.kept l hl)
  forced l hl := by
    rcases h'.forced l hl with hl | hreason
    · refine (h.forced l hl).imp_right fun ⟨n, hn⟩ => ⟨n, ?_⟩
      rw [h'.kept l hl, hn]
    · exact .inr hreason

/-- A clause has forced a literal without value. -/
theorem assign (hs : s.Assigned) (hvalue : s.value l = none) (hvar : l.var < s.size) (n : Nat) :
    s.Derives (s.assign l (some n)) := by
  obtain ⟨hpos, hneg⟩ := hs.value_none.mp hvalue
  have hcell := Assigned.cell_assign s l (some n) hvar
  refine ⟨.assign s l (some n), fun k hk => ?_, fun k hk => ?_⟩
  · rw [hcell, if_neg]
    intro hvar
    rcases Literal.eq_or_eq_neg hvar with rfl | rfl
    · exact hpos hk
    · exact hneg hk
  · rcases List.mem_append.mp hk with hk | hk
    · exact .inl hk
    · rw [List.mem_singleton.mp hk, hcell, if_pos rfl]
      exact .inr ⟨n, rfl⟩

theorem setWatched (s : State) (n : Nat) (x y : Literal) : s.Derives (s.setWatched n x y) :=
  of_same (.setWatched s n x y) rfl rfl

theorem watch (s : State) (l : Literal) (n : Nat) : s.Derives (s.watch l n) :=
  of_same (.watch s l n) rfl rfl

theorem setWatchers (s : State) (l : Literal) (ns : List Nat) : s.Derives (s.setWatchers l ns) :=
  of_same (.setWatchers s l ns) rfl rfl

end Derives

/-! ## One literal -/

/-- Where the propagation of `l.neg` at place `h` of the trail stands: `kept` goes on watching `l`,
and `ns` is still to be visited. Watched literals guard each other if the clauses were intact
before, none of them false at level 0. -/
structure Visiting (intact : Prop) (s : State) (l : Literal) (h : Nat) (kept ns : List Nat) :
    Prop where
  assigned : s.Assigned
  watching : (s.setWatchers l (kept ++ ns)).Watching
  place : s.trail[h]? = some l.neg
  latest : ∀ j ∈ s.starts, j ≤ h
  guards : intact → ∀ {n x y}, s.watched n = some (x, y) → s.Guards h x y ∧ s.Guards h y x
  visited : intact → ∀ {n x y}, n ∉ ns → s.watched n = some (x, y) → s.Guards (h + 1) x y ∧
    s.Guards (h + 1) y x

/-- What comes last on the trail is at the present level. -/
theorem Assigned.level_latest (hs : s.Assigned) (hplace : s.trail[h]? = some l.neg)
    (hlatest : ∀ j ∈ s.starts, j ≤ h) :
    s.level l = s.starts.length := by
  have hlevel := hs.level hplace
  rw [level_neg] at hlevel
  rw [hlevel, List.countP_eq_length]
  intro j hj
  simpa using hlatest j hj

theorem Assigned.setWatched (hs : s.Assigned) (n : Nat) (x y : Literal) :
    (s.setWatched n x y).Assigned :=
  ⟨hs.nodup, hs.value, hs.level, hs.starts, hs.below, hs.head, hs.bound, hs.reason, hs.root⟩

theorem Assigned.watch (hs : s.Assigned) (l : Literal) (n : Nat) : (s.watch l n).Assigned :=
  ⟨hs.nodup, hs.value, hs.level, hs.starts, hs.below, hs.head, hs.bound, hs.reason, hs.root⟩

theorem Assigned.setWatchers (hs : s.Assigned) (l : Literal) (ns : List Nat) :
    (s.setWatchers l ns).Assigned :=
  ⟨hs.nodup, hs.value, hs.level, hs.starts, hs.below, hs.head, hs.bound, hs.reason, hs.root⟩

namespace Visiting

variable {kept ns : List Nat}

theorem neg_mem (hv : s.Visiting intact l h kept ns) : l.neg ∈ s.trail :=
  List.mem_of_getElem? hv.place

theorem lt_length (hv : s.Visiting intact l h kept ns) : h < s.trail.length :=
  (List.getElem?_eq_some_iff.mp hv.place).1

/-- The watched literals of the clause to be visited guard each other up to `h`. -/
theorem guards_both (hv : s.Visiting intact l h kept ns) (hi : intact)
    (hn : s.watched n = some (o, l) ∨ s.watched n = some (l, o)) :
    s.Guards h o l ∧ s.Guards h l o := by
  rcases hn with hn | hn
  · exact hv.guards hi hn
  · exact (hv.guards hi hn).symm

/-- The clause to be visited and its watched literals. -/
theorem clause (hv : s.Visiting intact l h kept ns)
    (hn : s.watched n = some (o, l) ∨ s.watched n = some (l, o))
    (hcl : s.db.clause? n = some cl) : o ∈ cl.1 ∧ l ∈ cl.1 ∧ o ≠ l := by
  rcases hn with hn | hn
  · obtain ⟨cl', hcl', ho, hl, hne⟩ := hv.watching.clause hn
    cases hcl.symm.trans hcl'
    exact ⟨ho, hl, hne⟩
  · obtain ⟨cl', hcl', hl, ho, hne⟩ := hv.watching.clause hn
    cases hcl.symm.trans hcl'
    exact ⟨ho, hl, hne.symm⟩

/-- Literals of clauses are in use. -/
theorem var_lt (hv : s.Visiting intact l h kept ns) (hcl : s.db.clause? n = some cl)
    (hk : k ∈ cl.1) : k.var < s.size :=
  hv.watching.inUse (hv.watching.live hcl k hk)

/-- The literals of the clause are false but for the one it forces. -/
theorem neg_mem_of_false (hv : s.Visiting intact l h kept ns)
    (hfalse : ∀ k ∈ cl.1, k = o ∨ k = l ∨ s.value k = some false) :
    ∀ k ∈ cl.1, k = o ∨ k.neg ∈ s.trail := by
  intro k hk
  rcases hfalse k hk with ho | rfl | hvalue
  · exact .inl ho
  · exact .inr hv.neg_mem
  · exact .inr (hv.assigned.value_false.mp hvalue)

/-- The clause to be visited watches `l`. -/
theorem watched (hv : s.Visiting intact l h kept (n :: ns)) :
    ∃ x y, s.watched n = some (x, y) ∧ (l = x ∨ l = y) := by
  have hl : l.var < s.size := by
    have hbound := hv.assigned.bound hv.neg_mem
    rwa [Literal.var_neg] at hbound
  have hroom : l.code < s.room := hv.watching.code_lt hl
  have hnotes : (s.setWatchers l (kept ++ n :: ns)).watchers l.code = kept ++ n :: ns :=
    if_pos ⟨rfl, hroom⟩
  apply hv.watching.mem.mp
  rw [hnotes]
  exact List.mem_append_right _ List.mem_cons_self

theorem swap_watching (hv : s.Visiting intact l h kept (n :: ns))
    (hn : s.watched n = some (o, l) ∨ s.watched n = some (l, o)) :
    ((s.setWatched n o l).setWatchers l (kept ++ n :: ns)).Watching := hv.watching.swap hn

/-- After the visit of one clause, the others are as they were. -/
theorem of_visit (hv : s.Visiting intact l h kept (n :: ns)) {x y : Literal} {kept' : List Nat}
    (ht : t.Assigned)
    (hwatching : (t.setWatchers l (kept' ++ ns)).Watching) (htrail : s.trail <+: t.trail)
    (hstarts : t.starts = s.starts) (hlevel : ∀ k ∈ s.trail, t.level k = s.level k)
    (hwatched : ∀ m, t.watched m = if m = n then some (x, y) else s.watched m)
    (hguards : intact → t.Guards (h + 1) x y ∧ t.Guards (h + 1) y x) :
    t.Visiting intact l h kept' ns := by
  have hlt := hv.lt_length
  have hold {x y : Literal} {bound : Nat} (hbound : bound ≤ h + 1) (hg : s.Guards bound x y ∧
    s.Guards bound y x) :
      t.Guards bound x y ∧ t.Guards bound y x :=
    ⟨hg.1.extend htrail hlevel (by omega), hg.2.extend htrail hlevel (by omega)⟩
  refine ⟨ht, hwatching, ?_, ?_, ?_, ?_⟩
  · obtain ⟨more, hmore⟩ := htrail
    rw [← hmore, List.getElem?_append_left hlt, hv.place]
  · rw [hstarts]
    exact hv.latest
  · intro hi m x' y' hm
    rw [hwatched] at hm
    split at hm
    next =>
      cases hm
      exact ⟨(hguards hi).1.mono (Nat.le_succ h), (hguards hi).2.mono (Nat.le_succ h)⟩
    next => exact hold (Nat.le_succ h) (hv.guards hi hm)
  · intro hi m x' y' hm hmw
    rw [hwatched] at hmw
    split at hmw
    next =>
      cases hmw
      exact hguards hi
    next hne => exact hold (Nat.le_refl _) (hv.visited hi (fun hmem =>
      (List.mem_cons.mp hmem).elim hne hm) hmw)

theorem satisfied (hv : s.Visiting intact l h kept (n :: ns))
    (hn : s.watched n = some (o, l) ∨ s.watched n = some (l, o)) (htrue : s.value o = some true) :
    (s.setWatched n o l).Visiting intact l h (kept ++ [n]) ns := by
  have ho : o ∈ s.trail := hv.assigned.value_true.mp htrue
  have hlevel : s.level o ≤ s.level l := by
    rw [hv.assigned.level_latest hv.place hv.latest]
    exact hv.assigned.level_le ho
  have hwatching : ((s.setWatched n o l).setWatchers l (kept ++ [n] ++ ns)).Watching := by
    rw [List.append_assoc]
    exact hv.swap_watching hn
  apply hv.of_visit (hv.assigned.setWatched n o l) hwatching List.prefix_rfl rfl (fun _ _ => rfl)
    (fun _ => rfl)
  exact fun _ => ⟨guards_of_not_mem (hv.assigned.not_both ho), guards_of_mem ho hlevel⟩

theorem moved (hv : s.Visiting intact l h kept (n :: ns))
    (hn : s.watched n = some (o, l) ∨ s.watched n = some (l, o))
    (hcl : s.db.clause? n = some cl) (hpair : ({o, k} : Multiset Literal) ≤ cl.1)
    (hvalue : s.value k ≠ some false) :
    ((s.setWatched n o k).watch k n).Visiting intact l h kept ns := by
  have hkneg : k.neg ∉ s.trail := fun hmem => hvalue (hv.assigned.value_false.mpr hmem)
  have hkl : k ≠ l := by
    intro he
    rw [he] at hkneg
    exact hkneg hv.neg_mem
  have hko : k ≠ o := by
    intro he
    have hnodup := Multiset.nodup_of_le hpair (hv.watching.nodup hcl)
    rw [he] at hnodup
    simp at hnodup
  have hk : k.var < s.size := hv.var_lt hcl (Multiset.mem_of_le hpair (by simp))
  have hl : l.var < s.size := hv.var_lt hcl (hv.clause hn hcl).2.1
  have hwatching : (((s.setWatched n o k).watch k n).setWatchers l (kept ++ ns)).Watching := by
    apply hv.watching.move hn _ hk hkl hko hl
    intro cl' hcl'
    cases hcl.symm.trans hcl'
    exact hpair
  -- `l` is false, so `o` was not falsified before `l`
  have hok (hintact : intact) : s.Guards (h + 1) o k := by
    intro i hi ho
    by_cases hih : i = h
    · rw [hih, hv.place] at ho
      have hlo : l = o := Literal.neg_inj.mp (Option.some.inj ho)
      exact absurd hlo.symm (hv.clause hn hcl).2.2
    · have hl := ((hv.guards_both hintact hn).1 i (by omega) ho).1
      exact absurd hv.neg_mem (hv.assigned.not_both hl)
  apply hv.of_visit ((hv.assigned.setWatched n o k).watch k n) hwatching List.prefix_rfl rfl
    (fun _ _ => rfl) (fun _ => rfl)
  exact fun hi => ⟨hok hi, guards_of_not_mem hkneg⟩

theorem forced (hv : s.Visiting intact l h kept (n :: ns))
    (hn : s.watched n = some (o, l) ∨ s.watched n = some (l, o))
    (hcl : s.db.clause? n = some cl) (hvalue : s.value o = none)
    (hfalse : ∀ k ∈ cl.1, k = o ∨ k = l ∨ s.value k = some false) :
    ((s.setWatched n o l).assign o (some n)).Visiting intact l h (kept ++ [n]) ns := by
  obtain ⟨ho, -, -⟩ := hv.clause hn hcl
  have hvar : o.var < s.size := hv.var_lt hcl ho
  obtain ⟨hnot, hnotneg⟩ := hv.assigned.value_none.mp hvalue
  have hforces : (s.setWatched n o l).Forces n o s.trail :=
    ⟨cl, hcl, ho, hv.neg_mem_of_false hfalse⟩
  have ht : ((s.setWatched n o l).assign o (some n)).Assigned := by
    apply (hv.assigned.setWatched n o l).assign hvalue hvar
    · intro m hm
      cases hm
      exact hforces
    · intro hr
      cases hr
  have hlevel : ∀ k ∈ s.trail, ((s.setWatched n o l).assign o (some n)).level k = s.level k :=
    (hv.assigned.setWatched n o l).level_push hvalue (some n) hvar s.starts
  have hextends := Extends.assign (s.setWatched n o l) o (some n)
  have hwatching : (((s.setWatched n o l).assign o (some n)).setWatchers l
      (kept ++ [n] ++ ns)).Watching := by
    rw [List.append_assoc]
    exact (hv.swap_watching hn).of_same rfl rfl hextends.live rfl rfl rfl
  apply hv.of_visit ht hwatching hextends.trail rfl hlevel (fun _ => rfl)
  have htrail : ((s.setWatched n o l).assign o (some n)).trail = s.trail ++ [o] := rfl
  refine fun _ => ⟨?_, ?_⟩
  · apply guards_of_not_mem
    rw [htrail, List.mem_append, List.mem_singleton]
    rintro (hmem | he)
    · exact hnotneg hmem
    · exact o.neg_ne he
  · have hmem : o ∈ ((s.setWatched n o l).assign o (some n)).trail := by
      rw [htrail]
      exact List.mem_append_right _ List.mem_cons_self
    apply guards_of_mem hmem
    rw [← level_neg _ l, hlevel _ hv.neg_mem, level_neg,
      hv.assigned.level_latest hv.place hv.latest]
    exact ht.level_le hmem

/-- All literals of the clause to be visited are false. -/
theorem falsified (hv : s.Visiting intact l h kept (n :: ns)) (hi : intact)
    (hn : s.watched n = some (o, l) ∨ s.watched n = some (l, o)) :
    ((s.setWatched n o l).setWatchers l (kept ++ n :: ns)).Guarded h := by
  intro m x y hm
  change (if m = n then some (o, l) else s.watched m) = some (x, y) at hm
  split at hm
  next =>
    cases hm
    exact hv.guards_both hi hn
  next => exact hv.guards hi hm

end Visiting

/-- The literals of a clause are all false, one of them since the present level. -/
def Falsified (s : State) (lits : List Literal) : Prop :=
  ∃ n cl, s.db.clause? n = some cl ∧ (lits : Multiset Literal) = cl.1 ∧
    (∀ k ∈ lits, k.neg ∈ s.trail) ∧
    ∃ k ∈ lits, s.level k = s.starts.length

/-- What the propagation of the literal at place `h` comes to. -/
structure Propagated (intact : Prop) (s t : State) (h : Nat) (conflict : Option (List Literal)) :
    Prop where
  grown : s.Derives t
  head : t.head = s.head
  assigned : t.Assigned
  watching : t.Watching
  latest : ∀ j ∈ t.starts, j ≤ h
  lt_length : h < t.trail.length
  none : intact → conflict = none → t.Guarded (h + 1)
  some : ∀ lits, conflict = some lits → (intact → t.Guarded h) ∧ t.Falsified lits

theorem Propagated.of_derives {conflict : Option (List Literal)}
    (hp : t.Propagated intact u h conflict)
    (hst : s.Derives t) (hhead : t.head = s.head) : s.Propagated intact u h conflict :=
  { hp with
    grown := hst.trans hp.grown
    head := hp.head.trans hhead }

end Search.State

namespace Core

open Search Search.State

variable {intact : Prop} {l : Literal} {h : Nat}

/-- Visits keep the state in order. -/
theorem visitAll_spec (ns : List Nat) (kept : Array Nat) (c : Core)
    (hv : c.state.Visiting intact l h kept.toList ns) :
    c.state.Propagated intact ((visitAll l ns kept c).2.2.state.setWatchers l
      (visitAll l ns kept c).1.toList) h
      (visitAll l ns kept c).2.1 := by
  -- by induction on the watchers that are left; with those kept so far they make up the list that
  -- `Visiting` is about
  induction ns generalizing kept c with
  | nil =>
    have hwatching := hv.watching
    rw [List.append_nil] at hwatching
    refine ⟨Derives.setWatchers c.state l kept.toList, rfl, hv.assigned.setWatchers l kept.toList,
      hwatching, hv.latest,
      hv.lt_length, ?_, ?_⟩
    · intro hi _ n x y hn
      exact hv.visited hi List.not_mem_nil hn
    · intro lits hlits
      cases hlits
  | cons n ns ih =>
    obtain ⟨x, y, hxy, hl⟩ := hv.watched
    obtain ⟨o, cl, hn, hcl, hvisit⟩ := visit_spec hxy hl
    unfold visitAll
    generalize c.visit l n = v at hvisit
    have hpush : (kept.push n).toList = kept.toList ++ [n] := Array.toList_push
    cases hvisit with
    | @satisfied c₁ hstate htrue =>
      have hnext : c₁.state.Visiting intact l h (kept.push n).toList ns := by
        rw [hstate, hpush]
        exact hv.satisfied hn htrue
      apply (ih (kept.push n) c₁ hnext).of_derives _ (by rw [hstate]; rfl)
      rw [hstate]
      exact Derives.setWatched c.state n o l
    | @moved c₁ k hstate hpair hvalue =>
      have hnext : c₁.state.Visiting intact l h kept.toList ns := by
        rw [hstate]
        exact hv.moved hn hcl hpair hvalue
      apply (ih kept c₁ hnext).of_derives _ (by rw [hstate]; rfl)
      rw [hstate]
      exact (Derives.setWatched c.state n o k).trans (Derives.watch _ k n)
    | @forced c₁ hstate hvalue hfalse =>
      have hnext : c₁.state.Visiting intact l h (kept.push n).toList ns := by
        rw [hstate, hpush]
        exact hv.forced hn hcl hvalue hfalse
      apply (ih (kept.push n) c₁ hnext).of_derives _ (by rw [hstate]; rfl)
      rw [hstate]
      have hvar : o.var < c.state.size := hv.var_lt hcl (hv.clause hn hcl).1
      exact (Derives.setWatched c.state n o l).trans
        (.assign (hv.assigned.setWatched n o l) hvalue hvar n)
    | @falsified c₁ lits hstate hlits hvalue hfalse =>
      have hkept : (kept.push n ++ ns.toArray).toList = kept.toList ++ n :: ns := by
        rw [Array.toList_append, hpush, List.append_assoc]
        rfl
      have hmem (k : Literal) : k ∈ lits ↔ k ∈ cl.1 := by rw [← hlits]; exact Multiset.mem_coe.symm
      simp only
      rw [hkept, hstate]
      refine ⟨(Derives.setWatched c.state n o l).trans (Derives.setWatchers _ l _), rfl,
        (hv.assigned.setWatched n o l).setWatchers l _, hv.swap_watching hn, hv.latest,
          hv.lt_length, ?_, ?_⟩
      · intro _ hnone
        cases hnone
      · intro lits' hsome
        cases hsome
        refine ⟨fun hi => hv.falsified hi hn, n, cl, hcl, hlits, ?_, l,
          (hmem l).mpr (hv.clause hn hcl).2.1, ?_⟩
        · intro k hk
          rcases hv.neg_mem_of_false hfalse k ((hmem k).mp hk) with rfl | hneg
          · exact hv.assigned.value_false.mp hvalue
          · exact hneg
        · exact hv.assigned.level_latest hv.place hv.latest

/-- The propagation of one literal. -/
theorem propagateLit_spec {c : Core} {p : Literal} (ha : c.state.Assigned) (hw : c.state.Watching)
    (hg : intact → c.state.Guarded h) (hlatest : ∀ j ∈ c.state.starts, j ≤ h)
    (hplace : c.state.trail[h]? = some p) :
    c.state.Propagated intact (c.propagateLit p).2.state h (c.propagateLit p).1 := by
  have hvar : p.neg.var < c.state.size := by
    rw [Literal.var_neg]
    exact ha.bound (List.mem_of_getElem? hplace)
  have hroom : p.neg.code < c.state.room := hw.code_lt hvar
  have hempty := state_setWatches c p.neg #[]
  -- every clause that watches the literal is still to be visited
  have hnotes : (c.state.setWatchers p.neg []).setWatchers p.neg (c.state.watchers p.neg.code) =
      c.state := by
    refine State.ext rfl rfl rfl rfl (funext fun code => ?_) rfl rfl rfl rfl rfl
    show (if code = p.neg.code ∧ _ then _ else if code = p.neg.code ∧ _ then []
      else c.state.watchers code) = _
    by_cases hcode : code = p.neg.code
    · rw [hcode, if_pos ⟨rfl, hroom⟩]
    · rw [if_neg fun hc => hcode hc.1, if_neg fun hc => hcode hc.1]
  have hv : ({ c with watches := c.watches.setIfInBounds p.neg.code #[] } : Core).state.Visiting
    intact p.neg h
      (#[] : Array Nat).toList (c.watches.getD p.neg.code #[]).toList := by
    rw [hempty]
    refine ⟨ha.setWatchers p.neg [], ?_, ?_, hlatest, fun hi {n x y} hn => hg hi n x y hn, ?_⟩
    · rw [List.nil_append]
      show ((c.state.setWatchers p.neg []).setWatchers p.neg (c.state.watchers p.neg.code)).Watching
      rw [hnotes]
      exact hw
    · rw [Literal.neg_neg]
      exact hplace
    · -- other clauses do not watch the literal
      intro hi n x y hn hxy
      have hnot : ¬ (p.neg = x ∨ p.neg = y) := fun hp => hn (hw.mem.mpr ⟨x, y, hxy, hp⟩)
      have hguards := hg hi n x y hxy
      have hlast {x y : Literal} (hx : p.neg ≠ x) (hgx : c.state.Guards h x y) :
          c.state.Guards (h + 1) x y := by
        intro i hi hxi
        by_cases hih : i = h
        · rw [hih, hplace] at hxi
          have hpx : p = x.neg := Option.some.inj hxi
          rw [hpx, Literal.neg_neg] at hx
          exact absurd rfl hx
        · exact hgx i (by omega) hxi
      exact ⟨hlast (fun hx => hnot (.inl hx)) hguards.1, hlast (fun hy => hnot (.inr hy)) hguards.2⟩
  have hall := visitAll_spec _ #[] _ hv
  rw [hempty] at hall
  unfold propagateLit
  simp only [state_setWatches]
  exact hall.of_derives (Derives.setWatchers c.state p.neg []) rfl

end Core

namespace Search.State

/-- Everything before the head was propagated, if the clauses were intact, and the present level
starts before it. -/
structure Ready (intact : Prop) (s : State) : Prop where
  assigned : s.Assigned
  watching : s.Watching
  guarded : intact → s.Guarded s.head
  latest : ∀ j ∈ s.starts, j ≤ s.head

/-- What a propagation comes to. -/
structure Settled (intact : Prop) (s t : State) (conflict : Option (List Literal)) : Prop where
  grown : s.Derives t
  assigned : t.Assigned
  watching : t.Watching
  head : t.head = t.trail.length
  none : conflict = none → (intact → t.Guarded t.trail.length) ∧ ∀ j ∈ t.starts, j ≤ t.trail.length
  some : ∀ lits, conflict = some lits →
    t.Falsified lits ∧ ∃ h < t.trail.length, (intact → t.Guarded h) ∧ ∀ j ∈ t.starts, j ≤ h

/-- There are no more literals on the trail than variables. -/
theorem Assigned.length_le {s : State} (hs : s.Assigned) : s.trail.length ≤ s.size := by
  have hsub : s.trail.map Literal.var ⊆ List.range s.size := by
    intro v hv
    obtain ⟨l, hl, rfl⟩ := List.mem_map.mp hv
    exact List.mem_range.mpr (hs.bound hl)
  have hle := (hs.nodup.subperm hsub).length_le
  rwa [List.length_map, List.length_range] at hle

end Search.State

namespace Core

open Search Search.State

variable {intact : Prop}

theorem propagateUpTo_spec (bound : Nat) (c : Core) (hs : c.state.Ready intact)
    (hbound : c.state.size < bound + c.state.head) :
    c.state.Settled intact (c.propagateUpTo bound).2.state (c.propagateUpTo bound).1 := by
  -- by induction on the bound: each turn moves the head on, and the trail is no longer than there
  -- are variables
  induction bound generalizing c with
  | zero =>
    have hhead := hs.assigned.head
    have hlength := hs.assigned.length_le
    omega
  | succ bound ih =>
    unfold propagateUpTo
    cases hp : c.trail[c.head]? with
    | none =>
      have hge : c.state.trail.length ≤ c.state.head := by
        have hsize := Array.getElem?_eq_none_iff.mp hp
        rwa [← Array.length_toList] at hsize
      have hhead : c.state.head = c.state.trail.length := Nat.le_antisymm hs.assigned.head hge
      refine ⟨Derives.refl c.state, hs.assigned, hs.watching, hhead, ?_, ?_⟩
      · intro _
        simp only
        rw [← hhead]
        exact ⟨hs.guarded, hs.latest⟩
      · intro lits hlits
        cases hlits
    | some p =>
      simp only
      have hplace : c.state.trail[c.state.head]? = some p := by
        rw [← hp]
        exact Array.getElem?_toList
      have hlt := (List.getElem?_eq_some_iff.mp hplace).1
      generalize hc₁ : ({ c with
        head := c.head + 1, stats := { c.stats with propagations := c.stats.propagations + 1 } } :
          Core) = c₁
      have hstate : c₁.state = { c.state with head := c.state.head + 1 } := by
        rw [← hc₁]
        rfl
      have ha := hs.assigned
      have ha₁ : c₁.state.Assigned := by
        rw [hstate]
        exact ⟨ha.nodup, ha.value, ha.level, ha.starts, ha.below, hlt, ha.bound, ha.reason, ha.root⟩
      have hw₁ : c₁.state.Watching := by
        rw [hstate]
        exact hs.watching.of_same rfl rfl (fun _ => rfl) rfl rfl rfl
      have hext : c.state.Derives c₁.state := by
        rw [hstate]
        exact .of_same ⟨List.prefix_rfl, rfl, rfl, rfl, rfl, rfl, fun _ => rfl, fun _ =>
          rfl⟩ rfl rfl
      have hspec := propagateLit_spec (h := c.state.head)
        (p := p) ha₁ hw₁ (by rw [hstate]; exact hs.guarded)
        (by rw [hstate]; exact hs.latest) (by rw [hstate]; exact hplace)
      have hhead₁ : c₁.state.head = c.state.head + 1 := by rw [hstate]
      generalize c₁.propagateLit p = r at hspec
      obtain ⟨conflict, c₂⟩ := r
      cases conflict with
      | none =>
        have hhead : c₂.state.head = c.state.head + 1 := hspec.head.trans hhead₁
        have hready : c₂.state.Ready intact := by
          refine ⟨hspec.assigned, hspec.watching, ?_, ?_⟩
          · rw [hhead]
            exact fun hi => hspec.none hi rfl
          · intro j hj
            have hle := hspec.latest j hj
            omega
        have hsize : c₂.state.size = c.state.size := (hext.trans hspec.grown).size
        have hrest := ih c₂ hready (by omega)
        exact { hrest with grown := (hext.trans hspec.grown).trans hrest.grown }
      | some lits =>
        obtain ⟨hguarded, hfalsified⟩ := hspec.some lits rfl
        have ha₂ := hspec.assigned
        have hend : ({ c₂ with head := c₂.trail.size } : Core).state =
            { c₂.state with head := c₂.state.trail.length } := by
          rw [show c₂.state.trail.length = c₂.trail.size from Array.length_toList]
          rfl
        simp only [hend]
        refine ⟨(hext.trans hspec.grown).trans
          (.of_same ⟨List.prefix_rfl, rfl, rfl, rfl, rfl, rfl, fun _ => rfl, fun _ => rfl⟩
            rfl rfl),
          ⟨ha₂.nodup, ha₂.value, ha₂.level, ha₂.starts, ha₂.below, Nat.le_refl _, ha₂.bound,
            ha₂.reason, ha₂.root⟩,
          hspec.watching.of_same rfl rfl (fun _ => rfl) rfl rfl rfl, rfl, ?_, ?_⟩
        · intro hnone
          cases hnone
        · intro lits' hsome
          cases hsome
          exact ⟨hfalsified, c.state.head, hspec.lt_length, hguarded, hspec.latest⟩

/-- Propagation comes to an end: there is nothing more to propagate, or a clause is falsified. -/
theorem propagate_spec {c : Core} (hs : c.state.Ready intact) :
    c.state.Settled intact c.propagate.2.state c.propagate.1 := by
  apply propagateUpTo_spec _ c hs
  show c.vars.size < c.vars.size + c.trail.size + 1 + c.head
  omega

end Core
end Entail
