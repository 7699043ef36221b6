import Entail.Proofs.Search.Loop

/-!
# Adding, dropping and merging

Clauses are added at level 0, where a clause of which all literals but one are false makes the last
one true. Dropping scopes takes the whole trail back, so no literal keeps a reason that is gone.
-/

namespace Entail

namespace Search.State

variable {s t : State} {l : Literal} {v : Nat}

/-! ## Variables -/

/-- A variable is taken into use. -/
theorem Orderly.ensure (h : s.Orderly) (v : Nat) : (s.ensure v).Orderly := by
  have hlive {u : Nat} (hu : (s.cell u).live = true) : ((s.ensure v).cell u).live = true := by
    unfold State.ensure
    simp only
    split
    · rfl
    · exact hu
  have hcell (u : Nat) : ((s.ensure v).cell u).value = (s.cell u).value ∧
    ((s.ensure v).cell u).level = (s.cell u).level ∧
      ((s.ensure v).cell u).reason = (s.cell u).reason := by
    unfold State.ensure
    simp only
    split
    · exact ⟨rfl, rfl, rfl⟩
    · exact ⟨rfl, rfl, rfl⟩
  have hsize : (s.ensure v).size = max s.size (v + 1) := rfl
  refine ⟨h.assigned.of_same hcell (Nat.le_max_left _ _) (fun hn => ⟨_, hn, rfl⟩)
    (fun hu => ⟨_, hu⟩) rfl rfl h.assigned.head,
    ?_, ?_, fun l hl => hlive (h.used l hl), fun u hu => hlive (h.units u hu), h.ok, h.refuted⟩
  · have hw := h.watching
    refine ⟨?_, ?_, fun hcl l hl => hlive (hw.live hcl l hl), hw.nodup, hw.isSome, hw.pair,
      hw.mem, hw.once⟩
    · have hroom := hw.room
      show (if v < s.size then s.room else max s.room (2 * (v + 1))) = 2 * max s.size (v + 1)
      split <;> omega
    · intro u hu
      rw [hsize]
      by_cases huv : u = v
      · omega
      · have hold : (s.cell u).live = true := by
          unfold State.ensure at hu
          simp only [if_neg huv] at hu
          exact hu
        have := hw.inUse hold
        omega
  · intro u
    unfold State.ensure
    simp only
    split
    · exact h.unmarked u
    · exact h.unmarked u

/-- A search goes on while a variable is taken into use. -/
theorem Running.ensure (h : s.Running) (v : Nat) :
    (s.ensure v).Running ∧ s.Continues (s.ensure v) := by
  have hlevel : ∀ l ∈ s.trail, (s.ensure v).level l = s.level l := by
    intro l _
    unfold State.level State.ensure
    simp only
    split
    · rfl
    · rfl
  exact ⟨h.grow (h.orderly.ensure v) (fun _ hj => .inl hj) rfl List.prefix_rfl hlevel id .inl,
    .of_grown rfl rfl List.prefix_rfl hlevel⟩

/-- A variable that nothing mentions goes out of use. -/
theorem Orderly.release (h : s.Orderly) (htrail : s.trail = [])
    (hclauses : ∀ {n cl}, s.db.clause? n = some cl → ∀ l ∈ cl.1, l.var ≠ v)
    (hunits : ∀ u ∈ s.db.units, u.1.var ≠ v) :
    (s.set v ({ · with live := false })).Orderly := by
  have hcell (u : Nat) : ((s.set v ({ · with live := false })).cell u).value = (s.cell u).value ∧
      ((s.set v ({ · with live := false })).cell u).level = (s.cell u).level ∧
      ((s.set v ({ · with live := false })).cell u).reason = (s.cell u).reason := by
    unfold State.set
    dsimp only
    split <;> exact ⟨rfl, rfl, rfl⟩
  have hother {u : Nat} (hu : u ≠ v) : (s.set v ({ · with live := false })).cell u = s.cell u :=
    if_neg fun hv => hu hv.1
  have hw := h.watching
  refine ⟨h.assigned.of_same hcell (Nat.le_refl _) (fun hn => ⟨_, hn, rfl⟩)
    (fun hu => ⟨_, hu⟩) rfl rfl h.assigned.head,
    ⟨hw.room, fun {u} hu => ?_, fun hcl l hl => ?_, hw.nodup, hw.isSome, hw.pair, hw.mem, hw.once⟩,
      fun u => ?_,
    fun l hl => ?_, fun u hu => ?_, h.ok, h.refuted⟩
  · apply hw.inUse
    unfold State.set at hu
    dsimp only at hu
    split at hu
    · cases hu
    · exact hu
  · rw [hother (hclauses hcl l hl)]
    exact hw.live hcl l hl
  · unfold State.set
    dsimp only
    split <;> exact h.unmarked u
  · change l ∈ s.trail at hl
    rw [htrail] at hl
    cases hl
  · rw [hother (hunits u hu)]
    exact h.units u hu

/-! ## Adding a clause -/

/-- What becomes of a clause that was added at level 0, of which all literals but the first
are `others`. -/
inductive Woken (s : State) (first : Literal) (others : List Literal) (r : Option Nat) :
    State → Prop
  | falsified (hfirst : first.neg ∈ s.trail) (hothers : ∀ k ∈ others, k.neg ∈ s.trail) :
    Woken s first others r { s with conflict := true }
  | satisfied (hfirst : first ∈ s.trail) : Woken s first others r s
  | forced (hfirst : s.value first = none) (hothers : ∀ k ∈ others, k.neg ∈ s.trail) :
    Woken s first others r (s.assign first r)
  | undecided {second : Literal} (hsecond : others.head? = some second)
    (hfirst : first.neg ∉ s.trail)
    (hnot : second.neg ∉ s.trail) : Woken s first others r s

/-- What the addition of a clause at level 0 comes to, once its variables are in use. -/
inductive Added (s : State) (scope : Nat) : State → Prop
  | tautology : Added s scope s
  | empty : Added s scope { s with db := s.db.addEmpty scope, conflict := true }
  | unit {l : Literal} {t : State} (hlive : (s.cell l.var).live = true)
    (ht : Woken { s with db := s.db.addUnit l scope } l [] none t) :
    Added s scope t
  | clause (cl : Clause) {t : State} (hnodup : cl.lits.Nodup) (hlive : ∀ l ∈ cl.lits,
    (s.cell l.var).live = true)
    (ht : Woken (s.store s.db.slot cl) cl.first (cl.second :: cl.rest) (some s.db.slot) t) :
    Added s scope t

/-- Nothing is lost when no contradiction is found: the units that are true at level 0 stay so. -/
def Admits (s t : State) : Prop := t.Intact → s.Intact ∧ (s.Rooted → t.Rooted)

theorem Continues.admits (h : s.Continues t) : s.Admits t := fun hi => ⟨h.intact.mp hi, h.rooted⟩

theorem Admits.trans {u : State} (h : s.Admits t) (h' : t.Admits u) : s.Admits u := fun hi =>
  have ht := h' hi
  have hs := h ht.1
  ⟨hs.1, fun hr => ht.2 (hs.2 hr)⟩

variable {first second : Literal} {others : List Literal} {r : Option Nat} {bound : Nat}

/-- At level 0 literals guard each other when one of them is true, or none is false. -/
theorem Assigned.guards_root (h : t.Assigned) (hstarts : t.starts = [])
    (hlits : first ∈ t.trail ∨ first.neg ∉ t.trail ∧ second.neg ∉ t.trail) :
    t.Guards bound first second ∧ t.Guards bound second first := by
  rcases hlits with hfirst | ⟨hfirst, hsecond⟩
  · refine ⟨guards_of_not_mem (h.not_both hfirst), guards_of_mem hfirst ?_⟩
    have hle := h.level_le hfirst
    rw [hstarts] at hle
    exact hle.trans (Nat.zero_le _)
  · exact ⟨guards_of_not_mem hfirst, guards_of_not_mem hsecond⟩

namespace Woken

/-- The trail grows by the literal that is forced. -/
theorem grown (h : s.Woken first others r t) (hs : s.Orderly)
    (hlive : (s.cell first.var).live = true) :
    s.trail <+: t.trail ∧ t.starts = s.starts ∧ t.head = s.head ∧ t.db = s.db ∧
    t.watched = s.watched ∧
      ∀ l ∈ s.trail, t.level l = s.level l := by
  cases h with
  | falsified => exact ⟨List.prefix_rfl, rfl, rfl, rfl, rfl, fun _ _ => rfl⟩
  | satisfied => exact ⟨List.prefix_rfl, rfl, rfl, rfl, rfl, fun _ _ => rfl⟩
  | undecided => exact ⟨List.prefix_rfl, rfl, rfl, rfl, rfl, fun _ _ => rfl⟩
  | forced hfirst =>
    have hlevel := hs.assigned.level_push hfirst r (hs.watching.inUse hlive) s.starts
    exact ⟨List.prefix_append _ _, rfl, rfl, rfl, rfl, hlevel⟩

/-- The state stays in order. -/
theorem orderly (h : s.Woken first others r t) (hs : s.Orderly) (hstarts : s.starts = [])
    (hlive : (s.cell first.var).live = true)
    (hmodels : ∀ a, s.db.Models a → ∃ l ∈ first :: others, l.Holds a)
    (hreason : ∀ {n}, r = some n → ∃ cl, s.db.clause? n = some cl ∧ ∀ k, k ∈ cl.1 ↔
      k ∈ first :: others)
    (hunit : r = none → ∃ d, (first, d) ∈ s.db.units) : t.Orderly := by
  cases h with
  | falsified hfirst hothers =>
    refine hs.fail fun a ha => ?_
    obtain ⟨k, hk, hholds⟩ := hmodels a ha
    have hneg : k.neg ∈ s.trail := by
      rcases List.mem_cons.mp hk with rfl | hk
      · exact hfirst
      · exact hothers k hk
    exact hs.assigned.not_holds_of_root hstarts hneg ha hholds
  | satisfied => exact hs
  | undecided => exact hs
  | forced hfirst hothers =>
    refine hs.assign hfirst hlive (fun {n} hn => ?_) fun hr => ⟨hstarts, hunit hr⟩
    obtain ⟨cl, hcl, hmem⟩ := hreason hn
    refine ⟨cl, hcl, (hmem first).mpr List.mem_cons_self, fun k hk => ?_⟩
    exact (List.mem_cons.mp ((hmem k).mp hk)).imp_right (hothers k)

/-- A unit that was added is true unless a contradiction was found. -/
theorem mem (h : s.Woken first [] r t) (hi : t.Intact) : first ∈ t.trail := by
  cases h with
  | falsified => exact (Bool.false_ne_true hi.1.symm).elim
  | satisfied hfirst => exact hfirst
  | undecided hsecond => cases hsecond
  | forced => exact List.mem_append_right _ List.mem_cons_self

/-- The first two literals of a clause that was added guard each other unless a
contradiction was found. -/
theorem guards (h : s.Woken first (second :: others) r t) (ht : t.Assigned)
    (hstarts : t.starts = []) (hi : t.Intact) :
    t.Guards bound first second ∧ t.Guards bound second first := by
  apply ht.guards_root hstarts
  cases h with
  | falsified => exact (Bool.false_ne_true hi.1.symm).elim
  | satisfied hfirst => exact .inl hfirst
  | undecided hsecond hfirst hnot =>
    cases hsecond
    exact .inr ⟨hfirst, hnot⟩
  | forced => exact .inl (List.mem_append_right _ List.mem_cons_self)

theorem intact (h : s.Woken first others r t) (hi : t.Intact) : s.Intact := by
  cases h with
  | falsified => exact (Bool.false_ne_true hi.1.symm).elim
  | satisfied => exact hi
  | undecided => exact hi
  | forced => exact hi

end Woken

/-- The empty clause is added. -/
theorem Orderly.addEmpty (h : s.Orderly) (scope : Nat) :
    ({ s with db := s.db.addEmpty scope, conflict := true } : State).Orderly := by
  obtain ⟨depth, hok⟩ := h.ok
  have hw := h.watching
  have hno : ∀ a, ¬ (s.db.addEmpty scope).Models a := by
    intro a ha
    have hnone : (s.db.addEmpty scope).empty = none := ha.empty
    cases hnone
  have hdeep := hok.mono (Nat.le_max_left depth scope)
  have hdepth : ∀ {n}, (s.db.addEmpty scope).empty = some n → n ≤ max depth scope := by
    intro n hn
    cases he : s.db.empty with
    | none =>
      simp only [Database.addEmpty, he, Option.map_none, Option.getD_none, Option.some.injEq] at hn
      omega
    | some k =>
      simp only [Database.addEmpty, he, Option.map_some, Option.getD_some, Option.some.injEq] at hn
      omega
  have hadded : ({ s with db := s.db.addEmpty scope } : State).Orderly :=
    ⟨h.assigned.more id id,
      ⟨hw.room, hw.inUse, hw.live, hw.nodup, hw.isSome, hw.pair, hw.mem, hw.once⟩,
      h.unmarked, h.used, h.units,
      ⟨max depth scope, hdeep.nodup, hdeep.free, hdeep.clause, hdeep.unit, hdepth⟩, fun _ => hno⟩
  exact hadded.fail hno

namespace Added

variable {scope : Nat}

/-- What is stored stands in the database under its number. -/
theorem clause?_store (h : s.Orderly) (cl : Clause) :
    (s.store s.db.slot cl).db.clause? s.db.slot = some cl.content := by
  obtain ⟨depth, hok⟩ := h.ok
  exact ((Database.clause?_slot hok cl.content).2 s.db.slot).trans (if_pos rfl)

/-- The state stays in order. -/
theorem orderly (h : s.Added scope t) (hs : s.Orderly) (hstarts : s.starts = []) : t.Orderly := by
  cases h with
  | tautology => exact hs
  | empty => exact hs.addEmpty scope
  | @unit l t hlive ht =>
    have hmem : (l, scope) ∈ (s.db.addUnit l scope).units := Array.mem_push.mpr (.inr rfl)
    refine ht.orderly (hs.addUnit hlive scope) hstarts hlive
      (fun a ha => ⟨l, List.mem_cons_self, ha.unit hmem⟩) ?_
      fun _ => ⟨scope, hmem⟩
    intro n hn
    cases hn
  | @clause cl t hnodup hlive ht =>
    have hclause := clause?_store hs cl
    have hmem (k : Literal) : k ∈ cl.content.1 ↔ k ∈ cl.first :: cl.second :: cl.rest :=
      Multiset.mem_coe
    refine ht.orderly (hs.store hnodup hlive) hstarts (hlive _ List.mem_cons_self)
      (fun a ha => ?_) ?_ fun hr => by cases hr
    · obtain ⟨k, hk, hholds⟩ := ha.clause hclause
      exact ⟨k, (hmem k).mp hk, hholds⟩
    · intro n hn
      cases hn
      exact ⟨cl.content, hclause, hmem⟩

/-- The trail grows by a literal at most. -/
theorem grown (h : s.Added scope t) (hs : s.Orderly) :
    s.trail <+: t.trail ∧ t.starts = s.starts := by
  cases h with
  | tautology | empty => exact ⟨List.prefix_rfl, rfl⟩
  | unit hlive ht =>
    obtain ⟨htrail, hstarts, -⟩ := ht.grown (hs.addUnit hlive scope) hlive
    exact ⟨htrail, hstarts⟩
  | clause cl hnodup hlive ht =>
    obtain ⟨htrail, hstarts, -⟩ := ht.grown (hs.store hnodup hlive) (hlive _ List.mem_cons_self)
    exact ⟨htrail, hstarts⟩

/-- A search goes on after clauses were added at level 0. -/
theorem running (h : s.Added scope t) (hs : s.Running) (hstarts : s.starts = []) :
    t.Running ∧ s.Admits t := by
  have ht := h.orderly hs.orderly hstarts
  cases h with
  | tautology => exact ⟨hs, fun hi => ⟨hi, id⟩⟩
  | empty =>
    have hno : ¬ ({ s with db := s.db.addEmpty scope, conflict := true } : State).Intact :=
      fun hi => Bool.false_ne_true hi.1.symm
    exact ⟨⟨ht, hs.latest, fun hi => absurd hi hno⟩, fun hi => absurd hi hno⟩
  | @unit l t hlive hwoken =>
    obtain ⟨htrail, hstarts', hhead, hdb, hwatched, hlevel⟩ :=
      hwoken.grown (hs.orderly.addUnit hlive scope) hlive
    refine ⟨hs.grow ht (fun j hj => .inl (hstarts' ▸ hj)) hhead htrail hlevel
      (fun hi => hwoken.intact hi)
      fun hm => .inl (hwatched ▸ hm), fun hi => ⟨hwoken.intact hi, fun hr u hu => ?_⟩⟩
    rw [hdb] at hu
    rcases Array.mem_push.mp hu with hu | rfl
    · obtain ⟨hmem, hzero⟩ := hr u hu
      exact ⟨htrail.subset hmem, (hlevel _ hmem).trans hzero⟩
    · have hmem := hwoken.mem hi
      have hle := ht.assigned.level_le hmem
      rw [hstarts', hstarts] at hle
      exact ⟨hmem, Nat.le_zero.mp hle⟩
  | @clause cl t hnodup hlive hwoken =>
    obtain ⟨htrail, hstarts', hhead, hdb, hwatched, hlevel⟩ :=
      hwoken.grown (hs.orderly.store hnodup hlive) (hlive _ List.mem_cons_self)
    have hempty : (s.store s.db.slot cl).db.empty = s.db.empty :=
      Database.empty_store s.db cl.content
    have hintact (hi : t.Intact) : s.Intact :=
      have hi' := hwoken.intact hi
      ⟨hi'.1, hempty.symm.trans hi'.2⟩
    have hnil : t.starts = [] := hstarts'.trans hstarts
    refine ⟨⟨ht, fun j hj => ?_, fun hi n x y hn => ?_⟩, fun hi => ⟨hintact hi, fun hr u hu => ?_⟩⟩
    · rw [hnil] at hj
      cases hj
    · rw [hwatched] at hn
      change (if n = s.db.slot then some (cl.first, cl.second) else s.watched n) = some (x, y) at hn
      split at hn
      next =>
        cases hn
        exact hwoken.guards ht.assigned hnil hi
      next =>
        have hboth := hs.guarded (hintact hi) n x y hn
        rw [hhead]
        exact ⟨hboth.1.extend htrail hlevel hs.orderly.assigned.head,
          hboth.2.extend htrail hlevel hs.orderly.assigned.head⟩
    · rw [hdb, show (s.store s.db.slot cl).db.units = s.db.units
        from Database.units_store s.db cl.content] at hu
      obtain ⟨hmem, hzero⟩ := hr u hu
      exact ⟨htrail.subset hmem, (hlevel _ hmem).trans hzero⟩

end Added
end Search.State

namespace Core

open Search Search.State

variable {c : Core} {l : Literal}

/-- The variables of a clause are taken into use. -/
theorem ensureVars_spec (lits : List Literal) (c : Core) (h : c.state.Orderly) :
    (lits.foldl (fun c l => c.ensureVar l.var) c).state.Orderly ∧
      (lits.foldl (fun c l => c.ensureVar l.var) c).state.starts = c.state.starts ∧
      (∀ v, (c.state.cell v).live = true →
        ((lits.foldl (fun c l => c.ensureVar l.var) c).state.cell v).live = true) ∧
      ∀ l ∈ lits, ((lits.foldl (fun c l => c.ensureVar l.var) c).state.cell l.var).live = true := by
  induction lits generalizing c with
  | nil => exact ⟨h, rfl, fun v hv => hv, fun l hl => by cases hl⟩
  | cons l lits ih =>
    have hens := state_ensureVar c l.var
    obtain ⟨h₁, hstarts, hmono, hlits⟩ :=
      ih (c.ensureVar l.var) (by rw [hens]; exact h.ensure l.var)
    rw [hens] at hstarts hmono
    have hcell (v : Nat) : ((c.state.ensure l.var).cell v).live = if v = l.var then true
        else (c.state.cell v).live := by
      unfold State.ensure
      simp only
      split <;> rfl
    refine ⟨h₁, hstarts, fun v hv => hmono v ?_, fun k hk => ?_⟩
    · rw [hcell]
      split
      · rfl
      · exact hv
    · rcases List.mem_cons.mp hk with rfl | hk
      · exact hmono _ (by rw [hcell, if_pos rfl])
      · exact hlits k hk

theorem assignUnit_woken (ha : c.state.Assigned) (l : Literal) :
    c.state.Woken l [] none (c.assignUnit l).2.state := by
  have hothers : ∀ k ∈ ([] : List Literal), k.neg ∈ c.state.trail := fun k hk => by cases hk
  unfold assignUnit
  split
  next hfalse => exact .falsified (ha.value_false.mp hfalse) hothers
  next htrue => exact .satisfied (ha.value_true.mp htrue)
  next hnone =>
    rw [state_enqueue]
    exact .forced hnone hothers

/-- A clause is added at level 0. -/
theorem addClause_added (h : c.state.Orderly) (lits : List Literal) (scope : Nat) :
    (lits.foldl (fun c l => c.ensureVar l.var) (c.require (c.decisionLevel = 0))).state.Added scope
      (c.addClause lits scope).state := by
  obtain ⟨h₁, -, -, hlive⟩ := ensureVars_spec lits (c.require (c.decisionLevel = 0)) h
  have hlive' : ∀ l ∈ Literal.normalize lits,
      ((lits.foldl (fun c l => c.ensureVar l.var)
        (c.require (c.decisionLevel = 0))).state.cell l.var).live = true :=
    fun l hl => hlive l (Literal.mem_normalize.mp hl)
  have hnodup := Literal.nodup_normalize lits
  unfold addClause
  simp only
  generalize lits.foldl (fun c l => c.ensureVar l.var) (c.require (c.decisionLevel = 0)) = c₁ at *
  generalize Literal.normalize lits = ls at *
  have ha := h₁.assigned
  split
  · exact .tautology
  · match ls with
    | [] => exact .empty
    | [l] =>
      have ha' : ({ c₁ with units := c₁.units.push (l, scope) } : Core).state.Assigned :=
        ha.more id fun hu => Array.mem_push.mpr (.inl hu)
      exact .unit (hlive' l List.mem_cons_self) (assignUnit_woken ha' l)
    | x :: y :: zs =>
      simp only
      have hperm :
          ((x :: y :: zs).filter (fun l => !c₁.isFalse l) ++
            (x :: y :: zs).filter c₁.isFalse).Perm (x :: y :: zs) :=
        List.perm_append_comm.trans (List.filter_append_perm _ _)
      have hfalse {k : Literal} : c₁.isFalse k = true ↔ k.neg ∈ c₁.state.trail := by
        rw [← ha.value_false]
        exact beq_iff_eq
      generalize hnf : (x :: y :: zs).filter (fun l => !c₁.isFalse l) = nonFalse at hperm ⊢
      have hnonFalse : ∀ k ∈ nonFalse, k.neg ∉ c₁.state.trail := by
        intro k hk
        rw [← hnf] at hk
        rw [← hfalse]
        simpa using (List.mem_filter.mp hk).2
      generalize hf : (x :: y :: zs).filter c₁.isFalse = falses at hperm ⊢
      have hfalses : ∀ k ∈ falses, k.neg ∈ c₁.state.trail := by
        intro k hk
        rw [← hf] at hk
        exact hfalse.mp (List.mem_filter.mp hk).2
      split
      next first second rest heq =>
        rw [heq] at hperm
        obtain ⟨depth, hok⟩ := h₁.ok
        obtain ⟨hslot, hstate⟩ :=
          state_storeClause hok { first, second, rest, scope, learnt := false }
        rw [hslot]
        refine .clause { first, second, rest, scope, learnt := false } (hperm.nodup_iff.mpr hnodup)
          (fun l hl => hlive' l (hperm.mem_iff.mp hl)) ?_
        generalize (c₁.storeClause { first, second, rest, scope, learnt := false }).2 = c₂ at hstate
        have hvalue (k : Literal) : c₂.value k = c₁.state.value k :=
          congrArg (fun s => s.value k) hstate
        match nonFalse with
        | [] =>
          have hall : ∀ k ∈ first :: second :: rest, k.neg ∈ c₁.state.trail :=
            fun k hk => hfalses k (by rwa [← heq] at hk)
          show Woken _ _ _ _ { c₂.state with conflict := true }
          rw [hstate]
          exact .falsified (hall first List.mem_cons_self) fun k hk =>
            hall k (List.mem_cons_of_mem _ hk)
        | [l] =>
          obtain ⟨rfl, rfl⟩ := List.cons.inj heq
          have hnot := hnonFalse l List.mem_cons_self
          simp only
          split
          next hnone =>
            rw [state_enqueue, hstate]
            exact .forced ((hvalue l).symm.trans (Option.isNone_iff_eq_none.mp hnone)) hfalses
          next hsome =>
            rw [hstate]
            apply Woken.satisfied
            apply Decidable.byContradiction
            intro hl
            exact hsome (Option.isNone_iff_eq_none.mpr
              ((hvalue l).trans (ha.value_none.mpr ⟨hl, hnot⟩)))
        | l :: k :: more =>
          obtain ⟨rfl, hrest⟩ := List.cons.inj heq
          obtain ⟨rfl, -⟩ := List.cons.inj hrest
          simp only
          rw [hstate]
          exact .undecided rfl (hnonFalse _ List.mem_cons_self)
            (hnonFalse _ (List.mem_cons_of_mem _ List.mem_cons_self))
      next hshort =>
        -- there are at least two literals
        exfalso
        have hlength := hperm.length_eq
        match h : nonFalse ++ falses with
        | [] => simp [h] at hlength
        | [l] => simp [h] at hlength
        | first :: second :: rest => exact hshort first second rest h

/-- A clause is added at level 0. -/
theorem addClause_spec (h : c.state.Orderly) (hstarts : c.state.starts = []) (lits : List Literal)
    (scope : Nat) :
    (c.addClause lits scope).state.Orderly := by
  obtain ⟨h₁, hstarts₁, -, -⟩ := ensureVars_spec lits (c.require (c.decisionLevel = 0)) h
  exact (addClause_added h lits scope).orderly h₁ (hstarts₁.trans hstarts)

theorem ensureVars_running (lits : List Literal) (c : Core) (h : c.state.Running) :
    (lits.foldl (fun c l => c.ensureVar l.var) c).state.Running ∧
      c.state.Admits (lits.foldl (fun c l => c.ensureVar l.var) c).state := by
  induction lits generalizing c with
  | nil => exact ⟨h, fun hi => ⟨hi, id⟩⟩
  | cons l lits ih =>
    have hens := h.ensure l.var
    rw [← state_ensureVar] at hens
    obtain ⟨h₁, hadmits⟩ := ih (c.ensureVar l.var) hens.1
    exact ⟨h₁, hens.2.admits.trans hadmits⟩

/-- A search goes on after a clause was added at level 0. -/
theorem addClause_running (h : c.state.Running) (hstarts : c.state.starts = [])
    (lits : List Literal) (scope : Nat) :
    (c.addClause lits scope).state.Running ∧ c.state.Admits (c.addClause lits scope).state := by
  obtain ⟨h₁, hadmits₁⟩ := ensureVars_running lits (c.require (c.decisionLevel = 0)) h
  obtain ⟨-, hstarts₁, -, -⟩ := ensureVars_spec lits (c.require (c.decisionLevel = 0)) h.orderly
  obtain ⟨h₂, hadmits₂⟩ := (addClause_added h.orderly lits scope).running h₁
    (hstarts₁.trans hstarts)
  exact ⟨h₂, hadmits₁.trans hadmits₂⟩

/-! ## Dropping and merging scopes -/

/-- Dropping scopes takes the trail back, and forgets the clauses that are gone. -/
theorem popScopes_orderly (h : c.state.Orderly) (depth : Nat) :
    (c.popScopes depth).state.Orderly := by
  obtain ⟨top, hok⟩ := h.ok
  obtain ⟨hclause, hunits, -⟩ := db_popScopes hok depth
  have hokay := (popScopes_spec hok depth).1
  have hstate := state_popScopes c depth
  have hcleared := h.clear
  generalize (c.popScopes depth).db = d at hclause hunits hokay hstate
  have hkept {n : Nat} {cl : Content} (hn : d.clause? n = some cl) :
      c.state.db.clause? n = some cl := by
    rw [hclause, Option.filter_eq_some_iff] at hn
    exact hn.1
  have hunit {u : Literal × Nat} (hu : u ∈ d.units) : u ∈ c.state.db.units := by
    rw [← Array.mem_toList_iff, hunits, List.mem_filter] at hu
    exact Array.mem_toList_iff.mp hu.1
  have hwatched {n : Nat} {x y : Literal} :
      (if (d.clause? n).isSome then c.state.watched n else none) = some (x, y) ↔
        (d.clause? n).isSome = true ∧ c.state.watched n = some (x, y) := by
    split
    next hn => simp [hn]
    next hn => simp [hn]
  rw [hstate]
  have ha := hcleared.assigned
  have hw := hcleared.watching
  -- the trail is empty, and what is watched is what was, as far as the clauses are left
  refine ⟨⟨ha.nodup, ha.value, ha.level, ha.starts, ha.below, ha.head, ha.bound, ?_, ?_⟩,
    ⟨hw.room, hw.inUse, ?_, ?_, ?_, ?_,
    ?_, ?_⟩, hcleared.unmarked, hcleared.used, ?_, ⟨depth, hokay⟩, fun hc => by cases hc⟩
  · intro i l n hi
    cases hi
  · intro i l hi
    cases hi
  · intro n cl hn
    exact hw.live (hkept hn)
  · intro n cl hn
    exact hw.nodup (hkept hn)
  · intro n
    show (if (d.clause? n).isSome then c.state.watched n else none).isSome = (d.clause? n).isSome
    split
    next hn =>
      obtain ⟨cl, hcl⟩ := Option.isSome_iff_exists.mp hn
      rw [hn]
      exact (hw.isSome n).trans (Option.isSome_iff_exists.mpr ⟨cl, hkept hcl⟩)
    next hn => simp [hn]
  · intro n x y cl hn hcl
    exact hw.pair (hwatched.mp hn).2 (hkept hcl)
  · intro l n
    show n ∈ (c.state.watchers l.code).filter _ ↔ _
    rw [List.mem_filter]
    constructor
    · rintro ⟨hmem, hn⟩
      obtain ⟨x, y, hxy, hl⟩ := hw.mem.mp hmem
      exact ⟨x, y, hwatched.mpr ⟨hn, hxy⟩, hl⟩
    · rintro ⟨x, y, hxy, hl⟩
      obtain ⟨hn, hxy⟩ := hwatched.mp hxy
      exact ⟨hw.mem.mpr ⟨x, y, hxy, hl⟩, hn⟩
  · intro l
    exact (hw.once l).filter _
  · intro u hu
    exact hcleared.units u (hunit hu)

/-- Merging scopes changes nothing but the scopes of clauses. -/
theorem mergeScopes_orderly (h : c.state.Orderly) (depth : Nat) :
    (c.mergeScopes depth).state.Orderly := by
  obtain ⟨top, hok⟩ := h.ok
  have hclause := Database.clause?_merge c.db depth
  have hkept {n : Nat} {cl : Content} (hn : c.state.db.clause? n = some cl) :
      ∃ cl', (c.db.merge depth).clause? n = some cl' ∧ cl'.1 = cl.1 := by
    refine ⟨(cl.1, min cl.2.1 depth, cl.2.2), ?_, rfl⟩
    rw [hclause, show c.db.clause? n = some cl from hn]
    rfl
  have hback {n : Nat} {cl : Content} (hn : (c.db.merge depth).clause? n = some cl) :
      ∃ cl', c.state.db.clause? n = some cl' ∧ cl'.1 = cl.1 := by
    rw [hclause] at hn
    obtain ⟨cl', hcl', rfl⟩ := Option.map_eq_some_iff.mp hn
    exact ⟨cl', hcl', rfl⟩
  have hunit {l : Literal} {d : Nat} (hu : (l, d) ∈ c.state.db.units) :
      ∃ d', (l, d') ∈ (c.db.merge depth).units :=
    ⟨min d depth, Array.mem_map.mpr ⟨(l, d), hu, rfl⟩⟩
  rw [state_mergeScopes]
  have hw := h.watching
  refine ⟨h.assigned.of_same (fun _ => ⟨rfl, rfl, rfl⟩) (Nat.le_refl _) hkept hunit rfl rfl
    h.assigned.head,
    ⟨hw.room, hw.inUse, ?_, ?_, ?_, ?_, hw.mem, hw.once⟩, h.unmarked, h.used, ?_,
    ⟨depth, (Database.merge_spec hok depth).1⟩, ?_⟩
  · intro n cl hn l hl
    obtain ⟨cl', hcl', hsame⟩ := hback hn
    exact hw.live hcl' l (hsame ▸ hl)
  · intro n cl hn
    obtain ⟨cl', hcl', hsame⟩ := hback hn
    exact hsame ▸ hw.nodup hcl'
  · intro n
    rw [hw.isSome]
    show (c.db.clause? n).isSome = ((c.db.merge depth).clause? n).isSome
    rw [hclause, Option.isSome_map]
  · intro n x y cl hn hcl
    obtain ⟨cl', hcl', hsame⟩ := hback hcl
    exact hsame ▸ hw.pair hn hcl'
  · intro u hu
    obtain ⟨u', hu', rfl⟩ := Array.mem_map.mp hu
    exact h.units u' hu'
  · intro hc a hm
    refine h.refuted hc a ⟨?_, ?_, ?_⟩
    · intro n cl hn
      obtain ⟨cl', hcl', hsame⟩ := hkept hn
      exact hsame ▸ hm.clause hcl'
    · intro u hu
      obtain ⟨d', hd'⟩ := hunit hu
      exact hm.unit (u := (u.1, d')) hd'
    · have hnone : (c.db.merge depth).empty = none := hm.empty
      exact Option.map_eq_none_iff.mp hnone

theorem popScopes_running (h : c.state.Orderly) (depth : Nat) :
    (c.popScopes depth).state.Running := by
  have hstate := state_popScopes c depth
  apply (popScopes_orderly h depth).running
  · rw [hstate]
    rfl
  · rw [hstate]
    rfl

theorem mergeScopes_running (h : c.state.Running) (depth : Nat) :
    (c.mergeScopes depth).state.Running ∧ c.state.Continues (c.mergeScopes depth).state := by
  have horderly := mergeScopes_orderly h.orderly depth
  rw [state_mergeScopes] at horderly ⊢
  have hempty : (c.db.merge depth).empty = none ↔ c.db.empty = none := Option.map_eq_none_iff
  have hintact : ({ c.state with db := c.db.merge depth } : State).Intact ↔ c.state.Intact :=
    and_congr Iff.rfl hempty
  refine ⟨h.grow horderly (fun _ hj => .inl hj) rfl List.prefix_rfl
    (fun _ _ => rfl) hintact.mp .inl, hintact, ?_⟩
  intro hr u hu
  obtain ⟨u', hu', rfl⟩ := Array.mem_map.mp hu
  exact hr u' hu'

/-! ## Variables stay in use -/

@[simp] theorem live_enqueue (c : Core) (l : Literal) (r : Option Nat) (v : Nat) :
    ((c.enqueue l r).info v).live = (c.info v).live := by
  have hstate := congrArg (fun s => (s.cell v).live) (state_enqueue c l r)
  exact hstate.trans ((Extends.assign c.state l r).live v)

@[simp] theorem live_assignUnit (c : Core) (l : Literal) (v : Nat) :
    ((c.assignUnit l).2.info v).live = (c.info v).live := by
  unfold assignUnit
  split
  · rfl
  · rfl
  · exact live_enqueue c l none v

theorem live_assignUnitList (us : List (Literal × Nat)) (c : Core) (v : Nat) :
    ((assignUnitList us c).2.info v).live = (c.info v).live := by
  induction us generalizing c with
  | nil => rfl
  | cons u us ih =>
    have hone := live_assignUnit c u.1 v
    unfold assignUnitList
    split
    next heq =>
      rw [heq] at hone
      rw [ih, hone]
    next heq =>
      rw [heq] at hone
      exact hone

@[simp] theorem live_assignUnits (c : Core) (v : Nat) :
    (c.assignUnits.2.info v).live = (c.info v).live := by
  simp only [assignUnits]
  split
  · rfl
  · exact live_assignUnitList _ _ v

@[simp] theorem live_storeClause (c : Core) (cl : Clause) (v : Nat) :
    ((c.storeClause cl).2.info v).live = (c.info v).live := by
  unfold storeClause
  cases c.freeClauses <;> rfl

@[simp] theorem live_backtrack (c : Core) (level v : Nat) :
    ((c.backtrack level).info v).live = (c.info v).live := by
  have hstate := congrArg (fun s => (s.cell v).live) (state_backtrack c level)
  refine hstate.trans ?_
  unfold State.back
  split
  · rfl
  · exact (live_cut c.state _ v).1

@[simp] theorem live_resetTrail (c : Core) (v : Nat) :
    (c.resetTrail.info v).live = (c.info v).live := by
  have hstate := congrArg (fun s => (s.cell v).live) (state_resetTrail c)
  exact hstate.trans (live_cut c.state 0 v).1

@[simp] theorem live_startSearch (c : Core) (p : Params) (v : Nat) :
    ((c.startSearch p).2.info v).live = (c.info v).live :=
  (live_assignUnits _ v).trans (live_resetTrail c v)

@[simp] theorem live_learn (c : Core) (lits : List Literal) (scope v : Nat) :
    ((c.learn lits scope).info v).live = (c.info v).live := by
  unfold learn
  split
  · rfl
  · exact live_enqueue _ _ none v
  · exact (live_enqueue _ _ _ v).trans (live_storeClause _ _ v)

@[simp] theorem live_popScopes (c : Core) (depth v : Nat) :
    ((c.popScopes depth).info v).live = (c.info v).live := by
  have hstate := congrArg (fun s => (s.cell v).live) (state_popScopes c depth)
  exact hstate.trans (live_cut c.state 0 v).1

theorem live_addClause (h : c.state.Orderly) (lits : List Literal) (scope : Nat) :
    (∀ v, (c.info v).live = true → ((c.addClause lits scope).info v).live = true) ∧
      ∀ l ∈ lits, ((c.addClause lits scope).info l.var).live = true := by
  obtain ⟨-, -, hmono, hlits⟩ := ensureVars_spec lits (c.require (c.decisionLevel = 0)) h
  have hsame (v : Nat) : ((c.addClause lits scope).info v).live =
      ((lits.foldl (fun c l => c.ensureVar l.var) (c.require (c.decisionLevel = 0))).info
        v).live := by
    unfold addClause
    simp only
    generalize lits.foldl (fun c l => c.ensureVar l.var) (c.require (c.decisionLevel = 0)) = c₁
    split
    · rfl
    · split
      · rfl
      · exact live_assignUnit _ _ v
      · split
        · split
          · exact live_storeClause c₁ _ v
          · split
            · exact (live_enqueue _ _ _ v).trans (live_storeClause c₁ _ v)
            · exact live_storeClause c₁ _ v
          · exact live_storeClause c₁ _ v
        · rfl
  refine ⟨fun v hv => ?_, fun l hl => ?_⟩
  · rw [hsame]
    exact hmono v hv
  · rw [hsame]
    exact hlits l hl

end Core
end Entail
