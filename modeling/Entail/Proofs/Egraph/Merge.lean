import Entail.Proofs.Egraph.Signatures

/-!
# Merging classes

Merging along an equality takes four steps: the edge is recorded, the signatures of the applications
of the smaller class are taken out, the two classes are joined, and the signatures are entered
again. Then the classes are in order again, with what was found in the last step waiting. Every
merge leaves one class less, so all that waits is merged before the bound is reached.
-/

namespace Entail.Egraph

variable {g g' : Egraph} {R : Nat → Nat → Prop} {es : List Edge} {e : Edge}
  {a b n small big bound : Nat}

/-! ## Joining two classes -/

/-- The class of `small` becomes part of the class of `big`. -/
def joined (g : Egraph) (small big : Nat) : Egraph :=
  (g.modifyClasses fun k => joinRings k (g.ring small) small big (g.parentsOf small)).log
    (.merge small big (g.parentsOf big).size)

/-- Two different representatives. -/
structure Apart (g : Egraph) (small big : Nat) : Prop where
  small_lt : small < g.known
  big_lt : big < g.known
  root_small : g.root small = small
  root_big : g.root big = big
  ne : small ≠ big

/-- Joining two classes makes no node. -/
theorem known_joined (g : Egraph) (small big : Nat) : (g.joined small big).known = g.known :=
  size_foldl_set _ _ _

/-- After two classes are joined, the nodes of the smaller have the root of the larger. -/
theorem root_joined (ht : g.Tables) (h : g.Apart small big) (n : Nat) :
    (g.joined small big).root n = if g.root n = small then big else g.root n := by
  have hentry : (g.joined small big).classes.root[n]? =
      if n ∈ g.ring small ∧ n < g.known then some big else g.classes.root[n]? :=
    getElem?_foldl_set (g.ring small) big g.classes.root n
  have hmem := (ht.ring_eq h.small_lt h.root_small).2 n
  by_cases hn : n < g.known
  · rw [root, Array.getD_eq_getD_getElem?, hentry, getElem?_root hn]
    simp only [hmem, hn, true_and, and_true]
    split
    · rfl
    · rfl
  · have hnone : g.known ≤ n := Nat.le_of_not_lt hn
    have hself : g.root n = n := root_of_known_le hnone
    have hne : ¬ g.root n = small := fun heq => hn (hself ▸ heq ▸ h.small_lt)
    rw [if_neg hne, hself, root_of_known_le (known_joined g small big ▸ hnone)]

/-- The class that is left has the parents of both. -/
theorem parentsOf_joined (ht : g.Tables) (h : g.Apart small big) (r : Nat) :
    (g.joined small big).parentsOf r =
      if r = big then g.parentsOf big ++ g.parentsOf small else g.parentsOf r := by
  have hbig : big < g.classes.parents.size := ht.size_parents ▸ h.big_lt
  show (g.classes.parents.modify big (· ++ g.parentsOf small)).getD r #[] = _
  rw [Array.getD_eq_getD_getElem?, Array.getElem?_modify]
  by_cases hr : big = r
  · subst hr
    simp [parentsOf, hbig]
  · rw [if_neg hr, if_neg (Ne.symm hr), parentsOf, Array.getD_eq_getD_getElem?]

theorem Tables.joined (ht : g.Tables) (h : g.Apart small big) : (g.joined small big).Tables where
  size_next := by
    rw [known_joined, ← ht.size_next]
    exact size_swap g.classes.next small big
  size_parents := by
    rw [known_joined, ← ht.size_parents]
    exact Array.size_modify
  size_adj := by
    rw [known_joined]
    exact ht.size_adj
  known_le := by
    rw [known_joined]
    exact ht.known_le
  root_lt {n} hn := by
    rw [known_joined] at hn ⊢
    rw [root_joined ht h]
    split
    · exact h.big_lt
    · exact ht.root_lt hn
  root_root n := by
    rw [root_joined ht h n]
    by_cases hn : g.root n = small
    · rw [if_pos hn, root_joined ht h, h.root_big, if_neg (Ne.symm h.ne)]
    · rw [if_neg hn, root_joined ht h, ht.root_root, if_neg hn]
  ring {r} hr hroot := by
    rw [known_joined] at hr
    have hnext : (g.joined small big).classes.next = swap g.classes.next small big := rfl
    have hmem (n : Nat) : (g.joined small big).root n = r ↔ g.root n = r ∧ r ≠ small ∨
        g.root n = small ∧ r = big := by
      rw [root_joined ht h]
      split
      next hn => rw [hn]; grind
      next hn => grind
    -- swapping the successors of two nodes makes one ring of two
    obtain ⟨ls, hrings, hmems⟩ := ht.ring h.small_lt h.root_small
    obtain ⟨lb, hringb, hmemb⟩ := ht.ring h.big_lt h.root_big
    by_cases hrb : r = big
    · -- the class of `big` has the members of both
      subst hrb
      have hdisj (x : Nat) (hx : x ∈ small :: ls) : x ∉ r :: lb := fun hx' =>
        h.ne (((hmems x).mp hx).2.symm.trans ((hmemb x).mp hx').2)
      refine ⟨ls ++ small :: lb, hnext ▸ hrings.join hringb hdisj, fun n => ?_⟩
      have hn : n ∈ r :: (ls ++ small :: lb) ↔ n ∈ small :: ls ∨ n ∈ r :: lb := by
        simp only [List.mem_cons, List.mem_append]
        tauto
      rw [hn, hmems, hmemb, hmem, known_joined]
      have hne := h.ne
      grind
    · have hrs : r ≠ small := fun heq => by
        rw [heq, root_joined ht h, if_pos h.root_small] at hroot
        exact h.ne hroot.symm
      have hself : g.root r = r := (((hmem r).mp hroot).resolve_right fun hor => hrb hor.2).1
      obtain ⟨l, hring, hmemr⟩ := ht.ring hr hself
      have hs : small ∉ r :: l := fun hx => hrs (((hmemr small).mp hx).2.symm.trans h.root_small)
      have hb : big ∉ r :: l := fun hx => hrb (((hmemr big).mp hx).2.symm.trans h.root_big)
      refine ⟨l, hnext ▸ hring.swap_other ?_ ?_ hs hb, fun n => ?_⟩
      · exact ht.size_next ▸ h.small_lt
      · exact ht.size_next ▸ h.big_lt
      · rw [hmemr, hmem, known_joined]
        simp [hrs, hrb]
  parent {n a} hn ha := by
    rw [known_joined] at hn
    have hold : n ∈ g.parentsOf (g.root a) := ht.parent hn ha
    rw [root_joined ht h, parentsOf_joined ht h]
    by_cases hra : g.root a = small
    · rw [if_pos hra, if_pos rfl]
      exact Array.mem_append_right _ (hra ▸ hold)
    · rw [if_neg hra]
      split
      next heq => exact Array.mem_append_left _ (heq ▸ hold)
      next => exact hold
  parent_lt {n r} hn := by
    rw [known_joined]
    rw [parentsOf_joined ht h] at hn
    split at hn
    · exact (Array.mem_append.mp hn).elim ht.parent_lt ht.parent_lt
    · exact ht.parent_lt hn

/-- Undoing the join gives back the classes as they were. -/
theorem undoes_joined (ht : g.Tables) (h : g.Apart small big) :
    Undoes g.classes (g.joined small big).classes := by
  refine .of_revert (u := .merge small big (g.parentsOf big).size) rfl ?_
  have hmem := (ht.ring_eq h.small_lt h.root_small).2
  have hsplit : splitRings (joinRings g.classes (g.ring small) small big (g.parentsOf small)) small
    big
      (g.parentsOf big).size = g.classes := by
    refine splitRings_joinRings _ h.ne (ht.size_next ▸ h.small_lt) (ht.size_next ▸ h.big_lt) rfl
      fun n hn => ?_
    obtain ⟨hlt, hroot⟩ := (hmem n).mp hn
    rw [getElem?_root hlt, hroot]
  exact .of_eq hsplit

/-- Joining two classes keeps all equalities there were. -/
theorem coarser_joined (ht : g.Tables) (h : g.Apart small big) :
    Coarser g (g.joined small big) where
  sameNodes := rfl
  known := known_joined g small big
  root heq := by rw [root_joined ht h, root_joined ht h, heq]
  undoes := undoes_joined ht h
  diseqs := rfl
  pending := rfl
  levels := rfl
  processed := rfl

/-! ## One merge -/

theorem coarser_addEdge (g : Egraph) (e : Edge) : Coarser g (g.addEdge e) :=
  ⟨rfl, rfl, id, undoes_addEdge g e, rfl, rfl, rfl, rfl⟩

theorem Tables.addEdge (ht : g.Tables) (e : Edge) : (g.addEdge e).Tables where
  size_next := ht.size_next
  size_parents := ht.size_parents
  size_adj := by
    show ((g.classes.adj.modify e.a _).modify e.b _).size = g.known
    rw [Array.size_modify, Array.size_modify]
    exact ht.size_adj
  known_le := ht.known_le
  root_lt := ht.root_lt
  root_root := ht.root_root
  ring := ht.ring
  parent := ht.parent
  parent_lt := ht.parent_lt

/-- What merging along `e` leads from `g` to, when the class of `small` becomes part of the
class of `big`. -/
structure Merged (g : Egraph) (e : Edge) (small big : Nat) (found : List Edge) (g' : Egraph) :
    Prop where
  coarser : Coarser g g'
  root : ∀ n, g'.root n = if g.root n = small then big else g.root n
  tables : g'.Tables
  edges : g'.classes.edges = g.classes.edges.push e
  adj : g'.classes.adj =
    (g.classes.adj.modify e.a (·.push g.classes.edges.size)).modify e.b
      (·.push g.classes.edges.size)
  size : g'.classes.size = g.classes.size.modify big (· + g.classes.size.getD small 0)
  parents : g'.classes.parents = g.classes.parents.modify big (· ++ g.parentsOf small)
  sound : g'.SigsSound
  kept : ∀ {key : Signature} {q : Nat}, g.classes.sigs[key]? = some q → q ∉ g.parentsOf small →
    g'.classes.sigs[key]? = some q
  entered : ∀ {p key}, p ∈ g.parentsOf small → g'.signature? p = some key →
    ∃ q, g'.classes.sigs[key]? = some q ∧ (g'.root p = g'.root q ∨ ⟨p, q, .congruence p q⟩ ∈ found)
  new : ∀ e ∈ found, ∃ p q, e = ⟨p, q, .congruence p q⟩ ∧ p < g'.known ∧ q < g'.known ∧ g'.Alike p q

/-- An application that has no argument in the class of `small` keeps its signature. -/
theorem signature?_of_not_parent (ht : g.Tables) (hsame : SameNodes g g')
    (hroot : ∀ n, g'.root n = if g.root n = small then big else g.root n) (hn : n < g.known)
    (hparent : n ∉ g.parentsOf small) : g'.signature? n = g.signature? n := by
  have hargs : (g.node n).args.map g'.root = (g.node n).args.map g.root := by
    refine List.map_congr_left fun a ha => ?_
    rw [hroot, if_neg]
    intro heq
    exact hparent (heq ▸ ht.parent hn ha)
  rw [signature?, signature?, hsame.node_eq, hargs]

/-- The steps of a merge, in which either class may become part of the other one. -/
theorem exists_merge_eq (hs : g.SigsSound) (hne : g.root e.a ≠ g.root e.b) : ∃ small big,
    (small = g.root e.a ∧ big = g.root e.b ∨ small = g.root e.b ∧ big = g.root e.a) ∧
      g.merge e = enterSigs (g.parentsOf small).toList []
        (((g.parentsOf small).toList.foldl eraseSig (g.addEdge e)).joined small big) := by
  have hparents (small : Nat) :
      g.parentsOf small = ((g.parentsOf small).toList.foldl eraseSig (g.addEdge e)).parentsOf
        small := by
    have hs₁ : (g.addEdge e).SigsSound := hs
    obtain ⟨sigs, undo, heq⟩ := (eraseSigs_spec hs₁ (g.parentsOf small).toList).1.eq_with
    rw [heq]
    rfl
  unfold merge
  simp only [if_neg hne]
  by_cases hsize : (g.addEdge e).classes.size.getD (g.root e.a) 0 ≤ (g.addEdge e).classes.size.getD
    (g.root e.b) 0
  · refine ⟨_, _, .inl ⟨rfl, rfl⟩, ?_⟩
    rw [if_pos hsize, joined, ← hparents]
    rfl
  · refine ⟨_, _, .inr ⟨rfl, rfl⟩, ?_⟩
    rw [if_neg hsize, joined, ← hparents]
    rfl

/-- A merge along an edge between two classes joins the smaller into the larger, and records the
edge. -/
theorem merge_spec (ht : g.Tables) (hs : g.SigsSound) (hv : e.Valid g)
    (hne : g.root e.a ≠ g.root e.b) :
    ∃ small big, g.Apart small big ∧ (small = g.root e.a ∧ big = g.root e.b ∨ small = g.root e.b ∧
      big = g.root e.a) ∧
      g.Merged e small big (g.merge e).1 (g.merge e).2 := by
  obtain ⟨small, big, hends, hmerge⟩ := exists_merge_eq hs hne
  have hapart : g.Apart small big := by
    rcases hends with ⟨rfl, rfl⟩ | ⟨rfl, rfl⟩
    · exact ⟨ht.root_lt hv.a_lt, ht.root_lt hv.b_lt, ht.root_root _, ht.root_root _, hne⟩
    · exact ⟨ht.root_lt hv.b_lt, ht.root_lt hv.a_lt, ht.root_root _, ht.root_root _, hne.symm⟩
  refine ⟨small, big, hapart, hends, ?_⟩
  have hs₁ : (g.addEdge e).SigsSound := hs
  -- the merge in its four steps: the edge, the old signatures out, the classes joined, the new
  -- signatures in
  obtain ⟨honly, hsigs⟩ := eraseSigs_spec hs₁ (g.parentsOf small).toList
  rw [hmerge]
  generalize (g.parentsOf small).toList.foldl eraseSig (g.addEdge e) = g₂ at honly hsigs
  have ht₂ : g₂.Tables := honly.sameTables.tables (ht.addEdge e)
  have hknown₂ : g₂.known = g.known := honly.sameTables.known_eq
  have hroot₂ : g₂.root = g.root := honly.sameTables.root_eq
  have hapart₂ : g₂.Apart small big :=
    ⟨hknown₂ ▸ hapart.small_lt, hknown₂ ▸ hapart.big_lt, hroot₂ ▸ hapart.root_small,
      hroot₂ ▸ hapart.root_big,
      hapart.ne⟩
  have hcoarser₃ : Coarser g (g₂.joined small big) :=
    ((coarser_addEdge g e).trans honly.coarser).trans (coarser_joined ht₂ hapart₂)
  have hroot₃ (n : Nat) : (g₂.joined small big).root n = if g.root n = small then big
      else g.root n := by
    rw [root_joined ht₂ hapart₂, hroot₂]
  have hfields : (g₂.joined small big).classes.edges = (g.addEdge e).classes.edges ∧
      (g₂.joined small big).classes.adj = (g.addEdge e).classes.adj ∧
      (g₂.joined small big).classes.sigs = g₂.classes.sigs :=
    ⟨honly.sameTables.edges, honly.sameTables.adj, rfl⟩
  have hlists₃ : (g₂.joined small big).classes.size = g.classes.size.modify big
    (· + g.classes.size.getD small 0) ∧
      (g₂.joined small big).classes.parents = g.classes.parents.modify big
        (· ++ g.parentsOf small) := by
    obtain ⟨sigs, undo, rfl⟩ := honly.eq_with
    exact ⟨rfl, rfl⟩
  have hsound₃ : (g₂.joined small big).SigsSound := by
    intro key q hq
    rw [hfields.2.2] at hq
    obtain ⟨hold, hnot⟩ := hsigs.mp hq
    obtain ⟨hlt, hkey⟩ := hs hold
    refine ⟨hcoarser₃.known ▸ hlt, ?_⟩
    rwa [signature?_of_not_parent ht hcoarser₃.sameNodes hroot₃ hlt (by simpa using hnot)]
  have hps : ∀ p ∈ (g.parentsOf small).toList, p < (g₂.joined small big).known := fun p hp => by
    rw [hcoarser₃.known]
    exact ht.parent_lt (Array.mem_toList_iff.mp hp)
  have hentered := enterSigs_spec hsound₃ hps []
  generalize enterSigs (g.parentsOf small).toList [] (g₂.joined small big) = r at hentered
  have hroot₄ := hentered.only.sameTables.root_eq
  have hknown₄ := hentered.only.sameTables.known_eq
  exact {
    coarser := hcoarser₃.trans hentered.only.coarser
    root := fun n => by rw [hroot₄, hroot₃]
    tables := hentered.only.sameTables.tables (ht₂.joined hapart₂)
    edges := hentered.only.sameTables.edges.trans hfields.1
    adj := hentered.only.sameTables.adj.trans hfields.2.1
    size := hentered.only.size_eq.trans hlists₃.1
    parents := hentered.only.sameTables.parents.trans hlists₃.2
    sound := hentered.sound
    kept := fun {key q} hq hnot => by
      refine hentered.kept ?_
      rw [hfields.2.2]
      exact hsigs.mpr ⟨hq, by simpa using hnot⟩
    entered := fun {p key} hp hkey => by
      rw [hroot₄]
      rw [hentered.only.sameTables.signature?_eq] at hkey
      exact hentered.entered (Array.mem_toList_iff.mpr hp) hkey
    new := fun e he => by
      obtain ⟨p, q, heq, hp, hq, hpq⟩ := (hentered.new e he).resolve_left List.not_mem_nil
      refine ⟨p, q, heq, hknown₄ ▸ hp, hknown₄ ▸ hq, ?_⟩
      rwa [Alike, hentered.only.sameTables.signature?_eq, hentered.only.sameTables.signature?_eq] }

end Entail.Egraph
