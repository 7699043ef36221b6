import Entail.Egraph.Merge
import Mathlib.Data.List.Nodup
import Mathlib.Data.List.Perm.Subperm
import Mathlib.Tactic.Common
import Std.Data.HashMap

/-!
# Taking changes back

Every change to the classes is logged, and taking back the last entry of the log undoes it, up to
the order of the signature table. So the classes at an earlier moment come back when the log is
taken back to its length at that moment.
-/

/-!
## Rings

The members of a class form a ring. Exchanging the successors of two members joins their rings when
these are different and splits the ring when it is one, so exchanging them twice changes nothing.
-/

namespace Entail.Egraph

/-- From `a` one comes to `b` through the nodes of a list. -/
def Leads (next : Array Nat) : (a : Nat) → List Nat → (b : Nat) → Prop
  | a, [], b => next[a]? = some b
  | a, x :: l, b => next[a]? = some x ∧ Leads next x l b

/-- From `r` one comes through the nodes of a list back to `r`, and to no node twice. -/
structure IsRing (next : Array Nat) (r : Nat) (l : List Nat) : Prop where
  leads : Leads next r l r
  nodup : (r :: l).Nodup

/-- Exchanges the successors of two nodes. -/
def swap (next : Array Nat) (a b : Nat) : Array Nat :=
  (next.setIfInBounds a (next.getD b b)).setIfInBounds b (next.getD a a)

variable {next next' : Array Nat} {a a' b c r bound d : Nat} {l la lb : List Nat}

/-! ## Following successors -/

theorem Leads.of_agree (h : Leads next a l b) (hstart : next'[a']? = next[a]?)
    (hagree : ∀ x ∈ l, next'[x]? = next[x]?) : Leads next' a' l b := by
  induction l generalizing a a' with
  | nil => exact hstart.trans h
  | cons x l ih =>
    refine ⟨hstart.trans h.1, ih h.2 (hagree x List.mem_cons_self) fun y hy => ?_⟩
    exact hagree y (List.mem_cons_of_mem x hy)

theorem Leads.append (h : Leads next a la b) (h' : Leads next b lb c) :
    Leads next a (la ++ b :: lb) c := by
  induction la generalizing a with
  | nil => exact ⟨h, h'⟩
  | cons x la ih => exact ⟨h.1, ih h.2⟩

theorem Leads.split (h : Leads next a (la ++ b :: lb) c) :
    Leads next a la b ∧ Leads next b lb c := by
  induction la generalizing a with
  | nil => exact h
  | cons x la ih =>
    obtain ⟨hx, hrest⟩ := h
    exact ⟨⟨hx, (ih hrest).1⟩, (ih hrest).2⟩

theorem Leads.lt_size (h : Leads next a l b) {x : Nat} (hx : x ∈ a :: l) : x < next.size := by
  induction l generalizing a with
  | nil =>
    have heq : x = a := by simpa using hx
    rw [heq]
    exact (Array.getElem?_eq_some_iff.mp h).1
  | cons y l ih =>
    rcases List.mem_cons.mp hx with rfl | hx
    · exact (Array.getElem?_eq_some_iff.mp h.1).1
    · exact ih h.2 hx

theorem Leads.ringFrom_eq (h : Leads next a l b) (hb : b ∉ l) (hlen : l.length ≤ bound) :
    ringFrom next b bound (next.getD a d) = l := by
  induction l generalizing a bound d with
  | nil =>
    have hend : next.getD a d = b := by
      have hnext : next[a]? = some b := h
      rw [Array.getD_eq_getD_getElem?, hnext, Option.getD_some]
    rw [hend]
    cases bound with
    | zero => rfl
    | succ bound => simp [ringFrom]
  | cons x l ih =>
    have hstep : next.getD a d = x := by
      rw [Array.getD_eq_getD_getElem?, h.1, Option.getD_some]
    obtain ⟨hx, hl⟩ : b ≠ x ∧ b ∉ l := by simpa using hb
    cases bound with
    | zero => simp at hlen
    | succ bound =>
      rw [hstep, ringFrom, if_neg (Ne.symm hx)]
      exact congrArg (x :: ·) (ih h.2 hl (Nat.le_of_succ_le_succ hlen))

/-- Different numbers below a bound are at most as many as the bound. -/
theorem length_le_of_nodup (hnodup : l.Nodup) (hlt : ∀ x ∈ l, x < bound) : l.length ≤ bound := by
  have hsub : l ⊆ List.range bound := fun x hx => List.mem_range.mpr (hlt x hx)
  have hlen := (List.subperm_of_subset hnodup hsub).length_le
  rwa [List.length_range] at hlen

theorem IsRing.length_le (h : IsRing next r l) : l.length ≤ next.size := by
  have hlen := length_le_of_nodup h.nodup fun x hx => h.leads.lt_size hx
  exact Nat.le_trans (Nat.le_succ _) hlen

/-- Following the ring finds its members. -/
theorem IsRing.ring_eq {g : Egraph} (h : IsRing g.classes.next r l) : g.ring r = r :: l := by
  unfold ring
  exact congrArg (r :: ·) (h.leads.ringFrom_eq (List.nodup_cons.mp h.nodup).1 h.length_le)

theorem isRing_singleton (h : next[r]? = some r) : IsRing next r [] := ⟨h, List.nodup_singleton r⟩

/-- A ring may be followed from any of its members. -/
theorem IsRing.rotate (h : IsRing next r l) (hb : b ∈ r :: l) :
    ∃ l', IsRing next b l' ∧ (b :: l').Perm (r :: l) := by
  rcases List.mem_cons.mp hb with rfl | hb
  · exact ⟨l, h, .refl _⟩
  · obtain ⟨la, lb, rfl⟩ := List.append_of_mem hb
    obtain ⟨hfirst, hsecond⟩ := h.leads.split
    have hperm : ((b :: lb) ++ (r :: la)).Perm ((r :: la) ++ (b :: lb)) := List.perm_append_comm
    exact ⟨lb ++ r :: la, ⟨hsecond.append hfirst, hperm.nodup_iff.mpr h.nodup⟩, hperm⟩

/-! ## Exchanging successors -/

@[simp] theorem size_swap (next : Array Nat) (a b : Nat) : (swap next a b).size = next.size := by
  simp [swap]

theorem getElem?_swap (ha : a < next.size) (hb : b < next.size) (x : Nat) :
    (swap next a b)[x]? = if x = b then next[a]? else if x = a then next[b]? else next[x]? := by
  have hnexta : next[a]? = some (next.getD a a) := by simp [ha]
  have hnextb : next[b]? = some (next.getD b b) := by simp [hb]
  rw [swap, Array.getElem?_setIfInBounds, Array.getElem?_setIfInBounds, hnexta, hnextb]
  simp only [Array.size_setIfInBounds, ha, hb, if_true]
  simp only [eq_comm]

theorem swap_swap (hne : a ≠ b) (ha : a < next.size) (hb : b < next.size) :
    swap (swap next a b) a b = next := by
  have ha' : a < (swap next a b).size := by rwa [size_swap]
  have hb' : b < (swap next a b).size := by rwa [size_swap]
  refine Array.ext_getElem? fun x => ?_
  rw [getElem?_swap ha' hb', getElem?_swap ha hb, getElem?_swap ha hb, getElem?_swap ha hb]
  by_cases hxb : x = b
  · subst hxb
    simp [hne]
  · by_cases hxa : x = a
    · subst hxa
      simp [hne]
    · simp [hxa, hxb]

/-- Two rings become one, which runs through the first ring right after the start of the
second one. -/
theorem IsRing.join (ha : IsRing next a la) (hb : IsRing next b lb)
    (hdisj : ∀ x ∈ a :: la, x ∉ b :: lb) :
    IsRing (swap next a b) b (la ++ a :: lb) := by
  have hsa : a < next.size := ha.leads.lt_size List.mem_cons_self
  have hsb : b < next.size := hb.leads.lt_size List.mem_cons_self
  have hne : a ≠ b := fun heq => hdisj a List.mem_cons_self (heq ▸ List.mem_cons_self)
  have hna := (List.nodup_cons.mp ha.nodup)
  have hnb := (List.nodup_cons.mp hb.nodup)
  have hfirst : Leads (swap next a b) b la a := by
    refine ha.leads.of_agree ?_ fun x hx => ?_
    · rw [getElem?_swap hsa hsb, if_pos rfl]
    · have hxb : x ≠ b := fun heq => hdisj x (List.mem_cons_of_mem a hx) (heq ▸ List.mem_cons_self)
      have hxa : x ≠ a := fun heq => hna.1 (heq ▸ hx)
      rw [getElem?_swap hsa hsb, if_neg hxb, if_neg hxa]
  have hsecond : Leads (swap next a b) a lb b := by
    refine hb.leads.of_agree ?_ fun x hx => ?_
    · rw [getElem?_swap hsa hsb, if_neg hne, if_pos rfl]
    · have hxb : x ≠ b := fun heq => hnb.1 (heq ▸ hx)
      have hxa : x ≠ a := fun heq => hdisj a List.mem_cons_self (heq ▸ List.mem_cons_of_mem b hx)
      rw [getElem?_swap hsa hsb, if_neg hxb, if_neg hxa]
  refine ⟨hfirst.append hsecond, ?_⟩
  have hperm : (b :: (la ++ a :: lb)).Perm ((a :: la) ++ (b :: lb)) := by
    have hmove : (la ++ a :: lb).Perm (a :: la ++ lb) := List.perm_middle
    exact (hmove.cons b).trans List.perm_middle.symm
  rw [hperm.nodup_iff]
  exact List.nodup_append.mpr ⟨ha.nodup, hb.nodup, fun x hx y hy heq => hdisj x hx (heq ▸ hy)⟩

/-- A ring without the two nodes stays as it is. -/
theorem IsRing.swap_other (h : IsRing next r l) (hsa : a < next.size) (hsb : b < next.size)
    (ha : a ∉ r :: l) (hb : b ∉ r :: l) : IsRing (swap next a b) r l := by
  have hagree (x : Nat) (hx : x ∈ r :: l) : (swap next a b)[x]? = next[x]? := by
    have hxa : x ≠ a := fun heq => ha (heq ▸ hx)
    have hxb : x ≠ b := fun heq => hb (heq ▸ hx)
    rw [getElem?_swap hsa hsb, if_neg hxb, if_neg hxa]
  refine ⟨h.leads.of_agree (hagree r List.mem_cons_self) fun x hx => ?_, h.nodup⟩
  exact hagree x (List.mem_cons_of_mem r hx)

/-- A ring stays when nodes are added after the others. -/
theorem IsRing.push (h : IsRing next r l) (x : Nat) : IsRing (next.push x) r l := by
  have hagree (y : Nat) (hy : y ∈ r :: l) : (next.push x)[y]? = next[y]? := by
    rw [Array.getElem?_push, if_neg (Nat.ne_of_lt (h.leads.lt_size hy))]
  refine ⟨h.leads.of_agree (hagree r List.mem_cons_self) fun y hy => ?_, h.nodup⟩
  exact hagree y (List.mem_cons_of_mem r hy)

end Entail.Egraph

namespace Entail.Egraph

/-- Classes that agree in what the log is about. -/
structure Classes.Same (k k' : Classes) : Prop where
  root : k.root = k'.root
  next : k.next = k'.next
  size : k.size = k'.size
  parents : k.parents = k'.parents
  sigs : ∀ key : Signature, k.sigs[key]? = k'.sigs[key]?
  edges : k.edges = k'.edges
  adj : k.adj = k'.adj
  diseqs : k.diseqs = k'.diseqs
  undo : k.undo = k'.undo

namespace Classes.Same

variable {k k' k'' : Classes}

theorem refl (k : Classes) : k.Same k := ⟨rfl, rfl, rfl, rfl, fun _ => rfl, rfl, rfl, rfl, rfl⟩

theorem of_eq (h : k = k') : k.Same k' := h ▸ refl k

theorem trans (h : k.Same k') (h' : k'.Same k'') : k.Same k'' :=
  ⟨h.root.trans h'.root, h.next.trans h'.next, h.size.trans h'.size, h.parents.trans h'.parents,
    fun key => (h.sigs key).trans (h'.sigs key), h.edges.trans h'.edges, h.adj.trans h'.adj,
    h.diseqs.trans h'.diseqs, h.undo.trans h'.undo⟩

/-- The classes are those of `k'` with another signature table and other records of the search. -/
theorem eq_with (h : k.Same k') :
    k = { k' with sigs := k.sigs, pending := k.pending, levels := k.levels, processed := k.processed
      } := by
  cases k
  cases k'
  obtain ⟨rfl, rfl, rfl, rfl, -, rfl, rfl, rfl, rfl⟩ := h
  rfl

theorem splitRings (h : k.Same k') (small big numParents : Nat) :
    (splitRings k small big numParents).Same (splitRings k' small big numParents) := by
  rw [h.eq_with]
  exact ⟨rfl, rfl, rfl, rfl, h.sigs, rfl, rfl, rfl, rfl⟩

theorem revert (h : k.Same k') (u : Undo) : (revert k u).Same (revert k' u) := by
  cases u with
  | merge small big numParents => exact h.splitRings small big numParents
  | edge =>
    unfold Egraph.revert
    simp only [h.edges]
    split
    · exact h
    · exact { h with edges := rfl, adj := by simp only [h.adj] }
  | diseq => exact { h with diseqs := congrArg Array.pop h.diseqs }
  | sigInsert key =>
    refine { h with sigs := fun other => ?_ }
    show (k.sigs.erase key)[other]? = (k'.sigs.erase key)[other]?
    rw [Std.HashMap.getElem?_erase, Std.HashMap.getElem?_erase, h.sigs]
  | sigErase key n =>
    refine { h with sigs := fun other => ?_ }
    show (k.sigs.insert key n)[other]? = (k'.sigs.insert key n)[other]?
    rw [Std.HashMap.getElem?_insert, Std.HashMap.getElem?_insert, h.sigs]

theorem undoLast (h : k.Same k') (n : Nat) : (undoLast n k).Same (undoLast n k') := by
  induction n generalizing k k' with
  | zero => exact h
  | succ n ih =>
    unfold Egraph.undoLast
    simp only [h.undo]
    split
    · exact h
    next u _ =>
      have hpop : { k with undo := k'.undo.pop }.Same { k' with undo := k'.undo.pop } :=
        { h with undo := rfl }
      exact ih (hpop.revert u)

end Classes.Same

/-! ## Going back to earlier classes -/

/-- Taking back what was logged since leads from `k'` back to `k`. -/
def Undoes (k k' : Classes) : Prop := ∃ n, k'.undo.size = k.undo.size + n ∧ (undoLast n k').Same k

variable {k k' k'' : Classes}

theorem undoLast_add (m n : Nat) (k : Classes) :
    undoLast (m + n) k = undoLast n (undoLast m k) := by
  induction m generalizing k with
  | zero => rw [Nat.zero_add, undoLast]
  | succ m ih =>
    rw [Nat.succ_add]
    cases hback : k.undo.back? with
    | none =>
      have hstop (n : Nat) : undoLast n k = k := by
        cases n with
        | zero => rfl
        | succ n => simp only [undoLast, hback]
      rw [hstop, hstop, hstop]
    | some u =>
      simp only [undoLast, hback]
      exact ih _

theorem Undoes.of_same (h : k'.Same k) : Undoes k k' := ⟨0, by rw [h.undo, Nat.add_zero], h⟩

theorem Undoes.refl (k : Classes) : Undoes k k := .of_same (.refl k)

theorem Undoes.trans (h : Undoes k k') (h' : Undoes k' k'') : Undoes k k'' := by
  obtain ⟨m, hm, hsame⟩ := h
  obtain ⟨n, hn, hsame'⟩ := h'
  refine ⟨n + m, by omega, ?_⟩
  rw [undoLast_add]
  exact (hsame'.undoLast m).trans hsame

/-- A change that was logged is taken back by reverting it. -/
theorem Undoes.of_revert {u : Undo} (hundo : k'.undo = k.undo.push u)
    (h : (revert { k' with undo := k.undo } u).Same k) : Undoes k k' := by
  refine ⟨1, by rw [hundo, Array.size_push], ?_⟩
  have hback : k'.undo.back? = some u := by rw [hundo, Array.back?_push]
  simp only [undoLast, hback]
  rwa [hundo, Array.pop_push]

/-- Going back to the length of the log at an earlier moment brings its classes back. -/
theorem Undoes.undoLast (h : Undoes k k') : (undoLast (k'.undo.size - k.undo.size) k').Same k := by
  obtain ⟨n, hn, hsame⟩ := h
  rwa [hn, Nat.add_sub_cancel_left]

/-- What the search records besides the classes does not matter. -/
theorem Undoes.of_records (h : Undoes k k') (pending : List Edge) (levels : Array (Nat × Nat))
    (processed : Nat) :
    Undoes k { k' with pending, levels, processed } :=
  h.trans (.of_same ⟨rfl, rfl, rfl, rfl, fun _ => rfl, rfl, rfl, rfl, rfl⟩)

/-! ## Single changes -/

theorem undoes_addEdge (g : Egraph) (e : Edge) : Undoes g.classes (g.addEdge e).classes := by
  refine .of_revert (u := .edge) rfl ?_
  have hback : (g.classes.edges.push e).back? = some e := Array.back?_push
  have hadj : ((((g.classes.adj.modify e.a (·.push g.classes.edges.size)).modify e.b
      (·.push g.classes.edges.size)).modify e.a (·.pop)).modify e.b (·.pop)) = g.classes.adj := by
    refine Array.ext_getElem? fun n => ?_
    simp only [Array.getElem?_modify]
    cases g.classes.adj[n]? with
    | none => simp
    | some is => by_cases ha : e.a = n <;> by_cases hb : e.b = n <;> simp [ha, hb]
  simp only [addEdge, log, modifyClasses, revert, hback, hadj, Array.pop_push]
  exact .refl _

theorem undoes_eraseSig (g : Egraph) (p : Nat) : Undoes g.classes (g.eraseSig p).classes := by
  unfold eraseSig
  split
  · exact .refl _
  next key hkey =>
    split
    next hfound =>
      refine .of_revert (u := .sigErase key p) rfl
        { Classes.Same.refl g.classes with sigs := fun other => ?_ }
      show ((g.classes.sigs.erase key).insert key p)[other]? = _
      rw [Std.HashMap.getElem?_insert, Std.HashMap.getElem?_erase]
      by_cases hother : key = other
      · subst hother
        simp [hfound]
      · simp [hother]
    · exact .refl _

theorem undoes_enterSig (g : Egraph) (p : Nat) : Undoes g.classes (g.enterSig p).2.classes := by
  unfold enterSig
  split
  · exact .refl _
  next key hkey =>
    split
    · exact .refl _
    next hnone =>
      refine .of_revert (u := .sigInsert key) rfl
        { Classes.Same.refl g.classes with sigs := fun other => ?_ }
      show ((g.classes.sigs.insert key p).erase key)[other]? = _
      rw [Std.HashMap.getElem?_erase, Std.HashMap.getElem?_insert]
      by_cases hother : key = other
      · subst hother
        simp [hnone]
      · simp [hother]

theorem getElem?_foldl_set (members : List Nat) (v : Nat) (root : Array Nat) (i : Nat) :
    (members.foldl (fun root n => root.setIfInBounds n v) root)[i]? =
      if i ∈ members ∧ i < root.size then some v else root[i]? := by
  induction members generalizing root with
  | nil => simp
  | cons n members ih =>
    rw [List.foldl_cons, ih, Array.getElem?_setIfInBounds, Array.size_setIfInBounds]
    by_cases hin : i < root.size
    · by_cases hmem : i ∈ members
      · simp [hmem, hin]
      · by_cases hn : n = i
        · subst hn
          simp [hin]
        · simp [hmem, hn, Ne.symm hn]
    · have hnone : root[i]? = none := Array.getElem?_eq_none (Nat.le_of_not_lt hin)
      by_cases hn : n = i
      · subst hn
        simp [hin]
      · simp [hin, hn]

theorem size_foldl_set (members : List Nat) (v : Nat) (root : Array Nat) :
    (members.foldl (fun root n => root.setIfInBounds n v) root).size = root.size := by
  induction members generalizing root with
  | nil => rfl
  | cons n members ih => rw [List.foldl_cons, ih, Array.size_setIfInBounds]

theorem joinRings_eq (k : Classes) (members : List Nat) (small big : Nat) (moved : Array Nat) :
    joinRings k members small big moved =
      { k with
        root := members.foldl (fun root n => root.setIfInBounds n big) k.root
        next := swap k.next small big
        size := k.size.modify big (· + k.size.getD small 0)
        parents := k.parents.modify big (· ++ moved) } := rfl

theorem splitRings_eq (k : Classes) (small big numParents : Nat) :
    splitRings k small big numParents =
      { k with
        root := (small :: ringFrom (swap k.next small big) small (swap k.next small big).size
          ((swap k.next small big).getD small small)).foldl (fun root n =>
            root.setIfInBounds n small) k.root
        next := swap k.next small big
        size := k.size.modify big (· - k.size.getD small 0)
        parents := k.parents.modify big (·.shrink numParents) } := rfl

/-- Splitting brings back what joining two rings changed. -/
theorem splitRings_joinRings {k : Classes} {members : List Nat} {small big : Nat}
    (moved : Array Nat) (hne : small ≠ big) (hs : small < k.next.size) (hb : big < k.next.size)
    (hmembers : members = small :: ringFrom k.next small k.next.size (k.next.getD small small))
    (hroot : ∀ n ∈ members, k.root[n]? = some small) :
    splitRings (joinRings k members small big moved) small big (k.parents.getD big #[]).size =
      k := by
  have hsize : (k.size.modify big (· + k.size.getD small 0)).getD small 0 =
      k.size.getD small 0 := by
    simp [Array.getD_eq_getD_getElem?, Array.getElem?_modify, Ne.symm hne]
  have hnext : swap (swap k.next small big) small big = k.next := swap_swap hne hs hb
  have hroots : members.foldl (fun root n => root.setIfInBounds n small)
      (members.foldl (fun root n => root.setIfInBounds n big) k.root) = k.root := by
    refine Array.ext_getElem? fun n => ?_
    rw [getElem?_foldl_set]
    split
    next h => exact (hroot n h.1).symm
    next h =>
      rw [getElem?_foldl_set, if_neg fun h' => h ⟨h'.1, ?_⟩]
      exact (Array.getElem?_eq_some_iff.mp (getElem?_foldl_set members big k.root n ▸ if_pos h')).1
  have hsizes : (k.size.modify big (· + k.size.getD small 0)).modify big (· - k.size.getD small 0) =
      k.size := by
    refine Array.ext_getElem? fun n => ?_
    simp only [Array.getElem?_modify]
    cases k.size[n]? <;> by_cases hn : big = n <;> simp [hn]
  have hparents : (k.parents.modify big (· ++ moved)).modify big
    (·.shrink (k.parents.getD big #[]).size) =
      k.parents := by
    refine Array.ext_getElem? fun n => ?_
    simp only [Array.getElem?_modify]
    by_cases hn : big = n
    · subst hn
      rw [Array.getD_eq_getD_getElem?]
      cases k.parents[big]? <;> simp
    · simp [hn]
  rw [joinRings_eq, splitRings_eq]
  simp only [hsize, hnext, ← hmembers, hroots, hsizes, hparents]

end Entail.Egraph
