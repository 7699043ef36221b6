import Entail.Proofs.Egraph.Reached
import Mathlib.Data.Finset.Max
import Mathlib.Data.List.Chain
import Mathlib.Logic.Relation

/-!
# The order of the equalities

An equality is recorded only when its sides are not connected yet, so earlier edges never connect
them, and an equality by congruence comes after what connects the arguments. A path that never takes
an edge twice in a row therefore crosses its latest edge once, and no earlier edges connect its
ends. So the pairs of arguments that an explanation needs are connected by earlier edges than the
pair that it is for, whatever was taken back in between.
-/

namespace Entail.Egraph

/-- Edges with numbers below `i` connect two nodes. -/
def Connected (k : Classes) (i : Nat) : Nat → Nat → Prop :=
  Relation.EqvGen fun x y => ∃ j < i, ∃ e, k.edges[j]? = some e ∧ e.a = x ∧ e.b = y

/-- Edge `i` has a reason that is there before it, and connects what was not connected. -/
structure Edge.Ordered (g : Egraph) (lits : List Literal) (i : Nat) (e : Edge) : Prop where
  grounded : e.Grounded g lits
  fresh : ¬ Connected g.classes i e.a e.b
  earlier : ∀ {p q}, e.reason = .congruence p q →
    ∀ xy ∈ (g.node p).args.zip (g.node q).args, Connected g.classes i xy.1 xy.2

/-- The edges are in the order in which they were found. -/
def Ordered (g : Egraph) (lits : List Literal) : Prop :=
  ∀ {i : Nat} {e : Edge}, g.classes.edges[i]? = some e → e.Ordered g lits i

variable {g g' : Egraph} {k k' : Classes} {lits lits' done : List Literal} {e : Edge}
  {rest found : List Edge}
  {is : List Nat} {a b c i j m n target bound small big : Nat} {via : Option Nat}

/-! ## Connections -/

namespace Connected

theorem refl (k : Classes) (i a : Nat) : Connected k i a a := Relation.EqvGen.refl a

theorem symm (h : Connected k i a b) : Connected k i b a := Relation.EqvGen.symm _ _ h

theorem trans (h : Connected k i a b) (h' : Connected k i b c) : Connected k i a c :=
  Relation.EqvGen.trans _ _ _ h h'

theorem of_edge (he : k.edges[j]? = some e) (hj : j < i) : Connected k i e.a e.b :=
  .rel _ _ ⟨j, hj, e, he, rfl, rfl⟩

/-- Only the edges below the bound matter. -/
theorem of_edges (h : Connected k i a b) (hij : i ≤ j)
    (hedges : ∀ {n : Nat} {e : Edge}, n < i → k.edges[n]? = some e → k'.edges[n]? = some e) :
    Connected k' j a b := by
  refine Relation.EqvGen.mono ?_ _ _ h
  rintro x y ⟨n, hn, e, he, hxy⟩
  exact ⟨n, Nat.lt_of_lt_of_le hn hij, e, hedges hn he, hxy⟩

theorem mono (h : Connected k i a b) (hij : i ≤ j) : Connected k j a b :=
  h.of_edges hij fun _ he => he

/-- Edges connect nodes of one class. -/
theorem root_eq (hf : g.Forest) (h : Connected g.classes i a b) : g.root a = g.root b := by
  induction h with
  | rel x y hxy =>
    obtain ⟨j, -, e, he, rfl, rfl⟩ := hxy
    exact (hf.valid he).2
  | refl => rfl
  | symm _ _ _ ih => exact ih.symm
  | trans _ _ _ _ _ ih₁ ih₂ => exact ih₁.trans ih₂

end Connected

/-- A walk leaves a node by an edge of this node, to the other end. -/
theorem Walk.cases_cons (hf : g.Forest) (h : Walk g.classes a (i :: is) b) :
    ∃ e c, g.classes.edges[i]? = some e ∧
    (e.a = a ∧ e.b = c ∨ e.b = a ∧ e.a = c) ∧ Walk g.classes c is b := by
  obtain ⟨hi, e, he, hrest⟩ := h
  obtain ⟨e', he', hend⟩ := hf.ends hi
  obtain rfl : e = e' := Option.some.inj (he.symm.trans he')
  refine ⟨e, _, he, ?_, hrest⟩
  by_cases ha : e.a = a
  · exact .inl ⟨ha, (if_pos ha).symm⟩
  · exact .inr ⟨hend.resolve_left ha, (if_neg ha).symm⟩

theorem Walk.split {js : List Nat} (h : Walk k a (is ++ js) b) :
    ∃ c, Walk k a is c ∧ Walk k c js b := by
  induction is generalizing a with
  | nil => exact ⟨a, rfl, h⟩
  | cons i is ih =>
    obtain ⟨hi, e, he, hrest⟩ := h
    obtain ⟨c, hfirst, hsecond⟩ := ih hrest
    exact ⟨c, ⟨hi, e, he, hfirst⟩, hsecond⟩

theorem Walk.connected (hf : g.Forest) (h : Walk g.classes a is b) (hlt : ∀ j ∈ is, j < i) :
    Connected g.classes i a b := by
  induction is generalizing a with
  | nil =>
    obtain rfl : a = b := h
    exact .refl _ _ _
  | cons j is ih =>
    obtain ⟨e, c, he, hends, hrest⟩ := h.cases_cons hf
    have hedge := Connected.of_edge he (hlt j List.mem_cons_self)
    have hstep : Connected g.classes i a c := by
      rcases hends with ⟨rfl, rfl⟩ | ⟨rfl, rfl⟩
      · exact hedge
      · exact hedge.symm
    exact hstep.trans (ih hrest fun j hj => hlt j (List.mem_cons_of_mem _ hj))

/-- The edges connect the nodes of a class. -/
theorem Forest.connected (hf : g.Forest) (ha : a < g.known) (hb : b < g.known)
    (hab : g.root a = g.root b) :
    Connected g.classes g.classes.edges.size a b := by
  obtain ⟨is, hwalk, -⟩ := hf.walk ha hb hab
  exact hwalk.connected hf hwalk.lt_size

/-! ## Every change keeps the order -/

theorem Edge.Ordered.of_sameNodes (h : e.Ordered g lits i) (hsame : SameNodes g g')
    (hedges : ∀ j < i, g'.classes.edges[j]? = g.classes.edges[j]?) : e.Ordered g' lits i where
  grounded := h.grounded.of_sameNodes hsame
  fresh hc := h.fresh (hc.of_edges (Nat.le_refl i) fun hn he => (hedges _ hn).symm.trans he)
  earlier {p q} hr := by
    rw [hsame.node_eq, hsame.node_eq]
    intro xy hxy
    exact (h.earlier hr xy hxy).of_edges (Nat.le_refl i) fun hn he => (hedges _ hn).trans he

namespace Ordered

theorem of_sameNodes (h : Ordered g lits) (hsame : SameNodes g g')
    (hedges : g'.classes.edges = g.classes.edges) :
    Ordered g' lits := by
  intro i e he
  rw [hedges] at he
  exact (h he).of_sameNodes hsame fun j _ => by rw [hedges]

theorem mono (h : Ordered g lits) (hsub : lits ⊆ lits') : Ordered g lits' := fun he =>
  ⟨⟨fun hr => ⟨hsub ((h he).grounded.literal hr).1, ((h he).grounded.literal hr).2⟩,
    (h he).grounded.congruence⟩,
    (h he).fresh, (h he).earlier⟩

/-- A merge records an equality of nodes that were not connected, and whose arguments were. -/
theorem merge (h : Ordered g lits) (hg : g.Wf) (hmerging : Merging (g.Cong lits) (e :: rest) g)
    (he : e.Grounded g lits) (hne : g.root e.a ≠ g.root e.b) (hm : g.Merged e small big found g') :
    Ordered g' lits := by
  have hsame := hm.coarser.sameNodes
  have hold : ∀ j < g.classes.edges.size, g'.classes.edges[j]? = g.classes.edges[j]? :=
      fun j hj => by
    rw [hm.edges, Array.getElem?_push, if_neg (Nat.ne_of_lt hj)]
  have hnew : e.Ordered g lits g.classes.edges.size := by
    refine ⟨he, fun hc => hne (hc.root_eq hmerging.forest), fun {p q} hr xy hxy => ?_⟩
    obtain ⟨hp, hq, halike⟩ := (hmerging.waiting e List.mem_cons_self).1.congruent hr
    obtain ⟨f, -, -, hargs⟩ := alike_iff.mp halike
    have hlt {n a : Nat} (hn : n < g.known) (ha : a ∈ (g.node n).args) : a < g.known :=
      Nat.lt_trans (hg.args_lt ha (Nat.lt_of_lt_of_le hn hmerging.tables.known_le)) hn
    obtain ⟨hx, hy⟩ := List.of_mem_zip hxy
    exact hmerging.forest.connected (hlt hp hx) (hlt hq hy) ((List.forall₂_iff_zip.mp hargs).2 hxy)
  intro i e' he'
  rw [hm.edges, Array.getElem?_push] at he'
  split at he'
  next heq =>
    obtain rfl := Option.some.inj he'
    subst heq
    exact hnew.of_sameNodes hsame hold
  next =>
    have hlt := (Array.getElem?_eq_some_iff.mp he').1
    exact (h he').of_sameNodes hsame fun j hj => hold j (Nat.lt_trans hj hlt)

theorem grow (h : Ordered g lits) (hmerging : Merging (g.Cong lits) [] g)
    (hgrown : Grown lits.toArray g g') :
    Ordered g' lits := by
  intro i e he
  rw [hgrown.classes] at he
  refine ⟨⟨fun hr => ?_, (h he).grounded.congruence⟩, ?_, fun {p q} hr => ?_⟩
  · obtain ⟨hl, heq⟩ := (h he).grounded.literal hr
    exact ⟨hl, (hgrown.equation?_eq (by simpa using hl)).trans heq⟩
  · rw [hgrown.classes]
    exact (h he).fresh
  · obtain ⟨hp, hq, -⟩ := (hmerging.forest.valid he).1.congruent hr
    have hle := hmerging.tables.known_le
    rw [hgrown.classes, hgrown.node_eq (Nat.lt_of_lt_of_le hp hle),
      hgrown.node_eq (Nat.lt_of_lt_of_le hq hle)]
    exact (h he).earlier hr

end Ordered

/-- Every change keeps the order of the equalities. -/
theorem invariant_ordered : Invariant fun g lits => Ordered g lits where
  clear _ := fun he => by simp [clearClasses] at he
  mono hsub h := h.mono hsub
  same ht _ h := h.of_sameNodes ht.sameNodes ht.edges
  merge hg hmerging he hap hends hm h := by
    refine h.merge hg hmerging he (fun heq => hap.ne ?_) hm
    rcases hends with ⟨rfl, rfl⟩ | ⟨rfl, rfl⟩
    · exact heq
    · exact heq.symm
  add {g lits parents} _ _ _ _ h := by
    have hsame : SameNodes g (g.withClass g.known parents) := rfl
    intro i e he
    exact h.of_sameNodes hsame rfl he
  grow hgrown hmerging h := h.grow hmerging hgrown

/-! ## Paths -/

theorem exists_max (hne : is ≠ []) : ∃ m ∈ is, ∀ j ∈ is, j ≤ m := by
  have hset : is.toFinset.Nonempty := by simpa using hne
  obtain ⟨m, hm, hmax⟩ := Finset.exists_max_image is.toFinset id hset
  exact ⟨m, List.mem_toFinset.mp hm, fun j hj => hmax j (List.mem_toFinset.mpr hj)⟩

/-- When a path takes no edge twice in a row, edges before its latest one do not connect its
ends. -/
theorem Ordered.not_connected (h : Ordered g lits) (hf : g.Forest) (hwalk : Walk g.classes a is b)
    (hchain : is.IsChain (· ≠ ·)) (hmem : m ∈ is) (hmax : ∀ j ∈ is, j ≤ m) :
    ¬ Connected g.classes m a b := by
  induction m using Nat.strong_induction_on generalizing a b is with
  | _ m ih =>
    intro hconnected
    have hless {js : List Nat} (hsub : ∀ j ∈ js, j ∈ is) (hnot : m ∉ js) : ∀ j ∈ js, j < m :=
        fun j hj =>
      Nat.lt_of_le_of_ne (hmax j (hsub j hj)) fun heq => hnot (heq ▸ hj)
    obtain ⟨before, after, rfl, hfirst⟩ := List.eq_append_cons_of_mem hmem
    obtain ⟨c, hbefore, hlatest⟩ := hwalk.split
    obtain ⟨e, d, he, hends, hafter⟩ := hlatest.cases_cons hf
    have hac := hbefore.connected hf (hless (fun j hj => List.mem_append_left _ hj) hfirst)
    have hcd : ¬ Connected g.classes m c d := by
      rcases hends with ⟨rfl, rfl⟩ | ⟨rfl, rfl⟩
      · exact (h he).fresh
      · exact fun hc => (h he).fresh hc.symm
    by_cases hagain : m ∈ after
    · -- the path comes back to the latest edge: to its far end, so it has gone round
      obtain ⟨between, rest, rfl, hsecond⟩ := List.eq_append_cons_of_mem hagain
      obtain ⟨c', hbetween, hlatest'⟩ := hafter.split
      obtain ⟨e', d', he', hends', -⟩ := hlatest'.cases_cons hf
      obtain rfl : e = e' := Option.some.inj (he.symm.trans he')
      have hdc' := hbetween.connected hf (hless (fun j hj => by simp [hj]) hsecond)
      have hround : c' = d := by
        by_contra hne
        refine hcd ?_
        have hc' : c' = c := by grind
        exact (hc' ▸ hdc').symm
      subst hround
      have htail := (List.isChain_append.mp hchain).2.1
      by_cases hnil : between = []
      · subst hnil
        exact (List.isChain_cons_cons.mp htail).1 rfl
      · obtain ⟨m', hm', hmax'⟩ := exists_max hnil
        have hlt : m' < m := hless (fun j hj => by simp [hj]) hsecond m' hm'
        have hchain' : between.IsChain (· ≠ ·) :=
          (List.isChain_append.mp (List.isChain_cons.mp htail).2).1
        exact ih m' hlt hbetween hchain' hm' hmax' (.refl _ _ _)
    · have hdb := hafter.connected hf (hless (fun j hj => by simp [hj]) hagain)
      exact hcd (hac.symm.trans (hconnected.trans hdb.symm))

/-- The edges of such a path come before any bound below which its ends are connected. -/
theorem Ordered.lt_of_connected (h : Ordered g lits) (hf : g.Forest) (hwalk : Walk g.classes a is b)
    (hchain : is.IsChain (· ≠ ·)) (hconnected : Connected g.classes i a b) : ∀ j ∈ is, j < i := by
  intro j hj
  obtain ⟨m, hm, hmax⟩ := exists_max (List.ne_nil_of_mem hj)
  refine Nat.lt_of_le_of_lt (hmax j hj) (Nat.lt_of_not_le fun hle => ?_)
  exact h.not_connected hf hwalk hchain hm hmax (hconnected.mono hle)

/-- A path that is found leads to its target and takes no edge twice in a row. -/
theorem walk_of_pathFrom (h : pathFrom k target bound via n = some is) :
    Walk k n is target ∧ is.IsChain (· ≠ ·) ∧ ∀ i, via = some i → is.head? ≠ some i := by
  induction bound generalizing via n is with
  | zero => cases h
  | succ bound ih =>
    unfold pathFrom at h
    split at h
    next heq =>
      obtain rfl := Option.some.inj h
      exact ⟨heq, .nil, by simp⟩
    next =>
      obtain ⟨i, hi, hfound⟩ := List.exists_of_findSome?_eq_some h
      split at hfound
      · cases hfound
      next hvia =>
        split at hfound
        · cases hfound
        next e he =>
          obtain ⟨rest, hrest, rfl⟩ := Option.map_eq_some_iff.mp hfound
          obtain ⟨hwalk, hchain, hhead⟩ := ih hrest
          refine ⟨⟨Array.mem_toList_iff.mp hi, e, he, hwalk⟩, List.isChain_cons.mpr ⟨?_, hchain⟩,
            fun j hj heq => ?_⟩
          · rintro j hj rfl
            exact hhead i rfl hj
          · rw [List.head?_cons, Option.some.injEq] at heq
            exact hvia (heq ▸ hj)

end Entail.Egraph
