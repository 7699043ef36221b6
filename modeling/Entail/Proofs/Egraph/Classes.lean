import Entail.Proofs.Egraph.Nodes
import Entail.Proofs.Egraph.Undo
import Mathlib.Data.List.Forall2

/-!
# What holds of the classes

The members of a class form a ring that starts at their representative, the applications of a class
are listed there, every signature has an application that stands for it, and the nodes of a class
are connected by edges. While equalities wait to be merged, two applications of one signature may
still be in different classes: then what waits connects them.
-/

/-!
## Congruence closure

A true literal with an atom says that two nodes are equal or that they differ. What follows from
equalities is the least relation that holds of them, is an equivalence, and relates two applications
of a function whose arguments it relates.
-/

namespace Entail.Egraph

/-- What the e-graph is built of: the constants are there, arguments are earlier nodes, no
application is there twice, and atoms are about nodes. -/
structure Wf (g : Egraph) : Prop where
  constants : 2 ≤ g.nodes.size
  args_lt : ∀ {n a : Nat}, a ∈ (g.node n).args → n < g.nodes.size → a < n
  distinct : ∀ {p q : Nat} {f : Term}, (g.node p).func = some f → (g.node q).func = some f →
    (g.node p).args = (g.node q).args → p = q
  eq_lt : ∀ {v a b : Nat}, g.atoms[v]? = some (.eq a b) → a < g.nodes.size ∧ b < g.nodes.size
  pred_lt : ∀ {v n : Nat}, g.atoms[v]? = some (.pred n) → n < g.nodes.size

/-- The nodes that a true literal makes equal: the sides of an equality that holds, or a boolean
application and the constant that is its value. -/
def equation? (g : Egraph) (l : Literal) : Option (Nat × Nat) :=
  match g.atoms[l.var]? with
  | some (.eq a b) => if l.isNegated then none else some (a, b)
  | some (.pred n) => some (n, if l.isNegated then falseNode else trueNode)
  | none => none

/-- The nodes that a true literal makes differ: the sides of an equality that does not hold. -/
def disequation? (g : Egraph) (l : Literal) : Option (Nat × Nat) :=
  match g.atoms[l.var]? with
  | some (.eq a b) => if l.isNegated then some (a, b) else none
  | _ => none

/-- Equality of nodes that follows from literals. -/
inductive Cong (g : Egraph) (lits : List Literal) : Nat → Nat → Prop where
  | fact {l : Literal} {a b : Nat} (hl : l ∈ lits) (h : g.equation? l = some (a, b)) :
    Cong g lits a b
  | refl (a : Nat) : Cong g lits a a
  | symm {a b : Nat} (h : Cong g lits a b) : Cong g lits b a
  | trans {a b c : Nat} (hab : Cong g lits a b) (hbc : Cong g lits b c) : Cong g lits a c
  | app {p q : Nat} {f : Term} (hp : (g.node p).func = some f) (hq : (g.node q).func = some f)
    (hlen : (g.node p).args.length = (g.node q).args.length)
    (hargs : ∀ x ∈ (g.node p).args.zip (g.node q).args, Cong g lits x.1 x.2) : Cong g lits p q

/-- An equivalence that relates applications of a function when it relates their arguments. -/
structure IsCongruence (g : Egraph) (R : Nat → Nat → Prop) : Prop where
  equiv : Equivalence R
  app : ∀ {p q : Nat} {f : Term}, (g.node p).func = some f → (g.node q).func = some f →
    List.Forall₂ R (g.node p).args (g.node q).args → R p q

variable {g g' : Egraph} {lits lits' : List Literal} {R : Nat → Nat → Prop} {a b : Nat}
  {l : Literal}

/-- The congruence closure of some literals is a congruence. -/
theorem isCongruence_cong (g : Egraph) (lits : List Literal) : g.IsCongruence (g.Cong lits) where
  equiv := ⟨.refl, .symm, .trans⟩
  app hp hq hargs := .app hp hq hargs.length_eq fun _ hx => (List.forall₂_iff_zip.mp hargs).2 hx

/-- What follows from literals holds in every congruence in which they hold. -/
theorem IsCongruence.of_cong (hR : g.IsCongruence R)
    (hfact : ∀ {l a b}, l ∈ lits → g.equation? l = some (a, b) → R a b) (h : g.Cong lits a b) :
    R a b := by
  induction h with
  | fact hl h => exact hfact hl h
  | refl a => exact hR.equiv.refl a
  | symm _ ih => exact hR.equiv.symm ih
  | trans _ _ ih₁ ih₂ => exact hR.equiv.trans ih₁ ih₂
  | app hp hq hlen _ ih => exact hR.app hp hq (List.forall₂_iff_zip.mpr ⟨hlen, ih _⟩)

/-- More literals and more nodes have more consequences. -/
theorem Cong.mono (hnode : ∀ {p f}, (g.node p).func = some f → g'.node p = g.node p)
    (hfact : ∀ {l a b}, l ∈ lits → g.equation? l = some (a, b) → l ∈ lits' ∧
      g'.equation? l = some (a, b))
    (h : g.Cong lits a b) : g'.Cong lits' a b := by
  induction h with
  | fact hl h => exact .fact (hfact hl h).1 (hfact hl h).2
  | refl a => exact .refl a
  | symm _ ih => exact ih.symm
  | trans _ _ ih₁ ih₂ => exact ih₁.trans ih₂
  | app hp hq hlen _ ih =>
    rw [← hnode hp, ← hnode hq] at hlen ih
    exact .app (by rw [hnode hp, hp]) (by rw [hnode hq, hq]) hlen ih

/-- More literals make more equal. -/
theorem Cong.of_subset (hsub : lits ⊆ lits') (h : g.Cong lits a b) : g.Cong lits' a b :=
  h.mono (fun _ => rfl) fun hl he => ⟨hsub hl, he⟩

/-! ## The classes do not matter -/

namespace SameNodes

theorem eq_with (h : SameNodes g g') : g' = { g with classes := g'.classes } :=
  congrArg (fun k : Egraph => { k with classes := g'.classes }) h

theorem nodes_eq (h : SameNodes g g') : g'.nodes = g.nodes := congrArg (·.nodes) h

theorem node_eq (h : SameNodes g g') (n : Nat) : g'.node n = g.node n := by
  rw [node, node, h.nodes_eq]

theorem equation?_eq (h : SameNodes g g') (l : Literal) : g'.equation? l = g.equation? l := by
  rw [h.eq_with]
  rfl

theorem disequation?_eq (h : SameNodes g g') (l : Literal) :
    g'.disequation? l = g.disequation? l := by
  rw [h.eq_with]
  rfl

theorem cong (h : SameNodes g g') (hc : g.Cong lits a b) : g'.Cong lits a b :=
  hc.mono (fun _ => h.node_eq _) fun hl he => ⟨hl, (h.equation?_eq _).trans he⟩

theorem wf (h : SameNodes g g') (hg : g.Wf) : g'.Wf := by
  rw [h.eq_with]
  exact ⟨hg.constants, hg.args_lt, hg.distinct, hg.eq_lt, hg.pred_lt⟩

/-- Whether a relation is a congruence depends on the nodes alone. -/
theorem isCongruence (h : SameNodes g g') (hR : g.IsCongruence R) : g'.IsCongruence R := by
  rw [h.eq_with]
  exact ⟨hR.equiv, hR.app⟩

end SameNodes

/-! ## Nodes that literals are about -/

/-- Only nodes have a function. -/
theorem lt_size_of_func {n : Nat} {f : Term} (h : (g.node n).func = some f) : n < g.nodes.size := by
  refine Nat.lt_of_not_le fun hle => ?_
  have hnone : g.nodes[n]? = none := Array.getElem?_eq_none hle
  simp [node, Array.getD_eq_getD_getElem?, hnone] at h

/-- The sides of an equation are nodes. -/
theorem Wf.equation_lt (hg : g.Wf) (h : g.equation? l = some (a, b)) :
    a < g.nodes.size ∧ b < g.nodes.size := by
  unfold equation? at h
  split at h
  next heq =>
    split at h
    · cases h
    · cases h
      exact hg.eq_lt heq
  next heq =>
    cases h
    refine ⟨hg.pred_lt heq, ?_⟩
    have htwo := hg.constants
    split <;> simp only [falseNode, trueNode] <;> omega
  next => cases h

theorem Wf.disequation_lt (hg : g.Wf) (h : g.disequation? l = some (a, b)) :
    a < g.nodes.size ∧ b < g.nodes.size := by
  unfold disequation? at h
  split at h
  next heq =>
    split at h
    · cases h
      exact hg.eq_lt heq
    · cases h
  next => cases h

end Entail.Egraph

namespace Entail.Egraph

/-- Number of nodes that are in a class. -/
def known (g : Egraph) : Nat := g.classes.root.size

/-- Applications listed at a representative. -/
def parentsOf (g : Egraph) (r : Nat) : Array Nat := g.classes.parents.getD r #[]

/-- Two applications have the same signature. -/
def Alike (g : Egraph) (p q : Nat) : Prop :=
  ∃ key, g.signature? p = some key ∧ g.signature? q = some key

/-- Equality of nodes that follows from the classes and the equalities that wait. -/
def Linked (g : Egraph) (es : List Edge) (a b : Nat) : Prop :=
  ∀ R : Nat → Nat → Prop, Equivalence R → (∀ x y, g.root x = g.root y → R x y) →
    (∀ e ∈ es, R e.a e.b) → R a b

/-- Representatives, rings and lists of applications fit together. -/
structure Tables (g : Egraph) : Prop where
  size_next : g.classes.next.size = g.known
  size_parents : g.classes.parents.size = g.known
  size_adj : g.classes.adj.size = g.known
  known_le : g.known ≤ g.nodes.size
  root_lt : ∀ {n}, n < g.known → g.root n < g.known
  root_root : ∀ n, g.root (g.root n) = g.root n
  ring : ∀ {r}, r < g.known → g.root r = r →
    ∃ l, IsRing g.classes.next r l ∧ ∀ n, n ∈ r :: l ↔ n < g.known ∧ g.root n = r
  parent : ∀ {n a}, n < g.known → a ∈ (g.node n).args → n ∈ g.parentsOf (g.root a)
  parent_lt : ∀ {n r}, n ∈ g.parentsOf r → n < g.known

/-- The signature table has an application for every signature there is, and only these. -/
structure Signatures (g : Egraph) (es : List Edge) : Prop where
  sound : ∀ {key : Signature} {p : Nat}, g.classes.sigs[key]? = some p → p < g.known ∧
    g.signature? p = some key
  complete : ∀ {key p}, p < g.known → g.signature? p = some key → ∃ q,
    g.classes.sigs[key]? = some q ∧ g.Linked es p q

/-- An equality between nodes of classes; one by congruence is between applications of
one signature. -/
structure Edge.Valid (g : Egraph) (e : Edge) : Prop where
  a_lt : e.a < g.known
  b_lt : e.b < g.known
  congruent : ∀ {p q}, e.reason = .congruence p q → p < g.known ∧ q < g.known ∧ g.Alike p q

/-- Edges lead from `a` to `b`. -/
def Walk (k : Classes) : (a : Nat) → List Nat → (b : Nat) → Prop
  | a, [], b => a = b
  | a, i :: is, b => i ∈ k.adj.getD a #[] ∧ ∃ e, k.edges[i]? = some e ∧
    Walk k (if e.a = a then e.b else e.a) is b

/-- Edges are within classes, and the nodes of a class are connected by edges. -/
structure Forest (g : Egraph) : Prop where
  valid : ∀ {i : Nat} {e : Edge}, g.classes.edges[i]? = some e → e.Valid g ∧ g.root e.a = g.root e.b
  ends : ∀ {n i : Nat}, i ∈ g.classes.adj.getD n #[] → ∃ e, g.classes.edges[i]? = some e ∧
    (e.a = n ∨ e.b = n)
  walk : ∀ {a b}, a < g.known → b < g.known → g.root a = g.root b → ∃ is, Walk g.classes a is b ∧
    is.Nodup

/-- The classes are in order, nodes of one class are related by `R`, and so are those that wait
to be merged. -/
structure Merging (R : Nat → Nat → Prop) (es : List Edge) (g : Egraph) : Prop where
  tables : g.Tables
  sigs : g.Signatures es
  forest : g.Forest
  sound : ∀ {a b}, a < g.known → b < g.known → g.root a = g.root b → R a b
  waiting : ∀ e ∈ es, e.Valid g ∧ R e.a e.b

/-- `g'` comes from `g` by merging classes. -/
structure Coarser (g g' : Egraph) : Prop where
  sameNodes : SameNodes g g'
  known : g'.known = g.known
  root : ∀ {a b}, g.root a = g.root b → g'.root a = g'.root b
  undoes : Undoes g.classes g'.classes
  diseqs : g'.classes.diseqs = g.classes.diseqs
  pending : g'.classes.pending = g.classes.pending
  levels : g'.classes.levels = g.classes.levels
  processed : g'.classes.processed = g.classes.processed

variable {g g' g'' : Egraph} {R R' : Nat → Nat → Prop} {es es' : List Edge} {e : Edge}
  {a b c n p q : Nat}
  {key : Signature}

theorem Coarser.refl (g : Egraph) : Coarser g g := ⟨.refl g, rfl, id, .refl _, rfl, rfl, rfl, rfl⟩

theorem Coarser.trans (h : Coarser g g') (h' : Coarser g' g'') : Coarser g g'' where
  sameNodes := h.sameNodes.trans h'.sameNodes
  known := h'.known.trans h.known
  root heq := h'.root (h.root heq)
  undoes := h.undoes.trans h'.undoes
  diseqs := h'.diseqs.trans h.diseqs
  pending := h'.pending.trans h.pending
  levels := h'.levels.trans h.levels
  processed := h'.processed.trans h.processed

/-! ## Representatives -/

/-- A node that is in no class yet is its own root. -/
theorem root_of_known_le (h : g.known ≤ n) : g.root n = n := by
  have hnone : g.classes.root[n]? = none := Array.getElem?_eq_none h
  rw [root, Array.getD_eq_getD_getElem?, hnone, Option.getD_none]

/-- Two nodes of one class are known, or they are the same. -/
theorem Tables.known_or_eq (h : g.Tables) (hab : g.root a = g.root b) :
    a < g.known ∧ b < g.known ∨ a = b := by
  have hunknown {a b : Nat} (hab : g.root a = g.root b) (ha : g.known ≤ a) : a = b := by
    rw [root_of_known_le ha] at hab
    by_cases hb : b < g.known
    · exact absurd (hab ▸ h.root_lt hb) (Nat.not_lt_of_le ha)
    · rwa [root_of_known_le (Nat.le_of_not_lt hb)] at hab
  by_cases ha : a < g.known
  · by_cases hb : b < g.known
    · exact .inl ⟨ha, hb⟩
    · exact .inr (hunknown hab.symm (Nat.le_of_not_lt hb)).symm
  · exact .inr (hunknown hab (Nat.le_of_not_lt ha))

theorem getElem?_root (h : n < g.known) : g.classes.root[n]? = some (g.root n) := by
  have hn : n < g.classes.root.size := h
  rw [root, Array.getD_eq_getD_getElem?, Array.getElem?_eq_getElem hn, Option.getD_some]

/-- The ring of a root runs through its class, and through nothing else. -/
theorem Tables.ring_eq (h : g.Tables) {r : Nat} (hr : r < g.known) (hroot : g.root r = r) :
    IsRing g.classes.next r (g.ring r).tail ∧ ∀ n, n ∈ g.ring r ↔ n < g.known ∧ g.root n = r := by
  obtain ⟨l, hring, hmem⟩ := h.ring hr hroot
  rw [hring.ring_eq]
  exact ⟨hring, hmem⟩

/-! ## Signatures -/

/-- The signature of an application is its head with the roots of its arguments. -/
theorem signature?_eq_some : g.signature? n = some key ↔
    (g.node n).func = some key.1 ∧ (g.node n).args.map g.root = key.2 := by
  unfold signature?
  cases hf : (g.node n).func with
  | none => simp [hf]
  | some f => simp [hf, Prod.ext_iff]

theorem map_eq_map_iff {β : Type} {f : Nat → β} {xs ys : List Nat} :
    xs.map f = ys.map f ↔ List.Forall₂ (fun x y => f x = f y) xs ys := by
  rw [← List.forall₂_eq_eq_eq, List.forall₂_map_left_iff, List.forall₂_map_right_iff]

/-- Two applications of one signature have one function, and arguments of the same classes. -/
theorem alike_iff : g.Alike p q ↔ ∃ f, (g.node p).func = some f ∧ (g.node q).func = some f ∧
    List.Forall₂ (fun x y => g.root x = g.root y) (g.node p).args (g.node q).args := by
  constructor
  · rintro ⟨⟨f, roots⟩, hp, hq⟩
    obtain ⟨hpf, hpr⟩ := signature?_eq_some.mp hp
    obtain ⟨hqf, hqr⟩ := signature?_eq_some.mp hq
    exact ⟨f, hpf, hqf, map_eq_map_iff.mp (hpr.trans hqr.symm)⟩
  · rintro ⟨f, hp, hq, hargs⟩
    refine ⟨(f, (g.node p).args.map g.root), signature?_eq_some.mpr ⟨hp, rfl⟩,
      signature?_eq_some.mpr ⟨hq, ?_⟩⟩
    exact (map_eq_map_iff.mpr hargs).symm

/-- Applications that are alike stay alike when classes are joined. -/
theorem Alike.of_coarser (h : Coarser g g') (hpq : g.Alike p q) : g'.Alike p q := by
  obtain ⟨f, hp, hq, hargs⟩ := alike_iff.mp hpq
  rw [alike_iff, h.sameNodes.node_eq, h.sameNodes.node_eq]
  exact ⟨f, hp, hq, hargs.imp fun _ _ => h.root⟩

theorem Edge.Valid.of_coarser (h : Coarser g g') (he : e.Valid g) : e.Valid g' := by
  have hcongruent {p q} (hr : e.reason = .congruence p q) : p < g'.known ∧ q < g'.known ∧
      g'.Alike p q := by
    obtain ⟨hp, hq, hpq⟩ := he.congruent hr
    exact ⟨h.known ▸ hp, h.known ▸ hq, hpq.of_coarser h⟩
  exact ⟨h.known ▸ he.a_lt, h.known ▸ he.b_lt, hcongruent⟩

/-- A congruence that relates the nodes of a class relates applications of one signature. -/
theorem Alike.rel (hg : g.Wf) (hR : g.IsCongruence R) (ht : g.Tables)
    (hsound : ∀ {a b}, a < g.known → b < g.known → g.root a = g.root b → R a b) (hp : p < g.known)
    (hq : q < g.known) (h : g.Alike p q) : R p q := by
  obtain ⟨f, hpf, hqf, hargs⟩ := alike_iff.mp h
  have harg {n a : Nat} (hn : n < g.known) (ha : a ∈ (g.node n).args) : a < g.known :=
    Nat.lt_trans (hg.args_lt ha (Nat.lt_of_lt_of_le hn ht.known_le)) hn
  refine hR.app hpf hqf (List.forall₂_iff_zip.mpr ⟨hargs.length_eq, fun {a b} hab => ?_⟩)
  obtain ⟨ha, hb⟩ := List.of_mem_zip hab
  exact hsound (harg hp ha) (harg hq hb) ((List.forall₂_iff_zip.mp hargs).2 hab)

/-! ## What waits -/

/-- Nodes of one class are linked. -/
theorem Linked.of_root (h : g.root a = g.root b) : g.Linked es a b := fun _ _ hroot _ => hroot a b h

/-- The ends of an edge are linked. -/
theorem Linked.of_mem (h : e ∈ es) : g.Linked es e.a e.b := fun _ _ _ hes => hes e h

/-- Being linked is an equivalence. -/
theorem equivalence_linked (g : Egraph) (es : List Edge) : Equivalence (g.Linked es) where
  refl a _ hR _ _ := hR.refl a
  symm h R hR hroot hes := hR.symm (h R hR hroot hes)
  trans h h' R hR hroot hes := hR.trans (h R hR hroot hes) (h' R hR hroot hes)

/-- What was linked stays linked when classes are merged and what waited is linked. -/
theorem Linked.imp (h : g.Linked es a b)
    (hroot : ∀ {x y}, g.root x = g.root y → g'.root x = g'.root y)
    (hes : ∀ e ∈ es, g'.Linked es' e.a e.b) : g'.Linked es' a b :=
  h (g'.Linked es') (equivalence_linked g' es') (fun _ _ heq => .of_root (hroot heq)) hes

/-- When nothing waits, nodes are linked that are in one class. -/
theorem linked_nil : g.Linked [] a b ↔ g.root a = g.root b := by
  refine ⟨fun h => ?_, .of_root⟩
  exact h (fun x y => g.root x = g.root y) ⟨fun _ => rfl, Eq.symm, Eq.trans⟩
    (fun _ _ => id) (by simp)

/-! ## Nothing waits -/

theorem Merging.imp (h : Merging R es g) (hR : ∀ {a b}, R a b → R' a b) : Merging R' es g where
  tables := h.tables
  sigs := h.sigs
  forest := h.forest
  sound ha hb heq := hR (h.sound ha hb heq)
  waiting e he := ⟨(h.waiting e he).1, hR (h.waiting e he).2⟩

/-- When nothing waits, applications of one signature are in one class. -/
theorem Merging.root_eq_of_alike (h : Merging R [] g) (hp : p < g.known) (hq : q < g.known)
    (hpq : g.Alike p q) :
    g.root p = g.root q := by
  obtain ⟨key, hpk, hqk⟩ := hpq
  obtain ⟨r, hr, hpr⟩ := h.sigs.complete hp hpk
  obtain ⟨r', hr', hqr⟩ := h.sigs.complete hq hqk
  obtain rfl : r = r' := Option.some.inj (hr.symm.trans hr')
  exact (linked_nil.mp hpr).trans (linked_nil.mp hqr).symm

/-- When every node is known and nothing waits, being in one class is a congruence. -/
theorem Merging.isCongruence (h : Merging R [] g) (hknown : g.known = g.nodes.size) :
    g.IsCongruence fun a b => g.root a = g.root b where
  equiv := ⟨fun _ => rfl, Eq.symm, Eq.trans⟩
  app {p q f} hp hq hargs := by
    have hlt {n : Nat} (hn : (g.node n).func = some f) : n < g.known := hknown ▸ lt_size_of_func hn
    exact h.root_eq_of_alike (hlt hp) (hlt hq) (alike_iff.mpr ⟨f, hp, hq, hargs⟩)

/-! ## Walks -/

variable {k k' : Classes}

/-- Two walks that meet are one walk. -/
theorem Walk.append {is js : List Nat} (h : Walk k a is b) (h' : Walk k b js c) :
    Walk k a (is ++ js) c := by
  induction is generalizing a with
  | nil =>
    obtain rfl : a = b := h
    exact h'
  | cons i is ih =>
    obtain ⟨hi, e, he, hwalk⟩ := h
    exact ⟨hi, e, he, ih hwalk⟩

/-- A walk is a walk still when edges are added. -/
theorem Walk.mono {is : List Nat} (hadj : ∀ {n i}, i ∈ k.adj.getD n #[] → i ∈ k'.adj.getD n #[])
    (hedges : ∀ {i : Nat} {e}, k.edges[i]? = some e → k'.edges[i]? = some e) (h : Walk k a is b) :
    Walk k' a is b := by
  induction is generalizing a with
  | nil => exact h
  | cons i is ih =>
    obtain ⟨hi, e, he, hwalk⟩ := h
    exact ⟨hadj hi, e, hedges he, ih hwalk⟩

/-! ## What the order of the classes depends on -/

/-- `g'` differs from `g` in the signature table, in the log, and in what the search records. -/
structure SameTables (g g' : Egraph) : Prop where
  sameNodes : SameNodes g g'
  root : g'.classes.root = g.classes.root
  next : g'.classes.next = g.classes.next
  parents : g'.classes.parents = g.classes.parents
  edges : g'.classes.edges = g.classes.edges
  adj : g'.classes.adj = g.classes.adj

namespace SameTables

variable (h : SameTables g g')

include h

theorem root_eq : g'.root = g.root := by
  funext n
  rw [Egraph.root, Egraph.root, h.root]

theorem known_eq : g'.known = g.known := congrArg Array.size h.root

theorem signature?_eq (n : Nat) : g'.signature? n = g.signature? n := by
  rw [signature?, signature?, h.sameNodes.node_eq, h.root_eq]

/-- Whether nodes are linked depends on roots and edges alone. -/
theorem linked (hab : g.Linked es a b) : g'.Linked es a b :=
  hab.imp (fun heq => by rwa [h.root_eq]) fun _ he => .of_mem he

theorem valid (he : e.Valid g) : e.Valid g' := by
  refine ⟨h.known_eq ▸ he.a_lt, h.known_eq ▸ he.b_lt, fun {p q} hr => ?_⟩
  rw [h.known_eq, Alike, h.signature?_eq, h.signature?_eq]
  exact he.congruent hr

theorem tables (ht : g.Tables) : g'.Tables where
  size_next := by rw [h.next, h.known_eq, ht.size_next]
  size_parents := by rw [h.parents, h.known_eq, ht.size_parents]
  size_adj := by rw [h.adj, h.known_eq, ht.size_adj]
  known_le := by
    rw [h.known_eq, h.sameNodes.nodes_eq]
    exact ht.known_le
  root_lt := by
    rw [h.known_eq, h.root_eq]
    exact ht.root_lt
  root_root := by
    rw [h.root_eq]
    exact ht.root_root
  ring := by
    rw [h.known_eq, h.root_eq, h.next]
    exact ht.ring
  parent {n a} := by
    rw [h.known_eq, h.root_eq, parentsOf, h.parents, h.sameNodes.node_eq]
    exact ht.parent
  parent_lt {n r} := by
    rw [h.known_eq, parentsOf, h.parents]
    exact ht.parent_lt

/-- Whether the edges are a forest depends on the tables alone. -/
theorem forest (hf : g.Forest) : g'.Forest where
  valid {i e} he := by
    obtain ⟨hv, hroot⟩ := hf.valid (h.edges ▸ he)
    exact ⟨h.valid hv, by rwa [h.root_eq]⟩
  ends := by
    rw [h.adj, h.edges]
    exact hf.ends
  walk {a b} ha hb hab := by
    rw [h.known_eq] at ha hb
    rw [h.root_eq] at hab
    obtain ⟨is, hwalk, hnodup⟩ := hf.walk ha hb hab
    exact ⟨is, hwalk.mono (fun hi => h.adj.symm ▸ hi) (fun he => h.edges.symm ▸ he), hnodup⟩

theorem merging (hm : Merging R es g) (hsigs : g'.Signatures es')
    (hwaits : ∀ e ∈ es', e.Valid g ∧ R e.a e.b) :
    Merging R es' g' where
  tables := h.tables hm.tables
  sigs := hsigs
  forest := h.forest hm.forest
  sound := by
    rw [h.known_eq, h.root_eq]
    exact hm.sound
  waiting e he := ⟨h.valid (hwaits e he).1, (hwaits e he).2⟩

/-- With the entries of the signature table everything stays in order. -/
theorem merging_of_sigs (hm : Merging R es g)
    (hsigs : ∀ key : Signature, g'.classes.sigs[key]? = g.classes.sigs[key]?) :
    Merging R es g' := by
  refine h.merging hm ⟨fun {key p} hp => ?_, fun {key p} hp hkey => ?_⟩ hm.waiting
  · rw [h.known_eq, h.signature?_eq]
    exact hm.sigs.sound ((hsigs key).symm.trans hp)
  · rw [h.known_eq] at hp
    rw [h.signature?_eq] at hkey
    obtain ⟨q, hq, hpq⟩ := hm.sigs.complete hp hkey
    exact ⟨q, (hsigs key).trans hq, h.linked hpq⟩

end SameTables

theorem Classes.Same.sameTables {k : Classes} (h : k.Same g.classes) :
    SameTables g { g with classes := k } :=
  ⟨rfl, h.root, h.next, h.parents, h.edges, h.adj⟩

end Entail.Egraph
