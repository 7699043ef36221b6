import Entail.Proofs.Egraph.Runs

/-!
# Nodes and atoms of terms

The nodes that terms are given are fit for a search: a store has every application once, so no
application gets two nodes. Arguments of applications are positive terms here, as they are when they
are not boolean. Giving a variable that is not on the trail its meaning is a step that a search may
take at level 0.
-/

namespace Entail.Egraph

/-- The applications in a term are positive. -/
inductive Plain (s : Store) : Term → Prop where
  | app {t f : Term} {args : List Term} (hpos : t.isNegated = false)
    (hshape : s.shape t = .app f args)
    (hargs : ∀ a ∈ args, Plain s a) : Plain s t
  | other {t : Term} (hshape : ∀ f args, s.shape t ≠ .app f args) : Plain s t

/-- An application is what the store says it is, and its arguments are earlier nodes. -/
structure Node.Applies (s : Store) (nodes : Array Node) (i : Nat) (n : Node) : Prop where
  app : ∀ {f}, n.func = some f → ∃ ts, s.shape n.term = .app f ts ∧
    List.Forall₂ (fun j t => j < i ∧ termAt nodes j = some t) n.args ts
  leaf : n.func = none → n.args = []
  positive : n.func.isSome = true → n.term.isNegated = false

/-- An atom is about nodes below `size`. -/
def Atom.Below (size : Nat) : Atom → Prop
  | .eq a b => a < size ∧ b < size
  | .pred n => n < size

/-- The nodes are those of terms of a store, and the atoms are about them. -/
structure OfTerms (s : Store) (g : Egraph) : Prop where
  indexed : g.Indexed
  constants : 2 ≤ g.nodes.size
  applies : ∀ {i : Nat} {n : Node}, g.nodes[i]? = some n → n.Applies s g.nodes i
  atoms : ∀ {v : Nat} {a : Atom}, g.atoms[v]? = some a → a.Below g.nodes.size

variable {s s' : Store} {g g' : Egraph} {t a b : Term} {i v : Nat} {trail : Array Literal}

/-! ## Such nodes are fit for a search -/

/-- Every application is in the store once. -/
theorem eq_of_shape (hs : s.Wf) {u f : Term} {ts : List Term} (ht : s.shape t = .app f ts)
    (hu : s.shape u = .app f ts)
    (htpos : t.isNegated = false) (hupos : u.isNegated = false) : t = u := by
  have hlive {w : Term} (hw : s.shape w = .app f ts) :
      ∃ ty, s.terms.get? w.index = some (.app f ts, ty) := by
    unfold Store.shape Store.shape? Store.node? at hw
    cases hget : s.terms.get? w.index with
    | none =>
      rw [hget] at hw
      cases hw
    | some x =>
      rw [hget] at hw
      exact ⟨x.2, congrArg some (Prod.ext hw rfl)⟩
  obtain ⟨ty, hgt⟩ := hlive ht
  obtain ⟨ty', hgu⟩ := hlive hu
  have hindex : t.index = u.index := hs.terms.slot_unique hgt hgu
  rw [← Term.positive_of_not_isNegated htpos, ← Term.positive_of_not_isNegated hupos]
  exact congrArg Term.ofIndex hindex

theorem OfTerms.wf (hs : s.Wf) (h : OfTerms s g) : g.Wf where
  constants := h.constants
  args_lt {n a} ha hn := by
    have hget : g.nodes[n]? = some (g.node n) := by
      rw [node, Array.getD_eq_getD_getElem?, Array.getElem?_eq_getElem hn, Option.getD_some]
    have happly := h.applies hget
    cases hf : (g.node n).func with
    | none =>
      rw [happly.leaf hf] at ha
      cases ha
    | some f =>
      obtain ⟨ts, -, hargs⟩ := happly.app hf
      exact ((List.forall₂_and_left _ _).mp hargs).1 a ha
  distinct {p q f} hp hq heq := by
    have hget {n : Nat} (hn : (g.node n).func = some f) : g.nodes[n]? = some (g.node n) := by
      rw [node, Array.getD_eq_getD_getElem?, Array.getElem?_eq_getElem (lt_size_of_func hn),
        Option.getD_some]
    obtain ⟨ts, hpshape, hpargs⟩ := (h.applies (hget hp)).app hp
    obtain ⟨us, hqshape, hqargs⟩ := (h.applies (hget hq)).app hq
    have hterms : Relator.RightUnique fun j t => termAt g.nodes j = some t := fun j t u ht hu =>
      Option.some.inj (ht.symm.trans hu)
    have hsame : ts = us := by
      rw [← heq] at hqargs
      exact hterms.forall₂ (hpargs.imp fun _ _ => And.right) (hqargs.imp fun _ _ => And.right)
    have hterm : (g.node p).term = (g.node q).term :=
      eq_of_shape hs hpshape (hsame ▸ hqshape) ((h.applies (hget hp)).positive (by rw [hp]; rfl))
        ((h.applies (hget hq)).positive (by rw [hq]; rfl))
    have hkey {n : Nat} (hn : (g.node n).func = some f) :
        termAt g.nodes n = some (g.node n).term := by
      rw [termAt, keyAt, hget hn, Option.map_some]
    exact h.indexed.nodeOf.unique (hkey hp) (hterm ▸ hkey hq)
  eq_lt hv := h.atoms hv
  pred_lt hv := h.atoms hv

/-- An e-graph without terms of its own. -/
theorem ofTerms_empty (s : Store) : OfTerms s Egraph.empty where
  indexed := indexed_empty
  constants := Nat.le_refl 2
  applies {i n} hn := by
    have hleaf : ∀ n ∈ Egraph.empty.nodes, n.func = none ∧ n.args = [] := by decide
    obtain ⟨hfunc, hargs⟩ := hleaf n (Array.mem_of_getElem? hn)
    refine ⟨fun hf => ?_, fun _ => hargs, fun hf => ?_⟩ <;> simp [hfunc] at hf
  atoms hv := by
    have hnone (v : Nat) : Egraph.empty.atoms[v]? = none := Std.HashMap.getElem?_empty
    rw [hnone] at hv
    cases hv

/-! ## New terms -/

/-- The applications among the nodes are positive. -/
def PositiveApps (g : Egraph) : Prop :=
  ∀ n ∈ g.nodes, n.func.isSome = true → n.term.isNegated = false

theorem OfTerms.positiveApps (h : OfTerms s g) : g.PositiveApps := fun n hn => by
  obtain ⟨i, hi⟩ := Array.getElem?_of_mem hn
  exact (h.applies hi).positive

theorem PositiveApps.addNode (h : g.PositiveApps) {n : Node}
    (hn : n.func.isSome = true → n.term.isNegated = false) :
    (Egraph.addNode n g).2.PositiveApps := by
  intro m hm
  rcases Array.mem_push.mp (show m ∈ g.nodes.push n from hm) with hm | rfl
  · exact h m hm
  · exact hn

/-- Internalizing a term in which applications are positive adds positive applications. -/
theorem PositiveApps.internalizeAt (h : g.PositiveApps) (depth : Nat) (ht : Plain s t) :
    (internalizeAt s depth t g).2.PositiveApps := by
  induction depth generalizing t g with
  | zero =>
    cases hnode : g.nodeOf[t]? with
    | some i => rwa [internalizeAt_found hnode]
    | none =>
      rw [internalizeAt_leaf hnode (.inl rfl)]
      exact h.addNode nofun
  | succ depth ih =>
    cases hnode : g.nodeOf[t]? with
    | some i => rwa [internalizeAt_found hnode]
    | none =>
      cases ht with
      | @app _ f args hpos hshape hargs =>
        rw [internalizeAt_app hnode hshape]
        refine PositiveApps.addNode ?_ fun _ => hpos
        clear hshape hnode
        induction args generalizing g with
        | nil => exact h
        | cons x xs ihs =>
          rw [List.mapM_cons]
          exact ihs (ih h (hargs x List.mem_cons_self)) fun y hy =>
            hargs y (List.mem_cons_of_mem x hy)
      | other hshape =>
        rw [internalizeAt_leaf hnode (.inr hshape)]
        exact h.addNode nofun

/-- Entering an atom of terms keeps the nodes those of terms. -/
theorem OfTerms.enter (h : OfTerms s g) {m : (Term × Term) ⊕ Term} (he : Enters s v m g g')
    (hpos : g'.PositiveApps) : OfTerms s g' where
  indexed := he.indexed
  constants := Nat.le_trans h.constants (size_le_of_isPrefix he.nodes)
  applies {i n} hn := by
    refine ⟨fun {f} hf => ?_, fun hf => ?_, hpos n (Array.mem_of_getElem? hn)⟩
    all_goals by_cases hi : i < g.nodes.size
    · have hold : g.nodes[i]? = some n := by rwa [getElem?_of_isPrefix he.nodes hi] at hn
      obtain ⟨ts, hts, hargs⟩ := (h.applies hold).app hf
      exact ⟨ts, hts, hargs.imp fun j t hj => ⟨hj.1, keyAt_of_isPrefix he.nodes hj.2⟩⟩
    · exact (he.described (Nat.le_of_not_lt hi) hn).app hf
    · have hold : g.nodes[i]? = some n := by rwa [getElem?_of_isPrefix he.nodes hi] at hn
      exact (h.applies hold).leaf hf
    · exact (he.described (Nat.le_of_not_lt hi) hn).leaf hf
  atoms {u x} hu := by
    have hmono {x : Atom} (hx : x.Below g.nodes.size) : x.Below g'.nodes.size := by
      have hle := size_le_of_isPrefix he.nodes
      cases x with
      | eq a b => exact ⟨Nat.lt_of_lt_of_le hx.1 hle, Nat.lt_of_lt_of_le hx.2 hle⟩
      | pred n => exact Nat.lt_of_lt_of_le hx hle
    rcases he.atoms with ⟨rfl, -⟩ | ⟨-, -, x', hatoms, hmeans⟩
    · exact h.atoms hu
    · rw [hatoms, Std.HashMap.getElem?_insert] at hu
      split at hu
      · obtain rfl := Option.some.inj hu
        cases hmeans with
        | eq ha hb => exact ⟨lt_of_keyAt ha, lt_of_keyAt hb⟩
        | pred hp => exact lt_of_keyAt hp
      · exact hmono (h.atoms hu)

/-- What is entered for a variable that is not on the trail leaves the trail's atoms as they are. -/
theorem OfTerms.grown (hs : s.Wf) (h : OfTerms s g') {m : (Term × Term) ⊕ Term}
    (he : Enters s v m g g') (hv : ∀ l ∈ trail, l.var ≠ v) : Grown trail g g' where
  wf := h.wf hs
  nodes := he.nodes
  classes := he.classes
  atoms l hl := by
    rcases he.atoms with ⟨rfl, -⟩ | ⟨-, -, x, hatoms, -⟩
    · rfl
    · rw [hatoms, Std.HashMap.getElem?_insert, if_neg]
      simpa using (hv l hl).symm

/-- Making a variable that is not on the trail stand for an equality is a step that a search may
take at level 0. -/
theorem OfTerms.addEq (hs : s.Wf) (h : OfTerms s g) (ha : Plain s a) (hb : Plain s b)
    (hv : ∀ l ∈ trail, l.var ≠ v) :
    OfTerms s (addEq s v a b g).2 ∧ Grown trail g (addEq s v a b g).2 := by
  have he := addEq_enters hs h.indexed v a b
  have hold : g.PositiveApps := h.positiveApps
  have hpos : (Egraph.addEq s v a b g).2.PositiveApps := by
    by_cases hc : g.atoms.contains v = true
    · rwa [addEq_of_contains hc]
    · rw [addEq_of_new hc]
      exact (hold.internalizeAt _ ha).internalizeAt _ hb
  exact ⟨h.enter he hpos, (h.enter he hpos).grown hs he hv⟩

/-- So is making it stand for a boolean application. -/
theorem OfTerms.addPred (hs : s.Wf) (h : OfTerms s g) (ht : Plain s t)
    (hv : ∀ l ∈ trail, l.var ≠ v) :
    OfTerms s (addPred s v t g).2 ∧ Grown trail g (Egraph.addPred s v t g).2 := by
  have he := addPred_enters hs h.indexed v t
  have hold : g.PositiveApps := h.positiveApps
  have hpos : (Egraph.addPred s v t g).2.PositiveApps := by
    by_cases hc : g.atoms.contains v = true
    · rwa [addPred_of_contains hc]
    · rw [addPred_of_new hc]
      exact hold.internalizeAt _ ht
  exact ⟨h.enter he hpos, (h.enter he hpos).grown hs he hv⟩

end Entail.Egraph
