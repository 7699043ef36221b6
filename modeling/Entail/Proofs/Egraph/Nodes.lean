import Entail.Egraph.Explain
import Entail.Proofs.Store.Wf
import Entail.Proofs.Tables
import Mathlib.Order.Basic

/-!
# Nodes and atoms of the e-graph

The tables by term and by function say what the list of nodes says. So it is enough to follow the
nodes: a term is internalized by adding nodes at the end, for itself and for its parts, and a scope
is closed by removing the last ones. A search changes the classes only.
-/

namespace Entail.Egraph

variable {s : Store} {g g' : Egraph} {nodes : Array Node} {f t : Term} {i : Nat}

/-- Term of a node. -/
abbrev termAt (nodes : Array Node) (i : Nat) : Option Term := keyAt Node.term nodes i

/-- Numbers of the applications of `f` among some nodes. -/
def applications (nodes : Array Node) (f : Term) : List Nat :=
  (List.range nodes.size).filter fun i => (nodes[i]?).bind Node.func = some f

/-- The tables by term and by function are those of the nodes. -/
structure Indexed (g : Egraph) : Prop where
  nodeOf : Indexes Node.term g.nodes g.nodeOf
  apps : ∀ f, g.apps[f]? = if applications g.nodes f = [] then none
    else some (applications g.nodes f).toArray

/-- A function with applications is that of some node. -/
theorem Indexed.exists_of_mem_apps {g : Egraph} (h : g.Indexed) {f : Term} (hf : f ∈ g.apps) :
    ∃ n ∈ g.nodes, n.func = some f := by
  rw [← Std.HashMap.isSome_getElem?_iff_mem, h.apps] at hf
  split at hf
  · cases hf
  next hne =>
    obtain ⟨i, hi⟩ := List.exists_mem_of_ne_nil _ hne
    obtain ⟨n, hn, hfunc⟩ := Option.bind_eq_some_iff.mp
      (of_decide_eq_true (List.mem_filter.mp hi).2)
    exact ⟨n, Array.mem_of_getElem? hn, hfunc⟩

/-- A node says of its term what the store says; the arguments of an application are
earlier nodes. -/
structure Node.Describes (s : Store) (nodes : Array Node) (i : Nat) (n : Node) : Prop where
  ty : n.ty = s.ty n.term
  app : ∀ {f}, n.func = some f → ∃ ts, s.shape n.term = .app f ts ∧
    List.Forall₂ (fun j t => j < i ∧ termAt nodes j = some t) n.args ts
  leaf : n.func = none → n.args = []

/-- Nodes and atoms that stay when a scope is closed that was opened at the given sizes. -/
def upTo (g : Egraph) (mark : Nat × Nat) : List Node × (Nat → Option Atom) :=
  (g.nodes.toList.take mark.1, Entail.upTo g.atomLog.toList mark.2 id (g.atoms[·]?))

/-! ## Adding and removing nodes -/

/-- A node that is added is the last application of its head. -/
theorem applications_push (nodes : Array Node) (n : Node) (f : Term) :
    applications (nodes.push n) f = applications nodes f ++ if n.func = some f then [nodes.size]
      else [] := by
  unfold applications
  rw [Array.size_push, List.range_succ, List.filter_append]
  congr 1
  · apply List.filter_congr
    intro i hi
    rw [List.mem_range] at hi
    rw [Array.getElem?_push, if_neg (by omega)]
  · simp [List.filter_singleton]

/-- The indexes of the empty graph are right. -/
theorem indexed_empty : Egraph.empty.Indexed where
  nodeOf := by
    have htruth : Indexes Node.term #[{ term := .top, ty := .bool }] _ :=
      Indexes.empty.push (by simp)
    have h := htruth.push (x := { term := .bot, ty := .bool }) (by simp [Term.top, Term.bot])
    intro t i
    refine Iff.trans ?_ (h t i)
    rw [show Egraph.empty.nodeOf = Std.HashMap.ofList [(.top, trueNode), (.bot, falseNode)]
      from rfl,
      Std.HashMap.ofList_cons, Std.HashMap.insertMany_list_singleton]
    exact Iff.rfl
  apps f := by
    have hfunc : ∀ i < 2, (Egraph.empty.nodes[i]?).bind Node.func = none := by decide
    have hnil : applications Egraph.empty.nodes f = [] :=
      List.filter_eq_nil_iff.mpr fun i hi => by simp [hfunc i (List.mem_range.mp hi)]
    rw [hnil, if_pos rfl]
    exact Std.HashMap.getElem?_empty

theorem Indexed.getD_apps (h : g.Indexed) (f : Term) :
    g.apps.getD f #[] = (applications g.nodes f).toArray := by
  rw [Std.HashMap.getD_eq_getD_getElem?, h.apps]
  split
  next hnil => simp [hnil]
  next => rfl

/-- A node of a new term keeps the tables right. -/
theorem Indexed.addNode (h : g.Indexed) {n : Node} (hnew : g.nodeOf[n.term]? = none) :
    (Egraph.addNode n g).2.Indexed where
  nodeOf := h.nodeOf.push hnew
  apps f := by
    show (Egraph.addNode n g).2.apps[f]? =
      if applications (g.nodes.push n) f = [] then none
        else some (applications (g.nodes.push n) f).toArray
    rw [applications_push]
    cases hfunc : n.func with
    | none =>
      have happs : (Egraph.addNode n g).2.apps = g.apps := by
        simp only [Egraph.addNode, hfunc]
        rfl
      rw [happs]
      simpa using h.apps f
    | some k =>
      have happs : (Egraph.addNode n g).2.apps = g.apps.insert k
          ((g.apps.getD k #[]).push g.nodes.size) := by
        simp only [Egraph.addNode, hfunc]
        rfl
      rw [happs]
      rw [Std.HashMap.getElem?_insert, h.getD_apps]
      by_cases hk : k = f
      · subst hk
        simp
      · have hnone : ¬ some k = some f := by simpa using hk
        rw [if_neg (show ¬ (k == f) = true by simpa using hk), if_neg hnone, List.append_nil]
        exact h.apps f

/-- Removing the last node takes it out of the tables. -/
theorem Indexed.popNode (h : g.Indexed) : g.popNode.Indexed ∧ g.popNode.nodes = g.nodes.pop := by
  unfold Egraph.popNode
  split
  next hback =>
    have : g.nodes = #[] := Array.back?_eq_none_iff.mp hback
    exact ⟨h, by simp [this]⟩
  next n hback =>
    obtain ⟨nodes, hnodes⟩ := Array.back?_eq_some_iff.mp hback
    have hpop : g.nodes.pop = nodes := by simp [hnodes]
    refine ⟨⟨?_, fun f => ?_⟩, rfl⟩
    · have htake := h.nodeOf.take nodes.size
      simp only [hnodes, Array.toList_push, ← Array.length_toList, List.drop_left] at htake
      have : (nodes.push n).take nodes.size = g.nodes.pop := by
        rw [hpop]
        simp
      rw [← Array.length_toList] at this
      rwa [this] at htake
    · have happs (k : Term) := applications_push nodes n k
      rw [← hnodes] at happs
      have hold := h.apps f
      rw [happs] at hold
      simp only [hpop]
      cases hfunc : n.func with
      | none => simpa [hfunc] using hold
      | some k =>
        simp only
        rw [h.getD_apps, happs, if_pos hfunc]
        by_cases hk : k = f
        · subst hk
          split
          next hempty =>
            have hnil : applications nodes k = [] := by simpa using hempty
            simp [hnil]
          next hne =>
            have hcons : applications nodes k ≠ [] := by simpa using hne
            simp [hcons]
        · have hnone : ¬ n.func = some f := by simpa [hfunc] using hk
          rw [if_neg hnone, List.append_nil] at hold
          split
          · rw [Std.HashMap.getElem?_erase, if_neg (by simpa using hk), hold]
          · rw [Std.HashMap.getElem?_insert, if_neg (by simpa using hk), hold]

/-! ## Internalizing -/

/-- `g'` has more nodes than `g`, for terms of smaller rank than `bound`, and agrees with the
store on them. -/
structure Grows (s : Store) (rank : Term → Nat) (bound : Nat) (g g' : Egraph) : Prop where
  indexed : g'.Indexed
  nodes : g.nodes.toList <+: g'.nodes.toList
  atoms : g'.atoms = g.atoms
  atomLog : g'.atomLog = g.atomLog
  scopes : g'.scopes = g.scopes
  classes : g'.classes = g.classes
  described : ∀ {i n}, g.nodes.size ≤ i → g'.nodes[i]? = some n → n.Describes s g'.nodes i ∧
    rank n.term < bound

theorem Node.Describes.of_isPrefix {nodes' : Array Node} {n : Node} (h : n.Describes s nodes i)
    (hp : nodes.toList <+: nodes'.toList) : n.Describes s nodes' i where
  ty := h.ty
  app hf := by
    obtain ⟨ts, hts, hargs⟩ := h.app hf
    exact ⟨ts, hts, hargs.imp fun j t hj => ⟨hj.1, keyAt_of_isPrefix hp hj.2⟩⟩
  leaf := h.leaf

section

variable {rank : Term → Nat} {bound : Nat}

theorem Grows.refl (h : g.Indexed) : Grows s rank bound g g where
  indexed := h
  nodes := List.prefix_rfl
  atoms := rfl
  atomLog := rfl
  scopes := rfl
  classes := rfl
  described hi hn := absurd (Array.getElem?_eq_some_iff.mp hn).1 (Nat.not_lt_of_le hi)

/-- Growing twice is growing, up to the greater rank. -/
theorem Grows.trans {g'' : Egraph} (h : Grows s rank bound g g') (h' : Grows s rank bound g' g'') :
    Grows s rank bound g g'' where
  indexed := h'.indexed
  nodes := h.nodes.trans h'.nodes
  atoms := h'.atoms.trans h.atoms
  atomLog := h'.atomLog.trans h.atomLog
  scopes := h'.scopes.trans h.scopes
  classes := h'.classes.trans h.classes
  described {i n} hi hn := by
    by_cases hlt : i < g'.nodes.size
    · have hold : g'.nodes[i]? = some n := by
        rwa [getElem?_of_isPrefix h'.nodes hlt] at hn
      obtain ⟨hd, hr⟩ := h.described hi hold
      exact ⟨hd.of_isPrefix h'.nodes, hr⟩
    · exact h'.described (Nat.le_of_not_lt hlt) hn

theorem Grows.mono {bound' : Nat} (h : Grows s rank bound g g') (hle : bound ≤ bound') :
    Grows s rank bound' g g' :=
  { h with described := fun hi hn =>
    ⟨(h.described hi hn).1, Nat.lt_of_lt_of_le (h.described hi hn).2 hle⟩ }

/-- A new node for a term whose parts have their nodes already. -/
theorem Grows.addNode (h : Grows s rank bound g g') {n : Node} (hnew : g'.nodeOf[n.term]? = none)
    (hn : n.Describes s g'.nodes g'.nodes.size) (hrank : rank n.term < bound) :
    Grows s rank bound g (Egraph.addNode n g').2 ∧
      termAt (Egraph.addNode n g').2.nodes (Egraph.addNode n g').1 = some n.term := by
  have hpre : g'.nodes.toList <+: (Egraph.addNode n g').2.nodes.toList :=
    ⟨[n], by rw [show (Egraph.addNode n g').2.nodes = g'.nodes.push n from rfl, Array.toList_push]⟩
  refine ⟨h.trans ⟨h.indexed.addNode hnew, hpre, rfl, rfl, rfl, rfl, fun {i m} hi hm => ?_⟩, ?_⟩
  · change (g'.nodes.push n)[i]? = some m at hm
    rw [Array.getElem?_push] at hm
    split at hm
    next heq =>
      cases hm
      subst heq
      exact ⟨hn.of_isPrefix hpre, hrank⟩
    next => exact absurd (Array.getElem?_eq_some_iff.mp hm).1 (Nat.not_lt_of_le hi)
  · exact (keyAt_push g'.nodes n g'.nodes.size).trans (if_pos rfl)

/-- Parts of a term get their nodes one after the other. -/
theorem mapM_grows {op : Term → StateM Egraph Nat} (ts : List Term)
    (hop : ∀ t ∈ ts, ∀ g, g.Indexed → Grows s rank bound g (op t g).2 ∧
      termAt (op t g).2.nodes (op t g).1 = some t)
    (h : g.Indexed) :
    Grows s rank bound g (ts.mapM op g).2 ∧
      List.Forall₂ (fun j t => termAt (ts.mapM op g).2.nodes j = some t) (ts.mapM op g).1 ts := by
  induction ts generalizing g with
  | nil => exact ⟨.refl h, .nil⟩
  | cons t ts ih =>
    obtain ⟨h₁, ht⟩ := hop t List.mem_cons_self g h
    obtain ⟨h₂, hts⟩ := ih (fun u hu => hop u (List.mem_cons_of_mem _ hu)) h₁.indexed
    rw [List.mapM_cons]
    exact ⟨h₁.trans h₂, .cons (keyAt_of_isPrefix h₂.nodes ht) hts⟩

end

theorem Grows.nodeOf_eq_none {rank : Term → Nat} (h : g.Indexed) (hg : Grows s rank (rank t) g g')
    (hnone : g.nodeOf[t]? = none) : g'.nodeOf[t]? = none := by
  cases hsome : g'.nodeOf[t]? with
  | none => rfl
  | some i =>
    have hterm := (hg.indexed.nodeOf _ _).mp hsome
    obtain ⟨n, hn, hnt⟩ := Option.map_eq_some_iff.mp hterm
    by_cases hlt : i < g.nodes.size
    · rw [getElem?_of_isPrefix hg.nodes hlt] at hn
      have : g.nodeOf[t]? = some i :=
        (h.nodeOf _ _).mpr (by rw [keyAt, hn]; exact congrArg some hnt)
      rw [hnone] at this
      cases this
    · have hlt' := (hg.described (Nat.le_of_not_lt hlt) hn).2
      rw [hnt] at hlt'
      exact absurd hlt' (Nat.lt_irrefl _)

/-- A term that has a node keeps it. -/
theorem internalizeAt_found (h : g.nodeOf[t]? = some i) (depth : Nat) :
    internalizeAt s depth t g = (i, g) := by
  unfold internalizeAt
  simp only [bind, StateT.bind, get, getThe, MonadStateOf.get, StateT.get, pure, h]
  rfl

/-- An application without a node gets its arguments' nodes first, and then its own. -/
theorem internalizeAt_app (h : g.nodeOf[t]? = none) {args : List Term}
    (hs : s.shape t = .app f args) (depth : Nat) :
    internalizeAt s (depth + 1) t g = Egraph.addNode
      { term := t, ty := s.ty t, func := some f, args := (args.mapM (internalizeAt s depth) g).1 }
      (args.mapM (internalizeAt s depth) g).2 := by
  unfold internalizeAt
  simp only [bind, StateT.bind, get, getThe, MonadStateOf.get, StateT.get, pure, h, hs]
  rfl

theorem internalizeAt_leaf (h : g.nodeOf[t]? = none) {depth : Nat}
    (hs : depth = 0 ∨ ∀ f args, s.shape t ≠ .app f args) :
    internalizeAt s depth t g = Egraph.addNode { term := t, ty := s.ty t } g := by
  unfold internalizeAt
  simp only [bind, StateT.bind, get, getThe, MonadStateOf.get, StateT.get, pure, h]
  cases depth with
  | zero => rfl
  | succ depth =>
    cases hshape : s.shape t with
    | app f args => exact absurd hshape (hs.resolve_left (Nat.succ_ne_zero _) f args)
    | _ => rfl

/-- Internalizing a term adds nodes for itself and for its parts. -/
theorem internalizeAt_grows {rank : Term → Nat}
    (hrank : ∀ t, ∀ c ∈ (s.shape t).children, rank c < rank t) (depth : Nat)
    (t : Term) (h : g.Indexed) :
    Grows s rank (rank t + 1) g (internalizeAt s depth t g).2 ∧
      termAt (internalizeAt s depth t g).2.nodes (internalizeAt s depth t g).1 = some t := by
  induction depth generalizing t g with
  | zero =>
    cases hnode : g.nodeOf[t]? with
    | some i =>
      rw [internalizeAt_found hnode]
      exact ⟨.refl h, (h.nodeOf _ _).mp hnode⟩
    | none =>
      rw [internalizeAt_leaf hnode (.inl rfl)]
      exact (Grows.refl h).addNode hnode ⟨rfl, fun hf => (by cases hf), fun _ => rfl⟩
        (Nat.lt_succ_self _)
  | succ depth ih =>
    cases hnode : g.nodeOf[t]? with
    | some i =>
      rw [internalizeAt_found hnode]
      exact ⟨.refl h, (h.nodeOf _ _).mp hnode⟩
    | none =>
      by_cases happ : ∃ f args, s.shape t = .app f args
      · obtain ⟨f, args, hs⟩ := happ
        rw [internalizeAt_app hnode hs]
        have hpart (c : Term) (hc : c ∈ args) (g : Egraph) (hg : g.Indexed) :
            Grows s rank (rank t) g (internalizeAt s depth c g).2 ∧
              termAt (internalizeAt s depth c g).2.nodes (internalizeAt s depth c g).1 =
                some c := by
          obtain ⟨hgrows, hterm⟩ := ih c hg
          exact ⟨hgrows.mono (hrank t c (by rw [hs]; exact List.mem_cons_of_mem _ hc)), hterm⟩
        obtain ⟨hgrows, hargs⟩ := mapM_grows args hpart h
        refine (hgrows.mono (Nat.le_succ _)).addNode (hgrows.nodeOf_eq_none h hnode)
          ⟨rfl, ?_, fun hf => ?_⟩
          (Nat.lt_succ_self _)
        · intro f' hf
          cases hf
          exact ⟨args, hs, hargs.imp fun j u hu => ⟨lt_of_keyAt hu, hu⟩⟩
        · cases hf
      · have hno : ∀ f args, s.shape t ≠ .app f args := fun f args hs => happ ⟨f, args, hs⟩
        rw [internalizeAt_leaf hnode (.inr hno)]
        exact (Grows.refl h).addNode hnode ⟨rfl, fun hf => (by cases hf), fun _ => rfl⟩
          (Nat.lt_succ_self _)

/-- The arguments of the terms of a class are in the class. -/
def ClosedUnderArgs (s : Store) (P : Term → Prop) : Prop :=
  ∀ {t f args}, P t → s.shape t = .app f args → ∀ a ∈ args, P a

/-- New nodes are for the term that is internalized and for arguments in it. -/
theorem mem_nodes_internalizeAt {P : Term → Prop} (hP : ClosedUnderArgs s P) (depth : Nat)
    {n : Node} (ht : P t)
    (hn : n ∈ (internalizeAt s depth t g).2.nodes) : n ∈ g.nodes ∨ P n.term := by
  have leaf {u : Term} {g : Egraph} {node : Node} (hu : P u) (hterm : node.term = u) {m : Node}
      (hm : m ∈ (addNode node g).2.nodes) : m ∈ g.nodes ∨ P m.term := by
    rcases Array.mem_push.mp (show m ∈ g.nodes.push node from hm) with hm | rfl
    · exact .inl hm
    · exact .inr (hterm ▸ hu)
  induction depth generalizing t g n with
  | zero =>
    cases hnode : g.nodeOf[t]? with
    | some i =>
      rw [internalizeAt_found hnode] at hn
      exact .inl hn
    | none =>
      rw [internalizeAt_leaf hnode (.inl rfl)] at hn
      exact leaf ht rfl hn
  | succ depth ih =>
    cases hnode : g.nodeOf[t]? with
    | some i =>
      rw [internalizeAt_found hnode] at hn
      exact .inl hn
    | none =>
      by_cases happ : ∃ f args, s.shape t = .app f args
      · obtain ⟨f, args, hshape⟩ := happ
        rw [internalizeAt_app hnode hshape] at hn
        have hargs : ∀ {as : List Term} {g : Egraph}, (∀ a ∈ as, P a) →
            ∀ {m}, m ∈ (as.mapM (internalizeAt s depth) g).2.nodes → m ∈ g.nodes ∨ P m.term := by
          intro as
          induction as with
          | nil => exact fun _ _ hm => .inl hm
          | cons a as iha =>
            intro g has m hm
            rw [List.mapM_cons] at hm
            rcases iha (g := (internalizeAt s depth a g).2)
              (fun c hc => has c (List.mem_cons_of_mem _ hc)) hm with hm | hm
            · exact ih (has a List.mem_cons_self) hm
            · exact .inr hm
        rcases leaf ht rfl hn with hn | hn
        · exact hargs (hP ht hshape) hn
        · exact .inr hn
      · rw [internalizeAt_leaf hnode (.inr fun f args h => happ ⟨f, args, h⟩)] at hn
        exact leaf ht rfl hn

/-! ## Atoms -/

/-- Numbers of nodes and of atoms. -/
def sizes (g : Egraph) : Nat × Nat := (g.nodes.size, g.atomLog.size)

/-- What an atom says of two terms, or of one. -/
inductive Means (nodes : Array Node) : Atom → (Term × Term) ⊕ Term → Prop where
  | eq {i j : Nat} {a b : Term} (ha : termAt nodes i = some a) (hb : termAt nodes j = some b) :
    Means nodes (.eq i j) (.inl (a, b))
  | pred {i : Nat} {p : Term} (hp : termAt nodes i = some p) : Means nodes (.pred i) (.inr p)

/-- `g'` has more nodes than `g`, which agree with the store, and an atom for `v` that says `m`,
unless `v` had one. -/
structure Enters (s : Store) (v : Nat) (m : (Term × Term) ⊕ Term) (g g' : Egraph) : Prop where
  indexed : g'.Indexed
  nodes : g.nodes.toList <+: g'.nodes.toList
  scopes : g'.scopes = g.scopes
  classes : g'.classes = g.classes
  described : ∀ {i n}, g.nodes.size ≤ i → g'.nodes[i]? = some n → n.Describes s g'.nodes i
  atoms : g' = g ∧ (∃ a, g.atoms[v]? = some a) ∨ g.atoms[v]? = none ∧
    g'.atomLog = g.atomLog.push v ∧
    ∃ a, g'.atoms = g.atoms.insert v a ∧ Means g'.nodes a m

theorem Grows.setAtom {rank : Term → Nat} {bound : Nat} (h : Grows s rank bound g g') {v : Nat}
    (hv : g.atoms[v]? = none) {a : Atom} {m : (Term × Term) ⊕ Term} (ha : Means g'.nodes a m) :
    Enters s v m g (Egraph.setAtom v a g').2 where
  indexed := ⟨h.indexed.nodeOf, h.indexed.apps⟩
  nodes := h.nodes
  scopes := h.scopes
  classes := h.classes
  described hi hn := (h.described hi hn).1
  atoms := by
    refine .inr ⟨hv, ?_, a, ?_, ha⟩
    · exact congrArg (·.push v) h.atomLog
    · exact congrArg (·.insert v a) h.atoms

/-- An atom that is there is not entered again. -/
theorem Enters.known (h : g.Indexed) {v : Nat} (hv : g.atoms.contains v = true)
    (m : (Term × Term) ⊕ Term) :
    Enters s v m g g where
  indexed := h
  nodes := List.prefix_rfl
  scopes := rfl
  classes := rfl
  described hi hn := absurd (Array.getElem?_eq_some_iff.mp hn).1 (Nat.not_lt_of_le hi)
  atoms := .inl ⟨rfl, Option.isSome_iff_exists.mp (by simpa using hv)⟩

section

variable {v : Nat}

theorem addEq_of_contains (hv : g.atoms.contains v = true) (a b : Term) :
    addEq s v a b g = ((), g) := by
  unfold addEq
  simp only [bind, StateT.bind, get, getThe, MonadStateOf.get, StateT.get, pure, hv]
  rfl

theorem addEq_of_new (hv : ¬ g.atoms.contains v = true) (a b : Term) :
    addEq s v a b g =
      setAtom v (.eq (internalize s a g).1 (internalize s b (internalize s a g).2).1)
        (internalize s b (internalize s a g).2).2 := by
  unfold addEq
  simp only [bind, StateT.bind, get, getThe, MonadStateOf.get, StateT.get, pure, hv]
  rfl

theorem addPred_of_contains (hv : g.atoms.contains v = true) (p : Term) :
    addPred s v p g = ((), g) := by
  unfold addPred
  simp only [bind, StateT.bind, get, getThe, MonadStateOf.get, StateT.get, pure, hv]
  rfl

theorem addPred_of_new (hv : ¬ g.atoms.contains v = true) (p : Term) :
    addPred s v p g = setAtom v (.pred (internalize s p g).1) (internalize s p g).2 := by
  unfold addPred
  simp only [bind, StateT.bind, get, getThe, MonadStateOf.get, StateT.get, pure, hv]
  rfl

end

/-- Giving a variable the meaning of an equality internalizes its sides. -/
theorem addEq_enters (hw : s.Wf) (h : g.Indexed) (v : Nat) (a b : Term) :
    Enters s v (.inl (a, b)) g (addEq s v a b g).2 := by
  obtain ⟨rank, hrank⟩ := hw.rank_children
  by_cases hv : g.atoms.contains v = true
  · rw [addEq_of_contains hv]
    exact .known h hv _
  · obtain ⟨ha, hat⟩ := internalizeAt_grows hrank (s.terms.slots.size + 1) a h
    obtain ⟨hb, hbt⟩ := internalizeAt_grows hrank (s.terms.slots.size + 1) b ha.indexed
    rw [addEq_of_new hv]
    have hgrows := (ha.mono (Nat.le_max_left _ (rank b + 1))).trans
      (hb.mono (Nat.le_max_right (rank a + 1) _))
    exact hgrows.setAtom (by simpa using hv) (.eq (keyAt_of_isPrefix hb.nodes hat) hbt)

/-- Giving a variable the meaning of a boolean application internalizes it. -/
theorem addPred_enters (hw : s.Wf) (h : g.Indexed) (v : Nat) (p : Term) :
    Enters s v (.inr p) g (addPred s v p g).2 := by
  obtain ⟨rank, hrank⟩ := hw.rank_children
  by_cases hv : g.atoms.contains v = true
  · rw [addPred_of_contains hv]
    exact .known h hv _
  · obtain ⟨hp, hpt⟩ := internalizeAt_grows hrank (s.terms.slots.size + 1) p h
    rw [addPred_of_new hv]
    exact hp.setAtom (by simpa using hv) (.pred hpt)

/-- An equality enters nodes for terms in it only. -/
theorem mem_nodes_addEq {P : Term → Prop} (hP : ClosedUnderArgs s P) (v : Nat) {a b : Term}
    {n : Node} (ha : P a)
    (hb : P b) (hn : n ∈ (addEq s v a b g).2.nodes) : n ∈ g.nodes ∨ P n.term := by
  by_cases hv : g.atoms.contains v = true
  · rw [addEq_of_contains hv] at hn
    exact .inl hn
  · rw [addEq_of_new hv] at hn
    rcases mem_nodes_internalizeAt hP _ hb hn with hn | hn
    · exact mem_nodes_internalizeAt hP _ ha hn
    · exact .inr hn

theorem mem_nodes_addPred {P : Term → Prop} (hP : ClosedUnderArgs s P) (v : Nat) {p : Term}
    {n : Node} (hp : P p) (hn : n ∈ (addPred s v p g).2.nodes) : n ∈ g.nodes ∨ P n.term := by
  by_cases hv : g.atoms.contains v = true
  · rw [addPred_of_contains hv] at hn
    exact .inl hn
  · rw [addPred_of_new hv] at hn
    exact mem_nodes_internalizeAt hP _ hp hn

/-- What a closed scope leaves is not changed by entering something in it. -/
theorem Enters.upTo {v : Nat} {m : (Term × Term) ⊕ Term} (h : Enters s v m g g') {mark : Nat × Nat}
    (hmark : mark ≤ g.sizes) : g'.upTo mark = g.upTo mark := by
  obtain ⟨hn, ha⟩ : mark.1 ≤ g.nodes.size ∧ mark.2 ≤ g.atomLog.size := hmark
  refine Prod.ext ?_ ?_
  · obtain ⟨l, hl⟩ := h.nodes
    show g'.nodes.toList.take mark.1 = g.nodes.toList.take mark.1
    rw [← hl, List.take_append_of_le_length (by simpa using hn)]
  · rcases h.atoms with ⟨rfl, -⟩ | ⟨hnone, hlog, a, hatoms, -⟩
    · rfl
    · show Entail.upTo g'.atomLog.toList _ _ _ = _
      rw [hlog, Array.toList_push, hatoms]
      refine upTo_insert (k := v) (by simpa using ha) (fun _ _ hij => hij) ?_ fun j hj => ?_
      · simp [Entail.upTo, hnone]
      · simp [Std.HashMap.getElem?_insert, Ne.symm hj]

theorem Enters.sizes {v : Nat} {m : (Term × Term) ⊕ Term} (h : Enters s v m g g') :
    g.sizes ≤ g'.sizes := by
  refine ⟨size_le_of_isPrefix h.nodes, ?_⟩
  rcases h.atoms with ⟨rfl, -⟩ | ⟨-, hlog, -⟩
  · exact Nat.le_refl _
  · show g.atomLog.size ≤ g'.atomLog.size
    rw [hlog, Array.size_push]
    exact Nat.le_succ _

/-- `g'` has at least the nodes and atoms of `g`, and the same scopes. -/
structure Adds (g g' : Egraph) : Prop where
  indexed : g'.Indexed
  scopes : g'.scopes = g.scopes
  sizes : g.sizes ≤ g'.sizes
  upTo : ∀ {mark}, mark ≤ g.sizes → g'.upTo mark = g.upTo mark

/-- Entering an atom adds nodes at the end. -/
theorem Enters.adds {v : Nat} {m : (Term × Term) ⊕ Term} (h : Enters s v m g g') : Adds g g' :=
  ⟨h.indexed, h.scopes, h.sizes, h.upTo⟩

/-! ## Scopes -/

/-- The sizes at which scopes were opened do not grow from the innermost scope on, and are not above
the present ones. -/
def Nested (g : Egraph) : Prop := (g.sizes :: g.scopes).Pairwise (· ≥ ·)

/-- Taking nodes off the end takes them out of the indexes, and nothing else. -/
theorem popNodes_spec (h : g.Indexed) (count : Nat) :
    let g' := (List.range count).foldl (fun g _ => g.popNode) g
    g'.Indexed ∧ g'.nodes.toList = g.nodes.toList.take (g.nodes.size - count) ∧ g'.atoms = g.atoms ∧
      g'.atomLog = g.atomLog := by
  induction count with
  | zero => exact ⟨h, by simp [← Array.length_toList], rfl, rfl⟩
  | succ count ih =>
    obtain ⟨hi, hn, ha, hl⟩ := ih
    rw [List.range_succ, List.foldl_append]
    obtain ⟨hi', hn'⟩ := hi.popNode
    generalize (List.range count).foldl (fun g _ => g.popNode) g = g₁ at *
    refine ⟨hi', ?_, ?_, ?_⟩
    · show g₁.popNode.nodes.toList = _
      rw [hn', Array.toList_pop, hn, List.dropLast_eq_take, List.take_take]
      congr 1
      simp
      omega
    · rw [← ha]
      show g₁.popNode.atoms = _
      unfold Egraph.popNode
      split <;> rfl
    · rw [← hl]
      show g₁.popNode.atomLog = _
      unfold Egraph.popNode
      split <;> rfl

/-- Closing a scope leaves what there was when it was opened. -/
theorem pop_spec (h : g.Indexed) (hnested : g.Nested) {mark : Nat × Nat} {scopes : List (Nat × Nat)}
    (hs : g.scopes = mark :: scopes) :
    g.pop.Indexed ∧ g.pop.Nested ∧ g.pop.scopes = scopes ∧ g.pop.sizes = mark ∧
      ∀ {outer}, outer ≤ mark → g.pop.upTo outer = g.upTo outer := by
  obtain ⟨numNodes, numAtoms⟩ := mark
  obtain ⟨hi, hn, ha, hl⟩ := popNodes_spec (g := g.clearClasses) ⟨h.nodeOf, h.apps⟩
    (g.nodes.size - numNodes)
  have hpop : g.pop =
      let g' := (List.range (g.nodes.size - numNodes)).foldl (fun g _ => g.popNode) g.clearClasses
      { g' with
        scopes
        atoms := (g'.atomLog.toList.drop numAtoms).foldl (fun m v => m.erase v) g'.atoms
        atomLog := g'.atomLog.take numAtoms } := by
    unfold Egraph.pop
    rw [hs]
  rw [Nested, hs] at hnested
  obtain ⟨hle, hrest⟩ := List.pairwise_cons.mp hnested
  obtain ⟨hleNodes, hleAtoms⟩ : numNodes ≤ g.nodes.size ∧ numAtoms ≤ g.atomLog.size :=
    hle _ List.mem_cons_self
  generalize (List.range (g.nodes.size - numNodes)).foldl (fun g _ => g.popNode) g.clearClasses =
    g' at *
  have hnodes : g'.nodes.toList = g.nodes.toList.take numNodes := by
    rw [hn]
    show g.nodes.toList.take (g.nodes.size - (g.nodes.size - numNodes)) = _
    congr 1
    omega
  have hsizes : g.pop.sizes = (numNodes, numAtoms) := by
    rw [hpop]
    refine Prod.ext ?_ ?_
    · show g'.nodes.size = numNodes
      rw [← Array.length_toList, hnodes, List.length_take, Array.length_toList]
      omega
    · show (g'.atomLog.take numAtoms).size = numAtoms
      rw [hl]
      show (g.atomLog.take numAtoms).size = numAtoms
      rw [Array.take_eq_extract, Array.size_extract]
      omega
  refine ⟨?_, ?_, by rw [hpop], hsizes, fun {outer} houter => ?_⟩
  · rw [hpop]
    exact ⟨hi.nodeOf, hi.apps⟩
  · rw [Nested, hsizes, show g.pop.scopes = scopes by rw [hpop]]
    exact hrest
  · rw [hpop]
    refine Prod.ext ?_ ?_
    · show g'.nodes.toList.take outer.1 = g.nodes.toList.take outer.1
      rw [hnodes, List.take_take, Nat.min_eq_left houter.1]
    · show Entail.upTo (g'.atomLog.take numAtoms).toList outer.2 id
        (((g'.atomLog.toList.drop numAtoms).foldl (fun m v => m.erase v) g'.atoms)[·]?) = _
      rw [show g'.atomLog = g.atomLog from hl, show g'.atoms = g.atoms from ha,
        Array.take_eq_extract,
        Array.toList_extract]
      refine upTo_take (m := numAtoms) houter.2 fun v => ?_
      exact getElem?_foldl_erase _ _ v

/-- Opening a scope notes the sizes. -/
theorem push_spec (h : g.Indexed) (hnested : g.Nested) :
    g.push.Indexed ∧ g.push.Nested ∧ g.push.scopes = g.sizes :: g.scopes ∧ g.push.sizes = g.sizes ∧
      ∀ mark, g.push.upTo mark = g.upTo mark := by
  refine ⟨⟨h.nodeOf, h.apps⟩, ?_, rfl, rfl, fun _ => rfl⟩
  refine List.pairwise_cons.mpr ⟨fun m hm => ?_, hnested⟩
  rcases List.mem_cons.mp hm with rfl | hm
  · exact ⟨Nat.le_refl _, Nat.le_refl _⟩
  · exact (List.pairwise_cons.mp hnested).1 m hm

/-- Merging a scope forgets the sizes noted for it, and keeps the nodes. -/
theorem mergeScope_spec (h : g.Indexed) (hnested : g.Nested) :
    g.mergeScope.Indexed ∧ g.mergeScope.Nested ∧ g.mergeScope.sizes = g.sizes ∧
      ∀ mark, g.mergeScope.upTo mark = g.upTo mark :=
  ⟨⟨h.nodeOf, h.apps⟩, hnested.sublist ((List.tail_sublist _).cons_cons _), rfl, fun _ => rfl⟩

/-! ## Searching -/

/-- `g'` differs from `g` in the classes only. -/
def SameNodes (g g' : Egraph) : Prop := g'.clearClasses = g.clearClasses

namespace SameNodes

theorem refl (g : Egraph) : SameNodes g g := rfl

theorem trans {g'' : Egraph} (h : SameNodes g g') (h' : SameNodes g' g'') : SameNodes g g'' :=
  Eq.trans h' h

theorem modify (g : Egraph) (k : Classes → Classes) : SameNodes g (g.modifyClasses k) := rfl

theorem foldl {α : Type} {f : Egraph → α → Egraph} (h : ∀ g a, SameNodes g (f g a)) (as : List α)
    (g : Egraph) :
    SameNodes g (as.foldl f g) := by
  induction as generalizing g with
  | nil => rfl
  | cons a as ih => exact (h g a).trans (ih (f g a))

theorem adds (h : SameNodes g g') (hg : g.Indexed) : Adds g g' := by
  have hback : g' = { g with classes := g'.classes } :=
    congrArg (fun k : Egraph => { k with classes := g'.classes }) h
  rw [hback]
  exact ⟨⟨hg.nodeOf, hg.apps⟩, rfl, ⟨Nat.le_refl _, Nat.le_refl _⟩, fun _ => rfl⟩

end SameNodes

theorem sameNodes_eraseSig (g : Egraph) (p : Nat) : SameNodes g (g.eraseSig p) := by
  unfold eraseSig
  repeat' split
  all_goals rfl

theorem sameNodes_enterSig (g : Egraph) (p : Nat) : SameNodes g (g.enterSig p).2 := by
  unfold enterSig
  repeat' split
  all_goals rfl

theorem sameNodes_enterSigs (ps : List Nat) (found : List Edge) (g : Egraph) :
    SameNodes g (enterSigs ps found g).2 := by
  induction ps generalizing found g with
  | nil => rfl
  | cons p ps ih =>
    have h := sameNodes_enterSig g p
    unfold enterSigs
    split
    all_goals
      next heq =>
        rw [heq] at h
        exact h.trans (ih _ _)

theorem sameNodes_merge (g : Egraph) (e : Edge) : SameNodes g (g.merge e).2 := by
  unfold merge
  simp only
  split
  · rfl
  · refine SameNodes.trans ?_ (sameNodes_enterSigs _ _ _)
    exact SameNodes.foldl (f := eraseSig) sameNodes_eraseSig _ (g.addEdge e)

theorem sameNodes_settle (bound : Nat) (es : List Edge) (g : Egraph) :
    SameNodes g (settle bound es g) := by
  fun_induction settle bound es g with
  | case1 => rfl
  | case2 _ _ _ _ _ ih => exact ih
  | case3 => rfl
  | case4 g e rest _ bound more g' heq ih =>
    have h := sameNodes_merge g e
    rw [heq] at h
    exact h.trans ih

theorem sameNodes_backtrack (g : Egraph) (level : Nat) : SameNodes g (g.backtrack level) := rfl

theorem sameNodes_addToClasses (g : Egraph) (n : Nat) : SameNodes g (g.addToClasses n) := by
  have hargs (as : List Nat) (g : Egraph) := SameNodes.foldl (fun g (a : Nat) =>
    SameNodes.modify g fun k => { k with parents := k.parents.modify (k.root.getD a a) (·.push n) })
      as g
  unfold addToClasses
  simp only
  split
  · exact hargs _ _
  · exact hargs _ _

theorem sameNodes_sync (g : Egraph) : SameNodes g g.sync :=
  SameNodes.foldl sameNodes_addToClasses _ g

theorem sameNodes_assertLit (g : Egraph) (l : Literal) : SameNodes g (g.assertLit l).2 := by
  unfold assertLit
  split
  · rfl
  · split
    · rfl
    · exact sameNodes_settle _ _ g
  · exact sameNodes_settle _ _ g

theorem sameNodes_assertLits (ls : List Literal) (changed : Bool) (g : Egraph) :
    SameNodes g (assertLits ls changed g).2 := by
  induction ls generalizing changed g with
  | nil => rfl
  | cons l ls ih =>
    have h := sameNodes_assertLit (g.modifyClasses fun k => { k with processed := k.processed + 1 })
      l
    exact h.trans (ih (changed || _) _)

/-- Propagation works on the classes alone. -/
theorem sameNodes_propagate (g : Egraph) (trail : Array Literal) :
    SameNodes g (g.propagate trail).2 := by
  have h : SameNodes g g.sync.settlePending := (sameNodes_sync g).trans (sameNodes_settle _ _ _)
  exact h.trans (sameNodes_assertLits _ _ g.sync.settlePending)

theorem sameNodes_startSearch (g : Egraph) : SameNodes g g.startSearch :=
  sameNodes_sync g.clearClasses

end Entail.Egraph
