import Entail.Proofs.Egraph.Classes

/-!
# Nodes of one class have one type

A literal makes nodes equal that have one type, and so do the arguments of applications of one
function. Whatever the trail says, and however levels are opened and left, the classes stay
within types: the log can be taken back from any point because every merge in it was between
nodes of one type.
-/

namespace Entail.Egraph

/-- Two nodes that are there have one type. -/
def SameTy (nodes : Array Node) (a b : Nat) : Prop :=
  ∃ m n, nodes[a]? = some m ∧ nodes[b]? = some n ∧ m.ty = n.ty

/-- The node is an application of `f`. -/
def Applies (nodes : Array Node) (f : Term) (p : Nat) : Prop :=
  ∃ n, nodes[p]? = some n ∧ n.func = some f

/-- Applications of one function have one type. -/
def Uniform (nodes : Array Node) : Prop :=
  ∀ ⦃f p q⦄, Applies nodes f p → Applies nodes f q → SameTy nodes p q

/-- What was logged was about nodes of one type. -/
def Undo.Typed (nodes : Array Node) : Undo → Prop
  | .merge small big _ => SameTy nodes small big
  | .sigErase key p => Applies nodes key.1 p
  | .edge | .diseq | .sigInsert _ => True

/-- What the classes say, and what waits or was logged, is within types. -/
structure Classes.Typed (nodes : Array Node) (k : Classes) : Prop where
  size_next : k.next.size = k.root.size
  root : ∀ {n r : Nat}, k.root[n]? = some r → SameTy nodes n r
  next : ∀ {n m : Nat}, k.next[n]? = some m → SameTy nodes n m
  sigs : ∀ {key : Signature} {p : Nat}, k.sigs[key]? = some p → Applies nodes key.1 p
  pending : ∀ e ∈ k.pending, SameTy nodes e.a e.b
  undo : ∀ u ∈ k.undo, u.Typed nodes

/-- The e-graph has the given nodes, and its classes are within types. -/
structure Sorted (nodes : Array Node) (g : Egraph) : Prop where
  nodes_eq : g.nodes = nodes
  classes : g.classes.Typed nodes

variable {nodes nodes' : Array Node} {g : Egraph} {k : Classes} {es : List Edge}
  {e : Edge} {f : Term}
  {key : Signature} {a b c n p q small big start bound : Nat}

namespace SameTy

theorem symm (h : SameTy nodes a b) : SameTy nodes b a := by
  obtain ⟨m, n, hm, hn, hty⟩ := h
  exact ⟨n, m, hn, hm, hty.symm⟩

theorem trans (h : SameTy nodes a b) (h' : SameTy nodes b c) : SameTy nodes a c := by
  obtain ⟨m, n, hm, hn, hty⟩ := h
  obtain ⟨n', o, hn', ho, hty'⟩ := h'
  obtain rfl := Option.some.inj (hn.symm.trans hn')
  exact ⟨m, o, hm, ho, hty.trans hty'⟩

theorem refl (h : n < nodes.size) : SameTy nodes n n :=
  ⟨nodes[n], nodes[n], Array.getElem?_eq_getElem h, Array.getElem?_eq_getElem h, rfl⟩

/-- Nodes that are added leave the types of the others alone. -/
theorem of_isPrefix (h : SameTy nodes a b) (hp : nodes.toList <+: nodes'.toList) :
    SameTy nodes' a b := by
  obtain ⟨m, n, hm, hn, hty⟩ := h
  have hold {i : Nat} {x : Node} (hx : nodes[i]? = some x) : nodes'[i]? = some x := by
    rwa [getElem?_of_isPrefix hp (Array.getElem?_eq_some_iff.mp hx).1]
  exact ⟨m, n, hold hm, hold hn, hty⟩

end SameTy

theorem Applies.of_isPrefix (h : Applies nodes f p) (hp : nodes.toList <+: nodes'.toList) :
    Applies nodes' f p := by
  obtain ⟨n, hn, hf⟩ := h
  exact ⟨n, by rwa [getElem?_of_isPrefix hp (Array.getElem?_eq_some_iff.mp hn).1], hf⟩

/-- A node with a signature applies the head in it. -/
theorem applies_of_signature? (h : g.signature? n = some key) : Applies g.nodes key.1 n := by
  obtain ⟨hfunc, -⟩ := signature?_eq_some.mp h
  have hlt := lt_size_of_func hfunc
  refine ⟨g.nodes[n], Array.getElem?_eq_getElem hlt, ?_⟩
  rw [← hfunc, node, Array.getD_eq_getD_getElem?, Array.getElem?_eq_getElem hlt, Option.getD_some]

/-! ## Reading the classes -/

namespace Classes.Typed

theorem of_isPrefix (h : k.Typed nodes) (hp : nodes.toList <+: nodes'.toList) : k.Typed nodes' where
  size_next := h.size_next
  root hr := (h.root hr).of_isPrefix hp
  next hm := (h.next hm).of_isPrefix hp
  sigs hs := (h.sigs hs).of_isPrefix hp
  pending e he := (h.pending e he).of_isPrefix hp
  undo u hu := by
    have hold := h.undo u hu
    cases u with
    | merge => exact hold.of_isPrefix hp
    | sigErase => exact hold.of_isPrefix hp
    | edge | diseq | sigInsert => trivial

theorem empty (nodes : Array Node) : ({} : Classes).Typed nodes where
  size_next := rfl
  root h := by simp at h
  next h := by simp at h
  sigs h := by simp at h
  pending := nofun
  undo u hu := by simp at hu

/-- The successor of a node has its type, when there is one. -/
theorem follow {next : Array Nat} (h : ∀ {n m : Nat}, next[n]? = some m → SameTy nodes n m)
    (n d : Nat) :
    next.getD n d = d ∨ SameTy nodes n (next.getD n d) := by
  rw [Array.getD_eq_getD_getElem?]
  cases hm : next[n]? with
  | none => exact .inl rfl
  | some m => exact .inr (h hm)

/-- Following a ring one stays within a type. -/
theorem ringFrom {next : Array Nat} (h : ∀ {n m : Nat}, next[n]? = some m → SameTy nodes n m)
    (hn : n = start ∨ SameTy nodes start n) :
    ∀ x ∈ ringFrom next start bound n, SameTy nodes start x := by
  induction bound generalizing n with
  | zero => nofun
  | succ bound ih =>
    intro x hx
    unfold Egraph.ringFrom at hx
    split at hx
    · cases hx
    next hne =>
      have hstart : SameTy nodes start n := hn.resolve_left hne
      rcases List.mem_cons.mp hx with rfl | hx
      · exact hstart
      · exact ih ((follow h n start).imp_right hstart.trans) x hx

/-- Exchanging the successors of two nodes of one type. -/
theorem swap {next : Array Nat} (h : ∀ {n m : Nat}, next[n]? = some m → SameTy nodes n m)
    (hsb : SameTy nodes small big) {n m : Nat} (hm : (Egraph.swap next small big)[n]? = some m) :
    SameTy nodes n m := by
  have hget {x y : Nat} (hxy : SameTy nodes x y) : SameTy nodes x (next.getD y y) :=
    (follow h y y).elim (fun heq => heq.symm ▸ hxy) hxy.trans
  rw [Egraph.swap, Array.getElem?_setIfInBounds] at hm
  split at hm
  next heq =>
    split at hm
    · cases hm
      exact heq ▸ hget hsb.symm
    · cases hm
  next =>
    rw [Array.getElem?_setIfInBounds] at hm
    split at hm
    next heq =>
      split at hm
      · cases hm
        exact heq ▸ hget hsb
      · cases hm
    next => exact h hm

/-- Members of a ring get another representative of their type. -/
theorem foldl_root {root : Array Nat} (h : ∀ {n r : Nat}, root[n]? = some r → SameTy nodes n r)
    {members : List Nat} {v : Nat} (hv : ∀ n ∈ members, SameTy nodes n v) {n r : Nat}
    (hr : (members.foldl (fun root n => root.setIfInBounds n v) root)[n]? = some r) :
    SameTy nodes n r := by
  rw [getElem?_foldl_set] at hr
  split at hr
  next hmem =>
    cases hr
    exact hv n hmem.1
  next => exact h hr

/-- Joining two classes of one type keeps every class of one type. -/
theorem joinRings (h : k.Typed nodes) {members : List Nat} (hsb : SameTy nodes small big)
    (hmembers : ∀ n ∈ members, SameTy nodes n small) (moved : Array Nat) :
    (joinRings k members small big moved).Typed nodes := by
  rw [joinRings_eq]
  exact { h with
    size_next := by rw [size_swap, size_foldl_set, h.size_next]
    root := foldl_root h.root fun n hn => (hmembers n hn).trans hsb
    next := swap h.next hsb }

/-- Splitting a class keeps every class of one type. -/
theorem splitRings (h : k.Typed nodes) (hsb : SameTy nodes small big) (numParents : Nat) :
    (splitRings k small big numParents).Typed nodes := by
  have hnext {n m : Nat} (hm : (Egraph.swap k.next small big)[n]? = some m) : SameTy nodes n m :=
    swap h.next hsb hm
  have hself : SameTy nodes small small := hsb.trans hsb.symm
  rw [splitRings_eq]
  refine { h with size_next := ?_, next := hnext, root := foldl_root h.root fun n hn => ?_ }
  · rw [size_swap, size_foldl_set, h.size_next]
  rcases List.mem_cons.mp hn with rfl | hn
  · exact hself
  · exact (ringFrom hnext (follow hnext small small) n hn).symm

/-! ## Taking changes back -/

theorem revert (h : k.Typed nodes) {u : Undo} (hu : u.Typed nodes) : (revert k u).Typed nodes := by
  cases u with
  | merge small big numParents => exact h.splitRings hu numParents
  | edge =>
    unfold Egraph.revert
    simp only
    split
    · exact h
    · exact { h with }
  | diseq => exact { h with }
  | sigInsert key =>
    refine { h with sigs := fun {key' p} hp => ?_ }
    change (k.sigs.erase key)[key']? = some p at hp
    rw [Std.HashMap.getElem?_erase] at hp
    split at hp
    · cases hp
    · exact h.sigs hp
  | sigErase key n =>
    refine { h with sigs := fun {key' p} hp => ?_ }
    change (k.sigs.insert key n)[key']? = some p at hp
    rw [Std.HashMap.getElem?_insert] at hp
    split at hp
    next heq =>
      cases hp
      exact eq_of_beq heq ▸ hu
    next => exact h.sigs hp

/-- Undoing changes one by one keeps every class of one type. -/
theorem undoLast (h : k.Typed nodes) (count : Nat) : (undoLast count k).Typed nodes := by
  induction count generalizing k with
  | zero => exact h
  | succ count ih =>
    unfold Egraph.undoLast
    split
    · exact h
    next u hu =>
      have hpop : { k with undo := k.undo.pop }.Typed nodes := { h with
        undo := fun v hv => by
          rw [← Array.mem_toList_iff, Array.toList_pop] at hv
          exact h.undo v (Array.mem_toList_iff.mp (List.dropLast_subset _ hv)) }
      exact ih (hpop.revert (h.undo u (Array.mem_of_back? hu)))

end Classes.Typed

/-! ## Changing the classes -/

namespace Sorted

/-- A node has the type of its root. -/
theorem sameTy_root (h : Sorted nodes g) (hn : n < nodes.size) : SameTy nodes n (g.root n) := by
  rw [root, Array.getD_eq_getD_getElem?]
  cases hr : g.classes.root[n]? with
  | none => exact .refl hn
  | some r => exact h.classes.root hr

theorem addEdge (h : Sorted nodes g) (e : Edge) : Sorted nodes (g.addEdge e) := by
  refine ⟨h.nodes_eq, { h.classes with undo := fun u hu => ?_ }⟩
  rcases Array.mem_push.mp (show u ∈ g.classes.undo.push .edge from hu) with hu | rfl
  · exact h.classes.undo u hu
  · trivial

theorem eraseSig (h : Sorted nodes g) (p : Nat) : Sorted nodes (g.eraseSig p) := by
  unfold Egraph.eraseSig
  split
  · exact h
  next key hkey =>
    split
    next =>
      refine ⟨h.nodes_eq, { h.classes with sigs := fun {key' q} hq => ?_, undo := fun u hu => ?_ }⟩
      · change (g.classes.sigs.erase key)[key']? = some q at hq
        rw [Std.HashMap.getElem?_erase] at hq
        split at hq
        · cases hq
        · exact h.classes.sigs hq
      · rcases Array.mem_push.mp (show u ∈ g.classes.undo.push (.sigErase key p)
          from hu) with hu | rfl
        · exact h.classes.undo u hu
        · exact h.nodes_eq ▸ applies_of_signature? hkey
    · exact h

theorem eraseSigs (h : Sorted nodes g) (ps : List Nat) :
    Sorted nodes (ps.foldl Egraph.eraseSig g) := by
  induction ps generalizing g with
  | nil => exact h
  | cons p ps ih => exact ih (h.eraseSig p)

/-- An edge by congruence is between applications of one head, so between nodes of one type. -/
theorem enterSig (hu : Uniform nodes) (h : Sorted nodes g) (p : Nat) :
    Sorted nodes (g.enterSig p).2 ∧ ∀ e ∈ (g.enterSig p).1, SameTy nodes e.a e.b := by
  unfold Egraph.enterSig
  split
  · exact ⟨h, nofun⟩
  next key hkey =>
    have hp : Applies nodes key.1 p := h.nodes_eq ▸ applies_of_signature? hkey
    split
    next q hq =>
      refine ⟨h, fun e he => ?_⟩
      split at he
      · cases he
      · cases he
        exact hu hp (h.classes.sigs hq)
    next =>
      refine ⟨⟨h.nodes_eq, { h.classes with sigs := fun {key' q} hq => ?_, undo := fun u hu =>
        ?_ }⟩, nofun⟩
      · change (g.classes.sigs.insert key p)[key']? = some q at hq
        rw [Std.HashMap.getElem?_insert] at hq
        split at hq
        next heq =>
          cases hq
          exact eq_of_beq heq ▸ hp
        next => exact h.classes.sigs hq
      · rcases Array.mem_push.mp (show u ∈ g.classes.undo.push (.sigInsert key)
          from hu) with hu | rfl
        · exact h.classes.undo u hu
        · trivial

theorem enterSigs (hu : Uniform nodes) (h : Sorted nodes g) (ps : List Nat) {found : List Edge}
    (hfound : ∀ e ∈ found, SameTy nodes e.a e.b) :
    Sorted nodes (enterSigs ps found g).2 ∧ ∀ e ∈ (Egraph.enterSigs ps found g).1,
    SameTy nodes e.a e.b := by
  induction ps generalizing found g with
  | nil => exact ⟨h, hfound⟩
  | cons p ps ih =>
    obtain ⟨hsorted, hnew⟩ := h.enterSig hu p
    unfold Egraph.enterSigs
    split
    next e g' heq =>
      rw [heq] at hsorted hnew
      refine ih hsorted fun e' he' => ?_
      rcases List.mem_cons.mp he' with rfl | he'
      · exact hnew _ rfl
      · exact hfound e' he'
    next g' heq =>
      rw [heq] at hsorted
      exact ih hsorted hfound

/-- Merging the classes of two nodes of one type; what is found is within types. -/
theorem merge (hu : Uniform nodes) (h : Sorted nodes g) (he : SameTy nodes e.a e.b) :
    Sorted nodes (g.merge e).2 ∧ ∀ e' ∈ (g.merge e).1, SameTy nodes e'.a e'.b := by
  have hlt {a b : Nat} (hab : SameTy nodes a b) : a < nodes.size := by
    obtain ⟨m, n, hm, -⟩ := hab
    exact (Array.getElem?_eq_some_iff.mp hm).1
  have hroots : SameTy nodes (g.root e.a) (g.root e.b) :=
    ((h.sameTy_root (hlt he)).symm.trans he).trans (h.sameTy_root (hlt he.symm))
  unfold Egraph.merge
  simp only
  split
  · exact ⟨h, nofun⟩
  generalize hends : (if (g.addEdge e).classes.size.getD (g.root e.a) 0 ≤
    (g.addEdge e).classes.size.getD (g.root e.b) 0 then (g.root e.a, g.root e.b)
      else (g.root e.b, g.root e.a)) = ends
  obtain ⟨small, big⟩ := ends
  have hsb : SameTy nodes small big := by
    split at hends
    · cases hends
      exact hroots
    · cases hends
      exact hroots.symm
  have herase := (h.addEdge e).eraseSigs ((g.addEdge e).classes.parents.getD small #[]).toList
  refine enterSigs hu ?_ _ nofun
  generalize List.foldl Egraph.eraseSig (g.addEdge e) _ = g' at herase ⊢
  have hmembers : ∀ n ∈ g'.ring small, SameTy nodes n small := fun n hn => by
    rcases List.mem_cons.mp hn with rfl | hn
    · exact hsb.trans hsb.symm
    · have hfollow := Classes.Typed.follow herase.classes.next small small
      exact (Classes.Typed.ringFrom herase.classes.next hfollow n hn).symm
  have hjoined := herase.classes.joinRings hsb hmembers
    ((g.addEdge e).classes.parents.getD small #[])
  refine ⟨herase.nodes_eq, { hjoined with undo := fun u hu => ?_ }⟩
  rcases Array.mem_push.mp (show u ∈ g'.classes.undo.push (.merge small big _)
    from hu) with hu | rfl
  · exact hjoined.undo u hu
  · exact hsb

/-- Settling a list of edges of one type each keeps every class of one type, by induction on the
bound. -/
theorem settle (hu : Uniform nodes) (h : Sorted nodes g) (hes : ∀ e ∈ es, SameTy nodes e.a e.b) :
    Sorted nodes (settle bound es g) := by
  fun_induction Egraph.settle bound es g with
  | case1 => exact h
  | case2 g e rest bound heq ih => exact ih h fun e he => hes e (List.mem_cons_of_mem _ he)
  | case3 => exact h
  | case4 g e rest hne bound more g' heq ih =>
    obtain ⟨hsorted, hmore⟩ := h.merge hu (hes e List.mem_cons_self)
    rw [heq] at hsorted hmore
    refine ih hsorted fun e' he' => ?_
    rcases List.mem_append.mp he' with hnew | hold
    · exact hmore e' hnew
    · exact hes e' (List.mem_cons_of_mem _ hold)

theorem settlePending (hu : Uniform nodes) (h : Sorted nodes g) : Sorted nodes g.settlePending := by
  have hcleared : Sorted nodes (g.modifyClasses fun k => { k with pending := [] }) :=
    ⟨h.nodes_eq, { h.classes with pending := nofun }⟩
  exact hcleared.settle hu h.classes.pending

theorem openLevel (h : Sorted nodes g) : Sorted nodes g.openLevel :=
  ⟨h.nodes_eq, { h.classes with }⟩

theorem backtrack (h : Sorted nodes g) (level : Nat) : Sorted nodes (g.backtrack level) := by
  refine ⟨h.nodes_eq, ?_⟩
  have hback : ∀ k : Classes, k.Typed nodes → { k with pending := [] }.Typed nodes := fun k hk =>
    { hk with pending := nofun }
  refine hback _ ?_
  split
  · exact h.classes
  next numUndo processed _ =>
    exact { h.classes.undoLast (g.classes.undo.size - numUndo) with }

/-! ## New nodes -/

/-- The lists of applications do not matter. -/
theorem listParents (h : Sorted nodes g) (n : Nat) (args : List Nat) :
    let g' := args.foldl (fun g a => g.modifyClasses fun k =>
      { k with parents := k.parents.modify (k.root.getD a a) (·.push n) }) g
    Sorted nodes g' ∧ g'.known = g.known := by
  induction args generalizing g with
  | nil => exact ⟨h, rfl⟩
  | cons a args ih => exact ih (g := g.modifyClasses _) ⟨h.nodes_eq, { h.classes with }⟩

/-- The next node gets a class of its own. -/
theorem addToClasses (hu : Uniform nodes) (h : Sorted nodes g) (hn : g.known = n)
    (hlt : n < nodes.size) :
    Sorted nodes (g.addToClasses n) ∧ (g.addToClasses n).known = n + 1 := by
  have hpush {as : Array Nat} (has : ∀ {i r : Nat}, as[i]? = some r → SameTy nodes i r)
    (hsize : as.size = n)
      {i r : Nat} (hr : (as.push n)[i]? = some r) : SameTy nodes i r := by
    rw [Array.getElem?_push] at hr
    split at hr
    next heq =>
      cases hr
      rw [heq, hsize]
      exact .refl hlt
    next => exact has hr
  let g₁ := g.modifyClasses fun k =>
    { k with
      root := k.root.push n
      next := k.next.push n
      size := k.size.push 1
      parents := k.parents.push #[]
      adj := k.adj.push #[] }
  have h₁ : Sorted nodes g₁ := by
    refine ⟨h.nodes_eq, { h.classes with
      size_next := ?_
      root := hpush h.classes.root hn
      next := hpush h.classes.next (h.classes.size_next.trans hn) }⟩
    show (g.classes.next.push n).size = (g.classes.root.push n).size
    rw [Array.size_push, Array.size_push, h.classes.size_next]
  have hknown₁ : g₁.known = n + 1 := by
    rw [← hn]
    exact Array.size_push n
  obtain ⟨h₂, hknown₂⟩ := h₁.listParents n (g₁.node n).args
  unfold Egraph.addToClasses
  simp only
  generalize (g₁.node n).args.foldl _ g₁ = g₂ at h₂ hknown₂
  split
  · exact ⟨h₂, hknown₂.trans hknown₁⟩
  next key hkey =>
    have happ : Applies nodes key.1 n := h₂.nodes_eq ▸ applies_of_signature? hkey
    simp only [modifyClasses]
    split
    next other hother =>
      refine ⟨⟨h₂.nodes_eq, { h₂.classes with pending := fun e he => ?_ }⟩, hknown₂.trans hknown₁⟩
      rcases List.mem_cons.mp he with rfl | he
      · exact hu happ (h₂.classes.sigs hother)
      · exact h₂.classes.pending e he
    next =>
      refine ⟨⟨h₂.nodes_eq, { h₂.classes with sigs := fun {key' q} hq => ?_ }⟩,
        hknown₂.trans hknown₁⟩
      change (g₂.classes.sigs.insert key n)[key']? = some q at hq
      rw [Std.HashMap.getElem?_insert] at hq
      split at hq
      next heq =>
        cases hq
        exact eq_of_beq heq ▸ happ
      next => exact h₂.classes.sigs hq

theorem sync (hu : Uniform nodes) (h : Sorted nodes g) : Sorted nodes g.sync := by
  have hcount (count : Nat) : ∀ {g : Egraph}, Sorted nodes g → g.known + count ≤ nodes.size ∨
    count = 0 →
      Sorted nodes ((List.range' g.known count).foldl Egraph.addToClasses g) := by
    induction count with
    | zero => exact fun h _ => h
    | succ count ih =>
      intro g h hle
      obtain ⟨hadded, hknown⟩ := h.addToClasses hu rfl (by omega)
      rw [List.range'_succ, List.foldl_cons, ← hknown]
      exact ih hadded (.inl (by omega))
  refine hcount _ h ?_
  have hsize : g.nodes.size = nodes.size := congrArg Array.size h.nodes_eq
  show g.known + (g.nodes.size - g.known) ≤ nodes.size ∨ g.nodes.size - g.known = 0
  omega

theorem clearClasses (h : Sorted nodes g) : Sorted nodes g.clearClasses :=
  ⟨h.nodes_eq, .empty nodes⟩

/-- Starting a search keeps the classes typed. -/
theorem startSearch (hu : Uniform nodes) (h : Sorted nodes g) : Sorted nodes g.startSearch :=
  h.clearClasses.sync hu

end Sorted

/-! ## Nodes and atoms of a store -/

/-- An atom is about nodes below `size`: two of one type, or one of the type of the constants. -/
def Atom.Typed (nodes : Array Node) (size : Nat) : Atom → Prop
  | .eq a b => a < size ∧ b < size ∧ SameTy nodes a b
  | .pred n => n < size ∧ SameTy nodes n trueNode ∧ SameTy nodes n falseNode

/-- The nodes are those of live terms, and classes and atoms are within types, whichever scopes
are closed. -/
structure Typed (s : Store) (g : Egraph) : Prop where
  described : ∀ {i : Nat} {n : Node}, g.nodes[i]? = some n → n.Describes s g.nodes i ∧ ∃ ty,
    s.Has n.term ty
  constants : ∀ i < 2, ∃ n, g.nodes[i]? = some n ∧ n.ty = .bool ∧ n.term.positive = .top
  scopes : ∀ mark ∈ g.sizes :: g.scopes, 2 ≤ mark.1 ∧ ∀ {v a}, (g.upTo mark).2 v = some a →
    a.Typed g.nodes mark.1
  classes : g.classes.Typed g.nodes

variable {s s' : Store} {g' : Egraph} {t : Term} {l : Literal}

theorem Atom.Typed.of_isPrefix {a : Atom} {size size' : Nat} (h : a.Typed nodes size)
    (hp : nodes.toList <+: nodes'.toList) (hsize : size ≤ size') : a.Typed nodes' size' := by
  cases a with
  | eq a b =>
    exact ⟨Nat.lt_of_lt_of_le h.1 hsize, Nat.lt_of_lt_of_le h.2.1 hsize, h.2.2.of_isPrefix hp⟩
  | pred n => exact ⟨Nat.lt_of_lt_of_le h.1 hsize, h.2.1.of_isPrefix hp, h.2.2.of_isPrefix hp⟩

/-- The empty graph has the truth constants for its nodes, which are boolean. -/
theorem typed_empty (hs : s.Wf) : Egraph.empty.Typed s where
  described {i n} hn := by
    have htop : s.Has .top .bool := ⟨⟨_, hs.truth⟩, fun _ => rfl⟩
    have hnodes : ∀ n ∈ Egraph.empty.nodes, (n.term = .top ∨ n.term = .bot) ∧ n.ty = .bool ∧
      n.func = none ∧
        n.args = [] := by decide
    obtain ⟨hterm, hty, hfunc, hargs⟩ := hnodes n (Array.mem_of_getElem? hn)
    have hlive : s.Has n.term .bool := by
      rcases hterm with hterm | hterm
      · rwa [hterm]
      · rw [hterm]
        exact htop.neg
    exact ⟨⟨hty.trans hlive.ty_eq.symm, fun hf => by simp [hfunc] at hf, fun _ => hargs⟩,
      .bool, hlive⟩
  constants := by
    intro i hi
    have : i = 0 ∨ i = 1 := by omega
    rcases this with rfl | rfl
    · exact ⟨_, rfl, rfl, rfl⟩
    · exact ⟨_, rfl, rfl, rfl⟩
  scopes mark hmark := by
    obtain rfl := List.mem_singleton.mp hmark
    refine ⟨Nat.le_refl _, fun {v a} ha => ?_⟩
    have hnone : (Egraph.empty.upTo Egraph.empty.sizes).2 v = none := by
      have hempty : Egraph.empty.atoms[v]? = none := Std.HashMap.getElem?_empty
      simp [upTo, Entail.upTo, hempty]
    rw [hnone] at ha
    cases ha
  classes := .empty _

namespace Typed

theorem has_node (h : g.Typed s) {i : Nat} {n : Node} (hn : g.nodes[i]? = some n) :
    s.Has n.term n.ty := by
  obtain ⟨hd, ty, hty⟩ := h.described hn
  rwa [hd.ty, hty.ty_eq]

/-- Only the terms of the nodes matter. -/
theorem transfer (h : g.Typed s)
    (hs : ∀ n ∈ g.nodes, ∀ {x}, s.node? n.term = some x → s'.node? n.term = some x) :
    g.Typed s' := by
  refine { h with described := fun {i n} hn => ?_ }
  obtain ⟨hd, ty, hty⟩ := h.described hn
  have hnode := hs n (Array.mem_of_getElem? hn) hty.node
  have hty' : s'.Has n.term ty := ⟨⟨_, hnode⟩, hty.2⟩
  refine ⟨⟨?_, fun hf => ?_, hd.leaf⟩, ty, hty'⟩
  · rw [hd.ty, hty.ty_eq, hty'.ty_eq]
  · obtain ⟨ts, hts, hargs⟩ := hd.app hf
    refine ⟨ts, ?_, hargs⟩
    rw [Store.shape, Store.shape?, hnode, ← hts]
    rfl

/-- A typed graph is typed over every later store. -/
theorem later (h : g.Typed s) (hs : s.Extends s') : g.Typed s' := h.transfer fun _ _ _ => hs.node

/-- A node that is an application has the type that its function gives. -/
theorem uniform (hw : s.Wf) (h : g.Typed s) : Uniform g.nodes := by
  intro f p q ⟨m, hm, hmf⟩ ⟨n, hn, hnf⟩
  have range {i : Nat} {x : Node} (hx : g.nodes[i]? = some x) (hxf : x.func = some f) :
      ∃ tf domain, s.Has f tf ∧ s.tyShape? tf = some (.function domain x.ty) := by
    obtain ⟨ts, hts, -⟩ := (h.described hx).1.app hxf
    have hnode := (h.has_node hx).node
    rw [hts] at hnode
    obtain ⟨tf, domain, hf, hshape, -⟩ := hw.typed hnode
    exact ⟨tf, domain, hf, hshape⟩
  obtain ⟨tf, domain, hf, hshape⟩ := range hm hmf
  obtain ⟨tf', domain', hf', hshape'⟩ := range hn hnf
  rw [hf.unique hf', hshape'] at hshape
  exact ⟨m, n, hm, hn, (Ty.Shape.function.inj (Option.some.inj hshape)).2.symm⟩

theorem sorted (h : g.Typed s) : Sorted g.nodes g := ⟨rfl, h.classes⟩

/-- The classes may change within types. -/
theorem of_sorted (h : g.Typed s) (hsame : SameNodes g g') (hsorted : Sorted g.nodes g') :
    g'.Typed s := by
  have hclasses := hsorted.classes
  rw [hsame.eq_with]
  exact { h with classes := hclasses }

theorem backtrack (h : g.Typed s) (level : Nat) : (g.backtrack level).Typed s :=
  h.of_sorted (sameNodes_backtrack g level) (h.sorted.backtrack level)

theorem openLevel (h : g.Typed s) : g.openLevel.Typed s :=
  h.of_sorted (.modify g _) h.sorted.openLevel

theorem startSearch (hw : s.Wf) (h : g.Typed s) : g.startSearch.Typed s :=
  h.of_sorted (sameNodes_startSearch g) (h.sorted.startSearch (h.uniform hw))

/-- The atoms of all variables. -/
theorem atom (h : g.Typed s) {v : Nat} {a : Atom} (ha : g.atoms[v]? = some a) :
    a.Typed g.nodes g.nodes.size := by
  refine (h.scopes g.sizes List.mem_cons_self).2 (v := v) ?_
  show Entail.upTo g.atomLog.toList g.atomLog.size id (g.atoms[·]?) v = some a
  rwa [upTo_of_length_le (Nat.le_of_eq Array.length_toList)]

/-- A literal makes equal what it says is equal, which is of one type. -/
theorem assertLit (hw : s.Wf) (h : g.Typed s) (l : Literal) : (g.assertLit l).2.Typed s := by
  have hu := h.uniform hw
  refine h.of_sorted (sameNodes_assertLit g l) ?_
  unfold Egraph.assertLit
  split
  · exact h.sorted
  next a b hatom =>
    split
    · refine ⟨rfl, { h.classes with undo := fun u hu => ?_ }⟩
      rcases Array.mem_push.mp (show u ∈ g.classes.undo.push .diseq from hu) with hu | rfl
      · exact h.classes.undo u hu
      · trivial
    · refine h.sorted.settle hu fun e he => ?_
      obtain rfl := List.mem_singleton.mp he
      exact (h.atom hatom).2.2
  next n hatom =>
    refine h.sorted.settle hu fun e he => ?_
    obtain rfl := List.mem_singleton.mp he
    obtain ⟨-, htrue, hfalse⟩ := h.atom hatom
    show SameTy g.nodes n (if l.isNegated then falseNode else trueNode)
    split
    · exact hfalse
    · exact htrue

theorem assertLits (hw : s.Wf) (h : g.Typed s) (ls : List Literal) (changed : Bool) :
    (assertLits ls changed g).2.Typed s := by
  induction ls generalizing changed g with
  | nil => exact h
  | cons l ls ih =>
    have hcount : (g.modifyClasses fun k => { k with processed := k.processed + 1 }).Typed s :=
      h.of_sorted (.modify g _) ⟨rfl, { h.classes with }⟩
    exact ih (hcount.assertLit hw l) _

/-- Propagation keeps the graph typed, also where it ends in a conflict. -/
theorem propagate (hw : s.Wf) (h : g.Typed s) (trail : Array Literal) :
    (g.propagate trail).2.Typed s := by
  have hu := h.uniform hw
  have hsettled : g.sync.settlePending.Typed s :=
    h.of_sorted ((sameNodes_sync g).trans (sameNodes_settle _ _ _))
      ((h.sorted.sync hu).settlePending hu)
  exact hsettled.assertLits hw _ _

/-! ## New atoms -/

/-- What an atom says is about terms of one type, or about a boolean term. -/
def Meant (s : Store) : (Term × Term) ⊕ Term → Prop
  | .inl (a, b) => ∃ ty, s.Has a ty ∧ s.Has b ty
  | .inr p => s.Has p .bool

/-- An atom about terms of the store is entered, with nodes for live terms. -/
theorem enter (h : g.Typed s) (hnested : g.Nested) {v : Nat} {m : (Term × Term) ⊕ Term}
    (he : Enters s v m g g')
    (hlive : ∀ {i : Nat} {n : Node}, g.nodes.size ≤ i → g'.nodes[i]? = some n →
      ∃ ty, s.Has n.term ty)
    (hm : Meant s m) : g'.Typed s := by
  have hp := he.nodes
  have hle := size_le_of_isPrefix hp
  -- a node of the larger graph is an old one, or one that was entered for a live term
  have hdescribed {i : Nat} {n : Node} (hn : g'.nodes[i]? = some n) :
      n.Describes s g'.nodes i ∧ ∃ ty, s.Has n.term ty := by
    by_cases hi : i < g.nodes.size
    · obtain ⟨hd, hty⟩ := h.described ((getElem?_of_isPrefix hp hi).symm.trans hn)
      exact ⟨hd.of_isPrefix hp, hty⟩
    · exact ⟨he.described (Nat.le_of_not_lt hi) hn, hlive (Nat.le_of_not_lt hi) hn⟩
  have hconstants : ∀ i < 2, ∃ n, g'.nodes[i]? = some n ∧ n.ty = .bool ∧ n.term.positive = .top :=
      fun i hi => by
    obtain ⟨n, hn, hconstant⟩ := h.constants i hi
    exact ⟨n, by rwa [getElem?_of_isPrefix hp (Array.getElem?_eq_some_iff.mp hn).1], hconstant⟩
  have hbool {i : Nat} (hi : i < 2) : ∃ n, g'.nodes[i]? = some n ∧ n.ty = .bool :=
    (hconstants i hi).imp fun _ hn => ⟨hn.1, hn.2.1⟩
  have hnode {i : Nat} {t : Term} {ty : Ty} (ht : termAt g'.nodes i = some t) (hty : s.Has t ty) :
      ∃ n, g'.nodes[i]? = some n ∧ n.ty = ty := by
    obtain ⟨n, hn, rfl⟩ := Option.map_eq_some_iff.mp ht
    exact ⟨n, hn, (hdescribed hn).1.ty.trans hty.ty_eq⟩
  have hsame {i j : Nat} {ty : Ty} (hi : ∃ n, g'.nodes[i]? = some n ∧ n.ty = ty)
      (hj : ∃ n, g'.nodes[j]? = some n ∧ n.ty = ty) : SameTy g'.nodes i j := by
    obtain ⟨m, hm, hmty⟩ := hi
    obtain ⟨n, hn, hnty⟩ := hj
    exact ⟨m, n, hm, hn, hmty.trans hnty.symm⟩
  have hatoms {u : Nat} {a : Atom} (ha : g'.atoms[u]? = some a) :
      a.Typed g'.nodes g'.nodes.size := by
    rcases he.atoms with ⟨rfl, -⟩ | ⟨-, -, x, hx, hmeans⟩
    · exact h.atom ha
    · rw [hx, Std.HashMap.getElem?_insert] at ha
      split at ha
      · obtain rfl := Option.some.inj ha
        cases hmeans with
        | eq hta htb =>
          obtain ⟨ty, hat, hbt⟩ := hm
          exact ⟨lt_of_keyAt hta, lt_of_keyAt htb, hsame (hnode hta hat) (hnode htb hbt)⟩
        | pred htp =>
          have hpred := hnode htp hm
          exact ⟨lt_of_keyAt htp, hsame hpred (hbool Nat.zero_lt_two),
            hsame hpred (hbool Nat.one_lt_two)⟩
      · exact (h.atom ha).of_isPrefix hp hle
  refine ⟨hdescribed, hconstants, fun mark hmark => ?_, ?_⟩
  · rw [he.scopes] at hmark
    rcases List.mem_cons.mp hmark with rfl | hmark
    · refine ⟨Nat.le_trans (h.scopes _ List.mem_cons_self).1 hle, fun {u a} ha =>
        hatoms (u := u) ?_⟩
      have hall : (g'.upTo g'.sizes).2 = (g'.atoms[·]?) :=
        upTo_of_length_le (Nat.le_of_eq Array.length_toList)
      rwa [hall] at ha
    · obtain ⟨htwo, hold⟩ := h.scopes mark (List.mem_cons_of_mem _ hmark)
      refine ⟨htwo, fun {u a} ha => ?_⟩
      rw [he.upTo ((List.pairwise_cons.mp hnested).1 mark hmark)] at ha
      exact (hold ha).of_isPrefix hp (Nat.le_refl _)
  · rw [he.classes]
    exact h.classes.of_isPrefix hp

/-- Internalizing a live term adds nodes for live terms. -/
theorem internalize_live (hw : s.Wf) (hg : g.Indexed) (ht : ∃ ty, s.Has t ty) {i : Nat} {n : Node}
    (hi : g.nodes.size ≤ i) (hn : (internalize s t g).2.nodes[i]? = some n) :
    ∃ ty, s.Has n.term ty := by
  obtain ⟨rank, top, hrank, hlive⟩ := hw.rank_live
  have hgrows := (internalizeAt_grows hrank (s.terms.slots.size + 1) t hg).1.mono ((hlive t).mpr ht)
  exact (hlive n.term).mp (hgrows.described hi hn).2

/-- An equality between terms of one type enters typed nodes. -/
theorem addEq (hw : s.Wf) (h : g.Typed s) (hg : g.Indexed) (hnested : g.Nested) (v : Nat)
    {a b : Term} {ty : Ty} (ha : s.Has a ty) (hb : s.Has b ty) : (addEq s v a b g).2.Typed s := by
  refine h.enter hnested (addEq_enters hw hg v a b) (fun {i n} hi hn => ?_) ⟨ty, ha, hb⟩
  obtain ⟨rank, hrank⟩ := hw.rank_children
  have hga := (internalizeAt_grows hrank (s.terms.slots.size + 1) a hg).1
  by_cases hv : g.atoms.contains v = true
  · rw [addEq_of_contains hv] at hn
    exact absurd (Array.getElem?_eq_some_iff.mp hn).1 (Nat.not_lt_of_le hi)
  · rw [addEq_of_new hv] at hn
    by_cases hlt : i < (internalize s a g).2.nodes.size
    · have hgb := (internalizeAt_grows hrank (s.terms.slots.size + 1) b hga.indexed).1
      exact internalize_live hw hg ⟨ty, ha⟩ hi ((getElem?_of_isPrefix hgb.nodes hlt).symm.trans hn)
    · exact internalize_live hw hga.indexed ⟨ty, hb⟩ (Nat.le_of_not_lt hlt) hn

/-- A formula that becomes an atom enters typed nodes. -/
theorem addPred (hw : s.Wf) (h : g.Typed s) (hg : g.Indexed) (hnested : g.Nested)
    (v : Nat) {p : Term} (hp : s.Has p .bool) : (addPred s v p g).2.Typed s := by
  refine h.enter hnested (addPred_enters hw hg v p) (fun {i n} hi hn => ?_) hp
  by_cases hv : g.atoms.contains v = true
  · rw [addPred_of_contains hv] at hn
    exact absurd (Array.getElem?_eq_some_iff.mp hn).1 (Nat.not_lt_of_le hi)
  · rw [addPred_of_new hv] at hn
    exact internalize_live hw hg ⟨.bool, hp⟩ hi hn

/-! ## Scopes -/

theorem push (h : g.Typed s) : g.push.Typed s := by
  refine { h with scopes := fun mark hmark => ?_ }
  rcases List.mem_cons.mp hmark with rfl | hmark
  · exact h.scopes _ List.mem_cons_self
  · exact h.scopes mark hmark

theorem mergeScope (h : g.Typed s) : g.mergeScope.Typed s := by
  refine { h with scopes := fun mark hmark => ?_ }
  rcases List.mem_cons.mp hmark with rfl | hmark
  · exact h.scopes _ List.mem_cons_self
  · exact h.scopes mark (List.mem_cons_of_mem _ (List.mem_of_mem_tail hmark))

theorem classes_popNodes (is : List Nat) (g : Egraph) :
    (is.foldl (fun g _ => g.popNode) g).classes = g.classes := by
  induction is generalizing g with
  | nil => rfl
  | cons i is ih =>
    rw [List.foldl_cons, ih]
    unfold popNode
    split <;> rfl

/-- Closing a scope keeps the first nodes, to which all atoms of other scopes belong. -/
theorem pop (h : g.Typed s) (hg : g.Indexed) (hnested : g.Nested) : g.pop.Typed s := by
  cases hs : g.scopes with
  | nil =>
    have hpop : g.pop = g := by
      unfold Egraph.pop
      rw [hs]
    rwa [hpop]
  | cons mark scopes =>
    obtain ⟨-, -, hscopes, hsizes, hupTo⟩ := pop_spec hg hnested hs
    have hmark : mark ∈ g.sizes :: g.scopes := hs ▸ List.mem_cons_of_mem _ List.mem_cons_self
    have hsize : g.pop.nodes.size = mark.1 := congrArg Prod.fst hsizes
    have hle {outer : Nat × Nat} (houter : outer ∈ mark :: scopes) : outer ≤ mark := by
      rcases List.mem_cons.mp houter with rfl | houter
      · exact ⟨Nat.le_refl _, Nat.le_refl _⟩
      · rw [Nested, hs] at hnested
        exact (List.pairwise_cons.mp (List.pairwise_cons.mp hnested).2).1 outer houter
    have hprefix : g.pop.nodes.toList <+: g.nodes.toList := by
      have htake : g.pop.nodes.toList.take mark.1 = g.nodes.toList.take mark.1 :=
        congrArg Prod.fst (hupTo (hle List.mem_cons_self))
      rw [List.take_of_length_le (Nat.le_of_eq (Array.length_toList.trans hsize))] at htake
      rw [htake]
      exact List.take_prefix _ _
    have hget {i : Nat} (hi : i < mark.1) : g.pop.nodes[i]? = g.nodes[i]? :=
      (getElem?_of_isPrefix hprefix (hsize.symm ▸ hi)).symm
    have hsame {a b : Nat} (ha : a < mark.1) (hb : b < mark.1) (hab : SameTy g.nodes a b) :
        SameTy g.pop.nodes a b := by
      obtain ⟨m, n, hm, hn, hty⟩ := hab
      exact ⟨m, n, (hget ha).trans hm, (hget hb).trans hn, hty⟩
    refine ⟨fun {i n} hn => ?_, fun i hi => ?_, fun outer houter => ?_, ?_⟩
    · have hi : i < mark.1 := hsize ▸ (Array.getElem?_eq_some_iff.mp hn).1
      obtain ⟨hd, hlive⟩ := h.described ((hget hi).symm.trans hn)
      refine ⟨⟨hd.ty, fun hf => ?_, hd.leaf⟩, hlive⟩
      obtain ⟨ts, hts, hargs⟩ := hd.app hf
      refine ⟨ts, hts, hargs.imp fun j t hj => ⟨hj.1, ?_⟩⟩
      rw [termAt, keyAt, hget (Nat.lt_trans hj.1 hi)]
      exact hj.2
    · rw [hget (Nat.lt_of_lt_of_le hi (h.scopes mark hmark).1)]
      exact h.constants i hi
    · rw [hsizes, hscopes] at houter
      have hlem : outer ≤ mark := hle houter
      obtain ⟨htwo, hatoms⟩ := h.scopes outer (hs ▸ List.mem_cons_of_mem _ houter)
      refine ⟨htwo, fun {v a} ha => ?_⟩
      rw [hupTo hlem] at ha
      have hold := hatoms ha
      have hlt {n : Nat} (hn : n < outer.1) : n < mark.1 := Nat.lt_of_lt_of_le hn hlem.1
      cases a with
      | eq a b => exact ⟨hold.1, hold.2.1, hsame (hlt hold.1) (hlt hold.2.1) hold.2.2⟩
      | pred n =>
        have hconst {i : Nat} (hi : i < 2) : i < mark.1 := hlt (Nat.lt_of_lt_of_le hi htwo)
        exact ⟨hold.1, hsame (hlt hold.1) (hconst Nat.zero_lt_two) hold.2.1,
          hsame (hlt hold.1) (hconst Nat.one_lt_two) hold.2.2⟩
    · have hclasses : g.pop.classes = {} := by
        unfold Egraph.pop
        rw [hs]
        exact classes_popNodes _ _
      rw [hclasses]
      exact .empty _

end Typed
end Entail.Egraph
