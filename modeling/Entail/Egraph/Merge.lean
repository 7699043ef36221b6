import Entail.Egraph.Basic

/-!
# E-graph: merging classes and taking it back

Two equal nodes have their classes merged: the smaller class takes the representative of the larger
one. That may give two applications the same signature, in which case they are equal too. Every
change is logged, and the log is undone from its end.
-/

namespace Entail.Egraph

/-- Changes the classes. -/
def modifyClasses (g : Egraph) (f : Classes → Classes) : Egraph := { g with classes := f g.classes }

/-- Logs a change. -/
def log (g : Egraph) (u : Undo) : Egraph :=
  g.modifyClasses fun k => { k with undo := k.undo.push u }

/-! ## Merging -/

/-- Records that two nodes were found equal. -/
def addEdge (g : Egraph) (e : Edge) : Egraph :=
  let g := g.modifyClasses fun k =>
    let i := k.edges.size
    { k with edges := k.edges.push e, adj := (k.adj.modify e.a (·.push i)).modify e.b (·.push i) }
  g.log .edge

/-- Takes the signature of an application out if the application stands for it. -/
def eraseSig (g : Egraph) (p : Nat) : Egraph :=
  match g.signature? p with
  | none => g
  | some key =>
    if g.classes.sigs[key]? = some p then
      (g.modifyClasses fun k => { k with sigs := k.sigs.erase key }).log (.sigErase key p)
    else g

/-- Enters the signature of an application; an application of another class that stands for it is
answered as an equality. -/
def enterSig (g : Egraph) (p : Nat) : Option Edge × Egraph :=
  match g.signature? p with
  | none => (none, g)
  | some key =>
    match g.classes.sigs[key]? with
    | some q => (if g.areEqual q p then none else some ⟨p, q, .congruence p q⟩, g)
    | none =>
      (none, (g.modifyClasses fun k => { k with sigs := k.sigs.insert key p }).log (.sigInsert key))

/-- Enters the signatures of applications one after the other; the equalities found last
come first. -/
def enterSigs : List Nat → (found : List Edge) → Egraph → List Edge × Egraph
  | [], found, g => (found, g)
  | p :: rest, found, g =>
    match g.enterSig p with
    | (some e, g) => enterSigs rest (e :: found) g
    | (none, g) => enterSigs rest found g

/-- Gives the members of the class of `small` the representative `big` and joins the two rings. -/
def joinRings (k : Classes) (members : List Nat) (small big : Nat) (moved : Array Nat) : Classes :=
  let sizeSmall := k.size.getD small 0
  let nextSmall := k.next.getD small small
  let nextBig := k.next.getD big big
  { k with
    root := members.foldl (fun root n => root.setIfInBounds n big) k.root
    next := (k.next.setIfInBounds small nextBig).setIfInBounds big nextSmall
    size := k.size.modify big (· + sizeSmall)
    parents := k.parents.modify big (· ++ moved) }

/-- Puts the classes of two nodes into one and answers the equalities that follow, the one found
last first. -/
def merge (g : Egraph) (e : Edge) : List Edge × Egraph :=
  let ra := g.root e.a
  let rb := g.root e.b
  if ra = rb then ([], g)
  else
    let g := g.addEdge e
    let (small, big) := if g.classes.size.getD ra 0 ≤ g.classes.size.getD rb 0 then (ra, rb)
      else (rb, ra)
    let moved := g.classes.parents.getD small #[]
    let g := moved.toList.foldl eraseSig g
    let members := g.ring small
    let numParents := (g.classes.parents.getD big #[]).size
    let g := g.modifyClasses fun k => joinRings k members small big moved
    enterSigs moved.toList [] (g.log (.merge small big numParents))

/-- Merges along equalities and those that follow from them. Merges that change something are at
most `bound`; there are never more of them than nodes. -/
def settle (bound : Nat) (es : List Edge) (g : Egraph) : Egraph :=
  match es, bound with
  | [], _ => g
  | e :: rest, bound =>
    if g.areEqual e.a e.b then settle bound rest g
    else
      match bound with
      | 0 => g
      | bound + 1 =>
        let (more, g) := g.merge e
        settle bound (more ++ rest) g
termination_by (bound, es.length)

/-- Merges along the equalities that wait. -/
def settlePending (g : Egraph) : Egraph :=
  let es := g.classes.pending
  settle g.nodes.size es (g.modifyClasses fun k => { k with pending := [] })

/-! ## Undoing -/

/-- Splits the ring of `big` at the members that came from `small`, which get their
representative back. -/
def splitRings (k : Classes) (small big numParents : Nat) : Classes :=
  let sizeSmall := k.size.getD small 0
  let nextSmall := k.next.getD small small
  let nextBig := k.next.getD big big
  let next := (k.next.setIfInBounds small nextBig).setIfInBounds big nextSmall
  let members := small :: ringFrom next small next.size (next.getD small small)
  { k with
    root := members.foldl (fun root n => root.setIfInBounds n small) k.root
    next
    size := k.size.modify big (· - sizeSmall)
    parents := k.parents.modify big (·.shrink numParents) }

/-- Takes one change back. -/
def revert (k : Classes) : Undo → Classes
  | .merge small big numParents => splitRings k small big numParents
  | .edge =>
    match k.edges.back? with
    | none => k
    | some e =>
      { k with edges := k.edges.pop, adj := (k.adj.modify e.a (·.pop)).modify e.b (·.pop) }
  | .diseq => { k with diseqs := k.diseqs.pop }
  | .sigInsert key => { k with sigs := k.sigs.erase key }
  | .sigErase key n => { k with sigs := k.sigs.insert key n }

/-- Takes the last changes back, `count` of them. -/
def undoLast : (count : Nat) → Classes → Classes
  | 0, k => k
  | count + 1, k =>
    match k.undo.back? with
    | none => k
    | some u => undoLast count (revert { k with undo := k.undo.pop } u)

/-- Opens a level. -/
def openLevel (g : Egraph) : Egraph :=
  g.modifyClasses fun k => { k with levels := k.levels.push (k.undo.size, k.processed) }

/-- Goes back to a level; equalities that wait are dropped. -/
def backtrack (g : Egraph) (level : Nat) : Egraph :=
  g.modifyClasses fun k =>
    let k := match k.levels[level]? with
      | none => k
      | some (numUndo, processed) =>
        { undoLast (k.undo.size - numUndo) k with processed, levels := k.levels.shrink level }
    { k with pending := [] }

/-! ## New nodes -/

/-- Puts a node into a class of its own. An application of the same signature is noted as equal. -/
def addToClasses (g : Egraph) (n : Nat) : Egraph :=
  let g := g.modifyClasses fun k =>
    { k with
      root := k.root.push n
      next := k.next.push n
      size := k.size.push 1
      parents := k.parents.push #[]
      adj := k.adj.push #[] }
  let g := (g.node n).args.foldl (fun g a => g.modifyClasses fun k =>
    { k with parents := k.parents.modify (k.root.getD a a) (·.push n) }) g
  match g.signature? n with
  | none => g
  | some key => g.modifyClasses fun k =>
    match k.sigs[key]? with
    | some other => { k with pending := ⟨n, other, .congruence n other⟩ :: k.pending }
    | none => { k with sigs := k.sigs.insert key n }

/-- Puts the nodes that the search does not know yet into classes. They are added at level 0, so
going back never takes this back. -/
def sync (g : Egraph) : Egraph :=
  let known := g.classes.root.size
  (List.range' known (g.nodes.size - known)).foldl addToClasses g

/-- Forgets all classes. -/
def clearClasses (g : Egraph) : Egraph := { g with classes := {} }

/-! ## Scopes -/

/-- Opens a scope. -/
def push (g : Egraph) : Egraph := { g with scopes := (g.nodes.size, g.atomLog.size) :: g.scopes }

/-- Removes the last node. -/
def popNode (g : Egraph) : Egraph :=
  match g.nodes.back? with
  | none => g
  | some n =>
    let apps := match n.func with
      | none => g.apps
      | some f =>
        let rest := (g.apps.getD f #[]).pop
        if rest.isEmpty then g.apps.erase f else g.apps.insert f rest
    { g with nodes := g.nodes.pop, nodeOf := g.nodeOf.erase n.term, apps }

/-- Closes the innermost scope, with its nodes and atoms. -/
def pop (g : Egraph) : Egraph :=
  match g.scopes with
  | [] => g
  | (numNodes, numAtoms) :: scopes =>
    let g := (List.range (g.nodes.size - numNodes)).foldl (fun g _ => g.popNode) g.clearClasses
    { g with
      scopes
      atoms := (g.atomLog.toList.drop numAtoms).foldl (fun m v => m.erase v) g.atoms
      atomLog := g.atomLog.take numAtoms }

/-- Closes the innermost scope, keeping its nodes and atoms. -/
def mergeScope (g : Egraph) : Egraph := { g with scopes := g.scopes.tail }

end Entail.Egraph
