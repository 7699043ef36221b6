import Entail.Literal
import Entail.Model

/-!
# E-graph: nodes, atoms and classes

The nodes of an e-graph are terms of uninterpreted sorts and boolean applications, each with the
nodes of its arguments. A decision variable may have a meaning in the e-graph, its *atom*. Nodes and
atoms follow the scopes of assertions. The classes of nodes that are equal under the present
assignment are rebuilt by every search; changes to them are logged and can be taken back.
-/

namespace Entail

namespace Egraph

/-- The node of truth. -/
def trueNode : Nat := 0

/-- The node of falsity. -/
def falseNode : Nat := 1

/-- A term with its type and, for an application, its function and the nodes of its arguments. -/
structure Node where
  term : Term
  ty : Ty
  func : Option Term := none
  args : List Nat := []
deriving Inhabited

/-- What a decision variable means. -/
inductive Atom where
  | eq (a b : Nat)
  /-- The node of a boolean application equals truth, or falsity if the variable is false. -/
  | pred (n : Nat)
deriving DecidableEq

/-- Why two nodes were put into one class. -/
inductive Reason where
  | literal (l : Literal)
  /-- The arguments of two applications are equal one by one. -/
  | congruence (a b : Nat)
deriving DecidableEq

/-- Two nodes that were found equal. -/
structure Edge where
  a : Nat
  b : Nat
  reason : Reason

/-- A function with the classes of its arguments. -/
abbrev Signature := Term × List Nat

/-- A change to the classes, with what is needed to take it back. -/
inductive Undo where
  | merge (small big numParents : Nat)
  | edge
  | diseq
  | sigInsert (key : Signature)
  | sigErase (key : Signature) (n : Nat)

/-- Equality classes. The arrays are indexed by nodes, and cover those that the present
search knows. -/
structure Classes where
  /-- Representative of the class of a node. -/
  root : Array Nat := #[]
  /-- Next member of the class of a node; the members form a ring. -/
  next : Array Nat := #[]
  /-- Number of members of the class of a representative. -/
  size : Array Nat := #[]
  /-- Applications with an argument in the class of a representative, once for each argument. -/
  parents : Array (Array Nat) := #[]
  /-- An application for every signature there is. -/
  sigs : Std.HashMap Signature Nat := ∅
  edges : Array Edge := #[]
  /-- Edges at a node. -/
  adj : Array (Array Nat) := #[]
  /-- Pairs of nodes that differ, with the literals that say so. -/
  diseqs : Array (Nat × Nat × Option Literal) := #[(trueNode, falseNode, none)]
  /-- Equalities that were found and still wait, the next one first. -/
  pending : List Edge := []
  undo : Array Undo := #[]
  /-- Numbers of changes and of processed literals before each decision. -/
  levels : Array (Nat × Nat) := #[]
  /-- Number of trail literals that were processed. -/
  processed : Nat := 0
deriving Inhabited

end Egraph

/-- Nodes, atoms and equality classes. -/
structure Egraph where
  nodes : Array Egraph.Node
  nodeOf : Std.HashMap Term Nat
  /-- Applications of a function, in the order of their nodes. -/
  apps : Std.HashMap Term (Array Nat) := ∅
  /-- Atoms of decision variables. -/
  atoms : Std.HashMap Nat Egraph.Atom := ∅
  /-- Variables that got an atom, in that order. -/
  atomLog : Array Nat := #[]
  /-- Numbers of nodes and of atoms when each open scope was opened, innermost first. -/
  scopes : List (Nat × Nat) := []
  classes : Egraph.Classes := {}

namespace Egraph

/-- The e-graph that has the nodes of truth and falsity only. -/
def empty : Egraph where
  nodes := #[{ term := .top, ty := .bool }, { term := .bot, ty := .bool }]
  nodeOf := Std.HashMap.ofList [(.top, trueNode), (.bot, falseNode)]

instance : Inhabited Egraph := ⟨empty⟩

/-! ## Nodes and atoms -/

/-- The node with a given number. -/
def node (g : Egraph) (n : Nat) : Node := g.nodes.getD n { term := .top, ty := .bool }

/-- Applications of a function. -/
def appsOf (g : Egraph) (f : Term) : List Nat := (g.apps.getD f #[]).toList

/-- Adds a node. -/
def addNode (n : Node) : StateM Egraph Nat := modifyGet fun g =>
  let i := g.nodes.size
  let apps := match n.func with
    | some f => g.apps.insert f ((g.apps.getD f #[]).push i)
    | none => g.apps
  (i, { g with nodes := g.nodes.push n, nodeOf := g.nodeOf.insert n.term i, apps })

/-- Node of a term, added after the nodes of its arguments when there is none. `depth` bounds
the nesting. -/
def internalizeAt (s : Store) : (depth : Nat) → Term → StateM Egraph Nat
  | depth, t => do
    match (← get).nodeOf[t]? with
    | some n => return n
    | none =>
      match depth, s.shape t with
      | depth + 1, .app f args =>
        let args ← args.mapM (internalizeAt s depth)
        addNode { term := t, ty := s.ty t, func := some f, args }
      | _, _ => addNode { term := t, ty := s.ty t }

/-- Node of a positive term, added when there is none. -/
def internalize (s : Store) (t : Term) : StateM Egraph Nat :=
  internalizeAt s (s.terms.slots.size + 1) t

/-- Gives a variable its atom. -/
def setAtom (v : Nat) (atom : Atom) : StateM Egraph Unit :=
  modify fun g => { g with atoms := g.atoms.insert v atom, atomLog := g.atomLog.push v }

/-- Makes a variable stand for the equality of two terms, unless it has an atom. -/
def addEq (s : Store) (v : Nat) (a b : Term) : StateM Egraph Unit := do
  if (← get).atoms.contains v then return
  let na ← internalize s a
  let nb ← internalize s b
  setAtom v (.eq na nb)

/-- Makes a variable stand for a boolean application, unless it has an atom. -/
def addPred (s : Store) (v : Nat) (app : Term) : StateM Egraph Unit := do
  if (← get).atoms.contains v then return
  let n ← internalize s app
  setAtom v (.pred n)

/-! ## Reading the classes -/

/-- Representative of the class of a node; a node that the search does not know is alone. -/
def root (g : Egraph) (n : Nat) : Nat := g.classes.root.getD n n

/-- Whether two nodes are in one class. -/
def areEqual (g : Egraph) (a b : Nat) : Bool := g.root a == g.root b

/-- Follows the ring from `n` until it comes back to `start`, for at most `bound` steps. -/
def ringFrom (next : Array Nat) (start : Nat) : (bound : Nat) → Nat → List Nat
  | 0, _ => []
  | bound + 1, n => if n = start then [] else n :: ringFrom next start bound (next.getD n start)

/-- Members of the class of a node, from the node on. -/
def ring (g : Egraph) (n : Nat) : List Nat :=
  n :: ringFrom g.classes.next n g.classes.next.size (g.classes.next.getD n n)

/-- Number of classes that the search knows. -/
def numClasses (g : Egraph) : Nat := (List.range g.classes.root.size).countP fun n => g.root n == n

/-- Signature of an application under the present classes. -/
def signature? (g : Egraph) (n : Nat) : Option Signature :=
  let node := g.node n
  node.func.map fun f => (f, node.args.map g.root)

/-- Terms that the e-graph refers to, in the order of the nodes. -/
def roots (g : Egraph) : List Term := g.nodes.toList.map (·.term)

end Egraph
end Entail
