import Entail.Egraph.Merge

/-!
# E-graph: explanations and propagation

Equalities that were found form a forest, in which the nodes of a class are connected. The path
between two nodes explains why they are equal: through literals, and through pairs of arguments that
have to be explained in turn.
-/

namespace Entail.Egraph

/-- Path from node `n` to `target` that does not start with the edge it was reached by. -/
def pathFrom (k : Classes) (target : Nat) :
    (bound : Nat) → (via : Option Nat) → (n : Nat) → Option (List Nat)
  | 0, _, _ => none
  | bound + 1, via, n =>
    if n = target then some []
    else
      (k.adj.getD n #[]).toList.findSome? fun i =>
        if via = some i then none
        else
          match k.edges[i]? with
          | none => none
          | some e => (pathFrom k target bound (some i) (if e.a = n then e.b else e.a)).map (i :: ·)

/-- Edges between two nodes. -/
def path? (k : Classes) (a b : Nat) : Option (List Nat) := pathFrom k b (k.edges.size + 1) none a

/-- Literals of a path, and the pairs of nodes that its congruences rest on, those of later
edges first. -/
def pathReasons (g : Egraph) (path : List Nat) : List Literal × List (Nat × Nat) :=
  path.foldl (fun (ls, pairs) i =>
    match g.classes.edges[i]? with
    | none => (ls, pairs)
    | some e =>
      match e.reason with
      | .literal l => (l :: ls, pairs)
      | .congruence p q => (ls, (g.node p).args.zip (g.node q).args ++ pairs)) ([], [])

/-- Literals that explain the pairs of nodes in `todo`. Each pair is explained once; at most `bound`
pairs are. No answer means that some pair is not connected. -/
def explainAll (g : Egraph) (bound : Nat) (todo : List (Nat × Nat)) (done : Std.HashSet (Nat × Nat))
    (out : List Literal) : Option (List Literal) :=
  match todo, bound with
  | [], _ => some out
  | (x, y) :: rest, bound =>
    let pair := (min x y, max x y)
    if x = y || done.contains pair then explainAll g bound rest done out
    else
      match bound with
      | 0 => none
      | bound + 1 =>
        match path? g.classes x y with
        | none => none
        | some path =>
          let (ls, pairs) := g.pathReasons path
          explainAll g bound (pairs ++ rest) (done.insert pair) (ls ++ out)
termination_by (bound, todo.length)

/-- Literals, all true, from which the equality of two nodes of one class follows, in
increasing order. -/
def explain? (g : Egraph) (a b : Nat) : Option (List Literal) :=
  if g.areEqual a b then (explainAll g (g.nodes.size * g.nodes.size + 1) [(a, b)] ∅ []).map
    Literal.normalize
  else none

/-- A clause that the theory of equality rules out: two nodes that have to differ are in one
class. -/
def conflict? (g : Egraph) : Option (List Literal) :=
  match g.classes.diseqs.find? fun (a, b, _) => g.areEqual a b with
  | none => none
  | some (a, b, l) => (g.explain? a b).map fun ls => ls.map .neg ++ l.toList.map .neg

/-- Takes a literal that has become true into account; says whether it means anything here. -/
def assertLit (g : Egraph) (l : Literal) : Bool × Egraph :=
  match g.atoms[l.var]? with
  | none => (false, g)
  | some (.eq a b) =>
    if l.isNegated then
      (true, (g.modifyClasses fun k => { k with diseqs := k.diseqs.push (a, b, some l) }).log
        .diseq)
    else (true, settle g.nodes.size [⟨a, b, .literal l⟩] g)
  | some (.pred n) =>
    let target := if l.isNegated then falseNode else trueNode
    (true, settle g.nodes.size [⟨n, target, .literal l⟩] g)

/-- Takes literals that have become true into account one after the other. -/
def assertLits : List Literal → (changed : Bool) → Egraph → Bool × Egraph
  | [], changed, g => (changed, g)
  | l :: rest, changed, g =>
    let g := g.modifyClasses fun k => { k with processed := k.processed + 1 }
    let (relevant, g) := g.assertLit l
    assertLits rest (changed || relevant) g

/-- Forgets all classes and puts every node into one of its own. -/
def startSearch (g : Egraph) : Egraph := g.clearClasses.sync

/-- What a propagation comes to. -/
structure Propagation where
  /-- Whether anything new was taken into account. -/
  changed : Bool
  /-- A clause that is false on the trail and holds in every model. -/
  conflict : Option (List Literal)

/-- Takes the new nodes and the new literals of the trail into account. Conflicts are only looked
for when there was anything new. -/
def propagate (g : Egraph) (trail : Array Literal) : Propagation × Egraph :=
  let g := g.sync
  let changed := !g.classes.pending.isEmpty
  let g := g.settlePending
  let (changed, g) := assertLits (trail.extract g.classes.processed trail.size).toList changed g
  (⟨changed, if changed then g.conflict? else none⟩, g)

/-! ## Models -/

/-- Numbers of classes, and how many classes of a sort have a number. -/
structure Numbering where
  index : Std.HashMap Nat Nat := ∅
  counts : Std.HashMap Ty Nat := ∅

/-- Value of a node. Classes of a sort are numbered in the order in which they are met. -/
def nodeValue (g : Egraph) (n : Nat) : StateM Numbering Value := do
  let ty := (g.node n).ty
  let r := g.root n
  if ty = .bool then return .bool (r == g.root trueNode)
  match (← get).index[r]? with
  | some k => return .abs ty k
  | none =>
    modifyGet fun s =>
      let k := s.counts.getD ty 0
      (.abs ty k, { index := s.index.insert r k, counts := s.counts.insert ty (k + 1) })

/-- Adds the values of nodes to a model, one after the other. -/
def valueNodes (g : Egraph) (s : Store) : List Nat → Model → StateM Numbering Model
  | [], m => return m
  | n :: rest, m => do
    let node := g.node n
    let v ← g.nodeValue n
    match node.func with
    | none =>
      if (s.shape node.term).isUninterpreted then valueNodes g s rest (m.setValue node.term v)
      else valueNodes g s rest m
    | some f =>
      let args ← node.args.mapM g.nodeValue
      valueNodes g s rest (m.setRow f args v)

/-- Adds the values of constants and functions to a model. -/
def addToModel (g : Egraph) (s : Store) (m : Model) : Model :=
  ((valueNodes g s (List.range' 2 (g.nodes.size - 2)) m).run {}).1

end Entail.Egraph
