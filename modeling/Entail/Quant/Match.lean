import Entail.Egraph.Basic
import Entail.Quant.Pattern

/-!
# Matching modulo equality

A binding puts classes for variables. Matching a pattern against a node extends bindings in all ways
in which the pattern equals the node under the present classes.
-/

namespace Entail.Quant

/-- Representatives for variables, by position; `none` for a variable that is still free. -/
abbrev Binding := List (Option Nat)

/-- Binds the variable at position `i` to a class, or checks that it is. -/
def bind (i root : Nat) (b : Binding) : Option Binding :=
  match b[i]? with
  | some none => some (b.set i (some root))
  | some (some r) => if r = root then some b else none
  | none => none

mutual

/-- Extends bindings so that the application `pattern` equals node `n`. `depth` bounds the nesting
of the pattern. -/
def matchNode (g : Egraph) (s : Store) (vars : List Term) (depth : Nat) (pattern : Term) (n : Nat)
    (bs : List Binding) : List Binding :=
  match depth, s.shape pattern with
  | depth + 1, .app f args =>
    let node := g.node n
    if node.func = some f && node.args.length = args.length then
      (args.zip node.args).foldl (fun bs (pa, na) => matchClass g s vars depth pa (g.root na) bs) bs
    else []
  | _, _ => []

/-- Extends bindings so that `pattern` equals the members of a class. -/
def matchClass (g : Egraph) (s : Store) (vars : List Term) (depth : Nat) (pattern : Term)
    (root : Nat) (bs : List Binding) : List Binding :=
  match vars.idxOf? pattern with
  | some i => bs.filterMap (bind i root)
  | none =>
    match depth, s.shape pattern, s.isGround pattern with
    | depth + 1, .app .., false => (g.ring root).flatMap fun m =>
      matchNode g s vars depth pattern m bs
    | _, _, _ =>
      match g.nodeOf[pattern]? with
      | some n => if g.root n = root then bs else []
      | none => []

end

/-- Extends bindings by every match of a pattern against the candidate nodes. -/
def matchPattern (g : Egraph) (s : Store) (vars : List Term) (pattern : Term)
    (candidates : List Nat) (bs : List Binding) : List Binding :=
  candidates.flatMap fun n => matchNode g s vars (2 * s.terms.slots.size + 2) pattern n bs

/-- Bindings of several patterns matched in sequence, each against its own candidates. -/
def matchAll (g : Egraph) (s : Store) (vars : List Term) (patterns : List (Term × List Nat)) :
    List Binding :=
  patterns.foldl (fun bs (p, cs) => matchPattern g s vars p cs bs) [vars.map fun _ => none]

/-- Nodes that a pattern may match: the applications of its function, or every node for a term
that is none. -/
def candidateNodes (g : Egraph) (s : Store) (pattern : Term) : List Nat :=
  match s.shape pattern with
  | .app f _ => g.appsOf f
  | _ => List.range g.nodes.size

end Entail.Quant
