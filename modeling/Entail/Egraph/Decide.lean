import Entail.Egraph.Explain
import Entail.Search.Propagate

/-!
# Deciding with the e-graph

The e-graph follows the trail of a search core; a decision opens a level in both.
-/

namespace Entail.Egraph

/-- What a decision leads to. -/
inductive Decision where
  /-- A clause of the core became false. -/
  | conflict (lits : List Literal)
  | propagated (p : Propagation)

/-- Decides an unassigned literal and propagates, first in the core and then, unless a clause became
false, in the e-graph. -/
def decide (g : Egraph) (c : Core) (l : Literal) : Decision × Egraph × Core :=
  let g := g.openLevel
  match (c.decide l).propagate with
  | (some conflict, c) => (.conflict conflict, g, c)
  | (none, c) =>
    let (p, g) := g.propagate c.trail
    (.propagated p, g, c)

end Entail.Egraph
