import Entail.Context.Basic

/-!
# The model of a context

After a check without contradiction the assignment gives a model: boolean constants have the values
of their variables, bitvector constants those of their bits, and the classes of the e-graph are the
elements of the sorts.
-/

namespace Entail.Context

/-- Values of boolean constants that have a variable, gate outputs apart. -/
def boolValues (c : Context) (s : Store) (m : Model) : Model :=
  c.vars.toList.foldl (fun m (v, t) =>
    if c.aux.contains t || s.ty t ≠ .bool || !(s.shape t).isUninterpreted then m
    else m.setValue t (.bool (c.core.varValue v == some true))) m

/-- Values of bitvector constants that were encoded. -/
def bvValues (c : Context) (s : Store) (m : Model) : Model :=
  c.bits.toList.foldl (fun m (t, word) =>
    if !(s.shape t).isUninterpreted then m
    else m.setValue t (.bv word.length
      (Bits.ofBits (word.map fun l => c.core.value l == some true)))) m

/-- Model of the present assignment. With `keepSubst`, eliminated constants are evaluated through
their definitions. -/
def model (c : Context) (s : Store) (keepSubst : Bool) : Except Failure Model :=
  if !c.status.hasModel then .error (.invalidOperation c.status)
  else
    let m := c.registry.addToModel s (c.bvValues s (c.boolValues s .empty))
    .ok (if keepSubst then { m with definitions := c.subst } else m)

end Entail.Context
