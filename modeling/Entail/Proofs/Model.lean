import Entail.Context.Model
import Entail.Proofs.Context.Typed

/-!
# Terms and types of a model

A model refers to terms by its keys and definitions, and to types by the elements of sorts among its
values. An element that a context gives to a constant is one of the constant's type, and the rows of
a function are made of elements of the types that its own type mentions. So the types stay in a
store as long as the terms do.
-/

namespace Entail

/-- An element of a sort is one of the given type. -/
def Value.OfTy (ty : Ty) : Value → Prop
  | .abs sort _ => sort = ty
  | .bool _ | .bv .. => True

namespace Model

variable {s s' : Store} {m : Model} {c : Context} {g : Egraph}

/-- Rows of a function with the given argument and result types. -/
def Rows (domain : List Ty) (range : Ty) (table : FunctionTable) : Prop :=
  ∀ {args v}, table[args]? = some v → List.Forall₂ Value.OfTy domain args ∧ v.OfTy range

/-- The terms of the model are in the store, and the values are of their types. -/
structure Typed (s : Store) (m : Model) : Prop where
  values : ∀ {t v}, m.values[t]? = some v → ∃ ty, s.Has t ty ∧ v.OfTy ty
  functions : ∀ {f table}, m.functions[f]? = some table → ∃ ty domain range, s.Has f ty ∧
    s.tyShape? ty = some (.function domain range) ∧ Rows domain range table
  definitions : s.Assigns m.definitions

/-- Terms that a model refers to. -/
inductive Holds (m : Model) : Term → Prop where
  | valued {t : Term} (h : t ∈ m.values) : m.Holds t
  | function {f : Term} (h : f ∈ m.functions) : m.Holds f
  | defined {x v : Term} (h : m.definitions[x]? = some v) : m.Holds x
  | definition {x v : Term} (h : m.definitions[x]? = some v) : m.Holds v

/-- Types with elements among the values of a model. -/
inductive Mentions (m : Model) : Ty → Prop where
  | value {t : Term} {sort : Ty} {i : Nat} (h : m.values[t]? = some (.abs sort i)) : m.Mentions sort
  | argument {f : Term} {table : FunctionTable} {args : List Value} {v : Value}
    {sort : Ty} {i : Nat}
    (h : m.functions[f]? = some table) (hrow : table[args]? = some v) (harg : .abs sort i ∈ args) :
    m.Mentions sort
  | result {f : Term} {table : FunctionTable} {args : List Value} {sort : Ty} {i : Nat}
    (h : m.functions[f]? = some table) (hrow : table[args]? = some (.abs sort i)) : m.Mentions sort

theorem mem_roots_of_holds {t : Term} (h : m.Holds t) : t ∈ m.roots := by
  unfold roots
  simp only [List.mem_append, Std.HashMap.mem_keys, List.mem_flatMap, Prod.exists,
    Std.HashMap.mem_toList_iff_getElem?_eq_some, List.mem_cons, List.not_mem_nil, or_false]
  cases h with
  | valued h => exact .inl (.inl h)
  | function h => exact .inl (.inr h)
  | defined h => exact .inr ⟨_, _, h, .inl rfl⟩
  | definition h => exact .inr ⟨_, _, h, .inr rfl⟩

namespace Typed

theorem valid (h : m.Typed s) {t : Term} (ht : m.Holds t) : s.isValid t = true := by
  rw [Store.isValid_iff]
  cases ht with
  | valued ht =>
    obtain ⟨v, hv⟩ := Option.isSome_iff_exists.mp (Std.HashMap.isSome_getElem?_iff_mem.mpr ht)
    obtain ⟨ty, hty, -⟩ := h.values hv
    exact ⟨ty, hty⟩
  | function ht =>
    obtain ⟨table, htable⟩ := Option.isSome_iff_exists.mp
      (Std.HashMap.isSome_getElem?_iff_mem.mpr ht)
    obtain ⟨ty, -, -, hty, -⟩ := h.functions htable
    exact ⟨ty, hty⟩
  | defined hx =>
    obtain ⟨ty, hty, -⟩ := h.definitions hx
    exact ⟨ty, hty⟩
  | definition hx =>
    obtain ⟨ty, -, hty⟩ := h.definitions hx
    exact ⟨ty, hty⟩

/-- What a model refers to stays with its roots. -/
theorem stays (h : m.Typed s) (hs : s.Spares s' m.roots) {t : Term} (ht : m.Holds t) :
    s.Stays s' t :=
  hs t (mem_roots_of_holds ht) (h.valid ht)

theorem holds_value {t : Term} {v : Value} (h : m.values[t]? = some v) : m.Holds t :=
  .valued (Std.HashMap.isSome_getElem?_iff_mem.mp (by rw [h]; rfl))

theorem holds_function {f : Term} {table : FunctionTable} (h : m.functions[f]? = some table) :
    m.Holds f :=
  .function (Std.HashMap.isSome_getElem?_iff_mem.mp (by rw [h]; rfl))

/-- A type of a model is the type of one of its terms, or mentioned by it. -/
theorem exists_component (h : m.Typed s) {sort : Ty} (hsort : m.Mentions sort) :
    ∃ t ty, m.Holds t ∧ s.Has t ty ∧ Relation.ReflTransGen s.Component ty sort := by
  cases hsort with
  | value hv =>
    obtain ⟨ty, hty, heq⟩ := h.values hv
    exact ⟨_, ty, holds_value hv, hty, (heq : sort = ty) ▸ .refl⟩
  | argument hf hrow harg =>
    obtain ⟨ty, domain, range, hty, hshape, hrows⟩ := h.functions hf
    obtain ⟨d, hd, heq⟩ : ∃ d ∈ domain, Value.OfTy d (.abs sort _) := by
      obtain ⟨i, hi, hget⟩ := List.mem_iff_getElem.mp harg
      have hall := (hrows hrow).1
      have hid : i < domain.length := hall.length_eq ▸ hi
      refine ⟨domain[i], List.getElem_mem hid, ?_⟩
      rw [← hget]
      exact hall.get hid hi
    refine ⟨_, ty, holds_function hf, hty, .single ⟨_, hshape, ?_⟩⟩
    exact List.mem_append_left _ ((heq : sort = d) ▸ hd)
  | result hf hrow =>
    obtain ⟨ty, domain, range, hty, hshape, hrows⟩ := h.functions hf
    refine ⟨_, ty, holds_function hf, hty, .single ⟨_, hshape, ?_⟩⟩
    exact List.mem_append_right _ (List.mem_singleton.mpr (hrows hrow).2)

theorem mentioned (h : m.Typed s) (hs : s.Spares s' m.roots) {sort : Ty} (hsort : m.Mentions sort) :
    ∃ shape, s.tyShape? sort = some shape ∧ s'.tyShape? sort = some shape := by
  obtain ⟨t, ty, ht, hty, hpart⟩ := h.exists_component hsort
  exact (h.stays hs ht).ty .refl hty.node hpart

theorem spares (h : m.Typed s) (hs : s.Spares s' m.roots) : m.Typed s' where
  values ht := by
    obtain ⟨ty, hty, hv⟩ := h.values ht
    exact ⟨ty, (h.stays hs (holds_value ht)).has hty, hv⟩
  functions hf := by
    obtain ⟨ty, domain, range, hty, hshape, hrows⟩ := h.functions hf
    have hstays := h.stays hs (holds_function hf)
    obtain ⟨tyShape, hold, hnew⟩ := hstays.ty .refl hty.node .refl
    obtain rfl := Option.some.inj (hshape.symm.trans hold)
    exact ⟨ty, domain, range, hstays.has hty, hnew, hrows⟩
  definitions x v hx := by
    obtain ⟨ty, hxty, hvty⟩ := h.definitions hx
    exact ⟨ty, (h.stays hs (.defined hx)).has hxty, (h.stays hs (.definition hx)).has hvty⟩

/-! ## The model of a context -/

theorem setValue (h : m.Typed s) {t : Term} {v : Value} {ty : Ty} (ht : s.Has t ty)
    (hv : v.OfTy ty) :
    (m.setValue t v).Typed s :=
  { h with
    values := fun {u x} hu => by
      change (m.values.insert t v)[u]? = some x at hu
      rw [Std.HashMap.getElem?_insert] at hu
      split at hu
      next heq =>
        cases hu
        exact ⟨ty, eq_of_beq heq ▸ ht, hv⟩
      next => exact h.values hu }

theorem setRow (h : m.Typed s) {f : Term} {args : List Value} {v : Value} {ty range : Ty}
    {domain : List Ty} (hf : s.Has f ty) (hshape : s.tyShape? ty = some (.function domain range))
    (hargs : List.Forall₂ Value.OfTy domain args) (hv : v.OfTy range) :
    (m.setRow f args v).Typed s :=
  { h with
    functions := fun {f' table} hf' => by
      change (m.functions.insert f ((m.functions.getD f ∅).insert args v))[f']? = some table at hf'
      rw [Std.HashMap.getElem?_insert] at hf'
      split at hf'
      next heq =>
        cases hf'
        refine ⟨ty, domain, range, eq_of_beq heq ▸ hf, hshape, fun {args' v'} hrow => ?_⟩
        rw [Std.HashMap.getElem?_insert] at hrow
        split at hrow
        next hargs' =>
          cases hrow
          exact ⟨eq_of_beq hargs' ▸ hargs, hv⟩
        next =>
          -- an older row is one of the same function
          rw [Std.HashMap.getD_eq_getD_getElem?] at hrow
          cases htable : m.functions[f]? with
          | none => simp [htable] at hrow
          | some table =>
            rw [htable] at hrow
            obtain ⟨ty', domain', range', hf'', hshape', hrows⟩ := h.functions htable
            rw [hf''.unique hf, hshape] at hshape'
            cases hshape'
            exact hrows hrow
      next => exact h.functions hf' }

theorem empty (s : Store) : Model.empty.Typed s where
  values h := by simp [Model.empty] at h
  functions h := by simp [Model.empty] at h
  definitions := Store.assigns_empty s

end Typed

theorem typed_boolValues (hc : c.Ok s) (h : m.Typed s) : (c.boolValues s m).Typed s := by
  have hlive : ∀ x ∈ c.vars.toList, ∃ ty, s.Has x.2 ty :=
    fun x hx => hc.live (Variables.mem_toList.mp hx)
  unfold Context.boolValues
  generalize c.vars.toList = xs at hlive
  induction xs generalizing m with
  | nil => exact h
  | cons x xs ih =>
    refine ih ?_ fun y hy => hlive y (List.mem_cons_of_mem _ hy)
    obtain ⟨ty, hty⟩ := hlive x List.mem_cons_self
    dsimp only
    split
    · exact h
    · exact h.setValue hty trivial

theorem typed_bvValues (hc : c.Typed s) (h : m.Typed s) : (c.bvValues s m).Typed s := by
  have hlive : ∀ x ∈ c.bits.toList, ∃ ty w, s.Has x.1 ty ∧ s.tyShape? ty = some (.bitVector w) :=
      fun x hx =>
    hc.bits (Std.HashMap.mem_toList_iff_getElem?_eq_some.mp hx)
  unfold Context.bvValues
  generalize c.bits.toList = xs at hlive
  induction xs generalizing m with
  | nil => exact h
  | cons x xs ih =>
    refine ih ?_ fun y hy => hlive y (List.mem_cons_of_mem _ hy)
    obtain ⟨ty, w, hty, -⟩ := hlive x List.mem_cons_self
    dsimp only
    split
    · exact h
    · exact h.setValue hty trivial

/-- The value of a node is of its type. -/
theorem nodeValue_ofTy (g : Egraph) (n : Nat) (k : Egraph.Numbering) :
    (g.nodeValue n k).1.OfTy (g.node n).ty := by
  have hget (f : Egraph.Numbering → StateM Egraph.Numbering Value) : (get >>= f) k = f k k := rfl
  unfold Egraph.nodeValue
  dsimp only
  split
  · exact trivial
  · rw [hget]
    cases k.index[g.root n]? with
    | some i => rfl
    | none => rfl

theorem mapM_nodeValue_ofTy (g : Egraph) (ns : List Nat) (k : Egraph.Numbering) :
    List.Forall₂ (fun n v => Value.OfTy (g.node n).ty v) ns (ns.mapM g.nodeValue k).1 := by
  induction ns generalizing k with
  | nil => exact .nil
  | cons n ns ih =>
    rw [List.mapM_cons]
    exact .cons (nodeValue_ofTy g n k) (ih _)

/-- A function takes arguments of the types that the arguments of its applications have. -/
theorem has_func (hw : s.Wf) (hg : g.Typed s) {n : Nat} {f : Term}
    (hfunc : (g.node n).func = some f) :
    ∃ ty, s.Has f ty ∧ s.tyShape? ty = some (.function ((g.node n).args.map (g.node · |>.ty))
      (g.node n).ty) := by
  have hn : g.nodes[n]? = some (g.node n) := by
    have hlt := Egraph.lt_size_of_func hfunc
    rw [Egraph.node, Array.getD_eq_getD_getElem?, Array.getElem?_eq_getElem hlt, Option.getD_some]
  obtain ⟨ts, hts, hargs⟩ := (hg.described hn).1.app hfunc
  have hnode := (hg.has_node hn).node
  rw [hts] at hnode
  obtain ⟨tf, domain, hf, hshape, hdomain⟩ := hw.typed hnode
  suffices heq : (g.node n).args.map (g.node · |>.ty) = domain from ⟨tf, hf, heq ▸ hshape⟩
  -- the node of an argument is typed like the term that it stands for
  refine List.ext_getElem (by rw [List.length_map, hargs.length_eq, hdomain.length_eq])
    fun i hi hid => ?_
  rw [List.length_map] at hi
  have hit : i < ts.length := hargs.length_eq ▸ hi
  obtain ⟨m, hm, hterm⟩ := Option.map_eq_some_iff.mp (hargs.get hi hit).2
  have hty := hg.has_node hm
  rw [show m.term = ts[i] from hterm] at hty
  rw [List.getElem_map, Egraph.node, Array.getD_eq_getD_getElem?,
    show g.nodes[(g.node n).args[i]]? = some m from hm]
  exact hty.unique (hdomain.get hit hid)

/-- A row of a function is made of the values of an application and of its arguments. -/
theorem typed_valueNodes (hw : s.Wf) (hg : g.Typed s) (ns : List Nat)
    (hns : ∀ n ∈ ns, n < g.nodes.size)
    (h : m.Typed s) (k : Egraph.Numbering) : (g.valueNodes s ns m k).1.Typed s := by
  induction ns generalizing m k with
  | nil => exact h
  | cons n ns ih =>
    have hrest : ∀ n ∈ ns, n < g.nodes.size := fun n hn => hns n (List.mem_cons_of_mem _ hn)
    have hvalue := nodeValue_ofTy g n k
    unfold Egraph.valueNodes
    cases hfunc : (g.node n).func with
    | none =>
      have hn : g.nodes[n]? = some (g.node n) := by
        rw [Egraph.node, Array.getD_eq_getD_getElem?, Array.getElem?_eq_getElem
          (hns n List.mem_cons_self),
          Option.getD_some]
      simp only [hfunc]
      rw [show ∀ f : Value → StateM Egraph.Numbering Model, (g.nodeValue n >>= f) k =
        f (g.nodeValue n k).1 (g.nodeValue n k).2 from fun _ => rfl]
      split
      · exact ih hrest (h.setValue (hg.has_node hn) hvalue) _
      · exact ih hrest h _
    | some f =>
      obtain ⟨ty, hf, hshape⟩ := has_func hw hg hfunc
      have hargs := mapM_nodeValue_ofTy g (g.node n).args (g.nodeValue n k).2
      simp only [hfunc]
      exact ih hrest (h.setRow hf hshape (List.forall₂_map_left_iff.mpr hargs) hvalue) _

theorem typed_addToModel (hw : s.Wf) (hg : g.Typed s) (h : m.Typed s) :
    (g.addToModel s m).Typed s := by
  refine typed_valueNodes hw hg _ (fun n hn => ?_) h {}
  have hrange := List.mem_range'_1.mp hn
  omega

/-- A context makes models of its own terms. -/
theorem typed_model {keepSubst : Bool} (hw : s.Wf) (hc : c.Ok s) (h : c.Typed s)
    (hm : c.model s keepSubst = .ok m) :
    m.Typed s := by
  unfold Context.model at hm
  split at hm
  · cases hm
  · cases hm
    have hvalues := typed_addToModel hw h.egraph (typed_bvValues h (typed_boolValues hc (.empty s)))
    split
    · exact { hvalues with definitions := h.subst }
    · exact hvalues

end Model
end Entail
