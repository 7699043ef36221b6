import Entail.Proofs.Context.Frame
import Entail.Proofs.Egraph.Types
import Entail.Proofs.Quant.Types

/-!
# Terms of a context

The tables of a context hold terms: assertions and definitions, terms that were encoded, nodes and
constraints. They are in the store, with the types at which they are used, as long as only terms of
the right types are encoded. The steps inside of a scope are looked at for both cases: a strict run
is one of which this is known, and any run keeps what is seen as of open marks.

The roots of a context list some of its tables. What is in the other tables, such as functions of
nodes, bodies of quantifiers and heads of patterns, is a subterm of what is listed, so it stays in
the store with the roots.
-/

namespace Entail

namespace Context

variable {s s' : Store} {c : Context}

/-- The terms in the tables are in the store, with the types at which they are used. -/
structure Typed (s : Store) (c : Context) : Prop where
  assertions : ∀ t ∈ c.assertions, s.Has t .bool
  subst : s.Assigns c.subst
  eliminated : ∀ {x v}, c.subst[x]? = some v → (s.shape x).isUninterpreted = true
  lits : ∀ {p l}, c.lits[p]? = some l → ∃ ty, s.Has p ty
  bits : ∀ {t bits}, c.bits[t]? = some bits → ∃ ty w, s.Has t ty ∧
    s.tyShape? ty = some (.bitVector w)
  egraph : c.registry.egraph.Typed s
  solver : c.solver.Typed s

/-- Where the terms in the tables are found among the roots of a context. -/
theorem mem_roots {t : Term} : t ∈ c.roots ↔
    t ∈ c.assertions ∨ (∃ v, c.vars.term? v = some t) ∨
    (∃ x v, c.subst[x]? = some v ∧ (t = x ∨ t = v)) ∨
      t ∈ c.lits ∨ t ∈ c.bits ∨ t ∈ c.aux ∨ t ∈ c.registry.roots := by
  unfold roots
  simp only [List.mem_append, Array.mem_toList_iff, List.mem_map, List.mem_flatMap,
    Std.HashMap.mem_keys,
    Std.HashSet.mem_toList, Prod.exists, Std.HashMap.mem_toList_iff_getElem?_eq_some, List.mem_cons,
      List.not_mem_nil,
    or_false, Variables.mem_toList, exists_eq_right, or_assoc]

theorem mem_roots_of_egraph {t : Term} (ht : t ∈ c.registry.egraph.roots) : t ∈ c.roots :=
  mem_roots.mpr (.inr (.inr (.inr (.inr (.inr (.inr (List.mem_append_left _ ht)))))))

theorem mem_roots_of_solver (hc : c.registry.Has c.solver) {t : Term} (ht : t ∈ c.solver.roots) :
    t ∈ c.roots := by
  refine mem_roots.mpr (.inr (.inr (.inr (.inr (.inr (.inr (List.mem_append_right _ ?_)))))))
  rw [hc]
  simpa [Theory.Satellite.roots] using ht

/-- The tables of a context are in the store as long as its roots are. -/
theorem Typed.spares (h : c.Typed s) (hc : c.registry.Has c.solver) (hs : s.Spares s' c.roots) :
    c.Typed s' := by
  have stays {t : Term} (ht : t ∈ c.roots) {ty : Ty} (hty : s.Has t ty) : s.Stays s' t :=
    hs t ht (Store.isValid_iff.mpr ⟨ty, hty⟩)
  have hdefined {x v t : Term} (hx : c.subst[x]? = some v) (ht : t = x ∨ t = v) : t ∈ c.roots :=
    mem_roots.mpr (.inr (.inr (.inl ⟨x, v, hx, ht⟩)))
  refine ⟨fun t ht => ?_, fun x v hx => ?_, fun {x v} hx => ?_, fun {p l} hp => ?_,
    fun {t bits} ht => ?_, ?_, ?_⟩
  · exact (stays (mem_roots.mpr (.inl ht)) (h.assertions t ht)).has (h.assertions t ht)
  · obtain ⟨ty, hxty, hvty⟩ := h.subst hx
    exact ⟨ty, (stays (hdefined hx (.inl rfl)) hxty).has hxty,
      (stays (hdefined hx (.inr rfl)) hvty).has hvty⟩
  · obtain ⟨ty, hxty, -⟩ := h.subst hx
    exact (stays (hdefined hx (.inl rfl)) hxty).shape_eq ▸ h.eliminated hx
  · obtain ⟨ty, hty⟩ := h.lits hp
    have hmem :=
      mem_roots.mpr
        (.inr (.inr (.inr (.inl (Std.HashMap.isSome_getElem?_iff_mem.mp (by rw [hp]; rfl))))))
    exact ⟨ty, (stays hmem hty).has hty⟩
  · obtain ⟨ty, w, hty, hw⟩ := h.bits ht
    have hmem := mem_roots.mpr
      (.inr (.inr (.inr (.inr (.inl (Std.HashMap.isSome_getElem?_iff_mem.mp (by rw [ht]; rfl)))))))
    obtain ⟨shape, hold, hnew⟩ := (stays hmem hty).ty .refl hty.node .refl
    exact ⟨ty, w, (stays hmem hty).has hty, hnew.trans (hold.symm.trans hw)⟩
  · refine h.egraph.transfer fun n hn x hx => ?_
    obtain ⟨i, hi⟩ := Array.mem_iff_getElem?.mp hn
    have hmem := mem_roots_of_egraph (List.mem_map.mpr ⟨n, Array.mem_toList_iff.mpr hn, rfl⟩)
    exact (stays hmem (h.egraph.has_node hi)).node_eq hx
  · exact h.solver.spares fun t ht => hs t (mem_roots_of_solver hc ht)

theorem Typed.later (h : c.Typed s) (hc : c.Ok s) (hw : s.Wf) (hs : s.Extends s') : c.Typed s' :=
  h.spares hc.registry (hs.spares hw _)

/-- A constant is eliminated by a term of its type. -/
theorem Typed.define (h : c.Typed s) {x v : Term} {ty : Ty} (hx : s.Has x ty) (hv : s.Has v ty)
    (hconst : (s.shape x).isUninterpreted = true) :
    Typed s { c with subst := c.subst.insert x v, substLog := c.substLog.push x } :=
  { h with
    subst := h.subst.insert hx hv
    eliminated := fun {y u} hy => by
      change (c.subst.insert x v)[y]? = some u at hy
      rw [Std.HashMap.getElem?_insert] at hy
      split at hy
      next heq => exact eq_of_beq heq ▸ hconst
      next => exact h.eliminated hy }

end Context

namespace Workspace

open Context

variable {strict : Prop} {s : Store} {w w' w'' : Workspace}

/-- The store extends `s` and fits to the context; in a strict run the terms of the
context are typed. -/
structure Since (strict : Prop) (s : Store) (w : Workspace) : Prop where
  ok : w.Ok
  typed : strict → w.ctx.Typed w.store
  ext : s.Extends w.store

/-- A step inside of a scope; in a strict run the terms of the context are typed at its end. -/
structure TypedStep (strict : Prop) (w w' : Workspace) : Prop where
  step : Step w w'
  typed : strict → w'.ctx.Typed w'.store

theorem TypedStep.trans (h : TypedStep strict w w') (h' : TypedStep strict w' w'') :
    TypedStep strict w w'' :=
  ⟨step_frame.trans h.step h'.step, h'.typed⟩

theorem typed_frame : Frame (Since strict s) (TypedStep strict) where
  refl h := ⟨step_frame.refl h.ok, h.typed⟩
  trans := TypedStep.trans
  stable h h' := ⟨step_frame.stable h.ok h'.step, h'.typed, h.ext.trans h'.step.keeps.store.ext⟩

theorem Since.here (h : Since strict s w) : Since strict w.store w := ⟨h.ok, h.typed, .refl _⟩

/-- Any workspace may be taken for the start of a run that is not strict. -/
theorem since_of_ok (h : w.Ok) : Since False w.store w := ⟨h, False.elim, .refl _⟩

/-- A step keeps the types if what it changes does. -/
theorem Since.step (h : Since strict s w) (hstep : Step w w')
    (htyped : w.ctx.Typed w.store → w'.ctx.Typed w'.store) : TypedStep strict w w' :=
  ⟨hstep, fun hs => htyped (h.typed hs)⟩

/-- Building terms leaves the context as it is. -/
theorem Since.built (h : Since strict s w) {store : Store} (hs : Store.Built w.store store) :
    TypedStep strict w ⟨store, w.ctx⟩ :=
  h.step
    (step_of_registry h.ok hs h.ok.ctx.registry (Egraph.SameNodes.adds (.refl _) h.ok.ctx.nodes)
      (.refl h.ok.ctx.tables))
    fun ht => ht.later h.ok.ctx h.ok.store hs.later.ext

theorem Since.built_of_ctx (h : Since strict s w) (hs : Store.Built w.store w'.store)
    (hctx : w'.ctx = w.ctx) :
    TypedStep strict w w' := by
  obtain ⟨store, ctx⟩ := w'
  change ctx = w.ctx at hctx
  subst hctx
  exact h.built hs

end Workspace
end Entail

namespace Entail.Context

/-! ## Roots -/

variable {s s' : Store} {c : Context} {t : Term}

/-- Terms that are in some table of a context. -/
inductive Holds (c : Context) : Term → Prop where
  | assertion {t : Term} (h : t ∈ c.assertions) : c.Holds t
  | variable {v : Nat} {t : Term} (h : c.vars.term? v = some t) : c.Holds t
  | defined {x v : Term} (h : c.subst[x]? = some v) : c.Holds x
  | definition {x v : Term} (h : c.subst[x]? = some v) : c.Holds v
  | literal {t : Term} (h : t ∈ c.lits) : c.Holds t
  | word {t : Term} (h : t ∈ c.bits) : c.Holds t
  | aux {t : Term} (h : t ∈ c.aux) : c.Holds t
  | node {n : Egraph.Node} (h : n ∈ c.registry.egraph.nodes) : c.Holds n.term
  | nodeOf {t : Term} (h : t ∈ c.registry.egraph.nodeOf) : c.Holds t
  | function {n : Egraph.Node} {f : Term} (h : n ∈ c.registry.egraph.nodes) (hf : n.func = some f) :
    c.Holds f
  | apps {f : Term} (h : f ∈ c.registry.egraph.apps) : c.Holds f
  | constraint {q : Quant.Constraint} (h : q ∈ c.solver.constraints) : c.Holds q.formula
  | boundVar {q : Quant.Constraint} {x : Term} (h : q ∈ c.solver.constraints) (hx : x ∈ q.vars) :
    c.Holds x
  | body {q : Quant.Constraint} (h : q ∈ c.solver.constraints) : c.Holds q.body
  | pattern {p : Quant.Pattern} (h : p ∈ c.solver.patterns.patterns) : c.Holds p.term
  | patternOf {t : Term} (h : t ∈ c.solver.patterns.index) : c.Holds t
  | head {p : Quant.Pattern} (h : p ∈ c.solver.patterns.patterns) : c.Holds p.head
  | patternVar {p : Quant.Pattern} {x : Term} (h : p ∈ c.solver.patterns.patterns)
    (hx : x ∈ p.vars) : c.Holds x
  | instance_ {t : Term} (h : t ∈ c.solver.instances) : c.Holds t

/-- A term is part of a root: it is a term of the store, and a subterm of a root that is one,
too. -/
def Rooted (s : Store) (c : Context) (t : Term) : Prop :=
  s.isValid t = true ∧ ∃ r ∈ c.roots, s.isValid r = true ∧ s.Below r t

theorem Rooted.stays (h : c.Rooted s t) (hs : s.Spares s' c.roots) : s.Stays s' t := by
  obtain ⟨ht, r, hr, hvalid, hbelow⟩ := h
  exact (hs r hr hvalid).part hbelow ht

theorem rooted_of_mem {ty : Ty} (hr : t ∈ c.roots) (ht : s.Has t ty) : c.Rooted s t :=
  have hvalid := Store.isValid_iff.mpr ⟨ty, ht⟩
  ⟨hvalid, t, hr, hvalid, .refl⟩

theorem Rooted.child (h : c.Rooted s t) (hw : s.Wf) {n : Term.Shape × Ty} (hn : s.node? t = some n)
    {u : Term} (hu : u ∈ n.1.children) : c.Rooted s u := by
  obtain ⟨-, r, hr, hvalid, hbelow⟩ := h
  exact ⟨Store.isValid_iff.mpr ((hw.typed hn).live hu), r, hr, hvalid, hbelow.child hn hu⟩

theorem rooted_node (h : c.Typed s) {n : Egraph.Node} (hn : n ∈ c.registry.egraph.nodes) :
    c.Rooted s n.term := by
  obtain ⟨i, hi⟩ := Array.mem_iff_getElem?.mp hn
  exact rooted_of_mem (mem_roots_of_egraph (List.mem_map.mpr ⟨n, Array.mem_toList_iff.mpr hn, rfl⟩))
    (h.egraph.has_node hi)

theorem rooted_function (h : c.Typed s) (hw : s.Wf) {n : Egraph.Node} {f : Term}
    (hn : n ∈ c.registry.egraph.nodes) (hf : n.func = some f) : c.Rooted s f := by
  obtain ⟨i, hi⟩ := Array.mem_iff_getElem?.mp hn
  obtain ⟨ts, hshape, -⟩ := (h.egraph.described hi).1.app hf
  obtain ⟨ty, hnode⟩ := Store.node_of_shape hshape nofun
  exact (rooted_node h hn).child hw hnode List.mem_cons_self

theorem rooted_constraint (h : c.Typed s) (hc : c.registry.Has c.solver) {q : Quant.Constraint}
    (hq : q ∈ c.solver.constraints) : c.Rooted s q.formula :=
  rooted_of_mem (mem_roots_of_solver hc (by simp [Quant.Solver.roots]; exact .inl ⟨q, hq, rfl⟩))
    (h.solver.constraints q hq).formula

theorem rooted_pattern (h : c.Typed s) (hc : c.registry.Has c.solver) {p : Quant.Pattern}
    (hp : p ∈ c.solver.patterns.patterns) : c.Rooted s p.term := by
  obtain ⟨ty, hty⟩ := Store.isValid_iff.mp (h.solver.patterns p hp).valid
  refine rooted_of_mem (mem_roots_of_solver hc ?_) hty
  simp [Quant.Solver.roots]
  exact .inr (.inl ⟨p, hp, rfl⟩)

/-- Whatever is in a table of a context is part of a root. -/
theorem rooted_of_holds (h : c.Typed s) (hc : c.Ok s) (hw : s.Wf) (ht : c.Holds t) :
    c.Rooted s t := by
  have hvariable {v : Nat} {t : Term} (hv : c.vars.term? v = some t) : c.Rooted s t := by
    obtain ⟨ty, hty⟩ := hc.live hv
    exact rooted_of_mem (mem_roots.mpr (.inr (.inl ⟨v, hv⟩))) hty
  have hdefinition {x v : Term} (hx : c.subst[x]? = some v) : c.Rooted s x ∧ c.Rooted s v := by
    obtain ⟨ty, hxty, hvty⟩ := h.subst hx
    have hroot {t : Term} (ht : t = x ∨ t = v) : t ∈ c.roots :=
      mem_roots.mpr (.inr (.inr (.inl ⟨x, v, hx, ht⟩)))
    exact ⟨rooted_of_mem (hroot (.inl rfl)) hxty, rooted_of_mem (hroot (.inr rfl)) hvty⟩
  -- every table has its roots, and what stands in no root is a part of one
  cases ht with
  | assertion ht => exact rooted_of_mem (mem_roots.mpr (.inl ht)) (h.assertions _ ht)
  | «variable» hv => exact hvariable hv
  | defined hx => exact (hdefinition hx).1
  | definition hx => exact (hdefinition hx).2
  | literal ht =>
    obtain ⟨l, hl⟩ := Option.isSome_iff_exists.mp (Std.HashMap.isSome_getElem?_iff_mem.mpr ht)
    obtain ⟨ty, hty⟩ := h.lits hl
    exact rooted_of_mem (mem_roots.mpr (.inr (.inr (.inr (.inl ht))))) hty
  | word ht =>
    obtain ⟨word, hword⟩ := Option.isSome_iff_exists.mp (Std.HashMap.isSome_getElem?_iff_mem.mpr ht)
    obtain ⟨ty, -, hty, -⟩ := h.bits hword
    exact rooted_of_mem (mem_roots.mpr (.inr (.inr (.inr (.inr (.inl ht)))))) hty
  | aux ht =>
    obtain ⟨v, hv⟩ := hc.aux ht
    exact hvariable hv
  | node hn => exact rooted_node h hn
  | nodeOf ht =>
    obtain ⟨n, hn, rfl⟩ := hc.nodes.nodeOf.exists_of_mem ht
    exact rooted_node h hn
  | function hn hf => exact rooted_function h hw hn hf
  | apps hf =>
    obtain ⟨n, hn, hfunc⟩ := hc.nodes.exists_of_mem_apps hf
    exact rooted_function h hw hn hfunc
  | constraint hq => exact rooted_constraint h hc.registry hq
  | boundVar hq hx =>
    obtain ⟨ty, hnode⟩ := Store.node_of_shape (h.solver.constraints _ hq).shape nofun
    exact (rooted_constraint h hc.registry hq).child hw hnode (List.mem_append_left _ hx)
  | body hq =>
    obtain ⟨ty, hnode⟩ := Store.node_of_shape (h.solver.constraints _ hq).shape nofun
    exact (rooted_constraint h hc.registry hq).child hw hnode
      (List.mem_append_right _ List.mem_cons_self)
  | pattern hp => exact rooted_pattern h hc.registry hp
  | patternOf ht =>
    obtain ⟨p, hp, rfl⟩ := hc.tables.patterns.exists_of_mem ht
    exact rooted_pattern h hc.registry hp
  | head hp =>
    obtain ⟨args, hshape⟩ := (h.solver.patterns _ hp).shape
    obtain ⟨ty, hnode⟩ := Store.node_of_shape hshape nofun
    exact (rooted_pattern h hc.registry hp).child hw hnode List.mem_cons_self
  | patternVar hp hx =>
    obtain ⟨-, r, hr, hvalid, hbelow⟩ := rooted_pattern h hc.registry hp
    obtain ⟨hx, hlive⟩ := (h.solver.patterns _ hp).vars _ hx
    exact ⟨hlive, r, hr, hvalid, hbelow.trans hx⟩
  | instance_ ht =>
    have hlog := hc.tables.instances.mp ht
    exact rooted_of_mem (mem_roots_of_solver hc.registry (by simp [Quant.Solver.roots, hlog]))
      (h.solver.log _ hlog)

end Entail.Context
