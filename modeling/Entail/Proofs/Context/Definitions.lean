import Entail.Context.Model
import Entail.Proofs.Context.TidyRuns
import Entail.Proofs.Model.Coverage

/-!
# Definitions of eliminated constants

The definitions of a context are resolved: no constant that has a definition occurs in a
definition, in a constraint or in what is encoded. A substitution takes all of them out at once, a
model gives values to other constants only, and the evaluation of a definition does not come back
to a constant that has one.
-/

namespace Entail

/-! ## Constants that get values -/

namespace Model

variable {m m' m'' : Model} {P : Term → Prop}

/-- Values are given to constants of `P` only, and no definitions. -/
structure Fills (P : Term → Prop) (m m' : Model) : Prop where
  value : ∀ {x}, ¬ P x → m'.values[x]? = m.values[x]?
  definitions : m'.definitions = m.definitions

theorem Fills.refl (m : Model) : m.Fills P m := ⟨fun _ => rfl, rfl⟩

theorem Fills.trans (h : m.Fills P m') (h' : m'.Fills P m'') : m.Fills P m'' :=
  ⟨fun hx => (h'.value hx).trans (h.value hx), h'.definitions.trans h.definitions⟩

theorem fills_setValue {t : Term} (ht : P t) (v : Value) : m.Fills P (m.setValue t v) := by
  refine ⟨fun {x} hx => ?_, rfl⟩
  show (m.values.insert t v)[x]? = _
  rw [Std.HashMap.getElem?_insert, if_neg]
  exact fun heq => hx (beq_iff_eq.mp heq ▸ ht)

theorem fills_setRow (f : Term) (args : List Value) (v : Value) : m.Fills P (m.setRow f args v) :=
  ⟨fun _ => rfl, rfl⟩

theorem fills_foldl {α : Type} {f : Model → α → Model} {as : List α}
    (h : ∀ a ∈ as, ∀ m : Model, m.Fills P (f m a)) :
    m.Fills P (as.foldl f m) := by
  induction as generalizing m with
  | nil => exact .refl m
  | cons a as ih => exact (h a List.mem_cons_self m).trans (ih fun b hb =>
    h b (List.mem_cons_of_mem a hb))

end Model

namespace Egraph

variable {g : Egraph} {s : Store} {P : Term → Prop}

theorem fills_valueNodes {ns : List Nat} (h : ∀ n ∈ ns, P (g.node n).term) (m : Model)
    (numbering : Numbering) :
    m.Fills P ((valueNodes g s ns m).run numbering).1 := by
  induction ns generalizing m numbering with
  | nil => exact .refl m
  | cons n ns ih =>
    have hrest := ih fun k hk => h k (List.mem_cons_of_mem n hk)
    unfold valueNodes
    rw [StateT.run_bind]
    cases hfunc : (g.node n).func with
    | none =>
      simp only
      split
      · exact (Model.fills_setValue (h n List.mem_cons_self) _).trans (hrest _ _)
      · exact hrest m _
    | some f =>
      simp only [StateT.run_bind]
      exact (Model.fills_setRow f _ _).trans (hrest _ _)

theorem fills_addToModel (h : ∀ n ∈ g.nodes, P n.term) (m : Model) :
    m.Fills P (g.addToModel s m) := by
  refine fills_valueNodes (fun n hn => ?_) m {}
  have hlt : n < g.nodes.size := by
    rw [List.mem_range'_1] at hn
    omega
  have hnode : g.node n ∈ g.nodes := by
    rw [node, Array.getD_eq_getD_getElem?, Array.getElem?_eq_getElem hlt]
    exact Array.getElem_mem hlt
  exact h _ hnode

end Egraph

namespace Context

variable {c : Context} {s s' : Store} {m : Model} {x t : Term} {ty : Ty}

/-- A model of a context gives values to what is encoded, and has no definitions but those of
the context. -/
theorem model_values {keepSubst : Bool} (hm : c.model s keepSubst = .ok m) :
    (∀ {x : Term}, ¬ c.Encoded x → m.values[x]? = none) ∧
      ∀ {x v : Term}, m.definitions[x]? = some v → c.subst[x]? = some v := by
  have hbool : Model.empty.Fills c.Encoded (c.boolValues s .empty) := by
    refine Model.fills_foldl fun (v, t) hv m => ?_
    have ht : c.Encoded t := .inl ⟨v, Variables.mem_toList.mp hv⟩
    dsimp only
    split
    · exact .refl m
    · exact Model.fills_setValue ht _
  have hbv : (c.boolValues s .empty).Fills c.Encoded (c.bvValues s (c.boolValues s .empty)) := by
    refine Model.fills_foldl fun (t, word) hword m => ?_
    have ht : c.Encoded t :=
      .inr (.inl ⟨word, Std.HashMap.mem_toList_iff_getElem?_eq_some.mp hword⟩)
    dsimp only
    split
    · exact .refl m
    · exact Model.fills_setValue ht _
  have hvalues := (hbool.trans hbv).trans
    (Egraph.fills_addToModel (s := s) (fun n hn => .inr (.inr ⟨n, hn, rfl⟩))
      (c.bvValues s (c.boolValues s .empty)))
  unfold model at hm
  split at hm
  · cases hm
  · cases hm
    cases keepSubst with
    | true => exact ⟨fun hx => (hvalues.value hx).trans (by simp [Model.empty]), id⟩
    | false =>
      refine ⟨fun hx => (hvalues.value hx).trans (by simp [Model.empty]), fun {x v} hx => ?_⟩
      have hnone : (c.registry.addToModel s (c.bvValues s (c.boolValues s .empty))).definitions =
        ∅ := hvalues.definitions
      change (c.registry.addToModel s (c.bvValues s (c.boolValues s .empty))).definitions[x]? =
        some v at hx
      rw [hnone] at hx
      simp at hx

/-- What avoids eliminated constants contains none. -/
theorem Eliminates.occurs_eq_false (h : c.Eliminates s) (hw : s.Wf) (hs : s.Extends s')
    (hw' : s'.Wf)
    (ht : s'.Avoids c.Eliminated t) (hx : c.Eliminated x) : s'.occurs x t = false := by
  have hdatum := (h.datum hx).later hw hs
  obtain ⟨ty, n, ty', hn⟩ := Store.node_of_isUninterpreted hdatum.const
  refine Bool.eq_false_iff.mpr fun hoccurs =>
    (ht x ((Store.occurs_iff hw' ⟨_, hn⟩).mp hoccurs)).2 ?_
  rwa [Term.positive_of_not_isNegated hdatum.positive]

/-- A formula contains no eliminated constant once the definitions are put in. -/
theorem Eliminates.subst_avoids (h : c.Eliminates s) (hw : s.Wf) (ht : s.Has t ty) {r : Term}
    (hr : Store.subst c.subst t s = .ok r s') : s'.Avoids c.Eliminated r := by
  have hconst : s.HasConstants c.Eliminated := hw.hasConstants fun x hx => (h.datum hx).const
  have hfree : s.Avoids (fun x => c.Eliminated x ∧ c.subst[x]? = none) t := by
    refine (Store.avoids_iff hw ⟨_, ht.node⟩ fun x hx => (h.datum hx.1).positive).mpr fun x hx => ?_
    obtain ⟨⟨v, hv⟩, hnone⟩ := hx
    rw [hv] at hnone
    cases hnone
  have hrun := Store.subst_avoiding hw hconst h.values hfree
  unfold Store.Avoiding Leads Ends at hrun
  rw [hr] at hrun
  exact hrun.2

/-- The evaluation in a model of a context goes down: from a term to its parts, and from an
eliminated constant to its definition, in which there are no others. -/
theorem Eliminates.ranked (h : c.Eliminates s) (hw : s.Wf) (htyped : c.Typed s)
    (hdefs : ∀ {x v : Term}, m.definitions[x]? = some v → c.subst[x]? = some v) :
    ∃ rank : Nat → Nat, ∀ {t u}, m.Asks s t u → rank u.index < rank t.index ∧
    u.index < s.terms.slots.size := by
  classical
  obtain ⟨rank, hrank, hbound⟩ := hw.bounded
  have havoids (t : Term) : s.Avoids c.Eliminated (.ofIndex t.index) ↔ s.Avoids c.Eliminated t :=
    ⟨fun ht => ht.congr (by simp), fun ht => ht.congr (by simp)⟩
  refine ⟨fun i => if s.Avoids c.Eliminated (.ofIndex i) then rank i
    else s.terms.slots.size + rank i, fun {t u} hu => ?_⟩
  simp only [havoids]
  cases hu with
  | part hu =>
    cases hn : s.node? t with
    | none => simp [Store.shape, Store.shape?, hn, Term.Shape.children] at hu
    | some n =>
      have hchild : u ∈ n.1.children := by rwa [Store.shape, Store.shape?, hn] at hu
      obtain ⟨_, ⟨_, hlive⟩, -⟩ := (hw.typed hn).live hchild
      have hlt : rank u.index < rank t.index := hrank hn u hchild
      have hsmall : rank u.index < s.terms.slots.size := hbound hlive
      refine ⟨?_, Arena.lt_of_get? hlive⟩
      by_cases ht : s.Avoids c.Eliminated t
      · rwa [if_pos (ht.part hu), if_pos ht]
      · rw [if_neg ht]
        split <;> omega
  | definition hu =>
    have hsubst := hdefs hu
    obtain ⟨_, -, ⟨_, hlive⟩, -⟩ := htyped.subst hsubst
    have hsmall : rank u.index < s.terms.slots.size := hbound hlive
    have ht : ¬ s.Avoids c.Eliminated t := fun ht => ht.not_mem ⟨u, hsubst⟩
    rw [if_pos (h.values _ u hsubst), if_neg ht]
    exact ⟨by omega, Arena.lt_of_get? hlive⟩

/-- Nothing that a context holds or makes contains a constant that has a definition, but the
definitions themselves. -/
structure Resolved (s : Store) (c : Context) : Prop where
  values : ∀ {x y v : Term}, c.subst[x]? = some v → c.Eliminated y → s.occurs y v = false
  substituted : ∀ {x t r : Term} {ty : Ty} {s' : Store}, s.Has t ty →
    Store.subst c.subst t s = .ok r s' →
    c.Eliminated x → s'.occurs x r = false
  vars : ∀ {x : Term}, c.Eliminated x → c.vars.find? x = none
  bits : ∀ {x : Term}, c.Eliminated x → c.bits[x]? = none
  nodes : ∀ {x : Term}, c.Eliminated x → ∀ n ∈ c.registry.egraph.nodes, n.term ≠ x
  formulas : ∀ {x : Term}, c.Eliminated x → ∀ q ∈ c.solver.constraints, s.occurs x q.formula = false
  model : ∀ {keepSubst : Bool} {m : Model}, c.model s keepSubst = .ok m →
    (∀ {x}, c.Eliminated x → m.values[x]? = none) ∧
      ∀ {t depth}, s.isValid t = true → s.terms.slots.size < depth →
        m.evalAt s depth t = m.evalAt s (s.terms.slots.size + 1) t

end Context

namespace Workspace

open Context

variable {w : Workspace}

/-- In a tidy context definitions are resolved. -/
theorem Tidy.resolved (h : w.Tidy) : w.ctx.Resolved w.store := by
  have hgone := h.gone
  have hhere : w.store.Extends w.store := .refl _
  refine ⟨fun hv hy => ?_, fun {x t r ty s'} ht hr hx => ?_, fun {x} hx => ?_, fun {x} hx => ?_,
    fun {x} hx n hn heq => ?_,
    fun hx q hq => ?_, fun {keepSubst m} hm => ?_⟩
  · exact hgone.occurs_eq_false h.ok.store hhere h.ok.store (hgone.values _ _ hv) hy
  · have hlater := Store.builders_built.subst w.ctx.subst t w.store h.ok.store
    rw [hr] at hlater
    exact hgone.occurs_eq_false h.ok.store hlater.later.ext hlater.later.wf
      (hgone.subst_avoids h.ok.store ht hr) hx
  · refine Option.eq_none_iff_forall_ne_some.mpr fun v hv => ?_
    exact hgone.encoded (.inl ⟨v, h.ok.ctx.vars.find?_eq_some.mp hv⟩) hx
  · exact Option.eq_none_iff_forall_ne_some.mpr fun word hword =>
      hgone.encoded (.inr (.inl ⟨word, hword⟩)) hx
  · exact hgone.encoded (.inr (.inr ⟨n, hn, heq⟩)) hx
  · exact hgone.occurs_eq_false h.ok.store hhere h.ok.store (hgone.formulas q hq) hx
  · obtain ⟨hvalues, hdefs⟩ := model_values hm
    obtain ⟨rank, hrank⟩ := hgone.ranked h.ok.store h.typed hdefs
    refine ⟨fun hx => hvalues fun henc => hgone.encoded henc hx, fun ht hdepth => ?_⟩
    exact Model.evalAt_of_le (fun hc => (hrank hc).1) (fun hc => (hrank hc).2) hdepth ht

/-- However a context was used, its definitions are resolved. -/
theorem resolved_of_used (h : Used w) : w.ctx.Resolved w.store := (kempt_of_used h).tidy.resolved

/-- An equality of two boolean constants is asserted, so one of them is defined as the other. -/
theorem resolved_of_used_equalConstants :
    let equality : Store.Op Term := do
      let a ← Store.newConst .bool
      let b ← Store.newConst .bool
      Store.eq a b
    let w := after ⟨endState (equality .empty), .new {}⟩ [.push, .assert [(Term.ofIndex 4).neg],
      .check {} .never 8]
    Used w ∧ w.ctx.Resolved w.store := by
  intro equality w
  have hconst := (Store.Orderly.newConst .bool).built (Store.newConst_moves .bool)
  have hequality : Moves Store.Wf Store.Built equality :=
    Store.built_frame.bind hconst fun a => Store.built_frame.bind hconst fun b =>
      Store.builders_built.eq a b
  have hw : (endState (equality .empty)).Wf := (hequality .empty Store.wf_empty).later.wf
  have hused : Used w := used_after hw _ _
  exact ⟨hused, resolved_of_used hused⟩

end Workspace
end Entail
