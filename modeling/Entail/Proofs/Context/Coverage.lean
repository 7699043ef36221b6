import Entail.Proofs.Context.Definitions
import Entail.Proofs.Context.Refusals
import Entail.Proofs.Context.SupportedRuns
import Entail.Proofs.Model
import Entail.Proofs.Model.Coverage
import Entail.Proofs.Quant.Match
import Mathlib

/-!
# What the model of a context covers

A model has values for the constants that were encoded and definitions for those that were
eliminated, and what is asserted is supported. So an asserted formula without quantifiers has a
truth value in the model, or it comes down to a constant that was neither encoded nor
eliminated: one that only equalities mentioned by which other constants were eliminated, say.
Such a constant has no value.
-/

namespace Entail

namespace Model

variable {m : Model} {s : Store} {t x : Term} {v : Value}

/-! ## Values of the right kinds -/

theorem Suitable.empty (s : Store) : Model.empty.Suitable s where
  values h := by simp [Model.empty] at h
  rows h := by simp [Model.empty] at h
  definitions := Store.assigns_empty s
  supported h := by simp [Model.empty] at h

theorem Suitable.setValue (h : m.Suitable s) (hv : ∀ ty, s.Has t ty → v.Suits s ty) :
    (m.setValue t v).Suitable s :=
  { h with
    values := fun {x ty u} hx hty => by
      change (m.values.insert t v)[x]? = some u at hx
      rw [Std.HashMap.getElem?_insert] at hx
      split at hx
      next heq =>
        cases hx
        exact hv ty (eq_of_beq heq ▸ hty)
      next => exact h.values hx hty }

theorem Suitable.setRow (h : m.Suitable s) {f : Term} (args : List Value)
    (hv : ∀ {tf domain range}, s.Has f tf → s.tyShape? tf = some (.function domain range) →
      v.Suits s range) :
    (m.setRow f args v).Suitable s :=
  { h with
    rows := fun {f' table vs u tf range domain} hf hrow hty hshape => by
      change (m.functions.insert f ((m.functions.getD f ∅).insert args v))[f']? = some table at hf
      rw [Std.HashMap.getElem?_insert] at hf
      split at hf
      next heq =>
        obtain rfl := eq_of_beq heq
        cases hf
        rw [Std.HashMap.getElem?_insert] at hrow
        split at hrow
        next =>
          cases hrow
          exact hv hty hshape
        next =>
          rw [Std.HashMap.getD_eq_getD_getElem?] at hrow
          cases htable : m.functions[f]? with
          | none => simp [htable] at hrow
          | some table =>
            rw [htable] at hrow
            exact h.rows htable hrow hty hshape
      next => exact h.rows hf hrow hty hshape }

theorem suitable_foldl {α : Type} {f : Model → α → Model} {as : List α} (h : m.Suitable s)
    (hf : ∀ a ∈ as, ∀ m : Model, m.Suitable s → (f m a).Suitable s) :
    (as.foldl f m).Suitable s := by
  induction as generalizing m with
  | nil => exact h
  | cons a as ih =>
    exact ih (hf a List.mem_cons_self m h) fun b hb => hf b (List.mem_cons_of_mem a hb)

/-! ## Constants with values -/

theorem mem_setValue : x ∈ (m.setValue t v).values ↔ t = x ∨ x ∈ m.values := by
  simp [Model.setValue]

/-- A value that may be given to another constant. -/
theorem mem_unless_setValue {p : Prop} [Decidable p] (h : x ∈ m.values) :
    x ∈ (if p then m else m.setValue t v).values := by
  split
  · exact h
  · exact mem_setValue.mpr (.inr h)

theorem mem_foldl_of_mem {α : Type} {f : Model → α → Model}
    (hf : ∀ m a, x ∈ m.values → x ∈ (f m a).values)
    (as : List α) (h : x ∈ m.values) : x ∈ (as.foldl f m).values := by
  induction as generalizing m with
  | nil => exact h
  | cons a as ih => exact ih (hf m a h)

/-- A value that is given at some point stays. -/
theorem mem_foldl {α : Type} {f : Model → α → Model} (hf : ∀ m a, x ∈ m.values → x ∈ (f m a).values)
    {as : List α} {a : α}
    (ha : a ∈ as) (hgiven : ∀ m, x ∈ (f m a).values) (m : Model) : x ∈ (as.foldl f m).values := by
  induction as generalizing m with
  | nil => cases ha
  | cons b as ih =>
    rcases List.mem_cons.mp ha with rfl | ha
    · exact mem_foldl_of_mem hf as (hgiven m)
    · exact ih ha (f m b)

end Model

namespace Egraph

variable {g : Egraph} {s : Store} {m : Model} {x : Term} {ns : List Nat}

/-- The value of a node that is no word suits its type. -/
theorem nodeValue_suits (hs : s.Wf) {n : Nat}
    (hty : (g.node n).ty = .bool ∨ ∃ i, s.tyShape? (g.node n).ty = some (.uninterpreted i))
    (k : Numbering) : (g.nodeValue n k).1.Suits s (g.node n).ty := by
  rcases hty with hty | ⟨i, hty⟩
  · unfold nodeValue
    simp only [hty, if_true]
    exact (Value.suits_bool hs).mpr ⟨_, rfl⟩
  · unfold Value.Suits
    rw [hty]
    trivial

/-- Nodes that are no words have suitable values. -/
theorem suitable_valueNodes (hs : s.Wf) (hg : g.Typed s)
    (htypes : ∀ n ∈ ns, n < g.nodes.size ∧
      ((g.node n).ty = .bool ∨ ∃ i, s.tyShape? (g.node n).ty = some (.uninterpreted i)))
    (h : m.Suitable s) (k : Numbering) : ((valueNodes g s ns m).run k).1.Suitable s := by
  induction ns generalizing m k with
  | nil => exact h
  | cons n ns ih =>
    obtain ⟨hlt, hty⟩ := htypes n List.mem_cons_self
    have hrest := fun (m : Model) (h : m.Suitable s) =>
      ih (m := m) (fun i hi => htypes i (List.mem_cons_of_mem n hi)) h
    have hvalue := nodeValue_suits hs hty k
    unfold valueNodes
    rw [StateT.run_bind]
    cases hfunc : (g.node n).func with
    | none =>
      have hn : g.nodes[n]? = some (g.node n) := by
        rw [node, Array.getD_eq_getD_getElem?, Array.getElem?_eq_getElem hlt, Option.getD_some]
      simp only
      split
      · exact hrest _ (h.setValue fun ty ht => (hg.has_node hn).unique ht ▸ hvalue) _
      · exact hrest m h _
    | some f =>
      obtain ⟨tf, hf, hshape⟩ := Model.has_func hs hg hfunc
      simp only [StateT.run_bind]
      refine hrest _ (h.setRow _ fun {tf' domain range} hf' hshape' => ?_) _
      obtain rfl := hf.unique hf'
      cases hshape.symm.trans hshape'
      exact hvalue

/-- Constants that are nodes get values, and those that have values keep some. -/
theorem mem_valueNodes (h : x ∈ m.values ∨
      (s.shape x).isUninterpreted = true ∧ ∃ n ∈ ns, (g.node n).term = x ∧ (g.node n).func = none)
      (k : Numbering) :
    x ∈ ((valueNodes g s ns m).run k).1.values := by
  induction ns generalizing m k with
  | nil =>
    rcases h with h | ⟨-, n, hn, -⟩
    · exact h
    · cases hn
  | cons n ns ih =>
    unfold valueNodes
    rw [StateT.run_bind]
    cases hfunc : (g.node n).func with
    | none =>
      simp only
      split
      next hconst =>
        refine ih ?_ _
        rcases h with h | ⟨hx, i, hi, hterm, hnone⟩
        · exact .inl (Model.mem_setValue.mpr (.inr h))
        · rcases List.mem_cons.mp hi with rfl | hi
          · exact .inl (Model.mem_setValue.mpr (.inl hterm))
          · exact .inr ⟨hx, i, hi, hterm, hnone⟩
      next hconst =>
        refine ih ?_ _
        rcases h with h | ⟨hx, i, hi, hterm, hnone⟩
        · exact .inl h
        · rcases List.mem_cons.mp hi with rfl | hi
          · exact absurd (hterm ▸ hx) hconst
          · exact .inr ⟨hx, i, hi, hterm, hnone⟩
    | some f =>
      simp only [StateT.run_bind]
      refine ih (m := m.setRow f _ _) ?_ _
      rcases h with h | ⟨hx, i, hi, hterm, hnone⟩
      · exact .inl h
      · rcases List.mem_cons.mp hi with rfl | hi
        · cases hfunc.symm.trans hnone
        · exact .inr ⟨hx, i, hi, hterm, hnone⟩

end Egraph

namespace Context

variable {c : Context} {s : Store} {m : Model} {t x : Term}

/-- The constant has no variable of its own, no word, no node and no definition. -/
structure Unvalued (s : Store) (c : Context) (x : Term) : Prop where
  const : (s.shape x).isUninterpreted = true
  variable_ : s.Has x .bool → (∃ v, c.vars.term? v = some x) → x ∈ c.aux
  word : c.bits[x]? = none
  node : ∀ n ∈ c.registry.egraph.nodes, n.term ≠ x
  definition : ¬ c.Eliminated x

/-- The values in a model of a context are of the right kinds. -/
theorem suitable_model (hs : s.Wf) (htyped : c.Typed s) (hsupports : c.Supports s)
    (hm : c.model s true = .ok m) : m.Suitable s := by
  have hbool : (c.boolValues s .empty).Suitable s := by
    refine Model.suitable_foldl (.empty s) fun (v, t) _ m h => ?_
    dsimp only
    split
    · exact h
    next hok =>
      refine h.setValue fun ty ht => ?_
      have hty : ty = .bool := by
        rw [← ht.ty_eq]
        by_contra hne
        exact hok (by simp [hne])
      exact hty ▸ (Value.suits_bool hs).mpr ⟨_, rfl⟩
  have hbv : (c.bvValues s (c.boolValues s .empty)).Suitable s := by
    refine Model.suitable_foldl hbool fun (t, word) hmem m h => ?_
    obtain ⟨ty', w, ht', hw⟩ := htyped.bits (Std.HashMap.mem_toList_iff_getElem?_eq_some.mp hmem)
    dsimp only
    split
    · exact h
    · exact h.setValue fun ty ht => (Value.suits_word (ht'.unique ht ▸ hw)).mpr ⟨_, _, rfl⟩
  have hnodes : (c.registry.addToModel s (c.bvValues s (c.boolValues s .empty))).Suitable s := by
    refine Egraph.suitable_valueNodes hs htyped.egraph (fun n hn => ?_) hbv {}
    have hlt : n < c.registry.egraph.nodes.size := by
      have hrange := List.mem_range'_1.mp hn
      omega
    have hnode : c.registry.egraph.nodes[n]? = some (c.registry.egraph.node n) := by
      rw [Egraph.node, Array.getD_eq_getD_getElem?, Array.getElem?_eq_getElem hlt, Option.getD_some]
    have hhas := htyped.egraph.has_node hnode
    refine ⟨hlt, (hsupports.nodes _ (Array.mem_of_getElem? hnode)).ty.imp (fun h => hhas.unique h)
      fun h => ?_⟩
    obtain ⟨ty, i, hty, hi⟩ := h
    exact ⟨i, hhas.unique hty ▸ hi⟩
  unfold model at hm
  split at hm
  · cases hm
  · cases hm
    exact { hnodes with definitions := htyped.subst, supported := fun hx => hsupports.values hx }

/-- A constant that has no value in a model of a context was neither encoded nor eliminated. -/
theorem unvalued_of_model (hs : s.Wf) (htyped : c.Typed s) (hm : c.model s true = .ok m)
    (hconst : (s.shape x).isUninterpreted = true)
    (hvalue : m.values[x]? = none) (hdef : m.definitions[x]? = none) : c.Unvalued s x := by
  have hmem : x ∉ (c.registry.addToModel s (c.bvValues s (c.boolValues s .empty))).values ∧
      c.subst[x]? = none := by
    unfold model at hm
    split at hm
    · cases hm
    · cases hm
      refine ⟨fun hmem => ?_, hdef⟩
      rw [← Std.HashMap.isSome_getElem?_iff_mem] at hmem
      rw [show (c.registry.addToModel s (c.bvValues s (c.boolValues s .empty))).values[x]? = none
        from hvalue] at hmem
      cases hmem
  -- every node of a constant is given a value, and the values given before are kept
  have hadd {m : Model} (h : x ∈ m.values ∨ ∃ n ∈ c.registry.egraph.nodes, n.term = x) :
      x ∈ (c.registry.addToModel s m).values := by
    refine Egraph.mem_valueNodes ?_ {}
    rcases h with h | ⟨n, hn, hterm⟩
    · exact .inl h
    refine .inr ⟨hconst, ?_⟩
    obtain ⟨i, hi⟩ := Array.mem_iff_getElem?.mp hn
    have hnode : c.registry.egraph.node i = n := by
      rw [Egraph.node, Array.getD_eq_getD_getElem?, hi, Option.getD_some]
    have hlt : i < c.registry.egraph.nodes.size := (Array.getElem?_eq_some_iff.mp hi).1
    refine ⟨i, List.mem_range'_1.mpr ?_, by rw [hnode, hterm], ?_⟩
    · -- the first two nodes are those of truth values
      have htwo : 2 ≤ i := by
        by_contra hlow
        obtain ⟨n', hn', -, htop⟩ := htyped.egraph.constants i (Nat.lt_of_not_le hlow)
        obtain rfl := Option.some.inj (hn'.symm.trans hi)
        rw [← hterm, Store.shape, ← Model.shape?_positive, htop, Store.shape?, hs.truth] at hconst
        cases hconst
      omega
    · rw [hnode]
      cases hfunc : n.func with
      | none => rfl
      | some f =>
        obtain ⟨ts, hshape, -⟩ := (htyped.egraph.described hi).1.app hfunc
        rw [hterm] at hshape
        rw [hshape] at hconst
        cases hconst
  have hbv (h : x ∈ (c.boolValues s .empty).values) :
      x ∈ (c.bvValues s (c.boolValues s .empty)).values :=
    Model.mem_foldl_of_mem (fun _ _ hx => Model.mem_unless_setValue hx) _ h
  refine ⟨hconst, fun hbool hvar => ?_, ?_, fun n hn hterm => hmem.1 (hadd (.inr ⟨n, hn, hterm⟩)),
    fun hdefined => ?_⟩
  · obtain ⟨v, hv⟩ := hvar
    by_contra haux
    have hv : (v, x) ∈ c.vars.toList := Variables.mem_toList.mpr hv
    refine hmem.1
      (hadd (.inl (hbv (Model.mem_foldl (fun _ _ hx => Model.mem_unless_setValue hx) hv
        (fun m => ?_) _))))
    dsimp only
    rw [if_neg (by simp [haux, hbool.ty_eq, hconst])]
    exact Model.mem_setValue.mpr (.inl rfl)
  · by_contra hword
    obtain ⟨word, hword⟩ := Option.ne_none_iff_exists'.mp hword
    have hword : (x, word) ∈ c.bits.toList := Std.HashMap.mem_toList_iff_getElem?_eq_some.mpr hword
    refine hmem.1 (hadd (.inl (Model.mem_foldl (fun _ _ hx => Model.mem_unless_setValue hx) hword
      (fun m => ?_) _)))
    dsimp only
    rw [if_neg (by simp [hconst])]
    exact Model.mem_setValue.mpr (.inl rfl)
  · obtain ⟨d, hd⟩ := hdefined
    rw [hmem.2] at hd
    cases hd

end Context

namespace Store

/-- The term and its parts are no quantifiers. -/
abbrev QuantifierFree (s : Store) (t : Term) : Prop :=
  s.Avoids (fun u => (s.shape u).isQuantifier = true) t

/-- What may be asserted is supported if it has no quantifiers. -/
theorem Assertable.supported_of_free {s : Store} {flatten : Bool} {t : Term}
    (h : s.Assertable flatten t) (hfree : s.QuantifierFree t) : s.Supported [] t := by
  induction h with
  | body h => exact h
  | all hn =>
    refine absurd ?_ hfree.not_mem
    rw [Store.shape, Model.shape?_positive, Store.shape?, hn]
    rfl
  | conj _ _ hn _ ih =>
    refine .plain hn rfl fun a ha => (ih a ha (Avoids.part hfree ?_).neg).of_neg
    rwa [shape_of_node hn]

end Store

namespace Workspace

open Context

variable {w w' : Workspace} {good : Term → Prop} {t x : Term} {m : Model} {status : Status}

/-! ## Assertions were accepted -/

/-- The store grows, and only formulas with `good` are noted. -/
structure Notes (good : Term → Prop) (w w' : Workspace) : Prop where
  ok : w'.Ok
  ext : w.store.Extends w'.store
  assertions : ∀ t ∈ w'.ctx.assertions, t ∈ w.ctx.assertions ∨ good t

theorem notes_frame : Frame Workspace.Ok (Notes good) where
  refl h := ⟨h, .refl _, fun _ => .inl⟩
  trans h h' := ⟨h'.ok, h.ext.trans h'.ext, fun t ht => (h'.assertions t ht).elim
    (h.assertions t) .inr⟩
  stable _ h := h.ok

theorem Notes.of_keeps (h : Keeps w w') (hassertions : w'.ctx.assertions = w.ctx.assertions) :
    Notes good w w' :=
  ⟨⟨h.store.wf, h.ok⟩, h.store.ext, fun _ ht => .inl (hassertions ▸ ht)⟩

theorem notes_of_steps {α : Type} {op : Work α} (h : ∀ s, Work.Steps False s op) :
    Moves Workspace.Ok (Notes good) op :=
  (Work.Steps.moves h).mono fun _ _ _ hstep => .of_keeps hstep.keeps hstep.assertions

theorem notes_reopen : Moves Workspace.Ok (Notes good) (Work.change (·.reopen)) := by
  intro w hw
  refine .of_keeps (show Keeps w ⟨w.store, w.ctx.reopen⟩ from ?_) (Work.assertions_reopen w.ctx)
  unfold reopen
  split
  · exact keeps_clearSearch hw .idle
  · exact .refl hw

theorem notes_settle : Moves Workspace.Ok (Notes good) (Work.change (·.settle)) := fun _ hw =>
  have hsync := step_syncVars hw
  .of_keeps (hsync.keeps.trans (keeps_status (step_frame.stable hw hsync) _)) hsync.assertions

theorem notes_note (ht : good t) : Moves Workspace.Ok (Notes good) (Work.change (·.note t)) := by
  intro w hw
  have hkeeps := keeps_note hw t
  refine ⟨⟨hkeeps.store.wf, hkeeps.ok⟩, hkeeps.store.ext, fun u hu => ?_⟩
  rcases Array.mem_push.mp (show u ∈ w.ctx.assertions.push t from hu) with hu | rfl
  · exact .inl hu
  · exact .inr ht

/-- Formulas are accepted before they are noted. -/
theorem notes_assertAll (hw : w.Ok) (ts : List Term) :
    Notes (fun t => w.ctx.validate w.store t = .ok ()) w (endState (Work.assertAll ts w)) := by
  refine Work.moves_check_bind (P := (· = w)) (fun h => notes_frame.refl (h ▸ hw))
    (fun {w' _} h _ => ?_) w rfl
  subst h
  refine Work.moves_check_bind (P := (· = w')) (fun h => notes_frame.refl (h ▸ hw))
    (fun {w _} h hvalid => ?_) w' rfl
  subst h
  refine (?_ : Moves Workspace.Ok (Notes _) _) w hw
  refine notes_frame.bind (notes_of_steps fun _ => Work.steps_look _) fun status => ?_
  split
  · exact notes_frame.pure _
  refine notes_frame.bind notes_reopen fun _ => ?_
  refine notes_frame.bind (notes_frame.forM ts fun t ht => ?_) fun _ => notes_settle
  exact notes_frame.bind (notes_note (Store.forM_eq_ok hvalid t ht)) fun _ =>
    notes_of_steps fun _ => Work.steps_process False.elim

theorem notes_assertQuantifier (hw : w.Ok) (formula : Term) (patterns : List Term) :
    Notes (fun t => w.ctx.validate w.store t = .ok ()) w
      (endState (Work.assertQuantifier formula patterns w)) := by
  refine Work.moves_check_bind (P := (· = w)) (fun h => notes_frame.refl (h ▸ hw))
    (fun {w' _} h _ => ?_) w rfl
  subst h
  refine Work.moves_check_bind (P := (· = w')) (fun h => notes_frame.refl (h ▸ hw))
    (fun {w _} h hvalid => ?_) w' rfl
  subst h
  have hlook {β : Type} (f : Store → Context → β) :
    Moves Workspace.Ok (Notes fun t => w.ctx.validate w.store t = .ok ())
      (Work.look f) := notes_of_steps fun _ => Work.steps_look f
  refine (?_ : Moves Workspace.Ok (Notes _) _) w hw
  have hquantified : Moves Workspace.Ok (Notes fun t => w.ctx.validate w.store t = .ok ())
      (Work.checkQuantified formula) := by
    refine notes_frame.bind (hlook _) fun shape => ?_
    split
    · exact notes_frame.throw _
    · exact notes_frame.pure _
  refine notes_frame.bind hquantified fun _ => notes_frame.bind (hlook _) fun status => ?_
  split
  · exact notes_frame.pure _
  refine notes_frame.bind notes_reopen fun _ => notes_frame.bind (hlook _) fun σ => ?_
  refine notes_frame.bind (notes_of_steps fun _ => Work.steps_onStore
    (Store.builders_built.subst _ _)) fun t => ?_
  refine notes_frame.bind (hlook _) fun shape => ?_
  split
  · exact notes_frame.bind (notes_note hvalid) fun _ =>
      notes_frame.bind (notes_of_steps fun _ => Work.steps_process False.elim) fun _ => notes_settle
  · have hpatterns : Moves Store.Wf Store.Built (patterns.mapM (Store.subst σ)) :=
      Store.built_frame.mapM patterns fun p _ => Store.builders_built.subst σ p
    refine notes_frame.bind (notes_of_steps fun _ => Work.steps_onStore hpatterns) fun patterns =>
      ?_
    refine notes_frame.bind (notes_of_steps fun _ => Work.steps_addConstraint t patterns) fun _ =>
      ?_
    exact notes_frame.bind (notes_note hvalid) fun _ => notes_settle

/-- A stocked context whose assertions may be asserted. -/
structure Vouched (w : Workspace) : Prop where
  stocked : w.Stocked
  assertions : ∀ t ∈ w.ctx.assertions, ∃ flatten, w.store.Assertable flatten t

theorem Vouched.notes (h : w.Vouched) (hw' : w'.Stocked)
    (hn : Notes (fun t => w.ctx.validate w.store t = .ok ()) w w') :
    w'.Vouched := by
  refine ⟨hw', fun t ht => ?_⟩
  rcases hn.assertions t ht with ht | hvalid
  · exact (h.assertions t ht).imp fun _ hass => hass.later hn.ext
  · exact ⟨_, (assertable_of_validate h.stocked.able.tidy.ok.store hvalid).later hn.ext⟩

theorem lasting_vouched : Lasting Vouched where
  ok h := lasting_stocked.ok h.stocked
  settings h options status interrupted :=
    ⟨h.stocked.settings options status interrupted, h.assertions⟩
  clearSearch h := ⟨lasting_stocked.clearSearch h.stocked, h.assertions⟩
  openScope h := ⟨h.stocked.openScope, h.assertions⟩
  commit {w} h hs := by
    refine ⟨h.stocked.commit hs, fun t ht => h.assertions t ?_⟩
    unfold Context.commit at ht
    split at ht <;> exact ht
  rollback {w} h hs := by
    refine ⟨h.stocked.rollback hs, fun t ht => h.assertions t ?_⟩
    cases hscopes : w.ctx.scopes with
    | nil => exact absurd hscopes hs
    | cons a rest =>
      obtain ⟨vars, core, aux, lits, bits, heq, -⟩ :=
        rollback_eq (lasting_stocked.ok h.stocked) hscopes
      rw [heq, ← Array.mem_toList_iff, toList_take] at ht
      exact Array.mem_toList_iff.mp (List.mem_of_mem_take ht)
  exclude h := ⟨lasting_stocked.exclude h.stocked, h.assertions⟩
  reset h := ⟨lasting_stocked.reset h.stocked, nofun⟩
  assertAll h ts := h.notes (lasting_stocked.assertAll h.stocked ts)
    (notes_assertAll (lasting_stocked.ok h.stocked) ts)
  assertQuantifier h formula patterns :=
    h.notes (lasting_stocked.assertQuantifier h.stocked formula patterns)
    (notes_assertQuantifier (lasting_stocked.ok h.stocked) formula patterns)
  search h p stop fuel := by
    have hstep := Work.moves_search p stop fuel _ (lasting_stocked.ok h.stocked)
    exact h.notes (lasting_stocked.search h.stocked p stop fuel)
      (.of_keeps hstep.keeps hstep.assertions)

end Workspace

/-- However a context was used, its assertions may be asserted. -/
theorem UsedInOrder.vouched {w : Workspace} (h : UsedInOrder w) : w.Vouched := by
  obtain ⟨s, config, hs, hrun⟩ := h
  induction hrun with
  | refl => exact ⟨Workspace.stocked_new hs.wf hs.regular config, fun t ht =>
    absurd ht (Array.not_mem_empty t)⟩
  | tail hrun hturn ih =>
    refine ⟨UsedInOrder.stocked ⟨s, config, hs, hrun.tail hturn⟩, ?_⟩
    cases hturn.1 with
    | act a => exact (Workspace.lasting_vouched.run a ih).assertions
    | store hs' hspares =>
      have htidy := ih.stocked.able.tidy
      intro t ht
      have hstays := (Context.rooted_of_holds htidy.typed htidy.ok.ctx htidy.ok.store
        (.assertion ht)).stays hspares
      exact (ih.assertions t ht).imp fun _ hass => hass.stays htidy.ok.store hstays

namespace Workspace

open Context

variable {w : Workspace} {t : Term} {m : Model} {status : Status}

/-! ## Evaluation of assertions -/

/-- In a model with definitions, an asserted formula without quantifiers has a truth value, or its
evaluation stops at a constant that the formula and the definitions come down to and that was
neither encoded nor eliminated. The status only says whether there is a model. -/
theorem eval_assertion (h : UsedInOrder w)
    (hm : Context.model { w.ctx with status } w.store true = .ok m)
    (ht : t ∈ w.ctx.assertions) (hfree : w.store.QuantifierFree t) :
    (∃ b, m.eval w.store t = .ok (.bool b)) ∨ ∃ x, m.eval w.store t = .error (.evalUnknown x) ∧
      (∃ u, Relation.ReflTransGen (m.Reads w.store) t u ∧ u.positive = x) ∧
      w.ctx.Unvalued w.store x := by
  have hvouched := h.vouched
  have hable := hvouched.stocked.able
  have hs := hable.tidy.ok.store
  have htyped : Context.Typed w.store { w.ctx with status } := { hable.tidy.typed with }
  have hsupports : Context.Supports w.store { w.ctx with status } := { hable.ctx with }
  obtain ⟨flatten, hass⟩ := hvouched.assertions t ht
  obtain ⟨rank, hrank⟩ := hable.tidy.gone.ranked hs hable.tidy.typed (m := m) (model_values hm).2
  rcases Model.eval_formula hs (suitable_model hs htyped hsupports hm) hrank
    (hable.tidy.typed.assertions t ht)
    (hass.supported_of_free hfree) with hb | ⟨x, hlacks, hx⟩
  · exact .inl hb
  · have hunvalued := unvalued_of_model hs htyped hm hlacks.const hlacks.value hlacks.definition
    exact .inr ⟨x, hx, hlacks.reads, { hunvalued with }⟩

/-- A formula that the look accepts is an assertion afterwards, also where it fails. -/
theorem mem_assertions_assert (hw : w.Ok) (hidle : w.ctx.status = .idle)
    (hvalid : w.ctx.validate w.store t = .ok ()) :
    t ∈ (endState (Work.assert t w)).ctx.assertions := by
  have hvet : [t].forM (w.ctx.validate w.store) = .ok () := by
    change w.ctx.validate w.store t >>= (fun _ => .ok ()) = _
    rw [hvalid]
    rfl
  have hallowed : w.ctx.checkAssertAllowed = .ok () := by rw [checkAssertAllowed, hidle]
  have hreopen : w.ctx.reopen = w.ctx := by rw [reopen, hidle]; rfl
  have hnoted : Workspace.Ok ⟨w.store, w.ctx.note t⟩ := ⟨hw.store, (keeps_note hw t).ok⟩
  have hstep := Work.moves_process t _ hnoted
  have hmem {w' : Workspace} (h : w'.ctx.assertions = (w.ctx.note t).assertions) :
      t ∈ w'.ctx.assertions := by
    rw [h]
    exact Array.mem_push_self
  let op : Term → Work Unit := fun t => do
    Work.change (·.note t)
    Work.process t
  have hop : op t w = Work.process t ⟨w.store, w.ctx.note t⟩ := bind_of_ok rfl
  unfold Work.assert Work.assertAll
  rw [bind_of_ok (Work.check_of_ok hallowed), bind_of_ok (Work.check_of_ok hvet),
    bind_of_ok (rfl : Work.look _ w = .ok w.ctx.status w), if_neg (by simp [hidle]),
    bind_of_ok (rfl : Work.change _ w = .ok () ⟨w.store, w.ctx.reopen⟩), hreopen]
  change t ∈ (endState (((op t >>= fun _ => pure PUnit.unit) >>= fun _ => Work.change (·.settle))
    w)).ctx.assertions
  cases hrun : Work.process t ⟨w.store, w.ctx.note t⟩ with
  | error e w' =>
    rw [hrun] at hop hstep
    rw [bind_of_error (bind_of_error hop)]
    exact hmem hstep.assertions
  | ok _ w' =>
    rw [hrun] at hop hstep
    have hloop : (op t >>= fun _ => pure PUnit.unit : Work PUnit) w = .ok ⟨⟩ w' := bind_of_ok hop
    rw [bind_of_ok hloop]
    exact hmem ((step_syncVars (w := w') ⟨hstep.keeps.store.wf, hstep.keeps.ok⟩).assertions.trans
      hstep.assertions)

/-- The application of a predicate to a constant is asserted, so a model gives it a truth value. -/
theorem eval_assertion_unary :
    let t : Term := .ofIndex 5
    let w : Workspace := endState ((Action.assert [t]).run ⟨Quant.unary, .new {}⟩)
    ∃ m, UsedInOrder w ∧ Context.model { w.ctx with status := .sat } w.store true = .ok m ∧
      t ∈ w.ctx.assertions ∧
      w.store.QuantifierFree t ∧ ((∃ b, m.eval w.store t = .ok (.bool b)) ∨
        ∃ x, m.eval w.store t = .error (.evalUnknown x) ∧
          (∃ u, Relation.ReflTransGen (m.Reads w.store) t u ∧ u.positive = x) ∧
            w.ctx.Unvalued w.store x) := by
  intro t w
  have hs : Quant.unary.Intact := Quant.reached_unary.intact
  obtain ⟨hconst, -, happ, -⟩ := Quant.node_unary
  have hhead : Quant.unary.node? (.ofIndex 2) = some (.uninterpreted ⟨2⟩ 0, ⟨2⟩) := by cbv
  have hnew : UsedInOrder ⟨Quant.unary, .new {}⟩ := .new hs {}
  have hargs : ∀ a ∈ [Term.ofIndex 3],
      Quant.unary.isSort (Quant.unary.ty a) = true ∧
        (Quant.unary.shape a).isUninterpreted = true := by
    intro a ha
    obtain rfl := List.mem_singleton.mp ha
    exact ⟨by cbv, by cbv⟩
  obtain ⟨hvalid, -⟩ := validate_application (c := .new {}) ⟨⟨_, happ⟩, fun _ => rfl⟩ hs.wf.bool_ty
    (Interp.node?_of_shape happ) hargs
  have hused : UsedInOrder w := hnew.act _
  have hext : Quant.unary.Extends w.store := (hnew.built _).later.ext
  have hfree : w.store.QuantifierFree t := by
    have hshape {u : Term} {n : Term.Shape × Ty} (hn : Quant.unary.node? u = some n)
      (hq : n.1.isQuantifier = false) :
        ¬ (w.store.shape u.positive).isQuantifier = true := by
      rw [Store.shape, Model.shape?_positive, Store.shape?, hext.node hn]
      simp [hq]
    refine .of_node (hext.node happ) (hshape happ rfl) fun c hc => ?_
    rcases List.mem_cons.mp hc with rfl | hc
    · exact .of_node (hext.node hhead) (hshape hhead rfl) (by simp [Term.Shape.children])
    · obtain rfl := List.mem_singleton.mp hc
      exact .of_node (hext.node hconst) (hshape hconst rfl) (by simp [Term.Shape.children])
  have hmem : t ∈ w.ctx.assertions := mem_assertions_assert hnew.stocked.able.tidy.ok rfl hvalid
  obtain ⟨m, hm⟩ : ∃ m, Context.model { w.ctx with status := .sat } w.store true = .ok m := ⟨_, rfl⟩
  exact ⟨m, hused, hm, hmem, hfree, eval_assertion hused hm hmem hfree⟩

end Workspace
end Entail
