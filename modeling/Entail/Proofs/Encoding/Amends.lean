import Entail.Proofs.Context.TidyRuns
import Entail.Proofs.Context.TidySearch
import Entail.Proofs.Encoding.Bitvectors
import Entail.Proofs.Encoding.Exact

/-!
# Definitions stay exact

Formulas are encoded when they are asserted, and when the theories add instances in the middle of a
check. Both go through the same steps, and what is defined is exact after each of them: encoding
only defines, and the other steps leave alone what was encoded.
-/

/-!
## What leaves encodings alone

Definitions are found, constraints are registered and assignments are searched without a change of
what was encoded. All that these operations do to the clauses is to add some, so what was entailed
before is entailed after them.
-/

namespace Entail

open Search Context

namespace Workspace

variable {w w' w'' : Workspace}

/-- Variables, literals, words and outputs of gates are what they were, and no clause is lost. -/
structure Retains (w w' : Workspace) : Prop where
  vars : w'.ctx.now.vars = w.ctx.now.vars
  lits : w'.ctx.now.lits = w.ctx.now.lits
  bits : w'.ctx.now.bits = w.ctx.now.bits
  aux : w'.ctx.now.aux = w.ctx.now.aux
  truth : w'.ctx.trueLit = w.ctx.trueLit
  models : ∀ {a}, w'.ctx.now.clauses.Models a → w.ctx.now.clauses.Models a
  filed : w'.ctx.core.db.Ok w'.ctx.depth

/-- Clauses belong to scopes that are open. -/
abbrev Filed (w : Workspace) : Prop := w.ctx.core.db.Ok w.ctx.depth

/-- The steps that retain the encoding compose. -/
theorem retains_frame : Frame Filed Retains where
  refl h := ⟨rfl, rfl, rfl, rfl, rfl, id, h⟩
  trans h h' := ⟨h'.vars.trans h.vars, h'.lits.trans h.lits, h'.bits.trans h.bits,
    h'.aux.trans h.aux,
    h'.truth.trans h.truth, fun ha => h.models (h'.models ha), h'.filed⟩
  stable _ h := h.filed

/-- Encodings stay when a context is left alone. -/
theorem retains_of_ctx (h : w.Filed) (heq : w'.ctx = w.ctx) : Retains w w' := by
  obtain ⟨s, c⟩ := w
  obtain ⟨s', c'⟩ := w'
  obtain rfl : c' = c := heq
  exact ⟨rfl, rfl, rfl, rfl, rfl, id, h⟩

/-- The core may change, and its clauses stay the same. -/
theorem retains_of_db (h : w.Filed) {core : Core} (hdb : core.db = w.ctx.core.db) (s : Store)
    (registry : Theory.Registry) (interrupted : Bool) :
    Retains w ⟨s, { w.ctx with core, registry, interrupted }⟩ where
  vars := rfl
  lits := rfl
  bits := rfl
  aux := rfl
  truth := rfl
  models {a} ha := by
    have hall : core.db.all = w.ctx.core.db.all := congrArg Database.all hdb
    show w.ctx.core.db.all.Models a
    rw [← hall]
    exact ha
  filed := show core.db.Ok w.ctx.depth from hdb ▸ h

end Workspace

namespace Work

open Workspace

variable {α β : Type} {w : Workspace}

/-- Whatever an operation does, and whether it is refused or not, what was encoded stays. -/
abbrev Spares (op : Work α) : Prop := Moves Filed Retains op

/-- Looking retains everything. -/
theorem spares_look (f : Store → Context → α) : Spares (look f) := fun _ hw => retains_frame.refl hw

theorem spares_check (f : Store → Context → Except Failure α) : Spares (check f) := fun w hw => by
  rw [endState_check]
  exact retains_frame.refl hw

/-- A constructor of terms leaves the context alone. -/
theorem spares_onStore (op : Store.Op α) : Spares (onStore op) := fun w hw => by
  refine retains_of_ctx hw ?_
  cases hop : op w.store with
  | ok x s => rw [onStore_of_ok hop]; rfl
  | error e s => rw [onStore_of_error hop]; rfl

/-- A change of a context that keeps the clauses of its core. -/
theorem spares_update {f : Context → α × Context}
    (h : ∀ c, ∃ core registry interrupted, (f c).2 = { c with core, registry, interrupted } ∧
      core.db = c.core.db) :
    Spares (update f) := fun w hw => by
  obtain ⟨core, registry, interrupted, heq, hdb⟩ := h w.ctx
  show Retains w ⟨w.store, (f w.ctx).2⟩
  rw [heq]
  exact retains_of_db hw hdb w.store registry interrupted

theorem spares_change {f : Context → Context}
    (h : ∀ c, ∃ core registry interrupted, f c = { c with core, registry, interrupted } ∧
      core.db = c.core.db) :
    Spares (change f) := fun w hw => by
  obtain ⟨core, registry, interrupted, heq, hdb⟩ := h w.ctx
  show Retains w ⟨w.store, f w.ctx⟩
  rw [heq]
  exact retains_of_db hw hdb w.store registry interrupted

/-- Adding a clause touches the core only, and a clause is not forgotten. -/
theorem spares_clause (ls : List Literal) : Spares (clause ls) := fun w hw => by
  have hdb : (w.ctx.addClause ls).core.db = w.ctx.core.db.add ls w.ctx.depth :=
    Core.db_addClause _ _ _
  have hgrows := Database.grows_add hw ls
  refine ⟨rfl, rfl, rfl, rfl, rfl, fun {a} ha => ?_, ?_⟩
  · have hadd : (w.ctx.addClause ls).core.db.all.Models a := ha
    rw [hdb] at hadd
    exact ((Database.all_models_add hw).mp hadd).1
  · show (w.ctx.addClause ls).core.db.Ok w.ctx.depth
    rw [hdb]
    exact hgrows.ok

/-! ## Definitions and constraints -/

theorem spares_addConstraint (formula : Term) (patterns : List Term) :
    Spares (addConstraint formula patterns) := by
  refine retains_frame.bind (spares_look _) fun q => ?_
  split
  · exact retains_frame.throw _
  · exact retains_frame.bind (spares_check _) fun q =>
      spares_change fun c => ⟨c.core, c.registry.setQuant q, c.interrupted, rfl, rfl⟩

/-- Definitions are looked for without a change of the context. -/
theorem retains_definition? (hw : w.Ok) (t : Term) : Retains w (endState (definition? t w)) := by
  have hfind := finds_definition? t w hw.store (.refl _)
  have hctx : (endState (definition? t w)).ctx = w.ctx :=
    Ends.endState (E := fun w' => w'.ctx = w.ctx) (hfind.mono (fun _ _ h => h.1.2) fun _ h => h.2)
  exact retains_of_ctx hw.ctx.core hctx

theorem spares_skolemize (vars : List Term) (body : Term) : Spares (skolemize vars body) :=
  retains_frame.bind (retains_frame.foldlM vars ∅ fun _ _ _ => retains_frame.bind (spares_look _)
      fun _ =>
    retains_frame.bind (spares_onStore _) fun _ => retains_frame.pure _) fun _ => spares_onStore _

/-! ## Searching -/

theorem spares_resolve (conflict : List Literal) : Spares (resolve conflict) := by
  refine retains_frame.bind (spares_update fun c => ⟨_, c.registry, c.interrupted, rfl,
    Core.db_analyze _ _⟩)
    fun analysis => ?_
  split
  · exact retains_frame.pure _
  · exact retains_frame.throw _
  next level ls =>
    refine retains_frame.bind (fun w hw => ?_) fun _ => retains_frame.pure _
    have hback : (w.ctx.core.backtrack level).db = w.ctx.core.db := Core.db_backtrack _ level
    have hok : (w.ctx.core.backtrack level).db.Ok w.ctx.depth := by rw [hback]; exact hw
    refine ⟨rfl, rfl, rfl, rfl, rfl, fun {a} ha => ?_, (Core.grows_learn hok ls).ok⟩
    have hmodels := models_learn hok
      (show ((w.ctx.core.backtrack level).learn ls w.ctx.depth).db.all.Models a from ha)
    rwa [hback] at hmodels

theorem spares_propagate : Spares propagate := by
  refine retains_frame.bind (spares_update fun c => ⟨_, c.registry, c.interrupted, rfl,
    Core.db_propagate _⟩)
    fun conflict => ?_
  split
  · exact retains_frame.pure _
  · exact spares_update fun c => ⟨c.core, _, c.interrupted, rfl, rfl⟩

theorem spares_finalCheck (stop : StopRequest) (n : Nat) : Spares (finalCheck stop n) :=
  fun w hw => by
  show Retains w ⟨_, if _ then _ else _⟩
  split
  · exact retains_of_db hw rfl _ (w.ctx.registry.finalCheck w.store).1.2 true
  · exact retains_of_db hw rfl _ (w.ctx.registry.finalCheck w.store).1.2 w.ctx.interrupted

theorem spares_unlessStuck {op : Work Bool} (h : Spares op) : Spares (unlessStuck op) :=
  retains_frame.bind h fun _ => retains_frame.pure _

/-- A step up to the complete assignment retains the encoding. -/
theorem spares_approach (p : Params) (stop : StopRequest) (n : Nat) :
    Spares (approach p stop n) := by
  refine retains_frame.bind (spares_change fun c => ?_) fun _ => ?_
  · split
    · exact ⟨c.core, c.registry, true, rfl, rfl⟩
    · exact ⟨c.core, c.registry, c.interrupted, rfl, rfl⟩
  refine retains_frame.bind (spares_look _) fun interrupted => ?_
  split
  · exact retains_frame.pure _
  refine retains_frame.bind spares_propagate fun conflict => ?_
  split
  · exact retains_frame.map _ (spares_unlessStuck (spares_resolve _))
  refine retains_frame.bind (spares_look _) fun restart => ?_
  split
  · exact retains_frame.bind (spares_change fun c =>
        ⟨_, _, c.interrupted, rfl, Core.db_restart _ _⟩) fun _ =>
      retains_frame.pure _
  refine retains_frame.bind (spares_update fun c => ⟨_, c.registry, c.interrupted, rfl,
    Core.db_pickBranch _⟩)
    fun branch => ?_
  split
  · exact retains_frame.bind (spares_change fun c => ⟨_, _, c.interrupted, rfl, Core.db_decide _ _⟩)
        fun _ =>
      retains_frame.pure _
  · exact retains_frame.pure _

end Work
end Entail

namespace Entail

open Search Context

namespace Workspace

variable {w w' : Workspace} {fixed : Prop}

/-- Some clauses of a view define exactly what is encoded in it. -/
def Explains (s : Store) (one : Literal) (V : View) : Prop := ∃ defs, V.Exact s one defs

/-- A tidy context whose encodings are explained. -/
structure Described (w : Workspace) : Prop where
  tidy : w.Tidy
  explains : Explains w.store w.ctx.trueLit w.ctx.now

/-- What is there grows, and encodings stay explained. -/
structure Amends (fixed : Prop) (w w' : Workspace) : Prop where
  grows : Grows fixed w w'
  explains : Explains w'.store w'.ctx.trueLit w'.ctx.now

theorem amends_frame : Frame Described (Amends fixed) where
  refl h := ⟨grows_frame.refl h.tidy, h.explains⟩
  trans h h' := ⟨grows_frame.trans h.grows h'.grows, h'.explains⟩
  stable _ h := ⟨h.grows.tidy, h.explains⟩

theorem Amends.weaken (h : Amends True w w') : Amends fixed w w' := ⟨h.grows.weaken, h.explains⟩

/-- What leaves encodings alone keeps them explained. -/
theorem Described.amends (hw : w.Described) (hg : Grows fixed w w') (hr : Retains w w') :
    Amends fixed w w' := by
  obtain ⟨defs, hexact⟩ := hw.explains
  refine ⟨hg, defs, ?_⟩
  rw [hr.truth]
  exact (hexact.of_extends hw.tidy.ok.store hg.keeps.store.wf hg.keeps.store.ext).of_same hr.vars
    hr.lits hr.bits hr.aux
    fun _ => hr.models

end Workspace

namespace Work

open Workspace

variable {α β : Type} {fixed : Prop} {w : Workspace} {t : Term} {ts : List Term}

section

variable (hw : w.Described)

include hw

/-- A step amends a workspace if it grows it and retains the encoding. -/
theorem amends_of {op : Work α} {Q : α → Workspace → Prop} (hg : Leads (Grows fixed) w op Q)
    (hr : Retains w (endState (op w))) : Leads (Amends fixed) w op Q :=
  ((hg.both (Leads.of_moves_any hr)).reframe fun _ h => hw.amends h.1 h.2).mono fun _ _ _ h => h.1

theorem amends_of_spares {op : Work α} {Q : α → Workspace → Prop} (hg : Leads (Grows fixed) w op Q)
    (hr : Spares op) :
    Leads (Amends fixed) w op Q := amends_of hw hg (hr w hw.tidy.ok.ctx.core)

theorem amends_bind {x : Work β} {f : β → Work α} {Q : β → Workspace → Prop}
    {T : α → Workspace → Prop} (h : Leads (Amends fixed) w x Q)
    (hf : ∀ b w', w'.Described → Amends fixed w w' → Q b w' → Leads (Amends fixed) w' (f b) T) :
    Leads (Amends fixed) w (x >>= f) T := Leads.bind amends_frame hw h hf

theorem amends_pure {Q : α → Workspace → Prop} {x : α} (hx : Q x w) :
    Leads (Amends fixed) w (pure x : Work α) Q :=
  Leads.pure amends_frame hw hx

theorem amends_throw {Q : α → Workspace → Prop} (e : Failure) :
    Leads (Amends fixed) w (throw e : Work α) Q :=
  Leads.throw amends_frame hw e

/-- A change after which encodings are still explained. -/
theorem amends_change_bind {f : Context → Context} {g : Work α} {Q : α → Workspace → Prop}
    (h : Amends fixed w ⟨w.store, f w.ctx⟩)
    (hg : ∀ {w'}, w'.Described → Amends fixed w w' → Leads (Amends fixed) w' g Q) :
    Leads (Amends fixed) w (change f >>= fun _ => g) Q :=
  have hf : Leads (Amends fixed) w (change f) fun _ _ => True := ⟨h, trivial⟩
  amends_bind hw hf fun _ _ hw' hr _ => hg hw' hr

end

theorem amends_look_bind {f : Store → Context → β} {g : β → Work α} {Q : α → Workspace → Prop}
    (h : Leads (Amends fixed) w (g (f w.store w.ctx)) Q) :
    Leads (Amends fixed) w (look f >>= g) Q := h

/-! ## Asserting formulas -/

/-- What is encoded is defined. -/
theorem amends_literalOf (hw : w.Described) (ht : w.store.Has t .bool) (hclean : w.Clean t) :
    Leads (Amends True) w (literalOf t) Knows := by
  obtain ⟨defs, hexact⟩ := hw.explains
  have hdrafts := Draft.drafts_literalOf (L := ⟨w, defs⟩) ⟨hw.tidy.ok, hexact⟩ ht
  refine Ends.mono (Ends.both (grows_literalOf hw.tidy ht hclean) hdrafts) ?_ ?_
  · rintro l w' ⟨⟨hg, hl⟩, L', rfl, hL, -⟩
    exact ⟨⟨hg, L'.defs, hL.ok.exact_⟩, hl⟩
  · rintro w' ⟨hg, L', rfl, hL⟩
    exact ⟨hg, L'.defs, hL.ok.exact_⟩

theorem amends_clause (hw : w.Described) {ls : List Literal} (hls : KnowsAll ls w) :
    Leads (Amends fixed) w (clause ls) fun _ _ => True :=
  amends_of_spares hw (grows_clause hw.tidy hls) (spares_clause ls)

/-- A formula that was encoded is asserted by a unit clause over a live variable. -/
theorem amends_assertEncoded (hw : w.Described) (ht : w.store.Has t .bool) (hclean : w.Clean t) :
    Leads (Amends True) w (assertEncoded t) fun _ _ => True := by
  have htyped := hw.tidy.ok.store.typed ht.node
  refine amends_look_bind (amends_look_bind ?_)
  split
  next args _ hshape =>
    rw [hshape] at htyped
    have hhas := has_disjuncts hw.tidy.ok.store (w.store.terms.slots.size + 1) htyped.2
    have havoids := avoids_disjuncts (X := w.ctx.Eliminated) (w.store.terms.slots.size + 1)
      fun a ha => hclean.part (c := a) (by simpa [hshape, Term.Shape.children] using ha)
    refine amends_look_bind ?_
    refine amends_bind hw (Leads.mapM (T := Knows) amends_frame hw (fun hr hl => hr.grows.live hl)
      fun l hl w' hw' hr => ?_) fun lits w' hw' _ hlits => amends_clause hw' hlits
    exact amends_literalOf hw' (hr.grows.has (hhas l hl)) (hr.grows.clean (havoids l hl))
  · exact amends_bind hw (amends_literalOf hw ht hclean)
      fun l w' hw' _ hl => amends_clause hw' (List.forall_mem_singleton.mpr hl)

/-- A constraint is noted, and its formula stays clean. -/
theorem amends_addConstraint (hw : w.Described) (patterns : List Term) (hclean : w.Clean t) :
    Leads (Amends fixed) w (addConstraint t patterns) fun _ _ => True :=
  amends_of_spares hw (grows_addConstraint hw.tidy patterns hclean)
    (spares_addConstraint t patterns)

theorem amends_subst (hw : w.Described) (ht : w.store.Has t .bool) :
    Leads (Amends fixed) w (onStore (Store.subst w.ctx.subst t)) fun r w' => w'.store.Has r .bool ∧
    w'.Clean r :=
  amends_of_spares hw (grows_subst hw.tidy ht) (spares_onStore _)

/-- Processing a formula amends the workspace at every depth, by induction on the depth. -/
theorem amends_processAt (depth : Nat) (hw : w.Described) (ht : w.store.Has t .bool) :
    Leads (Amends False) w (processAt depth t) fun _ _ => True := by
  induction depth generalizing w t with
  | zero => exact amends_throw hw _
  | succ depth ih =>
    refine amends_look_bind ?_
    refine amends_bind hw (amends_subst hw ht) fun t w hw _ ⟨ht, hclean⟩ => ?_
    have htyped := hw.tidy.ok.store.typed ht.node
    split
    · exact amends_pure hw trivial
    · split
      · exact amends_bind hw (amends_clause hw nofun) fun _ _ hw' _ _ => amends_pure hw' trivial
      · refine amends_look_bind (amends_look_bind ?_)
        split
        next args _ _ hshape =>
          rw [hshape] at htyped
          exact Leads.forM amends_frame hw fun a ha w' hw' hr =>
            ih hw' (hr.grows.has (htyped.2 a ha).neg)
        · exact amends_addConstraint hw [] hclean
        next vars body _ hshape =>
          rw [hshape] at htyped
          obtain ⟨-, -, hvars, hbody⟩ := htyped
          have hgrows : Leads (Grows False) w (skolemize vars body) fun t w' =>
              w'.store.Has t .bool :=
            grows_skolemize hw.tidy (fun v hv => (hvars v hv).has) hbody
          exact amends_bind hw (amends_of_spares hw hgrows (spares_skolemize vars body))
            fun body w' hw' _ hbody => ih hw' hbody.neg
        · have hdef : Leads (Grows False) w (definition? t) fun d w' => Defines d w' ∧ w'.Clean t :=
            ((grows_definition? hw.tidy ht hclean).mono fun d w' hr hd =>
              ⟨hd, hr.clean hclean⟩).weaken Grows.weaken
          have huse : Leads (Grows False) w (definition? t) fun d w' => Usable w'.store w'.ctx d :=
            .of_moves hdef.moves ((finds_definition? t w hw.tidy.ok.store (.refl _)).mono
              (fun d w' h => h.1.2.symm ▸ h.2) fun _ _ => trivial)
          refine amends_bind hw (amends_of hw (hdef.and huse) (retains_definition? hw.tidy.ok t))
            fun d w' hw' hr ⟨⟨hdef, hclean⟩, huse⟩ => ?_
          cases d with
          | some d =>
            exact ⟨hw'.amends (grows_eliminate hw'.tidy huse hdef) ⟨rfl, rfl, rfl, rfl, rfl, id,
              hw'.tidy.ok.ctx.core⟩,
              trivial⟩
          | none => exact (amends_assertEncoded hw' (hr.grows.has ht) hclean).weaken Amends.weaken

theorem amends_process (hw : w.Described) (ht : w.store.Has t .bool) :
    Leads (Amends False) w (process t) fun _ _ => True :=
  amends_look_bind (amends_processAt _ hw ht)

theorem amends_processAll (hw : w.Described) (hts : ∀ t ∈ ts, w.store.Has t .bool) :
    Leads (Amends False) w (ts.forM process) fun _ _ => True :=
  Leads.forM amends_frame hw fun t ht _ hw' hr => amends_process hw' (hr.grows.has (hts t ht))

/-! ## Searching -/

section

variable (hw : w.Described)

include hw

/-- A change of the context that keeps the clauses of its core. -/
theorem retains_withCore {core : Core} (hdb : core.db = w.ctx.core.db)
    (registry : Theory.Registry) :
    Retains w ⟨w.store, { w.ctx with core, registry }⟩ :=
  retains_of_db hw.tidy.ok.ctx.core hdb w.store registry w.ctx.interrupted

theorem retains_syncVars : Retains w ⟨w.store, w.ctx.syncVars⟩ := by
  have hdb : w.ctx.syncVars.core.db = w.ctx.core.db := db_foldl_ensureVar _ _
  refine ⟨rfl, rfl, rfl, rfl, rfl, fun {a} ha => ?_, ?_⟩
  · have hall : w.ctx.syncVars.core.db.all = w.ctx.core.db.all := congrArg Database.all hdb
    show w.ctx.core.db.all.Models a
    rw [← hall]
    exact ha
  · show w.ctx.syncVars.core.db.Ok w.ctx.depth
    rw [hdb]
    exact hw.tidy.ok.ctx.core

/-- Asserting instances processes each of them, in a workspace with its variables in step. -/
theorem amends_assertInstances (hts : ∀ t ∈ ts, w.store.Has t .bool) :
    Leads (Amends False) w (assertInstances ts) fun _ _ => True := by
  have hdb : (w.ctx.core.backtrack 0).db = w.ctx.core.db := Core.db_backtrack _ 0
  have hgrows : w.ctx.core.db.Grows w.ctx.depth (w.ctx.core.backtrack 0).db := by
    rw [hdb]
    exact .refl hw.tidy.ok.ctx.core
  refine amends_change_bind hw (hw.amends
    (grows_withBacktrack hw.tidy hgrows (hw.tidy.refers.core.backtrack 0) 0)
    (retains_withCore hw hdb _)) fun {w₁} hw₁ hr₁ => ?_
  refine amends_bind hw₁ (amends_processAll hw₁ fun t ht => hr₁.grows.has (hts t ht))
    fun _ w₂ hw₂ _ _ => ?_
  exact amends_change_bind hw₂ (hw₂.amends (grows_syncVars hw₂.tidy) (retains_syncVars hw₂))
      fun hw₃ _ =>
    ⟨amends_frame.refl hw₃, trivial⟩

theorem amends_unlessStuck {op : Work Bool} (h : Leads (Amends False) w op fun _ _ => True) :
    Leads (Amends False) w (unlessStuck op) fun _ _ => True :=
  amends_bind hw h fun _ _ hw' _ _ => amends_pure hw' trivial

theorem amends_conclude (stop : StopRequest) (n : Nat) :
    Leads (Amends False) w (conclude stop n) fun _ _ => True := by
  refine amends_bind hw (amends_of_spares hw (grows_finalCheck hw.tidy stop n)
    (spares_finalCheck stop n))
    fun (outcome, out) w' hw' _ ⟨hnone, hformulas⟩ => ?_
  refine amends_look_bind ?_
  split
  · exact amends_pure hw' trivial
  · split
    next hsome =>
      rw [hnone] at hsome
      cases hsome
    · split
      · exact amends_unlessStuck hw' (amends_assertInstances hw' hformulas)
      · split
        · exact amends_pure hw' trivial
        · exact ⟨amends_frame.refl hw', trivial⟩

/-- One round of the search amends the workspace, however it ends. -/
theorem amends_step (p : Params) (stop : StopRequest) (n : Nat) :
    Leads (Amends False) w (step p stop n) fun _ _ => True := by
  rw [step_eq]
  refine amends_bind hw (amends_of_spares hw (grows_approach hw.tidy p stop n)
    (spares_approach p stop n))
    fun outcome w' hw' _ _ => ?_
  cases outcome with
  | some status => exact amends_pure hw' trivial
  | none => exact amends_conclude hw' stop n

end

/-- A run of rounds amends the workspace, by induction on the number of rounds. -/
theorem amends_steps (p : Params) (stop : StopRequest) (fuel n : Nat) (hw : w.Described) :
    Leads (Amends False) w (steps p stop fuel n) fun _ _ => True := by
  induction fuel generalizing n w with
  | zero => exact amends_throw hw _
  | succ fuel ih =>
    refine amends_bind hw (amends_step hw p stop n) fun status w' hw' _ _ => ?_
    split
    · exact amends_pure hw' trivial
    · exact ih (n + 1) hw'

/-- The theories start without formulas. -/
theorem retains_startSearch (hw : w.Tidy) (p : Params) :
    Retains w (endState (startSearch p w)) := by
  have hfiled : w.Filed := hw.ok.ctx.core
  have hdb : (w.ctx.core.startSearch p).2.db = w.ctx.core.db := Core.db_startSearch _ p
  unfold startSearch
  rw [bind_of_ok (rfl : look _ w = .ok w.ctx.core.isTriviallyUnsat w)]
  split
  · exact retains_frame.refl hfiled
  rw [bind_of_ok (rfl : update _ w = .ok (w.ctx.core.startSearch p).1 ⟨w.store, { w.ctx with
    core := (w.ctx.core.startSearch p).2 }⟩)]
  split
  · exact retains_of_db hfiled hdb w.store w.ctx.registry w.ctx.interrupted
  have hnone : (w.ctx.registry.startSearch p).1.formulas = [] :=
    (typedStep_startTheories hw.since p).2
  rw [bind_of_ok (rfl : update _ _ = .ok (w.ctx.registry.startSearch p).1.formulas
      ⟨w.store, { w.ctx with
    core := (w.ctx.core.startSearch p).2, registry := (w.ctx.registry.startSearch p).2 }⟩), hnone]
  exact retains_of_db hfiled hdb w.store (w.ctx.registry.startSearch p).2 w.ctx.interrupted

theorem amends_search (hw : w.Described) (p : Params) (stop : StopRequest) (fuel : Nat) :
    Leads (Amends False) w (search p stop fuel) fun _ _ => True := by
  refine amends_bind hw (amends_of hw (grows_startSearch hw.tidy p) (retains_startSearch hw.tidy p))
    fun go w' hw' _ _ => ?_
  split
  · exact amends_steps p stop fuel 0 hw'
  · exact amends_pure hw' trivial

/-! ## Operations inside of a scope -/

section

variable (hw : w.Described)

include hw

theorem retains_same (status : Status) (assertions : Array Term) :
    Retains w ⟨w.store, { w.ctx with status, assertions }⟩ :=
  ⟨rfl, rfl, rfl, rfl, rfl, id, hw.tidy.ok.ctx.core⟩

theorem retains_clearSearch : Retains w ⟨w.store, w.ctx.clearSearch⟩ :=
  retains_withCore hw ((Core.db_assignUnits _).trans (Core.db_resetTrail _)) _

/-- Opening a finished search again amends the workspace. -/
theorem amends_reopen : Amends fixed w ⟨w.store, w.ctx.reopen⟩ := by
  refine hw.amends (grows_reopen hw.tidy) ?_
  unfold reopen
  split
  · exact ⟨rfl, rfl, rfl, rfl, rfl, (retains_clearSearch hw).models, (retains_clearSearch hw).filed⟩
  · exact retains_frame.refl hw.tidy.ok.ctx.core

theorem amends_settle : Amends fixed w ⟨w.store, w.ctx.settle⟩ :=
  hw.amends (grows_settle hw.tidy)
    ⟨rfl, rfl, rfl, rfl, rfl, (retains_syncVars hw).models, (retains_syncVars hw).filed⟩

theorem amends_note {t : Term} (ht : w.store.Has t .bool) :
    Amends fixed w ⟨w.store, w.ctx.note t⟩ :=
  hw.amends (grows_note hw.tidy ht) (retains_same hw w.ctx.status _)

theorem amends_check_bind {f : Store → Context → Except Failure β} {g : β → Work α}
    {Q : α → Workspace → Prop} (h : ∀ b, f w.store w.ctx = .ok b → Leads (Amends fixed) w (g b) Q) :
    Leads (Amends fixed) w (check f >>= g) Q := by
  cases hf : f w.store w.ctx with
  | ok b =>
    unfold Leads Ends
    rw [bind_of_ok (show check f w = .ok b w by simp [check, hf])]
    exact h b hf
  | error e =>
    unfold Leads Ends
    rw [bind_of_error (show check f w = .error e w by simp [check, hf])]
    exact amends_frame.refl hw

/-- A batch amends the workspace, also where it is refused in the middle. -/
theorem amends_assertAll (ts : List Term) :
    Leads (Amends False) w (assertAll ts) fun _ _ => True := by
  refine amends_check_bind hw fun _ _ => amends_check_bind hw fun _ hvalid => amends_look_bind ?_
  have hts : ∀ t ∈ ts, w.store.Has t .bool :=
    fun t ht => has_of_validate (Store.forM_eq_ok hvalid t ht)
  split
  · exact amends_pure hw trivial
  refine amends_change_bind hw (amends_reopen hw) fun {w₁} hw₁ hr₁ => ?_
  refine amends_bind hw₁ (Leads.forM amends_frame hw₁ fun t ht w₂ hw₂ hr₂ => ?_)
    fun _ w₂ hw₂ _ _ => ⟨amends_settle hw₂, trivial⟩
  have ht₂ := hr₂.grows.has (hr₁.grows.has (hts t ht))
  exact amends_change_bind hw₂ (amends_note hw₂ ht₂) fun hw₃ hr₃ =>
    amends_process hw₃ (hr₃.grows.has ht₂)

/-- Asserting a quantifier amends the workspace, also where it is refused. -/
theorem amends_assertQuantifier (formula : Term) (patterns : List Term) :
    Leads (Amends False) w (assertQuantifier formula patterns) fun _ _ => True := by
  refine amends_check_bind hw fun _ _ => amends_check_bind hw fun _ hvalid => ?_
  have hformula : w.store.Has formula .bool := has_of_validate hvalid
  have hquantified : Leads (Amends False) w (checkQuantified formula) fun _ _ => True := by
    refine amends_look_bind ?_
    split
    · exact amends_throw hw _
    · exact amends_pure hw trivial
  refine amends_bind hw hquantified fun _ w₁ hw₁ hr₁ _ => amends_look_bind ?_
  split
  · exact amends_pure hw₁ trivial
  refine amends_change_bind hw₁ (amends_reopen hw₁) fun {w₂} hw₂ hr₂ => amends_look_bind ?_
  have hformula₂ := hr₂.grows.has (hr₁.grows.has hformula)
  refine amends_bind hw₂ (amends_subst hw₂ hformula₂) fun t w₃ hw₃ hr₃ ⟨ht, hclean⟩ =>
    amends_look_bind ?_
  have hformula₃ := hr₃.grows.has hformula₂
  split
  · refine amends_change_bind hw₃ (amends_note hw₃ hformula₃) fun hw₄ hr₄ => ?_
    exact amends_bind hw₄ (amends_process hw₄ (hr₄.grows.has ht)) fun _ w₅ hw₅ _ _ =>
      ⟨amends_settle hw₅, trivial⟩
  · have hpatterns : Moves Store.Wf Store.Built (patterns.mapM (Store.subst w₂.ctx.subst)) :=
      Store.built_frame.mapM patterns fun p _ => Store.builders_built.subst w₂.ctx.subst p
    have hbuilds : Store.Builds w₃.store (patterns.mapM (Store.subst w₂.ctx.subst)) fun _ _ =>
        True :=
      Leads.of_moves_any (hpatterns.mono (fun _ _ _ h => h.later) w₃.store hw₃.tidy.ok.store)
    have hstay : Leads (Grows True) w₃ (onStore (patterns.mapM (Store.subst w₂.ctx.subst)))
        fun _ w₄ => w₄.Clean t :=
      (grows_onStore hw₃.tidy hpatterns hbuilds).mono fun _ _ hr _ => hr.clean hclean
    refine amends_bind hw₃ (amends_of_spares hw₃ (hstay.weaken Grows.weaken) (spares_onStore _))
      fun patterns w₄ hw₄ hr₄ hclean => ?_
    refine amends_bind hw₄ (amends_addConstraint hw₄ patterns hclean) fun _ w₅ hw₅ hr₅ _ => ?_
    have hformula₅ := hr₅.grows.has (hr₄.grows.has hformula₃)
    exact amends_change_bind hw₅ (amends_note hw₅ hformula₅) fun hw₆ _ =>
      ⟨amends_settle hw₆, trivial⟩

end
end Work
end Entail
