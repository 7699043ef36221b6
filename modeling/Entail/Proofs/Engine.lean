import Entail.Engine
import Entail.Pool
import Entail.Proofs.Context.Plain
import Entail.Proofs.Context.Typed
import Entail.Proofs.Context.TypedRuns
import Entail.Proofs.Model

/-!
# Runs of an engine

Contexts and models of an engine share a store that any of them, and the user, may build upon, and
that is collected at any time. Between two operations all contexts are at rest, and the terms of
contexts and models are in the store: an operation on one context extends the store, and a
collection spares the roots of all.
-/

namespace Entail.Pool

/-! ## What is in a pool -/

variable {α : Type} {p p' : Pool α} {h : Handle} {a b : α}

theorem mem_toList : a ∈ p.toList ↔ ∃ version, (version, some a) ∈ p.slots := by
  simp [toList, List.mem_filterMap]

/-- What is kept under a valid handle is in the pool. -/
theorem mem_of_get? (h' : p.get? h = some a) : a ∈ p.toList := by
  unfold get? at h'
  split at h'
  next version content hslot =>
    split at h'
    · exact mem_toList.mpr ⟨version, h' ▸ Array.mem_of_getElem? hslot⟩
    · cases h'
  next => cases h'

theorem mem_setIfInBounds {i : Nat} {x y : Nat × Option α} (hy : y ∈ p.slots.setIfInBounds i x) :
    y = x ∨ y ∈ p.slots :=
  (Array.mem_or_eq_of_mem_setIfInBounds hy).symm

theorem mem_insert (hb : b ∈ (p.insert a).2.toList) : b = a ∨ b ∈ p.toList := by
  obtain ⟨version, hb⟩ := mem_toList.mp hb
  unfold insert at hb
  split at hb
  · rcases Array.mem_push.mp hb with hb | hb
    · exact .inr (mem_toList.mpr ⟨version, hb⟩)
    · exact .inl (by cases hb; rfl)
  · rcases mem_setIfInBounds hb with hb | hb
    · exact .inl (by cases hb; rfl)
    · exact .inr (mem_toList.mpr ⟨version, hb⟩)

theorem mem_set (hb : b ∈ (p.set h a).toList) : b = a ∨ b ∈ p.toList := by
  unfold set at hb
  split at hb
  · obtain ⟨version, hb⟩ := mem_toList.mp hb
    rcases mem_setIfInBounds hb with hb | hb
    · exact .inl (by cases hb; rfl)
    · exact .inr (mem_toList.mpr ⟨version, hb⟩)
  · exact .inr hb

theorem mem_erase? (he : p.erase? h = some p') (hb : b ∈ p'.toList) : b ∈ p.toList := by
  unfold erase? at he
  split at he
  · cases he
    obtain ⟨version, hb⟩ := mem_toList.mp hb
    exact mem_toList.mpr ⟨version, (mem_setIfInBounds hb).resolve_left nofun⟩
  · cases he

end Entail.Pool

namespace Entail

namespace Workspace

open Context

variable {α : Type} {s : Store} {w w' : Workspace}

/-- Between two operations the context is at rest, and its terms are typed. -/
structure Settled (w : Workspace) : Prop where
  rest : w.AtRest
  typed : w.ctx.Typed w.store

/-- The store was built upon, and the context is settled. -/
def Settles (w w' : Workspace) : Prop := Store.Built w.store w'.store ∧ w'.Settled

theorem settled_new (hs : s.Wf) (config : Config) : Settled ⟨s, .new config⟩ :=
  ⟨⟨ok_new hs config, nofun⟩, typed_new hs config⟩

theorem settles_refl (hw : w.Settled) : Settles w w := ⟨Store.built_frame.refl hw.rest.ok.store, hw⟩

theorem settles_run (a : Action) : Moves Settled Settles a.run := fun w hw =>
  have h := continues_run a hw.rest hw.typed
  ⟨h.built, (survives_run a w hw.rest).rest, h.typed⟩

theorem settles_checkSat (p : Params) (stop : StopRequest) (fuel : Nat) :
    Moves Settled Settles (Work.checkSat p stop fuel) := fun w hw =>
  have h := continues_checkSat p stop fuel w ⟨hw.rest.ok, fun _ => hw.typed, .refl _⟩
  ⟨h.built, (survives_checkSat p stop fuel w hw.rest).rest, h.typed⟩

theorem settles_check (f : Store → Context → Except Failure α) :
    Moves Settled Settles (Work.check f) := fun w hw => by
  unfold Work.check
  split <;> exact settles_refl hw

/-- Others may change the store as long as they spare the roots of the context. -/
theorem Settled.spares (h : w.Settled) (hs : s.Wf) (hspares : w.store.Spares s w.ctx.roots) :
    Settled ⟨s, w.ctx⟩ := by
  refine ⟨⟨⟨hs, { h.rest.ok.ctx with live := fun {v t} hv => ?_ }⟩, h.rest.status⟩,
    h.typed.spares h.rest.ok.ctx.registry hspares⟩
  obtain ⟨ty, hty⟩ := h.rest.ok.ctx.live hv
  exact ⟨ty, (hspares t (mem_roots_of_term? hv) (Store.isValid_iff.mpr ⟨ty, hty⟩)).has hty⟩

end Workspace

namespace Engine

open Workspace

variable {α : Type} {e : Engine}

/-- The operations of an engine. -/
inductive Operation : {α : Type} → Op α → Prop where
  | build {α : Type} {op : Store.Op α} (h : Store.Builder op) : Operation (build op)
  | note {α : Type} {op : Store.Op α} (h : Store.Recorder op) : Operation (build op)
  | query {α : Type} (f : Store → Except TermError α) : Operation (query f)
  | look {α : Type} (f : Engine → α) : Operation (look f)
  | record {α : Type} {op : Op α} (h : Operation op) : Operation (record op)
  | clearError : Operation clearError
  | reset : Operation reset
  | newContext (config : Config) : Operation (newContext config)
  | freeContext (h : Handle) : Operation (freeContext h)
  | status (h : Handle) : Operation (status h)
  | resetContext (h : Handle) : Operation (resetContext h)
  | stop (h : Handle) : Operation (stop h)
  | setOption (h : Handle) (name : String) (on : Bool) : Operation (setOption h name on)
  | push (h : Handle) : Operation (push h)
  | pop (h : Handle) : Operation (pop h)
  | block (h : Handle) : Operation (block h)
  | assertAll (h : Handle) (ts : List Term) : Operation (assertAll h ts)
  | assertQuantifier (h : Handle) (formula : Term) (patterns : List Term) :
    Operation (assertQuantifier h formula patterns)
  | check (h : Handle) (p : Params) (request : StopRequest) (fuel : Nat) :
    Operation (check h p request fuel)
  | newModel (h : Handle) (keepSubst : Bool) : Operation (newModel h keepSubst)
  | freeModel (h : Handle) : Operation (freeModel h)
  | withModel {α : Type} (h : Handle) (f : Model → Store → Except Failure α) :
    Operation (withModel h f)
  | collect (roots : List Term) (tyRoots : List Ty) (keepNamed : Bool) :
    Operation (collect roots tyRoots keepNamed)

/-- Engines that come about by using the operations, whether they are refused or not. -/
inductive Reached : Engine → Prop where
  | start : Reached {}
  | step {e : Engine} (h : Reached e) {α : Type} {op : Op α} (hop : Operation op) :
    Reached (endState (op e))

/-- The store is in order, and contexts and models refer to its terms. -/
structure Sound (e : Engine) : Prop where
  store : e.store.Intact
  contexts : ∀ c ∈ e.contexts.toList, Settled ⟨e.store, c⟩
  models : ∀ m ∈ e.models.toList, m.Typed e.store

namespace Sound

/-- The store may change as long as the roots of contexts and models are spared. -/
theorem spares (h : e.Sound) {store : Store} (hstore : store.Intact)
    (hs : e.store.Spares store (e.contexts.toList.flatMap (·.roots) ++ e.models.toList.flatMap
      (·.roots))) :
    Sound { e with store } where
  store := hstore
  contexts c hc := (h.contexts c hc).spares hstore.wf fun t ht =>
    hs t (List.mem_append_left _ (List.mem_flatMap.mpr ⟨c, hc, ht⟩))
  models m hm := (h.models m hm).spares fun t ht =>
    hs t (List.mem_append_right _ (List.mem_flatMap.mpr ⟨m, hm, ht⟩))

theorem keeps (h : e.Sound) {store : Store} (hs : Store.Keeps e.store store) :
    Sound { e with store } :=
  h.spares hs.intact (hs.ext.spares h.store.wf _)

theorem build (h : e.Sound) {op : Store.Op α} (hop : Moves Store.Intact Store.Keeps op) :
    Sound (endState (build op e)) := by
  have hkeeps := hop e.store h.store
  unfold Engine.build Engine.record
  obtain ⟨store, contexts, models, error, message⟩ := e
  simp only at hkeeps ⊢
  cases hrun : op store with
  | ok a s =>
    rw [hrun] at hkeeps
    exact h.keeps hkeeps
  | error f s =>
    rw [hrun] at hkeeps
    exact { h.keeps hkeeps with }

/-- What is on record does not matter. -/
theorem record {op : Op α} (h : Sound (endState (op e))) : Sound (endState (record op e)) := by
  unfold Engine.record
  cases hrun : op e with
  | ok a e' =>
    rw [hrun] at h
    exact h
  | error f e' =>
    rw [hrun] at h
    exact { h with }

/-- An operation on one context leaves the others settled. -/
theorem withContext (h : e.Sound) (handle : Handle) {op : Work α} (hop : Moves Settled Settles op) :
    Sound (endState (withContext handle op e)) := by
  refine record ?_
  cases hget : e.contexts.get? handle with
  | none => exact h
  | some c =>
    obtain ⟨hbuilt, hsettled⟩ := hop ⟨e.store, c⟩ (h.contexts c (Pool.mem_of_get? hget))
    have hchanged {w : Workspace} (hbuilt : Store.Built e.store w.store) (hw : w.Settled) :
        Sound { e with store := w.store, contexts := e.contexts.set handle w.ctx } := by
      have hkept := h.keeps (hbuilt.keeps h.store)
      refine { hkept with contexts := fun c' hc' => ?_ }
      rcases Pool.mem_set hc' with rfl | hc'
      · exact hw
      · exact hkept.contexts c' hc'
    simp only
    cases hrun : op ⟨e.store, c⟩ with
    | ok a w =>
      rw [hrun] at hbuilt hsettled
      exact hchanged hbuilt hsettled
    | error f w =>
      rw [hrun] at hbuilt hsettled
      exact hchanged hbuilt hsettled

theorem newContext (h : e.Sound) (config : Config) : Sound (endState (newContext config e)) := by
  refine { h with contexts := fun c hc => ?_ }
  rcases Pool.mem_insert (p := e.contexts) hc with rfl | hc
  · exact settled_new h.store.wf config
  · exact h.contexts c hc

theorem freeContext (h : e.Sound) (handle : Handle) : Sound (endState (freeContext handle e)) := by
  refine record ?_
  cases herase : e.contexts.erase? handle with
  | none => exact h
  | some contexts =>
    exact { h with contexts := fun c hc => h.contexts c (Pool.mem_erase? herase hc) }

/-- The answer of a context that is asked for a model is a model over the store. -/
theorem typed_of_model (h : e.Sound) {handle : Handle} {keepSubst : Bool} {m : Model} {e' : Engine}
    (hrun : Engine.withContext handle (Work.check fun s c => c.model s keepSubst) e = .ok m e') :
    m.Typed e'.store := by
  unfold Engine.withContext Engine.record at hrun
  cases hget : e.contexts.get? handle with
  | none => simp [hget] at hrun
  | some c =>
    have hc := h.contexts c (Pool.mem_of_get? hget)
    cases hm : c.model e.store keepSubst with
    | error f => simp [hget, Work.check, hm] at hrun
    | ok m' =>
      simp only [hget, Work.check, hm, EStateM.Result.ok.injEq] at hrun
      obtain ⟨rfl, rfl⟩ := hrun
      exact Model.typed_model hc.rest.ok.store hc.rest.ok.ctx hc.typed hm

theorem newModel (h : e.Sound) (handle : Handle) (keepSubst : Bool) :
    Sound (endState (newModel handle keepSubst e)) := by
  have hsound := h.withContext handle (settles_check fun s c => c.model s keepSubst)
  unfold Engine.newModel
  cases hrun : Engine.withContext handle (Work.check fun s c => c.model s keepSubst) e with
  | error f e' =>
    rw [bind_of_error hrun]
    rwa [hrun] at hsound
  | ok m e' =>
    have htyped := h.typed_of_model hrun
    rw [bind_of_ok hrun]
    rw [hrun] at hsound
    refine { hsound with models := fun m' hm' => ?_ }
    rcases Pool.mem_insert (p := e'.models) hm' with rfl | hm'
    · exact htyped
    · exact hsound.models m' hm'

theorem freeModel (h : e.Sound) (handle : Handle) : Sound (endState (freeModel handle e)) := by
  refine record ?_
  cases herase : e.models.erase? handle with
  | none => exact h
  | some models => exact { h with models := fun m hm => h.models m (Pool.mem_erase? herase hm) }

theorem withModel (h : e.Sound) (handle : Handle) (f : Model → Store → Except Failure α) :
    Sound (endState (withModel handle f e)) := by
  refine record ?_
  cases e.models.get? handle with
  | none => exact h
  | some m =>
    simp only
    cases f m e.store with
    | ok a => exact h
    | error f => exact h

theorem collect (h : e.Sound) (roots : List Term) (tyRoots : List Ty) (keepNamed : Bool) :
    Sound (endState (collect roots tyRoots keepNamed e)) :=
  h.spares (h.store.collect _ _ _) fun t ht =>
    h.store.spares _ tyRoots keepNamed t (by
      rw [List.append_assoc]
      exact List.mem_append_right _ ht)

theorem start : Sound {} where
  store := Store.intact_empty
  contexts _ hc := absurd hc List.not_mem_nil
  models _ hm := absurd hm List.not_mem_nil

theorem step (h : e.Sound) {op : Op α} (hop : Operation op) : Sound (endState (op e)) := by
  have haction (handle : Handle) (a : Action) :
      Sound (endState (Engine.withContext handle a.run e)) :=
    h.withContext handle (settles_run a)
  have hread {β : Type} (f : Store → Except TermError β) :
      Moves Store.Intact Store.Keeps (Store.read f) :=
    fun s hs => by
      unfold Store.read
      split <;> exact Store.keeps_frame.refl hs
  induction hop with
  | build hop => exact h.build hop.keeps
  | note hop => exact h.build fun s hs => (hop.moves s trivial).keeps hs
  | query f => exact h.build (hread f)
  | look f => exact h
  | record _ ih => exact ih.record
  | clearError => exact { h with }
  | reset => exact start
  | newContext config => exact h.newContext config
  | freeContext handle => exact h.freeContext handle
  | status handle => exact h.withContext handle fun _ => settles_refl
  | resetContext handle => exact haction handle .reset
  | stop handle => exact haction handle .stop
  | setOption handle name on => exact haction handle (.setOption name on)
  | push handle => exact haction handle .push
  | pop handle => exact haction handle .pop
  | block handle => exact haction handle .block
  | assertAll handle ts => exact haction handle (.assert ts)
  | assertQuantifier handle formula patterns =>
    exact haction handle (.assertQuantifier formula patterns)
  | check handle p request fuel => exact h.withContext handle (settles_checkSat p request fuel)
  | newModel handle keepSubst => exact h.newModel handle keepSubst
  | freeModel handle => exact h.freeModel handle
  | withModel handle f => exact h.withModel handle f
  | collect roots tyRoots keepNamed => exact h.collect roots tyRoots keepNamed

end Sound

theorem Reached.sound (h : Reached e) : e.Sound := by
  induction h with
  | start => exact .start
  | step _ hop ih => exact ih.step hop

/-! ## Collections -/

/-- Contexts and models are the same, and what they can still use stays in the store. -/
structure Spared (e e' : Engine) : Prop where
  contexts : e'.contexts = e.contexts
  models : e'.models = e.models
  ofContext : ∀ c ∈ e.contexts.toList, ∀ {t}, c.Holds t → e.store.Stays e'.store t
  ofModel : ∀ m ∈ e.models.toList, ∀ {t}, m.Holds t → e.store.Stays e'.store t
  /-- Types of elements among the values of a model. -/
  ofValues : ∀ m ∈ e.models.toList, ∀ {ty}, m.Mentions ty →
    ∃ shape, e.store.tyShape? ty = some shape ∧ e'.store.tyShape? ty = some shape

/-! ## An engine with a context and a model -/

section

open Context

/-- What is built without a refusal is the only thing that changes. -/
theorem Reached.built {op : Store.Op α} (h : Reached e) (hop : Store.Builder op) (a : α)
    (hrun : op e.store = .ok a (endState (op e.store))) :
    Reached { e with store := endState (op e.store) } := by
  have hbuild {s : Store} (hrun : op e.store = .ok a s) :
      build op e = .ok a { e with store := s } := by
    unfold build record
    simp only [hrun]
  have hstep := h.step (.build hop)
  rwa [hbuild hrun] at hstep

/-- An engine with one context. -/
def single (s : Store) (c : Context) : Engine := { store := s, contexts := ⟨#[(0, some c)], []⟩ }

/-- An operation on the only context that is not refused. -/
theorem withContext_single {op : Work α} {s s' : Store} {c c' : Context} {a : α}
    (hrun : op ⟨s, c⟩ = .ok a ⟨s', c'⟩) :
    withContext ⟨0, 0⟩ op (single s c) = .ok a (single s' c') := by
  have hget : (single s c).contexts.get? ⟨0, 0⟩ = some c := rfl
  unfold withContext record
  simp only [hget]
  rw [show (single s c).store = s from rfl, hrun]
  rfl

theorem Reached.ran {op : Work α} {s s' : Store} {c c' : Context} {a : α}
    (h : Reached (single s c)) (hop : Operation (withContext ⟨0, 0⟩ op))
    (hrun : op ⟨s, c⟩ = .ok a ⟨s', c'⟩) : Reached (single s' c') := by
  have hstep := h.step hop
  rwa [withContext_single hrun] at hstep

set_option maxRecDepth 4000 in
/-- An engine in which the first constant was eliminated and a check was answered. -/
theorem reached_linked : ∃ order, Reached (single .linked (answered (.known order))) := by
  obtain ⟨order, hcheck⟩ := Work.checkSat_linked
  refine ⟨order, ?_⟩
  have hstore : Reached { store := .linked } :=
    (((((((((Reached.start.built (.newConst .bool) (.ofIndex 2) (by cbv)).built
      (.newConst .bool) (.ofIndex 3) (by cbv)).built
      (.or [.ofIndex 2, .ofIndex 3]) (.ofIndex 4) (by cbv)).built
      (.eq (.ofIndex 2) (.ofIndex 3)) (Term.ofIndex 5).neg (by cbv)).built
      .newSort ⟨1⟩ (by cbv)).built
      (.newVar ⟨1⟩) (.ofIndex 6) (by cbv)).built
      (.newConst ⟨1⟩) (.ofIndex 7) (by cbv)).built
      (.eq (.ofIndex 6) (.ofIndex 7)) (.ofIndex 8) (by cbv)).built
      (.or [.ofIndex 8, .ofIndex 2]) (.ofIndex 9) (by cbv)).built
      (.all [.ofIndex 6] (.ofIndex 9)) (.ofIndex 10) (by cbv)
  have hnew : Reached (single .linked (plain .pushPop .initial)) := by
    rw [← new_eq]
    exact hstore.step (.newContext {})
  exact ((hnew.ran (.assertAll _ _) Work.assertAll_fact).ran (.assertAll _ _)
    Work.assertAll_linked).ran (.check _ _ _ _) hcheck

/-- The model of the check has a value for the second constant and a definition of the first. -/
theorem model_answered (core : Core) : ∃ m, (answered core).model .linked true = .ok m ∧
    .ofIndex 3 ∈ m.values ∧ m.definitions[Term.ofIndex 2]? = some (.ofIndex 3) := by
  let m : Model := ⟨(∅ : Std.HashMap Term Value).insert (.ofIndex 3)
    (.bool (core.varValue 2 == some true)), ∅, (linked core).subst⟩
  have hvars : (answered core).vars.toList = [(1, .top), (2, .ofIndex 3)] := rfl
  have hbool : (answered core).boolValues .linked .empty = { m with definitions := ∅ } := by
    have hshape := Store.shape_of_slots Store.slots_linked
    have htop : (Store.linked.shape .top).isUninterpreted = false := by
      rw [hshape]
      rfl
    have hfact : (Store.linked.shape (.ofIndex 3)).isUninterpreted = true := by
      rw [hshape]
      rfl
    have hty : Store.linked.ty (.ofIndex 3) = .bool := Store.ty_of_slots Store.slots_linked _
    have haux : (answered core).aux = ∅ := rfl
    unfold boolValues
    rw [hvars, haux]
    simp only [List.foldl_cons, List.foldl_nil, htop, hfact, hty, Std.HashSet.contains_empty]
    simp
    rfl
  have hbits : (answered core).bits.toList = [] := by
    rw [show (answered core).bits = ∅ from rfl]
    simp
  have hnodes : (Egraph.empty.startSearch.propagate #[.pos 1, .pos 2]).2.nodes.size = 2 := by
    rw [Egraph.empty_eq]
    cbv
  refine ⟨m, ?_, Std.HashMap.mem_insert_self, Std.HashMap.getElem?_insert_self⟩
  have hbv (m : Model) : (answered core).bvValues .linked m = m := by
    unfold bvValues
    rw [hbits]
    rfl
  have hadd (m : Model) : (answered core).registry.addToModel .linked m = m := by
    have hsame : (answered core).registry.egraph.nodes.size = 2 := hnodes
    unfold Theory.Registry.addToModel Egraph.addToModel
    rw [hsame]
    rfl
  unfold Context.model
  rw [hbool, hbv, hadd]
  rfl

end

/-! ## What a collection spares -/

/-- However an engine was used, a collection invalidates nothing that a context or a model
can still use. -/
theorem collect_spares (h : Reached e) (roots : List Term) (tyRoots : List Ty) (keepNamed : Bool) :
    Spared e (endState (collect roots tyRoots keepNamed e)) := by
  obtain ⟨hstore, hcontexts, hmodels⟩ := h.sound
  have hspares := hstore.spares (roots ++ e.contexts.toList.flatMap (·.roots) ++
    e.models.toList.flatMap (·.roots))
    tyRoots keepNamed
  have hcontext {c : Context} (hc : c ∈ e.contexts.toList) {t : Term} (ht : t ∈ c.roots) :=
    hspares t (List.mem_append_left _ (List.mem_append_right _ (List.mem_flatMap.mpr ⟨c, hc, ht⟩)))
  have hmodel {m : Model} (hm : m ∈ e.models.toList) {t : Term} (ht : t ∈ m.roots) :=
    hspares t (List.mem_append_right _ (List.mem_flatMap.mpr ⟨m, hm, ht⟩))
  refine ⟨rfl, rfl, fun c hc t ht => ?_, fun m hm t ht => ?_, fun m hm ty hty => ?_⟩
  · have hsettled := hcontexts c hc
    exact (Context.rooted_of_holds hsettled.typed hsettled.rest.ok.ctx hstore.wf ht).stays fun _ =>
      hcontext hc
  · exact (hmodels m hm).stays (fun _ => hmodel hm) ht
  · exact (hmodels m hm).mentioned (fun _ => hmodel hm) hty

open Context in
set_option maxRecDepth 4000 in
/-- An engine with what was asserted, a definition and a model: after a collection without any roots
the context and the model still have their terms. -/
theorem collect_spares_linked : ∃ e c m, Reached e ∧ e.contexts.toList = [c] ∧
    e.models.toList = [m] ∧ c.assertions = #[.ofIndex 3, (Term.ofIndex 5).neg] ∧
    c.subst[Term.ofIndex 2]? = some (.ofIndex 3) ∧ .ofIndex 3 ∈ m.values ∧
    m.definitions[Term.ofIndex 2]? = some (.ofIndex 3) ∧
    Spared e (endState (collect [] [] false e)) ∧
    ∀ t ∈ [.ofIndex 2, .ofIndex 3, (Term.ofIndex 5).neg],
      e.store.Stays (endState (collect [] [] false e)).store t := by
  obtain ⟨order, hreached⟩ := reached_linked
  obtain ⟨m, hmodel, hvalue, hdefinition⟩ := model_answered (.known order)
  let c : Context := answered (.known order)
  let e : Engine := { single .linked c with models := ⟨#[(0, some m)], []⟩ }
  have he : Reached e := by
    have hstep := hreached.step (.newModel ⟨0, 0⟩ true)
    unfold newModel at hstep
    rw [bind_of_ok (withContext_single (Work.check_of_ok (w := ⟨.linked, c⟩) hmodel))] at hstep
    exact hstep
  have hspared := collect_spares he [] [] false
  have hsubst : c.subst[Term.ofIndex 2]? = some (.ofIndex 3) := Std.HashMap.getElem?_insert_self
  refine ⟨e, c, m, he, rfl, rfl, rfl, hsubst, hvalue, hdefinition, hspared, fun t ht => ?_⟩
  have hstays {t : Term} (ht : c.Holds t) := hspared.ofContext c List.mem_cons_self ht
  simp only [List.mem_cons, List.not_mem_nil, or_false] at ht
  rcases ht with rfl | rfl | rfl
  · exact hstays (.defined hsubst)
  · exact hstays (.definition hsubst)
  · exact hstays (.assertion (by simp [c, answered, linked]))

end Engine
end Entail
