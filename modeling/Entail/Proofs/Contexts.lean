import Entail.Proofs.Context.SupportedRuns

/-!
# Contexts of an engine

Whatever is done with an engine, each of its contexts is used: an operation on it is one step of
its use, and all that happens besides changes the store in a way that spares the terms that the
context refers to.
-/

namespace Entail.Engine

open Workspace

variable {α : Type} {e : Engine}

/-- All contexts were used in some way since they were made. -/
def Attended (e : Engine) : Prop := ∀ c ∈ e.contexts.toList, UsedInOrder ⟨e.store, c⟩

namespace Attended

theorem spares (h : e.Attended) {store : Store} (hstore : store.Intact)
    (hs : ∀ c ∈ e.contexts.toList, e.store.Spares store c.roots) : Attended { e with store } :=
  fun c hc => (h c hc).store hstore (hs c hc)

theorem keeps (h : e.Attended) (hw : e.Sound) {store : Store} (hs : Store.Keeps e.store store) :
    Attended { e with store } :=
  h.spares hs.intact fun _ _ => hs.ext.spares hw.store.wf _

/-- What is on record does not matter. -/
theorem record {op : Op α} (h : Attended (endState (op e))) :
    Attended (endState (record op e)) := by
  unfold Engine.record
  cases hrun : op e with
  | ok a e' =>
    rw [hrun] at h
    exact h
  | error f e' =>
    rw [hrun] at h
    exact h

theorem build (h : e.Attended) (hw : e.Sound) {op : Store.Op α}
    (hop : Moves Store.Intact Store.Keeps op) :
    Attended (endState (build op e)) := by
  have hkeeps := hop e.store hw.store
  refine record ?_
  obtain ⟨store, contexts, models, error, message⟩ := e
  simp only at hkeeps ⊢
  cases hrun : op store with
  | ok a s =>
    rw [hrun] at hkeeps
    exact h.keeps hw hkeeps
  | error f s =>
    rw [hrun] at hkeeps
    exact h.keeps hw hkeeps

/-- An operation on one context spares the others. -/
theorem withContext (h : e.Attended) (hw : e.Sound) (handle : Handle) {op : Work α}
    (hop : ∀ w, UsedInOrder w → UsedInOrder (endState (op w)) ∧
      Store.Extends w.store (endState (op w)).store) :
    Attended (endState (withContext handle op e)) := by
  refine record ?_
  cases hget : e.contexts.get? handle with
  | none => exact h
  | some c =>
    obtain ⟨hused, hext⟩ := hop ⟨e.store, c⟩ (h c (Pool.mem_of_get? hget))
    have hchanged {w : Workspace} (hused : UsedInOrder w) (hext : Store.Extends e.store w.store) :
        Attended { e with store := w.store, contexts := e.contexts.set handle w.ctx } := by
      intro c' hc'
      rcases Pool.mem_set hc' with rfl | hc'
      · exact hused
      · exact (h.keeps hw ⟨hused.intact, hext⟩) c' hc'
    simp only
    cases hrun : op ⟨e.store, c⟩ with
    | ok a w =>
      rw [hrun] at hused hext
      exact hchanged hused hext
    | error f w =>
      rw [hrun] at hused hext
      exact hchanged hused hext

/-- An operation of a context is one step of its use. -/
theorem act (h : e.Attended) (hw : e.Sound) (handle : Handle) (a : Action) :
    Attended (endState (Engine.withContext handle a.run e)) :=
  h.withContext hw handle fun _ hused => ⟨hused.act a, (hused.built a).later.ext⟩

/-- So is a check, whatever it answers. -/
theorem check (h : e.Attended) (hw : e.Sound) (handle : Handle) (p : Params) (stop : StopRequest)
    (fuel : Nat) :
    Attended (endState (check handle p stop fuel e)) := by
  refine h.withContext hw handle fun w hused => ?_
  rw [← Workspace.endState_run_check]
  exact ⟨hused.act _, (hused.built _).later.ext⟩

/-- What only looks at a context leaves everything as it is. -/
theorem look (h : e.Attended) (hw : e.Sound) (handle : Handle)
    (f : Store → Context → Except Failure α) :
    Attended (endState (Engine.withContext handle (Work.check f) e)) := by
  refine h.withContext hw handle fun _ hused => ?_
  rw [Work.endState_check]
  exact ⟨hused, .refl _⟩

theorem newContext (h : e.Attended) (hw : e.Sound) (config : Config) :
    Attended (endState (newContext config e)) := by
  intro c hc
  rcases Pool.mem_insert (p := e.contexts) hc with rfl | hc
  · exact .new hw.store config
  · exact h c hc

theorem freeContext (h : e.Attended) (handle : Handle) :
    Attended (endState (freeContext handle e)) := by
  refine record ?_
  cases herase : e.contexts.erase? handle with
  | none => exact h
  | some contexts => exact fun c hc => h c (Pool.mem_erase? herase hc)

theorem newModel (h : e.Attended) (hw : e.Sound) (handle : Handle) (keepSubst : Bool) :
    Attended (endState (newModel handle keepSubst e)) := by
  have hlook := h.look hw handle fun s c => c.model s keepSubst
  unfold Engine.newModel
  cases hrun : Engine.withContext handle (Work.check fun s c => c.model s keepSubst) e with
  | error f e' =>
    rw [bind_of_error hrun]
    rwa [hrun] at hlook
  | ok m e' =>
    rw [bind_of_ok hrun]
    rwa [hrun] at hlook

theorem step (h : e.Attended) (hw : e.Sound) {op : Op α} (hop : Operation op) :
    Attended (endState (op e)) := by
  have hread {β : Type} (f : Store → Except TermError β) :
      Moves Store.Intact Store.Keeps (Store.read f) := fun s hs => by
    unfold Store.read
    split <;> exact Store.keeps_frame.refl hs
  induction hop with
  | build hop => exact h.build hw hop.keeps
  | note hop => exact h.build hw fun s hs => (hop.moves s trivial).keeps hs
  | query f => exact h.build hw (hread f)
  | look f => exact h
  | record _ ih => exact ih.record
  | clearError => exact h
  | reset => exact fun c hc => absurd hc List.not_mem_nil
  | newContext config => exact h.newContext hw config
  | freeContext handle => exact h.freeContext handle
  | status handle => exact h.withContext hw handle fun _ hused => ⟨hused, .refl _⟩
  | resetContext handle => exact h.act hw handle .reset
  | stop handle => exact h.act hw handle .stop
  | setOption handle name on => exact h.act hw handle (.setOption name on)
  | push handle => exact h.act hw handle .push
  | pop handle => exact h.act hw handle .pop
  | block handle => exact h.act hw handle .block
  | assertAll handle ts => exact h.act hw handle (.assert ts)
  | assertQuantifier handle formula patterns =>
    exact h.act hw handle (.assertQuantifier formula patterns)
  | check handle p request fuel => exact h.check hw handle p request fuel
  | newModel handle keepSubst => exact h.newModel hw handle keepSubst
  | freeModel handle =>
    refine record ?_
    cases e.models.erase? handle with
    | none => exact h
    | some models => exact h
  | withModel handle f =>
    refine record ?_
    cases e.models.get? handle with
    | none => exact h
    | some m =>
      simp only
      cases f m e.store with
      | ok a => exact h
      | error f => exact h
  | collect roots tyRoots keepNamed =>
    -- the roots of a context are among those of the collection
    refine h.spares (hw.store.collect _ _ _) fun c hc t ht =>
      hw.store.spares _ tyRoots keepNamed t ?_
    exact List.mem_append_left _ (List.mem_append_right _ (List.mem_flatMap.mpr ⟨c, hc, ht⟩))

end Attended

/-- However an engine was used, so were its contexts. -/
theorem Reached.attended (h : Reached e) : e.Attended := by
  induction h with
  | start => exact fun c hc => absurd hc List.not_mem_nil
  | step hreached hop ih => exact ih.step hreached.sound hop

end Entail.Engine
