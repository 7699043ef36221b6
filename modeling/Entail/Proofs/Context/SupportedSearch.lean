import Entail.Proofs.Context.Processed
import Entail.Proofs.Context.TidySearch
import Entail.Proofs.Quant.Instances

/-!
# Instances are processed during a search

A search rearranges assignments and classes, and leaves definitions, nodes and constraints as they
are until the assignment is complete. What the quantifier solver then adds is supported, as its
constraints are; so it is processed, or refused for the degree of a product, and the search goes on
in a context of supported terms.
-/

namespace Entail

open Workspace Context

namespace Workspace

variable {w w' : Workspace}

/-- Accepted formulas can be processed: everything is tidy and supported. -/
structure Able (w : Workspace) : Prop where
  tidy : w.Tidy
  ctx : w.ctx.Supports w.store
  regular : w.store.Regular

theorem Able.supported (h : w.Able) : w.Supported := ⟨h.tidy.ok.store, h.ctx⟩

/-- The workspace grows and stays able, with the options that it had. -/
structure Maintains (w w' : Workspace) : Prop where
  grows : Grows False w w'
  ctx : w'.ctx.Supports w'.store
  options : w'.ctx.options = w.ctx.options

/-- The steps that maintain the able workspaces compose. -/
theorem maintains_frame : Frame Able Maintains where
  refl h := ⟨grows_frame.refl h.tidy, h.ctx, rfl⟩
  trans h h' := ⟨grows_frame.trans h.grows h'.grows, h'.ctx, h'.options.trans h.options⟩
  stable h h' := ⟨h'.grows.tidy, h'.ctx, h'.grows.keeps.built.regular h.regular⟩

theorem Maintains.has (h : Maintains w w') {t : Term} {ty : Ty} (ht : w.store.Has t ty) :
    w'.store.Has t ty :=
  h.grows.keeps.store.ext.has ht

theorem Maintains.isOn (h : Maintains w w') (x : Simplification) :
    w'.ctx.isOn x = w.ctx.isOn x := by
  simp only [Context.isOn, h.options]

/-- What processing a formula does maintains the workspace. -/
theorem Proceeds.maintains {n : Nat} (h : Proceeds n w w') : Maintains w w' :=
  ⟨h.grows, h.ctx, h.options⟩

/-- The store stays, and the context changes in nothing that matters. -/
structure Rearranges (w w' : Workspace) : Prop where
  store : w'.store = w.store
  ctx : w.ctx.Agrees w'.ctx
  registry : ∃ q, w'.ctx.registry.Has q

/-- The steps that only rearrange the context compose. -/
theorem rearranges_frame : Frame (fun w => ∃ q, w.ctx.registry.Has q) Rearranges where
  refl h := ⟨rfl, ⟨rfl, rfl, rfl, rfl⟩, h⟩
  trans h h' :=
    ⟨h'.store.trans h.store, ⟨h'.ctx.subst.trans h.ctx.subst, h'.ctx.options.trans h.ctx.options,
    h'.ctx.nodes.trans h.ctx.nodes, h'.ctx.constraints.trans h.ctx.constraints⟩, h'.registry⟩
  stable _ h := h.registry

/-- An able workspace that grows while its context is rearranged is maintained. -/
theorem Able.rearranges (hw : w.Able) (hg : Grows False w w') (h : Rearranges w w') :
    Maintains w w' where
  grows := hg
  ctx := h.store ▸ hw.ctx.agrees h.ctx
  options := h.ctx.options

end Workspace

namespace Work

variable {α β : Type} {w : Workspace}

/-! ## Changes of the assignment -/

/-- The operation is a rearrangement, whether it is refused or not. -/
abbrev Shifts (w : Workspace) (op : Work α) : Prop := Leads Rearranges w op fun _ _ => True

theorem shifts_look_bind {f : Store → Context → β} {g : β → Work α}
    (h : Shifts w (g (f w.store w.ctx))) :
    Shifts w (look f >>= g) := h

theorem shifts_change {f : Context → Context} (h : Rearranges w ⟨w.store, f w.ctx⟩) :
    Shifts w (change f) := ⟨h, trivial⟩

theorem shifts_update {f : Context → β × Context} (h : Rearranges w ⟨w.store, (f w.ctx).2⟩) :
    Shifts w (update f) :=
  ⟨h, trivial⟩

section

variable (hw : ∃ q, w.ctx.registry.Has q)

include hw

theorem shifts_pure (a : α) : Shifts w (pure a) := .pure rearranges_frame hw trivial

theorem shifts_bind {op : Work β} {g : β → Work α} (h : Shifts w op)
    (hg : ∀ b w', (∃ q, w'.ctx.registry.Has q) → Shifts w' (g b)) : Shifts w (op >>= g) :=
  .bind rearranges_frame hw h fun b w' hw' _ _ => hg b w' hw'

theorem rearranges_core (core : Core) : Rearranges w ⟨w.store, { w.ctx with core }⟩ :=
  ⟨rfl, ⟨rfl, rfl, rfl, rfl⟩, hw⟩

/-- A step back of the theories, with a change of the assignment. -/
theorem rearranges_backtrack (core : Core) (level : Nat) :
    Rearranges w ⟨w.store, { w.ctx with core, registry := w.ctx.registry.backtrack level }⟩ := by
  obtain ⟨q, hq⟩ := hw
  rw [Theory.Registry.backtrack_eq hq]
  exact ⟨rfl, ⟨rfl, rfl, rfl, rfl⟩, q, hq⟩

/-- Resolving a conflict shifts core and registry, and stores no term. -/
theorem shifts_resolve (conflict : List Literal) : Shifts w (resolve conflict) := by
  refine shifts_bind hw (shifts_update (rearranges_core hw _)) fun _ w hw => ?_
  split
  · exact shifts_pure hw _
  · exact .throw rearranges_frame hw _
  · exact shifts_bind hw (shifts_change (rearranges_backtrack hw _ _)) fun _ _ hw =>
      shifts_pure hw _

theorem shifts_unlessStuck {op : Work Bool} (h : Shifts w op) : Shifts w (unlessStuck op) :=
  shifts_bind hw h fun _ _ hw => shifts_pure hw _

/-- Propagation shifts core and registry, and stores no term. -/
theorem shifts_propagate : Shifts w propagate := by
  refine shifts_bind hw (shifts_update (rearranges_core hw _)) fun _ w hw => ?_
  split
  · exact shifts_pure hw _
  · obtain ⟨q, hq⟩ := hw
    have hstep : Rearranges w ⟨w.store, { w.ctx with
        registry := (w.ctx.registry.propagate w.ctx.core.trail).2 }⟩ := by
      rw [Theory.Registry.propagate_eq hq]
      exact ⟨rfl, ⟨rfl, rfl, (Egraph.sameNodes_propagate _ _).nodes_eq, rfl⟩, q, hq⟩
    exact shifts_update hstep

/-- Up to the point at which the assignment is complete nothing else changes. -/
theorem shifts_approach (p : Params) (stop : StopRequest) (n : Nat) :
    Shifts w (approach p stop n) := by
  have hstop : Rearranges w ⟨w.store, if stop = .atStep n then w.ctx.stop else w.ctx⟩ := by
    split <;> exact ⟨rfl, ⟨rfl, rfl, rfl, rfl⟩, hw⟩
  refine shifts_bind hw (shifts_change hstop) fun _ w hw => shifts_look_bind ?_
  split
  · exact shifts_pure hw _
  refine shifts_bind hw (shifts_propagate hw) fun conflict w hw => ?_
  split
  · rw [← bind_pure_comp]
    exact shifts_bind hw (shifts_unlessStuck hw (shifts_resolve hw _)) fun _ _ hw =>
      shifts_pure hw _
  refine shifts_look_bind ?_
  split
  · exact shifts_bind hw (shifts_change (rearranges_backtrack hw _ _)) fun _ _ hw =>
      shifts_pure hw _
  refine shifts_bind hw (shifts_update (rearranges_core hw _)) fun _ w hw => ?_
  split
  next l =>
    refine shifts_bind hw (shifts_change ?_) fun _ _ hw => shifts_pure hw _
    obtain ⟨q, hq⟩ := hw
    rw [Theory.Registry.openLevel_eq hq]
    exact ⟨rfl, ⟨rfl, rfl, rfl, rfl⟩, q, hq⟩
  · exact shifts_pure hw _

theorem shifts_startSearch (p : Params) : Shifts w (startSearch p) := by
  refine shifts_look_bind ?_
  split
  · exact shifts_pure hw _
  refine shifts_bind hw (shifts_update (rearranges_core hw _)) fun _ w hw => ?_
  split
  · exact shifts_pure hw _
  obtain ⟨q, hq⟩ := hw
  have heq := Theory.Registry.startSearch_eq hq p
  have hnew : Theory.Registry.Has { w.ctx.registry with
      egraph := w.ctx.registry.egraph.startSearch, satellites := #[.quant (q.startSearch p)] }
        (q.startSearch p) := rfl
  have hstart : Rearranges w ⟨w.store,
      { w.ctx with registry := (w.ctx.registry.startSearch p).2 }⟩ := by
    rw [heq]
    refine ⟨rfl, ⟨rfl, rfl, (Egraph.sameNodes_startSearch _).nodes_eq, ?_⟩, _, hnew⟩
    have hold : w.ctx.solver = q := hq.solver
    rw [hold]
    exact congrArg (·.constraints) hnew.solver
  have hnil : (w.ctx.registry.startSearch p).1.formulas = [] := by rw [heq]
  have hnone : Leads Rearranges w (update fun c =>
      ((c.registry.startSearch p).1.formulas, { c with registry := (c.registry.startSearch p).2 }))
      fun formulas _ => formulas = [] := ⟨hstart, hnil⟩
  exact .bind rearranges_frame ⟨q, hq⟩ hnone fun formulas w hw _ hempty => hempty ▸ shifts_pure hw _

end

/-! ## Complete assignments -/

variable {fixed : Prop} {Q : α → Workspace → Prop} {formulas : List Term}

section

variable (hw : w.Able)

include hw

theorem maintains_bind {op : Work β} {f : β → Work α} {T : β → Workspace → Prop}
    (h : Leads Maintains w op T)
    (hf : ∀ b w', w'.Able → Maintains w w' → T b w' → Leads Maintains w' (f b) Q) :
    Leads Maintains w (op >>= f) Q :=
  .bind maintains_frame hw h hf

/-- A rearrangement keeps the workspace able if it keeps it tidy. -/
theorem maintains_of_shifts {op : Work α} (hg : Leads (Grows False) w op Q) (h : Shifts w op) :
    Leads Maintains w op Q :=
  ((hg.both h).mono fun _ _ _ ha => ha.1).reframe fun _ hr => hw.rearranges hr.1 hr.2

theorem maintains_approach (p : Params) (stop : StopRequest) (n : Nat) :
    Leads Maintains w (approach p stop n) fun _ _ => True :=
  maintains_of_shifts hw (grows_approach hw.tidy p stop n)
    (shifts_approach ⟨_, hw.tidy.ok.ctx.registry⟩ p stop n)

theorem maintains_startSearch (p : Params) : Leads Maintains w (startSearch p) fun _ _ => True :=
  maintains_of_shifts hw (grows_startSearch hw.tidy p)
    (shifts_startSearch ⟨_, hw.tidy.ok.ctx.registry⟩ p)

/-- A formula that may be asserted is processed, or it is too large. -/
theorem maintains_process {t : Term} (ht : w.store.Has t .bool)
    (hass : w.store.Assertable (w.ctx.isOn .flatten) t) :
    Fares Failure.TooLarge Maintains w (process t) fun _ _ => True :=
  (processes_process hw.tidy hw.ctx hw.regular ht hass).weaken Proceeds.maintains

/-- Supported formulas are asserted in the middle of a search, or refused for the degree
of a product. -/
theorem maintains_assertInstances
    (h : ∀ t ∈ formulas, w.store.Has t .bool ∧ w.store.Supported [] t) :
    Fares Failure.TooLarge Maintains w (assertInstances formulas) fun _ _ => True := by
  have hback : Maintains w ⟨w.store, { w.ctx with
      core := w.ctx.core.backtrack 0, registry := w.ctx.registry.backtrack 0 }⟩ := by
    refine hw.rearranges (grows_withBacktrack hw.tidy ?_ (hw.tidy.refers.core.backtrack 0) 0)
      (rearranges_backtrack ⟨_, hw.tidy.ok.ctx.registry⟩ _ _)
    rw [Core.db_backtrack]
    exact .refl hw.tidy.ok.ctx.core
  refine .bind maintains_frame hw (fares_change hback) fun _ w₁ hw₁ h₁ _ => ?_
  refine .bind maintains_frame hw₁ (.forM maintains_frame hw₁ fun t ht w₂ hw₂ h₂ => ?_)
    fun _ w₂ hw₂ _ _ => ?_
  · obtain ⟨hbool, hsupp⟩ := h t ht
    have hext := (maintains_frame.trans h₁ h₂).grows.keeps.store.ext
    exact maintains_process hw₂ (hext.has hbool) (.body (hsupp.later hext))
  · have hsync : Maintains w₂ ⟨w₂.store, w₂.ctx.syncVars⟩ :=
      hw₂.rearranges (grows_syncVars hw₂.tidy) ⟨rfl, ⟨rfl, rfl, rfl, rfl⟩, _,
        hw₂.tidy.ok.ctx.registry⟩
    exact .bind maintains_frame hw₂ (fares_change hsync) fun _ w₃ hw₃ _ _ =>
      ⟨⟨maintains_frame.refl hw₃, trivial⟩, nofun⟩

/-- What the theories add at a complete assignment is supported. -/
theorem maintains_finalCheck (stop : StopRequest) (n : Nat) :
    Leads Maintains w (finalCheck stop n) fun x w' =>
      x.2.conflict = none ∧ ∀ t ∈ x.2.formulas, w'.store.Has t .bool ∧ w'.store.Supported [] t := by
  have hregistry := hw.tidy.ok.ctx.registry
  obtain ⟨hbuilt, -⟩ :=
    Quant.Solver.finalCheck_grows hw.tidy.ok.ctx.tables
      (some w.ctx.registry.egraph) hw.tidy.ok.store
  have hsupp : ∀ t ∈ (w.ctx.registry.finalCheck w.store).1.1.2.formulas,
      (w.ctx.registry.finalCheck w.store).2.Supported [] t := by
    rw [Theory.Registry.finalCheck_eq hregistry w.store]
    exact Quant.Solver.finalCheck_supported ⟨hw.tidy.ok.store, hw.regular, hw.tidy.typed.egraph,
      hw.ctx.nodes⟩
      (fun c hc => ⟨hw.tidy.typed.solver.constraints c hc, (hw.ctx.constraints c hc).1,
        (hw.ctx.constraints c hc).2⟩)
      hw.tidy.ok.ctx.tables
  have hctx : Supports (w.ctx.registry.finalCheck w.store).2
      { w.ctx with registry := (w.ctx.registry.finalCheck w.store).1.2 } := by
    rw [Theory.Registry.finalCheck_eq hregistry w.store]
    refine (hw.ctx.later hbuilt.later.ext).of_ctx id (fun _ => .inl) fun c hc => ?_
    rwa [← Quant.Solver.constraints_finalCheck w.ctx.solver (some w.ctx.registry.egraph) w.store]
  have hlook : Maintains w _ := ⟨grows_look_theories hw.tidy, hctx, rfl⟩
  have hgrows : Leads (Grows False) w (finalCheck stop n) fun x w' =>
      x.2.conflict = none ∧ ∀ t ∈ x.2.formulas, w'.store.Has t .bool :=
        grows_finalCheck hw.tidy stop n
  obtain ⟨-, hnone, hbool⟩ := hgrows
  refine ⟨maintains_frame.trans hlook ?_, hnone, fun t ht => ⟨hbool t ht, hsupp t ht⟩⟩
  have hlooked := maintains_frame.stable hw hlook
  split
  · exact hlooked.rearranges (grows_interrupted hlooked.tidy true)
      ⟨rfl, ⟨rfl, rfl, rfl, rfl⟩, _, hlooked.tidy.ok.ctx.registry⟩
  · exact maintains_frame.refl hlooked

theorem maintains_unlessStuck {op : Work Bool} {Q : Bool → Workspace → Prop}
    (h : Leads Maintains w op Q) :
    Leads Maintains w (unlessStuck op) fun _ _ => True :=
  maintains_bind hw h fun _ _ hw' _ _ => .pure maintains_frame hw' trivial

/-- The end of a step maintains the workspace, whether instances were made or not. -/
theorem maintains_conclude (stop : StopRequest) (n : Nat) :
    Leads Maintains w (conclude stop n) fun _ _ => True := by
  refine maintains_bind hw (maintains_finalCheck hw stop n)
    fun (outcome, out) w hw _ ⟨hnone, hformulas⟩ => ?_
  have hlook {β : Type} (f : Store → Context → β) : Leads Maintains w (look f) fun _ _ => True :=
    ⟨maintains_frame.refl hw, trivial⟩
  refine maintains_bind hw (hlook _) fun _ w hw hr _ => ?_
  split
  · exact .pure maintains_frame hw trivial
  · split
    next hsome =>
      rw [hnone] at hsome
      cases hsome
    · split
      · exact maintains_unlessStuck hw (maintains_assertInstances hw fun t ht =>
          ⟨hr.has (hformulas t ht).1, (hformulas t ht).2.later hr.grows.keeps.store.ext⟩).leads
      · split
        · exact .pure maintains_frame hw trivial
        · exact ⟨maintains_frame.refl hw, trivial⟩

/-- One step of a search. -/
theorem maintains_step (p : Params) (stop : StopRequest) (n : Nat) :
    Leads Maintains w (step p stop n) fun _ _ => True := by
  rw [step_eq]
  refine maintains_bind hw (maintains_approach hw p stop n) fun outcome w hw _ _ => ?_
  cases outcome with
  | some status => exact .pure maintains_frame hw trivial
  | none => exact maintains_conclude hw stop n

/-- A run of steps maintains the workspace, by induction on the number of steps. -/
theorem maintains_steps (p : Params) (stop : StopRequest) (fuel n : Nat) :
    Leads Maintains w (steps p stop fuel n) fun _ _ => True := by
  induction fuel generalizing n w with
  | zero => exact .throw maintains_frame hw _
  | succ fuel ih =>
    refine maintains_bind hw (maintains_step hw p stop n) fun status w hw _ _ => ?_
    split
    · exact .pure maintains_frame hw trivial
    · exact ih hw (n + 1)

/-- Whatever the outcome of a search, and whether it is refused or not. -/
theorem maintains_search (p : Params) (stop : StopRequest) (fuel : Nat) :
    Leads Maintains w (search p stop fuel) fun _ _ => True := by
  refine maintains_bind hw (maintains_startSearch hw p) fun go w hw _ _ => ?_
  split
  · exact maintains_steps hw p stop fuel 0
  · exact .pure maintains_frame hw trivial

end

end Work
end Entail
