import Entail.Proofs.Context.TidyRuns

/-!
# Atoms of atomic formulas

The variable of an equality or of a boolean application has an atom in the e-graph from the moment
it is given out, at present and as of every open mark. So a search that adds formulas never gives an
atom to a variable that has been assigned without one.
-/

namespace Entail

open Context

/-- Every variable of an equality or of an application has an atom. -/
def Context.View.Attached (s : Store) (V : View) : Prop :=
  ∀ v t, V.vars v = some t → s.IsAtomic t → ∃ atom, V.egraph.2 v = some atom

namespace Workspace

variable {w w' : Workspace} {s : Store} {fixed : Prop}

/-- A kempt context with all atoms, at present and as of every open mark. -/
structure Attached (w : Workspace) : Prop where
  kempt : w.Kempt
  now : w.ctx.now.Attached w.store
  marks : ∀ {m : Mark}, m.Open w.ctx → (w.ctx.upTo m).Attached w.store

/-- Where a store that has grown says the same of the terms of the variables. -/
theorem attached_later {s s' : Store} {V : View} (h : V.Attached s) (hs : Store.Later s s')
    (hlive : ∀ {v t}, V.vars v = some t → ∃ ty, s.Has t ty) : V.Attached s' :=
  fun v t hv ht => h v t hv ((isAtomic_iff_of_later hs (hlive hv)).mp ht)

/-- New variables come with their atoms. -/
theorem Binds.attached (h : Binds w w') (hw : w.ctx.Ok w.store) (hs : Store.Later w.store w'.store)
    (hnow : w.ctx.now.Attached w.store) : w'.ctx.now.Attached w'.store := by
  intro v t hv ht
  rcases h.fresh hv with hold | hnew
  · exact (hnow v t hold ((isAtomic_iff_of_later hs (hw.live hold)).mp ht)).imp fun _ => h.atoms
  · exact hnew ht

namespace Attached

theorem grows (h : w.Attached) (hg : Grows fixed w w') : w'.Attached := by
  have hok := h.kempt.tidy.ok.ctx
  refine ⟨h.kempt.grows hg, hg.binds.attached hok hg.keeps.store h.now, fun {m} hm => ?_⟩
  have hopen := hm.of_scopes hg.keeps.scopes.symm hg.keeps.nodes.symm hg.keeps.tables.symm
  rw [hg.keeps.upTo hopen]
  exact attached_later (h.marks hopen) hg.keeps.store fun hv => hok.live (term?_of_upTo hv)

/-- Options, status and stop request do not matter. -/
theorem settings (h : w.Attached) (options : Options) (status : Status) (interrupted : Bool) :
    Attached ⟨w.store, { w.ctx with options, status, interrupted }⟩ :=
  ⟨h.kempt.settings options status interrupted, h.now, fun hm => h.marks (hm.of_scopes rfl rfl rfl)⟩

theorem openScope (h : w.Attached) : Attached ⟨w.store, w.ctx.openScope⟩ := by
  have hw := h.kempt.tidy.ok
  obtain ⟨hok, hdepth, hopen, hwhole, hkept⟩ := openScope_spec hw
  have hnow : w.ctx.openScope.now.Attached w.store := by
    rw [openScope_eq hw.ctx]
    exact h.now
  refine ⟨h.kempt.openScope, hnow, fun {m} hm => ?_⟩
  show (w.ctx.openScope.upTo m).Attached w.store
  have hlt : m.depth < w.ctx.depth + 1 := hdepth ▸ (hm.le hok).2.2.2
  rcases Nat.lt_succ_iff_lt_or_eq.mp hlt with hlt | heq
  · have hm' := hm.before hw.ctx hlt fun hm' _ => (hkept hm').1
    rw [(hkept hm').2]
    exact h.marks hm'
  · obtain rfl := hm.unique hopen heq
    rw [upTo_of_whole hwhole hok]
    exact hnow

theorem commit (h : w.Attached) (hs : w.ctx.scopes ≠ []) : Attached ⟨w.store, w.ctx.commit⟩ := by
  have hkempt := h.kempt.commit hs
  obtain ⟨a, rest, hs⟩ := List.exists_cons_of_ne_nil hs
  have hw := h.kempt.tidy.ok
  obtain ⟨hok, hscopes, hkept⟩ := commit_spec hw hs
  refine ⟨hkempt, ?_, fun {m} hm => ?_⟩
  · show w.ctx.commit.now.Attached w.store
    unfold Context.commit
    rw [hs, Theory.Registry.mergeScope_eq hw.ctx.registry]
    exact h.now
  · have hlt : m.depth < rest.length := by
      have := (hm.le hok).2.2.2
      rwa [depth, hscopes] at this
    have hdepth : w.ctx.depth = rest.length + 1 := congrArg List.length hs
    have hm' := hm.before hw.ctx (by omega) fun hm' heq => (hkept hm' (by omega)).1
    show (w.ctx.commit.upTo m).Attached w.store
    rw [(hkept hm' hlt).2]
    exact h.marks hm'

/-- When a scope is closed, what is left is what was seen as of its mark. -/
theorem rollback (h : w.Attached) (hs : w.ctx.scopes ≠ []) :
    Attached ⟨w.store, w.ctx.rollback⟩ := by
  have hkempt := h.kempt.rollback hs
  obtain ⟨a, rest, hs⟩ := List.exists_cons_of_ne_nil hs
  have hw := h.kempt.tidy.ok
  obtain ⟨hok, hscopes, -, hback⟩ := rollback_spec hw hs
  have hdepth : w.ctx.depth = rest.length + 1 := congrArg List.length hs
  have hmark {m : Mark} (hm : m.Open w.ctx) : (w.ctx.rollback.upTo m).Attached w.store := by
    rw [(hback hm).1]
    exact h.marks hm
  obtain ⟨m, hm, hdm⟩ := hw.ctx.exists_open (i := rest.length) (by omega)
  refine ⟨hkempt, ?_, fun {m'} hm' => ?_⟩
  · have hview : w.ctx.rollback.upTo m = w.ctx.rollback.now :=
      upTo_of_whole ((hback hm).2.2 hdm) hok
    exact hview ▸ hmark hm
  · have hlt : m'.depth < rest.length := by
      have := (hm'.le hok).2.2.2
      rwa [depth, hscopes] at this
    exact hmark (hm'.before hw.ctx (by omega) fun hm'' heq' => (hback hm'').2.1 (by omega))

end Attached

/-- A new context has a variable for truth only. -/
theorem attached_new (hs : s.Wf) (config : Config) : Attached ⟨s, .new config⟩ := by
  refine ⟨kempt_new hs config, fun v t hv ht => ?_, fun hm => ?_⟩
  · obtain ⟨-, rfl⟩ := (term?_first config).mp hv
    rcases ht with ⟨a, b, hshape⟩ | ⟨f, args, hshape⟩ <;> simp [Store.shape, Store.shape?,
      hs.truth] at hshape
  · cases hm.scope

/-- Every operation leaves atomic formulas with their atoms. -/
theorem lasting_attached : Lasting Attached where
  ok h := h.kempt.tidy.ok
  settings h := h.settings
  clearSearch {w} h := by
    have hclear : Grows False w ⟨w.store, w.ctx.clearSearch⟩ := Work.grows_clearSearch h.kempt.tidy
    exact h.grows hclear
  openScope h := h.openScope
  commit h := h.commit
  rollback h := h.rollback
  exclude {w} h := by
    have hclear : Grows False w ⟨w.store, w.ctx.clearSearch⟩ := Work.grows_clearSearch h.kempt.tidy
    have hadd : Leads (Grows False) ⟨w.store, w.ctx.clearSearch⟩
      (Work.clause (w.ctx.core.decisions.map (·.neg)))
        fun _ _ => True := Work.grows_clause hclear.tidy (hclear.overLive (over_decisions h.kempt))
    exact (h.grows hclear).grows hadd.moves
  reset {w} h := (attached_new h.kempt.tidy.ok.store w.ctx.config).settings w.ctx.options .idle
    w.ctx.interrupted
  assertAll h ts := h.grows (Work.grows_assertAll h.kempt.tidy ts).moves
  assertQuantifier h formula patterns :=
    h.grows (Work.grows_assertQuantifier h.kempt.tidy formula patterns).moves
  search h p stop fuel := h.grows (Work.grows_search h.kempt.tidy p stop fuel).moves

/-- Others may change the store as long as they spare the roots of the context. -/
theorem Attached.spares (h : w.Attached) (hw : Workspace.Ok ⟨s, w.ctx⟩)
    (hs : w.store.Spares s w.ctx.roots) :
    Attached ⟨s, w.ctx⟩ := by
  have hstays {v : Nat} {t : Term} (hv : w.ctx.vars.term? v = some t) (ht : s.IsAtomic t) :
      w.store.IsAtomic t := by
    obtain ⟨ty, hty⟩ := h.kempt.tidy.ok.ctx.live hv
    have hstay := hs t (mem_roots_of_term? hv) (Store.isValid_iff.mpr ⟨ty, hty⟩)
    unfold Store.IsAtomic at ht ⊢
    rwa [hstay.shape_eq] at ht
  exact ⟨h.kempt.spares hw hs, fun v t hv ht => h.now v t hv (hstays hv ht),
    fun hm v t hv ht => h.marks hm v t hv (hstays (term?_of_upTo hv) ht)⟩

theorem attached_turn (hturn : Turn w w') (h : w.Attached) (hw : w.AtRest) : w'.Attached := by
  have hrest := (survives_move (Turn.move hturn) hw).rest
  cases hturn with
  | act a => exact lasting_attached.run a h
  | store hs hspares => exact h.spares hrest.ok hspares

/-- In a context that was used in some way every atomic formula with a variable has an atom. -/
theorem attached_of_used (h : Used w) : w.Attached := by
  obtain ⟨s, config, hs, hrun⟩ := h
  induction hrun with
  | refl => exact attached_new hs config
  | tail hrun hturn ih =>
    exact attached_turn hturn ih (atRest_of_reachable (reachable_of_used ⟨s, config, hs, hrun⟩))

end Workspace
end Entail
