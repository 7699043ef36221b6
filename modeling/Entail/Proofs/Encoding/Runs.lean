import Entail.Proofs.Encoding.Amends

/-!
# Encodings of contexts in use

Whatever was done with a context since it was made, and whatever was done in between with the store
that it shares, some of its clauses define exactly what it has encoded, at present and as of every
open mark. When a scope is closed, the definitions as of its mark are left, and they are all that is
needed for the encodings that are left.
-/

namespace Entail

open Search Context

namespace Context

variable {s s' : Store} {V : View} {c : Context} {m : Mark} {one : Literal}
  {defs : List (List Literal)}

/-- What is seen as of a mark is there at present. -/
theorem of_upTo :
    (∀ {x t}, (c.upTo m).vars x = some t → c.now.vars x = some t) ∧
      (∀ {t l}, (c.upTo m).lits t = some l → c.now.lits t = some l) ∧
      ∀ {t word}, (c.upTo m).bits t = some word → c.now.bits t = some word :=
  ⟨eq_some_of_upTo, eq_some_of_upTo, eq_some_of_upTo⟩

/-- What a context refers to is among its roots. -/
theorem mem_roots_of_now :
    (∀ {x t}, c.now.vars x = some t → t ∈ c.roots) ∧
    (∀ {t l}, c.now.lits t = some l → t ∈ c.roots) ∧
      ∀ {t word}, c.now.bits t = some word → t ∈ c.roots := by
  refine ⟨Workspace.mem_roots_of_term?, fun {t l} ht => ?_, fun {t word} ht => ?_⟩
  · have hmem : t ∈ c.lits := Std.HashMap.mem_iff_isSome_getElem?.mpr
      (Option.isSome_iff_exists.mpr ⟨l, ht⟩)
    exact mem_roots.mpr (.inr (.inr (.inr (.inl hmem))))
  · have hmem : t ∈ c.bits := Std.HashMap.mem_iff_isSome_getElem?.mpr
      (Option.isSome_iff_exists.mpr ⟨word, ht⟩)
    exact mem_roots.mpr (.inr (.inr (.inr (.inr (.inl hmem)))))

/-- A new context has one definition, of the variable of truth. -/
theorem exact_new (hs : s.Wf) (config : Config) :
    (Context.new config).now.Exact s (Context.new config).trueLit
      [[(Context.new config).trueLit]] := by
  let first := (blank config).atom .top
  have hterm {x : Nat} {t : Term} : (Context.new config).now.vars x = some t ↔
      x = first.1.var ∧ t = .top :=
    Workspace.term?_first config
  have hempty {κ ν : Type} [BEq κ] [Hashable κ] [EquivBEq κ] [LawfulHashable κ] {k : κ} {v : ν}
      (h : (∅ : Std.HashMap κ ν)[k]? = some v) : False := by
    rw [Std.HashMap.getElem?_empty] at h
    cases h
  have hmeets {a : Nat → Bool} (ha : Meets a [[first.1]]) : a first.1.var = true := by
    obtain ⟨l, hl, heval⟩ := meets_singleton.mp ha
    obtain rfl := List.mem_singleton.mp hl
    rw [show first.1 = Literal.pos ((blank config).vars.get .top).1 from rfl] at heval ⊢
    rwa [Literal.var_pos, ← Literal.eval_pos a]
  have hcoherent {a : Nat → Bool} (A : Atoms) (ha : a first.1.var = true) :
      (Context.new config).now.Coherent s a A := by
    refine ⟨fun hx => ?_, fun h => (hempty h).elim, fun h => (hempty h).elim⟩
    obtain ⟨rfl, rfl⟩ := hterm.mp hx
    exact ha.trans (A.truths hs).top.symm
  refine ⟨List.mem_singleton_self _, fun hx => ?_, fun h => (hempty h).elim, fun h =>
    (hempty h).elim, fun c hc => ?_,
    fun {a} ha => ?_, fun ha _ => hcoherent _ (hmeets ha), fun A =>
      ⟨fun _ => true, A, .refl A _, ?_, hcoherent A rfl⟩⟩
  · obtain ⟨-, rfl⟩ := hterm.mp hx
    exact ⟨⟨⟨_, hs.truth⟩, fun _ => rfl⟩, rfl⟩
  · obtain rfl := List.mem_singleton.mp hc
    exact List.forall_mem_singleton.mpr ⟨.top, hterm.mpr ⟨rfl, rfl⟩⟩
  · let c : Context := { first.2.syncVars with trueLit := first.1 }
    have hdb : c.core.db = (blank config).core.db := Workspace.db_foldl_ensureVar _ _
    have hok : c.core.db.Ok 0 := by
      rw [hdb]
      exact (Workspace.ok_blank s config).core
    have hadd : (c.addClause [first.1]).core.db.all.Models a := ha
    rw [show (c.addClause [first.1]).core.db = _ from Core.db_addClause _ _ _] at hadd
    exact meets_singleton.mpr ((Database.all_models_add hok).mp hadd).2
  · exact meets_singleton.mpr ⟨first.1, List.mem_singleton_self _, Literal.eval_pos _ _⟩

end Context

namespace Workspace

variable {w w' : Workspace} {s : Store} {fixed : Prop}

/-- The encodings of a kempt context are explained, at present and as of every open mark. -/
structure Accounted (w : Workspace) : Prop where
  kempt : w.Kempt
  now : Explains w.store w.ctx.trueLit w.ctx.now
  marks : ∀ {m : Mark}, m.Open w.ctx → Explains w.store w.ctx.trueLit (w.ctx.upTo m)

theorem Accounted.described (h : w.Accounted) : w.Described := ⟨h.kempt.tidy, h.now⟩

theorem Explains.of_extends {s s' : Store} {one : Literal} {V : View} (h : Explains s one V)
    (hw : s.Wf) (hs : Store.Later s s') :
    Explains s' one V := h.imp fun _ h => h.of_extends hw hs.wf hs.ext

/-- What is seen as of open marks stays explained while it stays the same. -/
theorem Accounted.amends (h : w.Accounted) (hr : Amends fixed w w') : w'.Accounted := by
  refine ⟨h.kempt.grows hr.grows, hr.explains, fun {m} hm => ?_⟩
  have hkeeps := hr.grows.keeps
  have hopen : m.Open w.ctx := hm.of_scopes hkeeps.scopes.symm hkeeps.nodes.symm hkeeps.tables.symm
  rw [hkeeps.upTo hopen, hr.grows.truth]
  exact (h.marks hopen).of_extends h.kempt.tidy.ok.store hkeeps.store

/-- Options, status and stop request do not matter. -/
theorem Accounted.settings (h : w.Accounted) (options : Options) (status : Status)
    (interrupted : Bool) :
    Accounted ⟨w.store, { w.ctx with options, status, interrupted }⟩ :=
  ⟨h.kempt.settings options status interrupted, h.now, fun hm => h.marks (hm.of_scopes rfl rfl rfl)⟩

theorem Accounted.openScope (h : w.Accounted) : Accounted ⟨w.store, w.ctx.openScope⟩ := by
  have hw := h.kempt.tidy.ok
  obtain ⟨hok, hdepth, hopen, hwhole, hkept⟩ := openScope_spec hw
  have hnow : Explains w.store w.ctx.trueLit w.ctx.openScope.now := by
    obtain ⟨defs, hexact⟩ := h.now
    refine ⟨defs, ?_⟩
    rw [openScope_eq hw.ctx]
    have hsync := Work.retains_syncVars h.described
    exact hexact.of_same hsync.vars hsync.lits hsync.bits hsync.aux fun _ => hsync.models
  refine ⟨h.kempt.openScope, hnow, fun {m} hm => ?_⟩
  show Explains w.store w.ctx.trueLit (w.ctx.openScope.upTo m)
  have hlt : m.depth < w.ctx.depth + 1 := hdepth ▸ (hm.le hok).2.2.2
  rcases Nat.lt_succ_iff_lt_or_eq.mp hlt with hlt | heq
  · have hm' := hm.before hw.ctx hlt fun hm' _ => (hkept hm').1
    rw [(hkept hm').2]
    exact h.marks hm'
  · obtain rfl := hm.unique hopen heq
    rw [upTo_of_whole hwhole hok]
    exact hnow

theorem Accounted.commit (h : w.Accounted) (hs : w.ctx.scopes ≠ []) :
    Accounted ⟨w.store, w.ctx.commit⟩ := by
  have hkempt := h.kempt.commit hs
  obtain ⟨a, rest, hs⟩ := List.exists_cons_of_ne_nil hs
  have hw := h.kempt.tidy.ok
  obtain ⟨hok, hscopes, hkept⟩ := commit_spec hw hs
  have hcommit : w.ctx.commit = { w.ctx with
      scopes := rest
      core := w.ctx.core.mergeScopes rest.length
      registry := w.ctx.registry.mergeScope } := by
    unfold Context.commit
    rw [hs]
  have htruth : w.ctx.commit.trueLit = w.ctx.trueLit := by rw [hcommit]
  refine ⟨hkempt, ?_, fun {m} hm => ?_⟩
  · obtain ⟨defs, hexact⟩ := h.now
    refine ⟨defs, ?_⟩
    rw [hcommit]
    refine hexact.of_same rfl rfl rfl rfl fun a ha => ?_
    have hmodels : (w.ctx.core.mergeScopes rest.length).db.all.Models a := ha
    rw [Core.db_mergeScopes] at hmodels
    exact Search.Database.all_models_merge hmodels
  · have hlt : m.depth < rest.length := by
      have := (hm.le hok).2.2.2
      rwa [depth, hscopes] at this
    have hdepth : w.ctx.depth = rest.length + 1 := congrArg List.length hs
    have hm' := hm.before hw.ctx (by omega) fun hm' heq => (hkept hm' (by omega)).1
    show Explains w.store w.ctx.commit.trueLit (w.ctx.commit.upTo m)
    rw [(hkept hm' hlt).2, htruth]
    exact h.marks hm'

/-- When a scope is closed, what is left was explained as of its mark. -/
theorem Accounted.rollback (h : w.Accounted) (hs : w.ctx.scopes ≠ []) :
    Accounted ⟨w.store, w.ctx.rollback⟩ := by
  have hkempt := h.kempt.rollback hs
  obtain ⟨a, rest, hs⟩ := List.exists_cons_of_ne_nil hs
  have hw := h.kempt.tidy.ok
  obtain ⟨hok, hscopes, -, hback⟩ := rollback_spec hw hs
  obtain ⟨vars, core, aux, lits, bits, heq, -⟩ := rollback_eq hw hs
  have htruth : w.ctx.rollback.trueLit = w.ctx.trueLit := by rw [heq]
  have hdepth : w.ctx.depth = rest.length + 1 := congrArg List.length hs
  have hmark {m : Mark} (hm : m.Open w.ctx) :
      Explains w.store w.ctx.rollback.trueLit (w.ctx.rollback.upTo m) := by
    rw [(hback hm).1, htruth]
    exact h.marks hm
  obtain ⟨m, hm, hdm⟩ := hw.ctx.exists_open (i := rest.length) (by omega)
  refine ⟨hkempt, ?_, fun {m'} hm' => ?_⟩
  · have hview : w.ctx.rollback.upTo m = w.ctx.rollback.now :=
      upTo_of_whole ((hback hm).2.2 hdm) hok
    exact hview ▸ hmark hm
  · have hlt : m'.depth < rest.length := by
      have := (hm'.le hok).2.2.2
      rwa [depth, hscopes] at this
    exact hmark (hm'.before hw.ctx (by omega) fun hm'' heq' => (hback hm'').2.1 (by omega))

theorem accounted_new (hs : s.Wf) (config : Config) : Accounted ⟨s, .new config⟩ := by
  refine ⟨kempt_new hs config, ⟨_, exact_new hs config⟩, fun hm => ?_⟩
  cases hm.scope

/-- Every operation leaves encodings explained, whether it is refused or not. -/
theorem lasting_accounted : Lasting Accounted where
  ok h := h.kempt.tidy.ok
  settings h := h.settings
  clearSearch {w} h := by
    have hclear : Grows False w ⟨w.store, w.ctx.clearSearch⟩ := Work.grows_clearSearch h.kempt.tidy
    exact h.amends (h.described.amends hclear (Work.retains_clearSearch h.described))
  openScope h := h.openScope
  commit h := h.commit
  rollback h := h.rollback
  exclude {w} h := by
    have hgrows : Grows False w ⟨w.store, w.ctx.clearSearch⟩ := Work.grows_clearSearch h.kempt.tidy
    have hclear := h.described.amends hgrows (Work.retains_clearSearch h.described)
    have hdescribed := amends_frame.stable h.described hclear
    have hadd : Leads (Amends False) ⟨w.store, w.ctx.clearSearch⟩
      (Work.clause (w.ctx.core.decisions.map (·.neg)))
        fun _ _ => True := Work.amends_clause hdescribed (hgrows.overLive (over_decisions h.kempt))
    exact (h.amends hclear).amends hadd.moves
  reset {w} h := (accounted_new h.kempt.tidy.ok.store w.ctx.config).settings w.ctx.options .idle
    w.ctx.interrupted
  assertAll h ts := h.amends (Work.amends_assertAll h.described ts).moves
  assertQuantifier h formula patterns :=
    h.amends (Work.amends_assertQuantifier h.described formula patterns).moves
  search h p stop fuel := h.amends (Work.amends_search h.described p stop fuel).moves

/-- Others may change the store as long as they spare the roots of the context. -/
theorem Accounted.spares (h : w.Accounted) (hw : Workspace.Ok ⟨s, w.ctx⟩)
    (hs : w.store.Spares s w.ctx.roots) :
    Accounted ⟨s, w.ctx⟩ := by
  have hwf := h.kempt.tidy.ok.store
  have hstays {t : Term} {ty : Ty} (ht : t ∈ w.ctx.roots) (hty : w.store.Has t ty) :
      w.store.Stays s t :=
    hs t ht (Store.isValid_iff.mpr ⟨ty, hty⟩)
  obtain ⟨hvars, hlits, hbits⟩ := mem_roots_of_now (c := w.ctx)
  refine ⟨h.kempt.spares hw hs, ?_, fun {m} hm => ?_⟩
  · obtain ⟨defs, hexact⟩ := h.now
    refine ⟨defs, hexact.of_stays hwf hw.store (fun hx => hstays (hvars hx) (hexact.vars hx).1)
      (fun hp => hstays (hlits hp) (hexact.lits hp).1) fun ht => ?_⟩
    obtain ⟨⟨ty, hty, -⟩, -⟩ := hexact.bits ht
    exact hstays (hbits ht) hty
  · obtain ⟨defs, hexact⟩ := h.marks hm
    obtain ⟨hvars', hlits', hbits'⟩ := of_upTo (c := w.ctx) (m := m)
    refine ⟨defs, hexact.of_stays hwf hw.store
      (fun hx => hstays (hvars (hvars' hx)) (hexact.vars hx).1)
      (fun hp => hstays (hlits (hlits' hp)) (hexact.lits hp).1) fun ht => ?_⟩
    obtain ⟨⟨ty, hty, -⟩, -⟩ := hexact.bits ht
    exact hstays (hbits (hbits' ht)) hty

theorem accounted_turn (hturn : Turn w w') (h : w.Accounted) (hw : w.AtRest) : w'.Accounted := by
  have hrest := (survives_move (Turn.move hturn) hw).rest
  cases hturn with
  | act a => exact lasting_accounted.run a h
  | store hs hspares => exact h.spares hrest.ok hspares

/-- The encodings of a context that was used in some way are explained. -/
theorem accounted_of_used (h : Used w) : w.Accounted := by
  obtain ⟨s, config, hs, hrun⟩ := h
  induction hrun with
  | refl => exact accounted_new hs config
  | tail hrun hturn ih =>
    exact accounted_turn hturn ih (atRest_of_reachable (reachable_of_used ⟨s, config, hs, hrun⟩))

end Workspace
end Entail
