import Entail.Proofs.Context.Runs
import Entail.Proofs.Context.TidySearch
import Entail.Proofs.Context.TypedRuns

/-!
# Contexts stay tidy between operations

Every operation on a context leaves it tidy, whether it is refused, stopped or not. Inside of a
scope that follows from what is done step by step. A scope is opened with the variables that there
are, so nothing that is left when it is closed refers to a later one; and of the definitions, the
encoded terms and the constraints only some are left.
-/

namespace Entail

open Workspace Context

namespace Work

variable {w : Workspace} {fixed : Prop}

section

variable (hw : w.Tidy)

include hw

/-! ## Operations inside of a scope -/

theorem grows_status (status : Status) : Grows fixed w ⟨w.store, { w.ctx with status }⟩ :=
  ⟨keeps_status hw.ok status,
    ⟨⟨hw.ok.store, (keeps_status hw.ok status).ok⟩, { hw.typed with }, { hw.refers with },
      { hw.gone with }⟩,
    rfl, id, fun _ => rfl, .of_same (fun _ => rfl) rfl rfl⟩

theorem grows_clearSearch : Grows fixed w ⟨w.store, w.ctx.clearSearch⟩ := by
  refine grows_withBacktrack hw ?_ hw.refers.core.resetTrail.assignUnits 0
  rw [Core.db_assignUnits, Core.db_resetTrail]
  exact .refl hw.ok.ctx.core

theorem grows_reopen : Grows fixed w ⟨w.store, w.ctx.reopen⟩ := by
  unfold reopen
  split
  · have hclear : Grows fixed w ⟨w.store, w.ctx.clearSearch⟩ := grows_clearSearch hw
    exact grows_frame.trans hclear (grows_status hclear.tidy .idle)
  · exact grows_frame.refl hw

theorem grows_settle : Grows fixed w ⟨w.store, w.ctx.settle⟩ := by
  have hsync : Grows fixed w ⟨w.store, w.ctx.syncVars⟩ := grows_syncVars hw
  exact grows_frame.trans hsync (grows_status hsync.tidy _)

theorem grows_note {t : Term} (ht : w.store.Has t .bool) : Grows fixed w ⟨w.store, w.ctx.note t⟩ :=
  ⟨keeps_note hw.ok t,
    ⟨⟨hw.ok.store, (keeps_note hw.ok t).ok⟩, hw.typed.note ht, { hw.refers with },
      { hw.gone with }⟩, rfl, id, fun _ => rfl,
    .of_same (fun _ => rfl) rfl rfl⟩

theorem grows_assertAll (ts : List Term) :
    Leads (Grows False) w (assertAll ts) fun _ _ => True := by
  refine grows_check_bind hw fun _ _ => grows_check_bind hw fun _ hvalid => grows_look_bind ?_
  have hts : ∀ t ∈ ts, w.store.Has t .bool :=
    fun t ht => has_of_validate (Store.forM_eq_ok hvalid t ht)
  split
  · exact grows_pure hw trivial
  refine grows_change_bind hw (grows_reopen hw) fun {w₁} hw₁ hr₁ => ?_
  refine grows_bind hw₁ (Leads.forM grows_frame hw₁ fun t ht w₂ hw₂ hr₂ => ?_)
    fun _ w₂ hw₂ _ _ => ⟨grows_settle hw₂, trivial⟩
  have ht₂ := hr₂.has (hr₁.has (hts t ht))
  exact grows_change_bind hw₂ (grows_note hw₂ ht₂) fun hw₃ hr₃ => grows_process hw₃ (hr₃.has ht₂)

theorem grows_assertQuantifier (formula : Term) (patterns : List Term) :
    Leads (Grows False) w (assertQuantifier formula patterns) fun _ _ => True := by
  refine grows_check_bind hw fun _ _ => grows_check_bind hw fun _ hvalid => ?_
  have hformula : w.store.Has formula .bool := has_of_validate hvalid
  have hquantified : Leads (Grows False) w (checkQuantified formula) fun _ _ => True := by
    refine grows_look_bind ?_
    split
    · exact grows_throw hw _
    · exact grows_pure hw trivial
  refine grows_bind hw hquantified fun _ w₁ hw₁ hr₁ _ => grows_look_bind ?_
  split
  · exact grows_pure hw₁ trivial
  refine grows_change_bind hw₁ (grows_reopen hw₁) fun {w₂} hw₂ hr₂ => grows_look_bind ?_
  have hformula₂ := hr₂.has (hr₁.has hformula)
  refine grows_bind hw₂ (grows_subst hw₂ hformula₂) fun t w₃ hw₃ hr₃ ⟨ht, hclean⟩ =>
    grows_look_bind ?_
  have hformula₃ := hr₃.has hformula₂
  split
  · refine grows_change_bind hw₃ (grows_note hw₃ hformula₃) fun hw₄ hr₄ => ?_
    exact grows_bind hw₄ (grows_process hw₄ (hr₄.has ht)) fun _ w₅ hw₅ _ _ =>
      ⟨grows_settle hw₅, trivial⟩
  · have hpatterns : Moves Store.Wf Store.Built (patterns.mapM (Store.subst w₂.ctx.subst)) :=
      Store.built_frame.mapM patterns fun p _ => Store.builders_built.subst w₂.ctx.subst p
    have hbuilds : Store.Builds w₃.store (patterns.mapM (Store.subst w₂.ctx.subst)) fun _ _ =>
        True :=
      Leads.of_moves_any (hpatterns.mono (fun _ _ _ h => h.later) w₃.store hw₃.ok.store)
    have hstay : Leads (Grows True) w₃ (onStore (patterns.mapM (Store.subst w₂.ctx.subst)))
        fun _ w₄ => w₄.Clean t :=
      (grows_onStore hw₃ hpatterns hbuilds).mono fun _ _ hr _ => hr.clean hclean
    refine grows_bind hw₃ (hstay.weaken Grows.weaken) fun patterns w₄ hw₄ hr₄ hclean => ?_
    refine grows_bind hw₄ (grows_addConstraint hw₄ patterns hclean) fun _ w₅ hw₅ hr₅ _ => ?_
    have hnote : Grows False w₅ ⟨w₅.store, w₅.ctx.note formula⟩ :=
      grows_note hw₅ (hr₅.has (hr₄.has hformula₃))
    exact grows_change_bind hw₅ hnote fun hw₆ _ => ⟨grows_settle hw₆, trivial⟩

end
end Work

namespace Context

variable {s s' : Store} {c c' : Context} {w : Workspace} {m : Mark}

/-! ## Scopes -/

theorem Eliminates.openScope (h : c.Eliminates s) (hc : c.Ok s) : c.openScope.Eliminates s := by
  rw [openScope_eq hc]
  exact h.of_ctx id .inl fun _ => .inl

theorem Eliminates.commit (h : c.Eliminates s) (hc : c.registry.Has c.solver) :
    c.commit.Eliminates s := by
  unfold Context.commit
  split
  · exact h
  · rw [Theory.Registry.mergeScope_eq hc]
    exact h.of_ctx id .inl fun _ => .inl

/-- What is seen of a table as of a mark is in the table. -/
theorem eq_some_of_upTo {κ ι ν : Type} [DecidableEq ι] {log : List ι} {count : Nat} {entry : κ → ι}
    {table : κ → Option ν}
    {k : κ} {v : ν} (h : Entail.upTo log count entry table k = some v) : table k = some v := by
  unfold Entail.upTo at h
  split at h
  · cases h
  · exact h

/-- Every definition, encoded term, node and constraint of the second context is one of the
first. -/
structure Shrinks (c c' : Context) : Prop where
  subst : ∀ {x v : Term}, c'.subst[x]? = some v → c.subst[x]? = some v
  encoded : ∀ {t : Term}, c'.Encoded t → c.Encoded t
  nodes : ∀ n ∈ c'.registry.egraph.nodes, n ∈ c.registry.egraph.nodes
  constraints : ∀ q ∈ c'.solver.constraints, q ∈ c.solver.constraints

/-- What is left when a scope is closed was there before. -/
theorem shrinks_rollback (hw : w.Ok) : w.ctx.Shrinks w.ctx.rollback := by
  cases hs : w.ctx.scopes with
  | nil =>
    have hsame : w.ctx.rollback = w.ctx := by
      unfold Context.rollback
      rw [hs]
    rw [hsame]
    exact ⟨id, id, fun _ => id, fun _ => id⟩
  | cons a rest =>
    obtain ⟨hok, -, -, hback⟩ := Workspace.rollback_spec hw hs
    obtain ⟨m, hm, hdepth⟩ :=
      hw.ctx.exists_open (i := rest.length) (by rw [depth, hs]; exact Nat.lt_succ_self _)
    have hview := upTo_of_whole ((hback hm).2.2 hdepth) hok
    rw [(hback hm).1] at hview
    have hnodes : ∀ n ∈ w.ctx.rollback.registry.egraph.nodes, n ∈ w.ctx.registry.egraph.nodes :=
        fun n hn => by
      have hnodes : w.ctx.rollback.contents.nodes = (w.ctx.upTo m).egraph.1 := by rw [hview]
      have hmem : n ∈ (w.ctx.upTo m).egraph.1 := hnodes ▸ Array.mem_toList_iff.mpr hn
      exact Array.mem_toList_iff.mp (List.mem_of_mem_take hmem)
    refine ⟨fun {x v} hx => ?_, fun {t} ht => ?_, hnodes, fun q hq => ?_⟩
    · have hsubst : w.ctx.rollback.contents.subst = (w.ctx.upTo m).subst := by rw [hview]
      exact eq_some_of_upTo ((congrFun hsubst x).symm.trans hx)
    · rcases ht with ⟨v, hv⟩ | ⟨word, hword⟩ | ⟨n, hn, hterm⟩
      · have hvars : w.ctx.rollback.contents.vars = (w.ctx.upTo m).vars := by rw [hview]
        exact .inl ⟨v, eq_some_of_upTo ((congrFun hvars v).symm.trans hv)⟩
      · have hbits : w.ctx.rollback.contents.bits = (w.ctx.upTo m).bits := by rw [hview]
        exact .inr (.inl ⟨word, eq_some_of_upTo ((congrFun hbits t).symm.trans hword)⟩)
      · exact .inr (.inr ⟨n, hnodes n hn, hterm⟩)
    · have hconstraints : w.ctx.rollback.contents.constraints = (w.ctx.upTo m).quant.1 := by
        rw [hview]
      have hmem : q ∈ (w.ctx.upTo m).quant.1 := hconstraints ▸ Array.mem_toList_iff.mpr hq
      exact Array.mem_toList_iff.mp (List.mem_of_mem_take hmem)

/-- So what is left does not refer to eliminated constants. -/
theorem Eliminates.rollback (h : w.ctx.Eliminates w.store) (hw : w.Ok) :
    w.ctx.rollback.Eliminates w.store :=
  have hback := shrinks_rollback hw
  h.of_ctx hback.subst (fun ht => .inl (hback.encoded ht)) fun q hq => .inl (hback.constraints q hq)

end Context

namespace Workspace

variable {s : Store} {w w' : Workspace} {fixed : Prop}

/-! ## Between operations -/

/-- A context is kempt when it is tidy, and so is what is seen of it as of every open mark. -/
structure Kempt (w : Workspace) : Prop where
  tidy : w.Tidy
  marks : ∀ {m : Mark}, m.Open w.ctx → (w.ctx.upTo m).Closed w.store w.ctx.trueLit

theorem Kempt.linked (h : w.Kempt) : w.Linked := ⟨h.tidy.refers, h.marks⟩

theorem Kempt.grows (h : w.Kempt) (hg : Grows fixed w w') : w'.Kempt :=
  ⟨hg.tidy, h.linked.marks_of_keeps h.tidy.ok hg.keeps hg.truth⟩

/-- Options, status and stop request do not matter. -/
theorem Kempt.settings (h : w.Kempt) (options : Options) (status : Status) (interrupted : Bool) :
    Kempt ⟨w.store, { w.ctx with options, status, interrupted }⟩ :=
  ⟨⟨⟨h.tidy.ok.store, { h.tidy.ok.ctx with }⟩, { h.tidy.typed with }, { h.tidy.refers with },
    { h.tidy.gone with }⟩,
    fun hm => h.marks (hm.of_scopes rfl rfl rfl)⟩

theorem Kempt.openScope (h : w.Kempt) : Kempt ⟨w.store, w.ctx.openScope⟩ :=
  have hlinked := linked_openScope h.linked h.tidy.ok
  ⟨⟨⟨h.tidy.ok.store, (openScope_spec h.tidy.ok).1⟩, h.tidy.typed.openScope h.tidy.ok.ctx,
    hlinked.refers,
    h.tidy.gone.openScope h.tidy.ok.ctx⟩, hlinked.marks⟩

theorem Kempt.commit (h : w.Kempt) (hs : w.ctx.scopes ≠ []) : Kempt ⟨w.store, w.ctx.commit⟩ := by
  obtain ⟨a, rest, hs⟩ := List.exists_cons_of_ne_nil hs
  have hlinked := linked_commit h.linked h.tidy.ok hs
  have hregistry := h.tidy.ok.ctx.registry
  exact ⟨⟨⟨h.tidy.ok.store, (commit_spec h.tidy.ok hs).1⟩, h.tidy.typed.commit hregistry,
    hlinked.refers,
    h.tidy.gone.commit hregistry⟩, hlinked.marks⟩

theorem Kempt.rollback (h : w.Kempt) (hs : w.ctx.scopes ≠ []) :
    Kempt ⟨w.store, w.ctx.rollback⟩ := by
  obtain ⟨a, rest, hs⟩ := List.exists_cons_of_ne_nil hs
  have hlinked := linked_rollback h.linked h.tidy.ok hs
  exact ⟨⟨⟨h.tidy.ok.store, (rollback_spec h.tidy.ok hs).1⟩, h.tidy.typed.rollback h.tidy.ok,
    hlinked.refers,
    h.tidy.gone.rollback h.tidy.ok⟩, hlinked.marks⟩

/-- Others may change the store as long as they spare the roots of the context. -/
theorem Kempt.spares (h : w.Kempt) (hw : Workspace.Ok ⟨s, w.ctx⟩)
    (hs : w.store.Spares s w.ctx.roots) :
    Kempt ⟨s, w.ctx⟩ := by
  have hshape {v : Nat} {t : Term} (hv : w.ctx.vars.term? v = some t) :
      s.shape t = w.store.shape t := by
    obtain ⟨ty, hty⟩ := h.tidy.ok.ctx.live hv
    exact (hs t (mem_roots_of_term? hv) (Store.isValid_iff.mpr ⟨ty, hty⟩)).shape_eq
  refine ⟨⟨hw, h.tidy.typed.spares h.tidy.ok.ctx.registry hs, h.tidy.refers.of_shape hshape,
    h.tidy.gone.spares h.tidy.typed h.tidy.ok.ctx.registry hs⟩, fun hm => ?_⟩
  exact (h.marks hm).of_shape fun ht => hshape (term?_of_upTo ht)

theorem term?_blank (config : Config) (v : Nat) (t : Term) :
    (blank config).vars.term? v ≠ some t := by
  rw [Ne, Variables.term?_eq_some]
  simp [blank, Variables.empty, Variables.listen]

/-- The first variable is that of truth. -/
theorem term?_first (config : Config) {v : Nat} {t : Term} :
    ((blank config).atom .top).2.vars.term? v = some t ↔ v = ((blank config).atom .top).1.var ∧
    t = .top :=
  (term?_atom (ok_blank default config).vars .top).trans
    ⟨fun h => h.resolve_left (term?_blank config v t), .inr⟩

/-- A new context refers to the variable of truth only. -/
theorem kempt_new (hs : s.Wf) (config : Config) : Kempt ⟨s, .new config⟩ := by
  have hblank := ok_blank s config
  have hnone := term?_blank config
  let first := (blank config).atom .top
  have hterm {v : Nat} {t : Term} : first.2.vars.term? v = some t ↔ v = first.1.var ∧ t = .top :=
    term?_first config
  have hlive {v : Nat} : first.2.Live v ↔ v = first.1.var := by
    unfold Live
    simp [hterm]
  have hknown : first.2.known = [first.1.var] := by
    obtain ⟨-, hget, hsame | ⟨-, -, -, hheard⟩⟩ := hblank.vars.get .top
    · rw [hsame] at hget
      exact absurd hget (hnone _ _)
    · refine (known_get .top (blank config) hheard).trans ?_
      rw [show first.1.var = ((blank config).vars.get .top).1 from Literal.var_pos _]
      rfl
  have hempty {κ ν : Type} [BEq κ] [Hashable κ] [EquivBEq κ] [LawfulHashable κ] {k : κ} {v : ν}
      (h : (∅ : Std.HashMap κ ν)[k]? = some v) : False := by
    rw [Std.HashMap.getElem?_empty] at h
    cases h
  have hcore (vs : Nat → Prop) : (blank config).core.Over vs := by
    refine ⟨⟨fun {n cl} hn => ?_, fun u hu => ?_⟩, fun l hl => ?_, fun {v} hv => ?_⟩
    · cases (clause?_db (blank config) n).symm.trans hn
    · cases hu
    · exact absurd hl (Array.not_mem_empty l)
    · cases hv
  have hrefers : Refers s { first.2 with trueLit := first.1 } := {
    truth := hlive.mpr rfl
    lits := fun h => (hempty h).elim
    bits := fun h => (hempty h).elim
    core := hcore _
    egraph := .empty _
    atoms := fun h => (hempty h).elim
    nodup := hknown ▸ List.nodup_singleton _
    known := fun {v} => by
      show v ∈ first.2.known ↔ first.2.Live v
      rw [hknown, hlive, List.mem_singleton] }
  have hsync := hrefers.syncVars
  have hdb : Search.Database.Ok 0 (syncVars { first.2 with trueLit := first.1 }).core.db := by
    rw [show (syncVars { first.2 with trueLit := first.1 }).core.db = (blank config).core.db
      from db_foldl_ensureVar _ _]
    exact hblank.core
  have hnew : Refers s (.new config) :=
    { hsync with core := hsync.core.addClause hdb (List.forall_mem_singleton.mpr hsync.truth) 0 }
  have hdefined : ∀ x, ¬ (Context.new config).Eliminated x := fun x hx => hempty hx.choose_spec
  have hgone : Eliminates s (.new config) :=
    ⟨fun hx => absurd hx (hdefined _), fun _ _ hx => absurd ⟨_, hx⟩ (hdefined _),
      fun _ => hdefined _,
      fun q hq => absurd hq (Array.not_mem_empty q)⟩
  refine ⟨⟨ok_new hs config, typed_new hs config, hnew, hgone⟩, fun hm => ?_⟩
  cases hm.scope

/-! ## Operations -/

theorem kempt_clearSearch (h : w.Kempt) : Kempt ⟨w.store, w.ctx.clearSearch⟩ :=
  have hclear : Grows True w ⟨w.store, w.ctx.clearSearch⟩ := Work.grows_clearSearch h.tidy
  h.grows hclear

/-- The decisions that are excluded are on the trail. -/
theorem over_decisions (h : w.Kempt) :
    Search.Over w.ctx.Live (w.ctx.core.decisions.map (·.neg)) := by
  intro l hl
  obtain ⟨d, hd, rfl⟩ := List.mem_map.mp hl
  obtain ⟨i, -, hi⟩ := List.mem_filterMap.mp hd
  rw [Literal.var_neg]
  exact h.tidy.refers.core.trail d (Array.mem_of_getElem? hi)

theorem kempt_exclude (h : w.Kempt) :
    Kempt ⟨w.store, w.ctx.clearSearch.addClause (w.ctx.core.decisions.map (·.neg))⟩ := by
  have hclear : Grows True w ⟨w.store, w.ctx.clearSearch⟩ := Work.grows_clearSearch h.tidy
  have hadd : Leads (Grows True) _ (Work.clause (w.ctx.core.decisions.map (·.neg))) fun _ _ =>
      True :=
    Work.grows_clause hclear.tidy (hclear.overLive (over_decisions h))
  exact (h.grows hclear).grows hadd.moves

/-- Every operation leaves a context kempt, whether it is refused or not. -/
theorem lasting_kempt : Lasting Kempt where
  ok h := h.tidy.ok
  settings h := h.settings
  clearSearch := kempt_clearSearch
  openScope h := h.openScope
  commit h := h.commit
  rollback h := h.rollback
  exclude := kempt_exclude
  reset {w} h := (kempt_new h.tidy.ok.store w.ctx.config).settings w.ctx.options .idle
    w.ctx.interrupted
  assertAll h ts := h.grows (Work.grows_assertAll h.tidy ts).moves
  assertQuantifier h formula patterns :=
    h.grows (Work.grows_assertQuantifier h.tidy formula patterns).moves
  search h p stop fuel := h.grows (Work.grows_search h.tidy p stop fuel).moves

end Workspace

/-! ## Runs -/

/-- One step of the use of a context in a store that others use, too: an operation on it, refused or
not, or a change of the store that spares the terms that the context refers to. -/
inductive Turn : Workspace → Workspace → Prop where
  | act (a : Action) (w : Workspace) : Turn w (endState (a.run w))
  | store {w : Workspace} {s : Store} (hs : s.Wf) (h : w.store.Spares s w.ctx.roots) :
    Turn w ⟨s, w.ctx⟩

/-- A store with a context that was used in some way since it was made, its terms being spared. -/
def Used (w : Workspace) : Prop :=
  ∃ (s : Store) (config : Config), s.Wf ∧ Relation.ReflTransGen Turn ⟨s, .new config⟩ w

namespace Workspace

variable {w w' : Workspace}

/-- A term that is spared keeps its type. -/
theorem Turn.move (h : Turn w w') : Move w w' := by
  cases h with
  | act a => exact .act a w
  | store hs h => exact .store ⟨hs, fun ht hty => (h _ ht (Store.isValid_iff.mpr ⟨_, hty⟩)).has hty⟩

theorem kempt_turn (hturn : Turn w w') (h : w.Kempt) (hw : w.AtRest) : w'.Kempt := by
  have hrest := (survives_move (Turn.move hturn) hw).rest
  cases hturn with
  | act a => exact lasting_kempt.run a h
  | store hs hspares => exact h.spares hrest.ok hspares

theorem reachable_of_used (h : Used w) : Reachable w := by
  obtain ⟨s, config, hs, hrun⟩ := h
  exact ⟨s, config, hs, Relation.ReflTransGen.mono (fun _ _ => Turn.move) _ _ hrun⟩

/-- A context that was used in some way is kempt. -/
theorem kempt_of_used (h : Used w) : w.Kempt := by
  obtain ⟨s, config, hs, hrun⟩ := h
  induction hrun with
  | refl => exact kempt_new hs config
  | tail hrun hturn ih =>
    exact kempt_turn hturn ih (atRest_of_reachable (reachable_of_used ⟨s, config, hs, hrun⟩))

/-- Operations one after the other. -/
def after (w : Workspace) (actions : List Action) : Workspace :=
  actions.foldl (fun w a => endState (a.run w)) w

/-- The last of some operations. -/
theorem after_concat (w : Workspace) (actions : List Action) (a : Action) :
    after w (actions ++ [a]) = endState (a.run (after w actions)) := by
  unfold after
  rw [List.foldl_append, List.foldl_cons, List.foldl_nil]

/-- A new context is used by operations on it. -/
theorem used_after {s : Store} (hs : s.Wf) (config : Config) (actions : List Action) :
    Used (after ⟨s, .new config⟩ actions) := by
  refine ⟨s, config, hs, ?_⟩
  unfold after
  generalize (⟨s, .new config⟩ : Workspace) = w
  induction actions generalizing w with
  | nil => exact .refl
  | cons a actions ih => exact .head (.act a w) (ih (endState (a.run w)))

end Workspace
end Entail
