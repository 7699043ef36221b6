import Entail.Proofs.Context.Runs

/-!
# Terms of a context between operations

A context looks at a formula before it takes it in, and refuses what is no boolean term of the
store. So whatever is done with a context, the terms in its tables are in the store with the types
at which they are used.
-/

namespace Entail

namespace Context

variable {s : Store} {c : Context} {w : Workspace}

theorem typed_blank (hs : s.Wf) (config : Config) : (blank config).Typed s where
  assertions := nofun
  subst := Store.assigns_empty s
  eliminated h := by simp [blank] at h
  lits h := by simp [blank] at h
  bits h := by simp [blank] at h
  egraph := Egraph.typed_empty hs
  solver := Quant.Solver.typed_empty s

/-- A new context holds nothing of a wrong type. -/
theorem typed_new (hs : s.Wf) (config : Config) : (new config).Typed s :=
  { typed_blank hs config with }

/-- A formula that passes the look is a boolean term. -/
theorem has_of_validate {t : Term} (h : c.validate s t = .ok ()) : s.Has t .bool := by
  unfold validate at h
  obtain ⟨_, hbool, -⟩ := Store.bind_eq_ok_iff.mp h
  cases hcheck : s.checkBool t with
  | error e =>
    rw [hcheck] at hbool
    cases hbool
  | ok => exact Store.checkBool_eq_ok hcheck

namespace Typed

theorem clearSearch (h : c.Typed s) (hc : c.registry.Has c.solver) : c.clearSearch.Typed s := by
  unfold Context.clearSearch
  rw [Theory.Registry.backtrack_eq hc]
  exact { h with egraph := h.egraph.backtrack 0 }

theorem reopen (h : c.Typed s) (hc : c.registry.Has c.solver) : c.reopen.Typed s := by
  unfold Context.reopen
  split
  · exact { h.clearSearch hc with }
  · exact h

/-- A formula that is noted is boolean. -/
theorem note (h : c.Typed s) {t : Term} (ht : s.Has t .bool) : (c.note t).Typed s :=
  { h with
    assertions := fun u hu => by
      rcases Array.mem_push.mp (show u ∈ c.assertions.push t from hu) with hu | rfl
      · exact h.assertions u hu
      · exact ht }

/-- Opening a scope notes sizes, and no term. -/
theorem openScope (h : c.Typed s) (hc : c.Ok s) : c.openScope.Typed s := by
  rw [openScope_eq hc]
  exact { h with egraph := h.egraph.push, solver := h.solver.push }

theorem commit (h : c.Typed s) (hc : c.registry.Has c.solver) : c.commit.Typed s := by
  unfold Context.commit
  split
  · exact h
  · rw [Theory.Registry.mergeScope_eq hc]
    exact { h with egraph := h.egraph.mergeScope, solver := h.solver.mergeScope }

/-- What is left when a scope is closed was there before. -/
theorem rollback (h : w.ctx.Typed w.store) (hw : w.Ok) : w.ctx.rollback.Typed w.store := by
  cases hs : w.ctx.scopes with
  | nil =>
    have hsame : w.ctx.rollback = w.ctx := by
      unfold Context.rollback
      rw [hs]
    rwa [hsame]
  | cons a rest =>
    obtain ⟨vars, core, aux, lits, bits, heq, -, -, -, hlits, hbits, -, -⟩ :=
      Workspace.rollback_eq hw hs
    have old {κ ι ν : Type} [DecidableEq ι] {log : List ι} {count : Nat} {entry : κ → ι}
      {table : κ → Option ν} {k : κ}
        {v : ν} (hk : Entail.upTo log count entry table k = some v) : table k = some v := by
      unfold Entail.upTo at hk
      split at hk
      · cases hk
      · exact hk
    have hindexed : (w.ctx.registry.egraph.backtrack 0).Indexed :=
      (Egraph.SameNodes.adds (Egraph.sameNodes_backtrack _ 0) hw.ctx.nodes).indexed
    rw [heq]
    have hold {x v : Term} (hx : ((w.ctx.substLog.toList.drop a.substLog).foldl
      (fun m x => m.erase x)
        w.ctx.subst)[x]? = some v) : w.ctx.subst[x]? = some v := by
      rw [getElem?_foldl_erase] at hx
      split at hx
      · cases hx
      · exact hx
    refine ⟨fun t ht => ?_, fun x v hx => h.subst (hold hx), fun {x v} hx => h.eliminated (hold hx),
      fun {p l} hp => ?_,
      fun {t word} ht => ?_, ?_, ?_⟩
    · rw [← Array.mem_toList_iff, Workspace.toList_take] at ht
      exact h.assertions t (Array.mem_toList_iff.mp (List.mem_of_mem_take ht))
    · exact h.lits (old ((hlits p).symm.trans hp))
    · exact h.bits (old ((hbits t).symm.trans ht))
    · exact (h.egraph.backtrack 0).pop hindexed hw.ctx.nodesNested
    · exact h.solver.pop

end Typed

theorem typed_block (h : c.Typed s) (hc : c.registry.Has c.solver) {c' : Context}
    (hblock : c.block = .ok c') :
    c'.Typed s := by
  unfold block at hblock
  split at hblock
  · cases hblock
  · split at hblock
    · cases hblock
    · cases hblock
      exact { h.clearSearch hc with }

theorem typed_setOption (h : c.Typed s) {name : String} {on : Bool} {c' : Context}
    (hset : c.setOption name on = .ok c') : c'.Typed s := by
  obtain ⟨x, -, hset⟩ := Store.bind_eq_ok_iff.mp hset
  cases hset
  exact { h with }

theorem typed_push (h : w.ctx.Typed w.store) (hw : w.Ok) {c : Context}
    (hpush : w.ctx.push = .ok c) :
    c.Typed w.store := by
  have hcleared : Context.Typed w.store { w.ctx.clearSearch with status := .idle }.openScope :=
    Typed.openScope { h.clearSearch hw.ctx.registry with } (Workspace.keeps_clearSearch hw .idle).ok
  unfold Context.push at hpush
  split at hpush
  · cases hpush
  · split at hpush
    · cases hpush
    · cases hpush
    · cases hpush
    · cases hpush
      exact hcleared
    · cases hpush
      exact hcleared
    · cases hpush
      exact h.openScope hw.ctx

/-- Closing a scope leaves a prefix of each list, which is typed as it was. -/
theorem typed_pop (h : w.ctx.Typed w.store) (hw : w.Ok) {c : Context} (hpop : w.ctx.pop = .ok c) :
    c.Typed w.store := by
  obtain ⟨-, -, -, rfl⟩ := Workspace.pop_eq_ok hpop
  exact { h.rollback hw with }

/-- A search that is over leaves the typed lists alone, or takes those back from before it. -/
theorem typed_finish (h : w.ctx.Typed w.store) (hw : w.Ok) (interactive : Bool)
    (outcome : Except Failure Status) :
    (w.ctx.finish interactive outcome).Typed w.store := by
  have hclosed : Context.Typed w.store { w.ctx.rollback with status := .idle } :=
    { h.rollback hw with }
  unfold finish
  split
  · exact hclosed
  · exact hclosed
  · exact { h.clearSearch hw.ctx.registry with }
  · exact { h.commit hw.ctx.registry with }
  · exact { h with }

end Context

namespace Workspace

open Context

variable {s : Store} {w w' w'' : Workspace}

/-- The store was built upon, and the terms of the context are typed. -/
structure Continues (w w' : Workspace) : Prop where
  built : Store.Built w.store w'.store
  ok : w'.Ok
  typed : w'.ctx.Typed w'.store

theorem Continues.trans (h : Continues w w') (h' : Continues w' w'') : Continues w w'' :=
  ⟨Store.built_frame.trans h.built h'.built, h'.ok, h'.typed⟩

/-- The steps that continue a typed workspace compose. -/
theorem continues_frame : Frame (Since True s) Continues where
  refl h := ⟨Store.built_frame.refl h.ok.store, h.ok, h.typed trivial⟩
  trans := Continues.trans
  stable h h' := ⟨h'.ok, fun _ => h'.typed, h.ext.trans h'.built.later.ext⟩

/-- A typed step continues the workspace. -/
theorem TypedStep.continues (h : TypedStep True w w') : Continues w w' :=
  ⟨h.step.keeps.built, ⟨h.step.keeps.store.wf, h.step.keeps.ok⟩, h.typed trivial⟩

theorem continues_of_steps {α : Type} {op : Work α} (h : Work.Steps True s op) :
    Moves (Since True s) Continues op :=
  h.mono fun _ _ _ => TypedStep.continues

/-- A change of the context alone. -/
theorem continues_change {f : Context → Context}
    (h : ∀ w, Since True s w → Keeps w ⟨w.store, f w.ctx⟩ ∧ (f w.ctx).Typed w.store) :
    Moves (Since True s) Continues (Work.change f) := fun w hw =>
  ⟨(h w hw).1.built, ⟨hw.ok.store, (h w hw).1.ok⟩, (h w hw).2⟩

theorem continues_reopen : Moves (Since True s) Continues (Work.change (·.reopen)) := by
  refine continues_change fun w hw => ⟨?_, (hw.typed trivial).reopen hw.ok.ctx.registry⟩
  unfold reopen
  split
  · exact keeps_clearSearch hw.ok .idle
  · exact .refl hw.ok

theorem continues_settle : Moves (Since True s) Continues (Work.change (·.settle)) :=
  continues_change fun _ hw =>
    have hsync := step_syncVars hw.ok
    ⟨hsync.keeps.trans (keeps_status (step_frame.stable hw.ok hsync) _), { hw.typed trivial with }⟩

theorem continues_note {t : Term} (ht : s.Has t .bool) :
    Moves (Since True s) Continues (Work.change (·.note t)) :=
  continues_change fun _ hw => ⟨keeps_note hw.ok t, (hw.typed trivial).note (hw.ext.has ht)⟩

/-- All formulas are looked at before the first is taken in. -/
theorem continues_assertAll (ts : List Term) :
    Moves (Since True s) Continues (Work.assertAll ts) := by
  refine Work.moves_check_bind continues_frame.refl fun {w _} hw _ => ?_
  refine Work.moves_check_bind (P := (· = w)) (fun h => h ▸ continues_frame.refl hw)
    (fun {w _} h hvalid => ?_) w rfl
  subst h
  have hts : ∀ t ∈ ts, w.store.Has t .bool :=
    fun t ht => has_of_validate (Store.forM_eq_ok hvalid t ht)
  refine (?_ : Moves (Since True w.store) Continues _) w hw.here
  refine continues_frame.bind (continues_of_steps (Work.steps_look _)) fun status => ?_
  split
  · exact continues_frame.pure _
  refine continues_frame.bind continues_reopen fun _ => ?_
  refine continues_frame.bind (continues_frame.forM ts fun t ht => ?_) fun _ => continues_settle
  exact continues_frame.bind (continues_note (hts t ht)) fun _ =>
    continues_of_steps (Work.steps_process fun _ => hts t ht)

/-- Asserting a quantifier continues the workspace, also where it is refused. -/
theorem continues_assertQuantifier (formula : Term) (patterns : List Term) :
    Moves (Since True s) Continues (Work.assertQuantifier formula patterns) := by
  refine Work.moves_check_bind continues_frame.refl fun {w _} hw _ => ?_
  refine Work.moves_check_bind (P := (· = w)) (fun h => h ▸ continues_frame.refl hw)
    (fun {w _} h hvalid => ?_) w rfl
  subst h
  have hformula : w.store.Has formula .bool := has_of_validate hvalid
  refine (?_ : Moves (Since True w.store) Continues _) w hw.here
  have hquantified : Moves (Since True w.store) Continues (Work.checkQuantified formula) := by
    refine continues_frame.bind (continues_of_steps (Work.steps_look _)) fun shape => ?_
    split
    · exact continues_frame.throw _
    · exact continues_frame.pure _
  refine continues_frame.bind hquantified fun _ =>
    continues_frame.bind (continues_of_steps (Work.steps_look _)) fun status => ?_
  split
  · exact continues_frame.pure _
  refine continues_frame.bind continues_reopen fun _ => ?_
  refine continues_frame.bind' (continues_of_steps (Work.steps_look _)) fun w₁ σ w₂ hw₁ hlook _ =>
    ?_
  cases hlook
  -- the definitions put terms for terms of their types
  have hσ := (hw₁.typed trivial).subst
  refine (?_ : Moves (Since True w₁.store) Continues _) w₁ hw₁.here
  have hsubst (t : Term) : Moves Store.Wf Store.Built (Store.subst w₁.ctx.subst t) :=
    Store.builders_built.subst _ t
  refine continues_frame.bind' (continues_of_steps (Work.steps_onStore (hsubst formula)))
    fun w₂ t w₃ hw₂ hop hstep => ?_
  have hyields := Store.subst_yields hw₂.ok.store (hσ.extends_ hw₂.ext)
    (hw₂.ext.has (hw₁.ext.has hformula))
  have ht : w₃.store.Has t .bool := (hyields.builds.of_ok (Work.onStore_eq_ok hop).1).2
  have hw₃ := continues_frame.stable hw₂ hstep
  have hnoted : w₃.store.Has formula .bool := hw₃.ext.has (hw₁.ext.has hformula)
  refine (?_ : Moves (Since True w₃.store) Continues _) w₃ hw₃.here
  refine continues_frame.bind (continues_of_steps (Work.steps_look _)) fun shape => ?_
  split
  · refine continues_frame.bind (continues_note hnoted) fun _ => ?_
    exact continues_frame.bind (continues_of_steps (Work.steps_process fun _ => ht)) fun _ =>
      continues_settle
  · have hpatterns : Moves Store.Wf Store.Built (patterns.mapM (Store.subst w₁.ctx.subst)) :=
      Store.built_frame.mapM patterns fun p _ => hsubst p
    refine continues_frame.bind (continues_of_steps (Work.steps_onStore hpatterns)) fun patterns =>
      ?_
    refine continues_frame.bind (continues_of_steps (Work.steps_addConstraint t patterns)) fun _ =>
      ?_
    exact continues_frame.bind (continues_note hnoted) fun _ => continues_settle

/-- A search continues the workspace, whatever stops it. -/
theorem continues_searching (hw : Since True s w) (interactive : Bool)
    (hs : interactive = true → w.ctx.scopes ≠ []) (p : Params) (stop : StopRequest) (fuel : Nat) :
    Continues w (endState ((do
      Work.change (searching stop)
      let outcome ← Work.attempt (Work.search p stop fuel)
      Work.change (·.finish interactive outcome)
      Work.check fun _ _ => outcome : Work Status) w)) := by
  have hsurvives := survives_searching hw.ok interactive hs p stop fuel
  obtain ⟨outcome, hend, -⟩ := endState_searching interactive p stop fuel w
  have hstart := keeps_searching hw.ok stop
  have hsince : Since True w.store ⟨w.store, searching stop w.ctx⟩ :=
    ⟨⟨hw.ok.store, hstart.ok⟩, fun _ => { hw.typed trivial with }, .refl _⟩
  have hsearch := (Work.steps_search p stop fuel _ hsince).continues
  rw [hend] at hsurvives ⊢
  exact ⟨Store.built_frame.trans hstart.built hsearch.built, hsurvives.rest.ok,
    typed_finish hsearch.typed hsearch.ok interactive outcome⟩

/-- A check may open a scope for its search, and closes it at its end. -/
theorem continues_checkSat (p : Params) (stop : StopRequest) (fuel : Nat) :
    Moves (Since True s) Continues (Work.checkSat p stop fuel) := by
  intro w hw
  unfold Work.checkSat
  rw [bind_of_ok (rfl : Work.look _ w = .ok w.ctx.status w)]
  cases w.ctx.status with
  | idle =>
    refine Work.moves_check_bind (P := (· = w)) (fun h => h ▸ continues_frame.refl hw)
      (fun {w _} h _ => ?_) w rfl
    subst h
    rw [bind_of_ok (rfl : Work.look _ w = .ok (w.ctx.config.mode == .interactive) w)]
    cases w.ctx.config.mode == .interactive with
    | true =>
      have hopen : Continues w ⟨w.store, w.ctx.openScope⟩ :=
        ⟨Store.built_frame.refl hw.ok.store, ⟨hw.ok.store, (openScope_spec hw.ok).1⟩,
          (hw.typed trivial).openScope hw.ok.ctx⟩
      have hw' := continues_frame.stable hw hopen
      exact hopen.trans (continues_searching hw' true nofun p stop fuel)
    | false => exact continues_searching hw false nofun p stop fuel
  | _ => exact continues_frame.refl hw

/-- An operation that may be refused leaves the store alone. -/
theorem continues_replace (hw : w.Ok) (ht : w.ctx.Typed w.store)
    (f : Context → Except Failure Context) (hok : Workspace.Ok (endState (Work.replace f w)))
    (h : ∀ c, f w.ctx = .ok c → c.Typed w.store) :
    Continues w (endState (Work.replace f w)) := by
  unfold Work.replace at hok ⊢
  simp only at hok ⊢
  cases hf : f w.ctx with
  | ok c =>
    rw [hf] at hok
    exact ⟨Store.built_frame.refl hw.store, hok, h c hf⟩
  | error e => exact ⟨Store.built_frame.refl hw.store, hw, ht⟩

/-- Whatever is done with a context, the terms in its tables are in the store, with the types at
which they are used. -/
theorem continues_run (a : Action) (hw : w.AtRest) (ht : w.ctx.Typed w.store) :
    Continues w (endState (a.run w)) := by
  have hsince : Since True w.store w := ⟨hw.ok, fun _ => ht, .refl _⟩
  have hok := (survives_run a w hw).rest.ok
  cases a with
  | assert ts => exact continues_assertAll ts w hsince
  | assertQuantifier formula patterns => exact continues_assertQuantifier formula patterns w hsince
  | check p stop fuel =>
    exact continues_frame.bind (continues_checkSat p stop fuel)
      (fun _ => continues_frame.pure _) w hsince
  | block => exact continues_replace hw.ok ht _ hok fun _ => typed_block ht hw.ok.ctx.registry
  | setOption name on =>
    exact continues_replace hw.ok ht (·.setOption name on) hok fun _ => typed_setOption ht
  | stop =>
    refine continues_replace hw.ok ht (fun c => .ok c.stop) hok fun c hc => ?_
    cases hc
    exact { ht with }
  | push => exact continues_replace hw.ok ht _ hok fun _ => typed_push ht hw.ok
  | pop => exact continues_replace hw.ok ht _ hok fun _ => typed_pop ht hw.ok
  | reset =>
    refine continues_replace hw.ok ht (fun c => .ok c.reset) hok fun c hc => ?_
    cases hc
    exact { typed_new hw.ok.store w.ctx.config with }

end Workspace
end Entail
