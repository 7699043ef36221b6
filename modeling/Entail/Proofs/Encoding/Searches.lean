import Entail.Proofs.Context.Termination
import Entail.Proofs.Encoding.Allows

/-!
# Searches convey what was asserted

A search learns clauses that hold in all assignments that are allowed, and it asserts instances of
constraints that are true where the constraints are. So what warranted the clauses before a search
warrants them after it; and when the search ends because no assignment is allowed, nothing
warranted them.
-/

namespace Entail

open Search Context

/-! ## Instances -/

namespace Structure

variable {M : Structure} {s : Store} {ρ : M.Env} {t r body : Term} {vars : List Term}
  {ty : Ty} {σ : Subst}

/-- A quantifier is true when its body is true for all values of its variables. -/
theorem holds_all (hs : s.Wf) (hM : M.Fits s) (hρ : M.EnvFits s ρ)
    (hn : s.node? t = some (.all vars body, ty)) (hpos : t.isNegated = false) : M.Holds s ρ t ↔
      ∀ xs : M.Env, (∀ v ∈ vars, (xs v).Inhabits s (s.ty v)) →
      M.Holds s (rebind ρ vars xs) body := by
  obtain ⟨rfl, -, -, hbody⟩ := hs.typed hn
  rw [holds_iff hs hM hρ ⟨⟨_, hn⟩, by simp⟩, value_of_node hs hn hpos, node, Val.toBool_ofProp]
  exact forall₂_congr fun xs hxs => (holds_iff hs hM (hρ.rebind hxs) hbody).symm

/-- An instance is true where the quantifier is. -/
theorem holds_instance (hs : s.Wf) (hM : M.Fits s) (hρ : M.EnvFits s ρ) (hσ : s.SubstOk σ)
    (hb : s.Becomes σ body r)
    (hn : s.node? t = some (.all vars body, ty)) (hpos : t.isNegated = false)
    (hkeys : ∀ x, x ∈ vars ↔ ∃ v : Term, σ[x]? = some v) (ht : M.Holds s ρ t) : M.Holds s ρ r := by
  have hrebind : rebind ρ vars (M.under s σ ρ) = M.under s σ ρ := by
    funext x
    unfold rebind
    split
    · rfl
    next hx =>
      cases hv : σ[x]? with
      | none => exact (under_of_none hv).symm
      | some v => exact absurd ((hkeys x).mpr ⟨v, hv⟩) hx
  have hbody := (holds_all hs hM hρ hn hpos).mp ht (M.under s σ ρ) fun x hx => ?_
  · rw [Holds, value_of_becomes hs hM hb hσ.assigns hσ.keysAtoms
      (Store.not_captures hs fun x v hx => ?_) hρ, ← hrebind]
    · exact hbody
    · obtain ⟨-, _, _, -, -, hfirst, -⟩ := hσ hx
      exact hfirst
  · obtain ⟨v, hv⟩ := (hkeys x).mp hx
    obtain ⟨hneg, ty, n, hn, hty, -⟩ := hσ hv
    have hx : s.ty x = ty := by rcases hn with hn | hn <;> simp [Store.ty, hn]
    rw [under_of_some hv, hx]
    exact value_inhabits hs hM hρ hty

end Structure

namespace Quant.Solver

variable {s s' : Store} {X : Term → Prop} {σ : Subst} {c : Constraint} {t : Term}

/-- What an instance of a plain constraint is made of, when plain terms are put for the
variables. -/
theorem Made.plain (hmade : Made s s' σ c.body t) (hs : s.Wf) (hX : s.HasConstants X)
    (hσ : s.SubstOk σ) (hvalues : ∀ x v : Term, σ[x]? = some v → s.Avoids X v) (hc : c.Typed s)
    (hplain : s.Plain X c.formula) (hkeys : ∀ x, x ∈ c.vars ↔ ∃ v : Term, σ[x]? = some v) :
    Store.Later s s' ∧ s'.SubstOk σ ∧ s'.Plain X t ∧ s'.Becomes σ c.body t := by
  obtain ⟨s₁, s₂, h₁, hsubst, h₂⟩ := hmade
  have hn := hc.formula.node
  rw [hc.shape] at hn
  obtain ⟨-, -, -, hbody⟩ := hs.typed hn
  have hlater := h₁.later
  have hσ₁ := hσ.later hs hlater
  obtain ⟨hlater', hplain', hb⟩ :=
    (Store.subst_plain hlater.wf (Store.retains_frame.stable hX hlater.retains) hσ₁
    (fun x v hx => (hvalues x v hx).retains hlater.retains) (hlater.ext.has hbody)
    ((hplain.avoids.child hn (by simp [Term.Shape.children])).retains hlater.retains)
      (fun v hv => (hkeys v).mp hv)
    ((List.append_nil c.vars ▸ hplain.first.body hn).extends_ hs hlater.ext)).of_ok hsubst
  have hσ₂ := hσ₁.later hlater.wf hlater'
  have hlater₂ := h₂.later
  refine ⟨Store.later_frame.trans hlater (Store.later_frame.trans hlater' hlater₂),
    hσ₂.later hlater'.wf hlater₂, ?_,
    hb.later hlater'.wf hσ₂.assigns hlater₂⟩
  exact ⟨hplain'.avoids.retains hlater₂.retains, hplain'.first.extends_ hlater'.wf hlater₂.ext⟩

end Quant.Solver

namespace Workspace

variable {w w' w'' : Workspace} {t u : Term}

theorem Conveys.truths (h : Conveys t w w') (hw : w.Truths) : w'.Truths :=
  hw.trans h.amends.grows.binds.nodes

/-- What a context holds anyway may be asserted after some steps. -/
theorem Conveys.followed (h : Conveys t w w') (h' : Conveys u w' w'') (hu : w.store.Has u .bool)
    (himp : ∀ {M : Structure} {ρ : M.Env} {defs}, M.Fits w.store → M.EnvFits w.store ρ →
      w.ctx.now.Warranted w.store defs M ρ → M.Holds w.store ρ u) : Conveys t w w'' := by
  refine h'.preceded h.start h.amends h.aux (fun {defs} hdefs => ?_) h.complete
  obtain ⟨defs', hdefs', hsound⟩ := h.sound hdefs
  refine ⟨defs', hdefs', fun {M ρ} hM hρ hwarranted ht => ?_⟩
  have hbefore := himp (hM.of_extends h.start.wf h.later.ext)
    (hρ.of_extends h.start.wf h.later.ext) hwarranted
  obtain ⟨ρ', hρ', hsame, hwarranted'⟩ := hsound hM hρ hwarranted ht
  exact ⟨ρ', hρ', hsame, hwarranted',
    (Structure.value_later h.start.wf h.later hu hsame).trans hbefore⟩

/-- Definitions, nodes and constraints stay, and the clauses say no more than before. -/
theorem Carrying.conveys_same (hw : w.Carrying t) (hg : Grows False w w') (hr : Retains w w')
    (hsubst : w'.ctx.subst = w.ctx.subst)
    (hnodes : w'.ctx.registry.egraph.nodes = w.ctx.registry.egraph.nodes)
    (hconstraints : w'.ctx.solver.constraints = w.ctx.solver.constraints)
    (hclauses : ∀ {defs}, w.ctx.now.Exact w.store w.ctx.trueLit defs →
      ∀ {M : Structure} {ρ : M.Env} {a}, M.Fits w'.store →
      M.EnvFits w'.store ρ → w.ctx.now.Warranted w'.store defs M ρ → Meets a defs →
        w.ctx.now.Follows w'.store a (M.atoms w'.store ρ) → w'.ctx.now.clauses.Models a) : Conveys
          t w w' := by
  have hvalues {x v : Term} (hx : w'.ctx.now.subst x = some v) : w.ctx.now.subst x = some v :=
    (congrArg (·[x]?) hsubst).symm.trans hx
  have hformulas {q : Quant.Constraint} (hq : q ∈ w'.ctx.now.quant.1) : q ∈ w.ctx.now.quant.1 :=
    (congrArg (q ∈ ·.toList) hconstraints).mp hq
  refine hw.conveys hg hr (fun {x v} hx => (congrArg (·[x]?) hsubst).trans hx) ?_
      fun {defs} hexact {M ρ} hM hρ h _ =>
    ⟨fun hx => h.defined (hvalues hx), fun q hq => h.formulas q (hformulas hq), fun ha hA => ?_⟩
  · refine hw.hides.later hw.wf hg.keeps.store (fun hp => .inl (hr.aux ▸ hp))
      (fun hx => .inl (hvalues hx)) (fun n hn => .inl ?_)
      fun q hq => .inl (hformulas hq)
    exact (congrArg (n ∈ ·.toList) hnodes).mp hn
  · exact hclauses hexact hM hρ h ha (hA.congr (fun _ => rfl) (fun hx => hr.vars ▸ hx) fun _ hp =>
      hr.aux ▸ hp)

/-- Clauses may be learned that hold in all assignments that are allowed. -/
theorem Carrying.conveys_shift (hw : w.Carrying t) (hable : w.Able) (htruths : w.Truths)
    (hg : Grows False w w') (hr : Retains w w') (h : Rearranges w w')
    (hmodels : ∀ a, w.ctx.Allows a → w'.ctx.core.db.Models a) : Conveys t w w' := by
  refine hw.conveys_same hg hr h.ctx.subst h.ctx.nodes h.ctx.constraints
    fun {_} hexact {M ρ a} hM hρ hwarranted ha hA => ?_
  rw [h.store] at hM hρ hwarranted hA
  exact Database.all_models.mpr (hmodels _ (hw.allows hexact hM hρ ha hA hable htruths hwarranted))

/-- The formula is true where the constraints are. -/
def Demands (w : Workspace) (t : Term) : Prop :=
  ∀ ⦃M : Structure⦄ ⦃ρ : M.Env⦄, M.Fits w.store → M.EnvFits w.store ρ →
  (∀ q ∈ w.ctx.now.quant.1, M.Holds w.store ρ q.formula) → M.Holds w.store ρ t

/-- A closed formula that constraints demand, and in which no output of a gate occurs. -/
structure Due (w : Workspace) (t : Term) : Prop where
  has : w.store.Has t .bool
  supported : w.store.Supported [] t
  plain : w.Ungated t
  demanded : w.Demands t

/-- Between two steps of a search that conveys what was asserted. -/
structure Seeking (w : Workspace) : Prop where
  pursuing : w.Pursuing
  carrying : w.Carrying .top
  truths : w.Truths
  positive : ∀ c ∈ w.ctx.solver.constraints, c.formula.isNegated = false

theorem Seeking.conveys (h : w.Seeking) (hc : Conveys .top w w') (hr : Registers w w')
    (hp : w'.Pursuing) : w'.Seeking :=
  ⟨hp, hc.carrying h.carrying, hc.truths h.truths, fun c hmem => (hr.constraints c hmem).elim
    (h.positive c) id⟩

end Workspace

namespace Work

open Workspace

variable {w w' : Workspace} {p : Params} {stop : StopRequest} {n : Nat} {formulas : List Term}

/-! ## Up to a complete assignment -/

/-- Every allowed assignment still satisfies the clauses. -/
theorem models_approach {q : Quant.Solver} (hq : w.ctx.registry.Has q) (hp : p.validate = .ok ())
    (stop : StopRequest) (n : Nat) (h : w.ctx.Ongoing) :
    Ends (approach p stop n) w (fun _ w' => ∀ a, w.ctx.Allows a → w'.ctx.core.db.Models a) fun _ =>
      False := by
  by_cases hseen : stop = .atStep n ∨ w.ctx.interrupted = true
  · refine ends_change_bind (ends_look_bind ?_)
    have hafter : (if stop = .atStep n then w.ctx.stop else w.ctx).interrupted = true := by
      split
      · rfl
      next hstop => exact hseen.resolve_left hstop
    rw [if_pos hafter]
    refine Ends.pure fun a ha => ?_
    split
    · exact ha.models
    · exact ha.models
  · refine (pursues_approach hq hp stop n h).mono (fun outcome w' ho => ?_) fun _ => id
    cases ho with
    | stopped hstop => exact absurd hstop hseen
    | refuted hno => exact fun a ha => (hno a ha).elim
    | on _ hupholds | complete _ hupholds => exact fun a ha => ((hupholds.allows a).mpr ha).models

/-- A search goes on until the assignment is complete, or it finds that no assignment is allowed. -/
theorem conveys_approach (h : w.Seeking) (hp : p.validate = .ok ()) (stop : StopRequest) (n : Nat) :
    Ends (approach p stop n) w (fun outcome w' => Conveys .top w w' ∧
      (outcome = some (some .unsat) → w.Refuted w'.store) ∧
      w.ctx.Approaches stop n outcome w'.ctx) fun _ => False := by
  have hable := h.pursuing.able
  have hregistry := hable.tidy.ok.ctx.registry
  have happroach := pursues_approach hregistry hp stop n h.pursuing.ongoing
  have hmodels := models_approach hregistry hp stop n h.pursuing.ongoing
  have hmaintains := maintains_approach hable p stop n
  have hshifts := shifts_approach ⟨_, hregistry⟩ p stop n
  have hretains := spares_approach p stop n w hable.tidy.ok.ctx.core
  unfold Ends at happroach hmodels ⊢
  cases hrun : approach p stop n w with
  | error e w' =>
    rw [hrun] at happroach
    exact happroach
  | ok outcome w' =>
    rw [hrun] at happroach hmodels hretains
    have hm := (hmaintains.of_ok hrun).1
    have hconveys := h.carrying.conveys_shift hable h.truths hm.grows hretains
      (hshifts.of_ok hrun).1 hmodels
    refine ⟨hconveys, fun hunsat => ?_, happroach⟩
    subst hunsat
    cases happroach with
    | refuted hno => exact h.carrying.refuted hable h.truths hconveys.later hno

/-! ## Looks at a complete assignment -/

/-- A look conveys what was asserted, and the constraints demand what it adds. -/
theorem conveys_finalCheck (h : w.Seeking) {x : FinalCheck × Theory.Output}
    (hfinal : finalCheck stop n w = .ok x w') :
    Conveys .top w w' ∧ ∀ t ∈ x.2.formulas, w'.Due t := by
  have hable := h.pursuing.able
  have htidy := hable.tidy
  have hregistry := htidy.ok.ctx.registry
  obtain ⟨hm, -, hformulas⟩ := (maintains_finalCheck hable stop n).of_ok hfinal
  have hretains := spares_finalCheck stop n w htidy.ok.ctx.core
  rw [hfinal] at hretains
  change w.Retains w' at hretains
  obtain ⟨-, -, -, interrupted, hctx, hegraph⟩ := finalCheck_eq_ok hregistry hfinal
  obtain ⟨-, hstretch, -⟩ := looks_of_finalCheck htidy hfinal
  have hconstraints : w'.ctx.solver.constraints = w.ctx.solver.constraints :=
    hstretch.gains.constraints
  have hcore : w'.ctx.core = w.ctx.core := by rw [hctx]
  refine ⟨h.carrying.conveys_same hm.grows hretains (by rw [hctx]) (congrArg _ hegraph) hconstraints
    fun {_} _ {M ρ a} _ _ hwarranted ha hA => ?_, fun t ht => ?_⟩
  · have hmodels := hwarranted.clauses ha hA
    rwa [show w'.ctx.now.clauses = w.ctx.now.clauses from congrArg (·.db.all) hcore]
  obtain ⟨c, b, σ, ⟨hc, -, hb⟩, hσ, hmade⟩ := hstretch.made t ht
  have hfits : Quant.Fits w.store w.ctx.registry.egraph c.vars b :=
    Quant.matchAll_fits htidy.ok.store htidy.typed.egraph _ b hb
  have hlen := Quant.length_of_matchAll htidy.ok.store htidy.typed.egraph _ b hb
  have hfills := Quant.Solver.fills_of_replacement? htidy.typed.egraph hfits hlen hσ
  have hopens := Quant.Solver.replacement?_opens ⟨htidy.ok.store, hable.regular, htidy.typed.egraph,
    hable.ctx.nodes⟩
    (hable.ctx.constraints c hc).1 hfits hlen hσ
  have hnode {x v : Term} (hx : σ[x]? = some v) : w.Ungated v := by
    obtain ⟨_, m, -, hm, rfl⟩ := hfills.terms hx
    exact h.carrying.hides.nodes m (Array.mem_toList_iff.mpr (Array.mem_of_getElem? hm))
  have htyped := htidy.typed.solver.constraints c hc
  have hn := htyped.formula.node
  rw [htyped.shape] at hn
  have hok : w.store.SubstOk σ := by
    intro x v hx
    obtain ⟨tx, m, hxt, hvt, hty, -⟩ := hopens.terms hx
    obtain ⟨hneg, ty, n, hvar⟩ := (htidy.ok.store.typed hn).2.2.1 x ((hfills.keys x).mpr ⟨v, hx⟩)
    obtain rfl := hxt.unique (⟨⟨_, hvar⟩, by simp [hneg]⟩ : w.store.Has x ty)
    exact ⟨hneg, _, n, .inr hvar, hvt, (hnode hx).first, by simp [Store.isFunctionTy, hty]⟩
  have hmem : c ∈ w.ctx.now.quant.1 := Array.mem_toList_iff.mpr hc
  obtain ⟨hlater, hok', hplain, hbecomes⟩ :=
    hmade.plain htidy.ok.store h.carrying.masks.constants hok
    (fun x v hx => (hnode hx).avoids) htyped (h.carrying.hides.formulas c hmem) hfills.keys
  refine ⟨(hformulas t ht).1, (hformulas t ht).2, ?_, fun M ρ hM hρ htrue => ?_⟩
  · rw [Ungated, hretains.aux]
    exact hplain
  · refine Structure.holds_instance hlater.wf hM hρ hok' hbecomes (hlater.ext.node hn)
      (h.positive c hc) hfills.keys ?_
    exact htrue c ((congrArg (c ∈ ·.toList) hconstraints).mpr hmem)

/-! ## Instances -/

/-- What constraints demand is processed, formula by formula. -/
theorem conveys_instances (h : Conveys .top w w') (hw : w.Carrying .top) (hable : w.Able)
    (hm : w.Maintains w') (hformulas : ∀ t ∈ formulas, w.Due t) :
    Leads (fun _ => Conveys .top w) w' (formulas.forM process) fun _ w'' => w.Maintains w'' := by
  induction formulas generalizing w' with
  | nil => exact ⟨h, hm⟩
  | cons t formulas ih =>
    obtain ⟨ht, hrest⟩ := List.forall_mem_cons.mp hformulas
    have hable' := maintains_frame.stable hable hm
    have hext := hm.grows.keeps.store.ext
    have hcarrying : w'.Carrying t := h.carrying ⟨hw.described, hw.hides, ht.has, ht.plain⟩
    have hass : w'.store.Assertable (w'.ctx.isOn .flatten) t := .body (ht.supported.later hext)
    have hprocess := (conveys_process hcarrying hable'.ctx hable'.regular hass).noting
      (maintains_process hable' hcarrying.has hass).leads
    show Leads (fun _ => Conveys .top w) w' (process t >>= fun _ => formulas.forM process) _
    have hfollowed {w'' : Workspace} (h' : Conveys t w' w'') : Conveys .top w w'' :=
      h.followed h' ht.has fun hM hρ hwarranted => ht.demanded hM hρ hwarranted.formulas
    refine Ends.bind (Ends.mono hprocess (fun _ w'' ⟨h', _, hm', _⟩ => ?_) fun _ => hfollowed)
    exact ih (hfollowed h') (maintains_frame.trans hm hm') hrest

/-- Instances are asserted at level 0. -/
theorem conveys_assertInstances (h : w.Seeking) (hformulas : ∀ t ∈ formulas, w.Due t) :
    Leads (Conveys .top) w (assertInstances formulas) fun _ _ => True := by
  have hable := h.pursuing.able
  have hdb : (w.ctx.core.backtrack 0).db = w.ctx.core.db := Core.db_backtrack _ 0
  let w₁ : Workspace :=
    ⟨w.store, { w.ctx with core := w.ctx.core.backtrack 0, registry := w.ctx.registry.backtrack 0 }⟩
  have hgrows : Grows False w w₁ := by
    refine grows_withBacktrack hable.tidy ?_ (hable.tidy.refers.core.backtrack 0) 0
    rw [hdb]
    exact .refl hable.tidy.ok.ctx.core
  have hback : w.Rearranges w₁ := rearranges_backtrack ⟨_, hable.tidy.ok.ctx.registry⟩ _ _
  have hfirst : Conveys .top w w₁ :=
    h.carrying.conveys_shift hable h.truths hgrows (retains_withCore h.carrying.described hdb _)
    hback fun a ha => by
      show (w.ctx.core.backtrack 0).db.Models a
      rw [hdb]
      exact ha.models
  have hable₁ : w₁.Able := maintains_frame.stable hable (hable.rearranges hgrows hback)
  have hw₁ := hfirst.carrying h.carrying
  have hdue : ∀ t ∈ formulas, w₁.Due t := fun t ht => by
    have h := hformulas t ht
    refine ⟨h.has, h.supported, h.plain, fun M ρ hM hρ htrue => h.demanded hM hρ
      fun q hq => htrue q ?_⟩
    exact (congrArg (q ∈ ·.toList) hback.ctx.constraints).mpr hq
  have hinstances := conveys_instances (conveys_frame.refl hw₁) hw₁ hable₁
    (maintains_frame.refl hable₁) hdue
  have hfrom {w'' : Workspace} (h' : Conveys .top w₁ w'') : Conveys .top w w'' :=
    conveys_frame.trans hfirst h'
  refine ends_change_bind (Ends.bind (Ends.mono hinstances (fun _ w₂ ⟨h₂, hm₂⟩ => ?_)
    fun _ => hfrom))
  have hable₂ := maintains_frame.stable hable₁ hm₂
  have hw₂ := h₂.carrying hw₁
  have hsync : Conveys .top w₂ ⟨w₂.store, w₂.ctx.syncVars⟩ := by
    refine hw₂.conveys_shift hable₂ (h₂.truths (hfirst.truths h.truths))
      (grows_syncVars hable₂.tidy)
      (retains_syncVars hw₂.described) ⟨rfl, ⟨rfl, rfl, rfl, rfl⟩, _, hable₂.tidy.ok.ctx.registry⟩
        fun a ha => ?_
    rw [show w₂.ctx.syncVars.core.db = w₂.ctx.core.db from db_foldl_ensureVar _ _]
    exact ha.models
  exact ends_change_bind ⟨hfrom (conveys_frame.trans h₂ hsync), trivial⟩

/-- No assignment is allowed where there is a contradiction at level 0. -/
theorem not_allows_of_rootConflict (horderly : w.ctx.core.state.Orderly)
    (h : w.ctx.core.hasRootConflict = true) (a : Nat → Bool) :
    ¬ w.ctx.Allows a := by
  intro ha
  rcases Bool.or_eq_true_iff.mp h with hconflict | hempty
  · exact horderly.refuted hconflict a ha.models
  · rw [show w.ctx.core.emptyClause = none from ha.models.empty] at hempty
    cases hempty

/-- When the search cannot go on with some instances, what was asserted is contradictory. -/
theorem seeks_assertInstances (h : w.Seeking) (hformulas : ∀ t ∈ formulas, w.Due t) :
    Leads (Conveys .top) w (assertInstances formulas) fun go w' =>
      go = false → w.Refuted w'.store := by
  have hmaintains := (maintains_assertInstances h.pursuing.able fun t ht =>
    ⟨(hformulas t ht).has, (hformulas t ht).supported⟩).leads
  have hknown := Ends.both (conveys_assertInstances h hformulas)
    (Ends.both hmaintains (edits_assertInstances formulas w))
  refine Ends.mono hknown (fun go w' ⟨⟨hc, _⟩, ⟨hm, _⟩, hedits⟩ => ⟨hc, fun hstop => ?_⟩) fun _ h =>
    h.1
  obtain ⟨w₁, hedits, rfl, rfl⟩ := hedits
  have hable := maintains_frame.stable h.pursuing.able hm
  have hbased : (w.ctx.core.backtrack 0).state.Orderly :=
    Core.state_backtrack w.ctx.core 0 ▸ (h.pursuing.ongoing.going.back 0).orderly
  have hstarts : (w.ctx.core.backtrack 0).state.starts = [] :=
    Core.state_backtrack w.ctx.core 0 ▸ Core.starts_back_zero _
  have hgathers := hedits.gathers hbased hstarts
  have horderly := (gathers_syncVars hgathers.core.orderly hgathers.core.starts).core.orderly
  have hrefuted := (hc.carrying h.carrying).refuted hable (hc.truths h.truths)
    (Store.later_frame.refl hc.later.wf)
    (not_allows_of_rootConflict horderly ((Bool.not_eq_false' _).mp hstop))
  exact hc.refuted (Store.later_frame.refl hc.later.wf) hrefuted

/-! ## Steps -/

/-- What is refuted by the rest of an operation was so before. -/
theorem conveys_rest {α : Type} {op : Work α} {P : α → Prop} (h : Conveys .top w w')
    (hop : Leads (Conveys .top) w' op fun a w'' => P a → w'.Refuted w''.store) :
    Leads (fun _ => Conveys .top w) w' op fun a w'' => P a → w.Refuted w''.store := by
  refine Ends.mono hop (fun a w'' ⟨h', hrefuted⟩ => ⟨conveys_frame.trans h h', fun ha => ?_⟩)
    fun _ => conveys_frame.trans h
  exact h.refuted h'.later (hrefuted ha)

/-- A complete assignment ends the search, or instances are asserted. -/
theorem conveys_conclude (h : w.Seeking) (hcomplete : w.ctx.Complete) (stop : StopRequest)
    (n : Nat) :
    Leads (Conveys .top) w (conclude stop n) fun status w' => status = some .unsat →
    w.Refuted w'.store := by
  obtain ⟨x, w₁, hfinal⟩ : ∃ x w₁, finalCheck stop n w = .ok x w₁ := ⟨_, _, rfl⟩
  have hregistry := h.pursuing.able.tidy.ok.ctx.registry
  obtain ⟨hm, -, -⟩ := (maintains_finalCheck h.pursuing.able stop n).of_ok hfinal
  obtain ⟨-, -, hconflict, interrupted, hctx, hegraph⟩ := finalCheck_eq_ok hregistry hfinal
  obtain ⟨hfirst, hdue⟩ := conveys_finalCheck h hfinal
  have hcore : w₁.ctx.core = w.ctx.core := by rw [hctx]
  have hongoing : w₁.ctx.Ongoing := by
    refine ⟨hcore ▸ hcomplete.ongoing.going, hcore ▸ hcomplete.ongoing.paced, ?_⟩
    rw [hcore, hegraph]
    exact hcomplete.ongoing.tracks
  have haffirms := affirms_finalCheck stop n w hregistry
  rw [hfinal] at haffirms
  have h₁ := h.conveys hfirst haffirms (h.pursuing.maintains hm hongoing)
  have hw₁ := h₁.carrying
  have hrespond : Leads (Conveys .top) w₁ (respond x.1 x.2) fun status w' => status = some .unsat →
      w₁.Refuted w'.store := by
    unfold respond
    refine leads_look_bind ?_
    split
    · exact Leads.pure conveys_frame hw₁ fun hunsat => by cases hunsat
    rw [hconflict]
    dsimp only
    split
    · refine Ends.bind (Ends.mono (seeks_assertInstances h₁ hdue) (fun go w₂ ⟨h₂, hgo⟩ => ?_)
        fun _ => id)
      cases go with
      | true => exact ⟨h₂, fun hunsat => by cases hunsat⟩
      | false => exact ⟨h₂, fun _ => hgo rfl⟩
    · split
      · exact Leads.pure conveys_frame hw₁ fun hunsat => by cases hunsat
      · refine ⟨conveys_frame.refl hw₁, fun hunsat => ?_⟩
        dsimp only at hunsat
        split at hunsat <;> cases hunsat
  have hrest := conveys_rest hfirst hrespond
  rw [conclude_eq]
  unfold Leads Ends at hrest ⊢
  rwa [bind_of_ok hfinal]

/-- A step conveys what was asserted. Where the search goes on there is nothing else to be known,
and where it ends without a model there is none. -/
theorem conveys_step (h : w.Seeking) (hp : p.validate = .ok ()) (stop : StopRequest) (n : Nat) :
    Leads (Conveys .top) w (step p stop n) fun status w' =>
      (status = some .unsat → w.Refuted w'.store) ∧ (status = none → w'.Seeking) := by
  have hregistry := h.pursuing.able.tidy.ok.ctx.registry
  have hrefuted : Leads (Conveys .top) w (step p stop n) fun status w' => status = some .unsat →
      w.Refuted w'.store := by
    have happroach := conveys_approach h hp stop n
    have hmaintains := maintains_approach h.pursuing.able p stop n
    have haffirms := (quiets_approach p stop n).affirms w hregistry
    rw [step_eq]
    cases hrun : approach p stop n w with
    | error e w₁ =>
      unfold Ends at happroach
      rw [hrun] at happroach
      exact happroach.elim
    | ok outcome w₁ =>
      obtain ⟨hc, hunsat, happroaches⟩ := happroach.of_ok hrun
      rw [hrun] at haffirms
      unfold Leads Ends
      rw [bind_of_ok hrun]
      cases outcome with
      | some status => exact ⟨hc, fun heq => hunsat (congrArg some heq)⟩
      | none =>
        cases happroaches with
        | complete hcomplete =>
          have h₁ := h.conveys hc haffirms
            (h.pursuing.maintains (hmaintains.of_ok hrun).1 hcomplete.ongoing)
          exact conveys_rest (P := (· = some Status.unsat)) hc
            (conveys_conclude h₁ hcomplete stop n)
  refine hrefuted.answered.mono fun status w' hc ⟨hrun, hunsat⟩ => ⟨hunsat, fun hnone => ?_⟩
  subst hnone
  have haffirms := affirms_step p stop n w hregistry
  rw [hrun] at haffirms
  cases (pursues_step hp h.pursuing stop n).1 _ _ hrun with
  | on hpursuing => exact h.conveys hc haffirms hpursuing

theorem conveys_steps (h : w.Seeking) (hp : p.validate = .ok ()) (stop : StopRequest)
    (fuel n : Nat) :
    Leads (Conveys .top) w (steps p stop fuel n) fun status w' => status = .unsat →
    w.Refuted w'.store := by
  induction fuel generalizing w n with
  | zero => exact Leads.throw conveys_frame h.carrying _
  | succ fuel ih =>
    refine Ends.bind (Ends.mono (conveys_step h hp stop n) (fun status w' ⟨hc, hunsat, hnone⟩ => ?_)
      fun _ => id)
    cases status with
    | some status => exact ⟨hc, fun heq => hunsat (congrArg some heq)⟩
    | none => exact conveys_rest (P := (· = Status.unsat)) hc (ih (hnone rfl) (n + 1))

/-- A search conveys what was asserted, whether it ends, is stopped or is refused; and where its
answer is that there is no model, there is none. -/
theorem conveys_search (hw : w.Carrying .top) (hable : w.Able)
    (hattached : w.ctx.now.Attached w.store)
    (horderly : w.ctx.core.state.Orderly) (htruths : w.Truths)
    (hpositive : ∀ c ∈ w.ctx.solver.constraints, c.formula.isNegated = false)
    (hp : p.validate = .ok ()) (stop : StopRequest)
    (fuel : Nat) : Leads (Conveys .top) w (search p stop fuel) fun status w' => status = .unsat →
    w.Refuted w'.store := by
  have hregistry := hable.tidy.ok.ctx.registry
  have hpursues := pursues_startSearch hable hattached horderly hp
  have hmaintains := maintains_startSearch hable p
  have hshifts := shifts_startSearch ⟨_, hregistry⟩ p
  have hretains := retains_startSearch hable.tidy p
  have haffirms := affirms_startSearch p w hregistry
  cases hrun : startSearch p w with
  | error e w₁ =>
    unfold Ends at hpursues
    rw [hrun] at hpursues
    exact hpursues.elim
  | ok go w₁ =>
    obtain ⟨hgo, hstop⟩ := hpursues.of_ok hrun
    rw [hrun] at hretains haffirms
    have hm := (hmaintains.of_ok hrun).1
    have hmodels : ∀ a, w.ctx.Allows a → w₁.ctx.core.db.Models a := fun a ha => by
      cases go with
      | true => exact (((hgo rfl).2.allows a).mpr ha).models
      | false => exact (hstop rfl a ha).elim
    have hc : Conveys .top w w₁ :=
      hw.conveys_shift hable htruths hm.grows hretains (hshifts.of_ok hrun).1 hmodels
    unfold search Leads Ends
    rw [bind_of_ok hrun]
    cases go with
    | false =>
      rw [if_neg Bool.false_ne_true]
      exact ⟨hc, fun _ => hw.refuted hable htruths hc.later (hstop rfl)⟩
    | true =>
      rw [if_pos rfl]
      have hseeking : w₁.Seeking := ⟨(hgo rfl).1, hc.carrying hw, hc.truths htruths, fun c hmem =>
        (haffirms.constraints c hmem).elim (hpositive c) id⟩
      exact conveys_rest (P := (· = Status.unsat)) hc (conveys_steps hseeking hp stop fuel 0)

end Work
end Entail
