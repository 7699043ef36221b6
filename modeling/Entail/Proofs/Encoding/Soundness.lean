import Entail.Proofs.Context.Quantifiers
import Entail.Proofs.Encoding.Recast
import Entail.Proofs.Encoding.Searches

/-!
# Answers that refute

Formulas are given to a new context, in one go or in several, and the context is checked. Wherever
the formulas are true its clauses are warranted, up to the values of the constants that it made. So
when the answer is that there is no model, no structure for the store in which the formulas were
built makes all of them true, whatever was built since.
-/

namespace Entail

open Search Context

namespace Store

variable {s s' : Store} {t : Term}

/-- What stays is the same on the way back. -/
theorem Stays.symm (h : s.Stays s' t) : s'.Stays s t where
  valid := h.valid.symm
  node hu := by
    obtain ⟨n, hold, hnew⟩ := h.node (h.below_iff.mp hu)
    exact ⟨n, hnew, hold⟩
  ty {u shape ty part} hu hn hr := by
    have hu := h.below_iff.mp hu
    obtain ⟨n, hold, hnew⟩ := h.node hu
    obtain rfl := Option.some.inj (hnew.symm.trans hn)
    have hback : Relation.ReflTransGen s.Component ty part := by
      induction hr with
      | refl => exact .refl
      | tail _ hstep ih =>
        obtain ⟨tyShape, hpart, hpart'⟩ := h.ty hu hold ih
        obtain ⟨tyShape', hty, hmem⟩ := hstep
        obtain rfl := Option.some.inj (hpart'.symm.trans hty)
        exact ih.tail ⟨_, hpart, hmem⟩
    obtain ⟨tyShape, hpart, hpart'⟩ := h.ty hu hold hback
    exact ⟨tyShape, hpart', hpart⟩

end Store

/-- In every structure for the store, one of the formulas is false. -/
def Store.Unsatisfiable (s : Store) (ts : List Term) : Prop :=
  ∀ ⦃M : Structure⦄ ⦃ρ : M.Env⦄, M.Fits s → M.EnvFits s ρ → ∃ t ∈ ts, ¬ M.Holds s ρ t

/-- Structures for a store that has grown are enough. -/
theorem Structure.unsatisfiable_of_later {s s' : Store} {ts : List Term} (hs : s.Wf)
    (hlater : Store.Later s s') (hts : ∀ t ∈ ts, s.Has t .bool)
    (h : ∀ {M : Structure} {ρ : M.Env}, M.Fits s' → M.EnvFits s' ρ → ∃ t ∈ ts, ¬ M.Holds s ρ t) :
    s.Unsatisfiable ts := by
  intro M ρ hM hρ
  obtain ⟨ρ', hρ', hsame⟩ : ∃ ρ' : (M.recast s' s).Env, (M.recast s' s).EnvFits s' ρ' ∧ ∀ x,
      s'.Stays s x → ρ' x = ρ x :=
    exists_recast hρ
  obtain ⟨t, ht, hnot⟩ := h (recast_fits hM) hρ'
  have hbool := hts t ht
  have hstays : s'.Stays s t := (hlater.ext.stays hs (Store.isValid_iff.mpr ⟨_, hbool⟩)).symm
  refine ⟨t, ht, fun hholds => hnot ?_⟩
  have hnow : (M.recast s' s).Holds s' ρ' t :=
    (Structure.holds_recast hlater.wf hs hM hρ' hρ hsame (hlater.ext.has hbool) hstays).mpr hholds
  exact (value_of_extends hs hlater.wf hlater.ext hbool ρ').symm.trans hnow

namespace Workspace

variable {w w' : Workspace} {s s' : Store} {t : Term} {ts us : List Term} {config : Config}

/-- The context was given formulas of the store `s`: wherever they are true, its clauses
are warranted. -/
structure Reflects (s : Store) (ts : List Term) (w : Workspace) : Prop where
  carrying : w.Carrying .top
  truths : w.Truths
  later : Store.Later s w.store
  fresh : ∀ {p}, w.ctx.now.aux p → s.node? p = none
  sound : ∃ defs, w.ctx.now.Exact w.store w.ctx.trueLit defs ∧ ∀ {M : Structure} {ρ : M.Env},
    M.Fits w.store →
    M.EnvFits w.store ρ → (∀ t ∈ ts, M.Holds s ρ t) → ∃ ρ' : M.Env, M.EnvFits w.store ρ' ∧
      Structure.SameBut (fun _ => False) s ρ ρ' ∧ w.ctx.now.Warranted w.store defs M ρ'

namespace Reflects

theorem of_imp (h : Reflects s ts w)
    (himp : ∀ {M : Structure} {ρ : M.Env}, (∀ u ∈ us, M.Holds s ρ u) →
    ∀ t ∈ ts, M.Holds s ρ t) : Reflects s us w :=
  ⟨h.carrying, h.truths, h.later, h.fresh, h.sound.imp fun _ h =>
    ⟨h.1, fun hM hρ hus => h.2 hM hρ (himp hus)⟩⟩

/-- A formula is given and conveyed. -/
theorem conveys (h : Reflects s ts w) (hs : s.Wf) (hc : Conveys t w w') (ht : s.Has t .bool) :
    Reflects s (ts ++ [t]) w' := by
  have hwf := h.carrying.wf
  refine ⟨hc.carrying h.carrying, hc.truths h.truths, Store.later_frame.trans h.later hc.later,
    fun {p} hp => ?_, ?_⟩
  · rcases hc.aux hp with hp | hp
    · exact h.fresh hp
    · cases hn : s.node? p with
      | none => rfl
      | some n => cases hp.symm.trans (h.later.ext.node hn)
  · obtain ⟨defs, hdefs, hsound⟩ := h.sound
    obtain ⟨defs', hdefs', hsound'⟩ := hc.sound hdefs
    refine ⟨defs', hdefs', fun {M ρ} hM hρ hts => ?_⟩
    obtain ⟨ρ₁, hρ₁, hsame, hwarranted⟩ :=
      hsound (hM.of_extends hwf hc.later.ext) (hρ.of_extends hwf hc.later.ext)
      fun u hu => hts u (List.mem_append_left _ hu)
    -- what is newer keeps its value
    obtain ⟨ρ₂, hρ₂, hsame₂, -⟩ := hρ₁.complete hρ hwf hc.later.ext
    have hsame := hsame.trans (hsame₂.of_extends h.later.ext)
    have hwarranted₂ := hwarranted.later hwf h.carrying.described.typed
      (Store.later_frame.refl hwf) hsame₂
    have ht₂ : M.Holds w.store ρ₂ t :=
      (Structure.value_later hs h.later ht hsame).trans (hts t (by simp))
    obtain ⟨ρ₃, hρ₃, hsame₃, hwarranted₃⟩ := hsound' hM hρ₂ hwarranted₂ ht₂
    exact ⟨ρ₃, hρ₃, hsame.trans (hsame₃.of_extends h.later.ext), hwarranted₃⟩

theorem kept (h : Reflects s ts w) (hs : s.Wf) (hc : Conveys .top w w') : Reflects s ts w' := by
  refine (h.conveys hs hc ⟨⟨_, hs.truth⟩, fun _ => rfl⟩).of_imp fun {M ρ} hts t ht => ?_
  rcases List.mem_append.mp ht with ht | ht
  · exact hts t ht
  · obtain rfl := List.mem_singleton.mp ht
    exact Structure.holds_top hs

/-- Only what is seen of the context matters, and what its clauses are. -/
theorem of_contents {c : Context} (h : Reflects s ts w) (hc : Described ⟨w.store, c⟩)
    (hcontents : c.contents = w.ctx.contents)
    (htrue : c.trueLit = w.ctx.trueLit) (hclauses : c.now.clauses = w.ctx.now.clauses) :
    Reflects s ts ⟨w.store, c⟩ := by
  have haux : c.now.aux = w.ctx.now.aux := congrArg Contents.aux hcontents
  have hsubst : c.now.subst = w.ctx.now.subst := congrArg Contents.subst hcontents
  have hvars : c.now.vars = w.ctx.now.vars := congrArg Contents.vars hcontents
  have hlits : c.now.lits = w.ctx.now.lits := congrArg Contents.lits hcontents
  have hbits : c.now.bits = w.ctx.now.bits := congrArg Contents.bits hcontents
  have hnodes : c.now.egraph.1 = w.ctx.now.egraph.1 := congrArg Contents.nodes hcontents
  have hformulas : c.now.quant.1 = w.ctx.now.quant.1 := congrArg Contents.constraints hcontents
  have hides : c.now.Hides w.store := by
    obtain ⟨hconst, hvalues, hplain, hconstraints⟩ := h.carrying.hides
    exact ⟨fun hp => hconst (haux ▸ hp), fun hx => haux ▸ hvalues (hsubst ▸ hx), fun n hn =>
      haux ▸ hplain n (hnodes ▸ hn),
      fun q hq => haux ▸ hconstraints q (hformulas ▸ hq)⟩
  refine ⟨⟨hc, hides, h.carrying.has, ?_⟩, ?_, h.later, fun hp => h.fresh (haux ▸ hp), ?_⟩
  · show w.store.Plain c.now.aux .top
    exact haux ▸ h.carrying.plain
  · show Egraph.empty.nodes.toList <+: c.now.egraph.1
    rw [hnodes]
    exact h.truths
  · obtain ⟨defs, hdefs, hsound⟩ := h.sound
    refine ⟨defs, ?_, fun {M ρ} hM hρ hts => ?_⟩
    · show c.now.Exact w.store c.trueLit defs
      rw [htrue]
      exact hdefs.of_same hvars hlits hbits haux fun _ ha => hclauses ▸ ha
    · obtain ⟨ρ', hρ', hsame, hwarranted⟩ := hsound hM hρ hts
      refine ⟨ρ', hρ', hsame, fun hx => hwarranted.defined (hsubst ▸ hx), fun q hq =>
        hwarranted.formulas q (hformulas ▸ hq),
        fun ha hA => hclauses ▸ hwarranted.clauses ha ?_⟩
      exact hA.congr (fun _ => rfl) (fun hx => hvars ▸ hx) fun _ hp => haux ▸ hp

/-- What the context made does not occur in the formulas of the store `s`. -/
theorem carries (h : Reflects s ts w) (hs : s.Wf) (ht : s.Has t .bool)
    (hfirst : s.FirstOrder [] t) : w.Carrying t where
  described := h.carrying.described
  hides := h.carrying.hides
  has := h.later.ext.has ht
  plain := by
    have hplain : s.Plain (fun _ => False) t := ⟨Store.avoids_of_has hs ht fun _ => id, hfirst⟩
    exact hplain.later hs h.later fun hp => .inr (h.fresh hp)

/-- Where the clauses are refuted, one of the formulas is false. -/
theorem unsatisfiable (h : Reflects s ts w) (hs : s.Wf) (hts : ∀ t ∈ ts, s.Has t .bool)
    (hlater : Store.Later w.store s') (hrefuted : w.Refuted s') : s.Unsatisfiable ts := by
  refine Structure.unsatisfiable_of_later hs (Store.later_frame.trans h.later hlater) hts
    fun {M ρ} hM hρ => ?_
  by_contra hall
  have hholds : ∀ t ∈ ts, M.Holds s ρ t := fun t ht => by_contra fun hnot => hall ⟨t, ht, hnot⟩
  have hwf := h.carrying.wf
  obtain ⟨defs, hdefs, hsound⟩ := h.sound
  obtain ⟨ρ₁, hρ₁, -, hwarranted⟩ :=
    hsound (hM.of_extends hwf hlater.ext) (hρ.of_extends hwf hlater.ext) hholds
  obtain ⟨ρ₂, hρ₂, hsame, -⟩ := hρ₁.complete hρ hwf hlater.ext
  exact hrefuted hdefs hM hρ₂
    (hwarranted.later hwf h.carrying.described.typed (Store.later_frame.refl hwf) hsame)

end Reflects

/-- A new context makes nothing but the literal of truth true. -/
theorem reflects_new (hs : s.Wf) (config : Config) : Reflects s [] ⟨s, .new config⟩ := by
  have htop : s.Has .top .bool := ⟨⟨_, hs.truth⟩, fun _ => rfl⟩
  have haux {p : Term} : ¬ (Context.new config).now.aux p := fun hp => by
    have hp : p ∈ (∅ : Std.HashSet Term) := hp
    simp at hp
  have hsubst {x v : Term} : ¬ (Context.new config).now.subst x = some v := fun hx => by
    have hx : (∅ : Std.HashMap Term Term)[x]? = some v := hx
    simp at hx
  have hplain : s.Plain (Context.new config).now.aux .top :=
    ⟨Store.avoids_of_has hs htop fun _ => haux, .node hs.truth rfl rfl trivial
      (by simp [Term.Shape.children])⟩
  have hterms : ∀ n ∈ Egraph.empty.nodes, n.term = .top ∨ n.term = .bot := by decide
  have hhides : (Context.new config).now.Hides s := {
    const := fun hp => (haux hp).elim
    values := fun hx => (hsubst hx).elim
    nodes := fun n hn => by
      rcases hterms n (Array.mem_toList_iff.mp hn) with hn | hn
      · exact hn ▸ hplain
      · exact hn ▸ hplain.neg
    formulas := fun q hq => by cases hq }
  refine ⟨⟨(accounted_new hs config).described, hhides, htop, hplain⟩, List.prefix_rfl,
    Store.later_frame.refl hs,
    fun hp => (haux hp).elim, _, exact_new hs config, fun {M ρ} hM hρ _ =>
      ⟨ρ, hρ, fun _ _ _ => rfl, ?_⟩⟩
  refine ⟨fun hx => (hsubst hx).elim, fun q hq => (by cases hq), fun {a} ha _ => ?_⟩
  let first := (blank config).atom .top
  let c : Context := { first.2.syncVars with trueLit := first.1 }
  have hdb : c.core.db = (blank config).core.db := db_foldl_ensureVar _ _
  have hok : c.core.db.Ok 0 := by
    rw [hdb]
    exact (ok_blank s config).core
  have hblank : c.core.db.all.Models a := by
    have hempty : (blank config).core.db = ⟨#[], [], #[], none⟩ := by
      show (⟨(#[] : Array (Option Clause)).map _, [], #[], none⟩ : Database) = _
      rw [Array.map_empty]
    rw [hdb, hempty]
    exact Database.all_models.mpr ⟨fun hcl => (by cases hcl), fun hu => (by simp at hu), rfl⟩
  have hnew : (c.addClause [first.1]).core.db.all.Models a := by
    rw [show (c.addClause [first.1]).core.db = _ from Core.db_addClause _ _ _]
    exact (Database.all_models_add hok).mpr ⟨hblank, meets_singleton.mp ha⟩
  exact hnew

end Workspace

/-! ## Assertions -/

namespace Work

open Workspace

variable {w w' : Workspace} {s : Store} {ts us : List Term}

/-- Accepted formulas are given one after the other. -/
theorem reflects_assertAccepted (h : Reflects s us w) (hs : s.Wf) (hable : w.Able)
    (hts : ∀ t ∈ ts, s.Has t .bool ∧ s.FirstOrder [] t ∧
      w.store.Assertable (w.ctx.isOn .flatten) t) :
    Ends (ts.forM fun t => do change (·.note t); process t) w
      (fun _ w' => Reflects s (us ++ ts) w' ∧ w'.Able) fun _ => True := by
  induction ts generalizing us w with
  | nil => exact ⟨by rwa [List.append_nil], hable⟩
  | cons t ts ih =>
    obtain ⟨ht, hfirst, hass⟩ := hts t List.mem_cons_self
    have hgrows : Grows False w ⟨w.store, w.ctx.note t⟩ :=
      grows_note h.carrying.described.tidy (h.later.ext.has ht)
    have hretains : Retains w ⟨w.store, w.ctx.note t⟩ :=
      retains_same h.carrying.described w.ctx.status _
    have hnote : Reflects s us ⟨w.store, w.ctx.note t⟩ :=
      h.kept hs (h.carrying.conveys_same hgrows hretains rfl rfl rfl
      fun {_} _ {_ _ _} _ _ hwarranted ha hA => hwarranted.clauses ha hA)
    have hm₀ := maintains_note hable (h.later.ext.has ht)
    have hable₀ := maintains_frame.stable hable hm₀
    have hass₀ : w.store.Assertable ((w.ctx.note t).isOn .flatten) t := hass
    have hprocess :=
      Ends.both (conveys_process (hnote.carries hs ht hfirst) hable₀.ctx hable₀.regular hass₀)
      (maintains_process hable₀ (h.later.ext.has ht) hass₀).leads
    show Ends ((do change (·.note t); process t) >>= fun _ => ts.forM
      fun t => do change (·.note t); process t) w _ _
    refine Ends.bind (ends_change_bind (Ends.mono hprocess (fun _ w₁ ⟨⟨hc, _⟩, hm, _⟩ => ?_)
      fun _ _ => trivial))
    have hm := maintains_frame.trans hm₀ hm
    rw [List.append_cons]
    refine ih (hnote.conveys hs hc ht) (maintains_frame.stable hable hm) fun u hu => ?_
    obtain ⟨hubool, hufirst, huass⟩ := hts u (List.mem_cons_of_mem _ hu)
    refine ⟨hubool, hufirst, ?_⟩
    rw [hm.isOn]
    exact huass.later hm.grows.keeps.store.ext

/-- Formulas are asserted or ignored. A new status that says that there is no model goes back to
a conflict. -/
theorem reflects_assertAll (h : Reflects s us w) (hs : s.Wf) (hable : w.Able)
    (hts : ∀ t ∈ ts, s.Has t .bool ∧ s.FirstOrder [] t) :
    Ends (assertAll ts) w (fun _ w' => Reflects s (us ++ ts) w' ∧
      (w = w' ∨ (w'.ctx.status = .unsat → w'.ctx.core.hasRootConflict = true))) fun _ => True := by
  refine ends_check_bind trivial fun _ _ => ends_check_bind trivial fun _ hvalid =>
    ends_look_bind ?_
  split
  · -- what is ignored changes nothing
    exact ⟨h.of_imp fun hus t ht => hus t (List.mem_append_left _ ht), .inl rfl⟩
  refine ends_change_bind ?_
  have hdescribed := h.carrying.described
  have hm := maintains_reopen hable
  have htrue : w.ctx.reopen.trueLit = w.ctx.trueLit := by
    unfold reopen
    split <;> rfl
  have hclauses : w.ctx.reopen.now.clauses = w.ctx.now.clauses := by
    unfold reopen
    split
    · exact congrArg Database.all ((Core.db_assignUnits _).trans (Core.db_resetTrail _))
    · rfl
  have hr : Amends False w ⟨w.store, w.ctx.reopen⟩ := amends_reopen hdescribed
  have hreopened := amends_frame.stable hdescribed hr
  have hreopen : Reflects s us ⟨w.store, w.ctx.reopen⟩ := h.of_contents hreopened
    (contents_reopen hable.tidy.ok.ctx.registry) htrue hclauses
  have hable₁ := maintains_frame.stable hable hm
  refine Ends.bind (Ends.mono (reflects_assertAccepted hreopen hs hable₁ fun t ht => ?_)
    (fun _ w₂ ⟨h₂, _⟩ => ?_) fun _ => id)
  · obtain ⟨hbool, hass⟩ := assertable_of_accepted hable hvalid t ht
    refine ⟨(hts t ht).1, (hts t ht).2, ?_⟩
    rw [hm.isOn]
    exact hass.later hm.grows.keeps.store.ext
  · have hsync : w₂.ctx.syncVars.core.db = w₂.ctx.core.db := db_foldl_ensureVar _ _
    have hr₂ : Amends False w₂ ⟨w₂.store, w₂.ctx.settle⟩ := amends_settle h₂.carrying.described
    have hsettled := amends_frame.stable h₂.carrying.described hr₂
    refine ⟨h₂.of_contents hsettled ?_ rfl ?_, .inr fun hunsat => ?_⟩
    · exact contents_setCore w₂.ctx hsync
    · exact congrArg Database.all hsync
    · show w₂.ctx.syncVars.core.hasRootConflict = true
      have hunsat : (if w₂.ctx.syncVars.core.hasRootConflict then Status.unsat else .idle) =
        .unsat := hunsat
      by_contra hnot
      rw [if_neg hnot] at hunsat
      cases hunsat

end Work

/-! ## Answers -/

namespace Workspace

variable {w w' w₁ : Workspace} {s : Store} {ts us : List Term} {config : Config} {p : Params}
  {stop : StopRequest} {fuel : Nat}
  {status : Status}

namespace Reflects

/-- The status does not matter. -/
theorem of_status (h : Reflects s ts w) (status : Status) :
    Reflects s ts ⟨w.store, { w.ctx with status }⟩ := by
  have hd := h.carrying.described
  have hgrows : Grows False w ⟨w.store, { w.ctx with status }⟩ := Work.grows_status hd.tidy status
  have hretains : Retains w ⟨w.store, { w.ctx with status }⟩ :=
    Work.retains_same hd status w.ctx.assertions
  exact h.of_contents (amends_frame.stable hd (hd.amends hgrows hretains)) rfl rfl rfl

/-- A check starts to search for a model of what was asserted. -/
theorem underway (h : Reflects s ts w) (hused : UsedInOrder w) (stop : StopRequest) :
    Reflects s ts (w.underway stop) := by
  have haccounted := accounted_of_used hused.used
  have hok := haccounted.kempt.tidy.ok
  unfold Workspace.underway
  split
  · refine h.of_contents (haccounted.openScope.settings _ _ _).described ?_ ?_ ?_
    · exact contents_openScope hok.ctx
    · rw [openScope_eq hok.ctx]
      rfl
    · rw [openScope_eq hok.ctx]
      exact congrArg Database.all (db_foldl_ensureVar _ _)
  · exact h.of_contents (haccounted.settings _ _ _).described rfl rfl rfl

/-- A search keeps what was asserted, and where its answer is that there is no model, one of the
formulas is false. -/
theorem search (h : Reflects s ts w) (hs : s.Wf) (hts : ∀ t ∈ ts, s.Has t .bool)
    (hused : UsedInOrder w) (hidle : w.ctx.status = .idle) (hp : p.validate = .ok ())
    (hsearch : Work.search p stop fuel (w.underway stop) = .ok status w₁) : Reflects s ts w₁ ∧
      (status = .unsat → s.Unsatisfiable ts) := by
  have hstart := h.underway hused stop
  obtain ⟨hable, hattached, hbased⟩ := searchable_underway hused hidle stop
  have hpositive := hused.affirmed.positive
  rw [← constraints_underway hused.stocked.kempt.tidy.ok stop] at hpositive
  obtain ⟨hc, hrefuted⟩ :=
    (Work.conveys_search hstart.carrying hable hattached hbased.orderly hstart.truths
      hpositive hp stop
    fuel).of_ok hsearch
  exact ⟨hstart.kept hs hc, fun hunsat => hstart.unsatisfiable hs hts hc.later (hrefuted hunsat)⟩

end Reflects

/-- A check that answers did so before, or searches. -/
theorem checkSat_eq_ok (hrun : Work.checkSat p stop fuel w = .ok status w') :
    (w' = w ∧ status = w.ctx.status) ∨
    (w.ctx.status = .idle ∧ p.validate = .ok () ∧ ∃ w₁, Work.search p stop fuel (w.underway stop) =
      .ok status w₁ ∧
      w' = ⟨w₁.store, w₁.ctx.finish (w.ctx.config.mode == .interactive) (.ok status)⟩) := by
  cases hnow : w.ctx.status with
  | idle =>
    have hp : p.validate = .ok () := by
      cases hp : p.validate with
      | ok => rfl
      | error e =>
        unfold Work.checkSat at hrun
        rw [bind_of_ok (rfl : Work.look _ w = .ok w.ctx.status w), hnow, hp] at hrun
        cases hrun
    rw [checkSat_eq hnow hp] at hrun
    cases hsearch : Work.search p stop fuel (w.underway stop) with
    | error e w₁ =>
      rw [hsearch] at hrun
      cases hrun
    | ok answer w₁ =>
      rw [hsearch] at hrun
      cases hrun
      exact .inr ⟨rfl, hp, w₁, rfl, rfl⟩
  | sat | unsat | unknown =>
    unfold Work.checkSat at hrun
    rw [bind_of_ok (rfl : Work.look _ w = .ok w.ctx.status w), hnow] at hrun
    cases hrun
    exact .inl ⟨rfl, rfl⟩
  | searching | interrupted =>
    unfold Work.checkSat at hrun
    rw [bind_of_ok (rfl : Work.look _ w = .ok w.ctx.status w), hnow] at hrun
    cases hrun

/-- Formulas of the store `s` were asserted to a new context, in one go or in several, with checks
in between that leave no scope behind. -/
inductive Posed (s : Store) (config : Config) : List Term → Workspace → Prop where
  | new : Posed s config [] ⟨s, .new config⟩
  | assert {ts us : List Term} {w w' : Workspace} (h : Posed s config ts w)
    (hus : ∀ t ∈ us, s.Has t .bool ∧ s.FirstOrder [] t) (hrun : Work.assertAll us w = .ok () w') :
    Posed s config (ts ++ us) w'
  | check {ts : List Term} {w w' : Workspace} {p : Params} {stop : StopRequest} {fuel : Nat}
    {status : Status}
    (h : Posed s config ts w) (hmode : w.ctx.config.mode ≠ .interactive)
    (hrun : Work.checkSat p stop fuel w = .ok status w') :
    Posed s config ts w'

namespace Posed

theorem used (h : Posed s config ts w) (hs : s.Intact) : UsedInOrder w := by
  induction h with
  | new => exact .new hs config
  | @assert ts us w w' _ _ hrun ih =>
    have hact := ih.act (.assert us)
    rwa [show endState ((Action.assert us).run w) = w' from congrArg endState hrun] at hact
  | @check ts w w' p stop fuel status _ _ hrun ih =>
    have hact := ih.act (.check p stop fuel)
    have hend : (Action.check p stop fuel).run w = .ok () w' := bind_of_ok hrun
    rwa [hend] at hact

theorem has (h : Posed s config ts w) : ∀ t ∈ ts, s.Has t .bool := by
  induction h with
  | new => exact fun _ ht => absurd ht List.not_mem_nil
  | assert _ hus _ ih => exact fun t ht => (List.mem_append.mp ht).elim (ih t) fun ht =>
    (hus t ht).1
  | check _ _ _ ih => exact ih

/-- The context reflects what was asserted, and it says that there is no model only if
there is none. -/
theorem reflects (h : Posed s config ts w) (hs : s.Intact) :
    Reflects s ts w ∧ (w.ctx.status = .unsat → s.Unsatisfiable ts) := by
  induction h with
  | new => exact ⟨reflects_new hs.wf config, fun hunsat => by cases hunsat⟩
  | @assert ts us w w' h hus hrun ih =>
    have hposed : Posed s config (ts ++ us) w' := h.assert hus hrun
    have hused := hposed.used hs
    obtain ⟨hreflects, hsame⟩ :=
      (Work.reflects_assertAll ih.1 hs.wf (h.used hs).stocked.able hus).of_ok hrun
    refine ⟨hreflects, fun hunsat => ?_⟩
    rcases hsame with rfl | hconflict
    · intro M ρ hM hρ
      obtain ⟨t, ht, hnot⟩ := ih.2 hunsat hM hρ
      exact ⟨t, List.mem_append_left _ ht, hnot⟩
    · have hrefl := Store.later_frame.refl hreflects.later.wf
      have horderly := (composed_of_used hused.used).orderly
      have hrefuted := hreflects.carrying.refuted hused.stocked.able hreflects.truths hrefl
        (Work.not_allows_of_rootConflict horderly (hconflict hunsat))
      exact hreflects.unsatisfiable hs.wf hposed.has hrefl hrefuted
  | @check ts w w' p stop fuel status h hmode hrun ih =>
    rcases checkSat_eq_ok hrun with ⟨rfl, -⟩ | ⟨hidle, hp, w₁, hsearch, rfl⟩
    · exact ih
    · obtain ⟨hreflects, hunsat⟩ := ih.1.search hs.wf h.has (h.used hs) hidle hp hsearch
      rw [beq_false_of_ne hmode]
      exact ⟨hreflects.of_status status, hunsat⟩

end Posed

/-- When formulas were asserted to a new context and a check answers that there is no model, then
there is none: in every structure for the store in which they were built, one of them is false. -/
theorem unsatisfiable_of_unsat (hs : s.Intact) (h : Posed s config ts w)
    (hrun : Work.checkSat p stop fuel w = .ok .unsat w') : s.Unsatisfiable ts := by
  obtain ⟨hreflects, hstatus⟩ := h.reflects hs
  rcases checkSat_eq_ok hrun with ⟨-, hnow⟩ | ⟨hidle, hp, w₁, hsearch, -⟩
  · exact hstatus hnow.symm
  · exact (hreflects.search hs.wf h.has (h.used hs) hidle hp hsearch).2 rfl

end Workspace
end Entail
