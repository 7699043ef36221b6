import Entail.Proofs.Context.Lockstep
import Entail.Proofs.Context.SupportedSearch
import Entail.Proofs.Context.Validation
import Entail.Proofs.Engine

/-!
# Contexts stay able between operations

Whatever is asserted in a context was accepted before, so what the context refers to stays supported
from one operation to the next: operations inside of a scope add supported terms only, and closing a
scope takes terms away. In every context that comes about in this way, accepted formulas and the
instances of registered ones are processed, or refused for the degree of a product.
-/

namespace Entail

open Workspace Context

namespace Work

variable {α : Type} {w : Workspace} {t body : Term} {args vars : List Term}

/-! ## Operations inside of a scope -/

theorem maintains_look_bind {β : Type} {E : Failure → Prop} {f : Store → Context → β}
    {g : β → Work α} {Q : α → Workspace → Prop} (h : Fares E Maintains w (g (f w.store w.ctx)) Q) :
    Fares E Maintains w (look f >>= g) Q := ⟨h.leads, h.cause⟩

section

variable (hw : w.Able)

include hw

theorem maintains_check_bind {β : Type} {E : Failure → Prop}
    {f : Store → Context → Except Failure β} {g : β → Work α}
    {Q : α → Workspace → Prop} (hE : ∀ e, f w.store w.ctx = .error e → E e)
    (hg : ∀ b, f w.store w.ctx = .ok b → Fares E Maintains w (g b) Q) :
    Fares E Maintains w (check f >>= g) Q := by
  cases hf : f w.store w.ctx with
  | ok b =>
    have hcheck : check f w = .ok b w := by simp [check, hf]
    refine ⟨?_, fun he => ?_⟩
    · unfold Leads Ends
      rw [bind_of_ok hcheck]
      exact (hg b hf).leads
    · rw [bind_of_ok hcheck] at he
      exact (hg b hf).cause he
  | error e =>
    have hcheck : check f w = .error e w := by simp [check, hf]
    refine ⟨?_, fun he => ?_⟩
    · unfold Leads Ends
      rw [bind_of_error hcheck]
      exact maintains_frame.refl hw
    · rw [bind_of_error hcheck] at he
      cases he
      exact hE e hf

theorem rearranges_clearSearch : Rearranges w ⟨w.store, w.ctx.clearSearch⟩ :=
  rearranges_backtrack ⟨_, hw.tidy.ok.ctx.registry⟩ _ 0

theorem maintains_clearSearch : Maintains w ⟨w.store, w.ctx.clearSearch⟩ :=
  hw.rearranges (grows_clearSearch hw.tidy) (rearranges_clearSearch hw)

theorem maintains_status (status : Status) : Maintains w ⟨w.store, { w.ctx with status }⟩ :=
  hw.rearranges (grows_status hw.tidy status) ⟨rfl, ⟨rfl, rfl, rfl, rfl⟩, _,
    hw.tidy.ok.ctx.registry⟩

theorem maintains_reopen : Maintains w ⟨w.store, w.ctx.reopen⟩ := by
  unfold reopen
  split
  · have hclear := maintains_clearSearch hw
    exact maintains_frame.trans hclear (maintains_status (maintains_frame.stable hw hclear) .idle)
  · exact maintains_frame.refl hw

theorem maintains_settle : Maintains w ⟨w.store, w.ctx.settle⟩ :=
  hw.rearranges (grows_settle hw.tidy) ⟨rfl, ⟨rfl, rfl, rfl, rfl⟩, _, hw.tidy.ok.ctx.registry⟩

theorem maintains_note (ht : w.store.Has t .bool) : Maintains w ⟨w.store, w.ctx.note t⟩ :=
  hw.rearranges (grows_note hw.tidy ht) ⟨rfl, ⟨rfl, rfl, rfl, rfl⟩, _, hw.tidy.ok.ctx.registry⟩

/-- The part of an assertion that comes after the formulas were accepted: it is refused for the
degree of a product only. -/
theorem maintains_assertAccepted (ts : List Term)
    (hts : ∀ t ∈ ts, w.store.Has t .bool ∧ w.store.Assertable (w.ctx.isOn .flatten) t) :
    Fares Failure.TooLarge Maintains w (ts.forM fun t => do change (·.note t); process t) fun _ _ =>
      True := by
  refine .forM maintains_frame hw fun t ht w₁ hw₁ h₁ => ?_
  obtain ⟨hbool, hass⟩ := hts t ht
  have hbool₁ := h₁.has hbool
  refine .bind maintains_frame hw₁ (fares_change (maintains_note hw₁ hbool₁)) fun _ w₂ hw₂ h₂ _ =>
    ?_
  have h := maintains_frame.trans h₁ h₂
  refine maintains_process hw₂ (h₂.has hbool₁) ?_
  rw [h.isOn]
  exact hass.later h.grows.keeps.store.ext

/-- A formula is accepted in the present store and with the present options. -/
theorem assertable_of_accepted {ts : List Term} (h : ts.forM (w.ctx.validate w.store) = .ok ()) :
    ∀ t ∈ ts, w.store.Has t .bool ∧ w.store.Assertable (w.ctx.isOn .flatten) t := fun t ht =>
  have hvalid := Store.forM_eq_ok h t ht
  ⟨has_of_validate hvalid, assertable_of_validate hw.tidy.ok.store hvalid⟩

/-- Besides the checks in the beginning, only the degree of a product may stand in the way of
an assertion. -/
theorem maintains_assertAll (ts : List Term) :
    Fares (fun e => e.TooLarge ∨ w.ctx.checkAssertAllowed = .error e ∨
      ts.forM (w.ctx.validate w.store) = .error e)
      Maintains w (assertAll ts) fun _ _ => True := by
  refine maintains_check_bind hw (fun _ => .inr ∘ .inl) fun _ _ => ?_
  refine maintains_check_bind hw (fun _ => .inr ∘ .inr) fun _ hvalid => maintains_look_bind ?_
  split
  · exact .pure maintains_frame hw trivial
  refine .mono ?_ (fun _ => .inl) fun _ _ _ => id
  refine .bind maintains_frame hw (fares_change (maintains_reopen hw)) fun _ w₁ hw₁ h₁ _ => ?_
  refine .bind maintains_frame hw₁ (maintains_assertAccepted hw₁ ts fun t ht => ?_)
      fun _ w₂ hw₂ _ _ =>
    fares_change (maintains_settle hw₂)
  obtain ⟨hbool, hass⟩ := assertable_of_accepted hw hvalid t ht
  rw [h₁.isOn]
  exact ⟨h₁.has hbool, hass.later h₁.grows.keeps.store.ext⟩

/-- The definitions may be put in an accepted formula before it is processed. -/
theorem maintains_subst (ht : w.store.Has t .bool)
    (hass : w.store.Assertable (w.ctx.isOn .flatten) t) :
    Fares Failure.TooLarge Maintains w (onStore (Store.subst w.ctx.subst t)) fun r w' =>
      w'.store.Has r .bool ∧ w'.Clean r ∧ w'.store.Assertable (w'.ctx.isOn .flatten) r := by
  have hprepared : w.Prepared w.store.terms.slots.size :=
    ⟨hw.tidy, hw.ctx, hw.regular, tame_of_supports hw.tidy.ok.store hw.tidy.typed hw.ctx⟩
  have hsubst := processes_subst hprepared ht hass (inPlay_of_assertable hw.tidy.ok.store ht hass)
  exact (hsubst.imp fun _ _ _ ⟨hr, hclean, hass, _⟩ => ⟨hr, hclean, hass⟩).weaken Proceeds.maintains

/-- Constraints are registered for supported formulas, whatever the patterns. -/
theorem maintains_addConstraint (patterns : List Term) (hclean : w.Clean t)
    (hshape : w.store.shape t = .all vars body)
    (hvars : ∀ v ∈ vars, w.store.IsSort v) (hbody : w.store.Supported vars body) :
    Leads Maintains w (addConstraint t patterns) fun _ _ => True := by
  have hprepared : w.Prepared w.store.terms.slots.size :=
    ⟨hw.tidy, hw.ctx, hw.regular, tame_of_supports hw.tidy.ok.store hw.tidy.typed hw.ctx⟩
  have hgrows : Leads (Grows False) w (addConstraint t patterns) fun _ _ => True :=
    grows_addConstraint hw.tidy patterns hclean
  have hsustains := (fares_addConstraint hprepared patterns hshape hvars hbody).leads
  exact ((hgrows.both hsustains).reframe fun _ hr => ⟨hr.1, hr.2.ctx, hr.2.options⟩).mono
    fun _ _ _ _ => trivial

/-- Terms may be built, which brings no eliminated constants into others. -/
theorem maintains_onStore {op : Store.Op α} (hop : Moves Store.Wf Store.Built op) :
    Leads Maintains w (onStore op) fun _ w' => ∀ t, w.Clean t → w'.Clean t := by
  have hbuilds : Store.Builds w.store op fun _ _ => True :=
    Leads.of_moves_any (hop.mono (fun _ _ _ h => h.later) w.store hw.tidy.ok.store)
  have hgrows : Leads (Grows True) w (onStore op) fun _ w' => w'.ctx = w.ctx ∧ True :=
    grows_onStore hw.tidy hop hbuilds
  have hsustains : Fares (fun _ => True) (Sustains True) w (onStore op) fun _ w' =>
      w'.ctx = w.ctx ∧ True :=
    fares_onStore hw.supported (fun _ _ => trivial) (Fares.of_leads hbuilds)
  refine ((hgrows.both hsustains.leads).mono fun _ w' hr _ => ?_).reframe fun _ hr =>
    ⟨hr.1.weaken, hr.2.ctx, hr.2.options⟩
  exact fun t ht => hr.1.clean ht

theorem maintains_assertQuantifier (formula : Term) (patterns : List Term) :
    Leads Maintains w (assertQuantifier formula patterns) fun _ _ => True := by
  refine (maintains_check_bind (E := fun _ => True) hw (fun _ _ => trivial) fun _ _ => ?_).leads
  refine maintains_check_bind hw (fun _ _ => trivial) fun _ hvalid => ?_
  have hbool : w.store.Has formula .bool := has_of_validate hvalid
  have hass := assertable_of_validate hw.tidy.ok.store hvalid
  have hquantified : Fares (fun _ => True) Maintains w (checkQuantified formula) fun _ _ =>
      True := by
    refine maintains_look_bind ?_
    split
    · exact .throw maintains_frame hw trivial
    · exact .pure maintains_frame hw trivial
  refine .bind maintains_frame hw hquantified fun _ w₁ hw₁ h₁ _ => maintains_look_bind ?_
  split
  · exact .pure maintains_frame hw₁ trivial
  refine .bind maintains_frame hw₁ (fares_change (maintains_reopen hw₁)) fun _ w₂ hw₂ h₂ _ =>
    maintains_look_bind ?_
  have h₂ := maintains_frame.trans h₁ h₂
  have hass₂ : w₂.store.Assertable (w₂.ctx.isOn .flatten) formula := by
    rw [h₂.isOn]
    exact hass.later h₂.grows.keeps.store.ext
  refine .bind maintains_frame hw₂ (.of_leads (maintains_subst hw₂ (h₂.has hbool) hass₂).leads)
    fun t w₃ hw₃ h₃ ⟨ht, hclean, hass₃⟩ => maintains_look_bind ?_
  have h₃ := maintains_frame.trans h₂ h₃
  have hnote {w₄ : Workspace} (hw₄ : w₄.Able) (h₄ : Maintains w₃ w₄) :
      Maintains w₄ ⟨w₄.store, w₄.ctx.note formula⟩ :=
    maintains_note hw₄ (h₄.has (h₃.has hbool))
  have hsettle {w₅ : Workspace} (hw₅ : w₅.Able) :
      Fares (fun _ => True) Maintains w₅ (change (·.settle)) fun _ _ => True :=
    fares_change (maintains_settle hw₅)
  split
  · refine .bind maintains_frame hw₃ (fares_change (hnote hw₃ (maintains_frame.refl hw₃)))
      fun _ w₄ hw₄ h₄ _ => ?_
    refine .bind maintains_frame hw₄ (.of_leads (maintains_process hw₄ (h₄.has ht) ?_).leads)
        fun _ w₅ hw₅ _ _ =>
      hsettle hw₅
    rw [h₄.isOn]
    exact hass₃.later h₄.grows.keeps.store.ext
  next hquant =>
    -- what is left is a positive quantifier: its variables and its body are those of the constraint
    obtain ⟨vars, body, hshape⟩ : ∃ vars body, w₃.store.shape t = .all vars body := by
      cases hshape : w₃.store.shape t with
      | all vars body => exact ⟨vars, body, rfl⟩
      | _ => simp [hshape, Term.Shape.isQuantifier] at hquant
    have hn : w₃.store.node? t = some (.all vars body, .bool) := hshape ▸ ht.node
    obtain ⟨hvars, hbody⟩ := hass₃.quantifier hn
    have hpatterns : Moves Store.Wf Store.Built (patterns.mapM (Store.subst w₂.ctx.subst)) :=
      Store.built_frame.mapM patterns fun p _ => Store.builders_built.subst w₂.ctx.subst p
    refine .bind maintains_frame hw₃ (.of_leads (maintains_onStore hw₃ hpatterns))
      fun patterns w₄ hw₄ h₄ hcleaner => ?_
    have hshape₄ : w₄.store.shape t = .all vars body :=
      Store.shape_of_node (h₄.grows.keeps.store.ext.node hn)
    have hadd := maintains_addConstraint hw₄ patterns (hcleaner t hclean) hshape₄
      (fun v hv => (hvars v hv).later h₄.grows.keeps.store.ext)
        (hbody.later h₄.grows.keeps.store.ext)
    refine .bind maintains_frame hw₄ (.of_leads hadd) fun _ w₅ hw₅ h₅ _ => ?_
    exact .bind maintains_frame hw₅ (fares_change (hnote hw₅ (maintains_frame.trans h₄ h₅)))
      fun _ w₆ hw₆ _ _ => hsettle hw₆

end
end Work
namespace Context

variable {s s' : Store} {c c' : Context} {w : Workspace}

/-! ## Scopes -/

theorem Supports.shrinks (h : c.Supports s) (hc : c.Shrinks c') : c'.Supports s :=
  h.of_ctx hc.subst (fun n hn => .inl (hc.nodes n hn)) hc.constraints

theorem Supports.openScope (h : c.Supports s) (hc : c.Ok s) : c.openScope.Supports s := by
  rw [openScope_eq hc]
  exact h.of_ctx id (fun _ => .inl) fun _ => id

theorem Supports.commit (h : c.Supports s) (hc : c.registry.Has c.solver) :
    c.commit.Supports s := by
  unfold Context.commit
  split
  · exact h
  · rw [Theory.Registry.mergeScope_eq hc]
    exact h.of_ctx id (fun _ => .inl) fun _ => id

/-- Others may change the store as long as they spare the roots of the context. -/
theorem Supports.spares (h : c.Supports s) (ht : c.Typed s) (hc : c.Ok s) (hw : s.Wf)
    (hs : s.Spares s' c.roots) :
    c.Supports s' := by
  have hstays {t : Term} (hholds : c.Holds t) : s.Stays s' t :=
    (rooted_of_holds ht hc hw hholds).stays hs
  refine ⟨fun hx => (h.values hx).stays hw (hstays (.definition hx)),
    fun n hn => (h.nodes n hn).stays hw (hstays (.node hn)), fun q hq => ⟨fun v hv => ?_, ?_⟩⟩
  · exact ((h.constraints q hq).1 v hv).stays (hstays (.boundVar hq hv))
  · exact (h.constraints q hq).2.stays hw (hstays (.body hq))

end Context

namespace Workspace

variable {s : Store} {w w' : Workspace}

/-! ## Between operations -/

/-- A kempt context of supported terms, in a store without anything irregular. -/
structure Stocked (w : Workspace) : Prop where
  kempt : w.Kempt
  ctx : w.ctx.Supports w.store
  regular : w.store.Regular

theorem Stocked.able (h : w.Stocked) : w.Able := ⟨h.kempt.tidy, h.ctx, h.regular⟩

theorem Stocked.maintains (h : w.Stocked) (hm : Maintains w w') : w'.Stocked :=
  ⟨h.kempt.grows hm.grows, hm.ctx, hm.grows.keeps.built.regular h.regular⟩

/-- Options, status and stop request do not matter. -/
theorem Stocked.settings (h : w.Stocked) (options : Options) (status : Status)
    (interrupted : Bool) :
    Stocked ⟨w.store, { w.ctx with options, status, interrupted }⟩ :=
  ⟨h.kempt.settings options status interrupted, h.ctx.of_ctx id (fun _ => .inl) fun _ =>
    id, h.regular⟩

theorem Stocked.openScope (h : w.Stocked) : Stocked ⟨w.store, w.ctx.openScope⟩ :=
  ⟨h.kempt.openScope, h.ctx.openScope h.kempt.tidy.ok.ctx, h.regular⟩

theorem Stocked.commit (h : w.Stocked) (hs : w.ctx.scopes ≠ []) : Stocked ⟨w.store, w.ctx.commit⟩ :=
  ⟨h.kempt.commit hs, h.ctx.commit h.kempt.tidy.ok.ctx.registry, h.regular⟩

theorem Stocked.rollback (h : w.Stocked) (hs : w.ctx.scopes ≠ []) :
    Stocked ⟨w.store, w.ctx.rollback⟩ :=
  ⟨h.kempt.rollback hs, h.ctx.shrinks (shrinks_rollback h.kempt.tidy.ok), h.regular⟩

/-- A new context has the nodes of truth and falsity. -/
theorem stocked_new (hs : s.Wf) (hreg : s.Regular) (config : Config) :
    Stocked ⟨s, .new config⟩ where
  kempt := kempt_new hs config
  ctx := by
    refine ⟨fun {x v} hx => ?_, fun n hn => ?_, fun q hq => absurd hq (Array.not_mem_empty q)⟩
    · have hnone : (Context.new config).subst[x]? = none := Std.HashMap.getElem?_empty
      cases hnone.symm.trans hx
    · have hterms : ∀ n ∈ Egraph.empty.nodes, n.term = .top ∨ n.term = .bot := by decide
      have htop : s.Has .top .bool := ⟨⟨_, hs.truth⟩, fun _ => rfl⟩
      rcases hterms n hn with heq | heq
      · rw [heq]
        exact ⟨.top hs, .inl htop, fun _ => rfl⟩
      · rw [heq]
        refine ⟨.bot hs, .inl htop.neg, fun {f args} happ => ?_⟩
        have hshape : s.shape .bot = .truth := Store.shape_of_node hs.truth
        cases hshape.symm.trans happ
  regular := hreg

/-- Every operation leaves a context stocked, whether it is refused or not. -/
theorem lasting_stocked : Lasting Stocked where
  ok h := h.kempt.tidy.ok
  settings h := h.settings
  clearSearch h := h.maintains (Work.maintains_clearSearch h.able)
  openScope h := h.openScope
  commit h := h.commit
  rollback h := h.rollback
  exclude h := ⟨kempt_exclude h.kempt, (Work.maintains_clearSearch h.able).ctx.of_ctx id
    (fun _ => .inl) fun _ => id,
    h.regular⟩
  reset h := (stocked_new h.kempt.tidy.ok.store h.regular _).settings _ _ _
  assertAll h ts := h.maintains (Work.maintains_assertAll h.able ts).leads.moves
  assertQuantifier h formula patterns :=
    h.maintains (Work.maintains_assertQuantifier h.able formula patterns).moves
  search h p stop fuel := h.maintains (Work.maintains_search h.able p stop fuel).moves

end Workspace

/-! ## Runs -/

/-- A context that was used in some way since it was made, in a store that was in order
all the time. -/
def UsedInOrder (w : Workspace) : Prop :=
  ∃ (s : Store) (config : Config), s.Intact ∧
    Relation.ReflTransGen (fun w w' => Turn w w' ∧ w'.store.Intact) ⟨s, .new config⟩ w

namespace UsedInOrder

open Workspace

variable {s : Store} {w : Workspace}

theorem new (hs : s.Intact) (config : Config) : UsedInOrder ⟨s, .new config⟩ :=
  ⟨s, config, hs, .refl⟩

theorem used (h : UsedInOrder w) : Used w := by
  obtain ⟨s, config, hs, hrun⟩ := h
  exact ⟨s, config, hs.wf, Relation.ReflTransGen.mono (fun _ _ h => h.1) _ _ hrun⟩

theorem intact (h : UsedInOrder w) : w.store.Intact := by
  obtain ⟨s, config, hs, hrun⟩ := h
  cases hrun with
  | refl => exact hs
  | tail _ hturn => exact hturn.2

theorem stocked (h : UsedInOrder w) : w.Stocked := by
  obtain ⟨s, config, hs, hrun⟩ := h
  induction hrun with
  | refl => exact stocked_new hs.wf hs.regular config
  | tail hrun hturn ih =>
    have hkempt := kempt_of_used (used ⟨s, config, hs, hrun.tail hturn⟩)
    obtain ⟨hturn, hintact⟩ := hturn
    cases hturn with
    | act a => exact lasting_stocked.run a ih
    | store hs hspares =>
      have hctx := ih.ctx.spares ih.kempt.tidy.typed ih.kempt.tidy.ok.ctx ih.kempt.tidy.ok.store
        hspares
      exact ⟨hkempt, hctx, hintact.regular⟩

/-- An operation builds upon the store. -/
theorem built (h : UsedInOrder w) (a : Action) : Store.Built w.store (endState (a.run w)).store :=
  (continues_run a (atRest_of_reachable (reachable_of_used h.used))
    h.stocked.kempt.tidy.typed).built

/-- An operation may follow, whether it is refused or not. -/
theorem act (h : UsedInOrder w) (a : Action) : UsedInOrder (endState (a.run w)) := by
  have hintact := ((h.built a).keeps h.intact).intact
  obtain ⟨s, config, hs, hrun⟩ := h
  exact ⟨s, config, hs, hrun.tail ⟨.act a w, hintact⟩⟩

/-- The store may change as long as it stays in order and spares what the context refers to. -/
theorem store (h : UsedInOrder w) (hs : s.Intact) (hspares : w.store.Spares s w.ctx.roots) :
    UsedInOrder ⟨s, w.ctx⟩ := by
  obtain ⟨s₀, config, hs₀, hrun⟩ := h
  exact ⟨s₀, config, hs₀, hrun.tail ⟨.store hs.wf hspares, hs⟩⟩

end UsedInOrder

namespace Workspace

variable {w w' : Workspace}

/-! ## Searches -/

theorem Stocked.underway (h : w.Stocked) (stop : StopRequest) : (w.underway stop).Stocked := by
  unfold Workspace.underway
  split
  · exact h.openScope.settings _ _ _
  · exact h.settings _ _ _

/-- Between two steps of a search. -/
theorem able_of_searching {p : Params} {stop : StopRequest} {n : Nat}
    (h : Work.Searching p stop w n w') (hw : w.Able) :
    w'.Able := by
  induction h with
  | start h => exact maintains_frame.stable hw ((Work.maintains_startSearch hw p).of_ok h).1
  | step _ hstep ih =>
    exact maintains_frame.stable ih ((Work.maintains_step ih p stop _).of_ok hstep).1

/-- However a context was used, whatever was accepted is processed, or refused for the degree of a
product that is rebuilt: a formula by itself, one in which the definitions were put before, formulas
of which some are processed already, and the instances that the quantifier solver adds to a complete
assignment. So the depth that processing starts with is never used up. -/
theorem accepted_processed (h : UsedInOrder w) :
    (∀ t, w.ctx.validate w.store t = .ok () →
      (∀ e w', Work.process t w = .error e w' → e.TooLarge) ∧
      ∀ r w₁, Work.onStore (Store.subst w.ctx.subst t) w = .ok r w₁ →
        ∀ e w', Work.process r w₁ = .error e w' → e.TooLarge) ∧
    (∀ ts e w', w.ctx.checkAssertAllowed = .ok () → ts.forM (w.ctx.validate w.store) = .ok () →
      Work.assertAll ts w = .error e w' → e.TooLarge) ∧
    ∀ p stop n w₁ w₂ x w₃, Work.Searching p stop (w.underway stop) n w₁ →
    Work.approach p stop n w₁ = .ok none w₂ →
      Work.finalCheck stop n w₂ = .ok x w₃ →
        (∀ t ∈ x.2.formulas, ∀ e w', Work.process t w₃ = .error e w' → e.TooLarge) ∧
        ∀ e w', Work.assertInstances x.2.formulas w₃ = .error e w' → e.TooLarge := by
  have hstocked := h.stocked
  have hable := hstocked.able
  refine ⟨fun t hvalid => ?_, fun ts e w' hallowed hvalid he => ?_, ?_⟩
  · have hbool : w.store.Has t .bool := has_of_validate hvalid
    have hass := assertable_of_validate hable.tidy.ok.store hvalid
    refine ⟨fun e w' => (Work.maintains_process hable hbool hass).cause, fun r w₁ hsubst e w' => ?_⟩
    obtain ⟨hm, hr, -, hass₁⟩ := (Work.maintains_subst hable hbool hass).leads.of_ok hsubst
    exact (Work.maintains_process (maintains_frame.stable hable hm) hr hass₁).cause
  · obtain hlarge | hno | hno := (Work.maintains_assertAll hable ts).cause he
    · exact hlarge
    · rw [hallowed] at hno
      cases hno
    · rw [hvalid] at hno
      cases hno
  · intro p stop n w₁ w₂ x w₃ hsearch happroach hfinal
    have hable₁ := able_of_searching hsearch (hstocked.underway stop).able
    have hable₂ := maintains_frame.stable hable₁
      ((Work.maintains_approach hable₁ p stop n).of_ok happroach).1
    obtain ⟨hm, -, hformulas⟩ := (Work.maintains_finalCheck hable₂ stop n).of_ok hfinal
    have hable₃ := maintains_frame.stable hable₂ hm
    refine ⟨fun t ht e w' => ?_, fun e w' =>
      (Work.maintains_assertInstances hable₃ hformulas).cause⟩
    exact (Work.maintains_process hable₃ (hformulas t ht).1 (.body (hformulas t ht).2)).cause

/-- An application of a variable to a constant is accepted by a new context, and processed. -/
theorem accepted_processed_application :
    let w : Workspace := ⟨openHead, .new {}⟩
    UsedInOrder w ∧ w.ctx.validate w.store (.ofIndex 4) = .ok () ∧
      ∀ e w', Work.process (.ofIndex 4) w = .error e w' → e.TooLarge := by
  intro w
  have hs : openHead.Intact := reached_openHead.intact
  have hnode : openHead.node? (.ofIndex 4) = some (.app (.ofIndex 2) [.ofIndex 3], .bool) := by cbv
  have hsort : openHead.isSort (openHead.ty (.ofIndex 3)) = true := by cbv
  have hconst : (openHead.shape (.ofIndex 3)).isUninterpreted = true := by cbv
  have hargs : ∀ a ∈ [Term.ofIndex 3],
      openHead.isSort (openHead.ty a) = true ∧ (openHead.shape a).isUninterpreted = true := by
    intro a ha
    obtain rfl := List.mem_singleton.mp ha
    exact ⟨hsort, hconst⟩
  obtain ⟨hvalid, -⟩ := validate_application (c := .new {}) ⟨⟨_, hnode⟩, fun _ => rfl⟩ hs.wf.bool_ty
    (Interp.node?_of_shape hnode) hargs
  have hused : UsedInOrder w := .new hs {}
  exact ⟨hused, hvalid, ((accepted_processed hused).1 _ hvalid).1⟩

end Workspace
end Entail
