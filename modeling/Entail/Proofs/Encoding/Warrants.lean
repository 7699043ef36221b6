import Entail.Proofs.Encoding.Readings

/-!
# What the clauses of a context warrant

The clauses of a context say what its assertions say, up to constants that the context made. In one
direction, a structure in which the assertions are true warrants the clauses: every assignment that
follows it and satisfies the definitions satisfies all clauses. In the other direction, an
assignment that satisfies the clauses is a model of the assertions when it follows a structure.
Definitions of eliminated constants belong to both sides. Each step of an operation on a context is
followed in both directions at once.
-/

namespace Entail

open Search Context

namespace Store

variable {s s' : Store} {X Y : Term → Prop} {t c : Term} {shape : Term.Shape} {ty : Ty}

/-- What was not there before does not occur in terms of before. -/
theorem Avoids.grow (h : s.Avoids X t) (hr : s.Retains s')
    (hX : ∀ {u}, Y u → X u ∨ s.node? u = none) :
    s'.Avoids Y t := by
  refine Avoids.retains (fun u hu => ⟨(h u hu).1, fun hy => ?_⟩) hr
  obtain ⟨⟨n, hn⟩, hnot⟩ := h u hu
  rcases hX hy with hx | hdead
  · exact hnot hx
  · rw [node?, Term.index_positive] at hdead
    cases hdead.symm.trans hn

/-- Nothing of `X` occurs in the term, which has no free variables and applies constants only. -/
structure Plain (s : Store) (X : Term → Prop) (t : Term) : Prop where
  avoids : s.Avoids X t
  first : s.FirstOrder [] t

namespace Plain

theorem neg (h : s.Plain X t) : s.Plain X t.neg := ⟨h.avoids.neg, h.first.neg⟩

theorem positive (h : s.Plain X t) : s.Plain X t.positive := ⟨h.avoids.positive, h.first.positive⟩

theorem negIf (h : s.Plain X t) (flip : Bool) : s.Plain X (t.negIf flip) := by
  cases flip with
  | false => exact h
  | true => exact h.neg

theorem child (h : s.Plain X t) (hn : s.node? t = some (shape, ty))
    (hq : shape.isQuantifier = false)
    (hc : c ∈ shape.children) : s.Plain X c := ⟨h.avoids.child hn hc, h.first.children hn hq hc⟩

theorem parts (h : s.Plain X t) (hshape : s.shape t = shape) (hq : shape.isQuantifier = false) :
    ∀ c ∈ shape.children, s.Plain X c := fun c hc => by
  obtain ⟨⟨shape', ty⟩, hn⟩ := h.avoids.live
  obtain rfl : shape' = shape := (shape_of_node hn).symm.trans hshape
  exact h.child hn hq hc

theorem arg (h : s.Plain X t) {f : Term} {args : List Term} (hshape : s.shape t = .app f args) :
    ∀ a ∈ args, s.Plain X a := fun a ha => h.parts hshape rfl a (List.mem_cons_of_mem f ha)

theorem later (h : s.Plain X t) (hs : s.Wf) (hlater : Later s s')
    (hX : ∀ {u}, Y u → X u ∨ s.node? u = none) :
    s'.Plain Y t := ⟨h.avoids.grow hlater.retains hX, h.first.extends_ hs hlater.ext⟩

end Plain
end Store

/-! ## Views of contexts -/

namespace Context.View

variable {s s' : Store} {V V' : View} {M : Structure} {ρ ρ' : M.Env} {defs : List (List Literal)}
  {one : Literal}

/-- Eliminated constants have the values of their definitions. -/
def Defined (s : Store) (V : View) (M : Structure) (ρ : M.Env) : Prop :=
  ∀ {x v}, V.subst x = some v → M.value s ρ x = M.value s ρ v

/-- Some assignment that follows the structure satisfies the clauses. -/
structure Modelled (s : Store) (V : View) (M : Structure) (ρ : M.Env) : Prop where
  defined : V.Defined s M ρ
  clauses : ∃ a, V.clauses.Models a ∧ V.Follows s a (M.atoms s ρ)

/-- Constraints are true, and all assignments that follow the structure and satisfy the definitions
satisfy the clauses. -/
structure Warranted (s : Store) (defs : List (List Literal)) (V : View) (M : Structure)
    (ρ : M.Env) : Prop where
  defined : V.Defined s M ρ
  formulas : ∀ q ∈ V.quant.1, M.Holds s ρ q.formula
  clauses : ∀ {a}, Meets a defs → V.Follows s a (M.atoms s ρ) → V.clauses.Models a

/-- What there is has a type. -/
structure Typed (s : Store) (V : View) : Prop where
  subst : ∀ {x v}, V.subst x = some v → ∃ ty, s.Has x ty ∧ s.Has v ty
  vars : ∀ {x p}, V.vars x = some p → ∃ ty, s.Has p ty
  nodes : ∀ n ∈ V.egraph.1, ∃ ty, s.Has n.term ty
  formulas : ∀ q ∈ V.quant.1, s.Has q.formula .bool

/-- Outputs of gates are constants, and they occur in no definition, no constraint and no node. -/
structure Hides (s : Store) (V : View) : Prop where
  const : ∀ {p}, V.aux p → ∃ n, s.node? p = some (.uninterpreted .bool n, .bool)
  values : ∀ {x v}, V.subst x = some v → s.Plain V.aux v
  nodes : ∀ n ∈ V.egraph.1, s.Plain V.aux n.term
  formulas : ∀ q ∈ V.quant.1, s.Plain V.aux q.formula

section

variable (hs : s.Wf) (hV : V.Typed s)

include hs hV

/-- Values of atoms stay when the values of terms do. -/
theorem atom?_later (hlater : Store.Later s s') (hρ : Structure.SameBut (fun _ => False) s ρ ρ')
    {x : Nat} {p : Term}
    (hx : V.vars x = some p) : (M.atoms s' ρ').atom? s' p = (M.atoms s ρ).atom? s p := by
  obtain ⟨ty, hp⟩ := hV.vars hx
  refine Atoms.atom?_ofValues hp hs (hlater.ext.stays hs (Store.isValid_iff.mpr ⟨ty, hp⟩))
    fun u hu => ?_
  rcases List.mem_cons.mp hu with rfl | hu
  · exact Structure.value_later hs hlater hp hρ
  · obtain ⟨tu, hu⟩ := (hs.typed hp.node).live hu
    exact Structure.value_later hs hlater hu hρ

/-- The store may grow, and what is new may have any value. -/
theorem Warranted.later (h : V.Warranted s defs M ρ) (hlater : Store.Later s s')
    (hρ : Structure.SameBut (fun _ => False) s ρ ρ') : V.Warranted s' defs M ρ' where
  defined {x v} hx := by
    obtain ⟨ty, hxty, hvty⟩ := hV.subst hx
    rw [Structure.value_later hs hlater hxty hρ, Structure.value_later hs hlater hvty hρ]
    exact h.defined hx
  formulas q hq := (Structure.value_later hs hlater (hV.formulas q hq) hρ).trans (h.formulas q hq)
  clauses ha hA := h.clauses ha (hA.congr (fun hx => (atom?_later hs hV hlater hρ hx).symm) id
    fun _ => id)

/-- What is modelled in a store that has grown was modelled before. -/
theorem Modelled.of_later (h : V.Modelled s' M ρ) (hlater : Store.Later s s') :
    V.Modelled s M ρ where
  defined {x v} hx := by
    obtain ⟨ty, hxty, hvty⟩ := hV.subst hx
    rw [← Structure.value_of_extends hs hlater.wf hlater.ext hxty,
      ← Structure.value_of_extends hs hlater.wf hlater.ext hvty]
    exact h.defined hx
  clauses := by
    obtain ⟨a, ha, hA⟩ := h.clauses
    exact ⟨a, ha, hA.congr (fun hx => (atom?_later hs hV hlater (fun _ _ _ => rfl) hx).symm) id
      fun _ => id⟩

end

/-- Outputs of gates stay hidden while only new constants become outputs, and what is
added is plain. -/
theorem Hides.later (h : V.Hides s) (hs : s.Wf) (hlater : Store.Later s s')
    (hconst : ∀ {p}, V'.aux p → V.aux p ∨
      s.node? p = none ∧ ∃ n, s'.node? p = some (.uninterpreted .bool n, .bool))
    (hvalues : ∀ {x v}, V'.subst x = some v → V.subst x = some v ∨ s'.Plain V'.aux v)
    (hnodes : ∀ n ∈ V'.egraph.1, n ∈ V.egraph.1 ∨ s'.Plain V'.aux n.term)
    (hformulas : ∀ q ∈ V'.quant.1, q ∈ V.quant.1 ∨ s'.Plain V'.aux q.formula) : V'.Hides s' := by
  have hdead {p : Term} (hp : V'.aux p) : V.aux p ∨ s.node? p = none :=
    (hconst hp).imp_right And.left
  exact {
    const := fun hp => (hconst hp).elim (fun hp => (h.const hp).imp fun _ =>
      hlater.ext.node) And.right
    values := fun hx => (hvalues hx).elim (fun hx => (h.values hx).later hs hlater hdead) id
    nodes := fun n hn => (hnodes n hn).elim (fun hn => (h.nodes n hn).later hs hlater hdead) id
    formulas := fun q hq => (hformulas q hq).elim
      (fun hq => (h.formulas q hq).later hs hlater hdead) id }

theorem Hides.outputs (h : V.Hides s)
    (hunique : ∀ {x y p}, V.vars x = some p → V.vars y = some p → x = y) :
    V.Outputs s := ⟨h.const, hunique⟩

end Context.View

/-! ## Steps in both directions -/

namespace Workspace

variable {w w' w'' : Workspace} {t u : Term} {defs : List (List Literal)}
  {M : Structure} {ρ : M.Env}

theorem Described.typed (h : w.Described) : w.ctx.now.Typed w.store where
  subst hx := h.tidy.typed.subst hx
  vars hx := by
    obtain ⟨defs, hexact⟩ := h.explains
    exact ⟨_, (hexact.vars hx).1⟩
  nodes n hn := by
    obtain ⟨i, hi⟩ := Array.mem_iff_getElem?.mp (Array.mem_toList_iff.mp hn)
    exact (h.tidy.typed.egraph.described hi).2
  formulas q hq := (h.tidy.typed.solver.constraints q (Array.mem_toList_iff.mp hq)).formula

/-- A described context that hides the outputs of its gates, and a formula of the store in which
none occurs. -/
structure Carrying (t : Term) (w : Workspace) : Prop where
  described : w.Described
  hides : w.ctx.now.Hides w.store
  has : w.store.Has t .bool
  plain : w.store.Plain w.ctx.now.aux t

theorem Carrying.wf (h : w.Carrying t) : w.store.Wf := h.described.tidy.ok.store

theorem Carrying.outputs (h : w.Carrying t) : w.ctx.now.Outputs w.store :=
  h.hides.outputs h.described.tidy.ok.ctx.vars.term_unique

/-- Where the formula `t` is true, what warranted the clauses before warrants them after, up to the
values of new constants; and what is a model after was one before. -/
structure Conveys (t : Term) (w w' : Workspace) : Prop where
  start : w.Carrying t
  amends : Amends False w w'
  hides : w'.ctx.now.Hides w'.store
  aux : ∀ {p}, w'.ctx.now.aux p → w.ctx.now.aux p ∨ w.store.node? p = none
  sound : ∀ {defs}, w.ctx.now.Exact w.store w.ctx.trueLit defs →
    ∃ defs', w'.ctx.now.Exact w'.store w'.ctx.trueLit defs' ∧ ∀ {M : Structure} {ρ : M.Env},
      M.Fits w'.store →
      M.EnvFits w'.store ρ → w.ctx.now.Warranted w.store defs M ρ → M.Holds w.store ρ t →
      ∃ ρ' : M.Env, M.EnvFits w'.store ρ' ∧ Structure.SameBut (fun _ => False) w.store ρ ρ' ∧
        w'.ctx.now.Warranted w'.store defs' M ρ'
  complete : ∀ {M : Structure} {ρ : M.Env}, M.Fits w'.store → M.EnvFits w'.store ρ →
    w'.ctx.now.Modelled w'.store M ρ → w.ctx.now.Modelled w.store M ρ

theorem Conveys.later (h : Conveys t w w') : Store.Later w.store w'.store :=
  h.amends.grows.keeps.store

theorem Conveys.plain (h : Conveys t w w') (hu : w.store.Plain w.ctx.now.aux u) :
    w'.store.Plain w'.ctx.now.aux u :=
  hu.later h.start.wf h.later h.aux

theorem Conveys.carrying (h : Conveys t w w') (hu : w.Carrying u) : w'.Carrying u :=
  ⟨amends_frame.stable hu.described h.amends, h.hides, h.later.ext.has hu.has, h.plain hu.plain⟩

/-- A step is taken before others, after which another formula is true where `t` was. -/
theorem Conveys.preceded (h : Conveys u w' w'') (hw : w.Carrying t) (hr : Amends False w w')
    (haux : ∀ {p}, w'.ctx.now.aux p → w.ctx.now.aux p ∨ w.store.node? p = none)
    (hsound : ∀ {defs}, w.ctx.now.Exact w.store w.ctx.trueLit defs →
      ∃ defs', w'.ctx.now.Exact w'.store w'.ctx.trueLit defs' ∧ ∀ {M : Structure} {ρ : M.Env},
      M.Fits w'.store →
        M.EnvFits w'.store ρ → w.ctx.now.Warranted w.store defs M ρ → M.Holds w.store ρ t →
        ∃ ρ' : M.Env, M.EnvFits w'.store ρ' ∧ Structure.SameBut (fun _ => False) w.store ρ ρ' ∧
          w'.ctx.now.Warranted w'.store defs' M ρ' ∧ M.Holds w'.store ρ' u)
    (hcomplete : ∀ {M : Structure} {ρ : M.Env}, M.Fits w'.store → M.EnvFits w'.store ρ →
      w'.ctx.now.Modelled w'.store M ρ → w.ctx.now.Modelled w.store M ρ) : Conveys t w w'' := by
  have hlater : Store.Later w.store w'.store := hr.grows.keeps.store
  have hlater' := h.later
  refine ⟨hw, amends_frame.trans hr h.amends, h.hides, fun {p} hp => ?_, fun {defs} hdefs => ?_,
    fun hM hρ hm => ?_⟩
  · rcases h.aux hp with hp | hp
    · exact haux hp
    · refine .inr ?_
      cases hn : w.store.node? p with
      | none => rfl
      | some n => exact absurd (hp.symm.trans (hlater.ext.node hn)) nofun
  · obtain ⟨defs₁, hdefs₁, hsound₁⟩ := hsound hdefs
    obtain ⟨defs₂, hdefs₂, hsound₂⟩ := h.sound hdefs₁
    refine ⟨defs₂, hdefs₂, fun {M ρ} hM hρ hwarranted ht => ?_⟩
    obtain ⟨ρ₁, hρ₁, hsame, hwarranted, hu⟩ := hsound₁ (hM.of_extends hlater.wf hlater'.ext)
      (hρ.of_extends hlater.wf hlater'.ext) hwarranted ht
    -- what is newer still keeps its value
    obtain ⟨ρ₂, hρ₂, hsame₂, -⟩ := hρ₁.complete hρ hlater.wf hlater'.ext
    have hrefl := Store.later_frame.refl hlater.wf
    have hu₂ : M.Holds w'.store ρ₂ u :=
      (Structure.value_later hlater.wf hrefl h.start.has hsame₂).trans hu
    have hwarranted₂ := hwarranted.later hlater.wf h.start.described.typed hrefl hsame₂
    obtain ⟨ρ₃, hρ₃, hsame₃, hwarranted₃⟩ := hsound₂ hM hρ₂ hwarranted₂ hu₂
    exact ⟨ρ₃, hρ₃, (hsame.trans (hsame₂.of_extends hlater.ext)).trans
      (hsame₃.of_extends hlater.ext), hwarranted₃⟩
  · exact hcomplete (hM.of_extends hlater.wf hlater'.ext) (hρ.of_extends hlater.wf hlater'.ext)
      (h.complete hM hρ hm)

theorem conveys_frame : Frame (Carrying t) (Conveys t) where
  refl h := by
    refine ⟨h, amends_frame.refl h.described, h.hides, .inl, fun {defs} hdefs =>
      ⟨defs, hdefs, fun {M ρ} _ hρ hM _ => ?_⟩,
      fun _ _ => id⟩
    exact ⟨ρ, hρ, fun _ _ _ => rfl, hM⟩
  trans {w w₁ w₂} h h' := by
    refine h'.preceded h.start h.amends h.aux (fun {defs} hdefs => ?_) h.complete
    obtain ⟨defs', hdefs', hsound⟩ := h.sound hdefs
    refine ⟨defs', hdefs', fun {M ρ} hM hρ hwarranted ht => ?_⟩
    obtain ⟨ρ', hρ', hsame, hwarranted⟩ := hsound hM hρ hwarranted ht
    exact ⟨ρ', hρ', hsame, hwarranted,
      (Structure.value_later h.start.wf h.later h.start.has hsame).trans ht⟩
  stable h h' := h'.carrying h

/-- What is true where `t` is may be processed instead of it. -/
theorem Conveys.of_imp (h : Conveys u w w') (hw : w.Carrying t)
    (himp : ∀ {M : Structure} {ρ : M.Env}, M.Fits w.store →
    M.EnvFits w.store ρ → M.Holds w.store ρ t → M.Holds w.store ρ u) : Conveys t w w' := by
  refine h.preceded hw (amends_frame.refl hw.described) .inl
    (fun {defs} hdefs => ⟨defs, hdefs, fun {M ρ} hM hρ hwarranted ht => ?_⟩) fun _ _ => id
  exact ⟨ρ, hρ, fun _ _ _ => rfl, hwarranted, himp hM hρ ht⟩

/-- The store has grown since, and `u` is true where `t` was, for some values of new constants. -/
theorem Conveys.through (h : Conveys u w' w'') (hw : w.Carrying t) (hr : Amends False w w')
    (hctx : w'.ctx = w.ctx)
    (htrue : ∀ {M : Structure} {ρ : M.Env}, M.Fits w'.store → M.EnvFits w'.store ρ →
      w.ctx.now.Defined w'.store M ρ →
      M.Holds w'.store ρ t → ∃ ρ' : M.Env, M.EnvFits w'.store ρ' ∧ Structure.SameBut
      (fun _ => False) w.store ρ ρ' ∧
        M.Holds w'.store ρ' u) : Conveys t w w'' := by
  have hlater : Store.Later w.store w'.store := hr.grows.keeps.store
  refine h.preceded hw hr (fun hp => .inl (hctx ▸ hp))
    (fun {defs} hdefs => ⟨defs, ?_, fun {M ρ} hM hρ hwarranted ht => ?_⟩)
    fun _ _ hm => (hctx ▸ hm : w.ctx.now.Modelled w'.store _ _).of_later hw.wf
      hw.described.typed hlater
  · rw [hctx]
    exact hdefs.of_extends hw.wf hlater.wf hlater.ext
  · have hlater_refl : w.ctx.now.Warranted w'.store defs M ρ :=
      hwarranted.later hw.wf hw.described.typed hlater fun _ _ _ => rfl
    obtain ⟨ρ', hρ', hsame, hu⟩ := htrue hM hρ hlater_refl.defined
      ((Structure.value_of_extends hw.wf hlater.wf hlater.ext hw.has ρ).trans ht)
    refine ⟨ρ', hρ', hsame, ?_, hu⟩
    rw [hctx]
    exact hwarranted.later hw.wf hw.described.typed hlater hsame

/-- Clauses may be added, and definitions and constraints, as long as the formula says
what they say. -/
theorem Carrying.conveys (hw : w.Carrying t) (hg : Grows False w w') (hr : Retains w w')
    (hsubst : ∀ {x v}, w.ctx.now.subst x = some v → w'.ctx.now.subst x = some v)
    (hides : w'.ctx.now.Hides w'.store)
    (hsound : ∀ {defs}, w.ctx.now.Exact w.store w.ctx.trueLit defs → ∀ {M : Structure} {ρ : M.Env},
      M.Fits w'.store →
      M.EnvFits w'.store ρ → w.ctx.now.Warranted w'.store defs M ρ → M.Holds w'.store ρ t →
        w'.ctx.now.Warranted w'.store defs M ρ) : Conveys t w w' := by
  have hlater : Store.Later w.store w'.store := hg.keeps.store
  refine ⟨hw, hw.described.amends hg hr, hides, fun hp => .inl (hr.aux ▸ hp), fun {defs} hdefs =>
    ⟨defs, ?_, fun {M ρ} hM hρ h ht => ?_⟩,
    fun {M ρ} hM hρ h => ?_⟩
  · rw [hr.truth]
    exact (hdefs.of_extends hw.wf hlater.wf hlater.ext).of_same hr.vars hr.lits hr.bits hr.aux
      fun _ => hr.models
  · refine ⟨ρ, hρ, fun _ _ _ => rfl, hsound hdefs hM hρ (h.later hw.wf hw.described.typed hlater
      fun _ _ _ => rfl) ?_⟩
    exact (Structure.value_of_extends hw.wf hlater.wf hlater.ext hw.has ρ).trans ht
  · have hbefore : w.ctx.now.Modelled w'.store M ρ := by
      refine ⟨fun hx => h.defined (hsubst hx), ?_⟩
      obtain ⟨a, ha, hA⟩ := h.clauses
      exact ⟨a, hr.models ha, hA.congr (fun _ => rfl) (fun hx => hr.vars ▸ hx) fun _ hp =>
        hr.aux ▸ hp⟩
    exact hbefore.of_later hw.wf hw.described.typed hlater

/-- Where the clauses have a model, the formula is true. -/
def Tells (t : Term) (w : Workspace) : Prop :=
  ∀ ⦃M : Structure⦄ ⦃ρ : M.Env⦄, M.Fits w.store → M.EnvFits w.store ρ →
  w.ctx.now.Modelled w.store M ρ → M.Holds w.store ρ t

theorem Tells.conveys (h : w.Tells u) (hw : Conveys t w w') (hu : ∃ ty, w.store.Has u ty) :
    w'.Tells u := by
  intro M ρ hM hρ hm
  obtain ⟨ty, hu⟩ := hu
  have hlater := hw.later
  rw [Structure.Holds, Structure.value_of_extends hw.start.wf hlater.wf hlater.ext hu]
  exact h (hM.of_extends hw.start.wf hlater.ext) (hρ.of_extends hw.start.wf hlater.ext)
    (hw.complete hM hρ hm)

end Workspace
end Entail
