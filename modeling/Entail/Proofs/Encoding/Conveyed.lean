import Entail.Proofs.Context.Elimination
import Entail.Proofs.Context.Processed
import Entail.Proofs.Encoding.Hidden

/-!
# What is asserted is conveyed

Processing a formula changes definitions, constraints and clauses, and afterwards they say what they
said before and what the formula says. Each way in which a formula is processed is followed in both
directions: substitution of definitions, splitting of conjunctions, new constants for variables, new
definitions, and clauses.
-/

namespace Entail

open Search Context

/-! ## Substitutions -/

namespace Store

variable {s s' : Store} {σ : Subst} {x c body r : Term} {D : Term → Prop}

theorem SubstOk.keysAtoms (hσ : s.SubstOk σ) : s.KeysAtoms σ := fun _ _ hx => by
  obtain ⟨hneg, ty, n, hn, -⟩ := hσ hx
  rcases hn with hn | hn
  · exact ⟨hneg, _, _, hn, rfl⟩
  · exact ⟨hneg, _, _, hn, rfl⟩

/-- What occurs free in a term is part of it. -/
theorem FreeIn.subterm {t : Term} (h : s.FreeIn x t) : ∃ u, s.Below t u ∧ u.positive = x := by
  induction h with
  | self h => exact ⟨_, .refl, h⟩
  | part hn _ hc _ ih =>
    obtain ⟨u, hu, hx⟩ := ih
    exact ⟨u, .trans (.single (.child_of_node hn hc)) hu, hx⟩
  | body hn _ _ ih =>
    obtain ⟨u, hu, hx⟩ := ih
    exact ⟨u, .trans (.single (.child_of_node hn (by simp [Term.Shape.children]))) hu, hx⟩

/-- `σ` puts new constants for the terms of `D`, one each. -/
structure Skolem (s s' : Store) (D : Term → Prop) (σ : Subst) : Prop where
  keys : ∀ {x c : Term}, σ[x]? = some c → D x
  total : ∀ {x}, D x → ∃ c, σ[x]? = some c
  new : ∀ {x c : Term}, σ[x]? = some c → s.node? c = none ∧ c.isNegated = false ∧
    ∃ ty n, s.Has x ty ∧ s'.node? c = some (.uninterpreted ty n, ty)
  inj : ∀ {x y c : Term}, σ[x]? = some c → σ[y]? = some c → x = y

namespace Skolem

theorem empty (s : Store) : s.Skolem s (fun _ => False) ∅ := by
  have hnone {x c : Term} : (∅ : Subst)[x]? ≠ some c := by simp
  exact ⟨fun h => hnone h, False.elim, fun h => (hnone h).elim, fun h => (hnone h).elim⟩

/-- A constant that is still newer is put for one more term. -/
theorem insert {s₁ : Store} (h : s.Skolem s₁ D σ) (hs : s.Extends s₁) (hlater : s₁.Extends s')
    {ty : Ty} {n : Nat} (hx : s.Has x ty) (hdead : s₁.node? c = none) (hpos : c.isNegated = false)
    (hnode : s'.node? c = some (.uninterpreted ty n, ty)) :
    s.Skolem s' (fun y => D y ∨ y = x) (σ.insert x c) := by
  have hget {y d : Term} (hy : (σ.insert x c)[y]? = some d) : y = x ∧ d = c ∨ σ[y]? = some d := by
    rw [Std.HashMap.getElem?_insert] at hy
    split at hy
    next heq => exact .inl ⟨(eq_of_beq heq).symm, (Option.some.inj hy).symm⟩
    next => exact .inr hy
  -- the others are live by now
  have hold {y : Term} : σ[y]? ≠ some c := fun hy => by
    obtain ⟨-, -, ty, n, -, hn⟩ := h.new hy
    exact absurd (hdead.symm.trans hn) nofun
  refine ⟨fun hy => ?_, fun {y} hy => ?_, fun {y d} hy => ?_, fun {y z d} hy hz => ?_⟩
  · rcases hget hy with ⟨rfl, -⟩ | hy
    · exact .inr rfl
    · exact .inl (h.keys hy)
  · rw [Std.HashMap.getElem?_insert]
    split
    next => exact ⟨c, rfl⟩
    next hne => exact h.total (hy.resolve_right fun heq => hne (by simp [heq]))
  · rcases hget hy with ⟨rfl, heq⟩ | hy
    · rw [heq]
      refine ⟨?_, hpos, ty, n, hx, hnode⟩
      cases hn : s.node? c with
      | none => rfl
      | some m => exact absurd (hdead.symm.trans (hs.node hn)) nofun
    · obtain ⟨hnew, hpos, ty, n, hy, hn⟩ := h.new hy
      exact ⟨hnew, hpos, ty, n, hy, hlater.node hn⟩
  · rcases hget hy with ⟨rfl, rfl⟩ | hy'
    · rcases hget hz with ⟨rfl, -⟩ | hz'
      · rfl
      · exact (hold hz').elim
    · rcases hget hz with ⟨-, rfl⟩ | hz'
      · exact (hold hy').elim
      · exact h.inj hy' hz'

theorem mono {E : Term → Prop} (h : s.Skolem s' D σ) (hD : ∀ x, D x ↔ E x) : s.Skolem s' E σ :=
  ⟨fun hx => (hD _).mp (h.keys hx), fun hx => h.total ((hD _).mpr hx), h.new, h.inj⟩

theorem extends_ {s₁ : Store} (h : s.Skolem s₁ D σ) (e : s₁.Extends s') : s.Skolem s' D σ :=
  ⟨h.keys, h.total, fun hx => by
    obtain ⟨hnew, hpos, ty, n, hty, hn⟩ := h.new hx
    exact ⟨hnew, hpos, ty, n, hty, e.node hn⟩, h.inj⟩

theorem substOk (h : s.Skolem s' D σ) (e : s.Extends s')
    (hD : ∀ x, D x → s.IsVar x ∧ s.IsSort x) : s'.SubstOk σ := by
  intro x c hx
  obtain ⟨⟨hpos, ty, n, hn⟩, tx, m, htx, hsort⟩ := hD x (h.keys hx)
  obtain rfl : tx = ty := congrArg Prod.snd (Option.some.inj (htx.node.symm.trans hn))
  obtain ⟨-, hcpos, tc, k, htc, hc⟩ := h.new hx
  obtain rfl := htc.unique htx
  refine ⟨hpos, tc, n, .inr (e.node hn), ⟨⟨_, hc⟩, by simp [hcpos]⟩,
    .node hc rfl rfl trivial (fun _ hd => by cases hd), ?_⟩
  simp [isFunctionTy, e.ty hsort]

/-- New constants may have any values. -/
theorem exists_env {M : Structure} {ρ : M.Env} (h : s.Skolem s' D σ) (e : s.Extends s')
    (hρ : M.EnvFits s' ρ) {xs : M.Env} (hxs : ∀ x, D x → (xs x).Inhabits s' (s'.ty x)) :
    ∃ ρ' : M.Env, M.EnvFits s' ρ' ∧ Structure.SameBut (fun _ => False) s ρ ρ' ∧
    (∀ x, (∃ n, s.node? x = some n) → ρ' x = ρ x) ∧
      ∀ {x c : Term}, σ[x]? = some c → ρ' c = xs x := by
  classical
  let ρ' : M.Env := fun c => if h : ∃ x : Term, σ[x]? = some c then xs h.choose else ρ c
  have hput {x c : Term} (hx : σ[x]? = some c) : ρ' c = xs x := by
    have hex : ∃ x : Term, σ[x]? = some c := ⟨x, hx⟩
    exact (dif_pos hex).trans (congrArg xs (h.inj hex.choose_spec hx))
  have hlive {x : Term} (hx : ∃ n, s.node? x = some n) : ρ' x = ρ x := by
    refine dif_neg fun ⟨y, hy⟩ => ?_
    obtain ⟨n, hn⟩ := hx
    exact absurd ((h.new hy).1.symm.trans hn) nofun
  refine ⟨ρ', fun {c shape ty} hn hpos hatom => ?_, fun x ⟨shape, ty, hn, _⟩ _ =>
    (hlive ⟨_, hn⟩).symm, fun x => hlive, hput⟩
  by_cases hc : ∃ x : Term, σ[x]? = some c
  · obtain ⟨x, hx⟩ := hc
    obtain ⟨-, -, tx, m, htx, hnode⟩ := h.new hx
    obtain rfl : tx = ty := congrArg Prod.snd (Option.some.inj (hnode.symm.trans hn))
    rw [hput hx]
    exact (e.has htx).ty_eq ▸ hxs x (h.keys hx)
  · rw [show ρ' c = ρ c from dif_neg hc]
    exact hρ hn hpos hatom

end Skolem
end Store

/-! ## Truth -/

namespace Structure

open Store

variable {M : Structure} {s s' : Store} {σ : Subst} {ρ : M.Env} {t r body : Term}
  {args vars : List Term} {ty : Ty}

theorem holds_later (hs : s.Wf) (hlater : Later s s') (ht : s.Has t ty) :
    M.Holds s' ρ t ↔ M.Holds s ρ t := by
  rw [Holds, Holds, value_of_extends hs hlater.wf hlater.ext ht]

/-- Where keys have the values of what is put for them, a term has the value of what it becomes. -/
theorem value_of_defined (hs : s.Wf) (hM : M.Fits s) (hρ : M.EnvFits s ρ) (hσ : s.SubstOk σ)
    (hb : s.Becomes σ t r) (hdef : ∀ {x v : Term}, σ[x]? = some v → M.value s ρ x = M.value s ρ v) :
    M.value s ρ r = M.value s ρ t := by
  have hkeys := hσ.keysAtoms
  have hunder : M.under s σ ρ = ρ := by
    funext x
    cases hx : σ[x]? with
    | none => exact under_of_none hx
    | some v =>
      obtain ⟨hpos, shape, ty, hn, hatom⟩ := hkeys hx
      rw [under_of_some hx, ← hdef hx, value_of_node hs hn hpos]
      cases shape <;> first | rfl | cases hatom
  rw [value_of_becomes hs hM hb hσ.assigns hkeys (not_captures hs fun x v hx => ?_) hρ, hunder]
  obtain ⟨-, _, _, -, -, hfirst, -⟩ := hσ hx
  exact hfirst

/-- A body has a value of its variables when the new constants for them have it. -/
theorem exists_value_of_skolem {D : Term → Prop} (h : s.Skolem s' D σ) (hs : s.Wf)
    (hlater : Later s s')
    (hσ : s'.SubstOk σ) (hbody : s.Has body ty) (hb : s'.Becomes σ body r) (hM : M.Fits s')
    (hρ : M.EnvFits s' ρ)
    (hD : ∀ x, D x ↔ x ∈ vars) {xs : M.Env} (hxs : ∀ x ∈ vars, (xs x).Inhabits s' (s'.ty x)) :
    ∃ ρ' : M.Env, M.EnvFits s' ρ' ∧ SameBut (fun _ => False) s ρ ρ' ∧
      M.value s' ρ' r = M.value s' (rebind ρ vars xs) body := by
  obtain ⟨ρ', hρ', hsame, hold, hput⟩ := h.exists_env hlater.ext hρ fun x hx => hxs x ((hD x).mp hx)
  refine ⟨ρ', hρ', hsame, ?_⟩
  have hkeys := hσ.keysAtoms
  rw [value_of_becomes hlater.wf hM hb hσ.assigns hkeys
    (not_captures hlater.wf fun x v hx => ?_) hρ']
  · refine value_congr hlater.wf (hlater.ext.has hbody) fun x hx => ?_
    cases hkey : σ[x]? with
    | none =>
      have hnot : x ∉ vars := fun hmem => by
        obtain ⟨c, hc⟩ := h.total ((hD x).mpr hmem)
        exact absurd (hkey.symm.trans hc) nofun
      obtain ⟨u, hu, rfl⟩ := (hx.of_extends hs hlater.ext hbody).subterm
      obtain ⟨n, hn⟩ := Below.live hs hu (isValid_iff.mpr ⟨ty, hbody⟩)
      rw [under_of_none hkey, rebind, if_neg hnot, hold _ ⟨n, by rwa [node?, Term.index_positive]⟩]
    | some c =>
      obtain ⟨-, hpos, tc, n, -, hn⟩ := h.new hkey
      rw [under_of_some hkey, rebind, if_pos ((hD x).mp (h.keys hkey)), ← hput hkey,
        value_of_node hlater.wf hn hpos]
      rfl
  · obtain ⟨-, _, _, -, -, hfirst, -⟩ := hσ hx
    exact hfirst

section

variable (hs : s.Wf) (hM : M.Fits s) (hρ : M.EnvFits s ρ)

include hs

theorem holds_top : M.Holds s ρ .top := by
  unfold Holds
  rw [value_of_node hs hs.truth rfl]
  rfl

include hM hρ

theorem holds_neg (ht : s.Has t .bool) : M.Holds s ρ t.neg ↔ ¬ M.Holds s ρ t := by
  obtain ⟨b, hb⟩ := (Val.inhabits_bool hs).mp (value_inhabits hs hM hρ ht)
  unfold Holds
  rw [value_neg hs ht, hb]
  cases b <;> simp [Val.not]

theorem not_holds_bot : ¬ M.Holds s ρ .bot :=
  fun h => (holds_neg hs hM hρ ⟨⟨_, hs.truth⟩, fun _ => rfl⟩ : M.Holds s ρ .bot ↔ _).mp h
    (holds_top hs)

theorem holds_or (hn : s.node? t = some (.or args, ty)) (hpos : t.isNegated = false) :
    M.Holds s ρ t ↔ ∃ a ∈ args, M.Holds s ρ a := by
  obtain ⟨rfl, hargs⟩ := hs.typed hn
  rw [holds_iff hs hM hρ ⟨⟨_, hn⟩, by simp⟩, value_of_node hs hn hpos, node_eq_combine rfl]
  simp only [Term.Shape.combine, Term.Shape.children, Val.toBool_ofProp, List.mem_map,
    exists_exists_and_eq_and]
  exact exists_congr fun a => and_congr_right fun ha => (holds_iff hs hM hρ (hargs a ha)).symm

theorem holds_nor (hn : s.node? t = some (.or args, ty)) (hneg : t.isNegated = true) :
    M.Holds s ρ t ↔ ∀ a ∈ args, M.Holds s ρ a.neg := by
  obtain ⟨rfl, hargs⟩ := hs.typed hn
  have hpos : s.node? t.positive = some (.or args, .bool) := by rwa [node?, Term.index_positive]
  have hbool : s.Has t.positive .bool := ⟨⟨_, hpos⟩, fun _ => rfl⟩
  conv_lhs => rw [← Term.neg_positive hneg]
  rw [holds_neg hs hM hρ hbool, holds_or hs hM hρ hpos (Term.isNegated_positive t), not_exists]
  exact forall_congr' fun a => not_and.trans
    (forall_congr' fun ha => (holds_neg hs hM hρ (hargs a ha)).symm)

/-- A negated quantifier is true when the body is false for some values of its variables. -/
theorem holds_not_all (hn : s.node? t = some (.all vars body, ty)) (hneg : t.isNegated = true) :
    M.Holds s ρ t ↔ ∃ xs : M.Env, (∀ v ∈ vars, (xs v).Inhabits s (s.ty v)) ∧
    ¬ M.Holds s (rebind ρ vars xs) body := by
  obtain ⟨rfl, -, -, hbody⟩ := hs.typed hn
  have hpos : s.node? t.positive = some (.all vars body, .bool) := by
    rwa [node?, Term.index_positive]
  have hbool : s.Has t.positive .bool := ⟨⟨_, hpos⟩, fun _ => rfl⟩
  conv_lhs => rw [← Term.neg_positive hneg]
  rw [holds_neg hs hM hρ hbool, holds_iff hs hM hρ hbool,
    value_of_node hs hpos (Term.isNegated_positive t), node,
    Val.toBool_ofProp, not_forall]
  refine exists_congr fun xs => ?_
  rw [Classical.not_imp]
  refine and_congr_right fun hxs => not_congr ?_
  exact (holds_iff hs hM (hρ.rebind hxs) hbody).symm

/-- A disjunction is true when one of its disjuncts is. -/
theorem holds_disjuncts (depth : Nat) (hargs : ∀ a ∈ args, s.Has a .bool) :
    (∃ a ∈ disjuncts s depth args, M.Holds s ρ a) ↔ ∃ a ∈ args, M.Holds s ρ a := by
  induction depth generalizing args with
  | zero => exact Iff.rfl
  | succ depth ih =>
    have hflat {f : Term → List Term} : (∃ x ∈ args.flatMap f, M.Holds s ρ x) ↔ ∃ a ∈ args,
        ∃ x ∈ f a, M.Holds s ρ x := by
      simp only [List.mem_flatMap]
      exact ⟨fun ⟨x, ⟨a, ha, hx⟩, h⟩ => ⟨a, ha, x, hx, h⟩, fun ⟨a, ha, x, hx, h⟩ =>
        ⟨x, ⟨a, ha, hx⟩, h⟩⟩
    refine hflat.trans (exists_congr fun a => and_congr_right fun ha => ?_)
    split
    next inner hneg hshape =>
      obtain ⟨ty, hn⟩ := node_of_shape hshape nofun
      exact (ih (hs.typed hn).2).trans (holds_or hs hM hρ hn hneg).symm
    · simp

end
end Structure
/-! ## Clauses -/

/-- What is added to a draft are the clauses that define. -/
theorem Draft.Grows.clauses {L L' : Draft} (h : L.Grows L') (hL : L.Ok) :
    ∃ cs, L'.defs = L.defs ++ cs ∧
    ∀ a, L'.view.clauses.Models a ↔ L.view.clauses.Models a ∧ Meets a cs := by
  obtain ⟨cs, hdefs, hdb⟩ := h.defs
  refine ⟨cs, hdefs, fun a => ?_⟩
  have hall : L'.view.clauses = (L.work.ctx.core.db.addAll cs L.work.ctx.depth).all :=
    congrArg Database.all hdb
  rw [hall]
  exact Database.models_addAll hL.work.ctx.core

namespace Workspace

variable {w w' : Workspace} {t : Term} {a : Nat → Bool} {M : Structure} {ρ : M.Env}
  {defs : List (List Literal)}

theorem Carrying.masks (hw : w.Carrying t) : w.Masks :=
  ⟨hw.wf, hw.described.tidy.ok.ctx.nodes, hw.hides.const⟩

/-- An assignment that follows a structure followed it before there were more variables. -/
theorem Carrying.follows (hw : w.Carrying t) (hv : Veils w w')
    (hvars : ∀ {x p}, w.ctx.now.vars x = some p → w'.ctx.now.vars x = some p)
    (h : w'.ctx.now.Follows w'.store a (M.atoms w'.store ρ)) :
    w.ctx.now.Follows w.store a (M.atoms w.store ρ) := by
  refine h.congr (fun hx => ?_) hvars fun {x p} hx hp => (hv.dead hp).resolve_right fun hdead => ?_
  · exact (View.atom?_later hw.wf hw.described.typed hv.store (fun _ _ _ => rfl) hx).symm
  · obtain ⟨ty, hty⟩ := hw.described.typed.vars hx
    exact absurd (hdead.symm.trans hty.node) nofun

/-- Clauses may define new variables, and say what the formula says. -/
theorem Carrying.conveys_clauses (hw : w.Carrying t) (hr : Amends False w w') (hv : Veils w w')
    (hvars : ∀ {x p}, w.ctx.now.vars x = some p → w'.ctx.now.vars x = some p)
    (hmodels : ∀ {a}, w'.ctx.now.clauses.Models a → w.ctx.now.clauses.Models a)
    (hdefs : ∀ {defs}, w.ctx.now.Exact w.store w.ctx.trueLit defs → ∃ defs',
      w'.ctx.now.Exact w'.store w'.ctx.trueLit defs' ∧ (∀ {a}, Meets a defs' → Meets a defs) ∧
        ∀ {M : Structure} {ρ : M.Env} {a}, M.Fits w'.store → M.EnvFits w'.store ρ →
        M.Holds w'.store ρ t → Meets a defs' →
          w'.ctx.now.Follows w'.store a (M.atoms w'.store ρ) → w.ctx.now.clauses.Models a →
          w'.ctx.now.clauses.Models a) :
    Conveys t w w' := by
  have hsubst : w'.ctx.now.subst = w.ctx.now.subst := congrArg (fun σ : Subst => (σ[·]?)) hv.subst
  refine ⟨hw, hr, hw.hides.veils hw.wf hv, hv.dead, fun {defs} h => ?_, fun {M ρ} hM hρ h => ?_⟩
  · obtain ⟨defs', hexact, hmeets, hclauses⟩ := hdefs h
    refine ⟨defs', hexact, fun {M ρ} hM hρ hwarranted ht => ⟨ρ, hρ, fun _ _ _ => rfl, ?_⟩⟩
    have hlater : w.ctx.now.Warranted w'.store defs M ρ :=
      hwarranted.later hw.wf hw.described.typed hv.store fun _ _ _ => rfl
    refine ⟨fun hx => hlater.defined (hsubst ▸ hx), fun q hq => hlater.formulas q ?_,
      fun ha hA => ?_⟩
    · exact (congrArg (q ∈ ·.toList) hv.constraints).mp hq
    · refine hclauses hM hρ ?_ ha hA (hwarranted.clauses (hmeets ha) (hw.follows hv hvars hA))
      exact (Structure.value_of_extends hw.wf hv.store.wf hv.store.ext hw.has ρ).trans ht
  · have hbefore : w.ctx.now.Defined w'.store M ρ := fun hx => h.defined (hsubst ▸ hx)
    obtain ⟨a, ha, hA⟩ := h.clauses
    refine ⟨fun {x v} hx => ?_, a, hmodels ha, hw.follows hv hvars hA⟩
    obtain ⟨ty, hxty, hvty⟩ := hw.described.typed.subst hx
    rw [← Structure.value_of_extends hw.wf hv.store.wf hv.store.ext hxty,
      ← Structure.value_of_extends hw.wf hv.store.wf hv.store.ext hvty]
    exact hbefore hx

end Workspace

namespace Work

open Workspace

variable {w w' : Workspace} {t : Term} {leaves : List Term} {ls : List Literal}

/-- What one of some formulas has one of the literals has that are related to them. -/
theorem exists_iff_of_forall₂ {α β : Type} {R : α → β → Prop} {P : α → Prop} {Q : β → Prop}
    {as : List α} {bs : List β}
    (h : List.Forall₂ R as bs) (hPQ : ∀ a ∈ as, ∀ b, R a b → (P a ↔ Q b)) :
    (∃ a ∈ as, P a) ↔ ∃ b ∈ bs, Q b := by
  induction h with
  | nil => simp
  | cons hab _ ih =>
    simp only [List.mem_cons, exists_eq_or_imp]
    exact or_congr (hPQ _ List.mem_cons_self _ hab)
      (ih fun a ha => hPQ a (List.mem_cons_of_mem _ ha))

/-- Encoding only defines. -/
theorem conveys_drafted (hw : w.Carrying t) (hr : Amends False w w') (hv : Veils w w')
    (hdrafts : ∀ {defs}, w.ctx.now.Exact w.store w.ctx.trueLit defs → ∃ L : Draft, L.work = w' ∧
      Draft.Grows ⟨w, defs⟩ L) :
    Conveys t w w' := by
  have hgrown {defs : List (List Literal)} (h : w.ctx.now.Exact w.store w.ctx.trueLit defs) :
      ∃ L : Draft, L.work = w' ∧ Draft.Grows ⟨w, defs⟩ L ∧ ∃ cs, L.defs = defs ++ cs ∧
        ∀ a, w'.ctx.now.clauses.Models a ↔ w.ctx.now.clauses.Models a ∧ Meets a cs := by
    obtain ⟨L, rfl, hg⟩ := hdrafts h
    exact ⟨L, rfl, hg, hg.clauses ⟨hw.described.tidy.ok, h⟩⟩
  obtain ⟨defs₀, h₀⟩ := hw.described.explains
  obtain ⟨L₀, hL₀, hg₀, _, -, hmodels₀⟩ := hgrown h₀
  refine hw.conveys_clauses hr hv (hL₀ ▸ hg₀.vars) (fun ha => ((hmodels₀ _).mp ha).1)
    fun {defs} h => ?_
  obtain ⟨L, rfl, hg, cs, hdefs, hmodels⟩ := hgrown h
  refine ⟨L.defs, hg.ok.exact_, hg.meets, fun _ _ _ ha _ hm => (hmodels _).mpr ⟨hm, ?_⟩⟩
  exact (meets_append.mp (hdefs ▸ ha)).2

/-- Some formulas were encoded, one of which is true where `t` is, and their literals
become a clause. -/
theorem conveys_clause (hw : w.Carrying t) (hr : Amends False w w') (hv : Veils w w')
    (hls : KnowsAll ls w')
    (hdrafts : ∀ {defs}, w.ctx.now.Exact w.store w.ctx.trueLit defs → ∃ L : Draft, L.work = w' ∧
      Draft.Grows ⟨w, defs⟩ L ∧
      List.Forall₂ (fun a l => L.Says l a) leaves ls)
    (hleaves : ∀ a ∈ leaves, w.store.Has a .bool ∧ w.Ungated a)
    (htrue : ∀ {M : Structure} {ρ : M.Env}, M.Fits w'.store → M.EnvFits w'.store ρ →
      (M.Holds w'.store ρ t ↔ ∃ a ∈ leaves, M.Holds w'.store ρ a)) :
    Leads (fun _ => Conveys t w) w' (clause ls) fun _ w'' => w''.Tells t := by
  have hdrafted := conveys_drafted hw hr hv fun h => (hdrafts h).imp fun _ h => ⟨h.1, h.2.1⟩
  have hw' := hdrafted.carrying hw
  let w'' : Workspace := ⟨w'.store, w'.ctx.addClause ls⟩
  have hclause {a : Nat → Bool} :
      w''.ctx.now.clauses.Models a ↔ w'.ctx.now.clauses.Models a ∧ ∃ l ∈ ls, l.eval a = true := by
    rw [show w''.ctx.now.clauses = (w'.ctx.core.db.add ls w'.ctx.depth).all
      from congrArg Database.all (Core.db_addClause _ _ _)]
    exact Database.all_models_add hw'.described.tidy.ok.ctx.core
  -- the literals have the values of the formulas
  have hvalue {defs : List (List Literal)} {L : Draft} (hL : L.work = w')
    (hg : Draft.Grows ⟨w, defs⟩ L)
      (hsaid : List.Forall₂ (fun a l => L.Says l a) leaves ls) {M : Structure} {ρ : M.Env}
      {a : Nat → Bool} (hM : M.Fits w'.store)
      (hρ : M.EnvFits w'.store ρ) (ha : Meets a L.defs)
      (hA : w'.ctx.now.Follows w'.store a (M.atoms w'.store ρ)) :
      (∃ l ∈ ls, l.eval a = true) ↔ ∃ b ∈ leaves, M.Holds w'.store ρ b := by
    subst hL
    refine (exists_iff_of_forall₂ hsaid fun b hb l hl => ?_).symm
    rw [Structure.holds_iff hw'.wf hM hρ hl.has, ← hA.eval hw'.outputs
      (hl.value ha) hw'.wf hM hρ hl.has (hdrafted.plain (hleaves b hb).2).avoids]
  have hgrown {defs : List (List Literal)} (h : w.ctx.now.Exact w.store w.ctx.trueLit defs) :
      ∃ L : Draft, L.work = w' ∧ Draft.Grows ⟨w, defs⟩ L ∧
        List.Forall₂ (fun a l => L.Says l a) leaves ls ∧
        w'.ctx.now.Exact w'.store w'.ctx.trueLit L.defs ∧
        ∃ cs, L.defs = defs ++ cs ∧ ∀ a, w'.ctx.now.clauses.Models a ↔ w.ctx.now.clauses.Models a ∧
          Meets a cs := by
    obtain ⟨L, rfl, hg, hsaid⟩ := hdrafts h
    exact ⟨L, rfl, hg, hsaid, hg.ok.exact_, hg.clauses ⟨hw.described.tidy.ok, h⟩⟩
  obtain ⟨defs₀, h₀⟩ := hw.described.explains
  obtain ⟨L₀, hL₀, hg₀, hsaid₀, hexact₀, cs₀, -, hmodels₀⟩ := hgrown h₀
  have hr' : Amends False w' w'' := (amends_clause hw'.described hls).moves
  refine ⟨hw.conveys_clauses (amends_frame.trans hr hr')
    (veils_frame.trans hv (veils_clause ls w' (hv.masks hw.masks)))
    hr.grows.vars (fun ha => ((hmodels₀ _).mp (hclause.mp ha).1).1) fun {defs} h =>
      ?_, fun {M ρ} hM hρ h => ?_⟩
  · obtain ⟨L, hL, hg, hsaid, hexact, cs, hdefs, hmodels⟩ := hgrown h
    refine ⟨L.defs, hexact.of_same rfl rfl rfl rfl fun _ ha => (hclause.mp ha).1, hg.meets,
      fun hM hρ ht ha hA hm => ?_⟩
    refine hclause.mpr ⟨(hmodels _).mpr ⟨hm, (meets_append.mp (hdefs ▸ ha)).2⟩, ?_⟩
    exact (hvalue hL hg hsaid hM hρ ha hA).mpr ((htrue hM hρ).mp ht)
  · obtain ⟨a, ha, hA⟩ := h.clauses
    obtain ⟨hm, hl⟩ := hclause.mp ha
    exact (htrue hM hρ).mpr ((hvalue hL₀ hg₀ hsaid₀ hM hρ (hexact₀.meets hm) hA).mp hl)

theorem conveys_encoded {op : Work (List Literal)} (hw : w.Carrying t)
    (hleaves : ∀ a ∈ leaves, w.store.Has a .bool ∧ w.Ungated a)
    (htrue : ∀ {M : Structure} {ρ : M.Env}, M.Fits w.store → M.EnvFits w.store ρ →
      (M.Holds w.store ρ t ↔ ∃ a ∈ leaves, M.Holds w.store ρ a))
    (hop : Leads (Amends True) w op KnowsAll) (hhushed : Hushed w op)
    (hdrafts : ∀ {defs}, w.ctx.now.Exact w.store w.ctx.trueLit defs →
      Draft.Drafts ⟨w, defs⟩ op fun ls L' => List.Forall₂ (fun a l => L'.Says l a) leaves ls) :
    Leads (Conveys t) w (op >>= clause) fun _ w' => w'.Tells t := by
  have hveils := hhushed.moves
  have hamends : Amends False w (endState (op w)) := hop.moves.weaken
  have hgrown {defs : List (List Literal)} (h : w.ctx.now.Exact w.store w.ctx.trueLit defs) :
      ∃ L : Draft, L.work = endState (op w) ∧ Draft.Grows ⟨w, defs⟩ L :=
    Ends.endState (E := fun w' => ∃ L : Draft, L.work = w' ∧ Draft.Grows ⟨w, defs⟩ L)
      (Ends.mono (hdrafts h) (fun _ _ ⟨L, hL, hg, _⟩ => ⟨L, hL, hg⟩) fun _ => id)
  unfold Leads Ends
  cases hrun : op w with
  | error e w' =>
    rw [hrun] at hveils hamends hgrown
    rw [bind_of_error hrun]
    exact conveys_drafted hw hamends hveils hgrown
  | ok ls w' =>
    have hsaid {defs : List (List Literal)} (h : w.ctx.now.Exact w.store w.ctx.trueLit defs) :=
      (hdrafts h).of_ok hrun
    have hls := (hop.of_ok hrun).2
    rw [hrun] at hveils hamends
    rw [bind_of_ok hrun]
    refine conveys_clause hw hamends hveils hls hsaid hleaves fun {M ρ} hM hρ => ?_
    have hlater : Store.Later w.store w'.store := hveils.store
    rw [Structure.holds_later hw.wf hlater hw.has, htrue (hM.of_extends hw.wf hlater.ext)
      (hρ.of_extends hw.wf hlater.ext)]
    exact exists_congr fun b => and_congr_right fun hb =>
      (Structure.holds_later hw.wf hlater (hleaves b hb).1).symm

/-- A formula without eliminated constants becomes a clause. -/
theorem conveys_assertEncoded (hw : w.Carrying t) (hclean : w.Clean t) :
    Leads (Conveys t) w (assertEncoded t) fun _ w' => w'.Tells t := by
  have hok {defs : List (List Literal)} (h : w.ctx.now.Exact w.store w.ctx.trueLit defs) :
      Draft.Ok ⟨w, defs⟩ :=
    ⟨hw.described.tidy.ok, h⟩
  refine leads_look_bind (leads_look_bind ?_)
  split
  next args hneg hshape =>
    obtain ⟨ty, hn⟩ := Store.node_of_shape hshape nofun
    obtain ⟨-, hargs⟩ := hw.wf.typed hn
    have hhas := has_disjuncts hw.wf (w.store.terms.slots.size + 1) hargs
    have hplain := forall_disjuncts (P := w.Ungated) (fun hshape ha => ha.parts hshape rfl)
      (w.store.terms.slots.size + 1)
      (hw.plain.parts hshape rfl)
    have hfree := avoids_disjuncts (X := w.ctx.Eliminated) (w.store.terms.slots.size + 1)
      fun a ha => hclean.part (c := a) (by simpa [hshape, Term.Shape.children] using ha)
    refine leads_look_bind (conveys_encoded hw (fun a ha => ⟨hhas a ha, hplain a ha⟩)
      (fun hM hρ => ?_) ?_ ?_ fun h => ?_)
    · exact (Structure.holds_or hw.wf hM hρ hn (Bool.or_eq_false_iff.mp hneg).1).trans
        (Structure.holds_disjuncts hw.wf hM hρ _ hargs).symm
    · exact Leads.mapM (T := Knows) amends_frame hw.described (fun hr hl => hr.grows.live hl)
          fun l hl w' hw' hr =>
        amends_literalOf hw' (hr.grows.has (hhas l hl)) (hr.grows.clean (hfree l hl))
    · exact hushed_mapM hw.masks fun l hl w' hw' hr =>
        hushed_literalOf hw' (hr.store.ext.has (hhas l hl)) (hr.ungated hw.wf (hplain l hl))
    · exact .mapM (P := fun a l L => L.Says l a) (fun hL hg hl => hl.later hL hg) (hok h)
          fun a ha L' hg =>
        Draft.drafts_literalOf hg.ok (hg.later.ext.has (hhas a ha))
  · have hwhole : (literalOf t >>= fun l => clause [l]) = (literalOf t >>= fun l => pure [l]) >>=
        clause := by
      simp only [bind_assoc, pure_bind]
    rw [hwhole]
    have hleaves : ∀ a ∈ [t], w.store.Has a .bool ∧ w.Ungated a :=
      List.forall_mem_singleton.mpr ⟨hw.has, hw.plain⟩
    refine conveys_encoded hw hleaves (fun _ _ => by simp) ?_ ?_ fun h => ?_
    · exact amends_bind hw.described (amends_literalOf hw.described hw.has hclean)
          fun l w' hw' _ hl =>
        amends_pure hw' (List.forall_mem_singleton.mpr hl)
    · exact hushed_bind hw.masks (hushed_literalOf hw.masks hw.has hw.plain) fun l w' hw' _ _ =>
        hushed_pure hw' _
    · exact (Draft.drafts_literalOf (hok h) hw.has).bind fun l L' hg hl =>
        .pure hg.ok (.cons hl .nil)

/-! ## Constraints and definitions -/

/-- A constraint says what its formula says. -/
theorem conveys_addConstraint (hw : w.Carrying t) (hclean : w.Clean t) (patterns : List Term) :
    Leads (Conveys t) w (addConstraint t patterns) fun _ _ => True := by
  have hgrows : Grows False w (endState (addConstraint t patterns w)) :=
    (grows_addConstraint hw.described.tidy patterns hclean).moves
  have hretains := spares_addConstraint t patterns w hw.described.tidy.ok.ctx.core
  have hregistry := hw.described.tidy.ok.ctx.registry
  cases hadd : w.ctx.solver.addConstraint w.store t patterns with
  | error e =>
    have hrun : addConstraint t patterns w = .error e w := by
      unfold addConstraint
      rw [bind_of_ok (rfl : look _ w = .ok w.ctx.registry.quant? w), hregistry.quant?]
      exact bind_of_error (show check (fun s _ => w.ctx.solver.addConstraint s t patterns) w =
        _ by simp [check, hadd])
    unfold Leads Ends
    rw [hrun]
    exact conveys_frame.refl hw
  | ok q =>
    let w' : Workspace := ⟨w.store, { w.ctx with registry := w.ctx.registry.setQuant q }⟩
    have hrun : addConstraint t patterns w = .ok () w' := by
      unfold addConstraint
      rw [bind_of_ok (rfl : look _ w = .ok w.ctx.registry.quant? w), hregistry.quant?]
      exact bind_of_ok (show check (fun s _ => w.ctx.solver.addConstraint s t patterns) w =
        _ by simp [check, hadd])
    have hsolver : (w.ctx.registry.setQuant q).solver = q := (hregistry.setQuant q).solver
    have hnew {c : Quant.Constraint} (hc : c ∈ w'.ctx.now.quant.1) : c ∈ w.ctx.now.quant.1 ∨
        c.formula = t := by
      have hc : c ∈ (w.ctx.registry.setQuant q).solver.constraints := Array.mem_toList_iff.mp hc
      rw [hsolver] at hc
      exact (Quant.Solver.formula_addConstraint hadd c hc).imp_left Array.mem_toList_iff.mpr
    unfold Leads Ends
    rw [hrun] at hgrows hretains ⊢
    refine ⟨hw.conveys hgrows hretains id ?_ fun {_} _ {M ρ} hM hρ h ht =>
      ⟨h.defined, fun c hc => ?_, h.clauses⟩, trivial⟩
    · refine hw.hides.later hw.wf (Store.later_frame.refl hw.wf) .inl .inl (fun _ => .inl)
        fun c hc => ?_
      rcases hnew hc with hc | heq
      · exact .inl hc
      · exact .inr (heq.symm ▸ hw.plain)
    · rcases hnew hc with hc | heq
      · exact h.formulas c hc
      · exact heq ▸ ht

/-- A definition says what the formula says in which it was found. -/
theorem conveys_eliminate {x v : Term} (hw : w.Carrying t)
    (huse : Usable w.store w.ctx (some (x, v)))
    (hdef : Defines (some (x, v)) w) (hsaid : w.store.Says t x v) (hv : w.Ungated v) :
    Leads (Conveys t) w (change fun c =>
      { c with subst := c.subst.insert x v, substLog := c.substLog.push x })
      fun _ w' => w'.Tells t := by
  let w' : Workspace :=
    ⟨w.store, { w.ctx with subst := w.ctx.subst.insert x v, substLog := w.ctx.substLog.push x }⟩
  obtain ⟨hnew, -, ty, hx, -⟩ := huse x v rfl
  have hkeep {y u : Term} (hy : w.ctx.now.subst y = some u) : w'.ctx.now.subst y = some u := by
    change (w.ctx.subst.insert x v)[y]? = some u
    rw [Std.HashMap.getElem?_insert, if_neg]
    · exact hy
    · intro heq
      rw [← eq_of_beq heq] at hy
      exact absurd (hnew.symm.trans hy) nofun
  have hget {y u : Term} (hy : w'.ctx.now.subst y = some u) :
      y = x ∧ u = v ∨ w.ctx.now.subst y = some u := by
    change (w.ctx.subst.insert x v)[y]? = some u at hy
    rw [Std.HashMap.getElem?_insert] at hy
    split at hy
    next heq => exact .inl ⟨(eq_of_beq heq).symm, (Option.some.inj hy).symm⟩
    next => exact .inr hy
  have hiff {M : Structure} {ρ : M.Env} (hM : M.Fits w.store) (hρ : M.EnvFits w.store ρ) :
      M.Holds w.store ρ t ↔ M.value w.store ρ x = M.value w.store ρ v :=
    hsaid.value (Structure.valuation_lawful hw.wf hM hρ) fun _ => trivial
  have hgrows : Grows False w w' := grows_eliminate hw.described.tidy huse hdef
  refine ⟨hw.conveys hgrows
    ⟨rfl, rfl, rfl, rfl, rfl, id, hw.described.tidy.ok.ctx.core⟩ hkeep ?_
      fun {_} _ {M ρ} hM hρ h ht => ?_, fun M ρ hM hρ h => ?_⟩
  · refine hw.hides.later hw.wf (Store.later_frame.refl hw.wf) .inl (fun hy => ?_) (fun _ => .inl)
      fun _ => .inl
    rcases hget hy with ⟨rfl, rfl⟩ | hy
    · exact .inr hv
    · exact .inl hy
  · refine ⟨fun {y u} hy => ?_, h.formulas, h.clauses⟩
    rcases hget hy with ⟨rfl, rfl⟩ | hy
    · exact (hiff hM hρ).mp ht
    · exact h.defined hy
  · exact (hiff hM hρ).mpr (h.defined (by simp [Context.now, contents]))

end Work

namespace Workspace

variable {w w' w'' : Workspace} {t u : Term}

/-- The store may grow. -/
theorem Carrying.amends_built (hw : w.Carrying t) (h : Builds w w') : Amends False w w' := by
  obtain ⟨s, c⟩ := w'
  obtain ⟨hbuilt, hctx⟩ := h
  obtain rfl : c = w.ctx := hctx
  exact hw.described.amends (hw.described.tidy.grows_built hbuilt)
    (retains_of_ctx hw.described.tidy.ok.ctx.core rfl)

theorem Carrying.veils_built (hw : w.Carrying t) (h : Builds w w') : Veils w w' := by
  obtain ⟨s, c⟩ := w'
  obtain ⟨hbuilt, hctx⟩ := h
  obtain rfl : c = w.ctx := hctx
  exact ⟨hbuilt.later, hw.masks.nodes, rfl, rfl, .inl, fun _ => .inl⟩

theorem Carrying.conveys_built (hw : w.Carrying t) (h : Builds w w') : Conveys t w w' := by
  have hr := hw.amends_built h
  refine hw.conveys hr.grows (retains_of_ctx hw.described.tidy.ok.ctx.core h.ctx)
    (fun hx => h.ctx ▸ hx)
    (hw.hides.veils hw.wf (hw.veils_built h)) fun {_} _ {M ρ} _ _ hwarranted _ => ?_
  rw [h.ctx]
  exact hwarranted

/-- Definitions put closed terms for constants. -/
theorem Carrying.substOk (hw : w.Carrying t) : w.store.SubstOk w.ctx.subst := by
  intro x v hx
  have hdatum := hw.described.tidy.gone.datum ⟨v, hx⟩
  obtain ⟨ty, hxty, hvty⟩ := hw.described.typed.subst hx
  obtain ⟨tx, m, tx', hn⟩ := Store.node_of_isUninterpreted hdatum.const
  obtain rfl : tx' = ty := congrArg Prod.snd (Option.some.inj (hn.symm.trans hxty.node))
  obtain ⟨rfl, -⟩ := hw.wf.typed hn
  exact ⟨hdatum.positive, _, m, .inl hn, hvty, (hw.hides.values hx).first, hxty.ty_eq ▸ hdatum.ty⟩

/-- What tells another formula tells `t` when that says what `t` says. -/
theorem Tells.of_imp (h : w''.Tells u) (hw : Conveys u w' w'') (ht : w'.store.Has t .bool)
    (himp : ∀ {M : Structure} {ρ : M.Env}, M.Fits w'.store → M.EnvFits w'.store ρ →
      w'.ctx.now.Modelled w'.store M ρ →
      M.Holds w'.store ρ u → M.Holds w'.store ρ t) : w''.Tells t := by
  intro M ρ hM hρ hm
  have hwf := hw.start.wf
  have hlater := hw.later
  rw [Structure.holds_later hwf hlater ht]
  exact himp (hM.of_extends hwf hlater.ext) (hρ.of_extends hwf hlater.ext) (hw.complete hM hρ hm)
    ((Structure.holds_later hwf hlater hw.start.has).mp (h hM hρ hm))

end Workspace

namespace Work

open Workspace

variable {α β : Type} {w w' : Workspace} {t body r : Term} {vars args : List Term} {σ : Subst}
  {D : Term → Prop} {n k depth : Nat}

/-- Terms are built before the rest of an operation. -/
theorem conveys_onward {x : Work β} {f : β → Work α} {Q : β → Workspace → Prop}
    {T : α → Workspace → Prop} (hw : w.Carrying t)
    (h : Leads Builds w x Q) (hf : ∀ b w', Builds w w' → Q b w' →
      Leads (fun _ => Conveys t w) w' (f b) T) :
    Leads (Conveys t) w (x >>= f) T := by
  refine Ends.bind (Ends.mono h (fun b w' ⟨hb, hq⟩ => ?_) fun _ => hw.conveys_built)
  exact hf b w' hb hq

/-! ## New constants -/

/-- New constants are put for variables. -/
theorem hushed_constants {s : Store} (hw : w.Masks) (hs : s.Extends w.store)
    (hσ : s.Skolem w.store D σ) (hvars : ∀ v ∈ vars, ∃ ty, s.Has v ty) :
    Leads Veils w (vars.foldlM (fun (σ : Subst) v => do
      let ty ← look fun s _ => s.ty v
      return σ.insert v (← onStore (Store.newConst ty))) σ) fun σ' w' =>
        w'.ctx = w.ctx ∧ s.Skolem w'.store (fun x => D x ∨ x ∈ vars) σ' := by
  induction vars generalizing w σ D with
  | nil => exact Leads.pure veils_frame hw ⟨rfl, hσ.mono fun x => by simp⟩
  | cons v vars ih =>
    obtain ⟨⟨ty, hv⟩, hvars⟩ := List.forall_mem_cons.mp hvars
    rw [List.foldlM_cons]
    have hstep : Leads Veils w (do
        let ty ← look fun s _ => s.ty v
        return σ.insert v (← onStore (Store.newConst ty))) fun σ' w' =>
          w'.ctx = w.ctx ∧ s.Skolem w'.store (fun x => D x ∨ x = v) σ' := by
      refine leads_look_bind ?_
      rw [(hs.has hv).ty_eq]
      refine Leads.bind veils_frame hw (hushed_onStore hw (Store.newConst_builds hw.store ty))
        fun c w₁ hw₁ h₁ h => ?_
      obtain ⟨hctx, hdead, hpos, hnode, -⟩ := h
      exact Leads.pure veils_frame hw₁ ⟨hctx, hσ.insert hs h₁.store.ext hv hdead hpos hnode⟩
    refine Leads.bind veils_frame hw hstep fun σ₁ w₁ hw₁ h₁ ⟨hctx, hσ₁⟩ => ?_
    refine (ih hw₁ (hs.trans h₁.store.ext) hσ₁ hvars).mono fun σ' w' _ ⟨hctx', hσ'⟩ =>
      ⟨hctx'.trans hctx, hσ'.mono fun x => ?_⟩
    rw [or_assoc, List.mem_cons]

/-- The body of a quantifier becomes a closed term. -/
theorem hushed_skolemize (hw : w.Masks) (hvars : ∀ v ∈ vars, w.store.IsVar v ∧ w.store.IsSort v)
    (hbody : w.store.Has body .bool)
    (havoids : w.store.Avoids w.ctx.now.aux body) (hfirst : w.store.FirstOrder vars body) :
    Leads Veils w (skolemize vars body) fun r w' => w'.Ungated r ∧
      ∃ σ, w.store.Skolem w'.store (· ∈ vars) σ ∧ w'.store.Becomes σ body r := by
  refine Leads.bind veils_frame hw (hushed_constants hw (.refl _) (.empty _) fun v hv =>
    (hvars v hv).1.has)
    fun σ w₁ hw₁ h₁ ⟨hctx, hσ⟩ => ?_
  replace hσ := hσ.mono (E := (· ∈ vars)) fun x => by simp
  have hok := hσ.substOk h₁.store.ext hvars
  have hsubst := hushed_subst hw₁ hok (fun x c hx => ?_) (h₁.store.ext.has hbody)
    (havoids.grow h₁.store.retains h₁.dead)
    (fun v hv => hσ.total hv) (hfirst.extends_ hw.store h₁.store.ext)
  · exact hsubst.mono fun r w₂ h₂ ⟨_, hr, hb⟩ => ⟨hr, σ, hσ.extends_ h₂.store.ext, hb⟩
  · -- a new constant is no output
    obtain ⟨hdead, hpos, ty, n, -, hn⟩ := hσ.new hx
    refine .of_node hn (fun haux => ?_) fun _ hc => by cases hc
    rw [Term.positive_of_not_isNegated hpos, hctx] at haux
    obtain ⟨m, hm⟩ := hw.const haux
    exact absurd (hdead.symm.trans hm) nofun

/-! ## Whole formulas -/

/-- Processing `u` conveys what `t` says, which is true where `u` is, but for new constants. -/
theorem conveys_through {op : Work Unit} {u : Term} (hw : w.Carrying t) (hb : Builds w w')
    (htrue : ∀ {M : Structure} {ρ : M.Env}, M.Fits w'.store → M.EnvFits w'.store ρ →
      w.ctx.now.Defined w'.store M ρ →
      M.Holds w'.store ρ t → ∃ ρ' : M.Env, M.EnvFits w'.store ρ' ∧ Structure.SameBut
      (fun _ => False) w.store ρ ρ' ∧
        M.Holds w'.store ρ' u)
    (hback : w.store.Supported [] t → w'.store.Supported [] u ∧ ∀ {M : Structure} {ρ : M.Env},
      M.Fits w'.store →
      M.EnvFits w'.store ρ → w'.ctx.now.Modelled w'.store M ρ → M.Holds w'.store ρ u →
      M.Holds w'.store ρ t)
    (hop : Leads (Conveys u) w' op fun _ w'' => w'.store.Supported [] u → w''.Tells u) :
    Leads (fun _ => Conveys t w) w' op fun _ w'' => w.store.Supported [] t → w''.Tells t := by
  have hconveys {w'' : Workspace} (h : Conveys u w' w'') : Conveys t w w'' :=
    h.through hw (hw.amends_built hb) hb.ctx htrue
  refine Ends.mono hop (fun _ w'' ⟨h, htells⟩ => ⟨hconveys h, fun hs => ?_⟩) fun _ => hconveys
  obtain ⟨hu, himp⟩ := hback hs
  exact (htells hu).of_imp h (hb.ext.has hw.has) himp

/-- Conjuncts are processed one after the other. -/
theorem conveys_conjuncts (hw : w.Carrying t) (hprepared : w.Prepared n) {op : Term → Work Unit}
    (hargs : ∀ a ∈ args, w.store.Has a .bool ∧ w.Ungated a)
    (htrue : ∀ a ∈ args, ∀ {M : Structure} {ρ : M.Env}, M.Fits w.store → M.EnvFits w.store ρ →
      M.Holds w.store ρ t →
      M.Holds w.store ρ a.neg)
    (hop : ∀ a ∈ args, ∀ w', w'.Prepared n → Proceeds n w w' → w'.Carrying a.neg →
      Leads (Conveys a.neg) w' (op a) fun _ w'' => Proceeds n w' w'' ∧
      (w'.store.Supported [] a.neg → w''.Tells a.neg)) :
    Leads (Conveys t) w (args.forM op) fun _ w' => ∀ a ∈ args, w.store.Supported [] a.neg →
    w'.Tells a.neg := by
  induction args generalizing w with
  | nil => exact Leads.pure conveys_frame hw fun _ ha => by cases ha
  | cons a args ih =>
    obtain ⟨⟨hbool, hplain⟩, hrest⟩ := List.forall_mem_cons.mp hargs
    have ha : w.Carrying a.neg := ⟨hw.described, hw.hides, hbool.neg, hplain.neg⟩
    have hfirst := (hop a List.mem_cons_self w hprepared (proceeds_frame.refl hprepared) ha).reframe
        fun _ h =>
      h.of_imp hw (htrue a List.mem_cons_self)
    show Leads (Conveys t) w (op a >>= fun _ => args.forM op) _
    refine Leads.bind conveys_frame hw hfirst fun _ w₁ hw₁ h₁ ⟨hp₁, htells⟩ => ?_
    have hprepared₁ := proceeds_frame.stable hprepared hp₁
    have hlater := h₁.later
    have hall := ih hw₁ hprepared₁
      (fun b hb => ⟨hlater.ext.has (hrest b hb).1, h₁.plain (hrest b hb).2⟩)
      (fun b hb {M ρ} hM hρ ht => ?_) fun b hb w' hw' hp hc =>
        hop b (List.mem_cons_of_mem _ hb) w' hw'
        (proceeds_frame.trans hp₁ hp) hc
    · refine hall.mono fun _ w₂ h₂ hothers b hb hs => ?_
      rcases List.mem_cons.mp hb with rfl | hb
      · exact (htells hs).conveys h₂ ⟨.bool, hlater.ext.has hbool.neg⟩
      · exact hothers b hb (hs.later hlater.ext)
    · rw [Structure.holds_later hw.wf hlater (hrest b hb).1.neg]
      exact htrue b (List.mem_cons_of_mem _ hb) (hM.of_extends hw.wf hlater.ext)
        (hρ.of_extends hw.wf hlater.ext)
        ((Structure.holds_later hw.wf hlater hw.has).mp ht)

/-- A contradiction is told by the empty clause. -/
theorem conveys_bot (hw : w.Carrying .bot) :
    Leads (Conveys .bot) w (clause []) fun _ w' => w'.Tells .bot := by
  have hleaves : ∀ a ∈ ([] : List Term), w.store.Has a .bool ∧ w.Ungated a := nofun
  refine conveys_clause hw (amends_frame.refl hw.described) (veils_frame.refl hw.masks)
    (knowsAll_nil w)
    (fun {defs} h => ⟨⟨w, defs⟩, rfl, .refl ⟨hw.described.tidy.ok, h⟩, .nil⟩) hleaves fun hM hρ =>
      ?_
  exact iff_of_false (Structure.not_holds_bot hw.wf hM hρ) (by simp)

/-- A formula that is neither a conjunction nor a quantifier becomes a definition or a clause. -/
theorem conveys_literal (hw : w.Carrying t) (hprepared : w.Prepared n) (hclean : w.Clean t)
    (hst : w.store.Supported [] t) :
    Leads (Conveys t) w (do
      match ← definition? t with
      | some (x, v) => change fun c =>
        { c with subst := c.subst.insert x v, substLog := c.substLog.push x }
      | none => assertEncoded t) fun _ w' => w'.Tells t := by
  have hbuilds := (searches_definition? ⟨hw.wf, hprepared.regular⟩ hw.has hst).leads
  have hknown := ((hbuilds.noting (processes_definition? hprepared hw.has hclean hst).leads).noting
    (saysAt_definition? hw.wf t)).noting (hushes_definition? hw.masks hw.plain)
  refine conveys_onward hw hknown fun d w' hb h => ?_
  obtain ⟨⟨⟨-, -, -, ⟨hdef, hclean'⟩, huse⟩, -, hsaid⟩, -, hhushes⟩ := h
  have hw' := (hw.conveys_built hb).carrying hw
  have hfrom {w'' : Workspace} (h : Conveys t w' w'') : Conveys t w w'' :=
    conveys_frame.trans (hw.conveys_built hb) h
  cases d with
  | some d =>
    exact (conveys_eliminate hw' huse hdef (hsaid d.1 d.2 rfl) (hhushes d.1 d.2 rfl)).reframe
      fun _ => hfrom
  | none => exact (conveys_assertEncoded hw' hclean').reframe fun _ => hfrom

/-- At a depth that is left, a formula that may be asserted is processed, and what it says
is conveyed. -/
theorem conveys_processAt (hw : w.Carrying t) (hprepared : w.Prepared n)
    (hdepth : (n + 2) * (n + 2) ≤ depth + k)
    (hass : w.store.Assertable (w.ctx.isOn .flatten) t) (hplay : InPlay n k w t) :
    Leads (Conveys t) w (processAt depth t) fun _ w' => w.store.Supported [] t → w'.Tells t := by
  induction depth generalizing w t k with
  | zero => exact Leads.throw conveys_frame hw _
  | succ depth ih =>
    refine leads_look_bind ?_
    have hbuilds : Leads Builds w (onStore (Store.subst w.ctx.subst t)) fun _ _ => True :=
      (builds_onStore (E := fun _ => True) ⟨hw.wf, hprepared.regular⟩ (fun _ _ => trivial)
        (Store.builders_built.subst _ t)
        (.of_leads (Leads.of_moves_any
          ((Store.builders_built.subst _ t).mono (fun _ _ _ h => h.later) _ hw.wf)))).leads
    have hunbound : ∀ v ∈ ([] : List Term), ∃ u, w.ctx.subst[v]? = some u := fun _ hv => by cases hv
    have hshed := hushed_subst hw.masks hw.substOk (fun x v hx => (hw.hides.values hx).avoids)
      hw.has hw.plain.avoids
      hunbound hw.plain.first
    refine conveys_onward hw ((hbuilds.noting
      (processes_subst hprepared hw.has hass hplay).leads).noting hshed) fun r w₁ hb h => ?_
    obtain ⟨⟨-, hp₁, hr, hclean, hass₁, hplay₁, hsupp⟩, hveils, -, hplain, hbecomes⟩ := h
    have hprepared₁ := proceeds_frame.stable hprepared hp₁
    have hw₁ : w₁.Carrying r := ⟨amends_frame.stable hw.described (hw.amends_built hb),
      (hw.conveys_built hb).hides, hr, hplain⟩
    -- the definitions are true, so the formula says what it becomes
    have hsame {M : Structure} {ρ : M.Env} (hM : M.Fits w₁.store) (hρ : M.EnvFits w₁.store ρ)
        (hdef : w.ctx.now.Defined w₁.store M ρ) : M.Holds w₁.store ρ r ↔ M.Holds w₁.store ρ t := by
      rw [Structure.Holds, Structure.value_of_defined hw₁.wf hM hρ
        (hw.substOk.later hw.wf hveils.store) hbecomes hdef, Structure.Holds]
    refine conveys_through hw hb (fun {M ρ} hM hρ hdef ht =>
      ⟨ρ, hρ, fun _ _ _ => rfl, (hsame hM hρ hdef).mpr ht⟩)
      (fun hs => ⟨hsupp hs, fun hM hρ hm => (hsame hM hρ (hb.ctx ▸ hm.defined)).mp⟩) ?_
    have hn := hr.node
    split
    next heq =>
      refine Leads.pure conveys_frame hw₁ fun _ M ρ _ _ _ => ?_
      rw [heq]
      exact Structure.holds_top hw₁.wf
    next =>
    split
    next heq =>
      subst heq
      refine Leads.bind conveys_frame hw₁ (conveys_bot hw₁) fun _ w₂ hw₂ _ htells => ?_
      exact Leads.pure conveys_frame hw₂ fun _ => htells
    next =>
    refine leads_look_bind (leads_look_bind ?_)
    split
    next args hneg hflatten hshape =>
      rw [hshape] at hn
      have hargs := (hw₁.wf.typed hn).2
      have hparts : ∀ a ∈ args, w₁.store.Has a .bool ∧ w₁.Ungated a := fun a ha =>
        ⟨hargs a ha, hplain.parts hshape rfl a ha⟩
      refine (conveys_conjuncts hw₁ hprepared₁ hparts (fun a ha {M ρ} hM hρ ht => ?_)
        fun a ha w' hw' hp hc => ?_).mono
        fun _ w' h htells hs M ρ hM hρ hm => ?_
      · exact (Structure.holds_nor hw₁.wf hM hρ hn hneg).mp ht a ha
      · have hsame : w'.ctx.isOn .flatten = w₁.ctx.isOn .flatten := by
          simp only [Context.isOn, hp.options]
        have hassArg : w'.store.Assertable (w'.ctx.isOn .flatten) a.neg :=
          hsame ▸ (hass₁.conjunct hn ha).later hp.store.ext
        have hplayArg : InPlay n (k + 1) w' a.neg := ((hplay₁.part hn (.inl rfl) ha).later hp).neg
        have hprocessed : Processes n w' (processAt depth a.neg) fun _ _ => True :=
          processes_processAt hw' (by omega) hc.has hassArg hplayArg
        exact ((ih hc hw' (by omega) hassArg hplayArg).noting hprocessed.leads).mono fun _ _ _ h =>
          ⟨h.2.1, h.1⟩
      · have hlater := h.later
        refine (Structure.holds_nor hlater.wf hM hρ (hlater.ext.node hn) hneg).mpr fun a ha => ?_
        exact htells a ha (hs.part hn (fun _ _ h => by cases h) ha).neg hM hρ hm
    next vars body hneg hshape =>
      rw [hshape] at hn
      exact (conveys_addConstraint hw₁ hclean []).mono fun _ _ _ _ hs => (hs.not_quantifier hn).elim
    next vars body hneg hshape =>
      rw [hshape] at hn
      obtain ⟨hvars, hsb⟩ := hass₁.quantifier hn
      obtain ⟨-, -, hvar, hbody⟩ := hw₁.wf.typed hn
      have hmem : body ∈ (Term.Shape.all vars body).children := by simp [Term.Shape.children]
      have hbuilds := (fares_skolemize ⟨hw₁.wf, hprepared₁.regular⟩ hvars hbody hsb).leads
      have hshed := hushed_skolemize hw₁.masks (fun v hv => ⟨hvar v hv, hvars v hv⟩) hbody
        (hplain.avoids.child hn hmem)
        (List.append_nil vars ▸ hplain.first.body hn)
      have hknown :=
        (hbuilds.noting (processes_skolemize hprepared₁ hvars hbody hsb
          (hplay₁.part hn (.inr rfl) hmem)).leads).noting hshed
      refine conveys_onward hw₁ hknown fun b w₂ hb₂ h => ?_
      obtain ⟨⟨-, hp₂, hbool, hsb₂, hplay₂⟩, hveils₂, hplain₂, σ, hσ, hbecomes₂⟩ := h
      have hw₂ := (hw₁.conveys_built hb₂).carrying hw₁
      have hbneg : w₂.Carrying b.neg := ⟨hw₂.described, hw₂.hides, hbool.neg, hplain₂.neg⟩
      have hlater₂ : Store.Later w₁.store w₂.store := hveils₂.store
      refine conveys_through hw₁ hb₂ (fun {M ρ} hM hρ _ ht => ?_)
        (fun hs => (hs.not_quantifier hn).elim)
        (ih hbneg (proceeds_frame.stable hprepared₁ hp₂) (by omega) (.body hsb₂.neg) hplay₂.neg)
      obtain ⟨xs, hxs, hnot⟩ := (Structure.holds_not_all hw₂.wf hM hρ (hlater₂.ext.node hn) hneg).mp
        ht
      obtain ⟨ρ', hρ', hsame', hvalue⟩ := Structure.exists_value_of_skolem hσ hw₁.wf hlater₂
        (hσ.substOk hlater₂.ext fun v hv => ⟨hvar v hv, hvars v hv⟩) hbody hbecomes₂ hM hρ
          (fun _ => Iff.rfl) hxs
      refine ⟨ρ', hρ', hsame', (Structure.holds_neg hw₂.wf hM hρ' hbool).mpr fun hb => hnot ?_⟩
      exact hvalue.symm.trans hb
    next hpos hneg hconj =>
      have hst : w₁.store.Supported [] r := by
        refine supported_of_assertable hass₁ (fun vars body hshape => ?_)
          fun hflip hflatten args hshape => ?_
        · cases hflip : r.isNegated with
          | false => exact hpos vars body hflip hshape
          | true => exact hneg vars body hflip hshape
        · exact hconj args hflip hflatten hshape
      exact (conveys_literal hw₁ hprepared₁ hclean hst).mono fun _ _ _ htells _ => htells

/-- A formula that may be asserted is processed, and what it says is conveyed. -/
theorem conveys_process (hw : w.Carrying t) (hctx : w.ctx.Supports w.store) (hreg : w.store.Regular)
    (hass : w.store.Assertable (w.ctx.isOn .flatten) t) :
    Leads (Conveys t) w (process t) fun _ w' => w.store.Supported [] t → w'.Tells t := by
  have htidy := hw.described.tidy
  have hprepared : w.Prepared w.store.terms.slots.size :=
    ⟨htidy, hctx, hreg, tame_of_supports htidy.ok.store htidy.typed hctx⟩
  exact leads_look_bind (conveys_processAt hw hprepared (Nat.le_refl _) hass
    (inPlay_of_assertable htidy.ok.store hw.has hass))

end Work
end Entail
