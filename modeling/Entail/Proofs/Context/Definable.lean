import Entail.Proofs.Context.Encodable
import Entail.Proofs.Context.TidyProcess

/-!
# Definitions of supported terms

The search for a definition in a supported formula is never refused: a sum has another summand
besides the one that it is solved for. What is put for the constant is supported, and if it is a
formula, it is a part of the one at hand.
-/

/-!
## How deep formulas get while they are processed

A definition is put for its constant in all that follows, so that the formulas at hand grow. But the
values of definitions contain no constants that are eliminated, then or later; a constant that is
yet to be eliminated stands in what was left of a formula that was there in the beginning. So each
elimination adds to the nesting what the formulas in the beginning were nested, and no more: with
`n` slots in the beginning, a formula is split `n * (n + 2)` times at most.
-/

namespace Entail

namespace Context

variable {n : Nat} {s s' : Store} {c c' : Context} {x v : Term}

/-- Number of slots below `n` whose constants are eliminated. -/
def eliminatedBelow (n : Nat) (c : Context) : Nat :=
  (List.range n).countP fun i => c.subst.contains (.ofIndex i)

/-- Bound on the nesting of definitions, after so many eliminations of constants in slots below
`n`. -/
def defDepth (n : Nat) (c : Context) : Nat := n * (1 + c.eliminatedBelow n)

theorem eliminatedBelow_le : c.eliminatedBelow n ≤ n := by
  have h := List.countP_le_length (l := List.range n) (p := fun i => c.subst.contains (.ofIndex i))
  rwa [List.length_range] at h

theorem contains_of_grown (h : ∀ {x v : Term}, c.subst[x]? = some v → c'.subst[x]? = some v)
    (hx : c.subst.contains x = true) : c'.subst.contains x = true := by
  rw [Std.HashMap.contains_iff_mem, ← Std.HashMap.isSome_getElem?_iff_mem] at hx ⊢
  obtain ⟨v, hv⟩ := Option.isSome_iff_exists.mp hx
  rw [h hv]
  rfl

/-- The bound on the nesting grows with the definitions. -/
theorem defDepth_mono (h : ∀ {x v : Term}, c.subst[x]? = some v → c'.subst[x]? = some v) :
    c.defDepth n ≤ c'.defDepth n :=
  Nat.mul_le_mul_left n (Nat.add_le_add_left (List.countP_mono_left fun _ _ hi =>
    contains_of_grown h hi) 1)

/-- Another elimination adds `n`. -/
theorem defDepth_insert (hpos : x.isNegated = false) (hnew : c.subst[x]? = none)
    (hx : x.index < n) :
    n + c.defDepth n ≤ defDepth n { c with subst := c.subst.insert x v } := by
  have hlt : c.eliminatedBelow n < eliminatedBelow n { c with subst := c.subst.insert x v } := by
    refine Store.countP_lt_countP (fun i _ hi => ?_) ⟨x.index, List.mem_range.mpr hx, ?_, ?_⟩
    · rw [Std.HashMap.contains_insert, hi, Bool.or_true]
    all_goals rw [show Term.ofIndex x.index = x from Term.positive_of_not_isNegated hpos]
    · exact Std.HashMap.contains_insert_self
    · rw [Std.HashMap.contains_eq_isSome_getElem?, hnew]
      rfl
  calc
    n + c.defDepth n = n * (1 + (c.eliminatedBelow n + 1)) := by
      rw [defDepth, ← Nat.add_assoc, Nat.mul_add n _ 1, Nat.mul_one, Nat.add_comm]
    _ ≤ n * (1 + eliminatedBelow n { c with subst := c.subst.insert x v }) :=
      Nat.mul_le_mul_left n (Nat.add_le_add_left hlt 1)

/-- The definitions are nested no deeper than that, over constants in slots below `n`. -/
def Tame (n : Nat) (s : Store) (c : Context) : Prop :=
  ∀ {x v : Term}, c.subst[x]? = some v → s.Shallow (fun y _ => y.index < n) (c.defDepth n) v

end Context

namespace Workspace

variable {n k U : Nat} {w w' : Workspace} {t a x v : Term} {args : List Term}

/-- A constant may stand where `d` is left of the nesting: when the definitions have it, anywhere,
and else where a definition of depth `U` fits. -/
def MayStand (n U : Nat) (w : Workspace) (x : Term) (d : Nat) : Prop :=
  x.index < n ∧ ((∃ y v : Term, w.ctx.subst[y]? = some v ∧ w.store.Below v x) ∨ U ≤ d)

/-- After `k` splits, the formula is less nested by `k` than one in the beginning with
definitions in it. -/
def InPlay (n k : Nat) (w : Workspace) (t : Term) : Prop :=
  ∀ U, w.ctx.defDepth n ≤ U → ∃ d, d + k ≤ n + U ∧ w.store.Shallow (MayStand n U w) d t

/-- A formula may be processed: everything is tidy and supported, and the definitions are
not too deep. -/
structure Prepared (n : Nat) (w : Workspace) : Prop where
  tidy : w.Tidy
  ctx : w.ctx.Supports w.store
  regular : w.store.Regular
  tame : w.ctx.Tame n w.store

/-- Terms and definitions are added, and everything stays prepared. -/
structure Proceeds (n : Nat) (w w' : Workspace) : Prop where
  grows : Grows False w w'
  ctx : w'.ctx.Supports w'.store
  options : w'.ctx.options = w.ctx.options
  defs : ∀ {x v : Term}, w.ctx.subst[x]? = some v → w'.ctx.subst[x]? = some v
  tame : w'.ctx.Tame n w'.store

/-- The steps that proceed from prepared workspaces compose. -/
theorem proceeds_frame : Frame (Prepared n) (Proceeds n) where
  refl h := ⟨grows_frame.refl h.tidy, h.ctx, rfl, id, h.tame⟩
  trans h h' := ⟨grows_frame.trans h.grows h'.grows, h'.ctx, h'.options.trans h.options, fun hx =>
    h'.defs (h.defs hx),
    h'.tame⟩
  stable h h' := ⟨h'.grows.tidy, h'.ctx, h'.grows.keeps.built.regular h.regular, h'.tame⟩

theorem Prepared.supported (h : w.Prepared n) : w.Supported := ⟨h.tidy.ok.store, h.ctx⟩

theorem Proceeds.store (h : Proceeds n w w') : Store.Later w.store w'.store := h.grows.keeps.store

theorem Proceeds.has (h : Proceeds n w w') {ty : Ty} (ht : w.store.Has t ty) : w'.store.Has t ty :=
  h.store.ext.has ht

/-- What changes no definitions keeps them as they are. -/
theorem Prepared.proceeds (h : w.Prepared n) (hs : Sustains True w w') (hg : Grows True w w') :
    Proceeds n w w' where
  grows := hg.weaken
  ctx := hs.ctx
  options := hs.options
  defs hx := hs.subst trivial ▸ hx
  tame hx := by
    have heq : w'.ctx.defDepth n = w.ctx.defDepth n := by
      unfold Context.defDepth Context.eliminatedBelow
      rw [hs.subst trivial]
    rw [heq]
    exact (h.tame (hs.subst trivial ▸ hx)).later hs.store.ext

theorem MayStand.grow {d : Nat} (h : MayStand n U w x d) : MayStand n U w x (d + 1) :=
  ⟨h.1, h.2.imp id Nat.le_succ_of_le⟩

/-- A constant that may stand somewhere may stand there after a step. -/
theorem MayStand.later {d : Nat} (h : MayStand n U w x d) (hp : Proceeds n w w') :
    MayStand n U w' x d := by
  refine ⟨h.1, h.2.imp ?_ id⟩
  rintro ⟨y, v, hy, hv⟩
  exact ⟨y, v, hp.defs hy, hv.later hp.store.ext⟩

namespace InPlay

/-- A formula in play is in play after a step. -/
theorem later (h : InPlay n k w t) (hp : Proceeds n w w') : InPlay n k w' t := by
  intro U hU
  obtain ⟨d, hd, hshallow⟩ := h U (Nat.le_trans (Context.defDepth_mono hp.defs) hU)
  exact ⟨d, hd, (hshallow.later hp.store.ext).weaken fun x i hx => hx.later hp⟩

/-- A part of a formula is in play after one more split. -/
theorem part (h : InPlay n k w t) {shape : Term.Shape} (hn : w.store.node? t = some (shape, .bool))
    (hshape : shape.isConnective = true ∨ shape.isQuantifier = true) (ha : a ∈ shape.children) :
    InPlay n (k + 1) w a := by
  intro U hU
  obtain ⟨d, hd, hshallow⟩ := h U hU
  obtain ⟨i, rfl, hparts⟩ := hshallow.part hn hshape
  exact ⟨i, by omega, hparts a ha⟩

/-- A formula is in play together with its negation. -/
theorem neg (h : InPlay n k w t) : InPlay n k w t.neg := fun U hU =>
  let ⟨d, hd, hshallow⟩ := h U hU
  ⟨d, hd, hshallow.neg⟩

/-- There are not too many splits. -/
theorem splits_le (h : InPlay n k w t) : k ≤ n + n * (1 + n) := by
  obtain ⟨d, hd, -⟩ := h _ (Nat.le_refl _)
  have hle : w.ctx.defDepth n ≤ n * (1 + n) :=
    Nat.mul_le_mul_left n (Nat.add_le_add_left Context.eliminatedBelow_le 1)
  omega

end InPlay

/-! ## The beginning -/

/-- A formula that may be asserted is in play in the beginning. -/
theorem inPlay_of_assertable (hw : w.store.Wf) {flatten : Bool} {ty : Ty} (ht : w.store.Has t ty)
    (h : w.store.Assertable flatten t) : InPlay w.store.terms.slots.size 0 w t := by
  obtain ⟨rank, hrank, hbound⟩ := hw.bounded
  intro U _
  have hlt : rank t.index < w.store.terms.slots.size := hbound ht.node
  refine ⟨rank t.index + 1 +
    U, by omega, (h.shallow hw hrank).mono fun x i hx => ⟨hx, .inr (Nat.le_add_left ..)⟩⟩

/-- The definitions are not deep in the beginning. -/
theorem tame_of_supports (hw : w.store.Wf) (htyped : w.ctx.Typed w.store)
    (h : w.ctx.Supports w.store) :
    w.ctx.Tame w.store.terms.slots.size w.store := by
  obtain ⟨rank, hrank, hbound⟩ := hw.bounded
  intro x v hx
  obtain ⟨ty, -, hv⟩ := htyped.subst hx
  have hlt : rank v.index + 1 ≤ w.store.terms.slots.size := hbound hv.node
  have hle : w.store.terms.slots.size ≤ w.ctx.defDepth w.store.terms.slots.size :=
    Nat.le_mul_of_pos_right _ (by omega)
  obtain ⟨k, hk⟩ := Nat.exists_eq_add_of_le (Nat.le_trans hlt hle)
  exact hk ▸ ((h.values hx).shallow hw hrank nofun).mono fun _ _ => id

end Workspace
end Entail

namespace Entail

namespace Workspace

/-- Terms were built. -/
structure Builds (w w' : Workspace) : Prop where
  built : Store.Built w.store w'.store
  ctx : w'.ctx = w.ctx

variable {w w' : Workspace}

/-- The steps that only build terms compose. -/
theorem builds_frame : Frame (fun w : Workspace => w.store.Wf ∧ w.store.Regular) Builds where
  refl h := ⟨Store.built_frame.refl h.1, rfl⟩
  trans h h' := ⟨Store.built_frame.trans h.built h'.built, h'.ctx.trans h.ctx⟩
  stable h h' := ⟨h'.built.later.wf, h'.built.regular h.2⟩

theorem Builds.ext (h : Builds w w') : w.store.Extends w'.store := h.built.later.ext

theorem Builds.sustains (h : Builds w w') (hw : w.Supported) : Sustains True w w' :=
  ⟨h.built.later, h.ctx ▸ hw.ctx.later h.ext, by rw [h.ctx], fun _ => by rw [h.ctx]⟩

end Workspace

namespace Work

open Workspace Context

variable {α β : Type} {w : Workspace} {t x v r a b : Term} {args before after : List Term} {ty : Ty}
  {width : Nat}
  {defs : List (Term × Term)} {d : Option (Term × Term)}

/-- The operation builds terms and is not refused. -/
abbrev Searches (w : Workspace) (op : Work α) (Q : α → Workspace → Prop) : Prop :=
  Fares (fun _ => False) Builds w op Q

/-- The definition, if any, is of a constant that is no formula, by a supported term. -/
def Solves (d : Option (Term × Term)) (w : Workspace) : Prop :=
  ∀ x v, d = some (x, v) → w.store.Supported [] v ∧ ¬ w.store.Has x .bool

/-- The definition, if any, is by a supported term; between formulas it is between parts of `t`. -/
def Draws (t : Term) (d : Option (Term × Term)) (w : Workspace) : Prop :=
  ∀ x v, d = some (x, v) → w.store.Supported [] v ∧ (w.store.Has x .bool →
    ∀ {W : Term → Nat → Prop} {k : Nat}, w.store.Shallow W k t → ∃ i, k = i + 1 ∧
      w.store.Shallow W i x ∧ w.store.Shallow W i v)

theorem Solves.draws (h : Solves d w) : Draws t d w :=
  fun x v hd => ⟨(h x v hd).1, fun hx => absurd hx (h x v hd).2⟩

theorem solves_none (w : Workspace) : Solves none w := nofun

theorem searches_look_bind {f : Store → Context → β} {g : β → Work α} {Q : α → Workspace → Prop}
    (h : Searches w (g (f w.store w.ctx)) Q) : Searches w (look f >>= g) Q := ⟨h.leads, h.cause⟩

/-- A definition between formulas is by an equivalence, between one side and the other,
maybe negated. -/
theorem draws_sides {c : Term} {flip : Bool} (hn : w.store.node? t = some (.xor a b, .bool))
    (hc : c ∈ [a, b])
    (hv : v ∈ [a, b]) (hst : w.store.Supported [] t) : Draws t (some (c, v.negIf flip)) w := by
  intro x u hd
  cases hd
  refine ⟨(hst.part hn nofun hv).negIf flip, fun _ W k hshallow => ?_⟩
  obtain ⟨i, rfl, hparts⟩ := hshallow.part hn (.inl rfl)
  exact ⟨i, rfl, hparts c hc, (hparts v hv).negIf flip⟩

section

variable (hw : w.store.Wf ∧ w.store.Regular)

include hw

/-- One part of a search for a definition after another: the second starts with more terms. -/
theorem searches_bind {op : Work β} {f : β → Work α} {T : β → Workspace → Prop}
    {Q : α → Workspace → Prop} (h : Searches w op T)
    (hf : ∀ b w', w'.store.Wf ∧ w'.store.Regular → Builds w w' → T b w' → Searches w' (f b) Q) :
    Searches w (op >>= f) Q := .bind builds_frame hw h hf

theorem searches_pure {Q : α → Workspace → Prop} {x : α} (hx : Q x w) :
    Searches w (pure x : Work α) Q :=
  .pure builds_frame hw hx

theorem builds_onStore {E : Failure → Prop} {F : TermError → Prop} (hF : ∀ e, F e → E (.term e))
    {op : Store.Op α} (hop : Moves Store.Wf Store.Built op) {T : α → Store → Prop}
    (h : Fares F Store.Later w.store op T) :
    Fares E Builds w (onStore op) fun a w' => T a w'.store := by
  have hbuilt := (h.both (Leads.of_moves_any (hop w.store hw.1))).reframe fun _ hs => hs.2
  exact (lift_onStore (fun _ hs => ⟨hs, rfl⟩) hF hbuilt).imp fun _ _ _ h => h.2.1

/-- A constructor that refuses nothing may be part of a search for a definition. -/
theorem searches_onStore {op : Store.Op α} (hop : Moves Store.Wf Store.Built op)
    {T : α → Store → Prop} (h : Fares (fun _ => False) Store.Later w.store op T) :
    Searches w (onStore op) fun a w' => T a w'.store :=
  builds_onStore hw (fun _ => id) hop h

/-- Looking for the first definition that can be used changes nothing. -/
theorem searches_firstDefinition {Q : Option (Term × Term) → Workspace → Prop} (hnone : Q none w)
    (hdefs : ∀ d ∈ defs, Q (some d) w) : Searches w (firstDefinition defs) Q := by
  refine ⟨⟨builds_frame.refl hw, ?_⟩, nofun⟩
  show Q (defs.find? _) w
  cases hfind : defs.find? fun d => w.ctx.canEliminate w.store d.1 d.2 with
  | none => exact hnone
  | some d => exact hdefs d (List.mem_of_find?_eq_some hfind)

theorem not_bool_of_word (hx : w.store.Has x ty)
    (hty : w.store.tyShape? ty = some (.bitVector width)) :
    ¬ w.store.Has x .bool := fun hbool => by
  cases hx.unique hbool
  cases hw.1.bool_ty.symm.trans hty

/-- Solving a sum for one of its summands answers a definition by a supported term. -/
theorem searches_solveFor (hargs : args = before ++ after) (hlen : 2 ≤ args.length)
    (hall : ∀ a ∈ args, w.store.Has a ty ∧ w.store.Supported [] a)
    (hty : w.store.tyShape? ty = some (.bitVector width)) (hr : w.store.Has r ty)
    (hsr : w.store.Supported [] r) :
    Searches w (solveFor args r before after) Solves := by
  induction after generalizing before with
  | nil => exact searches_pure hw (solves_none w)
  | cons x after ih =>
    unfold solveFor
    refine searches_look_bind ?_
    split
    · have hrest : ∀ a ∈ before ++ after, a ∈ args := fun a ha => by
        rw [hargs]
        exact (List.mem_append.mp ha).elim (List.mem_append_left _)
          fun ha => List.mem_append_right _ (List.mem_cons_of_mem _ ha)
      have hne : before ++ after ≠ [] := fun h => by
        rw [hargs, List.length_append, List.length_cons] at hlen
        have hzero := congrArg List.length h
        rw [List.length_append, List.length_nil] at hzero
        omega
      have hsum := Store.fares_bvSum (E := fun _ => False) hw.1 hne
        (fun a ha => (hall a (hrest a ha)).1) hty
      refine searches_bind hw (searches_onStore hw (Store.builders_built.bvSum _) hsum)
        fun rest w₁ hw₁ h₁ hrest₁ => ?_
      obtain ⟨hrest₁, hmade⟩ := hrest₁
      have hsub := Store.fares_bvSub (E := fun _ => False) hw₁.1 (h₁.ext.has hr) hrest₁
        (h₁.ext.ty hty) (hsr.later h₁.ext)
        (hmade.combined hw₁.1 h₁.ext fun a ha => (hall a (hrest a ha)).2)
      refine searches_bind hw₁ (searches_onStore hw₁ (Store.built_bvSub r rest) hsub)
        fun v w₂ hw₂ h₂ hv => ?_
      refine searches_pure hw₂ fun y u hd => ?_
      cases hd
      have hext := h₁.ext.trans h₂.ext
      exact ⟨hv.2, not_bool_of_word hw₂ (hext.has (hall x (by simp [hargs])).1) (hext.ty hty)⟩
    · exact ih (by rw [hargs, List.append_assoc]; rfl)

/-- Solving a sum for a constant among its summands answers a definition by a supported term. -/
theorem searches_solveSum (hty : w.store.tyShape? ty = some (.bitVector width))
    (ht : w.store.Has t ty)
    (hst : w.store.Supported [] t) (hr : w.store.Has r ty) (hsr : w.store.Supported [] r) :
    Searches w (solveSum t r) Solves := by
  refine searches_look_bind ?_
  split
  next args hshape =>
    have hn : w.store.node? t = some (.bvSum args, ty) := hshape ▸ ht.node
    obtain ⟨-, hall, -⟩ := hw.1.typed hn
    exact searches_solveFor hw rfl (hw.2.node hn)
      (fun a ha => ⟨hall a ha, hst.part hn nofun ha⟩) hty hr hsr
  · exact searches_pure hw (solves_none w)

/-- Solving an equation between words answers a definition of a word. -/
theorem searches_solveEquation (ha : w.store.Has a ty) (hb : w.store.Has b ty)
    (hsa : w.store.Supported [] a)
    (hsb : w.store.Supported [] b) : Searches w (solveEquation a b) Solves := by
  refine searches_look_bind ?_
  split
  next hok =>
    rw [Bool.and_eq_true, Option.isSome_iff_exists] at hok
    obtain ⟨-, width, hwidth⟩ := hok
    rw [Store.width?, ha.ty_eq] at hwidth
    have hty := Store.tyWidth?_eq_some.mp hwidth
    refine searches_bind hw (searches_solveSum hw hty ha hsa hb hsb) fun d w₁ hw₁ h₁ hd => ?_
    cases d with
    | some d => exact searches_pure hw₁ hd
    | none =>
      exact searches_solveSum hw₁ (h₁.ext.ty hty) (h₁.ext.has hb) (hsb.later h₁.ext) (h₁.ext.has ha)
        (hsa.later h₁.ext)
  · exact searches_pure hw (solves_none w)

/-- The definition that is drawn from a formula is by a supported term, out of parts of the
formula. -/
theorem searches_definition? (ht : w.store.Has t .bool) (hst : w.store.Supported [] t) :
    Searches w (definition? t) (Draws t) := by
  have hn := ht.node
  have none_draws {w : Workspace} : Draws t none w := nofun
  refine searches_look_bind ?_
  split
  next a b hshape =>
    rw [hshape] at hn
    refine searches_look_bind ?_
    split
    · refine searches_firstDefinition hw none_draws fun d hd => ?_
      simp only [List.mem_cons, List.not_mem_nil, or_false] at hd
      rcases hd with rfl | rfl
      · exact draws_sides hn (by simp) (by simp) hst
      · exact draws_sides hn (by simp) (by simp) hst
    · exact searches_pure hw none_draws
  next a b hshape =>
    rw [hshape] at hn
    obtain ⟨-, ty, hbool, ha, hb⟩ := hw.1.typed hn
    have hsa := hst.part hn nofun (c := a) (by simp [Term.Shape.children])
    have hsb := hst.part hn nofun (c := b) (by simp [Term.Shape.children])
    have hdirect : Searches w (firstDefinition [(a, b), (b, a)]) Solves := by
      refine searches_firstDefinition hw (solves_none w) fun d hd => ?_
      have hno {x : Term} (hx : w.store.Has x ty) : ¬ w.store.Has x .bool :=
        fun h => hbool (hx.unique h)
      simp only [List.mem_cons, List.not_mem_nil, or_false] at hd
      rcases hd with rfl | rfl
      · exact fun x v hd => by cases hd; exact ⟨hsb, hno ha⟩
      · exact fun x v hd => by cases hd; exact ⟨hsa, hno hb⟩
    have hrest (d : Option (Term × Term)) (w' : Workspace) (hw' : w'.store.Wf ∧ w'.store.Regular)
      (h : Builds w w')
        (hd : Solves d w') : Searches w' (if d.isSome = true then pure d else solveEquation a b)
        (Draws t) := by
      split
      · exact searches_pure hw' hd.draws
      · exact (searches_solveEquation hw' (h.ext.has ha) (h.ext.has hb) (hsa.later h.ext)
          (hsb.later h.ext)).imp
          fun _ _ _ hd => hd.draws
    split
    · exact searches_pure hw none_draws
    · refine searches_look_bind ?_
      split
      · exact searches_bind hw hdirect hrest
      · exact searches_bind hw (searches_pure hw (solves_none w)) hrest
  · exact searches_pure hw none_draws

end
end Work
end Entail
