import Entail.Proofs.Context.TidyProcess
import Entail.Proofs.Model.Valuation
import Entail.Proofs.Store.Runs
import Mathlib

/-!
# Definitions say what their formulas say

A formula that is turned into a definition `x := v` is true in exactly those models in which `x` and
`v` have the same value. For equations and exclusive disjunctions that is a matter of their sides;
an equation of words is solved for a summand modulo the number of words. Nothing is assumed of the
constants of the formula: what has no value on one side has none on the other, because sums and
negations need all that they are made of.
-/

namespace Entail

namespace Bits

/-- A sum of words is solved for one of them. -/
theorem trunc_add_eq_iff {w x y r : Nat} (hx : x < modulus w) (hr : r < modulus w) :
    trunc w (x + y) = r ↔ x = trunc w (r + neg w (trunc w y)) := by
  unfold neg trunc
  have hpos := modulus_pos w
  rw [Nat.add_mod, Nat.mod_eq_of_lt hx]
  generalize modulus w = m at *
  have hy := Nat.mod_lt y hpos
  rw [Nat.mod_mod]
  generalize y % m = y at *
  rcases Nat.eq_zero_or_pos y with rfl | hypos
  · simp [Nat.mod_eq_of_lt hx, Nat.mod_eq_of_lt hr]
  · rw [Nat.mod_eq_of_lt (by omega : m - y < m)]
    by_cases hle : x + y < m
    · rw [Nat.mod_eq_of_lt hle]
      by_cases hr' : r + (m - y) < m
      · rw [Nat.mod_eq_of_lt hr']
        omega
      · rw [Nat.mod_eq_sub_mod (by omega), Nat.mod_eq_of_lt (by omega)]
        omega
    · rw [Nat.mod_eq_sub_mod (by omega : m ≤ x + y), Nat.mod_eq_of_lt (by omega : x + y - m < m)]
      by_cases hr' : r + (m - y) < m
      · rw [Nat.mod_eq_of_lt hr']
        omega
      · rw [Nat.mod_eq_sub_mod (by omega), Nat.mod_eq_of_lt (by omega)]
        omega

end Bits

namespace Model

variable {m : Model} {s : Store} {t a b r : Term} {ty : Ty} {flip : Bool}

/-- An equation is true when its sides have the same value. -/
theorem evaluates_eq_iff (hn : s.node? t = some (.eq a b, ty)) (ht : t.isNegated = false) :
    m.Evaluates s t (.bool true) ↔ ∃ u, m.Evaluates s a u ∧ m.Evaluates s b u := by
  constructor
  · intro h
    have hnode := h.node hn ht
    generalize hv : Value.bool true = v at hnode
    cases hnode with
    | @eq _ _ x y ha hb =>
      obtain rfl : x = y := by simpa using hv
      exact ⟨x, ha, hb⟩
  · rintro ⟨u, ha, hb⟩
    have hnode : NodeValue m s (m.Evaluates s) t (.eq a b) (.bool (u == u)) := .eq ha hb
    rw [beq_self_eq_true] at hnode
    exact .of_node hn ht hnode

section Truth

variable (hs : s.Wf) (hm : m.WellTyped s)

include hs

/-- An exclusive disjunction is true when its members differ, and its negation when they do not. -/
theorem evaluates_xor_iff (hn : s.node? t = some (.xor a b, ty)) :
    m.Evaluates s t (.bool true) ↔
      ∃ x y, m.Evaluates s a (.bool x) ∧ m.Evaluates s b (.bool y) ∧ (x != y) = !t.isNegated := by
  obtain ⟨rfl, ha, hb⟩ := hs.typed hn
  have hpos : s.node? t.positive = some (.xor a b, .bool) := by
    rwa [Store.node?, Term.index_positive]
  constructor
  · intro h
    obtain ⟨v, hv, hpol⟩ := evaluates_iff_positive.mp h
    cases hv.node hpos (Term.isNegated_positive t) with
    | @xor _ _ x y hx hy =>
      refine ⟨x, y, hx, hy, ?_⟩
      unfold withPolarity at hpol
      cases hneg : t.isNegated <;> simp_all
  · rintro ⟨x, y, hx, hy, hxy⟩
    refine evaluates_iff_positive.mpr ⟨_, .of_node hpos (Term.isNegated_positive t) (.xor hx hy),
      ?_⟩
    unfold withPolarity
    cases hneg : t.isNegated <;> simp_all

include hm

/-- Two formulas have the same value up to polarity. -/
theorem exists_negIf_iff (ha : s.Has a .bool) (hb : s.Has b .bool) :
    (∃ u, m.Evaluates s a u ∧ m.Evaluates s (b.negIf flip) u) ↔
      ∃ x y, m.Evaluates s a (.bool x) ∧ m.Evaluates s b (.bool y) ∧ (x != y) = flip := by
  constructor
  · rintro ⟨u, hu, hflip⟩
    obtain ⟨x, rfl⟩ := (Value.fits_bool hs).mp (hu.fits hm hs ha)
    have hback := (IsTruth.mk (hb.negIf fun _ => rfl) hflip).negIf flip
    have hsame : (b.negIf flip).negIf flip = b := by cases flip <;> simp [Term.negIf]
    rw [hsame] at hback
    exact ⟨x, _, hu, hback.value, by cases x <;> cases flip <;> rfl⟩
  · rintro ⟨x, y, hx, hy, hxy⟩
    have hflip := (IsTruth.mk hb hy).negIf flip
    obtain rfl : (y != flip) = x := by rw [← hxy]; cases x <;> cases y <;> rfl
    exact ⟨_, hx, hflip.value⟩

end Truth
end Model

namespace Valuation.Lawful

variable {elems : Ty → Type} {V : Valuation elems} {s : Store} {t a b : Term} {ty : Ty}

/-- An equation is true when its sides have the same value. -/
theorem eq_iff (h : V.Lawful s) (hdef : ∀ u, V.defined u) (hn : s.node? t = some (.eq a b, ty))
    (ht : t.isNegated = false) :
    V.value t = .bool true ↔ V.value a = V.value b := by
  rw [h.node hn ht rfl (hdef t)]
  simp [Term.Shape.combine, Term.Shape.children, Val.ofProp]

/-- An exclusive disjunction says that one member has the value of the other up to polarity. -/
theorem xor_iff (h : V.Lawful s) (hs : s.Wf) (hdef : ∀ u, V.defined u)
    (hn : s.node? t = some (.xor a b, ty)) :
    V.value t = .bool true ↔ V.value a = V.value (b.negIf !t.isNegated) := by
  obtain ⟨rfl, ha, hb⟩ := hs.typed hn
  have hpos : s.node? t.positive = some (.xor a b, .bool) := by
    rwa [Store.node?, Term.index_positive]
  have hxor : (V.value t.positive).toBool = ((V.value a).toBool != (V.value b).toBool) := by
    rw [h.node hpos (Term.isNegated_positive t) rfl (hdef _)]
    rfl
  have hneg := h.value_neg hs (hdef b) hb
  have hb := h.value_bool hs (hdef b) hb
  rw [h.value_positive hs (hdef t) ⟨⟨_, hn⟩, fun _ => rfl⟩, hxor, h.value_bool hs (hdef a) ha]
  cases t.isNegated with
  | false =>
    show _ ↔ _ = V.value b.neg
    rw [hneg]
    cases (V.value a).toBool <;> cases (V.value b).toBool <;> simp
  | true =>
    show _ ↔ _ = V.value b
    rw [hb]
    cases (V.value a).toBool <;> cases (V.value b).toBool <;> simp [Val.toBool]

theorem negIf_comm (h : V.Lawful s) (hs : s.Wf) (hdef : ∀ u, V.defined u) (ha : s.Has a .bool)
    (hb : s.Has b .bool)
    {flip : Bool} : V.value a = V.value (b.negIf flip) ↔ V.value b = V.value (a.negIf flip) := by
  have hna := h.value_neg hs (hdef a) ha
  have hnb := h.value_neg hs (hdef b) hb
  have ha := h.value_bool hs (hdef a) ha
  have hb := h.value_bool hs (hdef b) hb
  cases flip with
  | false => exact eq_comm
  | true =>
    show _ = V.value b.neg ↔ _ = V.value a.neg
    rw [hna, hnb, ha, hb]
    cases (V.value a).toBool <;> cases (V.value b).toBool <;> simp [Val.toBool]

end Valuation.Lawful

namespace Store

variable {s s' : Store} {t a r x v : Term} {args before after : List Term}

/-- The definition `x := v` says the same as the formula `t`: `x` does not occur in `v`, and the
formula is true in a well-typed model, or in a valuation of all terms, when the two have the same
value there. -/
structure Says (s : Store) (t x v : Term) : Prop where
  has : (∃ ty, s.Has t ty) ∧ ∃ ty, s.Has x ty ∧ s.Has v ty
  occurs : s.occurs x v = false
  iff : ∀ m : Model, m.WellTyped s →
    (m.Evaluates s t (.bool true) ↔ ∃ u, m.Evaluates s x u ∧ m.Evaluates s v u)
  value : ∀ {elems : Ty → Type} {V : Valuation elems}, V.Lawful s → (∀ u, V.defined u) →
    (V.value t = .bool true ↔ V.value x = V.value v)

/-- `t` is an equation between `a` and `b`, in one order or the other. -/
def Equates (s : Store) (t a b : Term) : Prop :=
  t.isNegated = false ∧ (s.node? t = some (.eq a b, .bool) ∨ s.node? t = some (.eq b a, .bool))

namespace Equates

theorem symm (h : s.Equates t a r) : s.Equates t r a := ⟨h.1, h.2.symm⟩

theorem later (h : s.Equates t a r) (hs : Later s s') : s'.Equates t a r :=
  ⟨h.1, h.2.imp hs.ext.node hs.ext.node⟩

theorem has (h : s.Equates t a r) : s.Has t .bool :=
  ⟨h.2.elim (fun hn => ⟨_, hn⟩) fun hn => ⟨_, hn⟩, fun _ => rfl⟩

/-- The sides have one type. -/
theorem typed (hs : s.Wf) (h : s.Equates t a r) : ∃ ty, ty ≠ .bool ∧ s.Has a ty ∧ s.Has r ty := by
  rcases h.2 with hn | hn
  · exact (hs.typed hn).2
  · obtain ⟨-, ty, hty, hr, ha⟩ := hs.typed hn
    exact ⟨ty, hty, ha, hr⟩

theorem evaluates_iff {m : Model} (h : s.Equates t a r) :
    m.Evaluates s t (.bool true) ↔ ∃ u, m.Evaluates s a u ∧ m.Evaluates s r u := by
  rcases h.2 with hn | hn
  · exact Model.evaluates_eq_iff hn h.1
  · simp only [Model.evaluates_eq_iff hn h.1, and_comm]

theorem value_iff (h : s.Equates t a r) {elems : Ty → Type} {V : Valuation elems} (hV : V.Lawful s)
    (hdef : ∀ u, V.defined u) : V.value t = .bool true ↔ V.value a = V.value r := by
  rcases h.2 with hn | hn
  · exact hV.eq_iff hdef hn h.1
  · rw [hV.eq_iff hdef hn h.1, eq_comm]

end Equates

/-- Solving a sum for a summand: where the sum has the value of `r`, the summand has the value of
`r` less the others, and either way all of them have values. -/
theorem solved_iff {elems : Ty → Type} {V : Valuation elems} {ty : Ty} {w : Nat} {rest : Term}
    (hs : s.Wf) (hV : V.Lawful s) (hty : s.tyShape? ty = some (.bitVector w)) (hr : s.Has r ty)
    (ha : s.node? a = some (.bvSum args, ty))
    (hneg : a.isNegated = false) (hargs : args = before ++ x :: after)
    (hrest : s.Stands (before ++ after) rest ty fun _ v =>
      .word (Bits.trunc w (WordOp.add.fold ((before ++ after).map fun a => (v a).toNat))))
    (hrestNeeds : s.Needs (before ++ after) rest)
    (hv : s.Stands [r, rest] v ty fun _ v =>
      .word (Bits.trunc w ((v r).toNat + Bits.neg w (v rest).toNat)))
    (hvNeeds : s.Needs [r, rest] v) :
    (V.defined a ∧ V.defined r ∧ V.value a = V.value r) ↔ V.defined x ∧ V.defined v ∧
    V.value x = V.value v := by
  have hfold : IsFold .add .bvSum := .inl ⟨rfl, rfl⟩
  have hperm : args.Perm (x :: (before ++ after)) := hargs ▸ List.perm_middle
  have hx : s.Has x ty := (hs.typed ha).2.1 x (hperm.mem_iff.mpr List.mem_cons_self)
  -- with values for all of them, the two equations are one on numbers
  have hequiv (hdefs : ∀ c ∈ args, V.defined c) (hrdef : V.defined r) :
      V.defined v ∧ (V.value a = V.value r ↔ V.value x = V.value v) := by
    have hxdef := hdefs x (hperm.mem_iff.mpr List.mem_cons_self)
    have hothers : ∀ c ∈ before ++ after, V.defined c :=
      fun c hc => hdefs c (hperm.mem_iff.mpr (List.mem_cons_of_mem _ hc))
    have hrestdef := hrest.defined hV hothers
    have hpair : ∀ c ∈ [r, rest], V.defined c := forall_mem_pair hrdef hrestdef
    have hadef := hfold.defined hV ha hneg hdefs
    obtain ⟨hxval, hxlt⟩ := hV.value_word hxdef ⟨ty, hx, hty⟩
    obtain ⟨hrval, hrlt⟩ := hV.value_word hrdef ⟨ty, hr, hty⟩
    refine ⟨hv.defined hV hpair, ?_⟩
    rw [(hfold.value hs hV ha hneg hty hadef).2, hv.value hV hpair, hrest.value hV hothers,
      WordOp.fold_perm _ (hperm.map _), hxval, hrval, Val.word.injEq, Val.word.injEq]
    exact Bits.trunc_add_eq_iff hxlt hrlt
  constructor
  · rintro ⟨hadef, hrdef, heq⟩
    have hdefs := (hfold.value hs hV ha hneg hty hadef).1
    obtain ⟨hvdef, hiff⟩ := hequiv hdefs hrdef
    exact ⟨hdefs x (hperm.mem_iff.mpr List.mem_cons_self), hvdef, hiff.mp heq⟩
  · rintro ⟨hxdef, hvdef, heq⟩
    have hpair := hvNeeds hV hvdef
    have hothers := hrestNeeds hV (hpair rest (by simp))
    have hdefs : ∀ c ∈ args, V.defined c := fun c hc =>
      (List.mem_cons.mp (hperm.mem_iff.mp hc)).elim (fun h => h ▸ hxdef) (hothers c)
    obtain ⟨-, hiff⟩ := hequiv hdefs (hpair r (by simp))
    exact ⟨hfold.defined hV ha hneg hdefs, hpair r (by simp), hiff.mpr heq⟩

/-- An equation between a sum and `r` says what it says when it is solved for a summand that occurs
nowhere else. -/
theorem solve_says {ta : Ty} (hs : s.Wf) (ht : s.Equates t a r)
    (ha : s.node? a = some (.bvSum args, ta)) (hargs : args = before ++ x :: after) (hx : s.Datum x)
    (hothers : ∀ c ∈ before ++ after, s.Avoids (· = x) c) (hr : s.Avoids (· = x) r) :
    Builds s (do bvSub r (← bvSum (before ++ after))) fun v s' => s'.Says t x v := by
  have hconst {s' : Store} (hs' : Later s s') : s'.HasConstants (· = x) :=
    hs'.wf.hasConstants fun y hy => hy ▸ (hx.later hs hs'.ext).const
  refine .bind (.and (bvSum_stands hs _)
    ((bvSum_avoiding (hconst (later_frame.refl hs)) hothers).builds hs
    (bvSum_moves _))) fun rest s₁ hs₁ ⟨⟨tr, w, htr, _, hrestNeeds, hrest⟩, hrestAvoids⟩ => ?_
  refine (Builds.and (bvSub_stands hs₁.wf r rest)
    ((bvSub_avoiding (hconst hs₁) (hr.retains hs₁.retains) hrestAvoids).builds
    hs₁.wf (bvSub_moves r rest))).mono fun v s₂ hs₂ ⟨⟨tv, wv, htv, hrtv, hresttv, hvNeeds, hv⟩,
      hvAvoids⟩ => ?_
  have hext := hs₁.ext.trans hs₂.ext
  -- the sum, the other side, the rest and the definition are words of one type
  obtain ⟨ty, hne, haty, hrty⟩ := ht.typed hs
  obtain rfl : ta = ty := congrArg Prod.snd (Option.some.inj (ha.symm.trans haty.node))
  obtain rfl := hrtv.unique (hs₁.ext.has hrty)
  obtain rfl := hresttv.unique hrest.has
  obtain rfl : w = wv := by
    rw [hs₁.ext.ty htr] at htv
    cases htv
    rfl
  have hxty : s.Has x tv := (hs.typed ha).2.1 x (hargs ▸ by simp)
  have hlive : ∀ c ∈ before ++ after, ∃ ty, s₁.Has c ty := fun c hc =>
    ⟨tv, hs₁.ext.has ((hs.typed ha).2.1 c
      (hargs ▸ List.perm_middle.mem_iff.mpr (List.mem_cons_of_mem x hc)))⟩
  have ht₂ := (ht.later hs₁).later hs₂
  have hsolved {elems : Ty → Type} {V : Valuation elems} (hV : V.Lawful s₂) :=
    solved_iff hs₂.wf hV (hext.ty htr) (hext.has hrty) (hext.node ha) (haty.not_isNegated hne) hargs
      (hrest.later hs₁.wf hlive hs₂) (hrestNeeds.later hs₁.wf hrest.has hs₂) hv hvNeeds
  refine ⟨⟨⟨_, ht₂.has⟩, tv, hext.has hxty, hv.has⟩, ?_, fun m hm => ?_,
    fun {elems V} hV hdef => ?_⟩
  · refine Bool.eq_false_iff.mpr fun hoccurs => ?_
    have hbelow := (occurs_iff hs₂.wf ⟨_, (hext.has hxty).node⟩).mp hoccurs
    exact (hvAvoids x hbelow).2 (Term.positive_of_not_isNegated hx.positive)
  · rw [ht₂.evaluates_iff, Model.exists_evaluates_iff hs₂.wf hm (hext.has haty) (hext.has hrty),
      Model.exists_evaluates_iff hs₂.wf hm (hext.has hxty) hv.has]
    exact hsolved (Model.valuation_lawful hs₂.wf)
  · simpa [hdef] using (ht₂.value_iff hV hdef).trans (by simpa [hdef] using hsolved hV)

end Store

namespace Work

open Store (Later)

variable {α β : Type} {w : Workspace} {t a r : Term} {args before after : List Term} {ty : Ty}

/-- The store of a workspace only grows. -/
theorem later_frame : Frame (fun w : Workspace => w.store.Wf) fun w w' =>
      Later w.store w'.store where
  refl := Store.later_frame.refl
  trans := Store.later_frame.trans
  stable := Store.later_frame.stable

theorem onStore_bind (op : Store.Op α) (f : α → Store.Op β) :
    onStore (op >>= f) = onStore op >>= fun a => onStore (f a) := by
  funext w
  cases hop : op w.store with
  | ok a s =>
    rw [bind_of_ok (onStore_of_ok hop)]
    simp only [onStore, bind_of_ok hop]
  | error e s =>
    rw [bind_of_error (onStore_of_error hop)]
    simp only [onStore, bind_of_error hop]

/-- What is built is built in the store of the workspace. -/
theorem leads_onStore {op : Store.Op α} {Q : α → Store → Prop} (h : Store.Builds w.store op Q) :
    Leads (fun w w' => Later w.store w'.store) w (onStore op) fun a w' => Q a w'.store := by
  unfold Store.Builds Ends at h
  unfold Leads Ends
  cases hop : op w.store with
  | ok a s =>
    rw [hop] at h
    rwa [onStore_of_ok hop]
  | error e s =>
    rw [hop] at h
    rwa [onStore_of_error hop]

/-- From `w`, the store only grows, and a definition that is answered says the same as `t`. -/
def SaysAt (w : Workspace) (t : Term) (op : Work (Option (Term × Term))) : Prop :=
  Leads (fun w w' => Later w.store w'.store) w op fun d w' => ∀ x v, d = some (x, v) →
    w'.store.Says t x v

theorem saysAt_look {β : Type} {f : Store → Context → β} {g : β → Work (Option (Term × Term))}
    (h : SaysAt w t (g (f w.store w.ctx))) : SaysAt w t (look f >>= g) := Ends.bind h

section

variable (hw : w.store.Wf)

include hw

theorem saysAt_pure {d : Option (Term × Term)} (hd : ∀ x v, d = some (x, v) → w.store.Says t x v) :
    SaysAt w t (pure d) :=
  Leads.pure later_frame hw hd

theorem saysAt_none : SaysAt w t (pure none) := saysAt_pure hw nofun

/-- A constant passes the check only if it does not occur in what is put for it. -/
theorem saysAt_firstDefinition {defs : List (Term × Term)}
    (hdefs : ∀ d ∈ defs, w.store.occurs d.1 d.2 = false → w.store.Says t d.1 d.2) :
    SaysAt w t (firstDefinition defs) := by
  refine ⟨Store.later_frame.refl hw, fun x v hd => ?_⟩
  change List.find? _ defs = some (x, v) at hd
  have hcan := List.find?_some hd
  exact hdefs (x, v) (List.mem_of_find?_eq_some hd) (Context.datum_of_canEliminate hcan).2

theorem saysAt_solveFor (ht : w.store.Equates t a r) (ha : w.store.node? a = some (.bvSum args, ty))
    (hargs : args = before ++ after) : SaysAt w t (solveFor args r before after) := by
  obtain ⟨tr, -, -, hr⟩ := ht.typed hw
  induction after generalizing before with
  | nil => exact saysAt_none hw
  | cons x after ih =>
    unfold solveFor
    refine saysAt_look ?_
    split
    next hok =>
      simp only [Bool.and_eq_true, beq_iff_eq, Bool.not_eq_true'] at hok
      obtain ⟨⟨hcount, hnot⟩, hcan⟩ := hok
      obtain ⟨hx, -⟩ := Context.datum_of_canEliminate hcan
      have hothers := avoids_summands hw hx hargs (fun c hc => ⟨ty, (hw.typed ha).2.1 c hc⟩) hcount
      have hsolve := Store.solve_says hw ht ha hargs hx hothers
        (Context.avoids_of_occurs hw hx ⟨tr, hr⟩ hnot)
      rw [← bind_assoc, ← onStore_bind]
      refine Leads.bind later_frame hw (leads_onStore hsolve) fun v w' hw' _ hv =>
        saysAt_pure hw' fun y u hd => ?_
      cases hd
      exact hv
    next => exact ih (by rw [hargs, List.append_assoc]; rfl)

theorem saysAt_solveSum (ht : w.store.Equates t a r) : SaysAt w t (solveSum a r) := by
  refine saysAt_look ?_
  split
  next args hshape =>
    obtain ⟨ty, hn⟩ := Store.node_of_shape hshape nofun
    exact saysAt_solveFor hw ht hn rfl
  · exact saysAt_none hw

theorem saysAt_solveEquation (ht : w.store.Equates t a r) : SaysAt w t (solveEquation a r) := by
  refine saysAt_look ?_
  split
  · refine Leads.bind later_frame hw (saysAt_solveSum hw ht) fun d w' hw' hs hd => ?_
    cases d with
    | some d => exact saysAt_pure hw' hd
    | none => exact saysAt_solveSum hw' (ht.later hs).symm
  · exact saysAt_none hw

/-- A definition that is found for a formula says what the formula says. -/
theorem saysAt_definition? (t : Term) : SaysAt w t (definition? t) := by
  refine saysAt_look ?_
  split
  next a b hshape =>
    obtain ⟨ty, hn⟩ := Store.node_of_shape hshape nofun
    obtain ⟨rfl, ha, hb⟩ := hw.typed hn
    have hflip {x : Term} (hx : w.store.Has x .bool) : w.store.Has (x.negIf !t.isNegated) .bool :=
      hx.negIf fun _ => rfl
    have ht : ∃ ty, w.store.Has t ty := ⟨.bool, ⟨_, hn⟩, fun _ => rfl⟩
    refine saysAt_look ?_
    split
    · refine saysAt_firstDefinition hw fun d hd hoccurs => ?_
      simp only [List.mem_cons, List.not_mem_nil, or_false] at hd
      rcases hd with rfl | rfl
      · refine ⟨⟨ht, .bool, ha, hflip hb⟩, hoccurs, fun m hm => ?_, fun hV hdef =>
          hV.xor_iff hw hdef hn⟩
        rw [Model.evaluates_xor_iff hw hn, Model.exists_negIf_iff hw hm ha hb]
      · refine ⟨⟨ht, .bool, hb, hflip ha⟩, hoccurs, fun m hm => ?_, fun hV hdef => ?_⟩
        · rw [Model.evaluates_xor_iff hw hn, Model.exists_negIf_iff hw hm hb ha, exists_comm]
          simp only [bne_comm, and_left_comm]
        · rw [hV.xor_iff hw hdef hn]
          exact hV.negIf_comm hw hdef ha hb
    · exact saysAt_none hw
  next a b hshape =>
    obtain ⟨ty, hn⟩ := Store.node_of_shape hshape nofun
    obtain ⟨rfl, ta, -, ha, hb⟩ := hw.typed hn
    split
    · exact saysAt_none hw
    next hneg =>
    have ht : w.store.Equates t a b := ⟨by simpa using hneg, .inl hn⟩
    have hdirect : SaysAt w t (firstDefinition [(a, b), (b, a)]) :=
        saysAt_firstDefinition hw fun d hd hoccurs => by
      simp only [List.mem_cons, List.not_mem_nil, or_false] at hd
      rcases hd with rfl | rfl
      · exact ⟨⟨⟨_, ht.has⟩, ta, ha, hb⟩, hoccurs, fun m _ => ht.evaluates_iff, ht.value_iff⟩
      · exact ⟨⟨⟨_, ht.has⟩, ta, hb, ha⟩, hoccurs, fun m _ => ht.symm.evaluates_iff,
          ht.symm.value_iff⟩
    have hrest (d : Option (Term × Term)) (w' : Workspace) (hw' : w'.store.Wf)
      (hs : Later w.store w'.store)
        (hd : ∀ x v, d = some (x, v) → w'.store.Says t x v) :
        SaysAt w' t (if d.isSome = true then pure d else solveEquation a b) := by
      split
      · exact saysAt_pure hw' hd
      · exact saysAt_solveEquation hw' (ht.later hs)
    refine saysAt_look ?_
    split
    · exact Leads.bind later_frame hw hdirect hrest
    · exact Leads.bind later_frame hw (saysAt_none hw) hrest
  · exact saysAt_none hw

end

/-- Elimination steps are equivalences: the constant that is eliminated does not occur in its
definition, and in a well-typed model the formula is true exactly when the two have the same value.
The store of every workspace that is reached is well formed. -/
theorem definition_equivalent {w' : Workspace} {x v : Term} {m : Model} (hw : w.store.Wf)
    (hrun : definition? t w = .ok (some (x, v)) w') (hm : m.WellTyped w'.store) :
    w'.store.occurs x v = false ∧
      (m.eval w'.store t = .ok (.bool true) ↔ ∃ u, m.eval w'.store x = .ok u ∧
        m.eval w'.store v = .ok u) := by
  obtain ⟨-, hsaid⟩ := Ends.of_ok (saysAt_definition? hw t) hrun
  obtain ⟨⟨ht, ty, hx, hv⟩, hoccurs, hiff⟩ := hsaid x v rfl
  refine ⟨hoccurs, ?_⟩
  simp only [Model.eval_eq_ok_iff, Store.isValid_iff.mpr ht, Store.isValid_iff.mpr ⟨ty, hx⟩,
    Store.isValid_iff.mpr ⟨ty, hv⟩, true_and]
  exact hiff m hm

section Opposed

open Store

/-- Two constants `x` and `y` of 8 bits, and the equation between `x + y` and `-y`. -/
def opposed : Store :=
  let s := endState (bvType 8 .empty)
  let s := endState (newConst ⟨1⟩ s)
  let s := endState (newConst ⟨1⟩ s)
  let s := endState (bvSum [.ofIndex 2, .ofIndex 3] s)
  let s := endState (bvNeg (.ofIndex 3) s)
  endState (Store.eq (.ofIndex 4) (.ofIndex 5) s)

theorem slots_opposed : opposed.terms.slots =
    #[none, some (.truth, .bool), some (.uninterpreted ⟨1⟩ 0, ⟨1⟩),
      some (.uninterpreted ⟨1⟩ 1, ⟨1⟩), some (.bvSum [.ofIndex 2, .ofIndex 3], ⟨1⟩),
      some (.bvNeg (.ofIndex 3), ⟨1⟩), some (.eq (.ofIndex 4) (.ofIndex 5), .bool)] := by
  cbv

theorem tyShape?_opposed : opposed.tyShape? ⟨1⟩ = some (.bitVector 8) := by cbv

theorem occurs_opposed : opposed.occurs (.ofIndex 2) (.ofIndex 5) = false := by cbv

theorem canEliminate_opposed :
    (Context.new {}).canEliminate opposed (.ofIndex 2) (.ofIndex 5) = true := by
  have hsubst : (Context.new {}).subst = ∅ := rfl
  have hbits : (Context.new {}).bits = ∅ := rfl
  have hvars : (Context.new {}).vars = ((Variables.empty.listen.2.get .top).2.collect).2 := rfl
  have hreg : (Context.new {}).registry = ({} : Theory.Registry).register (.quant {}) := rfl
  have hquant : (({} : Theory.Registry).register (.quant {})).quant? = some {} := rfl
  have hnodes : (({} : Theory.Registry).register (.quant {})).egraph.nodeOf = Std.HashMap.ofList
    [(.top, Egraph.trueNode), (.bot, Egraph.falseNode)] := rfl
  have hno : (((Variables.empty.listen.2.get .top).2.collect).2.has (.ofIndex 2)) = false := by cbv
  have hm : (Quant.Solver.mentions {} opposed (.ofIndex 2)) = false := by cbv
  have h1 : (opposed.shape (.ofIndex 2)).isUninterpreted = true := by
    rw [shape_of_slots slots_opposed]
    rfl
  have hty : opposed.ty (.ofIndex 2) = ⟨1⟩ := ty_of_slots slots_opposed _
  have h2 : opposed.isFunctionTy (opposed.ty (.ofIndex 2)) = false := by
    simp [isFunctionTy, hty, tyShape?_opposed]
  have h4 : opposed.isSort (opposed.ty (.ofIndex 2)) = false := by
    simp [isSort, hty, tyShape?_opposed]
  have h5 : (Std.HashMap.ofList [(Term.top, Egraph.trueNode), (.bot, Egraph.falseNode)]).contains
      (.ofIndex 2) = false := by
    rw [Std.HashMap.contains_ofList]; decide
  simp [Context.canEliminate, Context.isEncoded, hsubst, hbits, hvars, hreg, hquant, hnodes, hno,
    hm, h1, h2, occurs_opposed, h4, h5]

theorem definition?_opposed : (Work.definition? (.ofIndex 6)) ⟨opposed, .new {}⟩ =
    .ok (some (.ofIndex 2, .ofIndex 7)) ⟨endState (bvSub (.ofIndex 5) (.ofIndex 3) opposed),
      .new {}⟩ := by
  have hshape : opposed.shape (.ofIndex 6) = .eq (.ofIndex 4) (.ofIndex 5) :=
    shape_of_slots slots_opposed _
  have hsum : opposed.shape (.ofIndex 4) = .bvSum [.ofIndex 2, .ofIndex 3] :=
    shape_of_slots slots_opposed _
  have hneg : opposed.shape (.ofIndex 5) = .bvNeg (.ofIndex 3) := shape_of_slots slots_opposed _
  have hwidth : (opposed.width? (.ofIndex 4)).isSome = true := by cbv
  have hcount : ([.ofIndex 2, .ofIndex 3] : List Term).countP (opposed.occurs (.ofIndex 2)) =
    1 := by cbv
  have hrest : Store.bvSum [.ofIndex 3] opposed = .ok (.ofIndex 3) opposed := by cbv
  have hsub : Store.bvSub (.ofIndex 5) (.ofIndex 3) opposed =
    .ok (.ofIndex 7) (endState (Store.bvSub (.ofIndex 5) (.ofIndex 3) opposed)) := by cbv
  have hdirect : (Work.firstDefinition [(.ofIndex 4, .ofIndex 5), (.ofIndex 5, .ofIndex 4)])
    ⟨opposed, .new {}⟩ =
      .ok none ⟨opposed, .new {}⟩ := by
    show EStateM.Result.ok (List.find? _ _) _ = _
    simp [Context.canEliminate, hsum, hneg, Term.Shape.isUninterpreted]
  have hsolve : (Work.solveFor [.ofIndex 2, .ofIndex 3] (.ofIndex 5) [] [.ofIndex 2, .ofIndex 3])
    ⟨opposed, .new {}⟩ =
      .ok (some (.ofIndex 2, .ofIndex 7)) ⟨endState (bvSub (.ofIndex 5) (.ofIndex 3) opposed),
        .new {}⟩ := by
    unfold Work.solveFor
    refine (bind_of_ok rfl).trans ?_
    simp only [hcount, occurs_opposed, canEliminate_opposed]
    refine (bind_of_ok (Work.onStore_of_ok hrest)).trans ?_
    exact bind_of_ok (Work.onStore_of_ok hsub)
  have heq : (Work.solveEquation (.ofIndex 4) (.ofIndex 5)) ⟨opposed, .new {}⟩ =
      .ok (some (.ofIndex 2, .ofIndex 7)) ⟨endState (bvSub (.ofIndex 5) (.ofIndex 3) opposed),
        .new {}⟩ := by
    unfold Work.solveEquation
    refine (bind_of_ok rfl).trans ?_
    have hon : ((Context.new {}).isOn .bvArithElim && (opposed.width? (.ofIndex 4)).isSome) =
      true := by simp [hwidth]; rfl
    simp only [hon, if_true]
    refine (bind_of_ok (?_ : Work.solveSum _ _ _ = .ok (some (.ofIndex 2, .ofIndex 7)) _)).trans rfl
    unfold Work.solveSum
    refine (bind_of_ok rfl).trans ?_
    dsimp only
    rw [hsum]
    exact hsolve
  unfold Work.definition?
  refine (bind_of_ok rfl).trans ?_
  dsimp only
  rw [hshape]
  refine (bind_of_ok rfl).trans ?_
  refine (bind_of_ok hdirect).trans ?_
  exact heq

/-- The equation is solved for `x`, and not for `y`, which occurs on both sides: `x` is
twice `-y`. -/
theorem definition_equivalent_opposed :
    let w : Workspace := ⟨opposed, .new {}⟩
    let w' : Workspace := ⟨endState (bvSub (.ofIndex 5) (.ofIndex 3) opposed), .new {}⟩
    let m := (Model.empty.setValue (.ofIndex 2) (.bv 8 156)).setValue (.ofIndex 3) (.bv 8 50)
    w.store.Wf ∧ definition? (.ofIndex 6) w = .ok (some (.ofIndex 2, .ofIndex 7)) w' ∧
      m.WellTyped w'.store ∧
      w'.store.occurs (.ofIndex 2) (.ofIndex 7) = false ∧
        (m.eval w'.store (.ofIndex 6) = .ok (.bool true) ↔
          ∃ u, m.eval w'.store (.ofIndex 2) = .ok u ∧ m.eval w'.store (.ofIndex 7) = .ok u) := by
  intro w w' m
  have h₁ := (Reached.empty.build (.bvType 8)).build (.newConst ⟨1⟩)
  have h₂ := (h₁.build (.newConst ⟨1⟩)).build (.bvSum [.ofIndex 2, .ofIndex 3])
  have hw : w.store.Wf :=
    ((h₂.build (.bvNeg (.ofIndex 3))).build (.eq (.ofIndex 4) (.ofIndex 5))).intact.wf
  have hw' : w'.store.Wf := (bvSub_moves _ _ _ hw).wf
  have hx : w'.store.Has (.ofIndex 2) ⟨1⟩ := ⟨⟨.uninterpreted ⟨1⟩ 0, by cbv⟩, by simp⟩
  have hy : w'.store.Has (.ofIndex 3) ⟨1⟩ := ⟨⟨.uninterpreted ⟨1⟩ 1, by cbv⟩, by simp⟩
  have hwidth : w'.store.tyShape? ⟨1⟩ = some (.bitVector 8) := by cbv
  have word {n : Nat} (hn : n < 256) : (Value.bv 8 n).Fits w'.store ⟨1⟩ :=
    (Value.fits_word hwidth).mpr ⟨n, rfl, hn⟩
  have hm : m.WellTyped w'.store :=
    (((Model.TablesFit.empty _).setValue hx (word (by decide))).setValue hy
      (word (by decide))).wellTyped hw'
  exact ⟨hw, definition?_opposed, hm, definition_equivalent hw definition?_opposed hm⟩

end Opposed
end Work
end Entail
