import Entail.Proofs.Model.Coverage
import Entail.Proofs.Model.Valuation
import Entail.Proofs.Store.Becomes
import Entail.Proofs.Store.Runs
import Mathlib

/-!
# Substitution and evaluation

In a model, what a term becomes under a substitution has the value of the term when each key is
read as its replacement. The keys are read all at once: a key that occurs in a replacement has its
own value there.
-/

namespace Entail

/-- Operands are parts. -/
theorem Term.Shape.mem_children {shape : Shape} {c : Term} (hc : c ∈ shape.operands) :
    c ∈ shape.children := by
  cases shape with
  | app f args => exact List.mem_cons_of_mem f hc
  | _ => exact hc

theorem Term.Shape.operands_eq {shape : Shape} (hshape : shape.isInterpreted = true) :
    shape.operands = shape.children := by
  cases shape <;> first | rfl | cases hshape

namespace Store

variable {s : Store} {σ : Subst} {t u c : Term} {ty : Ty} {n : Term.Shape × Ty}

/-- `u` is met in the evaluation of `t`, that is below `t` and not only in the heads of
applications. -/
def Operand (s : Store) (t u : Term) : Prop :=
  Relation.ReflTransGen (fun a c => c ∈ (s.shape a).operands) t u

theorem Operand.part (h : s.Operand c u) (hn : s.node? t = some n) (hc : c ∈ n.1.operands) :
    s.Operand t u :=
  .head (by rwa [shape_of_node hn]) h

theorem shape_neg (s : Store) (t : Term) : s.shape t.neg = s.shape t := by
  simp only [shape, shape?, node?, Term.index_neg]

/-- The negation of a term has the same operands. -/
theorem Operand.of_neg (h : s.Operand t u) : u = t ∨ s.Operand t.neg u := by
  rcases Relation.ReflTransGen.cases_head h with rfl | ⟨c, hc, hcu⟩
  · exact .inl rfl
  · exact .inr (.head (by rwa [shape_neg]) hcu)

/-- Evaluating `t` meets no quantifier, and no variables but keys of `σ`. -/
structure Fillable (s : Store) (σ : Subst) (t : Term) : Prop where
  quantifier : ∀ {u}, s.Operand t u → (s.shape u).isQuantifier = false
  var : ∀ {u}, s.Operand t u → (s.shape u).isVariable = true → ∃ r, σ[u.positive]? = some r

theorem Fillable.part (h : s.Fillable σ t) (hn : s.node? t = some n) (hc : c ∈ n.1.operands) :
    s.Fillable σ c :=
  ⟨fun hu => h.quantifier (hu.part hn hc), fun hu => h.var (hu.part hn hc)⟩

theorem Fillable.of_neg (h : s.Fillable σ t.neg) : s.Fillable σ t where
  quantifier hu := by
    rcases hu.of_neg with rfl | hu
    · exact shape_neg s _ ▸ h.quantifier .refl
    · exact h.quantifier hu
  var hu hvar := by
    rcases hu.of_neg with rfl | hu
    · exact Term.positive_neg _ ▸ h.var .refl (by rwa [shape_neg])
    · exact h.var hu hvar

/-- A term without variables has no quantifiers either, since these bind some. -/
theorem fillable_of_closed (hw : s.Wf) (hreg : s.Regular)
    (h : ∀ {u}, s.Operand t u → (s.shape u).isVariable = false) :
    s.Fillable ∅ t where
  var hu hvar := by
    rw [h hu] at hvar
    cases hvar
  quantifier {u} hu := by
    refine Bool.eq_false_iff.mpr fun hq => ?_
    cases hn : s.node? u with
    | none =>
      rw [shape, shape?, hn] at hq
      cases hq
    | some n =>
      obtain ⟨shape, ty⟩ := n
      rw [shape_of_node hn] at hq
      cases shape with
      | all vars body =>
        obtain ⟨v, hv⟩ := List.exists_mem_of_ne_nil vars (hreg.node hn)
        obtain ⟨-, tv, k, hvn⟩ := (hw.typed hn).2.2.1 v hv
        have hmem : v ∈ (s.shape u).operands := by
          rw [shape_of_node hn]
          exact List.mem_append_left _ hv
        have := h (hu.tail hmem)
        rw [shape_of_node hvn] at this
        cases this
      | _ => cases hq

/-- All applications that are met in the evaluation of `t` are of constants. -/
def AppliesConstants (s : Store) (t : Term) : Prop :=
  ∀ ⦃u f args⦄, s.Operand t u → s.shape u = .app f args → (s.shape f).isUninterpreted = true

theorem AppliesConstants.part (h : s.AppliesConstants t) (hn : s.node? t = some n)
    (hc : c ∈ n.1.operands) :
    s.AppliesConstants c := fun _ _ _ hu => h (hu.part hn hc)

theorem AppliesConstants.of_neg (h : s.AppliesConstants t.neg) : s.AppliesConstants t :=
  fun u f args hu hshape => by
  rcases hu.of_neg with rfl | hu
  · exact h .refl (by rwa [shape_neg])
  · exact h hu hshape

/-- `v` is a term without variables of the type of `x`, which is no function type. -/
structure Grounds (s : Store) (x v : Term) : Prop where
  types : ∃ ty, s.Has x ty ∧ s.Has v ty ∧ s.isFunctionTy ty = false
  closed : ∀ {u}, s.Operand v u → (s.shape u).isVariable = false

end Store

namespace Model

variable {m : Model} {s s' : Store} {σ : Subst} {val val' : Term → Value → Prop} {p t r c : Term}
  {shape : Term.Shape}
  {ty : Ty} {v v' : Value} {n : Term.Shape × Ty}

/-- `m` gives values to the constants that are met in the evaluation of `t`, but for the
keys of `σ`. -/
def Covers (m : Model) (s : Store) (σ : Subst) (t : Term) : Prop :=
  ∀ ⦃u⦄, s.Operand t u → (s.shape u).isUninterpreted = true → σ[u.positive]? = none → ∃ v,
    m.eval s u.positive = .ok v

theorem Covers.part (h : m.Covers s σ t) (hn : s.node? t = some n) (hc : c ∈ n.1.operands) :
    m.Covers s σ c :=
  fun _ hu => h (hu.part hn hc)

theorem Covers.of_neg (h : m.Covers s σ t.neg) : m.Covers s σ t := fun u hu hcon hx => by
  rcases hu.of_neg with rfl | hu
  · have hneg := h .refl (by rwa [Store.shape_neg])
    rw [Term.positive_neg] at hneg
    exact hneg hx
  · exact h hu hcon hx

/-! ## Reading keys as their replacements -/

/-- The value of the positive term `p` when the keys of `σ` are read as their replacements,
where `val` says which values the parts have. Other constants have the values that the model
gives them. -/
inductive NodeUnder (m : Model) (s : Store) (σ : Subst) (val : Term → Value → Prop) (p : Term) :
    Value → Prop where
  | key {r : Term} {v : Value} (hx : σ[p]? = some r) (hv : m.Evaluates s r v) :
    NodeUnder m s σ val p v
  | const {v : Value} (hx : σ[p]? = none) (hc : (s.shape p).isUninterpreted = true)
    (hv : m.Evaluates s p v) :
    NodeUnder m s σ val p v
  | node {shape : Term.Shape} {v : Value} (hx : σ[p]? = none) (hshape : s.shape p = shape)
    (hc : shape.isUninterpreted = false) (hv : NodeValue m s val p shape v) :
    NodeUnder m s σ val p v

/-- `t` has the value `v` by rules that are nested less than `depth` deep, when keys are read as
their replacements. -/
def ValueUnderAt (m : Model) (s : Store) (σ : Subst) : (depth : Nat) → Term → Value → Prop
  | 0, _, _ => False
  | depth + 1, t, v => ∃ v₀, m.NodeUnder s σ (m.ValueUnderAt s σ depth) t.positive v₀ ∧
    withPolarity t v₀ = .ok v

/-- `t` has the value `v` when the keys of `σ` are read as their replacements. -/
def ValueUnder (m : Model) (s : Store) (σ : Subst) (t : Term) (v : Value) : Prop :=
  m.ValueUnderAt s σ (s.terms.slots.size + 1) t v

theorem NodeUnder.imp (h : m.NodeUnder s σ val p v)
    (hval : ∀ c ∈ (s.shape p).children, ∀ v, val c v → val' c v) :
    m.NodeUnder s σ val' p v := by
  cases h with
  | key hx hv => exact .key hx hv
  | const hx hc hv => exact .const hx hc hv
  | node hx hshape hc hv =>
    refine .node hx hshape hc (hv.imp_parts fun c hc' => ?_)
    -- the definition of a constant is no part, but this is no constant
    rcases hc' with hmem | ⟨hcon, -⟩
    · exact hval c (hshape ▸ hmem)
    · rw [hc] at hcon
      cases hcon

/-- When the values of the parts are unique, so is that of the node. -/
theorem NodeUnder.unique (hunique : Relator.RightUnique val) (h : m.NodeUnder s σ val p v)
    (h' : m.NodeUnder s σ val p v') : v = v' := by
  cases h with
  | key hx hv =>
    cases h' with
    | key hx' hv' =>
      cases hx.symm.trans hx'
      exact hv.unique hv'
    | const hx' | node hx' => cases hx.symm.trans hx'
  | const hx hc hv =>
    cases h' with
    | key hx' => cases hx.symm.trans hx'
    | const _ _ hv' => exact hv.unique hv'
    | node _ hshape hc' => rw [hshape, hc'] at hc; cases hc
  | node hx hshape hc hv =>
    cases h' with
    | key hx' => cases hx.symm.trans hx'
    | const _ hc' => rw [hshape, hc] at hc'; cases hc'
    | node _ hshape' _ hv' =>
      obtain rfl := hshape.symm.trans hshape'
      exact hv.unique hunique hv'

theorem valueUnderAt_unique (d : Nat) : Relator.RightUnique (m.ValueUnderAt s σ d) := by
  induction d with
  | zero => exact fun _ _ _ h _ => h.elim
  | succ d ih =>
    rintro t v v' ⟨v₀, hnode, hv⟩ ⟨v₀', hnode', hv'⟩
    obtain rfl := hnode.unique ih hnode'
    exact Except.ok.inj (hv.symm.trans hv')

/-- A term has one value at most. -/
theorem ValueUnder.unique (h : m.ValueUnder s σ t v) (h' : m.ValueUnder s σ t v') : v = v' :=
  valueUnderAt_unique _ h h'

/-- The value of a term from the values of its parts. -/
theorem valueUnder_iff (hs : s.Wf) (hn : s.node? t = some n) : m.ValueUnder s σ t v ↔
    ∃ v₀, m.NodeUnder s σ (m.ValueUnder s σ) t.positive v₀ ∧ withPolarity t v₀ = .ok v := by
  have hparts : s.FromParts fun f (_ : Unit) t v =>
      ∃ v₀, m.NodeUnder s σ (f ()) t.positive v₀ ∧ withPolarity t v₀ = .ok v := by
    intro t shape ty f g hn hfg _
    funext v
    have hch : ∀ c ∈ (s.shape t.positive).children, f () c = g () c := fun c hc => by
      rw [Store.shape, shape?_positive, ← Store.shape, Store.shape_of_node hn] at hc
      exact hfg c hc ()
    refine propext (exists_congr fun v₀ => and_congr_left fun _ => ⟨fun h => ?_, fun h => ?_⟩)
    · exact h.imp fun c hc _ hv => hch c hc ▸ hv
    · exact h.imp fun c hc _ hv => hch c hc ▸ hv
  exact iff_of_eq (congrFun (hparts.level_eq hs (fun d _ => m.ValueUnderAt s σ d)
    (fun _ _ _ => rfl) hn ()) v)

/-- The value of an occurrence of a term comes from the value of the positive term. -/
theorem valueUnder_iff_positive (hs : s.Wf) (hn : s.node? t = some n) : m.ValueUnder s σ t v ↔
    ∃ v₀, m.ValueUnder s σ t.positive v₀ ∧ withPolarity t v₀ = .ok v := by
  have hpos : s.node? t.positive = some n := by rwa [Store.node?, Term.index_positive]
  rw [valueUnder_iff hs hn]
  refine exists_congr fun v₀ => and_congr_left fun _ => ?_
  rw [valueUnder_iff hs hpos, positive_positive]
  simp only [withPolarity_positive, Except.ok.injEq, exists_eq_right]

/-- A positive term has the value of its node. -/
theorem valueUnder_of_positive (hs : s.Wf) (hn : s.node? p = some n) (hp : p.isNegated = false) :
    m.ValueUnder s σ p v ↔ m.NodeUnder s σ (m.ValueUnder s σ) p v := by
  rw [valueUnder_iff hs hn, Term.positive_of_not_isNegated hp]
  simp [withPolarity, hp]

/-- Without keys this is the value of the term. -/
theorem valueUnder_empty (hs : s.Wf) (ht : s.Has t ty) :
    m.ValueUnder s ∅ t v ↔ m.Evaluates s t v := by
  refine hs.induct (P := fun t => ∀ v, m.ValueUnder s ∅ t v ↔ m.Evaluates s t v)
    (fun {t shape ty} ht hn ih v => ?_) ht v
  have hnone : (∅ : Subst)[t.positive]? = none := Std.HashMap.getElem?_empty
  have hshape : s.shape t.positive = shape := by
    rw [Store.shape, shape?_positive, ← Store.shape, Store.shape_of_node hn]
  have hpos : s.node? t.positive = some (shape, ty) := by rwa [Store.node?, Term.index_positive]
  rw [valueUnder_iff hs hn, evaluates_iff_positive]
  refine exists_congr fun v₀ => and_congr_left fun _ => ⟨fun h => ?_, fun h => ?_⟩
  · cases h with
    | key hx => cases hnone.symm.trans hx
    | const _ _ hv => exact hv
    | node _ hshape' hc hv =>
      obtain rfl := hshape'.symm.trans hshape
      refine .of_node hpos (Term.isNegated_positive t) (hv.imp_parts fun c hc' w hw => ?_)
      rcases hc' with hmem | ⟨hcon, -⟩
      · exact (ih c hmem w).mp hw
      · rw [hc] at hcon
        cases hcon
  · cases hc : shape.isUninterpreted with
    | true => exact .const hnone (by rw [hshape, hc]) h
    | false =>
      refine .node hnone hshape hc ((h.node hpos (Term.isNegated_positive t)).imp_parts
        fun c hc' w hw => ?_)
      rcases hc' with hmem | ⟨hcon, -⟩
      · exact (ih c hmem w).mpr hw
      · rw [hc] at hcon
        cases hcon

/-! ## Values and their types -/

/-- The value of an occurrence of a term is of the type of the positive term. -/
theorem exists_withPolarity (hs : s.Wf) (ht : s.Has t ty) (hv : v.Fits s ty) :
    ∃ v', withPolarity t v = .ok v' ∧ v'.Fits s ty := by
  unfold withPolarity
  cases hneg : t.isNegated with
  | false => exact ⟨v, rfl, hv⟩
  | true =>
    obtain rfl := ht.2 hneg
    obtain ⟨b, rfl⟩ := (Value.fits_bool hs).mp hv
    exact ⟨.bool !b, rfl, (Value.fits_bool hs).mpr ⟨!b, rfl⟩⟩

/-- What new parts have the values of the old ones. -/
theorem forall₂_of_forall₂ {α β γ : Type} {R : α → γ → Prop} {P : β → γ → Prop} {as : List α}
    {bs : List β} {cs : List γ}
    (h : List.Forall₂ (fun a b => ∀ c, R a c → P b c) as bs) (hcs : List.Forall₂ R as cs) :
    List.Forall₂ P bs cs := by
  induction h generalizing cs with
  | nil =>
    cases hcs
    exact .nil
  | cons hab _ ih =>
    obtain _ | ⟨hac, hcs⟩ := hcs
    exact .cons (hab _ hac) (ih hcs)

section

variable (hs : s.Wf) (hm : m.WellTyped s) (hσ : s.Assigns σ)

include hs hm hσ

/-- The value of a term, with its keys read as replacements, is of its type. -/
theorem ValueUnder.fits (h : m.ValueUnder s σ t v) (ht : s.Has t ty) : v.Fits s ty := by
  refine hs.induct (P := fun t => ∀ v ty, s.Has t ty → m.ValueUnder s σ t v → v.Fits s ty)
    (fun {t shape ty'} ht' hn ih v ty ht h => ?_) ht v ty ht h
  obtain rfl := ht'.unique ht
  obtain ⟨v₀, hnode, hv⟩ := (valueUnder_iff hs hn).mp h
  have hpos := ht.positive
  have hfits : v₀.Fits s ty' := by
    cases hnode with
    | key hx hv =>
      obtain ⟨tx, hxty, hr⟩ := hσ hx
      exact hv.fits hm hs (hxty.unique hpos ▸ hr)
    | const _ _ hv => exact hv.fits hm hs hpos
    | node _ hshape hc hv =>
      rw [Store.shape, shape?_positive, ← Store.shape, Store.shape_of_node hn] at hshape
      subst hshape
      have hvals : NodeValue m s (fun c w => ∀ tc, s.Has c tc → w.Fits s tc) t.positive
          shape v₀ := by
        refine hv.imp_parts fun c hc' w hw tc htc => ?_
        rcases hc' with hmem | ⟨hcon, -⟩
        · exact ih c hmem w tc htc hw
        · rw [hc] at hcon
          cases hcon
      refine hvals.fits hm.rows hs (by rwa [Store.node?, Term.index_positive]) (fun n hcon => ?_)
        fun c u tc h => h tc
      rw [hcon] at hc
      cases hc
  obtain ⟨v', hv', hfits'⟩ := exists_withPolarity hs ht hfits
  cases hv.symm.trans hv'
  exact hfits'

/-- A term has a value if its evaluation meets nothing without one. -/
theorem exists_valueUnder (hvalues : ∀ ⦃x r : Term⦄, σ[x]? = some r → ∃ v, m.Evaluates s r v)
    (ht : s.Has t ty)
    (hfill : s.Fillable σ t) (hcov : m.Covers s σ t) : ∃ v, m.ValueUnder s σ t v := by
  refine hs.induct (P := fun t => s.Fillable σ t → m.Covers s σ t → ∃ v, m.ValueUnder s σ t v)
    (fun {t shape ty} ht hn ih hfill hcov => ?_) ht hfill hcov
  have hpos := ht.positive
  have hshape : s.shape t = shape := Store.shape_of_node hn
  have hshape' : s.shape t.positive = shape := by
    rw [Store.shape, shape?_positive, ← Store.shape, hshape]
  have parts : ∀ c ∈ shape.operands, ∃ v, m.ValueUnder s σ c v ∧ v.Fits s (s.ty c) := fun c hc => by
    obtain ⟨v, hv⟩ := ih c (Term.Shape.mem_children hc) (hfill.part hn hc) (hcov.part hn hc)
    obtain ⟨tc, htc⟩ := (hs.typed hn).live (Term.Shape.mem_children hc)
    exact ⟨v, hv, htc.ty_eq ▸ hv.fits hs hm hσ htc⟩
  obtain ⟨v₀, hv₀⟩ : ∃ v₀, m.NodeUnder s σ (m.ValueUnder s σ) t.positive v₀ := by
    cases hx : σ[t.positive]? with
    | some r =>
      obtain ⟨v, hv⟩ := hvalues hx
      exact ⟨v, .key hx hv⟩
    | none =>
    by_cases hinter : shape.isInterpreted = true
    · rw [Term.Shape.operands_eq hinter] at parts
      choose! x hval hfits using parts
      obtain ⟨v, hv, -⟩ := exists_nodeValue (m := m) hs (hs.typed hn) hpos hinter hval hfits
      exact ⟨v, .node hx hshape' (Term.Shape.not_atom_of_isInterpreted hinter).1 hv⟩
    cases shape with
    | uninterpreted ty' k =>
      obtain ⟨v, hv⟩ := hcov .refl (by rw [hshape]; rfl) hx
      exact ⟨v, .const hx (by rw [hshape']; rfl) (eval_eq_ok_iff.mp hv).2⟩
    | var ty' k =>
      obtain ⟨r, hr⟩ := hfill.var .refl (by rw [hshape]; rfl)
      cases hx.symm.trans hr
    | all vars body =>
      have hq := hfill.quantifier .refl
      rw [hshape] at hq
      cases hq
    | app f args =>
      choose! x hval _ using parts
      have hargs : List.Forall₂ (m.ValueUnder s σ) args (args.map x) :=
        List.forall₂_map_right_iff.mpr (List.forall₂_same.mpr hval)
      exact ⟨_, .node hx hshape' rfl (.app hargs)⟩
    | _ => exact absurd rfl hinter
  have hfits : v₀.Fits s ty :=
    ValueUnder.fits hs hm hσ ((valueUnder_iff hs hpos.node).mpr
      ⟨v₀, by rwa [positive_positive], withPolarity_positive t v₀⟩) hpos
  obtain ⟨v, hv, -⟩ := exists_withPolarity hs ht hfits
  exact ⟨v, (valueUnder_iff hs hn).mpr ⟨v₀, hv₀, hv⟩⟩

/-! ## What a term becomes -/

/-- Over what its parts became, a term that stands for a node has the value of the node. -/
theorem isValue_of_stands (hlater : Store.Later s s') (hn : s.node? p = some (shape, ty))
    (hp : p.isNegated = false) (hshape : shape.isInterpreted = true) {kids : List Term}
    (hlen : shape.children.length = kids.length)
    (hst : s'.Stands kids r ty fun _ v => shape.combine (s'.partWidth shape) (kids.map v))
    {x : Term → Value} (hval : ∀ a ∈ shape.children, m.ValueUnder s σ a (x a))
    (hkids : ∀ {a b}, (a, b) ∈ shape.children.zip kids → m.Valued s' b ∧
      m.IsValue s' b (s.ty a) (x a))
    (hv : NodeValue m s (m.ValueUnder s σ) p shape v) : m.Valued s' r ∧ m.IsValue s' r ty v := by
  have hs' := hlater.wf
  have e := hlater.ext
  have hn' := e.node hn
  have hpty : s'.Has p ty := ⟨⟨_, hn'⟩, by simp [hp]⟩
  have hty : ∀ a ∈ shape.children, s'.ty a = s.ty a ∧ (x a).Fits s' (s'.ty a) := fun a ha => by
    obtain ⟨ta, hta⟩ := (hs.typed hn).live ha
    obtain ⟨tyShape, hlive⟩ := hs.ty_live hta
    rw [hta.ty_eq, (e.has hta).ty_eq]
    exact ⟨rfl, ((hval a ha).fits hs hm hσ hta).extends_ hlive e⟩
  -- the node keeps its value, which over elements is made from the values of the parts
  obtain ⟨v', hv', hfits, hcomb⟩ := exists_nodeValue (m := m) hs' (hs'.typed hn') hpty hshape hval
    fun a ha => (hty a ha).2
  obtain rfl := (hv.extends_ hs e hn).unique (fun _ _ _ h h' => h.unique h') hv'
  have hdef : ∀ b ∈ kids, (m.valuation s').defined b := fun b hb => by
    obtain ⟨a, hab⟩ := Store.exists_mem_zip hlen hb
    exact (hkids hab).1
  have hmap : kids.map (m.val s') = shape.children.map fun a => (x a).toVal s' (s'.ty a) :=
    Store.map_eq_map_of_zip hlen fun {a b} hab => by
      rw [(hkids hab).2.val_eq, (hty a (List.of_mem_zip hab).1).1]
  have hr : m.val s' r = v.toVal s' ty := by
    rw [hcomb, ← hmap]
    exact hst.value (V := m.valuation s') (valuation_lawful hs') hdef
  have hvalued : m.Valued s' r := hst.defined (V := m.valuation s') (valuation_lawful hs') hdef
  obtain ⟨ty', u, hu⟩ := hvalued.isValue
  obtain rfl := hu.has.unique hst.has
  rw [hu.val_eq] at hr
  exact ⟨hvalued, Value.toVal_injective s' _ hr ▸ hu⟩

omit hm hσ in
/-- What an application becomes has the value of the application. -/
theorem isValue_of_app (hlater : Store.Later s s') {f : Term} {args args' : List Term}
    (hn : s.node? p = some (.app f args, ty)) (hp : p.isNegated = false) (hr : r.isNegated = false)
    (hrn : s'.node? r = some (.app f args', ty))
    (hargs : List.Forall₂ (fun a b => ∀ u, m.ValueUnder s σ a u → m.Evaluates s' b u) args args')
    (hv : NodeValue m s (m.ValueUnder s σ) p (.app f args) v) (hfits : v.Fits s ty) :
    m.Valued s' r ∧ m.IsValue s' r ty v := by
  have e := hlater.ext
  have hpty : s'.Has p ty := ⟨⟨_, e.node hn⟩, by simp [hp]⟩
  have hrty : s'.Has r ty := ⟨⟨_, hrn⟩, by simp [hr]⟩
  obtain ⟨tyShape, hlive⟩ := hs.live_ty hn
  have hvalue : m.IsValue s' r ty v := by
    refine ⟨hrty, .of_node hrn hr ?_, hfits.extends_ hlive e⟩
    replace hv := hv.extends_ hs e hn
    cases hv with
    | @app _ _ vs hvs =>
      rw [hpty.ty_eq, ← hrty.ty_eq]
      exact .app (forall₂_of_forall₂ hargs hvs)
  refine ⟨.intro hvalue fun hn' hstrict => ?_, hvalue⟩
  cases hrn.symm.trans hn'
  cases hstrict

/-- What a term becomes has the value of the term, with its keys read as replacements. -/
theorem isValue_of_becomes (hlater : Store.Later s s')
    (hfun : ∀ ⦃x r : Term⦄, σ[x]? = some r → s.isFunctionTy (s.ty x) = false)
    (hvalues : ∀ ⦃x r : Term⦄, σ[x]? = some r → ∃ v, m.Evaluates s r v) (hb : s'.Becomes σ t r)
    (ht : s.Has t ty) (hfill : s.Fillable σ t) (happ : s.AppliesConstants t) (hcov : m.Covers s σ t)
    (hv : m.ValueUnder s σ t v) :
    m.Valued s' r ∧ m.IsValue s' r ty v := by
  have hs' := hlater.wf
  have e := hlater.ext
  -- what had a value when the store was smaller still has it
  have old {c : Term} {tc : Ty} {u : Value} (hc : s.Has c tc) (h : m.Evaluates s c u) :
      m.Valued s' c ∧ m.IsValue s' c tc u :=
    ⟨(h.valued hm hs hc).extends_ hs e, (h.isValue hm hs hc).extends_ hs e⟩
  induction hb generalizing ty v with
  | @key σ p r hp hx =>
    obtain ⟨tx, hxty, hr⟩ := hσ hx
    obtain rfl := hxty.unique ht
    cases (valueUnder_of_positive hs ht.node hp).mp hv with
    | key hx' hv =>
      cases hx'.symm.trans hx
      exact old hr hv
    | const hx' | node hx' => cases hx.symm.trans hx'
  | @atom σ p shape ty' hp hnone hn hatom =>
    replace hn := Store.node_of_extends e ht hn
    cases (valueUnder_of_positive hs hn hp).mp hv with
    | key hx => cases hnone.symm.trans hx
    | const _ _ hv => exact old ht hv
    | node _ hshape hc hv =>
      obtain rfl := (Store.shape_of_node hn).symm.trans hshape
      cases shape with
      | var => cases hv
      | uninterpreted => cases hc
      | _ => cases hatom
  | @node σ p r shape ty' kids hp hnone hn hshape hlen hkids hst ih =>
    replace hn := Store.node_of_extends e ht hn
    obtain rfl := Store.Has.unique ⟨⟨_, hn⟩, by simp [hp]⟩ ht
    have hop := Term.Shape.operands_eq hshape
    have hlive : ∀ c ∈ shape.children, s.Has c (s.ty c) := fun c hc => by
      obtain ⟨tc, htc⟩ := (hs.typed hn).live hc
      exact htc.ty_eq ▸ htc
    have hparts : ∀ c ∈ shape.children, ∃ v, m.ValueUnder s σ c v := fun c hc =>
      exists_valueUnder hs hm hσ hvalues (hlive c hc) (hfill.part hn (hop ▸ hc))
        (hcov.part hn (hop ▸ hc))
    choose! x hval using hparts
    cases (valueUnder_of_positive hs hn hp).mp hv with
    | key hx => cases hnone.symm.trans hx
    | const _ hc =>
      rw [Store.shape_of_node hn, (Term.Shape.not_atom_of_isInterpreted hshape).1] at hc
      cases hc
    | node _ hshape' _ hv =>
      obtain rfl := (Store.shape_of_node hn).symm.trans hshape'
      refine isValue_of_stands hs hm hσ hlater hn hp hshape hlen hst hval (fun {a b} hab => ?_) hv
      have ha : a ∈ shape.children := (List.of_mem_zip hab).1
      have ha' : a ∈ shape.operands := hop ▸ ha
      exact ih hab hσ hfun hvalues (hlive a ha) (hfill.part hn ha') (happ.part hn ha')
        (hcov.part hn ha') (hval a ha)
  | @app σ p r f f' args args' ty' hp hnone hn hf hlen hargs hr hrn _ ih =>
    replace hn := Store.node_of_extends e ht hn
    obtain rfl := Store.Has.unique ⟨⟨_, hn⟩, by simp [hp]⟩ ht
    have hcon := happ .refl (Store.shape_of_node hn)
    obtain ⟨tf, domain, hfty, htf, hargsty⟩ := hs.typed hn
    -- the function stays: it is a constant and no key
    have hfx : σ[f]? = none := Option.eq_none_iff_forall_ne_some.mpr fun r hx => by
      have := hfun hx
      simp [Store.isFunctionTy, hfty.ty_eq, htf] at this
    have hfneg : f.isNegated = false := hfty.not_isNegated fun hty => by
      subst hty
      cases hs.bool_ty.symm.trans htf
    obtain rfl := hf.eq_of_const (by rwa [Interp.shape_of_has e hfty]) hfneg hfx
    have hfits := hv.fits hs hm hσ ht
    cases (valueUnder_of_positive hs hn hp).mp hv with
    | key hx => cases hnone.symm.trans hx
    | const _ hc =>
      rw [Store.shape_of_node hn] at hc
      cases hc
    | node _ hshape _ hv =>
      obtain rfl := (Store.shape_of_node hn).symm.trans hshape
      refine isValue_of_app hs hlater hn hp hr hrn
        (List.forall₂_iff_zip.mpr ⟨hlen, fun {a b} hab u hu => ?_⟩) hv hfits
      have ha := (List.of_mem_zip hab).1
      obtain ⟨ta, hta⟩ := (hs.typed hn).live (List.mem_cons_of_mem _ ha)
      exact (ih hab hσ hfun hvalues hta (hfill.part hn ha) (happ.part hn ha)
        (hcov.part hn ha) hu).2.value
  | @all σ τ p r body body' vars ty' hp _ hn =>
    have hq := hfill.quantifier .refl
    rw [Store.shape_of_node (Store.node_of_extends e ht hn)] at hq
    cases hq
  | @neg σ p r hp hbool hpr ih =>
    obtain rfl : ty = .bool := ht.2 (by simp [hp])
    have hpos : s.Has p .bool := by simpa [Term.positive_of_not_isNegated hp] using ht.positive
    obtain ⟨v₀, hv₀, hneg⟩ := (valueUnder_iff_positive hs ht.node).mp hv
    rw [Term.positive_neg, Term.positive_of_not_isNegated hp] at hv₀
    obtain ⟨hvalued, hr⟩ := ih hσ hfun hvalues hpos hfill.of_neg happ.of_neg hcov.of_neg hv₀
    obtain ⟨x, rfl, htruth⟩ := hr.truth hs'
    have hv' : v = .bool !x := by simpa [withPolarity, hp] using hneg.symm
    refine ⟨((valuation_lawful hs').neg hvalued hr.has).1,
      hv' ▸ ⟨htruth.neg.has, htruth.neg.value, ?_⟩⟩
    exact (Value.fits_bool hs').mpr ⟨_, rfl⟩

end

end Model

/-- Substitution and evaluation commute. The keys, which may be constants and variables, are no
functions, and their replacements have no variables. The term has no quantifiers and no variables
but keys, and applies constants only. The model gives values to the constants of the replacements
and to those of the term that are no keys. Then what the term becomes has the type of the term, and
as value the one value of the term when the keys are read, all at once, as their replacements. -/
theorem Store.subst_evaluates {m : Model} {s s' : Store} {σ : Subst} {t r : Term} {ty : Ty}
    (hs : Store.Reached s)
    (hm : m.WellTyped s) (hkeys : ∀ ⦃x v : Term⦄, σ[x]? = some v → s.Grounds x v) (ht : s.Has t ty)
    (hfill : s.Fillable σ t) (happ : s.AppliesConstants t) (hcov : m.Covers s σ t)
    (hvalues : ∀ ⦃x v : Term⦄, σ[x]? = some v → m.Covers s ∅ v)
    (hrun : Store.subst σ t s = .ok r s') :
    s'.Has r ty ∧ ∃ v, m.eval s' r = .ok v ∧ ∀ u, m.ValueUnder s σ t u ↔ u = v := by
  have hw := hs.intact.wf
  have hσ : s.Assigns σ := fun x v hx => by
    obtain ⟨ty, hxty, hv, -⟩ := (hkeys hx).types
    exact ⟨ty, hxty, hv⟩
  have hfun : ∀ ⦃x v : Term⦄, σ[x]? = some v → s.isFunctionTy (s.ty x) = false := fun x v hx => by
    obtain ⟨ty, hxty, -, hfun⟩ := (hkeys hx).types
    rwa [hxty.ty_eq]
  have hgiven : ∀ ⦃x v : Term⦄, σ[x]? = some v → ∃ u, m.Evaluates s v u := fun x v hx => by
    obtain ⟨ty, -, hv, -⟩ := (hkeys hx).types
    obtain ⟨u, hu⟩ := Model.exists_valueUnder hw hm (Store.assigns_empty s)
      (fun _ _ h => by simp at h) hv
      (Store.fillable_of_closed hw hs.intact.regular (hkeys hx).closed) (hvalues hx)
    exact ⟨u, (Model.valueUnder_empty hw hv).mp hu⟩
  obtain ⟨hlater, hb⟩ := (Store.subst_becomes hw hσ ht).of_ok hrun
  obtain ⟨v, hv⟩ := Model.exists_valueUnder hw hm hσ hgiven ht hfill hcov
  obtain ⟨-, hr⟩ := Model.isValue_of_becomes hw hm hσ hlater hfun hgiven hb ht hfill happ hcov hv
  refine ⟨hr.has, v, Model.eval_eq_ok_iff.mpr ⟨Store.isValid_iff.mpr ⟨ty, hr.has⟩, hr.value⟩,
    fun u => ?_⟩
  exact ⟨fun hu => hu.unique hv, fun h => h ▸ hv⟩

namespace Store

/-- Words `x` and `y` of 8 bits, and the comparison `x ≥ y`. -/
def compared : Store :=
  let s := endState (bvType 8 .empty)
  let s := endState (newConst ⟨1⟩ s)
  let s := endState (newConst ⟨1⟩ s)
  endState (bvGe (.ofIndex 2) (.ofIndex 3) s)

theorem reached_compared : Reached compared :=
  (((Reached.empty.build (.bvType 8)).build (.newConst ⟨1⟩)).build (.newConst ⟨1⟩)).build
    (.bvGe (.ofIndex 2) (.ofIndex 3))

/-- Each of the two words for the other. -/
def swap : Subst := ((∅ : Subst).insert (.ofIndex 2) (.ofIndex 3)).insert (.ofIndex 3) (.ofIndex 2)

theorem swap_eq_some {x v : Term} (h : swap[x]? = some v) :
    (x = .ofIndex 2 ∧ v = .ofIndex 3) ∨ (x = .ofIndex 3 ∧ v = .ofIndex 2) := by
  unfold swap at h
  rw [Std.HashMap.getElem?_insert, Std.HashMap.getElem?_insert] at h
  split at h
  next heq =>
    cases h
    exact .inr ⟨(eq_of_beq heq).symm, rfl⟩
  next =>
    split at h
    next heq =>
      cases h
      exact .inl ⟨(eq_of_beq heq).symm, rfl⟩
    next => simp at h

theorem word_compared {x : Term} (hx : x = .ofIndex 2 ∨ x = .ofIndex 3) :
    compared.Has x ⟨1⟩ ∧ x.positive = x ∧ ∃ n, compared.shape x = .uninterpreted ⟨1⟩ n := by
  rcases hx with rfl | rfl
  · exact ⟨⟨⟨.uninterpreted ⟨1⟩ 0, by cbv⟩, by simp⟩, rfl, 0, by cbv⟩
  · exact ⟨⟨⟨.uninterpreted ⟨1⟩ 1, by cbv⟩, by simp⟩, rfl, 1, by cbv⟩

theorem operand_word {x u : Term} (hx : x = .ofIndex 2 ∨ x = .ofIndex 3)
    (h : compared.Operand x u) : u = x := by
  rcases Relation.ReflTransGen.cases_head h with rfl | ⟨c, hc, -⟩
  · rfl
  · obtain ⟨-, -, n, hshape⟩ := word_compared hx
    rw [hshape] at hc
    cases hc

theorem operand_compared {u : Term} (h : compared.Operand (.ofIndex 4) u) :
    u = .ofIndex 4 ∨ u = .ofIndex 2 ∨ u = .ofIndex 3 := by
  have hshape : compared.shape (.ofIndex 4) = .bvGe (.ofIndex 2) (.ofIndex 3) := by cbv
  rcases Relation.ReflTransGen.cases_head h with rfl | ⟨c, hc, h⟩
  · exact .inl rfl
  · rw [hshape] at hc
    have hc : c = .ofIndex 2 ∨ c = .ofIndex 3 := by
      simpa [Term.Shape.operands, Term.Shape.children] using hc
    exact .inr (operand_word hc h ▸ hc)

/-- The words are swapped at once, so 200 is compared with 100 the other way. -/
theorem subst_evaluates_compared :
    let m := (Model.empty.setValue (.ofIndex 2) (.bv 8 200)).setValue (.ofIndex 3) (.bv 8 100)
    ∃ s', Store.subst swap (.ofIndex 4) compared = .ok (.ofIndex 5) s' ∧ s'.Has (.ofIndex 5) .bool ∧
      m.eval compared (.ofIndex 4) = .ok (.bool true) ∧ m.eval s' (.ofIndex 5) = .ok (.bool false) ∧
        ∀ u, m.ValueUnder compared swap (.ofIndex 4) u ↔ u = .bool false := by
  intro m
  have hw := reached_compared.intact.wf
  have hwidth : compared.tyShape? ⟨1⟩ = some (.bitVector 8) := by cbv
  have word {n : Nat} (hn : n < 256) : (Value.bv 8 n).Fits compared ⟨1⟩ :=
    (Value.fits_word hwidth).mpr ⟨n, rfl, hn⟩
  have hm : m.WellTyped compared :=
    (((Model.TablesFit.empty _).setValue (word_compared (.inl rfl)).1 (word (by decide))).setValue
      (word_compared (.inr rfl)).1 (word (by decide))).wellTyped hw
  have hge : compared.node? (.ofIndex 4) = some (.bvGe (.ofIndex 2) (.ofIndex 3), .bool) := by cbv
  have hshape {u : Term} (hu : compared.Operand (.ofIndex 4) u) :
    (compared.shape u).isVariable = false ∧
      (compared.shape u).isQuantifier = false ∧ ∀ f args, compared.shape u ≠ .app f args := by
    rcases operand_compared hu with rfl | hu
    · rw [shape_of_node hge]
      exact ⟨rfl, rfl, by simp⟩
    · obtain ⟨-, -, n, hshape⟩ := word_compared hu
      rw [hshape]
      exact ⟨rfl, rfl, by simp⟩
  have hkeys : ∀ ⦃x v : Term⦄, swap[x]? = some v → compared.Grounds x v := fun x v hx => by
    have hx' : (x = .ofIndex 2 ∨ x = .ofIndex 3) ∧ (v = .ofIndex 2 ∨ v = .ofIndex 3) := by
      rcases swap_eq_some hx with ⟨hx, hv⟩ | ⟨hx, hv⟩
      · exact ⟨.inl hx, .inr hv⟩
      · exact ⟨.inr hx, .inl hv⟩
    refine ⟨⟨⟨1⟩, (word_compared hx'.1).1, (word_compared hx'.2).1, by cbv⟩, fun hu => ?_⟩
    obtain ⟨-, -, n, hshape⟩ := word_compared hx'.2
    rw [operand_word hx'.2 hu, hshape]
    rfl
  -- both words have values, and these are all the constants there are
  have hcovers {σ : Subst} {v : Term} (hv : v = .ofIndex 2 ∨ v = .ofIndex 3) :
      m.Covers compared σ v := fun u hu _ _ => by
    obtain rfl := operand_word hv hu
    rw [(word_compared hv).2.1]
    rcases hv with rfl | rfl
    · exact ⟨.bv 8 200, by cbv⟩
    · exact ⟨.bv 8 100, by cbv⟩
  have hcov : m.Covers compared swap (.ofIndex 4) := fun u hu hcon hx => by
    rcases operand_compared hu with rfl | hu
    · rw [shape_of_node hge] at hcon
      cases hcon
    · exact hcovers hu .refl hcon hx
  have hfill : compared.Fillable swap (.ofIndex 4) :=
    ⟨fun hu => (hshape hu).2.1, fun hu hvar => absurd hvar (by rw [(hshape hu).1]; decide)⟩
  have hempty : swap.isEmpty = false := Std.HashMap.isEmpty_insert
  have hrun := subst_of_nonempty hempty (.ofIndex 4) compared
  have hr : (substAt (compared.terms.slots.size + 1) swap (.ofIndex 4)).run' ∅ compared =
      .ok (.ofIndex 5) (endState ((substAt (compared.terms.slots.size + 1) swap (.ofIndex 4)).run' ∅
        compared)) :=
    ok_of_run' (by cbv)
  have hvalue :
    m.eval (endState ((substAt (compared.terms.slots.size + 1) swap (.ofIndex 4)).run' ∅ compared))
      (.ofIndex 5) = .ok (.bool false) := by cbv
  obtain ⟨hty, v, hv, hiff⟩ := subst_evaluates reached_compared hm hkeys ⟨⟨_, hge⟩, by simp⟩ hfill
    (fun u f args hu h => ((hshape hu).2.2 f args h).elim) hcov
    (fun x v hx => hcovers ((swap_eq_some hx).elim (fun h => .inr h.2) fun h => .inl h.2))
      (hrun.trans hr)
  cases hv.symm.trans hvalue
  exact ⟨_, hrun.trans hr, hty, by cbv, hvalue, hiff⟩

end Store
end Entail
