import Entail.Proofs.Store.Made

/-!
# Supported terms

A supported term has only variables of a given list and no quantifiers; applications in it take
elements of sorts and are no bitvectors, and equalities are not between functions. Heads of
applications do not matter. A formula may be asserted when it is supported, or one over bound
variables of sorts, or a conjunction of such formulas. And a formula is shallow when its
connectives and quantifiers are not nested deeply above its atoms; how deep a constant may stand
depends on the constant.
-/

namespace Entail

namespace Term.Shape

/-- Shapes without a condition of their own. -/
def isPlain : Shape → Bool
  | .var .. | .all .. | .app .. | .eq .. => false
  | _ => true

/-- Constants and variables. -/
def isSymbol : Shape → Bool
  | .uninterpreted .. | .var .. => true
  | _ => false

theorem isPlain_of_isConnective {shape : Shape} (h : shape.isConnective = true) :
    shape.isPlain = true := by
  cases shape <;> first | rfl | cases h

end Term.Shape

namespace Store

variable {s s' : Store} {vars vars' args : List Term} {t u a b c : Term} {ty : Ty}
  {shape : Term.Shape}
  {given : Term → Prop} {allowed : Term.Shape → Prop} {w w' : Term → Nat → Prop} {d d' : Nat}
  {flatten : Bool}

theorem IsWord.isPlain (h : IsWord shape) : shape.isPlain = true := by
  cases shape <;> first | rfl | cases h

/-- The handles of one slot have one entry. -/
theorem node?_congr (h : u.index = t.index) : s.node? u = s.node? t := by
  unfold node?
  rw [h]

theorem positive_congr (h : u.index = t.index) : u.positive = t.positive := by
  unfold Term.positive
  rw [show u.raw / 2 = t.raw / 2 from h]

theorem index_negIf (t : Term) (flip : Bool) : (t.negIf flip).index = t.index := by
  cases flip with
  | false => rfl
  | true => exact Term.index_neg t

/-! ## Terms that can be encoded -/

/-- The term is of an uninterpreted sort. -/
def IsSort (s : Store) (t : Term) : Prop :=
  ∃ ty n, s.Has t ty ∧ s.tyShape? ty = some (.uninterpreted n)

theorem IsSort.later (h : s.IsSort t) (hs : s.Extends s') : s'.IsSort t := by
  obtain ⟨ty, n, ht, hty⟩ := h
  exact ⟨ty, n, hs.has ht, hs.ty hty⟩

/-- The sort of a term stays when the term stays. -/
theorem IsSort.stays (h : s.IsSort t) (hs : s.Stays s' t) : s'.IsSort t := by
  obtain ⟨ty, n, hty, hn⟩ := h
  obtain ⟨shape, hshape, hshape'⟩ := hs.ty .refl hty.node .refl
  exact ⟨ty, n, hs.has hty, hshape'.trans (hshape.symm.trans hn)⟩

/-- Only `vars` occur as variables, there are no quantifiers, functions take elements of sorts and
give no bitvectors, and functions are not compared. -/
inductive Supported (s : Store) (vars : List Term) : Term → Prop where
  | var {t : Term} {ty ty' : Ty} {n : Nat} (hn : s.node? t = some (.var ty n, ty'))
    (h : t.positive ∈ vars) :
    Supported s vars t
  | app {t f : Term} {args : List Term} {ty : Ty} {tyShape : Ty.Shape}
    (hn : s.node? t = some (.app f args, ty))
    (hty : s.tyShape? ty = some tyShape) (hword : ∀ w, tyShape ≠ .bitVector w)
    (hsorts : ∀ a ∈ args, s.IsSort a)
    (hargs : ∀ a ∈ args, Supported s vars a) : Supported s vars t
  | eq {t a b : Term} {ty ty' : Ty} {tyShape : Ty.Shape} (hn : s.node? t = some (.eq a b, ty))
    (hty : s.Has a ty')
    (hshape : s.tyShape? ty' = some tyShape) (hfun : ∀ domain range,
      tyShape ≠ .function domain range)
    (ha : Supported s vars a) (hb : Supported s vars b) : Supported s vars t
  | plain {t : Term} {shape : Term.Shape} {ty : Ty} (hn : s.node? t = some (shape, ty))
    (hplain : shape.isPlain = true)
    (hparts : ∀ c ∈ shape.children, Supported s vars c) : Supported s vars t

namespace Supported

/-- Polarity does not matter. -/
theorem congr (h : s.Supported vars t) (hi : u.index = t.index) : s.Supported vars u := by
  cases h with
  | var hn hv => exact .var ((node?_congr hi).trans hn) (positive_congr hi ▸ hv)
  | app hn hty hword hsorts hargs => exact .app ((node?_congr hi).trans hn) hty hword hsorts hargs
  | eq hn hty hshape hfun ha hb => exact .eq ((node?_congr hi).trans hn) hty hshape hfun ha hb
  | plain hn hplain hparts => exact .plain ((node?_congr hi).trans hn) hplain hparts

theorem neg (h : s.Supported vars t) : s.Supported vars t.neg := h.congr (Term.index_neg t)

theorem positive (h : s.Supported vars t) : s.Supported vars t.positive :=
  h.congr (Term.index_positive t)

theorem negIf (h : s.Supported vars t) (flip : Bool) : s.Supported vars (t.negIf flip) :=
  h.congr (index_negIf t flip)

theorem of_negIf {flip : Bool} (h : s.Supported vars (t.negIf flip)) : s.Supported vars t :=
  h.congr (index_negIf t flip).symm

theorem of_neg (h : s.Supported vars t.neg) : s.Supported vars t := h.congr (Term.index_neg t).symm

theorem mono (h : s.Supported vars t) (hsub : ∀ v ∈ vars, v ∈ vars') : s.Supported vars' t := by
  induction h with
  | var hn hv => exact .var hn (hsub _ hv)
  | app hn hty hword hsorts _ ih => exact .app hn hty hword hsorts ih
  | eq hn hty hshape hfun _ _ iha ihb => exact .eq hn hty hshape hfun iha ihb
  | plain hn hplain _ ih => exact .plain hn hplain ih

theorem closed (h : s.Supported [] t) : s.Supported vars t :=
  h.mono fun _ hv => absurd hv List.not_mem_nil

/-- A supported term that is no application has supported parts. -/
theorem part (h : s.Supported vars t) (hn : s.node? t = some (shape, ty))
    (happ : ∀ f args, shape ≠ .app f args) (hc : c ∈ shape.children) : s.Supported vars c := by
  cases h with
  | var hn' =>
    cases hn.symm.trans hn'
    cases hc
  | app hn' =>
    cases hn.symm.trans hn'
    exact absurd rfl (happ _ _)
  | eq hn' _ _ _ ha hb =>
    cases hn.symm.trans hn'
    exact forall_mem_pair ha hb c hc
  | plain hn' _ hparts =>
    cases hn.symm.trans hn'
    exact hparts c hc

/-- The arguments of a supported application are supported elements of sorts. -/
theorem arg (h : s.Supported vars t) {f : Term} (hn : s.node? t = some (.app f args, ty))
    (ha : a ∈ args) :
    s.Supported vars a ∧ s.IsSort a := by
  cases h with
  | app hn' _ _ hsorts hargs =>
    cases hn.symm.trans hn'
    exact ⟨hargs a ha, hsorts a ha⟩
  | var hn' | eq hn' => cases hn.symm.trans hn'
  | plain hn' hplain =>
    cases hn.symm.trans hn'
    cases hplain

/-- A supported term is no quantifier. -/
theorem not_quantifier (h : s.Supported vars t) {vs : List Term} {body : Term}
    (hn : s.node? t = some (.all vs body, ty)) : False := by
  cases h with
  | var hn' | app hn' | eq hn' => cases hn.symm.trans hn'
  | plain hn' hplain =>
    cases hn.symm.trans hn'
    cases hplain

/-- A supported term stays so when it stays. -/
theorem stays (h : s.Supported vars t) (hw : s.Wf) (hs : s.Stays s' t) : s'.Supported vars t := by
  have hpart {t c : Term} {n : Term.Shape × Ty} (hs : s.Stays s' t) (hn : s.node? t = some n)
    (hc : c ∈ n.1.children) :
      s.Stays s' c := by
    obtain ⟨tc, hctc⟩ := (hw.typed hn).live hc
    exact hs.part (Below.child .refl hn hc) (isValid_iff.mpr ⟨tc, hctc⟩)
  induction h with
  | var hn hv => exact .var (hs.node_eq hn) hv
  | app hn hty hword hsorts _ ih =>
    obtain ⟨tyShape, hold, hnew⟩ := hs.ty .refl hn .refl
    cases hty.symm.trans hold
    exact .app (hs.node_eq hn) hnew hword
      (fun a ha => (hsorts a ha).stays (hpart hs hn (List.mem_cons_of_mem _ ha)))
      fun a ha => ih a ha (hpart hs hn (List.mem_cons_of_mem _ ha))
  | eq hn hty hshape hfun _ _ iha ihb =>
    have ha := hpart hs hn List.mem_cons_self
    have hb := hpart hs hn (List.mem_cons_of_mem _ (List.mem_singleton_self _))
    obtain ⟨tyShape, hold, hnew⟩ := ha.ty .refl hty.node .refl
    cases hshape.symm.trans hold
    exact .eq (hs.node_eq hn) (ha.has hty) hnew hfun (iha ha) (ihb hb)
  | plain hn hplain _ ih => exact .plain (hs.node_eq hn) hplain fun c hc => ih c hc (hpart hs hn hc)

theorem later (h : s.Supported vars t) (hs : s.Extends s') : s'.Supported vars t := by
  induction h with
  | var hn hv => exact .var (hs.node hn) hv
  | app hn hty hword hsorts _ ih =>
    exact .app (hs.node hn) (hs.ty hty) hword (fun a ha => (hsorts a ha).later hs) ih
  | eq hn hty hshape hfun _ _ iha ihb =>
    exact .eq (hs.node hn) (hs.has hty) (hs.ty hshape) hfun iha ihb
  | plain hn hplain _ ih => exact .plain (hs.node hn) hplain ih

theorem top (hw : s.Wf) : s.Supported vars .top := .plain hw.truth rfl nofun

theorem bot (hw : s.Wf) : s.Supported vars .bot := (top hw).neg

theorem of_isValue (h : s.IsValue t) : s.Supported vars t := by
  obtain ⟨w, n, ty, hn⟩ := h
  exact .plain hn rfl nofun

theorem of_material (h : s.Material args t) (hargs : ∀ a ∈ args, s.Supported vars a) :
    s.Supported vars t := by
  obtain ⟨a, ha, rfl | ⟨hword, hpart⟩⟩ := h
  · exact hargs _ ha
  · -- a dead handle has no parts
    cases hn : s.node? a with
    | none => simp [shape, shape?, hn, Term.Shape.children] at hpart
    | some n =>
      rw [shape_of_node hn] at hword hpart
      exact (hargs a ha).part hn (fun f args heq => by rw [heq] at hword; cases hword) hpart

theorem of_over {D : Term → Prop} (h : Over D shape) (hD : ∀ u, D u → s.Supported vars u) :
    ∀ c ∈ shape.children, s.Supported vars c := fun c hc =>
  (h c hc).elim (hD c) fun h => (hD _ h).of_neg

end Supported

/-- What is made of supported terms by plain shapes over such terms. -/
theorem Made.supported (h : s.Made given allowed t) (hw : s.Wf)
    (hgiven : ∀ u, given u → s.Supported vars u)
    (hallowed : ∀ u shape ty, s.node? u = some (shape, ty) → allowed shape → s.Supported vars u) :
    s.Supported vars t := by
  induction h with
  | top => exact .top hw
  | given h => exact hgiven _ h
  | node hn h => exact hallowed _ _ _ hn h
  | neg _ ih => exact ih.neg

/-! ## Terms in an e-graph -/

/-- A supported term that is a truth value or an element of a sort, and no negated application. -/
structure Nodal (s : Store) (vars : List Term) (t : Term) : Prop where
  supported : s.Supported vars t
  ty : s.Has t .bool ∨ s.IsSort t
  positive : ∀ {f args}, s.shape t = .app f args → t.isNegated = false

namespace Nodal

theorem has (h : s.Nodal vars t) : ∃ ty, s.Has t ty := by
  rcases h.ty with ht | ⟨ty, n, ht, -⟩
  · exact ⟨.bool, ht⟩
  · exact ⟨ty, ht⟩

theorem of_isSort (h : s.Supported vars t) (hw : s.Wf) (ht : s.IsSort t) : s.Nodal vars t := by
  refine ⟨h, .inr ht, fun _ => ?_⟩
  obtain ⟨ty, n, hty, hn⟩ := ht
  refine hty.not_isNegated ?_
  rintro rfl
  rw [hw.bool_ty] at hn
  cases hn

theorem arg (hw : s.Wf) (h : s.Nodal vars t) {f : Term} {args : List Term}
    (hshape : s.shape t = .app f args) :
    ∀ a ∈ args, s.Nodal vars a := fun a ha => by
  obtain ⟨ty, hn⟩ := node_of_shape hshape nofun
  obtain ⟨hsupported, hsort⟩ := h.supported.arg hn ha
  exact .of_isSort hsupported hw hsort

theorem later (h : s.Nodal vars t) (hs : s.Extends s') : s'.Nodal vars t := by
  obtain ⟨ty, ⟨n, hn⟩, -⟩ := h.has
  have hshape : s'.shape t = s.shape t := (shape_of_node (hs.node hn)).trans (shape_of_node hn).symm
  exact ⟨h.supported.later hs, h.ty.imp hs.has (·.later hs), fun happ => h.positive (hshape ▸ happ)⟩

theorem stays (h : s.Nodal vars t) (hw : s.Wf) (hs : s.Stays s' t) : s'.Nodal vars t :=
  ⟨h.supported.stays hw hs, h.ty.imp hs.has (·.stays hs), fun hshape =>
    h.positive (hs.shape_eq ▸ hshape)⟩

end Nodal

/-! ## Formulas that may be asserted -/

/-- The formula is supported, or quantifies over sorts, or is a conjunction that is taken apart. -/
inductive Assertable (s : Store) (flatten : Bool) : Term → Prop where
  | body {t : Term} (h : s.Supported [] t) : Assertable s flatten t
  | all {t body : Term} {vars : List Term} {ty : Ty} (hn : s.node? t = some (.all vars body, ty))
    (hvars : ∀ v ∈ vars, s.IsSort v) (hbody : s.Supported vars body) : Assertable s flatten t
  | conj {t : Term} {args : List Term} {ty : Ty} (hflatten : flatten = true)
    (hneg : t.isNegated = true)
    (hn : s.node? t = some (.or args, ty)) (hargs : ∀ a ∈ args, Assertable s flatten a.neg) :
    Assertable s flatten t

namespace Assertable

theorem later (h : s.Assertable flatten t) (hs : s.Extends s') : s'.Assertable flatten t := by
  induction h with
  | body h => exact .body (h.later hs)
  | all hn hvars hbody => exact .all (hs.node hn) (fun v hv =>
    (hvars v hv).later hs) (hbody.later hs)
  | conj hflatten hneg hn _ ih => exact .conj hflatten hneg (hs.node hn) ih

/-- A formula that may be asserted stays so when it stays. -/
theorem stays (h : s.Assertable flatten t) (hw : s.Wf) (hs : s.Stays s' t) :
    s'.Assertable flatten t := by
  have hpart {t c : Term} {n : Term.Shape × Ty} (hs : s.Stays s' t) (hn : s.node? t = some n)
    (hc : c ∈ n.1.children) :
      s.Stays s' c := by
    obtain ⟨tc, hctc⟩ := (hw.typed hn).live hc
    exact hs.part (Below.child .refl hn hc) (isValid_iff.mpr ⟨tc, hctc⟩)
  induction h with
  | body h => exact .body (h.stays hw hs)
  | all hn hvars hbody =>
    exact .all (hs.node_eq hn) (fun v hv => (hvars v hv).stays
      (hpart hs hn (List.mem_append_left _ hv)))
      (hbody.stays hw (hpart hs hn (List.mem_append_right _ (List.mem_singleton_self _))))
  | @conj t args ty hflatten hneg hn _ ih =>
    refine .conj hflatten hneg (hs.node_eq hn) fun a ha => ih a ha ?_
    have hbelow : s.Below t a.neg := by
      unfold Below
      rw [Term.index_neg]
      exact Below.child .refl hn ha
    exact hs.part hbelow (isValid_iff.mpr ⟨.bool, ((hw.typed hn).2 a ha).neg⟩)

/-- What is no disjunction and no quantifier is supported itself. -/
theorem supported (h : s.Assertable flatten t) (hn : s.node? t = some (shape, ty))
    (hall : shape.isQuantifier = false) (hor : ∀ args, shape ≠ .or args) : s.Supported [] t := by
  cases h with
  | body h => exact h
  | all hn' =>
    cases hn.symm.trans hn'
    cases hall
  | conj _ _ hn' =>
    cases hn.symm.trans hn'
    exact absurd rfl (hor _)

/-- A quantifier is one over sorts, with a supported body. -/
theorem quantifier (h : s.Assertable flatten t) {body : Term}
    (hn : s.node? t = some (.all vars body, ty)) :
    (∀ v ∈ vars, s.IsSort v) ∧ s.Supported vars body := by
  cases h with
  | all hn' hvars hbody =>
    cases hn.symm.trans hn'
    exact ⟨hvars, hbody⟩
  | body h => exact (h.not_quantifier hn).elim
  | conj _ _ hn' => cases hn.symm.trans hn'

/-- The conjuncts of a conjunction may be asserted. -/
theorem conjunct (h : s.Assertable flatten t) (hn : s.node? t = some (.or args, ty))
    (ha : a ∈ args) :
    s.Assertable flatten a.neg := by
  cases h with
  | body h => exact .body (h.part hn nofun ha).neg
  | all hn' => cases hn.symm.trans hn'
  | conj _ _ hn' hargs =>
    cases hn.symm.trans hn'
    exact hargs a ha

end Assertable

/-! ## Nesting -/

theorem Below.later (h : s.Below t u) (hs : s.Extends s') : s'.Below t u := by
  have hchild : s.Child ≤ s'.Child := fun i j ⟨shape, ty, c, hi, hc, hj⟩ => by
    have hn : s.node? (.ofIndex i) = some (shape, ty) := by rwa [node?, Term.index_ofIndex]
    have hn' := hs.node hn
    rw [node?, Term.index_ofIndex] at hn'
    exact ⟨shape, ty, c, hn', hc, hj⟩
  exact Relation.ReflTransGen.mono hchild _ _ h

/-- Connectives and quantifiers are nested at most `d` deep above what is no boolean structure. A
constant may stand where `w` allows it, which is given what is left of `d` there. -/
inductive Shallow (s : Store) (w : Term → Nat → Prop) : Nat → Term → Prop where
  | other {d : Nat} {t : Term} {shape : Term.Shape} {ty : Ty} (hn : s.node? t = some (shape, ty))
    (hty : ty ≠ .bool) :
    Shallow s w d t
  | atom {d : Nat} {t : Term} {shape : Term.Shape} {ty : Ty} (hn : s.node? t = some (shape, ty))
    (hconn : shape.isConnective = false) (hall : shape.isQuantifier = false)
    (hsymbol : shape.isSymbol = false) :
    Shallow s w d t
  | const {d : Nat} {t : Term} {ty ty' : Ty} {n : Nat}
    (hn : s.node? t = some (.uninterpreted ty n, ty'))
    (hw : w t.positive d) : Shallow s w d t
  | node {d : Nat} {t : Term} {shape : Term.Shape} {ty : Ty} (hn : s.node? t = some (shape, ty))
    (hshape : shape.isConnective = true ∨ shape.isQuantifier = true) (hparts : ∀ c ∈ shape.children,
      Shallow s w d c) :
    Shallow s w (d + 1) t

namespace Shallow

/-- Polarity does not matter. -/
theorem congr (h : s.Shallow w d t) (hi : u.index = t.index) : s.Shallow w d u := by
  cases h with
  | other hn hty => exact .other ((node?_congr hi).trans hn) hty
  | atom hn hconn hall hsymbol => exact .atom ((node?_congr hi).trans hn) hconn hall hsymbol
  | const hn hw => exact .const ((node?_congr hi).trans hn) (positive_congr hi ▸ hw)
  | node hn hshape hparts => exact .node ((node?_congr hi).trans hn) hshape hparts

theorem neg (h : s.Shallow w d t) : s.Shallow w d t.neg := h.congr (Term.index_neg t)

theorem negIf (h : s.Shallow w d t) (flip : Bool) : s.Shallow w d (t.negIf flip) :=
  h.congr (index_negIf t flip)

theorem of_neg (h : s.Shallow w d t.neg) : s.Shallow w d t := h.congr (Term.index_neg t).symm

theorem later (h : s.Shallow w d t) (hs : s.Extends s') : s'.Shallow w d t := by
  induction h with
  | other hn hty => exact .other (hs.node hn) hty
  | atom hn hconn hall hsymbol => exact .atom (hs.node hn) hconn hall hsymbol
  | const hn hw => exact .const (hs.node hn) hw
  | node hn hshape _ ih => exact .node (hs.node hn) hshape ih

/-- More depth may be allowed, and more constants with it. -/
theorem mono (h : s.Shallow w d t) {k : Nat} (hw : ∀ x i, w x i → w' x (i + k)) :
    s.Shallow w' (d + k) t := by
  induction h with
  | other hn hty => exact .other hn hty
  | atom hn hconn hall hsymbol => exact .atom hn hconn hall hsymbol
  | const hn hx => exact .const hn (hw _ _ hx)
  | node hn hshape _ ih => exact Nat.add_right_comm .. ▸ .node hn hshape ih

theorem weaken (h : s.Shallow w d t) (hw : ∀ x i, w x i → w' x i) : s.Shallow w' d t :=
  h.mono (k := 0) hw

/-- The parts of boolean structure are less nested. -/
theorem part (h : s.Shallow w d t) (hn : s.node? t = some (shape, .bool))
    (hshape : shape.isConnective = true ∨ shape.isQuantifier = true) :
    ∃ k, d = k + 1 ∧ ∀ c ∈ shape.children, s.Shallow w k c := by
  cases h with
  | other hn' hty =>
    cases hn.symm.trans hn'
    exact absurd rfl hty
  | atom hn' hconn hall =>
    cases hn.symm.trans hn'
    rw [hconn, hall] at hshape
    simp at hshape
  | const hn' =>
    cases hn.symm.trans hn'
    simp [Term.Shape.isConnective, Term.Shape.isQuantifier] at hshape
  | @node d _ _ _ hn' _ hparts =>
    cases hn.symm.trans hn'
    exact ⟨d, rfl, hparts⟩

/-- A boolean constant stands where it may. -/
theorem symbol (h : s.Shallow w d t) {ty : Ty} {n : Nat}
    (hn : s.node? t = some (.uninterpreted ty n, .bool)) :
    w t.positive d := by
  cases h with
  | other hn' hty =>
    cases hn.symm.trans hn'
    exact absurd rfl hty
  | atom hn' _ _ hsymbol =>
    cases hn.symm.trans hn'
    cases hsymbol
  | const _ hw => exact hw
  | node hn' hshape =>
    cases hn.symm.trans hn'
    simp [Term.Shape.isConnective, Term.Shape.isQuantifier] at hshape

theorem top (hw : s.Wf) : s.Shallow w d .top := .atom hw.truth rfl rfl rfl

/-- Constants stand in what they are a part of. -/
theorem within (h : s.Shallow w d t) : s.Shallow (fun x i => w x i ∧ s.Below t x) d t := by
  induction h with
  | other hn hty => exact .other hn hty
  | atom hn hconn hall hsymbol => exact .atom hn hconn hall hsymbol
  | @const d t _ _ _ hn hx =>
    refine .const hn ⟨hx, ?_⟩
    unfold Below
    rw [Term.index_positive]
  | node hn hshape _ ih =>
    exact .node hn hshape fun c hc => (ih c hc).weaken fun x i hx =>
      ⟨hx.1, Relation.ReflTransGen.head (Child.child_of_node hn hc) hx.2⟩


end Shallow

/-- A supported term is nested no deeper than its rank says, and its constants are in slots
that there are. -/
theorem Supported.shallow (hw : s.Wf) {rank : Nat → Nat}
    (hrank : ∀ {i shape ty}, s.terms.get? i = some (shape, ty) → ∀ c ∈ shape.children,
      rank c.index < rank i)
    (h : s.Supported vars t) (hvars : ∀ v ∈ vars, s.IsSort v) :
    s.Shallow (fun x _ => x.index < s.terms.slots.size) (rank t.index + 1) t := by
  induction h with
  | @var t _ tt _ hn hv =>
    obtain ⟨ty, n, hty, hsort⟩ := hvars _ hv
    refine .other hn ?_
    rintro rfl
    have hsame := hty.node.symm.trans ((node?_congr (Term.index_positive t)).trans hn)
    have heq : ty = .bool := congrArg Prod.snd (Option.some.inj hsame)
    cases hw.bool_ty.symm.trans (heq ▸ hsort)
  | app hn | eq hn => exact .atom hn rfl rfl rfl
  | @plain t shape ty hn hplain _ ih =>
    by_cases hconn : shape.isConnective = true
    · refine .node hn (.inl hconn) fun c hc => ?_
      have hlt : rank c.index + 1 ≤ rank t.index := hrank hn c hc
      obtain ⟨k, hk⟩ := Nat.exists_eq_add_of_le hlt
      exact hk ▸ (ih c hc).mono fun _ _ => id
    · have hlt : t.positive.index < s.terms.slots.size :=
        Term.index_positive t ▸ Arena.lt_of_get? hn
      cases shape with
      | uninterpreted => exact .const hn hlt
      | var | all | app | eq => cases hplain
      | or | xor | ite => exact absurd rfl hconn
      | truth | bvConst | bit | bvGe | bvSge | bvNeg | bvSum | bvProduct =>
        exact .atom hn rfl rfl rfl

/-- So is a formula that may be asserted. -/
theorem Assertable.shallow (hw : s.Wf) {rank : Nat → Nat}
    (hrank : ∀ {i shape ty}, s.terms.get? i = some (shape, ty) → ∀ c ∈ shape.children,
      rank c.index < rank i)
    (h : s.Assertable flatten t) :
    s.Shallow (fun x _ => x.index < s.terms.slots.size) (rank t.index + 1) t := by
  have part {t c : Term} {shape : Term.Shape} {ty : Ty} (hn : s.node? t = some (shape, ty))
    (hc : c ∈ shape.children)
      (h : s.Shallow (fun x _ => x.index < s.terms.slots.size) (rank c.index + 1) c) :
      s.Shallow (fun x _ => x.index < s.terms.slots.size) (rank t.index) c := by
    have hlt : rank c.index + 1 ≤ rank t.index := hrank hn c hc
    obtain ⟨k, hk⟩ := Nat.exists_eq_add_of_le hlt
    exact hk ▸ h.mono fun _ _ => id
  induction h with
  | body h => exact h.shallow hw hrank nofun
  | @all t body vars ty hn hvars hbody =>
    refine .node hn (.inr rfl) fun c hc => part hn hc ?_
    rcases List.mem_append.mp hc with hc | hc
    · obtain ⟨tc, n, htc, hsort⟩ := hvars c hc
      refine .other htc.node ?_
      rintro rfl
      cases hw.bool_ty.symm.trans hsort
    · exact List.mem_singleton.mp hc ▸ hbody.shallow hw hrank hvars
  | conj _ _ hn _ ih =>
    exact .node hn (.inl rfl) fun c hc => part hn hc (Term.index_neg c ▸ ih c hc).of_neg

/-- A connective over shallow terms is nested one deeper at most. -/
theorem Made.shallow {D : Term → Prop}
    (h : s.Made D (fun shape => shape.isConnective = true ∧ Over D shape) t) (hw : s.Wf)
    (hmono : ∀ x i, w x i → w x (i + 1)) (hD : ∀ u, D u → s.Shallow w d u) :
    s.Shallow w (d + 1) t := by
  induction h with
  | top => exact .top hw
  | given h => exact (hD _ h).mono hmono
  | node hn h => exact .node hn (.inl h.1) fun c hc => (h.2 c hc).elim (hD c) fun h =>
    (hD _ h).of_neg
  | neg _ ih => exact ih.neg

/-- What is a truth value or an atom is shallow. -/
theorem Made.shallow_atom (h : s.Made given allowed t) (hw : s.Wf) (hgiven : ∀ u, ¬ given u)
    (hallowed : ∀ shape, allowed shape →
      shape.isConnective = false ∧ shape.isQuantifier = false ∧ shape.isSymbol = false) :
      s.Shallow w d t := by
  induction h with
  | top => exact .top hw
  | given h => exact absurd h (hgiven _)
  | node hn h =>
    obtain ⟨hconn, hall, hsymbol⟩ := hallowed _ h
    exact .atom hn hconn hall hsymbol
  | neg _ ih => exact ih.neg

end Store
end Entail
