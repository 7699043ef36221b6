import Entail.Proofs.Model.Evaluation
import Entail.Proofs.Store.Types

/-!
# Values and types

In a model that gives values of their types to constants and to applications, every term has a value
of its type. The value of a term does not change when the store grows.
-/

namespace Entail

/-- `v` is a value of type `ty`. Functions have no values of their own, so there is nothing to
say of them. -/
def Value.Fits (s : Store) (v : Value) (ty : Ty) : Prop :=
  match s.tyShape? ty with
  | some .bool => ∃ b, v = .bool b
  | some (.bitVector w) => ∃ n, v = .bv w n ∧ n < Bits.modulus w
  | some (.uninterpreted _) => ∃ i, v = .abs ty i
  | _ => True

namespace Value

variable {s : Store} {v : Value} {ty : Ty}

theorem fits_bool (hs : s.Wf) : v.Fits s .bool ↔ ∃ b, v = .bool b := by
  unfold Fits
  rw [hs.bool_ty]

theorem fits_word {w : Nat} (hty : s.tyShape? ty = some (.bitVector w)) :
    v.Fits s ty ↔ ∃ n, v = .bv w n ∧ n < Bits.modulus w := by
  unfold Fits
  rw [hty]

theorem default_fits (s : Store) (ty : Ty) : (Value.default s ty).Fits s ty := by
  unfold Fits Value.default
  split
  next h => exact ⟨false, by rw [h]⟩
  next w h => exact ⟨0, by rw [h], Bits.modulus_pos w⟩
  next h => exact ⟨0, by rw [h]⟩
  next => trivial

theorem Fits.extends_ {s' : Store} {tyShape : Ty.Shape} (h : v.Fits s ty)
    (hty : s.tyShape? ty = some tyShape) (e : s.Extends s') : v.Fits s' ty := by
  unfold Fits at h ⊢
  rwa [e.ty hty, ← hty]

end Value

namespace Model

variable {m : Model} {s s' : Store} {val : Term → Value → Prop} {p t : Term} {shape : Term.Shape}
  {ty : Ty} {v : Value}

/-! ## Nodes -/

/-- The value of a term whose node has a value. -/
theorem Evaluates.of_node (hn : s.node? t = some (shape, ty)) (ht : t.isNegated = false)
    (h : NodeValue m s (m.Evaluates s) t shape v) : m.Evaluates s t v := by
  refine evaluates_iff.mpr ⟨shape, v, by rw [Store.shape?, hn]; rfl, ?_, by simp [withPolarity, ht]⟩
  rwa [Term.positive_of_not_isNegated ht]

/-- The value of a positive term is that of its node. -/
theorem Evaluates.node (h : m.Evaluates s t v) (hn : s.node? t = some (shape, ty))
    (ht : t.isNegated = false) :
    NodeValue m s (m.Evaluates s) t shape v := by
  obtain ⟨shape', v', hshape, hnode, hv⟩ := evaluates_iff.mp h
  rw [Store.shape?, hn] at hshape
  cases hshape
  simp only [withPolarity, ht, Bool.not_false, if_true, Except.ok.injEq] at hv
  subst hv
  rwa [Term.positive_of_not_isNegated ht] at hnode

/-- The negation of a term that has a truth value has the other one. -/
theorem Evaluates.neg {b : Bool} (h : m.Evaluates s t (.bool b)) :
    m.Evaluates s t.neg (.bool !b) := by
  obtain ⟨v, hpos, hv⟩ := evaluates_iff_positive.mp h
  refine evaluates_iff_positive.mpr ⟨v, by rwa [Term.positive_neg], ?_⟩
  unfold withPolarity at hv ⊢
  rw [Term.isNegated_neg]
  cases hneg : t.isNegated with
  | false =>
    rw [hneg] at hv
    cases hv
    rfl
  | true =>
    rw [hneg] at hv
    cases v with
    | bool x =>
      cases hv
      simp
    | bv w n => cases hv
    | abs ty i => cases hv

theorem evaluates_top (hs : s.Wf) : m.Evaluates s .top (.bool true) := .of_node hs.truth rfl .truth

/-! ## Growing stores -/

/-- The value of a node does not depend on what else is in the store. -/
theorem NodeValue.extends_ (h : NodeValue m s val p shape v) (hs : s.Wf) (e : s.Extends s')
    {n : Term.Shape × Ty} (hp : s.node? p = some n) : NodeValue m s' val p shape v := by
  obtain ⟨shape', ty⟩ := n
  obtain ⟨tyShape, hty⟩ := hs.live_ty hp
  have hsame : s'.ty p = s.ty p := by simp only [Store.ty, hp, e.node hp]
  have htyp : s.ty p = ty := by simp [Store.ty, hp]
  have hshape : s'.tyShape? (s.ty p) = s.tyShape? (s.ty p) := by rw [htyp, hty, e.ty hty]
  have hwidth : s'.width? p = s.width? p := by
    unfold Store.width? Store.tyWidth?; rw [hsame, hshape]
  cases h with
  | truth => exact .truth
  | bvConst => exact .bvConst
  | valued h => exact .valued h
  | defined h hd hv => exact .defined h hd hv
  | ite hc hv => exact .ite hc hv
  | eq ha hb => exact .eq ha hb
  | orTrue hbefore ha => exact .orTrue hbefore ha
  | orFalse hargs => exact .orFalse hargs
  | xor ha hb => exact .xor ha hb
  | app hargs =>
    have hdefault : Value.default s (s.ty p) = Value.default s' (s'.ty p) := by
      unfold Value.default
      rw [hsame, hshape]
    rw [hdefault]
    exact .app hargs
  | bit hx => exact .bit hx
  | bvGe ha hb => exact .bvGe ha hb
  | bvSge ha hb => exact .bvSge ha hb
  | bvNeg hx => exact .bvNeg hx
  | bvSum hw hargs => exact .bvSum (hwidth.trans hw) hargs
  | bvProduct hw hargs => exact .bvProduct (hwidth.trans hw) hargs

/-- The value of a term does not change when the store grows. -/
theorem Evaluates.extends_ (h : m.Evaluates s t v) (hs : s.Wf) (e : s.Extends s') :
    m.Evaluates s' t v := by
  obtain ⟨depth, h⟩ := h
  induction depth generalizing t v with
  | zero => exact h.elim
  | succ depth ih =>
    obtain ⟨shape, v₀, hshape, hnode, hv⟩ := h
    obtain ⟨n, hn, rfl⟩ := Option.map_eq_some_iff.mp hshape
    refine evaluates_iff.mpr ⟨n.1, v₀, by rw [Store.shape?, e.node hn]; rfl, ?_, hv⟩
    refine (hnode.extends_ hs e (n := n) ?_).imp fun _ _ => ih
    rwa [Store.node?, Term.index_positive]

/-! ## Types -/

/-- The values in the rows of functions are of the types of the results. -/
def RowsFit (m : Model) (s : Store) : Prop :=
  ∀ {f : Term} {tf range : Ty} {domain : List Ty} {table : FunctionTable} {vs : List Value}
    {v : Value},
    s.Has f tf → s.tyShape? tf = some (.function domain range) → m.functions[f]? = some table →
    table[vs]? = some v → v.Fits s range

/-- The values of constants and the values in the rows of functions are of their types. The value of
a constant that has a definition is that of the definition. -/
structure WellTyped (m : Model) (s : Store) : Prop where
  constants : ∀ {x : Term} {ty : Ty} {n : Nat} {v : Value},
    s.node? x = some (.uninterpreted ty n, ty) →
    x.isNegated = false → m.eval s x = .ok v → v.Fits s ty
  rows : m.RowsFit s

/-- The value of a node is of its type, if the values of its parts are. -/
theorem NodeValue.fits (hrows : m.RowsFit s) (hs : s.Wf) (hn : s.node? p = some (shape, ty))
    (hconst : ∀ n, shape = .uninterpreted ty n → v.Fits s ty)
    (hval : ∀ c u tc, val c u → s.Has c tc → u.Fits s tc)
    (h : NodeValue m s val p shape v) : v.Fits s ty := by
  have htyped := hs.typed hn
  have htyp : s.ty p = ty := by simp [Store.ty, hn]
  have hbool {b : Bool} (hty : ty = .bool) : (Value.bool b).Fits s ty :=
    hty ▸ (Value.fits_bool hs).mpr ⟨b, rfl⟩
  have hsame {ty' : Ty} {n : Nat} (hshape : shape = .uninterpreted ty' n) : v.Fits s ty := by
    subst hshape
    obtain ⟨rfl, -⟩ := htyped
    exact hconst n rfl
  have hword {w w' n : Nat} (hty : s.tyShape? ty = some (.bitVector w'))
    (hw : s.width? p = some w) :
      (Value.bv w (Bits.trunc w n)).Fits s ty := by
    rw [Store.width?, htyp, Store.tyWidth?_eq_some] at hw
    exact (Value.fits_word hw).mpr ⟨_, rfl, Bits.trunc_lt w n⟩
  cases h with
  | truth => exact hbool htyped
  | bvConst => exact (Value.fits_word htyped.1).mpr ⟨_, rfl, htyped.2⟩
  | valued => exact hsame rfl
  | defined => exact hsame rfl
  | @ite c a b x _ hc hv =>
    obtain ⟨-, ha, hb⟩ := htyped
    exact hval _ _ ty hv (by cases x <;> assumption)
  | eq => exact hbool htyped.1
  | orTrue => exact hbool htyped.1
  | orFalse => exact hbool htyped.1
  | xor => exact hbool htyped.1
  | @app f args vs hargs =>
    obtain ⟨tf, domain, hf, htf, -⟩ := htyped
    rw [htyp]
    cases hrow : (m.functions.getD f ∅)[vs]? with
    | none => exact Value.default_fits s ty
    | some v =>
      rw [Std.HashMap.getD_eq_getD_getElem?] at hrow
      cases htable : m.functions[f]? with
      | none => simp [htable] at hrow
      | some table =>
        rw [htable] at hrow
        exact hrows hf htf htable hrow
  | bit => exact hbool htyped.1
  | bvGe => exact hbool htyped.1
  | bvSge => exact hbool htyped.1
  | @bvNeg x w n hx =>
    obtain ⟨hxty, w', hw⟩ := htyped
    obtain ⟨n', heq, hlt⟩ := (Value.fits_word hw).mp (hval _ _ ty hx hxty)
    cases heq
    exact (Value.fits_word hw).mpr ⟨_, rfl, Bits.neg_lt w n⟩
  | bvSum hw =>
    obtain ⟨-, -, w', hty⟩ := htyped
    exact hword hty hw
  | bvProduct hw =>
    obtain ⟨-, -, w', hty⟩ := htyped
    exact hword hty hw

/-- The values of all terms are of their types, if those of constants are. -/
theorem fits_of_constants (hrows : m.RowsFit s) (hs : s.Wf)
    (hconst : ∀ {depth x n v ty}, (∀ {t v ty}, m.ValueAt s depth t v → s.Has t ty → v.Fits s ty) →
      s.node? x = some (.uninterpreted ty n, ty) → x.isNegated = false →
      NodeValue m s (m.ValueAt s depth) x (.uninterpreted ty n) v → v.Fits s ty)
    (h : m.Evaluates s t v) (ht : s.Has t ty) : v.Fits s ty := by
  obtain ⟨depth, h⟩ := h
  induction depth generalizing t v ty with
  | zero => exact h.elim
  | succ depth ih =>
    obtain ⟨shape, v₀, hshape, hnode, hv⟩ := h
    have hn : s.node? t.positive = some (shape, ty) := by
      rw [Store.shape?, ht.node] at hshape
      cases hshape
      rw [Store.node?, Term.index_positive]
      exact ht.node
    have hfits : v₀.Fits s ty := by
      refine hnode.fits hrows hs hn (fun n hshape => ?_) fun c u tc hc htc => ih htc hc
      subst hshape
      exact hconst (fun h ht => ih ht h) hn (Term.isNegated_positive t) hnode
    unfold withPolarity at hv
    cases hneg : t.isNegated with
    | false =>
      rw [hneg] at hv
      cases hv
      exact hfits
    | true =>
      obtain rfl := ht.2 hneg
      obtain ⟨b, rfl⟩ := (Value.fits_bool hs).mp hfits
      rw [hneg] at hv
      cases hv
      exact (Value.fits_bool hs).mpr ⟨!b, rfl⟩

/-- The value of a term is of its type. -/
theorem Evaluates.fits (hm : m.WellTyped s) (hs : s.Wf) (h : m.Evaluates s t v) (ht : s.Has t ty) :
    v.Fits s ty := by
  refine fits_of_constants hm.rows hs (fun {depth x n v ty} _ hn hx hnode => ?_) h ht
  have hvalid : s.isValid x = true := Store.isValid_iff.mpr ⟨ty, ⟨_, hn⟩, by simp [hx]⟩
  exact hm.constants hn hx (eval_eq_ok_iff.mpr
    ⟨hvalid, .of_node hn hx (hnode.imp fun _ _ hc => ⟨depth, hc⟩)⟩)

/-- The values in the tables of a model are of their types, and its definitions are of the types of
the constants that they define. -/
structure TablesFit (m : Model) (s : Store) : Prop where
  definitions : s.Assigns m.definitions
  rows : m.RowsFit s
  values : ∀ {x ty v}, m.values[x]? = some v → s.Has x ty → v.Fits s ty

namespace TablesFit

theorem empty (s : Store) : Model.empty.TablesFit s where
  definitions := s.assigns_empty
  rows _ _ hf := by simp [Model.empty] at hf
  values hx := by simp [Model.empty] at hx

theorem setValue (h : m.TablesFit s) (ht : s.Has t ty) (hv : v.Fits s ty) :
    (m.setValue t v).TablesFit s where
  definitions := h.definitions
  rows := h.rows
  values {x tx u} hx hty := by
    rw [Model.setValue, Std.HashMap.getElem?_insert] at hx
    split at hx
    next heq =>
      cases hx
      obtain rfl := eq_of_beq heq
      exact ht.unique hty ▸ hv
    next => exact h.values hx hty

/-- Such a model is well typed. -/
theorem wellTyped (h : m.TablesFit s) (hs : s.Wf) : m.WellTyped s where
  constants {x ty n v} hn hx hv := by
    have hty : s.Has x ty := ⟨⟨_, hn⟩, by simp [hx]⟩
    refine fits_of_constants h.rows hs (fun {depth x n v ty} ih hn hx hnode => ?_)
      (eval_eq_ok_iff.mp hv).2 hty
    have hty : s.Has x ty := ⟨⟨_, hn⟩, by simp [hx]⟩
    cases hnode with
    | valued hval => exact h.values hval hty
    | defined _ hd hv =>
      obtain ⟨ty', hx', hd'⟩ := h.definitions hd
      exact ih hv (hx'.unique hty ▸ hd')
  rows := h.rows

end TablesFit

end Model
end Entail
