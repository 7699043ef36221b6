import Entail.Proofs.Encoding.Exactness
import Entail.Proofs.Store.Capture

/-!
# Atoms of a structure

A structure gives every atom of an encoding a truth value, and the values that terms have for these
truth values are those that they have in the structure, when elements of sorts are read as the
values of the terms that they are. Outputs of gates are left out: an assignment of the variables may
give them any values, and a term in which they do not occur has its value all the same.
-/

namespace Entail

open Search Context

variable {M : Structure} {ρ ρ' : M.Env} {s s' : Store} {A B : Atoms} {free : Term → Prop}
  {t p c : Term} {ty : Ty}
  {shape : Term.Shape}

/-- The term is a constant or a variable. -/
def Store.IsSymbol (s : Store) (x : Term) : Prop :=
  ∃ shape ty, s.node? x = some (shape, ty) ∧ (shape.isUninterpreted || shape.isVariable) = true

theorem Store.IsSymbol.extends_ {x : Term} (h : s.IsSymbol x) (e : s.Extends s') : s'.IsSymbol x :=
  h.imp fun _ h => h.imp fun _ h => h.imp_left e.node

open Classical in
/-- The atoms with given values of terms. -/
noncomputable def Atoms.ofValues {elems : Ty → Type} (value : Term → Val elems) : Atoms where
  holds p := (value p).toBool
  bit t i := (value t).toNat.testBit i
  same t u := decide (value t = value u)
  same_self _ := decide_eq_true rfl
  same_comm _ _ := decide_eq_decide.mpr eq_comm

namespace Structure

/-- The atoms with the values that they have in the structure. -/
noncomputable def atoms (M : Structure) (s : Store) (ρ : M.Env) : Atoms := .ofValues (M.value s ρ)

/-- Elements of sorts are terms, which have values in the structure. -/
noncomputable def read (M : Structure) (s : Store) (ρ : M.Env) : Val Atoms.Element → Val M.elems
  | .bool b => .bool b
  | .word n => .word n
  | .elem _ t => M.value s ρ t

/-- Values of one type are equal for the atoms when they read alike. -/
theorem equal_eq (hsame : B.same = (M.atoms s ρ).same) {u v : Val Atoms.Element}
    (hu : u.Inhabits s ty)
    (hv : v.Inhabits s ty) : B.equal u v = true ↔ M.read s ρ u = M.read s ρ v := by
  have helem {x y : Term} : B.equal (.elem ty x) (.elem ty y) = true ↔
      M.read s ρ (.elem ty x) = M.read s ρ (.elem ty y) := by
    simp [Atoms.equal, read, hsame, atoms, Atoms.ofValues]
  unfold Val.Inhabits at hu hv
  cases hty : s.tyShape? ty with
  | none =>
    rw [hty] at hu hv
    obtain ⟨⟨x, rfl⟩, y, rfl⟩ := And.intro hu hv
    exact helem
  | some tyShape =>
    rw [hty] at hu hv
    cases tyShape with
    | bool =>
      obtain ⟨⟨x, rfl⟩, y, rfl⟩ := And.intro hu hv
      simp [Atoms.equal, read]
    | bitVector w =>
      obtain ⟨⟨m, rfl, -⟩, n, rfl, -⟩ := And.intro hu hv
      simp [Atoms.equal, read]
    | uninterpreted | function =>
      obtain ⟨⟨x, rfl⟩, y, rfl⟩ := And.intro hu hv
      exact helem

section

variable (hs : s.Wf)

include hs

/-- A formula that reads right has the truth value that it has in the structure. -/
theorem toBool_read (ht : s.Has t .bool) (h : M.read s ρ (B.value s t) = M.value s ρ t) :
    (M.value s ρ t).toBool = (B.value s t).toBool := by
  rw [← h, B.value_bool hs ht]
  rfl

/-- A word that reads right is the number that it is in the structure. -/
theorem toNat_read {w : Nat} (ht : s.HasWidth t w) (h : M.read s ρ (B.value s t) = M.value s ρ t) :
    (M.value s ρ t).toNat = (B.value s t).toNat := by
  rw [← h, (B.value_word hs ht).1]
  rfl

/-- What is put together from parts that read right reads right. -/
theorem read_combine (hn : s.Typed shape ty) (hshape : shape.isInterpreted = true)
    (heq : ∀ a b, shape ≠ .eq a b)
    (hparts : ∀ c ∈ shape.children, M.read s ρ (B.value s c) = M.value s ρ c) :
    M.read s ρ (shape.combine (s.partWidth shape) (shape.children.map (B.value s))) =
      shape.combine (s.partWidth shape) (shape.children.map (M.value s ρ)) := by
  have htruth {c : Term} (hc : c ∈ shape.children) (hbool : s.Has c .bool) :
      (M.value s ρ c).toBool = (B.value s c).toBool := toBool_read hs hbool (hparts c hc)
  have hnumber {c : Term} {w : Nat} (hc : c ∈ shape.children) (hwidth : s.HasWidth c w) :
      (M.value s ρ c).toNat = (B.value s c).toNat := toNat_read hs hwidth (hparts c hc)
  cases shape with
  | truth | bvConst => rfl
  | eq a b => exact absurd rfl (heq a b)
  | ite c a b =>
    obtain ⟨hc, -, -⟩ := hn
    have hc := htruth (by simp [Term.Shape.children]) hc
    have ha := hparts a (by simp [Term.Shape.children])
    have hb := hparts b (by simp [Term.Shape.children])
    simp only [Term.Shape.combine, Term.Shape.children, List.map_cons, List.map_nil, hc]
    split
    · exact ha
    · exact hb
  | or args =>
    obtain ⟨-, hargs⟩ := hn
    simp only [Term.Shape.combine, Term.Shape.children, List.mem_map, exists_exists_and_eq_and]
    refine congrArg Val.bool (decide_eq_decide.mpr (exists_congr fun a => and_congr_right
      fun ha => ?_))
    rw [htruth ha (hargs a ha)]
  | xor a b =>
    obtain ⟨-, ha, hb⟩ := hn
    have ha := htruth (by simp [Term.Shape.children]) ha
    have hb := htruth (by simp [Term.Shape.children]) hb
    simp only [Term.Shape.combine, Term.Shape.children, List.map_cons, List.map_nil, ha, hb]
    rfl
  | bit x i =>
    obtain ⟨-, w, hx, -⟩ := hn
    have hx := hnumber (by simp [Term.Shape.children]) hx
    simp only [Term.Shape.combine, Term.Shape.children, List.map_cons, List.map_nil, hx]
    rfl
  | bvGe a b | bvSge a b =>
    obtain ⟨-, w, ha, hb⟩ := hn
    have ha := hnumber (by simp [Term.Shape.children]) ha
    have hb := hnumber (by simp [Term.Shape.children]) hb
    simp only [Term.Shape.combine, Term.Shape.children, List.map_cons, List.map_nil, ha, hb]
    rfl
  | bvNeg x =>
    obtain ⟨hx, w, hty⟩ := hn
    have hx := hnumber (by simp [Term.Shape.children]) ⟨_, hx, hty⟩
    simp only [Term.Shape.combine, Term.Shape.children, List.map_cons, List.map_nil, hx]
    rfl
  | bvSum args | bvProduct args =>
    obtain ⟨-, hargs, w, hty⟩ := hn
    have hmap : args.map (Val.toNat ∘ M.value s ρ) = args.map (Val.toNat ∘ B.value s) :=
      List.map_congr_left fun a ha => hnumber ha ⟨_, hargs a ha, hty⟩
    simp only [Term.Shape.combine, Term.Shape.children, List.map_map, hmap]
    rfl
  | uninterpreted | var | app | all => cases hshape

variable (hM : M.Fits s) (hρ : M.EnvFits s ρ)

include hM hρ

/-- What is no more than a symbol to the encoding has the value of its atoms. -/
theorem read_leaf (hB : (M.atoms s ρ).Except free B) (hp : s.Has p ty) (hfree : ¬free p) :
    M.read s ρ (B.leaf s p) = M.value s ρ p := by
  have hvalue := value_inhabits hs hM hρ hp
  unfold Val.Inhabits at hvalue
  unfold Atoms.leaf
  rw [hp.ty_eq]
  cases hty : s.tyShape? ty with
  | none => rfl
  | some tyShape =>
    rw [hty] at hvalue
    cases tyShape with
    | bool =>
      obtain ⟨b, hb⟩ := hvalue
      simp [read, hB.holds hfree, atoms, Atoms.ofValues, hb, Val.toBool]
    | bitVector w =>
      obtain ⟨n, hn, hlt⟩ := hvalue
      have hbits : (List.range w).map (B.bit p) = (List.range w).map n.testBit :=
        List.map_congr_left fun i _ => by simp [hB.bit, atoms, Atoms.ofValues, hn, Val.toNat]
      rw [Store.modulus_eq (hs.ty_ok hty).2] at hlt
      show Val.word (Bits.ofBits ((List.range w).map (B.bit p))) = _
      rw [hbits, Bits.ofBits_testBits hlt, hn]
    | uninterpreted | function => rfl

/-- A term in which nothing is free has the value that it has in the structure. -/
theorem read_value (hB : (M.atoms s ρ).Except free B) (ht : s.Has t ty) (hfree : s.Avoids free t) :
    M.read s ρ (B.value s t) = M.value s ρ t := by
  refine hs.induct (P := fun t => s.Avoids free t → M.read s ρ (B.value s t) = M.value s ρ t)
    (fun {t shape ty} ht hn ih hfree => ?_) ht hfree
  replace ih : ∀ c ∈ shape.children, M.read s ρ (B.value s c) = M.value s ρ c := fun c hc =>
    ih c hc (hfree.child hn hc)
  have htyped := hs.typed hn
  have hpos : s.node? t.positive = some (shape, ty) := by rwa [Store.node?, Term.index_positive]
  have hp : s.Has t.positive ty := ht.positive
  -- positive terms first
  have hvalue : M.read s ρ (B.value s t.positive) = M.value s ρ t.positive := by
    rw [B.value_of_node hs hpos (Term.isNegated_positive t)]
    have hinterpreted (hshape : shape.isInterpreted = true) :
        M.value s ρ t.positive = shape.combine (s.partWidth shape)
          (shape.children.map (M.value s ρ)) :=
      (value_of_node hs hpos (Term.isNegated_positive t) ρ).trans (node_eq_combine hshape _ ρ _)
    have hleaf := read_leaf hs hM hρ hB hp hfree.not_mem
    cases shape with
    | uninterpreted | var | app | all => exact hleaf
    | eq a b =>
      obtain ⟨-, ty', -, ha, hb⟩ := htyped
      have hsides := equal_eq hB.same (B.value_inhabits hs ha) (B.value_inhabits hs hb)
      rw [ih a (by simp [Term.Shape.children]), ih b (by simp [Term.Shape.children])] at hsides
      rw [hinterpreted rfl]
      simp only [Atoms.node, read, Term.Shape.combine, Term.Shape.children, List.map_cons,
        List.map_nil, Val.ofProp,
        Val.bool.injEq]
      rw [Bool.eq_iff_iff, hsides, @decide_eq_true_iff _ (Classical.propDecidable _)]
    | _ =>
      rw [hinterpreted rfl]
      exact read_combine hs htyped rfl (fun _ _ h => by cases h) ih
  cases hneg : t.isNegated with
  | false => rwa [Term.positive_of_not_isNegated hneg] at hvalue
  | true =>
    obtain rfl := ht.2 hneg
    rw [← Term.neg_positive hneg, value_neg hs hp, B.value_neg hs hp, ← hvalue, B.value_bool hs hp]
    rfl

theorem toBool_value (hB : (M.atoms s ρ).Except free B) (ht : s.Has t .bool)
    (hfree : s.Avoids free t) :
    (B.value s t).toBool = (M.value s ρ t).toBool :=
  (toBool_read hs ht (read_value hs hM hρ hB ht hfree)).symm

end

/-! ## Other values of constants -/

/-- A formula is true. -/
def Holds (M : Structure) (s : Store) (ρ : M.Env) (t : Term) : Prop := M.value s ρ t = .bool true

theorem holds_iff (hs : s.Wf) (hM : M.Fits s) (hρ : M.EnvFits s ρ) (ht : s.Has t .bool) :
    M.Holds s ρ t ↔ (M.value s ρ t).toBool = true := by
  obtain ⟨b, hb⟩ := (Val.inhabits_bool hs).mp (value_inhabits hs hM hρ ht)
  unfold Holds
  rw [hb, Val.bool.injEq]
  rfl

/-- Constants and variables of a store that are not in `own` have the same values. -/
def SameBut (own : Term → Prop) (s : Store) (ρ ρ' : M.Env) : Prop :=
  ∀ x, s.IsSymbol x → ¬own x → ρ x = ρ' x

/-- Values of constants and variables that differ in `own` only have no influence on a term in which
nothing of it occurs. -/
theorem value_of_avoids {own : Term → Prop} (hs : s.Wf) (ht : s.Has t ty) (hown : s.Avoids own t)
    (hρ : SameBut own s ρ ρ') : M.value s ρ t = M.value s ρ' t := by
  refine hs.induct (P := fun t => ∀ ρ ρ' : M.Env, s.Avoids own t → SameBut own s ρ ρ' →
    M.value s ρ t = M.value s ρ' t)
    (fun {t shape ty} ht hn ih ρ ρ' hown hρ => ?_) ht ρ ρ' hown hρ
  rw [value_eq hs hn, value_eq hs hn]
  refine congrArg _ ?_
  have hparts : ∀ c ∈ shape.children, M.value s ρ c = M.value s ρ' c :=
    fun c hc => ih c hc ρ ρ' (hown.child hn hc) hρ
  by_cases hshape : shape.isInterpreted = true
  · rw [node_eq_combine hshape, node_eq_combine hshape, List.map_congr_left hparts]
  cases shape with
  | uninterpreted | var =>
    exact hρ _ ⟨_, ty, by rwa [Store.node?, Term.index_positive], rfl⟩ hown.not_mem
  | app f args =>
    simp only [node, hparts f List.mem_cons_self, List.map_congr_left fun c hc =>
      hparts c (List.mem_cons_of_mem _ hc)]
  | all vars body =>
    have hbody :=
      hown.child hn (by simp [Term.Shape.children] : body ∈ (Term.Shape.all vars body).children)
    refine congrArg Val.ofProp (propext (forall₂_congr fun xs _ => ?_))
    rw [ih body (by simp [Term.Shape.children]) (rebind ρ vars xs) (rebind ρ' vars xs) hbody
      fun x hx hout => ?_]
    unfold rebind
    split
    · rfl
    · exact hρ x hx hout
  | _ => exact absurd rfl hshape

theorem SameBut.trans {own : Term → Prop} {ρ'' : M.Env} (h : SameBut own s ρ ρ')
    (h' : SameBut own s ρ' ρ'') :
    SameBut own s ρ ρ'' := fun x hx hout => (h x hx hout).trans (h' x hx hout)

/-- What there was before the store grew. -/
theorem SameBut.of_extends (h : SameBut (fun _ => False) s' ρ ρ') (e : s.Extends s') :
    SameBut (fun _ => False) s ρ ρ' :=
  fun x hx => h x (hx.extends_ e)

/-- Values for the terms of a store are completed to values for those of one that it has grown
to. -/
theorem EnvFits.complete (hρ : M.EnvFits s ρ) (hρ' : M.EnvFits s' ρ') (hs : s.Wf)
    (e : s.Extends s') :
    ∃ ρ'' : M.Env, M.EnvFits s' ρ'' ∧ SameBut (fun _ => False) s ρ ρ'' ∧ ∀ x, s.node? x = none →
    ρ'' x = ρ' x := by
  classical
  refine ⟨fun x => if s.node? x = none then ρ' x else ρ x, fun {x shape ty} hn hx hatom => ?_,
    fun x hx _ => ?_, fun x hx => ?_⟩
  · simp only
    split
    · exact hρ' hn hx hatom
    next hlive =>
      obtain ⟨n, hold⟩ := Option.ne_none_iff_exists'.mp hlive
      obtain rfl : n = (shape, ty) := Option.some.inj ((e.node hold).symm.trans hn)
      obtain ⟨tyShape, hty⟩ := hs.live_ty hold
      exact (Val.inhabits_iff e hty).mpr (hρ hold hx hatom)
  · obtain ⟨shape, ty, hn, -⟩ := hx
    simp [hn]
  · simp [hx]

/-- Values in a store that has grown, where what is new may have any value. -/
theorem value_later (hs : s.Wf) (hlater : Store.Later s s') (ht : s.Has t ty)
    (hρ : SameBut (fun _ => False) s ρ ρ') :
    M.value s' ρ' t = M.value s ρ t := by
  rw [value_of_extends hs hlater.wf hlater.ext ht]
  refine (value_of_avoids hs ht ?_ hρ).symm
  refine hs.induct (P := fun t => s.Avoids (fun _ => False) t) (fun {t shape ty} _ hn ih => ?_) ht
  exact .of_node hn id ih

end Structure

/-! ## Assignments that follow a structure -/

namespace Context.View

variable {V : View} {a : Nat → Bool} {one : Literal} {defs : List (List Literal)}

/-- Atoms that are no outputs of gates have the values of their variables. -/
def Follows (s : Store) (V : View) (a : Nat → Bool) (A : Atoms) : Prop :=
  ∀ x p b, V.vars x = some p → ¬V.aux p → A.atom? s p = some b → a x = b

/-- Outputs of gates are constants with one variable each. -/
structure Outputs (s : Store) (V : View) : Prop where
  const : ∀ {p}, V.aux p → ∃ n, s.node? p = some (.uninterpreted .bool n, .bool)
  unique : ∀ {x y p}, V.vars x = some p → V.vars y = some p → x = y

open Classical in
/-- The atoms with the values of their variables for the outputs of gates. -/
noncomputable def mend (V : View) (a : Nat → Bool) (A : Atoms) : Atoms :=
  { A with holds := fun p => if V.aux p then decide (∃ x, V.vars x = some p ∧ a x = true)
    else A.holds p }

theorem except_mend (V : View) (a : Nat → Bool) (A : Atoms) : A.Except V.aux (V.mend a A) :=
  ⟨fun hp => if_neg hp, rfl, rfl⟩

theorem Follows.agrees (h : V.Follows s a A) (hV : V.Outputs s) : V.Agrees s a (V.mend a A) := by
  intro x p b hx hb
  by_cases haux : V.aux p
  · obtain ⟨n, hn⟩ := hV.const haux
    have hholds : (V.mend a A).holds p = a x := by
      refine (if_pos haux).trans ?_
      rw [Bool.eq_iff_iff, @decide_eq_true_iff _ (Classical.propDecidable _)]
      exact ⟨fun ⟨y, hy, ha⟩ => hV.unique hy hx ▸ ha, fun ha => ⟨x, hx, ha⟩⟩
    simp only [Atoms.atom?, Interp.node?_of_shape hn, Option.some.injEq] at hb
    rw [← hb, hholds]
  · rw [(V.except_mend a A).atom?_eq haux] at hb
    exact h x p b hx haux hb

/-- Whatever the values of atoms, the definitions have an assignment that follows them. -/
theorem Exact.follows (h : V.Exact s one defs) (hs : s.Wf) (A : Atoms) :
    ∃ a, Meets a defs ∧ V.Follows s a A := by
  obtain ⟨a, B, hB, ha, hc⟩ := h.free A
  refine ⟨a, ha, fun x p b hx hp hb => hc.agrees hs h x p b hx ?_⟩
  rwa [hB.atom?_eq hp]

/-- What is known of a formula without outputs of gates is true of the structure. -/
theorem Follows.eval (h : V.Follows s a (M.atoms s ρ)) (hV : V.Outputs s) {l : Literal}
    (hl : ∀ {A}, V.Agrees s a A → l.eval a = (A.value s t).toBool) (hs : s.Wf) (hM : M.Fits s)
    (hρ : M.EnvFits s ρ)
    (ht : s.Has t .bool) (hfree : s.Avoids V.aux t) : l.eval a = (M.value s ρ t).toBool := by
  rw [hl (h.agrees hV)]
  exact Structure.toBool_value hs hM hρ (V.except_mend a _) ht hfree

/-- An assignment that follows some atoms follows others that give the variables that there were the
same values. -/
theorem Follows.congr {V' : View} (h : V'.Follows s' a B)
    (hatoms : ∀ {x p}, V.vars x = some p → A.atom? s p = B.atom? s' p)
    (hvars : ∀ {x p}, V.vars x = some p → V'.vars x = some p)
    (haux : ∀ {x p}, V.vars x = some p → V'.aux p → V.aux p) : V.Follows s a A := by
  intro x p b hx hp hb
  exact h x p b (hvars hx) (fun h => hp (haux hx h)) (hatoms hx ▸ hb)

end Context.View

/-- The values of atoms are those of their terms and of their parts. -/
theorem Atoms.atom?_ofValues {elems : Ty → Type} {value value' : Term → Val elems}
    (hp : s.Has p ty) (hs : s.Wf)
    (hstays : s.Stays s' p) (hvalue : ∀ u ∈ p :: (s.shape p).children, value' u = value u) :
    (ofValues value').atom? s' p = (ofValues value).atom? s p := by
  rw [atom?_of_stays hs hstays hp]
  unfold atom?
  cases hshape : s.shape p with
  | uninterpreted | app =>
    simp only [ofValues, Option.some.injEq]
    rw [hvalue p List.mem_cons_self]
  | bit x i =>
    have hx := hvalue x (by simp [hshape, Term.Shape.children])
    simp only [ofValues, hx]
  | eq a b =>
    have ha := hvalue a (by simp [hshape, Term.Shape.children])
    have hb := hvalue b (by simp [hshape, Term.Shape.children])
    exact if_congr Iff.rfl (congrArg some (decide_eq_decide.mpr (by rw [ha, hb]))) rfl
  | _ => rfl

end Entail
