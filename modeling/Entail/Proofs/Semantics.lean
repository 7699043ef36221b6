import Entail.Proofs.Store.Wf

/-!
# Meaning of terms

An interpretation gives every uninterpreted sort a non-empty set of elements, every constant a
value and every function symbol a function. A term then has a value, once its variables have one.
The value is computed from the values of the parts, level by level of the nesting; in a
well-formed store the number of slots bounds the nesting, and a store that grows does not change
the value of a term.
-/

namespace Entail

/-- Values over the elements of the sorts. -/
inductive Val (elems : Ty → Type) where
  | bool (b : Bool)
  | word (n : Nat)
  | elem (ty : Ty) (x : elems ty)

namespace Val

variable {elems : Ty → Type}

/-- The negation of a truth value; other values stay. -/
def not : Val elems → Val elems
  | .bool b => .bool !b
  | v => v

/-- Negates exactly when `flip` holds. -/
def negIf (flip : Bool) (v : Val elems) : Val elems := if flip then v.not else v

open Classical in
/-- The truth value of a proposition. -/
noncomputable def ofProp (p : Prop) : Val elems := .bool (decide p)

@[simp] theorem not_not (v : Val elems) : v.not.not = v := by cases v <;> simp [not]

/-- The truth value; values of other types count as false. -/
def toBool : Val elems → Bool
  | .bool b => b
  | _ => false

/-- The number of a word; values of other types count as zero. -/
def toNat : Val elems → Nat
  | .word n => n
  | _ => 0

/-- `v` is a value of type `ty`. Terms of function types have no values of their own, so there is
nothing to say of them. -/
def Is (s : Store) (v : Val elems) (ty : Ty) : Prop :=
  match s.tyShape? ty with
  | some .bool => ∃ b, v = .bool b
  | some (.bitVector w) => ∃ n, v = .word n ∧ n < Bits.modulus w
  | some (.uninterpreted _) => ∃ x, v = .elem ty x
  | _ => True

end Val

namespace Store

/-- `step` computes something for a term from what is given for its parts. -/
def FromParts {ι α : Type} (s : Store) (step : (ι → Term → α) → ι → Term → α) : Prop :=
  ∀ {t : Term} {shape : Term.Shape} {ty : Ty} {f g : ι → Term → α}, s.node? t = some (shape, ty) →
    (∀ c ∈ shape.children, ∀ x, f x c = g x c) → ∀ x, step f x t = step g x t

namespace FromParts

variable {ι α : Type} {s : Store} {step : (ι → Term → α) → ι → Term → α} {level : Nat →
  ι → Term → α}

/-- Levels beyond the rank of a term are all the same. -/
theorem levels_eq (hstep : s.FromParts step) (h : s.Wf)
    (hlevel : ∀ d x t, level (d + 1) x t = step (level d) x t)
    {rank : Nat → Nat} (hrank : ∀ {i shape ty}, s.terms.get? i = some (shape, ty) →
      ∀ c ∈ shape.children, rank c.index < rank i) {d d' : Nat} {t : Term}
    {ty : Ty} (ht : s.Has t ty)
    (hd : rank t.index < d) (hd' : rank t.index < d') (x : ι) : level d x t = level d' x t := by
  induction d generalizing d' t ty x with
  | zero => omega
  | succ d ih =>
    obtain ⟨⟨shape, hn⟩, -⟩ := ht
    obtain ⟨d', rfl⟩ : ∃ k, d' = k + 1 := ⟨d' - 1, by omega⟩
    rw [hlevel, hlevel]
    refine hstep hn (fun c hc x => ?_) x
    have hlt := hrank hn c hc
    obtain ⟨tc, htc⟩ := (h.typed hn).live hc
    exact ih htc (by omega) (by omega) x

/-- What is computed level by level, with more levels than slots, is computed from the parts. -/
theorem level_eq (hstep : s.FromParts step) (h : s.Wf) (level : Nat → ι → Term → α)
    (hlevel : ∀ d x t, level (d + 1) x t = step (level d) x t) {t : Term} {n : Term.Shape × Ty}
    (hn : s.node? t = some n) (x : ι) :
    level (s.terms.slots.size + 1) x t = step (level (s.terms.slots.size + 1)) x t := by
  obtain ⟨shape, ty⟩ := n
  obtain ⟨rank, hrank, hlt⟩ := h.bounded
  rw [hlevel]
  refine hstep hn (fun c hc x => ?_) x
  obtain ⟨tc, htc⟩ := (h.typed hn).live hc
  have hi := hlt hn
  have hci := hrank hn c hc
  exact hstep.levels_eq h hlevel hrank htc (by omega) (by omega) x

end FromParts
end Store

/-- Elements of sorts, values of constants and functions; constants are told apart by type and
serial number. -/
structure Interp where
  elems : Ty → Type
  nonempty : ∀ ty, Nonempty (elems ty)
  const : Ty → Nat → Val elems
  func : Ty → Nat → List (Val elems) → Val elems

namespace Interp

/-- Values of variables. -/
abbrev Env (I : Interp) := Term → Val I.elems

/-- The interpretation respects the types of a store. -/
structure Fits (I : Interp) (s : Store) : Prop where
  const : ∀ ty n, (I.const ty n).Is s ty
  func : ∀ {ty n domain range args}, s.tyShape? ty = some (.function domain range) →
    List.Forall₂ (fun v d => Val.Is s v d) args domain → (I.func ty n args).Is s range

/-- The values of variables respect the types of a store. -/
def EnvFits (I : Interp) (s : Store) (ρ : I.Env) : Prop :=
  ∀ v ty n, s.node? v = some (.var ty n, ty) → (ρ v).Is s ty

/-- Some value of a type. -/
noncomputable def default (I : Interp) (s : Store) (ty : Ty) : Val I.elems :=
  match s.tyShape? ty with
  | some .bool => .bool false
  | some (.bitVector _) => .word 0
  | _ => .elem ty (Classical.choice (I.nonempty ty))

/-- `ρ` with the values `xs` for the variables `vars`. -/
def rebind {I : Interp} (ρ : I.Env) (vars : List Term) (xs : I.Env) : I.Env :=
  fun v => if v ∈ vars then xs v else ρ v

/-- Width of a term, zero if it is no bitvector. -/
def width (s : Store) (t : Term) : Nat := (s.width? t).getD 0

/-- Value of the positive term `p` with a given shape, where `value` gives the values of its parts.
The head of an application has to be a constant; under another head the value is left open. -/
noncomputable def node (I : Interp) (s : Store) (value : I.Env → Term → Val I.elems) (ρ : I.Env)
    (p : Term) :
    Term.Shape → Val I.elems
  | .truth => .bool true
  | .bvConst _ n => .word n
  | .uninterpreted ty n => I.const ty n
  | .var .. => ρ p
  | .ite c a b => if (value ρ c).toBool then value ρ a else value ρ b
  | .eq a b => .ofProp (value ρ a = value ρ b)
  | .or args => .ofProp (∃ a ∈ args, (value ρ a).toBool = true)
  | .xor a b => .bool ((value ρ a).toBool != (value ρ b).toBool)
  | .app f args =>
    match s.shape f with
    | .uninterpreted ty n => I.func ty n (args.map (value ρ))
    | _ => I.default s (s.ty p)
  | .all vars body =>
    .ofProp (∀ xs : I.Env, (∀ v ∈ vars, (xs v).Is s (s.ty v)) →
      (value (rebind ρ vars xs) body).toBool = true)
  | .bit x i => .bool ((value ρ x).toNat.testBit i)
  | .bvGe a b => .ofProp ((value ρ b).toNat ≤ (value ρ a).toNat)
  | .bvSge a b =>
    .ofProp (Bits.signed (width s b) (value ρ b).toNat ≤ Bits.signed (width s a) (value ρ a).toNat)
  | .bvNeg x => .word (Bits.neg (width s x) (value ρ x).toNat)
  | .bvSum args =>
    .word (Bits.trunc (width s p) ((args.map fun a => (value ρ a).toNat).foldr (· + ·) 0))
  | .bvProduct args =>
    .word (Bits.trunc (width s p) ((args.map fun a => (value ρ a).toNat).foldr (· * ·) 1))

/-- Value of a term that is nested less than `depth` deep. -/
noncomputable def valueAt (I : Interp) (s : Store) : (depth : Nat) → I.Env → Term → Val I.elems
  | 0, _, _ => .bool false
  | depth + 1, ρ, t => (I.node s (I.valueAt s depth) ρ t.positive (s.shape t)).negIf t.isNegated

/-- Value of a term. -/
noncomputable def value (I : Interp) (s : Store) (ρ : I.Env) (t : Term) : Val I.elems :=
  I.valueAt s (s.terms.slots.size + 1) ρ t

/-- A boolean term is true. -/
def Holds (I : Interp) (s : Store) (ρ : I.Env) (t : Term) : Prop := I.value s ρ t = .bool true

/-! ## The value of a term from the values of its parts -/

section Value

variable {I : Interp} {s s' : Store}

theorem node_congr {f g : I.Env → Term → Val I.elems} {shape : Term.Shape} (p : Term)
    (h : ∀ c ∈ shape.children, ∀ ρ, f ρ c = g ρ c) (ρ : I.Env) :
    I.node s f ρ p shape = I.node s g ρ p shape := by
  have hmap : ∀ args : List Term, (∀ c ∈ args, ∀ ρ, f ρ c = g ρ c) →
      args.map (f ρ) = args.map (g ρ) :=
    fun args hargs => List.map_congr_left fun c hc => hargs c hc ρ
  cases shape with
  | truth | bvConst | uninterpreted | var => rfl
  | ite c a b =>
    simp only [node, h c (by simp [Term.Shape.children]), h a (by simp [Term.Shape.children]),
      h b (by simp [Term.Shape.children])]
  | eq a b | xor a b | bvGe a b | bvSge a b =>
    simp only [node, h a (by simp [Term.Shape.children]), h b (by simp [Term.Shape.children])]
  | bit x i | bvNeg x => simp only [node, h x (by simp [Term.Shape.children])]
  | or args =>
    have hargs : (∃ a ∈ args, (f ρ a).toBool = true) ↔ ∃ a ∈ args, (g ρ a).toBool = true := by
      constructor
      · rintro ⟨a, ha, hv⟩
        exact ⟨a, ha, h a ha ρ ▸ hv⟩
      · rintro ⟨a, ha, hv⟩
        exact ⟨a, ha, (h a ha ρ).symm ▸ hv⟩
    simp only [node, hargs]
  | app f' args =>
    have hargs := hmap args fun c hc => h c (List.mem_cons_of_mem _ hc)
    simp only [node, hargs]
  | all vars body =>
    have hbody : ∀ ρ, f ρ body = g ρ body := h body (by simp [Term.Shape.children])
    simp only [node, hbody]
  | bvSum args | bvProduct args =>
    have hargs : (args.map fun a => (f ρ a).toNat) = args.map fun a => (g ρ a).toNat :=
      List.map_congr_left fun c hc => by rw [h c hc]
    simp only [node, hargs]

theorem node?_of_shape {t : Term} {n : Term.Shape × Ty} (h : s.node? t = some n) :
    s.shape t = n.1 := by
  simp [Store.shape, Store.shape?, h]

/-- The value of a term from the values of its parts. -/
theorem value_eq (h : s.Wf) {t : Term} {shape : Term.Shape} {ty : Ty}
    (hn : s.node? t = some (shape, ty)) (ρ : I.Env) :
    I.value s ρ t = (I.node s (I.value s) ρ t.positive shape).negIf t.isNegated := by
  have hparts : s.FromParts fun f (ρ : I.Env) t =>
      (I.node s f ρ t.positive (s.shape t)).negIf t.isNegated := by
    intro t shape ty f g hn hfg ρ
    simp only [node?_of_shape hn]
    exact congrArg _ (node_congr _ hfg ρ)
  have hvalue := hparts.level_eq h (I.valueAt s) (fun _ _ _ => rfl) hn ρ
  rwa [node?_of_shape hn] at hvalue

/-! ## Growing stores -/

theorem is_iff (e : s.Extends s') {ty : Ty} {shape : Ty.Shape} (hty : s.tyShape? ty = some shape)
    {elems : Ty → Type} {v : Val elems} : v.Is s' ty ↔ v.Is s ty := by
  unfold Val.Is
  rw [hty, e.ty hty]

/-- What respects the types of a store respected them before the store grew. -/
theorem Fits.of_extends (hI : I.Fits s') (h : s.Wf) (e : s.Extends s') : I.Fits s where
  const ty n := by
    cases hty : s.tyShape? ty with
    | none => simp [Val.Is, hty]
    | some shape => exact (is_iff e hty).mp (hI.const ty n)
  func := by
    intro ty n domain range args hty hargs
    obtain ⟨-, hlive⟩ := h.ty_ok hty
    obtain ⟨shape, hrange⟩ := hlive range (by simp)
    refine (is_iff e hrange).mp (hI.func (e.ty hty) ?_)
    have hdom : ∀ d ∈ domain, ∃ shape, s.tyShape? d = some shape :=
      fun d hd => hlive d (List.mem_append_left _ hd)
    clear hty hlive
    induction hargs with
    | nil => exact .nil
    | cons hv _ ih =>
      obtain ⟨shape, hd⟩ := hdom _ List.mem_cons_self
      exact .cons ((is_iff e hd).mpr hv) (ih fun d hd => hdom d (List.mem_cons_of_mem _ hd))

theorem EnvFits.of_extends {ρ : I.Env} (hρ : I.EnvFits s' ρ) (h : s.Wf) (e : s.Extends s') :
    I.EnvFits s ρ := by
  intro v ty n hn
  obtain ⟨shape, hty⟩ := h.live_ty hn
  exact (is_iff e hty).mp (hρ v ty n (e.node hn))

theorem shape_of_has (e : s.Extends s') {t : Term} {ty : Ty} (ht : s.Has t ty) :
    s'.shape t = s.shape t := by
  obtain ⟨⟨shape, hn⟩, -⟩ := ht
  rw [node?_of_shape hn, node?_of_shape (e.node hn)]

theorem ty_of_has (e : s.Extends s') {t : Term} {ty : Ty} (ht : s.Has t ty) : s'.ty t = s.ty t := by
  rw [ht.ty_eq, (e.has ht).ty_eq]

theorem width_of_has (h : s.Wf) (e : s.Extends s') {t : Term} {ty : Ty} (ht : s.Has t ty) :
    width s' t = width s t := by
  obtain ⟨shape, hty⟩ := h.ty_live ht
  unfold width Store.width? Store.tyWidth?
  rw [ht.ty_eq, (e.has ht).ty_eq, hty, e.ty hty]

/-- The value of a node does not depend on what else is in the store. -/
theorem node_of_extends (h : s.Wf) (e : s.Extends s') (f : I.Env → Term → Val I.elems)
    (ρ : I.Env) {p : Term}
    {shape : Term.Shape} {ty : Ty} (hp : s.Has p ty) (ht : s.Typed shape ty) :
    I.node s' f ρ p shape = I.node s f ρ p shape := by
  have hwidth : width s' p = width s p := width_of_has h e hp
  cases shape with
  | truth | bvConst | uninterpreted | var | ite | eq | xor | bit | or | bvGe => rfl
  | bvSum args | bvProduct args => simp only [node, hwidth]
  | bvSge a b =>
    obtain ⟨-, w, ⟨ta, ha, -⟩, ⟨tb, hb, -⟩⟩ := ht
    simp only [node, width_of_has h e ha, width_of_has h e hb]
  | bvNeg x => simp only [node, width_of_has h e ht.1]
  | app f' args =>
    obtain ⟨tf, domain, hf, -, -⟩ := ht
    obtain ⟨tyShape, hty⟩ := h.ty_live hp
    have hdef : I.default s' (s'.ty p) = I.default s (s.ty p) := by
      unfold default
      rw [ty_of_has e hp, hp.ty_eq, hty, e.ty hty]
    simp only [node, shape_of_has e hf, hdef]
  | all vars body =>
    have hvars : ∀ xs : I.Env, (∀ v ∈ vars, (xs v).Is s' (s'.ty v)) ↔ ∀ v ∈ vars,
        (xs v).Is s (s.ty v) := by
      intro xs
      refine forall₂_congr fun v hv => ?_
      obtain ⟨tv, htv⟩ := (ht.2.2.1 v hv).has
      obtain ⟨tyShape, hty⟩ := h.ty_live htv
      rw [ty_of_has e htv, htv.ty_eq]
      exact is_iff e hty
    simp only [node, hvars]

/-- The value of a term does not change when the store grows. -/
theorem value_of_extends (h : s.Wf) (h' : s'.Wf) (e : s.Extends s') {t : Term} {ty : Ty}
    (ht : s.Has t ty) (ρ : I.Env) :
    I.value s' ρ t = I.value s ρ t := by
  refine h.induct (P := fun t => ∀ ρ, I.value s' ρ t = I.value s ρ t)
    (fun {t shape ty} ht hn ih ρ => ?_) ht ρ
  rw [value_eq h hn, value_eq h' (e.node hn), node_of_extends h e _ _ ht.positive (h.typed hn)]
  exact congrArg _ (node_congr _ ih ρ)

/-! ## Polarity and types -/

theorem value_neg (h : s.Wf) {t : Term} {ty : Ty} (ht : s.Has t ty) (ρ : I.Env) :
    I.value s ρ t.neg = (I.value s ρ t).not := by
  obtain ⟨⟨shape, hn⟩, -⟩ := ht
  have hn' : s.node? t.neg = some (shape, ty) := by
    unfold Store.node? at hn ⊢
    rwa [Term.index_neg]
  rw [value_eq h hn, value_eq h hn', Term.positive_neg, Term.isNegated_neg]
  cases t.isNegated <;> simp [Val.negIf]

theorem is_bool (h : s.Wf) {elems : Ty → Type} {v : Val elems} :
    v.Is s .bool ↔ ∃ b, v = .bool b := by
  simp [Val.Is, h.bool_ty]

theorem is_word {ty : Ty} {w : Nat} (hty : s.tyShape? ty = some (.bitVector w)) {elems : Ty → Type}
    {v : Val elems} :
    v.Is s ty ↔ ∃ n, v = .word n ∧ n < Bits.modulus w := by
  simp [Val.Is, hty]

theorem width_of_ty {t : Term} {ty : Ty} {w : Nat} (ht : s.Has t ty)
    (hty : s.tyShape? ty = some (.bitVector w)) :
    width s t = w := by
  simp [width, Store.width?, Store.tyWidth?, ht.ty_eq, hty]

theorem default_is (I : Interp) (s : Store) (ty : Ty) : (I.default s ty).Is s ty := by
  unfold default Val.Is
  cases s.tyShape? ty with
  | none => trivial
  | some shape =>
    cases shape with
    | bool => exact ⟨_, rfl⟩
    | bitVector w => exact ⟨0, rfl, Bits.modulus_pos w⟩
    | uninterpreted => exact ⟨_, rfl⟩
    | function => trivial

/-- The value of a node is of the type of its shape, if the values of its parts are of
their types. -/
theorem node_is (h : s.Wf) (hI : I.Fits s) {ρ : I.Env} (hρ : I.EnvFits s ρ)
    {f : I.Env → Term → Val I.elems} {p : Term}
    {shape : Term.Shape} {ty : Ty} (hn : s.node? p = some (shape, ty)) (hp : p.isNegated = false)
    (hf : ∀ c ∈ shape.children, ∀ tc, s.Has c tc → (f ρ c).Is s tc) :
    (I.node s f ρ p shape).Is s ty := by
  have ht := h.typed hn
  have hhas : s.Has p ty := ⟨⟨shape, hn⟩, by simp [hp]⟩
  -- the shape of a typed node fixes its type, and the operation of the shape gives values of that
  -- type
  cases shape with
  | truth =>
    rw [show ty = .bool from ht, is_bool h]
    exact ⟨true, rfl⟩
  | eq | or | xor | all | bit | bvGe | bvSge =>
    rw [ht.1, is_bool h]
    exact ⟨_, rfl⟩
  | bvConst w n =>
    rw [is_word ht.1]
    exact ⟨n, rfl, ht.2⟩
  | uninterpreted ty' n =>
    rw [ht.1]
    exact hI.const ty' n
  | var ty' n =>
    obtain ⟨rfl, -⟩ := ht
    exact hρ p ty n hn
  | ite c a b =>
    simp only [node]
    split
    · exact hf a (by simp [Term.Shape.children]) ty ht.2.1
    · exact hf b (by simp [Term.Shape.children]) ty ht.2.2
  | app g args =>
    obtain ⟨tf, domain, hg, hshape, hargs⟩ := ht
    simp only [node]
    split
    next ty' n hgs =>
      have hty' : tf = ty' := by
        obtain ⟨⟨shg, hgn⟩, -⟩ := hg
        rw [node?_of_shape hgn] at hgs
        subst hgs
        exact (h.typed hgn).1
      subst hty'
      refine hI.func hshape ?_
      have hargs' : ∀ c ∈ args, ∀ tc, s.Has c tc → (f ρ c).Is s tc :=
        fun c hc => hf c (List.mem_cons_of_mem _ hc)
      clear hshape hgs hf hn hhas
      induction hargs with
      | nil => exact .nil
      | cons hab _ ih =>
        exact .cons (hargs' _ List.mem_cons_self _ hab)
          (ih fun c hc => hargs' c (List.mem_cons_of_mem _ hc))
    next =>
      rw [hhas.ty_eq]
      exact default_is I s ty
  | bvNeg x =>
    obtain ⟨hx, w, hty⟩ := ht
    rw [is_word hty, ← width_of_ty hx hty]
    exact ⟨_, rfl, Bits.neg_lt _ _⟩
  | bvSum args | bvProduct args =>
    obtain ⟨-, -, w, hty⟩ := ht
    rw [is_word hty, ← width_of_ty hhas hty]
    exact ⟨_, rfl, Bits.trunc_lt _ _⟩

/-- The value of a term is of its type. -/
theorem value_is (h : s.Wf) (hI : I.Fits s) {ρ : I.Env} (hρ : I.EnvFits s ρ) {t : Term} {ty : Ty}
    (ht : s.Has t ty) :
    (I.value s ρ t).Is s ty := by
  obtain ⟨rank, hrank⟩ := h.ranked
  generalize hr : rank t.index = r
  induction r using Nat.strongRecOn generalizing t ty with
  | ind r ih =>
    obtain ⟨⟨shape, hn⟩, hneg⟩ := ht
    have hn' : s.node? t.positive = some (shape, ty) := by
      unfold Store.node? at hn ⊢
      rwa [Term.index_positive]
    have hnode := node_is h hI hρ hn' (Term.isNegated_positive t)
      fun c hc tc htc => ih _ (hr ▸ hrank hn c hc) htc rfl
    rw [value_eq h hn]
    cases hb : t.isNegated with
    | false => exact hnode
    | true =>
      rw [hneg hb, is_bool h] at hnode ⊢
      obtain ⟨b, hb'⟩ := hnode
      exact ⟨!b, by rw [hb']; rfl⟩

theorem value_bool (h : s.Wf) (hI : I.Fits s) {ρ : I.Env} (hρ : I.EnvFits s ρ) {t : Term}
    (ht : s.Has t .bool) :
    I.value s ρ t = .bool (I.value s ρ t).toBool := by
  obtain ⟨b, hb⟩ := (is_bool h).mp (value_is h hI hρ ht)
  rw [hb]
  rfl

end Value
end Interp

/-! ## Free variables -/

namespace Store

/-- The head of an application is a constant. -/
def HeadOk (s : Store) : Term.Shape → Prop
  | .app f _ => (s.shape f).isUninterpreted = true
  | _ => True

/-- `t` is a first-order term: its free variables are among `vs`, and what it applies are
constants. -/
inductive FirstOrder (s : Store) : (vs : List Term) → Term → Prop where
  | var {vs : List Term} {t : Term} {ty ty' : Ty} {n : Nat} :
    s.node? t = some (.var ty n, ty') → t.positive ∈ vs → FirstOrder s vs t
  | all {vs vars : List Term} {t body : Term} {ty : Ty} :
    s.node? t = some (.all vars body, ty) → FirstOrder s (vars ++ vs) body → FirstOrder s vs t
  | node {vs : List Term} {t : Term} {shape : Term.Shape} {ty : Ty} :
    s.node? t = some (shape, ty) → shape.isVariable = false → shape.isQuantifier = false →
      s.HeadOk shape →
    (∀ c ∈ shape.children, FirstOrder s vs c) → FirstOrder s vs t

namespace FirstOrder

variable {s s' : Store} {vs : List Term} {t : Term}

theorem headOk_iff (e : s.Extends s') {shape : Term.Shape} {ty : Ty} (ht : s.Typed shape ty) :
    s'.HeadOk shape ↔ s.HeadOk shape := by
  cases shape with
  | app f args =>
    obtain ⟨tf, domain, hf, -⟩ := ht
    simp only [HeadOk, Interp.shape_of_has e hf]
  | _ => exact Iff.rfl

theorem mono {vs' : List Term} (h : s.FirstOrder vs t) (hsub : ∀ v ∈ vs, v ∈ vs') :
    s.FirstOrder vs' t := by
  induction h generalizing vs' with
  | var hn hv => exact .var hn (hsub _ hv)
  | all hn _ ih =>
    refine .all hn (ih fun v hv => ?_)
    rcases List.mem_append.mp hv with hv | hv
    · exact List.mem_append_left _ hv
    · exact List.mem_append_right _ (hsub v hv)
  | node hn hv hq hh _ ih => exact .node hn hv hq hh fun c hc => ih c hc hsub

theorem neg (h : s.FirstOrder vs t) : s.FirstOrder vs t.neg := by
  have hidx : ∀ {u : Term} {x}, s.node? u = some x → s.node? u.neg = some x := by
    intro u x hu
    unfold node? at hu ⊢
    rwa [Term.index_neg]
  cases h with
  | var hn hv => exact .var (hidx hn) (by rwa [Term.positive_neg])
  | all hn hb => exact .all (hidx hn) hb
  | node hn hv hq hh hc => exact .node (hidx hn) hv hq hh hc

theorem positive (h : s.FirstOrder vs t) : s.FirstOrder vs t.positive := by
  cases hb : t.isNegated with
  | false => rwa [Term.positive_of_not_isNegated hb]
  | true =>
    have hneg := h.neg
    rw [← Term.neg_positive hb, Term.neg_neg] at hneg
    exact hneg

theorem extends_ (h : s.FirstOrder vs t) (hs : s.Wf) (e : s.Extends s') : s'.FirstOrder vs t := by
  induction h with
  | var hn hv => exact .var (e.node hn) hv
  | all hn _ ih => exact .all (e.node hn) ih
  | node hn hv hq hh _ ih => exact .node (e.node hn) hv hq ((headOk_iff e (hs.typed hn)).mpr hh) ih

theorem children {shape : Term.Shape} {ty : Ty} (h : s.FirstOrder vs t)
    (hn : s.node? t = some (shape, ty))
    (hq : shape.isQuantifier = false) {c : Term} (hc : c ∈ shape.children) : s.FirstOrder vs c := by
  cases h with
  | var hn' _ =>
    rw [hn] at hn'
    cases hn'
    cases hc
  | all hn' _ =>
    rw [hn] at hn'
    cases hn'
    cases hq
  | node hn' _ _ _ hkids =>
    rw [hn] at hn'
    cases hn'
    exact hkids c hc

theorem headOk {shape : Term.Shape} {ty : Ty} (h : s.FirstOrder vs t)
    (hn : s.node? t = some (shape, ty)) :
    s.HeadOk shape := by
  cases h with
  | var hn' _ =>
    rw [hn] at hn'
    cases hn'
    trivial
  | all hn' _ =>
    rw [hn] at hn'
    cases hn'
    trivial
  | node hn' _ _ hh _ =>
    rw [hn] at hn'
    cases hn'
    exact hh

/-- The value of a term depends on its free variables only. -/
theorem value_eq (h : s.FirstOrder vs t) (hs : s.Wf) {I : Interp} {ρ ρ' : I.Env}
    (hρ : ∀ v ∈ vs, s.IsVar v → ρ v = ρ' v) : I.value s ρ t = I.value s ρ' t := by
  induction h generalizing ρ ρ' with
  | var hn hv =>
    obtain ⟨rfl, -⟩ := hs.typed hn
    have hvar : s.IsVar _ := ⟨Term.isNegated_positive _, _, _, by
      unfold node? at hn ⊢
      rwa [Term.index_positive]⟩
    rw [Interp.value_eq hs hn, Interp.value_eq hs hn]
    simp only [Interp.node, hρ _ hv hvar]
  | all hn _ ih =>
    rw [Interp.value_eq hs hn, Interp.value_eq hs hn]
    congr 1
    refine congrArg Val.ofProp (propext (forall₂_congr fun xs _ => ?_))
    rw [ih]
    intro v hv hvar
    unfold Interp.rebind
    split
    · rfl
    next hnot => exact hρ v ((List.mem_append.mp hv).resolve_left hnot) hvar
  | @node vs t shape ty hn hv hq hh _ ih =>
    rw [Interp.value_eq hs hn, Interp.value_eq hs hn]
    congr 1
    have hmap : ∀ args : List Term, (∀ c ∈ args, c ∈ shape.children) →
        args.map (I.value s ρ) = args.map (I.value s ρ') :=
      fun args hargs => List.map_congr_left fun c hc => ih c (hargs c hc) hρ
    cases shape with
    | truth | bvConst | uninterpreted => rfl
    | var => cases hv
    | all => cases hq
    | ite c a b =>
      simp only [Interp.node, ih c (by simp [Term.Shape.children]) hρ,
        ih a (by simp [Term.Shape.children]) hρ,
        ih b (by simp [Term.Shape.children]) hρ]
    | eq a b | xor a b | bvGe a b | bvSge a b =>
      simp only [Interp.node, ih a (by simp [Term.Shape.children]) hρ,
        ih b (by simp [Term.Shape.children]) hρ]
    | bit x i | bvNeg x => simp only [Interp.node, ih x (by simp [Term.Shape.children]) hρ]
    | or args =>
      have hargs : (∃ a ∈ args, (I.value s ρ a).toBool = true) ↔ ∃ a ∈ args,
          (I.value s ρ' a).toBool = true := by
        refine exists_congr fun a => and_congr_right fun ha => ?_
        rw [ih a ha hρ]
      simp only [Interp.node, hargs]
    | app f args =>
      simp only [Interp.node, hmap args fun c hc => List.mem_cons_of_mem _ hc]
    | bvSum args | bvProduct args =>
      have hargs : (args.map fun a => (I.value s ρ a).toNat) = args.map fun a =>
          (I.value s ρ' a).toNat :=
        List.map_congr_left fun c hc => by rw [ih c hc hρ]
      simp only [Interp.node, hargs]

end FirstOrder
end Store
end Entail
