import Entail.Proofs.Valuations

/-!
# Structures

An interpretation reads an application only when its head is a constant. A structure also has
elements of the function types and says what these give for arguments. So every live term has a
meaning in it, whatever is applied in the term, and quantifiers range over functions, too. The
values of constants and variables are those of one assignment.
-/

namespace Entail

/-- `v` is a value of type `ty`; those of a function type are its elements. -/
def Val.Inhabits {elems : Ty → Type} (s : Store) (v : Val elems) (ty : Ty) : Prop :=
  match s.tyShape? ty with
  | some .bool => ∃ b, v = .bool b
  | some (.bitVector w) => ∃ n, v = .word n ∧ n < Bits.modulus w
  | _ => ∃ x, v = .elem ty x

/-- Elements of sorts and of function types, and what functions give for arguments. -/
structure Structure where
  elems : Ty → Type
  nonempty : ∀ ty, Nonempty (elems ty)
  apply : (ty : Ty) → elems ty → List (Val elems) → Val elems

namespace Val

variable {elems : Ty → Type} {s s' : Store} {v : Val elems} {ty : Ty}

theorem Inhabits.is (h : v.Inhabits s ty) : v.Is s ty := by
  unfold Inhabits at h
  unfold Is
  split at h
  next hty => rwa [hty]
  next w hty => rwa [hty]
  next hbool hword =>
    split
    next hty => exact (hbool hty).elim
    next w hty => exact (hword w hty).elim
    next => exact h
    next => trivial

theorem inhabits_bool (h : s.Wf) : v.Inhabits s .bool ↔ ∃ b, v = .bool b := by
  simp [Inhabits, h.bool_ty]

theorem inhabits_word {w : Nat} (hty : s.tyShape? ty = some (.bitVector w)) :
    v.Inhabits s ty ↔ ∃ n, v = .word n ∧ n < Bits.modulus w := by
  simp [Inhabits, hty]

theorem inhabits_iff (e : s.Extends s') {shape : Ty.Shape} (hty : s.tyShape? ty = some shape) :
    v.Inhabits s' ty ↔ v.Inhabits s ty := by
  unfold Inhabits
  rw [hty, e.ty hty]

theorem exists_inhabits (h : ∀ ty, Nonempty (elems ty)) (s : Store) (ty : Ty) :
    ∃ v : Val elems, v.Inhabits s ty := by
  unfold Inhabits
  split
  · exact ⟨_, false, rfl⟩
  · exact ⟨_, 0, rfl, Bits.modulus_pos _⟩
  · obtain ⟨x⟩ := h ty
    exact ⟨_, x, rfl⟩

end Val

/-- The value of an interpreted shape is of its type, if the values of the parts are of theirs. -/
theorem Term.Shape.combine_inhabits {elems : Ty → Type} {s : Store} {shape : Shape} {ty : Ty}
    {f : Term → Val elems} (h : s.Wf) (ht : s.Typed shape ty) (hshape : shape.isInterpreted = true)
    (hf : ∀ c ∈ shape.children, ∀ tc, s.Has c tc → (f c).Inhabits s tc) :
    (shape.combine (s.partWidth shape) (shape.children.map f)).Inhabits s ty := by
  cases shape with
  | uninterpreted | var | app | all => cases hshape
  | truth => exact ht ▸ (Val.inhabits_bool h).mpr ⟨true, rfl⟩
  | eq | or | xor | bit | bvGe | bvSge => exact ht.1 ▸ (Val.inhabits_bool h).mpr ⟨_, rfl⟩
  | bvConst w n => exact (Val.inhabits_word ht.1).mpr ⟨n, rfl, ht.2⟩
  | ite c a b =>
    show Val.Inhabits s (if (f c).toBool then f a else f b) ty
    split
    · exact hf a (by simp [Term.Shape.children]) ty ht.2.1
    · exact hf b (by simp [Term.Shape.children]) ty ht.2.2
  | bvNeg x =>
    obtain ⟨hx, w, hw⟩ := ht
    have hwidth : s.partWidth (.bvNeg x) = w := Interp.width_of_ty hx hw
    exact (Val.inhabits_word hw).mpr ⟨_, rfl, hwidth ▸ Bits.neg_lt _ _⟩
  | bvSum args =>
    obtain ⟨hne, hall, w, hw⟩ := ht
    obtain ⟨a, rest, rfl⟩ := List.exists_cons_of_ne_nil hne
    have hwidth : s.partWidth (.bvSum (a :: rest)) = w :=
      Interp.width_of_ty (hall a List.mem_cons_self) hw
    exact (Val.inhabits_word hw).mpr ⟨_, rfl, hwidth ▸ Bits.trunc_lt _ _⟩
  | bvProduct args =>
    obtain ⟨hne, hall, w, hw⟩ := ht
    obtain ⟨a, rest, rfl⟩ := List.exists_cons_of_ne_nil hne
    have hwidth : s.partWidth (.bvProduct (a :: rest)) = w :=
      Interp.width_of_ty (hall a List.mem_cons_self) hw
    exact (Val.inhabits_word hw).mpr ⟨_, rfl, hwidth ▸ Bits.trunc_lt _ _⟩

namespace Structure

/-- Values of constants and variables. -/
abbrev Env (M : Structure) := Term → Val M.elems

/-- Functions give values of their ranges for arguments from their domains. -/
def Fits (M : Structure) (s : Store) : Prop :=
  ∀ {ty domain range} (f : M.elems ty) {args}, s.tyShape? ty = some (.function domain range) →
    List.Forall₂ (fun v d => Val.Inhabits s v d) args domain → (M.apply ty f args).Inhabits s range

/-- The values of constants and variables respect the types of a store. -/
def EnvFits (M : Structure) (s : Store) (ρ : M.Env) : Prop :=
  ∀ {x : Term} {shape ty}, s.node? x = some (shape, ty) → x.isNegated = false →
    (shape.isUninterpreted || shape.isVariable) = true → (ρ x).Inhabits s ty

/-- `ρ` with the values `xs` for the variables `vars`. -/
def rebind {M : Structure} (ρ : M.Env) (vars : List Term) (xs : M.Env) : M.Env :=
  fun v => if v ∈ vars then xs v else ρ v

/-- What a value gives for arguments; only functions are applied. -/
def call (M : Structure) : Val M.elems → List (Val M.elems) → Val M.elems
  | .elem ty f, args => M.apply ty f args
  | v, _ => v

/-- Value of the positive term `p` with a given shape, where `value` gives the values of its
parts. -/
noncomputable def node (M : Structure) (s : Store) (value : M.Env → Term → Val M.elems)
    (ρ : M.Env) (p : Term) (shape : Term.Shape) : Val M.elems :=
  match shape with
  | .uninterpreted .. | .var .. => ρ p
  | .app f args => M.call (value ρ f) (args.map (value ρ))
  | .all vars body =>
    .ofProp (∀ xs : M.Env, (∀ v ∈ vars, (xs v).Inhabits s (s.ty v)) →
      (value (rebind ρ vars xs) body).toBool = true)
  | shape => shape.combine (s.partWidth shape) (shape.children.map (value ρ))

/-- Value of a term that is nested less than `depth` deep. -/
noncomputable def valueAt (M : Structure) (s : Store) : (depth : Nat) → M.Env → Term → Val M.elems
  | 0, _, _ => .bool false
  | depth + 1, ρ, t => (M.node s (M.valueAt s depth) ρ t.positive (s.shape t)).negIf t.isNegated

/-- Value of a term. -/
noncomputable def value (M : Structure) (s : Store) (ρ : M.Env) (t : Term) : Val M.elems :=
  M.valueAt s (s.terms.slots.size + 1) ρ t

variable {M : Structure} {s s' : Store} {ρ ρ' : M.Env} {t p : Term} {shape : Term.Shape} {ty : Ty}

theorem node_eq_combine (hshape : shape.isInterpreted = true) (f : M.Env → Term → Val M.elems)
    (ρ : M.Env) (p : Term) :
    M.node s f ρ p shape = shape.combine (s.partWidth shape) (shape.children.map (f ρ)) := by
  cases shape <;> first | rfl | cases hshape

theorem node_congr {f g : M.Env → Term → Val M.elems} (p : Term)
    (h : ∀ c ∈ shape.children, ∀ ρ, f ρ c = g ρ c)
    (ρ : M.Env) : M.node s f ρ p shape = M.node s g ρ p shape := by
  by_cases hshape : shape.isInterpreted = true
  · rw [node_eq_combine hshape, node_eq_combine hshape, List.map_congr_left fun c hc => h c hc ρ]
  cases shape with
  | uninterpreted | var => rfl
  | app f' args =>
    simp only [node, h f' List.mem_cons_self, List.map_congr_left fun c hc =>
      h c (List.mem_cons_of_mem _ hc) ρ]
  | all vars body =>
    have hbody : ∀ ρ, f ρ body = g ρ body := h body (by simp [Term.Shape.children])
    simp only [node, hbody]
  | _ => exact absurd rfl hshape

/-- The value of a term from the values of its parts. -/
theorem value_eq (h : s.Wf) (hn : s.node? t = some (shape, ty)) (ρ : M.Env) :
    M.value s ρ t = (M.node s (M.value s) ρ t.positive shape).negIf t.isNegated := by
  have hparts : s.FromParts fun f (ρ : M.Env) t =>
      (M.node s f ρ t.positive (s.shape t)).negIf t.isNegated := by
    intro t shape ty f g hn hfg ρ
    simp only [Interp.node?_of_shape hn]
    exact congrArg _ (node_congr _ hfg ρ)
  have hvalue := hparts.level_eq h (M.valueAt s) (fun _ _ _ => rfl) hn ρ
  rwa [Interp.node?_of_shape hn] at hvalue

/-- The value of a positive term. -/
theorem value_of_node (h : s.Wf) (hn : s.node? p = some (shape, ty)) (hp : p.isNegated = false)
    (ρ : M.Env) :
    M.value s ρ p = M.node s (M.value s) ρ p shape := by
  rw [value_eq h hn, hp, Term.positive_of_not_isNegated hp]
  rfl

theorem value_neg (h : s.Wf) (ht : s.Has t ty) (ρ : M.Env) :
    M.value s ρ t.neg = (M.value s ρ t).not := by
  obtain ⟨⟨shape, hn⟩, -⟩ := ht
  have hn' : s.node? t.neg = some (shape, ty) := by rwa [Store.node?, Term.index_neg]
  rw [value_eq h hn, value_eq h hn', Term.positive_neg, Term.isNegated_neg]
  cases t.isNegated <;> simp [Val.negIf]

/-- The value of a term is of its type. -/
theorem value_inhabits (h : s.Wf) (hM : M.Fits s) (hρ : M.EnvFits s ρ) (ht : s.Has t ty) :
    (M.value s ρ t).Inhabits s ty := by
  refine h.induct (P := fun t => ∀ ty, s.Has t ty → (M.value s ρ t).Inhabits s ty)
    (fun {t shape ty} ht hn ih ty' ht' => ?_)
    ht ty ht
  obtain rfl := ht.unique ht'
  have hnode : (M.node s (M.value s) ρ t.positive shape).Inhabits s ty := by
    have htyped := h.typed hn
    by_cases hshape : shape.isInterpreted = true
    · exact node_eq_combine hshape (M.value s) ρ _ ▸ Term.Shape.combine_inhabits h htyped hshape ih
    cases shape with
    | uninterpreted | var =>
      exact hρ (by rwa [Store.node?, Term.index_positive]) (Term.isNegated_positive t) rfl
    | app f args =>
      obtain ⟨tf, domain, hf, hdom, hargs⟩ := htyped
      have hfun : ∃ x, M.value s ρ f = .elem tf x := by
        simpa only [Val.Inhabits, hdom] using ih f List.mem_cons_self tf hf
      obtain ⟨x, hx⟩ := hfun
      simp only [node, hx, call]
      refine hM x hdom (List.forall₂_map_left_iff.mpr ?_)
      refine List.forall₂_iff_zip.mpr ⟨hargs.length_eq, fun {a d} had => ?_⟩
      exact ih a (List.mem_cons_of_mem _ (List.of_mem_zip had).1) d
        ((List.forall₂_iff_zip.mp hargs).2 had)
    | all vars body => exact htyped.1 ▸ (Val.inhabits_bool h).mpr ⟨_, rfl⟩
    | _ => exact absurd rfl hshape
  rw [value_eq h hn]
  cases hneg : t.isNegated with
  | false => exact hnode
  | true =>
    obtain rfl := ht.2 hneg
    obtain ⟨b, hb⟩ := (Val.inhabits_bool h).mp hnode
    exact (Val.inhabits_bool h).mpr ⟨!b, by rw [hb]; rfl⟩

/-- The values of all terms. -/
noncomputable def valuation (M : Structure) (s : Store) (ρ : M.Env) : Valuation M.elems where
  defined _ := True
  value := M.value s ρ

theorem valuation_lawful (h : s.Wf) (hM : M.Fits s) (hρ : M.EnvFits s ρ) :
    (M.valuation s ρ).Lawful s where
  is_type _ ht := (value_inhabits h hM hρ ht).is
  neg _ ht := ⟨trivial, value_neg h ht ρ⟩
  node_defined _ _ _ _ := trivial
  part _ _ _ _ _ _ := trivial
  node hn hp hshape _ := (value_of_node h hn hp ρ).trans (node_eq_combine hshape _ ρ _)

/-- The structure over given elements whose functions have some constant value. -/
noncomputable def constant {elems : Ty → Type} (h : ∀ ty, Nonempty (elems ty)) (s : Store) :
    Structure where
  elems := elems
  nonempty := h
  apply ty _ _ := (Val.exists_inhabits h s (Interp.rangeTy s ty)).choose

theorem constant_fits {elems : Ty → Type} (h : ∀ ty, Nonempty (elems ty)) (s : Store) :
    (constant h s).Fits s := by
  intro ty domain range f args hty _
  have hrange : Interp.rangeTy s ty = range := by simp only [Interp.rangeTy, hty]
  exact hrange ▸ (Val.exists_inhabits h s (Interp.rangeTy s ty)).choose_spec

theorem exists_envFits (M : Structure) (s : Store) : ∃ ρ : M.Env, M.EnvFits s ρ := by
  choose ρ hρ using fun x => Val.exists_inhabits M.nonempty s (s.ty x)
  refine ⟨ρ, fun {x shape ty} hn _ _ => ?_⟩
  have hty : s.ty x = ty := by simp [Store.ty, hn]
  exact hty ▸ hρ x

/-! ## Growing stores -/

/-- A structure that fits a store fitted it before it grew. -/
theorem Fits.of_extends (hM : M.Fits s') (h : s.Wf) (e : s.Extends s') : M.Fits s := by
  intro ty domain range f args hty hargs
  obtain ⟨-, hlive⟩ := h.ty_ok hty
  obtain ⟨shape, hrange⟩ := hlive range (by simp)
  refine (Val.inhabits_iff e hrange).mp
    (hM f (e.ty hty) (List.forall₂_iff_zip.mpr ⟨hargs.length_eq, fun {a d} had => ?_⟩))
  obtain ⟨shape, hd⟩ := hlive d (List.mem_append_left _ (List.of_mem_zip had).2)
  exact (Val.inhabits_iff e hd).mpr ((List.forall₂_iff_zip.mp hargs).2 had)

theorem EnvFits.of_extends (hρ : M.EnvFits s' ρ) (h : s.Wf) (e : s.Extends s') : M.EnvFits s ρ := by
  intro x shape ty hn hx hatom
  obtain ⟨tyShape, hty⟩ := h.live_ty hn
  exact (Val.inhabits_iff e hty).mp (hρ (e.node hn) hx hatom)

/-- The value of a term does not change when the store grows. -/
theorem value_of_extends (h : s.Wf) (h' : s'.Wf) (e : s.Extends s') (ht : s.Has t ty) (ρ : M.Env) :
    M.value s' ρ t = M.value s ρ t := by
  refine h.induct (P := fun t => ∀ ρ, M.value s' ρ t = M.value s ρ t)
    (fun {t shape ty} ht hn ih ρ => ?_) ht ρ
  have htyped := h.typed hn
  have hnode : M.node s' (M.value s) ρ t.positive shape = M.node s
      (M.value s) ρ t.positive shape := by
    by_cases hshape : shape.isInterpreted = true
    · rw [node_eq_combine hshape, node_eq_combine hshape, Valuation.Lawful.partWidth_eq h e htyped]
    cases shape with
    | uninterpreted | var | app => rfl
    | all vars body =>
      have hvars (xs : M.Env) : (∀ v ∈ vars, (xs v).Inhabits s' (s'.ty v)) ↔ ∀ v ∈ vars,
          (xs v).Inhabits s (s.ty v) := by
        refine forall₂_congr fun v hv => ?_
        obtain ⟨tv, htv⟩ := (htyped.2.2.1 v hv).has
        obtain ⟨tyShape, hty⟩ := h.ty_live htv
        rw [Interp.ty_of_has e htv, htv.ty_eq]
        exact Val.inhabits_iff e hty
      simp only [node, hvars]
    | _ => exact absurd rfl hshape
  rw [value_eq h hn, value_eq h' (e.node hn), node_congr _ ih, hnode]

end Structure
end Entail
