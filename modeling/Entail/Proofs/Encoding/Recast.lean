import Entail.Proofs.Encoding.Warrants

/-!
# Structures for other stores

The store of a context may change in between: what the context refers to stays, anything else may
go, and what is new may take its place. A structure for the store after such a change becomes one
for the store before when types that are gone get other functions, and symbols that are gone get
other values. The terms that stay have the values that they had, so what a formula says does not
depend on the rest of the store.
-/

namespace Entail

open Search Context

/-! ## Types that stay -/

namespace Store

variable {s s' : Store} {t : Term} {ty part : Ty} {shape : Term.Shape}

/-- The type and all that it is made of are the same in both stores. -/
def StaysTy (s s' : Store) (ty : Ty) : Prop := ∀ part, Relation.ReflTransGen s.Component ty part →
  ∃ tyShape, s.tyShape? part = some tyShape ∧ s'.tyShape? part = some tyShape

theorem Stays.type (h : s.Stays s' t) (hn : s.node? t = some (shape, ty)) : s.StaysTy s' ty :=
  fun _ => h.ty .refl hn

theorem StaysTy.shape_eq (h : s.StaysTy s' ty) : s'.tyShape? ty = s.tyShape? ty := by
  obtain ⟨tyShape, hty, hty'⟩ := h ty .refl
  rw [hty, hty']

theorem StaysTy.component (h : s.StaysTy s' ty) (hpart : s.Component ty part) : s.StaysTy s' part :=
  fun _ hr => h _ (.head hpart hr)

theorem StaysTy.inhabits {elems : Ty → Type} {v : Val elems} (h : s.StaysTy s' ty) :
    v.Inhabits s' ty ↔ v.Inhabits s ty := by
  unfold Val.Inhabits
  rw [h.shape_eq]

theorem Stays.positive (h : s.Stays s' t) : s.Stays s' t.positive := by
  obtain ⟨ty, ht⟩ := isValid_iff.mp h.valid.1
  exact h.part (by rw [Below, Term.index_positive]) (isValid_iff.mpr ⟨ty, ht.positive⟩)

end Store

namespace Structure

variable {M : Structure} {s s' : Store} {t : Term} {ty : Ty}

/-! ## Other functions for types that are gone -/

open Classical in
/-- A structure for the store `s` that applies functions as `M`, a structure for `s'`, where their
type stays. -/
noncomputable def recast (M : Structure) (s s' : Store) : Structure where
  elems := M.elems
  nonempty := M.nonempty
  apply ty f args :=
    if s.StaysTy s' ty then M.apply ty f args
      else (Val.exists_inhabits M.nonempty s (Interp.rangeTy s ty)).choose

theorem recast_fits (hM : M.Fits s') : (M.recast s s').Fits s := by
  intro ty domain range f args hty hargs
  unfold recast
  dsimp only
  split
  next hstays =>
    have hpart {part : Ty} (h : part ∈ (Ty.Shape.function domain range).parts) :
        s.StaysTy s' part :=
      hstays.component ⟨_, hty, h⟩
    refine (hpart (by simp [Ty.Shape.parts])).inhabits.mp (hM f (hstays.shape_eq.trans hty) ?_)
    refine List.forall₂_iff_zip.mpr ⟨hargs.length_eq, fun {v d} hvd => ?_⟩
    have hd := (List.of_mem_zip hvd).2
    exact (hpart (by simp [Ty.Shape.parts, hd])).inhabits.mpr
      ((List.forall₂_iff_zip.mp hargs).2 hvd)
  next =>
    have hrange : Interp.rangeTy s ty = range := by simp only [Interp.rangeTy, hty]
    exact hrange ▸ (Val.exists_inhabits M.nonempty s (Interp.rangeTy s ty)).choose_spec

/-- Terms that stay have the values that they have in the store after, if the symbols
among them do. -/
theorem value_recast (hs : s.Wf) (hs' : s'.Wf) (hM : M.Fits s') {ρ : (M.recast s s').Env}
    {ρ' : M.Env} (hρ : (M.recast s s').EnvFits s ρ) (hρ' : M.EnvFits s' ρ')
    (hsame : ∀ x, s.IsSymbol x → s.Stays s' x → ρ x = ρ' x)
    (ht : s.Has t ty) (hstays : s.Stays s' t) : (M.recast s s').value s ρ t = M.value s' ρ' t := by
  refine hs.induct (P := fun t => s.Stays s' t → ∀ (ρ : (M.recast s s').Env) (ρ' : M.Env),
    (M.recast s s').EnvFits s ρ →
    M.EnvFits s' ρ' → (∀ x, s.IsSymbol x → s.Stays s' x → ρ x = ρ' x) →
      (M.recast s s').value s ρ t = M.value s' ρ' t)
    (fun {t shape ty} ht hn ih hstays ρ ρ' hρ hρ' hsame => ?_) ht hstays ρ ρ' hρ hρ' hsame
  have htyped := hs.typed hn
  have hpart {c : Term} (hc : c ∈ shape.children) : s.Stays s' c :=
    hstays.part (.child .refl hn hc) (Store.isValid_iff.mpr (htyped.live hc))
  have hvalue {c : Term} (hc : c ∈ shape.children) :
      (M.recast s s').value s ρ c = M.value s' ρ' c :=
    ih c hc (hpart hc) ρ ρ' hρ hρ' hsame
  have hvalues {cs : List Term} (hcs : ∀ c ∈ cs, c ∈ shape.children) :
      cs.map ((M.recast s s').value s ρ) = cs.map (M.value s' ρ') := List.map_congr_left fun c hc =>
        hvalue (hcs c hc)
  have hwidth : s'.partWidth shape = s.partWidth shape :=
    Store.partWidth_of_stays hs hs' htyped hpart
  have hnode : (M.recast s s').node s ((M.recast s s').value s) ρ t.positive shape =
      M.node s' (M.value s') ρ' t.positive shape := by
    -- interpreted nodes need the values of their parts only; heads and quantifiers also the types
    by_cases hshape : shape.isInterpreted = true
    · rw [node_eq_combine hshape, node_eq_combine hshape, hvalues fun _ => id, hwidth]
      rfl
    cases shape with
    | uninterpreted | var =>
      exact hsame _ ⟨_, _, by rwa [Store.node?, Term.index_positive], rfl⟩ hstays.positive
    | app f args =>
      obtain ⟨tf, domain, hf, hdom, -⟩ := htyped
      have hfstays := hpart (c := f) List.mem_cons_self
      have hfvalue := value_inhabits hs' hM hρ' (hfstays.has hf)
      have hft := hfstays.type hf.node
      obtain ⟨g, hg⟩ : ∃ g, M.value s' ρ' f = .elem tf g := by
        simpa only [Val.Inhabits, hft.shape_eq, hdom] using hfvalue
      simp only [node]
      rw [hvalue (c := f) List.mem_cons_self, hvalues fun c hc => List.mem_cons_of_mem f hc, hg]
      exact if_pos hft
    | all vars body =>
      have hmem {v : Term} (hv : v ∈ vars) : v ∈ (Term.Shape.all vars body).children := by
        simp [Term.Shape.children, hv]
      have hvars (xs : M.Env) : (∀ v ∈ vars, (xs v).Inhabits s (s.ty v)) ↔ ∀ v ∈ vars,
          (xs v).Inhabits s' (s'.ty v) := by
        refine forall₂_congr fun v hv => ?_
        obtain ⟨tv, htv⟩ := (htyped.2.2.1 v hv).has
        have hstay := hpart (hmem hv)
        rw [(hstay.has htv).ty_eq, htv.ty_eq]
        exact (hstay.type htv.node).inhabits.symm
      have hbody : body ∈ (Term.Shape.all vars body).children := by simp [Term.Shape.children]
      refine congrArg Val.ofProp (propext (forall_congr' fun xs => ?_))
      refine imp_congr_ctx (hvars xs) fun hxs' => ?_
      have hxs := (hvars xs).mpr hxs'
      have heq : (M.recast s s').value s (rebind ρ vars xs) body = M.value s'
          (rebind ρ' vars xs) body := by
        refine ih body hbody (hpart hbody) (rebind ρ vars xs) (rebind ρ' vars xs) (hρ.rebind hxs)
          (hρ'.rebind hxs')
          fun x hx hxstays => ?_
        by_cases hbound : x ∈ vars
        · have hold : rebind ρ vars xs x = xs x := if_pos hbound
          exact hold.trans (if_pos hbound : rebind ρ' vars xs x = xs x).symm
        · have hold : rebind ρ vars xs x = ρ x := if_neg hbound
          exact hold.trans ((hsame x hx hxstays).trans
            (if_neg hbound : rebind ρ' vars xs x = ρ' x).symm)
      exact iff_of_eq (congrArg (fun v : Val M.elems => v.toBool = true) heq)
    | _ => exact absurd rfl hshape
  rw [value_eq hs hn, value_eq hs' (hstays.node_eq hn), hnode]
  rfl

/-- Values for the store after become values for the store before. -/
theorem exists_recast {ρ' : M.Env} (hρ' : M.EnvFits s' ρ') :
    ∃ ρ : (M.recast s s').Env, (M.recast s s').EnvFits s ρ ∧ ∀ x, s.Stays s' x → ρ x = ρ' x := by
  classical
  obtain ⟨ρ₀, hρ₀⟩ := exists_envFits (M.recast s s') s
  let ρ : (M.recast s s').Env := fun x => if s.Stays s' x then ρ' x else ρ₀ x
  have hkept {x : Term} (hx : s.Stays s' x) : ρ x = ρ' x := if_pos hx
  refine ⟨ρ, fun {x shape ty} hn hpos hatom => ?_, fun x => hkept⟩
  by_cases hx : s.Stays s' x
  · rw [hkept hx]
    exact (hx.type hn).inhabits.mp (hρ' (hx.node_eq hn) hpos hatom)
  · rw [show ρ x = ρ₀ x from if_neg hx]
    exact hρ₀ hn hpos hatom

/-- So formulas that stay hold in the one exactly if they do in the other. -/
theorem holds_recast (hs : s.Wf) (hs' : s'.Wf) (hM : M.Fits s') {ρ : (M.recast s s').Env}
    {ρ' : M.Env} (hρ : (M.recast s s').EnvFits s ρ) (hρ' : M.EnvFits s' ρ')
    (hsame : ∀ x, s.Stays s' x → ρ x = ρ' x)
    (ht : s.Has t ty) (hstays : s.Stays s' t) : (M.recast s s').Holds s ρ t ↔ M.Holds s' ρ' t :=
  iff_of_eq (congrArg (· = Val.bool true)
    (value_recast hs hs' hM hρ hρ' (fun x _ => hsame x) ht hstays))

end Structure
end Entail
