import Entail.Proofs.Quant.Types
import Entail.Proofs.Store.Carried

/-!
# Instances may be asserted

A binding has a place for each variable, so an instance only comes about when terms are put for all
of them. The terms are those of nodes; if these are supported, and so is the body of the constraint,
then the instance is, too, and it has no variables left.
-/

/-!
## Quantifiers that are opened

A quantifier over sorts is opened by putting terms of the sorts for its variables, be they new
constants or terms that were there. When each variable has one, the body has no variables left, and
it is nested as it was.
-/

namespace Entail.Store

variable {s s' : Store} {D : Term → Prop} {σ : Subst} {vars : List Term} {body t v x : Term}
  {ty : Ty}

/-- Supported terms of sorts are put for terms of the sorts, for those of `D` among them. -/
structure Opens (s : Store) (D : Term → Prop) (σ : Subst) : Prop where
  terms : ∀ {x v : Term}, σ[x]? = some v →
    ∃ ty m, s.Has x ty ∧ s.Has v ty ∧ s.tyShape? ty = some (.uninterpreted m) ∧ s.Supported [] v
  all : ∀ x, D x → σ[x]? ≠ none

namespace Opens

theorem empty (s : Store) : s.Opens (fun _ => False) ∅ :=
  ⟨fun h => by simp at h, fun _ => False.elim⟩

theorem later (h : s.Opens D σ) (hs : s.Extends s') : s'.Opens D σ where
  terms hx := by
    obtain ⟨ty, m, hxt, hvt, hty, hv⟩ := h.terms hx
    exact ⟨ty, m, hs.has hxt, hs.has hvt, hs.ty hty, hv.later hs⟩
  all := h.all

theorem mono (h : s.Opens D σ) {D' : Term → Prop} (hD : ∀ x, D' x → D x) : s.Opens D' σ :=
  ⟨h.terms, fun x hx => h.all x (hD x hx)⟩

/-- A term is put for one more term. -/
theorem insert (h : s.Opens D σ) {m : Nat} (hx : s.Has x ty)
    (hty : s.tyShape? ty = some (.uninterpreted m))
    (hv : s.Has v ty) (hsv : s.Supported [] v) : s.Opens (fun y => D y ∨ y = x) (σ.insert x v) where
  terms {y u} hy := by
    rw [Std.HashMap.getElem?_insert] at hy
    split at hy
    next heq =>
      cases hy
      exact ⟨ty, m, eq_of_beq heq ▸ hx, hv, hty, hsv⟩
    next => exact h.terms hy
  all y hy := by
    rw [Std.HashMap.getElem?_insert]
    split
    · nofun
    next hne => exact h.all y (hy.resolve_right fun h => hne (by simp [h]))

end Opens

/-- What terms for `vars` carry over: the body of a quantifier, whatever stands where. -/
def opening (vars : List Term) (W : Term → Nat → Prop) : Passage where
  vars vs ws := vs = vars ∧ ws = []
  whole := False
  flatten := false
  weight := W

theorem Opens.carries (hs : s.Wf) {W : Term → Nat → Prop} (hW : ∀ x d, W x d → W x (d + 1))
    (h : s.Opens (· ∈ vars) σ) : s.Carries (opening vars W) s σ where
  assigns x v hx := by
    obtain ⟨ty, m, hxt, hvt, -⟩ := h.terms hx
    exact ⟨ty, hxt, hvt⟩
  carried {x v} hx _ := by
    obtain ⟨ty, m, -, hvt, hsort, hsv⟩ := h.terms hx
    refine ⟨fun _ _ => hsv.closed, fun h => h.elim, fun _ => .other hvt.node ?_⟩
    rintro rfl
    cases hs.bool_ty.symm.trans hsort
  free hvars hv hnone := absurd hnone (h.all _ (hvars.1 ▸ hv))
  grows := hW _ _
  closed h := h.elim
  constants h := h.elim

/-- The body of a quantifier that is opened is supported, and nested as it was. -/
theorem Opens.subst (hw : s.Wf) (hreg : s.Regular) (h : s.Opens (· ∈ vars) σ)
    (hbody : s.Has body .bool) (hs : s.Supported vars body) :
    Fares TermError.TooLarge Later s (Store.subst σ body) fun r s' => s'.Has r .bool ∧
    s'.Supported [] r ∧
      ∀ W : { W : Term → Nat → Prop // ∀ x d, W x d → W x (d + 1) }, ∀ d, s.Shallow W.1 d body →
      s'.Shallow W.1 d r := by
  have : Nonempty { W : Term → Nat → Prop // ∀ x d, W x d → W x (d + 1) } :=
    ⟨fun _ _ => True, fun _ _ => id⟩
  have hturned := Fares.forall_ fun W : { W : Term → Nat → Prop // ∀ x d, W x d → W x (d + 1) } =>
    subst_turns hw hreg (h.carries hw W.2) hbody
  refine hturned.imp fun r s' _ hall => ?_
  have hpasses {W : Term → Nat → Prop} : s.Passes (opening vars W) body := .body ⟨rfl, rfl⟩ hs
  have hany := hall ⟨fun _ _ => True, fun _ _ => id⟩
  exact ⟨hany.has, (hany.carried hpasses).supported ⟨rfl, rfl⟩ hs, fun W d hd =>
    ((hall W).carried hpasses).shallow hd⟩

end Entail.Store

namespace Entail.Quant

variable {s s' : Store} {g : Egraph} {vars : List Term} {b b' : Binding} {bs : List Binding}

theorem length_of_bind {i root : Nat} (h : bind i root b = some b') : b'.length = b.length := by
  unfold bind at h
  split at h
  · cases h
    exact List.length_set
  · split at h
    · cases h
      rfl
    · cases h
  · cases h

/-- A binding has a place for each variable. -/
theorem length_of_matchAll (hw : s.Wf) (hg : g.Typed s) (patterns : List (Term × List Nat)) :
    ∀ b ∈ matchAll g s vars patterns, b.length = vars.length :=
  matchAll_induction hw hg (fun _ _ hlen h => (length_of_bind h).trans hlen)
    (List.length_map _) patterns

namespace Solver

variable {q : Solver} {r : Round} {c : Constraint}

/-- Terms are looked for in classes of supported terms. -/
structure Grounded (s : Store) (g : Egraph) : Prop where
  wf : s.Wf
  regular : s.Regular
  typed : g.Typed s
  nodes : ∀ n ∈ g.nodes, s.Nodal [] n.term

theorem Grounded.built (h : Grounded s g) (hs : Store.Built s s') : Grounded s' g :=
  ⟨hs.later.wf, hs.regular h.regular, h.typed.later hs.later.ext, fun n hn =>
    (h.nodes n hn).later hs.later.ext⟩

/-- The constraint is over sorts, and its body is supported. -/
structure Groundable (s : Store) (c : Constraint) : Prop where
  typed : c.Typed s
  vars : ∀ v ∈ c.vars, s.IsSort v
  body : s.Supported c.vars c.body

theorem Groundable.later (h : Groundable s c) (hw : s.Wf) (hs : s.Extends s') :
    Groundable s' c where
  typed := by
    have hstays := hs.stays hw (Store.isValid_iff.mpr ⟨_, h.typed.formula⟩)
    exact ⟨hstays.has h.typed.formula, hstays.shape_eq.trans h.typed.shape⟩
  vars v hv := (h.vars v hv).later hs
  body := h.body.later hs

/-- A binding of all variables opens the quantifier. -/
theorem replacement?_opens (hg : Grounded s g) (hvars : ∀ v ∈ vars, s.IsSort v)
    (hb : Fits s g vars b)
    (hlen : b.length = vars.length) {σ : Subst} (h : replacement? g vars b = some σ) :
    s.Opens (· ∈ vars) σ where
  terms {x v} hx := by
    obtain ⟨r, hmem, rfl⟩ := (replacement?_spec h).1 hx
    obtain ⟨n, hn, hxt, hnt⟩ := has_of_replacement? hg.typed hb hmem
    obtain ⟨ty, m, hxt', hty⟩ := hvars x (List.of_mem_zip hmem).1
    rw [Egraph.node, Array.getD_eq_getD_getElem?, hn, Option.getD_some]
    exact ⟨n.ty, m, hxt, hnt, hxt'.unique hxt ▸ hty,
      (hg.nodes n (Array.mem_of_getElem? hn)).supported⟩
  all x hx := by
    obtain ⟨i, hi, rfl⟩ := List.mem_iff_getElem.mp hx
    have hmem : (vars[i], b[i]) ∈ vars.zip b :=
      List.mem_iff_getElem.mpr ⟨i, by rw [List.length_zip]; omega, List.getElem_zip⟩
    exact (replacement?_spec h).2 _ hmem

/-- The new instances are supported. -/
def Round.Supported (s : Store) (r : Round) : Prop := ∀ t ∈ r.formulas, s.Supported [] t

theorem Round.Supported.later (h : r.Supported s) (hs : s.Extends s') : r.Supported s' :=
  fun t ht => (h t ht).later hs

theorem Round.Supported.add (h : r.Supported s) {t : Term} (ht : s.Supported [] t) :
    (r.add t).Supported s := fun u hu => by
  rcases Array.mem_push.mp (show u ∈ r.formulas.push t from hu) with hu | rfl
  · exact h u hu
  · exact ht

theorem instantiate_supported (hg : Grounded s g) (hc : Groundable s c)
    (hbs : ∀ b ∈ bs, Fits s g c.vars b ∧ b.length = c.vars.length) (hr : r.Supported s) :
    (instantiate g c bs r s).1.Supported (instantiate g c bs r s).2 := by
  induction bs generalizing r s with
  | nil => exact hr
  | cons b bs ih =>
    obtain ⟨⟨hb, hlen⟩, hrest⟩ := List.forall_mem_cons.mp hbs
    -- the rest starts from a store that was built upon `s`
    have next {s' : Store} {r' : Round} (hs : Store.Built s s') (hr' : r'.Supported s') :
        (instantiate g c bs r' s').1.Supported (instantiate g c bs r' s').2 :=
      ih (hg.built hs) (hc.later hg.wf hs.later.ext) (fun b hb => ⟨fun hi => by
        obtain ⟨v, hv, n, hn, hty⟩ := (hrest b hb).1 hi
        exact ⟨v, hv, n, hn, hs.later.ext.has hty⟩, (hrest b hb).2⟩) hr'
    unfold instantiate
    split
    · exact hr
    · cases hσ : replacement? g c.vars b with
      | none => exact next (Store.built_frame.refl hg.wf) hr
      | some σ =>
        have hbuilt := Store.builders_built.subst σ c.body s hg.wf
        have hbody := (has_of_all hg.wf hc.typed.shape).2
        have hopened := (replacement?_opens hg hc.vars hb hlen hσ).subst hg.wf hg.regular
          hbody hc.body
        simp only
        split
        next e s' heq =>
          rw [heq] at hbuilt
          exact next hbuilt (hr.later hbuilt.later.ext)
        next t s' heq =>
          have hr' := hr.later (hopened.leads.of_ok heq).1.ext
          rw [heq] at hbuilt
          split
          · exact next hbuilt hr'
          · exact next hbuilt (hr'.add (hopened.leads.of_ok heq).2.2.1)

theorem instantiateAll_supported (hg : Grounded s g) (cs : List Constraint)
    (hcs : ∀ c ∈ cs, Groundable s c) (hr : r.Supported s) (hi : r.solver.Indexed) :
    (instantiateAll g cs r s).1.Supported (instantiateAll g cs r s).2 := by
  induction cs generalizing r s with
  | nil => exact hr
  | cons c cs ih =>
    obtain ⟨hc, hrest⟩ := List.forall_mem_cons.mp hcs
    unfold instantiateAll
    split
    · exact hr
    · split
      · exact ih hg hrest hr hi
      · obtain ⟨hs, hgrows⟩ := instantiate_grows g c (r.solver.bindings g s c) r hi hg.wf
        have hbs : ∀ b ∈ r.solver.bindings g s c, Fits s g c.vars b ∧ b.length = c.vars.length :=
            fun b hb =>
          ⟨matchAll_fits hg.wf hg.typed _ b hb, length_of_matchAll hg.wf hg.typed _ b hb⟩
        exact ih (hg.built hs) (fun d hd => (hrest d hd).later hg.wf hs.later.ext)
          (instantiate_supported hg hc hbs hr)
          hgrows.indexed

/-- What a look at a complete assignment adds is supported. -/
theorem finalCheck_supported (hg : Grounded s g) (hq : ∀ c ∈ q.constraints, Groundable s c)
    (hi : q.Indexed) :
    ∀ t ∈ (q.finalCheck (some g) s).1.2.1, (q.finalCheck (some g) s).2.Supported [] t := by
  unfold finalCheck
  dsimp only
  split
  · exact nofun
  · have hround : Round.Supported s ⟨q, #[]⟩ := nofun
    exact fun t ht => instantiateAll_supported hg q.constraints.toList
      (fun c hc => hq c (Array.mem_toList_iff.mp hc))
      hround hi t (Array.mem_toList_iff.mp ht)

end Solver
end Entail.Quant
