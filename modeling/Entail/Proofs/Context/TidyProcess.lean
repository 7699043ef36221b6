import Entail.Proofs.Context.TidyEncode

/-!
# Processing keeps a context tidy

A formula is processed after the definitions were put in, so it contains no eliminated constant. A
constant that is eliminated by it occurs in nothing that was kept before, and not in its definition:
the summands that are solved for occur in themselves only, and what remains of the equation is put
together from the others.
-/

namespace Entail

namespace Store

variable {s : Store} {X : Term → Prop} {t : Term} {ty : Ty}

/-- A live term avoids what there is not. -/
theorem avoids_of_has (hw : s.Wf) (ht : s.Has t ty) (hX : ∀ x, ¬ X x) : s.Avoids X t :=
  (avoids_iff hw ⟨_, ht.node⟩ fun x hx => absurd hx (hX x)).mpr fun x hx => absurd hx (hX x)

end Store

namespace Work

open Workspace Context

variable {α β : Type} {fixed : Prop} {w : Workspace} {t x y v r : Term}
  {args before after : List Term} {ty : Ty}

/-! ## Constraints -/

theorem grows_check_bind (hw : w.Tidy) {f : Store → Context → Except Failure β} {g : β → Work α}
    {Q : α → Workspace → Prop} (h : ∀ b, f w.store w.ctx = .ok b → Leads (Grows fixed) w (g b) Q) :
    Leads (Grows fixed) w (check f >>= g) Q := by
  cases hf : f w.store w.ctx with
  | ok b =>
    unfold Leads Ends
    rw [bind_of_ok (show check f w = .ok b w by simp [check, hf])]
    exact h b hf
  | error e =>
    unfold Leads Ends
    rw [bind_of_error (show check f w = .error e w by simp [check, hf])]
    exact grows_frame.refl hw

/-- A formula without eliminated constants is registered. -/
theorem grows_addConstraint (hw : w.Tidy) (patterns : List Term) (hclean : w.Clean t) :
    Leads (Grows fixed) w (addConstraint t patterns) fun _ _ => True := by
  refine grows_look_bind ?_
  simp only [hw.ok.ctx.registry.quant?]
  refine grows_check_bind hw fun q hadd => ?_
  have hsolver : (w.ctx.registry.setQuant q).solver = q := (hw.ok.ctx.registry.setQuant q).solver
  have hgone : Eliminates w.store { w.ctx with registry := w.ctx.registry.setQuant q } := by
    refine hw.gone.of_ctx id .inl fun c hc => ?_
    change c ∈ (w.ctx.registry.setQuant q).solver.constraints at hc
    rw [hsolver] at hc
    exact (Quant.Solver.formula_addConstraint hadd c hc).imp id fun heq => by rw [heq]; exact hclean
  have hstep : TypedStep True w ⟨w.store,
      { w.ctx with registry := w.ctx.registry.setQuant q }⟩ := by
    refine hw.since.step (step_setQuant hw.ok
      (Quant.Solver.addConstraint_grows hw.ok.ctx.tables hadd)) fun ht => ?_
    have hq := ht.solver.addConstraint hw.ok.store hadd
    rw [← hsolver] at hq
    exact { ht with solver := hq }
  exact ⟨hw.grows hstep { hw.refers with } hgone rfl id (fun _ => rfl)
    (.of_same (fun _ => rfl) rfl rfl), trivial⟩

/-! ## Definitions -/

/-- The definition is of a constant to which nothing refers, by a term without it and without
eliminated constants. -/
def Defines (d : Option (Term × Term)) (w : Workspace) : Prop :=
  ∀ x v, d = some (x, v) → w.ctx.Removable w.store x ∧
    w.store.Avoids (fun y => w.ctx.Eliminated y ∨ y = x) v

/-- Taking disjunctions apart brings nothing in. -/
theorem avoids_disjuncts {s : Store} {X : Term → Prop} (depth : Nat)
    (hargs : ∀ a ∈ args, s.Avoids X a) :
    ∀ a ∈ disjuncts s depth args, s.Avoids X a :=
  forall_disjuncts (fun hshape ha c hc => ha.part (by simpa [hshape, Term.Shape.children] using hc))
    depth hargs

/-- Summands other than one that occurs in a single summand avoid it. -/
theorem avoids_summands (hw : w.store.Wf) (hx : w.store.Datum x)
    (hargs : args = before ++ x :: after)
    (hlive : ∀ a ∈ args, ∃ ty, w.store.Has a ty) (hcount : args.countP (w.store.occurs x) = 1) :
    ∀ a ∈ before ++ after, w.store.Avoids (· = x) a := by
  intro a ha
  have hself : w.store.occurs x x = true := by
    obtain ⟨ty, n, ty', hn⟩ := Store.node_of_isUninterpreted hx.const
    exact (Store.occurs_iff hw ⟨_, hn⟩).mpr .refl
  have hnone : (before ++ after).countP (w.store.occurs x) = 0 := by
    rw [hargs, List.countP_append, List.countP_cons, hself] at hcount
    rw [List.countP_append]
    simp only [if_true] at hcount
    omega
  have hmem : a ∈ args := by
    rw [hargs]
    exact (List.mem_append.mp ha).elim (List.mem_append_left _)
      fun ha => List.mem_append_right _ (List.mem_cons_of_mem _ ha)
  refine avoids_of_occurs hw hx (hlive a hmem) ?_
  simpa using List.countP_eq_zero.mp hnone a ha

section

variable (hw : w.Tidy)

include hw

theorem grows_none : Leads (Grows True) w (pure none : Work (Option (Term × Term))) Defines :=
  grows_pure hw fun _ _ h => by cases h

/-- A constant that passes the check does not occur in the term that is put for it. -/
theorem defines_of_canEliminate (h : w.ctx.canEliminate w.store x v = true)
    (hv : ∃ ty, w.store.Has v ty) (hclean : w.Clean v) : Defines (some (x, v)) w := by
  intro y u hd
  cases hd
  obtain ⟨hremovable, hoccurs⟩ := removable_of_canEliminate hw.ok.store hw.ok.ctx hw.typed h
  exact ⟨hremovable, Store.Avoids.or hclean
    (avoids_of_occurs hw.ok.store hremovable.datum hv hoccurs)⟩

theorem grows_firstDefinition {defs : List (Term × Term)}
    (hdefs : ∀ d ∈ defs, (∃ ty, w.store.Has d.2 ty) ∧ w.Clean d.2) :
    Leads (Grows True) w (firstDefinition defs) Defines := by
  refine ⟨grows_frame.refl hw, fun x v hd => ?_⟩
  change List.find? _ defs = some (x, v) at hd
  obtain ⟨hv, hclean⟩ := hdefs (x, v) (List.mem_of_find?_eq_some hd)
  have hcan := List.find?_some hd
  exact defines_of_canEliminate hw hcan hv hclean x v rfl

theorem grows_solveFor (hr : (∃ ty, w.store.Has r ty) ∧ w.Clean r) (hargs : args = before ++ after)
    (hall : ∀ a ∈ args, (∃ ty, w.store.Has a ty) ∧ w.Clean a) :
    Leads (Grows True) w (solveFor args r before after) Defines := by
  -- by induction on the summands that are left to try
  induction after generalizing before with
  | nil => exact grows_none hw
  | cons x after ih =>
    unfold solveFor
    refine grows_look_bind ?_
    split
    next hok =>
      simp only [Bool.and_eq_true, beq_iff_eq, Bool.not_eq_true'] at hok
      obtain ⟨⟨hcount, hnot⟩, hcan⟩ := hok
      obtain ⟨hremovable, -⟩ := removable_of_canEliminate hw.ok.store hw.ok.ctx hw.typed hcan
      have hsummands := avoids_summands hw.ok.store hremovable.datum hargs
        (fun a ha => (hall a ha).1) hcount
      have hrest : ∀ a ∈ before ++ after, w.store.Avoids (fun y => w.ctx.Eliminated y ∨ y = x) a :=
          fun a ha => by
        refine Store.Avoids.or (hall a ?_).2 (hsummands a ha)
        rw [hargs]
        exact (List.mem_append.mp ha).elim (List.mem_append_left _)
          fun ha => List.mem_append_right _ (List.mem_cons_of_mem _ ha)
      have hr' : w.store.Avoids (fun y => w.ctx.Eliminated y ∨ y = x) r :=
        Store.Avoids.or hr.2 (avoids_of_occurs hw.ok.store hremovable.datum hr.1 hnot)
      have hconst {w' : Workspace} (hctx : w'.ctx = w.ctx) (hw' : w'.Tidy)
        (hrem : w'.ctx.Removable w'.store x) :
          w'.store.HasConstants fun y => w.ctx.Eliminated y ∨ y = x := by
        refine hw'.ok.store.hasConstants fun y hy => ?_
        rcases hy with hy | rfl
        · exact (hw'.gone.datum (hctx ▸ hy)).const
        · exact hrem.datum.const
      -- the two steps that build the solution keep the constant removable
      have hbuilds {w' : Workspace} (hctx : w'.ctx = w.ctx) (hw' : w'.Tidy)
        (hrem : w'.ctx.Removable w'.store x)
          {op : Store.Op Term} (hop : Moves Store.Wf Store.Built op)
          (havoids : Store.Avoiding (fun y => w.ctx.Eliminated y ∨ y = x) w'.store op) :
          Leads (Grows True) w' (onStore op) fun t w'' => w''.ctx = w.ctx ∧
            w''.ctx.Removable w''.store x ∧
            w''.store.Avoids (fun y => w.ctx.Eliminated y ∨ y = x) t := by
        have hlater : Moves Store.Wf Store.Later op := hop.mono fun _ _ _ h => h.later
        refine (grows_onStore hw' hop (havoids.builds hw'.ok.store hlater)).mono
          fun t w'' hr hbuilt => ?_
        obtain ⟨hctx', ht⟩ := hbuilt
        refine ⟨hctx'.trans hctx, ?_, ht⟩
        rw [hctx']
        exact hrem.later hw'.typed hw'.ok.ctx hw'.ok.store hr.keeps.store.ext
      refine grows_bind hw (hbuilds rfl hw hremovable (Store.builders_built.bvSum _)
        (Store.bvSum_avoiding (hconst rfl hw hremovable) hrest)) fun rest w₁ hw₁ hr₁ hsum => ?_
      obtain ⟨hctx₁, hrem₁, hrest₁⟩ := hsum
      refine grows_bind hw₁ (hbuilds hctx₁ hw₁ hrem₁ (Store.built_bvSub r rest)
        (Store.bvSub_avoiding (hconst hctx₁ hw₁ hrem₁)
          (hr'.retains hr₁.keeps.store.retains) hrest₁))
        fun v w₂ hw₂ _ hsub => grows_pure hw₂ fun y u hd => ?_
      obtain ⟨hctx₂, hrem₂, hv⟩ := hsub
      cases hd
      refine ⟨hrem₂, ?_⟩
      rw [hctx₂]
      exact hv
    next => exact ih (by rw [hargs, List.append_assoc]; rfl)

theorem grows_solveSum (ht : (∃ ty, w.store.Has t ty) ∧ w.Clean t)
    (hr : (∃ ty, w.store.Has r ty) ∧ w.Clean r) :
    Leads (Grows True) w (solveSum t r) Defines := by
  refine grows_look_bind ?_
  split
  next args hshape =>
    obtain ⟨ty, hty⟩ := ht.1
    have htyped := hw.ok.store.typed hty.node
    rw [hshape] at htyped
    refine grows_solveFor hw hr rfl fun a ha => ⟨⟨ty, htyped.2.1 a ha⟩, ht.2.part ?_⟩
    simpa [hshape, Term.Shape.children] using ha
  · exact grows_none hw

theorem grows_solveEquation (hx : (∃ ty, w.store.Has x ty) ∧ w.Clean x)
    (hy : (∃ ty, w.store.Has y ty) ∧ w.Clean y) :
    Leads (Grows True) w (solveEquation x y) Defines := by
  refine grows_look_bind ?_
  split
  · refine grows_bind hw (grows_solveSum hw hx hy) fun d w' hw' hr hd => ?_
    cases d with
    | some d => exact grows_pure hw' hd
    | none =>
      exact grows_solveSum hw' ⟨hy.1.imp fun _ => hr.has, hr.clean hy.2⟩ ⟨hx.1.imp fun _ => hr.has,
        hr.clean hx.2⟩
  · exact grows_none hw

/-- A formula without eliminated constants defines a constant to which nothing else refers. -/
theorem grows_definition? (ht : w.store.Has t .bool) (hclean : w.Clean t) :
    Leads (Grows True) w (definition? t) Defines := by
  have htyped := hw.ok.store.typed ht.node
  refine grows_look_bind ?_
  split
  next x y hshape =>
    rw [hshape] at htyped
    have hx : w.Clean x := hclean.part (by simp [hshape, Term.Shape.children])
    have hy : w.Clean y := hclean.part (by simp [hshape, Term.Shape.children])
    refine grows_look_bind ?_
    split
    · refine grows_firstDefinition hw fun d hd => ?_
      simp only [List.mem_cons, List.not_mem_nil, or_false] at hd
      rcases hd with rfl | rfl
      · exact ⟨⟨.bool, htyped.2.2.negIf fun _ => rfl⟩, hy.negIf _⟩
      · exact ⟨⟨.bool, htyped.2.1.negIf fun _ => rfl⟩, hx.negIf _⟩
    · exact grows_none hw
  next x y hshape =>
    rw [hshape] at htyped
    obtain ⟨-, ty, -, hxty, hyty⟩ := htyped
    have hx : (∃ ty, w.store.Has x ty) ∧ w.Clean x :=
      ⟨⟨ty, hxty⟩, hclean.part (by simp [hshape, Term.Shape.children])⟩
    have hy : (∃ ty, w.store.Has y ty) ∧ w.Clean y :=
      ⟨⟨ty, hyty⟩, hclean.part (by simp [hshape, Term.Shape.children])⟩
    split
    · exact grows_none hw
    · refine grows_look_bind ?_
      have hdirect : Leads (Grows True) w (firstDefinition [(x, y), (y, x)]) Defines :=
        grows_firstDefinition hw fun d hd => by
          simp only [List.mem_cons, List.not_mem_nil, or_false] at hd
          rcases hd with rfl | rfl
          · exact hy
          · exact hx
      have hrest (d : Option (Term × Term)) (w' : Workspace) (hw' : w'.Tidy) (hr : Grows True w w')
        (hd : Defines d w') :
          Leads (Grows True) w' (if d.isSome = true then pure d else solveEquation x y)
            Defines := by
        split
        · exact grows_pure hw' hd
        · exact grows_solveEquation hw' ⟨hx.1.imp fun _ => hr.has, hr.clean hx.2⟩
            ⟨hy.1.imp fun _ => hr.has, hr.clean hy.2⟩
      split
      · exact grows_bind hw hdirect hrest
      · exact grows_bind hw (grows_none hw) hrest
  · exact grows_none hw

/-- A definition that was found is put for its constant from then on. -/
theorem grows_eliminate (huse : Usable w.store w.ctx (some (x, v)))
    (hdef : Defines (some (x, v)) w) :
    Grows False w ⟨w.store,
      { w.ctx with subst := w.ctx.subst.insert x v, substLog := w.ctx.substLog.push x }⟩ := by
  obtain ⟨hnew, hconst, ty, hx, hv⟩ := huse x v rfl
  obtain ⟨hremovable, havoids⟩ := hdef x v rfl
  have hstep := hw.since.step (step_define hw.ok hnew v) fun ht => ht.define hx hv hconst
  exact hw.grows hstep { hw.refers with } (hw.gone.define hremovable havoids) rfl id False.elim
    (.of_same (fun _ => rfl) rfl rfl)

/-! ## Asserting formulas -/

/-- New constants for the variables of a formula leave it a formula. -/
theorem grows_skolemize {vars : List Term} {body : Term}
    (hvars : ∀ v ∈ vars, ∃ ty, w.store.Has v ty) (hbody : w.store.Has body .bool) :
    Leads (Grows fixed) w (skolemize vars body) fun t w' => w'.store.Has t .bool := by
  have hconstants : Leads (Grows fixed) w (vars.foldlM (fun (σ : Subst) v => do
      let ty ← look fun s _ => s.ty v
      return σ.insert v (← onStore (Store.newConst ty))) ∅) fun σ w' => w'.store.Assigns σ := by
    refine Leads.foldlM grows_frame hw (Store.assigns_empty w.store) fun σ v hv w₁ hw₁ hr₁ hσ => ?_
    obtain ⟨ty, hty⟩ := hvars v hv
    replace hty := hr₁.has hty
    refine grows_look_bind ?_
    rw [hty.ty_eq]
    have hbuilt := (Store.Orderly.newConst ty).built (Store.newConst_moves ty)
    refine grows_bind hw₁ (grows_onStore hw₁ hbuilt (Store.newConst_builds hw₁.ok.store ty))
      fun c w₂ hw₂ hr₂ ⟨_, _, hneg, hnode, _⟩ => grows_pure hw₂ ?_
    exact (hσ.extends_ hr₂.keeps.store.ext).insert (hr₂.has hty) (has_of_node hneg hnode)
  refine grows_bind hw hconstants fun σ w' hw' hr hσ => ?_
  have hyields := Store.subst_yields hw'.ok.store hσ (hr.has hbody)
  exact (grows_onStore hw' (Store.builders_built.subst σ body) hyields.builds).mono fun t w'' _ h =>
    h.2

theorem grows_assertEncoded (ht : w.store.Has t .bool) (hclean : w.Clean t) :
    Leads (Grows True) w (assertEncoded t) fun _ _ => True := by
  have htyped := hw.ok.store.typed ht.node
  refine grows_look_bind (grows_look_bind ?_)
  split
  next args _ hshape =>
    rw [hshape] at htyped
    have hhas := has_disjuncts hw.ok.store (w.store.terms.slots.size + 1) htyped.2
    have havoids := avoids_disjuncts (X := w.ctx.Eliminated) (w.store.terms.slots.size + 1)
      fun a ha => hclean.part (c := a) (by simpa [hshape, Term.Shape.children] using ha)
    refine grows_look_bind ?_
    refine grows_bind hw (Leads.mapM (T := Knows) grows_frame hw (fun hr hl => hr.live hl)
      fun l hl w' hw' hr => ?_)
      fun lits w' hw' _ hlits => grows_clause hw' hlits
    exact grows_literalOf hw' (hr.has (hhas l hl)) (hr.clean (havoids l hl))
  · exact grows_bind hw (grows_literalOf hw ht hclean)
      fun l w' hw' _ hl => grows_clause hw' (List.forall_mem_singleton.mpr hl)

/-- What was put for the eliminated constants of a formula leaves none of them. -/
theorem grows_subst (ht : w.store.Has t .bool) :
    Leads (Grows fixed) w (onStore (Store.subst w.ctx.subst t)) fun r w' => w'.store.Has r .bool ∧
    w'.Clean r := by
  have hyields := Store.subst_yields hw.ok.store hw.typed.subst ht
  have havoids := Store.subst_avoiding hw.ok.store (hasConstants hw) hw.gone.values
    (Store.avoids_of_has hw.ok.store ht fun x ⟨⟨v, hx⟩, hnone⟩ => by simp [hx] at hnone)
  have hbuilt := Store.builders_built.subst w.ctx.subst t
  refine (grows_onStore hw hbuilt
    (Leads.and hyields.builds (havoids.builds hw.ok.store (hbuilt.mono fun _ _ _ h =>
      h.later)))).mono
      fun r w' _ ⟨hctx, hr, hclean⟩ => ⟨hr, ?_⟩
  unfold Clean
  rw [hctx]
  exact hclean

end

theorem grows_processAt (depth : Nat) (hw : w.Tidy) (ht : w.store.Has t .bool) :
    Leads (Grows False) w (processAt depth t) fun _ _ => True := by
  induction depth generalizing w t with
  | zero => exact grows_throw hw _
  | succ depth ih =>
    refine grows_look_bind ?_
    refine grows_bind hw (grows_subst hw ht) fun t w hw _ ⟨ht, hclean⟩ => ?_
    have htyped := hw.ok.store.typed ht.node
    split
    · exact grows_pure hw trivial
    · split
      · exact grows_bind hw (grows_clause hw nofun) fun _ _ hw' _ _ => grows_pure hw' trivial
      · refine grows_look_bind (grows_look_bind ?_)
        split
        next args _ _ hshape =>
          rw [hshape] at htyped
          exact Leads.forM grows_frame hw fun a ha w' hw' hr => ih hw' (hr.has (htyped.2 a ha).neg)
        · exact grows_addConstraint hw [] hclean
        next vars body _ hshape =>
          rw [hshape] at htyped
          obtain ⟨-, -, hvars, hbody⟩ := htyped
          exact grows_bind hw (grows_skolemize hw (fun v hv => (hvars v hv).has) hbody)
            fun body w' hw' _ hbody => ih hw' hbody.neg
        · have hdef : Leads (Grows False) w (definition? t) fun d w' => Defines d w' ∧ w'.Clean t :=
            ((grows_definition? hw ht hclean).mono fun d w' hr hd => ⟨hd, hr.clean hclean⟩).weaken
              Grows.weaken
          have huse : Leads (Grows False) w (definition? t) fun d w' => Usable w'.store w'.ctx d :=
            .of_moves hdef.moves ((finds_definition? t w hw.ok.store (.refl _)).mono (fun d w' h =>
              h.1.2.symm ▸ h.2)
              fun _ _ => trivial)
          refine grows_bind hw (hdef.and huse) fun d w' hw' hr ⟨⟨hdef, hclean⟩, huse⟩ => ?_
          cases d with
          | some d => exact ⟨grows_eliminate hw' huse hdef, trivial⟩
          | none => exact (grows_assertEncoded hw' (hr.has ht) hclean).weaken Grows.weaken

/-- Whatever is asserted, eliminated constants stay out of everything, and variables
stand for terms. -/
theorem grows_process (hw : w.Tidy) (ht : w.store.Has t .bool) :
    Leads (Grows False) w (process t) fun _ _ => True := grows_look_bind (grows_processAt _ hw ht)

end Work
end Entail
