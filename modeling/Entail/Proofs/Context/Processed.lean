import Entail.Proofs.Context.Definable
import Entail.Proofs.Quant.Instances

/-!
# Formulas that may be asserted are processed

Once a formula may be asserted, processing it is refused for one cause only, the degree of a
product that a substitution rebuilds. Each split uses up one level of the nesting, and each
definition brings in no more than there was in the beginning, so the depth that processing starts
with is enough.
-/

namespace Entail

namespace Quant.Solver

/-- A new constraint has the variables and the body of its formula. -/
theorem parts_addConstraint {q q' : Solver} {s : Store} {formula : Term} {explicit : List Term}
    (h : q.addConstraint s formula explicit = .ok q') :
    ∀ c ∈ q'.constraints, c ∈ q.constraints ∨ s.shape formula = .all c.vars c.body := by
  unfold addConstraint at h
  split at h
  next vars body hshape =>
    obtain ⟨terms, -, h⟩ := Store.bind_eq_ok_iff.mp h
    cases h
    intro c hc
    rcases Array.mem_push.mp hc with hc | rfl
    · exact .inl hc
    · exact .inr hshape
  · cases h

/-- Without explicit patterns a quantified formula is always registered. -/
theorem addConstraint_nil (q : Solver) {s : Store} {formula body : Term} {vars : List Term}
    (h : s.shape formula = .all vars body) : ∃ q', q.addConstraint s formula [] = .ok q' := by
  unfold addConstraint
  rw [h]
  exact ⟨_, rfl⟩

end Quant.Solver

namespace Work

open Workspace Context

variable {α β : Type} {w : Workspace} {t x v r body : Term} {args vars : List Term}
  {n k U depth : Nat}
  {σ : Subst} {op : Work α} {Q Q' : α → Workspace → Prop}

/-- The operation is refused for the degree of a product only, and the workspace stays prepared. -/
abbrev Processes (n : Nat) (w : Workspace) (op : Work α) (Q : α → Workspace → Prop) : Prop :=
  Fares Failure.TooLarge (Proceeds n) w op Q

theorem processes_look_bind {f : Store → Context → β} {g : β → Work α}
    (h : Processes n w (g (f w.store w.ctx)) Q) :
    Processes n w (look f >>= g) Q := ⟨h.leads, h.cause⟩

section

variable (hw : w.Prepared n)

include hw

theorem processes_bind {x : Work β} {f : β → Work α} {T : β → Workspace → Prop}
    (h : Processes n w x T)
    (hf : ∀ b w', w'.Prepared n → Proceeds n w w' → T b w' → Processes n w' (f b) Q) :
    Processes n w (x >>= f) Q :=
  .bind proceeds_frame hw h hf

theorem processes_pure {a : α} (ha : Q a w) : Processes n w (pure a : Work α) Q :=
  .pure proceeds_frame hw ha

/-- An operation that leaves the definitions alone, as the two walks through it say. -/
theorem processes_of {E : Failure → Prop} (hE : ∀ e, E e → e.TooLarge)
    (h : Fares E (Sustains True) w op Q)
    (h' : Leads (Grows True) w op Q') : Processes n w op fun a w' => Q a w' ∧ Q' a w' :=
  ((h.both h').reframe fun _ hr => hw.proceeds hr.1 hr.2).mono hE fun _ _ _ ha => ha

theorem processes_serves (h : Serves True w op Q) (h' : Leads (Grows True) w op Q') :
    Processes n w op fun a w' => Q a w' ∧ Q' a w' := processes_of hw (fun _ => False.elim) h h'

/-! ## Constraints and clauses -/

theorem processes_clause : Processes n w (clause []) fun _ _ => True :=
  (processes_serves hw (free_clause [] w hw.supported) (grows_clause hw.tidy (knowsAll_nil w))).imp
    fun _ _ _ _ => trivial

/-- Registering a supported quantifier is refused for its patterns only. -/
theorem fares_addConstraint (patterns : List Term) (hshape : w.store.shape t = .all vars body)
    (hvars : ∀ v ∈ vars, w.store.IsSort v) (hbody : w.store.Supported vars body) :
    Fares (fun e => w.ctx.solver.addConstraint w.store t patterns = .error e) (Sustains True) w
      (addConstraint t patterns) fun _ _ => True := by
  refine fares_look_bind ?_
  simp only [hw.tidy.ok.ctx.registry.quant?]
  cases hadd : w.ctx.solver.addConstraint w.store t patterns with
  | error e =>
    have hcheck : check (fun s _ => w.ctx.solver.addConstraint s t patterns) w = .error e w := by
      simp [check, hadd]
    refine ⟨?_, fun he => ?_⟩
    · unfold Leads Ends
      rw [bind_of_error hcheck]
      exact sustains_frame.refl hw.supported
    · rw [bind_of_error hcheck] at he
      cases he
      rfl
  | ok q =>
    have hcheck : check (fun s _ => w.ctx.solver.addConstraint s t patterns) w = .ok q w := by
      simp [check, hadd]
    have hsolver : (w.ctx.registry.setQuant q).solver = q :=
      (hw.tidy.ok.ctx.registry.setQuant q).solver
    have hsupports : Supports w.store { w.ctx with registry := w.ctx.registry.setQuant q } := by
      refine ⟨hw.ctx.values, hw.ctx.nodes, fun c hc => ?_⟩
      change c ∈ (w.ctx.registry.setQuant q).solver.constraints at hc
      rw [hsolver] at hc
      rcases Quant.Solver.parts_addConstraint hadd c hc with hc | hc
      · exact hw.ctx.constraints c hc
      · cases hshape.symm.trans hc
        exact ⟨hvars, hbody⟩
    refine ⟨?_, fun he => ?_⟩
    · unfold Leads Ends
      rw [bind_of_ok hcheck]
      exact ⟨⟨Store.later_frame.refl hw.tidy.ok.store, hsupports, rfl, fun _ => rfl⟩, trivial⟩
    · rw [bind_of_ok hcheck] at he
      cases he

/-- A supported quantifier is always registered. -/
theorem processes_addConstraint (hclean : w.Clean t) (hshape : w.store.shape t = .all vars body)
    (hvars : ∀ v ∈ vars, w.store.IsSort v) (hbody : w.store.Supported vars body) :
    Processes n w (addConstraint t []) fun _ _ => True := by
  obtain ⟨q, hq⟩ := w.ctx.solver.addConstraint_nil hshape
  have hfree : Serves True w (addConstraint t []) fun _ _ => True := by
    refine (fares_addConstraint hw [] hshape hvars hbody).mono (fun e he => ?_) fun _ _ _ => id
    rw [hq] at he
    cases he
  exact (processes_serves hw hfree (grows_addConstraint hw.tidy [] hclean)).imp fun _ _ _ _ =>
    trivial

/-! ## Substitution of definitions -/

/-- What the definitions carry over: whole formulas in play. -/
def passage (n U : Nat) (w : Workspace) : Store.Passage where
  vars := Eq
  whole := True
  flatten := w.ctx.isOn .flatten
  weight := MayStand n U w

omit hw in
/-- Nothing that is eliminated occurs in a definition. -/
theorem not_below_value (hw : w.Tidy) {y : Term} (hx : w.ctx.subst[x]? = some v) {u : Term}
    (hy : w.ctx.subst[y]? = some u) : ¬ w.store.Below u x := fun hbelow => by
  have hpos := (hw.gone.datum ⟨v, hx⟩).positive
  exact (hw.gone.values y u hy x hbelow).2 ⟨v, (Term.positive_of_not_isNegated hpos).symm ▸ hx⟩

/-- The definitions carry formulas in play over. -/
theorem carries_subst (hU : w.ctx.defDepth n ≤ U) :
    w.store.Carries (passage n U w) w.store w.ctx.subst where
  assigns := hw.tidy.typed.subst
  carried {x v} hx _ := by
    have hv := hw.ctx.values hx
    refine ⟨fun _ _ => hv.closed, fun _ flip _ => .body (hv.negIf flip), fun {d} hd => ?_⟩
    obtain ⟨ty, hxty, hvty⟩ := hw.tidy.typed.subst hx
    by_cases hbool : ty = .bool
    · subst hbool
      obtain ⟨tx, m, tx', hn⟩ := Store.node_of_isUninterpreted (hw.tidy.gone.datum ⟨v, hx⟩).const
      have htx : tx' = .bool := congrArg Prod.snd (Option.some.inj (hn.symm.trans hxty.node))
      subst htx
      have hstands := hd.symbol hn
      rw [Term.positive_of_not_isNegated (hw.tidy.gone.datum ⟨v, hx⟩).positive] at hstands
      obtain ⟨-, ⟨y, u, hy, hu⟩ | hle⟩ := hstands
      · exact absurd hu (not_below_value hw.tidy hx hy)
      · obtain ⟨j, rfl⟩ := Nat.exists_eq_add_of_le (Nat.le_trans hU hle)
        exact (hw.tame hx).within.mono fun y i hy => ⟨hy.1, .inl ⟨x, v, hx, hy.2⟩⟩
    · exact .other hvty.node hbool
  free h hv _ := h ▸ hv
  grows := MayStand.grow
  closed _ _ := rfl
  constants _ {x v} hx := by
    have hconst := (hw.tidy.gone.datum ⟨v, hx⟩).const
    cases hshape : w.store.shape x with
    | uninterpreted => rfl
    | _ => simp [hshape, Term.Shape.isUninterpreted] at hconst

/-- A formula that may be asserted still may after the definitions were put in. -/
theorem processes_subst (ht : w.store.Has t .bool)
    (hass : w.store.Assertable (w.ctx.isOn .flatten) t)
    (hplay : InPlay n k w t) : Processes n w (onStore (Store.subst w.ctx.subst t)) fun r w' =>
      w'.store.Has r .bool ∧ w'.Clean r ∧ w'.store.Assertable (w'.ctx.isOn .flatten) r ∧
      InPlay n k w' r ∧
        (w.store.Supported [] t → w'.store.Supported [] r) := by
  have hpasses {U : Nat} : w.store.Passes (passage n U w) t := .whole false trivial hass
  have : Nonempty { U // w.ctx.defDepth n ≤ U } := ⟨⟨_, Nat.le_refl _⟩⟩
  have hturned := Fares.forall_ fun U : { U // w.ctx.defDepth n ≤ U } =>
    Store.subst_turns hw.tidy.ok.store hw.regular (carries_subst hw U.2) ht
  refine (processes_of hw (fun _ h => h) (fares_onStore hw.supported (fun _ h => h.failure) hturned)
    (grows_subst hw.tidy ht)).imp fun r w' hp h => ?_
  obtain ⟨⟨hctx, hall⟩, hr, hclean⟩ := h
  refine ⟨hr, hclean, ?_, fun U hU => ?_,
    fun hst => ((hall ⟨_, Nat.le_refl _⟩).carried (.body rfl hst)).supported rfl hst⟩
  · have hcarried := (hall ⟨_, Nat.le_refl _⟩).carried hpasses
    have hflatten : w'.ctx.isOn .flatten = w.ctx.isOn .flatten := by rw [hctx]
    rw [hflatten]
    exact hcarried.assertable trivial false hass
  · replace hU : w.ctx.defDepth n ≤ U := Nat.le_trans (defDepth_mono hp.defs) hU
    obtain ⟨d, hd, hshallow⟩ := hplay U hU
    exact ⟨d, hd, (((hall ⟨U, hU⟩).carried hpasses).shallow hshallow).weaken fun x i hx =>
      hx.later hp⟩

end

/-! ## New constants -/

/-- A new constant is put for each variable. -/
theorem searches_constants (hw : w.store.Wf ∧ w.store.Regular) {D : Term → Prop}
    (hσ : w.store.Opens D σ) (hvars : ∀ v ∈ vars, w.store.IsSort v) :
    Searches w (vars.foldlM (fun (σ : Subst) v => do
      let ty ← look fun s _ => s.ty v
      return σ.insert v (← onStore (Store.newConst ty))) σ) fun σ w' =>
        w'.store.Opens (fun x => D x ∨ x ∈ vars) σ := by
  induction vars generalizing w σ D with
  | nil => exact searches_pure hw (hσ.mono fun x hx => hx.resolve_right List.not_mem_nil)
  | cons v vars ih =>
    obtain ⟨⟨ty, m, hv, hty⟩, hvars⟩ := List.forall_mem_cons.mp hvars
    rw [List.foldlM_cons]
    have hnew : Fares (fun _ => False) Store.Later w.store (Store.newConst ty) fun c s =>
        s.Has c ty ∧ s.Supported [] c :=
      .of_granted ((Store.newConst_builds hw.1 ty).mono fun c s _ h => by
        obtain ⟨-, hneg, hn, -⟩ := h
        exact ⟨has_of_node hneg hn, .plain hn rfl nofun⟩) (Store.granted_newConst ⟨_, hty⟩)
    have hmoves := (Store.Orderly.newConst ty).built (Store.newConst_moves ty)
    have hstep : Searches w (do
        let ty ← look fun s _ => s.ty v
        return σ.insert v (← onStore (Store.newConst ty))) fun σ w' => w'.store.Opens (fun x =>
          D x ∨ x = v) σ := by
      refine searches_look_bind ?_
      rw [hv.ty_eq]
      refine searches_bind hw (searches_onStore hw hmoves hnew) fun c w₁ hw₁ h₁ hc =>
        searches_pure hw₁ ?_
      exact (hσ.later h₁.ext).insert (h₁.ext.has hv) (h₁.ext.ty hty) hc.1 hc.2
    refine searches_bind hw hstep fun σ w₁ hw₁ h₁ hσ₁ => ?_
    refine (ih hw₁ hσ₁ fun u hu => (hvars u hu).later h₁.ext).imp fun σ' w' _ hσ' =>
      hσ'.mono fun x hx => ?_
    rwa [or_assoc, ← List.mem_cons]

/-- A body without its quantifier is supported, and nested as it was. -/
theorem fares_skolemize (hw : w.store.Wf ∧ w.store.Regular) (hvars : ∀ v ∈ vars, w.store.IsSort v)
    (hbody : w.store.Has body .bool) (hs : w.store.Supported vars body) :
    Fares Failure.TooLarge Builds w (skolemize vars body) fun r w' => w'.store.Supported [] r ∧
      ∀ W : { W : Term → Nat → Prop // ∀ x d, W x d → W x (d + 1) }, ∀ d,
      w.store.Shallow W.1 d body →
        w'.store.Shallow W.1 d r := by
  refine .bind builds_frame hw ((searches_constants hw (.empty _) hvars).mono (fun _ => False.elim)
    fun _ _ _ h => h)
    fun σ w₁ hw₁ h₁ hσ => ?_
  have hopened := (hσ.mono fun x hx => .inr hx).subst hw₁.1 hw₁.2 (h₁.ext.has hbody)
    (hs.later h₁.ext)
  refine (builds_onStore hw₁ (fun _ h => h.failure) (Store.builders_built.subst σ body) hopened).imp
    fun r w' h₂ hr => ⟨hr.2.1, fun W d hd => hr.2.2 W d (hd.later h₁.ext)⟩

theorem processes_skolemize (hw : w.Prepared n) (hvars : ∀ v ∈ vars, w.store.IsSort v)
    (hbody : w.store.Has body .bool)
    (hs : w.store.Supported vars body) (hplay : InPlay n k w body) :
    Processes n w (skolemize vars body) fun r w' => w'.store.Has r .bool ∧ w'.store.Supported [] r ∧
    InPlay n k w' r := by
  have hfares := fares_skolemize ⟨hw.tidy.ok.store, hw.regular⟩ hvars hbody hs
  have hgrows : Leads (Grows True) w (skolemize vars body) fun t w' => w'.store.Has t .bool :=
    grows_skolemize hw.tidy (fun v hv => (hvars v hv).imp fun _ ⟨_, h, _⟩ => h) hbody
  refine (processes_of hw (fun _ h => h)
    (hfares.reframe fun _ h => h.sustains hw.supported) hgrows).imp
    fun r w' hp h => ?_
  obtain ⟨⟨hsr, hshallow⟩, hr⟩ := h
  refine ⟨hr, hsr, fun U hU => ?_⟩
  obtain ⟨d, hd, hbody⟩ := hplay U (Nat.le_trans (defDepth_mono hp.defs) hU)
  exact ⟨d, hd, (hshallow ⟨MayStand n U w, fun _ _ => MayStand.grow⟩ d hbody).weaken fun x i hx =>
    hx.later hp⟩

/-! ## Definitions and clauses -/

section

variable (hw : w.Prepared n)

include hw

theorem processes_definition? (ht : w.store.Has t .bool) (hclean : w.Clean t)
    (hst : w.store.Supported [] t) :
    Processes n w (definition? t) fun d w' => Draws t d w' ∧ (Defines d w' ∧ w'.Clean t) ∧
    Usable w'.store w'.ctx d := by
  have hfind := searches_definition? ⟨hw.tidy.ok.store, hw.regular⟩ ht hst
  have hdef : Leads (Grows True) w (definition? t) fun d w' => Defines d w' ∧ w'.Clean t :=
    (grows_definition? hw.tidy ht hclean).mono fun d w' hr hd => ⟨hd, hr.clean hclean⟩
  have huse : Leads (Grows True) w (definition? t) fun d w' => Usable w'.store w'.ctx d :=
    .of_moves hdef.moves ((finds_definition? t w hw.tidy.ok.store (.refl _)).mono
      (fun d w' h => h.1.2.symm ▸ h.2)
      fun _ _ => trivial)
  exact processes_serves hw (hfind.reframe fun _ h => h.sustains hw.supported) (hdef.and huse)

/-- A definition that was found in a formula in play is not too deep. -/
theorem proceeds_eliminate (hplay : InPlay n k w t) (hdraws : Draws t (some (x, v)) w)
    (hdef : Defines (some (x, v)) w) (huse : Usable w.store w.ctx (some (x, v))) :
    Proceeds n w ⟨w.store,
      { w.ctx with subst := w.ctx.subst.insert x v, substLog := w.ctx.substLog.push x }⟩ := by
  obtain ⟨hnew, hconst, ty, hx, hv⟩ := huse x v rfl
  obtain ⟨hsv, hpart⟩ := hdraws x v rfl
  have hpos := (hdef x v rfl).1.datum.positive
  have hkeep {y u : Term} (hy : w.ctx.subst[y]? = some u) :
      (w.ctx.subst.insert x v)[y]? = some u := by
    rw [Std.HashMap.getElem?_insert, if_neg, hy]
    intro heq
    rw [← eq_of_beq heq, hnew] at hy
    cases hy
  refine ⟨grows_eliminate hw.tidy huse hdef, ⟨fun {y u} hy => ?_, hw.ctx.nodes, hw.ctx.constraints⟩,
    rfl, hkeep,
    fun {y u} hy => ?_⟩
  · change (w.ctx.subst.insert x v)[y]? = some u at hy
    rw [Std.HashMap.getElem?_insert] at hy
    split at hy
    · cases hy
      exact hsv
    · exact hw.ctx.values hy
  · change (w.ctx.subst.insert x v)[y]? = some u at hy
    rw [Std.HashMap.getElem?_insert] at hy
    split at hy
    · cases hy
      by_cases hbool : ty = .bool
      · subst hbool
        obtain ⟨d, hd, hshallow⟩ := hplay _ (Nat.le_refl _)
        obtain ⟨i, rfl, hxi, hvi⟩ := hpart hx hshallow
        obtain ⟨tx, m, tx', hn⟩ := Store.node_of_isUninterpreted hconst
        have htx : tx' = .bool := congrArg Prod.snd (Option.some.inj (hn.symm.trans hx.node))
        subst htx
        have hlt := (hxi.symbol hn).1
        rw [Term.positive_of_not_isNegated hpos] at hlt
        have hle : i ≤ Context.defDepth n { w.ctx with subst := w.ctx.subst.insert x v } :=
          Nat.le_trans (by omega) (defDepth_insert (v := v) hpos hnew hlt)
        obtain ⟨j, hj⟩ := Nat.exists_eq_add_of_le hle
        exact hj ▸ hvi.mono fun _ _ h => h.1
      · exact .other hv.node hbool
    · have hle : w.ctx.defDepth n ≤ Context.defDepth n
          { w.ctx with subst := w.ctx.subst.insert x v } :=
        defDepth_mono hkeep
      obtain ⟨j, hj⟩ := Nat.exists_eq_add_of_le hle
      exact hj ▸ (hw.tame hy).mono fun _ _ => id

omit hw in
/-- Taking disjunctions apart leaves their parts supported. -/
theorem supported_disjuncts {s : Store} (depth : Nat) (hargs : ∀ a ∈ args, s.Supported vars a) :
    ∀ a ∈ disjuncts s depth args, s.Supported vars a :=
  forall_disjuncts (fun hshape ha _ hc => ha.part (Store.node_of_shape hshape nofun).choose_spec
    nofun hc) depth hargs

omit hw in
/-- A supported formula is encoded. -/
theorem serves_assertEncoded (hw : w.Supported) (ht : w.store.Has t .bool)
    (hst : w.store.Supported [] t) :
    Serves True w (assertEncoded t) fun _ _ => True := by
  have hn := ht.node
  refine fares_look_bind (fares_look_bind ?_)
  split
  next args _ hshape =>
    rw [hshape] at hn
    obtain ⟨-, hargs⟩ := hw.store.typed hn
    have hhas := has_disjuncts hw.store (w.store.terms.slots.size + 1) hargs
    have hsupp := supported_disjuncts (w.store.terms.slots.size + 1) fun a ha =>
      hst.part hn nofun (c := a) ha
    refine fares_look_bind ?_
    have hlits : Serves True w ((disjuncts w.store (w.store.terms.slots.size + 1) args).mapM
        literalOf) fun _ _ => True :=
      (Fares.mapM (T := fun _ _ => True) sustains_frame hw (fun _ => id) fun l hl w' hw' hs =>
        serves_literalOf hw' (hs.has (hhas l hl)) (hs.supported (hsupp l hl))).imp
          fun _ _ _ _ => trivial
    exact fares_bind hw hlits fun lits w' hw' _ _ => free_clause lits w' hw'
  · exact fares_bind hw (serves_literalOf hw ht hst) fun l w' hw' _ _ => free_clause [l] w' hw'

end

/-! ## Whole formulas -/

/-- What is neither a conjunction that is taken apart nor a quantifier is supported itself. -/
theorem supported_of_assertable {s : Store} {flatten : Bool} (h : s.Assertable flatten t)
    (hall : ∀ vars body, s.shape t ≠ .all vars body)
    (hconj : t.isNegated = true → flatten = true → ∀ args, s.shape t ≠ .or args) :
    s.Supported [] t := by
  cases h with
  | body h => exact h
  | all hn => exact absurd (Store.shape_of_node hn) (hall _ _)
  | conj hflatten hneg hn => exact absurd (Store.shape_of_node hn) (hconj hneg hflatten _)

/-- At a depth that is left of the square of the slots, a formula in play is processed. -/
theorem processes_processAt (hw : w.Prepared n) (hdepth : (n + 2) * (n + 2) ≤ depth + k)
    (ht : w.store.Has t .bool)
    (hass : w.store.Assertable (w.ctx.isOn .flatten) t) (hplay : InPlay n k w t) :
    Processes n w (processAt depth t) fun _ _ => True := by
  -- by induction on the depth that is left: each split costs one, and a formula in play is nested
  -- no deeper than the definitions allow
  induction depth generalizing w t k with
  | zero =>
    have hle := hplay.splits_le
    nlinarith
  | succ depth ih =>
    refine processes_look_bind ?_
    refine processes_bind hw (processes_subst hw ht hass hplay) fun t w hw _ h => ?_
    obtain ⟨ht, hclean, hass, hplay, -⟩ := h
    have hn := ht.node
    split
    · exact processes_pure hw trivial
    · split
      · exact processes_bind hw (processes_clause hw) fun _ _ hw' _ _ => processes_pure hw' trivial
      · refine processes_look_bind (processes_look_bind ?_)
        split
        next args hneg hflatten hshape =>
          rw [hshape] at hn
          obtain ⟨-, hargs⟩ := hw.tidy.ok.store.typed hn
          refine Fares.forM proceeds_frame hw fun a ha w' hw' hp =>
            ih hw' (k := k + 1) (by omega) (hp.has (hargs a ha).neg) ?_ ?_
          · have hsame : w'.ctx.isOn .flatten = w.ctx.isOn .flatten := by
              simp only [Context.isOn, hp.options]
            rw [hsame]
            exact (hass.conjunct hn ha).later hp.store.ext
          · exact ((hplay.part hn (.inl rfl) ha).later hp).neg
        next vars body hneg hshape =>
          rw [hshape] at hn
          obtain ⟨hvars, hbody⟩ := hass.quantifier hn
          exact processes_addConstraint hw hclean hshape hvars hbody
        next vars body hneg hshape =>
          rw [hshape] at hn
          obtain ⟨hvars, hsb⟩ := hass.quantifier hn
          obtain ⟨-, -, -, hbody⟩ := hw.tidy.ok.store.typed hn
          have hmem : body ∈ (Term.Shape.all vars body).children := by simp [Term.Shape.children]
          refine processes_bind hw (processes_skolemize hw hvars hbody hsb
            (hplay.part hn (.inr rfl) hmem))
            fun body w' hw' hp h => ?_
          obtain ⟨hbody, hsb, hplay⟩ := h
          exact ih hw' (by omega) hbody.neg (.body hsb.neg) hplay.neg
        next hpos hneg hconj =>
          have hst : w.store.Supported [] t := by
            refine supported_of_assertable hass
              (fun vars body hshape => ?_) fun hflip hflatten args hshape => ?_
            · cases hflip : t.isNegated with
              | false => exact hpos vars body hflip hshape
              | true => exact hneg vars body hflip hshape
            · exact hconj args hflip hflatten hshape
          refine processes_bind hw (processes_definition? hw ht hclean hst) fun d w' hw' hp h => ?_
          obtain ⟨hdraws, ⟨hdef, hclean⟩, huse⟩ := h
          cases d with
          | some d => exact fares_change (proceeds_eliminate hw' (hplay.later hp) hdraws hdef huse)
          | none =>
            exact (processes_serves hw' (serves_assertEncoded hw'.supported (hp.has ht)
              (hst.later hp.store.ext))
              (grows_assertEncoded hw'.tidy (hp.has ht) hclean)).imp fun _ _ _ _ => trivial

/-- A formula that may be asserted is processed, or refused for the degree of a product. -/
theorem processes_process (htidy : w.Tidy) (hctx : w.ctx.Supports w.store) (hreg : w.store.Regular)
    (ht : w.store.Has t .bool) (hass : w.store.Assertable (w.ctx.isOn .flatten) t) :
    Processes w.store.terms.slots.size w (process t) fun _ _ => True := by
  have hw : w.Prepared w.store.terms.slots.size :=
    ⟨htidy, hctx, hreg, tame_of_supports htidy.ok.store htidy.typed hctx⟩
  exact processes_look_bind (processes_processAt hw (Nat.le_refl _) ht hass
    (inPlay_of_assertable htidy.ok.store ht hass))

end Work
end Entail
