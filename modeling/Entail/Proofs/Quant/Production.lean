import Entail.Proofs.Quant.Match

/-!
# What a look at a complete assignment produces

A look goes through the constraints and, for each, through the matches of its patterns. Facts about
a stretch of this walk are carried from match to match: what is produced is new and within the
budget, and as long as the budget lasts no match of the stretch has an instance that is missing.
Matches do not depend on the terms that are built on the way.
-/

namespace Entail

/-! ## Matches in a growing store -/

namespace Store

variable {s s' : Store} {t u : Term} {ty : Ty}

/-- A term that stays has the same subterms in both stores. -/
theorem Stays.below_iff (h : Stays s s' t) : s'.Below t u ↔ s.Below t u := by
  have hslots {i : Nat} (hi : Relation.ReflTransGen s'.Child t.index i) :
      Relation.ReflTransGen s.Child t.index i := by
    induction hi with
    | refl => exact .refl
    | @tail i j _ hij ih =>
      obtain ⟨shape, ty, c, hn, hc, hcj⟩ := hij
      obtain ⟨m, hm, hm'⟩ := h.node (u := .ofIndex i) (by simpa [Below] using ih)
      rw [node?, Term.index_ofIndex] at hm hm'
      obtain rfl := Option.some.inj (hn.symm.trans hm')
      exact ih.tail ⟨shape, ty, c, hm, hc, hcj⟩
  exact ⟨fun hu => hslots hu, h.below⟩

theorem isGround_later (hw : s.Wf) (hs : Later s s') (ht : s.Has t ty) :
    s'.isGround t = s.isGround t := by
  have hstays := hs.ext.stays hw (isValid_iff.mpr ⟨ty, ht⟩)
  rw [Bool.eq_iff_iff, isGround_iff hw ht, isGround_iff hs.wf (hs.ext.has ht)]
  refine forall_congr' fun u => imp_congr_ctx hstays.below_iff fun hu => ?_
  obtain ⟨n, hn, hn'⟩ := hstays.node hu
  simp [shape, shape?, hn, hn']

end Store

namespace Quant

variable {s s' s'' : Store} {g : Egraph} {vars : List Term} {t p : Term}

/-- Matching a live pattern comes to the same in a store that has grown, for any bound that covers
its nesting. -/
theorem match_later (hw : s.Wf) (hs : Store.Later s s') {rank : Nat → Nat}
    (hrank : ∀ {i shape ty}, s.terms.get? i = some (shape, ty) → ∀ c ∈ shape.children,
      rank c.index < rank i)
    (d d' : Nat) :
    (∀ t n bs, (∃ ty, s.Has t ty) → 2 * rank t.index + 1 ≤ d → 2 * rank t.index + 1 ≤ d' →
      matchNode g s' vars d' t n bs = matchNode g s vars d t n bs) ∧
    ∀ u r bs, (∃ ty, s.Has u ty) → 2 * rank u.index + 2 ≤ d → 2 * rank u.index + 2 ≤ d' →
      matchClass g s' vars d' u r bs = matchClass g s vars d u r bs := by
  induction d generalizing d' with
  | zero => exact ⟨fun _ _ _ _ hd => by omega, fun _ _ _ _ hd => by omega⟩
  | succ d ih =>
    cases d' with
    | zero => exact ⟨fun _ _ _ _ _ hd => by omega, fun _ _ _ _ _ hd => by omega⟩
    | succ d' =>
      obtain ⟨ihnode, ihclass⟩ := ih d'
      refine ⟨fun t n bs ht hd hd' => ?_, fun u r bs hu hd hd' => ?_⟩
      · obtain ⟨ty, ht⟩ := ht
        have hn := ht.node
        unfold matchNode
        rw [Interp.shape_of_has hs.ext ht]
        cases hshape : s.shape t with
        | app f args =>
          rw [hshape] at hn
          dsimp only
          split
          · refine List.foldl_ext _ _ bs fun bs x hx => ?_
            have hmem := List.mem_cons_of_mem f (List.of_mem_zip hx).1
            have hlt : rank x.1.index < rank t.index := hrank hn x.1 hmem
            exact ihclass x.1 _ bs ((hw.typed hn).live hmem) (by omega) (by omega)
          · rfl
        | _ => rfl
      · have hshape : s'.shape u = s.shape u := Interp.shape_of_has hs.ext hu.choose_spec
        have hground : s'.isGround u = s.isGround u := Store.isGround_later hw hs hu.choose_spec
        unfold matchClass
        cases vars.idxOf? u with
        | some i => rfl
        | none =>
          rw [hshape, hground]
          cases s.shape u with
          | app f args =>
            cases s.isGround u with
            | false => exact List.flatMap_congr fun m _ => ihnode u m bs hu (by omega) (by omega)
            | true => rfl
          | _ => rfl

/-- A term that is no application matches nothing. -/
theorem matchPattern_of_not_app (h : ∀ f args, s.shape p ≠ .app f args) (cs : List Nat)
    (bs : List Binding) :
    matchPattern g s vars p cs bs = [] := by
  refine List.flatMap_eq_nil_iff.mpr fun n _ => ?_
  unfold matchNode
  split
  next f args _ hshape => exact absurd hshape (h f args)
  next => rfl

/-- The first slot is never in use. -/
theorem not_app_of_zero (hw : s.Wf) (ht : t.index = 0) (f : Term) (args : List Term) :
    s.shape t ≠ .app f args := by
  have hnone : s.node? t = none := by
    rw [Store.node?, ht]
    exact hw.terms.dead_of_reserved Nat.one_pos
  simp [Store.shape, Store.shape?, hnone]

/-- What patterns match together is the same in a store that has grown. -/
theorem matchAll_later (hw : s.Wf) (hs : Store.Later s s') {ps : List (Term × List Nat)}
    (hps : ∀ p ∈ ps, (∃ ty, s.Has p.1 ty) ∨ p.1.index = 0) :
    matchAll g s' vars ps = matchAll g s vars ps := by
  refine List.foldl_ext _ _ _ fun bs p hp => ?_
  rcases hps p hp with hlive | hzero
  · obtain ⟨rank, hrank, hbound⟩ := hw.bounded
    obtain ⟨ty, hty⟩ := id hlive
    have hlt : rank p.1.index < s.terms.slots.size := hbound hty.node
    have hle := hs.ext.slots
    exact List.flatMap_congr fun n _ =>
      (match_later hw hs hrank _ _).1 p.1 n bs hlive (by omega) (by omega)
  · show matchPattern g s' vars p.1 p.2 bs = matchPattern g s vars p.1 p.2 bs
    rw [matchPattern_of_not_app (not_app_of_zero hw hzero),
      matchPattern_of_not_app (not_app_of_zero hs.wf hzero)]

namespace Solver

variable {q q' q'' : Solver} {c : Constraint} {σ : Subst} {body : Term} {new more : List Term}
  {rd rd' rd'' : Round}
  {P Q : Term → Prop}

/-! ## New instances -/

/-- From `q` to `q'` the instances `new` were produced, in this order. -/
structure Counts (q q' : Solver) (new : List Term) : Prop where
  log : q'.log.toList = q.log.toList ++ new
  instances : ∀ t, t ∈ q'.instances ↔ t ∈ q.instances ∨ t ∈ new
  check : q'.checkInstances = q.checkInstances + new.length
  num : q'.numInstances = q.numInstances + new.length
  scopes : q'.scopes = q.scopes
  bounds : q'.maxInstances = q.maxInstances ∧ q'.maxTotalInstances = q.maxTotalInstances

theorem Counts.refl (q : Solver) : Counts q q [] :=
  ⟨(List.append_nil _).symm, fun _ => by simp, rfl, rfl, rfl, rfl, rfl⟩

theorem Counts.trans (h : Counts q q' new) (h' : Counts q' q'' more) :
    Counts q q'' (new ++ more) where
  log := by rw [h'.log, h.log, List.append_assoc]
  instances t := by rw [h'.instances, h.instances, List.mem_append, or_assoc]
  check := by rw [h'.check, h.check, List.length_append, Nat.add_assoc]
  num := by rw [h'.num, h.num, List.length_append, Nat.add_assoc]
  scopes := h'.scopes.trans h.scopes
  bounds := ⟨h'.bounds.1.trans h.bounds.1, h'.bounds.2.trans h.bounds.2⟩

/-- Constraints may be registered without new instances. -/
theorem counts_addConstraint {formula : Term} {explicit : List Term}
    (h : q.addConstraint s formula explicit = .ok q') :
    Counts q q' [] := by
  unfold addConstraint at h
  split at h
  · obtain ⟨terms, -, h⟩ := Store.bind_eq_ok_iff.mp h
    cases h
    exact ⟨(List.append_nil _).symm, fun _ => by simp, rfl, rfl, rfl, rfl, rfl⟩
  · cases h

/-- The constraints and their patterns are the same, too. -/
structure Gains (q q' : Solver) (new : List Term) : Prop extends Counts q q' new where
  constraints : q'.constraints = q.constraints
  patterns : q'.patterns = q.patterns

namespace Gains

theorem refl (q : Solver) : Gains q q [] := ⟨.refl q, rfl, rfl⟩

theorem trans (h : Gains q q' new) (h' : Gains q' q'' more) : Gains q q'' (new ++ more) :=
  ⟨h.toCounts.trans h'.toCounts, h'.constraints.trans h.constraints, h'.patterns.trans h.patterns⟩

theorem add (r : Round) (t : Term) : Gains r.solver (r.add t).solver [t] where
  log := Array.toList_push
  instances u := by
    show u ∈ r.solver.instances.insert t ↔ _
    rw [Std.HashSet.mem_insert, List.mem_singleton, beq_iff_eq, or_comm, eq_comm (a := t)]
  check := rfl
  num := rfl
  scopes := rfl
  bounds := ⟨rfl, rfl⟩
  constraints := rfl
  patterns := rfl

end Gains

/-- Between the stores `s` and `s'` the body was instantiated, with the result `t`. -/
def Made (s s' : Store) (σ : Subst) (body t : Term) : Prop :=
  ∃ s₁ s₂, Store.Built s s₁ ∧ Store.subst σ body s₁ = .ok t s₂ ∧ Store.Built s₂ s'

/-- Between the stores `s` and `s'` it was tried to instantiate the body; the result is as `P` says,
if there is one. -/
def Tried (s s' : Store) (σ : Subst) (body : Term) (P : Term → Prop) : Prop :=
  ∃ s₁, Store.Built s s₁ ∧ Ends (Store.subst σ body) s₁ (fun t s₂ => P t ∧ Store.Built s₂ s')
    (Store.Built · s')

theorem Made.before (h : Made s' s'' σ body t) (hs : Store.Built s s') : Made s s'' σ body t := by
  obtain ⟨s₁, s₂, h₁, hsubst, h₂⟩ := h
  exact ⟨s₁, s₂, Store.built_frame.trans hs h₁, hsubst, h₂⟩

theorem Made.after (h : Made s s' σ body t) (hs : Store.Built s' s'') : Made s s'' σ body t := by
  obtain ⟨s₁, s₂, h₁, hsubst, h₂⟩ := h
  exact ⟨s₁, s₂, h₁, hsubst, Store.built_frame.trans h₂ hs⟩

theorem Tried.before (h : Tried s' s'' σ body P) (hs : Store.Built s s') :
    Tried s s'' σ body P := by
  obtain ⟨s₁, h₁, hends⟩ := h
  exact ⟨s₁, Store.built_frame.trans hs h₁, hends⟩

theorem Tried.after (h : Tried s s' σ body P) (hs : Store.Built s' s'') (hPQ : ∀ t, P t → Q t) :
    Tried s s'' σ body Q := by
  obtain ⟨s₁, h₁, hends⟩ := h
  refine ⟨s₁, h₁, hends.mono (fun t s₂ ht => ?_) fun s₂ h₂ => Store.built_frame.trans h₂ hs⟩
  exact ⟨hPQ t ht.1, Store.built_frame.trans ht.2 hs⟩

/-! ## Stretches of a look -/

/-- A stretch of a look, over the matches that `todo` names: from round `rd` in the store `s` to
round `rd'` in the store `s'`, producing `new`. -/
structure Stretch (g : Egraph) (todo : Constraint → Binding → Prop) (s s' : Store) (rd rd' : Round)
    (new : List Term) :
    Prop where
  built : Store.Built s s'
  gains : Gains rd.solver rd'.solver new
  formulas : rd'.formulas.toList = rd.formulas.toList ++ new
  nodup : new.Nodup
  fresh : ∀ t ∈ new, t ≠ .top ∧ t ∉ rd.solver.instances
  made : ∀ t ∈ new, ∃ c b σ, todo c b ∧ replacement? g c.vars b = some σ ∧ Made s s' σ c.body t
  /-- Only what is within the budget is produced. -/
  within : new ≠ [] →
    rd'.formulas.size ≤ rd.solver.maxInstances ∧
      rd'.solver.checkInstances ≤ rd.solver.maxTotalInstances
  /-- As long as the budget lasts, no match is left out. -/
  complete : rd'.hasBudget → ∀ c b σ, todo c b → replacement? g c.vars b = some σ →
    Tried s s' σ c.body fun t => t = .top ∨ t ∈ rd'.solver.instances

namespace Stretch

variable {todo todo' : Constraint → Binding → Prop}

theorem hasBudget (h : Stretch g todo s s' rd rd' new) (hb : rd'.hasBudget) : rd.hasBudget := by
  have hsize := congrArg List.length h.formulas
  rw [List.length_append, Array.length_toList, Array.length_toList] at hsize
  have hcheck := h.gains.check
  unfold Round.hasBudget at hb ⊢
  rw [h.gains.bounds.1, h.gains.bounds.2] at hb
  simp only [Bool.and_eq_true, decide_eq_true_eq] at hb ⊢
  omega

/-- Nothing is done when the budget is used up, or when there is nothing to do. -/
theorem stop (hs : s.Wf) (h : rd.hasBudget → ∀ c b, ¬ todo c b) : Stretch g todo s s rd rd [] where
  built := Store.built_frame.refl hs
  gains := .refl _
  formulas := (List.append_nil _).symm
  nodup := List.nodup_nil
  fresh _ ht := absurd ht List.not_mem_nil
  made _ ht := absurd ht List.not_mem_nil
  within h := absurd rfl h
  complete hb c b _ htodo := absurd htodo (h hb c b)

/-- A match without a new instance. -/
theorem skip (hs : Store.Built s s') (h : ∀ c b σ, todo c b → replacement? g c.vars b = some σ →
    Tried s s' σ c.body fun t => t = .top ∨ t ∈ rd.solver.instances) : Stretch g todo s s' rd rd
      [] where
  built := hs
  gains := .refl _
  formulas := (List.append_nil _).symm
  nodup := List.nodup_nil
  fresh _ ht := absurd ht List.not_mem_nil
  made _ ht := absurd ht List.not_mem_nil
  within h := absurd rfl h
  complete _ := h

/-- One stretch follows the other. -/
theorem append (h : Stretch g todo s s' rd rd' new) (h' : Stretch g todo' s' s'' rd' rd'' more) :
    Stretch g (fun c b => todo c b ∨ todo' c b) s s'' rd rd'' (new ++ more) where
  built := Store.built_frame.trans h.built h'.built
  gains := h.gains.trans h'.gains
  formulas := by rw [h'.formulas, h.formulas, List.append_assoc]
  nodup := by
    refine List.nodup_append.mpr ⟨h.nodup, h'.nodup, fun t ht u hu heq => ?_⟩
    exact (h'.fresh u hu).2 ((h.gains.instances u).mpr (.inr (heq ▸ ht)))
  fresh t ht := by
    rcases List.mem_append.mp ht with ht | ht
    · exact h.fresh t ht
    · exact ⟨(h'.fresh t ht).1, fun hold => (h'.fresh t ht).2
        ((h.gains.instances t).mpr (.inl hold))⟩
  made t ht := by
    rcases List.mem_append.mp ht with ht | ht
    · obtain ⟨c, b, σ, htodo, hσ, hmade⟩ := h.made t ht
      exact ⟨c, b, σ, .inl htodo, hσ, hmade.after h'.built⟩
    · obtain ⟨c, b, σ, htodo, hσ, hmade⟩ := h'.made t ht
      exact ⟨c, b, σ, .inr htodo, hσ, hmade.before h.built⟩
  within hne := by
    by_cases hmore : more = []
    · subst hmore
      rw [List.append_nil] at hne
      have hsize := congrArg List.length h'.formulas
      simp only [List.append_nil, Array.length_toList] at hsize
      have hcheck : rd''.solver.checkInstances = rd'.solver.checkInstances := h'.gains.check
      rw [hsize, hcheck]
      exact h.within hne
    · rw [← h.gains.bounds.1, ← h.gains.bounds.2]
      exact h'.within hmore
  complete hb c b σ htodo hσ := by
    rcases htodo with htodo | htodo
    · exact (h.complete (h'.hasBudget hb) c b σ htodo hσ).after h'.built fun t ht =>
        ht.imp_right fun ht => (h'.gains.instances t).mpr (.inl ht)
    · exact (h'.complete hb c b σ htodo hσ).before h.built

theorem congr (h : Stretch g todo s s' rd rd' new) (htodo : ∀ c b, todo c b ↔ todo' c b) :
    Stretch g todo' s s' rd rd' new where
  built := h.built
  gains := h.gains
  formulas := h.formulas
  nodup := h.nodup
  fresh := h.fresh
  made t ht := by
    obtain ⟨c, b, σ, hcb, hσ, hmade⟩ := h.made t ht
    exact ⟨c, b, σ, (htodo c b).mp hcb, hσ, hmade⟩
  within := h.within
  complete hb c b σ hcb := h.complete hb c b σ ((htodo c b).mpr hcb)

/-- A match with a new instance, while the budget lasts. -/
theorem produce (hb : rd.hasBudget) {b : Binding} (hs : s.Wf)
    (hσ : replacement? g c.vars b = some σ)
    (hsubst : Store.subst σ c.body s = .ok t s') (hnew : t ≠ .top ∧ t ∉ rd.solver.instances) :
    Stretch g (fun d b' => d = c ∧ b' = b) s s' rd (rd.add t) [t] where
  built := by
    have hbuilt := Store.builders_built.subst σ c.body s hs
    rwa [hsubst] at hbuilt
  gains := .add rd t
  formulas := Array.toList_push
  nodup := List.nodup_singleton t
  fresh u hu := List.mem_singleton.mp hu ▸ hnew
  made u hu := by
    obtain rfl := List.mem_singleton.mp hu
    have hwf : s'.Wf := by
      have hbuilt := Store.builders_built.subst σ c.body s hs
      rw [hsubst] at hbuilt
      exact hbuilt.later.wf
    exact ⟨c, b, σ, ⟨rfl, rfl⟩, hσ, s, s', Store.built_frame.refl hs, hsubst,
      Store.built_frame.refl hwf⟩
  within _ := by
    unfold Round.hasBudget at hb
    simp only [Bool.and_eq_true, decide_eq_true_eq] at hb
    show (rd.formulas.push t).size ≤ _ ∧ rd.solver.checkInstances + 1 ≤ _
    rw [Array.size_push]
    exact hb
  complete _ d b' τ hd hτ := by
    obtain ⟨rfl, rfl⟩ := hd
    obtain rfl := Option.some.inj (hσ.symm.trans hτ)
    have hbuilt := Store.builders_built.subst σ d.body s hs
    refine ⟨s, Store.built_frame.refl hs, ?_⟩
    unfold Ends
    rw [hsubst] at hbuilt ⊢
    exact ⟨.inr (((Gains.add rd t).instances t).mpr (.inr (List.mem_singleton_self t))),
      Store.built_frame.refl hbuilt.later.wf⟩

end Stretch

/-- The matches of one constraint, one after the other. -/
theorem instantiate_stretch (hs : s.Wf) (c : Constraint) (bs : List Binding) (rd : Round) :
    ∃ new, Stretch g (fun d b => d = c ∧ b ∈ bs) s (instantiate g c bs rd s).2 rd
      (instantiate g c bs rd s).1 new := by
  induction bs generalizing rd s with
  | nil => exact ⟨[], .stop hs fun _ _ _ h => absurd h.2 List.not_mem_nil⟩
  | cons b bs ih =>
    -- the first match, and then the rest
    have next {s' : Store} {rd' : Round} {new : List Term}
      (h : Stretch g (fun d b' => d = c ∧ b' = b) s s' rd rd' new) :
        ∃ new, Stretch g (fun d b' => d = c ∧ b' ∈ b :: bs) s (instantiate g c bs rd' s').2 rd
          (instantiate g c bs rd' s').1
          new := by
      obtain ⟨more, hmore⟩ := ih h.built.later.wf rd'
      exact ⟨new ++ more, (h.append hmore).congr fun d b' => by rw [List.mem_cons, and_or_left]⟩
    unfold instantiate
    split
    next hspent => exact ⟨[], .stop hs fun hb => absurd hb (by simpa using hspent)⟩
    next hbudget =>
      rw [Bool.not_eq_true', Bool.not_eq_false] at hbudget
      cases hσ : replacement? g c.vars b with
      | none =>
        refine next (.skip (Store.built_frame.refl hs) fun d b' σ hd hσ' => ?_)
        obtain ⟨rfl, rfl⟩ := hd
        cases hσ.symm.trans hσ'
      | some σ =>
        have hbuilt := Store.builders_built.subst σ c.body s hs
        -- what is passed over was tried
        have tried {P : Term → Prop} (h : Ends (Store.subst σ c.body) s (fun t _ => P t) fun _ =>
          True) (d : Constraint)
            (b' : Binding) (τ : Subst) (hd : d = c ∧ b' = b)
            (hτ : replacement? g d.vars b' = some τ) :
            Tried s (endState (Store.subst σ c.body s)) τ d.body P := by
          obtain ⟨rfl, rfl⟩ := hd
          obtain rfl := Option.some.inj (hσ.symm.trans hτ)
          refine ⟨s, Store.built_frame.refl hs, ?_⟩
          unfold Ends endState at *
          cases heq : Store.subst σ d.body s with
          | ok t s' =>
            rw [heq] at h hbuilt
            exact ⟨h, Store.built_frame.refl hbuilt.later.wf⟩
          | error e s' =>
            rw [heq] at hbuilt
            exact Store.built_frame.refl hbuilt.later.wf
        simp only
        unfold Ends at tried
        cases heq : Store.subst σ c.body s with
        | error e s' =>
          rw [heq] at hbuilt tried
          exact next (.skip hbuilt (tried trivial))
        | ok t s' =>
          rw [heq] at hbuilt tried
          dsimp only
          split
          next hold =>
            simp only [Bool.or_eq_true, decide_eq_true_eq, Std.HashSet.contains_iff_mem] at hold
            exact next (.skip hbuilt (tried hold))
          next hnew =>
            simp only [Bool.or_eq_true, decide_eq_true_eq, Std.HashSet.contains_iff_mem,
              not_or] at hnew
            exact next (.produce hbudget hs hσ heq hnew)

/-- Matches of patterns of the solver do not depend on the terms that are built on the way, nor on
new instances. -/
theorem bindings_later (hw : s.Wf) (hs : Store.Later s s') (hq : q.Typed s)
    (hpatterns : q'.patterns = q.patterns)
    (c : Constraint) : q'.bindings g s' c = q.bindings g s c := by
  unfold bindings
  rw [hpatterns]
  refine matchAll_later hw hs fun p hp => ?_
  obtain ⟨i, -, rfl⟩ := List.mem_map.mp hp
  dsimp only
  rw [Array.getD_eq_getD_getElem?]
  cases hi : q.patterns.patterns[i]? with
  | some p => exact .inl (Store.isValid_iff.mp (hq.patterns p (Array.mem_of_getElem? hi)).valid)
  | none => exact .inr rfl

/-- Constraints one after the other. -/
theorem instantiateAll_stretch (hw : s.Wf) (hs : Store.Later s s') (hq : q.Typed s)
    (hpatterns : rd.solver.patterns = q.patterns) (cs : List Constraint) :
    ∃ new, Stretch g (fun c b => c ∈ cs ∧ c.patterns ≠ [] ∧ b ∈ q.bindings g s c) s'
      (instantiateAll g cs rd s').2 rd
      (instantiateAll g cs rd s').1 new := by
  induction cs generalizing rd s' with
  | nil => exact ⟨[], .stop hs.wf fun _ _ _ h => absurd h.1 List.not_mem_nil⟩
  | cons c cs ih =>
    unfold instantiateAll
    split
    next hspent => exact ⟨[], .stop hs.wf fun hb => absurd hb (by simpa using hspent)⟩
    next =>
      split
      next hempty =>
        obtain ⟨new, hnew⟩ := ih hs hpatterns
        refine ⟨new, hnew.congr fun d b => ⟨fun h => ⟨List.mem_cons_of_mem c h.1, h.2⟩, ?_⟩⟩
        rintro ⟨hd, hsome, hb⟩
        rcases List.mem_cons.mp hd with rfl | hd
        · exact absurd (List.isEmpty_iff.mp hempty) hsome
        · exact ⟨hd, hsome, hb⟩
      next hsome =>
        obtain ⟨new, hnew⟩ := instantiate_stretch (g := g) hs.wf c (rd.solver.bindings g s' c) rd
        obtain ⟨more, hmore⟩ := ih (Store.later_frame.trans hs hnew.built.later)
          (hnew.gains.patterns.trans hpatterns)
        have hmatches : rd.solver.bindings g s' c = q.bindings g s c :=
          bindings_later hw hs hq hpatterns c
        refine ⟨new ++ more, (hnew.append hmore).congr fun d b => ⟨?_, ?_⟩⟩
        · rintro (⟨rfl, hb⟩ | h)
          · exact ⟨List.mem_cons_self, fun h => hsome (List.isEmpty_iff.mpr h), hmatches ▸ hb⟩
          · exact ⟨List.mem_cons_of_mem c h.1, h.2⟩
        · rintro ⟨hd, hd'⟩
          rcases List.mem_cons.mp hd with rfl | hd
          · exact .inl ⟨rfl, hmatches ▸ hd'.2⟩
          · exact .inr ⟨hd, hd'⟩

/-! ## Looks -/

/-- What a look at a complete assignment produces and answers, over the matches of all constraints
with patterns. -/
theorem finalCheck_stretch (hs : s.Wf) (hq : q.Typed s) {outcome : FinalCheck}
    {formulas : List Term} (h : q.finalCheck (some g) s = ((outcome, formulas, q'), s')) :
    Stretch g (fun c b => c ∈ q.constraints ∧ c.patterns ≠ [] ∧ b ∈ q.bindings g s c) s s' ⟨q, #[]⟩
        ⟨q', formulas.toArray⟩ formulas ∧
      (outcome = .continue ↔ formulas ≠ []) ∧
      (outcome = .done ↔ formulas = [] ∧
        (q.constraints = #[] ∨ q.checkInstances < q.maxTotalInstances)) := by
  unfold finalCheck at h
  dsimp only at h
  split at h
  next hnone =>
    have hempty : q.constraints = #[] := Array.isEmpty_iff.mp hnone
    cases h
    refine ⟨.stop hs fun _ c b hc => ?_, by simp, by simp [hempty]⟩
    rw [hempty] at hc
    exact absurd hc.1 (Array.not_mem_empty c)
  next hsome =>
    obtain ⟨new, hnew⟩ := instantiateAll_stretch (g := g) hs (Store.later_frame.refl hs) hq
      (rfl : (Round.mk q #[]).solver.patterns = q.patterns) q.constraints.toList
    have hnil : q.constraints ≠ #[] := fun h => hsome (by rw [h]; rfl)
    change ((_, (instantiateAll g q.constraints.toList ⟨q, #[]⟩ s).1.formulas.toList,
      (instantiateAll g q.constraints.toList ⟨q, #[]⟩ s).1.solver),
      (instantiateAll g q.constraints.toList ⟨q, #[]⟩ s).2) = ((outcome, formulas, q'), s') at h
    generalize instantiateAll g q.constraints.toList ⟨q, #[]⟩ s = x at h hnew
    obtain ⟨⟨q₁, fs⟩, s₁⟩ := x
    have hformulas : fs.toList = new := hnew.formulas
    have hcheck : q₁.checkInstances = q.checkInstances + new.length := hnew.gains.check
    have htotal : q₁.maxTotalInstances = q.maxTotalInstances := hnew.gains.bounds.2
    cases h
    subst hformulas
    refine ⟨hnew.congr fun c b => by rw [Array.mem_toList_iff], ?_⟩
    by_cases hfs : fs.toList = []
    · have hsize : ¬ fs.size > 0 := by
        rw [← Array.length_toList, hfs]
        exact Nat.lt_irrefl 0
      rw [hfs, List.length_nil, Nat.add_zero] at hcheck
      rw [if_neg hsize, hcheck, htotal]
      by_cases hspent : q.maxTotalInstances ≤ q.checkInstances
      · rw [if_pos hspent]
        simp [hfs, hnil, hspent]
      · rw [if_neg hspent]
        simp only [hfs, ne_eq, not_true_eq_false, iff_false, true_and, true_iff]
        exact ⟨fun h => (by cases h), .inr (Nat.lt_of_not_le hspent)⟩
    · have hsize : fs.size > 0 := by
        rw [← Array.length_toList]
        exact List.length_pos_iff.mpr hfs
      rw [if_pos hsize]
      simp [hfs]

/-! ## Instances follow -/

/-- A term is put for each of the variables and for nothing else: that of the root of a class. -/
structure Fills (g : Egraph) (vars : List Term) (σ : Subst) : Prop where
  keys : ∀ x, x ∈ vars ↔ ∃ v, σ[x]? = some v
  terms : ∀ {x v : Term}, σ[x]? = some v → ∃ n m, n < g.nodes.size ∧ g.nodes[g.root n]? = some m ∧
    v = m.term

theorem fills_of_replacement? (hg : g.Typed s) {vars : List Term} {b : Binding}
    (hb : Fits s g vars b)
    (hlen : b.length = vars.length) (h : replacement? g vars b = some σ) : Fills g vars σ := by
  obtain ⟨hterms, hkeys⟩ := replacement?_spec h
  refine ⟨fun x => ⟨fun hx => ?_, ?_⟩, fun {x v} hx => ?_⟩
  · obtain ⟨i, hi, rfl⟩ := List.mem_iff_getElem.mp hx
    have hmem : (vars[i], b[i]) ∈ vars.zip b :=
      List.mem_iff_getElem.mpr ⟨i, by rw [List.length_zip]; omega, List.getElem_zip⟩
    exact Option.ne_none_iff_exists'.mp (hkeys _ hmem)
  · rintro ⟨v, hv⟩
    obtain ⟨r, hmem, -⟩ := hterms hv
    exact (List.of_mem_zip hmem).1
  · obtain ⟨r, hmem, rfl⟩ := hterms hx
    obtain ⟨i, hi, heq⟩ := List.mem_iff_getElem.mp hmem
    rw [List.getElem_zip] at heq
    rw [List.length_zip] at hi
    obtain ⟨u, -, hr⟩ := hb (List.getElem?_eq_some_iff.mpr ⟨by omega, (Prod.ext_iff.mp heq).2⟩)
    obtain ⟨m, hm, -⟩ := hr.root hg
    obtain ⟨n, hn, -⟩ := hr
    have hnode : g.node (g.root r) = m :=
      Option.some.inj ((getElem?_node (Array.getElem?_eq_some_iff.mp hm).1).symm.trans hm)
    exact ⟨r, m, (Array.getElem?_eq_some_iff.mp hn).1, hm, by rw [hnode]⟩

/-- Where what is put for the variables are closed first-order terms, and the constraint is one, an
instance follows from the constraint: below the quantifier nothing is bound that the new terms
could mention. -/
theorem Made.holds (hmade : Made s s' σ c.body t) (hw : s.Wf) (hc : c.Typed s)
    (hpos : c.formula.isNegated = false) (hopens : s.Opens (· ∈ c.vars) σ)
    (hkeys : ∀ x v, σ[x]? = some v → x ∈ c.vars ∧ s.FirstOrder [] v)
    (hfirst : s.FirstOrder [] c.formula) {I : Interp} {ρ : I.Env} (hI : I.Fits s')
    (hρ : I.EnvFits s' ρ) (h : I.Holds s' ρ c.formula) : I.Holds s' ρ t := by
  obtain ⟨s₁, s₂, hs₁, hsubst, hs₂⟩ := hmade
  obtain ⟨ty, hn⟩ := Store.node_of_shape hc.shape (by simp)
  obtain ⟨rfl, -, hvars, hbody⟩ := hw.typed hn
  have hfirst : s.FirstOrder c.vars c.body := by
    cases hfirst with
    | var hn' => cases hn.symm.trans hn'
    | all hn' hb =>
      cases hn.symm.trans hn'
      rwa [List.append_nil] at hb
    | node hn' _ hq =>
      cases hn.symm.trans hn'
      cases hq
  -- what is put for a variable is a closed term of its sort
  have hok : s.SubstOk σ := by
    intro x v hx
    obtain ⟨tx, m, hxt, hvt, hty, -⟩ := hopens.terms hx
    obtain ⟨hmem, hv⟩ := hkeys x v hx
    obtain ⟨hneg, ty, n, hvar⟩ := hvars x hmem
    have hxty : s.Has x ty := ⟨⟨_, hvar⟩, by simp [hneg]⟩
    obtain rfl := hxty.unique hxt
    exact ⟨hneg, ty, n, .inr hvar, hvt, hv, by simp [Store.isFunctionTy, hty]⟩
  have hlater : Store.Later s s' := by
    have hbuilt := Store.builders_built.subst σ c.body s₁ hs₁.later.wf
    rw [hsubst] at hbuilt
    exact (Store.built_frame.trans hs₁ (Store.built_frame.trans hbuilt hs₂)).later
  have hok₁ := hok.later hw hs₁.later
  obtain ⟨hs₁₂, hbecomes⟩ :=
    (Store.subst_becomes hs₁.later.wf hok₁.assigns (hs₁.later.ext.has hbody)).of_ok hsubst
  have hok₂ := hok₁.later hs₁.later.wf hs₁₂
  have hreplaced := (hbecomes.later hs₁₂.wf hok₂.assigns hs₂.later).replaced hs₂.later.wf
    (hok₂.later hs₁₂.wf hs₂.later)
  -- the values of the variables are those of the new terms
  let ρ' : I.Env := fun x => (σ[x]?).elim (ρ x) (I.value s' ρ)
  have hput {x v : Term} (hx : σ[x]? = some v) : ρ' x = I.value s' ρ v := by simp [ρ', hx]
  have hother {x : Term} (hx : σ[x]? = none) : ρ' x = ρ x := by simp [ρ', hx]
  have hagrees : s'.Agrees I σ ρ ρ' := by
    refine ⟨fun {x v} hx => ?_, fun {y} _ hy => (hother hy).symm⟩
    obtain ⟨hneg, ty, n, hvar⟩ := hlater.ext.isVar (hvars x (hkeys x v hx).1)
    rw [Interp.value_eq hlater.wf hvar, hneg, Term.positive_of_not_isNegated hneg]
    exact (hput hx).symm
  have htyped {x v : Term} (hx : σ[x]? = some v) : (ρ' x).Is s' (s'.ty x) := by
    obtain ⟨tx, m, hxt, hvt, -⟩ := hopens.terms hx
    rw [hput hx, (hlater.ext.has hxt).ty_eq]
    exact Interp.value_is hlater.wf hI hρ (hlater.ext.has hvt)
  have henv : I.EnvFits s' ρ' := by
    intro x ty n hx
    cases hv : σ[x]? with
    | none =>
      rw [hother hv]
      exact hρ x ty n hx
    | some v =>
      have hneg := (hvars x (hkeys x v hv).1).1
      have hxty : s'.Has x ty := ⟨⟨_, hx⟩, by simp [hneg]⟩
      exact hxty.ty_eq ▸ htyped hv
  have hrebind : Interp.rebind ρ c.vars ρ' = ρ' := by
    funext x
    unfold Interp.rebind
    split
    · rfl
    next hx =>
      cases hv : σ[x]? with
      | none => exact (hother hv).symm
      | some v => exact absurd (hkeys x v hv).1 hx
  have hbody' : (I.value s' ρ' c.body).toBool = true := by
    unfold Interp.Holds at h
    rw [Interp.value_eq hlater.wf (hlater.ext.node hn), hpos] at h
    simp only [Interp.node, Val.negIf, Bool.false_eq_true, if_false, Val.ofProp, Val.bool.injEq,
      decide_eq_true_eq] at h
    have hall := h ρ' fun v hv => by
      obtain ⟨u, hu⟩ := Option.ne_none_iff_exists'.mp (hopens.all v hv)
      exact htyped hu
    rwa [hrebind] at hall
  unfold Interp.Holds
  rw [hreplaced.value (hfirst.extends_ hw hlater.ext) hI hρ henv hagrees,
    Interp.value_bool hlater.wf hI henv (hlater.ext.has hbody), hbody']

/-! ## One match -/

section

variable {g : Egraph} {s s' : Store} {c : Constraint} {b : Binding} {σ : Subst} {t : Term}

/-- Where a constraint has one match, its instance is produced unless it is trivial or not new. -/
theorem instantiateAll_one {r : Round} (hpatterns : c.patterns ≠ [])
    (hb : r.solver.bindings g s c = [b]) (hbudget : r.hasBudget = true)
    (hσ : replacement? g c.vars b = some σ) (hsubst : Store.subst σ c.body s = .ok t s') :
    instantiateAll g [c] r s = (if t = .top ∨ t ∈ r.solver.instances then r else r.add t, s') := by
  have hone : instantiate g c [b] r s =
      (if t = .top ∨ t ∈ r.solver.instances then r else r.add t, s') := by
    unfold instantiate
    simp only [hbudget, hσ, hsubst, Bool.not_true, Bool.false_eq_true, if_false, Bool.or_eq_true,
      decide_eq_true_eq, Std.HashSet.contains_iff_mem]
    split <;> rfl
  have hsome : c.patterns.isEmpty = false := List.isEmpty_eq_false_iff.mpr hpatterns
  unfold instantiateAll
  simp only [hbudget, hsome, Bool.not_true, Bool.false_eq_true, if_false]
  show instantiateAll g [] (instantiate g c (r.solver.bindings g s c) r s).1
    (instantiate g c (r.solver.bindings g s c) r s).2 = _
  rw [hb, hone]
  rfl

/-- A look at one constraint with one match goes on exactly if the instance is produced. -/
theorem finalCheck_one {q : Solver} (hc : q.constraints = #[c]) (hpatterns : c.patterns ≠ [])
    (hb : q.bindings g s c = [b]) (hbudget : (⟨q, #[]⟩ : Round).hasBudget = true)
    (hσ : replacement? g c.vars b = some σ) (hsubst : Store.subst σ c.body s = .ok t s') :
    q.finalCheck (some g) s =
      if t = .top ∨ t ∈ q.instances then ((.done, [], q), s')
      else ((.continue, [t], (Round.add ⟨q, #[]⟩ t).solver), s') := by
  have hlook := instantiateAll_one (r := ⟨q, #[]⟩) hpatterns hb hbudget hσ hsubst
  have hroom : q.checkInstances < q.maxTotalInstances := by
    unfold Round.hasBudget at hbudget
    simp only [Bool.and_eq_true, decide_eq_true_eq] at hbudget
    exact hbudget.2
  let x := instantiateAll g [c] ⟨q, #[]⟩ s
  have hrun : q.finalCheck (some g) s = ((if x.1.formulas.size > 0 then .continue
      else if x.1.solver.checkInstances ≥ x.1.solver.maxTotalInstances then .incomplete else .done,
      x.1.formulas.toList, x.1.solver), x.2) := by
    unfold finalCheck
    rw [hc]
    rfl
  rw [hrun]
  by_cases hold : t = .top ∨ t ∈ q.instances
  · rw [if_pos hold, show x = (⟨q, #[]⟩, s') from hlook.trans (by rw [if_pos hold])]
    simp [Nat.not_le.mpr hroom]
  · rw [if_neg hold, show x = (Round.add ⟨q, #[]⟩ t, s') from hlook.trans (by rw [if_neg hold])]
    rfl

end

end Solver
end Quant
end Entail
