import Entail.Proofs.Quant.Types
import Entail.Proofs.Store.Listing

/-!
# Inferred patterns

The candidates for patterns are the applications of a body that have variables. The smallest of
those with all the variables is the least one in an order of candidates. If there is none,
candidates are chosen one after the other: one that is passed over has no variable that is not
covered, so after the last one a variable that is not covered is in no application at all.
-/

namespace Entail.Quant

variable {s : Store} {vars covered chosen : List Term} {body t v : Term} {c : Candidate}
  {cs : List Candidate}

/-- `t` is an application that the body is made of. -/
structure Applied (s : Store) (body t : Term) : Prop where
  positive : t.isNegated = false
  below : s.Below body t
  app : ∃ f args, s.shape t = .app f args

theorem Applied.valid (hw : s.Wf) (hbody : s.isValid body = true) (h : Applied s body t) :
    s.isValid t = true := by
  obtain ⟨n, hn⟩ := h.below.live hw hbody
  exact Store.isValid_iff.mpr ⟨n.2, ⟨n.1, hn⟩, by simp [h.positive]⟩

/-! ## Candidates -/

theorem mem_variablesOf (hw : s.Wf) (ht : s.isValid t = true) (hv : s.IsVar v) :
    v ∈ variablesOf s t ↔ s.Below t v := by
  obtain ⟨hpos, ty, n, hn⟩ := hv
  have hvariable : (s.shape v).isVariable = true := by
    simp [Store.shape, Store.shape?, hn, Term.Shape.isVariable]
  rw [variablesOf, Term.mem_sort, List.mem_filter, Store.mem_subterms_iff hw ht]
  simp [hpos, hvariable]

theorem mem_candidates (hw : s.Wf) (hbody : s.isValid body = true) :
    c ∈ candidates s body ↔ Applied s body c.term ∧ variablesOf s c.term ≠ [] ∧
      c = ⟨c.term, variablesOf s c.term, (s.subterms c.term).length⟩ := by
  unfold candidates
  rw [List.mem_filterMap]
  constructor
  · rintro ⟨u, hu, hc⟩
    obtain ⟨hpos, hbelow⟩ := (Store.mem_subterms_iff hw hbody).mp hu
    split at hc
    next f args hshape =>
      dsimp only at hc
      split at hc
      · cases hc
      next hne =>
        cases hc
        exact ⟨⟨hpos, hbelow, f, args, hshape⟩, by simpa using hne, rfl⟩
    · cases hc
  · rintro ⟨⟨hpos, hbelow, f, args, hshape⟩, hne, hc⟩
    refine ⟨c.term, (Store.mem_subterms_iff hw hbody).mpr ⟨hpos, hbelow⟩, ?_⟩
    rw [hshape]
    dsimp only
    rw [if_neg (by simpa using hne), ← hc]

/-- An application with a variable is a candidate. -/
theorem exists_candidate (hw : s.Wf) (hbody : s.isValid body = true) (ht : Applied s body t)
    (hv : s.IsVar v) (hmentions : s.Below t v) :
    ⟨t, variablesOf s t, (s.subterms t).length⟩ ∈ candidates s body := by
  have hmem := (mem_variablesOf hw (ht.valid hw hbody) hv).mpr hmentions
  exact (mem_candidates hw hbody).mpr ⟨ht, List.ne_nil_of_mem hmem, rfl⟩

/-- Candidates stand in the order of the subterms that they are. -/
theorem candidates_sublist (s : Store) (body : Term) :
    ((candidates s body).map (·.term)).Sublist (s.subterms body) := by
  unfold candidates
  induction s.subterms body with
  | nil => exact List.Sublist.slnil
  | cons u us ih =>
    rw [List.filterMap_cons]
    split
    · exact ih.cons u
    next c hc =>
      have hterm : c.term = u := by
        split at hc
        · dsimp only at hc
          split at hc
          · cases hc
          · cases hc
            rfl
        · cases hc
      rw [List.map_cons, hterm]
      exact ih.cons_cons u

theorem nodup_candidates (hw : s.Wf) (hbody : s.isValid body = true) :
    ((candidates s body).map (·.term)).Nodup :=
  (Store.nodup_subterms hw hbody).sublist (candidates_sublist s body)

theorem covers_iff {vs : List Term} : covers vars vs = true ↔ ∀ v ∈ vars, v ∈ vs := by simp [covers]

theorem not_covers_nil (hne : vars ≠ []) : covers vars [] = false := by
  obtain ⟨v, rest, rfl⟩ := List.exists_cons_of_ne_nil hne
  rfl

/-! ## The least candidate -/

theorem Candidate.le_iff {a b : Candidate} :
    a.le b = true ↔ a.size < b.size ∨ a.size = b.size ∧ a.term.raw ≤ b.term.raw := by
  simp [Candidate.le, Term.le]

theorem least_of_mergeSort {a : Candidate} {rest : List Candidate}
    (h : cs.mergeSort Candidate.le = a :: rest) :
    a ∈ cs ∧ ∀ b ∈ cs, a.le b = true := by
  have hmem : a ∈ cs.mergeSort Candidate.le := h ▸ List.mem_cons_self
  have htrans : ∀ a b c : Candidate, a.le b = true → b.le c = true → a.le c = true := by
    intro a b c
    simp only [Candidate.le_iff]
    omega
  have htotal : ∀ a b : Candidate, (a.le b || b.le a) = true := by
    intro a b
    simp only [Bool.or_eq_true, Candidate.le_iff]
    omega
  have hsorted := List.pairwise_mergeSort htrans htotal cs
  refine ⟨List.mem_mergeSort.mp hmem, fun b hb => ?_⟩
  rw [h] at hsorted
  have hb : b ∈ a :: rest := h ▸ List.mem_mergeSort.mpr hb
  rcases List.mem_cons.mp hb with rfl | hb
  · exact Candidate.le_iff.mpr (.inr ⟨rfl, Nat.le_refl _⟩)
  · exact List.rel_of_pairwise_cons hsorted hb

/-! ## Choosing several candidates -/

theorem greedyCover_sublist (vars : List Term) (cs : List Candidate) (covered chosen : List Term) :
    (greedyCover vars cs covered chosen).Sublist (chosen ++ cs.map (·.term)) := by
  induction cs generalizing covered chosen with
  | nil => exact List.nil_sublist _
  | cons c rest ih =>
    have hskip : (chosen ++ rest.map (·.term)).Sublist (chosen ++ (c :: rest).map (·.term)) :=
      (List.sublist_cons_self _ _).append_left chosen
    have htake : chosen ++ [c.term] ++ rest.map (·.term) = chosen ++ (c :: rest).map (·.term) := by
      simp
    unfold greedyCover
    split
    · exact (ih covered chosen).trans hskip
    · dsimp only
      rw [← htake]
      split
      · exact List.sublist_append_left _ _
      · exact ih _ _

/-- Chosen candidates have all the variables, when those of a candidate are the ones of its term. -/
theorem greedyCover_covers (hcs : ∀ c ∈ cs, ∀ v ∈ c.vars, v ∈ variablesOf s c.term)
    (hcovered : ∀ v ∈ covered, ∃ t ∈ chosen, v ∈ variablesOf s t)
    (hsome : greedyCover vars cs covered chosen ≠ []) :
    ∀ v ∈ vars, ∃ t ∈ greedyCover vars cs covered chosen, v ∈ variablesOf s t := by
  induction cs generalizing covered chosen with
  | nil => exact absurd rfl hsome
  | cons c rest ih =>
    have hrest : ∀ c ∈ rest, ∀ v ∈ c.vars, v ∈ variablesOf s c.term :=
      fun c hc => hcs c (List.mem_cons_of_mem _ hc)
    have hcovered' : ∀ v ∈ covered ++ c.vars, ∃ t ∈ chosen ++ [c.term], v ∈ variablesOf s t := by
      intro v hv
      rcases List.mem_append.mp hv with hv | hv
      · obtain ⟨t, ht, hm⟩ := hcovered v hv
        exact ⟨t, List.mem_append_left _ ht, hm⟩
      · exact ⟨c.term, List.mem_append_right _ List.mem_cons_self, hcs c List.mem_cons_self v hv⟩
    unfold greedyCover at hsome ⊢
    split
    next hskip =>
      rw [if_pos hskip] at hsome
      exact ih hrest hcovered hsome
    next hskip =>
      rw [if_neg hskip] at hsome
      dsimp only at hsome ⊢
      split
      next hdone => exact fun v hv => hcovered' v (covers_iff.mp hdone v hv)
      next hdone =>
        rw [if_neg hdone] at hsome
        exact ih hrest hcovered' hsome

/-- When the choice is given up, some variable is in no candidate. -/
theorem greedyCover_eq_nil (hnone : greedyCover vars cs covered chosen = [])
    (hmissing : covers vars covered = false) :
    ∃ v ∈ vars, v ∉ covered ∧ ∀ c ∈ cs, v ∉ c.vars := by
  induction cs generalizing covered chosen with
  | nil =>
    have hsome : ¬ ∀ v ∈ vars, v ∈ covered := by
      rw [← covers_iff, hmissing]
      exact Bool.false_ne_true
    push Not at hsome
    obtain ⟨v, hv, hnot⟩ := hsome
    exact ⟨v, hv, hnot, by simp⟩
  | cons c rest ih =>
    unfold greedyCover at hnone
    split at hnone
    next hskip =>
      -- a candidate that is passed over has covered variables only
      obtain ⟨v, hv, hnot, hrest⟩ := ih hnone hmissing
      exact ⟨v, hv, hnot, List.forall_mem_cons.mpr ⟨fun hc => hnot (covers_iff.mp hskip v hc),
        hrest⟩⟩
    · dsimp only at hnone
      split at hnone
      · simp at hnone
      next hmissing' =>
        obtain ⟨v, hv, hnot, hrest⟩ := ih hnone (by simpa using hmissing')
        rw [List.mem_append, not_or] at hnot
        exact ⟨v, hv, hnot.1, List.forall_mem_cons.mpr ⟨hnot.2, hrest⟩⟩

/-! ## Inference -/

theorem infer_of_least {a : Candidate} {rest : List Candidate}
    (h : ((candidates s body).filter fun c => covers vars c.vars).mergeSort Candidate.le =
      a :: rest) :
    infer s vars body = [a.term] := by
  unfold infer
  dsimp only
  rw [h]

theorem infer_of_none
    (h : ((candidates s body).filter fun c => covers vars c.vars).mergeSort Candidate.le = []) :
    infer s vars body = greedyCover vars ((candidates s body).mergeSort Candidate.greedyLe) []
      [] := by
  unfold infer
  dsimp only
  rw [h]

/-- Inferred patterns are distinct applications of the body. -/
theorem infer_applied (hw : s.Wf) (hbody : s.isValid body = true) (vars : List Term) :
    (infer s vars body).Nodup ∧ ∀ t ∈ infer s vars body, Applied s body t := by
  have happlied : ∀ c ∈ candidates s body, Applied s body c.term :=
    fun c hc => ((mem_candidates hw hbody).mp hc).1
  cases hleast : ((candidates s body).filter fun c => covers vars c.vars).mergeSort
    Candidate.le with
  | cons a rest =>
    rw [infer_of_least hleast]
    refine ⟨List.nodup_singleton _, fun t ht => ?_⟩
    rw [List.mem_singleton.mp ht]
    exact happlied a (List.mem_of_mem_filter (least_of_mergeSort hleast).1)
  | nil =>
    rw [infer_of_none hleast]
    have hperm := List.mergeSort_perm (candidates s body) Candidate.greedyLe
    refine ⟨((hperm.map _).nodup_iff.mpr (nodup_candidates hw hbody)).sublist
      (greedyCover_sublist _ _ _ _),
      fun t ht => ?_⟩
    obtain ⟨c, hc, rfl⟩ := (Solver.mem_greedyCover ht).resolve_left List.not_mem_nil
    exact happlied c (hperm.mem_iff.mp hc)

/-- Inferred patterns have all the variables, if there are any patterns. -/
theorem infer_mentions (hw : s.Wf) (hbody : s.isValid body = true) (hvars : ∀ v ∈ vars, s.IsVar v)
    (hsome : infer s vars body ≠ []) : ∀ v ∈ vars, ∃ t ∈ infer s vars body, s.Below t v := by
  have hcandidates : ∀ c ∈ candidates s body, ∀ v ∈ c.vars, v ∈ variablesOf s c.term := by
    intro c hc v hv
    rw [((mem_candidates hw hbody).mp hc).2.2] at hv
    exact hv
  have hmentions : ∀ v ∈ vars, ∃ t ∈ infer s vars body, v ∈ variablesOf s t := by
    cases hleast : ((candidates s body).filter fun c => covers vars c.vars).mergeSort
      Candidate.le with
    | cons a rest =>
      obtain ⟨ha, hcovers⟩ := List.mem_filter.mp (least_of_mergeSort hleast).1
      rw [infer_of_least hleast]
      exact fun v hv => ⟨a.term, List.mem_singleton_self _,
        hcandidates a ha v (covers_iff.mp hcovers v hv)⟩
    | nil =>
      rw [infer_of_none hleast] at hsome ⊢
      exact greedyCover_covers (fun c hc => hcandidates c (List.mem_mergeSort.mp hc))
        (fun _ h => absurd h List.not_mem_nil)
        hsome
  intro v hv
  obtain ⟨t, ht, hm⟩ := hmentions v hv
  exact ⟨t, ht, (mem_variablesOf hw (Solver.infer_valid hw hbody t ht) (hvars v hv)).mp hm⟩

/-- Nothing is inferred exactly when some variable is in no application of the body. -/
theorem infer_eq_nil_iff (hw : s.Wf) (hbody : s.isValid body = true) (hvars : ∀ v ∈ vars, s.IsVar v)
    (hne : vars ≠ []) :
    infer s vars body = [] ↔ ∃ v ∈ vars, ∀ t, Applied s body t → ¬ s.Below t v := by
  constructor
  · intro hnone
    cases hleast : ((candidates s body).filter fun c => covers vars c.vars).mergeSort
      Candidate.le with
    | cons a rest =>
      rw [infer_of_least hleast] at hnone
      cases hnone
    | nil =>
      rw [infer_of_none hleast] at hnone
      obtain ⟨v, hv, -, hmissing⟩ := greedyCover_eq_nil hnone (not_covers_nil hne)
      refine ⟨v, hv, fun t ht hbelow => ?_⟩
      have hc := exists_candidate hw hbody ht (hvars v hv) hbelow
      exact hmissing _ (List.mem_mergeSort.mpr hc)
        ((mem_variablesOf hw (ht.valid hw hbody) (hvars v hv)).mpr hbelow)
  · rintro ⟨v, hv, hmissing⟩
    by_contra hsome
    obtain ⟨t, ht, hbelow⟩ := infer_mentions hw hbody hvars hsome v hv
    exact hmissing t ((infer_applied hw hbody vars).2 t ht) hbelow

/-- An application with all the variables makes the smallest one the only pattern. -/
theorem infer_least (hw : s.Wf) (hbody : s.isValid body = true) (hvars : ∀ v ∈ vars, s.IsVar v)
    (hne : vars ≠ []) (ht : Applied s body t) (hall : ∀ v ∈ vars, s.Below t v) :
    ∃ a, infer s vars body = [a] ∧ (∀ v ∈ vars, s.Below a v) ∧ ∀ u, Applied s body u →
    (∀ v ∈ vars, s.Below u v) →
      (s.subterms a).length < (s.subterms u).length ∨
        (s.subterms a).length = (s.subterms u).length ∧ a.raw ≤ u.raw := by
  obtain ⟨v, rest, rfl⟩ := List.exists_cons_of_ne_nil hne
  have hmem {u : Term} (hu : Applied s body u) (hall : ∀ w ∈ v :: rest, s.Below u w) :
      ⟨u, variablesOf s u, (s.subterms u).length⟩ ∈ (candidates s body).filter fun c =>
        covers (v :: rest) c.vars := by
    refine List.mem_filter.mpr ⟨exists_candidate hw hbody hu (hvars v List.mem_cons_self)
      (hall v List.mem_cons_self), ?_⟩
    exact covers_iff.mpr fun w hw' => (mem_variablesOf hw (hu.valid hw hbody) (hvars w hw')).mpr
      (hall w hw')
  cases hleast : ((candidates s body).filter fun c =>
    covers (v :: rest) c.vars).mergeSort Candidate.le with
  | nil =>
    have hfound := (List.mergeSort_perm _ Candidate.le).mem_iff.mpr (hmem ht hall)
    rw [hleast] at hfound
    cases hfound
  | cons a more =>
    obtain ⟨ha, hle⟩ := least_of_mergeSort hleast
    obtain ⟨happlied, -, hcandidate⟩ := (mem_candidates hw hbody).mp (List.mem_of_mem_filter ha)
    have hinfer := infer_of_least hleast
    refine ⟨a.term, hinfer, fun w hw' => ?_, fun u hu hallu => ?_⟩
    · obtain ⟨b, hb, hbelow⟩ := infer_mentions hw hbody
        hvars (by rw [hinfer]; exact List.cons_ne_nil _ _) w hw'
      rw [hinfer, List.mem_singleton] at hb
      exact hb ▸ hbelow
    · have hsmall := Candidate.le_iff.mp (hle _ (hmem hu hallu))
      rwa [show a.size = (s.subterms a.term).length
        from congrArg Candidate.size hcandidate] at hsmall

/-- Patterns for a list of variables are distinct applications of the body that together have all
the variables. There are none if and only if some variable is in no application, and if one
application has all the variables, then there is only one pattern: among such applications one with
the fewest subterms, and of those with as few the one that was numbered first. -/
theorem infer_of_reached (h : s.Reached) (hbody : s.isValid body = true)
    (hvars : ∀ v ∈ vars, s.IsVar v) (hne : vars ≠ []) :
    (infer s vars body).Nodup ∧ (∀ t ∈ infer s vars body, Applied s body t) ∧
      (infer s vars body ≠ [] → ∀ v ∈ vars, ∃ t ∈ infer s vars body, s.Below t v) ∧
      (infer s vars body = [] ↔ ∃ v ∈ vars, ∀ t, Applied s body t → ¬ s.Below t v) ∧
      ∀ t, Applied s body t → (∀ v ∈ vars, s.Below t v) →
        ∃ a, infer s vars body = [a] ∧ (∀ v ∈ vars, s.Below a v) ∧
          ∀ u, Applied s body u → (∀ v ∈ vars, s.Below u v) →
            (s.subterms a).length < (s.subterms u).length ∨
              (s.subterms a).length = (s.subterms u).length ∧ a.raw ≤ u.raw := by
  have hw := h.intact.wf
  obtain ⟨hnodup, happlied⟩ := infer_applied hw hbody vars
  exact ⟨hnodup, happlied, infer_mentions hw hbody hvars, infer_eq_nil_iff hw hbody hvars hne,
    fun t => infer_least hw hbody hvars hne⟩

/-- For a property `p` and variables `x` and `y`, the formula `p x` or not `p y`. -/
def disjoined : Store :=
  let s := endState (Store.newSort .empty)
  let s := endState (Store.functionType [⟨1⟩] .bool s)
  let s := endState (Store.newConst ⟨2⟩ s)
  let s := endState (Store.newVar ⟨1⟩ s)
  let s := endState (Store.newVar ⟨1⟩ s)
  let s := endState (Store.app (.ofIndex 2) [.ofIndex 3] s)
  let s := endState (Store.app (.ofIndex 2) [.ofIndex 4] s)
  endState (Store.or [.ofIndex 5, (Term.ofIndex 6).neg] s)

theorem reached_disjoined : Store.Reached disjoined := by
  have h₁ := ((Store.Reached.empty.build .newSort).build (.functionType [⟨1⟩] .bool)).build
    (.newConst ⟨2⟩)
  have h₂ := ((h₁.build (.newVar ⟨1⟩)).build (.newVar ⟨1⟩)).build (.app (.ofIndex 2) [.ofIndex 3])
  exact (h₂.build (.app (.ofIndex 2) [.ofIndex 4])).build (.or [.ofIndex 5, (Term.ofIndex 6).neg])

/-- Neither `p x` nor `p y` has both variables, so both are patterns; each of them has a variable
of its own. -/
theorem infer_disjoined : Store.Reached disjoined ∧ disjoined.isValid (.ofIndex 7) = true ∧
    (∀ v ∈ [Term.ofIndex 3, .ofIndex 4], disjoined.IsVar v) ∧
    infer disjoined [.ofIndex 3, .ofIndex 4] (.ofIndex 7) = [.ofIndex 5, .ofIndex 6] ∧
    (∀ v ∈ [Term.ofIndex 3, .ofIndex 4], ∃ t ∈ [Term.ofIndex 5, .ofIndex 6], disjoined.Below t v) ∧
    ¬ ∃ t, Applied disjoined (.ofIndex 7) t ∧ ∀ v ∈ [Term.ofIndex 3, .ofIndex 4],
    disjoined.Below t v := by
  have hvalid : disjoined.isValid (.ofIndex 7) = true := by cbv
  have hx : disjoined.node? (.ofIndex 3) = some (.var ⟨1⟩ 1, ⟨1⟩) := by cbv
  have hy : disjoined.node? (.ofIndex 4) = some (.var ⟨1⟩ 2, ⟨1⟩) := by cbv
  have hvars : ∀ v ∈ [Term.ofIndex 3, .ofIndex 4], disjoined.IsVar v := by
    simp only [List.forall_mem_cons, List.not_mem_nil, false_implies, implies_true, and_true]
    exact ⟨⟨rfl, _, _, hx⟩, rfl, _, _, hy⟩
  have hinfer : infer disjoined [.ofIndex 3, .ofIndex 4] (.ofIndex 7) =
    [.ofIndex 5, .ofIndex 6] := by cbv
  obtain ⟨-, -, hmentions, -, hleast⟩ :=
    infer_of_reached reached_disjoined hvalid hvars (List.cons_ne_nil _ _)
  rw [hinfer] at hmentions hleast
  refine ⟨reached_disjoined, hvalid, hvars, hinfer, hmentions (List.cons_ne_nil _ _), ?_⟩
  rintro ⟨t, ht, hall⟩
  obtain ⟨a, ha, -⟩ := hleast t ht hall
  cases ha

end Entail.Quant
