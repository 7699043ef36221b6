import Entail.Proofs.Store.Runs
import Entail.Proofs.Tables
import Entail.Quant.Solver

/-!
# Tables of the quantifier solver

The index of the patterns and the set of instances say what the lists of patterns and of instances
say. The lists grow at their ends, and a scope is closed by cutting them.
-/

namespace Entail.Quant

variable {s : Store}

namespace PatternTable

variable {p : PatternTable}

/-- The index is that of the patterns. -/
def Indexed (p : PatternTable) : Prop := Indexes Pattern.term p.patterns p.index

theorem add_spec (h : p.Indexed) (s : Store) (t : Term) :
    (p.add s t).2.Indexed ∧ p.patterns.toList <+: (p.add s t).2.patterns.toList := by
  unfold add
  split
  · exact ⟨h, List.prefix_rfl⟩
  next hnew =>
    split
    next head args _ => exact ⟨Indexes.push (x := ⟨t, head, variablesOf s t⟩) h hnew, by simp⟩
    · exact ⟨h, List.prefix_rfl⟩

theorem addAll_spec (h : p.Indexed) (s : Store) (ts : List Term) :
    (addAll s ts p).2.Indexed ∧ p.patterns.toList <+: (addAll s ts p).2.patterns.toList := by
  induction ts generalizing p with
  | nil => exact ⟨h, List.prefix_rfl⟩
  | cons t ts ih =>
    obtain ⟨h₁, hp₁⟩ := add_spec h s t
    obtain ⟨h₂, hp₂⟩ := ih h₁
    exact ⟨h₂, hp₁.trans hp₂⟩

end PatternTable

/-- Every table was not larger in `a` than in `b`. -/
instance : LE Mark where
  le a b := a.constraints ≤ b.constraints ∧ a.patterns ≤ b.patterns ∧ a.log ≤ b.log

namespace Solver

variable {q q' q'' : Solver}

/-- The tables are those of the lists of patterns and of instances. -/
structure Indexed (q : Solver) : Prop where
  patterns : q.patterns.Indexed
  instances : ∀ {t}, t ∈ q.instances ↔ t ∈ q.log
  nodup : q.log.toList.Nodup
  count : q.numInstances = q.log.size
  marks : ∀ {m}, m ∈ q.scopes → m.numInstances = m.log

theorem indexed_empty : ({} : Solver).Indexed where
  patterns := .empty
  instances := by simp
  nodup := List.nodup_nil
  count := rfl
  marks := nofun

/-- Sizes of the tables. -/
def sizes (q : Solver) : Mark := ⟨q.constraints.size, q.patterns.size, q.log.size, q.numInstances⟩

/-- The sizes at which scopes were opened do not grow from the innermost scope on, and are not above
the present ones. -/
def Nested (q : Solver) : Prop := (q.sizes :: q.scopes).Pairwise (· ≥ ·)

/-- Constraints, patterns and instances that stay when a scope is closed that was opened at the
given sizes. -/
def upTo (q : Solver) (m : Mark) : List Constraint × List Pattern × List Term :=
  (q.constraints.toList.take m.constraints, q.patterns.patterns.toList.take m.patterns,
    q.log.toList.take m.log)

/-- The lists of `q'` start with those of `q`. -/
structure Grows (q q' : Solver) : Prop where
  indexed : q'.Indexed
  constraints : q.constraints.toList <+: q'.constraints.toList
  patterns : q.patterns.patterns.toList <+: q'.patterns.patterns.toList
  log : q.log.toList <+: q'.log.toList
  scopes : q'.scopes = q.scopes

namespace Grows

theorem refl (h : q.Indexed) : Grows q q :=
  ⟨h, List.prefix_rfl, List.prefix_rfl, List.prefix_rfl, rfl⟩

theorem trans (h : Grows q q') (h' : Grows q' q'') : Grows q q'' :=
  ⟨h'.indexed, h.constraints.trans h'.constraints, h.patterns.trans h'.patterns, h.log.trans h'.log,
    h'.scopes.trans h.scopes⟩

theorem sizes (h : Grows q q') : q.sizes ≤ q'.sizes :=
  ⟨size_le_of_isPrefix h.constraints, size_le_of_isPrefix h.patterns, size_le_of_isPrefix h.log⟩

theorem take_eq {α : Type} {as bs : Array α} {count : Nat} (h : as.toList <+: bs.toList)
    (hcount : count ≤ as.size) :
    bs.toList.take count = as.toList.take count := by
  obtain ⟨l, hl⟩ := h
  rw [← hl]
  exact List.take_append_of_le_length (by simpa using hcount)

theorem upTo (h : Grows q q') {m : Mark} (hm : m ≤ q.sizes) : q'.upTo m = q.upTo m := by
  obtain ⟨h₁, h₂, h₃⟩ := hm
  exact Prod.ext (take_eq h.constraints h₁) (Prod.ext (take_eq h.patterns h₂) (take_eq h.log h₃))

end Grows

/-- A registered constraint is the last one. -/
theorem addConstraint_grows (h : q.Indexed) {formula : Term} {explicit : List Term}
    (hq : q.addConstraint s formula explicit = .ok q') : Grows q q' := by
  unfold addConstraint at hq
  split at hq
  next vars body _ =>
    cases hc : choosePatterns s vars body explicit with
    | error e =>
      rw [hc] at hq
      cases hq
    | ok terms =>
      rw [hc] at hq
      obtain ⟨hi, hp⟩ := PatternTable.addAll_spec h.patterns s terms
      cases hq
      exact ⟨⟨hi, h.instances, h.nodup, h.count, h.marks⟩, by simp, hp, List.prefix_rfl, rfl⟩
  · cases hq

/-- A constraint that is new is the given formula. -/
theorem formula_addConstraint {formula : Term} {explicit : List Term}
    (h : q.addConstraint s formula explicit = .ok q') :
    ∀ c ∈ q'.constraints, c ∈ q.constraints ∨ c.formula = formula := by
  unfold addConstraint at h
  split at h
  · obtain ⟨terms, -, h⟩ := Store.bind_eq_ok_iff.mp h
    cases h
    intro c hc
    rcases Array.mem_push.mp hc with hc | rfl
    · exact .inl hc
    · exact .inr rfl
  · cases h

theorem startSearch_grows (h : q.Indexed) (p : Params) : Grows q (q.startSearch p) :=
  ⟨⟨h.patterns, h.instances, h.nodup, h.count, h.marks⟩, List.prefix_rfl, List.prefix_rfl,
    List.prefix_rfl, rfl⟩

/-! ## Instances -/

theorem add_grows {r : Round} (h : r.solver.Indexed) {t : Term} (ht : t ∉ r.solver.instances) :
    Grows r.solver (r.add t).solver := by
  refine ⟨⟨h.patterns, ?_, ?_, ?_, h.marks⟩, List.prefix_rfl,
    List.prefix_rfl, by simp [Round.add], rfl⟩
  · intro u
    show u ∈ r.solver.instances.insert t ↔ u ∈ r.solver.log.push t
    rw [Std.HashSet.mem_insert, Array.mem_push, h.instances, beq_iff_eq, or_comm, eq_comm (a := t)]
  · show (r.solver.log.push t).toList.Nodup
    rw [Array.toList_push]
    refine List.nodup_append.mpr ⟨h.nodup, by simp, fun a ha b hb => ?_⟩
    rw [List.mem_singleton] at hb
    subst hb
    exact fun hab => ht (h.instances.mpr (by simpa [hab] using ha))
  · show r.solver.numInstances + 1 = (r.solver.log.push t).size
    rw [Array.size_push, h.count]

/-- Producing instances extends the store and the log. -/
theorem instantiate_grows (g : Egraph) (c : Constraint) (bs : List Binding) (r : Round)
    (h : r.solver.Indexed) (hs : s.Wf) :
    Store.Built s (instantiate g c bs r s).2 ∧
    Grows r.solver (instantiate g c bs r s).1.solver := by
  induction bs generalizing r s with
  | nil => exact ⟨Store.built_frame.refl hs, .refl h⟩
  | cons b bs ih =>
    unfold instantiate
    split
    · exact ⟨Store.built_frame.refl hs, .refl h⟩
    · cases replacement? g c.vars b with
      | none => exact ih r h hs
      | some σ =>
        have hsubst := Store.builders_built.subst σ c.body s hs
        simp only
        split
        next e s' heq =>
          rw [heq] at hsubst
          obtain ⟨hl, hg⟩ := ih r h hsubst.later.wf
          exact ⟨Store.built_frame.trans hsubst hl, hg⟩
        next t s' heq =>
          rw [heq] at hsubst
          split
          · obtain ⟨hl, hg⟩ := ih r h hsubst.later.wf
            exact ⟨Store.built_frame.trans hsubst hl, hg⟩
          next hnew =>
            have hnot : t ∉ r.solver.instances := by
              intro ht
              exact hnew (by simp [ht])
            have hadd := add_grows h hnot
            obtain ⟨hl, hg⟩ := ih (r.add t) hadd.indexed hsubst.later.wf
            exact ⟨Store.built_frame.trans hsubst hl, hadd.trans hg⟩

theorem instantiateAll_grows (g : Egraph) (cs : List Constraint) (r : Round) (h : r.solver.Indexed)
    (hs : s.Wf) :
    Store.Built s (instantiateAll g cs r s).2 ∧
    Grows r.solver (instantiateAll g cs r s).1.solver := by
  induction cs generalizing r s with
  | nil => exact ⟨Store.built_frame.refl hs, .refl h⟩
  | cons c cs ih =>
    unfold instantiateAll
    split
    · exact ⟨Store.built_frame.refl hs, .refl h⟩
    · split
      · exact ih r h hs
      · obtain ⟨hl, hg⟩ := instantiate_grows g c (r.solver.bindings g s c) r h hs
        obtain ⟨hl', hg'⟩ := ih (instantiate g c (r.solver.bindings g s c) r s).1
          hg.indexed hl.later.wf
        exact ⟨Store.built_frame.trans hl hl', hg.trans hg'⟩

/-- A look at a complete assignment extends the store and the log. -/
theorem finalCheck_grows (h : q.Indexed) (g : Option Egraph) (hs : s.Wf) :
    Store.Built s (q.finalCheck g s).2 ∧ Grows q (q.finalCheck g s).1.2.2 := by
  unfold finalCheck
  split
  · exact ⟨Store.built_frame.refl hs, .refl h⟩
  next g =>
    split
    · exact ⟨Store.built_frame.refl hs, .refl h⟩
    · exact instantiateAll_grows g q.constraints.toList ⟨q, #[]⟩ h hs

/-- Producing instances leaves the constraints alone. -/
theorem constraints_instantiate (g : Egraph) (c : Constraint) (bs : List Binding) (r : Round)
    (s : Store) :
    (instantiate g c bs r s).1.solver.constraints = r.solver.constraints := by
  induction bs generalizing r s with
  | nil => rfl
  | cons b bs ih =>
    unfold instantiate
    split
    · rfl
    · cases replacement? g c.vars b with
      | none => exact ih r s
      | some σ =>
        simp only
        split
        · exact ih r _
        · split
          · exact ih r _
          · exact ih (r.add _) _

theorem constraints_instantiateAll (g : Egraph) (cs : List Constraint) (r : Round) (s : Store) :
    (instantiateAll g cs r s).1.solver.constraints = r.solver.constraints := by
  induction cs generalizing r s with
  | nil => rfl
  | cons c cs ih =>
    unfold instantiateAll
    split
    · rfl
    · split
      · exact ih r s
      · exact (ih _ _).trans (constraints_instantiate g c _ r s)

/-- A look at a complete assignment leaves the constraints alone. -/
theorem constraints_finalCheck (q : Solver) (g : Option Egraph) (s : Store) :
    (q.finalCheck g s).1.2.2.constraints = q.constraints := by
  cases g with
  | none => rfl
  | some g =>
    unfold finalCheck
    dsimp only
    split
    · rfl
    · exact constraints_instantiateAll g _ _ s

/-! ## Scopes -/

/-- Closing a scope leaves what there was when it was opened. -/
theorem pop_spec (h : q.Indexed) (hnested : q.Nested) {m : Mark} {scopes : List Mark}
    (hm : q.scopes = m :: scopes) :
    q.pop.Indexed ∧ q.pop.Nested ∧ q.pop.scopes = scopes ∧ q.pop.sizes = m ∧
      ∀ {outer}, outer ≤ m → q.pop.upTo outer = q.upTo outer := by
  have hpop : q.pop = { q with
      scopes
      constraints := q.constraints.take m.constraints
      patterns := q.patterns.take m.patterns
      instances := (q.log.toList.drop m.log).foldl (fun set t => set.erase t) q.instances
      log := q.log.take m.log
      numInstances := m.numInstances } := by
    unfold Solver.pop
    rw [hm]
  rw [Nested, hm] at hnested
  obtain ⟨hle, hrest⟩ := List.pairwise_cons.mp hnested
  obtain ⟨hc, hp, hl⟩ : m.constraints ≤ q.constraints.size ∧ m.patterns ≤ q.patterns.patterns.size ∧
    m.log ≤ q.log.size := hle _ List.mem_cons_self
  have hlog : (q.log.take m.log).toList = q.log.toList.take m.log := by
    rw [Array.take_eq_extract, Array.toList_extract]
    rfl
  have hsize {α : Type} (as : Array α) {count : Nat} (h : count ≤ as.size) :
      (as.take count).size = count := by
    rw [Array.take_eq_extract, Array.size_extract]
    omega
  have hnum := h.marks (m := m) (by rw [hm]; exact List.mem_cons_self)
  have hsizes : q.pop.sizes = m := by
    rw [hpop]
    show (⟨(q.constraints.take _).size, (q.patterns.patterns.take _).size, (q.log.take _).size,
      _⟩ : Mark) = m
    rw [hsize _ hc, hsize _ hp, hsize _ hl]
  refine ⟨?_, ?_, by rw [hpop], hsizes, fun {outer} houter => ?_⟩
  · rw [hpop]
    refine ⟨h.patterns.take m.patterns, fun {t} => ?_, ?_, ?_, fun {m'} hm' => ?_⟩
    · rw [mem_foldl_erase, h.instances, ← Array.mem_toList_iff, ← Array.mem_toList_iff, hlog]
      -- the log has no repetition, so what is erased with its end is not in the rest
      have hnodup := h.nodup
      rw [← List.take_append_drop m.log q.log.toList, List.nodup_append] at hnodup
      conv_lhs => rw [← List.take_append_drop m.log q.log.toList]
      rw [List.mem_append]
      constructor
      · rintro ⟨ht | ht, hnot⟩
        · exact ht
        · exact absurd ht (by simpa using hnot)
      · intro ht
        exact ⟨.inl ht, fun hd => hnodup.2.2 t ht t (by simpa using hd) rfl⟩
    · rw [hlog]
      exact h.nodup.sublist (List.take_sublist _ _)
    · show m.numInstances = (q.log.take m.log).size
      rw [hsize _ hl, hnum]
    · exact h.marks (by rw [hm]; exact List.mem_cons_of_mem _ hm')
  · rw [Nested, hsizes, show q.pop.scopes = scopes by rw [hpop]]
    exact hrest
  · have htake {α : Type} (as : Array α) {count below : Nat} (hle : below ≤ count) :
        (as.take count).toList.take below = as.toList.take below := by
      rw [Array.take_eq_extract, Array.toList_extract, List.extract_eq_take_drop, List.drop_zero,
        Nat.sub_zero,
        List.take_take, Nat.min_eq_left hle]
    rw [hpop]
    exact Prod.ext (htake _ houter.1) (Prod.ext (htake _ houter.2.1) (htake _ houter.2.2))

theorem push_spec (h : q.Indexed) (hnested : q.Nested) :
    q.push.Indexed ∧ q.push.Nested ∧ q.push.scopes = q.sizes :: q.scopes ∧ q.push.sizes = q.sizes ∧
      ∀ m, q.push.upTo m = q.upTo m := by
  refine ⟨⟨h.patterns, h.instances, h.nodup, h.count, fun {m} hm => ?_⟩, ?_, rfl, rfl, fun _ => rfl⟩
  · rcases List.mem_cons.mp hm with rfl | hm
    · exact h.count
    · exact h.marks hm
  · refine List.pairwise_cons.mpr ⟨fun m hm => ?_, hnested⟩
    rcases List.mem_cons.mp hm with rfl | hm
    · exact ⟨Nat.le_refl _, Nat.le_refl _, Nat.le_refl _⟩
    · exact (List.pairwise_cons.mp hnested).1 m hm

theorem mergeScope_spec (h : q.Indexed) (hnested : q.Nested) :
    q.mergeScope.Indexed ∧ q.mergeScope.Nested ∧ q.mergeScope.sizes = q.sizes ∧
      ∀ m, q.mergeScope.upTo m = q.upTo m :=
  ⟨⟨h.patterns, h.instances, h.nodup, h.count, fun hm => h.marks (List.mem_of_mem_tail hm)⟩,
    hnested.sublist ((List.tail_sublist _).cons_cons _), rfl, fun _ => rfl⟩

end Solver
end Entail.Quant
