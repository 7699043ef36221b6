import Entail.Proofs.Egraph.Sufficient

/-!
# Assignments that the theory of equality admits

An assignment is admitted when congruence closure of the equations among its literals neither makes
truth equal to falsity nor two nodes that have to differ. Every clause of a conflict excludes
admitted assignments only where it has to: a literal of it is among theirs. And when no conflict is
found on a trail, the trail is admitted.
-/

namespace Entail.Egraph

open Search

variable {g g' : Egraph} {s t : State} {lits lits' done clause : List Literal} {l : Literal}
  {last : Option Propagation}
  {p : Propagation} {level : Nat}

/-- The literals are consistent with the theory of equality. -/
structure Admits (g : Egraph) (lits : List Literal) : Prop where
  constants : ¬ g.Cong lits trueNode falseNode
  differ : ∀ l ∈ lits, ∀ a b, g.disequation? l = some (a, b) → ¬ g.Cong lits a b

theorem node_of_nodes (h : g'.nodes = g.nodes) (n : Nat) : g'.node n = g.node n := by
  unfold node
  rw [h]

theorem equation_of_atoms (h : ∀ v : Nat, g'.atoms[v]? = g.atoms[v]?) (l : Literal) :
    g'.equation? l = g.equation? l ∧ g'.disequation? l = g.disequation? l := by
  unfold equation? disequation?
  rw [h]
  exact ⟨rfl, rfl⟩

/-- Only nodes and atoms matter, and which literals there are. -/
theorem Admits.congr (h : g.Admits lits) (hlits : ∀ l, l ∈ lits' ↔ l ∈ lits)
    (hnodes : g'.nodes = g.nodes)
    (hatoms : ∀ v : Nat, g'.atoms[v]? = g.atoms[v]?) : g'.Admits lits' := by
  have hcong {a b : Nat} (hab : g'.Cong lits' a b) : g.Cong lits a b :=
    hab.mono (fun _ => (node_of_nodes hnodes _).symm) fun {l a b} hl he =>
      ⟨(hlits l).mp hl, (equation_of_atoms hatoms l).1 ▸ he⟩
  refine ⟨fun hab => h.constants (hcong hab), fun l hl a b hdiffer hab => ?_⟩
  exact h.differ l ((hlits l).mp hl) a b ((equation_of_atoms hatoms l).2 ▸ hdiffer) (hcong hab)

/-- An e-graph without applications and atoms admits all literals. -/
theorem admits_empty (lits : List Literal) : Egraph.empty.Admits lits := by
  have hatoms (v : Nat) : Egraph.empty.atoms[v]? = none := Std.HashMap.getElem?_empty
  have hfunc (n : Nat) : (Egraph.empty.node n).func = none := by
    match n with
    | 0 | 1 => rfl
    | n + 2 => rfl
  have hequal : Egraph.empty.IsCongruence (· = ·) := ⟨eq_equivalence, fun {p _ _} hp => by
    rw [hfunc p] at hp
    cases hp⟩
  refine ⟨fun hcong => ?_, fun l _ a b hdiffer => ?_⟩
  · have hsame := hequal.of_cong (fun {l _ _} _ hl => by
      unfold equation? at hl
      rw [hatoms l.var] at hl
      cases hl) hcong
    exact absurd hsame (by decide)
  · unfold disequation? at hdiffer
    rw [hatoms l.var] at hdiffer
    cases hdiffer

/-- A clause of a conflict has a literal of every admitted assignment of the literals that
were processed. -/
theorem Admits.conflict (h : g.Admits lits) (hreached : Reached g done)
    (hclause : g.conflict? = some clause)
    (htotal : ∀ l ∈ done, l ∈ lits ∨ l.neg ∈ lits) : ∃ l ∈ clause, l ∈ lits := by
  obtain ⟨Ks, hheld⟩ := hreached.held invariant_ordered
  have hdone := cites_conflict? hheld.cites hclause
  by_contra hnone
  have hfalse (l : Literal) (hl : l ∈ clause) : l.neg ∈ lits := by
    have hmem := htotal l.neg (hdone l hl).1
    rw [Literal.neg_neg] at hmem
    exact hmem.resolve_right fun hin => hnone ⟨l, hl, hin⟩
  unfold conflict? at hclause
  split at hclause
  · cases hclause
  next a b l hfound =>
    obtain ⟨ls, hls, rfl⟩ := Option.map_eq_some_iff.mp hclause
    have hroot : g.root a = g.root b := by simpa [areEqual] using Array.find?_some hfound
    have hsub : ls ⊆ lits := fun l' hl' => by
      have hneg := hfalse l'.neg (List.mem_append_left _ (List.mem_map_of_mem hl'))
      rwa [Literal.neg_neg] at hneg
    have hcong : g.Cong lits a b := (hheld.cong_of_explain? hroot hls).of_subset hsub
    rcases hheld.follows.takes.differ.mp (Array.mem_of_find?_eq_some hfound) with heq | ⟨l', -, c,
      d, hdiffer, heq⟩
    · cases heq
      exact h.constants hcong
    · cases heq
      have hneg := hfalse l'.neg (List.mem_append_right _ (by simp))
      rw [Literal.neg_neg] at hneg
      exact h.differ l' hneg a b hdiffer hcong

/-! ## E-graphs that follow a trail -/

/-- The e-graph has taken a beginning of the trail into account and can go back to every
level of it. -/
structure Tracks (g : Egraph) (s : State) (last : Option Propagation) : Prop where
  kept : Stage.Kept ⟨g, s.trail.toArray, s.starts.toArray, last⟩
  reached : ∃ done, Reached g done ∧ done <+: s.trail

namespace Tracks

theorem startSearch (hg : g.Wf) (hstarts : s.starts = []) : Tracks g.startSearch s none := by
  refine ⟨?_, [], .start hg, List.nil_prefix⟩
  rw [hstarts]
  exact .startSearch hg s.trail.toArray

/-- What the last propagation came to may be forgotten. -/
theorem forget (h : Tracks g s last) (hnone : ∀ p, last = some p → p.conflict = none) :
    Tracks g s none :=
  ⟨⟨h.kept.follows, h.kept.processed_le, h.kept.known, h.kept.saved, fun _ =>
    h.kept.consistent hnone, nofun⟩, h.reached⟩

/-- The trail may have grown at its level. -/
theorem extend (h : Tracks g s none) (htrail : s.trail <+: t.trail)
    (hstarts : t.starts = s.starts) : Tracks g t none := by
  obtain ⟨more, hmore⟩ := htrail
  obtain ⟨done, hdone, hbefore⟩ := h.reached
  refine ⟨?_, done, hdone, hbefore.trans ⟨more, hmore⟩⟩
  rw [hstarts, ← hmore, ← List.append_toArray]
  exact h.kept.extend nofun more.toArray

theorem propagate (h : Tracks g s none) :
    Tracks (g.propagate s.trail.toArray).2 s (some (g.propagate s.trail.toArray).1) := by
  obtain ⟨done, hdone, hbefore⟩ := h.reached
  refine ⟨h.kept.propagate nofun, s.trail, .step hdone (.propagate hbefore ?_), List.prefix_rfl⟩
  by_cases hstarts : s.starts.toArray = #[]
  · refine .inl (Array.eq_empty_of_size_eq_zero ?_)
    rw [h.kept.saved.size_eq]
    show s.starts.toArray.size = 0
    rw [hstarts]
    rfl
  · exact .inr (h.kept.known hstarts)

theorem decide (h : Tracks g s (some p)) (hnone : p.conflict = none) (l : Literal) :
    Tracks g.openLevel (s.decide l) none := by
  obtain ⟨done, hdone, hbefore⟩ := h.reached
  refine ⟨?_, done, .step hdone (.openLevel g done), hbefore.trans (List.prefix_append _ _)⟩
  have hkept := h.kept.decide rfl hnone l
  have htrail : s.trail.toArray.push l = (s.decide l).trail.toArray := List.push_toArray _ _
  have hstarts : s.starts.toArray.push s.trail.toArray.size = (s.decide l).starts.toArray :=
    List.push_toArray _ _
  simp only [htrail, hstarts] at hkept
  exact hkept

/-- Going back to an open level. -/
theorem back (h : Tracks g s last) (hlevel : level < s.starts.length) :
    Tracks (g.backtrack level) (s.back level) none := by
  have hstart : s.starts[level]? = some s.starts[level] := List.getElem?_eq_getElem hlevel
  have hopen : s.starts.toArray[level]? = some s.starts[level] := by simp [hlevel]
  have hkept := h.kept.backtrack hopen
  have htrail : (s.back level).trail = s.trail.take s.starts[level] := by
    unfold State.back
    rw [hstart]
    rfl
  have hstarts : (s.back level).starts = s.starts.take level := by
    unfold State.back
    rw [hstart]
  have hkept' : Stage.Kept ⟨g.backtrack level, (s.back level).trail.toArray,
      (s.back level).starts.toArray, none⟩ := by
    rw [htrail, hstarts]
    simpa using hkept
  obtain ⟨done, hdone, hbefore⟩ := h.reached
  refine ⟨hkept', _, .step hdone (.backtrack g done level), ?_⟩
  -- what is left was processed before the level was opened
  have hle : (g.backtrack level).classes.processed ≤ s.starts[level] := by
    have hprocessed := hkept'.processed_le
    have hlength : (s.back level).trail.toArray.size ≤ s.starts[level] := by
      rw [htrail, List.size_toArray]
      exact List.length_take_le _ _
    exact Nat.le_trans hprocessed hlength
  rw [htrail]
  refine List.prefix_of_prefix_length_le ((List.take_prefix _ _).trans hbefore)
    (List.take_prefix _ _) ?_
  have hlength := hbefore.length_le
  rw [List.length_take, List.length_take]
  omega

/-- Going back to level 0, whether levels are open or not. -/
theorem base (h : Tracks g s none) : Tracks (g.backtrack 0) (s.back 0) none := by
  by_cases hlevel : 0 < s.starts.length
  · exact h.back hlevel
  · have hempty : s.starts = [] := List.eq_nil_of_length_eq_zero (Nat.eq_zero_of_not_pos hlevel)
    have hsame : s.back 0 = s := by
      unfold State.back
      rw [hempty]
      rfl
    obtain ⟨done, hdone, hbefore⟩ := h.reached
    rw [hsame]
    refine ⟨?_, _, .step hdone (.backtrack g done 0), (List.take_prefix _ _).trans hbefore⟩
    exact h.kept.stay nofun (by simp [hempty])

theorem grow (h : Tracks g s none) (hstarts : s.starts = []) (hgrown : Grown s.trail.toArray g g') :
    Tracks g' s none := by
  obtain ⟨done, hdone, hbefore⟩ := h.reached
  refine ⟨h.kept.grow nofun (by simp [hstarts]) hgrown, done, hdone.grow ?_, hbefore⟩
  refine ⟨hgrown.wf, hgrown.nodes, fun l hl => hgrown.atoms l ?_, hgrown.classes⟩
  exact List.mem_toArray.mpr (hbefore.subset (List.mem_toArray.mp hl))

/-- A conflict is one of the literals that were processed. -/
theorem found (h : Tracks g s (some p)) (hclause : p.conflict = some clause) :
    ∃ done, Reached g done ∧ done <+: s.trail ∧ g.conflict? = some clause := by
  obtain ⟨g₀, -, hp⟩ := h.kept.last p rfl
  obtain ⟨done, hdone, hbefore⟩ := h.reached
  have hconflict := hp.conflict
  rw [hclause] at hconflict
  split at hconflict
  · exact ⟨done, hdone, hbefore, hconflict.symm⟩
  · cases hconflict

/-- The literals of a conflict are false on the trail. -/
theorem false (h : Tracks g s (some p)) (hclause : p.conflict = some clause) :
    ∀ l ∈ clause, l.neg ∈ s.trail := by
  obtain ⟨done, hdone, hbefore, hfound⟩ := h.found hclause
  obtain ⟨Ks, hheld⟩ := hdone.held invariant_ordered
  exact fun l hl => hbefore.subset (cites_conflict? hheld.cites hfound l hl).1

/-- A clause of a conflict has a literal of every admitted assignment of the variables on the
trail. -/
theorem conflict (h : Tracks g s (some p)) (hclause : p.conflict = some clause)
    (hlits : g.Admits lits)
    (htotal : ∀ l ∈ s.trail, l ∈ lits ∨ l.neg ∈ lits) : ∃ l ∈ clause, l ∈ lits := by
  obtain ⟨done, hdone, hbefore, hfound⟩ := h.found hclause
  exact hlits.conflict hdone hfound fun l hl => htotal l (hbefore.subset hl)

/-- Without a conflict the trail is admitted. -/
theorem admits (h : Tracks g s (some p)) (hnone : p.conflict = none) : g.Admits s.trail := by
  obtain ⟨g₀, hold, hp⟩ := h.kept.last p rfl
  have hconsistent : g.Consistent := by
    by_contra hnot
    have hsome := (hp.conflict_isSome hold).mpr hnot
    rw [hnone] at hsome
    cases hsome
  have hnot := mt hp.not_consistent_iff.mpr (not_not.mpr hconsistent)
  refine ⟨fun hcong => hnot (.inl hcong), fun l hl a b hdiffer hcong =>
    hnot (.inr ⟨l, ?_, a, b, hdiffer, hcong⟩)⟩
  exact List.mem_toArray.mpr hl

end Tracks
end Entail.Egraph
