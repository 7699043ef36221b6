import Entail.Proofs.Egraph.Nodes
import Entail.Proofs.Egraph.Reasons
import Entail.Proofs.Search.State

/-!
# The e-graph beside a trail

An e-graph that accompanies a search opens a level with every decision and goes back together with
the trail. Its reasons then cite literals of the trail only, whatever nodes and atoms it gets in
between: the reasons that a level started from cite the trail as it was at the decision, and they
come back with it.
-/

namespace Entail.Egraph

open Search

variable {g : Egraph} {k K : Classes} {levels : List (Nat × Nat)} {starts : List Nat}
  {lits : List Literal}
  {level : Nat}

/-! ## Nodes that the search knows -/

theorem known_eraseSigs (xs : List Nat) (g : Egraph) : (xs.foldl eraseSig g).known = g.known := by
  induction xs generalizing g with
  | nil => rfl
  | cons x xs ih =>
    rw [List.foldl_cons, ih]
    unfold eraseSig
    split
    · rfl
    · split <;> rfl

theorem known_enterSig (g : Egraph) (x : Nat) : (g.enterSig x).2.known = g.known := by
  unfold enterSig
  split
  · rfl
  · split <;> rfl

theorem known_enterSigs (xs : List Nat) (found : List Edge) (g : Egraph) :
    (enterSigs xs found g).2.known = g.known := by
  induction xs generalizing found g with
  | nil => rfl
  | cons x xs ih =>
    have hone := known_enterSig g x
    unfold enterSigs
    split
    all_goals
      next heq =>
        rw [heq] at hone
        exact (ih _ _).trans hone

theorem size_setAll (members : List Nat) (root : Array Nat) (r : Nat) :
    (members.foldl (fun root n => root.setIfInBounds n r) root).size = root.size := by
  induction members generalizing root with
  | nil => rfl
  | cons n members ih => rw [List.foldl_cons, ih, Array.size_setIfInBounds]

theorem known_merge (g : Egraph) (e : Edge) : (g.merge e).2.known = g.known := by
  unfold merge
  simp only
  split
  · rfl
  · refine (known_enterSigs _ _ _).trans ?_
    exact (size_setAll _ _ _).trans (known_eraseSigs _ (g.addEdge e))

theorem known_settle (bound : Nat) (es : List Edge) (g : Egraph) :
    (settle bound es g).known = g.known := by
  fun_induction settle bound es g with
  | case1 => rfl
  | case2 _ _ _ _ _ ih => exact ih
  | case3 => rfl
  | case4 g e rest _ bound more g' heq ih =>
    have hmerge := known_merge g e
    rw [heq] at hmerge
    exact ih.trans hmerge

theorem known_addToClasses (g : Egraph) (x : Nat) : (g.addToClasses x).known = g.known + 1 := by
  have hargs (as : List Nat) : ∀ g : Egraph, (as.foldl (fun g a => g.modifyClasses fun k =>
      { k with parents := k.parents.modify (k.root.getD a a) (·.push x) }) g).known = g.known := by
    induction as with
    | nil => exact fun _ => rfl
    | cons a as ih => exact fun g => ih _
  unfold addToClasses
  extract_lets g₁ g₂
  have h₁ : g₁.known = g.known + 1 := Array.size_push ..
  have h₂ : g₂.known = g.known + 1 := (hargs _ g₁).trans h₁
  split
  · exact h₂
  next key _ =>
    refine Eq.trans ?_ h₂
    unfold modifyClasses
    dsimp only
    split <;> rfl

theorem known_sync (g : Egraph) : g.sync.known = g.known + (g.nodes.size - g.known) := by
  have hcount (xs : List Nat) : ∀ g : Egraph, (xs.foldl addToClasses g).known = g.known +
      xs.length := by
    induction xs with
    | nil => exact fun _ => rfl
    | cons x xs ih =>
      intro g
      rw [List.foldl_cons, ih, known_addToClasses, List.length_cons]
      omega
  exact (hcount _ g).trans (by rw [List.length_range']; rfl)

theorem known_assertLit (g : Egraph) (l : Literal) : (g.assertLit l).2.known = g.known := by
  unfold assertLit
  split
  · rfl
  · split
    · rfl
    · exact known_settle _ _ _
  · exact known_settle _ _ _

theorem known_assertLits (ls : List Literal) (changed : Bool) (g : Egraph) :
    (assertLits ls changed g).2.known = g.known := by
  induction ls generalizing changed g with
  | nil => rfl
  | cons l ls ih => exact (ih _ _).trans (known_assertLit (g.modifyClasses _) l)

/-- A propagation takes all nodes into account. -/
theorem known_propagate (g : Egraph) (trail : Array Literal) :
    (g.propagate trail).2.known = g.known + (g.nodes.size - g.known) :=
  ((known_assertLits _ _ _).trans (known_settle _ _ _)).trans (known_sync g)

theorem known_startSearch (g : Egraph) : g.startSearch.known = g.nodes.size :=
  (known_sync g.clearClasses).trans (Nat.zero_add _)

theorem size_undoLast (n : Nat) (k : Classes) : (undoLast n k).root.size = k.root.size := by
  induction n generalizing k with
  | zero => rfl
  | succ n ih =>
    unfold undoLast
    split
    · rfl
    next u _ =>
      refine (ih _).trans ?_
      cases u with
      | merge small big numParents => exact size_setAll _ _ _
      | edge =>
        unfold revert
        dsimp only
        split <;> rfl
      | diseq => rfl
      | sigInsert key => rfl
      | sigErase key n => rfl

theorem known_backtrack (g : Egraph) (level : Nat) : (g.backtrack level).known = g.known := by
  unfold backtrack modifyClasses known
  dsimp only
  split
  · rfl
  · exact size_undoLast _ _

/-! ## Levels -/

/-- The reasons that each open level started from cite the trail as it was then, and come back when
the log is taken back to the length that was recorded. -/
inductive Layered : List (Nat × Nat) → List Nat → List Literal → Classes → Prop where
  | base (lits : List Literal) (k : Classes) : Layered [] [] lits k
  | level {levels : List (Nat × Nat)} {starts : List Nat} {lits : List Literal} {k K : Classes}
    {start : Nat}
    (hrest : Layered levels starts (lits.take start) K) (hcites : K.Cites (· ∈ lits.take start))
    (hprocessed : K.processed ≤ start) (hrecalls : Recalls K k) (hstart : start ≤ lits.length) :
    Layered (levels ++ [(K.undo.size, K.processed)]) (starts ++ [start]) lits k

namespace Layered

theorem length_eq (h : Layered levels starts lits k) : levels.length = starts.length := by
  induction h with
  | base => rfl
  | level _ _ _ _ _ ih =>
    rw [List.length_append, List.length_append, ih, List.length_singleton, List.length_singleton]

theorem of_recalls (h : Layered levels starts lits K) (hrecalls : Recalls K k) :
    Layered levels starts lits k := by
  cases h with
  | base => exact .base lits k
  | level hrest hcites hprocessed hrecalls' hstart =>
    exact .level hrest hcites hprocessed (hrecalls'.trans hrecalls) hstart

theorem extend (h : Layered levels starts lits k) (more : List Literal) :
    Layered levels starts (lits ++ more) k := by
  cases h with
  | base => exact .base _ k
  | @level levels starts _ _ K start hrest hcites hprocessed hrecalls hstart =>
    have htake : (lits ++ more).take start = lits.take start := List.take_append_of_le_length hstart
    refine .level (htake ▸ hrest) (htake ▸ hcites) hprocessed hrecalls ?_
    rw [List.length_append]
    exact Nat.le_trans hstart (Nat.le_add_right _ _)

/-- An open level has reasons to go back to. -/
theorem exists_level {start : Nat} (h : Layered levels starts lits k)
    (hlevel : starts[level]? = some start) :
    ∃ K, levels[level]? = some (K.undo.size, K.processed) ∧
      Layered (levels.take level) (starts.take level) (lits.take start) K ∧
      K.Cites (· ∈ lits.take start) ∧
      K.processed ≤ start ∧ Recalls K k ∧ start ≤ lits.length := by
  induction h with
  | base => simp at hlevel
  | @level levels starts lits k K last hrest hcites hprocessed hrecalls hlast ih =>
    have hlength := hrest.length_eq
    have hlt : level < starts.length + 1 := by
      have hin := (List.getElem?_eq_some_iff.mp hlevel).1
      rwa [List.length_append, List.length_singleton] at hin
    rcases Nat.lt_succ_iff_lt_or_eq.mp hlt with hlt | rfl
    · rw [List.getElem?_append_left hlt] at hlevel
      obtain ⟨K', hK', hlayered, hcites', hprocessed', hrecalls', hle⟩ := ih hlevel
      rw [List.length_take] at hle
      have htake : (lits.take last).take start = lits.take start := by
        rw [List.take_take, Nat.min_eq_left (Nat.le_trans hle (Nat.min_le_left _ _))]
      rw [htake] at hlayered hcites'
      refine ⟨K', ?_, ?_, hcites', hprocessed', hrecalls'.trans hrecalls,
        Nat.le_trans hle (Nat.min_le_right _ _)⟩
      · rw [List.getElem?_append_left (by omega), hK']
      · rwa [List.take_append_of_le_length (by omega), List.take_append_of_le_length (by omega)]
    · rw [List.getElem?_concat_length] at hlevel
      obtain rfl := Option.some.inj hlevel
      refine ⟨K, ?_, ?_, hcites, hprocessed, hrecalls, hlast⟩
      · rw [← hlength, List.getElem?_concat_length]
      · rwa [List.take_left, List.take_left' hlength]

end Layered

/-- Classes that go with a trail and the lengths it had before each decision. -/
structure Classes.Beside (lits : List Literal) (starts : List Nat) (k : Classes) : Prop where
  cites : k.Cites (· ∈ lits)
  processed : k.processed ≤ lits.length
  layered : Layered k.levels.toList starts lits k

namespace Classes.Beside

/-- The e-graph has as many levels as the trail. -/
theorem levels_eq (h : k.Beside lits starts) : k.levels.size = starts.length := h.layered.length_eq

theorem extend (h : k.Beside lits starts) {lits' : List Literal} (hlits : lits <+: lits') :
    k.Beside lits' starts := by
  obtain ⟨more, rfl⟩ := hlits
  refine ⟨h.cites.mono fun l hl => List.mem_append_left more hl, ?_, h.layered.extend more⟩
  rw [List.length_append]
  exact Nat.le_trans h.processed (Nat.le_add_right _ _)

/-- A new search has no levels and no reasons. -/
theorem start (g : Egraph) (lits : List Literal) : g.startSearch.classes.Beside lits [] := by
  have hgains := gains_startSearch g (· ∈ lits)
  refine ⟨hgains.cites, ?_, ?_⟩
  · rw [hgains.processed]
    exact Nat.zero_le _
  · rw [hgains.levels]
    exact .base _ _

/-- After a propagation all literals of the trail are processed, and a conflict is false
on the trail. -/
theorem propagate {trail : Array Literal} (h : g.classes.Beside trail.toList starts) :
    (g.propagate trail).2.classes.Beside trail.toList starts ∧
    (g.propagate trail).2.classes.processed = trail.size ∧
      ∀ lits, (g.propagate trail).1.conflict = some lits → ∀ l ∈ lits, l.neg ∈ trail.toList := by
  obtain ⟨hgains, hconflict⟩ := gains_propagate h.cites fun l (hl : l ∈ trail) =>
    Array.mem_toList_iff.mpr hl
  have hprocessed : (g.propagate trail).2.classes.processed = trail.size := by
    rw [hgains.processed]
    exact Nat.add_sub_cancel' (Array.length_toList ▸ h.processed)
  refine ⟨⟨hgains.cites, ?_, ?_⟩, hprocessed, hconflict⟩
  · exact Nat.le_of_eq (hprocessed.trans Array.length_toList.symm)
  · rw [hgains.levels]
    exact h.layered.of_recalls hgains.recalls

/-- A decision opens a level in both. -/
theorem decide (h : g.classes.Beside lits starts) (l : Literal) :
    g.openLevel.classes.Beside (lits ++ [l]) (starts ++ [lits.length]) := by
  have htake : (lits ++ [l]).take lits.length = lits := List.take_left
  have hlevels : g.openLevel.classes.levels.toList =
      g.classes.levels.toList ++ [(g.classes.undo.size, g.classes.processed)] := Array.toList_push
  have hopen := h.extend (List.prefix_append lits [l])
  refine ⟨hopen.cites.of_same rfl rfl rfl, hopen.processed, ?_⟩
  rw [hlevels]
  refine .level ?_ ?_ h.processed (.of_agrees ⟨rfl, rfl, rfl⟩) (by simp)
  · rw [htake]
    exact h.layered
  · rw [htake]
    exact h.cites

/-- Going back takes both to the same level. -/
theorem back {s : State} (h : g.classes.Beside s.trail s.starts) (level : Nat) :
    (g.backtrack level).classes.Beside (s.back level).trail (s.back level).starts := by
  have hnil {p : Literal → Prop} : ∀ e ∈ ([] : List Edge), e.Cites p :=
    fun e he => absurd he List.not_mem_nil
  have hget : g.classes.levels[level]? = g.classes.levels.toList[level]? :=
    Array.getElem?_toList.symm
  unfold Egraph.backtrack modifyClasses State.back
  dsimp only
  cases hstart : s.starts[level]? with
  | none =>
    have hnone : g.classes.levels[level]? = none := by
      rw [Array.getElem?_eq_none_iff, h.levels_eq]
      exact List.getElem?_eq_none_iff.mp hstart
    simp only [hnone]
    exact ⟨⟨h.cites.edges, h.cites.diseqs, hnil⟩, h.processed,
      h.layered.of_recalls (.of_agrees ⟨rfl, rfl, rfl⟩)⟩
  | some start =>
    obtain ⟨K, hK, hlayered, hcites, hprocessed, hrecalls, hle⟩ := h.layered.exists_level hstart
    have hback := hrecalls.undoLast
    rw [hget, hK]
    dsimp only
    refine ⟨⟨?_, ?_, hnil⟩, ?_, ?_⟩
    · exact hback.edges ▸ hcites.edges
    · exact hback.diseqs ▸ hcites.diseqs
    · exact Nat.le_trans hprocessed (by simp [State.cut, hle])
    · have hlevels : (g.classes.levels.shrink level).toList =
        g.classes.levels.toList.take level := by simp
      show Layered (g.classes.levels.shrink level).toList _ _ _
      rw [hlevels]
      exact hlayered.of_recalls (.of_agrees ⟨hback.edges, hback.diseqs, hback.undo⟩)

end Classes.Beside

/-- An e-graph that accompanies a search: a level opens only when all nodes are known. -/
structure Escorts (g : Egraph) (s : State) : Prop where
  beside : g.classes.Beside s.trail s.starts
  known : g.known ≤ g.nodes.size
  synced : s.starts ≠ [] → g.known = g.nodes.size

namespace Escorts

variable {s t : State}

theorem start (g : Egraph) (hstarts : s.starts = []) : g.startSearch.Escorts s := by
  have hnodes : g.startSearch.nodes = g.nodes := (sameNodes_startSearch g).nodes_eq
  have hknown : g.startSearch.known = g.startSearch.nodes.size :=
    (known_startSearch g).trans (congrArg _ hnodes.symm)
  refine ⟨?_, Nat.le_of_eq hknown, fun _ => hknown⟩
  rw [hstarts]
  exact .start g s.trail

/-- The trail may grow within its last level. -/
theorem extend (h : g.Escorts s) (htrail : s.trail <+: t.trail) (hstarts : t.starts = s.starts) :
    g.Escorts t := by
  refine ⟨?_, h.known, fun ht => h.synced (hstarts ▸ ht)⟩
  rw [hstarts]
  exact h.beside.extend htrail

/-- Nodes may be added at level 0. -/
theorem enlarge {g' : Egraph} (h : g.Escorts s) (hstarts : s.starts = [])
    (hclasses : g'.classes = g.classes) (hsize : g.nodes.size ≤ g'.nodes.size) : g'.Escorts s := by
  refine ⟨hclasses ▸ h.beside, ?_, fun hs => absurd hstarts hs⟩
  unfold Egraph.known
  rw [hclasses]
  exact Nat.le_trans h.known hsize

theorem propagate {trail : Array Literal} (h : g.Escorts s) (htrail : trail.toList = s.trail) :
    (g.propagate trail).2.Escorts s ∧
    (g.propagate trail).2.known = (g.propagate trail).2.nodes.size ∧
      (g.propagate trail).2.classes.processed = trail.size ∧
      ∀ lits, (g.propagate trail).1.conflict = some lits → ∀ l ∈ lits, l.neg ∈ s.trail := by
  obtain ⟨hbeside, hprocessed, hconflict⟩ := Classes.Beside.propagate (htrail ▸ h.beside)
  rw [htrail] at hbeside hconflict
  have hnodes : (g.propagate trail).2.nodes = g.nodes := (sameNodes_propagate g trail).nodes_eq
  have hknown : (g.propagate trail).2.known = (g.propagate trail).2.nodes.size := by
    rw [known_propagate, hnodes]
    exact Nat.add_sub_cancel' h.known
  exact ⟨⟨hbeside, Nat.le_of_eq hknown, fun _ => hknown⟩, hknown, hprocessed, hconflict⟩

theorem decide (h : g.Escorts s) (hknown : g.known = g.nodes.size) (l : Literal) :
    g.openLevel.Escorts (s.decide l) :=
  ⟨h.beside.decide l, h.known, fun _ => hknown⟩

theorem back (h : g.Escorts s) (level : Nat) : (g.backtrack level).Escorts (s.back level) := by
  refine ⟨h.beside.back level, ?_, fun ht => ?_⟩
  · rw [known_backtrack]
    exact h.known
  · rw [known_backtrack]
    refine h.synced fun hs => ht ?_
    unfold State.back
    simp [hs]

end Escorts
end Entail.Egraph
