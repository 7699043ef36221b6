import Entail.Proofs.Egraph.Propagate

/-!
# The e-graph in a search

A search starts the e-graph, propagates whenever its trail has grown, opens a level with every
decision, and goes back when there was a conflict. New nodes and atoms come at level 0 only.
Whatever order this happens in, after a propagation two nodes are in one class exactly when their
equality follows from the trail, and a conflict is reported exactly when the trail makes nodes
differ that are equal, or the constants equal.
-/

namespace Entail.Egraph

/-- An e-graph and the search that it accompanies. -/
structure Stage where
  graph : Egraph
  trail : Array Literal
  /-- Lengths of the trail before each decision. -/
  starts : Array Nat
  /-- What the last propagation came to, if nothing has happened since. -/
  last : Option Propagation

/-- The last thing that happened was not a conflict. -/
def Stage.Clear (s : Stage) : Prop := ∀ p, s.last = some p → p.conflict = none

/-- `g'` has more nodes and more atoms than `g`, and the same atoms for the variables of the
trail. -/
structure Grown (trail : Array Literal) (g g' : Egraph) : Prop where
  wf : g'.Wf
  nodes : g.nodes.toList <+: g'.nodes.toList
  atoms : ∀ l ∈ trail, g'.atoms[l.var]? = g.atoms[l.var]?
  classes : g'.classes = g.classes

/-- What a search does with the e-graph, in any order that it allows: after a conflict it goes
back, it decides only when a propagation has found no conflict, and nodes are added when no
level is open. -/
inductive Run : Stage → Prop where
  | start {g : Egraph} (hg : g.Wf) (trail : Array Literal) : Run ⟨g.startSearch, trail, #[], none⟩
  | extend {s : Stage} (h : Run s) (hclear : s.Clear) (lits : Array Literal) :
    Run { s with trail := s.trail ++ lits, last := none }
  | propagate {s : Stage} (h : Run s) (hclear : s.Clear) :
    Run { s with graph := (s.graph.propagate s.trail).2, last := some (s.graph.propagate s.trail).1
      }
  | decide {s : Stage} (h : Run s) {p : Propagation} (hlast : s.last = some p)
    (hnone : p.conflict = none)
    (l : Literal) : Run ⟨s.graph.openLevel, s.trail.push l, s.starts.push s.trail.size, none⟩
  | backtrack {s : Stage} (h : Run s) {level start : Nat} (hlevel : s.starts[level]? = some start) :
    Run ⟨s.graph.backtrack level, s.trail.take start, s.starts.take level, none⟩
  | stay {s : Stage} (h : Run s) (hclear : s.Clear) {level : Nat} (hlevel : s.starts.size ≤ level) :
    Run { s with graph := s.graph.backtrack level, last := none }
  | grow {s : Stage} (h : Run s) (hclear : s.Clear) (hbase : s.starts = #[]) {g : Egraph}
    (hgrown : Grown s.trail s.graph g) : Run { s with graph := g, last := none }

variable {g g' : Egraph} {lits done : List Literal} {trail : Array Literal} {k k' K : Classes}
  {levels : Array (Nat × Nat)} {starts : Array Nat} {level start a b : Nat} {s : Stage}
  {p : Propagation}

/-! ## New nodes -/

namespace Grown

variable (h : Grown trail g g')

include h

theorem known_eq : g'.known = g.known := congrArg (fun k : Classes => k.root.size) h.classes

/-- Nodes that are added later leave the roots as they were. -/
theorem root_eq : g'.root = g.root := by
  funext n
  rw [root, root, h.classes]

theorem node_eq {n : Nat} (hn : n < g.nodes.size) : g'.node n = g.node n := by
  have hget : g'.nodes[n]? = g.nodes[n]? := getElem?_of_isPrefix h.nodes hn
  rw [node, node, Array.getD_eq_getD_getElem?, Array.getD_eq_getD_getElem?, hget]

theorem signature?_eq {n : Nat} (hn : n < g.nodes.size) : g'.signature? n = g.signature? n := by
  rw [signature?, signature?, h.node_eq hn, h.root_eq]

theorem equation?_eq {l : Literal} (hl : l ∈ trail) : g'.equation? l = g.equation? l := by
  rw [equation?, equation?, h.atoms l hl]

theorem disequation?_eq {l : Literal} (hl : l ∈ trail) : g'.disequation? l = g.disequation? l := by
  rw [disequation?, disequation?, h.atoms l hl]

/-- What the trail makes equal it makes equal also after nodes were added. -/
theorem cong (hc : g.Cong trail.toList a b) : g'.Cong trail.toList a b := by
  refine hc.mono (fun hp => h.node_eq (lt_size_of_func hp)) fun {l a b} hl he => ⟨hl, ?_⟩
  rw [h.equation?_eq (Array.mem_toList_iff.mp hl), he]

/-- An edge stays valid when nodes are added. -/
theorem valid {e : Edge} (hle : g.known ≤ g.nodes.size) (he : e.Valid g) : e.Valid g' := by
  refine ⟨h.known_eq ▸ he.a_lt, h.known_eq ▸ he.b_lt, fun {p q} hr => ?_⟩
  obtain ⟨hp, hq, hpq⟩ := he.congruent hr
  rw [h.known_eq, Alike, h.signature?_eq (Nat.lt_of_lt_of_le hp hle),
    h.signature?_eq (Nat.lt_of_lt_of_le hq hle)]
  exact ⟨hp, hq, hpq⟩

theorem merging (hm : Merging (g.Cong trail.toList) [] g) :
    Merging (g'.Cong trail.toList) [] g' := by
  have hle := hm.tables.known_le
  have hsize : g.nodes.size ≤ g'.nodes.size := size_le_of_isPrefix h.nodes
  have hlt {n : Nat} (hn : n < g.known) : n < g.nodes.size := Nat.lt_of_lt_of_le hn hle
  refine ⟨?_, ⟨fun {key p} hp => ?_, fun {key p} hp hkey => ?_⟩, ⟨fun {i e} he => ?_, ?_, ?_⟩,
    fun ha hb hab => ?_, nofun⟩
  · have ht := hm.tables
    refine ⟨?_, ?_, ?_, ?_, ?_, ?_, ?_, fun {n a} hn ha => ?_, ?_⟩ <;>
      simp only [h.known_eq, h.root_eq, h.classes, parentsOf] at *
    · exact ht.size_next
    · exact ht.size_parents
    · exact ht.size_adj
    · exact Nat.le_trans hle hsize
    · exact ht.root_lt
    · exact ht.root_root
    · exact ht.ring
    · rw [h.node_eq (hlt hn)] at ha
      exact ht.parent hn ha
    · exact ht.parent_lt
  · rw [h.classes] at hp
    obtain ⟨hpk, hkey⟩ := hm.sigs.sound hp
    rw [h.known_eq, h.signature?_eq (hlt hpk)]
    exact ⟨hpk, hkey⟩
  · rw [h.known_eq] at hp
    rw [h.signature?_eq (hlt hp)] at hkey
    obtain ⟨q, hq, hpq⟩ := hm.sigs.complete hp hkey
    refine ⟨q, by rw [h.classes, hq], .of_root ?_⟩
    rw [h.root_eq]
    exact linked_nil.mp hpq
  · rw [h.classes] at he
    rw [h.root_eq]
    exact ⟨h.valid hle (hm.forest.valid he).1, (hm.forest.valid he).2⟩
  · rw [h.classes]
    exact hm.forest.ends
  · rw [h.classes, h.known_eq, h.root_eq]
    exact hm.forest.walk
  · rw [h.known_eq] at ha hb
    rw [h.root_eq] at hab
    exact h.cong (hm.sound ha hb hab)

/-- New nodes and atoms leave what the e-graph knows of the trail as it is. -/
theorem follows (hdone : done ⊆ trail.toList) (hf : Follows trail.toList done g) :
    Follows trail.toList done g' where
  wf := h.wf
  merging := h.merging hf.merging
  pending := by rw [h.classes, hf.pending]
  takes := by
    refine ⟨fun {l a b} hl he => ?_, fun {d} => ?_⟩
    · rw [h.equation?_eq (Array.mem_toList_iff.mp (hdone hl))] at he
      rw [h.root_eq]
      exact hf.takes.equal hl he
    · rw [h.classes, hf.takes.differ]
      refine or_congr_right (exists_congr fun l => and_congr_right fun hl => ?_)
      rw [h.disequation?_eq (Array.mem_toList_iff.mp (hdone hl))]

/-- A graph without conflict has none after nodes were added. -/
theorem consistent (hc : g.Consistent) : g'.Consistent := by
  rw [Consistent, h.classes, h.root_eq]
  exact hc

end Grown

/-! ## Levels -/

/-- Classes that a level starts from: all nodes and all literals are taken into account, without
a conflict. -/
structure Ready (g : Egraph) (lits : List Literal) (k : Classes) : Prop where
  follows : Follows lits lits { g with classes := k }
  known : k.root.size = g.nodes.size
  processed : k.processed = lits.length
  consistent : ({ g with classes := k } : Egraph).Consistent

/-- The classes of every level come back when the log is taken back to the length that
was recorded. -/
inductive Saved (g : Egraph) : Array (Nat × Nat) → Array Nat → List Literal → Classes → Prop where
  | base (lits : List Literal) (k : Classes) : Saved g #[] #[] lits k
  | level {levels : Array (Nat × Nat)} {starts : Array Nat} {lits : List Literal} {k K : Classes}
    {start : Nat}
    (hrest : Saved g levels starts (lits.take start) K) (hready : Ready g (lits.take start) K)
    (hundo : Undoes K k)
    (hstart : start ≤ lits.length) :
    Saved g (levels.push (K.undo.size, K.processed)) (starts.push start) lits k

namespace Saved

theorem size_eq (h : Saved g levels starts lits k) : levels.size = starts.size := by
  induction h with
  | base => rfl
  | level _ _ _ _ ih => rw [Array.size_push, Array.size_push, ih]

/-- The saved levels are those of every graph that undoes to the same classes. -/
theorem of_undoes (h : Saved g levels starts lits k) (hundo : Undoes k k') :
    Saved g levels starts lits k' := by
  cases h with
  | base => exact .base lits k'
  | level hrest hready hundo' hstart => exact .level hrest hready (hundo'.trans hundo) hstart

/-- More literals on the trail leave the saved levels as they were. -/
theorem append (h : Saved g levels starts lits k) (more : List Literal) :
    Saved g levels starts (lits ++ more) k := by
  cases h with
  | base => exact .base _ k
  | @level levels starts _ _ K start hrest hready hundo hstart =>
    have htake : (lits ++ more).take start = lits.take start := List.take_append_of_le_length hstart
    refine .level (htake ▸ hrest) (htake ▸ hready) hundo ?_
    rw [List.length_append]
    exact Nat.le_trans hstart (Nat.le_add_right _ _)

theorem of_sameNodes (h : Saved g levels starts lits k) (hsame : SameNodes g g') :
    Saved g' levels starts lits k := by
  induction h with
  | base => exact .base _ _
  | @level levels starts lits k K start _ hready hundo hstart ih =>
    have heq : ({ g' with classes := K } : Egraph) = { g with classes := K } := by
      rw [hsame.eq_with]
    have hready' : Ready g' (lits.take start) K := by
      refine ⟨heq ▸ hready.follows, ?_, hready.processed, heq ▸ hready.consistent⟩
      rw [hready.known, hsame.nodes_eq]
    exact .level ih hready' hundo hstart

theorem take_push {α : Type} {xs : Array α} {x : α} {n : Nat} (h : n ≤ xs.size) :
    (xs.push x).take n = xs.take n := by
  apply Array.toList_inj.mp
  rw [Array.take_eq_extract, Array.take_eq_extract, Array.toList_extract, Array.toList_extract,
    Array.toList_push]
  simp [List.extract_eq_take_drop, List.take_append_of_le_length, h]

/-- An open level has classes to go back to. -/
theorem exists_level (h : Saved g levels starts lits k) (hlevel : starts[level]? = some start) :
    ∃ K, levels[level]? = some (K.undo.size, K.processed) ∧
    Saved g (levels.take level) (starts.take level)
      (lits.take start) K ∧ Ready g (lits.take start) K ∧ Undoes K k ∧ start ≤ lits.length := by
  induction h with
  | base => simp at hlevel
  | @level levels starts lits k K last hrest hready hundo hlast ih =>
    have hsize := hrest.size_eq
    have hlt : level < starts.size + 1 := by
      have hin := (Array.getElem?_eq_some_iff.mp hlevel).1
      rwa [Array.size_push] at hin
    rcases Nat.lt_succ_iff_lt_or_eq.mp hlt with hlt | rfl
    · rw [Array.getElem?_push, if_neg (Nat.ne_of_lt hlt)] at hlevel
      obtain ⟨K', hK', hsaved, hready', hundo', hle⟩ := ih hlevel
      rw [List.length_take] at hle
      have htake : (lits.take last).take start = lits.take start := by
        rw [List.take_take, Nat.min_eq_left (Nat.le_trans hle (Nat.min_le_left _ _))]
      rw [htake] at hsaved hready'
      refine ⟨K', ?_, ?_, hready', hundo'.trans hundo, Nat.le_trans hle (Nat.min_le_right _ _)⟩
      · rw [Array.getElem?_push, if_neg (by omega), hK']
      · rwa [take_push (by omega), take_push (by omega)]
    · rw [Array.getElem?_push, if_pos rfl] at hlevel
      obtain rfl := Option.some.inj hlevel
      refine ⟨K, ?_, ?_, hready, hundo, hlast⟩
      · rw [Array.getElem?_push, if_pos hsize.symm]
      · have hlevels : (levels.push (K.undo.size, K.processed)).take starts.size = levels := by
          rw [← hsize]
          simp
        have hstarts : (starts.push last).take starts.size = starts := by simp
        rwa [hlevels, hstarts]

end Saved

/-! ## The steps -/

/-- What is kept while an e-graph accompanies a search. -/
structure Stage.Kept (s : Stage) : Prop where
  follows : Follows s.trail.toList (s.trail.toList.take s.graph.classes.processed) s.graph
  processed_le : s.graph.classes.processed ≤ s.trail.size
  known : s.starts ≠ #[] → s.graph.known = s.graph.nodes.size
  saved : Saved s.graph s.graph.classes.levels s.starts s.trail.toList s.graph.classes
  consistent : s.Clear → s.graph.Consistent
  last : ∀ p, s.last = some p → ∃ g, g.Consistent ∧ Propagated g s.trail p s.graph

namespace Stage.Kept

/-- A search begins with nothing processed and no level open. -/
theorem startSearch (hg : g.Wf) (trail : Array Literal) :
    Kept ⟨g.startSearch, trail, #[], none⟩ := by
  obtain ⟨hmerging, hsynced, hnil⟩ := Merging.startSearch hg (isCongruence_cong g trail.toList)
  have hsame := sameNodes_startSearch g
  have hdiseqs : g.startSearch.classes.diseqs = #[(trueNode, falseNode, none)] := hsynced.diseqs
  have hprocessed : g.startSearch.classes.processed = 0 := hsynced.processed
  have hlevels : g.startSearch.classes.levels = #[] := hsynced.levels
  have htakes : Takes (trail.toList.take g.startSearch.classes.processed) g.startSearch := by
    rw [hprocessed, List.take_zero]
    refine ⟨nofun, fun {d} => ?_⟩
    simp [hdiseqs]
  refine ⟨⟨hsame.wf hg, hmerging.imp hsame.cong, hnil, htakes⟩, ?_, fun hne => absurd rfl hne, ?_,
    fun _ => ?_, nofun⟩
  · show g.startSearch.classes.processed ≤ trail.size
    rw [hprocessed]
    exact Nat.zero_le _
  · show Saved g.startSearch g.startSearch.classes.levels #[] trail.toList g.startSearch.classes
    rw [hlevels]
    exact .base _ _
  · -- every node is alone, so the constants are in different classes
    intro d hd
    have hroot (n : Nat) : g.startSearch.root n = n := by
      rw [hsynced.root]
      exact root_of_known_le (Nat.zero_le n)
    change d ∈ g.startSearch.classes.diseqs at hd
    rw [hdiseqs] at hd
    obtain rfl : d = (trueNode, falseNode, none) := by simpa using hd
    show g.startSearch.root trueNode ≠ g.startSearch.root falseNode
    rw [hroot, hroot]
    decide

/-- Literals may be put on the trail while no conflict stands. -/
theorem extend (h : s.Kept) (hclear : s.Clear) (lits : Array Literal) :
    Kept { s with trail := s.trail ++ lits, last := none } where
  follows := by
    have htake : (s.trail ++ lits).toList.take s.graph.classes.processed =
        s.trail.toList.take s.graph.classes.processed := by
      rw [Array.toList_append, List.take_append_of_le_length]
      exact h.processed_le
    show Follows (s.trail ++ lits).toList _ s.graph
    rw [htake]
    refine h.follows.of_subset ?_
    rw [Array.toList_append]
    exact List.subset_append_left _ _
  processed_le := by
    rw [Array.size_append]
    exact Nat.le_trans h.processed_le (Nat.le_add_right _ _)
  known := h.known
  saved := by
    show Saved s.graph _ s.starts (s.trail ++ lits).toList _
    rw [Array.toList_append]
    exact h.saved.append lits.toList
  consistent _ := h.consistent hclear
  last := nofun

/-- Propagation processes the trail, up to a conflict. -/
theorem propagate (h : s.Kept) (hclear : s.Clear) :
    Kept { s with graph := (s.graph.propagate s.trail).2, last := some (s.graph.propagate s.trail).1
      } := by
  have hp := h.follows.propagate h.processed_le
  have hold := h.consistent hclear
  have hknown : (s.graph.propagate s.trail).2.known = (s.graph.propagate s.trail).2.nodes.size := by
    rw [hp.known, hp.sameNodes.nodes_eq]
  refine ⟨?_, ?_, fun _ => hknown, ?_, fun hnone => ?_, ?_⟩
  · have hall : s.trail.toList.take (s.graph.propagate s.trail).2.classes.processed =
        s.trail.toList := by
      rw [hp.processed, ← Array.length_toList, List.take_length]
    show Follows s.trail.toList (s.trail.toList.take
      (s.graph.propagate s.trail).2.classes.processed) _
    rw [hall]
    exact hp.follows
  · exact Nat.le_of_eq hp.processed
  · show Saved _ (s.graph.propagate s.trail).2.classes.levels s.starts s.trail.toList _
    rw [hp.levels]
    have hsaved := h.saved.of_sameNodes hp.sameNodes
    by_cases hbase : s.starts = #[]
    · have hnone : s.graph.classes.levels = #[] := by
        rw [← Array.size_eq_zero_iff, h.saved.size_eq, hbase]
        rfl
      rw [hnone, hbase]
      exact .base _ _
    · exact hsaved.of_undoes (hp.undoes (h.known hbase))
  · by_contra hnot
    have hsome := (hp.conflict_isSome hold).mpr hnot
    rw [hnone _ rfl] at hsome
    cases hsome
  · intro p hlast
    obtain rfl := Option.some.inj hlast
    exact ⟨s.graph, hold, hp⟩

/-- A decision opens a level after the whole trail was processed. -/
theorem decide (h : s.Kept) (hlast : s.last = some p) (hnone : p.conflict = none) (l : Literal) :
    Kept ⟨s.graph.openLevel, s.trail.push l, s.starts.push s.trail.size, none⟩ := by
  obtain ⟨g, hold, hp⟩ := h.last p hlast
  have hknown : s.graph.known = s.graph.nodes.size := by rw [hp.known, hp.sameNodes.nodes_eq]
  have hconsistent : s.graph.Consistent := by
    refine h.consistent fun p' hp' => ?_
    rw [Option.some.inj (hp'.symm.trans hlast), hnone]
  have hopen : SameTables s.graph s.graph.openLevel := ⟨rfl, rfl, rfl, rfl, rfl, rfl⟩
  have hfollows : Follows s.trail.toList s.trail.toList s.graph.openLevel :=
    hp.follows.of_sameTables hopen (fun _ => rfl) rfl hp.follows.pending
  have htake : (s.trail.push l).toList.take s.trail.size = s.trail.toList := by
    rw [Array.toList_push, ← Array.length_toList, List.take_left]
  refine ⟨?_, ?_, fun _ => hknown, ?_, fun _ => hconsistent, nofun⟩
  · show Follows (s.trail.push l).toList ((s.trail.push l).toList.take s.graph.classes.processed) _
    rw [hp.processed, htake]
    refine hfollows.of_subset ?_
    rw [Array.toList_push]
    exact List.subset_append_left _ _
  · show s.graph.classes.processed ≤ (s.trail.push l).size
    rw [hp.processed, Array.size_push]
    exact Nat.le_succ _
  · refine .level (K := s.graph.classes) ?_ ?_ ((Undoes.refl _).of_records _ _ _) ?_
    · rw [htake]
      exact h.saved.of_sameNodes hopen.sameNodes
    · rw [htake]
      refine ⟨?_, hknown, ?_, hconsistent⟩
      · exact hp.follows
      · rw [hp.processed, Array.length_toList]
    · rw [Array.length_toList, Array.size_push]
      exact Nat.le_succ _

/-- Going back to an open level brings the classes of its start back. -/
theorem backtrack (h : s.Kept) (hlevel : s.starts[level]? = some start) :
    Kept ⟨s.graph.backtrack level, s.trail.take start, s.starts.take level, none⟩ := by
  obtain ⟨K, hK, hsaved, hready, hundo, hle⟩ := h.saved.exists_level hlevel
  have hsame : SameNodes s.graph (s.graph.backtrack level) := sameNodes_backtrack s.graph level
  have hclasses : (s.graph.backtrack level).classes =
      { undoLast (s.graph.classes.undo.size - K.undo.size) s.graph.classes with
        processed := K.processed
        levels := s.graph.classes.levels.shrink level
        pending := [] } := by
    simp only [Egraph.backtrack, modifyClasses, hK]
  have hback : (s.graph.backtrack level).classes.Same K := by
    rw [hclasses]
    have h := hundo.undoLast
    exact ⟨h.root, h.next, h.size, h.parents, h.sigs, h.edges, h.adj, h.diseqs, h.undo⟩
  have htables : SameTables { s.graph with classes := K } (s.graph.backtrack level) :=
    ⟨hsame, hback.root, hback.next, hback.parents, hback.edges, hback.adj⟩
  have htrail : (s.trail.take start).toList = s.trail.toList.take start := by simp
  have hprocessed : (s.graph.backtrack level).classes.processed =
      (s.trail.toList.take start).length := by
    rw [hclasses]
    exact hready.processed
  refine ⟨?_, ?_, fun _ => ?_, ?_, fun _ => ?_, fun _ h => by cases h⟩
  · show Follows (s.trail.take start).toList
      ((s.trail.take start).toList.take (s.graph.backtrack level).classes.processed) _
    rw [hprocessed, htrail, List.take_length]
    exact hready.follows.of_sameTables htables hback.sigs hback.diseqs (by rw [hclasses])
  · show (s.graph.backtrack level).classes.processed ≤ (s.trail.take start).size
    rw [hprocessed, ← htrail, Array.length_toList]
  · show (s.graph.backtrack level).known = (s.graph.backtrack level).nodes.size
    rw [htables.known_eq, hsame.nodes_eq]
    exact hready.known
  · show Saved _ (s.graph.backtrack level).classes.levels (s.starts.take level)
      (s.trail.take start).toList _
    have hlevels : (s.graph.backtrack level).classes.levels =
        s.graph.classes.levels.take level := by
      rw [hclasses]
      simp
    rw [hlevels, htrail]
    exact (hsaved.of_sameNodes hsame).of_undoes (.of_same hback)
  · intro d hd
    rw [htables.root_eq]
    exact hready.consistent d (hback.diseqs ▸ hd)

/-- Going back to a level that is not open changes nothing. -/
theorem stay (h : s.Kept) (hclear : s.Clear) (hlevel : s.starts.size ≤ level) :
    Kept { s with graph := s.graph.backtrack level, last := none } := by
  have hnone : s.graph.classes.levels[level]? = none :=
    Array.getElem?_eq_none (h.saved.size_eq ▸ hlevel)
  have hsame : s.graph.backtrack level = s.graph := by
    simp only [Egraph.backtrack, modifyClasses, hnone, ← h.follows.pending]
  rw [hsame]
  exact ⟨h.follows, h.processed_le, h.known, h.saved, fun _ => h.consistent hclear,
    fun _ h => by cases h⟩

/-- Nodes may be added at the base level. -/
theorem grow (h : s.Kept) (hclear : s.Clear) (hbase : s.starts = #[])
    (hgrown : Grown s.trail s.graph g) :
    Kept { s with graph := g, last := none } := by
  have hlevels : s.graph.classes.levels = #[] := by
    rw [← Array.size_eq_zero_iff, h.saved.size_eq, hbase]
    rfl
  refine ⟨?_, ?_, fun hne => absurd hbase hne, ?_, fun _ => hgrown.consistent (h.consistent hclear),
    nofun⟩
  · show Follows s.trail.toList (s.trail.toList.take g.classes.processed) g
    rw [hgrown.classes]
    exact hgrown.follows (List.take_subset _ _) h.follows
  · show g.classes.processed ≤ s.trail.size
    rw [hgrown.classes]
    exact h.processed_le
  · show Saved g g.classes.levels s.starts s.trail.toList g.classes
    rw [hgrown.classes, hlevels, hbase]
    exact .base _ _

end Stage.Kept

/-- By induction on the run: every state of it is kept. -/
theorem Run.kept (h : Run s) : s.Kept := by
  induction h with
  | start hg trail => exact .startSearch hg trail
  | extend _ hclear lits ih => exact ih.extend hclear lits
  | propagate _ hclear ih => exact ih.propagate hclear
  | decide _ hlast hnone l ih => exact ih.decide hlast hnone l
  | backtrack _ hlevel ih => exact ih.backtrack hlevel
  | stay _ hclear hlevel ih => exact ih.stay hclear hlevel
  | grow _ hclear hbase hgrown ih => exact ih.grow hclear hbase hgrown

/-- After every propagation of a search, two nodes are in one class exactly when their equality
follows from the trail by congruence closure, and a conflict is reported exactly when this closure
identifies the constants or the sides of an equality that is false on the trail. -/
theorem run_closes (h : Run s) (hlast : s.last = some p) :
    (∀ a b, a < s.graph.nodes.size → b < s.graph.nodes.size →
      (s.graph.root a = s.graph.root b ↔ s.graph.Cong s.trail.toList a b)) ∧
    (p.conflict.isSome = true ↔ s.graph.Cong s.trail.toList trueNode falseNode ∨
      ∃ l ∈ s.trail, ∃ a b, s.graph.disequation? l = some (a, b) ∧
        s.graph.Cong s.trail.toList a b) := by
  obtain ⟨g, hold, hp⟩ := h.kept.last p hlast
  refine ⟨fun a b ha hb => hp.root_eq_iff ha hb, ?_⟩
  rw [hp.conflict_isSome hold, hp.not_consistent_iff]

/-- Two constants, and the applications of one function to them. Variable 1 stands for the equality
of the constants, variable 2 for that of the applications. -/
def twoApplications : Egraph where
  nodes := #[{ term := .top, ty := .bool }, { term := .bot, ty := .bool },
    { term := ⟨8⟩, ty := ⟨1⟩ },
    { term := ⟨10⟩, ty := ⟨1⟩ }, { term := ⟨12⟩, ty := ⟨1⟩, func := some ⟨6⟩, args := [2] },
    { term := ⟨14⟩, ty := ⟨1⟩, func := some ⟨6⟩, args := [3] }]
  nodeOf := .ofList [(.top, 0), (.bot, 1), (⟨8⟩, 2), (⟨10⟩, 3), (⟨12⟩, 4), (⟨14⟩, 5)]
  apps := (∅ : Std.HashMap Term (Array Nat)).insert ⟨6⟩ #[4, 5]
  atoms := ((∅ : Std.HashMap Nat Atom).insert 1 (.eq 2 3)).insert 2 (.eq 4 5)
  atomLog := #[1, 2]

theorem atoms_twoApplications (v : Nat) : twoApplications.atoms[v]? =
    if v = 2 then some (.eq 4 5) else if v = 1 then some (.eq 2 3) else none := by
  show (((∅ : Std.HashMap Nat Atom).insert 1 (.eq 2 3)).insert 2 (.eq 4 5))[v]? = _
  rw [Std.HashMap.getElem?_insert, Std.HashMap.getElem?_insert, Std.HashMap.getElem?_empty]
  simp only [beq_iff_eq, eq_comm (b := v)]

/-- The graph of two applications is well-formed. -/
theorem wf_twoApplications : twoApplications.Wf := by
  have hargs : ∀ n < 6, ∀ a ∈ (twoApplications.node n).args, a < n := by decide
  have hdistinct : ∀ p < 6, ∀ q < 6, (twoApplications.node p).func.isSome = true →
      (twoApplications.node q).func.isSome = true →
      (twoApplications.node p).args = (twoApplications.node q).args → p = q := by decide
  have hsize : twoApplications.nodes.size = 6 := rfl
  refine ⟨by decide, fun ha hn => hargs _ hn _ ha, fun hp hq heq => ?_, fun {v a b} hv => ?_,
    fun {v n} hv => ?_⟩
  · exact hdistinct _ (lt_size_of_func hp) _ (lt_size_of_func hq) (by simp [hp]) (by simp [hq]) heq
  · rw [atoms_twoApplications] at hv
    grind
  · rw [atoms_twoApplications] at hv
    grind

/-- The trail on which the constants are equal and the applications are not. -/
def twoLiterals : Array Literal := #[.pos 1, (Literal.pos 2).neg]

/-- A search finds out that the applications are equal when the constants are: it puts them into one
class, and reports a conflict. -/
theorem run_closes_twoApplications :
    (twoApplications.startSearch.propagate twoLiterals).2.root 4 =
        (twoApplications.startSearch.propagate twoLiterals).2.root 5 ∧
      (twoApplications.startSearch.propagate twoLiterals).1.conflict.isSome = true := by
  have hrun : Run ⟨(twoApplications.startSearch.propagate twoLiterals).2, twoLiterals, #[],
      some (twoApplications.startSearch.propagate twoLiterals).1⟩ :=
    (Run.start wf_twoApplications twoLiterals).propagate nofun
  obtain ⟨hroot, hconflict⟩ := run_closes hrun rfl
  have hsame : SameNodes twoApplications (twoApplications.startSearch.propagate twoLiterals).2 :=
    (sameNodes_startSearch _).trans (sameNodes_propagate _ _)
  have hequal : twoApplications.equation? (.pos 1) = some (2, 3) := by
    rw [equation?, atoms_twoApplications]
    rfl
  have hdiffer : twoApplications.disequation? (Literal.pos 2).neg = some (4, 5) := by
    rw [disequation?, atoms_twoApplications]
    rfl
  have hconstants : twoApplications.Cong twoLiterals.toList 2 3 := .fact List.mem_cons_self hequal
  have happlications : twoApplications.Cong twoLiterals.toList 4 5 := by
    refine .app (f := ⟨6⟩) rfl rfl rfl fun x hx => ?_
    obtain rfl : x = (2, 3) := List.mem_singleton.mp hx
    exact hconstants
  have hsize : (twoApplications.startSearch.propagate twoLiterals).2.nodes.size = 6 :=
    congrArg Array.size hsame.nodes_eq
  have hclass := (hroot 4 5 (hsize.symm ▸ by decide) (hsize.symm ▸ by decide)).mpr
    (hsame.cong happlications)
  refine ⟨hclass, hconflict.mpr (.inr ⟨(Literal.pos 2).neg, ?_, 4, 5, ?_,
    hsame.cong happlications⟩)⟩
  · exact Array.mem_toList_iff.mp (List.mem_cons_of_mem _ List.mem_cons_self)
  · exact (hsame.disequation?_eq _).trans hdiffer

end Entail.Egraph
