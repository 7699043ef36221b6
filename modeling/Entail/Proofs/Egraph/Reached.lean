import Entail.Proofs.Egraph.Levels
import Entail.Proofs.Egraph.Runs

/-!
# The states of an e-graph

An e-graph takes the literals of trails into account, opens levels and goes back to them, in
any order; nodes are put into classes at the base level only. What merges, new nodes and
literals keep holds of every e-graph that is reached in this way, and of the classes that each
open level started from.
-/

namespace Entail.Egraph

/-! ## Steps -/

/-- An e-graph opens a level, takes the rest of a trail into account or goes back. With an e-graph
go the literals that it has processed: the trail continues them. New nodes are put into classes only
when no level is open. -/
inductive Step : Egraph → List Literal → Egraph → List Literal → Prop where
  | openLevel (g : Egraph) (done : List Literal) : Step g done g.openLevel done
  | propagate {g : Egraph} {done : List Literal} {trail : Array Literal}
    (htrail : done <+: trail.toList)
    (hbase : g.classes.levels = #[] ∨ g.known = g.nodes.size) :
    Step g done (g.propagate trail).2 trail.toList
  | backtrack (g : Egraph) (done : List Literal) (level : Nat) :
    Step g done (g.backtrack level) (done.take (g.backtrack level).classes.processed)

/-- E-graphs that come about by steps, from classes that were cleared or started anew, while nodes
and atoms are added. -/
inductive Reached : Egraph → List Literal → Prop where
  | clear {g : Egraph} (hg : g.Wf) : Reached g.clearClasses []
  | start {g : Egraph} (hg : g.Wf) : Reached g.startSearch []
  | step {g g' : Egraph} {done done' : List Literal} (h : Reached g done)
    (hs : Step g done g' done') : Reached g' done'
  | grow {g g' : Egraph} {done : List Literal} (h : Reached g done)
    (hgrown : Grown done.toArray g g') : Reached g' done

/-- `g'` comes from `g` by opening a level and by steps that leave it open. -/
inductive Within (g : Egraph) (done : List Literal) : Egraph → List Literal → Prop where
  | opened : Within g done g.openLevel done
  | step {g' g'' : Egraph} {done' done'' : List Literal} (h : Within g done g' done')
    (hs : Step g' done' g'' done'')
    (hopen : g.classes.levels.size < g''.classes.levels.size) : Within g done g'' done''

/-! ## What every change keeps -/

/-- An equality by a literal is what the literal says, and one by congruence is that of the
applications. -/
structure Edge.Grounded (g : Egraph) (lits : List Literal) (e : Edge) : Prop where
  literal : ∀ {l}, e.reason = .literal l → l ∈ lits ∧ g.equation? l = some (e.a, e.b)
  congruence : ∀ {p q}, e.reason = .congruence p q → e.a = p ∧ e.b = q

/-- A property of an e-graph and of the literals that it takes into account, which every change to
the classes keeps. -/
structure Invariant (P : Egraph → List Literal → Prop) : Prop where
  clear : ∀ g : Egraph, P g.clearClasses []
  mono : ∀ {g : Egraph} {lits lits' : List Literal}, lits ⊆ lits' → P g lits → P g lits'
  same : ∀ {g g' : Egraph} {lits : List Literal}, SameTables g g' →
    g'.classes.size = g.classes.size →
    P g lits → P g' lits
  merge :
    ∀ {g g' : Egraph} {lits : List Literal} {e : Edge} {rest found : List Edge} {small big : Nat},
    g.Wf → Merging (g.Cong lits) (e :: rest) g → e.Grounded g lits → g.Apart small big →
      Merged.Ends g e small big →
    g.Merged e small big found g' → P g lits → P g' lits
  add : ∀ {g : Egraph} {lits : List Literal} {parents : Array (Array Nat)}, g.Wf → g.Tables →
    g.known < g.nodes.size →
    g.Lists g.known (g.node g.known).args parents → P g lits → P (g.withClass g.known parents) lits
  grow : ∀ {g g' : Egraph} {lits : List Literal}, Grown lits.toArray g g' →
    Merging (g.Cong lits) [] g →
    P g lits → P g' lits

variable {P : Egraph → List Literal → Prop} {g g' g'' : Egraph}
  {lits done done' done'' : List Literal} {l : Literal}
  {e : Edge} {es rest : List Edge} {a b bound level : Nat} {K : Classes} {Ks Ks' : List Classes}

theorem Edge.Grounded.of_sameNodes (h : SameNodes g g') (he : e.Grounded g lits) :
    e.Grounded g' lits where
  literal hl := ⟨(he.literal hl).1, (h.equation?_eq _).trans (he.literal hl).2⟩
  congruence := he.congruence

theorem Edge.grounded_congruence (g : Egraph) (lits : List Literal) (p q : Nat) :
    Edge.Grounded g lits ⟨p, q, .congruence p q⟩ := by
  refine ⟨nofun, fun hr => ?_⟩
  cases hr
  exact ⟨rfl, rfl⟩

theorem Edge.grounded_literal (hl : l ∈ lits) (heq : g.equation? l = some (a, b)) :
    Edge.Grounded g lits ⟨a, b, .literal l⟩ := by
  refine ⟨fun hr => ?_, nofun⟩
  cases hr
  exact ⟨hl, heq⟩

namespace Invariant

/-- Merging along grounded equalities. -/
theorem settle (hP : Invariant P) (hg : g.Wf) (h : Merging (g.Cong lits) es g)
    (hes : ∀ e ∈ es, e.Grounded g lits) (hold : P g lits) : P (settle bound es g) lits := by
  fun_induction Egraph.settle bound es g with
  | case1 => exact hold
  | case2 g e rest bound heq ih =>
    have hroot : g.root e.a = g.root e.b := by simpa [areEqual] using heq
    exact ih hg (h.skip hroot) (fun e' he' => hes e' (List.mem_cons_of_mem e he')) hold
  | case3 => exact hold
  | case4 g e rest hne bound more g' heq ih =>
    have hroot : g.root e.a ≠ g.root e.b := by simpa [areEqual] using hne
    obtain ⟨hmerging, hcoarser, -⟩ := h.merge hg (isCongruence_cong g lits) hroot
    obtain ⟨small, big, hapart, hends, hm⟩ :=
      merge_spec h.tables h.sigsSound (h.waiting e List.mem_cons_self).1 hroot
    rw [heq] at hmerging hcoarser hm
    have hsame := hcoarser.sameNodes
    refine ih (hsame.wf hg) (hmerging.imp hsame.cong) (fun e' he' => ?_)
      (hP.merge hg h (hes e List.mem_cons_self) hapart hends hm hold)
    rcases List.mem_append.mp he' with hnew | hrest
    · obtain ⟨p, q, rfl, -⟩ := hm.new e' hnew
      exact Edge.grounded_congruence g' lits p q
    · exact (hes e' (List.mem_cons_of_mem e hrest)).of_sameNodes hsame

/-- Putting new nodes into classes; what waits then is grounded. -/
theorem sync (hP : Invariant P) (hg : g.Wf) (h : Merging (g.Cong lits) g.classes.pending g)
    (hwaits : ∀ e ∈ g.classes.pending, e.Grounded g lits) (hold : P g lits) :
    P g.sync lits ∧ ∀ e ∈ g.sync.classes.pending, e.Grounded g.sync lits := by
  have hcount (count : Nat) : ∀ {g : Egraph}, g.Wf → Merging (g.Cong lits) g.classes.pending g →
      (∀ e ∈ g.classes.pending, e.Grounded g lits) → P g lits → g.known + count = g.nodes.size →
      P ((List.range' g.known count).foldl addToClasses g) lits ∧
        ∀ e ∈ ((List.range' g.known count).foldl addToClasses g).classes.pending,
          e.Grounded ((List.range' g.known count).foldl addToClasses g) lits := by
    induction count with
    | zero => exact fun _ _ hwaits hold _ => ⟨hold, hwaits⟩
    | succ count ih =>
      intro g hg h hwaits hold hsize
      have hlt : g.known < g.nodes.size := by omega
      obtain ⟨hadd, hadded⟩ := h.addToClasses hg (isCongruence_cong g lits) rfl hlt
      obtain ⟨parents, sigs, waits, hlists, heq, -, hnew⟩ :=
        Signatures.addToClasses h.tables h.sigs rfl
      have hsame := hadded.sameNodes
      have hnodes : (g.addToClasses g.known).nodes.size = g.nodes.size :=
        congrArg Array.size hsame.nodes_eq
      have htables : SameTables (g.withClass g.known parents)
          ((g.withClass g.known parents).modifyClasses fun k =>
            { k with sigs, pending := waits }) :=
        ⟨rfl, rfl, rfl, rfl, rfl, rfl⟩
      have hkept : P (g.addToClasses g.known) lits := by
        rw [heq]
        exact hP.same htables rfl (hP.add hg h.tables hlt hlists hold)
      have hgrounded : ∀ e ∈ (g.addToClasses g.known).classes.pending,
          e.Grounded (g.addToClasses g.known) lits := by
        intro e he
        rw [heq] at he
        rcases hnew e he with hmem | ⟨other, rfl, -⟩
        · exact (hwaits e hmem).of_sameNodes hsame
        · exact Edge.grounded_congruence _ lits _ other
      rw [List.range'_succ, List.foldl_cons, ← hadded.known]
      exact ih (hsame.wf hg) (hadd.imp hsame.cong) hgrounded
        hkept (by rw [hadded.known, hnodes]; omega)
  exact hcount _ hg h hwaits hold (Nat.add_sub_cancel' h.tables.known_le)

theorem assertLit (hP : Invariant P) (h : Follows lits done g) (hknown : g.known = g.nodes.size)
    (hl : l ∈ lits) (hold : P g lits) : P (g.assertLit l).2 lits := by
  rcases assertLit_cases g l with ⟨-, -, hstep⟩ | ⟨a, b, -, -, hstep⟩ | ⟨a, b, heq, -, hstep⟩ <;>
    rw [hstep]
  · exact hold
  · have htables : SameTables g (g.addDiseq a b l) := ⟨rfl, rfl, rfl, rfl, rfl, rfl⟩
    exact hP.same htables rfl hold
  · refine hP.settle h.wf (h.merging.await h.wf hknown heq (.fact hl heq)) (fun e he => ?_) hold
    obtain rfl := List.mem_singleton.mp he
    exact Edge.grounded_literal hl heq

theorem assertLits (hP : Invariant P) {ls : List Literal} (h : Follows lits done g)
    (hknown : g.known = g.nodes.size)
    (hsub : ls ⊆ lits) (hold : P g lits) (changed : Bool) : P (assertLits ls changed g).2 lits := by
  induction ls generalizing done g changed with
  | nil => exact hold
  | cons l ls ih =>
    obtain ⟨hcount, hadvance⟩ := h.count (g.classes.processed + 1)
    have hknown₁ := hadvance.known.trans hknown
    have htables : SameTables g (g.modifyClasses fun k =>
        { k with processed := g.classes.processed + 1 }) :=
      ⟨rfl, rfl, rfl, rfl, rfl, rfl⟩
    have hcounted := hP.same htables rfl hold
    obtain ⟨hone, hadvance', -⟩ := hcount.assertLit hknown₁ (hsub List.mem_cons_self)
    have hnodes := congrArg Array.size hadvance'.sameNodes.nodes_eq
    exact ih hone (hadvance'.known.trans (hknown₁.trans hnodes.symm))
      (fun x hx => hsub (List.mem_cons_of_mem l hx))
      (hP.assertLit hcount hknown₁ (hsub List.mem_cons_self) hcounted) _

/-- A propagation. -/
theorem propagate (hP : Invariant P) {trail : Array Literal} (h : Follows trail.toList done g)
    (hold : P g trail.toList) : P (g.propagate trail).2 trail.toList := by
  obtain ⟨hfollows, hup⟩ := h.catchUp
  have hmerging : Merging (g.Cong trail.toList) g.classes.pending g := by
    rw [h.pending]
    exact h.merging
  have hsync := sameNodes_sync g
  obtain ⟨hwaits, -⟩ := hmerging.sync h.wf (isCongruence_cong g _)
  obtain ⟨hsynced, hgrounded⟩ := hP.sync h.wf hmerging (by simp [h.pending]) hold
  have htables : SameTables g.sync (g.sync.modifyClasses fun k => { k with pending := [] }) :=
    ⟨rfl, rfl, rfl, rfl, rfl, rfl⟩
  have hsame : SameNodes g (g.sync.modifyClasses fun k => { k with pending := [] }) :=
    hsync.trans htables.sameNodes
  have hsettled : P g.sync.settlePending trail.toList := by
    refine hP.settle (hsame.wf h.wf) ((htables.merging_of_sigs hwaits fun _ => rfl).imp hsame.cong)
      (fun e he => ?_) ?_
    · exact (hgrounded e he).of_sameNodes htables.sameNodes
    · exact hP.same htables rfl hsynced
  have hknown : g.sync.settlePending.known = g.sync.settlePending.nodes.size := by
    rw [hup.known, hup.sameNodes.nodes_eq]
  refine hP.assertLits hfollows hknown (fun l hl => ?_) hsettled _
  rw [Array.toList_extract] at hl
  exact List.mem_of_mem_drop (List.mem_of_mem_take hl)

end Invariant

/-! ## What is reached -/

theorem Step.sameNodes (h : Step g done g' done') : SameNodes g g' := by
  cases h with
  | openLevel => exact .refl g
  | propagate => exact sameNodes_propagate g _
  | backtrack => exact sameNodes_backtrack g _

theorem Within.sameNodes (h : Within g done g' done') : SameNodes g g' := by
  induction h with
  | opened => exact .refl g
  | step _ hs _ ih => exact ih.trans hs.sameNodes

/-- A level stays open when a trail is propagated in it. -/
theorem Within.propagate {trail : Array Literal} (hknown : g.known = g.nodes.size)
    (htrail : done <+: trail.toList) :
    Within g done (g.openLevel.propagate trail).2 trail.toList := by
  have hcites : g.openLevel.classes.Cites fun _ => True :=
    ⟨fun _ _ _ _ => trivial, fun _ _ _ _ => trivial, fun _ _ _ _ => trivial⟩
  have hgains := (gains_propagate hcites fun l (_ : l ∈ trail) => trivial).1
  refine .step .opened (.propagate htrail (.inr hknown)) ?_
  rw [hgains.levels]
  show g.classes.levels.size < (g.classes.levels.push _).size
  rw [Array.size_push]
  exact Nat.lt_succ_self _

/-- Classes that a level started from. -/
structure Earlier (P : Egraph → List Literal → Prop) (g : Egraph) (done : List Literal)
    (K : Classes) : Prop where
  follows : Follows (done.take K.processed) (done.take K.processed) { g with classes := K }
  holds : P { g with classes := K } (done.take K.processed)
  processed_le : K.processed ≤ done.length

/-- An e-graph follows the literals that it has processed, and taking the log back to the length
that was recorded for an open level brings the classes back that the level started from. -/
structure Held (P : Egraph → List Literal → Prop) (g : Egraph) (done : List Literal)
    (Ks : List Classes) : Prop where
  follows : Follows done done g
  holds : P g done
  processed : g.classes.processed = done.length
  levels : g.classes.levels.toList = Ks.map fun K => (K.undo.size, K.processed)
  undoes : ∀ K ∈ Ks, Undoes K g.classes
  nested : Ks.Pairwise fun K K' => Undoes K K' ∧ K.processed ≤ K'.processed
  earlier : ∀ K ∈ Ks, Earlier P g done K

theorem Earlier.of_sameNodes (h : Earlier P g done K) (hsame : SameNodes g g') :
    Earlier P g' done K := by
  rw [hsame.eq_with]
  exact ⟨h.follows, h.holds, h.processed_le⟩

/-- The literals that a level started from are there as long as it is open. -/
theorem Earlier.of_take_eq (h : Earlier P g done K)
    (htake : done'.take K.processed = done.take K.processed)
    (hle : K.processed ≤ done'.length) : Earlier P g done' K := by
  refine ⟨?_, ?_, hle⟩
  · rw [htake]
    exact h.follows
  · rw [htake]
    exact h.holds

theorem Earlier.grow (hP : Invariant P) (h : Earlier P g done K)
    (hgrown : Grown done.toArray g g') :
    Earlier P g' done K := by
  have hsub : done.take K.processed ⊆ done := List.take_subset _ _
  have hsame : SameNodes g' { g' with classes := K } := rfl
  have hgrown' : Grown (done.take K.processed).toArray { g with classes := K }
      { g' with classes := K } :=
    ⟨hsame.wf hgrown.wf, hgrown.nodes, fun l hl =>
      hgrown.atoms l (by simpa using hsub (by simpa using hl)), rfl⟩
  exact ⟨hgrown'.follows (List.Subset.refl _) h.follows, hP.grow hgrown' h.follows.merging h.holds,
    h.processed_le⟩

namespace Held

theorem levels_size (h : Held P g done Ks) : g.classes.levels.size = Ks.length := by
  rw [← Array.length_toList, h.levels, List.length_map]

theorem clear (hP : Invariant P) (hg : g.Wf) : Held P g.clearClasses [] [] := by
  have hsame : SameNodes g g.clearClasses := rfl
  have htakes : Takes [] g.clearClasses := by
    refine ⟨fun hl => absurd hl List.not_mem_nil, fun {d} => ?_⟩
    simp [clearClasses]
  exact ⟨⟨hsame.wf hg, merging_clearClasses g _, rfl, htakes⟩, hP.clear g, rfl, rfl,
    List.forall_mem_nil _, .nil,
    List.forall_mem_nil _⟩

theorem start (hP : Invariant P) (hg : g.Wf) : Held P g.startSearch [] [] := by
  have hfollows := (Stage.Kept.startSearch hg #[]).follows
  have hgains := gains_startSearch g fun _ => True
  have hsame : SameNodes g g.clearClasses := rfl
  have hholds := (hP.sync (hsame.wf hg) (merging_clearClasses g _) (List.forall_mem_nil _)
    (hP.clear g)).1
  rw [List.take_nil] at hfollows
  have hlevels : g.startSearch.classes.levels.toList = [] := by
    rw [hgains.levels]
    rfl
  exact ⟨hfollows, hholds, hgains.processed, hlevels, List.forall_mem_nil _, .nil,
    List.forall_mem_nil _⟩

theorem openLevel (hP : Invariant P) (h : Held P g done Ks) :
    Held P g.openLevel done (Ks ++ [g.classes]) := by
  have htables : SameTables g g.openLevel := ⟨rfl, rfl, rfl, rfl, rfl, rfl⟩
  have hundoes {K : Classes} (hK : Undoes K g.classes) : Undoes K g.openLevel.classes :=
    hK.of_records _ _ _
  have htake : done.take g.classes.processed = done := by rw [h.processed, List.take_length]
  refine ⟨h.follows.of_sameTables htables (fun _ => rfl) rfl h.follows.pending,
    hP.same htables rfl h.holds,
    h.processed, ?_, fun K hK => ?_, ?_, fun K hK => ?_⟩
  · show (g.classes.levels.push _).toList = _
    rw [Array.toList_push, h.levels, List.map_append, List.map_singleton]
  · rcases List.mem_append.mp hK with hK | hK
    · exact hundoes (h.undoes K hK)
    · rw [List.mem_singleton.mp hK]
      exact hundoes (.refl _)
  · refine List.pairwise_append.mpr ⟨h.nested, List.pairwise_singleton _ _, fun K hK K' hK' => ?_⟩
    rw [List.mem_singleton.mp hK', h.processed]
    exact ⟨h.undoes K hK, (h.earlier K hK).processed_le⟩
  · rcases List.mem_append.mp hK with hK | hK
    · exact (h.earlier K hK).of_sameNodes htables.sameNodes
    · rw [List.mem_singleton.mp hK]
      refine ⟨?_, ?_, Nat.le_of_eq h.processed⟩
      · rw [htake]
        exact h.follows
      · rw [htake]
        exact h.holds

theorem propagate (hP : Invariant P) {trail : Array Literal} (h : Held P g done Ks)
    (htrail : done <+: trail.toList) (hbase : g.classes.levels = #[] ∨ g.known = g.nodes.size) :
    Held P (g.propagate trail).2 trail.toList Ks := by
  have hfollows := h.follows.of_subset htrail.subset
  have htake : trail.toList.take g.classes.processed = done := by
    rw [h.processed]
    exact (List.prefix_iff_eq_take.mp htrail).symm
  have hp : Propagated g trail (g.propagate trail).1 (g.propagate trail).2 := by
    refine Follows.propagate ?_ ?_
    · rw [htake]
      exact hfollows
    · rw [h.processed, ← Array.length_toList]
      exact htrail.length_le
  refine ⟨hp.follows, hP.propagate hfollows (hP.mono htrail.subset h.holds),
    hp.processed.trans Array.length_toList.symm, ?_, fun K hK => ?_, h.nested, fun K hK => ?_⟩
  · rw [hp.levels]
    exact h.levels
  · have hknown : g.known = g.nodes.size := by
      refine hbase.resolve_left fun hnone => ?_
      have hlength := h.levels_size
      rw [hnone] at hlength
      exact List.ne_nil_of_mem hK (List.eq_nil_of_length_eq_zero hlength.symm)
    exact (h.undoes K hK).trans (hp.undoes hknown)
  · have hle := (h.earlier K hK).processed_le
    refine ((h.earlier K hK).of_sameNodes hp.sameNodes).of_take_eq ?_
      (Nat.le_trans hle htrail.length_le)
    rw [List.prefix_iff_eq_take.mp htrail, List.take_take, Nat.min_eq_left hle]

/-- Going back to an open level brings the classes back that it started from. -/
theorem same_backtrack (h : Held P g done Ks) (hK : Ks[level]? = some K) :
    (g.backtrack level).classes.Same K ∧ (g.backtrack level).classes.processed = K.processed ∧
      (g.backtrack level).classes.levels = g.classes.levels.take level ∧
      (g.backtrack level).classes.pending = [] := by
  have hlevel : g.classes.levels[level]? = some (K.undo.size, K.processed) := by
    rw [← Array.getElem?_toList, h.levels, List.getElem?_map, hK]
    rfl
  have hclasses : (g.backtrack level).classes =
      { undoLast (g.classes.undo.size - K.undo.size) g.classes with
        processed := K.processed
        levels := g.classes.levels.shrink level
        pending := [] } := by
    simp only [Egraph.backtrack, modifyClasses, hlevel]
  have hback := (h.undoes K (List.mem_of_getElem? hK)).undoLast
  rw [hclasses]
  refine ⟨⟨hback.root, hback.next, hback.size, hback.parents, hback.sigs, hback.edges, hback.adj,
    hback.diseqs,
    hback.undo⟩, rfl, ?_, rfl⟩
  simp

theorem backtrack_of_le (h : Held P g done Ks) (hlevel : Ks.length ≤ level) :
    g.backtrack level = g := by
  have hnone : g.classes.levels[level]? = none := Array.getElem?_eq_none (h.levels_size ▸ hlevel)
  simp only [Egraph.backtrack, modifyClasses, hnone, ← h.follows.pending]

theorem backtrack (hP : Invariant P) (h : Held P g done Ks) (level : Nat) :
    Held P (g.backtrack level) (done.take (g.backtrack level).classes.processed)
      (Ks.take level) := by
  by_cases hlt : level < Ks.length
  · have hK : Ks[level]? = some Ks[level] := List.getElem?_eq_getElem hlt
    obtain ⟨hsame, hprocessed, hlevels, hpending⟩ := h.same_backtrack hK
    have hmem := List.mem_of_getElem? hK
    generalize Ks[level] = K at hK hsame hprocessed hmem
    have hearlier := h.earlier K hmem
    have hnodes : SameNodes g (g.backtrack level) := sameNodes_backtrack g level
    have htables : SameTables { g with classes := K } (g.backtrack level) :=
      ⟨hnodes, hsame.root, hsame.next, hsame.parents, hsame.edges, hsame.adj⟩
    have hbefore : ∀ K' ∈ Ks.take level, Undoes K' K ∧ K'.processed ≤ K.processed :=
        fun K' hK' => by
      have hsplit : Ks = Ks.take level ++ K :: Ks.drop (level + 1) := by
        rw [List.getElem?_eq_getElem hlt, Option.some.injEq] at hK
        rw [← hK, List.getElem_cons_drop, List.take_append_drop]
      have hnested := h.nested
      rw [hsplit, List.pairwise_append] at hnested
      exact hnested.2.2 K' hK' K List.mem_cons_self
    rw [hprocessed]
    refine ⟨hearlier.follows.of_sameTables htables hsame.sigs hsame.diseqs hpending,
      hP.same htables hsame.size hearlier.holds, ?_, ?_, fun K' hK' => ?_, h.nested.take,
        fun K' hK' => ?_⟩
    · rw [hprocessed, List.length_take, Nat.min_eq_left hearlier.processed_le]
    · rw [hlevels, List.map_take, ← h.levels]
      simp
    · exact (hbefore K' hK').1.trans (.of_same hsame)
    · have hle := (hbefore K' hK').2
      refine ((h.earlier K' (List.mem_of_mem_take hK')).of_sameNodes hnodes).of_take_eq ?_ ?_
      · rw [List.take_take, Nat.min_eq_left hle]
      · rw [List.length_take]
        exact Nat.le_min.mpr ⟨hle, Nat.le_trans hle hearlier.processed_le⟩
  · have hle : Ks.length ≤ level := Nat.le_of_not_lt hlt
    rw [h.backtrack_of_le hle, List.take_of_length_le hle, h.processed, List.take_length]
    exact h

theorem grow (hP : Invariant P) (h : Held P g done Ks) (hgrown : Grown done.toArray g g') :
    Held P g' done Ks := by
  have hclasses := hgrown.classes
  refine ⟨hgrown.follows (List.Subset.refl _) h.follows, hP.grow hgrown h.follows.merging h.holds,
    ?_, ?_, ?_, h.nested, fun K hK => (h.earlier K hK).grow hP hgrown⟩
  · rw [hclasses, h.processed]
  · rw [hclasses, h.levels]
  · rw [hclasses]
    exact h.undoes

/-- After a step the levels that are still open are those that were, or these and a new one. -/
theorem step (hP : Invariant P) (h : Held P g done Ks) (hs : Step g done g' done') :
    ∃ Ks', Held P g' done' Ks' ∧ (Ks' <+: Ks ∨ Ks' = Ks ++ [g.classes]) := by
  cases hs with
  | openLevel => exact ⟨_, h.openLevel hP, .inr rfl⟩
  | propagate htrail hbase => exact ⟨Ks, h.propagate hP htrail hbase, .inl (List.prefix_refl Ks)⟩
  | backtrack level => exact ⟨_, h.backtrack hP level, .inl (List.take_prefix level Ks)⟩

end Held

/-- What every change keeps holds of every e-graph that is reached. -/
theorem Reached.held (hP : Invariant P) (h : Reached g done) : ∃ Ks, Held P g done Ks := by
  induction h with
  | clear hg => exact ⟨[], .clear hP hg⟩
  | start hg => exact ⟨[], .start hP hg⟩
  | step _ hs ih =>
    obtain ⟨Ks, hheld⟩ := ih
    obtain ⟨Ks', hheld', -⟩ := hheld.step hP hs
    exact ⟨Ks', hheld'⟩
  | grow _ hgrown ih =>
    obtain ⟨Ks, hheld⟩ := ih
    exact ⟨Ks, hheld.grow hP hgrown⟩

/-- The levels below stay open, and the level that was opened first starts from the classes that
there were. -/
theorem Within.held (hP : Invariant P) (h : Held P g done Ks) (hw : Within g done g' done') :
    ∃ Ks', Held P g' done' Ks' ∧ Ks ++ [g.classes] <+: Ks' := by
  induction hw with
  | opened => exact ⟨_, h.openLevel hP, List.prefix_refl _⟩
  | step _ hs hopen ih =>
    obtain ⟨Ks', hheld, hprefix⟩ := ih
    obtain ⟨Ks'', hheld', hor⟩ := hheld.step hP hs
    refine ⟨Ks'', hheld', ?_⟩
    rcases hor with hback | rfl
    · refine List.prefix_of_prefix_length_le hprefix hback ?_
      rw [h.levels_size, hheld'.levels_size] at hopen
      simpa [Nat.succ_le_iff] using hopen
    · exact hprefix.trans (List.prefix_append _ _)

/-! ## An e-graph without terms -/

/-- A new e-graph knows the two truth values. -/
theorem empty_eq : empty =
    ⟨#[⟨.top, .bool, none, []⟩, ⟨.bot, .bool, none, []⟩],
      ((∅ : Std.HashMap Term Nat).insert .top 0).insert .bot 1, ∅, ∅, #[], [], {}⟩ := by
  simp [empty, trueNode, falseNode, Std.HashMap.ofList_cons]

/-- An e-graph without terms has no objection to the unit of a new context, nor to a second one. -/
theorem conflict_empty : (empty.startSearch.propagate #[.pos 1]).1.conflict = none ∧
    (empty.push.startSearch.propagate #[.pos 1]).1.conflict = none ∧
    (empty.startSearch.propagate #[.pos 1, .pos 2]).1.conflict = none := by
  rw [empty_eq]
  refine ⟨?_, ?_, ?_⟩ <;> cbv

end Entail.Egraph
