import Entail.Proofs.Egraph.Reached

/-!
# Exact tables and exact backtracking

In every e-graph that is reached, the ring of a node visits the members of its class once, the
number of members is on record, and so are the applications that have an argument in the class,
as often as they have one. Going back to a level brings everything back as it was when the
level was opened.
-/

namespace Entail.Egraph

/-- Nodes of the class that `r` represents. -/
def members (g : Egraph) (r : Nat) : Finset Nat := (Finset.range g.known).filter (g.root · = r)

/-- Number of arguments that an application has in the class that `r` represents. -/
def argsIn (g : Egraph) (r p : Nat) : Nat := (g.node p).args.countP (g.root · == r)

/-- Representatives have the number of members and the list of applications of their class. -/
structure Counted (g : Egraph) : Prop where
  sizes : g.classes.size.size = g.known
  size : ∀ {r}, r < g.known → g.root r = r → g.classes.size[r]? = some (g.members r).card
  parents : ∀ {r}, r < g.known → g.root r = r →
    ∀ p, (g.parentsOf r).toList.count p = if p < g.known then g.argsIn r p else 0

variable {g g' : Egraph} {done done' lits : List Literal} {e : Edge} {found : List Edge}
  {parents : Array (Array Nat)}
  {m n p r small big : Nat}

theorem mem_members : n ∈ g.members r ↔ n < g.known ∧ g.root n = r := by
  rw [members, Finset.mem_filter, Finset.mem_range]

theorem argsIn_pos : 0 < g.argsIn r p ↔ ∃ a ∈ (g.node p).args, g.root a = r := by
  simp [argsIn, List.countP_pos_iff]

theorem argsIn_congr (hnode : g'.node p = g.node p)
    (hroot : ∀ a ∈ (g.node p).args, g'.root a = r ↔ g.root a = r) :
    g'.argsIn r p = g.argsIn r p := by
  rw [argsIn, argsIn, hnode]
  refine List.countP_congr fun a ha => ?_
  simpa using hroot a ha

/-! ## Every change keeps the counts -/

namespace Counted

theorem same (h : g.Counted) (ht : SameTables g g') (hsize : g'.classes.size = g.classes.size) :
    g'.Counted := by
  have hmembers (r : Nat) : g'.members r = g.members r := by
    rw [members, members, ht.known_eq, ht.root_eq]
  have hargs (r p : Nat) : g'.argsIn r p = g.argsIn r p := by
    rw [argsIn, argsIn, ht.sameNodes.node_eq, ht.root_eq]
  refine ⟨?_, fun {r} hr hroot => ?_, fun {r} hr hroot p => ?_⟩
  · rw [hsize, ht.known_eq, h.sizes]
  · rw [ht.known_eq] at hr
    rw [ht.root_eq] at hroot
    rw [hsize, hmembers]
    exact h.size hr hroot
  · rw [ht.known_eq] at hr
    rw [ht.root_eq] at hroot
    rw [parentsOf, ht.parents, ht.known_eq, hargs]
    exact h.parents hr hroot p

/-- The class of `big` gets the members of that of `small`; the other classes stay. -/
theorem root_merged (hm : g.Merged e small big found g') (hap : g.Apart small big)
    (hr : g'.root r = r) (n : Nat) :
    g'.root n = r ↔ g.root n = r ∨ r = big ∧ g.root n = small := by
  have hsmall : r ≠ small := fun heq => by
    rw [heq, hm.root, if_pos hap.root_small] at hr
    exact hap.ne hr.symm
  rw [hm.root]
  split
  next hn => simp [hn, Ne.symm hsmall, eq_comm]
  next hn => simp [hn]

theorem members_merged (hm : g.Merged e small big found g') (hap : g.Apart small big)
    (hr : g'.root r = r) :
    g'.members r = if r = big then g.members big ∪ g.members small else g.members r := by
  ext n
  rw [mem_members, hm.coarser.known, root_merged hm hap hr]
  by_cases hbig : r = big
  · subst hbig
    rw [if_pos rfl, Finset.mem_union, mem_members, mem_members]
    simp only [true_and, and_or_left]
  · simp [hbig, mem_members]

theorem argsIn_merged (hm : g.Merged e small big found g') (hap : g.Apart small big)
    (hr : g'.root r = r) (p : Nat) :
    g'.argsIn r p = if r = big then g.argsIn big p + g.argsIn small p else g.argsIn r p := by
  rw [argsIn, argsIn, argsIn, argsIn, hm.coarser.sameNodes.node_eq]
  by_cases hbig : r = big
  · subst hbig
    rw [if_pos rfl]
    induction (g.node p).args with
    | nil => rfl
    | cons a args ih =>
      have hone := root_merged hm hap hr a
      have hne := hap.ne
      simp only [List.countP_cons, ih, beq_iff_eq, hone]
      grind
  · rw [if_neg hbig]
    refine List.countP_congr fun a _ => ?_
    simpa [hbig] using root_merged hm hap hr a

theorem merge (h : g.Counted) (ht : g.Tables) (hap : g.Apart small big)
    (hm : g.Merged e small big found g') :
    g'.Counted := by
  have hself {r : Nat} (hr : g'.root r = r) (hbig : r ≠ big) : g.root r = r := by
    rw [hm.root] at hr
    split at hr
    · exact absurd hr.symm hbig
    · exact hr
  refine ⟨?_, fun {r} hr hroot => ?_, fun {r} hr hroot p => ?_⟩
  · rw [hm.size, Array.size_modify, hm.coarser.known, h.sizes]
  · rw [hm.coarser.known] at hr
    rw [hm.size, Array.getElem?_modify, members_merged hm hap hroot]
    by_cases hbig : r = big
    · subst hbig
      have hdisj : Disjoint (g.members r) (g.members small) := by
        refine Finset.disjoint_left.mpr fun n hn hn' => hap.ne ?_
        rw [← (mem_members.mp hn).2, (mem_members.mp hn').2]
      have hsmall := h.size hap.small_lt hap.root_small
      rw [if_pos rfl, if_pos rfl, h.size hap.big_lt hap.root_big,
        Finset.card_union_of_disjoint hdisj,
        Array.getD_eq_getD_getElem?, hsmall]
      rfl
    · rw [if_neg (Ne.symm hbig), if_neg hbig]
      exact h.size hr (hself hroot hbig)
  · rw [hm.coarser.known] at hr
    rw [parentsOf, hm.parents, Array.getD_eq_getD_getElem?, Array.getElem?_modify, hm.coarser.known,
      argsIn_merged hm hap hroot]
    by_cases hbig : r = big
    · subst hbig
      have hlt : r < g.classes.parents.size := ht.size_parents ▸ hap.big_lt
      have hcount := h.parents hap.big_lt hap.root_big p
      rw [parentsOf, Array.getD_eq_getD_getElem?, Array.getElem?_eq_getElem hlt,
        Option.getD_some] at hcount
      rw [if_pos rfl, if_pos rfl, Array.getElem?_eq_getElem hlt, Option.map_some, Option.getD_some,
        Array.toList_append, List.count_append, hcount, h.parents hap.small_lt hap.root_small]
      split
      · rfl
      · rfl
    · rw [if_neg (Ne.symm hbig), if_neg hbig, ← Array.getD_eq_getD_getElem?]
      exact h.parents hr (hself hroot hbig) p

/-- Earlier nodes have no argument in the class of a new one. -/
theorem argsIn_new (hg : g.Wf) (ht : g.Tables) (hp : p ≤ g.known) (hlt : g.known < g.nodes.size) :
    g.argsIn g.known p = 0 := by
  refine Nat.eq_zero_of_not_pos fun hpos => ?_
  obtain ⟨a, ha, hroot⟩ := argsIn_pos.mp hpos
  have hap : a < p := hg.args_lt ha (Nat.lt_of_le_of_lt hp hlt)
  have hlt' := ht.root_lt (Nat.lt_of_lt_of_le hap hp)
  omega

theorem add (h : g.Counted) (hg : g.Wf) (ht : g.Tables) (hlt : g.known < g.nodes.size)
    (hlists : g.Lists g.known (g.node g.known).args parents) :
    (g.withClass g.known parents).Counted := by
  have hroot : (g.withClass g.known parents).root = g.root := root_withClass rfl parents
  have hself : g.root g.known = g.known := root_of_known_le (Nat.le_refl _)
  have hmem {n r : Nat} : n ∈ (g.withClass g.known parents).members r ↔ n < g.known + 1 ∧
      g.root n = r := by
    rw [mem_members, known_withClass, hroot]
  have hargs (r p : Nat) : (g.withClass g.known parents).argsIn r p = g.argsIn r p := by
    rw [argsIn, argsIn, hroot]
    rfl
  refine ⟨?_, fun {r} hr hrep => ?_, fun {r} hr hrep p => ?_⟩
  · rw [known_withClass, ← h.sizes]
    exact Array.size_push 1
  · rw [known_withClass] at hr
    rw [hroot] at hrep
    show (g.classes.size.push 1)[r]? = _
    rw [Array.getElem?_push, h.sizes]
    split
    next heq =>
      have hone : (g.withClass g.known parents).members r = {r} := by
        ext n
        rw [hmem, Finset.mem_singleton]
        refine ⟨fun hn => ?_, fun hn => ⟨hn ▸ hr, hn ▸ hrep⟩⟩
        rcases Nat.lt_succ_iff_lt_or_eq.mp hn.1 with hlt' | hn'
        · have hr' := ht.root_lt hlt'
          omega
        · exact hn'.trans heq.symm
      rw [hone, Finset.card_singleton]
    next hne =>
      have hr' : r < g.known := by omega
      have hsame : (g.withClass g.known parents).members r = g.members r := by
        ext n
        rw [hmem, mem_members]
        refine and_congr_left fun hn => ⟨fun hn' => ?_, Nat.lt_succ_of_lt⟩
        rcases Nat.lt_succ_iff_lt_or_eq.mp hn' with hlt' | rfl
        · exact hlt'
        · omega
      rw [hsame]
      exact h.size hr' hrep
  · rw [known_withClass] at hr
    rw [hroot] at hrep
    -- the new node is a parent of the classes of its arguments, once for each time it has one
    have hlist : ((g.withClass g.known parents).parentsOf r).toList =
        (g.parentsOf r).toList ++ List.replicate (g.argsIn r g.known) g.known := by
      have hentries := hlists.entries r
      rwa [if_pos (Nat.le_of_lt_succ hr)] at hentries
    have hold : (g.parentsOf r).toList.count p = if p < g.known then g.argsIn r p else 0 := by
      rcases Nat.lt_succ_iff_lt_or_eq.mp hr with hr' | rfl
      · exact h.parents hr' hrep p
      · have hempty : g.parentsOf g.known = #[] := by
          rw [parentsOf, Array.getD_eq_getD_getElem?,
            Array.getElem?_eq_none (Nat.le_of_eq ht.size_parents)]
          rfl
        rw [hempty]
        split
        next hp => simp [argsIn_new hg ht (Nat.le_of_lt hp) hlt]
        next => rfl
    rw [hlist, List.count_append, hold, known_withClass, hargs, List.count_replicate]
    by_cases hp : p = g.known
    · subst hp
      simp
    · have hne : ¬ (g.known == p) = true := by simpa using Ne.symm hp
      have hiff : p < g.known + 1 ↔ p < g.known := by omega
      simp [hiff, Ne.symm hp]

theorem grow (h : g.Counted) (ht : g.Tables) (hgrown : Grown lits.toArray g g') : g'.Counted := by
  have hmembers (r : Nat) : g'.members r = g.members r := by
    rw [members, members, hgrown.known_eq, hgrown.root_eq]
  refine ⟨?_, fun {r} hr hroot => ?_, fun {r} hr hroot p => ?_⟩
  · rw [hgrown.classes, hgrown.known_eq, h.sizes]
  · rw [hgrown.known_eq] at hr
    rw [hgrown.root_eq] at hroot
    rw [hgrown.classes, hmembers]
    exact h.size hr hroot
  · rw [hgrown.known_eq] at hr
    rw [hgrown.root_eq] at hroot
    rw [parentsOf, hgrown.classes, hgrown.known_eq]
    refine (h.parents hr hroot p).trans ?_
    split
    next hp =>
      have hnode := hgrown.node_eq (Nat.lt_of_lt_of_le hp ht.known_le)
      exact (argsIn_congr hnode fun a _ => by rw [hgrown.root_eq]).symm
    next => rfl

end Counted

/-- Every change keeps the numbers of members and the lists of applications right. -/
theorem invariant_counted : Invariant fun g _ => g.Counted where
  clear _ := ⟨rfl, nofun, nofun⟩
  mono _ h := h
  same ht hsize h := h.same ht hsize
  merge _ hmerging _ hap _ hm h := h.merge hmerging.tables hap hm
  add hg ht hlt hlists h := h.add hg ht hlt hlists
  grow hgrown hmerging h := h.grow hmerging.tables hgrown

/-! ## Rings -/

/-- A node that is in no class yet is alone. -/
theorem ring_of_known_le (ht : g.Tables) (hn : g.known ≤ n) : g.ring n = [n] := by
  have hnone : g.classes.next[n]? = none := Array.getElem?_eq_none (ht.size_next ▸ hn)
  have hself : g.classes.next.getD n n = n := by
    rw [Array.getD_eq_getD_getElem?, hnone, Option.getD_none]
  rw [ring, hself]
  cases g.classes.next.size with
  | zero => rfl
  | succ bound => simp [ringFrom]

/-- The ring from a node on visits its class. -/
theorem perm_ring (ht : g.Tables) (hn : n < g.known) :
    (g.ring n).Nodup ∧ (∀ m, m ∈ g.ring n ↔ m < g.known ∧ g.root m = g.root n) ∧
      (g.ring n).length = (g.members (g.root n)).card := by
  obtain ⟨l, hring, hmem⟩ := ht.ring (ht.root_lt hn) (ht.root_root n)
  obtain ⟨l', hring', hperm⟩ := hring.rotate ((hmem n).mpr ⟨hn, rfl⟩)
  have hnodup := hring'.nodup
  have hclass (m : Nat) : m ∈ n :: l' ↔ m < g.known ∧ g.root m = g.root n := by
    rw [hperm.mem_iff, hmem]
  have hset : (n :: l').toFinset = g.members (g.root n) := by
    ext m
    rw [List.mem_toFinset, hclass, mem_members]
  rw [hring'.ring_eq]
  exact ⟨hnodup, hclass, by rw [← hset, List.toFinset_card_of_nodup hnodup]⟩

/-! ## What is reached -/

/-- In every e-graph that is reached, the ring of a node visits the members of its class, each once,
the representative has their number, and the applications listed there are those with an argument in
the class. Whatever levels are opened, trails propagated and levels gone back to while a level is
open, going back to it restores the classes, the log, the signature table and the count of processed
literals that there were when it was opened. -/
theorem reached_restored (h : Reached g done) :
    (∀ n < g.nodes.size, (g.ring n).Nodup ∧ ∀ m, m ∈ g.ring n ↔ m < g.nodes.size ∧
      g.root m = g.root n) ∧
    (∀ n < g.known, g.classes.size[g.root n]? = some (g.ring n).length ∧
      ∀ p, p ∈ g.parentsOf (g.root n) ↔ p < g.known ∧ ∃ a ∈ (g.node p).args, g.root a = g.root n) ∧
    ∀ g' done', Within g done g' done' →
      let back := g'.backtrack g.classes.levels.size
      SameNodes g back ∧ back.classes.Same g.classes ∧
        back.classes.processed = g.classes.processed ∧
        back.classes.levels = g.classes.levels ∧ back.classes.pending = g.classes.pending := by
  obtain ⟨Ks, hheld⟩ := h.held invariant_counted
  have ht := hheld.follows.merging.tables
  have hcounted : g.Counted := hheld.holds
  refine ⟨fun n hn => ?_, fun n hn => ⟨?_, fun p => ?_⟩, fun g' done' hw => ?_⟩
  · by_cases hlt : n < g.known
    · obtain ⟨hnodup, hmem, -⟩ := perm_ring ht hlt
      refine ⟨hnodup, fun m => (hmem m).trans (and_congr_left fun hroot => ?_)⟩
      refine ⟨fun hm => Nat.lt_of_lt_of_le hm ht.known_le, fun _ => Nat.lt_of_not_le fun hle => ?_⟩
      rw [root_of_known_le hle] at hroot
      exact Nat.not_lt_of_le hle (hroot ▸ ht.root_lt hlt)
    · have hle : g.known ≤ n := Nat.le_of_not_lt hlt
      rw [ring_of_known_le ht hle]
      refine ⟨List.nodup_singleton n, fun m => ?_⟩
      rw [List.mem_singleton, root_of_known_le hle]
      constructor
      · rintro rfl
        exact ⟨hn, root_of_known_le hle⟩
      rintro ⟨-, hroot⟩
      by_cases hm : m < g.known
      · exact absurd (hroot ▸ ht.root_lt hm) hlt
      · rwa [root_of_known_le (Nat.le_of_not_lt hm)] at hroot
  · rw [(perm_ring ht hn).2.2]
    exact hcounted.size (ht.root_lt hn) (ht.root_root n)
  · rw [← Array.mem_toList_iff, ← List.count_pos_iff, hcounted.parents (ht.root_lt hn)
      (ht.root_root n), ← argsIn_pos]
    split
    next hp => simp [hp]
    next hp => simp [hp]
  · obtain ⟨Ks', hheld', hprefix⟩ := hw.held invariant_counted hheld
    have hlevel : Ks'[g.classes.levels.size]? = some g.classes := by
      obtain ⟨more, rfl⟩ := hprefix
      rw [hheld.levels_size, List.append_assoc]
      simp
    obtain ⟨hsame, hprocessed, hlevels, hpending⟩ := hheld'.same_backtrack hlevel
    have hnodes : SameNodes g g' := hw.sameNodes
    refine ⟨hnodes.trans (sameNodes_backtrack g' _), hsame, hprocessed, ?_,
      hpending.trans hheld.follows.pending.symm⟩
    rw [hlevels]
    refine Array.toList_inj.mp ?_
    obtain ⟨more, rfl⟩ := hprefix
    have hlength : g.classes.levels.size = Ks.length := hheld.levels_size
    rw [hheld.levels, hlength]
    simp [hheld'.levels]

/-- A level is opened, the two constants become equal, and going back takes them apart. -/
theorem reached_restored_twoApplications :
    Reached twoApplications.startSearch [] ∧
    Within twoApplications.startSearch []
      (twoApplications.startSearch.openLevel.propagate twoLiterals).2
      twoLiterals.toList ∧
    (twoApplications.startSearch.openLevel.propagate twoLiterals).2.root 2 =
      (twoApplications.startSearch.openLevel.propagate twoLiterals).2.root 3 ∧
    ((twoApplications.startSearch.openLevel.propagate twoLiterals).2.backtrack 0).root 2 ≠
      ((twoApplications.startSearch.openLevel.propagate twoLiterals).2.backtrack 0).root 3 := by
  have hreached : Reached twoApplications.startSearch [] := .start wf_twoApplications
  have hnodes := (sameNodes_startSearch twoApplications).nodes_eq
  have hknown := (known_startSearch twoApplications).trans (congrArg Array.size hnodes.symm)
  have hnone : [] <+: twoLiterals.toList := List.nil_prefix
  have hwithin := Within.propagate hknown hnone
  have hequal : twoApplications.startSearch.equation? (.pos 1) = some (2, 3) := by
    rw [(sameNodes_startSearch twoApplications).equation?_eq, equation?, atoms_twoApplications]
    rfl
  have halone (n : Nat) : twoApplications.startSearch.root n = n := by
    obtain ⟨-, hsynced, -⟩ := Merging.startSearch wf_twoApplications
      (isCongruence_cong twoApplications [])
    rw [hsynced.root]
    exact root_of_known_le (Nat.zero_le n)
  have hlevels : twoApplications.startSearch.classes.levels.size = 0 :=
    congrArg Array.size (gains_startSearch twoApplications fun _ => True).levels
  obtain ⟨Ks, hheld⟩ := hreached.held invariant_counted
  obtain ⟨Ks', hheld', -⟩ := hwithin.held invariant_counted hheld
  obtain ⟨-, -, hrestored⟩ := reached_restored hreached
  obtain ⟨-, hsame, -⟩ := hrestored _ _ hwithin
  have hmem : Literal.pos 1 ∈ twoLiterals.toList := List.mem_cons_self
  refine ⟨hreached, hwithin, ?_, ?_⟩
  · exact hheld'.follows.takes.equal hmem ((hwithin.sameNodes.equation?_eq _).trans hequal)
  · rw [hlevels] at hsame
    have hroot (n : Nat) :
        ((twoApplications.startSearch.openLevel.propagate twoLiterals).2.backtrack 0).root n =
          n := by
      rw [root, hsame.root]
      exact halone n
    rw [hroot, hroot]
    decide

end Entail.Egraph
