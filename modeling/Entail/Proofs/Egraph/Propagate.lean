import Entail.Proofs.Egraph.Reasons
import Entail.Proofs.Egraph.Sync

/-!
# Propagation

An e-graph follows a trail: it has taken some of its literals into account, the first ones. A
propagation takes the new nodes and the rest of the literals into account. Afterwards two nodes are
in one class exactly when their equality follows from the trail, and a conflict is reported exactly
when two nodes that differ are in one class.
-/

namespace Entail.Egraph

variable {g g' g'' : Egraph} {lits lits' done : List Literal} {l : Literal} {a b : Nat}

/-- Literals are taken into account: nodes that they make equal are in one class, and the nodes that
differ are those that they make differ, and the constants. -/
structure Takes (done : List Literal) (g : Egraph) : Prop where
  equal : ∀ {l a b}, l ∈ done → g.equation? l = some (a, b) → g.root a = g.root b
  differ : ∀ {d}, d ∈ g.classes.diseqs ↔ d = (trueNode, falseNode, none) ∨
    ∃ l ∈ done, ∃ a b, g.disequation? l = some (a, b) ∧ d = (a, b, some l)

/-- The classes are in order, all nodes of a class are equal by the literals of the trail, and
nothing waits; the literals in `done` are taken into account. -/
structure Follows (lits done : List Literal) (g : Egraph) : Prop where
  wf : g.Wf
  merging : Merging (g.Cong lits) [] g
  pending : g.classes.pending = []
  takes : Takes done g

/-- No two nodes that differ are in one class. -/
def Consistent (g : Egraph) : Prop := ∀ d ∈ g.classes.diseqs, g.root d.1 ≠ g.root d.2.1

/-- `g'` comes from `g` by taking literals into account; if none of them means anything, the
classes stay. -/
structure Advances (changed : Bool) (g g' : Egraph) : Prop where
  sameNodes : SameNodes g g'
  known : g'.known = g.known
  undoes : Undoes g.classes g'.classes
  levels : g'.classes.levels = g.classes.levels
  unchanged : changed = false → g'.root = g.root ∧ g'.classes.diseqs = g.classes.diseqs

theorem Coarser.advances (h : Coarser g g') : Advances true g g' :=
  ⟨h.sameNodes, h.known, h.undoes, h.levels, nofun⟩

theorem Advances.refl (changed : Bool) (g : Egraph) : Advances changed g g :=
  ⟨.refl g, rfl, .refl _, rfl, fun _ => ⟨rfl, rfl⟩⟩

theorem Advances.trans {c c' c'' : Bool} (h : Advances c g g') (h' : Advances c' g' g'')
    (hc : c'' = false → c = false ∧ c' = false) : Advances c'' g g'' where
  sameNodes := h.sameNodes.trans h'.sameNodes
  known := h'.known.trans h.known
  undoes := h.undoes.trans h'.undoes
  levels := h'.levels.trans h.levels
  unchanged hfalse := by
    obtain ⟨hroot, hdiseqs⟩ := h.unchanged (hc hfalse).1
    obtain ⟨hroot', hdiseqs'⟩ := h'.unchanged (hc hfalse).2
    exact ⟨hroot'.trans hroot, hdiseqs'.trans hdiseqs⟩

/-! ## Literals that are taken into account -/

/-- Notes that two nodes differ. -/
def addDiseq (g : Egraph) (a b : Nat) (l : Literal) : Egraph :=
  (g.modifyClasses fun k => { k with diseqs := k.diseqs.push (a, b, some l) }).log .diseq

namespace Takes

/-- Merging classes keeps what was taken into account. -/
theorem of_root (h : Takes done g) (hsame : SameNodes g g')
    (hroot : ∀ {a b}, g.root a = g.root b → g'.root a = g'.root b)
    (hdiseqs : g'.classes.diseqs = g.classes.diseqs) : Takes done g' where
  equal {l a b} hl he := by
    rw [hsame.equation?_eq] at he
    exact hroot (h.equal hl he)
  differ {d} := by
    rw [hdiseqs, h.differ]
    simp only [hsame.disequation?_eq]

/-- A literal that makes no nodes differ. -/
theorem append (h : Takes done g) (heq : ∀ {a b}, g.equation? l = some (a, b) → g.root a = g.root b)
    (hdis : g.disequation? l = none) : Takes (done ++ [l]) g where
  equal {x a b} hx he := by
    rcases List.mem_append.mp hx with hx | hx
    · exact h.equal hx he
    · obtain rfl := List.mem_singleton.mp hx
      exact heq he
  differ {d} := by
    rw [h.differ]
    refine or_congr_right ⟨?_, ?_⟩
    · rintro ⟨x, hx, hrest⟩
      exact ⟨x, List.mem_append_left [l] hx, hrest⟩
    · rintro ⟨x, hx, a, b, hxd, rfl⟩
      rcases List.mem_append.mp hx with hx | hx
      · exact ⟨x, hx, a, b, hxd, rfl⟩
      · rw [List.mem_singleton.mp hx, hdis] at hxd
        cases hxd

/-- A literal that makes two nodes differ. -/
theorem addDiseq (h : Takes done g) (heq : g.equation? l = none)
    (hdis : g.disequation? l = some (a, b)) :
    Takes (done ++ [l]) (g.addDiseq a b l) where
  equal {x c d} hx he := by
    change g.equation? x = _ at he
    rcases List.mem_append.mp hx with hx | hx
    · exact h.equal hx he
    · rw [List.mem_singleton.mp hx, heq] at he
      cases he
  differ {d} := by
    show d ∈ g.classes.diseqs.push (a, b, some l) ↔ _ ∨ ∃ x ∈ done ++ [l], ∃ a b,
      g.disequation? x = some (a, b) ∧ _
    rw [Array.mem_push, h.differ, or_assoc]
    refine or_congr_right ⟨?_, ?_⟩
    · rintro (⟨x, hx, hrest⟩ | rfl)
      · exact ⟨x, List.mem_append_left [l] hx, hrest⟩
      · exact ⟨l, List.mem_append_right done (List.mem_singleton.mpr rfl), a, b, hdis, rfl⟩
    · rintro ⟨x, hx, c, e, hxd, rfl⟩
      rcases List.mem_append.mp hx with hx | hx
      · exact .inl ⟨x, hx, c, e, hxd, rfl⟩
      · rw [List.mem_singleton.mp hx, hdis] at hxd
        obtain ⟨rfl, rfl⟩ := Prod.mk.inj (Option.some.inj hxd)
        rw [List.mem_singleton.mp hx]
        exact .inr rfl

end Takes

/-- The log, the records of the search and the order of the signature table do not matter. -/
theorem Follows.of_sameTables (h : Follows lits done g) (ht : SameTables g g')
    (hsigs : ∀ key : Signature, g'.classes.sigs[key]? = g.classes.sigs[key]?)
    (hdiseqs : g'.classes.diseqs = g.classes.diseqs) (hpending : g'.classes.pending = []) :
    Follows lits done g' where
  wf := ht.sameNodes.wf h.wf
  merging := (ht.merging_of_sigs h.merging hsigs).imp ht.sameNodes.cong
  pending := hpending
  takes := h.takes.of_root ht.sameNodes (fun heq => by rwa [ht.root_eq]) hdiseqs

/-- A trail with more literals. -/
theorem Follows.of_subset (h : Follows lits done g) (hsub : lits ⊆ lits') : Follows lits' done g :=
  { h with merging := h.merging.imp fun hc => hc.of_subset hsub }

/-! ## One literal -/

/-- A literal means nothing, or that two nodes differ, or that two nodes are equal. -/
theorem assertLit_cases (g : Egraph) (l : Literal) :
    g.equation? l = none ∧ g.disequation? l = none ∧ g.assertLit l = (false, g) ∨
      (∃ a b, g.equation? l = none ∧ g.disequation? l = some (a, b) ∧
        g.assertLit l = (true, g.addDiseq a b l)) ∨
      ∃ a b, g.equation? l = some (a, b) ∧ g.disequation? l = none ∧
        g.assertLit l = (true, settle g.nodes.size [⟨a, b, .literal l⟩] g) := by
  unfold equation? disequation? assertLit
  cases g.atoms[l.var]? with
  | none => exact .inl ⟨rfl, rfl, rfl⟩
  | some atom =>
    cases atom with
    | eq a b =>
      by_cases hneg : l.isNegated = true
      · simp only [hneg, if_true]
        exact .inr (.inl ⟨a, b, by simp, by simp, rfl⟩)
      · simp only [if_neg hneg]
        exact .inr (.inr ⟨a, b, rfl, by simp, rfl⟩)
    | pred n => exact .inr (.inr ⟨n, _, rfl, rfl, rfl⟩)

theorem undoes_addDiseq (g : Egraph) (a b : Nat) (l : Literal) :
    Undoes g.classes (g.addDiseq a b l).classes := by
  refine .of_revert (u := .diseq) rfl ?_
  have hpop : (g.classes.diseqs.push (a, b, some l)).pop = g.classes.diseqs := Array.pop_push
  exact { Classes.Same.refl g.classes with diseqs := hpop }

/-- The nodes that a literal makes equal wait to be merged. -/
theorem Merging.await {R : Nat → Nat → Prop} (h : Merging R [] g) (hg : g.Wf)
    (hknown : g.known = g.nodes.size)
    (heq : g.equation? l = some (a, b)) (hab : R a b) : Merging R [⟨a, b, .literal l⟩] g := by
  obtain ⟨ha, hb⟩ := hg.equation_lt heq
  refine { h with sigs := ⟨h.sigs.sound, fun hp hkey => ?_⟩, waiting := fun e he => ?_ }
  · obtain ⟨q, hq, hpq⟩ := h.sigs.complete hp hkey
    exact ⟨q, hq, .of_root (linked_nil.mp hpq)⟩
  · obtain rfl := List.mem_singleton.mp he
    exact ⟨⟨hknown ▸ ha, hknown ▸ hb, nofun⟩, hab⟩

/-- Another literal is taken into account. -/
theorem Follows.assertLit (h : Follows lits done g) (hknown : g.known = g.nodes.size)
    (hl : l ∈ lits) :
    Follows lits (done ++ [l]) (g.assertLit l).2 ∧ Advances (g.assertLit l).1 g (g.assertLit l).2 ∧
      (g.assertLit l).2.classes.processed = g.classes.processed := by
  rcases assertLit_cases g l with ⟨heq, hdis, hstep⟩ | ⟨a, b, heq, hdis, hstep⟩ | ⟨a, b, heq,
    hdis, hstep⟩ <;>
    rw [hstep]
  · have htakes : Takes (done ++ [l]) g := by
      refine h.takes.append (fun he => ?_) hdis
      rw [heq] at he
      cases he
    exact ⟨{ h with takes := htakes }, .refl _ g, rfl⟩
  · have htables : SameTables g (g.addDiseq a b l) := ⟨rfl, rfl, rfl, rfl, rfl, rfl⟩
    have hmerging : Merging ((g.addDiseq a b l).Cong lits) [] (g.addDiseq a b l) :=
      (htables.merging_of_sigs h.merging fun _ => rfl).imp htables.sameNodes.cong
    exact ⟨⟨htables.sameNodes.wf h.wf, hmerging, h.pending, h.takes.addDiseq heq hdis⟩,
      ⟨htables.sameNodes, rfl, undoes_addDiseq g a b l, rfl, nofun⟩, rfl⟩
  · have hwait : Merging (g.Cong lits) [⟨a, b, .literal l⟩] g :=
      h.merging.await h.wf hknown heq (.fact hl heq)
    obtain ⟨hdone, hcoarser, hends⟩ :=
      hwait.settle h.wf (isCongruence_cong g lits) (numClasses_le hwait.tables)
    have hsame := hcoarser.sameNodes
    have htakes : Takes (done ++ [l]) (settle g.nodes.size [⟨a, b, .literal l⟩] g) := by
      refine (h.takes.of_root hsame hcoarser.root hcoarser.diseqs).append (fun {c d} he => ?_) ?_
      · rw [hsame.equation?_eq, heq] at he
        obtain ⟨rfl, rfl⟩ := Prod.mk.inj (Option.some.inj he)
        exact hends _ (List.mem_singleton.mpr rfl)
      · rw [hsame.disequation?_eq, hdis]
    exact ⟨⟨hsame.wf h.wf, hdone.imp hsame.cong, hcoarser.pending.trans h.pending, htakes⟩,
      hcoarser.advances,
      hcoarser.processed⟩

/-! ## All literals -/

/-- Counts a literal as processed. -/
theorem Follows.count (h : Follows lits done g) (n : Nat) :
    Follows lits done (g.modifyClasses fun k => { k with processed := n }) ∧
      Advances false g (g.modifyClasses fun k => { k with processed := n }) := by
  refine ⟨h.of_sameTables ⟨rfl, rfl, rfl, rfl, rfl, rfl⟩ (fun _ => rfl) rfl h.pending, rfl,
    rfl, ?_, rfl,
    fun _ => ⟨rfl, rfl⟩⟩
  exact (Undoes.refl g.classes).of_records _ _ _

/-- Literals are taken into account one after the other. -/
theorem Follows.assertLits {ls : List Literal} (h : Follows lits done g)
    (hknown : g.known = g.nodes.size) (hsub : ls ⊆ lits) (changed : Bool) :
    Follows lits (done ++ ls) (assertLits ls changed g).2 ∧
      Advances (Egraph.assertLits ls changed g).1 g (Egraph.assertLits ls changed g).2 ∧
      (Egraph.assertLits ls changed g).2.classes.processed = g.classes.processed + ls.length ∧
      ((Egraph.assertLits ls changed g).1 = false → changed = false) := by
  induction ls generalizing done g changed with
  | nil =>
    refine ⟨?_, .refl _ g, rfl, id⟩
    rw [List.append_nil]
    exact h
  | cons l ls ih =>
    obtain ⟨hcount, hadvance⟩ := h.count (g.classes.processed + 1)
    obtain ⟨hone, hadvance', hprocessed⟩ :=
      hcount.assertLit (hadvance.known.trans hknown) (hsub List.mem_cons_self)
    have hadv : Advances _ g _ := hadvance.trans hadvance' fun hc => ⟨rfl, hc⟩
    have hnodes := congrArg Array.size hadv.sameNodes.nodes_eq
    obtain ⟨hrest, hadvance'', hprocessed', hchanged⟩ :=
      ih hone (hadv.known.trans (hknown.trans hnodes.symm))
        (fun x hx => hsub (List.mem_cons_of_mem l hx))
        (changed || (Egraph.assertLit (g.modifyClasses fun k =>
          { k with processed := k.processed + 1 }) l).1)
    rw [List.append_assoc] at hrest
    refine ⟨hrest, hadv.trans hadvance'' fun hc => ⟨?_, hc⟩, ?_, fun hc => ?_⟩
    · exact (Bool.or_eq_false_iff.mp (hchanged hc)).2
    · refine hprocessed'.trans ?_
      rw [hprocessed, List.length_cons]
      show g.classes.processed + 1 + ls.length = _
      omega
    · exact (Bool.or_eq_false_iff.mp (hchanged hc)).1

/-! ## A propagation -/

/-- The beginning of a propagation: new nodes are put into classes, and all that waits is merged. -/
structure CaughtUp (g g' : Egraph) : Prop where
  sameNodes : SameNodes g g'
  known : g'.known = g.nodes.size
  levels : g'.classes.levels = g.classes.levels
  processed : g'.classes.processed = g.classes.processed
  undoes : g.known = g.nodes.size → Undoes g.classes g'.classes
  unchanged : g.sync.classes.pending = [] → g'.root = g.root ∧ g'.classes.diseqs = g.classes.diseqs

theorem Follows.catchUp (h : Follows lits done g) :
    Follows lits done g.sync.settlePending ∧ CaughtUp g g.sync.settlePending := by
  have hcong := isCongruence_cong g lits
  have hmerging : Merging (g.Cong lits) g.classes.pending g := by
    rw [h.pending]
    exact h.merging
  obtain ⟨hsync, hsynced, -⟩ := hmerging.sync h.wf hcong
  have hsame := sameNodes_sync g
  have htables : SameTables g.sync (g.sync.modifyClasses fun k => { k with pending := [] }) :=
    ⟨rfl, rfl, rfl, rfl, rfl, rfl⟩
  have hwaits : Merging (g.Cong lits) g.sync.classes.pending (g.sync.modifyClasses fun k =>
      { k with pending := [] }) :=
    htables.merging_of_sigs hsync fun _ => rfl
  have hsame' := hsame.trans htables.sameNodes
  obtain ⟨hdone, hcoarser, -⟩ :=
    hwaits.settle (hsame'.wf h.wf) (hsame'.isCongruence hcong) (numClasses_le hwaits.tables)
  have hall : SameNodes g g.sync.settlePending := hsame'.trans hcoarser.sameNodes
  have hdiseqs : g.sync.settlePending.classes.diseqs = g.classes.diseqs :=
    hcoarser.diseqs.trans hsynced.diseqs
  refine ⟨⟨hall.wf h.wf, hdone.imp hall.cong, hcoarser.pending, ?_⟩,
    ⟨hall, hcoarser.known.trans hsynced.known,
    hcoarser.levels.trans hsynced.levels, hcoarser.processed.trans hsynced.processed, fun hknown =>
      ?_,
    fun hnil => ⟨?_, hdiseqs⟩⟩⟩
  · refine h.takes.of_root hall (fun heq => hcoarser.root ?_) hdiseqs
    rw [htables.root_eq, hsynced.root]
    exact heq
  · have hid : g.sync = g := sync_of_known hknown
    have hrecords : Undoes g.classes (g.sync.modifyClasses fun k =>
        { k with pending := [] }).classes := by
      rw [hid]
      exact (Undoes.refl g.classes).of_records _ _ _
    exact hrecords.trans hcoarser.undoes
  · have hnone : g.sync.settlePending = g.sync.modifyClasses fun k => { k with pending := [] } := by
      rw [settlePending, hnil, Egraph.settle]
    rw [hnone, htables.root_eq, hsynced.root]

/-- What a propagation does to an e-graph that follows the trail. -/
structure Propagated (g : Egraph) (trail : Array Literal) (p : Propagation) (g' : Egraph) :
    Prop where
  follows : Follows trail.toList trail.toList g'
  sameNodes : SameNodes g g'
  known : g'.known = g.nodes.size
  processed : g'.classes.processed = trail.size
  levels : g'.classes.levels = g.classes.levels
  undoes : g.known = g.nodes.size → Undoes g.classes g'.classes
  unchanged : p.changed = false → g'.root = g.root ∧ g'.classes.diseqs = g.classes.diseqs
  conflict : p.conflict = if p.changed then g'.conflict? else none

theorem Follows.propagate {trail : Array Literal}
    (h : Follows trail.toList (trail.toList.take g.classes.processed) g)
    (hle : g.classes.processed ≤ trail.size) :
    Propagated g trail (g.propagate trail).1 (g.propagate trail).2 := by
  obtain ⟨hfollows, hup⟩ := h.catchUp
  have hrest : (trail.extract g.sync.settlePending.classes.processed trail.size).toList =
      trail.toList.drop g.classes.processed := by
    rw [hup.processed, Array.toList_extract, List.extract_eq_take_drop, List.take_of_length_le]
    rw [List.length_drop, Array.length_toList]
  have hknown : g.sync.settlePending.known = g.sync.settlePending.nodes.size := by
    rw [hup.known, hup.sameNodes.nodes_eq]
  have hsub : trail.toList.drop g.classes.processed ⊆ trail.toList := List.drop_subset _ _
  obtain ⟨hdone, hadvance, hprocessed, hchanged⟩ :=
    hfollows.assertLits hknown hsub (!g.sync.classes.pending.isEmpty)
  rw [List.take_append_drop] at hdone
  have hstep : g.propagate trail =
    (fun r : Bool × Egraph => (⟨r.1, if r.1 then r.2.conflict? else none⟩, r.2))
      (Egraph.assertLits (trail.toList.drop g.classes.processed) (!g.sync.classes.pending.isEmpty)
        g.sync.settlePending) := by
    rw [← hrest]
    rfl
  rw [hstep]
  refine ⟨hdone, hup.sameNodes.trans hadvance.sameNodes, hadvance.known.trans hup.known, ?_,
    hadvance.levels.trans hup.levels, fun hk => (hup.undoes hk).trans hadvance.undoes, fun hc =>
      ?_, rfl⟩
  · rw [hprocessed, hup.processed, List.length_drop, Array.length_toList]
    omega
  · have hnil : g.sync.classes.pending = [] := by simpa using hchanged hc
    obtain ⟨hroot, hdiseqs⟩ := hup.unchanged hnil
    obtain ⟨hroot', hdiseqs'⟩ := hadvance.unchanged hc
    exact ⟨hroot'.trans hroot, hdiseqs'.trans hdiseqs⟩

/-! ## What it comes to -/

namespace Propagated

variable {trail : Array Literal} {p : Propagation} (h : Propagated g trail p g')

include h

/-- Two nodes are in one class exactly when their equality follows from the trail. -/
theorem root_eq_iff (ha : a < g'.nodes.size) (hb : b < g'.nodes.size) :
    g'.root a = g'.root b ↔ g'.Cong trail.toList a b := by
  have hknown : g'.known = g'.nodes.size := by rw [h.known, h.sameNodes.nodes_eq]
  constructor
  · intro hab
    exact h.follows.merging.sound (hknown ▸ ha) (hknown ▸ hb) hab
  · intro hab
    exact (h.follows.merging.isCongruence hknown).of_cong h.follows.takes.equal hab

/-- When there was no conflict before, one is reported exactly when two nodes that differ are
in one class. -/
theorem conflict_isSome (hold : g.Consistent) : p.conflict.isSome = true ↔ ¬ g'.Consistent := by
  have hconflict := conflict?_isSome h.follows.wf h.follows.merging.tables h.follows.merging.forest
  rw [h.conflict]
  cases hc : p.changed with
  | true =>
    rw [if_pos rfl, hconflict]
    simp only [Consistent, not_forall, not_not, exists_prop]
  | false =>
    obtain ⟨hroot, hdiseqs⟩ := h.unchanged hc
    have hstill : g'.Consistent := by
      rw [Consistent, hroot, hdiseqs]
      exact hold
    simp [hstill]

/-- Nodes that differ are in one class exactly when the closure of the trail has a conflict. -/
theorem not_consistent_iff : ¬ g'.Consistent ↔ g'.Cong trail.toList trueNode falseNode ∨
    ∃ l ∈ trail, ∃ a b, g'.disequation? l = some (a, b) ∧ g'.Cong trail.toList a b := by
  have hwf := h.follows.wf
  have htwo : trueNode < g'.nodes.size ∧ falseNode < g'.nodes.size :=
    ⟨Nat.lt_of_lt_of_le Nat.zero_lt_two hwf.constants, hwf.constants⟩
  simp only [Consistent, not_forall, not_not, exists_prop]
  constructor
  · rintro ⟨d, hd, heq⟩
    rcases h.follows.takes.differ.mp hd with rfl | ⟨l, hl, a, b, hlab, rfl⟩
    · exact .inl ((h.root_eq_iff htwo.1 htwo.2).mp heq)
    · obtain ⟨ha, hb⟩ := hwf.disequation_lt hlab
      exact .inr ⟨l, Array.mem_toList_iff.mp hl, a, b, hlab, (h.root_eq_iff ha hb).mp heq⟩
  · rintro (heq | ⟨l, hl, a, b, hlab, heq⟩)
    · exact ⟨_, h.follows.takes.differ.mpr (.inl rfl), (h.root_eq_iff htwo.1 htwo.2).mpr heq⟩
    · obtain ⟨ha, hb⟩ := hwf.disequation_lt hlab
      exact ⟨_, h.follows.takes.differ.mpr (.inr ⟨l, Array.mem_toList_iff.mpr hl, a, b, hlab, rfl⟩),
        (h.root_eq_iff ha hb).mpr heq⟩

end Propagated

end Entail.Egraph
