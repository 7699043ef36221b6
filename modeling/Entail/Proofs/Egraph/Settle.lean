import Entail.Proofs.Egraph.Merge

/-!
# Merging all that waits

A merge keeps the classes in order, with what it finds waiting. It leaves one class less, so all
that waits is merged before the bound on merges is reached. Then two nodes are in one class that are
equal in every congruence in which the equalities hold.
-/

namespace Entail.Egraph

variable {g g' : Egraph} {R : Nat → Nat → Prop} {es rest found : List Edge} {e : Edge}
  {a b n small big bound : Nat}

/-! ## What a merge does to the classes -/

namespace Merged

variable (hm : g.Merged e small big found g')

/-- The ends of the edge, in one order or the other. -/
def Ends (g : Egraph) (e : Edge) (small big : Nat) : Prop :=
  small = g.root e.a ∧ big = g.root e.b ∨ small = g.root e.b ∧ big = g.root e.a

include hm

theorem root_ends (hends : Ends g e small big) : g'.root e.a = g'.root e.b := by
  rw [hm.root, hm.root]
  grind [Ends]

/-- Nodes that come into one class were in one class, or in the two classes of the edge. -/
theorem root_eq_cases (hends : Ends g e small big) (h : g'.root a = g'.root b) :
    g.root a = g.root b ∨ g.root a = g.root e.a ∧ g.root e.b = g.root b ∨
      g.root a = g.root e.b ∧ g.root e.a = g.root b := by
  rw [hm.root, hm.root] at h
  grind [Ends]

/-- There is one class less. -/
theorem numClasses_lt (hap : g.Apart small big) : g'.numClasses < g.numClasses := by
  have hrange : g'.classes.root.size = g.classes.root.size := hm.coarser.known
  have hpred (n : Nat) : (g'.root n == n) = (!(n == small) && g.root n == n) := by
    rw [hm.root, Bool.eq_iff_iff]
    have hs := hap.root_small
    have hb := hap.root_big
    have hne := hap.ne
    grind
  have hfilter : (List.range g.classes.root.size).filter (fun n => g'.root n == n) =
      ((List.range g.classes.root.size).filter fun n => g.root n == n).filter fun n =>
        !(n == small) := by
    rw [List.filter_filter]
    exact List.filter_congr fun n _ => hpred n
  rw [numClasses, numClasses, hrange, List.countP_eq_length_filter, List.countP_eq_length_filter,
    hfilter,
    List.length_filter_lt_length_iff_exists]
  refine ⟨small, List.mem_filter.mpr
    ⟨List.mem_range.mpr hap.small_lt, by simp [hap.root_small]⟩, by simp⟩

theorem sound_of (hends : Ends g e small big) (hR : Equivalence R)
    (hsound : ∀ {a b}, a < g.known → b < g.known → g.root a = g.root b → R a b) (hv : e.Valid g)
    (he : R e.a e.b)
    (ha : a < g'.known) (hb : b < g'.known) (h : g'.root a = g'.root b) : R a b := by
  rw [hm.coarser.known] at ha hb
  rcases hm.root_eq_cases hends h with heq | ⟨h₁, h₂⟩ | ⟨h₁, h₂⟩
  · exact hsound ha hb heq
  · exact hR.trans (hsound ha hv.a_lt h₁) (hR.trans he (hsound hv.b_lt hb h₂))
  · exact hR.trans (hsound ha hv.b_lt h₁) (hR.trans (hR.symm he) (hsound hv.a_lt hb h₂))

/-! ## The forest -/

theorem adj_mono {n i : Nat} (hi : i ∈ g.classes.adj.getD n #[]) :
    i ∈ g'.classes.adj.getD n #[] := by
  rw [hm.adj]
  rw [Array.getD_eq_getD_getElem?] at hi ⊢
  simp only [Array.getElem?_modify]
  cases hn : g.classes.adj[n]? with
  | none => simp [hn] at hi
  | some is =>
    simp only [hn, Option.getD_some] at hi
    by_cases ha : e.a = n <;> by_cases hb : e.b = n <;> simp [ha, hb, hi]

theorem edges_mono {i : Nat} {e' : Edge} (he : g.classes.edges[i]? = some e') :
    g'.classes.edges[i]? = some e' := by
  rw [hm.edges, Array.getElem?_push, if_neg]
  · exact he
  · exact Nat.ne_of_lt (Array.getElem?_eq_some_iff.mp he).1

/-- The new edge leads from one of its ends to the other. -/
theorem walk_new (ht : g.Tables) (hv : e.Valid g) (hne : e.a ≠ e.b) :
    Walk g'.classes e.a [g.classes.edges.size] e.b ∧
    Walk g'.classes e.b [g.classes.edges.size] e.a := by
  have hedge : g'.classes.edges[g.classes.edges.size]? = some e := by
    rw [hm.edges, Array.getElem?_push, if_pos rfl]
  have ha : e.a < g.classes.adj.size := ht.size_adj ▸ hv.a_lt
  have hb : e.b < g.classes.adj.size := ht.size_adj ▸ hv.b_lt
  have hina : g.classes.edges.size ∈ g'.classes.adj.getD e.a #[] := by
    rw [hm.adj, Array.getD_eq_getD_getElem?, Array.getElem?_modify, Array.getElem?_modify,
      Array.getElem?_eq_getElem ha]
    simp [hne.symm]
  have hinb : g.classes.edges.size ∈ g'.classes.adj.getD e.b #[] := by
    rw [hm.adj, Array.getD_eq_getD_getElem?, Array.getElem?_modify, Array.getElem?_modify,
      Array.getElem?_eq_getElem hb]
    simp [hne]
  exact ⟨⟨hina, e, hedge, if_pos rfl⟩, ⟨hinb, e, hedge, if_neg hne⟩⟩

end Merged

/-- The edges of a walk are in the class of the node it starts from. -/
theorem Forest.root_of_walk (hf : g.Forest) {is : List Nat} (h : Walk g.classes a is b) :
    ∀ i ∈ is, ∃ e, g.classes.edges[i]? = some e ∧ g.root e.a = g.root a := by
  induction is generalizing a with
  | nil => nofun
  | cons i is ih =>
    obtain ⟨hi, e, he, hwalk⟩ := h
    have hroot : g.root e.a = g.root e.b := (hf.valid he).2
    obtain ⟨e', he', hend⟩ := hf.ends hi
    obtain rfl : e = e' := Option.some.inj (he.symm.trans he')
    have ha : g.root e.a = g.root a := by
      rcases hend with hend | hend
      · rw [hend]
      · rw [hroot, hend]
    have hnext : g.root (if e.a = a then e.b else e.a) = g.root a := by
      split
      · exact hroot.symm.trans ha
      · exact ha
    intro j hj
    rcases List.mem_cons.mp hj with rfl | hj
    · exact ⟨e, he, ha⟩
    · obtain ⟨e', he', hroot'⟩ := ih hwalk j hj
      exact ⟨e', he', hroot'.trans hnext⟩

/-- The new edge connects the nodes of one class with those of the other. -/
theorem Merged.forest (hm : g.Merged e small big found g') (hends : Ends g e small big)
    (ht : g.Tables)
    (hf : g.Forest) (hv : e.Valid g) (hne : g.root e.a ≠ g.root e.b) : g'.Forest where
  valid {i e'} he := by
    rw [hm.edges, Array.getElem?_push] at he
    split at he
    · obtain rfl := Option.some.inj he
      exact ⟨hv.of_coarser hm.coarser, hm.root_ends hends⟩
    · exact ⟨(hf.valid he).1.of_coarser hm.coarser, hm.coarser.root (hf.valid he).2⟩
  ends {n i} hi := by
    have hcases : i ∈ g.classes.adj.getD n #[] ∨ i = g.classes.edges.size ∧
        (e.a = n ∨ e.b = n) := by
      rw [hm.adj, Array.getD_eq_getD_getElem?, Array.getElem?_modify, Array.getElem?_modify] at hi
      rw [Array.getD_eq_getD_getElem?]
      cases hn : g.classes.adj[n]? with
      | none => simp [hn] at hi
      | some is =>
        rw [hn] at hi
        by_cases ha : e.a = n <;> by_cases hb : e.b = n <;> simp [ha, hb] at hi ⊢ <;> tauto
    rcases hcases with hold | ⟨rfl, hnew⟩
    · obtain ⟨e', he', hend⟩ := hf.ends hold
      exact ⟨e', hm.edges_mono he', hend⟩
    · refine ⟨e, ?_, hnew⟩
      rw [hm.edges, Array.getElem?_push, if_pos rfl]
  walk {x y} hx hy hxy := by
    rw [hm.coarser.known] at hx hy
    have hmono {c d : Nat} {is : List Nat} (h : Walk g.classes c is d) : Walk g'.classes c is d :=
      h.mono hm.adj_mono hm.edges_mono
    have hfresh {c d : Nat} {is : List Nat} (h : Walk g.classes c is d) :
        g.classes.edges.size ∉ is := fun hmem => by
      obtain ⟨e', he', -⟩ := hf.root_of_walk h _ hmem
      exact Nat.lt_irrefl _ (Array.getElem?_eq_some_iff.mp he').1
    obtain ⟨hab, hba⟩ := hm.walk_new ht hv fun heq => hne (heq ▸ rfl)
    -- walks in two classes have no edge in common
    have hjoin {c d c' d' : Nat} (hc : c < g.known) (hd : d < g.known) (hcd : g.root c = g.root d)
      (hc' : c' < g.known)
        (hd' : d' < g.known) (hcd' : g.root c' = g.root d')
        (hnew : Walk g'.classes d [g.classes.edges.size] c')
        (hdc : g.root d ≠ g.root c') : ∃ is, Walk g'.classes c is d' ∧ is.Nodup := by
      obtain ⟨is, his, hnodup⟩ := hf.walk hc hd hcd
      obtain ⟨js, hjs, hnodup'⟩ := hf.walk hc' hd' hcd'
      refine ⟨is ++ ([g.classes.edges.size] ++ js), (hmono his).append (hnew.append (hmono hjs)),
        ?_⟩
      have hdisj : ∀ i ∈ is, i ∉ js := fun i hi hi' => by
        obtain ⟨e₁, he₁, hr₁⟩ := hf.root_of_walk his i hi
        obtain ⟨e₂, he₂, hr₂⟩ := hf.root_of_walk hjs i hi'
        obtain rfl : e₁ = e₂ := Option.some.inj (he₁.symm.trans he₂)
        exact hdc (hcd.symm.trans (hr₁.symm.trans hr₂))
      rw [List.singleton_append, List.nodup_append]
      refine ⟨hnodup, List.nodup_cons.mpr ⟨hfresh hjs, hnodup'⟩, fun i hi j hj heq => ?_⟩
      subst heq
      rcases List.mem_cons.mp hj with rfl | hj
      · exact hfresh his hi
      · exact hdisj i hi hj
    rcases hm.root_eq_cases hends hxy with heq | ⟨h₁, h₂⟩ | ⟨h₁, h₂⟩
    · obtain ⟨is, his, hnodup⟩ := hf.walk hx hy heq
      exact ⟨is, hmono his, hnodup⟩
    · exact hjoin hx hv.a_lt h₁ hv.b_lt hy h₂ hab hne
    · exact hjoin hx hv.b_lt h₁ hv.a_lt hy h₂ hba hne.symm

/-! ## The order of the classes -/

theorem Merging.sigsSound (h : Merging R es g) : g.SigsSound := h.sigs.sound

/-- Every signature has its application again, when what was found waits as well. -/
theorem Merged.signatures (hm : g.Merged e small big found g') (hends : Ends g e small big)
    (ht : g.Tables) (hs : g.Signatures (e :: rest)) : g'.Signatures (found ++ rest) where
  sound := hm.sound
  complete {key p} hp hkey := by
    rw [hm.coarser.known] at hp
    have hequiv := equivalence_linked g' (found ++ rest)
    have hlinked {c d : Nat} (h : g.Linked (e :: rest) c d) : g'.Linked (found ++ rest) c d := by
      refine h.imp hm.coarser.root fun e' he' => ?_
      rcases List.mem_cons.mp he' with rfl | he'
      · exact .of_root (hm.root_ends hends)
      · exact .of_mem (List.mem_append_right found he')
    have hmoved {q : Nat} {key : Signature} (hq : q ∈ g.parentsOf small)
      (hkey : g'.signature? q = some key) :
        ∃ r, g'.classes.sigs[key]? = some r ∧ g'.Linked (found ++ rest) q r := by
      obtain ⟨r, hr, hor⟩ := hm.entered hq hkey
      refine ⟨r, hr, hor.elim .of_root fun hmem => ?_⟩
      exact Linked.of_mem (e := ⟨q, r, .congruence q r⟩) (List.mem_append_left rest hmem)
    by_cases hpm : p ∈ g.parentsOf small
    · exact hmoved hpm hkey
    · -- the signature is the old one; the application that stands for it may have moved
      have hold : g.signature? p = some key := by
        rwa [signature?_of_not_parent ht hm.coarser.sameNodes hm.root hp hpm] at hkey
      obtain ⟨q, hq, hpq⟩ := hs.complete hp hold
      by_cases hqm : q ∈ g.parentsOf small
      · have halike : g'.Alike p q := Alike.of_coarser hm.coarser ⟨key, hold, (hs.sound hq).2⟩
        obtain ⟨key', hp', hq'⟩ := halike
        obtain rfl : key = key' := Option.some.inj (hkey.symm.trans hp')
        obtain ⟨r, hr, hqr⟩ := hmoved hqm hq'
        exact ⟨r, hr, hequiv.trans (hlinked hpq) hqr⟩
      · exact ⟨q, hm.kept hq hqm, hlinked hpq⟩

/-- A merge keeps the classes in order; what it finds waits before the rest. -/
theorem Merging.merge (hg : g.Wf) (hR : g.IsCongruence R) (h : Merging R (e :: rest) g)
    (hne : g.root e.a ≠ g.root e.b) :
    Merging R ((g.merge e).1 ++ rest) (g.merge e).2 ∧ Coarser g (g.merge e).2 ∧
      (g.merge e).2.root e.a = (g.merge e).2.root e.b ∧
      (g.merge e).2.numClasses < g.numClasses := by
  obtain ⟨hv, he⟩ := h.waiting e List.mem_cons_self
  obtain ⟨small, big, hapart, hends, hm⟩ := merge_spec h.tables h.sigsSound hv hne
  have hsound {a b : Nat} (ha : a < (g.merge e).2.known) (hb : b < (g.merge e).2.known)
      (hab : (g.merge e).2.root a = (g.merge e).2.root b) : R a b :=
    hm.sound_of hends hR.equiv h.sound hv he ha hb hab
  have hcoarser := hm.coarser
  refine ⟨⟨hm.tables, hm.signatures hends h.tables h.sigs, hm.forest hends h.tables h.forest hv hne,
    hsound, ?_⟩,
    hcoarser, hm.root_ends hends, hm.numClasses_lt hapart⟩
  intro e' he'
  rcases List.mem_append.mp he' with hnew | hold
  · obtain ⟨p, q, rfl, hp, hq, hpq⟩ := hm.new e' hnew
    have hcongruent {p' q' : Nat} (heq : Reason.congruence p q = .congruence p' q') :
        p' < (g.merge e).2.known ∧ q' < (g.merge e).2.known ∧ (g.merge e).2.Alike p' q' := by
      obtain ⟨rfl, rfl⟩ := Reason.congruence.inj heq
      exact ⟨hp, hq, hpq⟩
    have hrel : R p q :=
      hpq.rel (hcoarser.sameNodes.wf hg) (hcoarser.sameNodes.isCongruence hR) hm.tables hsound hp hq
    exact ⟨⟨hp, hq, hcongruent⟩, hrel⟩
  · obtain ⟨hv', hR'⟩ := h.waiting e' (List.mem_cons_of_mem e hold)
    exact ⟨hv'.of_coarser hcoarser, hR'⟩

/-- An equality within a class has nothing to wait for. -/
theorem Merging.skip (h : Merging R (e :: rest) g) (heq : g.root e.a = g.root e.b) :
    Merging R rest g where
  tables := h.tables
  sigs := by
    refine ⟨h.sigs.sound, fun hp hkey => ?_⟩
    obtain ⟨q, hq, hlinked⟩ := h.sigs.complete hp hkey
    refine ⟨q, hq, hlinked.imp id fun e' he' => ?_⟩
    rcases List.mem_cons.mp he' with rfl | he'
    · exact .of_root heq
    · exact .of_mem he'
  forest := h.forest
  sound := h.sound
  waiting e' he' := h.waiting e' (List.mem_cons_of_mem e he')

/-- While two nodes are in different classes, there is a class. -/
theorem numClasses_pos (ht : g.Tables) (ha : a < g.known) : 0 < g.numClasses := by
  refine List.countP_pos_iff.mpr ⟨g.root a, List.mem_range.mpr (ht.root_lt ha), ?_⟩
  simp [ht.root_root]

/-- Settling keeps the classes in order and merges all that waits. -/
theorem Merging.settle (hg : g.Wf) (hR : g.IsCongruence R) (h : Merging R es g)
    (hbound : g.numClasses ≤ bound) :
    Merging R [] (settle bound es g) ∧ Coarser g (Egraph.settle bound es g) ∧
      ∀ e ∈ es, (Egraph.settle bound es g).root e.a = (Egraph.settle bound es g).root e.b := by
  fun_induction Egraph.settle bound es g with
  | case1 => exact ⟨h, .refl _, List.forall_mem_nil _⟩
  | case2 g e rest bound heq ih =>
    have hroot : g.root e.a = g.root e.b := by simpa [areEqual] using heq
    obtain ⟨hmerging, hcoarser, hrest⟩ := ih hg hR (h.skip hroot) hbound
    refine ⟨hmerging, hcoarser, fun e' he' => ?_⟩
    rcases List.mem_cons.mp he' with rfl | he'
    · exact hcoarser.root hroot
    · exact hrest e' he'
  | case3 g e rest hne =>
    have hpos := numClasses_pos h.tables (h.waiting e List.mem_cons_self).1.a_lt
    exact absurd hbound (Nat.not_le_of_lt hpos)
  | case4 g e rest hne bound more g' heq ih =>
    have hroot : g.root e.a ≠ g.root e.b := by simpa [areEqual] using hne
    obtain ⟨hmerging, hcoarser, hends, hlt⟩ := h.merge hg hR hroot
    rw [heq] at hmerging hcoarser hends hlt
    obtain ⟨hdone, hcoarser', hrest⟩ :=
      ih (hcoarser.sameNodes.wf hg) (hcoarser.sameNodes.isCongruence hR) hmerging
        (Nat.le_of_lt_succ (Nat.lt_of_lt_of_le hlt hbound))
    refine ⟨hdone, hcoarser.trans hcoarser', fun e' he' => ?_⟩
    rcases List.mem_cons.mp he' with rfl | he'
    · exact hcoarser'.root hends
    · exact hrest e' (List.mem_append_right more he')

theorem numClasses_le (ht : g.Tables) : g.numClasses ≤ g.nodes.size := by
  have hcount := List.countP_le_length (p := fun n => g.root n == n)
    (l := List.range g.classes.root.size)
  rw [List.length_range] at hcount
  exact Nat.le_trans hcount ht.known_le

end Entail.Egraph
