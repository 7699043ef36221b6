import Entail.Proofs.Egraph.Ordering

/-!
# Explanations are sufficient

The pairs that are explained on the way to an explanation are closed: the path of each consists of
literals of the answer and of congruences whose arguments are pairs that are explained as well.
These are connected by earlier edges, so by induction over the edges every pair follows from the
answer by congruence closure. A conflict therefore holds under every interpretation of the nodes.
-/

namespace Entail.Egraph

/-- The pair in the order in which it is recorded. -/
def unordered (xy : Nat × Nat) : Nat × Nat := (min xy.1 xy.2, max xy.1 xy.2)

/-- Two nodes are the same, or a pair that is explained. -/
def Explained (pairs : Nat × Nat → Prop) (xy : Nat × Nat) : Prop :=
  xy.1 = xy.2 ∨ pairs (unordered xy)

/-- What the edges of a path rest on: literals of the answer, and pairs that are explained. -/
structure RestsOn (g : Egraph) (lits : List Literal) (pairs : Nat × Nat → Prop) (path : List Nat) :
    Prop where
  literal : ∀ {i : Nat} {e : Edge} {l}, i ∈ path → g.classes.edges[i]? = some e →
    e.reason = .literal l → l ∈ lits
  congruence : ∀ {i : Nat} {e : Edge} {p q}, i ∈ path → g.classes.edges[i]? = some e →
    e.reason = .congruence p q →
    ∀ xy ∈ (g.node p).args.zip (g.node q).args, Explained pairs xy

variable {g : Egraph} {lits done out : List Literal} {path is : List Nat} {pairs : Nat × Nat →
  Prop} {e : Edge}
  {l : Literal} {xy : Nat × Nat} {a b i p q bound : Nat}

theorem unordered_eq_iff {x y x' y' : Nat} (h : unordered (x', y') = unordered (x, y)) :
    x' = x ∧ y' = y ∨ x' = y ∧ y' = x := by
  obtain ⟨hmin, hmax⟩ := Prod.mk.inj h
  simp only at hmin hmax
  omega

/-! ## What is explained on the way -/

theorem pathReasons_literal (he : g.classes.edges[i]? = some e) (hr : e.reason = .literal l) :
    g.pathReasons (path ++ [i]) = (l :: (g.pathReasons path).1, (g.pathReasons path).2) := by
  unfold pathReasons
  simp only [List.foldl_append, List.foldl_cons, List.foldl_nil, he, hr]

theorem pathReasons_congruence (he : g.classes.edges[i]? = some e)
    (hr : e.reason = .congruence p q) :
    g.pathReasons (path ++ [i]) =
      ((g.pathReasons path).1, (g.node p).args.zip (g.node q).args ++ (g.pathReasons path).2) := by
  unfold pathReasons
  simp only [List.foldl_append, List.foldl_cons, List.foldl_nil, he, hr]

theorem pathReasons_none (he : g.classes.edges[i]? = none) :
    g.pathReasons (path ++ [i]) = g.pathReasons path := by
  unfold pathReasons
  simp only [List.foldl_append, List.foldl_cons, List.foldl_nil, he]

/-- A longer path has more reasons. -/
theorem pathReasons_mono (g : Egraph) (path : List Nat) (i : Nat) :
    (g.pathReasons path).1 ⊆ (g.pathReasons (path ++ [i])).1 ∧
      (g.pathReasons path).2 ⊆ (g.pathReasons (path ++ [i])).2 := by
  cases he : g.classes.edges[i]? with
  | none =>
    rw [pathReasons_none he]
    exact ⟨List.Subset.refl _, List.Subset.refl _⟩
  | some e =>
    cases hr : e.reason with
    | literal l =>
      rw [pathReasons_literal he hr]
      exact ⟨List.subset_cons_self _ _, List.Subset.refl _⟩
    | congruence p q =>
      rw [pathReasons_congruence he hr]
      exact ⟨List.Subset.refl _, List.subset_append_right _ _⟩

/-- The literals of a path are collected, and so are the arguments of its congruences. -/
theorem mem_pathReasons (hi : i ∈ path) (he : g.classes.edges[i]? = some e) :
    (∀ l, e.reason = .literal l → l ∈ (g.pathReasons path).1) ∧
      ∀ p q, e.reason = .congruence p q → (g.node p).args.zip (g.node q).args ⊆
        (g.pathReasons path).2 := by
  induction path using List.reverseRecOn with
  | nil => cases hi
  | append_singleton path j ih =>
    rcases List.mem_append.mp hi with hi | hi
    · obtain ⟨hlit, hcong⟩ := ih hi
      obtain ⟨hlits, hpairs⟩ := pathReasons_mono g path j
      exact ⟨fun l hl => hlits (hlit l hl), fun p q hr => List.Subset.trans (hcong p q hr) hpairs⟩
    · obtain rfl := List.mem_singleton.mp hi
      refine ⟨fun l hl => ?_, fun p q hr => ?_⟩
      · rw [pathReasons_literal he hl]
        exact List.mem_cons_self
      · rw [pathReasons_congruence he hr]
        exact List.subset_append_left _ _

/-- The pairs that were explained when an explanation ends. -/
theorem explainAll_closed {todo : List (Nat × Nat)} {seen : Std.HashSet (Nat × Nat)}
    (h : g.explainAll bound todo seen out = some lits) : ∃ pairs : Nat × Nat → Prop,
      (∀ xy, seen.contains xy = true → pairs xy) ∧ (∀ xy ∈ todo, Explained pairs xy) ∧ out ⊆ lits ∧
      ∀ xy, pairs xy → seen.contains xy = true ∨ ∃ x y path, unordered (x, y) = xy ∧
        path? g.classes x y = some path ∧ g.RestsOn lits pairs path := by
  fun_induction explainAll g bound todo seen out with
  | case1 bound seen out =>
    obtain rfl := Option.some.inj h
    exact ⟨fun xy => seen.contains xy = true, fun _ => id, List.forall_mem_nil _,
      List.Subset.refl _, fun _ => .inl⟩
  | case2 bound seen out x y rest pair hskip ih =>
    obtain ⟨pairs, hseen, htodo, hout, hclosed⟩ := ih h
    refine ⟨pairs, hseen, fun xy hxy => ?_, hout, hclosed⟩
    rcases List.mem_cons.mp hxy with rfl | hxy
    · rcases Bool.or_eq_true_iff.mp hskip with heq | hdone
      · exact .inl (of_decide_eq_true heq)
      · exact .inr (hseen _ hdone)
    · exact htodo xy hxy
  | case3 => cases h
  | case4 => cases h
  | case5 seen out x y rest pair hnew bound path hpath ls args hreasons ih =>
    obtain ⟨pairs, hseen, htodo, hout, hclosed⟩ := ih h
    have hself : pairs pair := hseen pair (by simp)
    refine ⟨pairs, fun xy hxy => hseen xy (by simp [hxy]), fun xy hxy => ?_,
      List.Subset.trans (List.subset_append_right ls out) hout, fun xy hxy => ?_⟩
    · rcases List.mem_cons.mp hxy with rfl | hxy
      · exact .inr hself
      · exact htodo xy (List.mem_append_right args hxy)
    · rcases hclosed xy hxy with hold | hpaths
      · rw [Std.HashSet.contains_insert, Bool.or_eq_true, beq_iff_eq] at hold
        rcases hold with rfl | hold
        · refine .inr ⟨x, y, path, rfl, hpath, fun hi he hl => ?_, fun hi he hr xy hxy => ?_⟩
          · have hmem := (mem_pathReasons hi he).1 _ hl
            rw [hreasons] at hmem
            exact hout (List.mem_append_left out hmem)
          · have hmem := (mem_pathReasons hi he).2 _ _ hr hxy
            rw [hreasons] at hmem
            exact htodo xy (List.mem_append_left rest hmem)
        · exact .inl hold
      · exact .inr hpaths

/-! ## What the answer implies -/

/-- When the sides of every edge of a walk are equal, so are its ends. -/
theorem Walk.cong (hf : g.Forest) (hwalk : Walk g.classes a is b)
    (hedges : ∀ i ∈ is, ∀ e, g.classes.edges[i]? = some e → g.Cong lits e.a e.b) :
    g.Cong lits a b := by
  induction is generalizing a with
  | nil =>
    obtain rfl : a = b := hwalk
    exact .refl a
  | cons i is ih =>
    obtain ⟨e, c, he, hends, hrest⟩ := hwalk.cases_cons hf
    have hedge := hedges i List.mem_cons_self e he
    have hstep : g.Cong lits a c := by
      rcases hends with ⟨rfl, rfl⟩ | ⟨rfl, rfl⟩
      · exact hedge
      · exact hedge.symm
    exact hstep.trans (ih hrest fun j hj => hedges j (List.mem_cons_of_mem i hj))

/-- Pairs with explanations that rest on each other follow from the literals: by induction on the
edges that connect them, since the arguments of a congruence are connected by earlier edges. -/
theorem Ordered.cong_of_explained (h : Ordered g done) (hf : g.Forest)
    (hpairs : ∀ xy, pairs xy → ∃ x y path, unordered (x, y) = xy ∧ path? g.classes x y = some path ∧
      g.RestsOn lits pairs path)
    (hxy : Explained pairs xy) (hconnected : Connected g.classes i xy.1 xy.2) :
    g.Cong lits xy.1 xy.2 := by
  induction i using Nat.strong_induction_on generalizing xy with
  | _ i ih =>
    obtain ⟨x, y⟩ := xy
    rcases hxy with hself | hpair
    · obtain rfl : x = y := hself
      exact .refl _
    obtain ⟨x', y', path, hsame, hpath, hrests⟩ := hpairs _ hpair
    obtain ⟨hwalk, hchain, -⟩ := walk_of_pathFrom hpath
    have hboth := unordered_eq_iff hsame
    have hconnected' : Connected g.classes i x' y' := by
      rcases hboth with ⟨rfl, rfl⟩ | ⟨rfl, rfl⟩
      · exact hconnected
      · exact hconnected.symm
    have hlt := h.lt_of_connected hf hwalk hchain hconnected'
    have hcong : g.Cong lits x' y' := by
      refine hwalk.cong hf fun j hj e he => ?_
      have hedge := h he
      cases hr : e.reason with
      | literal l => exact .fact (hrests.literal hj he hr) (hedge.grounded.literal hr).2
      | congruence p q =>
        obtain ⟨ha, hb⟩ := hedge.grounded.congruence hr
        obtain ⟨f, hp, hq, hargs⟩ := alike_iff.mp ((hf.valid he).1.congruent hr).2.2
        rw [ha, hb]
        refine .app hp hq hargs.length_eq fun uv huv => ?_
        exact ih j (hlt j hj) (hrests.congruence hj he hr uv huv) (hedge.earlier hr uv huv)
    rcases hboth with ⟨rfl, rfl⟩ | ⟨rfl, rfl⟩
    · exact hcong
    · exact hcong.symm

/-- An explanation implies the equality that it is for. -/
theorem Ordered.cong_of_explain? (h : Ordered g done) (hf : g.Forest)
    (hconnected : Connected g.classes i a b) (hlits : g.explain? a b = some lits) :
    g.Cong lits a b := by
  unfold explain? at hlits
  split at hlits
  · obtain ⟨all, hall, rfl⟩ := Option.map_eq_some_iff.mp hlits
    obtain ⟨pairs, -, htodo, -, hclosed⟩ := explainAll_closed hall
    have hcong : g.Cong all a b := by
      refine h.cong_of_explained hf (fun xy hxy => ?_) (htodo (a, b) List.mem_cons_self) hconnected
      exact (hclosed xy hxy).resolve_left (by simp)
    exact hcong.of_subset fun l hl => Literal.mem_normalize.mpr hl
  · cases hlits

/-! ## Validity -/

/-- A structure for the terms of the nodes, in which truth and falsity differ and are the values of
the boolean applications. -/
structure Interpretation (g : Egraph) (α : Type) where
  value : Nat → α
  apply : Term → List α → α
  value_app : ∀ {n f}, (g.node n).func = some f → value n = apply f ((g.node n).args.map value)
  constants : value trueNode ≠ value falseNode
  two_values : ∀ {v n : Nat}, g.atoms[v]? = some (.pred n) → value n = value trueNode ∨
    value n = value falseNode

/-- A literal holds when the equality or the boolean application that its variable stands for has
this value. -/
def Interpretation.Satisfies {α : Type} (I : g.Interpretation α) (l : Literal) : Prop :=
  match g.atoms[l.var]? with
  | some (.eq a b) => if l.isNegated then I.value a ≠ I.value b else I.value a = I.value b
  | some (.pred n) => I.value n = I.value (if l.isNegated then falseNode else trueNode)
  | none => False

namespace Interpretation

variable {α : Type} (I : g.Interpretation α)

theorem isCongruence : g.IsCongruence fun a b => I.value a = I.value b where
  equiv := ⟨fun _ => rfl, Eq.symm, Eq.trans⟩
  app {p q f} hp hq hargs := by
    rw [I.value_app hp, I.value_app hq]
    exact congrArg (I.apply f) (map_eq_map_iff.mpr hargs)

theorem satisfies_of_equation (h : g.equation? l = some (a, b)) :
    I.Satisfies l ↔ I.value a = I.value b := by
  revert h
  unfold equation? Satisfies
  cases g.atoms[l.var]? with
  | none => exact nofun
  | some atom =>
    cases atom with
    | eq c d =>
      cases l.isNegated with
      | false =>
        intro h
        cases h
        simp
      | true => simp
    | pred n =>
      intro h
      cases h
      exact Iff.rfl

theorem satisfies_of_disequation (h : g.disequation? l = some (a, b)) :
    I.Satisfies l ↔ I.value a ≠ I.value b := by
  revert h
  unfold disequation? Satisfies
  cases g.atoms[l.var]? with
  | none => exact nofun
  | some atom =>
    cases atom with
    | eq c d =>
      cases l.isNegated with
      | false => simp
      | true =>
        intro h
        cases h
        simp
    | pred n => exact nofun

/-- A literal that means something holds or its negation does. -/
theorem satisfies_or_neg (h : g.atoms[l.var]? ≠ none) : I.Satisfies l ∨ I.Satisfies l.neg := by
  unfold Satisfies
  rw [Literal.var_neg, Literal.isNegated_neg]
  split
  · cases l.isNegated <;> simp [em, em']
  next n heq =>
    have htwo := I.two_values heq
    cases l.isNegated
    · simpa using htwo
    · simpa using htwo.symm
  next hnone => exact absurd hnone h

/-- What literals imply holds wherever they hold. -/
theorem value_eq_of_cong (h : g.Cong lits a b) (hlits : ∀ l ∈ lits, I.Satisfies l) :
    I.value a = I.value b :=
  I.isCongruence.of_cong (fun hl he => (I.satisfies_of_equation he).mp (hlits _ hl)) h

end Interpretation

theorem atoms_of_equation (h : g.equation? l = some (a, b)) : g.atoms[l.var]? ≠ none := by
  intro hnone
  rw [equation?, hnone] at h
  cases h

theorem atoms_of_disequation (h : g.disequation? l = some (a, b)) : g.atoms[l.var]? ≠ none := by
  intro hnone
  rw [disequation?, hnone] at h
  cases h

/-- The literals on record were processed and mean something. -/
theorem Held.cites {Ks : List Classes} (h : Held (fun g lits => Ordered g lits) g done Ks) :
    g.classes.Cites fun l => l ∈ done ∧ g.atoms[l.var]? ≠ none where
  edges e he l hl := by
    obtain ⟨i, hi⟩ := Array.mem_iff_getElem?.mp he
    obtain ⟨hmem, heq⟩ := (h.holds hi).grounded.literal hl
    exact ⟨hmem, atoms_of_equation heq⟩
  diseqs d hd l hl := by
    rcases h.follows.takes.differ.mp hd with rfl | ⟨l', hmem, a, b, heq, rfl⟩
    · cases hl
    · obtain rfl := Option.some.inj hl
      exact ⟨hmem, atoms_of_disequation heq⟩
  pending e he := by
    rw [h.follows.pending] at he
    cases he

/-- The equality of two nodes follows from its explanation. -/
theorem Held.cong_of_explain? {Ks : List Classes}
    (h : Held (fun g lits => Ordered g lits) g done Ks)
    (hroot : g.root a = g.root b) (hlits : g.explain? a b = some lits) : g.Cong lits a b := by
  have hf := h.follows.merging.forest
  have hordered : Ordered g done := h.holds
  refine hordered.cong_of_explain? hf (i := g.classes.edges.size) ?_ hlits
  rcases h.follows.merging.tables.known_or_eq hroot with ⟨ha, hb⟩ | rfl
  · exact hf.connected ha hb hroot
  · exact .refl _ _ _

/-- A clause of a conflict holds under every interpretation: if the explanation of the equality
holds, the sides are equal, so they are no constants, and the literal that makes them differ
does not hold. -/
theorem Interpretation.satisfies_conflict {α : Type} (I : g.Interpretation α) {Ks : List Classes}
    {clause : List Literal}
    (h : Held (fun g lits => Ordered g lits) g done Ks) (hclause : g.conflict? = some clause)
    (hexplained : ∀ {a b lits}, g.root a = g.root b → g.explain? a b = some lits →
      g.Cong lits a b) :
    ∃ l ∈ clause, I.Satisfies l := by
  have hmeaning := cites_conflict? h.cites hclause
  by_contra hnone
  have hfalse (l : Literal) (hl : l ∈ clause) : I.Satisfies l.neg := by
    obtain ⟨-, hatom⟩ := hmeaning l hl
    rw [Literal.var_neg] at hatom
    exact (I.satisfies_or_neg hatom).resolve_left fun hsat => hnone ⟨l, hl, hsat⟩
  unfold conflict? at hclause
  split at hclause
  · cases hclause
  next a b l hfound =>
    obtain ⟨lits, hlits, rfl⟩ := Option.map_eq_some_iff.mp hclause
    have hroot : g.root a = g.root b := by simpa [areEqual] using Array.find?_some hfound
    have hequal : I.value a = I.value b := by
      refine I.value_eq_of_cong (hexplained hroot hlits) fun l' hl' => ?_
      have hneg := hfalse l'.neg (List.mem_append_left _ (List.mem_map_of_mem hl'))
      rwa [Literal.neg_neg] at hneg
    rcases h.follows.takes.differ.mp (Array.mem_of_find?_eq_some hfound) with heq | ⟨l', -, c, d,
      hdiffer, heq⟩
    · cases heq
      exact I.constants hequal
    · cases heq
      have hneg := hfalse l'.neg (List.mem_append_right _ (by simp))
      rw [Literal.neg_neg, I.satisfies_of_disequation hdiffer] at hneg
      exact hneg hequal

/-! ## What is reached -/

/-- In every e-graph that is reached, two nodes of one class have an explanation: literals that were
processed, from which their equality follows by congruence closure. A conflict is found exactly when
nodes that differ are in one class, its literals are negations of literals that were processed, and
it holds under every interpretation. -/
theorem reached_explains (h : Reached g done) :
    (∀ a < g.nodes.size, ∀ b < g.nodes.size, g.root a = g.root b →
      ∃ lits, g.explain? a b = some lits ∧ (∀ l ∈ lits, l ∈ done) ∧ g.Cong lits a b) ∧
    (g.conflict?.isSome = true ↔ ¬ g.Consistent) ∧
    ∀ clause, g.conflict? = some clause → (∀ l ∈ clause, l.neg ∈ done) ∧
      ∀ (α : Type) (I : g.Interpretation α), ∃ l ∈ clause, I.Satisfies l := by
  obtain ⟨Ks, hheld⟩ := h.held invariant_ordered
  have hwf := hheld.follows.wf
  have ht := hheld.follows.merging.tables
  have hf := hheld.follows.merging.forest
  refine ⟨fun a _ b _ hroot => ?_, ?_, fun clause hclause => ⟨fun l hl => ?_, fun α I => ?_⟩⟩
  · obtain ⟨lits, hlits⟩ := Option.isSome_iff_exists.mp (explain?_isSome hwf ht hf hroot)
    exact ⟨lits, hlits, fun l hl => (cites_explain? hheld.cites hlits l hl).1,
      hheld.cong_of_explain? hroot hlits⟩
  · rw [conflict?_isSome hwf ht hf]
    simp only [Consistent, not_forall, not_not, exists_prop]
  · exact (cites_conflict? hheld.cites hclause l hl).1
  · exact I.satisfies_conflict hheld hclause hheld.cong_of_explain?

/-- The applications of equal constants come into one class, and the literal that makes the
constants equal explains it. -/
theorem reached_explains_twoApplications :
    Reached (twoApplications.startSearch.propagate twoLiterals).2 twoLiterals.toList ∧
    ∃ lits, (twoApplications.startSearch.propagate twoLiterals).2.explain? 4 5 = some lits ∧
      (∀ l ∈ lits, l ∈ twoLiterals.toList) ∧
      (twoApplications.startSearch.propagate twoLiterals).2.Cong lits 4 5 := by
  have hstart := sameNodes_startSearch twoApplications
  have hsame := hstart.trans (sameNodes_propagate twoApplications.startSearch twoLiterals)
  have hknown := (known_startSearch twoApplications).trans
    (congrArg Array.size hstart.nodes_eq.symm)
  have hnone : [] <+: twoLiterals.toList := List.nil_prefix
  have hreached : Reached (twoApplications.startSearch.propagate twoLiterals).2
      twoLiterals.toList :=
    .step (.start wf_twoApplications) (.propagate hnone (.inr hknown))
  obtain ⟨Ks, hheld⟩ := hreached.held invariant_ordered
  have hconstants : (twoApplications.startSearch.propagate twoLiterals).2.Cong twoLiterals.toList 2
      3 := by
    refine .fact (l := .pos 1) List.mem_cons_self ((hsame.equation?_eq _).trans ?_)
    rw [equation?, atoms_twoApplications]
    rfl
  have happlications : (twoApplications.startSearch.propagate twoLiterals).2.Cong
      twoLiterals.toList 4 5 := by
    refine .app (f := ⟨6⟩) ?_ ?_ ?_ fun x hx => ?_
    · rw [hsame.node_eq]
      rfl
    · rw [hsame.node_eq]
      rfl
    · rw [hsame.node_eq, hsame.node_eq]
      rfl
    · rw [hsame.node_eq, hsame.node_eq] at hx
      obtain rfl : x = (2, 3) := List.mem_singleton.mp hx
      exact hconstants
  have hall : (twoApplications.startSearch.propagate twoLiterals).2.known =
      (twoApplications.startSearch.propagate twoLiterals).2.nodes.size := by
    rw [known_propagate, hknown, Nat.sub_self, Nat.add_zero, (sameNodes_propagate _ _).nodes_eq]
  have hroot := (hheld.follows.merging.isCongruence hall).of_cong hheld.follows.takes.equal
    happlications
  have hsize : (twoApplications.startSearch.propagate twoLiterals).2.nodes.size = 6 :=
    congrArg Array.size hsame.nodes_eq
  exact ⟨hreached, (reached_explains hreached).1 4 (hsize.symm ▸ by decide) 5
    (hsize.symm ▸ by decide) hroot⟩

end Entail.Egraph
