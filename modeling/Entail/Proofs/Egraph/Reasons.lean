import Entail.Egraph.Explain
import Entail.Proofs.Egraph.Classes
import Entail.Proofs.Search.Vocabulary
import Mathlib.Data.Finset.Prod

/-!
# The literals that reasons cite

An equality of classes has literals for its reasons, and so has a disequality. They are literals
that were true when they were recorded, so the reasons and the conflicts that are explained by them
cite literals of the trail only, and taking the log back brings the reasons back that there were.
-/

/-!
## Finding explanations

The nodes of a class are connected by edges, so a path between two of them is found, and the pairs
of arguments that its congruences rest on are in one class again. There are not more pairs of nodes
than the bound on explanations. So two nodes of one class always have an explanation, and a conflict
is reported whenever two nodes that differ are in one class.
-/

namespace Entail.Egraph

variable {g : Egraph} {k : Classes} {a b n target bound : Nat} {is : List Nat} {via : Option Nat}

/-! ## Paths -/

/-- A walk without repetitions is found, or another path is. -/
theorem pathFrom_isSome (h : Walk k n is target) (hnodup : is.Nodup)
    (hvia : ∀ i, via = some i → i ∉ is)
    (hlen : is.length < bound) : (pathFrom k target bound via n).isSome = true := by
  induction is generalizing n via bound with
  | nil =>
    obtain rfl : n = target := h
    cases bound with
    | zero => simp at hlen
    | succ bound => simp [pathFrom]
  | cons i is ih =>
    obtain ⟨hi, e, he, hwalk⟩ := h
    obtain ⟨hfresh, hrest⟩ := List.nodup_cons.mp hnodup
    cases bound with
    | zero => simp at hlen
    | succ bound =>
      have hnext : (pathFrom k target bound (some i) (if e.a = n then e.b else e.a)).isSome =
          true := by
        refine ih hwalk hrest (fun j hj => ?_) (Nat.lt_of_succ_lt_succ hlen)
        exact Option.some.inj hj ▸ hfresh
      have hother : via ≠ some i := fun heq => hvia i heq List.mem_cons_self
      unfold pathFrom
      split
      · rfl
      · rw [List.findSome?_isSome_iff]
        refine ⟨i, Array.mem_toList_iff.mpr hi, ?_⟩
        simp only [if_neg hother, he, Option.isSome_map]
        exact hnext

theorem Walk.lt_size (h : Walk k a is b) : ∀ i ∈ is, i < k.edges.size := by
  induction is generalizing a with
  | nil => nofun
  | cons i is ih =>
    obtain ⟨-, e, he, hwalk⟩ := h
    intro j hj
    rcases List.mem_cons.mp hj with rfl | hj
    · exact (Array.getElem?_eq_some_iff.mp he).1
    · exact ih hwalk j hj

/-- Two nodes of one class have a path. -/
theorem Forest.path?_isSome (hf : g.Forest) (ha : a < g.known) (hb : b < g.known)
    (hab : g.root a = g.root b) :
    (path? g.classes a b).isSome = true := by
  obtain ⟨is, hwalk, hnodup⟩ := hf.walk ha hb hab
  have hlen : is.length ≤ g.classes.edges.size := length_le_of_nodup hnodup hwalk.lt_size
  exact pathFrom_isSome hwalk hnodup (fun i hi => by cases hi) (Nat.lt_succ_of_le hlen)

/-! ## Explanations -/

/-- Two nodes of one class. -/
def Together (g : Egraph) (xy : Nat × Nat) : Prop :=
  xy.1 < g.known ∧ xy.2 < g.known ∧ g.root xy.1 = g.root xy.2

/-- The pairs of arguments that a path rests on are in one class. -/
theorem together_pathReasons (hg : g.Wf) (ht : g.Tables) (hf : g.Forest) (path : List Nat) :
    ∀ xy ∈ (g.pathReasons path).2, g.Together xy := by
  have harg {n a : Nat} (hn : n < g.known) (ha : a ∈ (g.node n).args) : a < g.known :=
    Nat.lt_trans (hg.args_lt ha (Nat.lt_of_lt_of_le hn ht.known_le)) hn
  unfold pathReasons
  refine List.foldlRecOn path _ (motive := fun acc : List Literal × List (Nat × Nat) =>
    ∀ xy ∈ acc.2, g.Together xy)
    (by simp) ?_
  rintro ⟨ls, pairs⟩ hpairs i -
  dsimp only
  split
  · exact hpairs
  next e he =>
    split
    · exact hpairs
    next p q hreason =>
      obtain ⟨hp, hq, halike⟩ := (hf.valid he).1.congruent hreason
      obtain ⟨f, -, -, hargs⟩ := alike_iff.mp halike
      intro xy hxy
      rcases List.mem_append.mp hxy with hnew | hold
      · obtain ⟨hx, hy⟩ := List.of_mem_zip hnew
        exact ⟨harg hp hx, harg hq hy, (List.forall₂_iff_zip.mp hargs).2 hnew⟩
      · exact hpairs xy hold

/-- Pairs of nodes that are in one class are explained, as long as the bound leaves room for all
other pairs. -/
theorem explainAll_isSome (hg : g.Wf) (ht : g.Tables) (hf : g.Forest) {todo : List (Nat × Nat)}
    {done : Std.HashSet (Nat × Nat)} {out : List Literal} (htodo : ∀ xy ∈ todo, g.Together xy)
    (seen : Finset (Nat × Nat)) (hseen : ∀ xy, done.contains xy = true ↔ xy ∈ seen)
    (hsub : seen ⊆ Finset.range g.known ×ˢ Finset.range g.known)
    (hbound : bound + seen.card = g.nodes.size * g.nodes.size + 1) :
    (g.explainAll bound todo done out).isSome = true := by
  have hcard {s : Finset (Nat × Nat)} (hs : s ⊆ Finset.range g.known ×ˢ Finset.range g.known) :
      s.card ≤ g.nodes.size * g.nodes.size := by
    have hle := Finset.card_le_card hs
    rw [Finset.card_product, Finset.card_range] at hle
    exact Nat.le_trans hle (Nat.mul_le_mul ht.known_le ht.known_le)
  fun_induction explainAll g bound todo done out generalizing seen with
  | case1 => rfl
  | case2 bound done out x y rest pair hskip ih =>
    exact ih (fun xy hxy => htodo xy (List.mem_cons_of_mem _ hxy)) seen hseen hsub hbound
  | case3 done out x y rest pair hnew =>
    have hle := hcard hsub
    omega
  | case4 done out x y rest pair hnew bound hnone =>
    obtain ⟨hx, hy, hxy⟩ := htodo (x, y) List.mem_cons_self
    have hsome := hf.path?_isSome hx hy hxy
    rw [hnone] at hsome
    cases hsome
  | case5 done out x y rest pair hnew bound path hpath ls pairs hreasons ih =>
    obtain ⟨hx, hy, -⟩ := htodo (x, y) List.mem_cons_self
    have hfresh : pair ∉ seen := fun hmem => by
      have hdone := (hseen pair).mpr hmem
      simp [hdone] at hnew
    have hpair : pair ∈ Finset.range g.known ×ˢ Finset.range g.known := by
      refine Finset.mem_product.mpr ⟨Finset.mem_range.mpr ?_, Finset.mem_range.mpr ?_⟩
      · exact Nat.lt_of_le_of_lt (Nat.min_le_left x y) hx
      · exact Nat.max_lt.mpr ⟨hx, hy⟩
    refine ih (fun xy hxy => ?_) (insert pair seen) (fun xy => ?_) ?_ ?_
    · rcases List.mem_append.mp hxy with hnew | hold
      · have hpairs := together_pathReasons hg ht hf path
        rw [hreasons] at hpairs
        exact hpairs xy hnew
      · exact htodo xy (List.mem_cons_of_mem _ hold)
    · rw [Std.HashSet.contains_insert, Finset.mem_insert, Bool.or_eq_true, hseen,
        beq_iff_eq, eq_comm]
    · exact Finset.insert_subset hpair hsub
    · rw [Finset.card_insert_of_notMem hfresh]
      omega

/-- Two nodes of one class have an explanation. -/
theorem explain?_isSome (hg : g.Wf) (ht : g.Tables) (hf : g.Forest) (hab : g.root a = g.root b) :
    (g.explain? a b).isSome = true := by
  rw [explain?, if_pos (by simpa [areEqual] using hab), Option.isSome_map]
  rcases ht.known_or_eq hab with ⟨ha, hb⟩ | rfl
  · have htodo : ∀ xy ∈ [(a, b)], g.Together xy := fun xy hxy => by
      obtain rfl := List.mem_singleton.mp hxy
      exact ⟨ha, hb, hab⟩
    exact explainAll_isSome hg ht hf htodo ∅ (by simp) (Finset.empty_subset _) (by simp)
  · simp [explainAll]

/-- A conflict is reported exactly when two nodes that differ are in one class. -/
theorem conflict?_isSome (hg : g.Wf) (ht : g.Tables) (hf : g.Forest) :
    g.conflict?.isSome = true ↔ ∃ d ∈ g.classes.diseqs, g.root d.1 = g.root d.2.1 := by
  unfold conflict?
  split
  next hnone =>
    rw [Array.find?_eq_none] at hnone
    refine ⟨nofun, fun ⟨d, hd, heq⟩ => ?_⟩
    have hne := hnone d hd
    simp [areEqual, heq] at hne
  next a b l hfound =>
    have heq : g.root a = g.root b := by simpa [areEqual] using Array.find?_some hfound
    rw [Option.isSome_map]
    exact ⟨fun _ => ⟨_, Array.mem_of_find?_eq_some hfound, heq⟩, fun _ =>
      explain?_isSome hg ht hf heq⟩

end Entail.Egraph

namespace Entail.Egraph

variable {g g' g'' : Egraph} {k k' k'' : Classes} {p q : Literal → Prop} {vs vs' : Nat → Prop}
  {e : Edge} {es : List Edge}
  {m n : Nat}

/-! ## Reasons on record -/

/-- The edge's literal, if it has one for its reason, is one of `p`. -/
def Edge.Cites (p : Literal → Prop) (e : Edge) : Prop := ∀ l, e.reason = .literal l → p l

/-- The literals that are recorded as reasons are among `p`. -/
structure Classes.Cites (p : Literal → Prop) (k : Classes) : Prop where
  edges : ∀ e ∈ k.edges, e.Cites p
  diseqs : ∀ d ∈ k.diseqs, ∀ l, d.2.2 = some l → p l
  pending : ∀ e ∈ k.pending, e.Cites p

theorem Edge.cites_congruence (a b c d : Nat) : Edge.Cites p ⟨a, b, .congruence c d⟩ :=
  fun _ h => by cases h

namespace Classes.Cites

theorem mono (h : k.Cites p) (hpq : ∀ l, p l → q l) : k.Cites q where
  edges e he l hl := hpq _ (h.edges e he l hl)
  diseqs d hd l hl := hpq _ (h.diseqs d hd l hl)
  pending e he l hl := hpq _ (h.pending e he l hl)

/-- New classes have no reasons. -/
theorem empty (p : Literal → Prop) : ({} : Classes).Cites p where
  edges := nofun
  diseqs d hd l hl := by
    obtain rfl := Array.mem_singleton.mp hd
    cases hl
  pending := nofun

/-- Other fields of the classes do not matter. -/
theorem of_same (h : k.Cites p) (hedges : k'.edges = k.edges) (hdiseqs : k'.diseqs = k.diseqs)
    (hpending : k'.pending = k.pending) : k'.Cites p where
  edges := hedges ▸ h.edges
  diseqs := hdiseqs ▸ h.diseqs
  pending := hpending ▸ h.pending

theorem mem_of_mem_pop {α : Type} {as : Array α} {a : α} (h : a ∈ as.pop) : a ∈ as := by
  rw [← Array.mem_toList_iff, Array.toList_pop] at h
  exact Array.mem_toList_iff.mp (List.mem_of_mem_dropLast h)

theorem revert (h : k.Cites p) (u : Undo) : (revert k u).Cites p := by
  cases u with
  | merge small big numParents => exact ⟨h.edges, h.diseqs, h.pending⟩
  | edge =>
    simp only [Egraph.revert]
    split
    · exact h
    · exact ⟨fun e he => h.edges e (mem_of_mem_pop he), h.diseqs, h.pending⟩
  | diseq => exact ⟨h.edges, fun d hd => h.diseqs d (mem_of_mem_pop hd), h.pending⟩
  | sigInsert key => exact ⟨h.edges, h.diseqs, h.pending⟩
  | sigErase key n => exact ⟨h.edges, h.diseqs, h.pending⟩

theorem undoLast (h : k.Cites p) (count : Nat) : (undoLast count k).Cites p := by
  induction count generalizing k with
  | zero => exact h
  | succ count ih =>
    unfold Egraph.undoLast
    split
    · exact h
    next u _ =>
      have hpopped : Classes.Cites p { k with undo := k.undo.pop } := ⟨h.edges, h.diseqs, h.pending⟩
      exact ih (hpopped.revert u)

end Classes.Cites

/-! ## Going back to earlier reasons -/

/-- Classes with the same reasons on record and the same changes to take back. -/
structure Classes.Agrees (k k' : Classes) : Prop where
  edges : k.edges = k'.edges
  diseqs : k.diseqs = k'.diseqs
  undo : k.undo = k'.undo

namespace Classes.Agrees

theorem refl (k : Classes) : k.Agrees k := ⟨rfl, rfl, rfl⟩

theorem trans (h : k.Agrees k') (h' : k'.Agrees k'') : k.Agrees k'' :=
  ⟨h.edges.trans h'.edges, h.diseqs.trans h'.diseqs, h.undo.trans h'.undo⟩

theorem revert (h : k.Agrees k') (u : Undo) : (revert k u).Agrees (revert k' u) := by
  cases u with
  | merge small big numParents => exact ⟨h.edges, h.diseqs, h.undo⟩
  | edge =>
    unfold Egraph.revert
    simp only [h.edges]
    split
    · exact h
    · exact ⟨rfl, h.diseqs, h.undo⟩
  | diseq => exact ⟨h.edges, congrArg Array.pop h.diseqs, h.undo⟩
  | sigInsert key => exact ⟨h.edges, h.diseqs, h.undo⟩
  | sigErase key n => exact ⟨h.edges, h.diseqs, h.undo⟩

theorem undoLast (h : k.Agrees k') (n : Nat) : (undoLast n k).Agrees (undoLast n k') := by
  induction n generalizing k k' with
  | zero => exact h
  | succ n ih =>
    unfold Egraph.undoLast
    simp only [h.undo]
    split
    · exact h
    next u _ =>
      have hpop : Agrees { k with undo := k'.undo.pop } { k' with undo := k'.undo.pop } :=
        ⟨h.edges, h.diseqs, rfl⟩
      exact ih (hpop.revert u)

end Classes.Agrees

/-- Taking back what was logged since brings the reasons of `k` back. Unlike `Undoes`, this asks
nothing of the classes. -/
def Recalls (k k' : Classes) : Prop :=
  ∃ n, k'.undo.size = k.undo.size + n ∧ (undoLast n k').Agrees k

theorem Recalls.of_agrees (h : k'.Agrees k) : Recalls k k' := ⟨0, by rw [h.undo, Nat.add_zero], h⟩

theorem Recalls.refl (k : Classes) : Recalls k k := .of_agrees (.refl k)

theorem Recalls.trans (h : Recalls k k') (h' : Recalls k' k'') : Recalls k k'' := by
  obtain ⟨m, hm, hagrees⟩ := h
  obtain ⟨n, hn, hagrees'⟩ := h'
  refine ⟨n + m, by omega, ?_⟩
  rw [undoLast_add]
  exact (hagrees'.undoLast m).trans hagrees

/-- A change that was logged is taken back by reverting it. -/
theorem Recalls.of_revert {u : Undo} (hundo : k'.undo = k.undo.push u)
    (h : (revert { k' with undo := k.undo } u).Agrees k) : Recalls k k' := by
  refine ⟨1, by rw [hundo, Array.size_push], ?_⟩
  have hback : k'.undo.back? = some u := by rw [hundo, Array.back?_push]
  simp only [undoLast, hback]
  rwa [hundo, Array.pop_push]

/-- Going back to the length of the log at an earlier moment brings its reasons back. -/
theorem Recalls.undoLast (h : Recalls k k') :
    (undoLast (k'.undo.size - k.undo.size) k').Agrees k := by
  obtain ⟨n, hn, hagrees⟩ := h
  rwa [hn, Nat.add_sub_cancel_left]

/-! ## Gaining reasons -/

/-- `g'` has come from `g` by changes that are logged, after which all reasons cite `p`, and `n`
literals were processed on the way. -/
structure Gains (p : Literal → Prop) (n : Nat) (g g' : Egraph) : Prop where
  cites : g'.classes.Cites p
  recalls : Recalls g.classes g'.classes
  levels : g'.classes.levels = g.classes.levels
  processed : g'.classes.processed = g.classes.processed + n

namespace Gains

theorem refl (h : g.classes.Cites p) : Gains p 0 g g := ⟨h, .refl _, rfl, rfl⟩

theorem trans (h : Gains p m g g') (h' : Gains p n g' g'') : Gains p (m + n) g g'' :=
  ⟨h'.cites, h.recalls.trans h'.recalls,
    h'.levels.trans h.levels, by rw [h'.processed, h.processed, Nat.add_assoc]⟩

theorem andThen (h : Gains p n g g') (h' : Gains p 0 g' g'') : Gains p n g g'' := h.trans h'

/-- Other fields of the classes do not matter. -/
theorem of_same (h : g.classes.Cites p) (hagrees : g'.classes.Agrees g.classes)
    (hpending : g'.classes.pending = g.classes.pending)
    (hlevels : g'.classes.levels = g.classes.levels)
    (hprocessed : g'.classes.processed = g.classes.processed) : Gains p 0 g g' :=
  ⟨h.of_same hagrees.edges hagrees.diseqs hpending, .of_agrees hagrees, hlevels, hprocessed⟩

end Gains

/-! ## Merging -/

theorem gains_addEdge (h : g.classes.Cites p) (he : e.Cites p) : Gains p 0 g (g.addEdge e) where
  cites := by
    refine ⟨fun e' he' => ?_, h.diseqs, h.pending⟩
    rcases Array.mem_push.mp (show e' ∈ g.classes.edges.push e from he') with he' | rfl
    · exact h.edges e' he'
    · exact he
  recalls := by
    refine .of_revert (u := .edge) rfl ?_
    simp only [Egraph.revert, addEdge, log, modifyClasses, Array.back?_push]
    exact ⟨Array.pop_push .., rfl, rfl⟩
  levels := rfl
  processed := rfl

theorem gains_eraseSig (h : g.classes.Cites p) (x : Nat) : Gains p 0 g (g.eraseSig x) := by
  unfold eraseSig
  split
  · exact .refl h
  next key _ =>
    split
    · exact ⟨h.of_same rfl rfl rfl, .of_revert (u := .sigErase key x) rfl ⟨rfl, rfl, rfl⟩, rfl, rfl⟩
    · exact .refl h

theorem gains_eraseSigs (h : g.classes.Cites p) (xs : List Nat) :
    Gains p 0 g (xs.foldl eraseSig g) := by
  induction xs generalizing g with
  | nil => exact .refl h
  | cons x xs ih =>
    have hone := gains_eraseSig h x
    exact hone.trans (ih hone.cites)

theorem gains_enterSig (h : g.classes.Cites p) (x : Nat) :
    Gains p 0 g (g.enterSig x).2 ∧ ∀ e ∈ (g.enterSig x).1, e.Cites p := by
  unfold enterSig
  split
  · exact ⟨.refl h, fun e he => by cases he⟩
  next key _ =>
    split
    · refine ⟨.refl h, fun e he => ?_⟩
      split at he
      · cases he
      · cases he
        exact Edge.cites_congruence _ _ _ _
    · refine ⟨⟨h.of_same rfl rfl rfl, .of_revert (u := .sigInsert key) rfl ⟨rfl, rfl, rfl⟩, rfl,
        rfl⟩, fun e he => ?_⟩
      cases he

theorem gains_enterSigs (h : g.classes.Cites p) (xs : List Nat) (found : List Edge)
    (hfound : ∀ e ∈ found, e.Cites p) :
    Gains p 0 g (enterSigs xs found g).2 ∧ ∀ e ∈ (enterSigs xs found g).1, e.Cites p := by
  induction xs generalizing found g with
  | nil => exact ⟨.refl h, hfound⟩
  | cons x xs ih =>
    obtain ⟨hentered, hnew⟩ := gains_enterSig h x
    unfold enterSigs
    split
    next e g' heq =>
      rw [heq] at hentered hnew
      obtain ⟨hrest, hall⟩ := ih hentered.cites (e :: found) fun e' he' => by
        rcases List.mem_cons.mp he' with rfl | he'
        · exact hnew _ rfl
        · exact hfound e' he'
      exact ⟨hentered.trans hrest, hall⟩
    next g' heq =>
      rw [heq] at hentered
      obtain ⟨hrest, hall⟩ := ih hentered.cites _ hfound
      exact ⟨hentered.trans hrest, hall⟩

theorem agrees_joinRings (k : Classes) (members : List Nat) (small big : Nat) (moved : Array Nat) :
    (joinRings k members small big moved).Agrees k := ⟨rfl, rfl, rfl⟩

theorem agrees_splitRings (k : Classes) (small big numParents : Nat) :
    (splitRings k small big numParents).Agrees k :=
  ⟨rfl, rfl, rfl⟩

theorem gains_joinRings (h : g.classes.Cites p) (members : List Nat) (small big numParents : Nat)
    (moved : Array Nat) :
    Gains p 0 g ((g.modifyClasses fun k => joinRings k members small big moved).log
      (.merge small big numParents)) where
  cites := ⟨h.edges, h.diseqs, h.pending⟩
  recalls := by
    have hjoined := agrees_joinRings g.classes members small big moved
    refine .of_revert (u := .merge small big numParents) rfl ((agrees_splitRings _ _ _ _).trans ?_)
    exact ⟨hjoined.edges, hjoined.diseqs, rfl⟩
  levels := rfl
  processed := rfl

/-- Merging records one more equality; those that follow are by congruence. -/
theorem gains_merge (h : g.classes.Cites p) (he : e.Cites p) :
    Gains p 0 g (g.merge e).2 ∧ ∀ e' ∈ (g.merge e).1, e'.Cites p := by
  unfold merge
  simp only
  split
  · exact ⟨.refl h, fun e' he' => absurd he' List.not_mem_nil⟩
  generalize (if (g.addEdge e).classes.size.getD (g.root e.a) 0 ≤
    (g.addEdge e).classes.size.getD (g.root e.b) 0 then (g.root e.a, g.root e.b)
      else (g.root e.b, g.root e.a)) = ends
  obtain ⟨small, big⟩ := ends
  have hadded := gains_addEdge h he
  have herased := gains_eraseSigs hadded.cites ((g.addEdge e).classes.parents.getD small #[]).toList
  have hjoined := gains_joinRings herased.cites
  obtain ⟨hentered, hnew⟩ := gains_enterSigs (hjoined _ small big _ _).cites
    ((g.addEdge e).classes.parents.getD small #[]).toList [] fun e he => absurd he List.not_mem_nil
  exact ⟨((hadded.andThen herased).andThen (hjoined ..)).andThen hentered, hnew⟩

theorem gains_settle {bound : Nat} (h : g.classes.Cites p) (hes : ∀ e ∈ es, e.Cites p) :
    Gains p 0 g (settle bound es g) := by
  fun_induction settle bound es g with
  | case1 => exact .refl h
  | case2 g e rest bound heq ih => exact ih h fun e he => hes e (List.mem_cons_of_mem _ he)
  | case3 => exact .refl h
  | case4 g e rest hne bound more g' heq ih =>
    obtain ⟨hmerged, hmore⟩ := gains_merge h (hes e List.mem_cons_self)
    rw [heq] at hmerged hmore
    refine hmerged.andThen (ih hmerged.cites fun e' he' => ?_)
    rcases List.mem_append.mp he' with hnew | hold
    · exact hmore e' hnew
    · exact hes e' (List.mem_cons_of_mem _ hold)

theorem gains_settlePending (h : g.classes.Cites p) : Gains p 0 g g.settlePending := by
  have hcleared : Gains p 0 g (g.modifyClasses fun k => { k with pending := [] }) :=
    ⟨⟨h.edges, h.diseqs, fun e (he : e ∈ []) => absurd he List.not_mem_nil⟩,
      .of_agrees ⟨rfl, rfl, rfl⟩, rfl, rfl⟩
  exact hcleared.trans (gains_settle hcleared.cites h.pending)

/-! ## New nodes -/

theorem gains_addToClasses (h : g.classes.Cites p) (x : Nat) : Gains p 0 g (g.addToClasses x) := by
  have hlist (args : List Nat) : ∀ {g : Egraph}, g.classes.Cites p →
      Gains p 0 g (args.foldl (fun g a => g.modifyClasses fun k =>
        { k with parents := k.parents.modify (k.root.getD a a) (·.push x) }) g) := by
    induction args with
    | nil => exact .refl
    | cons a args ih =>
      intro g h
      have hone : Gains p 0 g (g.modifyClasses fun k =>
          { k with parents := k.parents.modify (k.root.getD a a) (·.push x) }) := .of_same h
            ⟨rfl, rfl, rfl⟩ rfl rfl rfl
      exact hone.trans (ih hone.cites)
  unfold addToClasses
  extract_lets g₁ g₂
  have h₁ : Gains p 0 g g₁ := .of_same h ⟨rfl, rfl, rfl⟩ rfl rfl rfl
  have h₂ : Gains p 0 g g₂ := h₁.trans (hlist _ h₁.cites)
  split
  · exact h₂
  next key _ =>
    refine h₂.andThen ?_
    unfold modifyClasses
    dsimp only
    split
    next other _ =>
      refine ⟨⟨h₂.cites.edges, h₂.cites.diseqs, fun e he => ?_⟩, .of_agrees ⟨rfl, rfl, rfl⟩, rfl,
        rfl⟩
      rcases List.mem_cons.mp he with rfl | he
      · exact Edge.cites_congruence _ _ _ _
      · exact h₂.cites.pending e he
    next => exact .of_same h₂.cites ⟨rfl, rfl, rfl⟩ rfl rfl rfl

theorem gains_sync (h : g.classes.Cites p) : Gains p 0 g g.sync := by
  refine List.foldlRecOn (motive := Gains p 0 g) _ _ (.refl h) fun g' hg' x _ => ?_
  exact hg'.trans (gains_addToClasses hg'.cites x)

theorem gains_startSearch (g : Egraph) (p : Literal → Prop) :
    Gains p 0 g.clearClasses g.startSearch :=
  gains_sync (.empty p)

/-! ## Literals that have become true -/

theorem gains_assertLit (h : g.classes.Cites p) {l : Literal} (hl : p l) :
    Gains p 0 g (g.assertLit l).2 := by
  have hone (a b : Nat) : ∀ e ∈ [Edge.mk a b (.literal l)], e.Cites p := fun e he k hk => by
    obtain rfl := List.mem_singleton.mp he
    cases hk
    exact hl
  unfold assertLit
  split
  · exact .refl h
  next a b _ =>
    split
    · refine ⟨⟨h.edges, fun d hd k hk => ?_, h.pending⟩, .of_revert (u := .diseq) rfl
        ⟨rfl, Array.pop_push .., rfl⟩, rfl, rfl⟩
      rcases Array.mem_push.mp (show d ∈ g.classes.diseqs.push _ from hd) with hd | rfl
      · exact h.diseqs d hd k hk
      · cases hk
        exact hl
    · exact gains_settle h (hone a b)
  · exact gains_settle h (hone _ _)

theorem gains_assertLits {ls : List Literal} (h : g.classes.Cites p) (hls : ∀ l ∈ ls, p l)
    (changed : Bool) :
    Gains p ls.length g (assertLits ls changed g).2 := by
  induction ls generalizing changed g with
  | nil => exact .refl h
  | cons l ls ih =>
    have hcounted : Gains p 1 g (g.modifyClasses fun k =>
        { k with processed := k.processed + 1 }) :=
      ⟨h.of_same rfl rfl rfl, .of_agrees ⟨rfl, rfl, rfl⟩, rfl, rfl⟩
    have hone := hcounted.trans (gains_assertLit hcounted.cites (hls l List.mem_cons_self))
    unfold assertLits
    extract_lets g₁
    have hall := hone.trans (ih hone.cites (fun k hk => hls k (List.mem_cons_of_mem l hk))
      (changed || (g₁.assertLit l).1))
    rwa [Nat.add_zero, Nat.add_comm] at hall

/-! ## Explanations -/

theorem cites_pathReasons (h : g.classes.Cites p) (path : List Nat) :
    ∀ l ∈ (g.pathReasons path).1, p l := by
  unfold pathReasons
  refine List.foldlRecOn path _ (motive := fun acc : List Literal × List (Nat × Nat) => ∀ l ∈ acc.1,
    p l)
    (fun l hl => absurd hl List.not_mem_nil) ?_
  rintro ⟨ls, pairs⟩ hls i -
  dsimp only at hls ⊢
  split
  · exact hls
  next e he =>
    have hedge := h.edges e (Array.mem_of_getElem? he)
    split
    next l hl =>
      intro k hk
      rcases List.mem_cons.mp hk with rfl | hk
      · exact hedge k hl
      · exact hls k hk
    · exact hls

theorem cites_explainAll {bound : Nat} {todo : List (Nat × Nat)} {done : Std.HashSet (Nat × Nat)}
    {out lits : List Literal} (h : g.classes.Cites p) (hout : ∀ l ∈ out, p l)
    (hlits : g.explainAll bound todo done out = some lits) :
    ∀ l ∈ lits, p l := by
  fun_induction explainAll g bound todo done out with
  | case1 => exact Option.some.inj hlits ▸ hout
  | case2 bound done out x y rest pair hskip ih => exact ih hout hlits
  | case3 => cases hlits
  | case4 => cases hlits
  | case5 done out x y rest pair hnew bound path hpath ls pairs hreasons ih =>
    refine ih (fun l hl => ?_) hlits
    rcases List.mem_append.mp hl with hl | hl
    · have hpath := cites_pathReasons h path
      rw [hreasons] at hpath
      exact hpath l hl
    · exact hout l hl

theorem cites_explain? (h : g.classes.Cites p) {a b : Nat} {lits : List Literal}
    (hlits : g.explain? a b = some lits) :
    ∀ l ∈ lits, p l := by
  unfold explain? at hlits
  split at hlits
  · obtain ⟨out, hout, rfl⟩ := Option.map_eq_some_iff.mp hlits
    exact fun l hl => cites_explainAll h (fun l hl => absurd hl List.not_mem_nil) hout l
      (Literal.mem_normalize.mp hl)
  · cases hlits

/-- The literals of a conflict are negations of literals that are cited. -/
theorem cites_conflict? (h : g.classes.Cites p) {lits : List Literal}
    (hlits : g.conflict? = some lits) :
    ∀ l ∈ lits, p l.neg := by
  unfold conflict? at hlits
  split at hlits
  · cases hlits
  next a b l hfind =>
    obtain ⟨ls, hls, rfl⟩ := Option.map_eq_some_iff.mp hlits
    intro k hk
    rcases List.mem_append.mp hk with hk | hk
    · obtain ⟨l', hl', rfl⟩ := List.mem_map.mp hk
      rw [Literal.neg_neg]
      exact cites_explain? h hls l' hl'
    · obtain ⟨l', hl', rfl⟩ := List.mem_map.mp hk
      rw [Literal.neg_neg]
      exact h.diseqs _ (Array.mem_of_find?_eq_some hfind) l' (Option.mem_toList.mp hl')

/-- What a propagation gains from the trail, and the clause that the theory rules out. -/
theorem gains_propagate (h : g.classes.Cites p) {trail : Array Literal}
    (htrail : ∀ l ∈ trail, p l) :
    Gains p (trail.size - g.classes.processed) g (g.propagate trail).2 ∧
      ∀ lits, (g.propagate trail).1.conflict = some lits → ∀ l ∈ lits, p l.neg := by
  have hsettled := (gains_sync h).trans (gains_settlePending (gains_sync h).cites)
  have hnew : ∀ l ∈ (trail.extract g.sync.settlePending.classes.processed trail.size).toList, p l :=
      fun l hl => by
    rw [Array.toList_extract] at hl
    exact htrail l (Array.mem_toList_iff.mp (List.mem_of_mem_drop (List.mem_of_mem_take hl)))
  have hall :=
    hsettled.trans (gains_assertLits hsettled.cites hnew (!g.sync.classes.pending.isEmpty))
  have hcount : (trail.extract g.sync.settlePending.classes.processed trail.size).toList.length =
      trail.size - g.classes.processed := by
    rw [Array.length_toList, Array.size_extract, Nat.min_self, hsettled.processed, Nat.add_zero]
  rw [hcount, Nat.zero_add] at hall
  refine ⟨hall, fun lits hlits => ?_⟩
  unfold propagate at hlits
  dsimp only at hlits
  split at hlits
  · exact cites_conflict? hall.cites hlits
  · cases hlits

/-! ## Variables of reasons -/

/-- The variables of the literals that are recorded as reasons are in `vs`. -/
def Over (vs : Nat → Prop) (g : Egraph) : Prop := g.classes.Cites fun l => vs l.var

namespace Over

theorem mono (h : g.Over vs) (hvs : ∀ v, vs v → vs' v) : g.Over vs' :=
  Classes.Cites.mono h fun l => hvs l.var

theorem backtrack (h : g.Over vs) (level : Nat) : (g.backtrack level).Over vs := by
  have hback (k : Classes) (hk : k.Cites fun l => vs l.var) :
      Classes.Cites (fun l => vs l.var) { k with pending := [] } :=
    ⟨hk.edges, hk.diseqs, fun e (he : e ∈ []) => absurd he List.not_mem_nil⟩
  refine hback _ ?_
  split
  · exact h
  next numUndo processed _ =>
    have hundone := Classes.Cites.undoLast h (g.classes.undo.size - numUndo)
    exact ⟨hundone.edges, hundone.diseqs, hundone.pending⟩

theorem openLevel (h : g.Over vs) : g.openLevel.Over vs := Classes.Cites.of_same h rfl rfl rfl

theorem startSearch (g : Egraph) (vs : Nat → Prop) : g.startSearch.Over vs :=
  (gains_startSearch g _).cites

/-- The classes after a propagation, and the clause that the theory rules out. -/
theorem propagate (h : g.Over vs) {trail : Array Literal} (htrail : ∀ l ∈ trail, vs l.var) :
    (g.propagate trail).2.Over vs ∧ ∀ lits, (g.propagate trail).1.conflict = some lits →
    Search.Over vs lits := by
  obtain ⟨hgains, hconflict⟩ := gains_propagate h htrail
  refine ⟨hgains.cites, fun lits hlits l hl => ?_⟩
  have hneg := hconflict lits hlits l hl
  rwa [Literal.var_neg] at hneg

end Over
end Entail.Egraph
