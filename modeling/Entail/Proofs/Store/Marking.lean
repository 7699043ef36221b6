import Entail.Proofs.Store.Wf
import Entail.Store.Collect
import Mathlib.Logic.Relation

/-!
# Marking what can be reached

Both walks of the store are depth-first searches: what is marked is not entered again. A search that
may go as deep as there are things left to mark finds everything that can be reached along parts,
cycles or not, and nothing else.
-/

namespace Entail

section Mark

variable {α : Type} [BEq α] [Hashable α] (parts : α → List α)

/-- Marks `a` and what it is made of, unless `a` is marked. `depth` bounds the nesting. -/
def mark : (depth : Nat) → α → Std.HashSet α → Std.HashSet α
  | 0, _, m => m
  | depth + 1, a, m => if m.contains a then m else (parts a).foldl (fun m b =>
    mark depth b m) (m.insert a)

/-- `b` is `a` or a part of it, or a part of a part and so on. -/
def Reaches (a b : α) : Prop := Relation.ReflTransGen (fun x y => y ∈ parts x) a b

/-- Number of things in `univ` that are left to mark. -/
def unmarked (univ : List α) (m : Std.HashSet α) : Nat := univ.countP fun x => !m.contains x

/-- From `m`, marking the things in `univ` that are among `as`, with all that is reached from `as`,
led to `m'`. -/
structure Marks (univ as : List α) (m m' : Std.HashSet α) : Prop where
  mono : ∀ x ∈ m, x ∈ m'
  entered : ∀ a ∈ as, a ∈ univ → a ∈ m'
  reached : ∀ x ∈ m', x ∈ m ∨ ∃ a ∈ as, Reaches parts a x
  closed : ∀ x ∈ m', x ∈ m ∨ ∀ y ∈ parts x, y ∈ m'

variable {parts} {univ as : List α} {m m' m'' : Std.HashSet α}

namespace Marks

theorem nil : Marks parts univ [] m m := ⟨fun _ => id, by simp, fun _ => .inl, fun _ => .inl⟩

theorem cons {a : α} (h : Marks parts univ [a] m m') (h' : Marks parts univ as m' m'') :
    Marks parts univ (a :: as) m m'' where
  mono x hx := h'.mono x (h.mono x hx)
  entered b hb hu := by
    rcases List.mem_cons.mp hb with rfl | hb
    · exact h'.mono b (h.entered b (List.mem_singleton_self b) hu)
    · exact h'.entered b hb hu
  reached x hx := by
    rcases h'.reached x hx with hx | ⟨b, hb, hr⟩
    · rcases h.reached x hx with hx | ⟨b, hb, hr⟩
      · exact .inl hx
      · exact .inr ⟨b, List.mem_cons.mpr (.inl (List.mem_singleton.mp hb)), hr⟩
    · exact .inr ⟨b, List.mem_cons_of_mem a hb, hr⟩
  closed x hx := by
    rcases h'.closed x hx with hx | hclosed
    · exact (h.closed x hx).imp_right fun hclosed y hy => h'.mono y (hclosed y hy)
    · exact .inr hclosed

/-- Marking one thing after the other, if each may be marked from where the ones before
it have led. -/
theorem foldl {f : Std.HashSet α → α → Std.HashSet α}
    (h : ∀ a ∈ as, ∀ m', (∀ x ∈ m, x ∈ m') → Marks parts univ [a] m' (f m' a)) :
    Marks parts univ as m (as.foldl f m) := by
  induction as generalizing m with
  | nil => exact nil
  | cons a as ih =>
    have ha := h a List.mem_cons_self m fun _ => id
    refine ha.cons (ih fun b hb m' hm => ?_)
    exact h b (List.mem_cons_of_mem a hb) m' fun x hx => hm x (ha.mono x hx)

end Marks

theorem unmarked_mono (h : ∀ x ∈ m, x ∈ m') : unmarked univ m' ≤ unmarked univ m := by
  refine List.countP_mono_left fun x _ hx => ?_
  simp only [Bool.not_eq_true', Std.HashSet.contains_eq_false_iff_not_mem] at hx ⊢
  exact fun hm => hx (h x hm)

variable [LawfulBEq α] [LawfulHashable α]

theorem unmarked_insert_lt {a : α} (ha : a ∈ univ) (hm : a ∉ m) :
    unmarked univ (m.insert a) < unmarked univ m := by
  refine Store.countP_lt_countP (fun x _ hx => ?_) ⟨a, ha, ?_, ?_⟩
  · simp only [Bool.not_eq_true', Std.HashSet.contains_eq_false_iff_not_mem, Std.HashSet.mem_insert,
      not_or] at hx ⊢
    exact hx.2
  · simpa using hm
  · simp

/-- A search as deep as there is something left to mark marks what it is asked to. -/
theorem marks_mark (hparts : ∀ x, ∀ y ∈ parts x, y ∈ univ) (hdead : ∀ x, x ∉ univ → parts x = [])
    {depth : Nat} (a : α)
    (hdepth : unmarked univ m ≤ depth) : Marks parts univ [a] m (mark parts depth a m) := by
  induction depth generalizing a m with
  | zero =>
    -- nothing of `univ` is left, so `a` is marked or outside of it
    refine ⟨fun _ => id, fun b _ hu => ?_, fun _ => .inl, fun _ => .inl⟩
    have hall := List.countP_eq_zero.mp (Nat.le_zero.mp hdepth) b hu
    have hb : b ∈ m := by simpa using hall
    exact hb
  | succ depth ih =>
    unfold mark
    split
    next ha =>
      refine ⟨fun _ => id, fun b hb _ => ?_, fun _ => .inl, fun _ => .inl⟩
      rw [List.mem_singleton.mp hb]
      exact Std.HashSet.mem_iff_contains.mpr ha
    next ha =>
      have hnew : a ∉ m := fun hm => ha (Std.HashSet.mem_iff_contains.mp hm)
      have hkids : Marks parts univ (parts a) (m.insert a)
          ((parts a).foldl (fun m b => mark parts depth b m) (m.insert a)) := by
        refine Marks.foldl fun b hb m' hm => ih b (Nat.le_of_lt_succ (Nat.lt_of_lt_of_le ?_ hdepth))
        have hu : a ∈ univ := by
          by_contra hu
          rw [hdead a hu] at hb
          cases hb
        exact Nat.lt_of_le_of_lt (unmarked_mono hm) (unmarked_insert_lt hu hnew)
      have ha' := hkids.mono a Std.HashSet.mem_insert_self
      refine ⟨fun x hx => hkids.mono x (Std.HashSet.mem_insert.mpr (.inr hx)), fun b hb _ => ?_,
        fun x hx => ?_,
        fun x hx => ?_⟩
      · rwa [List.mem_singleton.mp hb]
      · rcases hkids.reached x hx with hx | ⟨b, hb, hr⟩
        · rcases Std.HashSet.mem_insert.mp hx with hax | hx
          · rw [← eq_of_beq hax]
            exact .inr ⟨a, List.mem_singleton_self a, .refl⟩
          · exact .inl hx
        · exact .inr ⟨a, List.mem_singleton_self a, .head hb hr⟩
      · rcases hkids.closed x hx with hx | hclosed
        · rcases Std.HashSet.mem_insert.mp hx with hax | hx
          · rw [← eq_of_beq hax]
            exact .inr fun y hy => hkids.entered y hy (hparts a y hy)
          · exact .inl hx
        · exact .inr hclosed

/-- A search that starts from all of `as`. -/
theorem marks_foldl_mark (hparts : ∀ x, ∀ y ∈ parts x, y ∈ univ)
    (hdead : ∀ x, x ∉ univ → parts x = []) {depth : Nat}
    (hdepth : univ.length ≤ depth) (as : List α) :
    Marks parts univ as ∅ (as.foldl (fun m a => mark parts depth a m) ∅) :=
  Marks.foldl fun a _ _ _ => marks_mark hparts hdead a (Nat.le_trans List.countP_le_length hdepth)

omit [LawfulHashable α] in
/-- What such a search marks is what `as` reach. -/
theorem Marks.mem_iff (hdead : ∀ x, x ∉ univ → parts x = []) (h : Marks parts univ as ∅ m) {x : α}
    (hx : x ∈ univ) :
    x ∈ m ↔ ∃ a ∈ as, Reaches parts a x := by
  constructor
  · exact fun hm => (h.reached x hm).resolve_left Std.HashSet.not_mem_empty
  · rintro ⟨a, ha, hr⟩
    -- on the way from `a`, being in `univ` is passed on from a part to the whole, and being marked
    -- the other way
    induction hr with
    | refl => exact h.entered a ha hx
    | @tail b c _ hc ih =>
      have hb : b ∈ univ := by
        by_contra hb
        rw [hdead b hb] at hc
        cases hc
      exact (h.closed b (ih hb)).resolve_left Std.HashSet.not_mem_empty c hc

end Mark

namespace Store

variable {s : Store}

/-! ## The walk through types -/

/-- Types that a live type mentions. -/
def partsTy (s : Store) (ty : Ty) : List Ty := ((s.tyShape? ty).map (·.parts)).getD []

theorem markTy_eq (s : Store) (depth : Nat) (ty : Ty) (m : Std.HashSet Ty) :
    s.markTy depth ty m = mark s.partsTy depth ty m := by
  induction depth generalizing ty m with
  | zero => rfl
  | succ depth ih => simp only [markTy, mark, partsTy, ih]

/-! ## The walk through terms -/

/-- Positive terms of the parts of a positive term, in the order in which a walk enters them. -/
def partsOf (s : Store) (t : Term) : List Term :=
  if t.isNegated then [] else (s.shape t).children.reverse.map .positive

theorem seen_walk (s : Store) (depth : Nat) (t : Term) (w : Walk) :
    (s.walk depth t w).seen = mark s.partsOf depth t.positive w.seen := by
  induction depth generalizing t w with
  | zero => rfl
  | succ depth ih =>
    have hfold : ∀ (ts : List Term) (w : Walk), (ts.foldr (s.walk depth) w).seen =
        (ts.reverse.map Term.positive).foldl (fun m b => mark s.partsOf depth b m) w.seen := by
      intro ts
      induction ts with
      | nil => exact fun _ => rfl
      | cons u ts ihts =>
        intro w
        rw [List.foldr_cons, ih, ihts, List.reverse_cons, List.map_append, List.foldl_append]
        rfl
    have hparts : s.partsOf t.positive = (s.shape t.positive).children.reverse.map .positive := by
      simp [partsOf]
    unfold walk mark
    simp only [hparts]
    split
    · rfl
    · exact hfold _ _

/-- The terms that were left on the way from `w` to `w'` are those that were entered on it. -/
structure Leaves (w w' : Walk) : Prop where
  seen : ∀ x ∈ w.seen, x ∈ w'.seen
  order : ∀ x, x ∈ w'.order ↔ x ∈ w.order ∨ x ∈ w'.seen ∧ x ∉ w.seen

theorem Leaves.refl (w : Walk) : Leaves w w := ⟨fun _ => id, fun _ => by simp⟩

theorem Leaves.trans {w w' w'' : Walk} (h : Leaves w w') (h' : Leaves w' w'') : Leaves w w'' := by
  refine ⟨fun x hx => h'.seen x (h.seen x hx), fun x => ?_⟩
  rw [h'.order, h.order]
  have := h.seen x
  have := h'.seen x
  tauto

theorem leaves_walk (s : Store) (depth : Nat) (t : Term) (w : Walk) :
    Leaves w (s.walk depth t w) := by
  induction depth generalizing t w with
  | zero => exact .refl w
  | succ depth ih =>
    have hfold : ∀ (ts : List Term) (w : Walk), Leaves w (ts.foldr (s.walk depth) w) := by
      intro ts
      induction ts with
      | nil => exact Leaves.refl
      | cons u ts ihts => exact fun w => (ihts w).trans (ih u _)
    unfold walk
    simp only
    split
    · exact .refl w
    next hnew =>
      -- the term is entered before its parts and left after them
      have hkids := hfold (s.shape t.positive).children { w with seen := w.seen.insert t.positive }
      refine ⟨fun x hx => hkids.seen x (Std.HashSet.mem_insert.mpr (.inr hx)), fun x => ?_⟩
      have hself := hkids.seen t.positive Std.HashSet.mem_insert_self
      have hnot : t.positive ∉ w.seen := fun h => hnew (Std.HashSet.mem_iff_contains.mp h)
      rw [Array.mem_push, hkids.order, Std.HashSet.mem_insert, beq_iff_eq]
      by_cases hx : t.positive = x
      · subst hx
        simp [hself, hnot]
      · simp [hx, Ne.symm hx]

/-- A walk from several roots leaves what it enters. -/
theorem mem_order_walkAll (s : Store) (roots : List Term) (x : Term) :
    x ∈ (s.walkAll roots).order ↔ x ∈ (s.walkAll roots).seen := by
  have hfold : ∀ (ts : List Term) (w : Walk),
      Leaves w (ts.foldl (fun w t => s.walk s.terms.slots.size t w) w) := by
    intro ts
    induction ts with
    | nil => exact Leaves.refl
    | cons t ts ih => exact fun w => (leaves_walk s _ t w).trans (ih _)
  rw [walkAll, (hfold roots ⟨∅, #[]⟩).order]
  simp

theorem seen_walkAll (s : Store) (roots : List Term) :
    (s.walkAll roots).seen =
      (roots.map .positive).foldl (fun m t => mark s.partsOf s.terms.slots.size t m) ∅ := by
  have hfold : ∀ (ts : List Term) (w : Walk),
    (ts.foldl (fun w t => s.walk s.terms.slots.size t w) w).seen =
      (ts.map Term.positive).foldl (fun m t => mark s.partsOf s.terms.slots.size t m) w.seen := by
    intro ts
    induction ts with
    | nil => exact fun _ => rfl
    | cons t ts ih =>
      intro w
      rw [List.foldl_cons, ih, seen_walk]
      rfl
  exact hfold roots ⟨∅, #[]⟩

end Store
end Entail
