import Entail.Proofs.Egraph.Build
import Entail.Proofs.Egraph.Restored
import Entail.Proofs.Quant.Instances
import Mathlib

/-!
# What patterns match

The matcher threads sets of partial bindings through the arguments of a pattern, and through the
members of classes below. What it finds is said without a search: a binding is found when it extends
one that it started from by classes for the variables in argument positions, and the pattern then
holds at a node. A pattern that holds at a node has, with the terms of the classes put for the
variables, the value of the node's term wherever the equalities of the e-graph hold.
-/

namespace Entail.Quant

variable {s : Store} {g : Egraph} {vars : List Term} {b b' b'' : Binding} {bs : List Binding}
  {t u p : Term}
  {i j n r r' : Nat} {P Q : Nat → Prop}

/-! ## Bindings that extend others -/

/-- Variable number `i` is bound to class `r`. -/
abbrev Puts (b : Binding) (i r : Nat) : Prop := b[i]? = some (some r)

/-- `b'` extends `b` by classes for the variables that are still free and whose positions
`P` holds of. -/
structure Binds (P : Nat → Prop) (b b' : Binding) : Prop where
  length : b'.length = b.length
  keeps : ∀ {i r}, Puts b i r → Puts b' i r
  binds : ∀ {i}, i < b.length → ((∃ r, Puts b' i r) ↔ (∃ r, Puts b i r) ∨ P i)

theorem Puts.lt (h : Puts b i r) : i < b.length := (List.getElem?_eq_some_iff.mp h).1

theorem Puts.unique (h : Puts b i r) (h' : Puts b i r') : r = r' :=
  Option.some.inj (Option.some.inj (h.symm.trans h'))

/-- Bindings are the same when they put the same classes for the same variables. -/
theorem eq_of_puts (hlen : b.length = b'.length) (h : ∀ i r, Puts b i r ↔ Puts b' i r) :
    b = b' := by
  refine List.ext_getElem hlen fun i hi hi' => Option.ext fun r => ?_
  have hiff := h i r
  simp only [Puts, List.getElem?_eq_getElem hi, List.getElem?_eq_getElem hi',
    Option.some.injEq] at hiff
  exact hiff

theorem puts_set : Puts (b.set i (some r)) j r' ↔ if i = j then i < b.length ∧ r = r'
      else Puts b j r' := by
  unfold Puts
  rw [List.getElem?_set]
  by_cases heq : i = j
  · rw [if_pos heq, if_pos heq]
    by_cases hi : i < b.length <;> simp [hi]
  · rw [if_neg heq, if_neg heq]

namespace Binds

theorem congr (h : Binds P b b') (hPQ : ∀ i, P i ↔ Q i) : Binds Q b b' :=
  ⟨h.length, h.keeps, fun hi => (h.binds hi).trans (or_congr_right (hPQ _))⟩

theorem trans (h : Binds P b b') (h' : Binds Q b' b'') : Binds (fun i => P i ∨ Q i) b b'' :=
  ⟨h'.length.trans h.length, fun hi => h'.keeps (h.keeps hi), fun hi =>
    (h'.binds (h.length ▸ hi)).trans ((or_congr_left (h.binds hi)).trans or_assoc)⟩

theorem puts_of_bound (h : Binds P b b') (hi : Puts b' i r) (hb : ∃ r', Puts b i r') :
    Puts b i r := by
  obtain ⟨r', hr'⟩ := hb
  exact hi.unique (h.keeps hr') ▸ hr'

/-- What binds nothing new changes nothing. -/
theorem none_iff (hP : ∀ i, ¬ P i) : Binds P b b' ↔ b' = b := by
  constructor
  · intro h
    refine eq_of_puts h.length fun i r => ⟨fun hi => ?_, h.keeps⟩
    exact h.puts_of_bound hi (((h.binds (h.length ▸ hi.lt)).mp ⟨r, hi⟩).resolve_right (hP i))
  · rintro rfl
    exact ⟨rfl, id, fun _ => (or_iff_left (hP _)).symm⟩

open Classical in
/-- Two sets of variables may be bound one after the other. -/
theorem split (h : Binds (fun i => P i ∨ Q i) b b'') :
    ∃ b', Binds P b b' ∧ Binds Q b' b'' ∧ ∀ {i r}, P i → Puts b'' i r → Puts b' i r := by
  let b' : Binding := b''.mapIdx fun i x => if P i then x else b[i]?.join
  have hlen : b'.length = b.length := (List.length_mapIdx ..).trans h.length
  have hputs (i r : Nat) : Puts b' i r ↔ Puts b'' i r ∧ (P i ∨ Puts b i r) := by
    unfold Puts
    rw [List.getElem?_mapIdx]
    constructor
    · intro hi
      obtain ⟨x, hx, hr⟩ := Option.map_eq_some_iff.mp hi
      split at hr
      next hP => exact ⟨hr ▸ hx, .inl hP⟩
      next =>
        have hb : Puts b i r := Option.join_eq_some_iff.mp hr
        exact ⟨h.keeps hb, .inr hb⟩
    · rintro ⟨hi, hor⟩
      rw [hi, Option.map_some]
      split
      · rfl
      next hP => exact congrArg some (Option.join_eq_some_iff.mpr (hor.resolve_left hP))
  have hold {i : Nat} (hb : ∃ r, Puts b i r) : ∃ r, Puts b' i r :=
    hb.imp fun r hr => (hputs i r).mpr ⟨h.keeps hr, .inr hr⟩
  have hnew {i : Nat} (hi : i < b.length) (hP : P i) : ∃ r, Puts b' i r :=
    ((h.binds hi).mpr (.inr (.inl hP))).imp fun r hr => (hputs i r).mpr ⟨hr, .inl hP⟩
  have hbound {i : Nat} (hb : ∃ r, Puts b' i r) : (∃ r, Puts b i r) ∨ P i := by
    obtain ⟨r, hr⟩ := hb
    exact ((hputs i r).mp hr).2.symm.imp_left fun hb => ⟨r, hb⟩
  refine ⟨b', ⟨hlen, fun hi => (hputs _ _).mpr ⟨h.keeps hi, .inr hi⟩, fun hi => ⟨hbound, ?_⟩⟩,
    ⟨h.length.trans hlen.symm, fun hi => ((hputs _ _).mp hi).1, fun {i} hi => ?_⟩,
    fun hP hi => (hputs _ _).mpr ⟨hi, .inl hP⟩⟩
  · exact fun h => h.elim hold (hnew hi)
  · have hlt : i < b.length := hlen ▸ hi
    rw [h.binds hlt, ← or_assoc]
    exact or_congr_left ⟨fun h => h.elim hold (hnew hlt), hbound⟩

end Binds

/-- Binding one variable to a class, or checking that it is. -/
theorem bind_eq_some_iff (hi : i < b.length) :
    bind i r b = some b' ↔ Binds (· = i) b b' ∧ Puts b' i r := by
  have hget : b[i]? = some b[i] := List.getElem?_eq_getElem hi
  unfold bind
  cases hx : b[i] with
  | none =>
    rw [hx] at hget
    have hfree : ¬ ∃ r', Puts b i r' := by
      rintro ⟨r', hr'⟩
      rw [Puts, hget] at hr'
      cases hr'
    rw [hget]
    constructor
    · intro h
      cases h
      refine ⟨⟨List.length_set, fun {j r'} hj => ?_, fun {j} hj => ?_⟩, by simp [puts_set, hi]⟩
      · rw [puts_set, if_neg]
        · exact hj
        · rintro rfl
          exact hfree ⟨r', hj⟩
      · by_cases heq : i = j
        · subst heq
          simp [puts_set, hi]
        · simp [puts_set, heq, Ne.symm heq]
    · rintro ⟨h, hr⟩
      refine congrArg some (eq_of_puts (List.length_set.trans h.length.symm) fun j r' => ?_)
      rw [puts_set]
      split
      next heq =>
        subst heq
        exact ⟨fun h => h.2 ▸ hr, fun h => ⟨hi, hr.unique h⟩⟩
      next hne =>
        refine ⟨h.keeps, fun hj => h.puts_of_bound hj ?_⟩
        exact ((h.binds (h.length ▸ hj.lt)).mp ⟨r', hj⟩).resolve_right (Ne.symm hne)
  | some r' =>
    rw [hx] at hget
    have hsame : Binds (· = i) b b' ↔ b' = b := by
      rw [← Binds.none_iff (P := fun _ => False) fun _ => id]
      have hiff (j : Nat) : ((∃ r, Puts b j r) ∨ j = i) ↔ (∃ r, Puts b j r) ∨ False := by
        refine ⟨fun h => .inl (h.elim id ?_), fun h => .inl (h.resolve_right id)⟩
        rintro rfl
        exact ⟨r', hget⟩
      exact ⟨fun h => ⟨h.length, h.keeps, fun hj => (h.binds hj).trans (hiff _)⟩,
        fun h => ⟨h.length, h.keeps, fun hj => (h.binds hj).trans (hiff _).symm⟩⟩
    rw [hget, hsame]
    dsimp only
    by_cases heq : r' = r
    · rw [if_pos heq, Option.some.injEq, eq_comm]
      exact ⟨fun h => ⟨h, h ▸ heq ▸ hget⟩, And.left⟩
    · rw [if_neg heq]
      refine iff_of_false (by simp) fun h => heq ?_
      obtain ⟨rfl, hr⟩ := h
      exact Puts.unique hget hr

/-! ## Patterns that hold -/

/-- Where it is an argument, `u` is matched like a pattern: it is an application with variables, and
none itself. -/
def Nested (s : Store) (vars : List Term) (u : Term) : Prop :=
  vars.idxOf? u = none ∧ s.isGround u = false ∧ ∃ f args, s.shape u = .app f args

/-- `u` is an argument of the pattern `t`, or of an argument that is matched like a pattern. -/
inductive Argument (s : Store) (vars : List Term) : (t u : Term) → Prop where
  | direct {t u f : Term} {args : List Term} (hshape : s.shape t = .app f args) (hu : u ∈ args) :
    Argument s vars t u
  | nested {t u v f : Term} {args : List Term} (hshape : s.shape t = .app f args) (hu : u ∈ args)
    (hnested : Nested s vars u) (hv : Argument s vars u v) : Argument s vars t v

/-- Variable number `i` is in an argument position of the pattern `t`. -/
def Places (s : Store) (vars : List Term) (t : Term) (i : Nat) : Prop :=
  ∃ v, Argument s vars t v ∧ vars.idxOf? v = some i

/-- The argument `u` is variable number `i`, or it has that variable in an argument position. -/
def Under (s : Store) (vars : List Term) (u : Term) (i : Nat) : Prop :=
  vars.idxOf? u = some i ∨ Nested s vars u ∧ Places s vars u i

/-- With the classes that `b` puts for variables, the argument `u` holds in class `r`. A variable is
put for that class, an application with variables holds at a member of it, and any other term has a
node there. -/
inductive HoldsIn (g : Egraph) (s : Store) (vars : List Term) (b : Binding) :
    (u : Term) → (r : Nat) → Prop where
  | var {u : Term} {r i : Nat} (hi : vars.idxOf? u = some i) (hr : Puts b i r) :
    HoldsIn g s vars b u r
  | app {u f : Term} {r m : Nat} {args : List Term} (hnested : Nested s vars u) (hm : g.root m = r)
    (hshape : s.shape u = .app f args) (hfunc : (g.node m).func = some f)
    (hlen : (g.node m).args.length = args.length)
    (hargs : ∀ x ∈ args.zip (g.node m).args, HoldsIn g s vars b x.1 (g.root x.2)) :
    HoldsIn g s vars b u r
  | node {u : Term} {r m : Nat} (hi : vars.idxOf? u = none) (hplain : ¬ Nested s vars u)
    (hm : g.nodeOf[u]? = some m)
    (hr : g.root m = r) : HoldsIn g s vars b u r

/-- With the classes that `b` puts for variables, the application `t` holds at node `n`: the node
has the same head, and its arguments are in classes in which those of `t` hold. -/
def HoldsAt (g : Egraph) (s : Store) (vars : List Term) (b : Binding) (t : Term) (n : Nat) : Prop :=
  ∃ f args, s.shape t = .app f args ∧ (g.node n).func = some f ∧
    (g.node n).args.length = args.length ∧
    ∀ x ∈ args.zip (g.node n).args, HoldsIn g s vars b x.1 (g.root x.2)

theorem places_iff {f : Term} {args : List Term} (hshape : s.shape t = .app f args) :
    Places s vars t i ↔ ∃ a ∈ args, Under s vars a i := by
  constructor
  · rintro ⟨v, hv, hi⟩
    cases hv with
    | direct hshape' hu =>
      cases hshape.symm.trans hshape'
      exact ⟨v, hu, .inl hi⟩
    | nested hshape' hu hnested hv =>
      cases hshape.symm.trans hshape'
      exact ⟨_, hu, .inr ⟨hnested, v, hv, hi⟩⟩
  · rintro ⟨a, ha, hi | ⟨hnested, v, hv, hi⟩⟩
    · exact ⟨a, .direct hshape ha, hi⟩
    · exact ⟨v, .nested hshape ha hnested hv, hi⟩

/-- Whether an argument holds depends on the variables in its argument positions only. -/
theorem HoldsIn.of_puts (h : HoldsIn g s vars b u r)
    (hb : ∀ {i r}, Under s vars u i → Puts b i r → Puts b' i r) :
    HoldsIn g s vars b' u r := by
  induction h with
  | var hi hr => exact .var hi (hb (.inl hi) hr)
  | app hnested hm hshape hfunc hlen _ ih =>
    refine .app hnested hm hshape hfunc hlen fun x hx => ih x hx fun hi hr =>
      hb (.inr ⟨hnested, ?_⟩) hr
    exact (places_iff hshape).mpr ⟨x.1, (List.of_mem_zip hx).1, hi⟩
  | node hi hplain hm hr => exact .node hi hplain hm hr

theorem under_of_var (hi : vars.idxOf? u = some i) : Under s vars u j ↔ j = i := by
  constructor
  · rintro (hj | ⟨⟨hnone, -⟩, -⟩)
    · exact Option.some.inj (hj.symm.trans hi)
    · cases hi.symm.trans hnone
  · rintro rfl
    exact .inl hi

theorem holdsIn_of_var (hi : vars.idxOf? u = some i) : HoldsIn g s vars b u r ↔ Puts b i r := by
  constructor
  · intro h
    cases h with
    | var hi' hr =>
      cases hi.symm.trans hi'
      exact hr
    | app hnested => cases hi.symm.trans hnested.1
    | node hi' => cases hi.symm.trans hi'
  · exact .var hi

theorem under_of_nested (hu : Nested s vars u) : Under s vars u i ↔ Places s vars u i := by
  refine ⟨fun h => h.elim (fun hi => ?_) And.right, fun h => .inr ⟨hu, h⟩⟩
  cases hu.1.symm.trans hi

/-- An argument that is matched like a pattern holds at a member of the class. -/
theorem holdsIn_of_nested (hu : Nested s vars u) :
    HoldsIn g s vars b u r ↔ ∃ m, g.root m = r ∧ HoldsAt g s vars b u m := by
  constructor
  · intro h
    cases h with
    | var hi => cases hu.1.symm.trans hi
    | app _ hm hshape hfunc hlen hargs => exact ⟨_, hm, _, _, hshape, hfunc, hlen, hargs⟩
    | node _ hplain => exact absurd hu hplain
  · rintro ⟨m, hm, f, args, hshape, hfunc, hlen, hargs⟩
    exact .app hu hm hshape hfunc hlen hargs

theorem not_under_of_plain (hi : vars.idxOf? u = none) (hu : ¬ Nested s vars u) :
    ¬ Under s vars u j := by
  rintro (hj | ⟨hnested, -⟩)
  · cases hi.symm.trans hj
  · exact hu hnested

/-- Any other argument has a node in the class. -/
theorem holdsIn_of_plain (hi : vars.idxOf? u = none) (hu : ¬ Nested s vars u) :
    HoldsIn g s vars b u r ↔ ∃ m, g.nodeOf[u]? = some m ∧ g.root m = r := by
  constructor
  · intro h
    cases h with
    | var hi' => cases hi.symm.trans hi'
    | app hnested => exact absurd hnested hu
    | node _ _ hm hr => exact ⟨_, hm, hr⟩
  · rintro ⟨m, hm, hr⟩
    exact .node hi hu hm hr

/-! ## Matching -/

/-- Arguments that are matched one after the other all hold, and bind the variables in their
argument positions. -/
theorem mem_foldl_matchClass {depth : Nat} {pairs : List (Term × Nat)}
    (hbs : ∀ b ∈ bs, b.length = vars.length)
    (hclass : ∀ x ∈ pairs, ∀ bs : List Binding, (∀ b ∈ bs, b.length = vars.length) → ∀ b',
      b' ∈ matchClass g s vars depth x.1 (g.root x.2) bs ↔
        ∃ b ∈ bs, Binds (Under s vars x.1) b b' ∧ HoldsIn g s vars b' x.1 (g.root x.2)) :
    b' ∈ pairs.foldl (fun bs x => matchClass g s vars depth x.1 (g.root x.2) bs) bs ↔
      ∃ b ∈ bs, Binds (fun i => ∃ x ∈ pairs, Under s vars x.1 i) b b' ∧
        ∀ x ∈ pairs, HoldsIn g s vars b' x.1 (g.root x.2) := by
  induction pairs generalizing bs with
  | nil => simp [Binds.none_iff]
  | cons x pairs ih =>
    have hfirst := hclass x List.mem_cons_self bs hbs
    rw [List.foldl_cons, ih (fun b hb => ?_) fun y hy => hclass y (List.mem_cons_of_mem x hy)]
    · have hcons (i : Nat) : (Under s vars x.1 i ∨ ∃ y ∈ pairs, Under s vars y.1 i) ↔
          ∃ y ∈ x :: pairs, Under s vars y.1 i := by
        simp
      constructor
      · rintro ⟨b₁, hb₁, hrest, hall⟩
        obtain ⟨b, hb, hbinds, hx⟩ := (hfirst b₁).mp hb₁
        refine ⟨b, hb, (hbinds.trans hrest).congr hcons, List.forall_mem_cons.mpr ⟨?_, hall⟩⟩
        exact hx.of_puts fun _ hr => hrest.keeps hr
      · rintro ⟨b, hb, hbinds, hall⟩
        obtain ⟨hx, hall⟩ := List.forall_mem_cons.mp hall
        obtain ⟨b₁, hone, hrest, hback⟩ := (hbinds.congr fun i => (hcons i).symm).split
        exact ⟨b₁, (hfirst b₁).mpr ⟨b, hb, hone, hx.of_puts hback⟩, hrest, hall⟩
    · obtain ⟨b₀, hb₀, hbinds, -⟩ := (hfirst b).mp hb
      exact hbinds.length.trans (hbs b₀ hb₀)

section

variable (hw : s.Wf) (hring : ∀ m n, m ∈ g.ring (g.root n) ↔ g.root m = g.root n) {rank : Nat → Nat}
  (hrank : ∀ {i shape ty}, s.terms.get? i = some (shape, ty) → ∀ c ∈ shape.children,
    rank c.index < rank i)

include hw hring hrank

/-- What matching against a node and matching against a class find, when the bound covers the
nesting of the pattern. -/
theorem mem_match (depth : Nat) :
    (∀ t n bs, (∃ ty, s.Has t ty) → 2 * rank t.index + 1 ≤ depth →
      (∀ b ∈ bs, b.length = vars.length) → ∀ b',
      b' ∈ matchNode g s vars depth t n bs ↔ ∃ b ∈ bs, Binds (Places s vars t) b b' ∧
      HoldsAt g s vars b' t n) ∧
    ∀ u k bs, (∃ ty, s.Has u ty) → 2 * rank u.index + 2 ≤ depth →
    (∀ b ∈ bs, b.length = vars.length) → ∀ b',
      b' ∈ matchClass g s vars depth u (g.root k) bs ↔
        ∃ b ∈ bs, Binds (Under s vars u) b b' ∧ HoldsIn g s vars b' u (g.root k) := by
  -- by induction on the bound, for nodes and classes together: a node asks for the classes of its
  -- arguments, and a class for the nodes in its ring
  induction depth with
  | zero => exact ⟨fun _ _ _ _ hd => by omega, fun _ _ _ _ hd => by omega⟩
  | succ depth ih =>
    obtain ⟨ihnode, ihclass⟩ := ih
    refine ⟨fun t n bs ht hd hbs b' => ?_, fun u k bs hu hd hbs b' => ?_⟩
    · obtain ⟨ty, ht⟩ := ht
      have hn := ht.node
      unfold matchNode
      cases hshape : s.shape t with
      | app f args =>
        rw [hshape] at hn
        dsimp only
        split
        next hcond =>
          simp only [Bool.and_eq_true, decide_eq_true_eq] at hcond
          obtain ⟨hfunc, hlen⟩ := hcond
          rw [mem_foldl_matchClass hbs fun x hx => ?_]
          · have hplaces (i : Nat) : (∃ x ∈ args.zip (g.node n).args, Under s vars x.1 i) ↔
                Places s vars t i := by
              have hfst : (args.zip (g.node n).args).map Prod.fst = args :=
                List.map_fst_zip (by omega)
              rw [places_iff hshape]
              conv_rhs => rw [← hfst]
              simp
            refine exists_congr fun b => and_congr_right fun _ => and_congr ?_ ?_
            · exact ⟨fun h => h.congr hplaces, fun h => h.congr fun i => (hplaces i).symm⟩
            · constructor
              · exact fun h => ⟨f, args, hshape, hfunc, hlen, h⟩
              · rintro ⟨f', args', hshape', -, -, h⟩
                cases hshape.symm.trans hshape'
                exact h
          · have hmem := List.mem_cons_of_mem f (List.of_mem_zip hx).1
            have hlt : rank x.1.index < rank t.index := hrank hn x.1 hmem
            exact fun bs hbs => ihclass x.1 x.2 bs ((hw.typed hn).live hmem) (by omega) hbs
        next hcond =>
          refine iff_of_false (List.not_mem_nil) ?_
          rintro ⟨b, -, -, f', args', hshape', hfunc, hlen, -⟩
          cases hshape.symm.trans hshape'
          exact hcond (by simp [hfunc, hlen])
      | _ =>
        refine iff_of_false (List.not_mem_nil) ?_
        rintro ⟨b, -, -, f', args', hshape', -⟩
        cases hshape.symm.trans hshape'
    · unfold matchClass
      cases hi : vars.idxOf? u with
      | some i =>
        have hlt : i < vars.length := (List.idxOf?_eq_some_iff.mp hi).1
        rw [List.mem_filterMap]
        refine exists_congr fun b => and_congr_right fun hb => ?_
        rw [bind_eq_some_iff (hbs b hb ▸ hlt)]
        exact and_congr ⟨fun h => h.congr fun j => (under_of_var hi).symm, fun h => h.congr fun j =>
          under_of_var hi⟩
          (holdsIn_of_var hi).symm
      | none =>
        -- a nested pattern is matched against every node of the class, any other is looked up
        by_cases hnested : Nested s vars u
        · obtain ⟨-, hground, f, args, hshape⟩ := id hnested
          rw [hshape, hground]
          simp only [List.mem_flatMap, hring]
          constructor
          · rintro ⟨m, hm, hb'⟩
            obtain ⟨b, hb, hbinds, hat⟩ := (ihnode u m bs hu (by omega) hbs b').mp hb'
            exact ⟨b, hb, hbinds.congr fun j => (under_of_nested hnested).symm,
              (holdsIn_of_nested hnested).mpr ⟨m, hm, hat⟩⟩
          · rintro ⟨b, hb, hbinds, hin⟩
            obtain ⟨m, hm, hat⟩ := (holdsIn_of_nested hnested).mp hin
            refine ⟨m, hm, (ihnode u m bs hu (by omega) hbs b').mpr ⟨b, hb, ?_, hat⟩⟩
            exact hbinds.congr fun j => under_of_nested hnested
        · have hplain : b' ∈ bs ∧ HoldsIn g s vars b' u (g.root k) ↔
              ∃ b ∈ bs, Binds (Under s vars u) b b' ∧ HoldsIn g s vars b' u (g.root k) := by
            simp [Binds.none_iff fun j => not_under_of_plain hi hnested]
          rw [← hplain, holdsIn_of_plain hi hnested]
          dsimp only
          split
          next hshape hground => exact absurd ⟨hi, hground, _, _, hshape⟩ hnested
          next =>
            cases g.nodeOf[u]? with
            | none => simp
            | some m => by_cases hm : g.root m = g.root k <;> simp [hm]

end

end Quant

/-! ## Ground terms -/

namespace Store

variable {s : Store} {t : Term} {ty : Ty}

/-- A live term is ground when no variable is below it. -/
theorem isGround_iff (hw : s.Wf) (ht : s.Has t ty) :
    s.isGround t = true ↔ ∀ u, s.Below t u → (s.shape u).isVariable = false := by
  unfold isGround
  simp only [List.all_eq_true, Bool.not_eq_true']
  have hvalid : s.isValid t = true := isValid_iff.mpr ⟨ty, ht⟩
  constructor
  · intro h u hu
    obtain ⟨x, hx⟩ := Below.live hw hu hvalid
    have hmem : u.positive ∈ s.subterms t := by
      refine Array.mem_toList_iff.mpr ((mem_order_walkAll s [t] _).mpr ?_)
      refine (mem_seen_walkAll hw [t] (Arena.isLive_iff.mpr ⟨x, hx⟩)).mpr
        ⟨t, List.mem_singleton_self t, ?_⟩
      exact hu
    simpa [shape, shape?, node?] using h _ hmem
  · exact fun h u hu => h u (mem_subterms hw hvalid hu).1

/-- The value of a ground term is the same whatever the variables are. -/
theorem value_of_isGround (hw : s.Wf) (ht : s.Has t ty) (hground : s.isGround t = true) {I : Interp}
    (ρ ρ' : I.Env) :
    I.value s ρ t = I.value s ρ' t := by
  have hno := (isGround_iff hw ht).mp hground
  clear hground
  obtain ⟨rank, hrank⟩ := hw.ranked
  induction hr : rank t.index using Nat.strongRecOn generalizing t ty ρ ρ' with
  | ind r ih =>
    have hn := ht.node
    have hvar := hno t .refl
    -- the values of the parts are constant functions of the variables
    have hparts : ∀ c ∈ (s.shape t).children, ∀ ρ₁,
        I.value s ρ₁ c = (fun _ c => I.value s ρ c) ρ₁ c := fun c hc ρ₁ => by
      obtain ⟨tc, hctc⟩ := (hw.typed hn).live hc
      refine ih (rank c.index) (hr ▸ hrank hn c hc) hctc ρ₁ ρ (fun u hu => hno u ?_) rfl
      exact (Relation.ReflTransGen.single (.child_of_node hn hc)).trans hu
    rw [Interp.value_eq hw hn, Interp.value_eq hw hn, Interp.node_congr _ hparts,
      Interp.node_congr _ hparts]
    cases hshape : s.shape t with
    | var => simp [hshape, Term.Shape.isVariable] at hvar
    | _ => rfl

end Store

namespace Egraph

variable {g : Egraph} {m n : Nat}

/-- The ring of a representative visits the nodes of its class, nodes that are in no class
yet included. -/
theorem mem_ring_root (ht : g.Tables) (m n : Nat) :
    m ∈ g.ring (g.root n) ↔ g.root m = g.root n := by
  by_cases hn : n < g.known
  · rw [(perm_ring ht (ht.root_lt hn)).2.1, ht.root_root, and_iff_right_iff_imp]
    intro heq
    rcases ht.known_or_eq heq with ⟨hm, -⟩ | rfl
    · exact hm
    · exact hn
  · have hle : g.known ≤ n := Nat.le_of_not_lt hn
    rw [root_of_known_le hle, ring_of_known_le ht hle, List.mem_singleton]
    constructor
    · rintro rfl
      exact root_of_known_le hle
    · intro heq
      exact (ht.known_or_eq (heq.trans (root_of_known_le hle).symm)).elim
        (fun h => absurd h.2 hn) id

end Egraph

namespace Quant

variable {s : Store} {g : Egraph} {vars : List Term} {b b' : Binding} {t u p : Term}
  {i m n r : Nat} {σ : Subst}
  {I : Interp} {ρ ρ' : I.Env}

/-! ## Values of patterns -/

/-- Nodes of one class have terms of one value. -/
def Respects (s : Store) (g : Egraph) (ρ : I.Env) : Prop :=
  ∀ {m n : Nat}, m < g.nodes.size → n < g.nodes.size → g.root m = g.root n →
    I.value s ρ (g.node m).term = I.value s ρ (g.node n).term

/-- Under `ρ'`, variables have the values of the terms of the classes that `b` puts for them. -/
def Reads (s : Store) (g : Egraph) (vars : List Term) (b : Binding) (ρ ρ' : I.Env) : Prop :=
  ∀ {v : Term} {i r : Nat}, vars.idxOf? v = some i → Puts b i r →
    ρ' v = I.value s ρ (g.node (g.root r)).term

/-- Neither the pattern nor an argument that is matched like a pattern is a negation. -/
def Upright (s : Store) (vars : List Term) (t : Term) : Prop :=
  t.isNegated = false ∧ ∀ u, Argument s vars t u → Nested s vars u → u.isNegated = false

/-- An e-graph of ground terms. -/
structure Ground (s : Store) (g : Egraph) : Prop where
  terms : g.OfTerms s
  typed : g.Typed s
  ground : ∀ n ∈ g.nodes, s.isGround n.term = true

theorem Upright.argument (h : Upright s vars t) {f : Term} {args : List Term}
    (hshape : s.shape t = .app f args)
    (hu : u ∈ args) (hnested : Nested s vars u) : Upright s vars u :=
  ⟨h.2 u (.direct hshape hu) hnested, fun v hv => h.2 v (.nested hshape hu hnested hv)⟩

theorem getElem?_node (hn : n < g.nodes.size) : g.nodes[n]? = some (g.node n) := by
  rw [Egraph.node, Array.getD_eq_getD_getElem?, Array.getElem?_eq_getElem hn, Option.getD_some]

theorem term_of_termAt (h : Egraph.termAt g.nodes n = some t) :
    n < g.nodes.size ∧ (g.node n).term = t := by
  obtain ⟨m, hm, rfl⟩ := Option.map_eq_some_iff.mp h
  have hlt : n < g.nodes.size := (Array.getElem?_eq_some_iff.mp hm).1
  exact ⟨hlt, congrArg Egraph.Node.term (Option.some.inj ((getElem?_node hlt).symm.trans hm))⟩

theorem root_lt_size (ht : g.Tables) (hn : n < g.nodes.size) : g.root n < g.nodes.size := by
  by_cases hlt : n < g.known
  · exact Nat.lt_of_lt_of_le (ht.root_lt hlt) ht.known_le
  · rwa [Egraph.root_of_known_le (Nat.le_of_not_lt hlt)]

section

variable (hw : s.Wf) (htables : g.Tables) (hg : Ground s g) (hρ : Respects s g ρ)

include hw htables hg hρ

/-- An application has the value of a node's term, when its arguments have the values of the terms
in the classes of the node's arguments. -/
theorem value_of_args (ht : ∃ ty, s.Has t ty) (hpos : t.isNegated = false) {f : Term}
    {args : List Term} (hshape : s.shape t = .app f args) (hfunc : (g.node n).func = some f)
    (hlen : (g.node n).args.length = args.length)
    (hargs : ∀ x ∈ args.zip (g.node n).args, g.root x.2 < g.nodes.size →
      I.value s ρ' x.1 = I.value s ρ (g.node (g.root x.2)).term) :
    I.value s ρ' t = I.value s ρ (g.node n).term := by
  obtain ⟨ty, ht⟩ := ht
  have hn := getElem?_node (Egraph.lt_size_of_func hfunc)
  obtain ⟨ts, hts, hterms⟩ := (hg.terms.applies hn).app hfunc
  have hnpos : (g.node n).term.isNegated = false := (hg.terms.applies hn).positive (by simp [hfunc])
  have htn := hshape ▸ ht.node
  have hnn := hts ▸ (hg.typed.has_node hn).node
  have hvalues : args.map (I.value s ρ') = ts.map (I.value s ρ) := by
    have hlen' := hterms.length_eq
    refine List.ext_getElem (by simp; omega) fun i hi hi' => ?_
    rw [List.length_map] at hi hi'
    have hin : i < (g.node n).args.length := by omega
    obtain ⟨hlt, hterm⟩ : (g.node n).args[i] < g.nodes.size ∧
        (g.node (g.node n).args[i]).term = ts[i] :=
      term_of_termAt (List.Forall₂.get hterms hin hi').2
    have hmem : (args[i], (g.node n).args[i]) ∈ args.zip (g.node n).args :=
      List.mem_iff_getElem.mpr ⟨i, by rw [List.length_zip]; omega, List.getElem_zip⟩
    rw [List.getElem_map, List.getElem_map, hargs _ hmem (root_lt_size htables hlt),
      hρ (root_lt_size htables hlt) hlt (htables.root_root _)]
    exact congrArg (I.value s ρ) hterm
  have hty : s.ty t.positive = s.ty (g.node n).term.positive := by
    obtain ⟨tf, domain, hf, hdom, -⟩ := hw.typed htn
    obtain ⟨tf', domain', hf', hdom', -⟩ := hw.typed hnn
    cases hf.unique hf'
    rw [ht.positive.ty_eq, (hg.typed.has_node hn).positive.ty_eq]
    cases hdom.symm.trans hdom'
    rfl
  rw [Interp.value_eq hw htn, Interp.value_eq hw hnn, hpos, hnpos]
  simp only [Interp.node, hvalues, hty]

/-- An argument that holds in a class has the value of the terms of the class. -/
theorem HoldsIn.value (h : HoldsIn g s vars b u r) (hvars : ∀ v ∈ vars, s.IsVar v)
    (hreads : Reads s g vars b ρ ρ')
    (hu : ∃ ty, s.Has u ty) (hup : Nested s vars u → Upright s vars u) (hr : r < g.nodes.size) :
    I.value s ρ' u = I.value s ρ (g.node r).term := by
  induction h with
  | @var u r i hi hput =>
    obtain ⟨hlt, heq, -⟩ := List.idxOf?_eq_some_iff.mp hi
    obtain ⟨hneg, ty, k, hvar⟩ := hvars u (heq ▸ List.getElem_mem hlt)
    rw [← hρ (root_lt_size htables hr) hr (htables.root_root r), ← hreads hi hput,
      Interp.value_eq hw hvar, hneg,
      Term.positive_of_not_isNegated hneg]
    rfl
  | @app u f r m args hnested hm hshape hfunc hlen _ ih =>
    have hlt := Egraph.lt_size_of_func hfunc
    have hmr : g.root m = g.root r := hm ▸ (htables.root_root m).symm
    rw [← hρ hlt hr hmr]
    refine value_of_args hw htables hg hρ hu (hup hnested).1 hshape hfunc hlen fun x hx hx' => ?_
    have hmem := (List.of_mem_zip hx).1
    obtain ⟨ty, hu⟩ := hu
    have hlive := (hw.typed (hshape ▸ hu.node)).live (List.mem_cons_of_mem f hmem)
    exact ih x hx hlive (fun hx => (hup hnested).argument hshape hmem hx) hx'
  | @node u r m hi hplain hm hmr =>
    obtain ⟨hlt, rfl⟩ := term_of_termAt ((hg.terms.indexed.nodeOf u m).mp hm)
    have hroot : g.root m = g.root r := hmr ▸ (htables.root_root m).symm
    obtain ⟨ty, hu⟩ := hu
    rw [← hρ hlt hr hroot]
    exact Store.value_of_isGround hw hu (hg.ground _ (Array.mem_of_getElem? (getElem?_node hlt))) ρ'
      ρ

/-- A pattern that holds at a node has the value of the node's term. -/
theorem HoldsAt.value (h : HoldsAt g s vars b p n) (hvars : ∀ v ∈ vars, s.IsVar v)
    (hreads : Reads s g vars b ρ ρ') (hp : ∃ ty, s.Has p ty) (hup : Upright s vars p) :
    I.value s ρ' p = I.value s ρ (g.node n).term := by
  obtain ⟨f, args, hshape, hfunc, hlen, hargs⟩ := h
  refine value_of_args hw htables hg hρ hp hup.1 hshape hfunc hlen fun x hx hlt => ?_
  obtain ⟨ty, hp⟩ := hp
  have hmem := (List.of_mem_zip hx).1
  have hlive := (hw.typed (hshape ▸ hp.node)).live (List.mem_cons_of_mem f hmem)
  exact (hargs x hx).value hw htables hg hρ hvars hreads hlive
    (fun hx => hup.argument hshape hmem hx) hlt

end

/-! ## Instances of patterns -/

/-- The terms of the classes that `b` puts for variables are put for them. -/
def Replaces (g : Egraph) (vars : List Term) (b : Binding) (σ : Subst) : Prop :=
  ∀ x v : Term, σ[x]? = some v ↔ ∃ i r, vars.idxOf? x = some i ∧ Puts b i r ∧
    v = (g.node (g.root r)).term

/-- The variables are no functions, and what is applied are constants. -/
structure Plain (s : Store) (g : Egraph) (vars : List Term) (p : Term) : Prop where
  vars : ∀ v ∈ vars, s.isFunctionTy (s.ty v) = false
  pattern : ∃ ws, s.FirstOrder ws p
  nodes : ∀ n ∈ g.nodes, s.FirstOrder [] n.term

/-- Terms of classes are put for variables of their types. -/
theorem Replaces.typed (h : Replaces g vars b σ) (hg : g.Typed s) (hb : Fits s g vars b)
    {x v : Term}
    (hx : σ[x]? = some v) : x ∈ vars ∧ ∃ n ∈ g.nodes, n.term = v ∧ s.Has x n.ty ∧ s.Has v n.ty := by
  obtain ⟨i, r, hi, hr, rfl⟩ := (h x v).mp hx
  obtain ⟨hlt, heq, -⟩ := List.idxOf?_eq_some_iff.mp hi
  obtain ⟨u, hu, htype⟩ := hb hr
  rw [List.getElem?_eq_getElem hlt, heq] at hu
  cases hu
  obtain ⟨m, hm, hxm⟩ := OfType.root hg htype
  have hnode : g.node (g.root r) = m :=
    Option.some.inj ((getElem?_node (Array.getElem?_eq_some_iff.mp hm).1).symm.trans hm)
  exact ⟨heq ▸ List.getElem_mem hlt, m,
    Array.mem_of_getElem? hm, by rw [hnode], hxm, by rw [hnode]; exact hg.has_node hm⟩

theorem Replaces.substOk (h : Replaces g vars b σ) (hg : g.Typed s) (hb : Fits s g vars b)
    (hplain : Plain s g vars p) (hvars : ∀ v ∈ vars, s.IsVar v) : s.SubstOk σ := by
  intro x v hx
  obtain ⟨hmem, n, hn, rfl, hxn, hvn⟩ := h.typed hg hb hx
  obtain ⟨hneg, ty, k, hvar⟩ := hvars x hmem
  have hty : n.ty = ty := hxn.unique ⟨⟨_, hvar⟩, by simp [hneg]⟩
  refine ⟨hneg, ty, k, .inr hvar, hty ▸ hvn, hplain.nodes n hn, ?_⟩
  have hfun := hplain.vars x hmem
  rwa [hxn.ty_eq, hty] at hfun

/-- A substitution of closed terms for variables is refused for the degree of a product only. -/
theorem subst_replaces (hw : s.Wf) (hreg : s.Regular) (hσ : s.SubstOk σ) (ht : ∃ ty, s.Has t ty) :
    Fares TermError.TooLarge Store.Later s (Store.subst σ t) fun r s' => s'.Replaced σ t r := by
  obtain ⟨ty, ht⟩ := ht
  have hturned := Store.subst_turns hw hreg (Store.carries_none hσ.assigns) ht
  exact ⟨Store.subst_builds hw hσ ht, hturned.cause⟩

/-- Putting the terms of the classes for the variables of a pattern that holds at a node gives a
term of the value of the node's term. -/
theorem HoldsAt.subst (hw : s.Wf) (hreg : s.Regular) (htables : g.Tables) (hg : Ground s g)
    (h : HoldsAt g s vars b p n)
    (hvars : ∀ v ∈ vars, s.IsVar v) (hp : ∃ ty, s.Has p ty) (hup : Upright s vars p)
    (hb : Fits s g vars b) (hplain : Plain s g vars p) (hσ : Replaces g vars b σ) :
    Fares TermError.TooLarge Store.Later s (Store.subst σ p) fun t s' =>
      ∀ (I : Interp) (ρ : I.Env), I.Fits s' →
      I.EnvFits s' ρ → Respects s g ρ → I.value s' ρ t = I.value s ρ (g.node n).term := by
  have hok := hσ.substOk hg.typed hb hplain hvars
  refine (subst_replaces hw hreg hok hp).imp fun t s' hs hreplaced I ρ hI hρ hrespects => ?_
  obtain ⟨ty, hpty⟩ := hp
  obtain ⟨ws, hfirst⟩ := hplain.pattern
  have hI₀ := hI.of_extends hw hs.ext
  have hρ₀ := hρ.of_extends hw hs.ext
  -- the values of the variables after the replacement
  let ρ' : I.Env := fun x => (σ[x]?).elim (ρ x) (I.value s ρ)
  have hput {x v : Term} (hx : σ[x]? = some v) : ρ' x = I.value s ρ v := by simp [ρ', hx]
  have hreads : Reads s g vars b ρ ρ' := fun {v i r} hi hr =>
    hput ((hσ v _).mpr ⟨i, r, hi, hr, rfl⟩)
  have hagrees : s'.Agrees I σ ρ ρ' := by
    refine ⟨fun {x v} hx => ?_, fun {y} _ hy => by simp [ρ', hy]⟩
    obtain ⟨hmem, m, -, -, -, hv⟩ := hσ.typed hg.typed hb hx
    obtain ⟨hneg, tx, k, hvar⟩ := (hs.ext.isVar (hvars x hmem))
    rw [Interp.value_of_extends hw hs.wf hs.ext hv, Interp.value_eq hs.wf hvar, hneg,
      Term.positive_of_not_isNegated hneg]
    exact (hput hx).symm
  have henv : I.EnvFits s' ρ' := by
    intro x tx k hx
    cases hv : σ[x]? with
    | none =>
      show ((σ[x]?).elim (ρ x) (I.value s ρ)).Is s' tx
      rw [hv]
      exact hρ x tx k hx
    | some v =>
      obtain ⟨hmem, m, -, -, hxm, hvm⟩ := hσ.typed hg.typed hb hv
      obtain ⟨shape, hshape⟩ := hw.ty_live hvm
      have hty : m.ty = tx := (hs.ext.has hxm).unique ⟨⟨_, hx⟩, by simp [(hvars x hmem).1]⟩
      rw [hput hv, ← hty, Interp.is_iff hs.ext hshape]
      exact Interp.value_is hw hI₀ hρ₀ hvm
  rw [hreplaced.value (hfirst.extends_ hw hs.ext) hI hρ henv hagrees,
    Interp.value_of_extends hw hs.wf hs.ext hpty]
  exact h.value hw htables hg hrespects hvars hreads ⟨ty, hpty⟩ hup

/-! ## What the matcher finds -/

/-- The matcher finds the bindings that extend one it starts from such that the pattern holds at
a candidate. -/
theorem mem_matchPattern_iff (hw : s.Wf) (htables : g.Tables) (hp : ∃ ty, s.Has p ty)
    {cs : List Nat} {bs : List Binding} (hbs : ∀ b ∈ bs, b.length = vars.length) :
    b' ∈ matchPattern g s vars p cs bs ↔ ∃ b ∈ bs, ∃ n ∈ cs, Binds (Places s vars p) b b' ∧
    HoldsAt g s vars b' p n := by
  obtain ⟨rank, hrank, hbound⟩ := hw.bounded
  obtain ⟨ty, hpty⟩ := hp
  have hlt : rank p.index < s.terms.slots.size := hbound hpty.node
  have hmatch (n : Nat) :=
    (mem_match hw (Egraph.mem_ring_root htables) hrank (2 * s.terms.slots.size + 2)).1 p n bs
    ⟨ty, hpty⟩ (by omega) hbs b'
  unfold matchPattern
  rw [List.mem_flatMap]
  constructor
  · rintro ⟨n, hn, hb'⟩
    obtain ⟨b, hb, hbinds, hat⟩ := (hmatch n).mp hb'
    exact ⟨b, hb, n, hn, hbinds, hat⟩
  · rintro ⟨b, hb, n, hn, hbinds, hat⟩
    exact ⟨n, hn, (hmatch n).mpr ⟨b, hb, hbinds, hat⟩⟩

/-- The matcher finds the bindings that extend one it starts from by classes for the free variables
in argument positions, such that the pattern holds at a candidate. Where neither the pattern nor
what is matched like a pattern is a negation, and the nodes are ground terms, a pattern that holds
at a node has the value of the node's term under the equalities of the e-graph: when the variables
have the values of the terms of their classes, and when these terms are put for them. -/
theorem mem_matchPattern {done : List Literal} {cs : List Nat} {bs : List Binding} (hw : s.Wf)
    (hg : g.Reached done) (hp : ∃ ty, s.Has p ty) (hvars : ∀ v ∈ vars, s.IsVar v)
    (hbs : ∀ b ∈ bs, b.length = vars.length) :
    (∀ b', b' ∈ matchPattern g s vars p cs bs ↔
      ∃ b ∈ bs, ∃ n ∈ cs, Binds (Places s vars p) b b' ∧ HoldsAt g s vars b' p n) ∧
    (Ground s g → Upright s vars p → ∀ b' n, HoldsAt g s vars b' p n →
      (∀ (I : Interp) (ρ ρ' : I.Env), Respects s g ρ → Reads s g vars b' ρ ρ' →
        I.value s ρ' p = I.value s ρ (g.node n).term) ∧
      (s.Regular → Fits s g vars b' → Plain s g vars p → ∀ σ, Replaces g vars b' σ →
        Fares TermError.TooLarge Store.Later s (Store.subst σ p) fun t s' =>
          ∀ (I : Interp) (ρ : I.Env), I.Fits s' →
          I.EnvFits s' ρ → Respects s g ρ → I.value s' ρ t = I.value s ρ (g.node n).term)) := by
  obtain ⟨Ks, hheld⟩ := hg.held Egraph.invariant_counted
  have htables := hheld.follows.merging.tables
  refine ⟨fun b' => ?_, fun hground hup b' n hat =>
    ⟨fun I ρ ρ' hρ hreads => ?_, fun hreg hfits hplain σ hσ => ?_⟩⟩
  · exact mem_matchPattern_iff hw htables hp hbs
  · exact hat.value hw htables hground hρ hvars hreads hp hup
  · exact hat.subst hw hreg htables hground hvars hp hup hfits hplain hσ

/-- A predicate, with its applications to a constant and to a variable. -/
def unary : Store :=
  let s := endState (Store.newSort .empty)
  let s := endState (Store.functionType [⟨1⟩] .bool s)
  let s := endState (Store.newConst ⟨2⟩ s)
  let s := endState (Store.newConst ⟨1⟩ s)
  let s := endState (Store.newVar ⟨1⟩ s)
  let s := endState (Store.app (.ofIndex 2) [.ofIndex 3] s)
  endState (Store.app (.ofIndex 2) [.ofIndex 4] s)

theorem reached_unary : Store.Reached unary := by
  have h₁ := Store.Reached.empty.build .newSort
  have h₂ := h₁.build (.functionType [⟨1⟩] .bool)
  have h₃ := h₂.build (.newConst ⟨2⟩)
  have h₄ := h₃.build (.newConst ⟨1⟩)
  have h₅ := h₄.build (.newVar ⟨1⟩)
  have h₆ := h₅.build (.app (.ofIndex 2) [.ofIndex 3])
  exact h₆.build (.app (.ofIndex 2) [.ofIndex 4])

/-- The constant and the application to it as nodes. -/
def unaryNodes : Egraph :=
  (Egraph.addNode ⟨.ofIndex 5, .bool, some (.ofIndex 2), [2]⟩
    (Egraph.addNode ⟨.ofIndex 3, ⟨1⟩, none, []⟩ .empty).2).2

theorem node_unary : unary.node? (.ofIndex 3) = some (.uninterpreted ⟨1⟩ 1, ⟨1⟩) ∧
    unary.node? (.ofIndex 4) = some (.var ⟨1⟩ 2, ⟨1⟩) ∧
    unary.node? (.ofIndex 5) = some (.app (.ofIndex 2) [.ofIndex 3], .bool) ∧
    unary.node? (.ofIndex 6) = some (.app (.ofIndex 2) [.ofIndex 4], .bool) := by
  refine ⟨?_, ?_, ?_, ?_⟩ <;> cbv

theorem ground_unary : Ground unary unaryNodes := by
  have hw : unary.Wf := reached_unary.intact.wf
  obtain ⟨hconst, -, happ, -⟩ := node_unary
  have hnodes : unaryNodes.nodes = #[⟨.top, .bool, none, []⟩, ⟨.bot, .bool, none, []⟩,
    ⟨.ofIndex 3, ⟨1⟩, none, []⟩,
    ⟨.ofIndex 5, .bool, some (.ofIndex 2), [2]⟩] := rfl
  have hnew {t : Term} (h : t ≠ .top) (h' : t ≠ .bot) : Egraph.empty.nodeOf[t]? = none := by
    simp [Egraph.empty, h, h']
  have hindexed : unaryNodes.Indexed := by
    refine (Egraph.indexed_empty.addNode (hnew (by decide) (by decide))).addNode ?_
    show (Egraph.empty.nodeOf.insert (.ofIndex 3) 2)[Term.ofIndex 5]? = none
    rw [Std.HashMap.getElem?_insert, if_neg (by decide)]
    exact hnew (by decide) (by decide)
  have hshape : unary.shape (.ofIndex 5) = .app (.ofIndex 2) [.ofIndex 3] :=
    Interp.node?_of_shape happ
  have htop : unary.Has .top .bool := ⟨⟨_, hw.truth⟩, fun _ => rfl⟩
  have hlive : ∀ n ∈ unaryNodes.nodes, unary.Has n.term n.ty ∧ unary.isGround n.term = true := by
    rw [hnodes]
    intro n hn
    simp only [List.mem_toArray, List.mem_cons, List.not_mem_nil, or_false] at hn
    rcases hn with rfl | rfl | rfl | rfl
    · exact ⟨htop, by cbv⟩
    · exact ⟨htop.neg, by cbv⟩
    · exact ⟨⟨⟨_, hconst⟩, fun h => by cases h⟩, by cbv⟩
    · exact ⟨⟨⟨_, happ⟩, fun _ => rfl⟩, by cbv⟩
  have happlies {i : Nat} {n : Egraph.Node} (hn : unaryNodes.nodes[i]? = some n) :
      n.Applies unary unaryNodes.nodes i := by
    rw [hnodes] at hn
    obtain ⟨hi, rfl⟩ := Array.getElem?_eq_some_iff.mp hn
    have hlt : i = 0 ∨ i = 1 ∨ i = 2 ∨ i = 3 := by simp at hi; omega
    rcases hlt with rfl | rfl | rfl | rfl
    · exact ⟨fun {_} h => (by cases h), fun _ => rfl, fun h => (by cases h)⟩
    · exact ⟨fun {_} h => (by cases h), fun _ => rfl, fun h => (by cases h)⟩
    · exact ⟨fun {_} h => (by cases h), fun _ => rfl, fun h => (by cases h)⟩
    · refine ⟨fun {_} h => ?_, fun h => (by cases h), fun _ => (by simp)⟩
      cases h
      exact ⟨_, hshape, .cons ⟨by decide, rfl⟩ .nil⟩
  have hatoms (v : Nat) : unaryNodes.atoms[v]? = none := Std.HashMap.getElem?_empty
  refine ⟨⟨hindexed, by decide, happlies, fun {v a} hv => ?_⟩,
    ⟨fun {i n} hn => ?_, fun i hi => ?_, fun mark hmark => ?_,
    .empty _⟩, fun n hn => (hlive n hn).2⟩
  · rw [hatoms] at hv
    cases hv
  · obtain ⟨hhas, -⟩ := hlive n (Array.mem_of_getElem? hn)
    exact ⟨⟨hhas.ty_eq.symm, (happlies hn).app, (happlies hn).leaf⟩, n.ty, hhas⟩
  · have hlt : i = 0 ∨ i = 1 := by omega
    rcases hlt with rfl | rfl
    · exact ⟨_, rfl, rfl, rfl⟩
    · exact ⟨_, rfl, rfl, rfl⟩
  · obtain rfl := List.mem_singleton.mp hmark
    refine ⟨by decide, fun {v a} ha => ?_⟩
    have hnone : (unaryNodes.upTo unaryNodes.sizes).2 v = none := by
      simp [Egraph.upTo, Entail.upTo, hatoms]
    cases hnone.symm.trans ha

/-- The application to a variable matches the application to the constant, and has its value when
the variable has the value of the constant. -/
theorem mem_matchPattern_unary :
    unary.Wf ∧ unaryNodes.Reached [] ∧ (∃ ty, unary.Has (.ofIndex 6) ty) ∧
    (∀ v ∈ [Term.ofIndex 4], unary.IsVar v) ∧
      (∀ b ∈ ([[none]] : List Binding), b.length = [Term.ofIndex 4].length) ∧
      [some 2] ∈ matchPattern unaryNodes unary [.ofIndex 4] (.ofIndex 6) [3] [[none]] ∧
      ∀ (I : Interp) (ρ ρ' : I.Env), Respects unary unaryNodes ρ →
      Reads unary unaryNodes [.ofIndex 4] [some 2] ρ ρ' →
        I.value unary ρ' (.ofIndex 6) = I.value unary ρ (.ofIndex 5) := by
  have hw : unary.Wf := reached_unary.intact.wf
  obtain ⟨-, hvar, -, happ⟩ := node_unary
  have hempty : Egraph.empty.Wf := (Egraph.ofTerms_empty unary).wf hw
  have hreached : unaryNodes.Reached [] := by
    refine .grow (.clear hempty) ⟨ground_unary.terms.wf hw, ⟨_, rfl⟩, fun l hl => ?_, rfl⟩
    exact absurd hl (Array.not_mem_empty l)
  have hp : ∃ ty, unary.Has (.ofIndex 6) ty := ⟨.bool, ⟨_, happ⟩, fun _ => rfl⟩
  have hvars : ∀ v ∈ [Term.ofIndex 4], unary.IsVar v := by
    intro v hv
    obtain rfl := List.mem_singleton.mp hv
    exact ⟨rfl, _, _, hvar⟩
  have hlen : ∀ b ∈ ([[none]] : List Binding), b.length = [Term.ofIndex 4].length := by decide
  have hshape : unary.shape (.ofIndex 6) = .app (.ofIndex 2) [.ofIndex 4] :=
    Interp.node?_of_shape happ
  have hzero : [Term.ofIndex 4].idxOf? (.ofIndex 4) = some 0 := rfl
  have hnot : ¬ Nested unary [.ofIndex 4] (.ofIndex 4) := fun h => by cases hzero.symm.trans h.1
  have hat : HoldsAt unaryNodes unary [.ofIndex 4] [some 2] (.ofIndex 6) 3 := by
    refine ⟨_, _, hshape, rfl, rfl, fun x hx => ?_⟩
    obtain rfl : x = (.ofIndex 4, 2) := List.mem_singleton.mp hx
    exact .var hzero rfl
  have hbinds : Binds (Places unary [.ofIndex 4] (.ofIndex 6)) [none] [some 2] := by
    refine ⟨rfl, fun {i r} hi => ?_, fun {i} hi => ?_⟩
    · obtain rfl : i = 0 := Nat.lt_one_iff.mp hi.lt
      cases hi
    · obtain rfl : i = 0 := Nat.lt_one_iff.mp hi
      exact iff_of_true ⟨2, rfl⟩ (.inr ⟨_, .direct hshape List.mem_cons_self, hzero⟩)
  have hup : Upright unary [.ofIndex 4] (.ofIndex 6) := by
    refine ⟨rfl, fun u hu hnested => ?_⟩
    cases hu with
    | direct hshape' hu =>
      cases hshape.symm.trans hshape'
      obtain rfl := List.mem_singleton.mp hu
      exact absurd hnested hnot
    | nested hshape' hu hnested' =>
      cases hshape.symm.trans hshape'
      obtain rfl := List.mem_singleton.mp hu
      exact absurd hnested' hnot
  obtain ⟨hfinds, hvalues⟩ := @mem_matchPattern _ _ _ _ _ [3] _ hw hreached hp hvars hlen
  refine ⟨hw, hreached, hp, hvars, hlen, ?_, (hvalues ground_unary hup [some 2] 3 hat).1⟩
  exact (hfinds [some 2]).mpr ⟨[none], List.mem_singleton_self _, 3, List.mem_singleton_self _,
    hbinds, hat⟩

end Quant
end Entail
