import Entail.Proofs.Search.Clauses
import Mathlib.Data.List.Sort

/-!
# What the clauses of a core mean

A core is given clauses with scopes, its *inputs*. What it holds of them follows from them, each
thing from the inputs of its own scope and the scopes around it; and it holds enough for an
assignment that satisfies what is held to satisfy the inputs. Both facts last while clauses are
added, learned, dropped with their scopes and moved to other scopes.
-/

namespace Entail

namespace Literal

variable {l k : Literal} {ls : List Literal}

/-! ## Literals -/

theorem ext_of_var (hvar : k.var = l.var) (hsign : k.isNegated = l.isNegated) : k = l := by
  obtain ⟨m⟩ := k
  obtain ⟨n⟩ := l
  have hm : m % 2 = 0 ∨ m % 2 = 1 := by omega
  have hn : n % 2 = 0 ∨ n % 2 = 1 := by omega
  simp only [isNegated] at hsign
  simp only [var] at hvar
  rw [mk.injEq]
  rcases hm with hm | hm <;> rcases hn with hn | hn <;> simp [hm, hn] at hsign <;> omega

theorem neg_ne (l : Literal) : l.neg ≠ l := by
  intro h
  have hsign := congrArg isNegated h
  simp at hsign

theorem neg_inj : k.neg = l.neg ↔ k = l := by
  constructor
  · intro h
    rw [← neg_neg k, h, neg_neg]
  · intro h
    rw [h]

/-- There are two literals of a variable. -/
theorem eq_or_eq_neg (hvar : k.var = l.var) : k = l ∨ k = l.neg := by
  by_cases hsign : k.isNegated = l.isNegated
  · exact .inl (ext_of_var hvar hsign)
  · apply Or.inr
    apply ext_of_var
    · rw [hvar, var_neg]
    · rw [isNegated_neg]
      exact Bool.eq_not_of_ne hsign

theorem code_inj (h : k.code = l.code) : k = l := by
  cases k
  cases l
  exact congrArg mk h

theorem mem_dedup : l ∈ dedup ls ↔ l ∈ ls := by
  fun_induction dedup ls with
  | case1 a rest ih => simp [ih]
  | case2 a b rest hne ih => simp [ih]
  | case3 => rfl

/-- Normalizing keeps the literals. -/
theorem mem_normalize : l ∈ normalize ls ↔ l ∈ ls := by
  unfold normalize
  rw [mem_dedup]
  exact (List.mergeSort_perm ls le).mem_iff

theorem nodup_dedup (h : ls.Pairwise fun a b => a.code ≤ b.code) :
    (dedup ls).Pairwise fun a b => a.code < b.code := by
  fun_induction dedup ls with
  | case1 a rest ih => exact ih (List.pairwise_cons.mp h).2
  | case2 a b rest hne ih =>
    obtain ⟨hhead, htail⟩ := List.pairwise_cons.mp h
    refine List.pairwise_cons.mpr ⟨?_, ih htail⟩
    intro c hc
    have hab : a.code ≤ b.code := hhead b List.mem_cons_self
    have hne' : a.code ≠ b.code := fun he => hne (code_inj he)
    have hbc : b.code ≤ c.code := by
      rcases List.mem_cons.mp (mem_dedup.mp hc) with rfl | hrest
      · exact Nat.le_refl _
      · exact (List.pairwise_cons.mp htail).1 c hrest
    omega
  | case3 ls hshort =>
    cases ls with
    | nil => exact List.Pairwise.nil
    | cons a rest =>
      cases rest with
      | nil => exact List.pairwise_singleton _ _
      | cons b rest => exact absurd rfl (hshort a b rest)

/-- Normalizing leaves no repetitions. -/
theorem nodup_normalize (ls : List Literal) : (normalize ls).Nodup := by
  have hsorted : (ls.mergeSort le).Pairwise fun a b => a.code ≤ b.code := by
    have htrans : ∀ a b c, le a b = true → le b c = true → le a c = true := by
      intro a b c hab hbc
      simp only [le, decide_eq_true_eq] at *
      omega
    have htotal : ∀ a b, (le a b || le b a) = true := by
      intro a b
      simp only [le, Bool.or_eq_true, decide_eq_true_eq]
      omega
    exact (List.pairwise_mergeSort htrans htotal ls).imp fun hab => by simpa [le] using hab
  exact (nodup_dedup hsorted).imp fun hab he => absurd (congrArg code he) (Nat.ne_of_lt hab)

theorem exists_of_hasComplement (h : hasComplement ls = true) : ∃ l ∈ ls, l.neg ∈ ls := by
  fun_induction hasComplement ls with
  | case1 a b rest ih =>
    rcases Bool.or_eq_true_iff.mp h with hab | hrest
    · exact ⟨a, List.mem_cons_self, by rw [eq_of_beq hab]; simp⟩
    · obtain ⟨l, hl, hneg⟩ := ih hrest
      exact ⟨l, List.mem_cons_of_mem _ hl, List.mem_cons_of_mem _ hneg⟩
  | case2 => cases h

/-- A literal is true in a valuation of the variables. -/
def Holds (a : Nat → Bool) (l : Literal) : Prop := a l.var = !l.isNegated

variable {a : Nat → Bool}

theorem holds_neg : l.neg.Holds a ↔ ¬ l.Holds a := by
  unfold Holds
  rw [var_neg, isNegated_neg]
  cases a l.var <;> cases l.isNegated <;> simp

end Literal

namespace Search

/-- A clause with its scope, as it was given. -/
abbrev Input := List Literal × Nat

/-- A valuation satisfies clauses. -/
def Satisfies (a : Nat → Bool) (ins : List Input) : Prop := ∀ x ∈ ins, ∃ l ∈ x.1, l.Holds a

/-- The inputs of the scopes up to `depth`. -/
def within (depth : Nat) (ins : List Input) : List Input := ins.filter (·.2 ≤ depth)

/-- The inputs when deeper scopes are moved into the scope `depth`. -/
def lift (depth : Nat) (ins : List Input) : List Input := ins.map fun x => (x.1, min x.2 depth)

variable {a : Nat → Bool} {ins : List Input} {depth : Nat}

theorem mem_within {x : Input} : x ∈ within depth ins ↔ x ∈ ins ∧ x.2 ≤ depth := by
  unfold within
  rw [List.mem_filter]
  simp

theorem Satisfies.within (h : Satisfies a ins) (depth : Nat) : Satisfies a (within depth ins) :=
  fun x hx => h x (mem_within.mp hx).1

theorem Satisfies.mono {j k : Nat} (h : Satisfies a (Search.within k ins)) (hjk : j ≤ k) :
    Satisfies a (Search.within j ins) := by
  intro x hx
  obtain ⟨hmem, hle⟩ := mem_within.mp hx
  exact h x (mem_within.mpr ⟨hmem, Nat.le_trans hle hjk⟩)

namespace Database

variable {d e : Database} {scope : Nat}

/-! ## Models -/

/-- A valuation satisfies everything that is held. -/
structure Models (a : Nat → Bool) (d : Database) : Prop where
  clause : ∀ {n cl}, d.clause? n = some cl → ∃ l ∈ cl.1, l.Holds a
  unit : ∀ {u}, u ∈ d.units → u.1.Holds a
  empty : d.empty = none

/-- A valuation satisfies the clauses and the units. -/
structure Obeys (a : Nat → Bool) (d : Database) : Prop where
  clause : ∀ {n cl}, d.clause? n = some cl → ∃ l ∈ cl.1, l.Holds a
  unit : ∀ {u}, u ∈ d.units → u.1.Holds a

theorem Models.obeys {a : Nat → Bool} (h : d.Models a) : d.Obeys a := ⟨h.clause, h.unit⟩

/-- What is held follows from the inputs of its scope. -/
structure Sound (ins : List Input) (d : Database) : Prop where
  clause : ∀ {n cl}, d.clause? n = some cl → ∀ {a}, Satisfies a (within cl.2.1 ins) →
    ∃ l ∈ cl.1, l.Holds a
  unit : ∀ {u}, u ∈ d.units → ∀ {a}, Satisfies a (within u.2 ins) → u.1.Holds a
  empty : ∀ {k}, d.empty = some k → ∀ {a}, ¬ Satisfies a (within k ins)

/-- Something is held that says at least as much as the input. -/
def Holding (d : Database) (x : Input) : Prop :=
  (∃ n cl, d.clause? n = some cl ∧ cl.2.1 ≤ x.2 ∧ ∀ l ∈ cl.1, l ∈ x.1) ∨
    (∃ u ∈ d.units, u.2 ≤ x.2 ∧ u.1 ∈ x.1) ∨ ∃ k, d.empty = some k ∧ k ≤ x.2

/-- For each input something is held, unless the input says nothing. -/
def Covers (ins : List Input) (d : Database) : Prop :=
  ∀ x ∈ ins, (∃ l ∈ x.1, l.neg ∈ x.1) ∨ d.Holding x

/-- A valuation of the inputs satisfies what is held in scopes that do not go deeper. -/
theorem Sound.models (h : d.Sound ins) (hclause : ∀ {n cl}, d.clause? n = some cl → cl.2.1 ≤ depth)
    (hunit : ∀ {u}, u ∈ d.units → u.2 ≤ depth) (hempty : ∀ {k}, d.empty = some k → k ≤ depth)
    (ha : Satisfies a (within depth ins)) : d.Models a where
  clause hcl := h.clause hcl (ha.mono (hclause hcl))
  unit hu := h.unit hu (ha.mono (hunit hu))
  empty := by
    cases hk : d.empty with
    | none => rfl
    | some k => exact absurd (ha.mono (hempty hk)) (h.empty hk)

/-- A valuation of all inputs satisfies everything that is held. -/
theorem Sound.models_of_satisfies (h : d.Sound ins) (ha : Satisfies a ins) : d.Models a where
  clause hcl := h.clause hcl (ha.within _)
  unit hu := h.unit hu (ha.within _)
  empty := by
    cases hk : d.empty with
    | none => rfl
    | some k => exact absurd (ha.within k) (h.empty hk)

/-! ## More inputs -/

theorem Sound.append (h : d.Sound ins) (more : List Input) : d.Sound (ins ++ more) := by
  have hsub {k : Nat} {a : Nat → Bool} (ha : Satisfies a (within k (ins ++ more))) :
      Satisfies a (within k ins) := by
    intro x hx
    obtain ⟨hmem, hle⟩ := mem_within.mp hx
    exact ha x (mem_within.mpr ⟨List.mem_append_left _ hmem, hle⟩)
  exact ⟨fun hcl _ ha => h.clause hcl (hsub ha), fun hu _ ha => h.unit hu (hsub ha), fun hk _ ha =>
    h.empty hk (hsub ha)⟩

/-! ## More clauses -/

theorem units_store (d : Database) (cl : Content) : (d.store cl).units = d.units := by
  unfold store
  split <;> rfl

theorem empty_store (d : Database) (cl : Content) : (d.store cl).empty = d.empty := by
  unfold store
  split <;> rfl

theorem Sound.store (h : d.Sound ins) (hok : d.Ok depth) {cl : Content}
    (hcl : ∀ {a}, Satisfies a (within cl.2.1 ins) → ∃ l ∈ cl.1, l.Holds a) :
    (d.store cl).Sound ins := by
  obtain ⟨n, -, hclause⟩ := clause?_store hok cl
  refine ⟨?_, ?_, ?_⟩
  · intro m cl' hm a ha
    rw [hclause] at hm
    split at hm
    · cases hm
      exact hcl ha
    · exact h.clause hm ha
  · intro u hu a ha
    rw [units_store] at hu
    exact h.unit hu ha
  · intro k hk a ha
    rw [empty_store] at hk
    exact h.empty hk ha

theorem Sound.addUnit (h : d.Sound ins) {l : Literal}
    (hl : ∀ {a}, Satisfies a (within scope ins) → l.Holds a) :
    (d.addUnit l scope).Sound ins where
  clause := h.clause
  empty := h.empty
  unit hu _ ha := by
    rcases Array.mem_push.mp hu with hu | rfl
    · exact h.unit hu ha
    · exact hl ha

theorem Sound.addEmpty (h : d.Sound ins) (hempty : ∀ {a}, ¬ Satisfies a (within scope ins)) :
    (d.addEmpty scope).Sound ins where
  clause := h.clause
  unit := h.unit
  empty {k} hk a ha := by
    cases he : d.empty with
    | none =>
      simp [Database.addEmpty, he] at hk
      rw [← hk] at ha
      exact hempty ha
    | some m =>
      simp only [Database.addEmpty, he, Option.map_some, Option.getD_some, Option.some.injEq] at hk
      have hcases : k = scope ∨ k = m := by omega
      rcases hcases with rfl | rfl
      · exact hempty ha
      · exact h.empty he ha

/-- What is held for inputs stays when there is more. -/
theorem Holding.mono {x : Input} (h : d.Holding x)
    (hclause : ∀ {n cl}, d.clause? n = some cl → e.clause? n = some cl)
    (hunit : ∀ {u}, u ∈ d.units → u ∈ e.units)
    (hempty : ∀ {k}, d.empty = some k → ∃ j, e.empty = some j ∧ j ≤ k) : e.Holding x := by
  rcases h with ⟨n, cl, hn, hle, hsub⟩ | ⟨u, hu, hle, hmem⟩ | ⟨k, hk, hle⟩
  · exact .inl ⟨n, cl, hclause hn, hle, hsub⟩
  · exact .inr (.inl ⟨u, hunit hu, hle, hmem⟩)
  · obtain ⟨j, hj, hjk⟩ := hempty hk
    exact .inr (.inr ⟨j, hj, Nat.le_trans hjk hle⟩)

theorem Holding.store {x : Input} (h : d.Holding x) (hok : d.Ok depth) (cl : Content) :
    (d.store cl).Holding x := by
  obtain ⟨n, hn, hclause⟩ := clause?_store hok cl
  apply h.mono
  · intro m cl' hm
    have hne : m ≠ n := by
      intro he
      rw [he, hn] at hm
      cases hm
    rw [hclause, if_neg hne]
    exact hm
  · intro u hu
    rw [units_store]
    exact hu
  · intro k hk
    exact ⟨k, by rw [empty_store, hk], Nat.le_refl k⟩

theorem Holding.addUnit {x : Input} (h : d.Holding x) (l : Literal) (scope : Nat) :
    (d.addUnit l scope).Holding x := by
  apply h.mono
  · exact id
  · exact fun hu => Array.mem_push.mpr (.inl hu)
  · exact fun {k} hk => ⟨k, hk, Nat.le_refl k⟩

theorem Holding.addEmpty {x : Input} (h : d.Holding x) (scope : Nat) :
    (d.addEmpty scope).Holding x := by
  apply h.mono
  · exact id
  · exact id
  · intro k hk
    refine ⟨min scope k, ?_, Nat.min_le_right _ _⟩
    simp [Database.addEmpty, hk]

/-- Adding a clause keeps what is held, and holds the clause. -/
theorem add_spec (hsound : d.Sound ins) (hcovers : d.Covers ins) (hok : d.Ok depth)
    (lits : List Literal) (scope : Nat) :
    (d.add lits scope).Sound (ins ++ [(lits, scope)]) ∧
    (d.add lits scope).Covers (ins ++ [(lits, scope)]) := by
  -- the new input is satisfied by any valuation of the inputs of its scope
  have hnew {a : Nat → Bool} (ha : Satisfies a (within scope (ins ++ [(lits, scope)]))) :
      ∃ l ∈ Literal.normalize lits, l.Holds a := by
    have hmem : (lits, scope) ∈ within scope (ins ++ [(lits, scope)]) :=
      mem_within.mpr ⟨List.mem_append_right _ List.mem_cons_self, Nat.le_refl scope⟩
    obtain ⟨l, hl, hholds⟩ := ha _ hmem
    exact ⟨l, Literal.mem_normalize.mpr hl, hholds⟩
  have hmore := hsound.append [(lits, scope)]
  have hold {e : Database} (hkept : ∀ {x}, d.Holding x → e.Holding x)
      (hlast : (∃ l ∈ lits, l.neg ∈ lits) ∨ e.Holding (lits, scope)) :
      e.Covers (ins ++ [(lits, scope)]) := by
    intro x hx
    rcases List.mem_append.mp hx with hx | hx
    · exact (hcovers x hx).imp_right hkept
    · cases List.mem_singleton.mp hx
      exact hlast
  unfold add
  by_cases hcomplement : Literal.hasComplement (Literal.normalize lits) = true
  · simp only [hcomplement, if_true]
    refine ⟨hmore, hold id (.inl ?_)⟩
    obtain ⟨l, hl, hneg⟩ := Literal.exists_of_hasComplement hcomplement
    exact ⟨l, Literal.mem_normalize.mp hl, Literal.mem_normalize.mp hneg⟩
  · simp only [hcomplement]
    have hsub : ∀ l ∈ Literal.normalize lits, l ∈ lits := fun l hl => Literal.mem_normalize.mp hl
    generalize Literal.normalize lits = ls at hnew hsub
    match ls with
    | [] =>
      have hempty {a : Nat → Bool} : ¬ Satisfies a (within scope (ins ++ [(lits, scope)])) := by
        intro ha
        obtain ⟨l, hl, -⟩ := hnew ha
        cases hl
      refine ⟨hmore.addEmpty hempty, hold (fun h => h.addEmpty scope) (.inr (.inr (.inr ?_)))⟩
      refine ⟨_, rfl, ?_⟩
      cases d.empty with
      | none => exact Nat.le_refl scope
      | some k => exact Nat.min_le_left scope k
    | [l] =>
      have hunit {a : Nat → Bool} (ha : Satisfies a (within scope (ins ++ [(lits, scope)]))) :
          l.Holds a := by
        obtain ⟨k, hk, hholds⟩ := hnew ha
        rwa [List.mem_singleton.mp hk] at hholds
      refine ⟨hmore.addUnit hunit, hold (fun h => h.addUnit l scope) (.inr (.inr (.inl ?_)))⟩
      exact ⟨(l, scope), Array.mem_push.mpr (.inr rfl), Nat.le_refl scope,
        hsub l List.mem_cons_self⟩
    | first :: second :: rest =>
      obtain ⟨n, -, hclause⟩ := clause?_store hok (↑(first :: second :: rest), scope, false)
      refine ⟨hmore.store hok fun ha => ?_, hold (fun h => h.store hok _) (.inr (.inl ?_))⟩
      · obtain ⟨l, hl, hholds⟩ := hnew ha
        exact ⟨l, Multiset.mem_coe.mpr hl, hholds⟩
      · refine ⟨n, _, (hclause n).trans (if_pos rfl), Nat.le_refl scope, ?_⟩
        intro l hl
        exact hsub l (Multiset.mem_coe.mp hl)

/-! ## Dropping and merging scopes -/

/-- What is left of the scopes up to `depth` is sound and enough for the inputs of these scopes. -/
theorem within_spec (hsound : d.Sound ins) (hcovers : d.Covers ins)
    (hclause : ∀ n, e.clause? n = (d.clause? n).filter (·.2.1 ≤ depth))
    (hunits : e.units.toList = d.units.toList.filter (·.2 ≤ depth))
    (hempty : e.empty = d.empty.filter (· ≤ depth)) :
    e.Sound (within depth ins) ∧ e.Covers (within depth ins) := by
  have hwithin {k : Nat} {a : Nat → Bool} (hk : k ≤ depth)
    (ha : Satisfies a (within k (within depth ins))) :
      Satisfies a (within k ins) := by
    intro x hx
    obtain ⟨hmem, hle⟩ := mem_within.mp hx
    exact ha x (mem_within.mpr ⟨mem_within.mpr ⟨hmem, Nat.le_trans hle hk⟩, hle⟩)
  have hmemUnit {u : Literal × Nat} : u ∈ e.units ↔ u ∈ d.units ∧ u.2 ≤ depth := by
    rw [← Array.mem_toList_iff, hunits, List.mem_filter, Array.mem_toList_iff]
    simp
  refine ⟨⟨?_, ?_, ?_⟩, ?_⟩
  · intro n cl hn a ha
    rw [hclause, Option.filter_eq_some_iff] at hn
    have hle : cl.2.1 ≤ depth := by simpa using hn.2
    exact hsound.clause hn.1 (hwithin hle ha)
  · intro u hu a ha
    obtain ⟨hu, hle⟩ := hmemUnit.mp hu
    exact hsound.unit hu (hwithin hle ha)
  · intro k hk a ha
    rw [hempty, Option.filter_eq_some_iff] at hk
    have hle : k ≤ depth := by simpa using hk.2
    exact hsound.empty hk.1 (hwithin hle ha)
  · intro x hx
    obtain ⟨hmem, hdepth⟩ := mem_within.mp hx
    refine (hcovers x hmem).imp_right fun h => ?_
    rcases h with ⟨n, cl, hn, hle, hsub⟩ | ⟨u, hu, hle, hmem⟩ | ⟨k, hk, hle⟩
    · refine .inl ⟨n, cl, ?_, hle, hsub⟩
      rw [hclause, hn, Option.filter_some, if_pos (by simpa using Nat.le_trans hle hdepth)]
    · exact .inr (.inl ⟨u, hmemUnit.mpr ⟨hu, Nat.le_trans hle hdepth⟩, hle, hmem⟩)
    · refine .inr (.inr ⟨k, ?_, hle⟩)
      rw [hempty, hk, Option.filter_some, if_pos (by simpa using Nat.le_trans hle hdepth)]

theorem clause?_merge (d : Database) (depth n : Nat) :
    (d.merge depth).clause? n = (d.clause? n).map fun cl => (cl.1, min cl.2.1 depth, cl.2.2) := by
  unfold clause? merge
  rw [Array.getElem?_map]
  rcases d.clauses[n]? with _ | _ | _ <;> rfl

/-- Moving deeper scopes into the scope `depth` keeps what is held sound and enough. -/
theorem merge_sound (hsound : d.Sound ins) (hcovers : d.Covers ins) (depth : Nat) :
    (d.merge depth).Sound (lift depth ins) ∧ (d.merge depth).Covers (lift depth ins) := by
  have hlift {k : Nat} {a : Nat → Bool} (ha : Satisfies a (within (min k depth) (lift depth ins))) :
      Satisfies a (within k ins) := by
    intro x hx
    obtain ⟨hmem, hle⟩ := mem_within.mp hx
    have hmem' : (x.1, min x.2 depth) ∈ lift depth ins := List.mem_map.mpr ⟨x, hmem, rfl⟩
    have hle' : min x.2 depth ≤ min k depth := by omega
    exact ha (x.1, min x.2 depth) (mem_within.mpr ⟨hmem', hle'⟩)
  refine ⟨⟨?_, ?_, ?_⟩, ?_⟩
  · intro n cl hn a ha
    rw [clause?_merge] at hn
    obtain ⟨cl', hcl', rfl⟩ := Option.map_eq_some_iff.mp hn
    exact hsound.clause hcl' (hlift ha)
  · intro u hu a ha
    obtain ⟨v, hv, rfl⟩ := Array.mem_map.mp hu
    exact hsound.unit hv (hlift ha)
  · intro k hk a ha
    obtain ⟨m, hm, rfl⟩ := Option.map_eq_some_iff.mp hk
    rw [Nat.min_comm] at ha
    exact hsound.empty hm (hlift ha)
  · intro x hx
    obtain ⟨y, hy, rfl⟩ := List.mem_map.mp hx
    refine (hcovers y hy).imp_right fun h => ?_
    rcases h with ⟨n, cl, hn, hle, hsub⟩ | ⟨u, hu, hle, hmem⟩ | ⟨k, hk, hle⟩
    · refine .inl ⟨n, (cl.1, min cl.2.1 depth, cl.2.2), ?_,
        show min cl.2.1 depth ≤ min y.2 depth by omega, hsub⟩
      rw [clause?_merge, hn]
      rfl
    · refine .inr (.inl ⟨(u.1, min u.2 depth), Array.mem_map.mpr ⟨u, hu, rfl⟩, ?_, hmem⟩)
      show min u.2 depth ≤ min y.2 depth
      omega
    · refine .inr (.inr ⟨min depth k, by rw [merge, hk]; rfl, ?_⟩)
      show min depth k ≤ min y.2 depth
      omega

/-! ## Learning -/

/-- A clause that holds whenever everything that is held does may be learned in a scope that is
deep enough. -/
theorem learn_sound (hsound : d.Sound ins)
    (hclause : ∀ {n cl}, d.clause? n = some cl → cl.2.1 ≤ scope)
    (hunit : ∀ {u}, u ∈ d.units → u.2 ≤ scope) (hempty : d.empty = none) {lits : List Literal}
    (hlits : ∀ {a}, d.Models a → ∃ l ∈ lits, l.Holds a) {a : Nat → Bool}
    (ha : Satisfies a (within scope ins)) :
    ∃ l ∈ lits, l.Holds a := by
  apply hlits
  apply hsound.models hclause hunit _ ha
  intro k hk
  rw [hempty] at hk
  cases hk

end Database
end Search

end Entail
