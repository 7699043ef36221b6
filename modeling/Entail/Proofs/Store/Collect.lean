import Entail.Proofs.Names
import Entail.Proofs.Store.Build
import Entail.Proofs.Store.Marking
import Entail.Proofs.Store.Orderly
import Entail.Proofs.Tables

/-!
# What a collection keeps

A collection keeps the terms that its roots reach along parts, and the types of those terms with
what the types are made of. Handles that are kept stand for the same as before, and what is kept is
well-formed again.
-/

namespace Entail.Store

/-- The term in slot `i` has a part in slot `j`. -/
def Child (s : Store) (i j : Nat) : Prop :=
  ∃ shape ty c, s.terms.get? i = some (shape, ty) ∧ c ∈ shape.children ∧ c.index = j

/-- The live type `ty` mentions the type `part`. -/
def Component (s : Store) (ty part : Ty) : Prop :=
  ∃ shape, s.tyShape? ty = some shape ∧ part ∈ shape.parts

section Needed

variable (s : Store) (roots : List Term) (tyRoots : List Ty) (keepNamed : Bool)

/-- A collection starts from the truth constant, from the valid terms given to it, from everything
with a reference and, on demand, from everything with a name. -/
def IsRoot (t : Term) : Prop :=
  t = .top ∨ (t ∈ roots ∧ s.isValid t = true) ∨ 0 < s.refcount t ∨
    (keepNamed = true ∧ s.termNames.Bears t)

/-- The term in slot `i` is reached from a root. -/
def Needed (i : Nat) : Prop :=
  ∃ t, s.IsRoot roots keepNamed t ∧ Relation.ReflTransGen s.Child t.index i

/-- Types that a collection starts from: the boolean type and the types of the terms it keeps, and
then as for terms. -/
def IsTypeRoot (ty : Ty) : Prop :=
  ty = .bool ∨ (∃ i shape, s.terms.get? i = some (shape, ty) ∧ s.Needed roots keepNamed i) ∨
    (ty ∈ tyRoots ∧ s.isValidTy ty = true) ∨ 0 < s.refcountTy ty ∨
      (keepNamed = true ∧ s.typeNames.Bears ty)

/-- The type is reached from a root. -/
def NeededTy (ty : Ty) : Prop :=
  ∃ root, s.IsTypeRoot roots tyRoots keepNamed root ∧ Relation.ReflTransGen s.Component root ty

end Needed

/-- The term was in `s` and is not in `s'`. -/
def deleted (s s' : Store) (t : Term) : Bool := s.terms.isLive t.index && !s'.terms.isLive t.index

/-- The type was in `s` and is not in `s'`. -/
def deletedTy (s s' : Store) (ty : Ty) : Bool := s.isValidTy ty && !s'.isValidTy ty

/-- What a collection that answers `counts` makes of `s`. -/
structure Collected (s : Store) (roots : List Term) (tyRoots : List Ty) (keepNamed : Bool)
    (counts : Nat × Nat)
    (s' : Store) : Prop where
  /-- What is needed stays in its slot with its shape and its type; all other slots are empty. -/
  terms : ∀ {i n}, s'.terms.get? i = some n ↔ s.terms.get? i = some n ∧ s.Needed roots keepNamed i
  types : ∀ {ty shape}, s'.tyShape? ty = some shape ↔ s.tyShape? ty = some shape ∧
    s.NeededTy roots tyRoots keepNamed ty
  refcount : ∀ t, s'.refcount t = s.refcount t
  refcountTy : ∀ ty, s'.refcountTy ty = s.refcountTy ty
  stack : ∀ name, s'.termNames.stack name = (s.termNames.stack name).filter fun t => !s.deleted s' t
  nameOf : ∀ t, s'.termNames.nameOf? t = if s.deleted s' t then none else s.termNames.nameOf? t
  stackTy : ∀ name, s'.typeNames.stack name = (s.typeNames.stack name).filter fun ty =>
    !s.deletedTy s' ty
  nameOfTy : ∀ ty, s'.typeNames.nameOf? ty = if s.deletedTy s' ty then none
    else s.typeNames.nameOf? ty
  numTerms : counts.1 = (List.range s.terms.slots.size).countP fun i => s.deleted s' (.ofIndex i)
  numTypes : counts.2 = (List.range s.types.slots.size).countP fun i => s.deletedTy s' ⟨i⟩

/-- No count of a table is zero. -/
def Positive {κ : Type} [BEq κ] [Hashable κ] (counts : Std.HashMap κ Nat) : Prop :=
  ∀ ⦃k : κ⦄ ⦃n : Nat⦄, counts[k]? = some n → 0 < n

/-- A well-formed store whose reference counts are positive, with nothing irregular in it. -/
structure Intact (s : Store) : Prop where
  wf : s.Wf
  termRefs : Positive s.termRefs
  typeRefs : Positive s.typeRefs
  regular : s.Regular

variable {s s' : Store} {roots : List Term} {tyRoots : List Ty} {keepNamed : Bool}

theorem isValidTy_iff {ty : Ty} : s.isValidTy ty = true ↔ ∃ shape, s.tyShape? ty = some shape := by
  unfold isValidTy tyShape?
  rw [Arena.isLive_iff]
  simp

/-! ## Reaching terms -/

/-- The parts that the walk sees are children, without their signs. -/
theorem child_of_mem_partsOf {t u : Term} (h : u ∈ s.partsOf t) :
    s.Child t.index u.index ∧ u.isNegated = false ∧ t.isNegated = false := by
  unfold partsOf at h
  split at h
  · cases h
  next hneg =>
    obtain ⟨c, hc, rfl⟩ := List.mem_map.mp h
    rw [List.mem_reverse] at hc
    refine ⟨?_, Term.isNegated_positive c, by simpa using hneg⟩
    cases hn : s.node? t with
    | none => simp [shape, shape?, hn, Term.Shape.children] at hc
    | some n =>
      refine ⟨n.1, n.2, c, hn, ?_, (Term.index_positive c).symm⟩
      simpa [shape, shape?, hn] using hc

/-- The walk sees every child. -/
theorem mem_partsOf_of_child {i j : Nat} (h : s.Child i j) :
    Term.ofIndex j ∈ s.partsOf (.ofIndex i) := by
  obtain ⟨shape, ty, c, hi, hc, rfl⟩ := h
  have hshape : s.shape (.ofIndex i) = shape := by simp [Store.shape, shape?, node?, hi]
  rw [partsOf, if_neg (by simp), hshape]
  exact List.mem_map.mpr ⟨c, List.mem_reverse.mpr hc, rfl⟩

/-- The walk reaches what is below a term. -/
theorem reaches_iff {i j : Nat} :
    Reaches s.partsOf (.ofIndex i) (.ofIndex j) ↔ Relation.ReflTransGen s.Child i j := by
  constructor
  · intro h
    have hslots : Relation.ReflTransGen s.Child (Term.ofIndex i).index (Term.ofIndex j).index :=
      h.lift Term.index fun _ _ hb => (child_of_mem_partsOf hb).1
    simpa using hslots
  · exact fun h => h.lift Term.ofIndex fun _ _ => mem_partsOf_of_child

/-- Positive terms of the filled slots. -/
def liveTerms (s : Store) : List Term :=
  ((List.range s.terms.slots.size).filter s.terms.isLive).map .ofIndex

theorem mem_liveTerms {t : Term} :
    t ∈ s.liveTerms ↔ s.terms.isLive t.index = true ∧ t.isNegated = false := by
  unfold liveTerms
  simp only [List.mem_map, List.mem_filter, List.mem_range]
  constructor
  · rintro ⟨i, ⟨-, hi⟩, rfl⟩
    simpa using hi
  · rintro ⟨hlive, hneg⟩
    obtain ⟨x, hx⟩ := Arena.isLive_iff.mp hlive
    exact ⟨t.index, ⟨Arena.lt_of_get? hx, hlive⟩, Term.positive_of_not_isNegated hneg⟩

theorem length_liveTerms_le : s.liveTerms.length ≤ s.terms.slots.size := by
  have h := List.length_filter_le s.terms.isLive (List.range s.terms.slots.size)
  simpa [liveTerms] using h

theorem Child.live (hw : s.Wf) {i j : Nat} (h : s.Child i j) :
    s.terms.isLive i = true ∧ s.terms.isLive j = true := by
  obtain ⟨shape, ty, c, hi, hc, rfl⟩ := h
  obtain ⟨tc, ⟨⟨shc, hcn⟩, -⟩⟩ := (hw.typed hi).live hc
  exact ⟨Arena.isLive_iff.mpr ⟨_, hi⟩, Arena.isLive_iff.mpr ⟨_, hcn⟩⟩

theorem partsOf_of_not_mem (hw : s.Wf) {t : Term} (ht : t ∉ s.liveTerms) : s.partsOf t = [] := by
  refine List.eq_nil_iff_forall_not_mem.mpr fun u hu => ht ?_
  obtain ⟨hchild, -, hneg⟩ := child_of_mem_partsOf hu
  exact mem_liveTerms.mpr ⟨(hchild.live hw).1, hneg⟩

/-- What a walk from some roots has seen. -/
theorem marks_walkAll (hw : s.Wf) (ts : List Term) :
    Marks s.partsOf s.liveTerms (ts.map .positive) ∅ (s.walkAll ts).seen := by
  rw [seen_walkAll]
  refine marks_foldl_mark (fun t u hu => ?_) (fun t => partsOf_of_not_mem hw) length_liveTerms_le _
  obtain ⟨hchild, hneg, -⟩ := child_of_mem_partsOf hu
  exact mem_liveTerms.mpr ⟨(hchild.live hw).2, hneg⟩

/-- A walk from several terms sees exactly what is below one of them. -/
theorem mem_seen_walkAll (hw : s.Wf) (ts : List Term) {i : Nat} (hi : s.terms.isLive i = true) :
    .ofIndex i ∈ (s.walkAll ts).seen ↔ ∃ t ∈ ts, Relation.ReflTransGen s.Child t.index i := by
  rw [(marks_walkAll hw ts).mem_iff (fun t => partsOf_of_not_mem hw)
    (mem_liveTerms.mpr (by simpa using hi))]
  simp only [List.mem_map, exists_exists_and_eq_and]
  exact exists_congr fun t => and_congr_right fun _ => reaches_iff (i := t.index)

/-- Whatever a walk leaves is reached from its roots. -/
theorem reached_of_mem_order (hw : s.Wf) {ts : List Term} {u : Term}
    (hu : u ∈ (s.walkAll ts).order) :
    ∃ t ∈ ts, Relation.ReflTransGen s.Child t.index u.index := by
  rw [mem_order_walkAll] at hu
  obtain ⟨p, hp, hr⟩ := ((marks_walkAll hw ts).reached u hu).resolve_left Std.HashSet.not_mem_empty
  obtain ⟨t, ht, rfl⟩ := List.mem_map.mp hp
  have hslots : Relation.ReflTransGen s.Child t.positive.index u.index :=
    hr.lift Term.index fun _ _ hb => (child_of_mem_partsOf hb).1
  exact ⟨t, ht, by simpa using hslots⟩

/-! ## Reaching types -/

theorem component_iff {ty part : Ty} : s.Component ty part ↔ part ∈ s.partsTy ty := by
  unfold Component partsTy
  cases s.tyShape? ty <;> simp

theorem Component.live (hw : s.Wf) {ty part : Ty} (h : s.Component ty part) :
    s.isValidTy ty = true ∧ s.isValidTy part = true := by
  obtain ⟨shape, hty, hpart⟩ := h
  refine ⟨isValidTy_iff.mpr ⟨shape, hty⟩, isValidTy_iff.mpr ?_⟩
  have hok := hw.ty_ok hty
  cases shape with
  | function domain range => exact hok.2 part hpart
  | _ => cases hpart

/-- Handles of the live types. -/
def liveTypes (s : Store) : List Ty :=
  ((List.range s.types.slots.size).filter s.types.isLive).map .mk

theorem mem_liveTypes {ty : Ty} : ty ∈ s.liveTypes ↔ s.isValidTy ty = true := by
  unfold liveTypes isValidTy
  simp only [List.mem_map, List.mem_filter, List.mem_range]
  constructor
  · rintro ⟨i, ⟨-, hi⟩, rfl⟩
    exact hi
  · intro hlive
    obtain ⟨x, hx⟩ := Arena.isLive_iff.mp hlive
    exact ⟨ty.raw, ⟨Arena.lt_of_get? hx, hlive⟩, rfl⟩

/-- Marking from several types marks exactly their components, to any depth. -/
theorem mem_foldl_markTy (hw : s.Wf) (tys : List Ty) {ty : Ty} (hty : s.isValidTy ty = true) :
    ty ∈ tys.foldl (fun m ty => s.markTy s.types.slots.size ty m) ∅ ↔
      ∃ root ∈ tys, Relation.ReflTransGen s.Component root ty := by
  have hdead : ∀ u, u ∉ s.liveTypes → s.partsTy u = [] := fun u hu => by
    refine List.eq_nil_iff_forall_not_mem.mpr fun part hpart => hu ?_
    exact mem_liveTypes.mpr ((component_iff.mpr hpart).live hw).1
  have hlen : s.liveTypes.length ≤ s.types.slots.size := by
    have h := List.length_filter_le s.types.isLive (List.range s.types.slots.size)
    simpa [liveTypes] using h
  have hparts : ∀ u, ∀ part ∈ s.partsTy u, part ∈ s.liveTypes := fun u part hpart =>
    mem_liveTypes.mpr ((component_iff.mpr hpart).live hw).2
  have hmarks := marks_foldl_mark hparts hdead hlen tys
  simp only [markTy_eq]
  rw [hmarks.mem_iff hdead (mem_liveTypes.mpr hty)]
  have hrel : (fun x y => y ∈ s.partsTy x) = s.Component := by
    funext x y
    exact propext component_iff.symm
  unfold Reaches
  rw [hrel]

/-! ## Roots -/

/-- The roots are truth, the live ones given, what is counted and, if wanted, what is named. -/
theorem mem_termRoots {t : Term} : t ∈ s.termRoots roots keepNamed ↔
    t = .top ∨ (t ∈ roots ∧ s.isValid t = true) ∨ (∃ i ∈ s.termRefs, .ofIndex i = t) ∨
      (keepNamed = true ∧ s.termNames.Bears t) := by
  unfold termRoots
  simp only [List.mem_cons, List.mem_append, List.mem_filter, List.mem_map, List.cons_append,
    Std.HashMap.mem_keys]
  cases keepNamed <;> simp [Names.mem_values, or_assoc]

/-- The roots among the types are the booleans, what is given or counted and, if wanted, what is
named. -/
theorem mem_typeRoots {ty : Ty} : ty ∈ s.typeRoots tyRoots keepNamed ↔
    ty = .bool ∨ ((ty ∈ tyRoots ∨ ty ∈ s.typeRefs) ∧ s.isValidTy ty = true) ∨
      (keepNamed = true ∧ s.typeNames.Bears ty) := by
  unfold typeRoots
  simp only [List.mem_cons, List.mem_append, List.mem_filter, List.cons_append,
    Std.HashMap.mem_keys]
  cases keepNamed <;> simp [Names.mem_values]

namespace Intact

variable (h : s.Intact)

include h

theorem mem_termRefs {i : Nat} : i ∈ s.termRefs ↔ 0 < s.refcount (.ofIndex i) := by
  rw [← Std.HashMap.isSome_getElem?_iff_mem, refcount, Term.index_ofIndex,
    Std.HashMap.getD_eq_getD_getElem?]
  cases hi : s.termRefs[i]? with
  | none => simp
  | some n => simpa using h.termRefs hi

theorem mem_typeRefs {ty : Ty} : ty ∈ s.typeRefs ↔ 0 < s.refcountTy ty := by
  rw [← Std.HashMap.isSome_getElem?_iff_mem, refcountTy, Std.HashMap.getD_eq_getD_getElem?]
  cases hi : s.typeRefs[ty]? with
  | none => simp
  | some n => simpa using h.typeRefs hi

/-- A slot is needed if it is below a root. -/
theorem needed_iff {i : Nat} :
    (∃ t ∈ s.termRoots roots keepNamed, Relation.ReflTransGen s.Child t.index i) ↔
    s.Needed roots keepNamed i := by
  simp only [mem_termRoots]
  constructor
  · rintro ⟨t, hroot, hr⟩
    refine ⟨t, ?_, hr⟩
    rcases hroot with rfl | hroot | ⟨j, hj, rfl⟩ | hroot
    · exact .inl rfl
    · exact .inr (.inl hroot)
    · exact .inr (.inr (.inl (h.mem_termRefs.mp hj)))
    · exact .inr (.inr (.inr hroot))
  · rintro ⟨t, rfl | hroot | href | hroot, hr⟩
    · exact ⟨.top, .inl rfl, hr⟩
    · exact ⟨t, .inr (.inl hroot), hr⟩
    · -- a reference is to the slot, whatever the polarity
      have hpos : 0 < s.refcount (.ofIndex t.index) := by simpa [refcount] using href
      exact ⟨.ofIndex t.index, .inr (.inr (.inl ⟨_, h.mem_termRefs.mpr hpos, rfl⟩)), by
        simpa using hr⟩
    · exact ⟨t, .inr (.inr (.inr hroot)), hr⟩

/-- The terms that a collection keeps. -/
theorem seen_iff {i : Nat} (hi : s.terms.isLive i = true) :
    .ofIndex i ∈ (s.walkAll (s.termRoots roots keepNamed)).seen ↔ s.Needed roots keepNamed i :=
  (mem_seen_walkAll h.wf _ hi).trans h.needed_iff

/-- The types that a collection keeps. -/
theorem marked_iff {ty : Ty} (hty : s.isValidTy ty = true) :
    ty ∈ (s.typeRoots tyRoots keepNamed ++
      (s.walkAll (s.termRoots roots keepNamed)).order.toList.map s.ty).foldl
        (fun m ty => s.markTy s.types.slots.size ty m) ∅ ↔
        s.NeededTy roots tyRoots keepNamed ty := by
  rw [mem_foldl_markTy h.wf _ hty]
  simp only [List.mem_append, mem_typeRoots, List.mem_map, Array.mem_toList_iff]
  constructor
  · rintro ⟨root, (rfl | ⟨hroot, hvalid⟩ | hroot) | ⟨u, hu, rfl⟩, hr⟩
    · exact ⟨.bool, .inl rfl, hr⟩
    · refine ⟨root, ?_, hr⟩
      rcases hroot with hroot | href
      · exact .inr (.inr (.inl ⟨hroot, hvalid⟩))
      · exact .inr (.inr (.inr (.inl (h.mem_typeRefs.mp href))))
    · exact ⟨root, .inr (.inr (.inr (.inr hroot))), hr⟩
    · cases hn : s.node? u with
      | none => exact ⟨.bool, .inl rfl, by simpa [Store.ty, hn] using hr⟩
      | some n =>
        have hty : s.ty u = n.2 := by simp [Store.ty, hn]
        have hneeded := h.needed_iff.mp (reached_of_mem_order h.wf hu)
        exact ⟨n.2, .inr (.inl ⟨u.index, n.1, hn, hneeded⟩), hty ▸ hr⟩
  · rintro ⟨root, hroot, hr⟩
    -- a root that is not live reaches itself only
    have hvalid : s.isValidTy root = true := by
      rcases hr.cases_head with rfl | ⟨part, hpart, -⟩
      · exact hty
      · exact (hpart.live h.wf).1
    refine ⟨root, ?_, hr⟩
    rcases hroot with rfl | ⟨i, shape, hi, hneeded⟩ | ⟨hroot, -⟩ | href | hroot
    · exact .inl (.inl rfl)
    · refine .inr ⟨.ofIndex i, ?_, by simp [Store.ty, node?, hi]⟩
      rw [mem_order_walkAll]
      exact (h.seen_iff (Arena.isLive_iff.mpr ⟨_, hi⟩)).mpr hneeded
    · exact .inl (.inr (.inl ⟨.inl hroot, hvalid⟩))
    · exact .inl (.inr (.inl ⟨.inr (h.mem_typeRefs.mpr href), hvalid⟩))
    · exact .inl (.inr (.inr hroot))

end Intact

/-! ## Forgetting -/

/-- Takes both polarities of the term in a slot out of the names. -/
def forgetTerm (n : Names Term) (i : Nat) : Names Term :=
  (n.forget (.ofIndex i)).forget (Term.ofIndex i).neg

theorem foldl_dropTerm (is : List Nat) (s : Store) : is.foldl dropTerm s =
    { s with
      termRefs := is.foldl (fun m i => m.erase i) s.termRefs
      termNames := is.foldl forgetTerm s.termNames } := by
  induction is generalizing s with
  | nil => rfl
  | cons i is ih => exact ih (s.dropTerm i)

theorem foldl_dropType (is : List Nat) (s : Store) : is.foldl dropType s =
    { s with
      typeRefs := (is.map Ty.mk).foldl (fun m ty => m.erase ty) s.typeRefs
      typeNames := (is.map Ty.mk).foldl Names.forget s.typeNames } := by
  induction is generalizing s with
  | nil => rfl
  | cons i is ih => exact ih (s.dropType i)

theorem index_eq_iff {t : Term} {i : Nat} :
    t.index = i ↔ t = .ofIndex i ∨ t = (Term.ofIndex i).neg := by
  constructor
  · rintro rfl
    cases hneg : t.isNegated with
    | false => exact .inl (Term.positive_of_not_isNegated hneg).symm
    | true => exact .inr (Term.neg_positive hneg).symm
  · rintro (rfl | rfl) <;> simp

theorem any_beq {α : Type} [BEq α] [LawfulBEq α] (as : List α) (a : α) :
    as.any (· == a) = decide (a ∈ as) := by
  rw [Bool.eq_iff_iff]
  simp

/-- Forgetting the terms in some slots takes them from every name, and leaves the others. -/
theorem names_foldl_forgetTerm (is : List Nat) (n : Names Term) :
    (∀ name, (is.foldl forgetTerm n).stack name = (n.stack name).filter fun t =>
      !decide (t.index ∈ is)) ∧
      ∀ t, (is.foldl forgetTerm n).nameOf? t = if t.index ∈ is then none else n.nameOf? t := by
  have h := Names.foldl_forget forgetTerm (fun i t => i == t.index) (fun n i name => ?_)
    (fun n i t => ?_) is n
  · simpa only [any_beq, decide_eq_true_eq] using h
  · rw [forgetTerm, Names.stack_forget, Names.stack_forget, List.filter_filter]
    refine List.filter_congr fun t _ => ?_
    rw [Bool.eq_iff_iff]
    simp only [Bool.and_eq_true, bne_iff_ne, Bool.not_eq_true', beq_eq_false_iff_ne]
    have := index_eq_iff (t := t) (i := i)
    tauto
  · rw [forgetTerm, Names.nameOf?_forget, Names.nameOf?_forget]
    simp only [beq_iff_eq]
    by_cases hi : i = t.index
    · rw [if_pos hi]
      rcases index_eq_iff.mp hi.symm with ht | ht
      · rw [if_pos ht.symm, ite_self]
      · rw [if_pos ht.symm]
    · rw [if_neg hi, if_neg fun ht => hi (index_eq_iff.mpr (.inr ht.symm)).symm,
        if_neg fun ht => hi (index_eq_iff.mpr (.inl ht.symm)).symm]

theorem names_foldl_forget {α : Type} [BEq α] [Hashable α] [LawfulBEq α] [LawfulHashable α]
    (vs : List α) (n : Names α) :
    (∀ name, (vs.foldl Names.forget n).stack name = (n.stack name).filter fun v =>
      !decide (v ∈ vs)) ∧
      ∀ v, (vs.foldl Names.forget n).nameOf? v = if v ∈ vs then none else n.nameOf? v := by
  have h := Names.foldl_forget Names.forget (fun u v => u == v) (fun n u name => ?_)
    (fun n u v => ?_) vs n
  · simpa only [any_beq, decide_eq_true_eq] using h
  · rw [Names.stack_forget]
    refine List.filter_congr fun v _ => ?_
    rw [Bool.eq_iff_iff, bne_iff_ne, Bool.not_eq_true', beq_eq_false_iff_ne]
    exact ne_comm
  · exact Names.nameOf?_forget n u v

/-! ## Collecting -/

/-- The second half of a collection: all slots but those to keep are emptied. -/
def sweep (s : Store) (keep keepTy : Nat → Bool) : (Nat × Nat) × Store :=
  let (deadTerms, terms) := s.terms.sweep keep
  let (deadTypes, types) := s.types.sweep keepTy
  ((deadTerms.length, deadTypes.length),
    deadTypes.foldl dropType (deadTerms.foldl dropTerm { s with terms, types }))

theorem sweep_eq (s : Store) (keep keepTy : Nat → Bool) : s.sweep keep keepTy =
    (((s.terms.garbage keep).length, (s.types.garbage keepTy).length),
      { s with
        terms := (s.terms.sweep keep).2
        types := (s.types.sweep keepTy).2
        termRefs := (s.terms.garbage keep).foldl (fun m i => m.erase i) s.termRefs
        termNames := (s.terms.garbage keep).foldl forgetTerm s.termNames
        typeRefs := ((s.types.garbage keepTy).map Ty.mk).foldl (fun m ty => m.erase ty) s.typeRefs
        typeNames := ((s.types.garbage keepTy).map Ty.mk).foldl Names.forget s.typeNames }) := by
  show ((_, _), (s.types.garbage keepTy).foldl dropType ((s.terms.garbage keep).foldl dropTerm _)) =
    _
  rw [foldl_dropTerm, foldl_dropType]
  rfl

/-- A collection is a sweep of what the two walks did not see. -/
theorem collect_eq (s : Store) (roots : List Term) (tyRoots : List Ty) (keepNamed : Bool) :
    s.collect roots tyRoots keepNamed =
      s.sweep (fun i => (s.walkAll (s.termRoots roots keepNamed)).seen.contains (.ofIndex i))
        fun i => ((s.typeRoots tyRoots keepNamed ++
          (s.walkAll (s.termRoots roots keepNamed)).order.toList.map s.ty).foldl
            (fun m ty => s.markTy s.types.slots.size ty m) ∅).contains ⟨i⟩ := rfl

section Sweep

variable {keep keepTy : Nat → Bool}

/-- After a sweep, a slot holds what it held if it was kept, and nothing else. -/
theorem Wf.get_sweep (hw : s.Wf) (i : Nat) :
    (s.sweep keep keepTy).2.terms.get? i = if keep i then s.terms.get? i else none := by
  rw [sweep_eq]
  exact (hw.terms.sweep keep).2 i

theorem Wf.tyShape_sweep (hw : s.Wf) (ty : Ty) :
    (s.sweep keep keepTy).2.tyShape? ty = if keepTy ty.raw then s.tyShape? ty else none := by
  rw [sweep_eq]
  show Option.map _ ((s.types.sweep keepTy).2.get? ty.raw) = _
  rw [(hw.types.sweep keepTy).2]
  split <;> rfl

/-- What is deleted is the garbage. -/
theorem Wf.deleted_sweep (hw : s.Wf) (t : Term) :
    s.deleted (s.sweep keep keepTy).2 t = decide (t.index ∈ s.terms.garbage keep) := by
  rw [Bool.eq_iff_iff, decide_eq_true_eq, Arena.mem_garbage, deleted, Arena.isLive, Arena.isLive,
    hw.get_sweep]
  cases keep t.index <;> cases s.terms.get? t.index <;> simp

theorem Wf.deletedTy_sweep (hw : s.Wf) (ty : Ty) :
    s.deletedTy (s.sweep keep keepTy).2 ty = decide (ty.raw ∈ s.types.garbage keepTy) := by
  have hvalid (s' : Store) : s'.isValidTy ty = (s'.tyShape? ty).isSome := by
    simp [isValidTy, tyShape?, Arena.isLive]
  rw [Bool.eq_iff_iff, decide_eq_true_eq, Arena.mem_garbage, deletedTy,
    hvalid (s.sweep keep keepTy).2,
    hw.tyShape_sweep, ← isValidTy]
  cases hlive : s.isValidTy ty <;> cases keepTy ty.raw <;> simp [← hvalid, hlive]

/-- A sweep that keeps what is needed does what a collection has to do. -/
theorem Intact.collected_sweep (h : s.Intact)
    (hkeep : ∀ {i}, s.terms.isLive i = true → (keep i = true ↔ s.Needed roots keepNamed i))
    (hkeepTy : ∀ {ty : Ty}, s.isValidTy ty = true →
      (keepTy ty.raw = true ↔ s.NeededTy roots tyRoots keepNamed ty)) :
    s.Collected roots tyRoots keepNamed (s.sweep keep keepTy).1 (s.sweep keep keepTy).2 where
  terms {i n} := by
    rw [h.wf.get_sweep]
    cases hi : s.terms.get? i with
    | none => simp
    | some m =>
      have := hkeep (Arena.isLive_iff.mpr ⟨m, hi⟩)
      by_cases hk : keep i
      · simp [hk, this.mp hk]
      · simp [hk, this.not.mp hk]
  types {ty shape} := by
    rw [h.wf.tyShape_sweep]
    cases hty : s.tyShape? ty with
    | none => simp
    | some sh =>
      have := hkeepTy (isValidTy_iff.mpr ⟨sh, hty⟩)
      by_cases hk : keepTy ty.raw
      · simp [hk, this.mp hk]
      · simp [hk, this.not.mp hk]
  refcount t := by
    -- what has references is a root, and a root is no garbage
    rw [sweep_eq]
    show Std.HashMap.getD (List.foldl _ s.termRefs _) t.index 0 = s.termRefs.getD t.index 0
    rw [Std.HashMap.getD_eq_getD_getElem?, Std.HashMap.getD_eq_getD_getElem?, getElem?_foldl_erase]
    split
    next hmem =>
      obtain ⟨hlive, hdead⟩ := Arena.mem_garbage.mp hmem
      have hnot : ¬ 0 < s.refcount t := fun hpos => by
        have := (hkeep hlive).mpr ⟨t, .inr (.inr (.inl hpos)), .refl⟩
        rw [hdead] at this
        cases this
      rw [refcount, Std.HashMap.getD_eq_getD_getElem?] at hnot
      simp at hnot ⊢
      omega
    next => rfl
  refcountTy ty := by
    rw [sweep_eq]
    show Std.HashMap.getD (List.foldl _ s.typeRefs _) ty 0 = s.typeRefs.getD ty 0
    rw [Std.HashMap.getD_eq_getD_getElem?, Std.HashMap.getD_eq_getD_getElem?, getElem?_foldl_erase]
    split
    next hmem =>
      obtain ⟨i, hi, rfl⟩ := List.mem_map.mp hmem
      obtain ⟨hlive, hdead⟩ := Arena.mem_garbage.mp hi
      have hnot : ¬ 0 < s.refcountTy ⟨i⟩ := fun hpos => by
        have hkept := (@hkeepTy ⟨i⟩ hlive).mpr ⟨⟨i⟩, .inr (.inr (.inr (.inl hpos))), .refl⟩
        rw [hdead] at hkept
        cases hkept
      rw [refcountTy, Std.HashMap.getD_eq_getD_getElem?] at hnot
      simp at hnot ⊢
      omega
    next => rfl
  stack name := by
    simp only [h.wf.deleted_sweep]
    rw [sweep_eq]
    exact (names_foldl_forgetTerm _ s.termNames).1 name
  nameOf t := by
    simp only [h.wf.deleted_sweep, decide_eq_true_eq]
    rw [sweep_eq]
    exact (names_foldl_forgetTerm _ s.termNames).2 t
  stackTy name := by
    have hmem (ty : Ty) : ty ∈ (s.types.garbage keepTy).map Ty.mk ↔
        ty.raw ∈ s.types.garbage keepTy := by
      cases ty
      simp
    simp only [h.wf.deletedTy_sweep, ← hmem]
    rw [sweep_eq]
    exact (names_foldl_forget _ s.typeNames).1 name
  nameOfTy ty := by
    have hmem : ty ∈ (s.types.garbage keepTy).map Ty.mk ↔ ty.raw ∈ s.types.garbage keepTy := by
      cases ty
      simp
    simp only [h.wf.deletedTy_sweep, decide_eq_true_eq, ← hmem]
    rw [sweep_eq]
    exact (names_foldl_forget _ s.typeNames).2 ty
  numTerms := by
    simp only [h.wf.deleted_sweep, Term.index_ofIndex]
    rw [sweep_eq]
    exact Arena.length_garbage _ _
  numTypes := by
    simp only [h.wf.deletedTy_sweep]
    rw [sweep_eq]
    exact Arena.length_garbage _ _

end Sweep

/-- A collection empties the slots of what is not needed, and forgets what it emptied. -/
theorem Intact.collected (h : s.Intact) (roots : List Term) (tyRoots : List Ty) (keepNamed : Bool) :
    s.Collected roots tyRoots keepNamed (s.collect roots tyRoots keepNamed).1
      (s.collect roots tyRoots keepNamed).2 := by
  rw [collect_eq]
  refine h.collected_sweep (fun hi => ?_) fun hty => ?_
  · exact Std.HashSet.mem_iff_contains.symm.trans (h.seen_iff hi)
  · exact Std.HashSet.mem_iff_contains.symm.trans (h.marked_iff hty)

/-! ## What is kept is well-formed -/

/-- What is below something needed is needed. -/
theorem Needed.child {i j : Nat} (h : s.Needed roots keepNamed i) (hij : s.Child i j) :
    s.Needed roots keepNamed j := by
  obtain ⟨t, hroot, hr⟩ := h
  exact ⟨t, hroot, hr.tail hij⟩

theorem NeededTy.component {ty part : Ty} (h : s.NeededTy roots tyRoots keepNamed ty)
    (hpart : s.Component ty part) :
    s.NeededTy roots tyRoots keepNamed part := by
  obtain ⟨root, hroot, hr⟩ := h
  exact ⟨root, hroot, hr.tail hpart⟩

/-- The type of something needed is needed. -/
theorem Needed.ty {i : Nat} {shape : Term.Shape} {ty : Ty} (h : s.Needed roots keepNamed i)
    (hi : s.terms.get? i = some (shape, ty)) : s.NeededTy roots tyRoots keepNamed ty :=
  ⟨ty, .inr (.inl ⟨i, shape, hi, h⟩), .refl⟩

/-- A part of a kept store is well-formed if it has, with a term, the parts and the type of the term
and, with a type, the types that it mentions. -/
theorem Collected.wf {counts : Nat × Nat} (h : s.Wf)
    (hc : s.Collected roots tyRoots keepNamed counts s')
    (hterms : s'.terms.Valid 1) (htypes : s'.types.Valid 0) (hserial : s'.termSerial = s.termSerial)
    (htySerial : s'.typeSerial = s.typeSerial) : s'.Wf where
  types := htypes
  terms := hterms
  bool_ty := hc.types.mpr ⟨h.bool_ty, .bool, .inl rfl, .refl⟩
  truth := hc.terms.mpr ⟨h.truth, .top, .inl rfl, .refl⟩
  ty_ok {ty shape} hty := by
    obtain ⟨hty, hneeded⟩ := hc.types.mp hty
    have hok := h.ty_ok hty
    cases shape with
    | bool => trivial
    | bitVector => exact hok
    | uninterpreted n =>
      show n < s'.typeSerial
      rw [htySerial]
      exact hok
    | function domain range =>
      refine ⟨hok.1, fun part hpart => ?_⟩
      exact (hok.2 part hpart).imp fun _ hsh =>
        hc.types.mpr ⟨hsh, hneeded.component ⟨_, hty, hpart⟩⟩
  typed {i shape ty} hi := by
    obtain ⟨hi, hneeded⟩ := hc.terms.mp hi
    have hchild (c : Term) (hmem : c ∈ shape.children) : s.Needed roots keepNamed c.index :=
      hneeded.child ⟨_, _, c, hi, hmem, rfl⟩
    refine (h.typed hi).transfer (fun hty => hc.types.mpr ⟨hty, hneeded.ty hi⟩)
      (fun c hmem _ hn => hc.terms.mpr ⟨hn, hchild c hmem⟩) fun c hmem u _ hu hty => ?_
    obtain ⟨⟨sh, hn⟩, -⟩ := hu
    exact hc.types.mpr ⟨hty, (hchild c hmem).ty hn⟩
  live_ty {i shape ty} hi := by
    obtain ⟨hi, hneeded⟩ := hc.terms.mp hi
    exact (h.live_ty hi).imp fun _ hty => hc.types.mpr ⟨hty, hneeded.ty hi⟩
  serial hi := hserial.symm ▸ h.serial (hc.terms.mp hi).1
  ranked := h.ranked.imp fun _ hrank _ _ _ hi => hrank (hc.terms.mp hi).1

/-- A collection keeps the store well-formed and the counts positive. -/
theorem Intact.collect (h : s.Intact) (roots : List Term) (tyRoots : List Ty) (keepNamed : Bool) :
    (s.collect roots tyRoots keepNamed).2.Intact := by
  have hc := h.collected roots tyRoots keepNamed
  rw [collect_eq, sweep_eq] at hc ⊢
  refine ⟨hc.wf h.wf (h.wf.terms.sweep _).1 (h.wf.types.sweep _).1 rfl rfl, fun {i n} hi => ?_,
    fun {ty n} hty => ?_,
    fun _ _ _ hi => h.regular (hc.terms.mp hi).1⟩
  · simp only [getElem?_foldl_erase] at hi
    split at hi
    · cases hi
    · exact h.termRefs hi
  · simp only [getElem?_foldl_erase] at hty
    split at hty
    · cases hty
    · exact h.typeRefs hty

end Entail.Store
