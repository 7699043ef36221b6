import Entail.Proofs.Store.Collect

/-!
# What a term is made of

A term stays in a store when everything it is made of does: its subterms with their shapes, and the
types that are mentioned in their types. Terms stay when a store is extended, and when garbage is
collected with them as roots.
-/

namespace Entail.Store

variable {s s' : Store} {t u : Term} {ty : Ty} {n : Term.Shape × Ty}

/-- Up to polarity, `u` is a subterm of `t`. -/
def Below (s : Store) (t u : Term) : Prop := Relation.ReflTransGen s.Child t.index u.index

/-- `t` is a term of both stores, and everything that it is made of is the same in both. -/
structure Stays (s s' : Store) (t : Term) : Prop where
  valid : s.isValid t = true ∧ s'.isValid t = true
  node : ∀ {u}, s.Below t u → ∃ n, s.node? u = some n ∧ s'.node? u = some n
  ty : ∀ {u shape ty part}, s.Below t u → s.node? u = some (shape, ty) →
    Relation.ReflTransGen s.Component ty part →
    ∃ tyShape, s.tyShape? part = some tyShape ∧ s'.tyShape? part = some tyShape

/-- The terms of `s` that are among `roots` stay. -/
def Spares (s s' : Store) (roots : List Term) : Prop :=
  ∀ t ∈ roots, s.isValid t = true → Stays s s' t

theorem Child.child_of_node {c : Term} (h : s.node? t = some n) (hc : c ∈ n.1.children) :
    s.Child t.index c.index :=
  ⟨n.1, n.2, c, h, hc, rfl⟩

theorem Below.child (h : s.Below t u) {c : Term} (hn : s.node? u = some n) (hc : c ∈ n.1.children) :
    s.Below t c :=
  h.tail (.child_of_node hn hc)

/-- All subterms of a live term are live. -/
theorem Below.live (hw : s.Wf) (h : s.Below t u) (ht : s.isValid t = true) :
    ∃ n, s.node? u = some n := by
  obtain ⟨ty, ⟨⟨shape, hn⟩, -⟩⟩ := isValid_iff.mp ht
  have hlive : s.terms.isLive u.index = true := by
    rcases Relation.ReflTransGen.cases_tail h with heq | ⟨j, -, hchild⟩
    · exact heq ▸ Arena.isLive_iff.mpr ⟨_, hn⟩
    · exact (hchild.live hw).2
  exact Arena.isLive_iff.mp hlive

/-- What the walk through a term leaves are its subterms. -/
theorem mem_subterms (hw : s.Wf) (ht : s.isValid t = true) (hu : u ∈ s.subterms t) :
    s.Below t u ∧ u.isNegated = false ∧ ∃ ty, s.Has u ty := by
  have horder : u ∈ (s.walkAll [t]).order := Array.mem_toList_iff.mp hu
  obtain ⟨root, hroot, hbelow⟩ := reached_of_mem_order hw horder
  obtain rfl := List.mem_singleton.mp hroot
  obtain ⟨⟨shape, ty⟩, hn⟩ := Below.live hw hbelow ht
  rw [mem_order_walkAll] at horder
  obtain ⟨p, hp, hr⟩ := ((marks_walkAll hw [root]).reached u horder).resolve_left
    Std.HashSet.not_mem_empty
  have hpos : u.isNegated = false := by
    rcases Relation.ReflTransGen.cases_tail hr with rfl | ⟨v, -, hv⟩
    · obtain ⟨v, -, rfl⟩ := List.mem_map.mp hp
      exact Term.isNegated_positive v
    · exact (child_of_mem_partsOf hv).2.1
  exact ⟨hbelow, hpos, ty, ⟨⟨shape, hn⟩, by simp [hpos]⟩⟩

namespace Stays

theorem node_eq (h : Stays s s' t) (hn : s.node? t = some n) : s'.node? t = some n := by
  obtain ⟨m, hm, hm'⟩ := h.node (.refl : s.Below t t)
  rwa [← hn, hm]

theorem has (h : Stays s s' t) (ht : s.Has t ty) : s'.Has t ty := ⟨⟨_, h.node_eq ht.node⟩, ht.2⟩

theorem shape_eq (h : Stays s s' t) : s'.shape t = s.shape t := by
  obtain ⟨n, hn, hn'⟩ := h.node (.refl : s.Below t t)
  simp [shape, shape?, hn, hn']

/-- The subterms of a term that stays are its subterms. -/
theorem below (h : Stays s s' t) (hu : s.Below t u) : s'.Below t u := by
  have hslots {i : Nat} (hi : Relation.ReflTransGen s.Child t.index i) :
      Relation.ReflTransGen s'.Child t.index i := by
    induction hi with
    | refl => exact .refl
    | @tail i j hi hij ih =>
      obtain ⟨shape, ty, c, hn, hc, hcj⟩ := hij
      obtain ⟨m, hm, hm'⟩ := h.node (u := .ofIndex i) (by simpa [Below] using hi)
      rw [node?, Term.index_ofIndex] at hm hm'
      obtain rfl := Option.some.inj (hn.symm.trans hm)
      exact ih.tail ⟨shape, ty, c, hm', hc, hcj⟩
  exact hslots hu

/-- A subterm of a term that stays does so, too. -/
theorem part (h : Stays s s' t) (hu : s.Below t u) (hvalid : s.isValid u = true) :
    Stays s s' u where
  valid := by
    obtain ⟨ty, ⟨⟨shape, hn⟩, hneg⟩⟩ := isValid_iff.mp hvalid
    obtain ⟨m, hm, hm'⟩ := h.node hu
    obtain rfl := Option.some.inj (hn.symm.trans hm)
    exact ⟨hvalid, isValid_iff.mpr ⟨ty, ⟨⟨shape, hm'⟩, hneg⟩⟩⟩
  node hv := h.node (hu.trans hv)
  ty hv := h.ty (hu.trans hv)

end Stays

/-- A type of a live term mentions live types only. -/
theorem Component.exists_tyShape (hw : s.Wf) {part : Ty}
    (hty : ∃ tyShape, s.tyShape? ty = some tyShape)
    (h : Relation.ReflTransGen s.Component ty part) :
    ∃ tyShape, s.tyShape? part = some tyShape := by
  rcases Relation.ReflTransGen.cases_tail h with rfl | ⟨mid, -, hlast⟩
  · exact hty
  · exact isValidTy_iff.mp (hlast.live hw).2

/-- A term stays when the terms and types that it is made of do. -/
theorem stays_of (hw : s.Wf) (ht : s.isValid t = true)
    (hnode : ∀ {u n}, s.Below t u → s.node? u = some n → s'.node? u = some n)
    (hty : ∀ {u shape ty part tyShape}, s.Below t u → s.node? u = some (shape, ty) →
      Relation.ReflTransGen s.Component ty part → s.tyShape? part = some tyShape →
      s'.tyShape? part = some tyShape) :
    Stays s s' t where
  valid := by
    obtain ⟨ty, ⟨⟨shape, hn⟩, hneg⟩⟩ := isValid_iff.mp ht
    exact ⟨ht, isValid_iff.mpr ⟨ty, ⟨⟨shape, hnode .refl hn⟩, hneg⟩⟩⟩
  node hu := by
    obtain ⟨n, hn⟩ := hu.live hw ht
    exact ⟨n, hn, hnode hu hn⟩
  ty hu hn hpart := by
    obtain ⟨tyShape, h⟩ := Component.exists_tyShape hw (hw.live_ty hn) hpart
    exact ⟨tyShape, h, hty hu hn hpart h⟩

/-- An extension keeps all terms. -/
theorem Extends.stays (h : s.Extends s') (hw : s.Wf) (ht : s.isValid t = true) : Stays s s' t :=
  stays_of hw ht (fun _ => h.node) fun _ _ _ => h.ty

theorem Extends.spares (h : s.Extends s') (hw : s.Wf) (roots : List Term) : s.Spares s' roots :=
  fun _ _ => h.stays hw

/-- A collection keeps its roots. -/
theorem Intact.spares (h : s.Intact) (roots : List Term) (tyRoots : List Ty) (keepNamed : Bool) :
    s.Spares (s.collect roots tyRoots keepNamed).2 roots := by
  have hc := h.collected roots tyRoots keepNamed
  intro t ht hvalid
  have hneeded {u : Term} (hu : s.Below t u) : s.Needed roots keepNamed u.index :=
    ⟨t, .inr (.inl ⟨ht, hvalid⟩), hu⟩
  refine stays_of h.wf hvalid (fun hu hn => hc.terms.mpr ⟨hn, hneeded hu⟩)
    fun {u shape ty part tyShape} hu hn hpart hty => ?_
  exact hc.types.mpr ⟨hty, ty, .inr (.inl ⟨_, shape, hn, hneeded hu⟩), hpart⟩

end Entail.Store
