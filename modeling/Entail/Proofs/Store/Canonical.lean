import Entail.Proofs.Store.Amounts

/-!
# Canonical terms

Disjunctions, sums and products do not depend on the order of their arguments, nor sums and products
on how they are grouped. For disjunctions this is because what is stored depends on the set of
arguments only. A grouping of words amounts to what the words amount to, however it is built, and
only one term of a normal store amounts to that.
-/

namespace Entail

namespace Term

/-- Lists in strict order with the same members are the same. -/
theorem eq_of_mem_iff {ts us : List Term} (ht : ts.Pairwise fun a b => a.raw < b.raw)
    (hu : us.Pairwise fun a b => a.raw < b.raw) (h : ∀ t, t ∈ ts ↔ t ∈ us) : ts = us := by
  have hne {a b : Term} (hlt : a.raw < b.raw) : a ≠ b := fun heq => Nat.lt_irrefl _ (heq ▸ hlt)
  have hnodup {ts : List Term} (ht : ts.Pairwise fun a b => a.raw < b.raw) : ts.Nodup := ht.imp hne
  have hperm : ts.Perm us := (List.perm_ext_iff_of_nodup (hnodup ht) (hnodup hu)).mpr h
  exact hperm.eq_of_pairwise (fun a b _ _ hab hba => absurd hab (Nat.lt_asymm hba)) ht hu

end Term

namespace Store

variable {s s' s₁ s₂ : Store} {k : Folding} {args args' ts : List Term} {r r' t : Term}
  {shape : Term.Shape} {ty : Ty}
  {w : Nat}

/-! ## Disjunctions -/

/-- A disjunction is a matter of the arguments other than falsity. -/
theorem orOf_congr (h : ∀ t, t ≠ .bot → (t ∈ args ↔ t ∈ args')) : orOf args = orOf args' := by
  have htop : args.contains .top = args'.contains .top := by
    rw [Bool.eq_iff_iff, List.contains_iff_mem, List.contains_iff_mem]
    exact h .top nofun
  have hkept : Term.dedup (Term.sort (args.filter (· ≠ .bot))) = Term.dedup
      (Term.sort (args'.filter (· ≠ .bot))) := by
    refine Term.eq_of_mem_iff (Term.pairwise_dedup (Term.pairwise_sort _))
      (Term.pairwise_dedup (Term.pairwise_sort _))
      fun t => ?_
    simp only [Term.mem_dedup, Term.mem_sort, List.mem_filter, decide_eq_true_eq]
    exact and_congr_left fun hne => h t hne
  unfold orOf
  rw [htop, hkept]

/-- What was stored is found again as long as it is there. -/
theorem intern_again (hw : s.Wf) (hw₂ : s₂.Wf) (h : intern shape ty s = .ok t s₁)
    (hext : s₁.Extends s₂) :
    intern shape ty s₂ = .ok t s₂ := by
  cases h
  obtain ⟨-, -, v, hnew⟩ := hw.terms.intern shape ty
  have hn : node? (endState (intern shape ty s)) (.ofIndex (s.terms.intern shape ty).1) = some
      (shape, v) := by
    unfold node?
    rwa [Term.index_ofIndex]
  exact intern_node hw₂ (hext.node hn) (Term.isNegated_ofIndex _) ty

theorem orOf_again (hw : s.Wf) (hw₂ : s₂.Wf) (h : orOf args s = .ok r s₁) (hext : s₁.Extends s₂) :
    orOf args s₂ = .ok r s₂ := by
  unfold orOf at h ⊢
  split at h
  next htop =>
    cases h
    rw [if_pos htop]
    rfl
  next htop =>
    rw [if_neg htop]
    dsimp only at h ⊢
    split at h
    next hcompl =>
      cases h
      rw [if_pos hcompl]
      rfl
    next hcompl =>
      rw [if_neg hcompl]
      generalize Term.dedup (Term.sort (args.filter (· ≠ .bot))) = kept at h ⊢
      match kept, h with
      | [], h => cases h; rfl
      | [t], h => cases h; rfl
      | _ :: _ :: _, h => exact intern_again hw hw₂ h hext

end Store

/-! ## Groupings -/

mutual

/-- Words put together in groups. -/
inductive Grouping where
  | single (t : Term)
  | group (parts : Groupings)

/-- At least one grouping. -/
inductive Groupings where
  | one (g : Grouping)
  | more (g : Grouping) (rest : Groupings)

end

mutual

/-- The words of a grouping. -/
def Grouping.leaves : Grouping → List Term
  | .single t => [t]
  | .group parts => parts.leaves

/-- The words of several groupings. -/
def Groupings.leaves : Groupings → List Term
  | .one g => g.leaves
  | .more g rest => g.leaves ++ rest.leaves

end

mutual

/-- Builds the groups of a grouping from the inside. -/
def Grouping.build (k : Folding) : Grouping → Store.Op Term
  | .single t => pure t
  | .group parts => do k.build (← parts.build k)

/-- Builds groupings one after the other. -/
def Groupings.build (k : Folding) : Groupings → Store.Op (List Term)
  | .one g => do return [← g.build k]
  | .more g rest => do
    let t ← g.build k
    return t :: (← rest.build k)

end

namespace Store

variable {s s' s₁ s₂ : Store} {k : Folding} {args args' ts : List Term} {r r' t : Term}
  {shape : Term.Shape} {ty : Ty}
  {w : Nat}

/-- Words amount to the same as long as they are there. -/
theorem amount_later (hw : s.Wf) (hs : s.Normalized) (hargs : ∀ a ∈ args, s.HasWidth a w)
    (hlater : Later s s') :
    s'.amount k.op w (k.flatten s' args) = s.amount k.op w (k.flatten s args) := by
  have hsame : ∀ {a}, s.HasWidth a w → s'.shape a = s.shape a := fun ⟨_, ha, _⟩ =>
    hlater.ext.shape_eq ha
  rw [Folding.flatten_congr fun a ha => hsame (hargs a ha)]
  exact amount_congr fun a ha => hsame (Folding.mem_flatten hw hs hargs ha).1

/-- What amounts to the same is the same. -/
theorem eq_of_amount (hw : s.Wf) (hs : s.Normalized) (hr : s.HasWidth r w) (hr' : s.HasWidth r' w)
    (h : s.amount k.op w (k.flatten s [r]) = s.amount k.op w (k.flatten s [r'])) : r = r' := by
  have hone : ∀ a ∈ [r], s.HasWidth a w := List.forall_mem_singleton.mpr hr
  have hself := Folding.build_of_amount (k := k) hw hs (List.cons_ne_nil r []) hone hr rfl
  have hother := Folding.build_of_amount (k := k) hw hs (List.cons_ne_nil r []) hone hr' h
  rw [hself] at hother
  cases hother
  rfl

/-- From `s`, the operation answers words as `Q` says, and leaves a normal store. -/
structure Gathers (s s' : Store) (w : Nat) (k : Folding) (leaves rs : List Term) : Prop where
  later : Later s s'
  normalized : s'.Normalized
  nonempty : rs ≠ []
  width : ∀ r ∈ rs, s'.HasWidth r w
  amount : s'.amount k.op w (k.flatten s' rs) = s'.amount k.op w (k.flatten s' leaves)

/-- The constructor makes one word of words. -/
theorem Gathers.of_build (hw : s.Wf) (hs : s.Normalized) (hne : args ≠ [])
    (hargs : ∀ a ∈ args, s.HasWidth a w)
    (h : k.build args s = .ok r s') : Gathers s s' w k args [r] := by
  have hchk := checkBvArgs_ok hne hargs
  have hspec : (Later s s' ∧ s'.HasWidth r w) ∧ s'.Normalized := by
    obtain ⟨a, ha⟩ := List.exists_mem_of_ne_nil args hne
    cases k with
    | sum =>
      obtain ⟨hlater, ty, w', hty, hall, hden⟩ := (bvSum_builds hw args).of_ok h
      obtain rfl : w' = w := HasWidth.unique ⟨ty, hall a ha, hty⟩ (hargs a ha)
      exact ⟨⟨hlater, ty, hden.has, hlater.ext.ty hty⟩, (Normalizes.bvSum hs hw args).of_ok h⟩
    | product =>
      obtain ⟨hlater, ty, w', hty, hall, hden⟩ := (bvProduct_builds hw args).of_ok h
      obtain rfl : w' = w := HasWidth.unique ⟨ty, hall a ha, hty⟩ (hargs a ha)
      exact ⟨⟨hlater, ty, hden.has, hlater.ext.ty hty⟩, (Normalizes.bvProduct hs hw args).of_ok h⟩
  obtain ⟨⟨hlater, hr⟩, hs'⟩ := hspec
  refine ⟨hlater, hs', List.cons_ne_nil r [], List.forall_mem_singleton.mpr hr, ?_⟩
  rw [Folding.amount_of_build hw hs hchk h, amount_later hw hs hargs hlater]

mutual

/-- A grouping amounts to what its words amount to. -/
theorem gathers_of_grouping : ∀ (g : Grouping) {s s' : Store} {r : Term}, s.Wf → s.Normalized →
    (∀ t ∈ g.leaves, s.HasWidth t w) → g.build k s = .ok r s' → Gathers s s' w k g.leaves [r]
  | .single t, s, s', r, hw, hs, hleaves, h => by
    cases h
    exact ⟨later_frame.refl hw, hs, List.cons_ne_nil _ _, hleaves, rfl⟩
  | .group parts, s, s', r, hw, hs, hleaves, h => by
    obtain ⟨rs, s₁, hparts, h⟩ := bind_eq_ok.mp h
    have hgathered := gathers_of_groupings parts hw hs hleaves hparts
    have hbuilt := Gathers.of_build hgathered.later.wf hgathered.normalized hgathered.nonempty
      hgathered.width h
    have hleaves₁ : ∀ t ∈ parts.leaves, s₁.HasWidth t w :=
      fun t ht => hgathered.later.ext.hasWidth (hleaves t ht)
    refine ⟨later_frame.trans hgathered.later hbuilt.later, hbuilt.normalized, hbuilt.nonempty,
      hbuilt.width, ?_⟩
    calc
      s'.amount k.op w (k.flatten s' [r]) = s'.amount k.op w (k.flatten s' rs) := hbuilt.amount
      _ = s₁.amount k.op w (k.flatten s₁ rs) :=
        amount_later hgathered.later.wf hgathered.normalized hgathered.width hbuilt.later
      _ = s₁.amount k.op w (k.flatten s₁ parts.leaves) := hgathered.amount
      _ = s'.amount k.op w (k.flatten s' parts.leaves) :=
        (amount_later hgathered.later.wf hgathered.normalized hleaves₁ hbuilt.later).symm

theorem gathers_of_groupings :
    ∀ (gs : Groupings) {s s' : Store} {rs : List Term}, s.Wf → s.Normalized →
    (∀ t ∈ gs.leaves, s.HasWidth t w) → gs.build k s = .ok rs s' → Gathers s s' w k gs.leaves rs
  | .one g, s, s', rs, hw, hs, hleaves, h => by
    obtain ⟨r, s₁, hg, h⟩ := bind_eq_ok.mp h
    cases h
    exact gathers_of_grouping g hw hs hleaves hg
  | .more g rest, s, s', ts, hw, hs, hleaves, h => by
    obtain ⟨r, s₁, hg, h⟩ := bind_eq_ok.mp h
    obtain ⟨rs, s₂, hrest, h⟩ := bind_eq_ok.mp h
    cases h
    obtain ⟨hfirst, hothers⟩ := List.forall_mem_append.mp hleaves
    have hone := gathers_of_grouping g hw hs hfirst hg
    have hmany := gathers_of_groupings rest hone.later.wf hone.normalized
      (fun t ht => hone.later.ext.hasWidth (hothers t ht)) hrest
    refine ⟨later_frame.trans hone.later hmany.later, hmany.normalized, List.cons_ne_nil _ _, ?_,
      ?_⟩
    · exact List.forall_mem_cons.mpr ⟨hmany.later.ext.hasWidth (hone.width r List.mem_cons_self),
        hmany.width⟩
    · have hleaves₁ : ∀ t ∈ g.leaves, s₁.HasWidth t w :=
        fun t ht => hone.later.ext.hasWidth (hfirst t ht)
      have hhead : s'.amount k.op w (k.flatten s' [r]) = s'.amount k.op w
          (k.flatten s' g.leaves) := by
        rw [amount_later hone.later.wf hone.normalized hone.width hmany.later, hone.amount,
          amount_later hone.later.wf hone.normalized hleaves₁ hmany.later]
      have happend (ts us : List Term) :
          k.flatten s' (ts ++ us) = k.flatten s' ts ++ k.flatten s' us := by
        rw [Folding.flatten_eq, List.flatMap_append, ← Folding.flatten_eq, ← Folding.flatten_eq]
      show s'.amount k.op w (k.flatten s' ([r] ++ rs)) = s'.amount k.op w
        (k.flatten s' (g.leaves ++ rest.leaves))
      rw [happend, happend]
      exact amount_append_congr hhead hmany.amount

end

mutual

/-- Sums of words of one width are never refused. -/
theorem granted_of_grouping : ∀ (g : Grouping) {s : Store}, s.Wf → s.Normalized →
    (∀ t ∈ g.leaves, s.HasWidth t w) →
    Granted (g.build .sum) s
  | .single t, _, _, _, _ => .pure t
  | .group parts, s, hw, hs, hleaves =>
    .bind (granted_of_groupings parts hw hs hleaves) fun rs s₁ hparts => by
      have hgathered := gathers_of_groupings parts hw hs hleaves hparts
      exact granted_bvSum hgathered.later.wf hgathered.nonempty hgathered.width

theorem granted_of_groupings : ∀ (gs : Groupings) {s : Store}, s.Wf → s.Normalized →
    (∀ t ∈ gs.leaves, s.HasWidth t w) → Granted (gs.build .sum) s
  | .one g, s, hw, hs, hleaves => .bind (granted_of_grouping g hw hs hleaves) fun _ _ _ => .pure _
  | .more g rest, s, hw, hs, hleaves => by
    obtain ⟨hfirst, hothers⟩ := List.forall_mem_append.mp hleaves
    refine .bind (granted_of_grouping g hw hs hfirst) fun r s₁ hg => ?_
    have hone := gathers_of_grouping g hw hs hfirst hg
    refine .bind (granted_of_groupings rest hone.later.wf hone.normalized fun t ht => ?_)
      fun _ _ _ => .pure _
    exact hone.later.ext.hasWidth (hothers t ht)

end

theorem Reached.of_ok {α : Type} {op : Op α} {a : α} (h : Reached s) (hop : Builder op)
    (hok : op s = .ok a s') :
    Reached s' := by
  have hreached := h.build hop
  rwa [hok] at hreached

mutual

theorem reached_of_grouping : ∀ (g : Grouping) {s s' : Store} {r : Term}, Reached s →
    g.build k s = .ok r s' → Reached s'
  | .single t, s, s', r, hs, h => by
    cases h
    exact hs
  | .group parts, s, s', r, hs, h => by
    obtain ⟨rs, s₁, hparts, h⟩ := bind_eq_ok.mp h
    have hbuilder : Builder (k.build rs) := by
      cases k with
      | sum => exact .bvSum rs
      | product => exact .bvProduct rs
    exact (reached_of_groupings parts hs hparts).of_ok hbuilder h

theorem reached_of_groupings :
    ∀ (gs : Groupings) {s s' : Store} {rs : List Term}, Reached s → gs.build k s = .ok rs s' →
    Reached s'
  | .one g, s, s', rs, hs, h => by
    obtain ⟨r, s₁, hg, h⟩ := bind_eq_ok.mp h
    cases h
    exact reached_of_grouping g hs hg
  | .more g rest, s, s', ts, hs, h => by
    obtain ⟨r, s₁, hg, h⟩ := bind_eq_ok.mp h
    obtain ⟨rs, s₂, hrest, h⟩ := bind_eq_ok.mp h
    cases h
    exact reached_of_groupings rest (reached_of_grouping g hs hg) hrest

end

/-! ## Building again -/

/-- What is built again later, in whatever order and whatever groups, is the term that it was
before. Where the arguments are not grouped, nothing is stored for it. -/
structure Canonical (s : Store) : Prop where
  or : ∀ {args args' : List Term}, (∀ a ∈ args, s.Has a .bool) → (∀ a ∈ args', s.Has a .bool) →
    (∀ t, t ≠ .bot → (t ∈ args ↔ t ∈ args')) → ∃ r s₁, Store.or args s = .ok r s₁ ∧ Reached s₁ ∧
      ∀ s₂, Reached s₂ → s₁.Extends s₂ → Store.or args' s₂ = .ok r s₂
  sum_reordered : ∀ {args args' : List Term} {w : Nat}, args ≠ [] → (∀ a ∈ args, s.HasWidth a w) →
    args.Perm args' →
    ∃ r s₁, bvSum args s = .ok r s₁ ∧ Reached s₁ ∧ ∀ s₂, Reached s₂ → s₁.Extends s₂ →
      bvSum args' s₂ = .ok r s₂
  sum_regrouped : ∀ {g g' : Grouping} {w : Nat}, (∀ t ∈ g.leaves, s.HasWidth t w) →
    g.leaves.Perm g'.leaves →
    ∃ r s₁, g.build .sum s = .ok r s₁ ∧ Reached s₁ ∧
      ∀ s₂, Reached s₂ → s₁.Extends s₂ → ∃ s₃, g'.build .sum s₂ = .ok r s₃
  product_reordered : ∀ {args args' : List Term} {r : Term} {s₁ : Store},
    bvProduct args s = .ok r s₁ → args.Perm args' →
    Reached s₁ ∧ ∀ s₂, Reached s₂ → s₁.Extends s₂ → bvProduct args' s₂ = .ok r s₂
  product_regrouped : ∀ {g g' : Grouping} {w : Nat} {r : Term} {s₁ : Store},
    (∀ t ∈ g.leaves, s.HasWidth t w) →
    g.leaves.Perm g'.leaves → g.build .product s = .ok r s₁ → Reached s₁ ∧
      ∀ s₂, Reached s₂ → s₁.Extends s₂ → ∀ {r' s₃}, g'.build .product s₂ = .ok r' s₃ → r' = r

/-- Words that were built once are found again in every order. -/
theorem build_reordered (h : Reached s) (hne : args ≠ []) (hargs : ∀ a ∈ args, s.HasWidth a w)
    (hperm : args.Perm args')
    (hbuild : k.build args s = .ok r s₁) (h₂ : Reached s₂) (hext : s₁.Extends s₂) :
    k.build args' s₂ = .ok r s₂ := by
  have hbuilt := Gathers.of_build h.intact.wf h.normalized hne hargs hbuild
  have hlater : Later s₁ s₂ := ⟨h₂.intact.wf, hext⟩
  have hargs₁ : ∀ a ∈ args, s₁.HasWidth a w := fun a ha => hbuilt.later.ext.hasWidth (hargs a ha)
  have hr := hext.hasWidth (hbuilt.width r List.mem_cons_self)
  refine Folding.build_of_amount h₂.intact.wf h₂.normalized ?_ (fun a ha => ?_) hr ?_
  · rintro rfl
    exact hne hperm.eq_nil
  · exact hext.hasWidth (hargs₁ a (hperm.mem_iff.mpr ha))
  · calc
      s₂.amount k.op w (k.flatten s₂ args') = s₂.amount k.op w (k.flatten s₂ args) := by
        rw [Folding.flatten_eq args', Folding.flatten_eq args]
        exact amount_perm (hperm.symm.flatMap_right _)
      _ = s₁.amount k.op w (k.flatten s₁ args) :=
        amount_later hbuilt.later.wf hbuilt.normalized hargs₁ hlater
      _ = s₁.amount k.op w (k.flatten s₁ [r]) := hbuilt.amount.symm
      _ = s₂.amount k.op w (k.flatten s₂ [r]) :=
        (amount_later hbuilt.later.wf hbuilt.normalized hbuilt.width hlater).symm

/-- Groupings of the same words are the same term. -/
theorem build_regrouped {g g' : Grouping} (h : Reached s) (hleaves : ∀ t ∈ g.leaves, s.HasWidth t w)
    (hperm : g.leaves.Perm g'.leaves) (hbuild : g.build k s = .ok r s₁) (h₂ : Reached s₂)
    (hext : s₁.Extends s₂) {s₃ : Store} (hbuild' : g'.build k s₂ = .ok r' s₃) : r' = r := by
  have hfirst := gathers_of_grouping g h.intact.wf h.normalized hleaves hbuild
  have hleaves₁ : ∀ t ∈ g.leaves, s₁.HasWidth t w :=
    fun t ht => hfirst.later.ext.hasWidth (hleaves t ht)
  have hleaves₂ : ∀ t ∈ g'.leaves, s₂.HasWidth t w :=
    fun t ht => hext.hasWidth (hleaves₁ t (hperm.mem_iff.mpr ht))
  have hagain := gathers_of_grouping g' h₂.intact.wf h₂.normalized hleaves₂ hbuild'
  have hlater : Later s₁ s₃ := later_frame.trans ⟨h₂.intact.wf, hext⟩ hagain.later
  have hr := hlater.ext.hasWidth (hfirst.width r List.mem_cons_self)
  refine eq_of_amount (k := k) hagain.later.wf hagain.normalized
    (hagain.width r' List.mem_cons_self) hr ?_
  calc
    s₃.amount k.op w (k.flatten s₃ [r']) = s₃.amount k.op w (k.flatten s₃ g'.leaves) :=
      hagain.amount
    _ = s₃.amount k.op w (k.flatten s₃ g.leaves) := by
      rw [Folding.flatten_eq g'.leaves, Folding.flatten_eq g.leaves]
      exact amount_perm (hperm.symm.flatMap_right _)
    _ = s₁.amount k.op w (k.flatten s₁ g.leaves) :=
      amount_later hfirst.later.wf hfirst.normalized hleaves₁ hlater
    _ = s₁.amount k.op w (k.flatten s₁ [r]) := hfirst.amount.symm
    _ = s₃.amount k.op w (k.flatten s₃ [r]) :=
      (amount_later hfirst.later.wf hfirst.normalized hfirst.width hlater).symm

/-- However a store was used, what it answers does not depend on the order and the grouping
of arguments. -/
theorem canonical_of_reached (h : Reached s) : s.Canonical where
  or {args args'} hargs hargs' hmem := by
    have hw := h.intact.wf
    obtain ⟨r, s₁, hor⟩ := granted_or hargs
    refine ⟨r, s₁, hor, h.of_ok (.or args) hor, fun s₂ h₂ hext => ?_⟩
    have hlater := ((or_builds hw args).of_ok hor).1
    have hargs₂ : ∀ a ∈ args', s₂.checkBool a = .ok () := fun a ha =>
      (hext.has (hlater.ext.has (hargs' a ha))).checkBool
    unfold Store.or at hor ⊢
    rw [read_bind_of_ok (forM_ok fun a ha => (hargs a ha).checkBool)] at hor
    rw [read_bind_of_ok (forM_ok hargs₂), ← orOf_congr hmem]
    exact orOf_again hw h₂.intact.wf hor hext
  sum_reordered {args args' w} hne hargs hperm := by
    obtain ⟨r, s₁, hsum⟩ := granted_bvSum h.intact.wf hne hargs
    exact ⟨r, s₁, hsum, h.of_ok (.bvSum args) hsum, fun s₂ h₂ hext =>
      build_reordered (k := .sum) h hne hargs hperm hsum h₂ hext⟩
  sum_regrouped {g g' w} hleaves hperm := by
    obtain ⟨r, s₁, hsum⟩ := granted_of_grouping g h.intact.wf h.normalized hleaves
    have hfirst := gathers_of_grouping g h.intact.wf h.normalized hleaves hsum
    refine ⟨r, s₁, hsum, reached_of_grouping g h hsum, fun s₂ h₂ hext => ?_⟩
    have hleaves₂ : ∀ t ∈ g'.leaves, s₂.HasWidth t w := fun t ht =>
      hext.hasWidth (hfirst.later.ext.hasWidth (hleaves t (hperm.mem_iff.mpr ht)))
    obtain ⟨r', s₃, hsum'⟩ := granted_of_grouping g' h₂.intact.wf h₂.normalized hleaves₂
    obtain rfl := build_regrouped h hleaves hperm hsum h₂ hext hsum'
    exact ⟨s₃, hsum'⟩
  product_reordered {args args' r s₁} hproduct hperm := by
    refine ⟨h.of_ok (.bvProduct args) hproduct, fun s₂ h₂ hext => ?_⟩
    obtain ⟨w, s', hread, -⟩ := bind_eq_ok.mp hproduct
    obtain ⟨hne, hargs⟩ := checkBvArgs_eq_ok (read_eq_ok.mp hread).1
    exact build_reordered (k := .product) h hne hargs hperm hproduct h₂ hext
  product_regrouped {g g' w r s₁} hleaves hperm hproduct :=
    ⟨reached_of_grouping g h hproduct, fun s₂ h₂ hext _ _ hproduct' =>
      build_regrouped h hleaves hperm hproduct h₂ hext hproduct'⟩

/-- Two constants and 3 are the same sum whichever two of them are added first. -/
theorem canonical_summed :
    let left : Grouping :=
  .group (.more (.group (.more (.single (.ofIndex 4)) (.one (.single (.ofIndex 3)))))
      (.one (.single (.ofIndex 2))))
    let right : Grouping :=
      .group (.more (.single (.ofIndex 2)) (.one (.group (.more (.single (.ofIndex 3))
      (.one (.single (.ofIndex 4)))))))
    Reached summed ∧ summed.Canonical ∧ (∀ t ∈ left.leaves, summed.HasWidth t 8) ∧
      left.leaves.Perm right.leaves ∧
      ∃ r s₁, left.build .sum summed = .ok r s₁ ∧ ∃ s₂, right.build .sum s₁ = .ok r s₂ := by
  intro left right
  have hcanonical := canonical_of_reached reached_summed
  have hchk : summed.checkBvArgs [.ofIndex 4, .ofIndex 3, .ofIndex 2] = .ok 8 := by cbv
  have hwidths : ∀ t ∈ left.leaves, summed.HasWidth t 8 := (checkBvArgs_eq_ok hchk).2
  have hperm : left.leaves.Perm right.leaves := by decide
  obtain ⟨r, s₁, hleft, hreached, hagain⟩ := hcanonical.sum_regrouped hwidths hperm
  exact ⟨reached_summed, hcanonical, hwidths, hperm, r, s₁, hleft, hagain s₁ hreached (.refl s₁)⟩

end Store
end Entail
