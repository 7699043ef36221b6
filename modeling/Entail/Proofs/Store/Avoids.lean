import Entail.Proofs.Store.Made

/-!
# Constants that do not occur

A term avoids a set of constants when none of them is among its subterms. Constructors put terms
together and never bring in a constant of their own, so what they build from terms that avoid a set
avoids it, too. A substitution also takes constants out: those that it replaces may occur in a term,
but not in what the term becomes.
-/

namespace Entail.Store

variable {s s' base : Store} {X Y : Term → Prop} {σ : Subst} {α β : Type} {t u c a b : Term}
  {args : List Term}

/-- The subterms of `t` are in the store, and none of them is in `X`. -/
def Avoids (s : Store) (X : Term → Prop) (t : Term) : Prop :=
  ∀ u, s.Below t u → (∃ n, s.node? u = some n) ∧ ¬ X u.positive

namespace Avoids

/-- Polarity does not matter. -/
theorem congr (h : s.Avoids X t) (hi : u.index = t.index) : s.Avoids X u := fun v hv => h v (by
  unfold Below at hv ⊢
  rwa [hi] at hv)

/-- The negation of a term mentions what the term mentions. -/
theorem neg (h : s.Avoids X t) : s.Avoids X t.neg := h.congr (Term.index_neg t)

theorem positive (h : s.Avoids X t) : s.Avoids X t.positive := h.congr (Term.index_positive t)

theorem negIf (h : s.Avoids X t) (flip : Bool) : s.Avoids X (t.negIf flip) := by
  cases flip with
  | false => exact h
  | true => exact h.neg

theorem live (h : s.Avoids X t) : ∃ n, s.node? t = some n := (h t .refl).1

theorem not_mem (h : s.Avoids X t) : ¬ X t.positive := (h t .refl).2

/-- What is below a term mentions no more than the term. -/
theorem below (h : s.Avoids X t) (hu : s.Below t u) : s.Avoids X u := fun v hv => h v (hu.trans hv)

theorem child (h : s.Avoids X t) {n : Term.Shape × Ty} (hn : s.node? t = some n)
    (hc : c ∈ n.1.children) :
    s.Avoids X c := h.below (Below.child .refl hn hc)

/-- The parts of a term avoid what it avoids. -/
theorem part (h : s.Avoids X t) (hc : c ∈ (s.shape t).children) : s.Avoids X c := by
  obtain ⟨n, hn⟩ := h.live
  rw [shape_of_node hn] at hc
  exact h.child hn hc

theorem arg (h : s.Avoids X t) {f : Term} (hshape : s.shape t = .app f args) :
    ∀ a ∈ args, s.Avoids X a := fun a ha =>
  h.part (by rw [hshape]; exact List.mem_cons_of_mem f ha)

/-- To avoid more is to avoid less. -/
theorem mono (h : s.Avoids X t) (hXY : ∀ u, Y u → X u) : s.Avoids Y t := fun u hu =>
  ⟨(h u hu).1, fun hy => (h u hu).2 (hXY _ hy)⟩

/-- A term avoids the constants that it is none of, if its children avoid them. -/
theorem of_node {n : Term.Shape × Ty} (hn : s.node? t = some n) (hx : ¬ X t.positive)
    (hparts : ∀ c ∈ n.1.children, s.Avoids X c) : s.Avoids X t := by
  intro u hu
  rcases Relation.ReflTransGen.cases_head hu with heq | ⟨j, ⟨shape, ty, c, hget, hc, rfl⟩, hj⟩
  · refine ⟨⟨n, ?_⟩, fun h => hx ?_⟩
    · rw [← hn, node?, node?, heq]
    · rwa [Term.positive, show t.raw / 2 = u.raw / 2 from heq]
  · cases hn.symm.trans hget
    exact hparts c hc u hj

/-- A term that has parts is no constant. -/
theorem of_shape (hs : s.HasConstants X) {n : Term.Shape × Ty} (hn : s.node? t = some n)
    (hshape : n.1.isUninterpreted = false) (hparts : ∀ c ∈ n.1.children, s.Avoids X c) :
    s.Avoids X t := by
  refine .of_node hn (fun hx => ?_) hparts
  have hp : s.node? t.positive = some n := by rw [node?, Term.index_positive]; exact hn
  have := hs.const hx
  rw [shape_of_node hp, hshape] at this
  cases this

/-- Only the subterms matter. -/
theorem of_nodes (h : s.Avoids X t)
    (hnode : ∀ {u n}, s.Below t u → s.node? u = some n → s'.node? u = some n) :
    s'.Avoids X t := by
  have hback {u : Term} (hu : s'.Below t u) : s.Below t u := by
    unfold Below at hu ⊢
    generalize u.index = i at hu
    induction hu with
    | refl => exact .refl
    | @tail j k _ hstep ih =>
      obtain ⟨shape, ty, c, hget, hc, hci⟩ := hstep
      have hbelow : s.Below t (.ofIndex j) := by rwa [Below, Term.index_ofIndex]
      obtain ⟨⟨n, hn⟩, -⟩ := h _ hbelow
      have hn' := hnode hbelow hn
      rw [node?, Term.index_ofIndex] at hn hn'
      cases hn'.symm.trans hget
      exact ih.tail ⟨shape, ty, c, hn, hc, hci⟩
  intro u hu
  obtain ⟨⟨n, hn⟩, hx⟩ := h u (hback hu)
  exact ⟨⟨n, hnode (hback hu) hn⟩, hx⟩

/-- A term avoids the same constants in every store that retains it. -/
theorem retains (h : s.Avoids X t) (hs : Retains s s') : s'.Avoids X t :=
  h.of_nodes fun _ => hs.node

/-- A term avoids the same constants in a store in which it stays what it is. -/
theorem stays (h : s.Avoids X t) (hs : s.Stays s' t) : s'.Avoids X t := h.of_nodes fun hu hn => by
  obtain ⟨m, hm, hm'⟩ := hs.node hu
  rwa [Option.some.inj (hn.symm.trans hm)]

theorem or (h : s.Avoids X t) (h' : s.Avoids Y t) : s.Avoids (fun u => X u ∨ Y u) t := fun u hu =>
  ⟨(h u hu).1, fun hx => hx.elim (h u hu).2 (h' u hu).2⟩

theorem top (hs : s.HasConstants X) : s.Avoids X .top := .of_shape hs hs.truth rfl nofun

end Avoids

/-- In a well-formed store the subterms of a live term are there, so only their names matter. -/
theorem avoids_iff (hw : s.Wf) (ht : ∃ n, s.node? t = some n)
    (hX : ∀ x, X x → x.isNegated = false) :
    s.Avoids X t ↔ ∀ x, X x → ¬ s.Below t x := by
  constructor
  · intro h x hx hbelow
    exact (h x hbelow).2 (by rwa [Term.positive_of_not_isNegated (hX x hx)])
  · intro h u hu
    refine ⟨?_, fun hx => h _ hx ?_⟩
    · obtain ⟨⟨shape, ty⟩, hn⟩ := ht
      have hvalid : s.isValid t.positive = true := isValid_iff.mpr ⟨ty, ⟨⟨shape, by
        rw [node?, Term.index_positive]; exact hn⟩, by simp⟩⟩
      refine Below.live hw (t := t.positive) ?_ hvalid
      rwa [Below, Term.index_positive]
    · rwa [Below, Term.index_positive]

/-- Whether a live term occurs in another is whether it is below it. -/
theorem occurs_iff (hw : s.Wf) {x : Term} (hx : ∃ n, s.node? x = some n) :
    s.occurs x t = true ↔ s.Below t x := by
  have hpos : x.positive = .ofIndex x.index := rfl
  unfold occurs
  rw [Std.HashSet.contains_iff_mem, hpos, mem_seen_walkAll hw [t] (Arena.isLive_iff.mpr hx)]
  simp [Below]

/-! ## Operations that bring in no constants -/

/-- From `s`, the operation retains all terms, and what it answers avoids `X`. -/
abbrev Avoiding (X : Term → Prop) (s : Store) (op : Op Term) : Prop :=
  Leads Retains s op fun t s' => s'.Avoids X t

namespace Made

variable {given : Term → Prop} {allowed : Term.Shape → Prop}

/-- A term that is made of terms that avoid the constants avoids them. -/
theorem avoids (h : s.Made given allowed t) (hs : s.HasConstants X)
    (hgiven : ∀ u, given u → s.Avoids X u)
    (hallowed : ∀ shape, allowed shape → shape.isUninterpreted = false ∧ ∀ c ∈ shape.children,
      s.Avoids X c) :
    s.Avoids X t := by
  induction h with
  | top => exact .top hs
  | given h => exact hgiven _ h
  | node hn h => exact .of_shape hs hn (hallowed _ h).1 (hallowed _ h).2
  | neg _ ih => exact ih.neg

end Made

/-- A value mentions no constant. -/
theorem IsValue.avoids (h : s.IsValue t) (hs : s.HasConstants X) : s.Avoids X t := by
  obtain ⟨w, n, ty, hn⟩ := h
  exact .of_shape hs hn rfl nofun

theorem Material.avoids (h : s.Material args t) (hargs : ∀ a ∈ args, s.Avoids X a) :
    s.Avoids X t := by
  obtain ⟨a, ha, rfl | ⟨-, hpart⟩⟩ := h
  · exact hargs _ ha
  · exact (hargs a ha).part hpart

/-- The parts of a shape over terms that avoid `X` avoid it. -/
theorem Over.avoids {D : Term → Prop} {shape : Term.Shape} (h : Over D shape)
    (hD : ∀ u, D u → s.Avoids X u) :
    ∀ c ∈ shape.children, s.Avoids X c := fun c hc => by
  rcases h c hc with hc | hc
  · exact hD c hc
  · exact Term.neg_neg c ▸ (hD _ hc).neg

section

variable (hs : s.HasConstants X)

include hs

/-- What is made of terms that avoid `X` does so. -/
theorem Makes.avoiding {op : Op Term} {given : Store → Term → Prop}
    {allowed : Store → Term.Shape → Prop}
    (h : Makes s op given allowed) (hgiven : ∀ s', Retains s s' → ∀ u, given s' u → s'.Avoids X u)
    (hallowed : ∀ s', Retains s s' → ∀ shape, allowed s' shape →
      shape.isUninterpreted = false ∧ ∀ c ∈ shape.children, s'.Avoids X c) : Avoiding X s op :=
  h.mono fun _ s' hr ht => ht.avoids (retains_frame.stable hs hr) (hgiven s' hr) (hallowed s' hr)

/-- A node over terms that avoid `X`. -/
theorem Makes.avoiding_node {op : Op Term} {shape : Term.Shape}
    (h : Makes s op (fun _ _ => False) fun _ shape' => shape' = shape)
    (hshape : shape.isUninterpreted = false)
    (hparts : ∀ c ∈ shape.children, s.Avoids X c) : Avoiding X s op :=
  Makes.avoiding hs h (fun _ _ _ => False.elim) fun _ hr _ heq =>
    heq ▸ ⟨hshape, fun c hc => (hparts c hc).retains hr⟩

/-- A constructor that connects its arguments mentions the constants that these mention. -/
theorem Connects.avoiding {op : Op Term} {D : Term → Prop} (h : Connects s op D)
    (hD : ∀ t, D t → s.Avoids X t) :
    Avoiding X s op := by
  refine Makes.avoiding hs h (fun _ hr u hu => (hD u hu).retains hr) fun s' hr shape hshape =>
    ⟨?_, ?_⟩
  · cases shape <;> first | rfl | cases hshape.1
  · exact hshape.2.avoids fun u hu => (hD u hu).retains hr

/-- A constructor that combines its operands mentions the constants that these mention. -/
theorem Combines.avoiding {op : Op Term} (h : Combines s op args)
    (hargs : ∀ a ∈ args, s.Avoids X a) :
    Avoiding X s op := by
  have hgiven {s' : Store} (hr : Retains s s') {u : Term} (hu : s.Material args u ∨ s'.IsValue u) :
      s'.Avoids X u :=
    hu.elim (fun hu => (hu.avoids hargs).retains hr) fun hu =>
      hu.avoids (retains_frame.stable hs hr)
  refine Makes.avoiding hs h (fun _ hr _ => hgiven hr) fun s' hr shape hshape =>
    ⟨?_, hshape.2.avoids fun _ => hgiven hr⟩
  cases shape <;> first | rfl | cases hshape.1

theorem avoiding_pure (ht : s.Avoids X t) : Avoiding X s (pure t) := leads_pure hs ht

/-- Disjunctions avoid what their members avoid. The same is said of each constructor below. -/
theorem or_avoiding (hargs : ∀ a ∈ args, s.Avoids X a) : Avoiding X s (or args) :=
  Connects.avoiding hs (or_connects hs args) hargs

theorem xor2_avoiding (ha : s.Avoids X a) (hb : s.Avoids X b) : Avoiding X s (xor2 a b) :=
  Connects.avoiding hs (xor2_connects hs a b) (forall_mem_pair ha hb)

theorem ite_avoiding (hc : s.Avoids X c) (ha : s.Avoids X a) (hb : s.Avoids X b) :
    Avoiding X s (ite c a b) := by
  have hargs : ∀ t ∈ [c, a, b], s.Avoids X t := by simp [hc, ha, hb]
  refine Connects.avoiding hs (ite_connects hs c a b) fun t ht => ?_
  rcases ht with ht | ht
  · exact hargs t ht
  · exact Term.neg_neg t ▸ (hargs _ ht).neg

theorem eq_avoiding (ha : s.Avoids X a) (hb : s.Avoids X b) : Avoiding X s (eq a b) := by
  have hargs {s' : Store} (hr : Retains s s') : ∀ t ∈ [a, b], s'.Avoids X t :=
    forall_mem_pair (ha.retains hr) (hb.retains hr)
  refine Makes.avoiding hs (eq_makes hs a b) (fun _ hr u hu => hargs hr u hu.2)
    fun s' hr shape hshape => ?_
  rcases hshape with ⟨-, hconn, hover⟩ | rfl | rfl
  · refine ⟨?_, hover.avoids (hargs hr)⟩
    cases shape <;> first | rfl | cases hconn
  · exact ⟨rfl, hargs hr⟩
  · exact ⟨rfl, forall_mem_pair (hb.retains hr) (ha.retains hr)⟩

theorem app_avoiding {f : Term} (hf : s.Avoids X f) (hargs : ∀ a ∈ args, s.Avoids X a) :
    Avoiding X s (app f args) :=
  Makes.avoiding_node hs (app_makes hs f args) rfl (List.forall_mem_cons.mpr ⟨hf, hargs⟩)

theorem all_avoiding {vars : List Term} {body : Term} (hvars : ∀ v ∈ vars, s.Avoids X v)
    (hbody : s.Avoids X body) :
    Avoiding X s (all vars body) :=
  Makes.avoiding_node hs (all_makes hs vars body) rfl
    (List.forall_mem_append.mpr ⟨hvars, by simp [hbody]⟩)

theorem bvSum_avoiding (hargs : ∀ a ∈ args, s.Avoids X a) : Avoiding X s (bvSum args) :=
  Combines.avoiding hs (bvSum_combines hs args) hargs

theorem bvProduct_avoiding (hargs : ∀ a ∈ args, s.Avoids X a) : Avoiding X s (bvProduct args) :=
  Combines.avoiding hs (bvProduct_combines hs args) hargs

theorem bvNeg_avoiding (ha : s.Avoids X a) : Avoiding X s (bvNeg a) :=
  Combines.avoiding hs (bvNeg_combines hs a) (by simp [ha])

theorem bvSub_avoiding (ha : s.Avoids X a) (hb : s.Avoids X b) : Avoiding X s (bvSub a b) := by
  refine leads_read_bind hs fun _ _ => leads_bind hs (bvNeg_avoiding hs hb) fun nb s' hs' hr hnb =>
    ?_
  exact bvSum_avoiding hs' (forall_mem_pair (ha.retains hr) hnb)

theorem bvGe_avoiding (ha : s.Avoids X a) (hb : s.Avoids X b) : Avoiding X s (bvGe a b) :=
  Makes.avoiding_node hs (bvGe_makes hs a b) rfl (forall_mem_pair ha hb)

theorem bvSge_avoiding (ha : s.Avoids X a) (hb : s.Avoids X b) : Avoiding X s (bvSge a b) :=
  Makes.avoiding_node hs (bvSge_makes hs a b) rfl (forall_mem_pair ha hb)

theorem bit_avoiding (ha : s.Avoids X a) (i : Nat) : Avoiding X s (bit a i) :=
  Makes.avoiding_node hs (bit_makes hs a i) rfl (List.forall_mem_singleton.mpr ha)

end

/-! ## Substitution -/

/-- What is put for terms avoids `X`. -/
def Sheds (s : Store) (X : Term → Prop) (σ : Subst) : Prop :=
  ∀ x v : Term, σ[x]? = some v → s.Avoids X v

theorem sheds_empty (s : Store) (X : Term → Prop) : s.Sheds X ∅ := fun _ _ h => by simp at h

theorem Sheds.retains (h : s.Sheds X σ) (hs : Retains s s') : s'.Sheds X σ :=
  fun x v hx => (h x v hx).retains hs

/-- A substitution sheds the constants still if one more term becomes a term that avoids them. -/
theorem Sheds.insert (h : s.Sheds X σ) {x v : Term} (hv : s.Avoids X v) :
    s.Sheds X (σ.insert x v) := by
  intro y u hy
  rw [Std.HashMap.getElem?_insert] at hy
  split at hy
  · cases hy
    exact hv
  · exact h y u hy

/-- With a memory of terms that avoid `X`, the operation answers as `Q` says, and the
memory stays so. -/
def Shedding (X : Term → Prop) (s : Store) (op : SubstOp α) (Q : α → Store → Prop) : Prop :=
  ∀ memo, s.Sheds X memo → Leads Retains s (op memo) fun x s' => Q x.1 s' ∧ s'.Sheds X x.2

namespace Shedding

variable {op : SubstOp α} {f : α → SubstOp β} {P Q : α → Store → Prop} {R : β → Store → Prop}

theorem pure (hs : s.HasConstants X) {x : α} (hx : Q x s) : Shedding X s (pure x) Q := fun _ hm =>
  Leads.pure retains_frame hs ⟨hx, hm⟩

/-- One step after another sheds, with the memory that the first left. -/
theorem bind (hs : s.HasConstants X) (h : Shedding X s op P)
    (hf : ∀ x s', s'.HasConstants X → Retains s s' → P x s' → Shedding X s' (f x) R) :
    Shedding X s (op >>= f) R :=
  fun memo hm => leads_bind hs (h memo hm) fun x s' hs' hr hx => hf x.1 s' hs' hr hx.1 x.2 hx.2

theorem lift (hs : s.HasConstants X) {op : Op α} (h : Leads Retains s op Q) :
    Shedding X s (liftM op) Q :=
  fun memo hm => leads_bind hs h fun x _ hs' hr hx =>
    Leads.pure (a := (x, memo)) retains_frame hs' ⟨hx, hm.retains hr⟩

theorem run' (hs : s.HasConstants X) {op : SubstOp α} (h : Shedding X s op Q) :
    Leads Retains s (op.run' ∅) Q :=
  Leads.map retains_frame hs (h ∅ (sheds_empty s X)) fun _ _ _ _ hx => hx.1

theorem look_bind {g : Store → α} (h : Shedding X s (f (g s)) R) :
    Shedding X s ((liftM (Store.look g) : SubstOp α) >>= f) R := h

theorem get_bind {g : Subst → SubstOp β} (h : ∀ memo, s.Sheds X memo → Shedding X s (g memo) R) :
    Shedding X s (get >>= g) R := fun memo hm => h memo hm memo hm

theorem modify_bind {g : Subst → Subst} {f : PUnit → SubstOp β}
    (hg : ∀ memo, s.Sheds X memo → s.Sheds X (g memo))
    (h : Shedding X s (f ⟨⟩) R) : Shedding X s (modify g >>= f) R :=
  fun memo hm => h (g memo) (hg memo hm)

/-- Substituting in a list sheds if it does so in every member. -/
theorem mapM (hs : s.HasConstants X) {sub : α → SubstOp Term} {as : List α}
    (hsub : ∀ a ∈ as, ∀ s', s'.HasConstants X → Retains s s' → Shedding X s' (sub a) fun t s'' =>
      s''.Avoids X t) :
    Shedding X s (as.mapM sub) fun ts s' => ∀ t ∈ ts, s'.Avoids X t := by
  induction as generalizing s with
  | nil => exact .pure hs nofun
  | cons a as ih =>
    rw [List.mapM_cons]
    refine .bind hs (hsub a List.mem_cons_self s hs (retains_frame.refl hs)) fun t s₁ hs₁ hr₁ ht =>
      ?_
    refine .bind hs₁ (ih hs₁ fun b hb s₂ hs₂ hr₂ =>
      hsub b (List.mem_cons_of_mem _ hb) s₂ hs₂ (hr₁.trans hr₂)) fun ts s₂ hs₂ hr₂ hts => ?_
    exact .pure hs₂ (List.forall_mem_cons.mpr ⟨ht.retains hr₂, hts⟩)

end Shedding

/-- Whatever retains `base`, `sub` makes terms that avoid `X` of those in which nothing of `X` is
left unreplaced. -/
def Removing (X : Term → Prop) (base : Store) (sub : Subst → Term → SubstOp Term) : Prop :=
  ∀ {s σ t}, s.HasConstants X → Retains base s → s.Sheds X σ →
    base.Avoids (fun x => X x ∧ σ[x]? = none) t →
    Shedding X s (sub σ t) fun r s' => s'.Avoids X r

section

variable {sub : Subst → Term → SubstOp Term} {p : Term}

/-- Rebuilding a term from its substituted parts sheds the constants, case by case over its
shape. -/
theorem rebuild_sheds (hsub : Removing X base sub) (hb : base.Wf) (hs : s.HasConstants X)
    (hr : Retains base s) (hσ : s.Sheds X σ) (hp : base.Avoids (fun x => X x ∧ σ[x]? = none) p)
    (hpos : p.isNegated = false)
    (hnone : σ[p]? = none) : Shedding X s (rebuild sub σ p) fun r s' => s'.Avoids X r := by
  obtain ⟨⟨shape, ty⟩, hn⟩ := hp.live
  have part {s₁ : Store} (h₁ : s₁.HasConstants X) (hr₁ : Retains s s₁) {c : Term}
    (hc : c ∈ shape.children) :
      Shedding X s₁ (sub σ c) fun r s' => s'.Avoids X r :=
    hsub h₁ (hr.trans hr₁) (hσ.retains hr₁) (hp.child hn hc)
  have many {s₁ : Store} (h₁ : s₁.HasConstants X) (hr₁ : Retains s s₁) {ts : List Term}
      (hts : ∀ t ∈ ts, t ∈ shape.children) :
      Shedding X s₁ (ts.mapM (sub σ)) fun rs s' => ∀ r ∈ rs, s'.Avoids X r :=
    .mapM h₁ fun t ht s₂ h₂ hr₂ => part h₂ (hr₁.trans hr₂) (hts t ht)
  have h₀ := retains_frame.refl hs
  -- an atom that is not replaced is not in `X`
  have hself (hatom : shape.children = []) : s.Avoids X p := by
    refine .of_node (hr.node hn) (fun hx => hp.not_mem ⟨hx, ?_⟩) fun c hc => ?_
    · rwa [Term.positive_of_not_isNegated hpos]
    · rw [hatom] at hc
      cases hc
  have one {a : Term} {mk : Term → Op Term} (ha : a ∈ shape.children)
      (hmk : ∀ {s₁ : Store} {a' : Term}, s₁.HasConstants X → s₁.Avoids X a' →
        Avoiding X s₁ (mk a')) :
      Shedding X s (do let a ← sub σ a; liftM (mk a)) fun r s' => s'.Avoids X r :=
    .bind hs (part hs h₀ ha) fun a' s₁ h₁ _ ha' => .lift h₁ (hmk h₁ ha')
  have two {a b : Term} {mk : Term → Term → Op Term} (ha : a ∈ shape.children)
    (hb : b ∈ shape.children)
      (hmk : ∀ {s₁ : Store} {a' b' : Term}, s₁.HasConstants X → s₁.Avoids X a' → s₁.Avoids X b' →
        Avoiding X s₁ (mk a' b')) :
      Shedding X s (do let a ← sub σ a; let b ← sub σ b; liftM (mk a b)) fun r s' =>
        s'.Avoids X r :=
    .bind hs (part hs h₀ ha) fun a' s₁ h₁ hr₁ ha' =>
        .bind h₁ (part h₁ hr₁ hb) fun b' s₂ h₂ hr₂ hb' =>
      .lift h₂ (hmk h₂ (ha'.retains hr₂) hb')
  have list {ts : List Term} {mk : List Term → Op Term} (hts : ∀ t ∈ ts, t ∈ shape.children)
      (hmk : ∀ {s₁ : Store} {ts' : List Term}, s₁.HasConstants X → (∀ t ∈ ts', s₁.Avoids X t) →
        Avoiding X s₁ (mk ts')) :
      Shedding X s (do let ts ← ts.mapM (sub σ); liftM (mk ts)) fun r s' => s'.Avoids X r :=
    .bind hs (many hs h₀ hts) fun ts' s₁ h₁ _ hts' => .lift h₁ (hmk h₁ hts')
  have hlook : s.shape? p = some shape := by
    unfold shape?
    rw [hr.node hn]
    rfl
  unfold rebuild
  refine .look_bind ?_
  rw [hlook]
  cases shape with
  | truth | bvConst | uninterpreted | var => exact .pure hs (hself rfl)
  | ite c a b =>
    refine .bind hs (part hs h₀ (by simp [Term.Shape.children])) fun c' s₁ h₁ hr₁ hc => ?_
    refine .bind h₁ (part h₁ hr₁ (by simp [Term.Shape.children])) fun a' s₂ h₂ hr₂ ha => ?_
    refine .bind h₂ (part h₂ (hr₁.trans hr₂) (by simp [Term.Shape.children]))
      fun b' s₃ h₃ hr₃ hb' => ?_
    exact .lift h₃ (ite_avoiding h₃ (hc.retains (hr₂.trans hr₃)) (ha.retains hr₃) hb')
  | eq a b => exact two (by simp [Term.Shape.children]) (by simp [Term.Shape.children]) eq_avoiding
  | xor a b =>
    exact two (by simp [Term.Shape.children]) (by simp [Term.Shape.children]) xor2_avoiding
  | bvGe a b =>
    exact two (by simp [Term.Shape.children]) (by simp [Term.Shape.children]) bvGe_avoiding
  | bvSge a b =>
    exact two (by simp [Term.Shape.children]) (by simp [Term.Shape.children]) bvSge_avoiding
  | bvNeg x => exact one (by simp [Term.Shape.children]) bvNeg_avoiding
  | bit x i => exact one (by simp [Term.Shape.children]) fun h ha => bit_avoiding h ha i
  | or args => exact list (fun _ => id) or_avoiding
  | bvSum args => exact list (fun _ => id) bvSum_avoiding
  | bvProduct args => exact list (fun _ => id) bvProduct_avoiding
  | app f args =>
    refine .bind hs (part hs h₀ List.mem_cons_self) fun f' s₁ h₁ hr₁ hf => ?_
    refine .bind h₁ (many h₁ hr₁ fun _ => List.mem_cons_of_mem _) fun args' s₂ h₂ hr₂ hargs => ?_
    exact .lift h₂ (app_avoiding h₂ (hf.retains hr₂) hargs)
  | all vars body =>
    obtain ⟨-, -, hvars, -⟩ := hb.typed hn
    -- bound variables are not in `X`
    have hvar {v : Term} (hv : v ∈ vars) : s.Avoids X v := by
      obtain ⟨hvpos, ty, n, hvn⟩ := hvars v hv
      exact .of_shape hs (hr.node hvn) rfl fun c hc => absurd hc List.not_mem_nil
    have last {s₁ : Store} (h₁ : s₁.HasConstants X) (hr₁ : Retains s s₁) {body' : Term}
      (hbody : s₁.Avoids X body') :
        Shedding X s₁ (liftM (all vars body')) fun r s' => s'.Avoids X r :=
      .lift h₁ (all_avoiding h₁ (fun v hv => (hvar hv).retains hr₁) hbody)
    have hmem : body ∈ (Term.Shape.all vars body).children := by simp [Term.Shape.children]
    dsimp only
    split
    · have hinner : ∀ x v, (vars.foldl (fun m v => m.erase v) σ)[x]? = some v → σ[x]? = some v :=
          fun x v hx => by
        rw [getElem?_foldl_erase] at hx
        split at hx
        · cases hx
        · exact hx
      have hbody : base.Avoids (fun x => X x ∧ (vars.foldl (fun m v => m.erase v) σ)[x]? =
          none) body := by
        refine (hp.child hn hmem).mono fun x hx => ⟨hx.1, ?_⟩
        obtain ⟨hx, hnone⟩ := hx
        rw [getElem?_foldl_erase] at hnone
        split at hnone
        next hv =>
          exact absurd hx ((Term.positive_of_not_isNegated (hvars x hv).1) ▸ (hvar hv).not_mem)
        next => exact hnone
      split
      next hempty =>
        refine last hs h₀ ((hbody.mono fun x hx => ⟨hx, ?_⟩).retains hr)
        exact Std.HashMap.getElem?_of_isEmpty hempty
      next =>
        have hrun := (hsub hs hr (fun x v hx => hσ x v (hinner x v hx)) hbody).run' hs
        exact .bind hs (.lift hs hrun) fun body' s₁ h₁ hr₁ => last h₁ hr₁
    · exact .bind hs (part hs h₀ hmem) fun body' s₁ h₁ hr₁ => last h₁ hr₁

/-- Substitution removes the constants that the substitution sheds, by induction on the depth. -/
theorem substAt_removing (hb : base.Wf) (depth : Nat) : Removing X base (substAt depth) := by
  induction depth with
  | zero => exact fun hs _ _ _ memo hm => Leads.throw retains_frame hs _
  | succ depth ih =>
    intro s σ t hs hr hσ ht
    unfold substAt
    cases hx : σ[t.positive]? with
    | some r =>
      simp only [hx]
      exact .pure hs ((hσ _ _ hx).negIf _)
    | none =>
      simp only [hx]
      refine .get_bind fun memo hm => ?_
      cases hmemo : memo[t.positive]? with
      | some r => exact .pure hs ((hm _ _ hmemo).negIf _)
      | none =>
        refine .bind hs (rebuild_sheds ih hb hs hr hσ ht.positive (Term.isNegated_positive t) hx)
          fun r s' hs' _ hr' => ?_
        exact .modify_bind (fun m hm => hm.insert hr') (.pure hs' (hr'.negIf _))

end

/-- A substitution by terms that avoid `X` leaves nothing of `X` that it replaces. -/
theorem subst_avoiding (hw : s.Wf) (hs : s.HasConstants X) (hσ : s.Sheds X σ)
    (ht : s.Avoids (fun x => X x ∧ σ[x]? = none) t) : Avoiding X s (subst σ t) := by
  unfold subst
  split
  next hempty =>
    exact avoiding_pure hs (ht.mono fun x hx => ⟨hx, Std.HashMap.getElem?_of_isEmpty hempty⟩)
  next => exact (substAt_removing hw _ hs (retains_frame.refl hs) hσ ht).run' hs

/-! ## Answers in stores that are built upon -/

/-- What avoids the constants is still what the constructor builds. -/
theorem Avoiding.builds {op : Op Term} (h : Avoiding X s op) (hw : s.Wf) (hop : Moves Wf Later op) :
    Builds s op fun t s' => s'.Avoids X t :=
  Leads.of_moves (hop s hw) (Ends.mono h (fun _ _ ht => ht.2) fun _ _ => trivial)

/-- A new constant is none of those there were. -/
theorem newConst_avoids (hw : s.Wf) (hX : ∀ x, X x → ∃ n, s.node? x = some n) (ty : Ty) :
    Builds s (newConst ty) fun t s' => s.node? t = none ∧ s'.Avoids X t := by
  refine (newConst_builds hw ty).mono fun t s' _ ⟨hnone, hpos, hn, _⟩ =>
    ⟨hnone, .of_node hn (fun hx => ?_) nofun⟩
  rw [Term.positive_of_not_isNegated hpos] at hx
  obtain ⟨n, hlive⟩ := hX t hx
  rw [hnone] at hlive
  cases hlive

end Entail.Store
