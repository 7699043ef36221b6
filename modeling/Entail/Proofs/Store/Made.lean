import Entail.Proofs.Store.Steady
import Entail.Proofs.Store.Subterms

/-!
# What constructors make

A constructor answers truth, one of its arguments, or one new node over them, each maybe
negated. That is so whatever the types are, so the constructors are walked through in a frame
that knows of shapes only. Whatever passes from the parts to such a node passes from the
arguments to what is made.
-/

namespace Entail

/-- The shapes of boolean structure: they are over formulas if they are boolean at all. -/
def Term.Shape.isConnective : Term.Shape → Bool
  | .or _ | .xor .. | .ite .. => true
  | _ => false

namespace Store

variable {s s' : Store} {X : Term → Prop} {α β : Type} {t a b c : Term} {args : List Term} {ty : Ty}

/-! ## Shapes stay -/

/-- The slots of terms fit together, and the terms of `X` are constants in them. -/
structure HasConstants (X : Term → Prop) (s : Store) : Prop where
  terms : s.terms.Valid 1
  truth : s.node? .top = some (.truth, .bool)
  const : ∀ {x}, X x → (s.shape x).isUninterpreted = true

/-- The terms of the store stay what they are. -/
structure Retains (s s' : Store) : Prop where
  terms : s'.terms.Valid 1
  node : ∀ {t n}, s.node? t = some n → s'.node? t = some n

theorem node_of_isUninterpreted (h : (s.shape t).isUninterpreted = true) :
    ∃ ty n ty', s.node? t = some (.uninterpreted ty n, ty') := by
  unfold shape shape? at h
  cases hn : s.node? t with
  | none => simp [hn, Term.Shape.isUninterpreted] at h
  | some x =>
    obtain ⟨shape, ty'⟩ := x
    rw [hn] at h
    cases shape with
    | uninterpreted ty n => exact ⟨ty, n, ty', rfl⟩
    | _ => cases h

theorem shape_of_node {n : Term.Shape × Ty} (h : s.node? t = some n) : s.shape t = n.1 := by
  unfold shape shape?
  rw [h]
  rfl

theorem Retains.trans {s'' : Store} (h : Retains s s') (h' : Retains s' s'') : Retains s s'' :=
  ⟨h'.terms, fun hn => h'.node (h.node hn)⟩

/-- The steps that retain what is stored compose. -/
theorem retains_frame : Frame (HasConstants X) Retains where
  refl h := ⟨h.terms, id⟩
  trans := Retains.trans
  stable h h' := ⟨h'.terms, h'.node h.truth, fun {x} hx => by
    obtain ⟨ty, n, ty', hn⟩ := node_of_isUninterpreted (h.const hx)
    rw [shape_of_node (h'.node hn)]
    rfl⟩

theorem Later.retains (h : Later s s') : Retains s s' := ⟨h.wf.terms, h.ext.node⟩

/-- Uninterpreted terms of a well-formed store may be taken for its constants. -/
theorem Wf.hasConstants (hw : s.Wf) (hX : ∀ x, X x → (s.shape x).isUninterpreted = true) :
    s.HasConstants X :=
  ⟨hw.terms, hw.truth, fun hx => hX _ hx⟩

/-! ## What is made of terms -/

/-- Up to polarity, the parts of the shape are in `D`. -/
def Over (D : Term → Prop) (shape : Term.Shape) : Prop := ∀ c ∈ shape.children, D c ∨ D c.neg

/-- Up to polarity, the term is truth, given, or a node of an allowed shape. -/
inductive Made (s : Store) (given : Term → Prop) (allowed : Term.Shape → Prop) : Term → Prop where
  | top : Made s given allowed .top
  | given {t : Term} (h : given t) : Made s given allowed t
  | node {t : Term} {shape : Term.Shape} {ty : Ty} (hn : s.node? t = some (shape, ty))
    (h : allowed shape) :
    Made s given allowed t
  | neg {t : Term} (h : Made s given allowed t) : Made s given allowed t.neg

namespace Made

variable {given given' : Term → Prop} {allowed allowed' : Term.Shape → Prop}

/-- More may be given and more may be allowed. -/
theorem mono (h : s.Made given allowed t) (hgiven : ∀ u, given u → given' u)
    (hallowed : ∀ shape, allowed shape → allowed' shape) : s.Made given' allowed' t := by
  induction h with
  | top => exact .top
  | given h => exact .given (hgiven _ h)
  | node hn h => exact .node hn (hallowed _ h)
  | neg _ ih => exact ih.neg

theorem bot : s.Made given allowed .bot := top.neg

theorem ofBool (v : Bool) : s.Made given allowed (.ofBool v) := by
  cases v with
  | false => exact bot
  | true => exact top

theorem negIf (h : s.Made given allowed t) (flip : Bool) : s.Made given allowed (t.negIf flip) := by
  cases flip with
  | false => exact h
  | true => exact h.neg

theorem positive (h : s.Made given allowed t) : s.Made given allowed t.positive := by
  cases hneg : t.isNegated with
  | false => rwa [Term.positive_of_not_isNegated hneg]
  | true =>
    have hpos := h.neg
    rwa [← Term.neg_positive hneg, Term.neg_neg] at hpos

end Made

/-- The positive form of a term of `D` is in `D` up to polarity. -/
theorem positive_or_neg {D : Term → Prop} (h : D t) : D t.positive ∨ D t.positive.neg := by
  cases hneg : t.isNegated with
  | false => exact .inl (by rwa [Term.positive_of_not_isNegated hneg])
  | true => exact .inr (by rwa [Term.neg_positive hneg])

/-- From `s`, the operation retains all terms, and says how its answer is made. -/
abbrev Makes (s : Store) (op : Op Term) (given : Store → Term → Prop)
    (allowed : Store → Term.Shape → Prop) : Prop :=
  Leads Retains s op fun t s' => s'.Made (given s') (allowed s') t

/-- The answer is one of `D` or a connective over `D`. -/
abbrev Connects (s : Store) (op : Op Term) (D : Term → Prop) : Prop :=
  Makes s op (fun _ => D) fun _ shape => shape.isConnective = true ∧ Over D shape

/-! ## Constructors -/

section

variable {f : α → Op β} {T : β → Store → Prop}

theorem leads_read_bind (hs : s.HasConstants X) {g : Store → Except TermError α}
    (h : ∀ x, g s = .ok x → Leads Retains s (f x) T) : Leads Retains s (Store.read g >>= f) T := by
  unfold Store.read
  cases hg : g s with
  | ok x =>
    have hb : (Store.read g >>= f) s = f x s := bind_of_ok (by rw [Store.read, hg])
    unfold Store.read at hb
    unfold Leads Ends
    rw [hb]
    exact h x hg
  | error e =>
    have hb : (Store.read g >>= f) s = .error e s := bind_of_error (by rw [Store.read, hg])
    unfold Store.read at hb
    unfold Leads Ends
    rw [hb]
    exact retains_frame.refl hs

theorem leads_look_bind {g : Store → α} (h : Leads Retains s (f (g s)) T) :
    Leads Retains s (Store.look g >>= f) T := h

end

theorem forall_mem_pair {P : Term → Prop} (ha : P a) (hb : P b) : ∀ t ∈ [a, b], P t := by
  simp [ha, hb]

/-- A shape of words. -/
def IsWord : Term.Shape → Prop
  | .bvConst .. | .bvNeg _ | .bvSum _ | .bvProduct _ => True
  | _ => False

/-- The term is a constant word. -/
def IsValue (s : Store) (t : Term) : Prop := ∃ w n ty, s.node? t = some (.bvConst w n, ty)

/-- The term is one of the arguments or a part of one that is put together from words. -/
def Material (s : Store) (args : List Term) (t : Term) : Prop :=
  ∃ a ∈ args, t = a ∨ IsWord (s.shape a) ∧ t ∈ (s.shape a).children

/-- The answer is material of the arguments, a value, or a word over such terms. -/
abbrev Combines (s : Store) (op : Op Term) (args : List Term) : Prop :=
  Makes s op (fun s' t => s.Material args t ∨ s'.IsValue t)
    fun s' shape => IsWord shape ∧ Over (fun t => s.Material args t ∨ s'.IsValue t) shape

theorem IsValue.retains (h : s.IsValue t) (hr : Retains s s') : s'.IsValue t := by
  obtain ⟨w, n, ty, hn⟩ := h
  exact ⟨w, n, ty, hr.node hn⟩

/-- Summands of sums, or factors of products, are parts. -/
theorem material_of_mem_splitConsts {parts : Term → List Term}
    (hparts : ∀ t, parts t = [t] ∨ IsWord (s.shape t) ∧ parts t = (s.shape t).children)
    (ht : t ∈ (s.splitConsts (args.flatMap parts)).2) : s.Material args t := by
  obtain ⟨a, ha, hta⟩ := List.mem_flatMap.mp (splitConsts_mem ht)
  refine ⟨a, ha, ?_⟩
  rcases hparts a with heq | ⟨hword, heq⟩
  · rw [heq, List.mem_singleton] at hta
    exact .inl hta
  · exact .inr ⟨hword, heq ▸ hta⟩

section

variable (hs : s.HasConstants X)

include hs

/-- One constructor after another: the second starts from a store that retains the first. -/
theorem leads_bind {op : Op α} {f : α → Op β} {Q : α → Store → Prop} {T : β → Store → Prop}
    (h : Leads Retains s op Q)
    (hf : ∀ x s', s'.HasConstants X → Retains s s' → Q x s' → Leads Retains s' (f x) T) :
    Leads Retains s (op >>= f) T := Leads.bind retains_frame hs h hf

theorem leads_pure {Q : α → Store → Prop} {x : α} (hx : Q x s) :
    Leads Retains s (pure x : Op α) Q :=
  Leads.pure retains_frame hs hx

theorem leads_throw {Q : α → Store → Prop} (e : TermError) : Leads Retains s (throw e : Op α) Q :=
  Leads.throw retains_frame hs e

/-- Whatever shape is stored, it stands for a positive term. -/
theorem leads_intern (shape : Term.Shape) (ty : Ty) :
    Leads Retains s (Store.intern shape ty) fun t s' => t.isNegated = false ∧ ∃ ty',
    s'.node? t = some (shape, ty') := by
  obtain ⟨hvalid, hold, ty', hget⟩ := hs.terms.intern shape ty
  refine ⟨⟨hvalid, fun hn => hold _ _ hn⟩, Term.isNegated_ofIndex _, ty', ?_⟩
  rw [node?, Term.index_ofIndex]
  exact hget

section

variable {given : Store → Term → Prop} {allowed : Store → Term.Shape → Prop}

theorem makes_pure (ht : s.Made (given s) (allowed s) t) : Makes s (pure t) given allowed :=
  leads_pure hs ht

/-- What is made may be changed afterwards, if the change keeps it made of the same things. -/
theorem makes_bind {op : Op Term} {f : Term → Term} (h : Makes s op given allowed)
    (hf : ∀ {s' : Store} {t : Term}, s'.Made (given s') (allowed s') t →
      s'.Made (given s') (allowed s') (f t)) :
    Makes s (op >>= fun t => pure (f t)) given allowed :=
  leads_bind hs h fun _ _ hs' _ ht => makes_pure hs' (hf ht)

theorem makes_neg {op : Op Term} (h : Makes s op given allowed) :
    Makes s (do return (← op).neg) given allowed :=
  makes_bind hs h .neg

/-- Looking a shape up or storing it makes a term of that shape. -/
theorem makes_intern {shape : Term.Shape} (ty : Ty) (h : ∀ s', Retains s s' → allowed s' shape) :
    Makes s (Store.intern shape ty) given allowed :=
  (leads_intern hs shape ty).mono fun _ s' hr ⟨_, _, hn⟩ => .node hn (h s' hr)

end

/-! ### Boolean structure -/

/-- A disjunction is a truth value, one of its arguments or one of some of them. -/
theorem orOf_leads (args : List Term) : Leads Retains s (orOf args) fun t s' =>
    t = .top ∨ t = .bot ∨ t ∈ args ∨ t.isNegated = false ∧ ∃ ts ty, s'.node? t = some (.or ts, ty) ∧
    ts ⊆ args := by
  have hkept : Term.dedup (Term.sort (args.filter (· ≠ .bot))) ⊆ args := fun t ht => by
    rw [Term.mem_dedup, Term.mem_sort, List.mem_filter] at ht
    exact ht.1
  unfold orOf
  split
  · exact leads_pure hs (.inl rfl)
  · dsimp only
    split
    · exact leads_pure hs (.inl rfl)
    · split
      · exact leads_pure hs (.inr (.inl rfl))
      next t heq =>
        exact leads_pure hs (.inr (.inr (.inl (hkept (heq ▸ List.mem_singleton_self t)))))
      next =>
        refine (leads_intern hs _ _).mono fun t s' _ ⟨hpos, ty, hn⟩ => ?_
        exact .inr (.inr (.inr ⟨hpos, _, ty, hn, hkept⟩))

/-- A disjunction is a truth value, one of its members, or a stored list of members. -/
theorem or_leads (args : List Term) : Leads Retains s (or args) fun t s' =>
    t = .top ∨ t = .bot ∨ t ∈ args ∨ t.isNegated = false ∧ ∃ ts ty, s'.node? t = some (.or ts, ty) ∧
    ts ⊆ args :=
  leads_read_bind hs fun _ _ => orOf_leads hs args

theorem orOf_connects (args : List Term) : Connects s (orOf args) (· ∈ args) :=
  (orOf_leads hs args).mono fun t s' _ ht => by
    rcases ht with rfl | rfl | ht | ⟨-, ts, ty, hn, hts⟩
    · exact .top
    · exact .bot
    · exact .given ht
    · exact .node hn ⟨rfl, fun c hc => .inl (hts hc)⟩

/-- A disjunction is made of its members. -/
theorem or_connects (args : List Term) : Connects s (or args) (· ∈ args) :=
  leads_read_bind hs fun _ _ => orOf_connects hs args

/-- The arguments of the disjunction are up to polarity those of the conjunction. -/
theorem and_connects (args : List Term) :
    Connects s (and args) fun t => t ∈ args ∨ t.neg ∈ args := by
  refine leads_read_bind hs fun _ _ =>
    makes_neg hs ((orOf_connects hs (args.map .neg)).mono fun r s' _ hr => ?_)
  have hmem {t : Term} (ht : t ∈ args.map .neg) : t.neg ∈ args := by
    obtain ⟨a, ha, rfl⟩ := List.mem_map.mp ht
    rwa [Term.neg_neg]
  exact hr.mono (fun t ht => .inr (hmem ht)) fun shape h =>
    ⟨h.1, fun c hc => (h.2 c hc).imp (fun h => .inr (hmem h))
    fun h => .inr (hmem h)⟩

/-- An exclusive disjunction is made of its two members. -/
theorem xor2_connects (a b : Term) : Connects s (xor2 a b) (· ∈ [a, b]) := by
  refine leads_read_bind hs fun _ _ => leads_read_bind hs fun _ _ => ?_
  have ha : a ∈ [a, b] := by simp
  have hb : b ∈ [a, b] := by simp
  have hxor {x y : Term} (hx : x ∈ [a, b] ∨ x.neg ∈ [a, b]) (hy : y ∈ [a, b] ∨ y.neg ∈ [a, b]) :
      Connects s (intern (.xor x y) .bool) (· ∈ [a, b]) :=
    makes_intern hs _ fun _ _ =>
      ⟨rfl, forall_mem_pair (P := fun t => t ∈ [a, b] ∨ t.neg ∈ [a, b]) hx hy⟩
  have hflip {op : Op Term} (h : Connects s op (· ∈ [a, b])) (flip : Bool) :
      Connects s (op >>= fun r => pure (r.negIf flip)) (· ∈ [a, b]) := makes_bind hs h fun ht =>
        ht.negIf flip
  have hpos {x : Term} (hx : x ∈ [a, b]) : x.positive ∈ [a, b] ∨ x.positive.neg ∈ [a, b] :=
    positive_or_neg (D := (· ∈ [a, b])) hx
  dsimp only
  split
  · exact hflip (makes_pure hs .bot) _
  · split
    · exact hflip (makes_pure hs (Made.given hb).positive.neg) _
    · split
      · exact hflip (makes_pure hs (Made.given ha).positive.neg) _
      · split
        · exact hflip (hxor (hpos ha) (hpos hb)) _
        · exact hflip (hxor (hpos hb) (hpos ha)) _

/-- An equivalence is made of its two sides. -/
theorem iff_connects (a b : Term) : Connects s (iff a b) (· ∈ [a, b]) :=
  makes_neg hs (xor2_connects hs a b)

omit hs in
/-- What is made of terms that are in `D` up to polarity is made of `D`, if `D` does not look
at polarity. -/
theorem Connects.within {op : Op Term} {D D' : Term → Prop} (h : Connects s op D)
    (hD : ∀ t, D t → D' t) :
    Connects s op D' :=
  h.mono fun _ _ _ ht => ht.mono hD fun _ hshape =>
    ⟨hshape.1, fun c hc => (hshape.2 c hc).imp (hD c) (hD _)⟩

/-- A choice may be made of its arguments and of their negations. -/
theorem iteOf_connects (ty : Ty) (c a b : Term) :
    Connects s (iteOf ty c a b) fun t => t ∈ [c, a, b] ∨ t.neg ∈ [c, a, b] := by
  have hite {x y : Term} (hx : x ∈ [c, a, b] ∨ x.neg ∈ [c, a, b]) (hy : y ∈ [c, a, b] ∨
    y.neg ∈ [c, a, b]) :
      Connects s (intern (.ite c x y) ty) fun t => t ∈ [c, a, b] ∨ t.neg ∈ [c, a, b] :=
    makes_intern hs _ fun _ _ => ⟨rfl, fun t ht => .inl (by
      simp only [Term.Shape.children, List.mem_cons, List.not_mem_nil, or_false] at ht
      rcases ht with rfl | rfl | rfl
      · simp
      · exact hx
      · exact hy)⟩
  unfold iteOf
  split
  · split
    · exact (or_connects hs [c, b]).within (by simp)
    · split
      · exact (and_connects hs [c.neg, b]).within fun t ht => by
          simp only [List.mem_cons, List.not_mem_nil, or_false] at ht ⊢
          rcases ht with (rfl | rfl) | (ht | rfl)
          · simp
          · simp
          · have := Term.neg_neg t
            rw [ht, Term.neg_neg] at this
            simp [this]
          · simp
      · split
        · exact (or_connects hs [c.neg, a]).within (by simp)
        · split
          · exact (and_connects hs [c, a]).within fun t ht => by
              simp only [List.mem_cons, List.not_mem_nil, or_false] at ht ⊢
              rcases ht with (rfl | rfl) | (ht | ht) <;> simp_all
          · split
            · exact (iff_connects hs c a).within (by simp)
            · split
              · exact makes_neg hs (hite (by simp) (by simp))
              · exact hite (by simp) (by simp)
  · exact hite (by simp) (by simp)

/-- A choice is made of its three parts and their negations, since it may become a disjunction. -/
theorem ite_connects (c a b : Term) :
    Connects s (ite c a b) fun t => t ∈ [c, a, b] ∨ t.neg ∈ [c, a, b] := by
  refine leads_read_bind hs fun _ _ => leads_read_bind hs fun ty _ => ?_
  split
  · exact makes_pure hs (.given (by simp))
  · split
    · exact makes_pure hs (.given (by simp))
    · split
      · refine (iteOf_connects hs ty c.neg b a).within fun u hu => ?_
        simp only [List.mem_cons, List.not_mem_nil, or_false] at hu ⊢
        rcases hu with (rfl | rfl | rfl) | (hu | hu | hu)
        · simp
        · simp
        · simp
        · rw [← Term.neg_neg u, hu]
          simp
        · simp [hu]
        · simp [hu]
      · exact iteOf_connects hs ty c a b

/-- An equality of formulas is made like an equivalence; any other is a truth value or one between
its arguments. -/
theorem eq_makes (a b : Term) :
    Makes s (eq a b) (fun _ t => s.ty a = .bool ∧ t ∈ [a, b]) fun _ shape =>
    s.ty a = .bool ∧ shape.isConnective = true ∧ Over (· ∈ [a, b]) shape ∨ shape = .eq a b ∨
    shape = .eq b a := by
  refine leads_read_bind hs fun ty hty => ?_
  split
  · exact makes_pure hs .top
  · split
    next hbool =>
      have ha : s.ty a = .bool := hbool ▸ (checkSameType_eq_ok hty).1.ty_eq
      exact (iff_connects hs a b).mono fun _ _ _ ht => ht.mono (fun _ h => ⟨ha, h⟩) fun _ h =>
        .inl ⟨ha, h⟩
    · refine leads_look_bind ?_
      split
      · exact makes_pure hs (.ofBool _)
      · split
        · exact makes_intern hs _ fun _ _ => .inr (.inl rfl)
        · exact makes_intern hs _ fun _ _ => .inr (.inr rfl)

/-! ### Functions and quantifiers -/

/-- An application is stored as it was given. -/
theorem app_makes (f : Term) (args : List Term) :
    Makes s (app f args) (fun _ _ => False) fun _ shape => shape = .app f args :=
  leads_read_bind hs fun _ _ => makes_intern hs _ fun _ _ => rfl

theorem all_makes (vars : List Term) (body : Term) :
    Makes s (all vars body) (fun _ _ => False) fun _ shape => shape = .all vars body := by
  unfold all
  split
  · exact leads_throw hs _
  · refine leads_read_bind hs fun _ _ => leads_read_bind hs fun _ _ => ?_
    split
    next h =>
      rcases Bool.or_eq_true _ _ ▸ h with h | h
      · exact makes_pure hs ((of_decide_eq_true h) ▸ .top)
      · exact makes_pure hs ((of_decide_eq_true h) ▸ .bot)
    · exact makes_intern hs _ fun _ _ => rfl

/-! ### Bitvectors -/

theorem bvGe_makes (a b : Term) :
    Makes s (bvGe a b) (fun _ _ => False) fun _ shape => shape = .bvGe a b := by
  refine leads_read_bind hs fun _ _ => ?_
  split
  · exact makes_pure hs .top
  · refine leads_look_bind ?_
    split
    · exact makes_pure hs (.ofBool _)
    · exact makes_pure hs .top
    · exact makes_intern hs _ fun _ _ => rfl

theorem bvSge_makes (a b : Term) :
    Makes s (bvSge a b) (fun _ _ => False) fun _ shape => shape = .bvSge a b := by
  refine leads_read_bind hs fun _ _ => ?_
  split
  · exact makes_pure hs .top
  · refine leads_look_bind ?_
    split
    · exact makes_pure hs (.ofBool _)
    · split
      · exact makes_pure hs .top
      · exact makes_intern hs _ fun _ _ => rfl
    · exact makes_intern hs _ fun _ _ => rfl

theorem bit_makes (a : Term) (i : Nat) :
    Makes s (bit a i) (fun _ _ => False) fun _ shape => shape = .bit a i := by
  refine leads_read_bind hs fun w _ => ?_
  split
  · exact leads_throw hs _
  · refine leads_look_bind ?_
    split
    · exact makes_pure hs (.ofBool _)
    · exact makes_intern hs _ fun _ _ => rfl

/-- A constant of words is a value. -/
theorem bvConst_leads (w n : Nat) : Leads Retains s (bvConst w n) fun t s' => s'.IsValue t := by
  have hty : Leads Retains s (bvType w) fun _ _ => True := by
    unfold bvType
    split
    · exact leads_throw hs _
    · split
      · exact leads_throw hs _
      · exact ⟨⟨hs.terms, id⟩, trivial⟩
  exact leads_bind hs hty fun ty s' hs' _ _ => (leads_intern hs' _ _).mono fun t _ _ ⟨_, ty', hn⟩ =>
    ⟨w, _, ty', hn⟩

/-- Joining a constant to a list of operands adds a value at most. -/
theorem withConst_leads (w neutral n : Nat) (args : List Term) :
    Leads Retains s (withConst w neutral n args) fun ts s' => ∀ t ∈ ts, t ∈ args ∨
    s'.IsValue t := by
  unfold withConst
  split
  · exact leads_pure hs fun _ => .inl
  · refine leads_bind hs (bvConst_leads hs w n) fun t s' hs' _ ht => leads_pure hs' ?_
    exact List.forall_mem_cons.mpr ⟨.inr ht, fun a ha => .inl ha⟩

theorem bvConst_combines (w n : Nat) (args : List Term) : Combines s (bvConst w n) args :=
  (bvConst_leads hs w n).mono fun _ _ _ ht => .given (.inr ht)

/-- What is left of arguments that were taken apart, together with a constant. -/
theorem collect_combines {f : List Term → Term.Shape} (hf : ∀ ts, (f ts).children = ts)
    (hword : ∀ ts, IsWord (f ts))
    (w neutral n : Nat) {rest : List Term} (hrest : ∀ t ∈ rest, s.Material args t)
    (g : Store → Ty) :
    Combines s (do
      match ← withConst w neutral n rest with
      | [t] => return t
      | ts => intern (f (Term.sort ts)) (← look g)) args := by
  refine leads_bind hs (withConst_leads hs w neutral n rest) fun ts s' hs' _ hts => ?_
  split
  next t => exact leads_pure hs' (.given ((hts t (List.mem_singleton_self t)).imp_left (hrest t)))
  next =>
    refine leads_look_bind ((leads_intern hs' _ _).mono fun t s'' hr ⟨_, ty, hn⟩ =>
      .node hn ⟨hword _, fun c hc => .inl ?_⟩)
    rw [hf, Term.mem_sort] at hc
    exact (hts c hc).imp (hrest c) fun h => h.retains hr

/-- A sum is made of its operands, of what these are sums of, and of values. -/
theorem bvSum_combines (args : List Term) : Combines s (bvSum args) args := by
  refine leads_read_bind hs fun w _ => leads_look_bind ?_
  have hrest : ∀ t ∈ (s.splitConsts (s.summands args)).2, s.Material args t := fun t ht =>
    material_of_mem_splitConsts (fun u => by cases s.shape u <;> simp [Term.Shape.children, IsWord])
      ht
  dsimp only
  split
  · exact bvConst_combines hs _ _ args
  · exact collect_combines (f := .bvSum) hs (fun _ => rfl) (fun _ => trivial) w 0 _ hrest _

/-- A product is made of its operands, of what these are products of, and of values. -/
theorem bvProduct_combines (args : List Term) : Combines s (bvProduct args) args := by
  refine leads_read_bind hs fun w _ => leads_look_bind ?_
  have hrest : ∀ t ∈ (s.splitConsts (s.factors args)).2, s.Material args t := fun t ht =>
    material_of_mem_splitConsts (fun u => by cases s.shape u <;> simp [Term.Shape.children, IsWord])
      ht
  dsimp only
  split
  · exact bvConst_combines hs _ _ args
  · split
    · exact leads_throw hs _
    · exact collect_combines (f := .bvProduct) hs (fun _ => rfl) (fun _ => trivial) w 1 _ hrest _

/-- The negation of a word is a value, what the word negates, or a negation of the word. -/
theorem bvNeg_combines (a : Term) : Combines s (bvNeg a) [a] := by
  refine leads_read_bind hs fun w _ => leads_look_bind ?_
  split
  · exact bvConst_combines hs _ _ [a]
  next x hx =>
    have hx : s.Material [a] x :=
      ⟨a, by simp, .inr (by rw [hx]; exact ⟨trivial, List.mem_singleton_self x⟩)⟩
    exact leads_pure hs (.given (.inl hx))
  next =>
    refine leads_look_bind ((leads_intern hs _ _).mono fun t s' _ ⟨_, ty, hn⟩ =>
      .node hn ⟨trivial, fun c hc => .inl (.inl ?_)⟩)
    exact ⟨c, hc, .inl rfl⟩

end
end Store
end Entail
