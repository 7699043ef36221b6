import Entail.Proofs.Model.Values
import Entail.Proofs.Store.Words

/-!
# Values of constructed terms

Where the arguments of a constructor have values, so has the term that it builds, whatever was
simplified: the value that its name says. Every lemma is about one constructor and starts from the
values of the arguments.
-/

namespace Entail

namespace Store.Builds

variable {s : Store} {α β γ : Type} {Q : γ → Store → Prop}

theorem and {op : Op α} {P Q : α → Store → Prop} (h : Builds s op P) (h' : Builds s op Q) :
    Builds s op fun a s' => P a s' ∧ Q a s' := by
  unfold Builds Ends at h h' ⊢
  cases hrun : op s with
  | ok a s' =>
    rw [hrun] at h h'
    exact ⟨h.1, h.2, h'.2⟩
  | error e s' =>
    rw [hrun] at h
    exact h

/-- An operation that starts with a check: only the case that the check passes matters. -/
theorem of_check (h : s.Wf) {g : Store → Except TermError α} {f : α → Op γ}
    (hf : ∀ a, g s = .ok a → Builds s (Store.read g >>= f) Q) :
    Builds s (Store.read g >>= f) Q := by
  cases hrun : g s with
  | error e => exact .read_bind h fun a ha => by rw [hrun] at ha; cases ha
  | ok a => exact hf a hrun

/-- Two checks may be looked at in whatever order, if each of them fails alike. -/
theorem of_checks (h : s.Wf) {g : Store → Except TermError α} {g' : Store → Except TermError β}
    {f : α → β → Op γ}
    (hf : ∀ a, g s = .ok a → ∀ b, g' s = .ok b →
      Builds s (Store.read g >>= fun a => Store.read g' >>= f a) Q) :
    Builds s (Store.read g >>= fun a => Store.read g' >>= f a) Q := by
  refine of_check h fun a ha => ?_
  cases hrun : g' s with
  | error e => exact .read_bind h fun a ha => .read_bind h fun b hb => by rw [hrun] at hb; cases hb
  | ok b => exact hf a ha b hrun

end Store.Builds

namespace Model

open Store (Builds Later)

variable {m : Model} {s s' : Store} {t : Term} {ty : Ty} {shape : Term.Shape}

/-- `t` is a term of type `ty` with the value `v`. -/
structure IsValue (m : Model) (s : Store) (t : Term) (ty : Ty) (v : Value) : Prop where
  has : s.Has t ty
  value : m.Evaluates s t v
  fits : v.Fits s ty

theorem IsValue.extends_ {v : Value} (h : m.IsValue s t ty v) (hs : s.Wf) (e : s.Extends s') :
    m.IsValue s' t ty v := by
  obtain ⟨tyShape, hty⟩ := hs.ty_live h.has
  exact ⟨e.has h.has, h.value.extends_ hs e, h.fits.extends_ hty e⟩

/-! ## Truth values -/

/-- `t` is a formula with the truth value `b`. -/
structure IsTruth (m : Model) (s : Store) (t : Term) (b : Bool) : Prop where
  has : s.Has t .bool
  value : m.Evaluates s t (.bool b)

namespace IsTruth

variable {b b' : Bool}

/-- A formula has one truth value in a model. -/
theorem unique (h : m.IsTruth s t b) (h' : m.IsTruth s t b') : b = b' := by
  cases h.value.unique h'.value
  rfl

/-- A formula has the same truth value in every extension of the store. -/
theorem extends_ (h : m.IsTruth s t b) (hs : s.Wf) (e : s.Extends s') : m.IsTruth s' t b :=
  ⟨e.has h.has, h.value.extends_ hs e⟩

theorem neg (h : m.IsTruth s t b) : m.IsTruth s t.neg !b := ⟨h.has.neg, h.value.neg⟩

theorem negIf (h : m.IsTruth s t b) (flip : Bool) : m.IsTruth s (t.negIf flip) (b != flip) := by
  cases flip with
  | false => simpa [Term.negIf] using h
  | true => simpa [Term.negIf] using h.neg

/-- The positive term of an occurrence of a formula. -/
theorem positive (h : m.IsTruth s t b) : m.IsTruth s t.positive (b != t.isNegated) := by
  cases hneg : t.isNegated with
  | false => simpa [Term.positive_of_not_isNegated hneg] using h
  | true =>
    have hpos := h.neg
    rw [← Term.neg_positive hneg, Term.neg_neg] at hpos
    simpa using hpos

theorem top (hs : s.Wf) : m.IsTruth s .top true := ⟨⟨⟨_, hs.truth⟩, fun _ => rfl⟩, evaluates_top hs⟩

theorem bot (hs : s.Wf) : m.IsTruth s .bot false := (top hs).neg

theorem ofBool (hs : s.Wf) (b : Bool) : m.IsTruth s (.ofBool b) b := by
  cases b with
  | true => exact top hs
  | false => exact bot hs

/-- A formula has the truth value that its shape has over the values of its parts. -/
theorem of_node (hn : s.node? t = some (shape, .bool)) (ht : t.isNegated = false)
    (h : NodeValue m s (m.Evaluates s) t shape (.bool b)) : m.IsTruth s t b :=
  ⟨⟨⟨_, hn⟩, fun _ => rfl⟩, .of_node hn ht h⟩

end IsTruth

/-- A disjunction whose members have truth values. -/
theorem NodeValue.or {val : Term → Value → Prop} {p : Term} {args : List Term} {f : Term → Bool}
    (hf : ∀ a ∈ args, val a (.bool (f a))) :
    NodeValue m s val p (.or args) (.bool (args.any f)) := by
  induction args with
  | nil => exact .orFalse (by simp)
  | cons a args ih =>
    have ha := hf a (List.mem_cons_self ..)
    cases hb : f a with
    | true =>
      rw [List.any_cons, hb, Bool.true_or]
      exact .or_of_head (hb ▸ ha)
    | false =>
      rw [List.any_cons, hb, Bool.false_or]
      exact NodeValue.or_cons (hb ▸ ha) (ih fun c hc => hf c (List.mem_cons_of_mem _ hc))

theorem orOf_isTruth (hs : s.Wf) {args : List Term} {f : Term → Bool}
    (hf : ∀ a ∈ args, m.IsTruth s a (f a)) :
    Builds s (Store.orOf args) fun t s' => m.IsTruth s' t (args.any f) := by
  unfold Store.orOf
  split
  next htop =>
    have hmem : .top ∈ args := by simpa using htop
    have hany : args.any f = true := List.any_eq_true.mpr ⟨.top, hmem, (hf _ hmem).unique (.top hs)⟩
    exact .pure hs (hany ▸ .top hs)
  next =>
    have hmem (a : Term) : a ∈ Term.dedup (Term.sort (args.filter (· ≠ .bot))) ↔ a ∈ args ∧
        a ≠ .bot := by
      rw [Term.mem_dedup, Term.mem_sort, List.mem_filter]
      simp
    -- falsity and repetitions do not change the disjunction
    have hsame : (Term.dedup (Term.sort (args.filter (· ≠ .bot)))).any f = args.any f := by
      rw [Bool.eq_iff_iff, List.any_eq_true, List.any_eq_true]
      constructor
      · rintro ⟨a, ha, htrue⟩
        exact ⟨a, ((hmem a).mp ha).1, htrue⟩
      · rintro ⟨a, ha, htrue⟩
        refine ⟨a, (hmem a).mpr ⟨ha, ?_⟩, htrue⟩
        rintro rfl
        rw [(hf _ ha).unique (.bot hs)] at htrue
        cases htrue
    have hkept : ∀ a ∈ Term.dedup (Term.sort (args.filter (· ≠ .bot))), m.IsTruth s a (f a) :=
      fun a ha => hf a ((hmem a).mp ha).1
    rw [← hsame]
    generalize Term.dedup (Term.sort (args.filter (· ≠ .bot))) = kept at hkept
    by_cases hc : Term.hasComplement kept = true
    · simp only [hc, if_true]
      obtain ⟨a, ha, hna⟩ := Term.exists_of_hasComplement hc
      have hany : kept.any f = true := by
        cases hb : f a with
        | true => exact List.any_eq_true.mpr ⟨a, ha, hb⟩
        | false =>
          have hneg := (hkept a ha).neg
          rw [hb] at hneg
          exact List.any_eq_true.mpr ⟨a.neg, hna, (hkept _ hna).unique hneg⟩
      exact .pure hs (hany ▸ .top hs)
    · simp only [hc]
      match kept, hkept with
      | [], _ => exact .pure hs (.bot hs)
      | [t], hkept => exact .pure hs (by simpa using hkept t (by simp))
      | a :: b :: rest, hkept =>
        refine .intern hs (.or (a :: b :: rest)) _ ⟨rfl, fun c hc => (hkept c hc).has⟩
          ⟨_, hs.bool_ty⟩ trivial
          fun t s' hs' ht hn => .of_node hn ht
            (.or fun c hc => ((hkept c hc).extends_ hs hs'.ext).value)

/-- A disjunction is true in the model where some member is. -/
theorem or_isTruth (hs : s.Wf) {args : List Term} {f : Term → Bool}
    (hf : ∀ a ∈ args, m.IsTruth s a (f a)) :
    Builds s (Store.or args) fun t s' => m.IsTruth s' t (args.any f) :=
  .read_bind hs fun _ _ => orOf_isTruth hs hf

theorem and_isTruth (hs : s.Wf) {args : List Term} {f : Term → Bool}
    (hf : ∀ a ∈ args, m.IsTruth s a (f a)) :
    Builds s (Store.and args) fun t s' => m.IsTruth s' t (args.all f) := by
  have hneg : ∀ a ∈ args.map .neg, m.IsTruth s a !f a.neg := by
    intro a ha
    obtain ⟨b, hb, rfl⟩ := List.mem_map.mp ha
    rw [Term.neg_neg]
    exact (hf b hb).neg
  refine .read_bind hs fun _ _ => .bind (orOf_isTruth hs hneg) fun t s' hs' ht => .pure hs'.wf ?_
  have hall : (!(args.map Term.neg).any fun a => !f a.neg) = args.all f := by
    simp [List.all_eq_not_any_not, Function.comp_def]
  exact hall ▸ ht.neg

theorem not_isTruth (hs : s.Wf) {b : Bool} (h : m.IsTruth s t b) :
    Builds s (Store.not t) fun r s' => m.IsTruth s' r !b :=
  .read_bind hs fun _ _ => .pure hs h.neg

section Binary

variable {a b : Term} {x y : Bool}

/-- The values of two formulas as a function of the formulas. -/
theorem exists_values₂ (ha : m.IsTruth s a x) (hb : m.IsTruth s b y) :
    ∃ f : Term → Bool, (∀ c ∈ [a, b], m.IsTruth s c (f c)) ∧ f a = x ∧ f b = y := by
  have hval (c : Term) (hc : c ∈ [a, b]) : m.IsTruth s c (if c = a then x else y) := by
    rcases List.mem_pair.mp hc with rfl | rfl
    · rwa [if_pos rfl]
    · split
      next heq => exact heq ▸ ha
      next => exact hb
  exact ⟨fun c => if c = a then x else y, hval, if_pos rfl, (hval b (by simp)).unique hb⟩

theorem or2_isTruth (hs : s.Wf) (ha : m.IsTruth s a x) (hb : m.IsTruth s b y) :
    Builds s (Store.or2 a b) fun t s' => m.IsTruth s' t (x || y) := by
  obtain ⟨f, hf, rfl, rfl⟩ := exists_values₂ ha hb
  simpa [Store.or2] using or_isTruth hs hf

theorem and2_isTruth (hs : s.Wf) (ha : m.IsTruth s a x) (hb : m.IsTruth s b y) :
    Builds s (Store.and2 a b) fun t s' => m.IsTruth s' t (x && y) := by
  obtain ⟨f, hf, rfl, rfl⟩ := exists_values₂ ha hb
  simpa [Store.and2] using and_isTruth hs hf

theorem implies_isTruth (hs : s.Wf) (ha : m.IsTruth s a x) (hb : m.IsTruth s b y) :
    Builds s (Store.implies a b) fun t s' => m.IsTruth s' t (!x || y) :=
  .read_bind hs fun _ _ => or2_isTruth hs ha.neg hb

/-- An exclusive disjunction is true in the model where its members differ. -/
theorem xor2_isTruth (hs : s.Wf) (ha : m.IsTruth s a x) (hb : m.IsTruth s b y) :
    Builds s (Store.xor2 a b) fun t s' => m.IsTruth s' t (x != y) := by
  refine .read_bind hs fun _ _ => .read_bind hs fun _ _ => ?_
  have hap := ha.positive
  have hbp := hb.positive
  -- the positive terms decide the result up to the two polarities
  have hlast (r : Term) (s' : Store) (hs' : Later s s')
      (hr : m.IsTruth s' r ((x != a.isNegated) != (y != b.isNegated))) :
      Builds s' (pure (r.negIf (a.isNegated != b.isNegated))) fun t s' =>
        m.IsTruth s' t (x != y) := by
    refine .pure hs'.wf ?_
    have hflip : (((x != a.isNegated) != (y != b.isNegated)) != (a.isNegated != b.isNegated)) =
        (x != y) := by
      cases x <;> cases y <;> cases a.isNegated <;> cases b.isNegated <;> rfl
    exact hflip ▸ hr.negIf _
  simp only
  split
  next heq =>
    have hsame := hap.unique (heq ▸ hbp)
    exact .bind (.pure hs (by simpa [hsame] using IsTruth.bot hs)) hlast
  next =>
  split
  next heq =>
    have htrue := hap.unique (heq ▸ IsTruth.top hs)
    exact .bind (.pure hs (by simpa [htrue] using hbp.neg)) hlast
  next =>
  split
  next heq =>
    have htrue := hbp.unique (heq ▸ IsTruth.top hs)
    exact .bind (.pure hs (by simpa [htrue] using hap.neg)) hlast
  next =>
  split
  · refine .bind (.intern hs (.xor _ _) _ ⟨rfl, hap.has, hbp.has⟩ ⟨_, hs.bool_ty⟩ trivial
      fun t s' hs' ht hn => ?_) hlast
    exact .of_node hn ht (.xor (hap.value.extends_ hs hs'.ext) (hbp.value.extends_ hs hs'.ext))
  · refine .bind (.intern hs (.xor _ _) _ ⟨rfl, hbp.has, hap.has⟩ ⟨_, hs.bool_ty⟩ trivial
      fun t s' hs' ht hn => ?_) hlast
    rw [bne_comm]
    exact .of_node hn ht (.xor (hbp.value.extends_ hs hs'.ext) (hap.value.extends_ hs hs'.ext))

theorem iff_isTruth (hs : s.Wf) (ha : m.IsTruth s a x) (hb : m.IsTruth s b y) :
    Builds s (Store.iff a b) fun t s' => m.IsTruth s' t (x == y) := by
  refine .bind (xor2_isTruth hs ha hb) fun t s' hs' ht => .pure hs'.wf ?_
  have hiff : (!(x != y)) = (x == y) := by simp [bne]
  exact hiff ▸ ht.neg

end Binary

/-- The value of a formula is a truth value. -/
theorem IsValue.truth {v : Value} (h : m.IsValue s t .bool v) (hs : s.Wf) :
    ∃ b, v = .bool b ∧ m.IsTruth s t b := by
  obtain ⟨b, rfl⟩ := (Value.fits_bool hs).mp h.fits
  exact ⟨b, rfl, h.has, h.value⟩

/-! ## Choices and equalities -/

section Choice

variable {a b c : Term} {x : Bool} {tya tyb : Ty} {u v : Value}

theorem iteOf_evaluates (hs : s.Wf) (hc : m.IsTruth s c x) (ha : m.IsValue s a ty u)
    (hb : m.IsValue s b ty v) :
    Builds s (Store.iteOf ty c a b) fun t s' => m.Evaluates s' t (if x then u else v) := by
  have hnode : Builds s (Store.intern (.ite c a b) ty) fun t s' =>
      m.Evaluates s' t (if x then u else v) := by
    refine .intern hs (.ite c a b) ty ⟨hc.has, ha.has, hb.has⟩ (hs.ty_live ha.has) trivial
      fun t s' hs' ht hn => ?_
    refine .of_node hn ht (.ite (hc.value.extends_ hs hs'.ext) ?_)
    cases x with
    | true => exact ha.value.extends_ hs hs'.ext
    | false => exact hb.value.extends_ hs hs'.ext
  unfold Store.iteOf
  split
  next hty =>
    subst hty
    obtain ⟨y, rfl, hy⟩ := ha.truth hs
    obtain ⟨z, rfl, hz⟩ := hb.truth hs
    have hite : (if x then Value.bool y else .bool z) = .bool (if x then y else z) := by
      cases x <;> rfl
    rw [hite] at hnode ⊢
    split
    next heq =>
      obtain rfl := hy.unique (heq ▸ IsTruth.top hs)
      exact (or2_isTruth hs hc hz).mono fun t s' _ ht => by cases x <;> exact ht.value
    next =>
    split
    next heq =>
      obtain rfl := hy.unique (heq ▸ IsTruth.bot hs)
      exact (and2_isTruth hs hc.neg hz).mono fun t s' _ ht => by cases x <;> exact ht.value
    next =>
    split
    next heq =>
      obtain rfl := hz.unique (heq ▸ IsTruth.top hs)
      exact (or2_isTruth hs hc.neg hy).mono fun t s' _ ht => by cases x <;> exact ht.value
    next =>
    split
    next heq =>
      obtain rfl := hz.unique (heq ▸ IsTruth.bot hs)
      exact (and2_isTruth hs hc hy).mono fun t s' _ ht => by cases x <;> exact ht.value
    next =>
    split
    next heq =>
      obtain rfl := hy.unique (heq ▸ hz.neg)
      exact (iff_isTruth hs hc hy).mono fun t s' _ ht => by cases x <;> cases z <;> exact ht.value
    next =>
    split
    next =>
      refine .bind (.intern hs (.ite c a.neg b.neg) .bool ⟨hc.has, ha.has.neg, hb.has.neg⟩
        ⟨_, hs.bool_ty⟩ trivial
        (Q := fun t s' => m.IsTruth s' t !(if x then y else z)) fun t s' hs' ht hn => ?_)
        fun t s' hs' ht => .pure hs'.wf ?_
      · refine .of_node hn ht (.ite (hc.value.extends_ hs hs'.ext) ?_)
        cases x with
        | true => exact hy.neg.value.extends_ hs hs'.ext
        | false => exact hz.neg.value.extends_ hs hs'.ext
      · simpa using ht.neg.value
    next => exact hnode
  next => exact hnode

/-- A choice has the value of the branch that its condition selects. -/
theorem ite_evaluates (hs : s.Wf) (hc : m.Evaluates s c (.bool x)) (ha : m.IsValue s a tya u)
    (hb : m.IsValue s b tyb v) :
    Builds s (Store.ite c a b) fun t s' => m.Evaluates s' t (if x then u else v) := by
  refine .read_bind hs fun _ hchk => .read_bind hs fun ty hty => ?_
  replace hc : m.IsTruth s c x := ⟨Store.checkBool_eq_ok hchk, hc⟩
  obtain ⟨hta, htb⟩ := Store.checkSameType_eq_ok hty
  obtain rfl := ha.has.unique hta
  obtain rfl := hb.has.unique htb
  split
  next hcond =>
    refine .pure hs ?_
    rcases Bool.or_eq_true_iff.mp hcond with htop | hsame
    · obtain rfl := hc.unique (of_decide_eq_true htop ▸ IsTruth.top hs)
      exact ha.value
    · obtain rfl := ha.value.unique (of_decide_eq_true hsame ▸ hb.value)
      simpa using ha.value
  next =>
  split
  next hbot =>
    obtain rfl := hc.unique (hbot ▸ IsTruth.bot hs)
    exact .pure hs hb.value
  next =>
  split
  next => exact (iteOf_evaluates hs hc.neg hb ha).mono fun t s' _ ht => by cases x <;> exact ht
  next => exact iteOf_evaluates hs hc ha hb

/-- The value of a constant. -/
theorem Evaluates.const (hs : s.Wf) {n : Nat} (h : m.Evaluates s t v) (ht : s.Has t ty)
    (hc : s.constValue? t = some n) : ∃ w, s.tyShape? ty = some (.bitVector w) ∧ v = .bv w n := by
  obtain ⟨w, ty', hn⟩ := Store.constValue?_eq_some hc
  obtain rfl : ty' = ty := by
    rw [ht.node] at hn
    exact (Prod.mk.inj (Option.some.inj hn)).2.symm
  obtain ⟨hw, -⟩ := hs.typed hn
  have hneg := Store.HasWidth.not_isNegated hs ⟨_, ht, hw⟩
  refine ⟨w, hw, ?_⟩
  cases h.node hn hneg
  rfl

/-- An equality is true in the model where both sides have one value. -/
theorem eq_isTruth (hs : s.Wf) (ha : m.IsValue s a tya u) (hb : m.IsValue s b tyb v) :
    Builds s (Store.eq a b) fun t s' => m.IsTruth s' t (u == v) := by
  refine .read_bind hs fun ty hty => ?_
  obtain ⟨hta, htb⟩ := Store.checkSameType_eq_ok hty
  obtain rfl := ha.has.unique hta
  obtain rfl := hb.has.unique htb
  split
  next heq =>
    obtain rfl := ha.value.unique (heq ▸ hb.value)
    exact .pure hs (by simpa using IsTruth.top hs)
  next =>
  split
  next heq =>
    subst heq
    obtain ⟨x, rfl, hx⟩ := ha.truth hs
    obtain ⟨y, rfl, hy⟩ := hb.truth hs
    have hbeq : (Value.bool x == Value.bool y) = (x == y) := by cases x <;> cases y <;> rfl
    exact hbeq ▸ iff_isTruth hs hx hy
  next hne =>
  refine .look_bind ?_
  split
  next x y hxy =>
    obtain ⟨hx, hy⟩ := Prod.mk.inj hxy
    obtain ⟨w, hw, rfl⟩ := ha.value.const hs hta hx
    obtain ⟨w', hw', rfl⟩ := hb.value.const hs htb hy
    rw [hw] at hw'
    cases hw'
    have hbeq : (Value.bv w x == Value.bv w y) = (x == y) := by
      rw [Bool.eq_iff_iff, beq_iff_eq, beq_iff_eq, Value.bv.injEq]
      exact and_iff_right rfl
    exact .pure hs (hbeq ▸ .ofBool hs _)
  next =>
  split
  · refine .intern hs (.eq a b) _ ⟨rfl, _, hne, hta, htb⟩ ⟨_, hs.bool_ty⟩ trivial
      fun t s' hs' ht hn => ?_
    exact .of_node hn ht (.eq (ha.value.extends_ hs hs'.ext) (hb.value.extends_ hs hs'.ext))
  · refine .intern hs (.eq b a) _ ⟨rfl, _, hne, htb, hta⟩ ⟨_, hs.bool_ty⟩ trivial
      fun t s' hs' ht hn => ?_
    rw [BEq.comm]
    exact .of_node hn ht (.eq (hb.value.extends_ hs hs'.ext) (ha.value.extends_ hs hs'.ext))

theorem neq_isTruth (hs : s.Wf) (ha : m.IsValue s a tya u) (hb : m.IsValue s b tyb v) :
    Builds s (Store.neq a b) fun t s' => m.IsTruth s' t (u != v) :=
  .bind (eq_isTruth hs ha hb) fun _ _ hs' ht => .pure hs'.wf ht.neg

end Choice

/-! ## Pairwise disequality -/

section Distinct

variable {f : Term → Value}

/-- The formulas among `ts` have truth values, and all are true exactly when `p` holds. -/
structure Decides (m : Model) (s : Store) (ts : List Term) (p : Prop) : Prop where
  truths : ∀ t ∈ ts, ∃ b, m.IsTruth s t b
  iff : (∀ t ∈ ts, m.IsTruth s t true) ↔ p

theorem Decides.extends_ {ts : List Term} {p : Prop} (h : m.Decides s ts p) (hs : s.Wf)
    (e : s.Extends s') :
    m.Decides s' ts p := by
  refine ⟨fun t ht => ?_, .trans (forall₂_congr fun t ht => ?_) h.iff⟩
  · obtain ⟨b, hb⟩ := h.truths t ht
    exact ⟨b, hb.extends_ hs e⟩
  · obtain ⟨b, hb⟩ := h.truths t ht
    constructor
    · intro htrue
      exact htrue.unique (hb.extends_ hs e) ▸ hb
    · exact fun htrue => htrue.extends_ hs e

/-- Two lists of formulas decide the conjunction of what each decides. -/
theorem Decides.append {ts us : List Term} {p q : Prop} (h : m.Decides s ts p)
    (h' : m.Decides s us q) :
    m.Decides s (ts ++ us) (p ∧ q) where
  truths t ht := (List.mem_append.mp ht).elim (h.truths t) (h'.truths t)
  iff := by rw [List.forall_mem_append, h.iff, h'.iff]

/-- The conjunction of formulas that decide `p`. -/
theorem and_decides (hs : s.Wf) {ts : List Term} {p : Prop} [Decidable p] (h : m.Decides s ts p) :
    Builds s (Store.and ts) fun t s' => m.IsTruth s' t (decide p) := by
  have hvalue : ∀ t : Term, ∃ b, t ∈ ts → m.IsTruth s t b := by
    intro t
    by_cases ht : t ∈ ts
    · obtain ⟨b, hb⟩ := h.truths t ht
      exact ⟨b, fun _ => hb⟩
    · exact ⟨false, fun hmem => absurd hmem ht⟩
  choose f hf using hvalue
  have hall : ts.all f = decide p := by
    rw [Bool.eq_iff_iff, List.all_eq_true, decide_eq_true_iff, ← h.iff]
    refine forall₂_congr fun t ht =>
      ⟨fun htrue => htrue ▸ hf t ht, fun htrue => (hf t ht).unique htrue⟩
  exact hall ▸ and_isTruth hs hf

/-- The disequalities of one term with others. -/
theorem neqs_decide (hs : s.Wf) {a : Term} {rest : List Term} (ha : ∃ ty, m.IsValue s a ty (f a))
    (hf : ∀ b ∈ rest, ∃ ty, m.IsValue s b ty (f b)) :
    Builds s (rest.mapM (Store.neq a)) fun ts s' =>
      m.Decides s' ts (∀ v ∈ rest.map f, f a ≠ v) := by
  induction rest generalizing s with
  | nil => exact .pure hs ⟨by simp, by simp⟩
  | cons b rest ih =>
    obtain ⟨tya, ha⟩ := ha
    obtain ⟨tyb, hb⟩ := hf b (List.mem_cons_self ..)
    rw [List.mapM_cons]
    refine .bind (neq_isTruth hs ha hb) fun t s₁ hs₁ ht => ?_
    refine .bind (ih hs₁.wf ⟨tya, ha.extends_ hs hs₁.ext⟩ fun c hc => ?_) fun ts s₂ hs₂ hts =>
      .pure hs₂.wf ?_
    · obtain ⟨ty, hty⟩ := hf c (List.mem_cons_of_mem _ hc)
      exact ⟨ty, hty.extends_ hs hs₁.ext⟩
    have hfirst : m.Decides s₂ [t] (f a ≠ f b) := by
      have ht₂ := ht.extends_ hs₁.wf hs₂.ext
      refine ⟨fun u hu => ⟨_, List.mem_singleton.mp hu ▸ ht₂⟩, ?_⟩
      rw [List.forall_mem_singleton, ← bne_iff_ne]
      exact ⟨fun htrue => ht₂.unique htrue, fun htrue => htrue ▸ ht₂⟩
    rw [List.map_cons, List.forall_mem_cons]
    exact hfirst.append hts

/-- The inequalities of all pairs decide whether the values are pairwise different. -/
theorem pairs_decide (hs : s.Wf) {args : List Term}
    (hf : ∀ a ∈ args, ∃ ty, m.IsValue s a ty (f a)) :
    Builds s (Store.distinct.pairs args) fun ts s' => m.Decides s' ts (args.map f).Nodup := by
  induction args generalizing s with
  | nil => exact .pure hs ⟨by simp, by simp⟩
  | cons a rest ih =>
    have hrest : ∀ b ∈ rest, ∃ ty, m.IsValue s b ty (f b) :=
      fun b hb => hf b (List.mem_cons_of_mem _ hb)
    unfold Store.distinct.pairs
    refine .bind (neqs_decide hs (hf a (List.mem_cons_self ..)) hrest) fun here s₁ hs₁ hhere => ?_
    refine .bind (ih hs₁.wf fun b hb => ?_) fun ts s₂ hs₂ hts => .pure hs₂.wf ?_
    · obtain ⟨ty, hty⟩ := hrest b hb
      exact ⟨ty, hty.extends_ hs hs₁.ext⟩
    rw [List.map_cons, List.Nodup, List.pairwise_cons]
    exact (hhere.extends_ hs₁.wf hs₂.ext).append hts

/-- A list is distinct in the model where its values are pairwise different. -/
theorem distinct_isTruth (hs : s.Wf) {args : List Term}
    (hf : ∀ a ∈ args, ∃ ty, m.IsValue s a ty (f a)) :
    Builds s (Store.distinct args) fun t s' => m.IsTruth s' t (decide (args.map f).Nodup) := by
  unfold Store.distinct
  split
  · exact .throw hs _
  · exact .bind (pairs_decide hs hf) fun ts s' hs' hts => and_decides hs'.wf hts

end Distinct
end Model
end Entail
