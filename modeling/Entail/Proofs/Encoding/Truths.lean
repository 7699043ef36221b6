import Entail.Proofs.Encoding.Atoms

/-!
# Truth values of built formulas

Lifting an if-then-else out of an equality builds formulas. Atoms do not have to be consistent
with each other, so the values that they give are none of an interpretation; all there is to rely
on is that the connectives mean what they say. That is enough for what the constructors of
boolean terms build.
-/

namespace Entail

namespace Store

/-- Truth values of terms that respect the connectives. -/
structure Truths (s : Store) (v : Term → Bool) : Prop where
  top : v .top = true
  neg : ∀ {t}, s.Has t .bool → v t.neg = !v t
  or : ∀ {p args}, s.node? p = some (.or args, .bool) → p.isNegated = false →
    (v p = true ↔ ∃ a ∈ args, v a = true)
  xor : ∀ {p a b}, s.node? p = some (.xor a b, .bool) → p.isNegated = false → v p = (v a != v b)
  ite : ∀ {p c a b}, s.node? p = some (.ite c a b, .bool) → p.isNegated = false →
    v p = if v c then v a else v b

/-- `t` is a boolean term, and is true when `m` says so. -/
structure Reads (s : Store) (t : Term) (m : (Term → Bool) → Bool) : Prop where
  has : s.Has t .bool
  value : ∀ {v}, s.Truths v → v t = m v

variable {s s' : Store} {v : Term → Bool} {t a b c : Term} {m m' : (Term → Bool) → Bool}

namespace Truths

theorem bot (h : s.Truths v) (hs : s.Wf) : v .bot = false := by
  have hneg := h.neg (t := .top) ⟨⟨_, hs.truth⟩, fun _ => rfl⟩
  rw [h.top] at hneg
  exact hneg

/-- A formula has the value of its positive handle, turned round where it is negated. -/
theorem positive (h : s.Truths v) (ht : s.Has t .bool) : v t = (v t.positive != t.isNegated) := by
  cases hneg : t.isNegated with
  | false => rw [Term.positive_of_not_isNegated hneg, Bool.bne_false]
  | true => rw [Bool.bne_true, ← h.neg ht.positive, Term.neg_positive hneg]

end Truths

namespace Reads

/-- A formula may be read in another way, if both agree under all truth assignments. -/
theorem congr (ht : s.Reads t m) (hm : ∀ {v}, s.Truths v → m v = m' v) : s.Reads t m' :=
  ⟨ht.has, fun hv => (ht.value hv).trans (hm hv)⟩

theorem self (ht : s.Has t .bool) : s.Reads t fun v => v t := ⟨ht, fun _ => rfl⟩

/-- The negation of a formula is read as the opposite value. -/
theorem neg (ht : s.Reads t m) : s.Reads t.neg fun v => !m v :=
  ⟨ht.has.neg, fun hv => by rw [hv.neg ht.has, ht.value hv]⟩

theorem negIf (ht : s.Reads t m) (flip : Bool) : s.Reads (t.negIf flip) fun v => m v != flip := by
  cases flip with
  | false => exact ht.congr fun _ => (Bool.bne_false _).symm
  | true => exact ht.neg.congr fun _ => (Bool.bne_true _).symm

end Reads

/-! ## Constructors -/

theorem reads_top (h : s.Wf) : s.Reads .top fun _ => true :=
  ⟨⟨⟨_, h.truth⟩, fun _ => rfl⟩, fun hv => hv.top⟩

theorem reads_bot (h : s.Wf) : s.Reads .bot fun _ => false := (reads_top h).neg

/-- A disjunction is read as the disjunction of its members, whatever was simplified. -/
theorem orOf_reads (h : s.Wf) {args : List Term} (hargs : ∀ a ∈ args, s.Has a .bool) :
    Builds s (orOf args) fun t s' => s'.Reads t fun v => args.any v := by
  unfold orOf
  split
  next htop =>
    refine .pure h ((reads_top h).congr fun hv => Eq.symm (List.any_eq_true.mpr ⟨.top, ?_, hv.top⟩))
    simpa using htop
  next =>
    have hmem (a : Term) : a ∈ Term.dedup (Term.sort (args.filter (· ≠ .bot))) ↔ a ∈ args ∧
        a ≠ .bot := by
      rw [Term.mem_dedup, Term.mem_sort, List.mem_filter]
      simp
    have hkept : ∀ a ∈ Term.dedup (Term.sort (args.filter (· ≠ .bot))), s.Has a .bool :=
      fun a ha => hargs a ((hmem a).mp ha).1
    -- dropping falsity and repetitions does not change the disjunction
    have hsame (r : Store) (hr : r.Wf) (v : Term → Bool) (hv : r.Truths v) :
        (Term.dedup (Term.sort (args.filter (· ≠ .bot)))).any v = args.any v := by
      rw [Bool.eq_iff_iff, List.any_eq_true, List.any_eq_true]
      refine ⟨fun ⟨a, ha, hva⟩ => ⟨a, ((hmem a).mp ha).1, hva⟩, fun ⟨a, ha, hva⟩ =>
        ⟨a, (hmem a).mpr ⟨ha, ?_⟩, hva⟩⟩
      rintro rfl
      rw [hv.bot hr] at hva
      cases hva
    generalize Term.dedup (Term.sort (args.filter (· ≠ .bot))) = kept at hkept hsame
    dsimp only
    split
    next hcomplement =>
      obtain ⟨a, ha, hna⟩ := Term.exists_of_hasComplement hcomplement
      refine .pure h ((reads_top h).congr fun {v} hv => ?_)
      rw [← hsame s h _ hv]
      refine Eq.symm (List.any_eq_true.mpr ?_)
      cases hva : v a with
      | true => exact ⟨a, ha, hva⟩
      | false => exact ⟨a.neg, hna, by rw [hv.neg (hkept a ha), hva]; rfl⟩
    next =>
      match kept, hkept, hsame with
      | [], _, hsame => exact .pure h ((reads_bot h).congr fun hv => by rw [← hsame s h _ hv]; rfl)
      | [t], hkept, hsame =>
        exact .pure h ((Reads.self (hkept t List.mem_cons_self)).congr
          fun hv => by rw [← hsame s h _ hv]; simp)
      | a :: b :: rest, hkept, hsame =>
        refine .intern h (.or (a :: b :: rest)) _ ⟨rfl, hkept⟩ ⟨_, h.bool_ty⟩ trivial
          fun t s' hs ht hn => ?_
        refine ⟨⟨⟨_, hn⟩, fun _ => rfl⟩, fun {v} hv => ?_⟩
        rw [← hsame s' hs.wf _ hv, Bool.eq_iff_iff, List.any_eq_true]
        exact hv.or hn ht

theorem or2_reads (h : s.Wf) (a b : Term) :
    Builds s (or2 a b) fun t s' => s'.Reads t fun v => v a || v b :=
  .read_bind h fun _ hchk => (orOf_reads h fun a ha => checkBool_eq_ok (forM_eq_ok hchk a ha)).mono
    fun _ _ _ ht => ht.congr fun _ => by simp

theorem and2_reads (h : s.Wf) (a b : Term) :
    Builds s (and2 a b) fun t s' => s'.Reads t fun v => v a && v b := by
  refine .read_bind h fun _ hchk => ?_
  have hab : ∀ x ∈ [a, b], s.Has x .bool := fun x hx => checkBool_eq_ok (forM_eq_ok hchk x hx)
  have hneg : ∀ x ∈ [a, b].map Term.neg, s.Has x .bool := fun x hx => by
    obtain ⟨y, hy, rfl⟩ := List.mem_map.mp hx
    exact (hab y hy).neg
  refine .bind (orOf_reads h hneg) fun t s' hs ht => .pure hs.wf (ht.neg.congr fun hv => ?_)
  simp [hv.neg (hs.ext.has (hab a (by simp))), hv.neg (hs.ext.has (hab b (by simp)))]

theorem xor2_reads (h : s.Wf) (a b : Term) :
    Builds s (xor2 a b) fun t s' => s'.Reads t fun v => v a != v b := by
  refine .read_bind h fun _ ha => .read_bind h fun _ hb => ?_
  replace ha := checkBool_eq_ok ha
  replace hb := checkBool_eq_ok hb
  -- the positive terms decide the result up to the two polarities
  have hlast (r : Term) (s' : Store) (hs : Later s s')
    (hr : s'.Reads r fun v => v a.positive != v b.positive) :
      Builds s' (pure (r.negIf (a.isNegated != b.isNegated))) fun t s' => s'.Reads t fun v =>
        v a != v b := by
    refine .pure hs.wf ((hr.negIf _).congr fun {v} hv => ?_)
    rw [hv.positive (hs.ext.has ha), hv.positive (hs.ext.has hb)]
    generalize v a.positive = x
    generalize v b.positive = y
    cases a.isNegated <;> cases b.isNegated <;> cases x <;> cases y <;> rfl
  have hnode (x y : Term) (hx : s.Has x .bool) (hy : s.Has y .bool) :
      Builds s (Store.intern (.xor x y) .bool) fun t s' => s'.Reads t fun v => v x != v y :=
    .intern h (.xor x y) _ ⟨rfl, hx, hy⟩ ⟨_, h.bool_ty⟩ trivial fun t s' hs ht hn =>
      ⟨⟨⟨_, hn⟩, fun _ => rfl⟩, fun hv => hv.xor hn ht⟩
  dsimp only
  split
  next heq => exact .bind (.pure h ((reads_bot h).congr fun _ => by rw [heq]; simp)) hlast
  next =>
  split
  next heq =>
    exact .bind (.pure h ((Reads.self hb.positive).neg.congr fun hv => by rw [heq, hv.top]; simp))
      hlast
  next =>
  split
  next heq =>
    exact .bind (.pure h ((Reads.self ha.positive).neg.congr fun hv => by rw [heq, hv.top]; simp))
      hlast
  next =>
  split
  · exact .bind (hnode _ _ ha.positive hb.positive) hlast
  · exact .bind ((hnode _ _ hb.positive ha.positive).mono fun _ _ _ ht => ht.congr fun _ =>
      bne_comm) hlast

/-- An equivalence is read as the equality of two truth values. -/
theorem iff_reads (h : s.Wf) (a b : Term) :
    Builds s (iff a b) fun t s' => s'.Reads t fun v => v a == v b :=
  .bind (xor2_reads h a b) fun _ _ hs ht =>
    .pure hs.wf (ht.neg.congr fun {v} _ => by cases v a <;> cases v b <;> rfl)

/-- A choice between formulas is read as the branch that its condition selects. -/
theorem iteOf_reads (h : s.Wf) (hc : s.Has c .bool) (ha : s.Has a .bool) (hb : s.Has b .bool) :
    Builds s (iteOf .bool c a b) fun t s' => s'.Reads t fun v => if v c then v a else v b := by
  have hnode (x y : Term) (hx : s.Has x .bool) (hy : s.Has y .bool) :
      Builds s (Store.intern (.ite c x y) .bool) fun t s' => s'.Reads t fun v => if v c then v x
        else v y :=
    .intern h (.ite c x y) _ ⟨hc, hx, hy⟩ ⟨_, h.bool_ty⟩ trivial fun t s' hs ht hn =>
      ⟨⟨⟨_, hn⟩, fun _ => rfl⟩, fun hv => hv.ite hn ht⟩
  unfold iteOf
  rw [if_pos rfl]
  split
  next heq =>
    refine (or2_reads h c b).mono fun _ _ _ ht => ht.congr fun {v} hv => ?_
    rw [heq, hv.top]
    cases v c <;> rfl
  next =>
  split
  next heq =>
    refine (and2_reads h c.neg b).mono fun _ _ hs ht => ht.congr fun {v} hv => ?_
    rw [heq, hv.bot hs.wf, hv.neg (hs.ext.has hc)]
    cases v c <;> rfl
  next =>
  split
  next heq =>
    refine (or2_reads h c.neg a).mono fun _ _ hs ht => ht.congr fun {v} hv => ?_
    rw [heq, hv.top, hv.neg (hs.ext.has hc)]
    cases v c <;> simp
  next =>
  split
  next heq =>
    refine (and2_reads h c a).mono fun _ _ hs ht => ht.congr fun {v} hv => ?_
    rw [heq, hv.bot hs.wf]
    cases v c <;> simp
  next =>
  split
  next heq =>
    refine (iff_reads h c a).mono fun _ _ hs ht => ht.congr fun {v} hv => ?_
    rw [heq, hv.neg (hs.ext.has hb)]
    cases v c <;> cases v b <;> rfl
  next =>
  split
  · refine .bind (hnode _ _ ha.neg hb.neg) fun t s' hs ht =>
      .pure hs.wf (ht.neg.congr fun {v} hv => ?_)
    rw [hv.neg (hs.ext.has ha), hv.neg (hs.ext.has hb)]
    cases v c <;> simp
  · exact hnode _ _ ha hb

/-- A choice between formulas. -/
theorem ite_reads (h : s.Wf) (ha : s.Has a .bool) (c b : Term) :
    Builds s (ite c a b) fun t s' => s'.Reads t fun v => if v c then v a else v b := by
  refine .read_bind h fun _ hc => .read_bind h fun ty hab => ?_
  replace hc := checkBool_eq_ok hc
  obtain ⟨ha', hb⟩ := checkSameType_eq_ok hab
  obtain rfl := ha'.unique ha
  split
  next heq =>
    refine .pure h ((Reads.self ha).congr fun {v} hv => ?_)
    rcases Bool.or_eq_true_iff.mp heq with htop | hsame
    · rw [of_decide_eq_true htop, hv.top]
      rfl
    · rw [of_decide_eq_true hsame]
      simp
  next =>
  split
  next heq => exact .pure h ((Reads.self hb).congr fun hv => by rw [heq, hv.bot h]; rfl)
  next =>
  split
  · refine (iteOf_reads h hc.neg hb ha).mono fun _ _ hs ht => ht.congr fun {v} hv => ?_
    rw [hv.neg (hs.ext.has hc)]
    cases v c <;> rfl
  · exact iteOf_reads h hc ha hb

/-- An equality of a sort is true, or stays an equality, with its sides in some order. -/
theorem eq_reads (h : s.Wf) {ty : Ty} (ha : s.Has a ty) (hsort : s.isSort ty = true) :
    Builds s (eq a b) fun t s' => s.Has b ty ∧ s'.Has t .bool ∧ (t = .top ∧ a = b ∨
      t.isNegated = false ∧ (s'.node? t = some (.eq a b, .bool) ∨
        s'.node? t = some (.eq b a, .bool))) := by
  obtain ⟨n, hty⟩ : ∃ n, s.tyShape? ty = some (.uninterpreted n) := by
    unfold isSort at hsort
    split at hsort
    next n hty => exact ⟨n, hty⟩
    next => cases hsort
  have hne : ty ≠ .bool := by
    rintro rfl
    rw [h.bool_ty] at hty
    cases hty
  have hconst {x : Term} (hx : s.Has x ty) : s.constValue? x = none := by
    cases hc : s.constValue? x with
    | none => rfl
    | some n =>
      obtain ⟨w, ty', hn⟩ := constValue?_eq_some hc
      obtain rfl : ty' = ty := congrArg Prod.snd (Option.some.inj (hn.symm.trans hx.node))
      rw [(h.typed hn).1] at hty
      cases hty
  refine .read_bind h fun ty' hab => ?_
  obtain ⟨ha', hb⟩ := checkSameType_eq_ok hab
  obtain rfl := ha'.unique ha
  split
  next heq => exact .pure h ⟨hb, (reads_top h).has, .inl ⟨rfl, heq⟩⟩
  next =>
  refine .look_bind ?_
  rw [hconst ha, hconst hb]
  dsimp only
  split
  · exact .intern h (.eq a b) _ ⟨rfl, ty', hne, ha, hb⟩ ⟨_, h.bool_ty⟩ trivial fun t s' hs ht hn =>
      ⟨hb, ⟨⟨_, hn⟩, fun _ => rfl⟩, .inr ⟨ht, .inl hn⟩⟩
  · exact .intern h (.eq b a) _ ⟨rfl, ty', hne, hb, ha⟩ ⟨_, h.bool_ty⟩ trivial fun t s' hs ht hn =>
      ⟨hb, ⟨⟨_, hn⟩, fun _ => rfl⟩, .inr ⟨ht, .inr hn⟩⟩

end Store

/-! ## Atoms -/

namespace Atoms

variable {A : Atoms} {s s' : Store}

theorem equal_self (A : Atoms) (x : Val Element) : A.equal x x = true := by
  cases x with
  | bool | word => simp [equal]
  | elem => exact A.same_self _

theorem equal_comm (A : Atoms) (x y : Val Element) : A.equal x y = A.equal y x := by
  cases x <;> cases y <;> first | exact BEq.comm | exact A.same_comm _ _ | rfl

/-- The truth values that atoms give respect the connectives. -/
theorem truths (A : Atoms) (h : s.Wf) : s.Truths fun t => (A.value s t).toBool where
  top := by rw [A.value_of_node h h.truth rfl]; rfl
  neg ht := A.toBool_neg h ht
  or hn hp := by
    rw [A.value_of_node h hn hp]
    simp [node, Term.Shape.combine, Term.Shape.children]
  xor hn hp := by
    rw [A.value_of_node h hn hp]
    rfl
  ite {p c a b} hn hp := by
    rw [A.value_of_node h hn hp]
    simp only [node, Term.Shape.combine, Term.Shape.children, List.map_cons, List.map_nil]
    split <;> rfl

/-- What is built for an equality of a sort says whether the elements are equal. -/
theorem eq_builds (h : s.Wf) {a b : Term} {ty : Ty} (ha : s.Has a ty) (hsort : s.isSort ty = true) :
    Store.Builds s (Store.eq a b) fun t s' => s'.Has t .bool ∧
      ∀ A : Atoms, (A.value s' t).toBool = A.equal (A.value s' a) (A.value s' b) := by
  refine (Store.eq_reads h ha hsort).mono fun t s' hs ⟨hb, ht, hcases⟩ => ⟨ht, fun A => ?_⟩
  rcases hcases with ⟨rfl, rfl⟩ | ⟨hneg, hn | hn⟩
  · rw [(A.truths hs.wf).top, equal_self]
  · rw [A.value_of_node hs.wf hn hneg]
    rfl
  · rw [A.value_of_node hs.wf hn hneg, equal_comm]
    rfl

end Atoms
end Entail
