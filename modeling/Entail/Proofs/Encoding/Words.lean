import Entail.Proofs.Context.TidyEncode
import Entail.Proofs.Encoding.Atoms
import Entail.Proofs.Encoding.Drafts

/-!
# Words of gates compute what they say

Sums are rippled through the bits from the least significant one on, products are summed up row by
row, and a word is at least another one when their difference carries out. Each circuit is followed
bit by bit; what the rest of a word makes is known by induction.
-/

/-!
## Gates compute what they say

A gate folds constants, equal and opposite inputs, and defines a new variable only when its value is
not clear. Either way its output has the truth value that its name says, under all valuations that
satisfy the definitions. The words that are put together from gates make the sums, products,
negations and comparisons of the numbers of their inputs.
-/

namespace Entail

open Search Workspace Work

namespace Draft

variable {L L' : Draft} {α : Type} {R : α → Draft → Prop} {x y z : Literal} {xs ys : List Literal}

/-! ## Constants -/

theorem drafts_look (hL : L.Ok) {g : Store → Context → α} (h : R (g L.store L.work.ctx) L) :
    L.Drafts (look g) R :=
  ⟨L, rfl, .refl hL, h⟩

theorem drafts_trueLit (hL : L.Ok) {m : (Nat → Bool) → Bool}
    (hm : ∀ {a}, Meets a L.defs → m a = true) :
    L.Drafts trueLit fun out L' => L'.Gives out m :=
  drafts_look hL (hL.truth.congr fun ha => (hm ha).symm)

theorem drafts_falseLit (hL : L.Ok) {m : (Nat → Bool) → Bool}
    (hm : ∀ {a}, Meets a L.defs → m a = false) :
    L.Drafts falseLit fun out L' => L'.Gives out m :=
  drafts_look hL (hL.falsity.congr fun ha => (hm ha).symm)

/-- A literal that is known to be constant has that value. -/
theorem constant_bind (hL : L.Ok) {f : Option Bool → Work α}
    (h : ∀ c, (∀ {b a}, c = some b → Meets a L.defs → x.eval a = b) → L.Drafts (f c) R) :
    L.Drafts (constant? x >>= f) R := by
  refine h _ fun {b a} hb ha => ?_
  beta_reduce at hb
  split at hb
  next heq =>
    cases hb
    exact heq ▸ hL.truth.value ha
  next =>
    split at hb
    next heq =>
      cases hb
      exact heq ▸ hL.falsity.value ha
    next => cases hb

/-! ## Gates -/

/-- An answer that is there already. -/
theorem drafts_return (hL : L.Ok) (hx : L.view.Live x.var) {m : (Nat → Bool) → Bool}
    (hm : ∀ {a}, Meets a L.defs → x.eval a = m a) :
    L.Drafts (pure x) fun out L' => L'.Gives out m :=
  .pure hL ⟨hx, hm⟩

theorem drafts_andGate (hL : L.Ok) (hx : L.view.Live x.var) (hy : L.view.Live y.var) :
    L.Drafts (andGate x y) fun out L' => L'.Gives out fun a => x.eval a && y.eval a := by
  refine constant_bind hL fun cx hcx => constant_bind hL fun cy hcy => ?_
  split
  next h =>
    refine drafts_falseLit hL fun ha => ?_
    rcases Bool.or_eq_true_iff.mp h with h | h
    · rw [hcx (of_decide_eq_true h) ha, Bool.false_and]
    · rw [hcy (of_decide_eq_true h) ha, Bool.and_false]
  next =>
  split
  next h => exact drafts_return hL hy fun ha => by rw [hcx h ha, Bool.true_and]
  next =>
  split
  next h => exact drafts_return hL hx fun ha => by rw [hcy h ha, Bool.and_true]
  next =>
  split
  next h => exact drafts_return hL hx fun _ => by rw [← h, Bool.and_self]
  next =>
  split
  next h => exact drafts_falseLit hL fun _ => by rw [h, Literal.eval_neg, Bool.not_and_self]
  next =>
    refine drafts_define hL (fun out => orClauses out.neg [x.neg, y.neg]) (fun out a => ?_)
      (fun hab => ?_)
      fun hout hvs => over_orClauses (by simpa using hout) ?_
    · rw [meets_orClauses]
      simp only [Literal.eval_neg, List.any_cons, List.any_nil]
      cases out.eval a <;> cases x.eval a <;> cases y.eval a <;> simp
    · rw [Literal.eval_congr (hab _ hx), Literal.eval_congr (hab _ hy)]
    · simpa [Over] using ⟨hvs _ hx, hvs _ hy⟩

theorem drafts_orGate (hL : L.Ok) (hx : L.view.Live x.var) (hy : L.view.Live y.var) :
    L.Drafts (orGate x y) fun out L' => L'.Gives out fun a => x.eval a || y.eval a := by
  refine .bind (drafts_andGate hL (by simpa using hx) (by simpa using hy)) fun out L' h hout =>
    .pure h.ok ?_
  refine hout.neg.congr fun {a} _ => ?_
  rw [Literal.eval_neg, Literal.eval_neg]
  cases x.eval a <;> cases y.eval a <;> rfl

theorem drafts_xorGate (hL : L.Ok) (hx : L.view.Live x.var) (hy : L.view.Live y.var) :
    L.Drafts (xorGate x y) fun out L' => L'.Gives out fun a => x.eval a != y.eval a := by
  refine constant_bind hL fun cx hcx => constant_bind hL fun cy hcy => ?_
  split
  next b _ =>
    refine drafts_return hL (by simpa using hy) fun ha => ?_
    rw [hcx rfl ha, Literal.eval_negIf, bne_comm]
  next b =>
    refine drafts_return hL (by simpa using hx) fun ha => ?_
    rw [hcy rfl ha, Literal.eval_negIf]
  next =>
    split
    next h => exact drafts_falseLit hL fun _ => by rw [h, bne_self_eq_false]
    next =>
    split
    next h =>
      refine drafts_trueLit hL fun {a} _ => ?_
      rw [h, Literal.eval_neg]
      cases y.eval a <;> rfl
    next =>
      refine drafts_define hL (fun out => xorClauses out x y)
        (fun out a => meets_xorClauses a out x y) (fun hab => ?_) fun hout hvs =>
          over_xorClauses hout (over_pair.mpr ⟨hvs _ hx, hvs _ hy⟩)
      rw [Literal.eval_congr (hab _ hx), Literal.eval_congr (hab _ hy)]

theorem drafts_iteGate (hL : L.Ok) (hz : L.view.Live z.var) (hx : L.view.Live x.var)
    (hy : L.view.Live y.var) :
    L.Drafts (iteGate z x y) fun out L' => L'.Gives out fun a => if z.eval a then x.eval a
      else y.eval a := by
  refine constant_bind hL fun cz hcz => ?_
  split
  next b =>
    cases b with
    | true => exact drafts_return hL hx fun ha => by rw [hcz rfl ha]; rfl
    | false => exact drafts_return hL hy fun ha => by rw [hcz rfl ha]; rfl
  next =>
    split
    next h => exact drafts_return hL hx fun {a} _ => by rw [← h, ite_self]
    next =>
      refine drafts_define hL (fun out => iteClauses out z x y)
        (fun out a => meets_iteClauses a out z x y)
        (fun hab => ?_) fun hout hvs =>
          over_iteClauses hout (over_triple.mpr ⟨hvs _ hz, hvs _ hx, hvs _ hy⟩)
      rw [Literal.eval_congr (hab _ hz), Literal.eval_congr (hab _ hx),
        Literal.eval_congr (hab _ hy)]

/-- Two of three, when one of them is known. -/
theorem atLeastTwo_known (b c d : Bool) : Bool.atLeastTwo b c d = if b then c || d else c && d := by
  cases b <;> cases c <;> cases d <;> rfl

theorem drafts_majorityGate (hL : L.Ok) (hx : L.view.Live x.var) (hy : L.view.Live y.var)
    (hz : L.view.Live z.var) :
    L.Drafts (majorityGate x y z) fun out L' =>
      L'.Gives out fun a => Bool.atLeastTwo (x.eval a) (y.eval a) (z.eval a) := by
  -- with one input known, the gate is a disjunction or a conjunction of the other two
  have hknown {k l r : Literal} (hl : L.view.Live l.var) (hr : L.view.Live r.var) {b : Bool}
      (hk : ∀ {a}, Meets a L.defs → k.eval a = b) :
      L.Drafts (if b then orGate l r else andGate l r) fun out L' =>
        L'.Gives out fun a => Bool.atLeastTwo (k.eval a) (l.eval a) (r.eval a) := by
    cases b with
    | true =>
      refine (drafts_orGate hL hl hr).mono fun out L' h hout => hout.congr fun ha => ?_
      rw [atLeastTwo_known, hk (h.meets ha)]
      rfl
    | false =>
      refine (drafts_andGate hL hl hr).mono fun out L' h hout => hout.congr fun ha => ?_
      rw [atLeastTwo_known, hk (h.meets ha)]
      rfl
  have hswap (b c d : Bool) : Bool.atLeastTwo c b d = Bool.atLeastTwo b c d := by
    cases b <;> cases c <;> cases d <;> rfl
  have hturn (b c d : Bool) : Bool.atLeastTwo d b c = Bool.atLeastTwo b c d := by
    cases b <;> cases c <;> cases d <;> rfl
  refine constant_bind hL fun cx hcx => constant_bind hL fun cy hcy =>
    constant_bind hL fun cz hcz => ?_
  split
  · exact hknown hy hz fun ha => hcx rfl ha
  · exact (hknown hx hz fun ha => hcy rfl ha).mono fun out L' _ hout => hout.congr fun _ =>
      hswap _ _ _
  · exact (hknown hx hy fun ha => hcz rfl ha).mono fun out L' _ hout => hout.congr
      fun _ => hturn _ _ _
  · split
    next h =>
      refine drafts_return hL hx fun {a} _ => ?_
      rcases Bool.or_eq_true_iff.mp h with h | h
      · rw [← of_decide_eq_true h]
        cases x.eval a <;> cases z.eval a <;> rfl
      · rw [← of_decide_eq_true h]
        cases x.eval a <;> cases y.eval a <;> rfl
    next =>
    split
    next h =>
      refine drafts_return hL hy fun {a} _ => ?_
      rw [← h]
      cases x.eval a <;> cases y.eval a <;> rfl
    next =>
      refine drafts_define hL (fun out => majorityClauses out x y z)
        (fun out a => meets_majorityClauses a out x y z) (fun hab => ?_)
        fun hout hvs => over_majorityClauses hout (over_triple.mpr ⟨hvs _ hx, hvs _ hy, hvs _ hz⟩)
      rw [Literal.eval_congr (hab _ hx), Literal.eval_congr (hab _ hy),
        Literal.eval_congr (hab _ hz)]

end Draft
end Entail

namespace Entail

open Search Workspace Work

namespace Draft

variable {L L' : Draft} {x y c : Literal} {xs ys acc word : List Literal} {a : Nat → Bool}

theorem Counts.nil (L : Draft) {m : (Nat → Bool) → Nat} (hm : ∀ {a}, Meets a L.defs → m a = 0) :
    L.Counts [] m :=
  ⟨over_nil _, fun ha => (hm ha).symm⟩

theorem Counts.cons {b : (Nat → Bool) → Bool} {m : (Nat → Bool) → Nat} (hx : L.Gives x b)
    (hxs : L.Counts xs m) :
    L.Counts (x :: xs) fun a => (b a).toNat + 2 * m a where
  live := over_cons.mpr ⟨hx.live, hxs.live⟩
  value ha := by rw [Literal.number_cons, hx.value ha, hxs.value ha]

/-- A word of as many literals is no greater number. -/
theorem number_lt (a : Nat → Bool) (xs : List Literal) : Literal.number a xs < 2 ^ xs.length := by
  simpa [Literal.number] using Bits.ofBits_lt (xs.map (·.eval a))

theorem over_replicate {l : Literal} (hl : L.view.Live l.var) (n : Nat) :
    Over L.view.Live (List.replicate n l) :=
  fun _ hk => List.eq_of_mem_replicate hk ▸ hl

theorem number_replicate {l : Literal} (hl : l.eval a = false) (n : Nat) :
    Literal.number a (List.replicate n l) = 0 := by
  rw [Literal.number, List.map_replicate, hl, Bits.ofBits_replicate_false]

/-! ## Sums -/

/-- The sum of two words and a carry, where the last carry is dropped. -/
theorem drafts_adder (hL : L.Ok) (hlen : xs.length = ys.length) (hxs : Over L.view.Live xs)
    (hys : Over L.view.Live ys) (hc : L.view.Live c.var) :
    L.Drafts (adder xs ys c) fun out L' => out.length = xs.length ∧
      L'.Counts out fun a => (Literal.number a xs + Literal.number a ys +
        (c.eval a).toNat) % 2 ^ xs.length := by
  induction xs generalizing L ys c with
  | nil => exact .pure hL ⟨rfl, .nil L fun _ => Nat.mod_one _⟩
  | cons x xs ih =>
    obtain ⟨y, ys, rfl⟩ := List.exists_cons_of_length_eq_add_one hlen.symm
    obtain ⟨hx, hxs⟩ := over_cons.mp hxs
    obtain ⟨hy, hys⟩ := over_cons.mp hys
    replace hlen : xs.length = ys.length := Nat.succ.inj hlen
    have place (a : Nat → Bool) : (Literal.number a (x :: xs) + Literal.number a (y :: ys) +
      (c.eval a).toNat) %
        2 ^ (x :: xs).length = ((x.eval a != y.eval a) != c.eval a).toNat + 2 *
          ((Literal.number a xs +
          Literal.number a ys + (Bool.atLeastTwo (x.eval a) (y.eval a) (c.eval a)).toNat) % 2 ^
            xs.length) := by
      rw [Bits.sum_step]
      rfl
    refine .bind (drafts_xorGate hL hx hy) fun half L₁ h₁ hhalf => ?_
    refine .bind (drafts_xorGate h₁.ok hhalf.live (h₁.live hc)) fun sum L₂ h₂ hsum => ?_
    have hbit : L₂.Gives sum fun a => (x.eval a != y.eval a) != c.eval a :=
      hsum.congr fun ha => by rw [hhalf.value (h₂.meets ha)]
    have h₀₂ := h₁.trans h₂
    split
    next hempty =>
      obtain rfl := List.isEmpty_iff.mp hempty
      refine .pure h₂.ok ⟨rfl, (Counts.cons hbit (.nil L₂ (m := fun _ => 0) fun _ => rfl)).congr
        fun {a} _ => ?_⟩
      rw [place, List.length_nil, Nat.pow_zero, Nat.mod_one]
    next =>
      refine .bind (drafts_majorityGate h₂.ok (h₀₂.live hx) (h₀₂.live hy) (h₀₂.live hc))
        fun carry L₃ h₃ hcarry => ?_
      have h₀₃ := h₀₂.trans h₃
      refine .bind (ih h₃.ok hlen (hxs.mono fun _ => h₀₃.live)
        (hys.mono fun _ => h₀₃.live) hcarry.live)
        fun rest L₄ h₄ ⟨hlength, hrest⟩ => ?_
      refine .pure h₄.ok ⟨congrArg (· + 1) hlength,
        (Counts.cons (hbit.later (h₃.trans h₄)) hrest).congr fun {a} ha => ?_⟩
      rw [place, hcarry.value (h₄.meets ha)]

/-- The negation of a word in two's complement. -/
theorem drafts_negater (hL : L.Ok) (hxs : Over L.view.Live xs) :
    L.Drafts (negater xs) fun out L' => out.length = xs.length ∧
      L'.Counts out fun a => (2 ^ xs.length - Literal.number a xs) % 2 ^ xs.length := by
  refine .bind (drafts_falseLit hL (m := fun _ => false) fun _ => rfl) fun zero L₁ h₁ hzero => ?_
  have hneg : (xs.map (·.neg)).length = xs.length := List.length_map ..
  refine (drafts_adder h₁.ok (by simp) ((hxs.mono fun _ => h₁.live).neg)
    (over_replicate hzero.live _)
    hzero.neg.live).mono fun out L₂ h₂ ⟨hlength, hout⟩ =>
      ⟨hlength.trans hneg, hout.congr fun {a} ha => ?_⟩
  rw [hneg, number_replicate (hzero.value (h₂.meets ha)), Literal.eval_neg,
    hzero.value (h₂.meets ha)]
  have hflip : Literal.number a (xs.map (·.neg)) = Bits.ofBits ((xs.map (·.eval a)).map (!·)) := by
    rw [Literal.number, List.map_map, List.map_map]
    exact congrArg Bits.ofBits (List.map_congr_left fun l _ => Literal.eval_neg a l)
  have hsum := Bits.ofBits_map_not (xs.map (·.eval a))
  rw [← hflip, List.length_map] at hsum
  replace hsum : Literal.number a (xs.map (·.neg)) + Literal.number a xs + 1 = 2 ^ xs.length := hsum
  have hrest : Literal.number a (xs.map (·.neg)) + 1 = 2 ^ xs.length - Literal.number a xs := by
    omega
  rw [← hrest]
  rfl

/-! ## Products -/

/-- A row of a product: the low bits of a word, or nothing of it. -/
theorem drafts_row (hL : L.Ok) (hxs : Over L.view.Live xs) (hy : L.view.Live y.var) (n : Nat) :
    L.Drafts ((xs.take n).mapM (andGate · y)) fun row L' => row.length = (xs.take n).length ∧
      L'.Counts row fun a => (y.eval a).toNat * (Literal.number a xs % 2 ^ n) := by
  have hlive : Over L.view.Live (xs.take n) := fun l hl => hxs l (List.mem_of_mem_take hl)
  let P (x out : Literal) (L' : Draft) : Prop := L'.Gives out fun a => x.eval a && y.eval a
  refine (Drafts.mapM (P := P) (fun _ h hout => hout.later h) hL fun x hx L' h =>
    drafts_andGate h.ok (h.live (hlive x hx)) (h.live hy)).mono fun row L' _ hrow => ?_
  refine ⟨hrow.length_eq.symm, over_of_forall₂ hrow fun hout => hout.live, fun {a} ha => ?_⟩
  have hmap : row.map (·.eval a) = (xs.take n).map fun x => x.eval a && y.eval a :=
    map_eq_of_forall₂ hrow fun hout => hout.value ha
  have hand := Bits.ofBits_map_and ((xs.take n).map (·.eval a)) (y.eval a)
  rw [List.map_map] at hand
  rw [Literal.number, hmap]
  refine hand.trans ?_
  rw [List.map_take, Bits.ofBits_take]
  rfl

/-- The rows from `shift` on are added to what is there. -/
theorem drafts_addProducts (hL : L.Ok) {shift : Nat} (hlen : shift + ys.length = xs.length)
    (hacc : acc.length = xs.length) (hxs : Over L.view.Live xs) (hys : Over L.view.Live ys)
    (hlive : Over L.view.Live acc) :
    L.Drafts (addProducts xs ys shift acc) fun out L' => out.length = xs.length ∧
    L'.Counts out fun a =>
      (Literal.number a acc + Literal.number a xs * 2 ^ shift *
        Literal.number a ys) % 2 ^ xs.length := by
  induction ys generalizing L shift acc with
  | nil =>
    refine .pure hL ⟨hacc, hlive, fun {a} _ => ?_⟩
    have hlt := number_lt a acc
    rw [hacc] at hlt
    exact (Nat.mod_eq_of_lt hlt).symm
  | cons y ys ih =>
    obtain ⟨hy, hys⟩ := over_cons.mp hys
    replace hlen : shift + 1 + ys.length = xs.length := by rw [← hlen, List.length_cons]; omega
    refine constant_bind hL fun b hb => ?_
    split
    next hfalse =>
      refine (ih hL hlen hacc hxs hys hlive).mono fun out L' h ⟨hlength, hout⟩ =>
        ⟨hlength, hout.congr fun {a} ha => ?_⟩
      have hzero : Literal.number a (y :: ys) = 2 * Literal.number a ys := by
        rw [Literal.number_cons, hb hfalse (h.meets ha)]
        exact Nat.zero_add _
      rw [hzero, Nat.pow_succ, Nat.mul_assoc, Nat.mul_assoc, Nat.mul_assoc]
    next =>
      refine .bind (drafts_falseLit hL (m := fun _ => false) fun _ => rfl) fun zero L₁ h₁ hzero =>
        ?_
      refine .bind (drafts_row h₁.ok (hxs.mono fun _ => h₁.live) (h₁.live hy) _)
        fun row L₂ h₂ ⟨hrowlen, hrow⟩ => ?_
      have hshift : shift ≤ xs.length := by omega
      have hrowlen' : (List.replicate shift zero ++ row).length = xs.length := by
        simp [hrowlen]; omega
      have hzero₂ := hzero.later h₂
      have h₀₂ := h₁.trans h₂
      refine .bind (drafts_adder h₂.ok (hacc.trans hrowlen'.symm) (hlive.mono fun _ => h₀₂.live)
        (over_append.mpr ⟨over_replicate hzero₂.live shift, hrow.live⟩) hzero₂.live)
        fun acc' L₃ h₃ ⟨hacclen, hacc'⟩ => ?_
      have h₀₃ := h₀₂.trans h₃
      refine (ih h₃.ok hlen (hacclen.trans hacc) (hxs.mono fun _ => h₀₃.live)
        (hys.mono fun _ => h₀₃.live)
        hacc'.live).mono fun out L₄ h₄ ⟨hlength, hout⟩ => ⟨hlength, hout.congr fun {a} ha => ?_⟩
      have ha₃ := h₄.meets ha
      have ha₂ := h₃.meets ha₃
      have hshifted : Literal.number a (List.replicate shift zero ++ row) =
          2 ^ shift * ((y.eval a).toNat * (Literal.number a xs % 2 ^ (xs.length - shift))) := by
        rw [← hrow.value ha₂, Literal.number, List.map_append, Bits.ofBits_append, List.length_map,
          List.length_replicate]
        exact (congrArg (· + _) (number_replicate (hzero₂.value ha₂) shift)).trans (Nat.zero_add _)
      rw [hacc'.value ha₃, hzero₂.value ha₂, hshifted, Bits.row_shifted _ _ hshift, hacc,
        Bool.toNat_false, Nat.add_zero,
        Nat.add_mod_mod, Bits.product_step, Literal.number_cons]

/-- The product of two words, cut to their width. -/
theorem drafts_multiplier (hL : L.Ok) (hlen : xs.length = ys.length) (hxs : Over L.view.Live xs)
    (hys : Over L.view.Live ys) :
    L.Drafts (multiplier xs ys) fun out L' => out.length = xs.length ∧
      L'.Counts out fun a => (Literal.number a xs * Literal.number a ys) % 2 ^ xs.length := by
  refine .bind (drafts_falseLit hL (m := fun _ => false) fun _ => rfl) fun zero L₁ h₁ hzero => ?_
  refine (drafts_addProducts h₁.ok (by omega) (List.length_replicate ..) (hxs.mono fun _ => h₁.live)
    (hys.mono fun _ => h₁.live) (over_replicate hzero.live _)).mono fun out L₂ h₂ ⟨hlength, hout⟩ =>
      ⟨hlength, hout.congr fun {a} ha => ?_⟩
  rw [number_replicate (hzero.value (h₂.meets ha)), Nat.zero_add, Nat.pow_zero, Nat.mul_one]

/-! ## Comparisons -/

/-- What is left to compare decides, as long as all that was compared is equal. -/
theorem drafts_equalFold (hL : L.Ok) {m : (Nat → Bool) → Bool} (hc : L.Gives c m)
    (hlen : xs.length = ys.length) (hxs : Over L.view.Live xs) (hys : Over L.view.Live ys) :
    L.Drafts ((xs.zip ys).foldlM (fun acc (x, y) => do andGate acc (← xorGate x y).neg) c)
      fun out L' =>
      L'.Gives out fun a => m a && (xs.map (·.eval a) == ys.map (·.eval a)) := by
  induction xs generalizing L ys c m with
  | nil =>
    obtain rfl := List.length_eq_zero_iff.mp hlen.symm
    exact .pure hL (hc.congr fun _ => (Bool.and_true _).symm)
  | cons x xs ih =>
    obtain ⟨y, ys, rfl⟩ := List.exists_cons_of_length_eq_add_one hlen.symm
    obtain ⟨hx, hxs⟩ := over_cons.mp hxs
    obtain ⟨hy, hys⟩ := over_cons.mp hys
    rw [List.zip_cons_cons, List.foldlM_cons]
    have hplace : L.Drafts (do andGate c (← xorGate x y).neg) fun out L' =>
        L'.Gives out fun a => m a && (x.eval a == y.eval a) := by
      refine .bind (drafts_xorGate hL hx hy) fun d L₁ h₁ hd => ?_
      refine (drafts_andGate h₁.ok (h₁.live hc.live) hd.neg.live).mono fun out L₂ h₂ hout =>
        hout.congr fun {a} ha => ?_
      have ha₁ := h₂.meets ha
      rw [hc.value (h₁.meets ha₁), Literal.eval_neg, hd.value ha₁]
      cases x.eval a <;> cases y.eval a <;> rfl
    refine .bind hplace fun d L₁ h₁ hd => ?_
    refine (ih h₁.ok hd (Nat.succ.inj hlen) (hxs.mono fun _ => h₁.live)
      (hys.mono fun _ => h₁.live)).mono
      fun out L₂ _ hout => hout.congr fun {a} _ => ?_
    rw [List.map_cons, List.map_cons, List.cons_beq_cons, Bool.and_assoc]

/-- Whether two words of one length are equal. -/
theorem drafts_equalGate (hL : L.Ok) (hlen : xs.length = ys.length) (hxs : Over L.view.Live xs)
    (hys : Over L.view.Live ys) :
    L.Drafts (equalGate xs ys) fun out L' => L'.Gives out fun a =>
      Literal.number a xs == Literal.number a ys := by
  refine .bind (drafts_trueLit hL (m := fun _ => true) fun _ => rfl) fun one L₁ h₁ hone => ?_
  refine (drafts_equalFold h₁.ok hone hlen (hxs.mono fun _ => h₁.live)
    (hys.mono fun _ => h₁.live)).mono
    fun out L₂ _ hout => hout.congr fun {a} _ => ?_
  rw [Bool.true_and, Bool.eq_iff_iff, beq_iff_eq, beq_iff_eq]
  exact (Bits.ofBits_inj (by simp [hlen])).symm

/-- A carry is handed through a comparison. -/
theorem drafts_geFold (hL : L.Ok) (hlen : xs.length = ys.length) (hxs : Over L.view.Live xs)
    (hys : Over L.view.Live ys) (hc : L.view.Live c.var) :
    L.Drafts ((xs.zip ys).foldlM (fun carry (x, y) => majorityGate x y.neg carry) c) fun out L' =>
      L'.Gives out fun a => decide (Literal.number a ys < Literal.number a xs +
        (c.eval a).toNat) := by
  induction xs generalizing L ys c with
  | nil =>
    obtain rfl := List.length_eq_zero_iff.mp hlen.symm
    refine .pure hL ⟨hc, fun {a} _ => ?_⟩
    cases hca : c.eval a <;> simp [Literal.number, Bits.ofBits]
  | cons x xs ih =>
    obtain ⟨y, ys, rfl⟩ := List.exists_cons_of_length_eq_add_one hlen.symm
    obtain ⟨hx, hxs⟩ := over_cons.mp hxs
    obtain ⟨hy, hys⟩ := over_cons.mp hys
    rw [List.zip_cons_cons, List.foldlM_cons]
    refine .bind (drafts_majorityGate hL hx (by simpa using hy) hc) fun carry L₁ h₁ hcarry => ?_
    refine (ih h₁.ok (Nat.succ.inj hlen) (hxs.mono fun _ => h₁.live)
      (hys.mono fun _ => h₁.live) hcarry.live).mono
      fun out L₂ h₂ hout => hout.congr fun {a} ha => ?_
    rw [hcarry.value (h₂.meets ha), Literal.eval_neg, Literal.number_cons, Literal.number_cons]
    exact decide_eq_decide.mpr (Bits.carry_step _ _ _ _ _)

/-- Whether a word is at least another one of its length. -/
theorem drafts_geGate (hL : L.Ok) (hlen : xs.length = ys.length) (hxs : Over L.view.Live xs)
    (hys : Over L.view.Live ys) :
    L.Drafts (geGate xs ys) fun out L' => L'.Gives out fun a =>
      decide (Literal.number a ys ≤ Literal.number a xs) := by
  refine .bind (drafts_trueLit hL (m := fun _ => true) fun _ => rfl) fun one L₁ h₁ hone => ?_
  refine (drafts_geFold h₁.ok hlen (hxs.mono fun _ => h₁.live)
    (hys.mono fun _ => h₁.live) hone.live).mono
    fun out L₂ h₂ hout => hout.congr fun {a} ha => ?_
  rw [hone.value (h₂.meets ha)]
  exact decide_eq_decide.mpr Nat.lt_succ_iff

theorem length_flipSign (xs : List Literal) : (flipSign xs).length = xs.length :=
  List.length_modify ..

theorem over_flipSign {vs : Nat → Prop} (hxs : Over vs xs) : Over vs (flipSign xs) := by
  intro l hl
  obtain ⟨i, hi, rfl⟩ := List.getElem_of_mem hl
  have hi' : i < xs.length := by simpa [length_flipSign] using hi
  have hget := hxs _ (List.getElem_mem hi')
  simp only [flipSign, List.getElem_modify]
  split
  · simpa using hget
  · exact hget

theorem number_flipSign (a : Nat → Bool) (hne : xs ≠ []) :
    Literal.number a (flipSign xs) = Bits.flipped xs.length (Literal.number a xs) := by
  have hmap : (flipSign xs).map (·.eval a) = (xs.map (·.eval a)).modify
      ((xs.map (·.eval a)).length - 1) (!·) := by
    refine List.ext_getElem (by simp [flipSign]) fun i hi hi' => ?_
    simp only [flipSign, List.getElem_map, List.getElem_modify, List.length_map]
    split <;> simp
  rw [Literal.number, hmap, Bits.ofBits_flip (by simpa using hne), List.length_map]
  rfl

end Draft
end Entail
