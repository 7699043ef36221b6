import Entail.Proofs.Encoding.Terms

/-!
# Words have the values of their bitvectors

The word of a constant is made of the variables of its bits, and that of a number of the literals of
truth and falsity. Other words are put together from the words of their parts; sums and products
fold these one after the other, each cut to the width. With that, encoding to any depth answers
literals and words that have the values of their terms.
-/

namespace Entail

open Search Workspace Work

namespace Bits

/-- Folding numbers from the left, each time cut, is cutting what is folded from the right. -/
theorem foldl_mod {f : Nat → Nat → Nat} {n k : Nat} (hmod : ∀ a b, f (a % n) b % n = f a b % n)
    (hassoc : ∀ a b c, f (f a b) c = f a (f b c)) (hunit : ∀ a, f a k = a) (ns : List Nat) {a : Nat}
    (ha : a < n) :
    ns.foldl (fun a b => f a b % n) a = f a (ns.foldr f k) % n := by
  induction ns generalizing a with
  | nil => exact (congrArg (· % n) (hunit a) |>.trans (Nat.mod_eq_of_lt ha)).symm
  | cons b ns ih =>
    have hpos : 0 < n := Nat.lt_of_le_of_lt (Nat.zero_le a) ha
    rw [List.foldl_cons, ih (Nat.mod_lt _ hpos), hmod, hassoc]
    rfl

end Bits

namespace Draft

variable {L L' L₀ : Draft} {t a c x y : Term} {word acc : List Literal} {ts : List Term}
  {e : Encoder} {w : Nat} {ty : Ty}

/-- The bits of the word make the number that `m` says, when atoms have the values of
their variables. -/
structure Makes (L : Draft) (word : List Literal) (w : Nat) (m : Atoms → Nat) : Prop where
  length : word.length = w
  live : Over L.view.Live word
  value : ∀ {v A}, Meets v L.defs → L.view.Agrees L.store v A → Literal.number v word = m A

theorem Spells.makes (hword : L.Spells word t) (hL₀ : L₀.Ok) (h : L₀.Grows L)
    (ht : L₀.store.HasWidth t w) :
    L.Makes word w fun A => (A.value L₀.store t).toNat where
  length := hword.has.unique (h.later.ext.hasWidth ht)
  live := hword.live
  value hv hA := by
    obtain ⟨ty, ht, -⟩ := ht
    rw [hword.value hv hA, h.value hL₀ ht]

/-- A word of the value of a term is a word of the term. -/
theorem Makes.spells {m : Atoms → Nat} (hword : L.Makes word w m) (ht : L.store.HasWidth t w)
    (hm : ∀ A : Atoms, m A = (A.value L.store t).toNat) : L.Spells word t where
  has := hword.length ▸ ht
  live := hword.live
  value hv hA := (hword.value hv hA).trans (hm _)

theorem Counts.makes {m : (Nat → Bool) → Nat} {k : Atoms → Nat} (hword : L.Counts word m)
    (hlen : word.length = w)
    (hm : ∀ {v A}, Meets v L.defs → L.view.Agrees L.store v A → m v = k A) : L.Makes word w k :=
  ⟨hlen, hword.live, fun hv hA => (hword.value hv).trans (hm hv hA)⟩

/-! ## Folding words -/

/-- The words of terms are folded into one. -/
theorem drafts_foldlM (he : Faithful e) (hL₀ : L₀.Ok) (h₀ : L₀.Grows L)
    (hts : ∀ t ∈ ts, L₀.store.HasWidth t w)
    {op : List Literal → List Literal → Work (List Literal)} {f : Nat → Nat → Nat}
    (hop : ∀ {L' x y}, L₀.Grows L' → x.length = w → y.length = w → Over L'.view.Live x →
      Over L'.view.Live y →
      L'.Drafts (op x y) fun out L'' => out.length = w ∧ L''.Counts out fun v =>
        f (Literal.number v x) (Literal.number v y) % 2 ^ w)
    {k : Atoms → Nat} (hacc : L.Makes acc w k) :
    L.Drafts (ts.foldlM (fun acc t => do op acc (← e.word t)) acc) fun out L' =>
      L'.Makes out w fun A =>
      (ts.map fun t => (A.value L₀.store t).toNat).foldl (fun m n => f m n % 2 ^ w) (k A) := by
  induction ts generalizing L acc k with
  | nil => exact .pure h₀.ok hacc
  | cons t ts ih =>
    rw [List.foldlM_cons]
    have ht := hts t List.mem_cons_self
    have ⟨_, hty, _⟩ := ht
    have hplace : L.Drafts (do op acc (← e.word t)) fun out L' => L'.Makes out w fun A =>
        f (k A) (A.value L₀.store t).toNat % 2 ^ w := by
      refine .bind (he.word h₀.ok (h₀.later.ext.has hty)) fun word L₁ h₁ hword => ?_
      have h₀₁ := h₀.trans h₁
      replace hword := hword.makes hL₀ h₀₁ ht
      refine (hop h₀₁ hacc.length hword.length (hacc.live.mono fun _ => h₁.live) hword.live).mono
        fun out L₂ h₂ ⟨hlen, hout⟩ => hout.makes hlen fun hv hA => ?_
      have hv₁ := h₂.meets hv
      have hA₁ := h₂.agrees h₁.ok hA
      rw [hword.value hv₁ hA₁, hacc.value (h₁.meets hv₁) (h₁.agrees h₀.ok hA₁)]
    exact .bind hplace fun out L₁ h₁ hout =>
      ih (h₀.trans h₁) (fun u hu => hts u (List.mem_cons_of_mem t hu)) hout

theorem drafts_foldWords (he : Faithful e) (hL : L.Ok) (hne : ts ≠ [])
    (hts : ∀ t ∈ ts, L.store.HasWidth t w)
    {op : List Literal → List Literal → Work (List Literal)} {f : Nat → Nat → Nat} {k : Nat}
    (hop : ∀ {L' x y}, L.Grows L' → x.length = w → y.length = w → Over L'.view.Live x →
      Over L'.view.Live y →
      L'.Drafts (op x y) fun out L'' => out.length = w ∧ L''.Counts out fun v =>
        f (Literal.number v x) (Literal.number v y) % 2 ^ w)
    (hmod : ∀ a b, f (a % 2 ^ w) b % 2 ^ w = f a b % 2 ^ w)
    (hassoc : ∀ a b c, f (f a b) c = f a (f b c))
    (hunit : ∀ a, f a k = a) :
    L.Drafts (e.foldWords op ts) fun out L' => L'.Makes out w fun A =>
      (ts.map fun t => (A.value L.store t).toNat).foldr f k % 2 ^ w := by
  obtain ⟨t, ts, rfl⟩ := List.exists_cons_of_ne_nil hne
  have ht := hts t List.mem_cons_self
  have ⟨_, hty, _⟩ := ht
  refine .bind (he.word hL hty) fun word L₁ h₁ hword => ?_
  refine (drafts_foldlM he hL h₁ (fun u hu => hts u (List.mem_cons_of_mem t hu)) hop
    (hword.makes hL h₁ ht)).mono
    fun out L₂ _ hout => ⟨hout.length, hout.live, fun {v A} hv hA => (hout.value hv hA).trans ?_⟩
  exact Bits.foldl_mod hmod hassoc hunit _ (A.value_word hL.work.store ht).2

/-! ## Bitvectors -/

/-- The value of a bitvector, in any draft that grew from the one that has it. -/
theorem value_bitvector {A : Atoms} {shape : Term.Shape} (h : L.Grows L') (hL : L.Ok)
    (ht : L.store.HasWidth t w) (hshape : L.store.shape t = shape) :
    A.value L'.store t = A.node L.store (A.value L.store) t shape := by
  have hneg := ht.not_isNegated hL.work.store
  obtain ⟨ty, ht, -⟩ := ht
  rw [h.value hL ht, A.value_of_node hL.work.store ht.node hneg, hshape]

theorem drafts_bvConst (hL : L.Ok) (ht : L.store.HasWidth t w) {n width : Nat}
    (hshape : L.store.shape t = .bvConst width n) :
    L.Drafts (do let one ← trueLit; return (Bits.bits w n).map fun b => one.negIf !b)
      fun word L' => L'.Spells word t := by
  have ⟨ty, hty, hw⟩ := ht
  obtain ⟨hwidth, hlt⟩ : L.store.Typed (.bvConst width n) ty :=
    hshape ▸ hL.work.store.typed hty.node
  obtain rfl : width = w := Ty.Shape.bitVector.inj (Option.some.inj (hwidth.symm.trans hw))
  have hle : width ≤ Store.maxWidth := (hL.work.store.ty_ok hw).2
  replace hlt : n < 2 ^ width := Nat.lt_of_lt_of_eq hlt (Store.modulus_eq hle)
  refine .look_bind (.pure hL ⟨?_, fun l hl => ?_, fun {v A} hv _ => ?_⟩)
  · simpa [Bits.bits] using ht
  · obtain ⟨b, -, rfl⟩ := List.mem_map.mp hl
    exact (Literal.var_negIf _ _).symm ▸ hL.truth.live
  · have hmap : ((Bits.bits width n).map fun b => L.work.ctx.trueLit.negIf !b).map (·.eval v) =
        Bits.bits width n := by
      rw [List.map_map]
      refine (List.map_congr_left fun b _ => ?_).trans (List.map_id _)
      show (L.work.ctx.trueLit.negIf !b).eval v = b
      rw [Literal.eval_negIf, hL.truth.value hv, Bool.true_bne, Bool.not_not]
    rw [Literal.number, hmap, Bits.ofBits_bits hle hlt, value_bitvector (.refl hL) hL ht hshape]
    rfl

/-- The word of a constant is made of the variables of its bits. -/
theorem drafts_constant (hL : L.Ok) (ht : L.store.HasWidth t w)
    (hshape : (L.store.shape t).isUninterpreted = true) :
    L.Drafts ((List.range w).mapM fun i => do atom (← onStore (Store.bit t i))) fun word L' =>
      L'.Spells word t := by
  obtain ⟨ty, hty, hw⟩ := ht
  have ht : L.store.HasWidth t w := ⟨ty, hty, hw⟩
  let P (i : Nat) (l : Literal) (L' : Draft) : Prop := ∃ p, L'.Says l p ∧ p.isNegated = false ∧
    L'.store.node? p = some (.bit t i, .bool)
  have hP {i : Nat} {l : Literal} {L₁ L₂ : Draft} (hL₁ : L₁.Ok) (h : L₁.Grows L₂) :
      P i l L₁ → P i l L₂ := by
    rintro ⟨p, hl, hneg, hn⟩
    exact ⟨p, hl.later hL₁ h, hneg, h.later.ext.node hn⟩
  refine (Drafts.mapM (P := P) hP hL fun i _ L' h => ?_).mono fun word L' h hword => ?_
  · have hconst : L'.store.constValue? t = none := by
      cases hc : L'.store.constValue? t with
      | none => rfl
      | some n =>
        obtain ⟨width, ty', hn⟩ := Store.constValue?_eq_some hc
        have hsame := Interp.node?_of_shape hn
        rw [Interp.shape_of_has h.later.ext hty] at hsame
        rw [hsame] at hshape
        cases hshape
    have hbuilds := Store.bit_builds h.ok.work.store t i
    refine .bind (drafts_onStore h.ok (Store.builders_built.bit t i)
      (Store.constructors_normal.bit t i) hbuilds) ?_
    rintro p L₁ h₁ ⟨⟨-, hnode, hden⟩, -⟩
    obtain ⟨hneg, hn⟩ := hnode hconst
    have hatom (A : Atoms) : (A.atom? L₁.store p).isSome = true := by
      have ht₁ := Interp.shape_of_has (h.trans h₁).later.ext hty
      simp [Atoms.atom?, Interp.node?_of_shape hn, ht₁, hshape]
    exact (drafts_bareAtom h₁.ok hden.has hneg hatom).mono fun l L₂ h₂ hl =>
      ⟨p, hl, hneg, h₂.later.ext.node hn⟩
  · have hlen : word.length = w := by rw [← hword.length_eq, List.length_range]
    refine ⟨hlen ▸ h.later.ext.hasWidth ht, over_of_forall₂ hword fun hl => hl.choose_spec.1.live,
      fun {v A} hv hA => ?_⟩
    have hmap : word.map (·.eval v) = (List.range w).map (A.value L'.store t).toNat.testBit := by
      refine map_eq_of_forall₂ hword ?_
      rintro i l ⟨p, hl, hneg, hn⟩
      rw [hl.value hv hA, A.value_of_node h.ok.work.store hn hneg]
      rfl
    rw [Literal.number, hmap, Bits.ofBits_testBits
      (A.value_word h.ok.work.store (h.later.ext.hasWidth ht)).2]

theorem drafts_choice (he : Faithful e) (hL : L.Ok) (ht : L.store.HasWidth t w)
    (hshape : L.store.shape t = .ite c x y) :
    L.Drafts (do
        let z ← e.lit c
        let x ← e.word x
        let y ← e.word y
        (x.zip y).mapM fun (x, y) => iteGate z x y)
      fun word L' => L'.Spells word t := by
  have ⟨ty, hty, htw⟩ := ht
  obtain ⟨hc, hx, hy⟩ : L.store.Typed (.ite c x y) ty := hshape ▸ hL.work.store.typed hty.node
  refine .bind (he.lit hL hc) fun z L₁ h₁ hz => ?_
  refine .bind (he.word h₁.ok (h₁.later.ext.has hx)) fun xs L₂ h₂ hxs => ?_
  have h₀₂ := h₁.trans h₂
  refine .bind (he.word h₂.ok (h₀₂.later.ext.has hy)) fun ys L₃ h₃ hys => ?_
  have h₀₃ := h₀₂.trans h₃
  replace hz := hz.later h₁.ok (h₂.trans h₃)
  replace hxs := (hxs.later h₂.ok h₃).makes hL h₀₃ ⟨ty, hx, htw⟩
  replace hys := hys.makes hL h₀₃ ⟨ty, hy, htw⟩
  let P (xy : Literal × Literal) (out : Literal) (L' : Draft) : Prop :=
    L'.Gives out fun v => if z.eval v then xy.1.eval v else xy.2.eval v
  refine (Drafts.mapM (P := P) (fun _ h hout => hout.later h) h₃.ok fun xy hxy L' h => ?_).mono
    fun out L₄ h₄ hout => ?_
  · obtain ⟨x, y⟩ := xy
    obtain ⟨hx, hy⟩ := List.of_mem_zip hxy
    exact drafts_iteGate h.ok (h.live hz.live) (h.live (hxs.live x hx)) (h.live (hys.live y hy))
  · have h₀₄ := h₀₃.trans h₄
    have hlen : xs.length = ys.length := hxs.length.trans hys.length.symm
    have hmake : L₄.Makes out w fun A =>
        if (A.value L.store c).toBool then (A.value L.store x).toNat
          else (A.value L.store y).toNat := by
      refine ⟨by rw [← hout.length_eq, List.length_zip, ← hlen, Nat.min_self, hxs.length],
        over_of_forall₂ hout fun hout => hout.live, fun {v A} hv hA => ?_⟩
      have hv₃ := h₄.meets hv
      have hA₃ := h₄.agrees h₃.ok hA
      have hmap : out.map (·.eval v) = (xs.zip ys).map fun xy => if z.eval v then xy.1.eval v
          else xy.2.eval v :=
        map_eq_of_forall₂ hout fun hout => hout.value hv
      have hfst : ((xs.zip ys).map Prod.fst).map (·.eval v) = xs.map (·.eval v) := by
        rw [List.map_fst_zip (Nat.le_of_eq hlen)]
      have hsnd : ((xs.zip ys).map Prod.snd).map (·.eval v) = ys.map (·.eval v) := by
        rw [List.map_snd_zip (Nat.le_of_eq hlen.symm)]
      rw [List.map_map] at hfst hsnd
      rw [Literal.number, hmap, ← h₀₃.value hL hc, ← hz.value hv₃ hA₃, ← hxs.value hv₃ hA₃,
        ← hys.value hv₃ hA₃]
      cases z.eval v
      · exact congrArg Bits.ofBits hsnd
      · exact congrArg Bits.ofBits hfst
    refine hmake.spells (h₀₄.later.ext.hasWidth ht) fun A => ?_
    rw [h₀₄.value hL hty, value_choice hL hty (ht.not_isNegated hL.work.store) hshape]
    split <;> rfl

theorem drafts_negation (he : Faithful e) (hL : L.Ok) (ht : L.store.HasWidth t w)
    (hshape : L.store.shape t = .bvNeg x) :
    L.Drafts (do negater (← e.word x)) fun word L' => L'.Spells word t := by
  have ⟨ty, hty, htw⟩ := ht
  obtain ⟨hx, -⟩ : L.store.Typed (.bvNeg x) ty := hshape ▸ hL.work.store.typed hty.node
  have hxw : L.store.HasWidth x w := ⟨ty, hx, htw⟩
  have hmod : Bits.modulus w = 2 ^ w := Store.modulus_eq (hL.work.store.ty_ok htw).2
  refine .bind (he.word hL hx) fun xs L₁ h₁ hxs => ?_
  replace hxs := hxs.makes hL h₁ hxw
  refine (drafts_negater h₁.ok hxs.live).mono fun out L₂ h₂ ⟨hlen, hout⟩ => ?_
  have hmake : L₂.Makes out w fun A => (2 ^ w - (A.value L.store x).toNat) % 2 ^ w := by
    refine hout.makes (hlen.trans hxs.length) fun hv hA => ?_
    rw [hxs.length, hxs.value (h₂.meets hv) (h₂.agrees h₁.ok hA)]
  have h₀₂ := h₁.trans h₂
  refine hmake.spells (h₀₂.later.ext.hasWidth ht) fun A => ?_
  have hwidth : L.store.partWidth (.bvNeg x) = w := hxw.width_eq
  rw [value_bitvector h₀₂ hL ht hshape]
  show _ = Bits.neg (L.store.partWidth (.bvNeg x)) (A.value L.store x).toNat
  rw [hwidth, Bits.neg, Bits.trunc, Bits.trunc, hmod,
    Nat.mod_eq_of_lt (A.value_word hL.work.store hxw).2]

/-- The words of arguments are folded by the operation of the term. -/
theorem drafts_fold (he : Faithful e) (hL : L.Ok) (ht : L.store.HasWidth t w) {shape : Term.Shape}
    (hne : ts ≠ [])
    (hts : ∀ t ∈ ts, L.store.HasWidth t w) {op : List Literal → List Literal → Work (List Literal)}
    {f : Nat → Nat → Nat} {k : Nat}
    (hop : ∀ {L' x y}, L.Grows L' → x.length = w → y.length = w → Over L'.view.Live x →
      Over L'.view.Live y →
      L'.Drafts (op x y) fun out L'' => out.length = w ∧ L''.Counts out fun v =>
        f (Literal.number v x) (Literal.number v y) % 2 ^ w)
    (hmod : ∀ a b, f (a % 2 ^ w) b % 2 ^ w = f a b % 2 ^ w)
    (hassoc : ∀ a b c, f (f a b) c = f a (f b c))
    (hunit : ∀ a, f a k = a) (hshape : L.store.shape t = shape)
    (hvalue : ∀ A : Atoms, A.node L.store (A.value L.store) t shape =
      .word (Bits.trunc w ((ts.map fun t => (A.value L.store t).toNat).foldr f k))) :
    L.Drafts (e.foldWords op ts) fun word L' => L'.Spells word t := by
  have hmodulus : Bits.modulus w = 2 ^ w :=
    Store.modulus_eq (ht.elim fun _ h => (hL.work.store.ty_ok h.2).2)
  refine (drafts_foldWords he hL hne hts hop hmod hassoc hunit).mono fun out L' h hout =>
    hout.spells (h.later.ext.hasWidth ht) fun A => ?_
  rw [value_bitvector h hL ht hshape, hvalue, ← hmodulus]
  rfl

theorem drafts_bitvector (he : Faithful e) (hL : L.Ok) (ht : L.store.Has t ty) :
    L.Drafts (e.bitvector t) fun word L' => L'.Spells word t := by
  refine .look_bind ?_
  split
  · exact .throw hL _
  next w hwidth =>
  have htw : L.store.HasWidth t w := by
    rw [Store.width?, ht.ty_eq, Store.tyWidth?_eq_some] at hwidth
    exact ⟨ty, ht, hwidth⟩
  have hargs {ts : List Term} (h : (∀ u ∈ ts, L.store.Has u ty)) (u : Term) (hu : u ∈ ts) :
      L.store.HasWidth u w :=
    ⟨ty, h u hu, htw.elim fun ty' h => (h.1.unique ht) ▸ h.2⟩
  -- the width of the arguments is that of the term
  have hpart {ts : List Term} (hne : ts ≠ []) (h : ∀ u ∈ ts, L.store.HasWidth u w) :
      Interp.width L.store (ts.headD .top) = w := by
    obtain ⟨u, us, rfl⟩ := List.exists_cons_of_ne_nil hne
    exact (h u List.mem_cons_self).width_eq
  refine .look_bind ?_
  cases hshape : L.store.shape t with
  | bvConst => exact drafts_bvConst hL htw hshape
  | uninterpreted => exact drafts_constant hL htw (by rw [hshape]; rfl)
  | ite => exact drafts_choice he hL htw hshape
  | bvNeg => exact drafts_negation he hL htw hshape
  | bvSum args =>
    obtain ⟨hne, hall, -⟩ : L.store.Typed (.bvSum args) ty := hshape ▸ hL.work.store.typed ht.node
    refine .look_bind (drafts_fold he hL htw hne (hargs hall) (f := (· + ·)) (k := 0)
      (fun {L' x y} h hx hy hlx hly => ?_) (fun a b => Nat.mod_add_mod _ _ _) Nat.add_assoc
        Nat.add_zero hshape
      fun A => ?_)
    · have hzero : L'.Gives L.work.ctx.trueLit.neg fun _ => false := hL.falsity.later h
      refine (drafts_adder h.ok (hx.trans hy.symm) hlx hly hzero.live).mono fun out L'' h' hout =>
        ⟨hout.1.trans hx, hout.2.congr fun {v} hv => ?_⟩
      rw [hx, hzero.value (h'.meets hv)]
      rfl
    · simp only [Atoms.node, Term.Shape.combine, Term.Shape.children, List.map_map, Store.partWidth,
        hpart hne (hargs hall)]
      rfl
  | bvProduct args =>
    obtain ⟨hne, hall, -⟩ : L.store.Typed (.bvProduct args) ty :=
      hshape ▸ hL.work.store.typed ht.node
    refine drafts_fold he hL htw hne (hargs hall) (f := (· * ·)) (k := 1)
      (fun {L' x y} h hx hy hlx hly => ?_) (fun a b => Nat.mod_mul_mod _ _ _) Nat.mul_assoc
        Nat.mul_one hshape
      fun A => ?_
    · refine (drafts_multiplier h.ok (hx.trans hy.symm) hlx hly).mono fun out L'' h' hout =>
        ⟨hout.1.trans hx, hout.2.congr fun {v} hv => ?_⟩
      rw [hx]
    · simp only [Atoms.node, Term.Shape.combine, Term.Shape.children, List.map_map, Store.partWidth,
        hpart hne (hargs hall)]
      rfl
  | _ => exact .throw hL _

/-! ## What is remembered -/

/-- What was not known as of an open mark is not known later. -/
theorem Grows.unknown {P : Context.View → Prop} (h : L.Grows L')
    (hP : ∀ {m : Context.Mark}, m.Open L.work.ctx → P (L.work.ctx.upTo m)) {m : Context.Mark}
    (hm : m.Open L'.work.ctx) : P (L'.work.ctx.upTo m) := by
  have hopen : m.Open L.work.ctx :=
    hm.of_scopes h.step.keeps.scopes.symm h.step.keeps.nodes.symm h.step.keeps.tables.symm
  rw [h.step.keeps.upTo hopen]
  exact hP hopen

/-- A change that defines nothing. -/
theorem drafts_change {f : Context → Context} {Q : Unit → Draft → Prop}
    (h : L.Grows ⟨⟨L.store, f L.work.ctx⟩, L.defs⟩) (hQ : Q () ⟨⟨L.store, f L.work.ctx⟩, L.defs⟩) :
    L.Drafts (change f) Q :=
  ⟨_, rfl, h, hQ⟩

/-- The literal of a term that was not known is remembered. -/
theorem Grows.cacheLit (hL : L.Ok) {p : Term} {l : Literal} (hl : L.Says l p)
    (hnew : ∀ {m : Context.Mark}, m.Open L.work.ctx → (L.work.ctx.upTo m).lits p = none) :
    L.Grows ⟨⟨L.store, { L.work.ctx with
      lits := L.work.ctx.lits.insert p l, cacheLog := L.work.ctx.cacheLog.push (.literal p) }⟩,
      L.defs⟩ := by
  have hstep := step_cacheLit hL.work hnew l
  refine ⟨⟨⟨hL.work.store, hstep.keeps.ok⟩, ?_⟩, hstep, rfl, id, id, [], by simp, rfl⟩
  refine hL.exact_.addLit hl.has hl.live (fun _ _ => hl.value) hL.work.store
    (fun q => ?_) rfl rfl rfl rfl
  exact Std.HashMap.getElem?_insert.trans (if_congr (beq_iff_eq.trans eq_comm) rfl rfl)

theorem Grows.cacheWord (hL : L.Ok) (hword : L.Spells word t)
    (hnew : ∀ {m : Context.Mark}, m.Open L.work.ctx → (L.work.ctx.upTo m).bits t = none) :
    L.Grows ⟨⟨L.store, { L.work.ctx with
      bits := L.work.ctx.bits.insert t word, cacheLog := L.work.ctx.cacheLog.push (.word t) }⟩,
      L.defs⟩ := by
  have hstep := step_cacheWord hL.work hnew word
  refine ⟨⟨⟨hL.work.store, hstep.keeps.ok⟩, ?_⟩, hstep, rfl, id, id, [], by simp, rfl⟩
  refine hL.exact_.addWord hword.has hword.live (fun _ _ => hword.value) hL.work.store
    (fun q => ?_) rfl rfl rfl rfl
  exact Std.HashMap.getElem?_insert.trans (if_congr (beq_iff_eq.trans eq_comm) rfl rfl)

theorem drafts_cachedLit {encode : Term → Work Literal} (hL : L.Ok)
    (hencode : ∀ {L : Draft} {p : Term}, L.Ok → L.store.Has p .bool → p.isNegated = false →
      L.Drafts (encode p) fun l L' => L'.Says l p) (ht : L.store.Has t .bool) :
    L.Drafts (Encoder.cachedLit encode t) fun l L' => L'.Says l t := by
  refine .look_bind ?_
  split
  next l hlit => exact .pure hL ((hL.says_lit hlit).of_positive hL)
  next hnone =>
    refine .bind (hencode hL ht.positive (Term.isNegated_positive t)) fun l L₁ h₁ hl => ?_
    have h₂ := Grows.cacheLit h₁.ok hl (h₁.unknown (P := fun V => V.lits t.positive = none)
        fun _ => by
      simp [Context.upTo, Entail.upTo, hnone])
    exact .bind (drafts_change (Q := fun _ L' => L'.Says l t.positive) h₂ (hl.later h₁.ok h₂))
        fun _ L₃ h₃ hl =>
      .pure h₃.ok (hl.of_positive h₃.ok)

theorem drafts_cachedWord {encode : Term → Work (List Literal)} (hL : L.Ok)
    (hencode : ∀ {L : Draft} {t : Term} {ty : Ty}, L.Ok → L.store.Has t ty →
      L.Drafts (encode t) fun word L' => L'.Spells word t) (ht : L.store.Has t ty) :
    L.Drafts (Encoder.cachedWord encode t) fun word L' => L'.Spells word t := by
  refine .look_bind ?_
  split
  next word hword => exact .pure hL (hL.spells hword)
  next hnone =>
    refine .bind (hencode hL ht) fun word L₁ h₁ hword => ?_
    have h₂ := Grows.cacheWord h₁.ok hword (h₁.unknown (P := fun V => V.bits t = none) fun _ => by
      simp [Context.upTo, Entail.upTo, hnone])
    exact .bind (drafts_change (Q := fun _ L' => L'.Spells word t) h₂ (hword.later h₁.ok h₂))
        fun _ L₃ h₃ hword =>
      .pure h₃.ok hword

theorem faithful_nested (depth : Nat) : Faithful (Encoder.nested depth) := by
  induction depth with
  | zero => exact ⟨fun hL _ => .throw hL _, fun hL _ => .throw hL _⟩
  | succ depth ih =>
    exact ⟨fun hL ht => drafts_cachedLit hL (fun hL hp hneg => drafts_boolean ih hL hp hneg) ht,
      fun hL ht => drafts_cachedWord hL (fun hL ht => drafts_bitvector ih hL ht) ht⟩

/-- The literal of a formula has its value. -/
theorem drafts_literalOf (hL : L.Ok) (ht : L.store.Has t .bool) :
    L.Drafts (literalOf t) fun l L' => L'.Says l t :=
  .look_bind ((faithful_nested _).lit hL ht)

end Draft
end Entail
