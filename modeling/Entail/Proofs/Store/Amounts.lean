import Entail.Proofs.Store.Granted
import Entail.Proofs.Store.Normal
import Mathlib

/-!
# What sums and products amount to

Once the constants of words are folded, a constant and a multiset of other words are left: this is
what the words amount to. A sum or a product amounts to what its arguments amount to, and in a
normal store that determines it: an operation on words that amount to a stored term answers this
term and stores nothing.
-/

namespace Entail

namespace Term

theorem eq_of_raw {a b : Term} (h : a.raw = b.raw) : a = b := by
  cases a
  cases b
  exact congrArg Term.mk h

theorem sort_perm (ts : List Term) : (sort ts).Perm ts := List.mergeSort_perm ts Term.le

/-- A list in order is what sorting makes of its members. -/
theorem sort_eq {ts us : List Term} (h : ts.Perm us) (hus : us.Pairwise fun a b => a.raw ≤ b.raw) :
    sort ts = us :=
  List.Perm.eq_of_pairwise (fun _ _ _ _ hab hba => eq_of_raw (Nat.le_antisymm hab hba))
    (pairwise_sort ts) hus
    ((sort_perm ts).trans h)

/-- A list in strict order has no repetitions to drop. -/
theorem dedup_eq {ts : List Term} (h : ts.Pairwise fun a b => a.raw < b.raw) : dedup ts = ts := by
  fun_induction dedup ts with
  | case1 b rest ih =>
    exact absurd ((List.pairwise_cons.mp h).1 b List.mem_cons_self) (Nat.lt_irrefl _)
  | case2 a b rest hne ih => rw [ih (List.pairwise_cons.mp h).2]
  | case3 ts hshort => rfl

theorem not_hasComplement {ts : List Term} (h : ∀ t ∈ ts, t.neg ∉ ts) :
    ¬hasComplement ts = true := by
  fun_induction hasComplement ts with
  | case1 a b rest ih =>
    intro hc
    rcases Bool.or_eq_true_iff.mp hc with heq | hc
    · exact h a List.mem_cons_self (by simp [eq_of_beq heq])
    · exact ih (fun t ht hneg => h t (List.mem_cons_of_mem a ht) (List.mem_cons_of_mem a hneg)) hc
  | case2 ts hshort => exact Bool.false_ne_true

end Term

/-! ## Constants that absorb -/

/-- The constant stays what it is whatever it is combined with. -/
def WordOp.Absorbs (o : WordOp) (c : Nat) : Prop := ∀ n, o.op c n = c

theorem WordOp.not_absorbs_add (c : Nat) : ¬WordOp.add.Absorbs c := fun h => by
  have hsucc : c + 1 = c := h 1
  omega

theorem WordOp.absorbs_mul {c : Nat} : WordOp.mul.Absorbs c ↔ c = 0 := by
  constructor
  · intro h
    have hzero : c * 0 = c := h 0
    omega
  · rintro rfl n
    exact Nat.zero_mul n

/-! ## Sums and products alike -/

/-- The operations on any number of words. -/
inductive Folding where
  | sum
  | product
deriving DecidableEq

namespace Folding

/-- The operation on two words. -/
def op : Folding → WordOp
  | sum => .add
  | product => .mul

/-- The shape of what is stored. -/
def shape : Folding → List Term → Term.Shape
  | sum => .bvSum
  | product => .bvProduct

/-- The class of the terms of this shape. -/
def kind : Folding → Term.Kind
  | sum => .sum
  | product => .product

/-- The constants that are no arguments. -/
def absorbed : Folding → List Nat
  | sum => [0]
  | product => [0, 1]

/-- Arguments of stored terms, in place of these. -/
def flatten : Folding → Store → List Term → List Term
  | sum => Store.summands
  | product => Store.factors

/-- Whether so many arguments that are no constants are too many. -/
def Exceeds : Folding → Nat → Prop
  | sum, _ => False
  | product, n => Store.maxDegree < n

/-- The constructor. -/
def build : Folding → List Term → Store.Op Term
  | sum => Store.bvSum
  | product => Store.bvProduct

end Folding

namespace Store

variable {s s' : Store} {k : Folding} {o : WordOp} {ts us args : List Term} {r t : Term}
  {ty : Ty} {w n : Nat}

/-! ## Amounts -/

/-- The constants among words, folded. -/
def folded (s : Store) (o : WordOp) (w : Nat) (ts : List Term) : Nat :=
  Bits.trunc w (o.fold (s.splitConsts ts).1)

open Classical in
/-- What words amount to: their constants folded, and the others unless the constant
absorbs them. -/
noncomputable def amount (s : Store) (o : WordOp) (w : Nat) (ts : List Term) :
    Nat × Multiset Term :=
  (s.folded o w ts, if o.Absorbs (s.folded o w ts) then 0 else ↑(s.splitConsts ts).2)

theorem folded_congr (h : ∀ a ∈ ts, s'.shape a = s.shape a) :
    s'.folded o w ts = s.folded o w ts := by
  unfold folded
  rw [splitConsts_congr h]

theorem amount_congr (h : ∀ a ∈ ts, s'.shape a = s.shape a) :
    s'.amount o w ts = s.amount o w ts := by
  unfold amount
  rw [folded_congr h, splitConsts_congr h]

/-- The order of words does not matter. -/
theorem amount_perm (h : ts.Perm us) : s.amount o w ts = s.amount o w us := by
  obtain ⟨hconsts, hrest⟩ := splitConsts_perm (s := s) h
  unfold amount folded
  rw [o.fold_perm hconsts, Multiset.coe_eq_coe.mpr hrest]

theorem splitConsts_append (ts us : List Term) : s.splitConsts (ts ++ us) =
    ((s.splitConsts ts).1 ++ (s.splitConsts us).1, (s.splitConsts ts).2 ++ (s.splitConsts us).2) :=
  Prod.ext List.filterMap_append (List.filter_append ..)

theorem folded_append (ts us : List Term) :
    s.folded o w (ts ++ us) = Bits.trunc w (o.op (s.folded o w ts) (s.folded o w us)) := by
  unfold folded
  rw [splitConsts_append, o.fold_append]
  exact Bits.trunc_eq_trunc (o.modEq (Bits.trunc_modEq w _).symm (Bits.trunc_modEq w _).symm)

theorem trunc_folded (ts : List Term) : Bits.trunc w (s.folded o w ts) = s.folded o w ts :=
  Bits.trunc_eq_of_lt (Bits.trunc_lt w _)

/-- What absorbs a part absorbs everything. -/
theorem absorbs_append (ts us : List Term)
    (h : o.Absorbs (s.folded o w ts) ∨ o.Absorbs (s.folded o w us)) :
    o.Absorbs (s.folded o w (ts ++ us)) := by
  rw [folded_append]
  rcases h with h | h
  · rw [h, trunc_folded]
    exact h
  · rw [o.comm, h, trunc_folded]
    exact h

theorem amount_append (ts us : List Term) : s.amount o w (ts ++ us) =
    (s.folded o w (ts ++ us),
      open Classical in if o.Absorbs (s.folded o w (ts ++ us)) then 0
        else (s.amount o w ts).2 + (s.amount o w us).2) := by
  unfold amount
  refine Prod.ext rfl ?_
  dsimp only
  split
  · rfl
  next hopen =>
    rw [if_neg fun h => hopen (absorbs_append ts us (.inl h)), if_neg fun h =>
      hopen (absorbs_append ts us (.inr h)),
      splitConsts_append, Multiset.coe_add]

/-- Words may be replaced by others that amount to the same. -/
theorem amount_append_congr {ts' us' : List Term} (ht : s.amount o w ts = s.amount o w ts')
    (hu : s.amount o w us = s.amount o w us') :
    s.amount o w (ts ++ us) = s.amount o w (ts' ++ us') := by
  have hfolded : s.folded o w (ts ++ us) = s.folded o w (ts' ++ us') := by
    rw [folded_append, folded_append, show s.folded o w ts = s.folded o w ts'
      from congrArg Prod.fst ht,
      show s.folded o w us = s.folded o w us' from congrArg Prod.fst hu]
  rw [amount_append, amount_append, hfolded, ht, hu]

theorem folded_of_none (h : ∀ t ∈ ts, s.constValue? t = none) :
    s.folded o w ts = Bits.trunc w o.neutral := by
  unfold folded
  rw [splitConsts_of_none h]
  rfl

theorem folded_const (h : s.constValue? t = some n) (hts : ∀ u ∈ ts, s.constValue? u = none) :
    s.folded o w (t :: ts) = Bits.trunc w n ∧ (s.splitConsts (t :: ts)).2 = ts := by
  unfold folded
  rw [splitConsts_cons h, splitConsts_of_none hts]
  exact ⟨congrArg _ (WordOp.fold_singleton o n), rfl⟩

/-! ## Building -/

theorem read_eq_ok {α : Type} {g : Store → Except TermError α} {a : α} :
    Store.read g s = .ok a s' ↔ g s = .ok a ∧ s' = s := by
  unfold Store.read
  cases g s with
  | ok x => simp [eq_comm]
  | error e => simp

theorem read_bind_of_ok {α β : Type} {g : Store → Except TermError α} {f : α → Op β} {a : α}
    (h : g s = .ok a) :
    (Store.read g >>= f) s = f a s :=
  bind_of_ok (by unfold Store.read; rw [h])

theorem look_bind_apply {α β : Type} (g : Store → α) (f : α → Op β) :
    (Store.look g >>= f) s = f (g s) s := rfl

/-- What is stored is found again. -/
theorem intern_node (hw : s.Wf) {shape : Term.Shape} (hn : s.node? t = some (shape, ty))
    (ht : t.isNegated = false) (ty' : Ty) : intern shape ty' s = .ok t s := by
  have hfind : s.terms.find? shape = some t.index := hw.terms.find_of_get hn
  unfold Store.intern
  rw [Arena.intern_of_find hfind]
  exact congrArg (EStateM.Result.ok · s) (Term.positive_of_not_isNegated ht)

theorem bvConst_node (hw : s.Wf) (hn : s.node? t = some (.bvConst w n, ty))
    (ht : t.isNegated = false) :
    bvConst w n s = .ok t s := by
  obtain ⟨hty, hlt⟩ := hw.typed hn
  obtain ⟨hpos, hle⟩ := hw.ty_ok hty
  have hfind : s.types.find? (.bitVector w) = some ty.raw := by
    obtain ⟨⟨shape, u⟩, hx, heq⟩ := Option.map_eq_some_iff.mp hty
    obtain rfl : shape = .bitVector w := heq
    exact hw.types.find_of_get hx
  have htype : bvType w s = .ok ty s := by
    unfold bvType
    rw [if_neg (by omega), if_neg (by omega)]
    unfold internTy
    rw [Arena.intern_of_find hfind]
  unfold bvConst
  rw [bind_of_ok htype, Bits.trunc_eq_of_lt hlt]
  exact intern_node hw hn ht ty

end Store

namespace Folding

open Store

variable {s s' : Store} {k : Folding} {args rest : List Term} {r t first : Term}
  {ty : Ty} {w c : Nat}

/-- Puts the sum or product of a folded constant and other arguments together. -/
def assemble (k : Folding) (w c : Nat) (rest : List Term) (first : Term) : Op Term := do
  match ← withConst w k.op.neutral c rest with
  | [t] => return t
  | ts => intern (k.shape (Term.sort ts)) (← look fun s => s.ty first)

/-- Constants only, or a constant that absorbs the rest. -/
def Constant (k : Folding) (s : Store) (w : Nat) (ts : List Term) : Prop :=
  k.op.Absorbs (s.folded k.op w ts) ∨ (s.splitConsts ts).2 = []

theorem trunc_foldl (ns : List Nat) :
    Bits.trunc w (ns.foldl (fun acc v => Bits.trunc w (acc * v)) 1) = Bits.trunc w
      (WordOp.mul.fold ns) :=
  Bits.trunc_eq_trunc ((foldl_trunc_modEq w ns 1).trans (by rw [Nat.one_mul]))

theorem bvSum_eq (hchk : s.checkBvArgs args = .ok w) : bvSum args s =
    (if (s.splitConsts (s.summands args)).2.isEmpty then bvConst w
      (s.folded .add w (s.summands args))
      else assemble .sum w (s.folded .add w (s.summands args)) (s.splitConsts (s.summands args)).2
        (args.headD .top)) s := by
  unfold bvSum
  rw [read_bind_of_ok hchk]
  rfl

theorem bvProduct_eq (hchk : s.checkBvArgs args = .ok w) : bvProduct args s =
    (if s.folded .mul w (s.factors args) = 0 || (s.splitConsts (s.factors args)).2.isEmpty then
        bvConst w (s.folded .mul w (s.factors args))
      else if (s.splitConsts (s.factors args)).2.length > maxDegree then
        throw (.degreeTooLarge (s.splitConsts (s.factors args)).2.length)
      else assemble .product w (s.folded .mul w (s.factors args)) (s.splitConsts (s.factors args)).2
        (args.headD .top)) s := by
  unfold bvProduct folded
  rw [read_bind_of_ok hchk, ← trunc_foldl]
  rfl

open Classical in
/-- What the constructor makes of words, once sums or products among them are taken apart. -/
noncomputable def combine (k : Folding) (s : Store) (w : Nat) (ts : List Term) (first : Term) :
    Op Term :=
  if k.Constant s w ts then bvConst w (s.folded k.op w ts)
  else if k.Exceeds (s.splitConsts ts).2.length then throw (.degreeTooLarge
    (s.splitConsts ts).2.length)
  else k.assemble w (s.folded k.op w ts) (s.splitConsts ts).2 first

theorem build_eq (hchk : s.checkBvArgs args = .ok w) :
    k.build args s = k.combine s w (k.flatten s args) (args.headD .top) s := by
  classical
  cases k with
  | sum =>
    refine (bvSum_eq hchk).trans (congrFun (ite_congr (propext ?_) (fun _ => rfl) fun _ => ?_) s)
    · exact List.isEmpty_iff.trans (or_iff_right (WordOp.not_absorbs_add _)).symm
    · exact (if_neg id).symm
  | product =>
    refine (bvProduct_eq hchk).trans
      (congrFun (ite_congr (propext ?_) (fun _ => rfl) fun _ => ?_) s)
    · rw [Bool.or_eq_true, decide_eq_true_eq, List.isEmpty_iff, ← WordOp.absorbs_mul]
      rfl
    · exact if_congr Iff.rfl rfl rfl

/-! ## Arguments of stored terms -/

theorem flatten_flatMap {α : Type} (f : α → List Term) (as : List α) :
    k.flatten s (as.flatMap f) = as.flatMap fun a => k.flatten s (f a) := by
  cases k <;> exact List.flatMap_assoc

theorem flatten_eq (args : List Term) :
    k.flatten s args = args.flatMap fun t => k.flatten s [t] := by
  rw [← flatten_flatMap, List.flatMap_singleton']

theorem flatten_of_shape (h : s.shape t = k.shape args) : k.flatten s [t] = args := by
  cases k <;> simp only [shape] at h <;> simp [flatten, summands, factors, h]

theorem flatten_of_kind (h : (s.shape t).kind ≠ k.kind) : k.flatten s [t] = [t] := by
  cases k with
  | sum =>
    simp only [flatten, summands, List.flatMap_cons, List.flatMap_nil, List.append_nil]
    split
    next inner hshape => exact absurd (by rw [hshape]; rfl) h
    next => rfl
  | product =>
    simp only [flatten, factors, List.flatMap_cons, List.flatMap_nil, List.append_nil]
    split
    next inner hshape => exact absurd (by rw [hshape]; rfl) h
    next => rfl

theorem shape_of_kind {shape : Term.Shape} (h : shape.kind = k.kind) :
    ∃ args, shape = k.shape args := by
  cases k <;> cases shape <;> first | exact ⟨_, rfl⟩ | cases h

/-- Words are taken apart into words that are not of the kind. -/
theorem mem_flatten (hw : s.Wf) (hs : s.Normalized) (hargs : ∀ a ∈ args, s.HasWidth a w)
    (ht : t ∈ k.flatten s args) :
    s.HasWidth t w ∧ (s.shape t).kind ≠ k.kind := by
  cases k with
  | sum => exact ⟨(summands_spec hw hargs).1 t ht, kind_of_mem_summands hs hargs ht⟩
  | product => exact ⟨(factors_spec hw hargs).1 t ht, kind_of_mem_factors hs hargs ht⟩

theorem flatten_congr (h : ∀ a ∈ args, s'.shape a = s.shape a) :
    k.flatten s' args = k.flatten s args := by
  cases k with
  | sum => exact List.flatMap_congr fun a ha => by rw [h a ha]
  | product => exact List.flatMap_congr fun a ha => by rw [h a ha]

theorem gathered_of_normal (h : s.Normal (k.shape args) ty) :
    s.Gathered k.kind k.absorbed args ∧ ¬k.Exceeds (s.splitConsts args).2.length := by
  cases k with
  | sum => exact ⟨h, id⟩
  | product => exact ⟨h.1, Nat.not_lt_of_le h.2⟩

theorem trunc_neutral (hpos : 0 < w) : Bits.trunc w k.op.neutral = k.op.neutral := by
  have htwo : 2 ≤ Bits.modulus w := Nat.le_self_pow (by omega) 2
  refine Bits.trunc_eq_of_lt (Nat.lt_of_lt_of_le ?_ htwo)
  cases k with
  | sum => exact Nat.zero_lt_two
  | product => exact Nat.one_lt_two

theorem not_absorbs_neutral : ¬k.op.Absorbs k.op.neutral := by
  cases k with
  | sum => exact WordOp.not_absorbs_add 0
  | product => exact fun h => absurd (WordOp.absorbs_mul.mp h) Nat.one_ne_zero

/-- A constant that may be an argument is neither neutral nor absorbs the others. -/
theorem of_not_mem_absorbed (h : c ∉ k.absorbed) : c ≠ k.op.neutral ∧ ¬k.op.Absorbs c := by
  cases k with
  | sum => exact ⟨fun heq => h (List.mem_singleton.mpr heq), WordOp.not_absorbs_add c⟩
  | product => exact ⟨fun heq => h (by rw [heq]; simp [absorbed, op, WordOp.mul]),
      fun habs => h (by rw [WordOp.absorbs_mul.mp habs]; simp [absorbed])⟩

/-! ## What is built amounts to its arguments -/

theorem withConst_gives (hw : s.Wf) (hs : s.Normalized) (hc : Bits.trunc w c = c) :
    Ends (withConst w k.op.neutral c rest) s (fun ts s' => Later s s' ∧
      (c = k.op.neutral ∧ ts = rest ∨
      c ≠ k.op.neutral ∧ ∃ t, ts = t :: rest ∧ s'.HasWidth t w ∧ s'.shape t = .bvConst w c))
        fun _ => True := by
  unfold withConst
  split
  next heq => exact Ends.pure ⟨later_frame.refl hw, .inl ⟨heq, rfl⟩⟩
  next hne =>
    refine Ends.bind (Ends.mono (Ends.both (Normalizes.bvConst_spec hs hw w c)
      (bvConst_builds hw w c)) (fun t s' h => ?_)
      fun _ _ => trivial)
    obtain ⟨⟨hlater, -, hshape⟩, -, ty, hty, hden⟩ := h
    exact Ends.pure ⟨hlater, .inr ⟨hne, t, rfl, ⟨ty, hden.has, hty⟩, hc ▸ hshape⟩⟩

theorem shape_of_intern (hw : s.Wf) {shape : Term.Shape} (h : intern shape ty s = .ok t s') :
    s'.shape t = shape ∧ ∀ u, (∃ tu, s.Has u tu) → s'.shape u = s.shape u := by
  cases h
  obtain ⟨-, hold, v, hnew⟩ := hw.terms.intern shape ty
  refine ⟨?_, fun u ⟨tu, ⟨sh, hn⟩, _⟩ => ?_⟩
  · refine shape_of_node (n := (shape, v)) ?_
    unfold node?
    rwa [Term.index_ofIndex]
  · rw [shape_of_node hn]
    exact shape_of_node (n := (sh, tu)) (hold _ _ hn)

/-- A constant and some other words amount to themselves. -/
theorem amount_of_assembled (hc : Bits.trunc w c = c) (hopen : ¬k.op.Absorbs c)
    (hrest : ∀ t ∈ rest, s.constValue? t = none) {ts : List Term}
    (hts : c = k.op.neutral ∧ ts = rest ∨ c ≠ k.op.neutral ∧ ∃ t, ts = t :: rest ∧ s.HasWidth t w ∧
      s.shape t = .bvConst w c) :
    s.amount k.op w ts = (c, ↑rest) := by
  have hboth : s.folded k.op w ts = c ∧ (s.splitConsts ts).2 = rest := by
    rcases hts with ⟨rfl, rfl⟩ | ⟨-, t, rfl, -, ht⟩
    · rw [splitConsts_of_none hrest]
      exact ⟨(folded_of_none hrest).trans hc, rfl⟩
    · have hvalue : s.constValue? t = some c := by
        unfold constValue?
        rw [ht]
      exact hc ▸ folded_const hvalue hrest
  unfold amount
  rw [hboth.1, hboth.2, if_neg hopen]

theorem amount_of_assemble (hw : s.Wf) (hs : s.Normalized)
    (hrest : ∀ t ∈ rest, s.HasWidth t w ∧ (s.shape t).kind ≠ k.kind)
    (hnone : ∀ t ∈ rest, s.constValue? t = none) (hne : rest ≠ []) (hc : Bits.trunc w c = c)
    (hopen : ¬k.op.Absorbs c) (h : k.assemble w c rest first s = .ok r s') :
    s'.amount k.op w (k.flatten s' [r]) = (c, ↑rest) := by
  obtain ⟨ts, s₁, hts, h⟩ := bind_eq_ok.mp h
  obtain ⟨hlater, hgives⟩ := (withConst_gives hw hs hc).of_ok hts
  have hsame : ∀ t ∈ rest, s₁.shape t = s.shape t := fun t ht => by
    obtain ⟨u, hu, -⟩ := (hrest t ht).1
    exact hlater.ext.shape_eq hu
  have hnone₁ : ∀ t ∈ rest, s₁.constValue? t = none :=
    fun t ht => (constValue?_congr (hsame t ht)).trans (hnone t ht)
  have hamount := amount_of_assembled hc hopen hnone₁ hgives
  split at h
  next t =>
    cases h
    -- the only argument is no constant, for there is something else
    rcases hgives with ⟨-, rfl⟩ | ⟨-, u, heq, -⟩
    · rw [flatten_of_kind, hamount]
      rw [hsame r List.mem_cons_self]
      exact (hrest r List.mem_cons_self).2
    · exact absurd (List.cons.inj heq).2.symm hne
  next =>
    obtain ⟨hshape, hold⟩ := shape_of_intern hlater.wf h
    have hwidths : ∀ t ∈ ts, s₁.HasWidth t w := by
      have hwidths : ∀ t ∈ rest, s₁.HasWidth t w := fun t ht => hlater.ext.hasWidth (hrest t ht).1
      rcases hgives with ⟨-, rfl⟩ | ⟨-, u, rfl, hu, -⟩
      · exact hwidths
      · exact List.forall_mem_cons.mpr ⟨hu, hwidths⟩
    rw [flatten_of_shape hshape, amount_perm (Term.sort_perm ts), ← hamount]
    exact amount_congr fun t ht => by
      obtain ⟨u, hu, -⟩ := hwidths t ht
      exact hold t ⟨u, hu⟩

theorem amount_const (hshape : s.shape t = .bvConst w c) (hc : Bits.trunc w c = c) :
    s.amount k.op w (k.flatten s [t]) = (c, 0) := by
  have hvalue : s.constValue? t = some c := by
    unfold constValue?
    rw [hshape]
  have hkind : (s.shape t).kind ≠ k.kind := by
    rw [hshape]
    cases k <;> nofun
  obtain ⟨hfolded, hrest⟩ := folded_const (o := k.op) (w := w) hvalue (List.forall_mem_nil _)
  unfold amount
  rw [flatten_of_kind hkind, hfolded, hrest, hc]
  exact Prod.ext rfl (ite_self _)

/-- What is built amounts to what its arguments amount to. -/
theorem amount_of_build (hw : s.Wf) (hs : s.Normalized) (hchk : s.checkBvArgs args = .ok w)
    (h : k.build args s = .ok r s') :
    s'.amount k.op w (k.flatten s' [r]) = s.amount k.op w (k.flatten s args) := by
  obtain ⟨-, hargs⟩ := checkBvArgs_eq_ok hchk
  rw [build_eq hchk] at h
  unfold combine at h
  have hc := trunc_folded (s := s) (o := k.op) (w := w) (k.flatten s args)
  split at h
  next hconst =>
    obtain ⟨-, -, hshape⟩ := (Normalizes.bvConst_spec hs hw w _).of_ok h
    rw [amount_const (hc ▸ hshape) hc]
    unfold amount
    refine Prod.ext rfl ?_
    rcases hconst with habs | hnil
    · exact (if_pos habs).symm
    · rw [hnil]
      exact (ite_self _).symm
  next hconst =>
    obtain ⟨hopen, hne⟩ := not_or.mp hconst
    split at h
    · cases h
    · have hnone : ∀ t ∈ (s.splitConsts (k.flatten s args)).2, s.constValue? t = none := fun t ht =>
        Option.isNone_iff_eq_none.mp (List.mem_filter.mp ht).2
      rw [amount_of_assemble hw hs (fun t ht => mem_flatten hw hs hargs (splitConsts_mem ht)) hnone
        hne hc hopen h]
      unfold amount
      rw [if_neg hopen]

/-! ## What amounts to a stored term -/

/-- Among words with one constant at most, there is none, or it is one and the others are the
rest. -/
theorem splitConsts_cases (h : (s.splitConsts args).1.length ≤ 1) :
    s.splitConsts args = ([], args) ∨ ∃ t n, (s.splitConsts args).1 = [n] ∧
    s.constValue? t = some n ∧
      args.Perm (t :: (s.splitConsts args).2) := by
  cases hconsts : (s.splitConsts args).1 with
  | nil => exact .inl (splitConsts_of_none (List.filterMap_eq_nil_iff.mp hconsts))
  | cons n ns =>
    obtain rfl : ns = [] := by
      rw [hconsts] at h
      exact List.eq_nil_of_length_eq_zero (by simpa using h)
    obtain ⟨before, t, after, rfl, hbefore, ht, hafter⟩ := List.filterMap_eq_cons_iff.mp hconsts
    refine .inr ⟨t, n, rfl, ht, ?_⟩
    have hrest : (s.splitConsts (before ++ t :: after)).2 = before ++ after := by
      rw [splitConsts_append, splitConsts_cons ht, splitConsts_of_none hbefore,
        splitConsts_of_none (List.filterMap_eq_nil_iff.mp hafter)]
    rw [hrest]
    exact List.perm_middle

/-- A stored sum or product consists of the constant and the others that it amounts to. -/
theorem gathered_parts (hg : s.Gathered k.kind k.absorbed args) (hpos : 0 < w)
    (hlt : ∀ n ∈ (s.splitConsts args).1, n < Bits.modulus w) :
    ¬k.Constant s w args ∧ (s.folded k.op w args = k.op.neutral ∧ args = (s.splitConsts args).2 ∨
      s.folded k.op w args ≠ k.op.neutral ∧ ∃ t, args.Perm (t :: (s.splitConsts args).2) ∧
        s.constValue? t = some (s.folded k.op w args)) := by
  have htwo := hg.two
  rcases splitConsts_cases hg.one with hsplit | ⟨t, n, hconsts, ht, hperm⟩
  · have hfolded : s.folded k.op w args = k.op.neutral := by
      unfold folded
      rw [hsplit]
      exact trunc_neutral hpos
    unfold Constant
    rw [hfolded, hsplit]
    refine ⟨not_or.mpr ⟨not_absorbs_neutral, ?_⟩, .inl ⟨rfl, rfl⟩⟩
    rintro rfl
    cases htwo
  · have hmem : n ∈ (s.splitConsts args).1 := by simp [hconsts]
    have hfolded : s.folded k.op w args = n := by
      unfold folded
      rw [hconsts, WordOp.fold_singleton, Bits.trunc_eq_of_lt (hlt n hmem)]
    obtain ⟨hne, hopen⟩ := of_not_mem_absorbed (hg.folded n hmem)
    unfold Constant
    rw [hfolded]
    refine ⟨not_or.mpr ⟨hopen, fun hnil => ?_⟩, .inr ⟨hne, t, hperm, ht⟩⟩
    have hlength := hperm.length_eq
    rw [hnil] at hlength
    simp only [List.length_cons, List.length_nil] at hlength
    omega

/-- The members of a sum or product of words. -/
theorem hasWidth_of_node (hw : s.Wf) (hn : s.node? t = some (k.shape args, ty))
    (hty : s.tyShape? ty = some (.bitVector w)) :
    ∀ a ∈ args, s.HasWidth a w := by
  have htyped := hw.typed hn
  cases k with
  | sum => exact fun a ha => ⟨ty, htyped.2.1 a ha, hty⟩
  | product => exact fun a ha => ⟨ty, htyped.2.1 a ha, hty⟩

theorem node_of_constValue (hw : s.Wf) (ht : s.HasWidth t w) (hc : s.constValue? t = some c) :
    ∃ ty, s.node? t = some (.bvConst w c, ty) ∧ c < Bits.modulus w := by
  obtain ⟨w', ty, hn⟩ := constValue?_eq_some hc
  obtain ⟨hty, hlt⟩ := hw.typed hn
  obtain rfl : w' = w := HasWidth.unique
    ⟨ty, ⟨⟨_, hn⟩, fun hneg => absurd hneg (by simp [ht.not_isNegated hw])⟩, hty⟩ ht
  exact ⟨ty, hn, hlt⟩

theorem assemble_of_withConst {ts : List Term} (h : withConst w k.op.neutral c rest s = .ok ts s)
    (htwo : 2 ≤ ts.length) :
    k.assemble w c rest first s = intern (k.shape (Term.sort ts)) (s.ty first) s := by
  unfold assemble
  rw [bind_of_ok h]
  match ts, htwo with
  | _ :: _ :: _, _ => rfl

/-- Putting together what a stored sum or product consists of. -/
theorem assemble_node (hw : s.Wf) (hs : s.Normalized) (hr : s.HasWidth r w)
    (hn : s.node? r = some (k.shape args, ty))
    (hperm : rest.Perm (s.splitConsts args).2) (first : Term) :
    ¬k.Constant s w args ∧ k.assemble w (s.folded k.op w args) rest first s = .ok r s := by
  have hneg := hr.not_isNegated hw
  obtain ⟨hg, -⟩ := gathered_of_normal (hs hn)
  obtain ⟨ty', hty', hshape⟩ := id hr
  obtain rfl : ty' = ty := hty'.unique ⟨⟨_, hn⟩, by simp [hneg]⟩
  have hwidths := hasWidth_of_node hw hn hshape
  have hlt : ∀ n ∈ (s.splitConsts args).1, n < Bits.modulus w := fun n hmem => by
    obtain ⟨t, ht, hvalue⟩ := List.mem_filterMap.mp hmem
    exact (node_of_constValue hw (hwidths t ht) hvalue).choose_spec.2
  obtain ⟨hvaried, hparts⟩ := gathered_parts hg (hw.ty_ok hshape).1 hlt
  refine ⟨hvaried, ?_⟩
  -- in either case the arguments are those that were stored, in some order
  have hstored (ts : List Term) (hts : withConst w k.op.neutral (s.folded k.op w args) rest s =
    .ok ts s)
      (hargs : ts.Perm args) : k.assemble w (s.folded k.op w args) rest first s = .ok r s := by
    rw [assemble_of_withConst hts (hargs.length_eq ▸ hg.two), Term.sort_eq hargs hg.sorted]
    exact intern_node hw hn hneg _
  rcases hparts with ⟨hfolded, hargs⟩ | ⟨hne, t, hargs, hvalue⟩
  · refine hstored rest ?_ (hperm.trans (.of_eq hargs.symm))
    unfold withConst
    rw [if_pos hfolded]
    rfl
  · have ht := hwidths t (hargs.mem_iff.mpr List.mem_cons_self)
    obtain ⟨u, hnode, -⟩ := node_of_constValue hw ht hvalue
    refine hstored (t :: rest) ?_ ((hperm.cons t).trans hargs.symm)
    unfold withConst
    rw [if_neg hne, bind_of_ok (bvConst_node hw hnode (ht.not_isNegated hw))]
    rfl

theorem not_exceeds_one : ¬k.Exceeds [t].length := by
  cases k with
  | sum => exact id
  | product => exact Nat.not_lt_of_le (show 1 ≤ maxDegree by decide)

section Combine

variable {ts : List Term} (hw : s.Wf) (hs : s.Normalized) (hr : s.HasWidth r w)
  (h : s.amount k.op w ts = s.amount k.op w (k.flatten s [r])) (first : Term)

include hw hr h

include hs in
/-- Words that amount to a stored sum or product are this sum or product. -/
theorem combine_gathered (hkind : (s.shape r).kind = k.kind) :
    k.combine s w ts first s = .ok r s := by
  obtain ⟨ty, hty, hshape⟩ := id hr
  obtain ⟨inner, hinner⟩ := shape_of_kind hkind
  have hn : s.node? r = some (k.shape inner, ty) := node?_of_shape_eq hty hinner
  rw [flatten_of_shape hinner] at h
  obtain ⟨hfolded, hrest⟩ := Prod.mk.inj h
  obtain ⟨hopen, hnil⟩ := not_or.mp (assemble_node hw hs hr hn (.refl _) first).1
  rw [if_neg (hfolded ▸ hopen), if_neg hopen, Multiset.coe_eq_coe] at hrest
  have hvaried : ¬k.Constant s w ts :=
    not_or.mpr ⟨hfolded ▸ hopen, fun hts => hnil (List.nil_perm.mp (hts ▸ hrest))⟩
  unfold combine
  rw [if_neg hvaried, if_neg (hrest.length_eq ▸ (gathered_of_normal (hs hn)).2), hfolded]
  exact (assemble_node hw hs hr hn hrest first).2

/-- Words that amount to a constant are this constant. -/
theorem combine_const (hkind : (s.shape r).kind ≠ k.kind) (hvalue : s.constValue? r = some c) :
    k.combine s w ts first s = .ok r s := by
  obtain ⟨u, hn, hlt⟩ := node_of_constValue hw hr hvalue
  rw [flatten_of_kind hkind] at h
  obtain ⟨hfolded, hrest⟩ := Prod.mk.inj h
  obtain ⟨hself, hnil⟩ := folded_const (o := k.op) (w := w) hvalue (List.forall_mem_nil _)
  rw [Bits.trunc_eq_of_lt hlt] at hself
  rw [hnil, Multiset.coe_nil, ite_self] at hrest
  have hconst : k.Constant s w ts := by
    by_cases habs : k.op.Absorbs (s.folded k.op w ts)
    · exact .inl habs
    · rw [if_neg habs] at hrest
      exact .inr ((Multiset.coe_eq_zero _).mp hrest)
  unfold combine
  rw [if_pos hconst, hfolded, hself]
  exact bvConst_node hw hn (hr.not_isNegated hw)

/-- Words that amount to another word are this word. -/
theorem combine_other (hkind : (s.shape r).kind ≠ k.kind) (hvalue : s.constValue? r = none) :
    k.combine s w ts first s = .ok r s := by
  obtain ⟨ty, -, hshape⟩ := id hr
  have hnone : ∀ t ∈ [r], s.constValue? t = none := List.forall_mem_singleton.mpr hvalue
  have hneutral : s.folded k.op w [r] = k.op.neutral :=
    (folded_of_none hnone).trans (trunc_neutral (hw.ty_ok hshape).1)
  rw [flatten_of_kind hkind] at h
  obtain ⟨hfolded, hrest⟩ := Prod.mk.inj h
  rw [hfolded, hneutral, if_neg not_absorbs_neutral, if_neg not_absorbs_neutral,
    splitConsts_of_none hnone,
    Multiset.coe_eq_coe, List.perm_singleton] at hrest
  have hvaried : ¬k.Constant s w ts := by
    unfold Constant
    rw [hfolded, hneutral, hrest]
    exact not_or.mpr ⟨not_absorbs_neutral, List.cons_ne_nil _ _⟩
  unfold combine
  rw [if_neg hvaried, hrest, if_neg not_exceeds_one, hfolded, hneutral]
  unfold assemble withConst
  rw [if_pos rfl]
  rfl

end Combine

/-- An operation on words that amount to a stored term answers this term, and stores nothing. -/
theorem build_of_amount (hw : s.Wf) (hs : s.Normalized) (hne : args ≠ [])
    (hargs : ∀ a ∈ args, s.HasWidth a w)
    (hr : s.HasWidth r w) (h : s.amount k.op w (k.flatten s args) = s.amount k.op w
      (k.flatten s [r])) :
    k.build args s = .ok r s := by
  rw [build_eq (checkBvArgs_ok hne hargs)]
  by_cases hkind : (s.shape r).kind = k.kind
  · exact combine_gathered hw hs hr h _ hkind
  · cases hvalue : s.constValue? r with
    | some n => exact combine_const hw hr h _ hkind hvalue
    | none => exact combine_other hw hr h _ hkind hvalue

end Folding
end Entail
