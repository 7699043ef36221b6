import Entail.Proofs.Store.Made
import Entail.Proofs.Store.Runs
import Mathlib

/-!
# Normal forms

A constructor simplifies before it stores anything. So whatever is stored is such that its
constructor has nothing left to simplify: no constant is an argument where it could be folded,
arguments that may be swapped are in order, and sums and products are flat. What this says of a term
depends on the shapes of its parts only, so it lasts as long as the parts are there, whatever
happens to other slots.
-/

namespace Entail

/-! ## Lists in order -/

namespace Term

/-- Neither of the two truth values. -/
def Open (t : Term) : Prop := t ≠ .top ∧ t ≠ .bot

theorem raw_neg (t : Term) : t.neg.raw = if t.isNegated then t.raw - 1 else t.raw + 1 := by
  unfold neg
  split <;> rfl

theorem Open.neg {t : Term} (h : t.Open) : t.neg.Open := by
  refine ⟨fun htop => h.2 ?_, fun hbot => h.1 ?_⟩
  · rw [← neg_neg t, htop]
    rfl
  · rw [← neg_neg t, hbot]
    rfl

theorem Open.of_positive {t : Term} (h : t.isNegated = false) (hne : t ≠ .top) : t.Open := by
  refine ⟨hne, ?_⟩
  rintro rfl
  cases h

theorem two_le_length {ts : List Term} (hnil : ts ≠ []) (hone : ∀ t, ts ≠ [t]) : 2 ≤ ts.length := by
  cases ts with
  | nil => exact absurd rfl hnil
  | cons a rest =>
    cases rest with
    | nil => exact absurd rfl (hone a)
    | cons => simp

theorem lt_of_le_of_ne {a b : Term} (h : a.le b = true) (hne : a ≠ b) : a.raw < b.raw := by
  have hraw : a.raw ≠ b.raw := fun heq => hne (by cases a; cases b; exact congrArg Term.mk heq)
  have hle : a.raw ≤ b.raw := of_decide_eq_true h
  omega

/-- Of two different terms, one is before the other. -/
theorem lt_of_not_le {a b : Term} (h : ¬a.le b = true) : b.raw < a.raw := by
  have hle : ¬a.raw ≤ b.raw := fun hle => h (decide_eq_true hle)
  omega

theorem pairwise_sort (ts : List Term) : (sort ts).Pairwise fun a b => a.raw ≤ b.raw := by
  have htrans (a b c : Term) (hab : a.le b = true) (hbc : b.le c = true) : a.le c = true :=
    decide_eq_true (Nat.le_trans (of_decide_eq_true hab) (of_decide_eq_true hbc))
  have htotal (a b : Term) : (a.le b || b.le a) = true := by
    rcases Nat.le_total a.raw b.raw with h | h
    · exact Bool.or_eq_true_iff.mpr (.inl (decide_eq_true h))
    · exact Bool.or_eq_true_iff.mpr (.inr (decide_eq_true h))
  exact (List.pairwise_mergeSort htrans htotal ts).imp fun h => of_decide_eq_true h

/-- Without repetitions, a sorted list increases strictly. -/
theorem pairwise_dedup {ts : List Term} (h : ts.Pairwise fun a b => a.raw ≤ b.raw) :
    (dedup ts).Pairwise fun a b => a.raw < b.raw := by
  fun_induction dedup ts with
  | case1 b rest ih => exact ih (List.pairwise_cons.mp h).2
  | case2 a b rest hne ih =>
    obtain ⟨ha, hrest⟩ := List.pairwise_cons.mp h
    have hab : a.raw < b.raw := lt_of_le_of_ne (decide_eq_true (ha b List.mem_cons_self)) hne
    refine List.pairwise_cons.mpr ⟨fun t ht => ?_, ih hrest⟩
    rcases List.mem_cons.mp (mem_dedup.mp ht) with rfl | ht
    · exact hab
    · exact Nat.lt_of_lt_of_le hab ((List.pairwise_cons.mp hrest).1 t ht)
  | case3 ts hshort =>
    cases ts with
    | nil => exact .nil
    | cons a rest =>
      cases rest with
      | nil => exact List.pairwise_singleton _ _
      | cons b rest => exact absurd rfl (hshort a b rest)

/-- A term and its negation are neighbours in every increasing list that has both. -/
theorem not_mem_neg {ts : List Term} (h : ts.Pairwise fun a b => a.raw < b.raw)
    (hc : ¬hasComplement ts = true) :
    ∀ t ∈ ts, t.neg ∉ ts := by
  induction ts with
  | nil => exact nofun
  | cons a rest ih =>
    obtain ⟨ha, hrest⟩ := List.pairwise_cons.mp h
    have hneg : a.neg ∉ rest := by
      intro hmem
      cases rest with
      | nil => cases hmem
      | cons b rest =>
        have hnext : a.neg ≠ b := fun heq =>
          hc (Bool.or_eq_true_iff.mpr (.inl (beq_iff_eq.mpr heq)))
        have hb := ha b List.mem_cons_self
        have hlt := ha a.neg hmem
        have hraw := raw_neg a
        have hmem := (List.mem_cons.mp hmem).resolve_left hnext
        have := (List.pairwise_cons.mp hrest).1 a.neg hmem
        split at hraw <;> omega
    have hself : a.neg ≠ a := fun heq => by
      have hflip := isNegated_neg a
      rw [heq] at hflip
      cases hn : a.isNegated <;> simp [hn] at hflip
    have htail : ¬hasComplement rest = true := fun h => hc (by
      cases rest with
      | nil => exact h
      | cons b rest => exact Bool.or_eq_true_iff.mpr (.inr h))
    intro t ht hneg'
    rcases List.mem_cons.mp ht with rfl | ht
    · rcases List.mem_cons.mp hneg' with heq | hmem
      · exact hself heq
      · exact hneg hmem
    · rcases List.mem_cons.mp hneg' with heq | hmem
      · exact hneg (by rwa [← heq, neg_neg])
      · exact ih hrest htail t ht hmem

end Term

namespace Store

variable {s s' : Store} {α β : Type} {shape : Term.Shape} {ty : Ty} {a b c t : Term}
  {args vars : List Term} {w : Nat}

/-! ## Normal shapes -/

/-- The arguments of a sum or of a product: at least two in order, none of which is a sum or a
product itself, and at most one constant, which the operation does not absorb. -/
structure Gathered (s : Store) (kind : Term.Kind) (absorbed : List Nat) (args : List Term) :
    Prop where
  two : 2 ≤ args.length
  sorted : args.Pairwise fun a b => a.raw ≤ b.raw
  flat : ∀ a ∈ args, (s.shape a).kind ≠ kind
  one : (s.splitConsts args).1.length ≤ 1
  folded : ∀ n ∈ (s.splitConsts args).1, n ∉ absorbed

/-- A shape that its constructor stores as it is. -/
def Normal (s : Store) : Term.Shape → Ty → Prop
  | .or args, _ =>
    2 ≤ args.length ∧ args.Pairwise (fun a b => a.raw < b.raw) ∧ (∀ a ∈ args, a.Open) ∧ ∀ a ∈ args,
      a.neg ∉ args
  | .xor a b, _ => a.raw < b.raw ∧ a.isNegated = false ∧ b.isNegated = false ∧ a.Open ∧ b.Open
  | .eq a b, _ => a.raw < b.raw ∧ (s.constValue? a = none ∨ s.constValue? b = none)
  | .ite c a b, ty => c.isNegated = false ∧ c.Open ∧ a ≠ b ∧
    (ty = .bool → a.Open ∧ b.Open ∧ a ≠ b.neg ∧ (a.isNegated = false ∨ b.isNegated = false))
  | .all vars body, _ => vars ≠ [] ∧ body.Open
  | .bit x _, _ => s.constValue? x = none
  | .bvGe a b, _ => a ≠ b ∧ (s.constValue? a = none ∨ s.constValue? b = none) ∧
    s.constValue? b ≠ some 0
  | .bvSge a b, _ => a ≠ b ∧ (s.constValue? a = none ∨ s.constValue? b = none) ∧
    ∀ w v, s.shape b = .bvConst w v → v ≠ 2 ^ (w - 1)
  | .bvNeg x, _ => s.constValue? x = none ∧ ∀ y, s.shape x ≠ .bvNeg y
  | .bvSum args, _ => s.Gathered .sum [0] args
  | .bvProduct args, _ =>
    s.Gathered .product [0, 1] args ∧ (s.splitConsts args).2.length ≤ maxDegree
  | .truth, _ | .bvConst .., _ | .uninterpreted .., _ | .var .., _ | .app .., _ => True

/-- Everything in the store is normal. -/
def Normalized (s : Store) : Prop :=
  ∀ ⦃i shape ty⦄, s.terms.get? i = some (shape, ty) → s.Normal shape ty

theorem constValue?_congr (h : s'.shape t = s.shape t) : s'.constValue? t = s.constValue? t := by
  unfold constValue?
  rw [h]

theorem splitConsts_congr (h : ∀ a ∈ args, s'.shape a = s.shape a) :
    s'.splitConsts args = s.splitConsts args := by
  have hvalue : ∀ a ∈ args, s'.constValue? a = s.constValue? a :=
    fun a ha => constValue?_congr (h a ha)
  exact Prod.ext (List.filterMap_congr hvalue) (List.filter_congr fun a ha => by rw [hvalue a ha])

theorem Gathered.congr {kind : Term.Kind} {absorbed : List Nat} (h : s.Gathered kind absorbed args)
    (hargs : ∀ a ∈ args, s'.shape a = s.shape a) : s'.Gathered kind absorbed args where
  two := h.two
  sorted := h.sorted
  flat a ha := by
    rw [hargs a ha]
    exact h.flat a ha
  one := by
    rw [splitConsts_congr hargs]
    exact h.one
  folded := by
    rw [splitConsts_congr hargs]
    exact h.folded

/-- A normal shape is normal as long as its parts keep their shapes. -/
theorem Normal.congr (h : s.Normal shape ty)
    (hparts : ∀ c ∈ shape.children, s'.shape c = s.shape c) :
    s'.Normal shape ty := by
  have hvalue : ∀ c ∈ shape.children, s'.constValue? c = s.constValue? c :=
    fun c hc => constValue?_congr (hparts c hc)
  cases shape with
  | truth | bvConst | uninterpreted | var | app | or | xor | ite | all => exact h
  | eq a b =>
    simp only [Normal] at h ⊢
    rw [hvalue a (by simp [Term.Shape.children]), hvalue b (by simp [Term.Shape.children])]
    exact h
  | bit x i =>
    simp only [Normal] at h ⊢
    rw [hvalue x (by simp [Term.Shape.children])]
    exact h
  | bvGe a b =>
    simp only [Normal] at h ⊢
    rw [hvalue a (by simp [Term.Shape.children]), hvalue b (by simp [Term.Shape.children])]
    exact h
  | bvSge a b =>
    simp only [Normal] at h ⊢
    rw [hvalue a (by simp [Term.Shape.children]), hvalue b (by simp [Term.Shape.children]),
      hparts b (by simp [Term.Shape.children])]
    exact h
  | bvNeg x =>
    simp only [Normal] at h ⊢
    rw [hvalue x (by simp [Term.Shape.children]), hparts x (by simp [Term.Shape.children])]
    exact h
  | bvSum args => exact Gathered.congr h hparts
  | bvProduct args =>
    have hargs : ∀ a ∈ args, s'.shape a = s.shape a := hparts
    refine ⟨h.1.congr hargs, ?_⟩
    rw [splitConsts_congr hargs]
    exact h.2

theorem Extends.shape_eq (h : s.Extends s') (ht : s.Has t ty) : s'.shape t = s.shape t := by
  obtain ⟨⟨shape, hn⟩, -⟩ := ht
  rw [shape_of_node hn, shape_of_node (h.node hn)]

theorem Normalized.of_terms (h : s.Normalized) (hterms : s'.terms = s.terms) : s'.Normalized :=
  fun i shape ty hi => by
  refine (h (hterms ▸ hi)).congr fun c _ => ?_
  unfold Store.shape shape? node?
  rw [hterms]

/-- A node of a shape that is normal and made of live parts may be stored. -/
theorem Normalized.intern (h : s.Normalized) (hw : s.Wf)
    (hlive : ∀ c ∈ shape.children, ∃ u, s.Has c u)
    (hshape : s.Normal shape ty) : (endState (Store.intern shape ty s)).Normalized := by
  obtain ⟨-, hold, -, -⟩ := hw.terms.intern shape ty
  have hparts {parts : List Term} (hparts : ∀ c ∈ parts, ∃ u, s.Has c u) :
      ∀ c ∈ parts, (endState (Store.intern shape ty s)).shape c = s.shape c := fun c hc => by
    obtain ⟨u, ⟨sh, hn⟩, -⟩ := hparts c hc
    have hn' : (endState (Store.intern shape ty s)).node? c = some (sh, u) := hold _ _ hn
    rw [shape_of_node hn, shape_of_node hn']
  intro i shape' ty' hi
  rcases Arena.get?_intern hi with heq | hi
  · cases heq
    exact hshape.congr (hparts hlive)
  · exact (h hi).congr (hparts fun c => (hw.typed hi).live)

/-- Of two values, one is missing. -/
theorem none_or_none {x y : Option Nat} (h : ∀ m n, (x, y) = (some m, some n) → False) :
    x = none ∨ y = none := by
  cases x with
  | none => exact .inl rfl
  | some m =>
    cases y with
    | none => exact .inr rfl
    | some n => exact (h m n rfl).elim

/-- The order of the arguments does not matter. -/
theorem splitConsts_perm {ts ts' : List Term} (h : ts.Perm ts') :
    (s.splitConsts ts).1.Perm (s.splitConsts ts').1 ∧
    (s.splitConsts ts).2.Perm (s.splitConsts ts').2 :=
  ⟨h.filterMap _, h.filter _⟩

theorem splitConsts_of_none (h : ∀ t ∈ args, s.constValue? t = none) :
    s.splitConsts args = ([], args) :=
  Prod.ext (List.filterMap_eq_nil_iff.mpr h)
    (List.filter_eq_self.mpr fun t ht => by rw [h t ht]; rfl)

theorem splitConsts_cons {n : Nat} (h : s.constValue? t = some n) :
    s.splitConsts (t :: args) = (n :: (s.splitConsts args).1, (s.splitConsts args).2) := by
  unfold splitConsts
  simp [h]

/-- Two terms at least are gathered by sorting them. -/
theorem Gathered.of_perm {kind : Term.Kind} {absorbed : List Nat} (htwo : 2 ≤ args.length)
    (hflat : ∀ a ∈ args, (s.shape a).kind ≠ kind) (hone : (s.splitConsts args).1.length ≤ 1)
    (hfolded : ∀ n ∈ (s.splitConsts args).1, n ∉ absorbed) :
    s.Gathered kind absorbed (Term.sort args) := by
  have hperm : (Term.sort args).Perm args := List.mergeSort_perm args Term.le
  have hsplit := splitConsts_perm (s := s) hperm
  exact ⟨hperm.length_eq ▸ htwo, Term.pairwise_sort args, fun a ha => hflat a (Term.mem_sort.mp ha),
    hsplit.1.length_eq ▸ hone, fun n hn => hfolded n (hsplit.1.mem_iff.mp hn)⟩

/-- No sum is a summand. -/
theorem kind_of_mem_summands (hs : s.Normalized) (hargs : ∀ a ∈ args, s.HasWidth a w)
    (ht : t ∈ s.summands args) :
    (s.shape t).kind ≠ .sum := by
  obtain ⟨a, ha, hta⟩ := List.mem_flatMap.mp ht
  obtain ⟨u, hu, -⟩ := hargs a ha
  have hnode := hu.node
  cases hshape : s.shape a with
  | bvSum inner =>
    rw [hshape] at hta hnode
    exact (hs hnode).flat t hta
  | _ =>
    simp only [hshape, List.mem_singleton] at hta
    rw [hta, hshape]
    nofun

/-- No product is a factor. -/
theorem kind_of_mem_factors (hs : s.Normalized) (hargs : ∀ a ∈ args, s.HasWidth a w)
    (ht : t ∈ s.factors args) :
    (s.shape t).kind ≠ .product := by
  obtain ⟨a, ha, hta⟩ := List.mem_flatMap.mp ht
  obtain ⟨u, hu, -⟩ := hargs a ha
  have hnode := hu.node
  cases hshape : s.shape a with
  | bvProduct inner =>
    rw [hshape] at hta hnode
    exact (hs hnode).1.flat t hta
  | _ =>
    simp only [hshape, List.mem_singleton] at hta
    rw [hta, hshape]
    nofun

/-! ## Constructors -/

/-- From `s`, the operation stores nothing that is not normal. -/
abbrev Normalizes (s : Store) (op : Op α) : Prop := Ends op s (fun _ => Normalized) Normalized

namespace Normalizes

variable {f : α → Op β}

theorem moves {op : Op α} (h : ∀ s : Store, s.Wf → s.Normalized → Normalizes s op)
    (h' : Moves Wf Later op) :
    Moves (fun s => s.Wf ∧ s.Normalized) (fun s s' => Later s s' ∧ s'.Normalized) op :=
  fun s hs => ⟨h' s hs.1, Ends.endState (h s hs.1 hs.2)⟩

theorem map {op : Op α} {g : α → β} (h : Normalizes s op) :
    Normalizes s (op >>= fun x => pure (g x)) :=
  Ends.bind (Ends.mono h (fun _ _ hs' => Ends.pure hs') fun _ => id)

theorem look_bind {g : Store → α} (h : Normalizes s (f (g s))) :
    Normalizes s (Store.look g >>= f) := h

variable (hs : s.Normalized)

include hs

theorem read_bind {g : Store → Except TermError α} {Q : β → Store → Prop}
    (h : ∀ x, g s = .ok x → Ends (f x) s Q Normalized) :
    Ends (Store.read g >>= f) s Q Normalized := by
  refine Ends.bind ?_
  unfold Ends Store.read
  cases hg : g s with
  | ok x => exact h x hg
  | error e => exact hs

variable (hw : s.Wf)

include hw

theorem intern (hlive : ∀ c ∈ shape.children, ∃ u, s.Has c u) (hshape : s.Normal shape ty) :
    Normalizes s (Store.intern shape ty) :=
  hs.intern hw hlive hshape

theorem orOf (hargs : ∀ a ∈ args, s.Has a .bool) : Normalizes s (orOf args) := by
  have hkept : ∀ a ∈ Term.dedup (Term.sort (args.filter (· ≠ .bot))), a ∈ args ∧ a ≠ .bot :=
      fun a ha => by
    rw [Term.mem_dedup, Term.mem_sort, List.mem_filter] at ha
    exact ⟨ha.1, of_decide_eq_true ha.2⟩
  have hsorted := Term.pairwise_dedup (Term.pairwise_sort (args.filter (· ≠ .bot)))
  unfold Store.orOf
  split
  · exact Ends.pure hs
  next htop =>
    dsimp only
    split
    · exact Ends.pure hs
    next hc =>
      split
      · exact Ends.pure hs
      · exact Ends.pure hs
      next hnil hone =>
        refine intern hs hw (fun a ha => ⟨_, hargs a (hkept a ha).1⟩)
          ⟨?_, hsorted, fun a ha => ?_, ?_⟩
        · exact Term.two_le_length hnil hone
        · refine ⟨fun heq => htop ?_, (hkept a ha).2⟩
          exact List.contains_iff_mem.mpr (heq ▸ (hkept a ha).1)
        · exact Term.not_mem_neg hsorted hc

theorem or (args : List Term) : Normalizes s (Store.or args) :=
  read_bind hs fun _ hchk => orOf hs hw fun a ha => checkBool_eq_ok (forM_eq_ok hchk a ha)

theorem and (args : List Term) : Normalizes s (Store.and args) :=
  read_bind hs fun _ hchk => map (orOf hs hw fun a ha => by
    obtain ⟨b, hb, rfl⟩ := List.mem_map.mp ha
    exact (checkBool_eq_ok (forM_eq_ok hchk b hb)).neg)

theorem xor2 (a b : Term) : Normalizes s (Store.xor2 a b) := by
  refine read_bind hs fun _ ha => read_bind hs fun _ hb => ?_
  replace ha := (checkBool_eq_ok ha).positive
  replace hb := (checkBool_eq_ok hb).positive
  have hpure (t : Term) : Normalizes s (Pure.pure t : Op Term) := Ends.pure hs
  have hstored {x y : Term} (hx : s.Has x.positive .bool) (hy : s.Has y.positive .bool)
      (hlt : x.positive.raw < y.positive.raw) (hxtop : x.positive ≠ .top)
      (hytop : y.positive ≠ .top) :
      Normalizes s (Store.intern (.xor x.positive y.positive) .bool) := by
    have hxpos := Term.isNegated_positive x
    have hypos := Term.isNegated_positive y
    exact intern hs hw (forall_mem_pair ⟨_, hx⟩ ⟨_, hy⟩)
      ⟨hlt, hxpos, hypos, .of_positive hxpos hxtop, .of_positive hypos hytop⟩
  simp only
  split
  · exact map (hpure _)
  next hne =>
  split
  · exact map (hpure _)
  next hatop =>
  split
  · exact map (hpure _)
  next hbtop =>
  split
  next hle => exact map (hstored ha hb (Term.lt_of_le_of_ne hle hne) hatop hbtop)
  next hnle => exact map (hstored hb ha (Term.lt_of_not_le hnle) hbtop hatop)

theorem iff (a b : Term) : Normalizes s (Store.iff a b) := map (xor2 hs hw a b)

/-- By then the branches differ, and the condition is positive and no constant. -/
theorem iteOf (hc : s.Has c .bool) (ha : s.Has a ty) (hb : s.Has b ty) (hpos : c.isNegated = false)
    (htop : c ≠ .top) (hne : a ≠ b) : Normalizes s (Store.iteOf ty c a b) := by
  have hopen := Term.Open.of_positive hpos htop
  have hlive {x y : Term} (hx : s.Has x ty) (hy : s.Has y ty) : ∀ t ∈ [c, x, y], ∃ u,
      s.Has t u := by
    simpa using ⟨⟨_, hc⟩, ⟨_, hx⟩, ⟨_, hy⟩⟩
  unfold Store.iteOf
  split
  next hty =>
    subst hty
    split
    · exact or hs hw _
    next hatop =>
    split
    · exact and hs hw _
    next habot =>
    split
    · exact or hs hw _
    next hbtop =>
    split
    · exact and hs hw _
    next hbbot =>
    split
    · exact iff hs hw _ _
    next hcompl =>
    split
    next hboth =>
      obtain ⟨hna, -⟩ := Bool.and_eq_true_iff.mp hboth
      refine map (intern hs hw (hlive ha.neg hb.neg) ⟨hpos, hopen, fun heq => hne ?_, fun _ =>
        ⟨?_, ?_, fun heq => ?_, ?_⟩⟩)
      · rw [← Term.neg_neg a, heq, Term.neg_neg]
      · exact Term.Open.neg ⟨hatop, habot⟩
      · exact Term.Open.neg ⟨hbtop, hbbot⟩
      · exact hcompl (by rw [← Term.neg_neg a, heq, Term.neg_neg])
      · exact .inl (by simp [hna])
    next hboth =>
      refine intern hs hw (hlive ha hb) ⟨hpos, hopen, hne, fun _ =>
        ⟨⟨hatop, habot⟩, ⟨hbtop, hbbot⟩, hcompl, ?_⟩⟩
      cases hna : a.isNegated with
      | false => exact .inl rfl
      | true => exact .inr (Bool.eq_false_iff.mpr fun hnb =>
        hboth (Bool.and_eq_true_iff.mpr ⟨hna, hnb⟩))
  next hty => exact intern hs hw (hlive ha hb) ⟨hpos, hopen, hne, fun h => absurd h hty⟩

theorem ite (c a b : Term) : Normalizes s (Store.ite c a b) := by
  refine read_bind hs fun _ hc => read_bind hs fun ty hab => ?_
  replace hc := checkBool_eq_ok hc
  obtain ⟨ha, hb⟩ := checkSameType_eq_ok hab
  split
  · exact Ends.pure hs
  next hfold =>
    simp only [Bool.or_eq_true, decide_eq_true_eq, not_or] at hfold
    split
    · exact Ends.pure hs
    next hbot =>
      split
      next hneg =>
        refine iteOf hs hw hc.neg hb ha (by simp [hneg]) (fun htop => hbot ?_) (Ne.symm hfold.2)
        rw [← Term.neg_neg c, htop]
        rfl
      next hpos => exact iteOf hs hw hc ha hb (Bool.eq_false_iff.mpr hpos) hfold.1 hfold.2

theorem eq (a b : Term) : Normalizes s (Store.eq a b) := by
  refine read_bind hs fun ty hab => ?_
  obtain ⟨ha, hb⟩ := checkSameType_eq_ok hab
  split
  · exact Ends.pure hs
  next hne =>
    split
    · exact iff hs hw a b
    · refine look_bind ?_
      split
      · exact Ends.pure hs
      next hvalues =>
        have hconst := none_or_none hvalues
        split
        next hle =>
          exact intern hs hw (forall_mem_pair ⟨_, ha⟩ ⟨_, hb⟩) ⟨Term.lt_of_le_of_ne hle hne, hconst⟩
        next hnle =>
          exact intern hs hw (forall_mem_pair ⟨_, hb⟩ ⟨_, ha⟩) ⟨Term.lt_of_not_le hnle, hconst.symm⟩

theorem app (f : Term) (args : List Term) : Normalizes s (Store.app f args) :=
  read_bind hs fun _ hty => intern hs hw (fun _ => (checkApp_eq_ok hty).live) trivial

theorem all (vars : List Term) (body : Term) : Normalizes s (Store.all vars body) := by
  unfold Store.all
  split
  · exact Ends.throw hs
  next hvars =>
    refine read_bind hs fun _ hchk => read_bind hs fun _ hbody => ?_
    obtain ⟨hnodup, -, hisVar⟩ := checkVars_eq_ok hw hchk
    replace hbody := checkBool_eq_ok hbody
    split
    · exact Ends.pure hs
    next hopen =>
      simp only [Bool.or_eq_true, decide_eq_true_eq, not_or] at hopen
      have htyped : s.Typed (.all vars body) .bool := ⟨rfl, hnodup, hisVar, hbody⟩
      exact intern hs hw (fun _ => htyped.live) ⟨fun hnil => hvars (List.isEmpty_iff.mpr hnil),
        hopen⟩

/-! ### Words -/

omit hw in
/-- No type changes a term. -/
theorem bvType (w : Nat) : Normalizes s (Store.bvType w) := by
  unfold Store.bvType
  split
  · exact Ends.throw hs
  split
  · exact Ends.throw hs
  · exact hs.of_terms rfl

theorem bvConst_spec (w n : Nat) : Ends (Store.bvConst w n) s
    (fun t s' => Later s s' ∧ s'.Normalized ∧ s'.shape t = .bvConst w (Bits.trunc w n))
      Normalized := by
  have hstored : Normalizes s (Store.bvConst w n) :=
    Ends.bind (Ends.mono (Ends.both (bvType_builds hw w) (bvType hs w))
      (fun _ _ h => intern h.2 h.1.1.wf nofun trivial) fun _ h => h.2)
  have hbuilt : Builds s (Store.bvConst w n) fun t s' => s'.shape t = .bvConst w (Bits.trunc w n) :=
    .bind (bvType_builds hw w) fun ty s₁ h₁ hty =>
      .intern h₁.wf (.bvConst w (Bits.trunc w n)) _ ⟨hty, Bits.trunc_lt w n⟩ ⟨_, hty⟩ trivial
        fun t s' _ _ hn => shape_of_node hn
  exact Ends.mono (Ends.both hbuilt hstored) (fun _ _ h => ⟨h.1.1, h.2, h.1.2⟩) fun _ h => h.2

theorem bvConst (w n : Nat) : Normalizes s (Store.bvConst w n) :=
  Ends.mono (bvConst_spec hs hw w n) (fun _ _ h => h.2.1) fun _ => id

/-- What is left once the constants are folded is put together from the folded constant and the
other arguments. -/
theorem withConst (o : WordOp) (kind : Term.Kind) (absorbed : List Nat) {cst : Nat}
    {rest : List Term}
    (hcst : Bits.trunc w cst = cst) (habsorbed : cst ≠ o.neutral → cst ∉ absorbed)
    (hkind : Term.Kind.constant ≠ kind)
    (hrest : ∀ t ∈ rest, s.HasWidth t w ∧ s.constValue? t = none ∧ (s.shape t).kind ≠ kind) :
    Ends (Store.withConst w o.neutral cst rest) s (fun ts s' => Later s s' ∧ s'.Normalized ∧
      (∀ t ∈ Term.sort ts, ∃ u, s'.Has t u) ∧ (s'.splitConsts (Term.sort ts)).2.length =
        rest.length ∧
      (rest ≠ [] → (∀ t, ts ≠ [t]) → s'.Gathered kind absorbed (Term.sort ts))) Normalized := by
  have hlive {s' : Store} {ts : List Term} (hts : ∀ t ∈ ts, s'.HasWidth t w) : ∀ t ∈ Term.sort ts,
      ∃ u, s'.Has t u :=
    fun t ht => by
      obtain ⟨u, hu, -⟩ := hts t (Term.mem_sort.mp ht)
      exact ⟨u, hu⟩
  have hsame {s' : Store} (hs' : Later s s') : ∀ t ∈ rest, s'.shape t = s.shape t := fun t ht => by
    obtain ⟨u, hu, -⟩ := (hrest t ht).1
    exact hs'.ext.shape_eq hu
  have hwidths : ∀ t ∈ rest, s.HasWidth t w := fun t ht => (hrest t ht).1
  have hnone : s.splitConsts rest = ([], rest) := splitConsts_of_none fun t ht => (hrest t ht).2.1
  unfold Store.withConst
  split
  next heq =>
    have hperm := splitConsts_perm (s := s) (List.mergeSort_perm rest Term.le)
    refine Ends.pure ⟨later_frame.refl hw, hs, hlive hwidths, ?_, fun hnil hone => ?_⟩
    · exact hperm.2.length_eq.trans (by rw [hnone])
    · exact .of_perm (Term.two_le_length hnil hone) (fun t ht => (hrest t ht).2.2) (by simp [hnone])
        (by simp [hnone])
  next hne =>
    refine Ends.bind (Ends.mono (Ends.both (bvConst_spec hs hw w cst) (bvConst_builds hw w cst))
      (fun t s' h => ?_)
      fun _ h => h.1)
    obtain ⟨⟨hlater, hs', hshape⟩, -, ty, hty, hden⟩ := h
    have hvalue : s'.constValue? t = some cst := by
      unfold constValue?
      rw [hshape, hcst]
    have hsplit : s'.splitConsts (t :: rest) = ([cst], rest) := by
      rw [splitConsts_cons hvalue, splitConsts_congr (hsame hlater), hnone]
    have hperm := splitConsts_perm (s := s') (List.mergeSort_perm (t :: rest) Term.le)
    refine Ends.pure ⟨hlater, hs', hlive ?_, ?_, fun _ hone =>
      .of_perm (Term.two_le_length nofun hone) ?_ (by simp [hsplit]) ?_⟩
    · exact List.forall_mem_cons.mpr ⟨⟨ty, hden.has, hty⟩, fun u hu => hlater.ext.hasWidth
        (hwidths u hu)⟩
    · exact hperm.2.length_eq.trans (by rw [hsplit])
    · refine List.forall_mem_cons.mpr ⟨by rwa [hshape], fun u hu => ?_⟩
      rw [hsame hlater u hu]
      exact (hrest u hu).2.2
    · simpa [hsplit] using habsorbed hne

theorem bvSum (args : List Term) : Normalizes s (Store.bvSum args) := by
  refine read_bind hs fun w hchk => ?_
  obtain ⟨-, hargs⟩ := checkBvArgs_eq_ok hchk
  have hrest : ∀ t ∈ (s.splitConsts (s.summands args)).2,
      s.HasWidth t w ∧ s.constValue? t = none ∧ (s.shape t).kind ≠ .sum := fun t ht => by
    have hmem := splitConsts_mem ht
    exact ⟨(summands_spec hw hargs).1 t hmem, Option.isNone_iff_eq_none.mp
      (List.mem_filter.mp ht).2,
      kind_of_mem_summands hs hargs hmem⟩
  show Normalizes s (if (s.splitConsts (s.summands args)).2.isEmpty then _ else _)
  split
  · exact bvConst hs hw w _
  next hne =>
    have hnil : (s.splitConsts (s.summands args)).2 ≠ [] :=
      fun hnil => hne (List.isEmpty_iff.mpr hnil)
    refine Ends.bind (Ends.mono (withConst hs hw .add .sum [0]
      (Bits.trunc_eq_of_lt (Bits.trunc_lt w _))
      (fun h hmem => h (List.mem_singleton.mp hmem)) nofun hrest) (fun ts s' h => ?_) fun _ => id)
    obtain ⟨hlater, hs', hlive, -, hgathered⟩ := h
    split
    · exact Ends.pure hs'
    next hone => exact intern hs' hlater.wf hlive (hgathered hnil hone)

theorem bvProduct (args : List Term) : Normalizes s (Store.bvProduct args) := by
  refine read_bind hs fun w hchk => ?_
  obtain ⟨-, hargs⟩ := checkBvArgs_eq_ok hchk
  have hrest : ∀ t ∈ (s.splitConsts (s.factors args)).2,
      s.HasWidth t w ∧ s.constValue? t = none ∧ (s.shape t).kind ≠ .product := fun t ht => by
    have hmem := splitConsts_mem ht
    exact ⟨(factors_spec hw hargs).1 t hmem, Option.isNone_iff_eq_none.mp (List.mem_filter.mp ht).2,
      kind_of_mem_factors hs hargs hmem⟩
  show Normalizes s (if _ = 0 || (s.splitConsts (s.factors args)).2.isEmpty then _ else _)
  split
  · exact bvConst hs hw w _
  next hne =>
  simp only [Bool.or_eq_true, decide_eq_true_eq, List.isEmpty_iff, not_or] at hne
  split
  · exact Ends.throw hs
  next hdegree =>
    refine Ends.bind (Ends.mono (withConst hs hw .mul .product [0, 1]
      (Bits.trunc_eq_of_lt (Bits.trunc_lt w _))
      (fun h => by simpa using ⟨hne.1, h⟩) nofun hrest) (fun ts s' h => ?_) fun _ => id)
    obtain ⟨hlater, hs', hlive, hlength, hgathered⟩ := h
    split
    · exact Ends.pure hs'
    next hone =>
      exact intern hs' hlater.wf hlive ⟨hgathered hne.2 hone, hlength ▸ Nat.le_of_not_lt hdegree⟩

theorem bvNeg (a : Term) : Normalizes s (Store.bvNeg a) := by
  refine read_bind hs fun w hchk => ?_
  obtain ⟨u, hu, -⟩ := checkBv_eq_ok hchk
  refine look_bind ?_
  split
  · exact bvConst hs hw w _
  · exact Ends.pure hs
  next hconst hneg =>
    have hvalue : s.constValue? a = none := by
      unfold constValue?
      split
      next w v hshape => exact (hconst w v hshape).elim
      next => rfl
    exact intern hs hw (by simpa [Term.Shape.children] using ⟨u, hu⟩) ⟨hvalue, hneg⟩

theorem bvGe (a b : Term) : Normalizes s (Store.bvGe a b) := by
  refine read_bind hs fun w hchk => ?_
  obtain ⟨⟨u, hu, -⟩, ⟨v, hv, -⟩⟩ := checkSameWidth_eq_ok hchk
  split
  · exact Ends.pure hs
  next hne =>
    refine look_bind ?_
    split
    · exact Ends.pure hs
    · exact Ends.pure hs
    next hvalues hzero =>
      have hconst := none_or_none hvalues
      refine intern hs hw (forall_mem_pair ⟨u, hu⟩ ⟨v, hv⟩) ⟨hne, hconst, fun h => ?_⟩
      refine hzero ?_
      rw [h] at hconst ⊢
      rw [hconst.resolve_right nofun]

theorem bvSge (a b : Term) : Normalizes s (Store.bvSge a b) := by
  refine read_bind hs fun w hchk => ?_
  obtain ⟨⟨u, hu, -⟩, hb⟩ := checkSameWidth_eq_ok hchk
  obtain ⟨v, hv, hwidth⟩ := id hb
  -- the width of a constant is that of its type
  have hval {w' n : Nat} (hshape : s.shape b = .bvConst w' n) : s.constValue? b = some n ∧
      w' = w := by
    refine ⟨by unfold constValue?; rw [hshape], ?_⟩
    have hnode := hv.node
    rw [hshape] at hnode
    have htype := (hw.typed hnode).1
    rw [hwidth] at htype
    cases htype
    rfl
  split
  · exact Ends.pure hs
  next hne =>
    refine look_bind ?_
    split
    · exact Ends.pure hs
    next y hvalues =>
      obtain ⟨ha, hy⟩ := Prod.mk.inj hvalues
      split
      · exact Ends.pure hs
      next hsign =>
        refine intern hs hw (forall_mem_pair ⟨u, hu⟩ ⟨v, hv⟩)
          ⟨hne, .inl ha, fun w' n hshape heq => hsign ?_⟩
        obtain ⟨hn, rfl⟩ := hval hshape
        exact (Option.some.inj (hy.symm.trans hn)).trans heq
    next hboth hright =>
      have hconst := none_or_none hboth
      have hb : s.constValue? b = none := by
        cases hb : s.constValue? b with
        | none => rfl
        | some y =>
          rw [hb] at hconst
          exact (hright y (by rw [hb, hconst.resolve_right nofun])).elim
      refine intern hs hw (forall_mem_pair ⟨u, hu⟩ ⟨v, hv⟩) ⟨hne, hconst, fun w' n hshape => ?_⟩
      have hn := (hval hshape).1
      rw [hb] at hn
      cases hn

theorem bit (x : Term) (i : Nat) : Normalizes s (Store.bit x i) := by
  refine read_bind hs fun w hchk => ?_
  obtain ⟨u, hu, -⟩ := checkBv_eq_ok hchk
  split
  · exact Ends.throw hs
  · refine look_bind ?_
    split
    · exact Ends.pure hs
    next hvalue => exact intern hs hw (by simpa [Term.Shape.children] using ⟨u, hu⟩) hvalue

/-! ### Atoms -/

/-- A constant or a variable with a new serial number. -/
theorem fresh (ty : Ty) {mk : Nat → Term.Shape} (hparts : ∀ n, (mk n).children = [])
    (hmk : ∀ s n, Normal s (mk n) ty) :
    Normalizes s (do Store.read (·.checkTy ty); Store.intern (mk (← freshSerial)) ty) := by
  refine read_bind hs fun _ _ => ?_
  have hs₁ : Normalized { s with termSerial := s.termSerial + 1 } := hs.of_terms rfl
  exact hs₁.intern hw.freshSerial.wf (by simp [hparts]) (hmk _ _)

end Normalizes

/-- Whatever is built, and whether it is refused or not, the store stays normal. -/
theorem constructors_normal : Constructors (fun s => s.Wf ∧ s.Normalized) fun s s' =>
      Later s s' ∧ s'.Normalized where
  refl h := ⟨later_frame.refl h.1, h.2⟩
  trans h h' := ⟨later_frame.trans h.1 h'.1, h'.2⟩
  stable _ h := ⟨h.1.wf, h.2⟩
  or args := Normalizes.moves (fun _ hw hs => .or hs hw args) (or_moves args)
  xor2 a b := Normalizes.moves (fun _ hw hs => .xor2 hs hw a b) (xor2_moves a b)
  ite c a b := Normalizes.moves (fun _ hw hs => .ite hs hw c a b) (ite_moves c a b)
  eq a b := Normalizes.moves (fun _ hw hs => .eq hs hw a b) (eq_moves a b)
  app f args := Normalizes.moves (fun _ hw hs => .app hs hw f args) (app_moves f args)
  all vars body := Normalizes.moves (fun _ hw hs => .all hs hw vars body) (all_moves vars body)
  bvSum args := Normalizes.moves (fun _ hw hs => .bvSum hs hw args) (bvSum_moves args)
  bvProduct args := Normalizes.moves (fun _ hw hs => .bvProduct hs hw args) (bvProduct_moves args)
  bvNeg a := Normalizes.moves (fun _ hw hs => .bvNeg hs hw a) (bvNeg_moves a)
  bvGe a b := Normalizes.moves (fun _ hw hs => .bvGe hs hw a b) (bvGe_moves a b)
  bvSge a b := Normalizes.moves (fun _ hw hs => .bvSge hs hw a b) (bvSge_moves a b)
  bit x i := Normalizes.moves (fun _ hw hs => .bit hs hw x i) (bit_moves x i)
  bvType w := Normalizes.moves (fun _ _ hs => .bvType hs w) (bvType_moves w)
  newSort := Normalizes.moves (fun _ _ hs => hs.of_terms rfl)
    (built_newSort.mono fun _ _ _ h => h.later)
  functionType domain range := by
    refine Normalizes.moves (fun s _ hs => ?_) ((built_functionType domain range).mono
      fun _ _ _ h => h.later)
    unfold functionType
    split
    · exact Ends.throw hs
    · exact Normalizes.read_bind hs fun _ _ => hs.of_terms rfl
  newConst ty := Normalizes.moves (fun _ hw hs => .fresh hs hw ty (fun _ => rfl) fun _ _ => trivial)
    (newConst_moves ty)
  newVar ty := Normalizes.moves (fun _ hw hs => .fresh hs hw ty (fun _ => rfl) fun _ _ => trivial)
    (newVar_moves ty)
  and args := Normalizes.moves (fun _ hw hs => .and hs hw args) (and_moves args)
  bvConst w n := Normalizes.moves (fun _ hw hs => .bvConst hs hw w n) (bvConst_moves w n)

/-! ## Runs -/

theorem normalized_empty : Normalized .empty := by
  intro i shape ty hi
  rcases Arena.get?_intern hi with heq | hi
  · cases heq
    trivial
  · simp at hi

/-- A collection keeps the parts of what it keeps. -/
theorem Normalized.collect (h : s.Normalized) (hs : s.Intact) (roots : List Term)
    (tyRoots : List Ty) (keepNamed : Bool) : (s.collect roots tyRoots keepNamed).2.Normalized := by
  have hc := hs.collected roots tyRoots keepNamed
  intro i shape ty hi
  obtain ⟨hi, hneeded⟩ := hc.terms.mp hi
  refine (h hi).congr fun c hchild => ?_
  obtain ⟨u, ⟨sh, hn⟩, -⟩ := (hs.wf.typed hi).live hchild
  have hn' : (s.collect roots tyRoots keepNamed).2.node? c = some (sh, u) :=
    hc.terms.mpr ⟨hn, hneeded.child ⟨_, _, c, hi, hchild, rfl⟩⟩
  rw [shape_of_node hn, shape_of_node hn']

theorem Reached.normalized (h : Reached s) : s.Normalized := by
  induction h with
  | empty => exact normalized_empty
  | build hreached hop ih => exact (constructors_normal.moves hop _ ⟨hreached.intact.wf, ih⟩).2
  | record _ hop ih => exact ih.of_terms (hop.moves _ trivial).terms
  | collect hreached roots tyRoots keepNamed ih =>
    exact ih.collect hreached.intact roots tyRoots keepNamed

/-- However a store was used, each of its nodes is typed, has the only type that its shape allows,
negates formulas only and is normal. -/
theorem normal_of_reached (h : Reached s) (hn : s.node? t = some (shape, ty)) :
    s.Typed shape ty ∧ (∀ ty', s.Typed shape ty' → ty' = ty) ∧
      (∀ c ∈ shape.children, c.isNegated = true → s.ty c = .bool) ∧ s.Normal shape ty := by
  have hw := h.intact.wf
  have htyped := hw.typed hn
  refine ⟨htyped, fun ty' hty' => hw.typed_unique hty' htyped, fun c hc hneg => ?_, h.normalized hn⟩
  obtain ⟨u, hu⟩ := htyped.live hc
  rw [hu.ty_eq, hu.2 hneg]

/-- A constant of 8 bits, another one with 3, and the sum of the first with these. -/
def summed : Store :=
  let s := endState (bvType 8 .empty)
  let s := endState (newConst ⟨1⟩ s)
  let s := endState (newConst ⟨1⟩ s)
  let s := endState (bvConst 8 3 s)
  let s := endState (bvSum [.ofIndex 4, .ofIndex 3] s)
  endState (bvSum [.ofIndex 5, .ofIndex 2, .ofIndex 4] s)

theorem reached_summed : Reached summed := by
  have h₁ := (Reached.empty.build (.bvType 8)).build (.newConst ⟨1⟩)
  have h₂ := (h₁.build (.newConst ⟨1⟩)).build (.bvConst 8 3)
  exact (h₂.build (.bvSum [.ofIndex 4, .ofIndex 3])).build
    (.bvSum [.ofIndex 5, .ofIndex 2, .ofIndex 4])

/-- The inner sum is flattened, and its constant is added to the other one. -/
theorem normal_summed :
    let sum : Term.Shape := .bvSum [.ofIndex 2, .ofIndex 3, .ofIndex 6]
    Reached summed ∧ summed.node? (.ofIndex 7) = some (sum, ⟨1⟩) ∧ summed.Typed sum ⟨1⟩ ∧
      (∀ ty', summed.Typed sum ty' → ty' = ⟨1⟩) ∧
      (∀ c ∈ sum.children, c.isNegated = true → summed.ty c = .bool) ∧ summed.Normal sum ⟨1⟩ := by
  have hn : summed.node? (.ofIndex 7) = some (.bvSum [.ofIndex 2, .ofIndex 3, .ofIndex 6],
    ⟨1⟩) := by cbv
  exact ⟨reached_summed, hn, normal_of_reached reached_summed hn⟩

end Store
end Entail
