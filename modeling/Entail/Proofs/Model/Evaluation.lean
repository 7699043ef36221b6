import Entail.Model
import Entail.Proofs.Store.Words
import Mathlib.Data.Nat.Find

/-!
# Evaluation of terms

Evaluation remembers the values of terms it has met, and its nesting is bounded. Here it is set
against plain rules for the value of a term, which know neither a memory nor a bound. The two agree
in every model: an evaluation that follows the rules never comes back to a term it is in the middle
of, not even through definitions, so the number of slots is deep enough. In a model whose values are
of their types, so is the value of every term.
-/

namespace Entail.Model

/-- The value of the positive term `p` with a given shape, where `val` says which values its parts
have. The disjuncts after the first true one and the branch that is not taken need no values. -/
inductive NodeValue (m : Model) (s : Store) (val : Term → Value → Prop) (p : Term) :
    Term.Shape → Value → Prop where
  | truth : NodeValue m s val p .truth (.bool true)
  | bvConst {w n : Nat} : NodeValue m s val p (.bvConst w n) (.bv w n)
  | valued {ty : Ty} {n : Nat} {v : Value} (h : m.values[p]? = some v) :
    NodeValue m s val p (.uninterpreted ty n) v
  | defined {ty : Ty} {n : Nat} {d : Term} {v : Value} (h : m.values[p]? = none)
    (hd : m.definitions[p]? = some d)
    (hv : val d v) : NodeValue m s val p (.uninterpreted ty n) v
  | ite {c a b : Term} {x : Bool} {v : Value} (hc : val c (.bool x))
    (hv : val (if x then a else b) v) :
    NodeValue m s val p (.ite c a b) v
  | eq {a b : Term} {x y : Value} (ha : val a x) (hb : val b y) :
    NodeValue m s val p (.eq a b) (.bool (x == y))
  | orTrue {before after : List Term} {a : Term} (hbefore : ∀ b ∈ before, val b (.bool false))
    (ha : val a (.bool true)) : NodeValue m s val p (.or (before ++ a :: after)) (.bool true)
  | orFalse {args : List Term} (hargs : ∀ a ∈ args, val a (.bool false)) :
    NodeValue m s val p (.or args) (.bool false)
  | xor {a b : Term} {x y : Bool} (ha : val a (.bool x)) (hb : val b (.bool y)) :
    NodeValue m s val p (.xor a b) (.bool (x != y))
  | app {f : Term} {args : List Term} {vs : List Value} (hargs : List.Forall₂ val args vs) :
    NodeValue m s val p (.app f args) (((m.functions.getD f ∅)[vs]?).getD (.default s (s.ty p)))
  | bit {x : Term} {i w n : Nat} (hx : val x (.bv w n)) :
    NodeValue m s val p (.bit x i) (.bool (n.testBit i))
  | bvGe {a b : Term} {w w' x y : Nat} (ha : val a (.bv w x)) (hb : val b (.bv w' y)) :
    NodeValue m s val p (.bvGe a b) (.bool (x ≥ y))
  | bvSge {a b : Term} {w w' x y : Nat} (ha : val a (.bv w x)) (hb : val b (.bv w' y)) :
    NodeValue m s val p (.bvSge a b) (.bool (Bits.signed w x ≥ Bits.signed w y))
  | bvNeg {x : Term} {w n : Nat} (hx : val x (.bv w n)) :
    NodeValue m s val p (.bvNeg x) (.bv w (Bits.neg w n))
  | bvSum {args : List Term} {w : Nat} {ns : List Nat} (hw : s.width? p = some w)
    (hargs : List.Forall₂ (fun a n => ∃ w', val a (.bv w' n)) args ns) :
    NodeValue m s val p (.bvSum args) (.bv w (Bits.trunc w (WordOp.add.fold ns)))
  | bvProduct {args : List Term} {w : Nat} {ns : List Nat} (hw : s.width? p = some w)
    (hargs : List.Forall₂ (fun a n => ∃ w', val a (.bv w' n)) args ns) :
    NodeValue m s val p (.bvProduct args) (.bv w (Bits.trunc w (WordOp.mul.fold ns)))

/-- `t` has the value `v` by rules that are nested less than `depth` deep. -/
def ValueAt (m : Model) (s : Store) : (depth : Nat) → Term → Value → Prop
  | 0, _, _ => False
  | depth + 1, t, v =>
    ∃ shape v₀, s.shape? t = some shape ∧ NodeValue m s (m.ValueAt s depth) t.positive shape v₀ ∧
    withPolarity t v₀ = .ok v

/-- `t` has the value `v`. -/
def Evaluates (m : Model) (s : Store) (t : Term) (v : Value) : Prop :=
  ∃ depth, m.ValueAt s depth t v

variable {m : Model} {s s' : Store} {val val' : Term → Value → Prop} {p t : Term}
  {shape : Term.Shape} {v v' : Value}

/-! ## The rules -/

/-- Only the values of the parts, and that of the definition of a constant, matter. -/
theorem NodeValue.imp_parts (h : NodeValue m s val p shape v)
    (hval : ∀ c, c ∈ shape.children ∨ shape.isUninterpreted = true ∧ m.definitions[p]? = some c →
      ∀ v, val c v → val' c v) :
    NodeValue m s val' p shape v := by
  have part {c : Term} (hc : c ∈ shape.children) {v : Value} (h : val c v) : val' c v :=
    hval c (.inl hc) v h
  have parts {β : Type} {R : β → Value → Prop} {args : List Term} {bs : List β} (hargs : ∀ a ∈ args,
    a ∈ shape.children)
      (h : List.Forall₂ (fun a b => ∃ v, R b v ∧ val a v) args bs) :
      List.Forall₂ (fun a b => ∃ v, R b v ∧ val' a v) args bs := by
    induction h with
    | nil => exact .nil
    | cons hab _ ih =>
      obtain ⟨v, hb, ha⟩ := hab
      exact .cons ⟨v, hb, part (hargs _ List.mem_cons_self) ha⟩
        (ih fun a ha => hargs a (List.mem_cons_of_mem _ ha))
  have words {args : List Term} {ns : List Nat} (hargs : ∀ a ∈ args, a ∈ shape.children)
      (h : List.Forall₂ (fun a n => ∃ w', val a (.bv w' n)) args ns) :
      List.Forall₂ (fun a n => ∃ w', val' a (.bv w' n)) args ns := by
    have h' := parts (R := fun n v => ∃ w', v = .bv w' n) hargs
      (h.imp fun a n ⟨w', ha⟩ => ⟨_, ⟨w', rfl⟩, ha⟩)
    refine h'.imp ?_
    rintro a n ⟨-, ⟨w', rfl⟩, ha⟩
    exact ⟨w', ha⟩
  cases h with
  | truth => exact .truth
  | bvConst => exact .bvConst
  | valued h => exact .valued h
  | defined h hd hv => exact .defined h hd (hval _ (.inr ⟨rfl, hd⟩) _ hv)
  | @ite c a b x v hc hv =>
    refine .ite (part (by simp [Term.Shape.children]) hc) (part ?_ hv)
    cases x <;> simp [Term.Shape.children]
  | eq ha hb =>
    exact .eq (part (by simp [Term.Shape.children]) ha) (part (by simp [Term.Shape.children]) hb)
  | @orTrue before after a hbefore ha =>
    refine .orTrue (fun b hb => part ?_ (hbefore b hb)) (part (by simp [Term.Shape.children]) ha)
    exact List.mem_append_left _ hb
  | orFalse hargs => exact .orFalse fun a ha => part ha (hargs a ha)
  | xor ha hb =>
    exact .xor (part (by simp [Term.Shape.children]) ha) (part (by simp [Term.Shape.children]) hb)
  | app hargs =>
    have h' := parts (R := fun u v => v = u) (fun a ha => List.mem_cons_of_mem _ ha)
      (hargs.imp fun a u ha => ⟨u, rfl, ha⟩)
    refine .app (h'.imp ?_)
    rintro a u ⟨_, rfl, ha⟩
    exact ha
  | bit hx => exact .bit (part (by simp [Term.Shape.children]) hx)
  | bvGe ha hb =>
    exact .bvGe (part (by simp [Term.Shape.children]) ha) (part (by simp [Term.Shape.children]) hb)
  | bvSge ha hb =>
    exact .bvSge (part (by simp [Term.Shape.children]) ha) (part (by simp [Term.Shape.children]) hb)
  | bvNeg hx => exact .bvNeg (part (by simp [Term.Shape.children]) hx)
  | bvSum hw hargs => exact .bvSum hw (words (fun a ha => ha) hargs)
  | bvProduct hw hargs => exact .bvProduct hw (words (fun a ha => ha) hargs)

/-- Only the values of the parts matter. -/
theorem NodeValue.imp (h : NodeValue m s val p shape v) (hval : ∀ c v, val c v → val' c v) :
    NodeValue m s val' p shape v := h.imp_parts fun c _ => hval c

/-- A disjunction that is true by one of its members is not false. -/
theorem not_all_false (hunique : Relator.RightUnique val) {before after : List Term} {a : Term}
    (ha : val a (.bool true)) (hargs : ∀ b ∈ before ++ a :: after, val b (.bool false)) :
    False := by
  have hfalse := hargs a (List.mem_append.mpr (.inr (List.mem_cons_self ..)))
  cases hunique ha hfalse

/-- When the values of the parts are unique, so is that of the node. -/
theorem NodeValue.unique (hunique : Relator.RightUnique val) (h : NodeValue m s val p shape v)
    (h' : NodeValue m s val p shape v') : v = v' := by
  have hword {a : Term} {w w' n n' : Nat} (h : val a (.bv w n)) (h' : val a (.bv w' n')) :
      w = w' ∧ n = n' := by
    cases hunique h h'
    exact ⟨rfl, rfl⟩
  have hnumber : Relator.RightUnique fun (a : Term) (n : Nat) => ∃ w', val a (.bv w' n) :=
    fun _ _ _ ⟨_, h⟩ ⟨_, h'⟩ => (hword h h').2
  cases h with
  | truth => cases h'; rfl
  | bvConst => cases h'; rfl
  | valued h =>
    cases h' with
    | valued h' => exact Option.some.inj (h.symm.trans h')
    | defined h' => rw [h] at h'; cases h'
  | defined h hd hv =>
    cases h' with
    | valued h' => rw [h] at h'; cases h'
    | defined h' hd' hv' =>
      obtain rfl := Option.some.inj (hd.symm.trans hd')
      exact hunique hv hv'
  | ite hc hv =>
    cases h' with
    | ite hc' hv' =>
      cases hunique hc hc'
      exact hunique hv hv'
  | eq ha hb =>
    cases h' with
    | eq ha' hb' => rw [hunique ha ha', hunique hb hb']
  | @orTrue before after a hbefore ha =>
    generalize hargs : before ++ a :: after = args at h'
    cases h' with
    | orTrue hbefore' ha' => rfl
    | orFalse hall => exact (not_all_false hunique ha (hargs ▸ hall)).elim
  | orFalse hall =>
    cases h' with
    | orTrue hbefore' ha' => exact (not_all_false hunique ha' hall).elim
    | orFalse hall' => rfl
  | xor ha hb =>
    cases h' with
    | xor ha' hb' =>
      cases hunique ha ha'
      cases hunique hb hb'
      rfl
  | app hargs =>
    cases h' with
    | app hargs' => rw [List.right_unique_forall₂' hunique hargs hargs']
  | bit hx =>
    cases h' with
    | bit hx' => rw [(hword hx hx').2]
  | bvGe ha hb =>
    cases h' with
    | bvGe ha' hb' => rw [(hword ha ha').2, (hword hb hb').2]
  | bvSge ha hb =>
    cases h' with
    | bvSge ha' hb' => rw [(hword ha ha').1, (hword ha ha').2, (hword hb hb').2]
  | bvNeg hx =>
    cases h' with
    | bvNeg hx' => rw [(hword hx hx').1, (hword hx hx').2]
  | bvSum hw hargs =>
    cases h' with
    | bvSum hw' hargs' =>
      obtain rfl := Option.some.inj (hw.symm.trans hw')
      rw [List.right_unique_forall₂' hnumber hargs hargs']
  | bvProduct hw hargs =>
    cases h' with
    | bvProduct hw' hargs' =>
      obtain rfl := Option.some.inj (hw.symm.trans hw')
      rw [List.right_unique_forall₂' hnumber hargs hargs']

theorem ValueAt.mono {d d' : Nat} (hle : d ≤ d') (h : m.ValueAt s d t v) : m.ValueAt s d' t v := by
  induction d generalizing d' t v with
  | zero => exact h.elim
  | succ d ih =>
    obtain ⟨d', rfl⟩ : ∃ k, d' = k + 1 := ⟨d' - 1, by omega⟩
    obtain ⟨shape, v₀, hshape, hnode, hv⟩ := h
    exact ⟨shape, v₀, hshape, hnode.imp fun _ _ => ih (by omega), hv⟩

theorem valueAt_unique (d : Nat) : Relator.RightUnique (m.ValueAt s d) := by
  induction d with
  | zero => exact fun _ _ _ h _ => h.elim
  | succ d ih =>
    rintro t v v' ⟨shape, v₀, hshape, hnode, hv⟩ ⟨shape', v₀', hshape', hnode', hv'⟩
    obtain rfl := Option.some.inj (hshape.symm.trans hshape')
    obtain rfl := hnode.unique ih hnode'
    exact Except.ok.inj (hv.symm.trans hv')

/-- A term has one value at most. -/
theorem Evaluates.unique (h : m.Evaluates s t v) (h' : m.Evaluates s t v') : v = v' := by
  obtain ⟨d, h⟩ := h
  obtain ⟨d', h'⟩ := h'
  exact valueAt_unique (max d d') (h.mono (le_max_left ..)) (h'.mono (le_max_right ..))

/-- Finitely many parts have their values at a common depth. -/
theorem exists_depth {α : Type} {R : α → Value → Prop} {as : List Term} {bs : List α}
    (h : List.Forall₂ (fun a b => ∃ v, R b v ∧ m.Evaluates s a v) as bs) :
    ∃ d, List.Forall₂ (fun a b => ∃ v, R b v ∧ m.ValueAt s d a v) as bs := by
  induction h with
  | nil => exact ⟨0, .nil⟩
  | cons hab _ ih =>
    obtain ⟨v, hv, d, ha⟩ := hab
    obtain ⟨d', has⟩ := ih
    exact ⟨max d d', .cons ⟨v, hv, ha.mono (le_max_left ..)⟩
      (has.imp fun _ _ ⟨u, hu, h⟩ => ⟨u, hu, h.mono (le_max_right ..)⟩)⟩

theorem exists_depth_of_forall {as : List Term} (h : ∀ a ∈ as, m.Evaluates s a v) :
    ∃ d, ∀ a ∈ as, m.ValueAt s d a v := by
  have hsame : List.Forall₂ (fun a b => ∃ u, u = b ∧ m.Evaluates s a u) as
      (List.replicate as.length v) := by
    induction as with
    | nil => exact .nil
    | cons a as ih =>
      exact .cons ⟨v, rfl, h a (List.mem_cons_self ..)⟩
        (ih fun b hb => h b (List.mem_cons_of_mem _ hb))
  obtain ⟨d, hd⟩ := exists_depth (R := fun b u => u = b) hsame
  refine ⟨d, fun a ha => ?_⟩
  obtain ⟨i, hi, rfl⟩ := List.getElem_of_mem ha
  obtain ⟨u, hu, hval⟩ := hd.get hi (by simpa using hi)
  rw [List.get_eq_getElem, List.getElem_replicate] at hu
  exact hu ▸ hval

theorem exists_depth_words {as : List Term} {ns : List Nat}
    (h : List.Forall₂ (fun a n => ∃ w, m.Evaluates s a (.bv w n)) as ns) :
    ∃ d, List.Forall₂ (fun a n => ∃ w, m.ValueAt s d a (.bv w n)) as ns := by
  obtain ⟨d, hd⟩ := exists_depth (R := fun n v => ∃ w, v = .bv w n)
    (h.imp fun a n ⟨w, hw⟩ => ⟨.bv w n, ⟨w, rfl⟩, hw⟩)
  refine ⟨d, hd.imp ?_⟩
  rintro a n ⟨-, ⟨w, rfl⟩, hval⟩
  exact ⟨w, hval⟩

/-- The value of a node needs a finite depth. -/
theorem NodeValue.exists_depth (h : NodeValue m s (m.Evaluates s) p shape v) :
    ∃ d, NodeValue m s (m.ValueAt s d) p shape v := by
  cases h with
  | truth => exact ⟨0, .truth⟩
  | bvConst => exact ⟨0, .bvConst⟩
  | valued h => exact ⟨0, .valued h⟩
  | defined h hd hv =>
    obtain ⟨d, hv⟩ := hv
    exact ⟨d, .defined h hd hv⟩
  | ite hc hv =>
    obtain ⟨d, hc⟩ := hc
    obtain ⟨d', hv⟩ := hv
    exact ⟨max d d', .ite (hc.mono (le_max_left ..)) (hv.mono (le_max_right ..))⟩
  | eq ha hb =>
    obtain ⟨d, ha⟩ := ha
    obtain ⟨d', hb⟩ := hb
    exact ⟨max d d', .eq (ha.mono (le_max_left ..)) (hb.mono (le_max_right ..))⟩
  | orTrue hbefore ha =>
    obtain ⟨d, hbefore⟩ := exists_depth_of_forall hbefore
    obtain ⟨d', ha⟩ := ha
    exact ⟨max d d', .orTrue (fun b hb => (hbefore b hb).mono (le_max_left ..))
      (ha.mono (le_max_right ..))⟩
  | orFalse hargs =>
    obtain ⟨d, hargs⟩ := exists_depth_of_forall hargs
    exact ⟨d, .orFalse hargs⟩
  | xor ha hb =>
    obtain ⟨d, ha⟩ := ha
    obtain ⟨d', hb⟩ := hb
    exact ⟨max d d', .xor (ha.mono (le_max_left ..)) (hb.mono (le_max_right ..))⟩
  | app hargs =>
    obtain ⟨d, hargs⟩ := Model.exists_depth (R := fun b u => u = b)
      (hargs.imp fun a u hu => ⟨u, rfl, hu⟩)
    refine ⟨d, .app (hargs.imp ?_)⟩
    rintro a b ⟨u, rfl, hval⟩
    exact hval
  | bit hx =>
    obtain ⟨d, hx⟩ := hx
    exact ⟨d, .bit hx⟩
  | bvGe ha hb =>
    obtain ⟨d, ha⟩ := ha
    obtain ⟨d', hb⟩ := hb
    exact ⟨max d d', .bvGe (ha.mono (le_max_left ..)) (hb.mono (le_max_right ..))⟩
  | bvSge ha hb =>
    obtain ⟨d, ha⟩ := ha
    obtain ⟨d', hb⟩ := hb
    exact ⟨max d d', .bvSge (ha.mono (le_max_left ..)) (hb.mono (le_max_right ..))⟩
  | bvNeg hx =>
    obtain ⟨d, hx⟩ := hx
    exact ⟨d, .bvNeg hx⟩
  | bvSum hw hargs =>
    obtain ⟨d, hargs⟩ := exists_depth_words hargs
    exact ⟨d, .bvSum hw hargs⟩
  | bvProduct hw hargs =>
    obtain ⟨d, hargs⟩ := exists_depth_words hargs
    exact ⟨d, .bvProduct hw hargs⟩

/-- The value of a term from the values of its parts. -/
theorem evaluates_iff : m.Evaluates s t v ↔ ∃ shape v₀, s.shape? t = some shape ∧
    NodeValue m s (m.Evaluates s) t.positive shape v₀ ∧ withPolarity t v₀ = .ok v := by
  constructor
  · rintro ⟨d | d, h⟩
    · exact h.elim
    · obtain ⟨shape, v₀, hshape, hnode, hv⟩ := h
      exact ⟨shape, v₀, hshape, hnode.imp fun _ _ hc => ⟨d, hc⟩, hv⟩
  · rintro ⟨shape, v₀, hshape, hnode, hv⟩
    obtain ⟨d, hnode⟩ := hnode.exists_depth
    exact ⟨d + 1, shape, v₀, hshape, hnode, hv⟩

theorem shape?_positive (s : Store) (t : Term) : s.shape? t.positive = s.shape? t := by
  simp only [Store.shape?, Store.node?, Term.index_positive]

theorem positive_positive (t : Term) : t.positive.positive = t.positive :=
  Term.positive_of_not_isNegated (Term.isNegated_positive t)

/-- A positive term has the value of its node. -/
theorem withPolarity_positive (t : Term) (v : Value) : withPolarity t.positive v = .ok v := by
  simp [withPolarity]

/-- The value of an occurrence of a term comes from the value of the positive term. -/
theorem evaluates_iff_positive :
    m.Evaluates s t v ↔ ∃ v₀, m.Evaluates s t.positive v₀ ∧ withPolarity t v₀ = .ok v := by
  constructor
  · intro h
    obtain ⟨shape, v₀, hshape, hnode, hv⟩ := evaluates_iff.mp h
    refine ⟨v₀, evaluates_iff.mpr ⟨shape, v₀, ?_, ?_, withPolarity_positive t v₀⟩, hv⟩
    · rwa [shape?_positive]
    · rwa [positive_positive]
  · rintro ⟨v₀, h, hv⟩
    obtain ⟨shape, v₁, hshape, hnode, hv₁⟩ := evaluates_iff.mp h
    rw [withPolarity_positive] at hv₁
    cases hv₁
    rw [shape?_positive] at hshape
    rw [positive_positive] at hnode
    exact evaluates_iff.mpr ⟨shape, v₀, hshape, hnode, hv⟩

/-! ## The memory -/

/-- The memory holds values of positive terms. -/
def Remembers (m : Model) (s : Store) (memo : Std.HashMap Term Value) : Prop :=
  ∀ ⦃p v⦄, memo[p]? = some v → p.isNegated = false ∧ m.Evaluates s p v

/-- What `op` answers is as `Q` says, whatever it remembers. -/
def Returns {α : Type} (m : Model) (s : Store) (op : EvalOp α) (Q : α → Prop) : Prop :=
  ∀ ⦃memo⦄, m.Remembers s memo → ∀ ⦃a memo'⦄, op memo = .ok (a, memo') → Q a ∧ m.Remembers s memo'

/-- `op` answers `a`, whatever it remembers. -/
def Finishes {α : Type} (m : Model) (s : Store) (op : EvalOp α) (a : α) : Prop :=
  ∀ ⦃memo⦄, m.Remembers s memo → ∃ memo', op memo = .ok (a, memo') ∧ m.Remembers s memo'

theorem remembers_empty : m.Remembers s ∅ := fun p v h => by simp at h

theorem Remembers.insert {memo : Std.HashMap Term Value} (h : m.Remembers s memo)
    (hp : p.isNegated = false) (hv : m.Evaluates s p v) : m.Remembers s (memo.insert p v) := by
  intro q u hq
  rw [Std.HashMap.getElem?_insert] at hq
  split at hq
  · rename_i heq
    obtain rfl := eq_of_beq heq
    cases hq
    exact ⟨hp, hv⟩
  · exact h hq

section Memory

variable {α β : Type} {op : EvalOp α} {f : α → EvalOp β}

theorem Returns.pure {a : α} {Q : α → Prop} (h : Q a) : m.Returns s (pure a) Q := by
  intro memo hm a' memo' hrun
  cases hrun
  exact ⟨h, hm⟩

theorem Returns.throw {Q : α → Prop} (e : Failure) : m.Returns s (throw e : EvalOp α) Q := nofun

theorem Returns.bind {Q : α → Prop} {R : β → Prop} (h : m.Returns s op Q)
    (hf : ∀ a, Q a → m.Returns s (f a) R) :
    m.Returns s (op >>= f) R := by
  intro memo hm b memo' hrun
  obtain ⟨⟨a, mid⟩, ha, hb⟩ := Store.bind_eq_ok_iff.mp hrun
  obtain ⟨hQ, hmid⟩ := h hm ha
  exact hf a hQ hmid hb

theorem Returns.mapM {g : Term → EvalOp α} {P : Term → α → Prop} (h : ∀ t, m.Returns s (g t) (P t))
    (ts : List Term) :
    m.Returns s (ts.mapM g) (List.Forall₂ P ts) := by
  induction ts with
  | nil => exact .pure .nil
  | cons t ts ih =>
    rw [List.mapM_cons]
    exact .bind (h t) fun a ha => .bind ih fun as has => .pure (.cons ha has)

theorem Finishes.pure (a : α) : m.Finishes s (pure a) a := fun memo hm => ⟨memo, rfl, hm⟩

theorem Finishes.bind {a : α} {b : β} (h : m.Finishes s op a) (hf : m.Finishes s (f a) b) :
    m.Finishes s (op >>= f) b := by
  intro memo hm
  obtain ⟨mid, hrun, hmid⟩ := h hm
  obtain ⟨memo', hrun', hmemo'⟩ := hf hmid
  exact ⟨memo', Store.bind_eq_ok_iff.mpr ⟨(a, mid), hrun, hrun'⟩, hmemo'⟩

theorem Finishes.mapM {g : Term → EvalOp α} {ts : List Term} {as : List α}
    (h : List.Forall₂ (fun t a => m.Finishes s (g t) a) ts as) : m.Finishes s (ts.mapM g) as := by
  induction h with
  | nil => exact .pure _
  | cons ha _ ih =>
    rw [List.mapM_cons]
    exact .bind ha (.bind ih (.pure _))

end Memory

/-! ## What is answered -/

section Answers

variable {eval : Term → EvalOp Value}

theorem NodeValue.or_of_head {a : Term} {args : List Term} (ha : val a (.bool true)) :
    NodeValue m s val p (.or (a :: args)) (.bool true) := by
  have hnone : ∀ x ∈ ([] : List Term), val x (.bool false) := nofun
  exact .orTrue hnone ha

theorem NodeValue.or_cons {a : Term} {args : List Term} {b : Bool} (ha : val a (.bool false))
    (h : NodeValue m s val p (.or args) (.bool b)) :
    NodeValue m s val p (.or (a :: args)) (.bool b) := by
  cases h with
  | @orTrue before after c hbefore hc =>
    have hall : ∀ x ∈ a :: before, val x (.bool false) := fun x hx => by
      rcases List.mem_cons.mp hx with rfl | hx
      · exact ha
      · exact hbefore x hx
    exact .orTrue hall hc
  | orFalse hargs =>
    refine .orFalse fun x hx => ?_
    rcases List.mem_cons.mp hx with rfl | hx
    · exact ha
    · exact hargs x hx

/-- Words are multiplied one after the other, each product cut to its width. -/
theorem foldl_trunc_eq (w : Nat) (xs : List (Nat × Nat)) (n : Nat) :
    xs.foldl (fun acc x => Bits.trunc w (acc * x.2)) (Bits.trunc w n) =
      Bits.trunc w (n * WordOp.mul.fold (xs.map (·.2))) := by
  induction xs generalizing n with
  | nil => exact congrArg (Bits.trunc w) (Nat.mul_one n).symm
  | cons x xs ih =>
    have hstep : Bits.trunc w (Bits.trunc w n * x.2) = Bits.trunc w (n * x.2) :=
      Bits.trunc_eq_trunc ((Bits.trunc_modEq w n).mul_right x.2)
    have hfold : WordOp.mul.fold ((x :: xs).map (·.2)) = x.2 * WordOp.mul.fold (xs.map (·.2)) := rfl
    rw [List.foldl_cons, hstep, ih, hfold, Nat.mul_assoc]

/-- A product of words starts from one. -/
theorem foldl_trunc_one (w : Nat) (xs : List (Nat × Nat)) :
    xs.foldl (fun acc x => Bits.trunc w (acc * x.2)) (Bits.trunc w 1) =
      Bits.trunc w (WordOp.mul.fold (xs.map (·.2))) := by
  rw [foldl_trunc_eq, Nat.one_mul]

/-- What is answered for a node follows the rules. -/
theorem evalNode_returns (heval : ∀ t, m.Returns s (eval t) (m.Evaluates s t)) (p : Term) :
    m.Returns s (m.evalNode s eval p) fun v =>
      ∃ shape, s.shape? p = some shape ∧ NodeValue m s (m.Evaluates s) p shape v := by
  -- what the helpers answer, before the cases over the shapes
  have hbool (t : Term) : m.Returns s (evalBool eval t) fun b => m.Evaluates s t (.bool b) := by
    refine .bind (heval t) fun v hv => ?_
    split
    · exact .pure hv
    · exact .throw _
  have hword (t : Term) : m.Returns s (evalBv eval t) fun x => m.Evaluates s t (.bv x.1 x.2) := by
    refine .bind (heval t) fun v hv => ?_
    split
    · exact .pure hv
    · exact .throw _
  have hwords {args : List Term} {xs : List (Nat × Nat)}
      (h : List.Forall₂ (fun t x => m.Evaluates s t (.bv x.1 x.2)) args xs) :
      List.Forall₂ (fun a n => ∃ w, m.Evaluates s a (.bv w n)) args (xs.map (·.2)) :=
    List.forall₂_map_right_iff.mpr (h.imp fun _ x hx => ⟨x.1, hx⟩)
  have hany (args : List Term) : m.Returns s (evalAny eval args) fun b =>
      NodeValue m s (m.Evaluates s) p (.or args) (.bool b) := by
    induction args with
    | nil => exact .pure (.orFalse (by simp))
    | cons t ts ih =>
      refine .bind (hbool t) fun b hb => ?_
      cases b with
      | true => exact .pure (.or_of_head hb)
      | false => exact fun memo hm b memo' hrun => (ih hm hrun).imp_left (NodeValue.or_cons hb)
  unfold evalNode
  cases hshape : s.shape? p with
  | none => exact .throw _
  | some shape =>
    suffices h : ∀ {op : EvalOp Value}, m.Returns s op (NodeValue m s (m.Evaluates s) p shape) →
        m.Returns s op fun v =>
          ∃ shape', some shape = some shape' ∧ NodeValue m s (m.Evaluates s) p shape' v by
      cases shape with
      | truth => exact h (.pure .truth)
      | bvConst w n => exact h (.pure .bvConst)
      | uninterpreted ty n =>
        refine h ?_
        simp only
        split
        · rename_i v _ hvalue
          exact .pure (.valued hvalue)
        · rename_i d hvalue hdef
          exact fun memo hm v memo' hrun => ((heval d) hm hrun).imp_left (.defined hvalue hdef)
        · exact .throw _
      | var ty n => exact .throw _
      | all vars body => exact .throw _
      | ite c a b =>
        refine h (.bind (hbool c) fun x hx => ?_)
        cases x with
        | true =>
          exact fun memo hm v memo' hrun => ((heval a) hm hrun).imp_left fun ha => .ite hx ha
        | false =>
          exact fun memo hm v memo' hrun => ((heval b) hm hrun).imp_left fun hb => .ite hx hb
      | eq a b => exact h (.bind (heval a) fun x hx => .bind (heval b) fun y hy =>
        .pure (.eq hx hy))
      | or args => exact h (.bind (hany args) fun b hb => .pure hb)
      | xor a b => exact h (.bind (hbool a) fun x hx => .bind (hbool b) fun y hy =>
        .pure (.xor hx hy))
      | app f args => exact h (.bind (.mapM heval args) fun vs hvs => .pure (.app hvs))
      | bit x i => exact h (.bind (hword x) fun n hn => .pure (.bit hn))
      | bvGe a b => exact h (.bind (hword a) fun x hx => .bind (hword b) fun y hy =>
        .pure (.bvGe hx hy))
      | bvSge a b => exact h (.bind (hword a) fun x hx => .bind (hword b) fun y hy =>
        .pure (.bvSge hx hy))
      | bvNeg x => exact h (.bind (hword x) fun n hn => .pure (.bvNeg hn))
      | bvSum args =>
        refine h ?_
        simp only
        split
        · exact .throw _
        · rename_i w hw
          exact .bind (.mapM hword args) fun xs hxs => .pure (.bvSum hw (hwords hxs))
      | bvProduct args =>
        refine h ?_
        simp only
        split
        · exact .throw _
        · rename_i w hw
          refine .bind (.mapM hword args) fun xs hxs => .pure ?_
          rw [foldl_trunc_one]
          exact .bvProduct hw (hwords hxs)
    exact fun hop memo hm v memo' hrun => (hop hm hrun).imp_left fun hv => ⟨shape, rfl, hv⟩

/-- A value that follows the rules is answered, if the values of the parts are. -/
theorem evalNode_finishes {shape : Term.Shape} (hshape : s.shape? p = some shape)
    (heval : ∀ c v, val c v → m.Finishes s (eval c) v) (h : NodeValue m s val p shape v) :
    m.Finishes s (m.evalNode s eval p) v := by
  have hbool {t : Term} {b : Bool} (ht : val t (.bool b)) : m.Finishes s (evalBool eval t) b :=
    .bind (heval t _ ht) (.pure b)
  have hword {t : Term} {w n : Nat} (ht : val t (.bv w n)) : m.Finishes s (evalBv eval t) (w, n) :=
    .bind (heval t _ ht) (.pure _)
  have hwords {args : List Term} {ns : List Nat}
    (hargs : List.Forall₂ (fun a n => ∃ w, val a (.bv w n)) args ns) :
      ∃ xs : List (Nat × Nat), xs.map (·.2) = ns ∧ m.Finishes s (args.mapM (evalBv eval)) xs := by
    have hlist : ∃ xs : List (Nat × Nat), xs.map (·.2) = ns ∧
        List.Forall₂ (fun a x => m.Finishes s (evalBv eval a) x) args xs := by
      induction hargs with
      | nil => exact ⟨[], rfl, .nil⟩
      | @cons a n _ _ ha _ ih =>
        obtain ⟨w, ha⟩ := ha
        obtain ⟨xs, hmap, hxs⟩ := ih
        exact ⟨(w, n) :: xs, by rw [List.map_cons, hmap], .cons (hword ha) hxs⟩
    obtain ⟨xs, hmap, hxs⟩ := hlist
    exact ⟨xs, hmap, .mapM hxs⟩
  -- a disjunction stops at its first true member, so only the members before that have to end
  have hanyFalse {args : List Term} (hargs : ∀ a ∈ args, val a (.bool false)) :
      m.Finishes s (evalAny eval args) false := by
    induction args with
    | nil => exact .pure false
    | cons a args ih =>
      exact .bind (hbool (hargs a (List.mem_cons_self ..)))
        (ih fun b hb => hargs b (List.mem_cons_of_mem _ hb))
  have hanyTrue {before after : List Term} {a : Term} (hbefore : ∀ b ∈ before, val b (.bool false))
      (ha : val a (.bool true)) : m.Finishes s (evalAny eval (before ++ a :: after)) true := by
    induction before with
    | nil => exact .bind (hbool ha) (.pure true)
    | cons b before ih =>
      exact .bind (hbool (hbefore b (List.mem_cons_self ..)))
        (ih fun c hc => hbefore c (List.mem_cons_of_mem _ hc))
  unfold evalNode
  rw [hshape]
  cases h with
  | truth => exact .pure _
  | bvConst => exact .pure _
  | valued h =>
    simp only [h]
    exact .pure _
  | defined h hd hv =>
    simp only [h, hd]
    exact heval _ _ hv
  | @ite c a b x v hc hv =>
    refine .bind (hbool hc) ?_
    cases x with
    | true => exact heval _ _ hv
    | false => exact heval _ _ hv
  | eq ha hb => exact .bind (heval _ _ ha) (.bind (heval _ _ hb) (.pure _))
  | orTrue hbefore ha => exact .bind (hanyTrue hbefore ha) (.pure _)
  | orFalse hargs => exact .bind (hanyFalse hargs) (.pure _)
  | xor ha hb => exact .bind (hbool ha) (.bind (hbool hb) (.pure _))
  | app hargs => exact .bind (.mapM (hargs.imp heval)) (.pure _)
  | bit hx => exact .bind (hword hx) (.pure _)
  | bvGe ha hb => exact .bind (hword ha) (.bind (hword hb) (.pure _))
  | bvSge ha hb => exact .bind (hword ha) (.bind (hword hb) (.pure _))
  | bvNeg hx => exact .bind (hword hx) (.pure _)
  | bvSum hw hargs =>
    obtain ⟨xs, rfl, hxs⟩ := hwords hargs
    simp only [hw]
    exact .bind hxs (.pure _)
  | bvProduct hw hargs =>
    obtain ⟨xs, rfl, hxs⟩ := hwords hargs
    simp only [hw, ← foldl_trunc_one]
    exact .bind hxs (.pure _)

end Answers

/-! ## Evaluation -/

theorem evalAt_succ (depth : Nat) (t : Term) (memo : Std.HashMap Term Value) :
    m.evalAt s (depth + 1) t memo =
      match memo[t.positive]? with
      | some v => (withPolarity t v).map (·, memo)
      | none => m.evalNode s (m.evalAt s depth) t.positive memo >>= fun x =>
        (withPolarity t x.1).map (·, x.2.insert t.positive x.1) := by
  show (match memo[t.positive]? with
    | some v => liftM (withPolarity t v)
    | none => _ : EvalOp Value) memo = _
  cases memo[t.positive]? with
  | some v =>
    show (liftM (withPolarity t v) : EvalOp Value) memo = (withPolarity t v).map _
    cases withPolarity t v <;> rfl
  | none =>
    show (m.evalNode s (m.evalAt s depth) t.positive memo >>= _) = m.evalNode s
      (m.evalAt s depth) t.positive memo >>= _
    congr 1

theorem map_eq_ok {ε α β : Type} {x : Except ε α} {f : α → β} {b : β} :
    x.map f = .ok b ↔ ∃ a, x = .ok a ∧ f a = b := by
  cases x <;> simp [Except.map]

/-- What is answered follows the rules. -/
theorem evalAt_returns (depth : Nat) (t : Term) :
    m.Returns s (m.evalAt s depth t) (m.Evaluates s t) := by
  induction depth generalizing t with
  | zero => exact .throw _
  | succ depth ih =>
    intro memo hm v memo' hrun
    rw [evalAt_succ] at hrun
    split at hrun
    · rename_i v₀ hmemo
      obtain ⟨v, hv, heq⟩ := map_eq_ok.mp hrun
      cases heq
      exact ⟨evaluates_iff_positive.mpr ⟨v₀, (hm hmemo).2, hv⟩, hm⟩
    · obtain ⟨⟨v₀, mid⟩, hnode, hrest⟩ := Store.bind_eq_ok_iff.mp hrun
      obtain ⟨v, hv, heq⟩ := map_eq_ok.mp hrest
      cases heq
      obtain ⟨⟨shape, hshape, hvalue⟩, hmid⟩ := evalNode_returns ih t.positive hm hnode
      have hpos : m.Evaluates s t.positive v₀ :=
        evaluates_iff.mpr
          ⟨shape, v₀, hshape, by rwa [positive_positive], withPolarity_positive t v₀⟩
      exact ⟨evaluates_iff_positive.mpr ⟨v₀, hpos, hv⟩,
        hmid.insert (Term.isNegated_positive t) hpos⟩

/-- A rank below `n` for the numbers below `n`, in the order of `f`. -/
theorem exists_rank (f : Nat → Nat) (n : Nat) :
    ∃ rank : Nat → Nat, (∀ {i j}, j < n → f j < f i → rank j < rank i) ∧ ∀ {i}, i < n →
    rank i < n := by
  refine ⟨fun i => (List.range n).countP fun j => f j < f i, ?_, ?_⟩
  · intro i j hj hlt
    refine Store.countP_lt_countP (fun k _ hk => ?_)
      ⟨j, List.mem_range.mpr hj, by simpa using hlt, by simp⟩
    simp only [decide_eq_true_eq] at hk ⊢
    exact hk.trans hlt
  · intro i hi
    have hcount := Store.countP_lt_countP (p := fun j => decide (f j < f i)) (q := fun _ => true)
      (fun _ _ _ => rfl)
      ⟨i, List.mem_range.mpr hi, rfl, by simp⟩
    simpa using hcount

theorem lt_of_shape? {shape : Term.Shape} (h : s.shape? t = some shape) :
    t.index < s.terms.slots.size := by
  cases hn : s.node? t with
  | none => simp [Store.shape?, hn] at h
  | some n => exact Arena.lt_of_get? hn

open Classical in
/-- The least depth at which the term in slot `i` has a value. -/
noncomputable def level (m : Model) (s : Store) (i : Nat) : Nat :=
  if h : ∃ d v, m.ValueAt s d (.ofIndex i) v then Nat.find h else 0

/-- The parts of a term at its level are on a lower one. -/
theorem level_spec (h : m.Evaluates s t v) :
    ∃ d, m.level s t.index = d + 1 ∧ m.ValueAt s (d + 1) t v ∧ ∀ {c u}, m.ValueAt s d c u →
    m.level s c.index ≤ d := by
  classical
  have hslot {d : Nat} {c : Term} {u : Value} (hc : m.ValueAt s d c u) :
      ∃ u₀, m.ValueAt s d (.ofIndex c.index) u₀ ∧ withPolarity c u₀ = .ok u := by
    cases d with
    | zero => exact hc.elim
    | succ d =>
      obtain ⟨shape, u₀, hshape, hnode, hu⟩ := hc
      refine ⟨u₀, ⟨shape, u₀, ?_, ?_, withPolarity_positive c u₀⟩, hu⟩
      · rwa [← shape?_positive] at hshape
      · rw [← positive_positive] at hnode
        exact hnode
  have hle {d : Nat} {c : Term} {u : Value} (hc : m.ValueAt s d c u) : m.level s c.index ≤ d := by
    obtain ⟨u₀, hu₀, -⟩ := hslot hc
    have hex : ∃ d v, m.ValueAt s d (.ofIndex c.index) v := ⟨d, u₀, hu₀⟩
    rw [level, dif_pos hex]
    exact Nat.find_min' hex ⟨u₀, hu₀⟩
  obtain ⟨v₀, ⟨d, h₀⟩, hv⟩ := evaluates_iff_positive.mp h
  have hex : ∃ d v, m.ValueAt s d (.ofIndex t.index) v := ⟨d, v₀, h₀⟩
  obtain ⟨v₁, h₁⟩ := Nat.find_spec hex
  have hlevel : m.level s t.index = Nat.find hex := by rw [level, dif_pos hex]
  obtain rfl : v₁ = v₀ := Evaluates.unique ⟨_, h₁⟩ ⟨_, h₀⟩
  cases hd : Nat.find hex with
  | zero =>
    rw [hd] at h₁
    exact h₁.elim
  | succ d =>
    rw [hd] at h₁
    obtain ⟨shape, u, hshape, hnode, hu⟩ := h₁
    have hu : withPolarity t.positive u = .ok v₁ := hu
    rw [withPolarity_positive] at hu
    cases hu
    refine ⟨d, hlevel.trans hd, ⟨shape, v₁, ?_, ?_, hv⟩, hle⟩
    · rw [← shape?_positive]
      exact hshape
    · rw [← positive_positive]
      exact hnode

/-- A value that follows the rules is answered, if the nesting may be as deep as there are slots. -/
theorem evalAt_finishes (h : m.Evaluates s t v) :
    m.Finishes s (m.evalAt s (s.terms.slots.size + 1) t) v := by
  obtain ⟨rank, hrank, hbound⟩ := exists_rank (m.level s) s.terms.slots.size
  suffices hdepth : ∀ depth t v, m.Evaluates s t v → rank t.index < depth →
      m.Finishes s (m.evalAt s depth t) v by
    obtain ⟨shape, -, hshape, -⟩ := evaluates_iff.mp h
    exact hdepth _ t v h (Nat.lt_succ_of_lt (hbound (lt_of_shape? hshape)))
  intro depth
  induction depth with
  | zero => exact fun t v _ hlt => absurd hlt (Nat.not_lt_zero _)
  | succ depth ih =>
    intro t v h hlt memo hm
    rw [evalAt_succ]
    obtain ⟨v₀, hpos, hv⟩ := evaluates_iff_positive.mp h
    split
    · rename_i v₁ hmemo
      obtain rfl := (hm hmemo).2.unique hpos
      exact ⟨memo, by rw [hv]; rfl, hm⟩
    · obtain ⟨d, hlevel, ⟨shape, v₁, hshape, hnode, hv₁⟩, hparts⟩ := level_spec hpos
      rw [withPolarity_positive] at hv₁
      cases hv₁
      rw [positive_positive] at hnode
      rw [Term.index_positive] at hlevel
      -- the parts are on lower levels, so their ranks are smaller
      have hfinish (c : Term) (u : Value) (hc : m.ValueAt s d c u) :
          m.Finishes s (m.evalAt s depth c) u := by
        obtain ⟨_, _, hlive, -⟩ := evaluates_iff.mp ⟨d, hc⟩
        have hlower : m.level s c.index < m.level s t.index :=
          hlevel ▸ Nat.lt_succ_of_le (hparts hc)
        have hless := hrank (lt_of_shape? hlive) hlower
        exact ih c u ⟨d, hc⟩ (hless.trans_le (Nat.le_of_lt_succ hlt))
      obtain ⟨mid, hrun, hmid⟩ := evalNode_finishes hshape hfinish hnode hm
      refine ⟨mid.insert t.positive v₀, ?_, hmid.insert (Term.isNegated_positive t) hpos⟩
      rw [hrun]
      show (withPolarity t v₀).map _ = _
      rw [hv]
      rfl

/-- Evaluation answers exactly what the rules say of valid terms. -/
theorem eval_eq_ok_iff : m.eval s t = .ok v ↔ s.isValid t = true ∧ m.Evaluates s t v := by
  unfold eval Store.check
  by_cases hvalid : s.isValid t = true
  · rw [if_pos hvalid]
    simp only [hvalid, true_and]
    constructor
    · intro hrun
      obtain ⟨⟨u, memo⟩, heval, heq⟩ := Store.bind_eq_ok_iff.mp
        (show (m.evalAt s (s.terms.slots.size + 1) t ∅ >>= fun x => .ok x.1) = _ from hrun)
      cases heq
      exact (evalAt_returns _ t remembers_empty heval).1
    · intro h
      obtain ⟨memo, hrun, -⟩ := evalAt_finishes h remembers_empty
      exact Store.bind_eq_ok_iff.mpr ⟨(v, memo), hrun, rfl⟩
  · simp [hvalid]

end Entail.Model
