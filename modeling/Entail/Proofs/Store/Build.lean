import Entail.Proofs.Valuations

/-!
# What the constructors build

Every constructor of terms only extends a well-formed store. What it answers has the type and the
meaning that its name says, whatever was simplified on the way: in every valuation, and so in every
interpretation.
-/

namespace Entail

namespace Store

variable {s s' : Store} {α β : Type}

/-- From `s`, `op` only extends the store, and what it answers is as `Q` says. -/
def Builds (s : Store) (op : Op α) (Q : α → Store → Prop) : Prop :=
  Ends op s (fun a s' => Later s s' ∧ Q a s') (Later s)

/-- `t` is a term of type `ty`. A valuation that gives values to the terms `args` gives `t`
the value `m`. -/
structure Stands (s : Store) (args : List Term) (t : Term) (ty : Ty)
    (m : (elems : Ty → Type) → (Term → Val elems) → Val elems) : Prop where
  has : s.Has t ty
  defined : ∀ {elems : Ty → Type} {V : Valuation elems}, V.Lawful s → (∀ a ∈ args, V.defined a) →
    V.defined t
  value : ∀ {elems : Ty → Type} {V : Valuation elems}, V.Lawful s → (∀ a ∈ args, V.defined a) →
    V.value t = m elems V.value

/-- A valuation that gives a value to `t` gives values to the terms `args`. -/
def Needs (s : Store) (args : List Term) (t : Term) : Prop :=
  ∀ ⦃elems : Ty → Type⦄ ⦃V : Valuation elems⦄, V.Lawful s → V.defined t → ∀ a ∈ args, V.defined a

/-- `t` is a term of type `ty` with the meaning `m`, and needs no variables that the terms `args`
do not need. -/
structure Denotes (s : Store) (args : List Term) (t : Term) (ty : Ty)
    (m : (I : Interp) → I.Env → Val I.elems) :
    Prop where
  has : s.Has t ty
  closed : ∀ vs, (∀ a ∈ args, s.FirstOrder vs a) → s.FirstOrder vs t
  value : ∀ (I : Interp) (ρ : I.Env), I.Fits s → I.EnvFits s ρ → I.value s ρ t = m I ρ

namespace Builds

variable {op : Op α} {f : α → Op β} {P Q : α → Store → Prop} {R : β → Store → Prop}

/-- What an answer satisfies may be weakened, with the store it left known to be later. -/
theorem mono (h : Builds s op P) (hPQ : ∀ a s', Later s s' → P a s' → Q a s') : Builds s op Q :=
  Ends.mono h (fun a s' ha => ⟨ha.1, hPQ a s' ha.1 ha.2⟩) fun _ => id

theorem pure (h : s.Wf) {a : α} (ha : Q a s) : Builds s (pure a) Q := ⟨later_frame.refl h, ha⟩

theorem throw (h : s.Wf) (e : TermError) : Builds s (throw e) Q := later_frame.refl h

/-- One constructor after another: the second starts where the first stopped, and only extends
that. -/
theorem bind (h : Builds s op P) (hf : ∀ a s', Later s s' → P a s' → Builds s' (f a) R) :
    Builds s (op >>= f) R := by
  refine Ends.bind (Ends.mono h ?_ fun _ => id)
  rintro a s' ⟨hs, ha⟩
  exact Ends.mono (hf a s' hs ha) (fun b s'' hb => ⟨later_frame.trans hs hb.1, hb.2⟩)
    fun s'' hs' => later_frame.trans hs hs'

/-- A check that stores nothing: its answer is what the check says of the store as it is. -/
theorem read (h : s.Wf) {g : Store → Except TermError α} (hg : ∀ a, g s = .ok a → Q a s) :
    Builds s (Store.read g) Q := by
  unfold Builds Ends Store.read
  cases hgs : g s with
  | ok a => exact ⟨later_frame.refl h, hg a hgs⟩
  | error e => exact later_frame.refl h

/-- The common start of the constructors: a check, and then the rest from the same store. -/
theorem read_bind (h : s.Wf) {g : Store → Except TermError α}
    (hg : ∀ a, g s = .ok a → Builds s (f a) R) :
    Builds s (Store.read g >>= f) R := by
  refine Ends.bind ?_
  unfold Ends Store.read
  cases hgs : g s with
  | ok a => exact hg a hgs
  | error e => exact later_frame.refl h

theorem look_bind {g : Store → α} (hg : Builds s (f (g s)) R) : Builds s (Store.look g >>= f) R :=
  hg

theorem map (h : Builds s op P) {g : α → β} (hg : ∀ a s', Later s s' → P a s' → R (g a) s') :
    Builds s (g <$> op) R := by
  rw [← bind_pure_comp]
  exact bind h fun a s' hs ha => pure hs.wf (hg a s' hs ha)

/-- A constructor that builds from every well-formed store is a move along the stores. -/
theorem moves {Q : Store → α → Store → Prop} (h : ∀ s : Store, s.Wf → Builds s op (Q s)) :
    Moves Wf Later op :=
  fun s hs => Ends.endState (Ends.mono (h s hs) (fun _ _ ha => ha.1) fun _ => id)

/-- Looking a shape up or storing it answers a positive term with that node, provided the shape is
well-typed and stands above its parts. -/
theorem intern (h : s.Wf) (shape : Term.Shape) (ty : Ty) (ht : s.Typed shape ty)
    (hlive : ∃ tyShape, s.tyShape? ty = some tyShape) (hser : SerialBelow s.termSerial shape)
    {Q : Term → Store → Prop}
    (hQ : ∀ t s', Later s s' → t.isNegated = false → s'.node? t = some (shape, ty) → Q t s') :
    Builds s (Store.intern shape ty) Q := by
  obtain ⟨i, s', heq, hs, hi⟩ := intern_spec h ht hlive hser
  unfold Builds Ends
  rw [heq]
  refine ⟨hs, hQ _ _ hs (Term.isNegated_ofIndex i) ?_⟩
  unfold node?
  rwa [Term.index_ofIndex]

end Builds

/-! ## Checks -/

/-- A handle is accepted where the term it names has a type. -/
theorem isValid_iff {t : Term} : s.isValid t = true ↔ ∃ ty, s.Has t ty := by
  unfold isValid Has
  cases hn : s.node? t with
  | none => simp
  | some n =>
    obtain ⟨shape, ty⟩ := n
    cases t.isNegated <;> simp

theorem typeOf_eq_ok {t : Term} {ty : Ty} : s.typeOf t = .ok ty ↔ s.Has t ty := by
  delta typeOf check
  cases hv : s.isValid t with
  | false =>
    have hno : ¬ s.Has t ty := fun h => by
      rw [isValid_iff.mpr ⟨ty, h⟩] at hv
      cases hv
    exact iff_of_false nofun hno
  | true =>
    obtain ⟨ty', h⟩ := isValid_iff.mp hv
    have hty : s.ty t = ty' := h.ty_eq
    exact ⟨fun heq => Except.ok.inj heq ▸ hty ▸ h, fun h' => congrArg Except.ok
      (hty.trans (h.unique h'))⟩

/-- A handle that passes its check names a term that has a type. -/
theorem check_eq_ok {t : Term} (h : s.check t = .ok ()) : ∃ ty, s.Has t ty := by
  unfold check at h
  split at h
  next hv => exact isValid_iff.mp hv
  next => cases h

theorem bind_eq_ok_iff {ε α β : Type} {x : Except ε α} {f : α → Except ε β} {b : β} :
    (x >>= f) = .ok b ↔ ∃ a, x = .ok a ∧ f a = .ok b := by
  cases x with
  | ok a => exact ⟨fun h => ⟨a, rfl, h⟩, fun ⟨_, ha, h⟩ => Except.ok.inj ha ▸ h⟩
  | error e => exact ⟨nofun, nofun⟩

theorem guard_eq_ok {ε α : Type} {c : Prop} [Decidable c] {e : ε} {f : PUnit → Except ε α} {a : α} :
    (if c then throw e >>= f else f ⟨⟩) = .ok a ↔ ¬c ∧ f ⟨⟩ = .ok a := by
  by_cases hc : c
  · rw [if_pos hc]
    exact ⟨nofun, fun h => absurd hc h.1⟩
  · rw [if_neg hc]
    exact ⟨fun h => ⟨hc, h⟩, And.right⟩

/-- An argument that passes the check for booleans has the type of the booleans. -/
theorem checkBool_eq_ok {t : Term} (h : s.checkBool t = .ok ()) : s.Has t .bool := by
  unfold checkBool at h
  obtain ⟨ty, hty, h⟩ := bind_eq_ok_iff.mp h
  split at h
  · cases h
  next hne => exact typeOf_eq_ok.mp (by rw [hty, not_not.mp hne])

theorem tyWidth?_eq_some {ty : Ty} {w : Nat} :
    s.tyWidth? ty = some w ↔ s.tyShape? ty = some (.bitVector w) := by
  unfold tyWidth?
  cases s.tyShape? ty with
  | none => simp
  | some shape => cases shape <;> simp

/-- The width that the check for words answers is the width of the argument. -/
theorem checkBv_eq_ok {t : Term} {w : Nat} (h : s.checkBv t = .ok w) : s.HasWidth t w := by
  unfold checkBv at h
  obtain ⟨ty, hty, h⟩ := bind_eq_ok_iff.mp h
  split at h
  next w' hw =>
    cases h
    exact ⟨ty, typeOf_eq_ok.mp hty, tyWidth?_eq_some.mp hw⟩
  next => cases h

/-- Two arguments that pass the check for one width both have it. -/
theorem checkSameWidth_eq_ok {a b : Term} {w : Nat} (h : s.checkSameWidth a b = .ok w) :
    s.HasWidth a w ∧ s.HasWidth b w := by
  unfold checkSameWidth at h
  obtain ⟨wa, ha, h⟩ := bind_eq_ok_iff.mp h
  obtain ⟨wb, hb, h⟩ := bind_eq_ok_iff.mp h
  split at h
  · cases h
  next hne =>
    cases h
    rw [not_not] at hne
    exact ⟨checkBv_eq_ok ha, hne ▸ checkBv_eq_ok hb⟩

/-- Two arguments that pass the check for one type both have it. -/
theorem checkSameType_eq_ok {a b : Term} {ty : Ty} (h : s.checkSameType a b = .ok ty) :
    s.Has a ty ∧ s.Has b ty := by
  unfold checkSameType at h
  obtain ⟨ta, ha, h⟩ := bind_eq_ok_iff.mp h
  obtain ⟨tb, hb, h⟩ := bind_eq_ok_iff.mp h
  split at h
  · cases h
  next hne =>
    cases h
    rw [not_not] at hne
    exact ⟨typeOf_eq_ok.mp ha, typeOf_eq_ok.mp (hne ▸ hb)⟩

theorem forM_eq_ok {ε α : Type} {f : α → Except ε Unit} {as : List α} (h : as.forM f = .ok ()) :
    ∀ a ∈ as, f a = .ok () := by
  induction as with
  | nil => simp
  | cons a as ih =>
    obtain ⟨_, ha, h⟩ := bind_eq_ok_iff.mp h
    intro b hb
    rcases List.mem_cons.mp hb with rfl | hmem
    · exact ha
    · exact ih h b hmem

/-- The arguments of a sum or a product are at least one, and all have the width answered. -/
theorem checkBvArgs_eq_ok {args : List Term} {w : Nat} (h : s.checkBvArgs args = .ok w) :
    args ≠ [] ∧ ∀ a ∈ args, s.HasWidth a w := by
  cases args with
  | nil => cases h
  | cons first rest =>
    obtain ⟨w', hw, h⟩ := bind_eq_ok_iff.mp h
    obtain ⟨_, hrest, h⟩ := bind_eq_ok_iff.mp h
    cases h
    refine ⟨by simp, fun a ha => ?_⟩
    rcases List.mem_cons.mp ha with rfl | hmem
    · exact checkBv_eq_ok hw
    · obtain ⟨w'', hw'', -⟩ := bind_eq_ok_iff.mp (forM_eq_ok hrest a hmem)
      obtain ⟨hfirst, ha⟩ := checkSameWidth_eq_ok hw''
      exact (hfirst.unique (checkBv_eq_ok hw)) ▸ ha

/-- The arguments of an application that pass the check have the types of the domain, one by one. -/
theorem checkArgs_eq_ok {args : List Term} {tys : List Ty} (hlen : args.length = tys.length)
    (h : s.checkArgs (args.zip tys) = .ok ()) : List.Forall₂ s.Has args tys := by
  induction args generalizing tys with
  | nil =>
    cases tys with
    | nil => exact .nil
    | cons => simp at hlen
  | cons a args ih =>
    cases tys with
    | nil => simp at hlen
    | cons ty tys =>
      obtain ⟨ta, hta, h⟩ := bind_eq_ok_iff.mp h
      split at h
      · cases h
      next hne =>
        rw [not_not] at hne
        exact .cons (typeOf_eq_ok.mp (hne ▸ hta)) (ih (by simpa using hlen) h)

/-- An application that passes its check is well-typed, with the range of its head for a type. -/
theorem checkApp_eq_ok {f : Term} {args : List Term} {ty : Ty} (h : s.checkApp f args = .ok ty) :
    s.Typed (.app f args) ty := by
  unfold checkApp at h
  obtain ⟨tf, htf, h⟩ := bind_eq_ok_iff.mp h
  split at h
  next domain range hshape =>
    obtain ⟨-, h⟩ := guard_eq_ok.mp h
    obtain ⟨hlen, h⟩ := guard_eq_ok.mp h
    obtain ⟨_, hargs, h⟩ := bind_eq_ok_iff.mp h
    cases h
    exact ⟨tf, domain, typeOf_eq_ok.mp htf, hshape, checkArgs_eq_ok (not_not.mp hlen) hargs⟩
  next => cases h

/-- The list that a quantifier binds holds variables only, none of them twice and none of those
before. -/
theorem checkVars_eq_ok {vars before : List Term} (h : s.Wf)
    (hv : s.checkVars before vars = .ok ()) :
    vars.Nodup ∧ (∀ v ∈ vars, v ∉ before) ∧ ∀ v ∈ vars, s.IsVar v := by
  induction vars generalizing before with
  | nil => simp
  | cons v vars ih =>
    obtain ⟨_, hcheck, hv⟩ := bind_eq_ok_iff.mp hv
    obtain ⟨hvar, hv⟩ := guard_eq_ok.mp hv
    obtain ⟨hnew, hv⟩ := guard_eq_ok.mp hv
    obtain ⟨hnd, hbefore, hvars⟩ := ih hv
    obtain ⟨ty, ⟨⟨shape, hn⟩, -⟩⟩ := check_eq_ok hcheck
    simp only [Bool.or_eq_true, Bool.not_eq_true', not_or, Bool.not_eq_true, Bool.not_eq_false,
      Interp.node?_of_shape hn] at hvar
    have hisVar : s.IsVar v := by
      refine ⟨hvar.1, ?_⟩
      cases shape with
      | var ty' n =>
        obtain ⟨rfl, -⟩ := h.typed hn
        exact ⟨_, _, hn⟩
      | _ => exact absurd hvar.2 (by simp [Term.Shape.isVariable])
    refine ⟨List.nodup_cons.mpr ⟨fun hmem => hbefore v hmem List.mem_cons_self, hnd⟩, ?_, ?_⟩
    · intro u hu
      rcases List.mem_cons.mp hu with rfl | hmem
      · simpa using hnew
      · exact fun hb => hbefore u hmem (List.mem_cons_of_mem _ hb)
    · intro u hu
      rcases List.mem_cons.mp hu with rfl | hmem
      · exact hisVar
      · exact hvars u hmem

/-! ## Meanings -/

section Meaning

variable {t : Term} {ty : Ty} {args args' : List Term} {shape : Term.Shape}
  {m m' : (elems : Ty → Type) → (Term → Val elems) → Val elems}

/-- A term stored with an interpreted shape has the meaning of that shape. -/
theorem stands_of_node (hn : s.node? t = some (shape, ty)) (ht : t.isNegated = false)
    (hshape : shape.isInterpreted = true)
    (hkids : ∀ {elems : Ty → Type} {V : Valuation elems}, V.Lawful s → (∀ a ∈ args, V.defined a) →
      ∀ c ∈ shape.children, V.defined c) :
    s.Stands args t ty fun _ v => shape.combine (s.partWidth shape) (shape.children.map v) where
  has := ⟨⟨shape, hn⟩, by simp [ht]⟩
  defined hV hargs := hV.node_defined hn ht hshape (hkids hV hargs)
  value hV hargs := hV.node hn ht hshape (hV.node_defined hn ht hshape (hkids hV hargs))

/-- A term stands for itself. -/
theorem stands_self (ht : s.Has t ty) (hmem : t ∈ args) : s.Stands args t ty fun _ v => v t :=
  ⟨ht, fun _ hargs => hargs t hmem, fun _ _ => rfl⟩

namespace Stands

/-- The meaning may be read in another way, if both agree where the arguments have values. -/
theorem congr (ht : s.Stands args t ty m)
    (hm : ∀ {elems : Ty → Type} {V : Valuation elems}, V.Lawful s → (∀ a ∈ args, V.defined a) →
      m elems V.value = m' elems V.value) : s.Stands args t ty m' :=
  ⟨ht.has, ht.defined, fun hV hargs => (ht.value hV hargs).trans (hm hV hargs)⟩

/-- A value for `args'` is enough when it makes one for `args`. -/
theorem widen (ht : s.Stands args t ty m)
    (hwiden : ∀ {elems : Ty → Type} {V : Valuation elems}, V.Lawful s → (∀ a ∈ args', V.defined a) →
      ∀ a ∈ args, V.defined a) : s.Stands args' t ty m :=
  ⟨ht.has, fun hV hargs => ht.defined hV (hwiden hV hargs), fun hV hargs =>
    ht.value hV (hwiden hV hargs)⟩

/-- The negation of a term has the opposite value, and its handle is negated without a store. -/
theorem neg (ht : s.Stands args t .bool m) :
    s.Stands args t.neg .bool fun elems v => (m elems v).not where
  has := ht.has.neg
  defined hV hargs := (hV.neg (ht.defined hV hargs) ht.has).1
  value hV hargs := by rw [(hV.neg (ht.defined hV hargs) ht.has).2, ht.value hV hargs]

theorem negIf (ht : s.Stands args t .bool m) (flip : Bool) :
    s.Stands args (t.negIf flip) .bool fun elems v => (m elems v).negIf flip := by
  cases flip with
  | false => exact ht
  | true => exact ht.neg

/-- What a term stands for does not change when the store grows. -/
theorem later (hw : s.Wf) (hargs : ∀ a ∈ args, ∃ ty, s.Has a ty) (ht : s.Stands args t ty m)
    (hs : Later s s') :
    s'.Stands args t ty m where
  has := hs.ext.has ht.has
  defined {_ V} hV hdef :=
    (ht.defined (V := V.restrict s) (hV.restrict hw hs.ext) fun a ha => ⟨hdef a ha, hargs a ha⟩).1
  value {_ V} hV hdef :=
    ht.value (V := V.restrict s) (hV.restrict hw hs.ext) fun a ha => ⟨hdef a ha, hargs a ha⟩

/-- An interpretation is a valuation, also of the terms over given variables only. -/
theorem denotes (h : s.Wf) (ht : s.Stands args t ty m) :
    s.Denotes args t ty fun I ρ => m I.elems (I.value s ρ) where
  has := ht.has
  closed vs hvs := by
    obtain ⟨I, ρ, hI, hρ⟩ := Interp.exists_fits s
    have hV : (I.valuation s ρ (s.FirstOrder vs)).Lawful s :=
      Interp.valuation_lawful h hI hρ (fun _ => FirstOrder.neg) fun {p shape _} hn hshape => by
        obtain ⟨hv, hq, hh⟩ : shape.isVariable = false ∧ shape.isQuantifier = false ∧
            s.HeadOk shape := by
          cases shape <;> first | exact ⟨rfl, rfl, trivial⟩ | cases hshape
        exact ⟨fun hfo c hc => hfo.children hn hq hc, fun hkids => .node hn hv hq hh hkids⟩
    exact ht.defined hV hvs
  value I ρ hI hρ :=
    ht.value (Interp.valuation_lawful h hI hρ (fun _ _ => trivial) fun _ _ =>
      ⟨fun _ _ _ => trivial, fun _ => trivial⟩)
      fun _ _ => trivial

end Stands

/-- What a term needs does not change when the store grows. -/
theorem Needs.later (hw : s.Wf) (ht : s.Has t ty) (h : s.Needs args t) (hs : Later s s') :
    s'.Needs args t :=
  fun _ V hV hdef a ha => (h (V := V.restrict s) (hV.restrict hw hs.ext) ⟨hdef, ty, ht⟩ a ha).1

theorem stands_top (h : s.Wf) : s.Stands args .top .bool fun _ _ => .bool true :=
  stands_of_node h.truth rfl rfl fun _ _ _ hc => by cases hc

theorem stands_bot (h : s.Wf) : s.Stands args .bot .bool fun _ _ => .bool false :=
  (stands_top h).neg

/-- The handle of a truth value has that truth value. -/
theorem stands_ofBool (h : s.Wf) (b : Bool) :
    s.Stands args (.ofBool b) .bool fun _ _ => .bool b := by
  cases b with
  | false => exact stands_bot h
  | true => exact stands_top h

theorem closed_top (h : s.Wf) (vs : List Term) : s.FirstOrder vs .top :=
  .node h.truth rfl rfl trivial fun _ hc => by cases hc

theorem value_top (h : s.Wf) (I : Interp) (ρ : I.Env) : I.value s ρ .top = .bool true :=
  Interp.value_eq h h.truth ρ

theorem value_bot (h : s.Wf) (I : Interp) (ρ : I.Env) : I.value s ρ .bot = .bool false :=
  (Interp.value_neg h ⟨⟨_, h.truth⟩, fun _ => rfl⟩ ρ).trans (by rw [value_top h I ρ]; rfl)

end Meaning

end Store

namespace Term

theorem mem_dedup {t : Term} {ts : List Term} : t ∈ dedup ts ↔ t ∈ ts := by
  fun_induction dedup ts with
  | case1 a rest ih => simp [ih]
  | case2 a b rest hne ih => simp [ih]
  | case3 => rfl

theorem mem_sort {t : Term} {ts : List Term} : t ∈ sort ts ↔ t ∈ ts :=
  (List.mergeSort_perm ts Term.le).mem_iff

/-- A list that is said to hold a complement holds some term together with its negation. -/
theorem exists_of_hasComplement {ts : List Term} (h : hasComplement ts = true) :
    ∃ t ∈ ts, t.neg ∈ ts := by
  fun_induction hasComplement ts with
  | case1 a b rest ih =>
    rcases Bool.or_eq_true_iff.mp h with hab | hrest
    · exact ⟨a, List.mem_cons_self, by rw [eq_of_beq hab]; simp⟩
    · obtain ⟨t, ht, hneg⟩ := ih hrest
      exact ⟨t, List.mem_cons_of_mem _ ht, List.mem_cons_of_mem _ hneg⟩
  | case2 => cases h

end Term

namespace Val

variable {elems : Ty → Type}

@[simp] theorem toBool_bool (b : Bool) : (Val.bool b : Val elems).toBool = b := rfl

@[simp] theorem toNat_word (n : Nat) : (Val.word n : Val elems).toNat = n := rfl

@[simp] theorem not_bool (b : Bool) : (Val.bool b : Val elems).not = .bool !b := rfl

@[simp] theorem toBool_ofProp {p : Prop} : (ofProp p : Val elems).toBool = true ↔ p := by
  simp [ofProp, toBool]

theorem ofProp_eq_bool {p : Prop} {b : Bool} (h : p ↔ b = true) :
    (ofProp p : Val elems) = .bool b := by
  unfold ofProp
  congr 1
  cases b with
  | true => simpa using h
  | false => simpa using h

theorem ofProp_congr {p q : Prop} (h : p ↔ q) : (ofProp p : Val elems) = ofProp q := by
  rw [propext h]

theorem not_ofProp {p : Prop} : (ofProp p : Val elems).not = ofProp ¬p := by simp [ofProp, not]

end Val

namespace Store

/-! ## Boolean structure -/

section Boolean

variable {s : Store} {elems : Ty → Type} {V : Valuation elems}

theorem orOf_stands (h : s.Wf) (args : List Term) (hargs : ∀ a ∈ args, s.Has a .bool) :
    Builds s (orOf args) fun t s' =>
      s'.Stands args t .bool fun _ v => .ofProp (∃ a ∈ args, (v a).toBool = true) := by
  unfold orOf
  split
  next htop =>
    refine .pure h ((stands_top h).congr fun hV hdef => (Val.ofProp_eq_bool ?_).symm)
    exact iff_of_true ⟨.top, by simpa using htop, by rw [(hV.top h).2]; rfl⟩ rfl
  next =>
    have hmem : ∀ a, a ∈ Term.dedup (Term.sort (args.filter (· ≠ .bot))) ↔ a ∈ args ∧ a ≠ .bot := by
      intro a
      rw [Term.mem_dedup, Term.mem_sort, List.mem_filter]
      simp
    -- dropping falsity and repetitions does not change the disjunction
    have hsame : ∀ s' : Store, s'.Wf → ∀ (elems : Ty → Type) (V : Valuation elems), V.Lawful s' →
        ((∃ a ∈ Term.dedup (Term.sort (args.filter (· ≠ .bot))), (V.value a).toBool = true) ↔
          ∃ a ∈ args, (V.value a).toBool = true) := by
      intro s' h' elems V hV
      constructor
      · rintro ⟨a, ha, hv⟩
        exact ⟨a, ((hmem a).mp ha).1, hv⟩
      · rintro ⟨a, ha, hv⟩
        refine ⟨a, (hmem a).mpr ⟨ha, ?_⟩, hv⟩
        rintro rfl
        rw [(hV.bot h').2] at hv
        cases hv
    have hsub : ∀ a ∈ Term.dedup (Term.sort (args.filter (· ≠ .bot))), a ∈ args :=
      fun a ha => ((hmem a).mp ha).1
    have hkept : ∀ a ∈ Term.dedup (Term.sort (args.filter (· ≠ .bot))), s.Has a .bool :=
      fun a ha => hargs a (hsub a ha)
    generalize Term.dedup (Term.sort (args.filter (· ≠ .bot))) = kept at hsame hkept hsub
    by_cases hc : Term.hasComplement kept = true
    · simp only [hc, if_true]
      obtain ⟨a, ha, hna⟩ := Term.exists_of_hasComplement hc
      refine .pure h ((stands_top h).congr fun {elems V} hV hdef => (Val.ofProp_eq_bool ?_).symm)
      refine iff_of_true ((hsame s h _ _ hV).mp ?_) rfl
      cases hb : (V.value a).toBool with
      | true => exact ⟨a, ha, hb⟩
      | false =>
        refine ⟨a.neg, hna, ?_⟩
        rw [hV.value_neg h (hdef a (hsub a ha)) (hkept a ha), hb]
        rfl
    · simp only [hc]
      match kept, hkept, hsame, hsub with
      | [], _, hsame, _ =>
        refine .pure h ((stands_bot h).congr fun hV hdef => (Val.ofProp_eq_bool ?_).symm)
        rw [← hsame s h _ _ hV]
        simp
      | [t], hkept, hsame, hsub =>
        have ht := hsub t List.mem_cons_self
        refine .pure h ((stands_self (hkept t List.mem_cons_self) ht).congr fun hV hdef => ?_)
        rw [hV.value_bool h (hdef t ht) (hkept t List.mem_cons_self)]
        refine (Val.ofProp_eq_bool ?_).symm
        rw [← hsame s h _ _ hV]
        simp
      | a :: b :: rest, hkept, hsame, hsub =>
        refine .intern h (.or (a :: b :: rest)) _ ⟨rfl, hkept⟩ ⟨_, h.bool_ty⟩ trivial
          fun t s' hs ht hn => ?_
        refine (stands_of_node hn ht rfl fun _ hdef c hc => hdef c (hsub c hc)).congr fun hV hdef =>
          ?_
        refine Val.ofProp_congr (Iff.trans ?_ (hsame s' hs.wf _ _ hV))
        simp [Term.Shape.children]

/-- A disjunction is true where one of its members is, whatever was simplified. -/
theorem or_stands (h : s.Wf) (args : List Term) :
    Builds s (or args) fun t s' =>
      s'.Stands args t .bool fun _ v => .ofProp (∃ a ∈ args, (v a).toBool = true) :=
  .read_bind h fun _ hchk => orOf_stands h args fun a ha => checkBool_eq_ok (forM_eq_ok hchk a ha)

/-- A conjunction is true where all its members are. -/
theorem and_stands (h : s.Wf) (args : List Term) :
    Builds s (and args) fun t s' =>
      s'.Stands args t .bool fun _ v => .ofProp (∀ a ∈ args, (v a).toBool = true) := by
  refine .read_bind h fun _ hchk => ?_
  have hargs : ∀ a ∈ args, s.Has a .bool := fun a ha => checkBool_eq_ok (forM_eq_ok hchk a ha)
  refine .bind (orOf_stands h (args.map .neg) ?_) fun t s' hs ht => .pure hs.wf ?_
  · intro a ha
    obtain ⟨b, hb, rfl⟩ := List.mem_map.mp ha
    exact (hargs b hb).neg
  · refine (ht.neg.widen fun hV hdef a ha => ?_).congr fun hV hdef => ?_
    · obtain ⟨b, hb, rfl⟩ := List.mem_map.mp ha
      exact (hV.neg (hdef b hb) (hs.ext.has (hargs b hb))).1
    rw [Val.not_ofProp]
    refine Val.ofProp_congr ?_
    simp only [List.mem_map, exists_exists_and_eq_and, not_exists, not_and]
    refine forall₂_congr fun a ha => ?_
    rw [hV.value_neg hs.wf (hdef a ha) (hs.ext.has (hargs a ha))]
    simp

theorem or2_stands (h : s.Wf) (a b : Term) :
    Builds s (or2 a b) fun t s' =>
      s'.Stands [a, b] t .bool fun _ v => .bool ((v a).toBool || (v b).toBool) :=
  (or_stands h [a, b]).mono fun t s' hs ht => ht.congr fun _ _ => Val.ofProp_eq_bool (by simp)

theorem and2_stands (h : s.Wf) (a b : Term) :
    Builds s (and2 a b) fun t s' =>
      s'.Stands [a, b] t .bool fun _ v => .bool ((v a).toBool && (v b).toBool) :=
  (and_stands h [a, b]).mono fun t s' hs ht => ht.congr fun _ _ => Val.ofProp_eq_bool (by simp)

/-- The exclusive disjunction of two formulas is true where their values differ. -/
theorem xor2_stands (h : s.Wf) (a b : Term) :
    Builds s (xor2 a b) fun t s' =>
      s'.Stands [a, b] t .bool fun _ v => .bool ((v a).toBool != (v b).toBool) := by
  refine .read_bind h fun _ ha => .read_bind h fun _ hb => ?_
  replace ha := checkBool_eq_ok ha
  replace hb := checkBool_eq_ok hb
  -- the positive terms decide the result up to the two polarities
  have hlast : ∀ r s', Later s s' →
      (s'.Stands [a, b] r .bool fun _ v => .bool ((v a.positive).toBool != (v b.positive).toBool)) →
      Builds s' (pure (r.negIf (a.isNegated != b.isNegated))) fun t s' =>
        s'.Stands [a, b] t .bool fun _ v => .bool ((v a).toBool != (v b).toBool) := by
    intro r s' hs hr
    refine .pure hs.wf ((hr.negIf _).congr fun {elems V} hV hdef => ?_)
    rw [hV.value_positive hs.wf (hdef a (by simp)) (hs.ext.has ha),
      hV.value_positive hs.wf (hdef b (by simp)) (hs.ext.has hb)]
    generalize (V.value a.positive).toBool = x
    generalize (V.value b.positive).toBool = y
    cases a.isNegated <;> cases b.isNegated <;> cases x <;> cases y <;> rfl
  have hap := ha.positive
  have hbp := hb.positive
  -- where the arguments have values, so have the positive terms
  have hkids : ∀ {s' : Store}, Later s s' → ∀ {elems : Ty → Type} {V : Valuation elems},
    V.Lawful s' →
      (∀ x ∈ [a, b], V.defined x) → V.defined a.positive ∧ V.defined b.positive :=
    fun hs _ _ hV hdef => ⟨hV.positive (hdef a (by simp)) (hs.ext.has ha),
      hV.positive (hdef b (by simp)) (hs.ext.has hb)⟩
  have hrefl := later_frame.refl h
  have hself : ∀ {x : Term}, s.Has x .bool → x ∈ [a, b] →
      s.Stands [a, b] x.positive .bool fun _ v => v x.positive :=
    fun hx hmem => ⟨hx.positive, fun hV hdef => hV.positive (hdef _ hmem) hx, fun _ _ => rfl⟩
  simp only
  split
  next heq =>
    refine .bind (.pure h ((stands_bot h).congr fun _ _ => ?_)) hlast
    rw [heq]
    simp
  next =>
  split
  next heq =>
    refine .bind (.pure h ((hself hb (by simp)).neg.congr fun hV hdef => ?_)) hlast
    rw [heq, (hV.top h).2, hV.value_bool h (hkids hrefl hV hdef).2 hbp]
    simp
  next =>
  split
  next heq =>
    refine .bind (.pure h ((hself ha (by simp)).neg.congr fun hV hdef => ?_)) hlast
    rw [heq, (hV.top h).2, hV.value_bool h (hkids hrefl hV hdef).1 hap]
    simp
  next =>
  split
  · refine .bind (.intern h (.xor _ _) _ ⟨rfl, hap, hbp⟩ ⟨_, h.bool_ty⟩ trivial fun t s' hs ht hn =>
      ?_) hlast
    exact stands_of_node hn ht rfl fun hV hdef => by
      simpa [Term.Shape.children] using hkids hs hV hdef
  · refine .bind (.intern h (.xor _ _) _ ⟨rfl, hbp, hap⟩ ⟨_, h.bool_ty⟩ trivial fun t s' hs ht hn =>
      ?_) hlast
    refine (stands_of_node hn ht rfl fun hV hdef => ?_).congr fun _ _ => ?_
    · simpa [Term.Shape.children] using (hkids hs hV hdef).symm
    · simp only [Term.Shape.combine, Term.Shape.children, List.map_cons, List.map_nil]
      rw [bne_comm]

/-- An equivalence is true where both sides have one value. -/
theorem iff_stands (h : s.Wf) (a b : Term) :
    Builds s (iff a b) fun t s' =>
      s'.Stands [a, b] t .bool fun _ v => .bool ((v a).toBool == (v b).toBool) := by
  refine .bind (xor2_stands h a b) fun t s' hs ht =>
    .pure hs.wf (ht.neg.congr fun {elems V} _ _ => ?_)
  generalize (V.value a).toBool = x
  generalize (V.value b).toBool = y
  cases x <;> cases y <;> rfl

/-- A choice between terms of one type has the value of the branch that its condition selects. -/
theorem iteOf_stands (h : s.Wf) {ty : Ty} {c a b : Term} (hc : s.Has c .bool) (ha : s.Has a ty)
    (hb : s.Has b ty) :
    Builds s (iteOf ty c a b) fun t s' =>
      s'.Stands [c, a, b] t ty fun _ v => if (v c).toBool then v a else v b := by
  unfold iteOf
  split
  next hty =>
    subst hty
    -- all values are truth values, so each case is a case distinction on three of them
    have hval : ∀ {s' : Store}, Later s s' → ∀ {elems : Ty → Type} {V : Valuation elems},
      V.Lawful s' →
        ∀ x, V.defined x → s.Has x .bool →
          V.value x = .bool (V.value x).toBool ∧ V.value x.neg = .bool !(V.value x).toBool ∧
            V.defined x.neg :=
      fun hs _ _ hV x hdef hx => ⟨hV.value_bool hs.wf hdef (hs.ext.has hx),
        hV.value_neg hs.wf hdef (hs.ext.has hx),
        (hV.neg hdef (hs.ext.has hx)).1⟩
    split
    next heq =>
      refine (or2_stands h c b).mono fun t s' hs ht => (ht.widen fun hV hdef => ?_).congr
        fun {elems V} hV hdef => ?_
      · simpa using ⟨hdef c (by simp), hdef b (by simp)⟩
      rw [heq, (hV.top hs.wf).2, (hval hs hV b (hdef b (by simp)) hb).1]
      cases (V.value c).toBool <;> rfl
    next =>
    split
    next heq =>
      refine (and2_stands h c.neg b).mono fun t s' hs ht => (ht.widen fun hV hdef => ?_).congr
        fun {elems V} hV hdef => ?_
      · simpa using ⟨(hval hs hV c (hdef c (by simp)) hc).2.2, hdef b (by simp)⟩
      rw [heq, (hV.bot hs.wf).2, (hval hs hV b (hdef b (by simp)) hb).1,
        (hval hs hV c (hdef c (by simp)) hc).2.1]
      cases (V.value c).toBool <;> rfl
    next =>
    split
    next heq =>
      refine (or2_stands h c.neg a).mono fun t s' hs ht => (ht.widen fun hV hdef => ?_).congr
        fun {elems V} hV hdef => ?_
      · simpa using ⟨(hval hs hV c (hdef c (by simp)) hc).2.2, hdef a (by simp)⟩
      rw [heq, (hV.top hs.wf).2, (hval hs hV a (hdef a (by simp)) ha).1,
        (hval hs hV c (hdef c (by simp)) hc).2.1]
      cases (V.value c).toBool <;> rfl
    next =>
    split
    next heq =>
      refine (and2_stands h c a).mono fun t s' hs ht => (ht.widen fun hV hdef => ?_).congr
        fun {elems V} hV hdef => ?_
      · simpa using ⟨hdef c (by simp), hdef a (by simp)⟩
      rw [heq, (hV.bot hs.wf).2, (hval hs hV a (hdef a (by simp)) ha).1]
      cases (V.value c).toBool <;> rfl
    next =>
    split
    next heq =>
      refine (iff_stands h c a).mono fun t s' hs ht => (ht.widen fun hV hdef => ?_).congr
        fun {elems V} hV hdef => ?_
      · simpa using ⟨hdef c (by simp), hdef a (by simp)⟩
      obtain ⟨hb', hnb, -⟩ := hval hs hV b (hdef b (by simp)) hb
      rw [heq, hnb, hb']
      generalize (V.value c).toBool = x
      generalize (V.value b).toBool = y
      cases x <;> cases y <;> rfl
    next =>
    split
    · have hnode : Builds s (intern (.ite c a.neg b.neg) .bool) fun t s' =>
          s'.Stands [c, a, b] t .bool fun _ v => if (v c).toBool then v a.neg else v b.neg := by
        refine .intern h (.ite c a.neg b.neg) .bool ⟨hc, ha.neg, hb.neg⟩ ⟨_, h.bool_ty⟩ trivial
          fun t s' hs ht hn => stands_of_node hn ht rfl fun hV hdef => ?_
        simpa [Term.Shape.children] using ⟨hdef c (by simp),
          (hval hs hV a (hdef a (by simp)) ha).2.2,
          (hval hs hV b (hdef b (by simp)) hb).2.2⟩
      refine .bind hnode fun t s' hs ht => .pure hs.wf ?_
      refine ht.neg.congr fun {elems V} hV hdef => ?_
      obtain ⟨ha', hna, -⟩ := hval hs hV a (hdef a (by simp)) ha
      obtain ⟨hb', hnb, -⟩ := hval hs hV b (hdef b (by simp)) hb
      rw [hna, hnb, ha', hb']
      cases (V.value c).toBool <;> simp
    · exact .intern h (.ite c a b) _ ⟨hc, ha, hb⟩ ⟨_, h.bool_ty⟩ trivial
        fun t s' hs ht hn => stands_of_node hn ht rfl fun _ hdef => hdef
  next =>
    exact .intern h (.ite c a b) _ ⟨hc, ha, hb⟩ (h.ty_live ha) trivial
      fun t s' hs ht hn => stands_of_node hn ht rfl fun _ hdef => hdef

/-- A choice that is built has a boolean condition, branches of one type and the value of the branch
selected. -/
theorem ite_stands (h : s.Wf) (c a b : Term) :
    Builds s (ite c a b) fun t s' => ∃ ty, s.Has a ty ∧ s.Has b ty ∧ s.Has c .bool ∧
      s'.Stands [c, a, b] t ty fun _ v => if (v c).toBool then v a else v b := by
  refine .read_bind h fun _ hc => .read_bind h fun ty hab => ?_
  replace hc := checkBool_eq_ok hc
  obtain ⟨ha, hb⟩ := checkSameType_eq_ok hab
  split
  next heq =>
    refine .pure h ⟨ty, ha, hb, hc, (stands_self ha (by simp)).congr fun hV _ => ?_⟩
    rcases Bool.or_eq_true_iff.mp heq with hct | hab
    · rw [of_decide_eq_true hct, (hV.top h).2]
      rfl
    · rw [of_decide_eq_true hab]
      simp
  next =>
  split
  next heq =>
    refine .pure h ⟨ty, ha, hb, hc, (stands_self hb (by simp)).congr fun hV _ => ?_⟩
    rw [heq, (hV.bot h).2]
    rfl
  next =>
  split
  · refine (iteOf_stands h hc.neg hb ha).mono fun t s' hs ht =>
      ⟨ty, ha, hb, hc, (ht.widen fun hV hdef => ?_).congr fun {elems V} hV hdef => ?_⟩
    · simpa using ⟨(hV.neg (hdef c (by simp)) (hs.ext.has hc)).1, hdef b (by simp),
        hdef a (by simp)⟩
    rw [hV.value_neg hs.wf (hdef c (by simp)) (hs.ext.has hc)]
    cases (V.value c).toBool <;> simp
  · exact (iteOf_stands h hc ha hb).mono fun t s' hs ht => ⟨ty, ha, hb, hc, ht⟩

/-- A term with a constant value is a constant of words. -/
theorem constValue?_eq_some {t : Term} {n : Nat} (h : s.constValue? t = some n) :
    ∃ w ty, s.node? t = some (.bvConst w n, ty) := by
  unfold constValue? at h
  split at h
  next w v hsh =>
    cases h
    unfold shape shape? at hsh
    cases hn : s.node? t with
    | none => simp [hn] at hsh
    | some x =>
      obtain ⟨sh, ty⟩ := x
      simp only [hn, Option.map_some, Option.getD_some] at hsh
      exact ⟨w, ty, by rw [hsh]⟩
  next => cases h

/-- Only boolean terms are negated. -/
theorem Has.not_isNegated {t : Term} {ty : Ty} (ht : s.Has t ty) (hty : ty ≠ .bool) :
    t.isNegated = false :=
  Bool.eq_false_iff.mpr fun hneg => hty (ht.2 hneg)

/-- The value of a bitvector constant. -/
theorem value_const (hV : V.Lawful s) {t : Term} (hdef : V.defined t) (hneg : t.isNegated = false)
    {n : Nat} (hc : s.constValue? t = some n) : V.value t = .word n := by
  obtain ⟨w, ty, hn⟩ := constValue?_eq_some hc
  exact hV.node hn hneg rfl hdef

/-- An equality that is built is between terms of one type, and is true where their values are
equal. -/
theorem eq_stands (h : s.Wf) (a b : Term) :
    Builds s (eq a b) fun t s' => (∃ ty, s.Has a ty ∧ s.Has b ty) ∧
      s'.Stands [a, b] t .bool fun _ v => .ofProp (v a = v b) := by
  refine .read_bind h fun ty hab => ?_
  obtain ⟨ha, hb⟩ := checkSameType_eq_ok hab
  split
  next heq =>
    refine .pure h ⟨⟨ty, ha, hb⟩, (stands_top h).congr fun _ _ => (Val.ofProp_eq_bool ?_).symm⟩
    simp [heq]
  next =>
  split
  next hty =>
    subst hty
    refine (iff_stands h a b).mono fun t s' hs ht => ⟨⟨_, ha, hb⟩, ht.congr fun hV hdef => ?_⟩
    refine (Val.ofProp_eq_bool ?_).symm
    rw [hV.value_bool hs.wf (hdef a (by simp)) (hs.ext.has ha),
      hV.value_bool hs.wf (hdef b (by simp)) (hs.ext.has hb)]
    simp
  next hty =>
  refine .look_bind ?_
  split
  next x y hxy =>
    obtain ⟨hx, hy⟩ := Prod.mk.inj hxy
    refine .pure h ⟨⟨ty, ha, hb⟩, (stands_ofBool h _).congr fun hV hdef =>
      (Val.ofProp_eq_bool ?_).symm⟩
    rw [value_const hV (hdef a (by simp)) (ha.not_isNegated hty) hx,
      value_const hV (hdef b (by simp)) (hb.not_isNegated hty) hy]
    simp
  next =>
  split
  · refine .intern h (.eq a b) _ ⟨rfl, ty, hty, ha, hb⟩ ⟨_, h.bool_ty⟩ trivial fun t s' hs ht hn =>
      ?_
    exact ⟨⟨ty, ha, hb⟩, stands_of_node hn ht rfl fun _ hdef => hdef⟩
  · refine .intern h (.eq b a) _ ⟨rfl, ty, hty, hb, ha⟩ ⟨_, h.bool_ty⟩ trivial fun t s' hs ht hn =>
      ?_
    refine ⟨⟨ty, ha, hb⟩, (stands_of_node hn ht rfl fun _ hdef => ?_).congr fun _ _ => ?_⟩
    · simpa [Term.Shape.children] using ⟨hdef b (by simp), hdef a (by simp)⟩
    · exact Val.ofProp_congr eq_comm

/-! ### In interpretations -/

theorem or_builds (h : s.Wf) (args : List Term) :
    Builds s (or args) fun t s' =>
      s'.Denotes args t .bool fun I ρ => .ofProp (∃ a ∈ args, (I.value s' ρ a).toBool = true) :=
  (or_stands h args).mono fun _ _ hs ht => ht.denotes hs.wf

theorem and_builds (h : s.Wf) (args : List Term) :
    Builds s (and args) fun t s' =>
      s'.Denotes args t .bool fun I ρ => .ofProp (∀ a ∈ args, (I.value s' ρ a).toBool = true) :=
  (and_stands h args).mono fun _ _ hs ht => ht.denotes hs.wf

theorem xor2_builds (h : s.Wf) (a b : Term) :
    Builds s (xor2 a b) fun t s' =>
      s'.Denotes [a, b] t .bool fun I ρ =>
        .bool ((I.value s' ρ a).toBool != (I.value s' ρ b).toBool) :=
  (xor2_stands h a b).mono fun _ _ hs ht => ht.denotes hs.wf

theorem iff_builds (h : s.Wf) (a b : Term) :
    Builds s (iff a b) fun t s' =>
      s'.Denotes [a, b] t .bool fun I ρ =>
        .bool ((I.value s' ρ a).toBool == (I.value s' ρ b).toBool) :=
  (iff_stands h a b).mono fun _ _ hs ht => ht.denotes hs.wf

theorem ite_builds (h : s.Wf) (c a b : Term) :
    Builds s (ite c a b) fun t s' => ∃ ty, s.Has a ty ∧ s.Has b ty ∧ s.Has c .bool ∧
      s'.Denotes [c, a, b] t ty fun I ρ => if (I.value s' ρ c).toBool then I.value s' ρ a
        else I.value s' ρ b :=
  (ite_stands h c a b).mono fun _ _ hs ⟨ty, ha, hb, hc, ht⟩ => ⟨ty, ha, hb, hc, ht.denotes hs.wf⟩

theorem eq_builds (h : s.Wf) (a b : Term) :
    Builds s (eq a b) fun t s' => (∃ ty, s.Has a ty ∧ s.Has b ty) ∧
      s'.Denotes [a, b] t .bool fun I ρ => .ofProp (I.value s' ρ a = I.value s' ρ b) :=
  (eq_stands h a b).mono fun _ _ hs ⟨hab, ht⟩ => ⟨hab, ht.denotes hs.wf⟩

end Boolean

/-! ## Atoms, functions and quantifiers -/

section Functions

variable {s : Store}

/-- A type that passes its check is stored. -/
theorem checkTy_eq_ok {ty : Ty} (h : s.checkTy ty = .ok ()) :
    ∃ shape, s.tyShape? ty = some shape := by
  unfold checkTy at h
  split at h
  next hv =>
    obtain ⟨x, hx⟩ := Arena.isLive_iff.mp hv
    exact ⟨x.1, by simp [tyShape?, hx]⟩
  next => cases h

/-- Counting one serial number up only extends the store. -/
theorem Wf.freshSerial (h : s.Wf) : Later s { s with termSerial := s.termSerial + 1 } := by
  have hext : s.Extends { s with termSerial := s.termSerial + 1 } :=
    ⟨id, id, Nat.le_refl _, Nat.le_succ _, Nat.le_refl _⟩
  refine ⟨⟨h.types, h.terms, h.bool_ty, h.truth, fun hty => hext.tyOk (h.ty_ok hty), fun hi =>
    hext.typed (h.typed hi),
    h.live_ty, fun hi => serialBelow_mono (h.serial hi) (Nat.le_succ _), h.ranked⟩, hext⟩

/-- A term with a new serial number: its slot was empty. -/
theorem fresh_builds (h : s.Wf) (ty : Ty) (mk : Nat → Term.Shape)
    (hmk : (∀ n, mk n = .uninterpreted ty n) ∨ ∀ n, mk n = .var ty n) :
    Builds s (do read (·.checkTy ty); intern (mk (← freshSerial)) ty) fun t s' =>
      s.node? t = none ∧ t.isNegated = false ∧ s'.node? t = some (mk s.termSerial, ty) ∧
      s'.termSerial = s.termSerial + 1 ∧ s'.types = s.types ∧ ∀ u, u.index ≠ t.index →
      s'.node? u = s.node? u := by
  refine .read_bind h fun _ hty => ?_
  have hlive := checkTy_eq_ok hty
  have h₁ := h.freshSerial
  have htyped : s.Typed (mk s.termSerial) ty := by
    rcases hmk with hmk | hmk <;> rw [hmk] <;> exact ⟨rfl, hlive⟩
  have hbelow : SerialBelow (s.termSerial + 1) (mk s.termSerial) := by
    rcases hmk with hmk | hmk <;> rw [hmk] <;> exact Nat.lt_succ_self _
  have hnew : s.terms.find? (mk s.termSerial) = none := by
    refine h.terms.find_eq_none fun i v hi => ?_
    have hser := h.serial hi
    rcases hmk with hmk | hmk <;> rw [hmk] at hser <;> exact Nat.lt_irrefl _ hser
  obtain ⟨hdead, -, hget, hv⟩ := h.terms.intern_new hnew ty
  have hlater := h₁.wf.withTerms hv hdead hget (size_le_intern _ _ _)
    (h₁.ext.typed htyped) hlive hbelow
  refine ⟨later_frame.trans h₁ hlater, ?_, Term.isNegated_ofIndex _, ?_, rfl, rfl, ?_⟩
  · unfold node?
    rw [Term.index_ofIndex]
    exact hdead
  · unfold node?
    rw [Term.index_ofIndex]
    exact (hget _).trans (if_pos rfl)
  · intro u hu
    rw [Term.index_ofIndex] at hu
    exact (hget _).trans (if_neg hu)

/-- A new constant is a term that was not stored before, with the serial number that was next. -/
theorem newConst_builds (h : s.Wf) (ty : Ty) :
    Builds s (newConst ty) fun t s' => s.node? t = none ∧ t.isNegated = false ∧
      s'.node? t = some (.uninterpreted ty s.termSerial, ty) ∧ s'.termSerial = s.termSerial + 1 ∧
      s'.types = s.types ∧ ∀ u, u.index ≠ t.index → s'.node? u = s.node? u :=
  fresh_builds h ty (.uninterpreted ty) (.inl fun _ => rfl)

/-- An application is stored as it was given: its head and its arguments are not simplified. -/
theorem app_builds (h : s.Wf) (f : Term) (args : List Term) :
    Builds s (app f args) fun t s' => ∃ ty, s'.node? t = some (.app f args, ty) ∧
    t.isNegated = false :=
  .read_bind h fun ty hty => .intern h _ _ (checkApp_eq_ok hty) (by
    obtain ⟨tf, domain, -, hshape, -⟩ := checkApp_eq_ok hty
    exact (h.ty_ok hshape).2 ty (by simp)) trivial fun _ _ _ ht hn => ⟨ty, hn, ht⟩

/-- What the constructor of quantifiers answers: a constant body is its own quantification. -/
structure Quantifies (s : Store) (vars : List Term) (body t : Term) : Prop where
  body_has : s.Has body .bool
  vars_live : ∀ v ∈ vars, s.IsVar v
  shape : t.isNegated = false ∧ s.node? t = some (.all vars body, .bool) ∨ t = body ∧
    (body = .top ∨ body = .bot)

theorem Quantifies.has {vars : List Term} {body t : Term} (h : s.Quantifies vars body t) :
    s.Has t .bool := by
  rcases h.shape with ⟨ht, hn⟩ | ⟨rfl, -⟩
  · exact ⟨⟨_, hn⟩, by simp [ht]⟩
  · exact h.body_has

theorem Quantifies.extends_ {vars : List Term} {body t : Term} (h : s.Quantifies vars body t)
    (e : s.Extends s') :
    s'.Quantifies vars body t :=
  ⟨e.has h.body_has, fun v hv => e.isVar (h.vars_live v hv), h.shape.imp_left fun ⟨ht, hn⟩ =>
    ⟨ht, e.node hn⟩⟩

/-- What a universal formula over a list of variables answers quantifies over them. -/
theorem all_quantifies (h : s.Wf) (vars : List Term) (body : Term) :
    Builds s (all vars body) fun t s' => s'.Quantifies vars body t := by
  unfold all
  split
  · exact .throw h _
  refine .read_bind h fun _ hv => .read_bind h fun _ hb => ?_
  obtain ⟨hnd, -, hvars⟩ := checkVars_eq_ok h hv
  replace hb := checkBool_eq_ok hb
  split
  next heq =>
    refine .pure h ⟨hb, hvars, .inr ⟨rfl, ?_⟩⟩
    exact (Bool.or_eq_true_iff.mp heq).imp of_decide_eq_true of_decide_eq_true
  next =>
    exact .intern h (.all vars body) _ ⟨rfl, hnd, hvars, hb⟩ ⟨_, h.bool_ty⟩ trivial
        fun t s' hs ht hn =>
      ⟨hs.ext.has hb, fun v hv => hs.ext.isVar (hvars v hv), .inl ⟨ht, hn⟩⟩

/-- Quantifying takes the bound variables from those that the formula needs. -/
theorem Quantifies.closed (h : s.Wf) {vars : List Term} {body t : Term}
    (hq : s.Quantifies vars body t) {vs : List Term}
    (hvs : s.FirstOrder (vars ++ vs) body) : s.FirstOrder vs t := by
  rcases hq.shape with ⟨-, hn⟩ | ⟨rfl, rfl | rfl⟩
  · exact .all hn hvs
  · exact closed_top h vs
  · exact (closed_top h vs).neg

/-- A quantified term has the value of the quantifier over its body, also where nothing was
bound. -/
theorem Quantifies.value (h : s.Wf) {vars : List Term} {body t : Term}
    (hq : s.Quantifies vars body t) (I : Interp)
    (ρ : I.Env) : I.value s ρ t = I.node s (I.value s) ρ t (.all vars body) := by
  rcases hq.shape with ⟨ht, hn⟩ | ⟨rfl, rfl | rfl⟩
  · rw [Interp.value_eq h hn, ht, Term.positive_of_not_isNegated ht]
    rfl
  · simp only [Interp.node, value_top h]
    exact (Val.ofProp_eq_bool (by simp)).symm
  · simp only [Interp.node, value_bot h]
    refine (Val.ofProp_eq_bool ?_).symm
    simp only [Val.toBool_bool, Bool.false_eq_true, imp_false, iff_false]
    intro hall
    exact hall (fun v => I.default s (s.ty v)) fun v _ => Interp.default_is I s _

end Functions
end Store
end Entail
