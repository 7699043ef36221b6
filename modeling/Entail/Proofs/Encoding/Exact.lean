import Entail.Proofs.Context.References
import Entail.Proofs.Encoding.Atoms
import Entail.Proofs.Encoding.Clauses

/-!
# Exact definitions

Some of the clauses of a context say what its literals and words mean; the others are what was
asserted, and what was learned from it. The clauses that define are exact: every valuation of the
variables that satisfies them gives variables, literals and words the values that their terms have
when atoms have the values of their variables. They say nothing else, as the atoms may have any
values, but for the outputs of gates.
-/

namespace Entail

open Search

/-- The two differ on terms that are `free` only, and in whether these hold. -/
structure Atoms.Except (free : Term → Prop) (A B : Atoms) : Prop where
  holds : ∀ {p}, ¬ free p → B.holds p = A.holds p
  bit : B.bit = A.bit
  same : B.same = A.same

namespace Atoms

variable {A B : Atoms} {free free' : Term → Prop}

theorem Except.refl (A : Atoms) (free : Term → Prop) : A.Except free A := ⟨fun _ => rfl, rfl, rfl⟩

theorem Except.mono (h : A.Except free B) (hfree : ∀ p, free p → free' p) : A.Except free' B :=
  ⟨fun hp => h.holds fun h => hp (hfree _ h), h.bit, h.same⟩

theorem Except.set (h : A.Except free B) {p : Term} (hp : free p) (b : Bool) :
    A.Except free (B.set p b) :=
  ⟨fun {q} hq => (if_neg fun (heq : q = p) => hq (heq ▸ hp)).trans (h.holds hq), h.bit, h.same⟩

/-- What is given for an atom does not depend on what else is in the store. -/
theorem atom?_of_stays {s s' : Store} {p : Term} {ty : Ty} (hw : s.Wf) (hs : s.Stays s' p)
    (hp : s.Has p ty) :
    A.atom? s' p = A.atom? s p := by
  have hn := hp.node
  have hpart {c : Term} (hc : c ∈ (s.shape p).children) : s.Stays s' c :=
    hs.part (.child .refl hn hc) (Store.isValid_iff.mpr ((hw.typed hn).live hc))
  unfold atom?
  rw [hs.shape_eq]
  cases hshape : s.shape p with
  | bit x i =>
    have hx := hpart (hshape ▸ (by simp [Term.Shape.children] : x ∈ (Term.Shape.bit x i).children))
    simp only [hx.shape_eq]
  | eq a b =>
    have ha := hpart (hshape ▸ (by simp [Term.Shape.children] : a ∈ (Term.Shape.eq a b).children))
    have hb := hpart (hshape ▸ (by simp [Term.Shape.children] : b ∈ (Term.Shape.eq a b).children))
    obtain ⟨⟨shape, ty⟩, hna, hna'⟩ := ha.node .refl
    obtain ⟨tyShape, hty, hty'⟩ := ha.ty .refl hna .refl
    have hsort : s'.isSort (s'.ty a) = s.isSort (s.ty a) := by
      simp [Store.isSort, Store.ty, hna, hna', hty, hty']
    simp only [ha.shape_eq, hb.shape_eq, hsort]
  | _ => rfl

end Atoms

namespace Context

variable {s s' : Store} {V V' : View} {a b : Nat → Bool} {A B : Atoms} {one : Literal}
  {defs cs : List (List Literal)}
  {v : Nat} {p : Term}

/-- Atoms have the values of their variables. -/
def View.Agrees (s : Store) (V : View) (a : Nat → Bool) (A : Atoms) : Prop :=
  ∀ x p b, V.vars x = some p → A.atom? s p = some b → a x = b

/-- Variables, literals and words have the values of their terms. -/
structure View.Coherent (s : Store) (V : View) (a : Nat → Bool) (A : Atoms) : Prop where
  vars : ∀ {x p}, V.vars x = some p → a x = (A.value s p).toBool
  lits : ∀ {p l}, V.lits p = some l → l.eval a = (A.value s p).toBool
  bits : ∀ {t word}, V.bits t = some word → Literal.number a word = (A.value s t).toNat

/-- The clauses `defs`, which are entailed by what is held, say what variables, literals and words
mean, and nothing more than that. -/
structure View.Exact (s : Store) (one : Literal) (defs : List (List Literal)) (V : View) :
    Prop where
  truth : [one] ∈ defs
  vars : ∀ {x p}, V.vars x = some p → s.Has p .bool ∧ p.isNegated = false
  lits : ∀ {p l}, V.lits p = some l → s.Has p .bool ∧ V.Live l.var
  bits : ∀ {t word}, V.bits t = some word → s.HasWidth t word.length ∧ Over V.Live word
  spans : ∀ c ∈ defs, Over V.Live c
  meets : ∀ {a}, V.clauses.Models a → Meets a defs
  sound : ∀ {a A}, Meets a defs → V.Agrees s a A → V.Coherent s a A
  free : ∀ A : Atoms, ∃ a B, A.Except V.aux B ∧ Meets a defs ∧ V.Coherent s a B

namespace View

/-- Variables that have the values of their terms give atoms their values. -/
theorem Coherent.agrees (h : V.Coherent s a A) (hw : s.Wf) (hV : V.Exact s one defs) :
    V.Agrees s a A := by
  intro x p b hx hb
  obtain ⟨hp, hneg⟩ := hV.vars hx
  rw [h.vars hx, A.value_of_atom? hw hp hneg hb]
  rfl

/-- Only live variables matter. -/
theorem Coherent.congr (h : V.Coherent s a A) (hV : V.Exact s one defs)
    (hab : ∀ x, V.Live x → a x = b x) :
    V.Coherent s b A where
  vars hx := (hab _ ⟨_, hx⟩).symm.trans (h.vars hx)
  lits hp := (Literal.eval_congr (hab _ (hV.lits hp).2)).symm.trans (h.lits hp)
  bits ht := by
    rw [← (hV.bits ht).2.number_eq hab]
    exact h.bits ht

/-- The literal of truth is true. -/
theorem Exact.eval_truth (h : V.Exact s one defs) (ha : Meets a defs) : one.eval a = true := by
  obtain ⟨l, hl, heval⟩ := ha _ h.truth
  exact List.mem_singleton.mp hl ▸ heval

theorem Exact.truth_live (h : V.Exact s one defs) : V.Live one.var :=
  h.spans _ h.truth one (List.mem_singleton_self _)

/-- The values of the terms of a view are the same in every store where all that they are made of
is the same. -/
theorem Coherent.of_stays (h : V.Coherent s a A) (hV : V.Exact s one defs) (hw : s.Wf) (hw' : s'.Wf)
    (hvars : ∀ {x p}, V.vars x = some p → s.Stays s' p)
    (hlits : ∀ {p l}, V.lits p = some l → s.Stays s' p)
    (hbits : ∀ {t word}, V.bits t = some word → s.Stays s' t) : V.Coherent s' a A where
  vars hx := by rw [Atoms.value_of_stays hw hw' (hvars hx) (hV.vars hx).1]; exact h.vars hx
  lits hp := by rw [Atoms.value_of_stays hw hw' (hlits hp) (hV.lits hp).1]; exact h.lits hp
  bits ht := by
    obtain ⟨⟨ty, hty, -⟩, -⟩ := hV.bits ht
    rw [Atoms.value_of_stays hw hw' (hbits ht) hty]
    exact h.bits ht

theorem Coherent.of_extends (h : V.Coherent s a A) (hV : V.Exact s one defs) (hw : s.Wf)
    (hw' : s'.Wf) (e : s.Extends s') : V.Coherent s' a A where
  vars hx := by rw [Atoms.value_of_extends hw hw' e (hV.vars hx).1]; exact h.vars hx
  lits hp := by rw [Atoms.value_of_extends hw hw' e (hV.lits hp).1]; exact h.lits hp
  bits ht := by
    obtain ⟨⟨ty, hty, -⟩, -⟩ := hV.bits ht
    rw [Atoms.value_of_extends hw hw' e hty]
    exact h.bits ht

/-- What is said of a term that the store does not have does not matter. -/
theorem Coherent.set (h : V.Coherent s a A) (hV : V.Exact s one defs) (hw : s.Wf)
    (hp : s.node? p = none) (b : Bool) :
    V.Coherent s a (A.set p b) where
  vars hx := by rw [Atoms.value_set hw hp b (hV.vars hx).1]; exact h.vars hx
  lits hq := by rw [Atoms.value_set hw hp b (hV.lits hq).1]; exact h.lits hq
  bits ht := by
    obtain ⟨⟨ty, hty, -⟩, -⟩ := hV.bits ht
    rw [Atoms.value_set hw hp b hty]
    exact h.bits ht

/-- Definitions stay exact while the terms that they are about stay. -/
theorem Exact.of_stays (h : V.Exact s one defs) (hw : s.Wf) (hw' : s'.Wf)
    (hvars : ∀ {x p}, V.vars x = some p → s.Stays s' p)
    (hlits : ∀ {p l}, V.lits p = some l → s.Stays s' p)
    (hbits : ∀ {t word}, V.bits t = some word → s.Stays s' t) : V.Exact s' one defs where
  truth := h.truth
  vars hx := ⟨(hvars hx).has (h.vars hx).1, (h.vars hx).2⟩
  lits hp := ⟨(hlits hp).has (h.lits hp).1, (h.lits hp).2⟩
  bits ht := by
    obtain ⟨⟨ty, hty, hwidth⟩, hover⟩ := h.bits ht
    obtain ⟨shape, hold, hnew⟩ := (hbits ht).ty .refl hty.node .refl
    exact ⟨⟨ty, (hbits ht).has hty, hnew.trans (hold.symm.trans hwidth)⟩, hover⟩
  spans := h.spans
  meets := h.meets
  sound {a A} ha hA := by
    refine (h.sound ha fun x p b hx hb => hA x p b hx ?_).of_stays h hw hw' hvars hlits hbits
    rw [Atoms.atom?_of_stays hw (hvars hx) (h.vars hx).1]
    exact hb
  free A := by
    obtain ⟨a, B, hB, ha, hcoherent⟩ := h.free A
    exact ⟨a, B, hB, ha, hcoherent.of_stays h hw hw' hvars hlits hbits⟩

theorem Exact.of_extends (h : V.Exact s one defs) (hw : s.Wf) (hw' : s'.Wf) (e : s.Extends s') :
    V.Exact s' one defs := by
  have hstays {t : Term} {ty : Ty} (ht : s.Has t ty) : s.Stays s' t :=
    e.stays hw (Store.isValid_iff.mpr ⟨ty, ht⟩)
  refine h.of_stays hw hw' (fun hx => hstays (h.vars hx).1) (fun hp => hstays (h.lits hp).1)
    fun ht => ?_
  obtain ⟨⟨ty, hty, -⟩, -⟩ := h.bits ht
  exact hstays hty

/-- Definitions stay exact when more is held. -/
theorem Exact.of_same (h : V.Exact s one defs) (hvars : V'.vars = V.vars) (hlits : V'.lits = V.lits)
    (hbits : V'.bits = V.bits) (haux : V'.aux = V.aux)
    (hclauses : ∀ a, V'.clauses.Models a → V.clauses.Models a) : V'.Exact s one defs := by
  have hlive : V'.Live = V.Live := by
    unfold View.Live
    rw [hvars]
  have hcoherent {a : Nat → Bool} {A : Atoms} (hc : V.Coherent s a A) : V'.Coherent s a A :=
    ⟨fun hx => hc.vars (hvars ▸ hx), fun hp => hc.lits (hlits ▸ hp), fun ht => hc.bits (hbits ▸ ht)⟩
  exact {
    truth := h.truth
    vars := fun hx => h.vars (hvars ▸ hx)
    lits := fun hp => hlive ▸ h.lits (hlits ▸ hp)
    bits := fun ht => hlive ▸ h.bits (hbits ▸ ht)
    spans := hlive ▸ h.spans
    meets := fun ha => h.meets (hclauses _ ha)
    sound := fun ha hA => hcoherent (h.sound ha fun x p b hx hb => hA x p b (hvars ▸ hx) hb)
    free := fun A => by
      obtain ⟨a, B, hB, ha, hc⟩ := h.free A
      exact ⟨a, B, haux ▸ hB, ha, hcoherent hc⟩ }

/-- A view of more than before, with clauses that say what the new things mean: they determine their
values from those of atoms, and leave the atoms free. -/
theorem Exact.extend (h : V.Exact s one defs)
    (hold : ∀ {x p}, V.vars x = some p → V'.vars x = some p)
    (hvars : ∀ {x p}, V'.vars x = some p → s.Has p .bool ∧ p.isNegated = false)
    (hlits : ∀ {p l}, V'.lits p = some l → s.Has p .bool ∧ V'.Live l.var)
    (hbits : ∀ {t word}, V'.bits t = some word → s.HasWidth t word.length ∧ Over V'.Live word)
    (hover : ∀ c ∈ cs, Over V'.Live c)
    (hmeets : ∀ a, V'.clauses.Models a → V.clauses.Models a ∧ Meets a cs)
    (hsound : ∀ a A, Meets a defs → Meets a cs → V'.Agrees s a A → V.Coherent s a A →
      V'.Coherent s a A)
    (hfree : ∀ A : Atoms, ∃ a B, A.Except V'.aux B ∧ Meets a (defs ++ cs) ∧ V'.Coherent s a B) :
    V'.Exact s one (defs ++ cs) where
  truth := List.mem_append_left _ h.truth
  vars := hvars
  lits := hlits
  bits := hbits
  spans c hc := (List.mem_append.mp hc).elim (fun hc => (h.spans c hc).mono fun _ hx => hx.imp
    fun _ => hold) (hover c)
  meets ha := meets_append.mpr ⟨h.meets (hmeets _ ha).1, (hmeets _ ha).2⟩
  sound {a A} ha hA := by
    obtain ⟨hdefs, hcs⟩ := meets_append.mp ha
    exact hsound a A hdefs hcs hA (h.sound hdefs fun x p b hx hb => hA x p b (hold hx) hb)
  free := hfree

theorem ne_of_fresh (hfresh : V.vars v = none) {x : Nat} {q : Term} (hx : V.vars x = some q) :
    x ≠ v := by
  rintro rfl
  exact absurd (hfresh.symm.trans hx) nofun

/-- More clauses that hold already, whenever all that is defined has its value. -/
theorem Exact.addClauses (h : V.Exact s one defs) (hover : ∀ c ∈ cs, Over V.Live c)
    (hmeets : ∀ a, V.clauses.Models a → Meets a cs)
    (hcs : ∀ a A, Meets a defs → V.Coherent s a A → Meets a cs) :
    V.Exact s one (defs ++ cs) := by
  refine h.extend id h.vars h.lits h.bits hover (fun a ha => ⟨ha, hmeets a ha⟩)
    (fun _ _ _ _ _ hc => hc) fun A => ?_
  obtain ⟨a, B, hB, ha, hc⟩ := h.free A
  exact ⟨a, B, hB, meets_append.mpr ⟨ha, hcs a B ha hc⟩, hc⟩

/-- A new variable, with clauses that say what it means. -/
theorem Exact.addVar (h : V.Exact s one defs) (hp : s.Has p .bool) (hneg : p.isNegated = false)
    (hfresh : V.vars v = none) (hvars : ∀ x, V'.vars x = if x = v then some p else V.vars x)
    (hlits : V'.lits = V.lits) (hbits : V'.bits = V.bits) (hover : ∀ c ∈ cs, Over V'.Live c)
    (hmeets : ∀ a, V'.clauses.Models a → V.clauses.Models a ∧ Meets a cs)
    (hsound : ∀ a A, Meets a defs → Meets a cs → V'.Agrees s a A → V.Coherent s a A →
      a v = (A.value s p).toBool)
    (hfree : ∀ A : Atoms, ∃ a B, A.Except V'.aux B ∧ Meets a (defs ++ cs) ∧ V.Coherent s a B ∧
      a v = (B.value s p).toBool) : V'.Exact s one (defs ++ cs) := by
  have hold {x : Nat} {q : Term} (hx : V.vars x = some q) : V'.vars x = some q :=
    (hvars x).trans ((if_neg (ne_of_fresh hfresh hx)).trans hx)
  have hnew {x : Nat} {q : Term} (hx : V'.vars x = some q) : x = v ∧ q = p ∨ V.vars x = some q := by
    rw [hvars] at hx
    split at hx
    next heq => exact .inl ⟨heq, (Option.some.inj hx).symm⟩
    next => exact .inr hx
  have hlive {x : Nat} (hx : V.Live x) : V'.Live x := hx.imp fun _ => hold
  have hcoherent {a : Nat → Bool} {A : Atoms} (hc : V.Coherent s a A)
    (hv : a v = (A.value s p).toBool) :
      V'.Coherent s a A := by
    refine ⟨fun {x q} hx => ?_, fun hq => hc.lits (hlits ▸ hq), fun ht => hc.bits (hbits ▸ ht)⟩
    rcases hnew hx with ⟨rfl, rfl⟩ | hx
    · exact hv
    · exact hc.vars hx
  refine h.extend hold (fun {x q} hx => ?_) (fun hq => ?_) (fun ht => ?_) hover hmeets
    (fun a A hdefs hcs hA hc => hcoherent hc (hsound a A hdefs hcs hA hc)) fun A => ?_
  · rcases hnew hx with ⟨-, rfl⟩ | hx
    · exact ⟨hp, hneg⟩
    · exact h.vars hx
  · exact ⟨(h.lits (hlits ▸ hq)).1, hlive (h.lits (hlits ▸ hq)).2⟩
  · exact ⟨(h.bits (hbits ▸ ht)).1, (h.bits (hbits ▸ ht)).2.mono fun _ => hlive⟩
  · obtain ⟨a, B, hB, ha, hc, hv⟩ := hfree A
    exact ⟨a, B, hB, ha, hcoherent hc hv⟩

/-- The value of a variable that is not live does not matter. -/
theorem update_eq (hfresh : V.vars v = none) (a : Nat → Bool) (b : Bool) {x : Nat} (hx : V.Live x) :
    a x = Function.update a v b x :=
  (Function.update_of_ne (hx.elim fun _ hx => ne_of_fresh hfresh hx) _ _).symm

/-- A new variable of a new constant, with clauses that give it the value `m`. -/
theorem Exact.addOutput (h : V.Exact s one defs) (hw : s.Wf) (hw' : s'.Wf) (e : s.Extends s')
    {m : (Nat → Bool) → Bool}
    (hdead : s.node? p = none) {n : Nat} (hnode : s'.node? p = some (.uninterpreted .bool n, .bool))
    (hneg : p.isNegated = false) (hfresh : V.vars v = none)
    (hvars : ∀ x, V'.vars x = if x = v then some p else V.vars x)
    (hlits : V'.lits = V.lits) (hbits : V'.bits = V.bits) (haux : ∀ u, u = p ∨ V.aux u → V'.aux u)
    (hover : ∀ c ∈ cs, Over V'.Live c)
    (hmeets : ∀ a, V'.clauses.Models a → V.clauses.Models a ∧ Meets a cs)
    (hcs : ∀ a, Meets a cs ↔ a v = m a) (hm : ∀ {a b}, (∀ x, V.Live x → a x = b x) → m a = m b) :
    V'.Exact s' one (defs ++ cs) := by
  have hp : s'.Has p .bool := ⟨⟨_, hnode⟩, fun _ => rfl⟩
  have hvalue (A : Atoms) : A.value s' p = .bool (A.holds p) := by
    refine A.value_of_atom? hw' hp hneg ?_
    unfold Atoms.atom?
    rw [Interp.node?_of_shape hnode]
  refine (h.of_extends hw hw' e).addVar hp hneg hfresh hvars hlits hbits hover hmeets
    (fun a A _ _ hA _ => ?_) fun A => ?_
  · refine (hA v p (A.holds p) ((hvars v).trans (if_pos rfl)) ?_).trans (by rw [hvalue]; rfl)
    unfold Atoms.atom?
    rw [Interp.node?_of_shape hnode]
  · obtain ⟨a, B, hB, ha, hc⟩ := h.free A
    have hlive : ∀ x, V.Live x → a x = Function.update a v (m a) x :=
      fun x => update_eq hfresh a (m a)
    refine ⟨Function.update a v (m a), B.set p (m a), ?_,
      meets_append.mpr ⟨ha.congr h.spans hlive, ?_⟩, ?_, ?_⟩
    · exact (hB.mono fun u hu => haux u (.inr hu)).set (haux p (.inl rfl)) (m a)
    · rw [hcs, Function.update_self]
      exact hm hlive
    · exact ((hc.congr h hlive).set h hw hdead (m a)).of_extends h hw hw' e
    · rw [hvalue, Function.update_self]
      exact (if_pos rfl).symm

/-- A new variable of a term, with clauses that determine its value and hold when it has it. -/
theorem Exact.addAtom (h : V.Exact s one defs) (hw : s.Wf) (hp : s.Has p .bool)
    (hneg : p.isNegated = false)
    (hfresh : V.vars v = none) (hvars : ∀ x, V'.vars x = if x = v then some p else V.vars x)
    (hlits : V'.lits = V.lits) (hbits : V'.bits = V.bits) (haux : V'.aux = V.aux)
    (hover : ∀ c ∈ cs, Over V'.Live c)
    (hmeets : ∀ a, V'.clauses.Models a → V.clauses.Models a ∧ Meets a cs)
    (hsound : ∀ a A, Meets a defs → V.Agrees s a A → Meets a cs →
      (∀ b, A.atom? s p = some b → a v = b) →
      a v = (A.value s p).toBool)
    (hfree : ∀ a A, Meets a defs → V.Agrees s a A → a v = (A.value s p).toBool → Meets a cs) :
    V'.Exact s one (defs ++ cs) := by
  refine h.addVar hp hneg hfresh hvars hlits hbits hover hmeets (fun a A ha hcs hA hc => ?_)
    fun A => ?_
  · exact hsound a A ha (hc.agrees hw h) hcs fun b hb => hA v p b ((hvars v).trans (if_pos rfl)) hb
  · obtain ⟨a, B, hB, ha, hc⟩ := h.free A
    have hlive (b : Bool) : ∀ x, V.Live x → a x = Function.update a v b x :=
      fun x => update_eq hfresh a b
    have ha' (b : Bool) : Meets (Function.update a v b) defs := ha.congr h.spans (hlive b)
    have hc' (b : Bool) : V.Coherent s (Function.update a v b) B := hc.congr h (hlive b)
    have hv (b : Bool) : Function.update a v b v = b := Function.update_self ..
    exact ⟨Function.update a v (B.value s p).toBool, B, haux ▸ hB,
      meets_append.mpr ⟨ha' _, hfree _ B (ha' _) ((hc' _).agrees hw h) (hv _)⟩, hc' _, hv _⟩

/-- Another literal is remembered for a term, which has the value of the term. -/
theorem Exact.addLit (h : V.Exact s one defs) {l : Literal} (hp : s.Has p .bool) (hl : V.Live l.var)
    (hvalue : ∀ a A, Meets a defs → V.Agrees s a A → l.eval a = (A.value s p).toBool) (hw : s.Wf)
    (hlits : ∀ q, V'.lits q = if q = p then some l else V.lits q) (hvars : V'.vars = V.vars)
    (hbits : V'.bits = V.bits)
    (haux : V'.aux = V.aux) (hclauses : V'.clauses = V.clauses) : V'.Exact s one defs := by
  have hlive : V'.Live = V.Live := by
    unfold View.Live
    rw [hvars]
  have hcoherent {a : Nat → Bool} {A : Atoms} (ha : Meets a defs) (hA : V.Agrees s a A)
    (hc : V.Coherent s a A) :
      V'.Coherent s a A := by
    refine ⟨fun hx => hc.vars (hvars ▸ hx), fun {q k} hq => ?_, fun ht => hc.bits (hbits ▸ ht)⟩
    rw [hlits] at hq
    split at hq
    next heq => cases hq; exact heq ▸ hvalue a A ha hA
    next => exact hc.lits hq
  rw [← List.append_nil defs]
  refine h.extend (fun hx => hvars ▸ hx) (fun hx => h.vars (hvars ▸ hx)) (fun {q k} hq => ?_)
    (fun ht => hlive ▸ h.bits (hbits ▸ ht)) nofun (fun a ha => ⟨hclauses ▸ ha, meets_nil a⟩)
    (fun a A ha _ hA hc => hcoherent ha (fun x q b hx hb => hA x q b (hvars ▸ hx) hb) hc) fun A =>
      ?_
  · rw [hlive]
    rw [hlits] at hq
    split at hq
    next heq => cases hq; exact ⟨heq ▸ hp, hl⟩
    next => exact h.lits hq
  · obtain ⟨a, B, hB, ha, hc⟩ := h.free A
    exact ⟨a, B, haux ▸ hB, (List.append_nil defs).symm ▸ ha, hcoherent ha (hc.agrees hw h) hc⟩

/-- Another word is remembered for a term, which has the value of the term. -/
theorem Exact.addWord (h : V.Exact s one defs) {t : Term} {word : List Literal}
    (ht : s.HasWidth t word.length) (hl : Over V.Live word)
    (hvalue : ∀ a A, Meets a defs → V.Agrees s a A → Literal.number a word = (A.value s t).toNat)
    (hw : s.Wf) (hbits : ∀ u, V'.bits u = if u = t then some word else V.bits u)
    (hvars : V'.vars = V.vars)
    (hlits : V'.lits = V.lits) (haux : V'.aux = V.aux) (hclauses : V'.clauses = V.clauses) :
    V'.Exact s one defs := by
  have hlive : V'.Live = V.Live := by
    unfold View.Live
    rw [hvars]
  have hcoherent {a : Nat → Bool} {A : Atoms} (ha : Meets a defs) (hA : V.Agrees s a A)
    (hc : V.Coherent s a A) :
      V'.Coherent s a A := by
    refine ⟨fun hx => hc.vars (hvars ▸ hx), fun hp => hc.lits (hlits ▸ hp), fun {u k} hu => ?_⟩
    rw [hbits] at hu
    split at hu
    next heq => cases hu; exact heq ▸ hvalue a A ha hA
    next => exact hc.bits hu
  rw [← List.append_nil defs]
  refine h.extend (fun hx => hvars ▸ hx) (fun hx => h.vars (hvars ▸ hx))
    (fun hp => hlive ▸ h.lits (hlits ▸ hp))
    (fun {u k} hu => ?_) nofun (fun a ha => ⟨hclauses ▸ ha, meets_nil a⟩)
    (fun a A ha _ hA hc => hcoherent ha (fun x q b hx hb => hA x q b (hvars ▸ hx) hb) hc) fun A =>
      ?_
  · rw [hlive]
    rw [hbits] at hu
    split at hu
    next heq => cases hu; exact ⟨heq ▸ ht, hl⟩
    next => exact h.bits hu
  · obtain ⟨a, B, hB, ha, hc⟩ := h.free A
    exact ⟨a, B, haux ▸ hB, (List.append_nil defs).symm ▸ ha, hcoherent ha (hc.agrees hw h) hc⟩

end View
end Context
end Entail
