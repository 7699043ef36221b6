import Entail.Proofs.Arena
import Entail.Proofs.Moves
import Entail.Store.Build

/-!
# What building terms leaves alone

A constructor touches neither references nor names. When it refuses its arguments, it says why to
its caller; a dead handle is such a reason, and not the broken promise that it is for a
substitution. And it stores no sum of less than two summands and no quantifier without variables.
-/

namespace Entail

/-- A sum has two summands at least, and a quantifier binds some variable. -/
def Term.Shape.Regular : Term.Shape → Prop
  | .bvSum args => 2 ≤ args.length
  | .all vars _ => vars ≠ []
  | _ => True

/-- A cause that is an answer to the caller, and no broken promise. -/
def TermError.Fair (e : TermError) : Prop := ∀ t, e ≠ .dangling t

namespace Store

variable {s s' : Store} {α β : Type}

/-! ## Checks -/

/-- A check that is not passed says why. -/
def Fair (x : Except TermError α) : Prop := ∀ e, x = .error e → e.Fair

namespace Fair

variable {x : Except TermError α} {f : α → Except TermError β}

/-- What passes gives no cause. -/
theorem ok (a : α) : Fair (.ok a) := nofun

/-- A cause that is an answer. -/
theorem error {e : TermError} (h : e.Fair) : Fair (.error e : Except TermError α) := fun _ he => by
  cases he
  exact h

/-- Checks one after the other. -/
theorem bind (h : Fair x) (hf : ∀ a, Fair (f a)) : Fair (x >>= f) := by
  cases x with
  | ok a => exact hf a
  | error e => exact error (h e rfl)

/-- A condition that is looked at before the rest. -/
theorem guard {c : Prop} [Decidable c] {e : TermError} {f : PUnit → Except TermError α} (h : e.Fair)
    (hf : Fair (f ⟨⟩)) : Fair (if c then throw e >>= f else f ⟨⟩) := by
  split
  · exact error h
  · exact hf

/-- A check of every member of a list. -/
theorem forM {g : α → Except TermError Unit} (as : List α) (h : ∀ a, Fair (g a)) :
    Fair (as.forM g) := by
  induction as with
  | nil => exact ok _
  | cons a as ih => exact bind (h a) fun _ => ih

variable (s : Store)

/-- A dead handle is reported to the caller who gave it. -/
theorem check (t : Term) : Fair (s.check t) := by
  unfold Store.check
  split
  · exact ok _
  · exact error nofun

theorem checkTy (ty : Ty) : Fair (s.checkTy ty) := by
  unfold Store.checkTy
  split
  · exact ok _
  · exact error nofun

/-- The type of a dead handle is refused as the handle is. -/
theorem typeOf (t : Term) : Fair (s.typeOf t) := bind (check s t) fun _ => ok _

/-- A term of another type is reported. -/
theorem checkBool (t : Term) : Fair (s.checkBool t) := by
  refine bind (typeOf s t) fun ty => ?_
  split
  · exact error nofun
  · exact ok _

theorem checkBv (t : Term) : Fair (s.checkBv t) := by
  refine bind (typeOf s t) fun ty => ?_
  split
  · exact ok _
  · exact error nofun

/-- Words of different widths are reported. -/
theorem checkSameWidth (a b : Term) : Fair (s.checkSameWidth a b) := by
  refine bind (checkBv s a) fun wa => bind (checkBv s b) fun wb => ?_
  split
  · exact error nofun
  · exact ok _

theorem checkSameType (a b : Term) : Fair (s.checkSameType a b) := by
  refine bind (typeOf s a) fun ta => bind (typeOf s b) fun tb => ?_
  split
  · exact error nofun
  · exact ok _

/-- No argument at all is reported, and so is one whose width differs from the first. -/
theorem checkBvArgs (args : List Term) : Fair (s.checkBvArgs args) := by
  cases args with
  | nil => exact error nofun
  | cons first rest =>
    refine bind (checkBv s first) fun w => bind (forM rest fun t => ?_) fun _ => ok _
    exact bind (checkSameWidth s first t) fun _ => ok _

theorem checkArgs (args : List (Term × Ty)) : Fair (s.checkArgs args) := by
  induction args with
  | nil => exact ok _
  | cons x rest ih =>
    refine bind (typeOf s x.1) fun ty => ?_
    split
    · exact error nofun
    · exact ih

/-- What is no function, the number of the arguments and their types are reported, in this order. -/
theorem checkApp (f : Term) (args : List Term) : Fair (s.checkApp f args) := by
  refine bind (typeOf s f) fun ty => ?_
  split
  · exact guard nofun (guard nofun (bind (checkArgs s _) fun _ => ok _))
  · exact error nofun

/-- A variable that is none, or that comes twice, is reported. -/
theorem checkVars (before vars : List Term) : Fair (s.checkVars before vars) := by
  induction vars generalizing before with
  | nil => exact ok _
  | cons v rest ih =>
    exact bind (check s v) fun _ => guard nofun (guard nofun (ih _))

end Fair

/-! ## Constructors -/

/-- The reference counts and the names are the same. -/
structure SameRecords (s s' : Store) : Prop where
  termRefs : s'.termRefs = s.termRefs
  typeRefs : s'.typeRefs = s.typeRefs
  termNames : s'.termNames = s.termNames
  typeNames : s'.typeNames = s.typeNames

/-- To touch neither references nor names is to leave them as they are. -/
theorem records_frame : Frame (fun _ => True) SameRecords where
  refl _ := ⟨rfl, rfl, rfl, rfl⟩
  trans h h' := ⟨h'.termRefs.trans h.termRefs, h'.typeRefs.trans h.typeRefs,
    h'.termNames.trans h.termNames,
    h'.typeNames.trans h.typeNames⟩
  stable _ _ := trivial

/-- All sums and quantifiers in the store are regular. -/
def Regular (s : Store) : Prop := ∀ ⦃i shape ty⦄, s.terms.get? i = some (shape, ty) → shape.Regular

/-- Nothing irregular is stored. -/
def StaysRegular (s s' : Store) : Prop := s.Regular → s'.Regular

/-- Nothing irregular comes about step by step. -/
theorem regular_frame : Frame (fun _ => True) StaysRegular where
  refl _ := id
  trans h h' := h' ∘ h
  stable _ _ := trivial

/-- Only the terms matter. -/
theorem Regular.of_terms (h : s.Regular) (hterms : s'.terms = s.terms) : s'.Regular :=
  fun _ _ _ hi => h (hterms ▸ hi)

/-- A stored sum or quantifier is regular. -/
theorem Regular.node (h : s.Regular) {t : Term} {n : Term.Shape × Ty} (hn : s.node? t = some n) :
    n.1.Regular := h hn

/-- Whatever happens, references and names stay, nothing irregular is stored, and a refusal is an
answer to the caller. -/
structure Orderly (op : Op α) : Prop where
  records : Moves (fun _ => True) SameRecords op
  regular : Moves (fun _ => True) StaysRegular op
  fair : ∀ {s s' e}, op s = .error e s' → e.Fair

namespace Orderly

theorem read {g : Store → Except TermError α} (hg : ∀ s, Fair (g s)) : Orderly (Store.read g) where
  records s _ := by
    unfold Store.read
    split <;> exact records_frame.refl trivial
  regular s _ := by
    unfold Store.read
    split <;> exact regular_frame.refl trivial
  fair {s s' e} h := by
    unfold Store.read at h
    cases hgs : g s with
    | ok a =>
      rw [hgs] at h
      cases h
    | error e' =>
      rw [hgs] at h
      cases h
      exact hg s _ hgs

theorem look (g : Store → α) : Orderly (Store.look g) :=
  ⟨fun _ _ => records_frame.refl trivial, fun _ _ => regular_frame.refl trivial, nofun⟩

theorem pure (a : α) : Orderly (Pure.pure a) := ⟨records_frame.pure a, regular_frame.pure a, nofun⟩

theorem throw {e : TermError} (h : e.Fair) : Orderly (MonadExcept.throw e : Op α) :=
  ⟨records_frame.throw e, regular_frame.throw e, fun he => by
    cases he
    exact h⟩

/-- The rest of a bind may use what the first part can answer. -/
theorem bind' {op : Op α} {f : α → Op β} (h : Orderly op)
    (hf : ∀ a, (∃ s s', op s = .ok a s') → Orderly (f a)) :
    Orderly (op >>= f) where
  records := records_frame.bind' h.records fun s a s' _ hop _ =>
    (hf a ⟨s, s', hop⟩).records s' trivial
  regular := regular_frame.bind' h.regular fun s a s' _ hop _ =>
    (hf a ⟨s, s', hop⟩).regular s' trivial
  fair {s s' e} he := by
    cases hop : op s with
    | ok a s₁ =>
      rw [bind_of_ok hop] at he
      exact (hf a ⟨s, s₁, hop⟩).fair he
    | error e' s₁ =>
      rw [bind_of_error hop] at he
      cases he
      exact h.fair hop

theorem bind {op : Op α} {f : α → Op β} (h : Orderly op) (hf : ∀ a, Orderly (f a)) :
    Orderly (op >>= f) :=
  bind' h fun a _ => hf a

theorem read_bind {g : Store → Except TermError α} {f : α → Op β} (hg : ∀ s, Fair (g s))
    (hf : ∀ a, Orderly (f a)) :
    Orderly (Store.read g >>= f) :=
  bind (read hg) hf

theorem look_bind {g : Store → α} {f : α → Op β} (hf : ∀ a, Orderly (f a)) :
    Orderly (Store.look g >>= f) :=
  bind (look g) hf

theorem ite {c : Prop} [Decidable c] {a b : Op α} (ha : Orderly a) (hb : Orderly b) :
    Orderly (if c then a else b) := by
  split
  · exact ha
  · exact hb

theorem intern (shape : Term.Shape) (ty : Ty) (h : shape.Regular) :
    Orderly (Store.intern shape ty) where
  records _ _ := ⟨rfl, rfl, rfl, rfl⟩
  regular s _ hs i shape' ty' hi := by
    rcases Arena.get?_intern hi with heq | hi
    · cases heq
      exact h
    · exact hs hi
  fair := nofun

theorem internTy (shape : Ty.Shape) : Orderly (Store.internTy shape) :=
  ⟨fun _ _ => ⟨rfl, rfl, rfl, rfl⟩, fun _ _ hs => hs.of_terms rfl, nofun⟩

theorem freshSerial : Orderly freshSerial :=
  ⟨fun _ _ => ⟨rfl, rfl, rfl, rfl⟩, fun _ _ hs => hs.of_terms rfl, nofun⟩

theorem newConst (ty : Ty) : Orderly (newConst ty) :=
  read_bind (Fair.checkTy · ty) fun _ => bind freshSerial fun _ => intern _ _ trivial

theorem newVar (ty : Ty) : Orderly (newVar ty) :=
  read_bind (Fair.checkTy · ty) fun _ => bind freshSerial fun _ => intern _ _ trivial

theorem orOf (args : List Term) : Orderly (orOf args) := by
  refine ite (pure _) (ite (pure _) ?_)
  split
  · exact pure _
  · exact pure _
  · exact intern _ _ trivial

theorem or (args : List Term) : Orderly (or args) :=
  read_bind (fun s => Fair.forM args (Fair.checkBool s)) fun _ => orOf args

theorem and (args : List Term) : Orderly (and args) :=
  read_bind (fun s => Fair.forM args (Fair.checkBool s)) fun _ => bind (orOf _) fun _ => pure _

theorem xor2 (a b : Term) : Orderly (xor2 a b) := by
  have out {op : Op Term} {f : Term → Term} (h : Orderly op) :
      Orderly (op >>= fun r => Pure.pure (f r)) :=
    bind h fun _ => pure _
  refine read_bind (Fair.checkBool · a) fun _ => read_bind (Fair.checkBool · b) fun _ => ?_
  exact ite (out (pure _)) (ite (out (pure _)) (ite (out (pure _)) (ite (out (intern _ _ trivial))
    (out (intern _ _ trivial)))))

theorem iff (a b : Term) : Orderly (iff a b) := bind (xor2 a b) fun _ => pure _

theorem iteOf (ty : Ty) (c a b : Term) : Orderly (iteOf ty c a b) := by
  refine ite (ite (or _) (ite (and _)
    (ite (or _) (ite (and _) (ite (iff c a) (ite ?_ (intern _ _ trivial)))))))
    (intern _ _ trivial)
  exact bind (intern _ _ trivial) fun _ => pure _

theorem choice (c a b : Term) : Orderly (Store.ite c a b) :=
  read_bind (Fair.checkBool · c) fun _ => read_bind (Fair.checkSameType · a b) fun ty =>
    ite (pure _) (ite (pure _) (ite (iteOf ty _ _ _) (iteOf ty _ _ _)))

theorem eq (a b : Term) : Orderly (eq a b) := by
  refine read_bind (Fair.checkSameType · a b) fun _ =>
    ite (pure _) (ite (iff a b) (look_bind fun values => ?_))
  split
  · exact pure _
  · exact ite (intern _ _ trivial) (intern _ _ trivial)

theorem app (f : Term) (args : List Term) : Orderly (app f args) :=
  read_bind (Fair.checkApp · f args) fun _ => intern _ _ trivial

theorem all (vars : List Term) (body : Term) : Orderly (all vars body) := by
  unfold Store.all
  split
  · exact throw nofun
  next hne =>
    have hvars : vars ≠ [] := fun h => hne (List.isEmpty_iff.mpr h)
    exact read_bind (Fair.checkVars · [] vars) fun _ => read_bind (Fair.checkBool · body) fun _ =>
      ite (pure _) (intern _ _ hvars)

theorem bvType (w : Nat) : Orderly (bvType w) := ite (throw nofun) (ite (throw nofun) (internTy _))

theorem bvConst (w n : Nat) : Orderly (bvConst w n) := bind (bvType w) fun _ => intern _ _ trivial

theorem withConst (w neutral c : Nat) (rest : List Term) : Orderly (withConst w neutral c rest) :=
  ite (pure _) (bind (bvConst w c) fun _ => pure _)

theorem ne_nil_of_withConst {w neutral c : Nat} {rest ts : List Term} {s s' : Store}
    (hrest : rest ≠ []) (h : Store.withConst w neutral c rest s = .ok ts s') : ts ≠ [] := by
  unfold Store.withConst at h
  split at h
  · cases h
    exact hrest
  · obtain ⟨t, s₁, -, ht⟩ := bind_eq_ok.mp h
    cases ht
    exact List.cons_ne_nil _ _

theorem bvSum (args : List Term) : Orderly (bvSum args) := by
  refine read_bind (Fair.checkBvArgs · args) fun w => look_bind fun parts => ?_
  dsimp only
  split
  · exact bvConst w _
  next hrest =>
    refine bind' (withConst w _ _ _) fun ts hts => ?_
    have hne : ts ≠ [] := by
      obtain ⟨s, s', h⟩ := hts
      exact ne_nil_of_withConst (fun h => hrest (List.isEmpty_iff.mpr h)) h
    split
    · exact pure _
    next hmany =>
      -- neither empty nor a single summand
      have htwo : 2 ≤ (Term.sort ts).length := by
        rw [Term.sort, List.length_mergeSort]
        cases ts with
        | nil => exact absurd rfl hne
        | cons t rest =>
          cases rest with
          | nil => exact absurd rfl (hmany t)
          | cons => simp
      exact look_bind fun _ => intern _ _ htwo

theorem bvNeg (a : Term) : Orderly (bvNeg a) := by
  refine read_bind (Fair.checkBv · a) fun w => look_bind fun shape => ?_
  split
  · exact bvConst w _
  · exact pure _
  · exact look_bind fun _ => intern _ _ trivial

theorem bvSub (a b : Term) : Orderly (bvSub a b) :=
  read_bind (Fair.checkSameWidth · a b) fun _ => bind (bvNeg b) fun _ => bvSum _

theorem bvProduct (args : List Term) : Orderly (bvProduct args) := by
  refine read_bind (Fair.checkBvArgs · args) fun w => look_bind fun parts =>
    ite (bvConst w _) (ite (throw nofun) (bind (withConst w _ _ _) fun ts => ?_))
  split
  · exact pure _
  · exact look_bind fun _ => intern _ _ trivial

theorem bvGe (a b : Term) : Orderly (bvGe a b) := by
  refine read_bind (Fair.checkSameWidth · a b) fun _ => ite (pure _) (look_bind fun values => ?_)
  split
  · exact pure _
  · exact pure _
  · exact intern _ _ trivial

theorem bvSge (a b : Term) : Orderly (bvSge a b) := by
  refine read_bind (Fair.checkSameWidth · a b) fun w => ite (pure _) (look_bind fun values => ?_)
  split
  · exact pure _
  · exact ite (pure _) (intern _ _ trivial)
  · exact intern _ _ trivial

theorem bit (x : Term) (i : Nat) : Orderly (bit x i) := by
  refine read_bind (Fair.checkBv · x) fun w => ite (throw nofun) (look_bind fun value => ?_)
  split
  · exact pure _
  · exact intern _ _ trivial

end Orderly
end Store
end Entail
