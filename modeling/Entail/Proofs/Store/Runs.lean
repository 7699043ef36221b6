import Entail.Proofs.Store.Collect
import Entail.Proofs.Store.Orderly
import Entail.Proofs.Store.Steady

/-!
# Runs of operations on a store

A store is used by building types and terms, putting terms for atoms, naming, counting references
and collecting garbage, in any order. Everything but a collection extends the store; a collection
keeps what it needs to. So the store is always well-formed, and its reference counts are positive.
-/

namespace Entail.Store

variable {s s' : Store} {α β : Type}

/-! ## Building -/

/-- The store was extended by nothing irregular, and references and names are the same. -/
structure Built (s s' : Store) : Prop where
  later : Later s s'
  records : SameRecords s s'
  regular : StaysRegular s s'

/-- The steps by which a store is built compose. -/
theorem built_frame : Frame Wf Built where
  refl h := ⟨later_frame.refl h, records_frame.refl trivial, regular_frame.refl trivial⟩
  trans h h' := ⟨later_frame.trans h.later h'.later, records_frame.trans h.records h'.records,
    regular_frame.trans h.regular h'.regular⟩
  stable _ h := h.later.wf

/-- An orderly constructor that only extends the store builds it. -/
theorem Orderly.built {op : Op α} (h : Orderly op) (h' : Moves Wf Later op) : Moves Wf Built op :=
  fun s hs => ⟨h' s hs, h.records s trivial, h.regular s trivial⟩

/-- All constructors of terms build the store. -/
theorem builders_built : Builders Wf Built where
  toFrame := built_frame
  or args := (Orderly.or args).built (or_moves args)
  xor2 a b := (Orderly.xor2 a b).built (xor2_moves a b)
  ite c a b := (Orderly.choice c a b).built (ite_moves c a b)
  eq a b := (Orderly.eq a b).built (eq_moves a b)
  app f args := (Orderly.app f args).built (app_moves f args)
  all vars body := (Orderly.all vars body).built (all_moves vars body)
  bvSum args := (Orderly.bvSum args).built (bvSum_moves args)
  bvProduct args := (Orderly.bvProduct args).built (bvProduct_moves args)
  bvNeg a := (Orderly.bvNeg a).built (bvNeg_moves a)
  bvGe a b := (Orderly.bvGe a b).built (bvGe_moves a b)
  bvSge a b := (Orderly.bvSge a b).built (bvSge_moves a b)
  bit x i := (Orderly.bit x i).built (bit_moves x i)

/-- The operations that build types and terms. -/
inductive Builder : {α : Type} → Op α → Prop where
  | bvType (width : Nat) : Builder (bvType width)
  | newSort : Builder newSort
  | functionType (domain : List Ty) (range : Ty) : Builder (functionType domain range)
  | newConst (ty : Ty) : Builder (newConst ty)
  | newVar (ty : Ty) : Builder (newVar ty)
  | not (t : Term) : Builder (not t)
  | or (args : List Term) : Builder (or args)
  | and (args : List Term) : Builder (and args)
  | implies (a b : Term) : Builder (implies a b)
  | xor2 (a b : Term) : Builder (xor2 a b)
  | xor (args : List Term) : Builder (xor args)
  | iff (a b : Term) : Builder (iff a b)
  | ite (c a b : Term) : Builder (Store.ite c a b)
  | eq (a b : Term) : Builder (eq a b)
  | neq (a b : Term) : Builder (neq a b)
  | distinct (args : List Term) : Builder (distinct args)
  | app (f : Term) (args : List Term) : Builder (app f args)
  | all (vars : List Term) (body : Term) : Builder (all vars body)
  | exists_ (vars : List Term) (body : Term) : Builder (exists_ vars body)
  | bvConst (width value : Nat) : Builder (bvConst width value)
  | bvConstOfBits (bits : List Bool) : Builder (bvConstOfBits bits)
  | bvSum (args : List Term) : Builder (bvSum args)
  | bvNeg (a : Term) : Builder (bvNeg a)
  | bvSub (a b : Term) : Builder (bvSub a b)
  | bvProduct (args : List Term) : Builder (bvProduct args)
  | bvPower (a : Term) (degree : Nat) : Builder (bvPower a degree)
  | bvGe (a b : Term) : Builder (bvGe a b)
  | bvGt (a b : Term) : Builder (bvGt a b)
  | bvLt (a b : Term) : Builder (bvLt a b)
  | bvSge (a b : Term) : Builder (bvSge a b)
  | bvSgt (a b : Term) : Builder (bvSgt a b)
  | bvSlt (a b : Term) : Builder (bvSlt a b)
  | bit (x : Term) (i : Nat) : Builder (bit x i)
  | subst (σ : Subst) (t : Term) : Builder (subst σ t)
  | substTerm (pairs : List (Term × Term)) (t : Term) : Builder (substTerm pairs t)

theorem newVar_moves (ty : Ty) : Moves Wf Later (newVar ty) :=
  Builds.moves fun _ hw => fresh_builds hw ty (.var ty) (.inr fun _ => rfl)

theorem bvType_moves (w : Nat) : Moves Wf Later (bvType w) :=
  Builds.moves fun _ hw => bvType_builds hw w

theorem bvConst_moves (w n : Nat) : Moves Wf Later (bvConst w n) :=
  Builds.moves fun _ hw => bvConst_builds hw w n

theorem and_moves (args : List Term) : Moves Wf Later (and args) :=
  Builds.moves fun _ hw => and_builds hw args

theorem built_bvSub (a b : Term) : Moves Wf Built (bvSub a b) :=
  (Orderly.bvSub a b).built (bvSub_moves a b)

/-- Interning a type whose parts are live. -/
theorem built_internTy (hw : s.Wf) {shape : Ty.Shape} (hok : s.TyOk shape) :
    Built s (endState (internTy shape s)) := by
  obtain ⟨ty, s', heq, hlater, -⟩ := internTy_spec hw shape hok
  have hrecords := (Orderly.internTy shape).records s trivial
  have hregular := (Orderly.internTy shape).regular s trivial
  rw [heq] at hrecords hregular ⊢
  exact ⟨hlater, hrecords, hregular⟩

theorem built_newSort : Moves Wf Built newSort := by
  intro s hw
  have hext : s.Extends { s with typeSerial := s.typeSerial + 1 } :=
    ⟨id, id, Nat.le_succ _, Nat.le_refl _, Nat.le_refl _⟩
  have hserial : Later s { s with typeSerial := s.typeSerial + 1 } :=
    ⟨⟨hw.types, hw.terms, hw.bool_ty, hw.truth, fun hty => hext.tyOk (hw.ty_ok hty), fun hi =>
      hext.typed (hw.typed hi),
      hw.live_ty, hw.serial, hw.ranked⟩, hext⟩
  have hbuilt : Built s { s with typeSerial := s.typeSerial + 1 } :=
    ⟨hserial, ⟨rfl, rfl, rfl, rfl⟩, fun hs => hs.of_terms rfl⟩
  exact built_frame.trans hbuilt (built_internTy hserial.wf (Nat.lt_succ_self _))

theorem built_functionType (domain : List Ty) (range : Ty) :
    Moves Wf Built (functionType domain range) := by
  intro s hw
  unfold functionType
  split
  · exact built_frame.refl hw
  next hdomain =>
    show Built s (endState ((Store.read (fun s => (domain ++ [range]).forM s.checkTy) >>= fun _ =>
      internTy (.function domain range)) s))
    cases hchk : (domain ++ [range]).forM s.checkTy with
    | error e =>
      rw [bind_of_error (show Store.read _ s = .error e s by simp [Store.read, hchk])]
      exact built_frame.refl hw
    | ok u =>
      rw [bind_of_ok (show Store.read _ s = .ok u s by simp [Store.read, hchk])]
      refine built_internTy hw ⟨?_, fun ty hty => checkTy_eq_ok (forM_eq_ok hchk ty hty)⟩
      simpa using hdomain

/-- Frames that all constructors stay in. -/
structure Constructors (P : Store → Prop) (R : Store → Store → Prop) :
    Prop extends Builders P R where
  bvType : ∀ w, Moves P R (bvType w)
  newSort : Moves P R newSort
  functionType : ∀ domain range, Moves P R (functionType domain range)
  newConst : ∀ ty, Moves P R (newConst ty)
  newVar : ∀ ty, Moves P R (newVar ty)
  and : ∀ args, Moves P R (and args)
  bvConst : ∀ w n, Moves P R (bvConst w n)

/-- What is built from whatever handles moves along every frame that all constructors move along. -/
theorem Constructors.moves {P : Store → Prop} {R : Store → Store → Prop} (hB : Constructors P R)
    {op : Op α} (h : Builder op) : Moves P R op := by
  have hR := hB.toFrame
  have hread {β : Type} (g : Store → Except TermError β) : Moves P R (Store.read g) :=
      fun s hs => by
    unfold Store.read
    split <;> exact hR.refl hs
  have neg {op : Op Term} (hop : Moves P R op) : Moves P R (do return (← op).neg) :=
    hR.bind hop fun _ => hR.pure _
  have hpairs (args : List Term) : Moves P R (distinct.pairs args) := by
    -- the disequalities of a list are built one after the other
    induction args with
    | nil => exact hR.pure _
    | cons a rest ih =>
      exact hR.bind (hR.mapM rest fun b _ => neg (hB.eq a b)) fun here => hR.bind ih fun _ =>
        hR.pure _
  cases h with
  | bvType w => exact hB.bvType w
  | newSort => exact hB.newSort
  | functionType domain range => exact hB.functionType domain range
  | newConst ty => exact hB.newConst ty
  | newVar ty => exact hB.newVar ty
  | not t => exact hR.bind (hread _) fun _ => hR.pure _
  | or args => exact hB.or args
  | and args => exact hB.and args
  | implies a b => exact hR.bind (hread _) fun _ => hB.or _
  | xor2 a b => exact hB.xor2 a b
  | xor args => exact hR.foldlM args _ fun a b _ => hB.xor2 a b
  | iff a b => exact neg (hB.xor2 a b)
  | ite c a b => exact hB.ite c a b
  | eq a b => exact hB.eq a b
  | neq a b => exact neg (hB.eq a b)
  | distinct args =>
    unfold Store.distinct
    split
    · exact hR.throw _
    · exact hR.bind (hpairs args) fun _ => hB.and _
  | app f args => exact hB.app f args
  | all vars body => exact hB.all vars body
  | exists_ vars body => exact hR.bind (hread _) fun _ => neg (hB.all vars body.neg)
  | bvConst w n => exact hB.bvConst w n
  | bvConstOfBits bits => exact hB.bvConst _ _
  | bvSum args => exact hB.bvSum args
  | bvNeg a => exact hB.bvNeg a
  | bvSub a b => exact hR.bind (hread _) fun _ => hR.bind (hB.bvNeg b) fun _ => hB.bvSum _
  | bvProduct args => exact hB.bvProduct args
  | bvPower a degree =>
    refine hR.bind (hread _) fun w => ?_
    split
    · exact hR.throw _
    · split
      · exact hB.bvConst w 1
      · exact hB.bvProduct _
  | bvGe a b => exact hB.bvGe a b
  | bvGt a b => exact neg (hB.bvGe b a)
  | bvLt a b => exact neg (hB.bvGe a b)
  | bvSge a b => exact hB.bvSge a b
  | bvSgt a b => exact neg (hB.bvSge b a)
  | bvSlt a b => exact neg (hB.bvSge a b)
  | bit x i => exact hB.bit x i
  | subst σ t => exact hB.subst σ t
  | substTerm pairs t => exact hR.bind (hread _) fun _ => hR.bind (hread _) fun _ => hB.subst _ t

/-- All constructors of types and of fresh symbols build the store. -/
theorem constructors_built : Constructors Wf Built where
  toBuilders := builders_built
  bvType w := (Orderly.bvType w).built (bvType_moves w)
  newSort := built_newSort
  functionType := built_functionType
  newConst ty := (Orderly.newConst ty).built (newConst_moves ty)
  newVar ty := (Orderly.newVar ty).built (newVar_moves ty)
  and args := (Orderly.and args).built (and_moves args)
  bvConst w n := (Orderly.bvConst w n).built (bvConst_moves w n)

/-- Whatever is built from whatever handles, and whether it is refused or not, the store is
only extended. -/
theorem Builder.moves {op : Op α} (h : Builder op) : Moves Wf Built op := constructors_built.moves h

/-! ## Names and references -/

/-- The operations that name terms and types and count references to them. -/
inductive Recorder : {α : Type} → Op α → Prop where
  | incref (t : Term) : Recorder (incref t)
  | decref (t : Term) : Recorder (decref t)
  | increfTy (ty : Ty) : Recorder (increfTy ty)
  | decrefTy (ty : Ty) : Recorder (decrefTy ty)
  | setName (t : Term) (name : String) : Recorder (setName t name)
  | clearName (t : Term) : Recorder (clearName t)
  | removeName (name : String) : Recorder (removeName name)
  | setTypeName (ty : Ty) (name : String) : Recorder (setTypeName ty name)
  | clearTypeName (ty : Ty) : Recorder (clearTypeName ty)
  | removeTypeName (name : String) : Recorder (removeTypeName name)

/-- The types and terms are the same, and counts stay positive. -/
structure Recorded (s s' : Store) : Prop where
  types : s'.types = s.types
  terms : s'.terms = s.terms
  typeSerial : s'.typeSerial = s.typeSerial
  termSerial : s'.termSerial = s.termSerial
  termRefs : Positive s.termRefs → Positive s'.termRefs
  typeRefs : Positive s.typeRefs → Positive s'.typeRefs

theorem recorded_frame : Frame (fun _ => True) Recorded where
  refl _ := ⟨rfl, rfl, rfl, rfl, id, id⟩
  trans h h' := ⟨h'.types.trans h.types, h'.terms.trans h.terms, h'.typeSerial.trans h.typeSerial,
    h'.termSerial.trans h.termSerial, fun hs => h'.termRefs (h.termRefs hs), fun hs =>
      h'.typeRefs (h.typeRefs hs)⟩
  stable _ _ := trivial

section

variable {κ : Type} [BEq κ] [Hashable κ] [LawfulBEq κ] [LawfulHashable κ]
  {counts : Std.HashMap κ Nat}

theorem Positive.insert (h : Positive counts) (k : κ) {n : Nat} (hn : 0 < n) :
    Positive (counts.insert k n) := by
  intro j i hi
  rw [Std.HashMap.getElem?_insert] at hi
  split at hi
  · cases hi
    exact hn
  · exact h hi

theorem Positive.erase (h : Positive counts) (k : κ) : Positive (counts.erase k) := by
  intro j i hi
  rw [Std.HashMap.getElem?_erase] at hi
  split at hi
  · cases hi
  · exact h hi

end

/-- A call that counts references or gives names changes those tables only. -/
theorem Recorder.moves {op : Op α} (h : Recorder op) : Moves (fun _ => True) Recorded op := by
  have hR := recorded_frame
  have hread {β γ : Type} {g : Store → Except TermError β} {f : β → Op γ}
    (hf : ∀ b, Moves (fun _ => True) Recorded (f b)) :
      Moves (fun _ => True) Recorded (Store.read g >>= f) := by
    refine hR.bind (fun s _ => ?_) hf
    unfold Store.read
    split <;> exact hR.refl trivial
  have hnames {β : Type} {op : Op β} (hop : ∀ s, ∃ termNames typeNames,
    endState (op s) = { s with termNames, typeNames }) :
      Moves (fun _ => True) Recorded op := by
    intro s _
    obtain ⟨termNames, typeNames, heq⟩ := hop s
    rw [heq]
    exact ⟨rfl, rfl, rfl, rfl, id, id⟩
  cases h with
  | incref t => exact hread fun _ s _ =>
    ⟨rfl, rfl, rfl, rfl, fun hs => hs.insert _ (Nat.succ_pos _), id⟩
  | increfTy ty => exact hread fun _ s _ =>
    ⟨rfl, rfl, rfl, rfl, id, fun hs => hs.insert _ (Nat.succ_pos _)⟩
  | decref t =>
    refine hread fun _ => hR.bind (fun _ _ => hR.refl trivial) fun n => ?_
    split
    · exact hR.throw _
    · exact fun s _ => ⟨rfl, rfl, rfl, rfl, fun hs => hs.erase _, id⟩
    · exact fun s _ => ⟨rfl, rfl, rfl, rfl, fun hs => hs.insert _ (Nat.succ_pos _), id⟩
  | decrefTy ty =>
    refine hread fun _ => hR.bind (fun _ _ => hR.refl trivial) fun n => ?_
    split
    · exact hR.throw _
    · exact fun s _ => ⟨rfl, rfl, rfl, rfl, id, fun hs => hs.erase _⟩
    · exact fun s _ => ⟨rfl, rfl, rfl, rfl, id, fun hs => hs.insert _ (Nat.succ_pos _)⟩
  | setName t name => exact hread fun _ => hnames fun s => ⟨_, _, rfl⟩
  | clearName t => exact hread fun _ => hnames fun s => ⟨_, _, rfl⟩
  | removeName name => exact hnames fun s => ⟨_, _, rfl⟩
  | setTypeName ty name => exact hread fun _ => hnames fun s => ⟨_, _, rfl⟩
  | clearTypeName ty => exact hread fun _ => hnames fun s => ⟨_, _, rfl⟩
  | removeTypeName name => exact hnames fun s => ⟨_, _, rfl⟩

/-! ## Runs -/

/-- The handles of `s` stand for the same in `s'`, which is in order. -/
structure Keeps (s s' : Store) : Prop where
  intact : s'.Intact
  ext : s.Extends s'

/-- The steps that keep the store intact compose. -/
theorem keeps_frame : Frame Intact Keeps where
  refl h := ⟨h, .refl _⟩
  trans h h' := ⟨h'.intact, h.ext.trans h'.ext⟩
  stable _ h := h.intact

/-- Building keeps the store intact. -/
theorem Built.keeps (hs : s.Intact) (h : Built s s') : Keeps s s' :=
  ⟨⟨h.later.wf, h.records.termRefs ▸ hs.termRefs, h.records.typeRefs ▸ hs.typeRefs,
    h.regular hs.regular⟩, h.later.ext⟩

/-- A constructor keeps the store intact. -/
theorem Builder.keeps {op : Op α} (h : Builder op) : Moves Intact Keeps op :=
  fun s hs => (h.moves s hs.wf).keeps hs

/-- Counting references and giving names keeps the store intact. -/
theorem Recorded.keeps (hs : s.Intact) (h : Recorded s s') : Keeps s s' := by
  obtain ⟨types, typeSerial, typeRefs, terms, termSerial, termRefs, termNames, typeNames⟩ := s'
  obtain ⟨rfl, rfl, rfl, rfl, htermRefs, htypeRefs⟩ := h
  have hext : s.Extends ⟨s.types, s.typeSerial, typeRefs, s.terms, s.termSerial, termRefs,
      termNames, typeNames⟩ :=
    ⟨id, id, Nat.le_refl _, Nat.le_refl _, Nat.le_refl _⟩
  have hw := hs.wf
  refine ⟨⟨?_, htermRefs hs.termRefs, htypeRefs hs.typeRefs, hs.regular.of_terms rfl⟩, hext⟩
  exact ⟨hw.types, hw.terms, hw.bool_ty, hw.truth, fun hty => hext.tyOk (hw.ty_ok hty), fun hi =>
    hext.typed (hw.typed hi),
    hw.live_ty, hw.serial, hw.ranked⟩

/-- Stores that come about by using the operations, whether they are refused or not, from the store
with the boolean type and the truth constant. -/
inductive Reached : Store → Prop where
  | empty : Reached .empty
  | build {s : Store} (h : Reached s) {α : Type} {op : Op α} (hop : Builder op) :
    Reached (endState (op s))
  | record {s : Store} (h : Reached s) {α : Type} {op : Op α} (hop : Recorder op) :
    Reached (endState (op s))
  | collect {s : Store} (h : Reached s) (roots : List Term) (tyRoots : List Ty) (keepNamed : Bool) :
    Reached (s.collect roots tyRoots keepNamed).2

theorem intact_empty : Intact .empty where
  wf := wf_empty
  termRefs _ _ h := by simp [Store.empty] at h
  typeRefs _ _ h := by simp [Store.empty] at h
  regular _ _ _ hi := by
    rcases Arena.get?_intern hi with heq | hi
    · cases heq
      trivial
    · simp at hi

/-- By induction on the calls: every store that is reached is intact. -/
theorem Reached.intact (h : Reached s) : s.Intact := by
  induction h with
  | empty => exact intact_empty
  | build _ hop ih => exact (hop.keeps _ ih).intact
  | record _ hop ih => exact ((hop.moves _ trivial).keeps ih).intact
  | collect _ roots tyRoots keepNamed ih => exact ih.collect roots tyRoots keepNamed

/-! ## Integrity -/

/-- Index and slots of both arenas are inverse to each other, their free lists hold the empty slots
once, and what a term or a type is made of is in the store. -/
structure Integrity (s : Store) : Prop where
  terms : s.terms.Valid 1
  types : s.types.Valid 0
  numTerms : s.numTerms = (List.range s.terms.slots.size).countP s.terms.isLive
  numTypes : s.numTypes = (List.range s.types.slots.size).countP s.types.isLive
  parts : ∀ {i shape ty}, s.terms.get? i = some (shape, ty) →
    (∀ c ∈ shape.children, s.isValid c = true) ∧ s.isValidTy ty = true
  components : ∀ {ty domain range}, s.tyShape? ty = some (.function domain range) →
    ∀ part ∈ domain ++ [range], s.isValidTy part = true
  /-- There is no endless way down from a term along its parts. -/
  acyclic : WellFounded fun j i => s.Child i j

/-- The serial number of a term is above those of its children, so no term is below itself. -/
theorem Wf.acyclic (h : s.Wf) : WellFounded fun j i => s.Child i j := by
  obtain ⟨rank, hrank⟩ := h.ranked
  refine Subrelation.wf (r := InvImage (· < ·) rank) ?_ (InvImage.wf rank Nat.lt_wfRel.wf)
  rintro j i ⟨shape, ty, c, hi, hc, rfl⟩
  exact hrank hi c hc

/-- A well-formed store has all parts of integrity. -/
theorem Wf.integrity (h : s.Wf) : s.Integrity where
  terms := h.terms
  types := h.types
  numTerms := by
    have hcount := h.terms.count_live
    unfold numTerms Arena.inUse
    omega
  numTypes := by
    have hcount := h.types.count_live
    unfold numTypes Arena.inUse
    omega
  parts hi := ⟨fun c hc => isValid_iff.mpr ((h.typed hi).live hc), isValidTy_iff.mpr (h.live_ty hi)⟩
  components hty part hpart := isValidTy_iff.mpr ((h.ty_ok hty).2 part hpart)
  acyclic := h.acyclic

/-- However a store was used, its tables fit together and its terms are well-founded. -/
theorem integrity_of_reached (h : Reached s) : s.Integrity := h.intact.wf.integrity

/-- Three boolean constants, of which a collection deletes the first, and then the disjunction of
the others, which takes the slot of the first and so stands before its parts. -/
def recycled : Store :=
  let s := endState (newConst .bool .empty)
  let s := endState (newConst .bool s)
  let s := endState (newConst .bool s)
  let s := (s.collect [.ofIndex 3, .ofIndex 4] [] false).2
  endState (or [.ofIndex 3, .ofIndex 4] s)

theorem reached_recycled : Reached recycled := by
  have h₁ := Reached.empty.build (.newConst .bool)
  have h₂ := h₁.build (.newConst .bool)
  have h₃ := h₂.build (.newConst .bool)
  exact (h₃.collect [.ofIndex 3, .ofIndex 4] [] false).build (.or [.ofIndex 3, .ofIndex 4])

theorem integrity_recycled : Reached recycled ∧ recycled.Integrity :=
  ⟨reached_recycled, integrity_of_reached reached_recycled⟩

/-- However a store was used, a collection keeps what its roots reach and nothing else. -/
theorem collected_of_reached (h : Reached s) (roots : List Term) (tyRoots : List Ty)
    (keepNamed : Bool) :
    s.Collected roots tyRoots keepNamed (s.collect roots tyRoots keepNamed).1
      (s.collect roots tyRoots keepNamed).2 :=
  h.intact.collected roots tyRoots keepNamed

/-- A root may be out of range. -/
theorem collected_recycled : Reached recycled ∧
    recycled.Collected [.ofIndex 2, .ofIndex 100] [⟨100⟩] true
      (recycled.collect [.ofIndex 2, .ofIndex 100] [⟨100⟩] true).1
      (recycled.collect [.ofIndex 2, .ofIndex 100] [⟨100⟩] true).2 :=
  ⟨reached_recycled, collected_of_reached reached_recycled _ _ _⟩

end Entail.Store
