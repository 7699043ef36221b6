import Entail.Proofs.Model.Operations
import Entail.Proofs.Store.Amounts

/-!
# What a refused call leaves

A constructor checks its arguments before it stores anything, so a call that is refused leaves
the store as it was. Only an exclusive or and a disequality of three terms or more are put
together step by step. When one of their later arguments is refused, the store keeps what was
built of those before.
-/

namespace Entail

/-- A call of a constructor of terms. -/
inductive Call where
  | newConst (ty : Ty)
  | newVar (ty : Ty)
  | or2 (a b : Term)
  | and2 (a b : Term)
  | app (f : Term) (args : List Term)
  | all (vars : List Term) (body : Term)
  | exists_ (vars : List Term) (body : Term)
  | bvConstOfBits (bits : List Bool)
  | bvAdd (a b : Term)
  | bvMul (a b : Term)
  | basic (c : Construction)

namespace Call

/-- The call as an operation on the store. -/
def run : Call → Store.Op Term
  | newConst ty => Store.newConst ty
  | newVar ty => Store.newVar ty
  | or2 a b => Store.or2 a b
  | and2 a b => Store.and2 a b
  | app f args => Store.app f args
  | all vars body => Store.all vars body
  | exists_ vars body => Store.exists_ vars body
  | bvConstOfBits bits => Store.bvConstOfBits bits
  | bvAdd a b => Store.bvAdd a b
  | bvMul a b => Store.bvMul a b
  | basic c => c.run

/-- The exclusive or of any number of terms. -/
abbrev xor (ts : List Term) : Call := .basic (.xor ts)

/-- The pairwise disequality of any number of terms. -/
abbrev distinct (ts : List Term) : Call := .basic (.distinct ts)

end Call

namespace Term

/-- The pairs of a term and a later one. -/
def pairs : List Term → List (Term × Term)
  | [] => []
  | a :: rest => rest.map (a, ·) ++ pairs rest

/-- Two pairs need three terms. -/
theorem three_le_length {ts : List Term} (h : 2 ≤ (pairs ts).length) : 3 ≤ ts.length := by
  match ts with
  | [] => simp [pairs] at h
  | [a] => simp [pairs] at h
  | [a, b] => simp [pairs] at h
  | _ :: _ :: _ :: _ => simp

end Term

namespace Store

variable {s s' : Store} {α β : Type} {a b c f t x : Term} {args vars : List Term} {ty : Ty}
  {w : Nat} {e : TermError}

/-! ## Operations that check first -/

/-- If the operation is refused, the store stays as it was. -/
def Atomic (s : Store) (op : Op α) : Prop := ∀ ⦃e s'⦄, op s = .error e s' → s' = s

namespace Atomic

variable {op : Op α} {g : Store → Except TermError α} {k : α → Op β}

/-- A call that is granted refuses nothing. -/
theorem of_granted (h : Granted op s) : Atomic s op := by
  intro e s' he
  obtain ⟨r, s₁, hok⟩ := h
  rw [hok] at he
  cases he

theorem throw (e : TermError) : Atomic s (MonadExcept.throw e : Op α) := fun _ _ h => by
  cases h
  rfl

theorem pure (a : α) : Atomic s (Pure.pure a : Op α) := of_granted (.pure a)

/-- A check that fails stores nothing, and what follows it starts from the same store. -/
theorem read_bind (h : ∀ v, g s = .ok v → Atomic s (k v)) : Atomic s (Store.read g >>= k) := by
  intro e s' he
  cases hg : g s with
  | ok v =>
    rw [read_bind_of_ok hg] at he
    exact h v hg he
  | error e' =>
    rw [bind_of_error (show Store.read g s = .error e' s by unfold Store.read; rw [hg])] at he
    cases he
    rfl

/-- What is granted once its arguments are checked is refused by the check only. -/
theorem of_check (h : ∀ v, g s = .ok v → Granted (Store.read g >>= k) s) :
    Atomic s (Store.read g >>= k) :=
  read_bind fun v hv => of_granted <| by
    obtain ⟨r, s', hr⟩ := h v hv
    rw [read_bind_of_ok hv] at hr
    exact ⟨r, s', hr⟩

theorem look_bind {g : Store → α} (h : Atomic s (k (g s))) : Atomic s (Store.look g >>= k) := h

/-- After a step that stores, everything has to be granted. -/
theorem bind (h : Atomic s op) (hk : ∀ v s', op s = .ok v s' → Granted (k v) s') :
    Atomic s (op >>= k) := by
  intro e s' he
  cases hop : op s with
  | ok v s₁ =>
    rw [bind_of_ok hop] at he
    obtain ⟨r, s₂, hr⟩ := hk v s₁ hop
    rw [hr] at he
    cases he
  | error e' s₁ =>
    rw [bind_of_error hop] at he
    cases he
    exact h hop

theorem map (h : Atomic s op) {g : α → β} : Atomic s (op >>= fun r => Pure.pure (g r)) :=
  h.bind fun _ _ _ => .pure _

theorem ite {p : Prop} [Decidable p] {op op' : Op α} (h : p → Atomic s op)
    (h' : ¬p → Atomic s op') :
    Atomic s (if p then op else op') := by
  split
  next hp => exact h hp
  next hp => exact h' hp

end Atomic

/-- A new constant or variable is refused before anything is stored, or it is made. -/
theorem atomic_fresh {mk : Nat → Term.Shape} (ty : Ty) :
    Atomic s (do Store.read (·.checkTy ty); intern (mk (← freshSerial)) ty) :=
  .read_bind fun _ _ => .of_granted (.bind ⟨_, _, rfl⟩ fun _ _ _ => granted_intern _ _)

/-- A disjunction checks its members before it stores anything. The same is said below of every
constructor that keeps the rule. -/
theorem atomic_or (args : List Term) : Atomic s (or args) :=
  .of_check fun _ h => granted_or fun a ha => checkBool_eq_ok (forM_eq_ok h a ha)

theorem atomic_and (args : List Term) : Atomic s (and args) :=
  .of_check fun _ h => granted_and fun a ha => checkBool_eq_ok (forM_eq_ok h a ha)

theorem atomic_xor2 (a b : Term) : Atomic s (xor2 a b) :=
  .read_bind fun _ ha => .of_check fun _ hb => by
    obtain ⟨r, s', hr⟩ := granted_xor2 (checkBool_eq_ok ha) (checkBool_eq_ok hb)
    unfold xor2 at hr
    rw [read_bind_of_ok ha] at hr
    exact ⟨r, s', hr⟩

theorem atomic_ite (c a b : Term) : Atomic s (Store.ite c a b) :=
  .read_bind fun _ hc => .of_check fun _ hab => by
    obtain ⟨ha, hb⟩ := checkSameType_eq_ok hab
    obtain ⟨r, s', hr⟩ := granted_ite (checkBool_eq_ok hc) ha hb
    unfold Store.ite at hr
    rw [read_bind_of_ok hc] at hr
    exact ⟨r, s', hr⟩

theorem atomic_eq (a b : Term) : Atomic s (eq a b) :=
  .of_check fun _ hab => granted_eq (checkSameType_eq_ok hab).1 (checkSameType_eq_ok hab).2

theorem atomic_neq (a b : Term) : Atomic s (neq a b) := (atomic_eq a b).map

theorem atomic_app (f : Term) (args : List Term) : Atomic s (app f args) :=
  .read_bind fun _ _ => .of_granted (granted_intern _ _)

theorem atomic_all (vars : List Term) (body : Term) : Atomic s (all vars body) :=
  .ite (fun _ => .throw _) fun _ => .read_bind fun _ _ => .read_bind fun _ _ =>
    .ite (fun _ => .pure _) fun _ => .of_granted (granted_intern _ _)

theorem atomic_bvConst (w n : Nat) : Atomic s (bvConst w n) := by
  refine Atomic.bind ?_ fun _ _ _ => granted_intern _ _
  exact .ite (fun _ => .throw _) fun _ => .ite (fun _ => .throw _) fun _ => .of_granted ⟨_, _, rfl⟩

theorem atomic_bvGe (a b : Term) : Atomic s (bvGe a b) :=
  .of_check fun _ hab => granted_bvGe (checkSameWidth_eq_ok hab).1 (checkSameWidth_eq_ok hab).2

theorem atomic_bvSge (a b : Term) : Atomic s (bvSge a b) :=
  .of_check fun _ hab => granted_bvSge (checkSameWidth_eq_ok hab).1 (checkSameWidth_eq_ok hab).2

theorem atomic_bit (t : Term) (i : Nat) : Atomic s (bit t i) := by
  refine .read_bind fun w ht => .ite (fun _ => .throw _) fun hi => ?_
  obtain ⟨r, s', hr⟩ := granted_bit (checkBv_eq_ok ht) (Nat.lt_of_not_le hi)
  unfold bit at hr
  rw [read_bind_of_ok ht, if_neg hi] at hr
  exact .of_granted ⟨r, s', hr⟩

section Words

variable (hw : s.Wf)

include hw

theorem atomic_bvSum (args : List Term) : Atomic s (bvSum args) :=
  .of_check fun _ h => granted_bvSum hw (checkBvArgs_eq_ok h).1 (checkBvArgs_eq_ok h).2

theorem atomic_bvNeg (a : Term) : Atomic s (bvNeg a) :=
  .of_check fun _ h => granted_bvNeg hw (checkBv_eq_ok h)

theorem atomic_bvSub (a b : Term) : Atomic s (bvSub a b) :=
  .of_check fun _ hab => granted_bvSub hw (checkSameWidth_eq_ok hab).1 (checkSameWidth_eq_ok hab).2

theorem atomic_bvProduct (args : List Term) : Atomic s (bvProduct args) := by
  refine .read_bind fun w h => .look_bind ?_
  obtain ⟨hne, hargs⟩ := checkBvArgs_eq_ok h
  obtain ⟨first, hfirst⟩ := List.exists_mem_of_ne_nil args hne
  obtain ⟨ty, -, hty⟩ := hargs first hfirst
  -- the degree is looked at before anything is stored
  refine .ite (fun _ => .of_granted (granted_bvConst hw hty _)) fun _ =>
    .ite (fun _ => .throw _) fun _ => ?_
  refine .of_granted ((granted_withConst hw hty _ _ _).bind fun ts _ _ => ?_)
  split
  · exact .pure _
  · exact granted_look_bind (granted_intern _ _)

theorem atomic_bvPower (a : Term) (degree : Nat) : Atomic s (bvPower a degree) :=
  .read_bind fun _ _ => .ite (fun _ => .throw _) fun _ =>
      .ite (fun _ => atomic_bvConst _ _) fun _ =>
    atomic_bvProduct hw _

end Words

theorem atomic_compare (op : Comparison) (a b : Term) : Atomic s (op.run a b) := by
  cases op with
  | ge => exact atomic_bvGe a b
  | gt => exact (atomic_bvGe b a).map
  | le => exact atomic_bvGe b a
  | lt => exact (atomic_bvGe a b).map
  | sge => exact atomic_bvSge a b
  | sgt => exact (atomic_bvSge b a).map
  | sle => exact atomic_bvSge b a
  | slt => exact (atomic_bvSge a b).map

/-! ## Steps -/

/-- A fold that is refused is refused at one of the members, after those before it. -/
theorem foldlM_eq_error {σ ε : Type} {g : β → α → EStateM ε σ β} {as : List α} {b : β}
    {s s' : σ} {e : ε} (h : as.foldlM g b s = .error e s') :
    ∃ done a rest r s₁, as = done ++ a :: rest ∧ done.foldlM g b s = .ok r s₁ ∧
    g r a s₁ = .error e s' := by
  induction as generalizing b s with
  | nil => cases h
  | cons a as ih =>
    rw [List.foldlM_cons] at h
    cases hg : g b a s with
    | error e' s₁ =>
      rw [bind_of_error hg] at h
      cases h
      exact ⟨[], a, as, b, s, rfl, rfl, hg⟩
    | ok r s₁ =>
      rw [bind_of_ok hg] at h
      obtain ⟨done, a', rest, r', s₂, rfl, hdone, ha'⟩ := ih h
      refine ⟨a :: done, a', rest, r', s₂, rfl, ?_, ha'⟩
      rw [List.foldlM_cons, bind_of_ok hg]
      exact hdone

/-- With falsity nothing is stored. -/
theorem xor2_bot {r : Term} (h : xor2 .bot t s = .ok r s') : s' = s := by
  obtain ⟨_, s₁, hread, hrest⟩ := bind_eq_ok.mp h
  obtain ⟨-, rfl⟩ := read_eq_ok.mp hread
  obtain ⟨_, s₂, hread', hxor⟩ := bind_eq_ok.mp hrest
  obtain ⟨-, rfl⟩ := read_eq_ok.mp hread'
  dsimp only at hxor
  split at hxor
  · cases hxor
    rfl
  · rw [if_pos (show Term.bot.positive = .top from rfl)] at hxor
    cases hxor
    rfl

/-- The inequalities of a list are built pair by pair. -/
theorem pairs_eq_mapM (args : List Term) :
    distinct.pairs args = (Term.pairs args).mapM fun p => neq p.1 p.2 := by
  induction args with
  | nil => rfl
  | cons a rest ih =>
    unfold distinct.pairs Term.pairs
    rw [List.mapM_append, List.mapM_map, ih]
    rfl

theorem neq_has (hw : s.Wf) (a b : Term) : Builds s (neq a b) fun t s' => s'.Has t .bool :=
  .bind (eq_builds hw a b) fun _ _ hs ht => .pure hs.wf ht.2.has.neg

/-- Disequalities that are all built are truth values. -/
theorem neqs_have (hw : s.Wf) (ps : List (Term × Term)) :
    Builds s (ps.mapM fun p => neq p.1 p.2) fun ts s' => ∀ t ∈ ts, s'.Has t .bool :=
  Leads.mapM later_frame hw (fun hs ht => hs.ext.has ht) fun p _ _ hs _ => neq_has hs p.1 p.2

end Store

namespace Call

variable {s s' : Store} {c : Call} {e : TermError}

/-- What a refused call leaves. Nearly always this is the store as it was. -/
inductive Leaves (s : Store) : Call → Store → Prop where
  | nothing (c : Call) : Leaves s c s
  /-- The exclusive or of the terms before the one that was refused. -/
  | xor {done rest : List Term} {r : Term} {s' : Store} : 2 ≤ done.length → rest ≠ [] →
    Store.xor done s = .ok r s' →
    Leaves s (.xor (done ++ rest)) s'
  /-- The disequalities of the pairs before the one that was refused. -/
  | distinct {args rs : List Term} {done rest : List (Term × Term)} {s' : Store} :
    Term.pairs args = done ++ rest →
    done ≠ [] → rest ≠ [] → done.mapM (fun p => Store.neq p.1 p.2) s = .ok rs s' →
      Leaves s (.distinct args) s'

/-- Only of three terms or more is something left. -/
theorem Leaves.eq_or_three (h : Leaves s c s') :
    s' = s ∨ ∃ args, (c = .xor args ∨ c = .distinct args) ∧ 3 ≤ args.length := by
  cases h with
  | nothing => exact .inl rfl
  | @xor done rest r _ htwo hrest _ =>
    refine .inr ⟨done ++ rest, .inl rfl, ?_⟩
    have hlength := List.length_pos_of_ne_nil hrest
    rw [List.length_append]
    omega
  | @distinct args rs done rest _ hpairs hdone hrest _ =>
    refine .inr ⟨args, .inr rfl, Term.three_le_length ?_⟩
    have hone := List.length_pos_of_ne_nil hdone
    have hother := List.length_pos_of_ne_nil hrest
    rw [hpairs, List.length_append]
    omega

/-- A constructor that keeps the rule leaves the store as it was. -/
theorem leaves_of_atomic (h : s.Atomic c.run) (he : c.run s = .error e s') : Leaves s c s' := by
  rw [h he]
  exact .nothing c

/-- A refused exclusive disjunction leaves that of the members before the refused one. -/
theorem leaves_of_xor {ts : List Term} (he : Store.xor ts s = .error e s') :
    Leaves s (.xor ts) s' := by
  obtain ⟨done, t, rest, r, s₁, rfl, hdone, ht⟩ := Store.foldlM_eq_error he
  obtain rfl := Store.atomic_xor2 r t ht
  match done, hdone with
  | [], hdone =>
    cases hdone
    exact .nothing _
  | [a], hdone =>
    obtain ⟨r', s₂, hone, hdone⟩ := bind_eq_ok.mp hdone
    cases hdone
    rw [Store.xor2_bot hone]
    exact .nothing _
  | a :: b :: done, hdone => exact .xor (by simp) (List.cons_ne_nil t rest) hdone

/-- A refused list of distinct terms leaves the disequalities of the pairs before the refused
one. -/
theorem leaves_of_distinct (hw : s.Wf) {ts : List Term} (he : Store.distinct ts s = .error e s') :
    Leaves s (.distinct ts) s' := by
  unfold Store.distinct at he
  split at he
  · cases he
    exact .nothing _
  · rw [Store.pairs_eq_mapM] at he
    cases hpairs : (Term.pairs ts).mapM (fun p => Store.neq p.1 p.2) s with
    | ok rs s₁ =>
      -- what was built is a list of truth values, and their conjunction is never refused
      obtain ⟨-, hrs⟩ := (Store.neqs_have hw (Term.pairs ts)).of_ok hpairs
      obtain ⟨r, s₂, hr⟩ := Store.granted_and hrs
      rw [bind_of_ok hpairs, hr] at he
      cases he
    | error e' s₁ =>
      rw [bind_of_error hpairs] at he
      cases he
      obtain ⟨done, p, rest, rs, s₂, hsplit, hdone, hp⟩ := mapM_eq_error.mp hpairs
      obtain rfl := Store.atomic_neq p.1 p.2 hp
      match done, hdone with
      | [], hdone =>
        cases hdone
        exact .nothing _
      | q :: done, hdone =>
        exact .distinct hsplit (List.cons_ne_nil q done) (List.cons_ne_nil p rest) hdone

/-- A refused call leaves the store as it was, unless it is an exclusive or or a disequality of
three terms or more. Of these it leaves what was built of the terms before the refused one. -/
theorem unchanged_of_refused (h : Store.Reached s) (he : c.run s = .error e s') :
    ((∀ args, 3 ≤ args.length → c ≠ .xor args ∧ c ≠ .distinct args) → s' = s) ∧ Leaves s c s' := by
  have hw := h.intact.wf
  have hleaves : Leaves s c s' := by
    -- all constructors but two check everything before they store anything
    cases c with
    | newConst ty => exact leaves_of_atomic (Store.atomic_fresh ty) he
    | newVar ty => exact leaves_of_atomic (Store.atomic_fresh ty) he
    | or2 a b => exact leaves_of_atomic (Store.atomic_or [a, b]) he
    | and2 a b => exact leaves_of_atomic (Store.atomic_and [a, b]) he
    | app f args => exact leaves_of_atomic (Store.atomic_app f args) he
    | all vars body => exact leaves_of_atomic (Store.atomic_all vars body) he
    | exists_ vars body => exact leaves_of_atomic (.read_bind fun _ _ =>
      (Store.atomic_all vars body.neg).map) he
    | bvConstOfBits bits => exact leaves_of_atomic (Store.atomic_bvConst _ _) he
    | bvAdd a b => exact leaves_of_atomic (Store.atomic_bvSum hw [a, b]) he
    | bvMul a b => exact leaves_of_atomic (Store.atomic_bvProduct hw [a, b]) he
    | basic c =>
      cases c with
      | not t => exact leaves_of_atomic (.read_bind fun _ _ => .pure t.neg) he
      | or ts => exact leaves_of_atomic (Store.atomic_or ts) he
      | and ts => exact leaves_of_atomic (Store.atomic_and ts) he
      | implies a b => exact leaves_of_atomic (.read_bind fun _ _ => Store.atomic_or [a.neg, b]) he
      | xor2 a b => exact leaves_of_atomic (Store.atomic_xor2 a b) he
      | xor ts => exact leaves_of_xor he
      | iff a b => exact leaves_of_atomic (Store.atomic_xor2 a b).map he
      | ite c a b => exact leaves_of_atomic (Store.atomic_ite c a b) he
      | eq a b => exact leaves_of_atomic (Store.atomic_eq a b) he
      | neq a b => exact leaves_of_atomic (Store.atomic_neq a b) he
      | distinct ts => exact leaves_of_distinct hw he
      | bvConst w n => exact leaves_of_atomic (Store.atomic_bvConst w n) he
      | bvSum ts => exact leaves_of_atomic (Store.atomic_bvSum hw ts) he
      | bvSub a b => exact leaves_of_atomic (Store.atomic_bvSub hw a b) he
      | bvNeg t => exact leaves_of_atomic (Store.atomic_bvNeg hw t) he
      | bvProduct ts => exact leaves_of_atomic (Store.atomic_bvProduct hw ts) he
      | bvPower t degree => exact leaves_of_atomic (Store.atomic_bvPower hw t degree) he
      | compare op a b => exact leaves_of_atomic (Store.atomic_compare op a b) he
      | bit t i => exact leaves_of_atomic (Store.atomic_bit t i) he
  refine ⟨fun hfew => ?_, hleaves⟩
  rcases hleaves.eq_or_three with heq | ⟨args, heq, hthree⟩
  · exact heq
  · obtain ⟨hxor, hdistinct⟩ := hfew args hthree
    rcases heq with heq | heq
    · exact absurd heq hxor
    · exact absurd heq hdistinct

/-- What an operation was refused for, if it was. -/
def cause? {ε σ α : Type} : EStateM.Result ε σ α → Option ε
  | .ok _ _ => none
  | .error e _ => some e

theorem error_of_cause {ε σ α : Type} {x : EStateM ε σ α} {s : σ} {e : ε}
    (h : cause? (x s) = some e) :
    x s = .error e (endState (x s)) := by
  cases hx : x s with
  | ok a s' =>
    rw [hx] at h
    cases h
  | error e' s' =>
    rw [hx] at h
    cases h
    rfl

/-- Two boolean constants. -/
def twoFormulas : Store := endState (Store.newConst .bool (endState (Store.newConst .bool .empty)))

/-- The store of two boolean constants is reached by building one after the other. -/
theorem reached_twoFormulas : Store.Reached twoFormulas :=
  (Store.Reached.empty.build (.newConst .bool)).build (.newConst .bool)

/-- A choice between a formula and a handle of nothing. -/
def choiceOfNothing : Call := .basic (.ite (.ofIndex 2) (.ofIndex 3) (.ofIndex 100))

/-- The exclusive or of two formulas and a handle of nothing. -/
def parityOfNothing : Call := .xor [.ofIndex 2, .ofIndex 3, .ofIndex 100]

/-- The choice leaves the store as it was, the exclusive or leaves the exclusive or of the
two formulas. -/
theorem refused_twoFormulas :
    Store.Reached twoFormulas ∧
      (∃ s', choiceOfNothing.run twoFormulas = .error (.invalidTerm (.ofIndex 100)) s' ∧
        (∀ args, 3 ≤ args.length → choiceOfNothing ≠ .xor args ∧ choiceOfNothing ≠ .distinct args) ∧
        s' = twoFormulas) ∧
      ∃ s', parityOfNothing.run twoFormulas = .error (.invalidTerm (.ofIndex 100)) s' ∧
        Leaves twoFormulas parityOfNothing s' ∧ s'.numTerms = twoFormulas.numTerms + 1 := by
  have hs := reached_twoFormulas
  have hchoice : cause? (choiceOfNothing.run twoFormulas) = some (.invalidTerm (.ofIndex 100)) := by
    cbv
  have hparity : cause? (parityOfNothing.run twoFormulas) = some (.invalidTerm (.ofIndex 100)) := by
    cbv
  have hmore : (endState (parityOfNothing.run twoFormulas)).numTerms = twoFormulas.numTerms +
    1 := by cbv
  have hno : ∀ args : List Term, 3 ≤ args.length → choiceOfNothing ≠ .xor args ∧
      choiceOfNothing ≠ .distinct args := by
    intro args _
    constructor
    · intro hxor
      cases hxor
    · intro hdistinct
      cases hdistinct
  refine ⟨hs, ⟨_, error_of_cause hchoice, hno, ?_⟩, _, error_of_cause hparity, ?_, hmore⟩
  · exact (unchanged_of_refused hs (error_of_cause hchoice)).1 hno
  · exact (unchanged_of_refused hs (error_of_cause hparity)).2

end Call
end Entail
