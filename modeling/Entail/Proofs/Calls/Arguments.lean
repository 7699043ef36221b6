import Entail.Proofs.Calls.Refusals

/-!
# What a call accepts and answers

A call that answers gives a term of the type that the constructor promises. A constructor refuses
handles that stand for nothing, with two exceptions. The disequality of one term does not look at
it. An exclusive or and a disequality of three terms or more look at a later argument after they
stored something, which may be just what the handle then stands for.
-/

namespace Entail

open Store

/-- The type of what a constructor answers. -/
def Construction.Promises (s : Store) (ty : Ty) : Construction → Prop
  | .not _ | .or _ | .and _ | .implies .. | .xor2 .. | .xor _ | .iff .. | .eq .. | .neq ..
      | .distinct _ | .compare ..
  | .bit .. => ty = .bool
  | .ite _ a b => s.Has a ty ∧ s.Has b ty
  | .bvConst w _ => s.tyShape? ty = some (.bitVector w)
  | .bvSum ts | .bvProduct ts => (∀ t ∈ ts, s.Has t ty) ∧ ∃ w, s.tyShape? ty = some (.bitVector w)
  | .bvSub a b => s.Has a ty ∧ s.Has b ty ∧ ∃ w, s.tyShape? ty = some (.bitVector w)
  | .bvNeg t | .bvPower t _ => s.Has t ty ∧ ∃ w, s.tyShape? ty = some (.bitVector w)

namespace Call

variable {s s' : Store} {c : Call} {e : TermError} {a b r t : Term} {ty : Ty} {w : Nat}

/-- The type of what a call answers. -/
def Promises (s : Store) (ty : Ty) : Call → Prop
  | .newConst ty' | .newVar ty' => ty = ty'
  | .or2 .. | .and2 .. | .all .. | .exists_ .. => ty = .bool
  | .app f _ => ∃ domain, s.tyShape? (s.ty f) = some (.function domain ty)
  | .bvConstOfBits bits => s.tyShape? ty = some (.bitVector bits.length)
  | .bvAdd a b | .bvMul a b => s.Has a ty ∧ s.Has b ty ∧ ∃ w, s.tyShape? ty = some (.bitVector w)
  | .basic c => c.Promises s ty

/-- The terms that the constructor is applied to. -/
def args : Call → List Term
  | .newConst _ | .newVar _ | .bvConstOfBits _ => []
  | .or2 a b | .and2 a b | .bvAdd a b | .bvMul a b => [a, b]
  | .app f args => f :: args
  | .all vars body | .exists_ vars body => vars ++ [body]
  | .basic c => c.args

end Call

namespace Store

variable {s s' s₁ : Store} {α β : Type} {c : Call} {e : TermError} {a b r t f : Term}
  {args vars ts : List Term} {ty : Ty} {w : Nat}

/-! ## Answers of the promised type -/

theorem has_bot (hw : s.Wf) : s.Has .bot .bool := ⟨⟨.truth, hw.truth⟩, fun _ => rfl⟩

/-- A negation is a formula. The lemmas below give the types of what the other constructors
answer. -/
theorem not_has (hw : s.Wf) (t : Term) : Builds s (Store.not t) fun r s' => s'.Has r .bool :=
  .read_bind hw fun _ ht => .pure hw (checkBool_eq_ok ht).neg

theorem implies_has (hw : s.Wf) (a b : Term) : Builds s (implies a b) fun r s' => s'.Has r .bool :=
  .read_bind hw fun _ _ => (or_builds hw _).mono fun _ _ _ hr => hr.has

theorem xor_has (hw : s.Wf) (ts : List Term) : Builds s (xor ts) fun r s' => s'.Has r .bool :=
  Leads.foldlM later_frame hw (has_bot hw) fun r t _ _ hs _ _ =>
    (xor2_builds hs r t).mono fun _ _ _ hr => hr.has

theorem distinct_has (hw : s.Wf) (ts : List Term) :
    Builds s (distinct ts) fun r s' => s'.Has r .bool := by
  unfold distinct
  split
  · exact .throw hw _
  · rw [pairs_eq_mapM]
    exact .bind (neqs_have hw _) fun _ _ hs _ => (and_builds hs.wf _).mono fun _ _ _ hr => hr.has

theorem all_has (hw : s.Wf) (vars : List Term) (body : Term) :
    Builds s (all vars body) fun r s' => s'.Has r .bool :=
  (all_quantifies hw vars body).mono fun _ _ _ hr => hr.has

theorem bvGe_has (hw : s.Wf) (a b : Term) : Builds s (bvGe a b) fun r s' => s'.Has r .bool :=
  (bvGe_builds hw a b).mono fun _ _ _ hr => hr.2.has

theorem bvSge_has (hw : s.Wf) (a b : Term) : Builds s (bvSge a b) fun r s' => s'.Has r .bool :=
  (bvSge_builds hw a b).mono fun _ _ _ ⟨_, _, _, hr⟩ => hr.has

theorem compare_has (hw : s.Wf) (op : Comparison) (a b : Term) :
    Builds s (op.run a b) fun r s' => s'.Has r .bool := by
  have neg {op : Op Term} (h : Builds s op fun r s' => s'.Has r .bool) :
      Builds s (do return (← op).neg) fun r s' => s'.Has r .bool := .bind h fun _ _ hs hr =>
        .pure hs.wf hr.neg
  cases op with
  | ge => exact bvGe_has hw a b
  | gt => exact neg (bvGe_has hw b a)
  | le => exact bvGe_has hw b a
  | lt => exact neg (bvGe_has hw a b)
  | sge => exact bvSge_has hw a b
  | sgt => exact neg (bvSge_has hw b a)
  | sle => exact bvSge_has hw b a
  | slt => exact neg (bvSge_has hw a b)

/-- A sum has the type of its summands, which is a type of words. -/
theorem bvSum_has (hw : s.Wf) (ts : List Term) : Builds s (bvSum ts) fun r s' =>
    ∃ ty, ((∀ t ∈ ts, s'.Has t ty) ∧ ∃ w, s'.tyShape? ty = some (.bitVector w)) ∧ s'.Has r ty :=
  (bvSum_builds hw ts).mono fun _ _ hs ⟨ty, w, hty, hts, hr⟩ =>
    ⟨ty, ⟨fun t ht => hs.ext.has (hts t ht), w, hs.ext.ty hty⟩, hr.has⟩

theorem bvProduct_has (hw : s.Wf) (ts : List Term) : Builds s (bvProduct ts) fun r s' =>
    ∃ ty, ((∀ t ∈ ts, s'.Has t ty) ∧ ∃ w, s'.tyShape? ty = some (.bitVector w)) ∧ s'.Has r ty :=
  (bvProduct_builds hw ts).mono fun _ _ hs ⟨ty, w, hty, hts, hr⟩ =>
    ⟨ty, ⟨fun t ht => hs.ext.has (hts t ht), w, hs.ext.ty hty⟩, hr.has⟩

/-- A power has the type of its base. -/
theorem bvPower_has (hw : s.Wf) (t : Term) (degree : Nat) : Builds s (bvPower t degree) fun r s' =>
    ∃ ty, (s'.Has t ty ∧ ∃ w, s'.tyShape? ty = some (.bitVector w)) ∧ s'.Has r ty := by
  refine .read_bind hw fun w ht => ?_
  obtain ⟨ty, hty, hwidth⟩ := checkBv_eq_ok ht
  split
  · exact .throw hw _
  split
  · refine (bvConst_builds hw w 1).mono fun r s' hs ⟨ty', hty', hr⟩ => ?_
    obtain rfl := hs.wf.ty_unique hty' (hs.ext.ty hwidth)
    exact ⟨ty', ⟨hs.ext.has hty, w, hty'⟩, hr.has⟩
  next hdegree =>
    refine (bvProduct_has hw _).mono fun r s' hs ⟨ty', ⟨hts, hword⟩, hr⟩ =>
      ⟨ty', ⟨hts t ?_, hword⟩, hr⟩
    exact List.mem_replicate.mpr ⟨hdegree, rfl⟩

/-- An application has the range of its head for a type. -/
theorem app_has (hw : s.Wf) (f : Term) (args : List Term) : Builds s (app f args) fun r s' =>
    ∃ ty, (∃ domain, s'.tyShape? (s'.ty f) = some (.function domain ty)) ∧ s'.Has r ty :=
  (app_builds hw f args).mono fun r s' hs ⟨ty, hn, hneg⟩ => by
    obtain ⟨tf, domain, hf, hshape, -⟩ := hs.wf.typed hn
    exact ⟨ty, ⟨domain, hf.ty_eq ▸ hshape⟩, ⟨_, hn⟩, by simp [hneg]⟩

/-- A new constant or variable has the type that was asked for. -/
theorem fresh_has (hw : s.Wf) (ty : Ty) {mk : Nat → Term.Shape}
    (hmk : (∀ n, mk n = .uninterpreted ty n) ∨ ∀ n, mk n = .var ty n) :
    Builds s (do read (·.checkTy ty); intern (mk (← freshSerial)) ty) fun r s' => s'.Has r ty :=
  (fresh_builds hw ty mk hmk).mono fun _ _ _ ⟨_, hneg, hn, _⟩ => ⟨⟨_, hn⟩, by simp [hneg]⟩

end Store

namespace Call

variable {s s' : Store} {c : Call} {a r : Term}

/-- Every constructor keeps its promise. -/
theorem promised (hw : s.Wf) (c : Call) :
    Builds s c.run fun r s' => ∃ ty, c.Promises s' ty ∧ s'.Has r ty := by
  have formula {op : Op Term} (h : Builds s op fun r s' => s'.Has r .bool) :
      Builds s op fun r s' => ∃ ty, ty = .bool ∧ s'.Has r ty := h.mono fun _ _ _ hr =>
        ⟨.bool, rfl, hr⟩
  have neg {op : Op Term} (h : Builds s op fun r s' => s'.Has r .bool) :
      Builds s (do return (← op).neg) fun r s' => s'.Has r .bool := .bind h fun _ _ hs hr =>
        .pure hs.wf hr.neg
  have pair {op : Op Term} {a b : Term} (h : Builds s op fun r s' =>
      ∃ ty, ((∀ t ∈ [a, b], s'.Has t ty) ∧ ∃ w, s'.tyShape? ty = some (.bitVector w)) ∧
        s'.Has r ty) :
      Builds s op fun r s' => ∃ ty, (s'.Has a ty ∧ s'.Has b ty ∧
        ∃ w, s'.tyShape? ty = some (.bitVector w)) ∧ s'.Has r ty :=
    h.mono fun _ _ _ ⟨ty, ⟨hts, hword⟩, hr⟩ => ⟨ty, ⟨hts a (by simp), hts b (by simp), hword⟩, hr⟩
  cases c with
  | newConst ty => exact (fresh_has hw ty (.inl fun _ => rfl)).mono fun _ _ _ hr => ⟨ty, rfl, hr⟩
  | newVar ty => exact (fresh_has hw ty (.inr fun _ => rfl)).mono fun _ _ _ hr => ⟨ty, rfl, hr⟩
  | or2 a b => exact formula ((or_builds hw [a, b]).mono fun _ _ _ hr => hr.has)
  | and2 a b => exact formula ((and_builds hw [a, b]).mono fun _ _ _ hr => hr.has)
  | app f args => exact app_has hw f args
  | all vars body => exact formula (all_has hw vars body)
  | exists_ vars body => exact formula (.read_bind hw fun _ _ => neg (all_has hw vars body.neg))
  | bvConstOfBits bits => exact (bvConst_builds hw _ _).mono fun _ _ _ ⟨ty, hty, hr⟩ =>
    ⟨ty, hty, hr.has⟩
  | bvAdd a b => exact pair (bvSum_has hw [a, b])
  | bvMul a b => exact pair (bvProduct_has hw [a, b])
  | basic c =>
    cases c with
    | not t => exact formula (not_has hw t)
    | or ts => exact formula ((or_builds hw ts).mono fun _ _ _ hr => hr.has)
    | and ts => exact formula ((and_builds hw ts).mono fun _ _ _ hr => hr.has)
    | implies a b => exact formula (implies_has hw a b)
    | xor2 a b => exact formula ((xor2_builds hw a b).mono fun _ _ _ hr => hr.has)
    | xor ts => exact formula (xor_has hw ts)
    | iff a b => exact formula ((iff_builds hw a b).mono fun _ _ _ hr => hr.has)
    | ite c a b =>
      exact (ite_builds hw c a b).mono fun _ _ hs ⟨ty, ha, hb, _, hr⟩ =>
        ⟨ty, ⟨hs.ext.has ha, hs.ext.has hb⟩, hr.has⟩
    | eq a b => exact formula ((eq_builds hw a b).mono fun _ _ _ hr => hr.2.has)
    | neq a b => exact formula (neq_has hw a b)
    | distinct ts => exact formula (distinct_has hw ts)
    | bvConst w n => exact (bvConst_builds hw w n).mono fun _ _ _ ⟨ty, hty, hr⟩ => ⟨ty, hty, hr.has⟩
    | bvSum ts => exact bvSum_has hw ts
    | bvSub a b =>
      exact (bvSub_builds hw a b).mono fun _ _ hs ⟨ty, w, hty, ha, hb, hr⟩ =>
        ⟨ty, ⟨hs.ext.has ha, hs.ext.has hb, w, hs.ext.ty hty⟩, hr.has⟩
    | bvNeg t =>
      exact (bvNeg_builds hw t).mono fun _ _ hs ⟨ty, w, hty, ht, hr⟩ =>
        ⟨ty, ⟨hs.ext.has ht, w, hs.ext.ty hty⟩, hr.has⟩
    | bvProduct ts => exact bvProduct_has hw ts
    | bvPower t degree => exact bvPower_has hw t degree
    | compare op a b => exact formula (compare_has hw op a b)
    | bit t i => exact formula ((bit_builds hw t i).mono fun _ _ _ hr => hr.2.2.has)

end Call

namespace Store

variable {s s' s₁ : Store} {α β : Type} {c : Call} {e : TermError} {a b r t f : Term}
  {args vars ts : List Term} {ty : Ty} {w : Nat}

/-! ## Arguments that were looked at -/

/-- An operation that checks first and answers was checked. -/
theorem checked {g : Store → Except TermError α} {k : α → Op β} {b : β}
    (h : (Store.read g >>= k) s = .ok b s') :
    ∃ v, g s = .ok v ∧ k v s = .ok b s' := by
  obtain ⟨v, s₁, hread, hk⟩ := bind_eq_ok.mp h
  obtain ⟨hv, rfl⟩ := read_eq_ok.mp hread
  exact ⟨v, hv, hk⟩

/-- An operation whose answer is changed afterwards answered. -/
theorem answered {op : Op α} {g : α → β} {b : β} (h : (op >>= fun x => pure (g x)) s = .ok b s') :
    ∃ x, op s = .ok x s' := by
  obtain ⟨x, s₁, hop, h⟩ := bind_eq_ok.mp h
  cases h
  exact ⟨x, hop⟩

theorem forall_live {ty : Ty} (h : ∀ t ∈ ts, s.Has t ty) : ∀ t ∈ ts, ∃ ty, s.Has t ty :=
  fun t ht => ⟨ty, h t ht⟩

theorem live_of_width (h : s.HasWidth t w) : ∃ ty, s.Has t ty := h.imp fun _ hty => hty.1

theorem live_of_checkBools (h : ts.forM s.checkBool = .ok ()) : ∀ t ∈ ts, ∃ ty, s.Has t ty :=
  forall_live fun t ht => checkBool_eq_ok (forM_eq_ok h t ht)

/-- A disjunction that is built had live members. The lemmas below say the same of the arguments of
the other constructors. -/
theorem live_of_or (h : or ts s = .ok r s') : ∀ t ∈ ts, ∃ ty, s.Has t ty := by
  obtain ⟨_, hchk, -⟩ := checked h
  exact live_of_checkBools hchk

theorem live_of_and (h : and ts s = .ok r s') : ∀ t ∈ ts, ∃ ty, s.Has t ty := by
  obtain ⟨_, hchk, -⟩ := checked h
  exact live_of_checkBools hchk

theorem has_of_xor2 (h : xor2 a b s = .ok r s') : s.Has a .bool ∧ s.Has b .bool := by
  obtain ⟨_, ha, h⟩ := checked h
  obtain ⟨_, hb, -⟩ := checked h
  exact ⟨checkBool_eq_ok ha, checkBool_eq_ok hb⟩

theorem live_of_eq (h : eq a b s = .ok r s') : ∀ t ∈ [a, b], ∃ ty, s.Has t ty := by
  obtain ⟨ty, hchk, -⟩ := checked h
  obtain ⟨ha, hb⟩ := checkSameType_eq_ok hchk
  exact forall_live (forall_has_pair ha hb)

theorem live_of_neq (h : neq a b s = .ok r s') : ∀ t ∈ [a, b], ∃ ty, s.Has t ty := by
  obtain ⟨x, h⟩ := answered h
  exact live_of_eq h

theorem live_of_app (h : app f args s = .ok r s') : ∀ t ∈ f :: args, ∃ ty, s.Has t ty := by
  obtain ⟨ty, hchk, -⟩ := checked h
  exact fun t ht => (checkApp_eq_ok hchk).live ht

theorem live_of_all (hw : s.Wf) (h : all vars b s = .ok r s') :
    ∀ t ∈ vars ++ [b], ∃ ty, s.Has t ty := by
  unfold all at h
  split at h
  · cases h
  · obtain ⟨_, hvars, h⟩ := checked h
    obtain ⟨_, hbody, -⟩ := checked h
    obtain ⟨-, -, hvar⟩ := checkVars_eq_ok hw hvars
    exact List.forall_mem_append.mpr ⟨fun v hv => (hvar v hv).has, List.forall_mem_singleton.mpr
      ⟨_, checkBool_eq_ok hbody⟩⟩

theorem live_of_width_args (h : s.checkBvArgs ts = .ok w) : ∀ t ∈ ts, ∃ ty, s.Has t ty :=
  fun t ht =>
  live_of_width ((checkBvArgs_eq_ok h).2 t ht)

theorem live_of_same_width (h : s.checkSameWidth a b = .ok w) : ∀ t ∈ [a, b], ∃ ty, s.Has t ty := by
  obtain ⟨ha, hb⟩ := checkSameWidth_eq_ok h
  exact List.forall_mem_cons.mpr ⟨live_of_width ha, List.forall_mem_singleton.mpr
    (live_of_width hb)⟩

theorem live_of_compare (op : Comparison) (h : op.run a b s = .ok r s') :
    ∀ t ∈ [a, b], ∃ ty, s.Has t ty := by
  have ge {a b r : Term} (h : bvGe a b s = .ok r s') : ∀ t ∈ [a, b], ∃ ty, s.Has t ty := by
    obtain ⟨_, hchk, -⟩ := checked h
    exact live_of_same_width hchk
  have sge {a b r : Term} (h : bvSge a b s = .ok r s') : ∀ t ∈ [a, b], ∃ ty, s.Has t ty := by
    obtain ⟨_, hchk, -⟩ := checked h
    exact live_of_same_width hchk
  have swap (h : ∀ t ∈ [b, a], ∃ ty, s.Has t ty) : ∀ t ∈ [a, b], ∃ ty, s.Has t ty := fun t ht =>
    h t (List.mem_pair.mpr (List.mem_pair.mp ht).symm)
  cases op with
  | ge => exact ge h
  | gt => exact swap (ge (answered h).choose_spec)
  | le => exact swap (ge h)
  | lt => exact ge (answered h).choose_spec
  | sge => exact sge h
  | sgt => exact swap (sge (answered h).choose_spec)
  | sle => exact swap (sge h)
  | slt => exact sge (answered h).choose_spec

/-! ## Arguments that are looked at late -/

/-- The terms of an exclusive or are looked at one after the other, the first two before
anything is stored. -/
theorem live_or_three_of_xor (hw : s.Wf) (h : xor ts s = .ok r s') (ht : t ∈ ts) :
    (∃ ty, s.Has t ty) ∨ (∃ ty, s'.Has t ty) ∧ 3 ≤ ts.length := by
  obtain ⟨done, rest, rfl⟩ := List.append_of_mem ht
  unfold xor at h
  rw [List.foldlM_append] at h
  obtain ⟨x, s₁, hdone, h⟩ := bind_eq_ok.mp h
  rw [List.foldlM_cons] at h
  obtain ⟨y, s₂, hstep, hrest⟩ := bind_eq_ok.mp h
  obtain ⟨-, hlive⟩ := has_of_xor2 hstep
  match done, hdone with
  | [], hdone =>
    cases hdone
    exact .inl ⟨_, hlive⟩
  | [u], hdone =>
    obtain ⟨z, s₃, hone, hdone⟩ := bind_eq_ok.mp hdone
    cases hdone
    rw [xor2_bot hone] at hlive
    exact .inl ⟨_, hlive⟩
  | u :: v :: done, hdone =>
    have hfold (us : List Term) (b : Term) : Moves Wf Later (us.foldlM xor2 b) :=
      later_frame.foldlM us b fun b a _ => xor2_moves b a
    have h₁ : Later s s₁ := by
      have hlater := hfold (u :: v :: done) .bot s hw
      rwa [hdone] at hlater
    have h₂ : Later s₁ s₂ := by
      have hlater := xor2_moves x t s₁ h₁.wf
      rwa [hstep] at hlater
    have h₃ : Later s₂ s' := by
      have hlater := hfold rest y s₂ h₂.wf
      rwa [hrest] at hlater
    refine .inr ⟨⟨_, h₃.ext.has (h₂.ext.has hlive)⟩, ?_⟩
    simp only [List.length_append, List.length_cons]
    omega

/-- Of two terms or more, each is in a pair. -/
theorem mem_pairs (ht : t ∈ ts) (hts : ts ≠ [t]) : ∃ p ∈ Term.pairs ts, t ∈ [p.1, p.2] := by
  induction ts with
  | nil => cases ht
  | cons a rest ih =>
    unfold Term.pairs
    rcases List.mem_cons.mp ht with rfl | ht
    · obtain ⟨b, hb⟩ := List.exists_mem_of_ne_nil rest fun hnil => hts (by rw [hnil])
      exact ⟨(t, b), List.mem_append_left _ (List.mem_map_of_mem hb), List.mem_cons_self⟩
    · exact ⟨(a, t), List.mem_append_left _ (List.mem_map_of_mem ht),
        List.mem_cons_of_mem _ List.mem_cons_self⟩

/-- The pairs of a disequality are looked at one after the other, the first before
anything is stored. -/
theorem live_or_three_of_distinct (hw : s.Wf) (h : distinct ts s = .ok r s') (ht : t ∈ ts) :
    ts = [t] ∨ (∃ ty, s.Has t ty) ∨ (∃ ty, s'.Has t ty) ∧ 3 ≤ ts.length := by
  by_cases hone : ts = [t]
  · exact .inl hone
  refine .inr ?_
  unfold distinct at h
  rw [if_neg (by simpa using List.ne_nil_of_mem ht), pairs_eq_mapM] at h
  obtain ⟨p, hp, htp⟩ := mem_pairs ht hone
  obtain ⟨done, rest, hsplit⟩ := List.append_of_mem hp
  rw [hsplit, List.mapM_append, List.mapM_cons] at h
  obtain ⟨rs, s₃, hpairs, hand⟩ := bind_eq_ok.mp h
  obtain ⟨xs, s₁, hdone, hpairs⟩ := bind_eq_ok.mp hpairs
  obtain ⟨ys, s₂, hothers, hpairs⟩ := bind_eq_ok.mp hpairs
  cases hpairs
  obtain ⟨y, s₄, hstep, hothers⟩ := bind_eq_ok.mp hothers
  obtain ⟨zs, s₅, hrest, hothers⟩ := bind_eq_ok.mp hothers
  cases hothers
  obtain ⟨ty, hlive⟩ := live_of_neq hstep t htp
  match done, hdone with
  | [], hdone =>
    cases hdone
    exact .inl ⟨ty, hlive⟩
  | q :: done, hdone =>
    have h₁ := ((neqs_have hw (q :: done)).of_ok hdone).1
    have h₂ := ((neq_has h₁.wf p.1 p.2).of_ok hstep).1
    have h₃ := ((neqs_have h₂.wf rest).of_ok hrest).1
    have h₄ := ((and_builds h₃.wf _).of_ok hand).1
    refine .inr ⟨⟨ty, h₄.ext.has (h₃.ext.has (h₂.ext.has hlive))⟩, Term.three_le_length ?_⟩
    rw [hsplit]
    simp only [List.length_append, List.length_cons]
    omega

end Store

namespace Call

variable {s s' : Store} {c : Call} {a r : Term}

/-- Each argument of a call that answers was a term, unless the constructor does not look at it
before it stores anything. -/
theorem live_of_answered (hw : s.Wf) (h : c.run s = .ok r s') (ha : a ∈ c.args) :
    (∃ ty, s.Has a ty) ∨ c = .distinct [a] ∨
    (∃ ty, s'.Has a ty) ∧ 3 ≤ c.args.length ∧ ∃ ts, c = .xor ts ∨ c = .distinct ts := by
  have early (h : ∀ t ∈ c.args, ∃ ty, s.Has t ty) : (∃ ty, s.Has a ty) ∨ c = .distinct [a] ∨
      (∃ ty, s'.Has a ty) ∧ 3 ≤ c.args.length ∧ ∃ ts, c = .xor ts ∨ c = .distinct ts :=
        .inl (h a ha)
  -- all constructors but two look at their arguments first, which is what `early` is for
  cases c with
  | newConst ty => cases ha
  | newVar ty => cases ha
  | or2 a b => exact early (live_of_or h)
  | and2 a b => exact early (live_of_and h)
  | app f args => exact early (live_of_app h)
  | all vars body => exact early (live_of_all hw h)
  | exists_ vars body =>
    obtain ⟨_, hbody, h⟩ := checked h
    obtain ⟨_, h⟩ := answered h
    obtain ⟨hvars, -⟩ := List.forall_mem_append.mp (live_of_all hw h)
    exact early (List.forall_mem_append.mpr
      ⟨hvars, List.forall_mem_singleton.mpr ⟨_, checkBool_eq_ok hbody⟩⟩)
  | bvConstOfBits bits => cases ha
  | bvAdd a b =>
    obtain ⟨_, hchk, -⟩ := checked h
    exact early (live_of_width_args hchk)
  | bvMul a b =>
    obtain ⟨_, hchk, -⟩ := checked h
    exact early (live_of_width_args hchk)
  | basic c =>
    cases c with
    | not t =>
      obtain ⟨_, ht, -⟩ := checked h
      exact early (List.forall_mem_singleton.mpr ⟨_, checkBool_eq_ok ht⟩)
    | or ts => exact early (live_of_or h)
    | and ts => exact early (live_of_and h)
    | implies a b =>
      obtain ⟨_, ha', h⟩ := checked h
      obtain ⟨-, hb⟩ := List.forall_mem_cons.mp (live_of_or h)
      exact early (List.forall_mem_cons.mpr ⟨⟨_, checkBool_eq_ok ha'⟩, hb⟩)
    | xor2 a b => exact early (forall_live (forall_has_pair (has_of_xor2 h).1 (has_of_xor2 h).2))
    | xor ts =>
      rcases live_or_three_of_xor hw h ha with hlive | ⟨hlate, hthree⟩
      · exact .inl hlive
      · exact .inr (.inr ⟨hlate, hthree, ts, .inl rfl⟩)
    | iff a b =>
      obtain ⟨_, h⟩ := answered h
      exact early (forall_live (forall_has_pair (has_of_xor2 h).1 (has_of_xor2 h).2))
    | ite c a b =>
      obtain ⟨-, ty, ha', hb, hc, -⟩ := (ite_builds hw c a b).of_ok h
      exact early (List.forall_mem_cons.mpr ⟨⟨_, hc⟩, forall_live (forall_has_pair ha' hb)⟩)
    | eq a b => exact early (live_of_eq h)
    | neq a b => exact early (live_of_neq h)
    | distinct ts =>
      rcases live_or_three_of_distinct hw h ha with rfl | hlive | ⟨hlate, hthree⟩
      · exact .inr (.inl rfl)
      · exact .inl hlive
      · exact .inr (.inr ⟨hlate, hthree, ts, .inr rfl⟩)
    | bvConst w n => cases ha
    | bvSum ts =>
      obtain ⟨_, hchk, -⟩ := checked h
      exact early (live_of_width_args hchk)
    | bvSub a b =>
      obtain ⟨_, hchk, -⟩ := checked h
      exact early (live_of_same_width hchk)
    | bvNeg t =>
      obtain ⟨_, hchk, -⟩ := checked h
      exact early (List.forall_mem_singleton.mpr (live_of_width (checkBv_eq_ok hchk)))
    | bvProduct ts =>
      obtain ⟨_, hchk, -⟩ := checked h
      exact early (live_of_width_args hchk)
    | bvPower t degree =>
      obtain ⟨_, hchk, -⟩ := checked h
      exact early (List.forall_mem_singleton.mpr (live_of_width (checkBv_eq_ok hchk)))
    | compare op a b => exact early (live_of_compare op h)
    | bit t i =>
      obtain ⟨_, hchk, -⟩ := checked h
      exact early (List.forall_mem_singleton.mpr (live_of_width (checkBv_eq_ok hchk)))

/-- However a store was used, what a call answers is a term of the promised type. A call with an
argument that stands for nothing is refused, except for the disequality of this argument alone, and
for an exclusive or or a disequality of three terms or more that stores what the argument then
stands for. -/
theorem sound_of_reached (h : Store.Reached s) (c : Call) :
    (∀ r s', c.run s = .ok r s' → s'.isValid r = true ∧ c.Promises s' (s'.ty r)) ∧
      ∀ a ∈ c.args, s.isValid a = false → (∃ e s', c.run s = .error e s') ∨ c = .distinct [a] ∨
        (endState (c.run s)).isValid a = true ∧ 3 ≤ c.args.length ∧ ∃ ts, c = .xor ts ∨
        c = .distinct ts := by
  have hw := h.intact.wf
  constructor
  · intro r s' hr
    obtain ⟨-, ty, hpromised, hty⟩ := (promised hw c).of_ok hr
    exact ⟨isValid_iff.mpr ⟨ty, hty⟩, hty.ty_eq ▸ hpromised⟩
  · intro a ha hinvalid
    cases hrun : c.run s with
    | error e s' => exact .inl ⟨e, s', rfl⟩
    | ok r s' =>
      rcases live_of_answered hw hrun ha with hlive | hone | ⟨hlate, hrest⟩
      · rw [isValid_iff.mpr hlive] at hinvalid
        cases hinvalid
      · exact .inr (.inl hone)
      · exact .inr (.inr ⟨isValid_iff.mpr hlate, hrest⟩)

/-- The exclusive or of two formulas and what is stored for their exclusive or. -/
def parityOfItself : Call := .xor [.ofIndex 2, .ofIndex 3, .ofIndex 4]

/-- The disequality of a handle of nothing alone. -/
def distinctNothing : Call := .distinct [.ofIndex 100]

/-- A choice between a formula and a handle of nothing is refused. An exclusive or accepts a handle
that it fills itself, and a disequality the handle of nothing. -/
theorem sound_twoFormulas :
    Store.Reached twoFormulas ∧
      (.ofIndex 100 ∈ choiceOfNothing.args ∧ twoFormulas.isValid (.ofIndex 100) = false ∧
        ∃ e s', choiceOfNothing.run twoFormulas = .error e s') ∧
      (.ofIndex 4 ∈ parityOfItself.args ∧ twoFormulas.isValid (.ofIndex 4) = false ∧
        ∃ r s', parityOfItself.run twoFormulas = .ok r s' ∧ s'.isValid r = true ∧
        parityOfItself.Promises s' (s'.ty r)) ∧
      (.ofIndex 100 ∈ distinctNothing.args ∧
        ∃ r s', distinctNothing.run twoFormulas = .ok r s' ∧ s'.isValid r = true ∧
        distinctNothing.Promises s' (s'.ty r)) := by
  have hs := reached_twoFormulas
  have hdead : twoFormulas.isValid (.ofIndex 100) = false := by cbv
  have hfree : twoFormulas.isValid (.ofIndex 4) = false := by cbv
  have hparity : parityOfItself.run twoFormulas = .ok .bot
      (endState (parityOfItself.run twoFormulas)) :=
    ok_of_run' (by cbv)
  have hdistinct : distinctNothing.run twoFormulas = .ok .top
      (endState (distinctNothing.run twoFormulas)) :=
    ok_of_run' (by cbv)
  have hmem : .ofIndex 100 ∈ choiceOfNothing.args := by
    simp [choiceOfNothing, args, Construction.args]
  refine ⟨hs, ⟨hmem, hdead, ?_⟩, ⟨?_, hfree, _, _, hparity, ?_⟩, ?_, _, _, hdistinct, ?_⟩
  · rcases (sound_of_reached hs choiceOfNothing).2 _ hmem hdead with hrefused | hdistinct | ⟨-, -,
      ts, hxor | hdistinct⟩
    · exact hrefused
    · cases hdistinct
    · cases hxor
    · cases hdistinct
  · simp [parityOfItself, args, Construction.args]
  · exact (sound_of_reached hs parityOfItself).1 _ _ hparity
  · simp [distinctNothing, args, Construction.args]
  · exact (sound_of_reached hs distinctNothing).1 _ _ hdistinct

end Call
end Entail
