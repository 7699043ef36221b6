import Entail.Proofs.Model.Evaluation
import Entail.Proofs.Store.Supported
import Entail.Proofs.Store.Types

/-!
# How an evaluation may end

In a model that gives truth values to boolean constants and words to constants of bitvector types,
the values of supported terms are of these kinds as well. So an evaluation stops for one reason
only: it comes to a constant that has neither a value nor a definition.
-/

/-!
## How deep an evaluation is nested

The evaluation of a term asks for the values of other terms. If it never comes back to a term that
it is in the middle of, its nesting is bounded by the number of slots, so that a larger bound would
not change what is answered.
-/

namespace Entail.Model

variable {m : Model} {s : Store} {t p : Term} {α : Type}

/-- What the evaluation of a term asks for: its parts, and its definition if it is a constant
that has one. -/
inductive Asks (m : Model) (s : Store) (t : Term) : Term → Prop where
  | part {c : Term} (h : c ∈ (s.shape t).children) : Asks m s t c
  | definition {d : Term} (h : m.definitions[t.positive]? = some d) : Asks m s t d

theorem mapM_congr {f g : Term → EvalOp α} {ts : List Term} (h : ∀ t ∈ ts, f t = g t) :
    ts.mapM f = ts.mapM g := by
  induction ts with
  | nil => rfl
  | cons t ts ih =>
    rw [List.mapM_cons, List.mapM_cons, h t List.mem_cons_self, ih fun u hu =>
      h u (List.mem_cons_of_mem t hu)]

theorem evalAny_congr {f g : Term → EvalOp Value} {ts : List Term} (h : ∀ t ∈ ts, f t = g t) :
    evalAny f ts = evalAny g ts := by
  induction ts with
  | nil => rfl
  | cons t ts ih =>
    unfold evalAny evalBool
    rw [h t List.mem_cons_self, ih fun u hu => h u (List.mem_cons_of_mem t hu)]

/-- Only the values that are asked for matter. -/
theorem evalNode_congr {f g : Term → EvalOp Value} (hp : p.isNegated = false)
    (h : ∀ c, m.Asks s p c → f c = g c) :
    m.evalNode s f p = m.evalNode s g p := by
  have hpart {shape : Term.Shape} (hshape : s.shape? p = some shape) {c : Term}
      (hc : c ∈ shape.children) : f c = g c :=
    h c (.part (by rwa [Store.shape, hshape]))
  have hdef {d : Term} (hd : m.definitions[p]? = some d) : f d = g d :=
    h d (.definition (by rwa [Term.positive_of_not_isNegated hp]))
  unfold evalNode
  cases hshape : s.shape? p with
  | none => rfl
  | some shape =>
    cases shape with
    | truth | bvConst | var => rfl
    | uninterpreted ty n =>
      cases m.values[p]? with
      | some v => rfl
      | none =>
        cases hd : m.definitions[p]? with
        | some d => exact hdef hd
        | none => rfl
    | all vars body => rfl
    | ite c a b =>
      simp only [evalBool, hpart hshape (c := c) (by simp [Term.Shape.children]),
        hpart hshape (c := a) (by simp [Term.Shape.children]),
          hpart hshape (c := b) (by simp [Term.Shape.children])]
    | eq a b | xor a b | bvGe a b | bvSge a b =>
      simp only [evalBool, evalBv, hpart hshape (c := a) (by simp [Term.Shape.children]),
        hpart hshape (c := b) (by simp [Term.Shape.children])]
    | bvNeg x | bit x i => simp only [evalBv, hpart hshape (c := x) (by simp [Term.Shape.children])]
    | or args =>
      have hargs : evalAny f args = evalAny g args := evalAny_congr fun a ha =>
        hpart hshape (c := a) ha
      simp only [hargs]
    | bvSum args | bvProduct args =>
      have hargs : args.mapM (evalBv f) = args.mapM (evalBv g) := mapM_congr fun a ha => by
        rw [evalBv, evalBv, hpart hshape (c := a) ha]
      simp only [hargs]
    | app head args =>
      have hargs : args.mapM f = args.mapM g := mapM_congr fun a ha =>
        hpart hshape (List.mem_cons_of_mem head ha)
      simp only [hargs]

/-- With a rank that goes down along what is asked for, any two bounds above the rank of a term give
the same answer. -/
theorem evalAt_eq_of_lt {rank : Nat → Nat}
    (hrank : ∀ {t c}, m.Asks s t c → rank c.index < rank t.index) {depth : Nat} :
    ∀ {depth' : Nat} {t : Term}, rank t.index < depth → rank t.index < depth' →
    m.evalAt s depth t = m.evalAt s depth' t := by
  induction depth with
  | zero => exact fun h => absurd h (Nat.not_lt_zero _)
  | succ depth ih =>
    intro depth' t h h'
    cases depth' with
    | zero => exact absurd h' (Nat.not_lt_zero _)
    | succ depth' =>
      have hnode : m.evalNode s (m.evalAt s depth) t.positive = m.evalNode s
          (m.evalAt s depth') t.positive := by
        refine evalNode_congr (Term.isNegated_positive t) fun c hc => ?_
        have hlt : rank c.index < rank t.index := Term.index_positive t ▸ hrank hc
        exact ih (hlt.trans_le (Nat.le_of_lt_succ h)) (hlt.trans_le (Nat.le_of_lt_succ h'))
      funext memo
      rw [evalAt_succ, evalAt_succ, hnode]

/-- The evaluation of a term that never comes back is nested less deep than there are slots. -/
theorem evalAt_of_le {rank : Nat → Nat}
    (hrank : ∀ {t c}, m.Asks s t c → rank c.index < rank t.index)
    (hlive : ∀ {t c}, m.Asks s t c → c.index < s.terms.slots.size) {depth : Nat}
    (hdepth : s.terms.slots.size < depth)
    (ht : s.isValid t = true) : m.evalAt s depth t = m.evalAt s (s.terms.slots.size + 1) t := by
  obtain ⟨below, hbelow, hbound⟩ := exists_rank rank s.terms.slots.size
  obtain ⟨ty, ⟨shape, hn⟩, -⟩ := Store.isValid_iff.mp ht
  have hlt : below t.index < s.terms.slots.size := hbound (Arena.lt_of_get? hn)
  exact evalAt_eq_of_lt (fun hc => hbelow (hlive hc) (hrank hc)) (hlt.trans hdepth)
    (Nat.lt_succ_of_lt hlt)

end Entail.Model

namespace Entail

/-- Parts whose values make the value of a term. The head of an application is none of them: there
is a table for it. -/
def Term.Shape.operands : Shape → List Term
  | .app _ args => args
  | shape => shape.children

/-- `v` is a truth value or a word where `ty` says so. -/
def Value.Suits (s : Store) (v : Value) (ty : Ty) : Prop :=
  match s.tyShape? ty with
  | some .bool => ∃ b, v = .bool b
  | some (.bitVector _) => ∃ w n, v = .bv w n
  | _ => True

namespace Value

variable {s : Store} {v : Value} {ty : Ty} {w : Nat}

theorem suits_bool (hs : s.Wf) : v.Suits s .bool ↔ ∃ b, v = .bool b := by
  unfold Suits
  rw [hs.bool_ty]

theorem suits_word (hty : s.tyShape? ty = some (.bitVector w)) :
    v.Suits s ty ↔ ∃ w n, v = .bv w n := by
  unfold Suits
  rw [hty]

theorem default_suits (s : Store) (ty : Ty) : (Value.default s ty).Suits s ty := by
  unfold Suits Value.default
  split
  next h => exact ⟨false, by rw [h]⟩
  next w h => exact ⟨w, 0, by rw [h]⟩
  next => trivial

end Value

namespace Model

variable {m : Model} {s : Store} {t u x p : Term} {shape : Term.Shape} {ty : Ty} {v : Value}

/-! ## What an evaluation reads -/

/-- What the evaluation of a term reads: its operands, and its definition if it is a constant
that has one. -/
inductive Reads (m : Model) (s : Store) (t : Term) : Term → Prop where
  | part {c : Term} (h : c ∈ (s.shape t).operands) : Reads m s t c
  | definition {d : Term} (h : m.definitions[t.positive]? = some d) : Reads m s t d

theorem Reads.asks (h : m.Reads s t u) : m.Asks s t u := by
  cases h with
  | definition h => exact .definition h
  | part h =>
    refine .part ?_
    cases hshape : s.shape t with
    | app f args =>
      rw [hshape] at h
      exact List.mem_cons_of_mem f h
    | _ =>
      rw [hshape] at h
      exact h

/-- `x` is a constant that is met in the evaluation of `t` and has neither a value nor a
definition. -/
structure Lacks (m : Model) (s : Store) (t x : Term) : Prop where
  reads : ∃ u, Relation.ReflTransGen (m.Reads s) t u ∧ u.positive = x
  const : (s.shape x).isUninterpreted = true
  value : m.values[x]? = none
  definition : m.definitions[x]? = none

/-- Polarity does not matter. -/
theorem Lacks.of_positive (h : m.Lacks s t.positive x) : m.Lacks s t x := by
  obtain ⟨u, hpath, hu⟩ := h.reads
  refine { h with reads := ?_ }
  obtain rfl | ⟨c, hc, hpath⟩ := Relation.ReflTransGen.cases_head hpath
  · exact ⟨t, .refl, hu ▸ (positive_positive t).symm⟩
  · refine ⟨u, .head ?_ hpath, hu⟩
    cases hc with
    | part hc =>
      rw [Store.shape, shape?_positive] at hc
      exact .part hc
    | definition hd => exact .definition (positive_positive t ▸ hd)

/-- What an operand lacks, the term lacks. -/
theorem Lacks.of_reads (h : m.Lacks s u x) (hu : m.Reads s t u) : m.Lacks s t x :=
  { h with reads := h.reads.imp fun _ hv => hv.imp_left (.head hu) }

/-- The evaluation of `t` stops at a constant without value. -/
def Stops (m : Model) (s : Store) (t : Term) (e : Failure) : Prop :=
  ∃ x, m.Lacks s t x ∧ e = .evalUnknown x

/-- The values of constants and the values in the rows of functions are truth values and words where
they have to be, and definitions are supported terms of the types of the constants. -/
structure Suitable (m : Model) (s : Store) : Prop where
  values : ∀ {x : Term} {ty : Ty} {v : Value}, m.values[x]? = some v → s.Has x ty → v.Suits s ty
  rows : ∀ {f : Term} {table : FunctionTable} {vs : List Value} {v : Value} {tf range : Ty}
    {domain : List Ty}, m.functions[f]? = some table → table[vs]? = some v → s.Has f tf →
    s.tyShape? tf = some (.function domain range) → v.Suits s range
  definitions : s.Assigns m.definitions
  supported : ∀ {x d : Term}, m.definitions[x]? = some d → s.Supported [] d

/-! ## Attempts -/

/-- The memory holds values of positive terms that suit their types. -/
def Recalls (s : Store) (memo : Std.HashMap Term Value) : Prop :=
  ∀ ⦃p v⦄, memo[p]? = some v → ∀ ty, s.Has p ty → v.Suits s ty

/-- `op` answers as `Q` says or fails as `E` says, if what it remembers suits. -/
def Tries {α : Type} (s : Store) (E : Failure → Prop) (op : EvalOp α) (Q : α → Prop) : Prop :=
  ∀ ⦃memo⦄, Recalls s memo → match op memo with
    | .ok (a, memo') => Q a ∧ Recalls s memo'
    | .error e => E e

namespace Tries

variable {α β : Type} {E E' : Failure → Prop} {op : EvalOp α} {Q Q' : α → Prop} {f : α → EvalOp β}
  {R : β → Prop}

theorem pure {a : α} (h : Q a) : Tries s E (pure a) Q := fun _ hm => ⟨h, hm⟩

theorem throw {e : Failure} (h : E e) : Tries s E (throw e : EvalOp α) Q := fun _ _ => h

theorem bind (h : Tries s E op Q) (hf : ∀ a, Q a → Tries s E (f a) R) : Tries s E (op >>= f) R := by
  intro memo hm
  have hop := h hm
  show match op memo >>= fun x => f x.1 x.2 with
    | .ok (b, memo') => R b ∧ Recalls s memo'
    | .error e => E e
  cases hrun : op memo with
  | error e =>
    rw [hrun] at hop
    exact hop
  | ok x =>
    rw [hrun] at hop
    exact hf x.1 hop.1 hop.2

theorem mono (h : Tries s E op Q) (hE : ∀ e, E e → E' e) (hQ : ∀ a, Q a → Q' a) :
    Tries s E' op Q' := by
  intro memo hm
  have hop := h hm
  cases hrun : op memo with
  | error e =>
    rw [hrun] at hop
    exact hE e hop
  | ok x =>
    rw [hrun] at hop
    exact ⟨hQ x.1 hop.1, hop.2⟩

theorem mapM {g : Term → EvalOp α} {ts : List Term} {P : α → Prop}
    (h : ∀ t ∈ ts, Tries s E (g t) P) :
    Tries s E (ts.mapM g) fun _ => True := by
  induction ts with
  | nil => exact .pure trivial
  | cons t ts ih =>
    rw [List.mapM_cons]
    exact .bind (h t List.mem_cons_self) fun a _ =>
      .bind (ih fun u hu => h u (List.mem_cons_of_mem t hu)) fun as _ => .pure trivial

end Tries

section Nodes

variable {E : Failure → Prop} {eval : Term → EvalOp Value}

theorem tries_evalBool (hs : s.Wf) (h : Tries s E (eval t) (·.Suits s .bool)) :
    Tries s E (evalBool eval t) fun _ => True := by
  refine .bind h fun v hv => ?_
  obtain ⟨b, rfl⟩ := (Value.suits_bool hs).mp hv
  exact .pure trivial

theorem tries_evalBv {w : Nat} (hty : s.tyShape? ty = some (.bitVector w))
    (h : Tries s E (eval t) (·.Suits s ty)) :
    Tries s E (evalBv eval t) fun _ => True := by
  refine .bind h fun v hv => ?_
  obtain ⟨w', n, rfl⟩ := (Value.suits_word hty).mp hv
  exact .pure trivial

theorem tries_evalAny (hs : s.Wf) {ts : List Term}
    (h : ∀ t ∈ ts, Tries s E (eval t) (·.Suits s .bool)) :
    Tries s E (evalAny eval ts) fun _ => True := by
  induction ts with
  | nil => exact .pure trivial
  | cons t ts ih =>
    refine .bind (tries_evalBool hs (h t List.mem_cons_self)) fun b _ => ?_
    cases b with
    | true => exact .pure trivial
    | false => exact ih fun u hu => h u (List.mem_cons_of_mem t hu)

/-- The node of a supported term has a value of its kind, unless one of its operands has none or it
is a constant that lacks one. -/
theorem tries_evalNode (hs : s.Wf) (hm : m.Suitable s) (hn : s.node? p = some (shape, ty))
    (hp : p.isNegated = false)
    (hsupp : s.Supported [] p) (hlacks : m.Lacks s p p → E (.evalUnknown p))
    (heval : ∀ c tc, m.Reads s p c → s.Has c tc → s.Supported [] c →
      Tries s E (eval c) (·.Suits s tc)) :
    Tries s E (m.evalNode s eval p) (·.Suits s ty) := by
  have htyped := hs.typed hn
  have hshape := Store.shape_of_node hn
  have hty : s.ty p = ty := by simp [Store.ty, hn]
  have hbool (b : Bool) (h : ty = .bool) : (Value.bool b).Suits s ty :=
    h ▸ (Value.suits_bool hs).mpr ⟨b, rfl⟩
  -- operands are supported like the term itself
  have hpart {c : Term} {tc : Ty} (happ : ∀ f args, shape ≠ .app f args) (hc : c ∈ shape.children)
    (hctc : s.Has c tc) :
      Tries s E (eval c) (·.Suits s tc) := by
    refine heval c tc (.part ?_) hctc (hsupp.part hn happ hc)
    rw [hshape]
    cases shape with
    | app f args => exact absurd rfl (happ f args)
    | _ => exact hc
  have hword {c : Term} {w : Nat} (happ : ∀ f args, shape ≠ .app f args) (hc : c ∈ shape.children)
      (hw : s.HasWidth c w) : Tries s E (evalBv eval c) fun _ => True := by
    obtain ⟨tc, hctc, hwidth⟩ := hw
    exact tries_evalBv hwidth (hpart happ hc hctc)
  have hwidth {w : Nat} (hw : s.tyShape? ty = some (.bitVector w)) : s.width? p = some w := by
    rw [Store.width?, hty, Store.tyWidth?_eq_some, hw]
  have hfold (args : List Term) {w : Nat} (f : List (Nat × Nat) → Nat)
    (hw : s.tyShape? ty = some (.bitVector w))
      (happ : ∀ f args, shape ≠ .app f args) (hargs : ∀ a ∈ args, a ∈ shape.children ∧ s.Has a ty) :
      Tries s E (do
        let vs ← args.mapM (evalBv eval)
        return Value.bv w (f vs)) (·.Suits s ty) := by
    refine .bind (.mapM fun a ha => tries_evalBv hw (hpart happ (hargs a ha).1 (hargs a ha).2))
      fun vs _ => .pure ?_
    exact (Value.suits_word hw).mpr ⟨w, _, rfl⟩
  unfold evalNode
  rw [show s.shape? p = some shape by rw [Store.shape?, hn]; rfl]
  cases shape with
  | truth => exact .pure (hbool _ htyped)
  | bvConst w n => exact .pure ((Value.suits_word htyped.1).mpr ⟨w, n, rfl⟩)
  | uninterpreted ty' n =>
    have hhas : s.Has p ty := ⟨⟨_, hn⟩, by simp [hp]⟩
    simp only
    split
    next v _ hvalue => exact .pure (hm.values hvalue hhas)
    next d hvalue hdef =>
      obtain ⟨td, hx, hd⟩ := hm.definitions hdef
      refine hx.unique hhas ▸ heval d td (.definition ?_) hd (hm.supported hdef)
      rwa [Term.positive_of_not_isNegated hp]
    next hvalue hdef =>
      refine .throw
        (hlacks ⟨⟨p, .refl, Term.positive_of_not_isNegated hp⟩, by rw [hshape]; rfl, hvalue, hdef⟩)
  | var =>
    cases hsupp with
    | var _ hv => cases hv
    | app hn' | eq hn' => cases hn.symm.trans hn'
    | plain hn' hplain =>
      cases hn.symm.trans hn'
      cases hplain
  | all => exact (hsupp.not_quantifier hn).elim
  | ite c a b =>
    refine .bind (tries_evalBool hs (hpart (by simp) (by simp [Term.Shape.children]) htyped.1))
      fun x _ => ?_
    cases x with
    | true => exact hpart (by simp) (by simp [Term.Shape.children]) htyped.2.1
    | false => exact hpart (by simp) (by simp [Term.Shape.children]) htyped.2.2
  | eq a b =>
    obtain ⟨rfl, ty', -, ha, hb⟩ := htyped
    exact .bind (hpart (by simp) (by simp [Term.Shape.children]) ha) fun x _ =>
      .bind (hpart (by simp) (by simp [Term.Shape.children]) hb) fun y _ => .pure (hbool _ rfl)
  | or args =>
    obtain ⟨rfl, hargs⟩ := htyped
    exact .bind (tries_evalAny hs fun a ha => hpart (by simp) ha (hargs a ha)) fun b _ =>
      .pure (hbool _ rfl)
  | xor a b =>
    obtain ⟨rfl, ha, hb⟩ := htyped
    exact .bind (tries_evalBool hs (hpart (by simp) (by simp [Term.Shape.children]) ha)) fun x _ =>
      .bind (tries_evalBool hs (hpart (by simp) (by simp [Term.Shape.children]) hb)) fun y _ =>
        .pure (hbool _ rfl)
  | app f args =>
    obtain ⟨tf, domain, hf, htf, -⟩ := id htyped
    refine .bind (.mapM (P := fun _ => True) fun a ha => ?_) fun vs _ => .pure ?_
    · obtain ⟨ta, hta⟩ := htyped.live (List.mem_cons_of_mem f ha)
      refine (heval a ta (.part (by rwa [hshape])) hta (hsupp.arg hn ha).1).mono (fun _ => id)
        fun _ _ => trivial
    · rw [hty, Std.HashMap.getD_eq_getD_getElem?]
      cases htable : m.functions[f]? with
      | none => simpa using Value.default_suits s ty
      | some table =>
        cases hrow : table[vs]? with
        | none => simpa [hrow] using Value.default_suits s ty
        | some v => simpa [hrow] using hm.rows htable hrow hf htf
  | bit x i =>
    obtain ⟨rfl, w, hx, -⟩ := htyped
    exact .bind (hword (by simp) (by simp [Term.Shape.children]) hx) fun y _ => .pure (hbool _ rfl)
  | bvGe a b | bvSge a b =>
    obtain ⟨rfl, w, ha, hb⟩ := htyped
    exact .bind (hword (by simp) (by simp [Term.Shape.children]) ha) fun x _ =>
      .bind (hword (by simp) (by simp [Term.Shape.children]) hb) fun y _ => .pure (hbool _ rfl)
  | bvNeg x =>
    obtain ⟨hx, w, hw⟩ := htyped
    refine .bind (hword (by simp) (by simp [Term.Shape.children]) ⟨ty, hx, hw⟩) fun y _ => .pure ?_
    exact (Value.suits_word hw).mpr ⟨_, _, rfl⟩
  | bvSum args | bvProduct args =>
    obtain ⟨-, hargs, w, hw⟩ := htyped
    simp only [hwidth hw]
    exact hfold args _ hw (by simp) fun a ha => ⟨ha, hargs a ha⟩

end Nodes

/-! ## Evaluation -/

/-- A literal occurrence of a term has a value of the kind of the positive term. -/
theorem suits_withPolarity (hs : s.Wf) (ht : s.Has t ty) (hv : v.Suits s ty) :
    ∃ v', withPolarity t v = .ok v' ∧ v'.Suits s ty := by
  unfold withPolarity
  cases hneg : t.isNegated with
  | false => exact ⟨v, rfl, hv⟩
  | true =>
    obtain rfl := ht.2 hneg
    obtain ⟨b, rfl⟩ := (Value.suits_bool hs).mp hv
    exact ⟨.bool !b, rfl, (Value.suits_bool hs).mpr ⟨!b, rfl⟩⟩

/-- Along what is read, the evaluation of a supported term goes down, and comes to a value of the
kind of the term or stops. -/
theorem tries_evalAt (hs : s.Wf) (hm : m.Suitable s) {rank : Nat → Nat}
    (hrank : ∀ {t u}, m.Reads s t u → rank u.index < rank t.index) {depth : Nat} (ht : s.Has t ty)
    (hsupp : s.Supported [] t) (hdepth : rank t.index < depth) :
    Tries s (m.Stops s t) (m.evalAt s depth t) (·.Suits s ty) := by
  induction depth generalizing t ty with
  | zero => exact absurd hdepth (Nat.not_lt_zero _)
  | succ depth ih =>
    have hpos := ht.positive
    have hnode : Tries s (m.Stops s t) (m.evalNode s (m.evalAt s depth) t.positive)
        (·.Suits s ty) := by
      refine tries_evalNode hs hm hpos.node (Term.isNegated_positive t) hsupp.positive
        (fun h => ⟨_, h.of_positive, rfl⟩)
        fun c tc hc hctc hcs => ?_
      have hlt : rank c.index < rank t.index := Term.index_positive t ▸ hrank hc
      refine (ih hctc hcs (Nat.lt_of_lt_of_le hlt (Nat.le_of_lt_succ hdepth))).mono
        (fun e ⟨x, hx, he⟩ => ?_) fun _ => id
      exact ⟨x, (hx.of_reads hc).of_positive, he⟩
    intro memo hmemo
    rw [evalAt_succ]
    cases hget : memo[t.positive]? with
    | some v =>
      obtain ⟨v', hv', hsuits⟩ := suits_withPolarity hs ht (hmemo hget ty hpos)
      simp only [hv']
      exact ⟨hsuits, hmemo⟩
    | none =>
      have hrun := hnode hmemo
      cases hop : m.evalNode s (m.evalAt s depth) t.positive memo with
      | error e =>
        rw [hop] at hrun
        exact hrun
      | ok x =>
        rw [hop] at hrun
        obtain ⟨v', hv', hsuits⟩ := suits_withPolarity hs ht hrun.1
        simp only [bind, Except.bind, hv']
        refine ⟨hsuits, fun q u hq tq hqty => ?_⟩
        rw [Std.HashMap.getElem?_insert] at hq
        split at hq
        next heq =>
          cases hq
          exact (eq_of_beq heq ▸ hpos).unique hqty ▸ hrun.1
        next => exact hrun.2 hq tq hqty

/-- The evaluation of a supported formula answers a truth value, or stops at a constant
that has none. -/
theorem eval_formula (hs : s.Wf) (hm : m.Suitable s) {rank : Nat → Nat}
    (hrank : ∀ {t u}, m.Asks s t u → rank u.index < rank t.index ∧ u.index < s.terms.slots.size)
    (ht : s.Has t .bool) (hsupp : s.Supported [] t) :
    (∃ b, m.eval s t = .ok (.bool b)) ∨ ∃ x, m.Lacks s t x ∧
    m.eval s t = .error (.evalUnknown x) := by
  obtain ⟨below, hbelow, hbound⟩ := exists_rank rank s.terms.slots.size
  have hread {t u : Term} (h : m.Reads s t u) : below u.index < below t.index :=
    hbelow (hrank h.asks).2 (hrank h.asks).1
  have hdepth : below t.index < s.terms.slots.size + 1 :=
    Nat.lt_succ_of_lt (hbound (Arena.lt_of_get? ht.node))
  have hnothing : Recalls s ∅ := fun p v h => by simp at h
  have hrun := tries_evalAt hs hm hread ht hsupp hdepth hnothing
  have heval : m.eval s t = (m.evalAt s (s.terms.slots.size + 1) t ∅).map (·.1) := by
    unfold eval Store.check
    rw [if_pos (Store.isValid_iff.mpr ⟨_, ht⟩)]
    rfl
  rw [heval]
  cases hop : m.evalAt s (s.terms.slots.size + 1) t ∅ with
  | ok x =>
    rw [hop] at hrun
    obtain ⟨b, hb⟩ := (Value.suits_bool hs).mp hrun.1
    exact .inl ⟨b, congrArg Except.ok hb⟩
  | error e =>
    rw [hop] at hrun
    obtain ⟨x, hx, rfl⟩ := hrun
    exact .inr ⟨x, hx, rfl⟩

end Model
end Entail
