import Entail.Proofs.Refusals
import Entail.Proofs.Store.Steady

/-!
# Constructors that are granted

Each constructor checks its arguments, and on arguments of the types that it asks for it answers.
The one exception is a product, whose degree may grow too large.
-/

namespace Entail

/-- The degree of a product is too large. -/
def TermError.TooLarge (e : TermError) : Prop := ∃ n, e = .degreeTooLarge n

namespace Store

variable {s : Store} {α β : Type} {t a b c x y : Term} {args vars : List Term} {ty : Ty} {w : Nat}

/-! ## Checks -/

/-- A live term has its type. -/
theorem Has.typeOf (h : s.Has t ty) : s.typeOf t = .ok ty := typeOf_eq_ok.mpr h

/-- A typed term is live. -/
theorem Has.check (h : s.Has t ty) : s.check t = .ok () := by
  unfold Store.check
  rw [if_pos (isValid_iff.mpr ⟨ty, h⟩)]

theorem Has.checkBool (h : s.Has t .bool) : s.checkBool t = .ok () := by
  unfold Store.checkBool
  rw [h.typeOf]
  rfl

/-- Two terms of one type pass, with this type. -/
theorem Has.checkSameType (ha : s.Has a ty) (hb : s.Has b ty) : s.checkSameType a b = .ok ty := by
  unfold Store.checkSameType
  rw [ha.typeOf, hb.typeOf]
  simp [Bind.bind, Except.bind, Pure.pure, Except.pure]

/-- A word passes with its width. -/
theorem HasWidth.checkBv (h : s.HasWidth t w) : s.checkBv t = .ok w := by
  obtain ⟨ty, hty, hw⟩ := h
  unfold Store.checkBv
  rw [hty.typeOf]
  simp [Bind.bind, Except.bind, Pure.pure, Except.pure, tyWidth?_eq_some.mpr hw]

theorem HasWidth.checkSameWidth (ha : s.HasWidth a w) (hb : s.HasWidth b w) :
    s.checkSameWidth a b = .ok w := by
  unfold Store.checkSameWidth
  rw [ha.checkBv, hb.checkBv]
  simp [Bind.bind, Except.bind, Pure.pure, Except.pure]

/-- A check of a list passes when every member does. -/
theorem forM_ok {ε : Type} {f : α → Except ε Unit} {as : List α} (h : ∀ a ∈ as, f a = .ok ()) :
    as.forM f = .ok () := by
  induction as with
  | nil => rfl
  | cons a as ih =>
    show (f a >>= fun _ => as.forM f) = _
    rw [h a List.mem_cons_self]
    exact ih fun b hb => h b (List.mem_cons_of_mem _ hb)

/-- Words of one width pass together, as long as there is one. -/
theorem checkBvArgs_ok (hne : args ≠ []) (hargs : ∀ a ∈ args, s.HasWidth a w) :
    s.checkBvArgs args = .ok w := by
  obtain ⟨first, rest, rfl⟩ := List.exists_cons_of_ne_nil hne
  have hfirst := hargs first List.mem_cons_self
  have hrest : rest.forM (fun t => do let _ ← s.checkSameWidth first t) = .ok () :=
      forM_ok fun t ht => by
    rw [hfirst.checkSameWidth (hargs t (List.mem_cons_of_mem _ ht))]
    rfl
  show (s.checkBv first >>= fun w => rest.forM (fun t => do let _ ← s.checkSameWidth first t) >>=
    fun _ => pure w) = _
  rw [hfirst.checkBv]
  show (rest.forM (fun t => do let _ ← s.checkSameWidth first t) >>= fun _ => pure w) = _
  rw [hrest]
  rfl

/-- Arguments of the types of the domain pass. -/
theorem checkArgs_ok {tys : List Ty} (h : List.Forall₂ s.Has args tys) :
    s.checkArgs (args.zip tys) = .ok () := by
  induction h with
  | nil => rfl
  | cons ha _ ih =>
    rw [List.zip_cons_cons]
    unfold Store.checkArgs
    rw [ha.typeOf]
    simpa [Bind.bind, Except.bind] using ih

/-- An application that is typed passes; no function is without arguments. -/
theorem Typed.checkApp (hw : s.Wf) {f : Term} (h : s.Typed (.app f args) ty) :
    s.checkApp f args = .ok ty := by
  obtain ⟨tf, domain, hf, hshape, hargs⟩ := h
  have hne : args ≠ [] := by
    rintro rfl
    cases hargs
    exact (hw.ty_ok hshape).1 rfl
  unfold Store.checkApp
  rw [hf.typeOf]
  simp [Bind.bind, Except.bind, hshape, hargs.length_eq, List.isEmpty_iff, hne, checkArgs_ok hargs,
    Pure.pure, Except.pure]

/-- Different variables pass. -/
theorem checkVars_ok {before : List Term} (hnodup : vars.Nodup) (hnew : ∀ v ∈ vars, v ∉ before)
    (hvars : ∀ v ∈ vars, s.IsVar v) : s.checkVars before vars = .ok () := by
  induction vars generalizing before with
  | nil => rfl
  | cons v vars ih =>
    obtain ⟨hv, hnodup⟩ := List.nodup_cons.mp hnodup
    obtain ⟨hpos, tv, n, hn⟩ := hvars v List.mem_cons_self
    have hhas : s.Has v tv := ⟨⟨_, hn⟩, by simp [hpos]⟩
    have hcheck : s.check v = .ok () := hhas.check
    have hrest : s.checkVars (v :: before) vars = .ok () := by
      refine ih hnodup (fun u hu hmem => ?_) fun u hu => hvars u (List.mem_cons_of_mem _ hu)
      rcases List.mem_cons.mp hmem with rfl | hmem
      · exact hv hu
      · exact hnew u (List.mem_cons_of_mem _ hu) hmem
    have hshape : (s.shape v).isVariable = true := by
      simp [shape, shape?, hn, Term.Shape.isVariable]
    have hfirst : before.contains v = false := by
      simpa using hnew v List.mem_cons_self
    unfold Store.checkVars
    rw [hcheck]
    simp only [Bind.bind, Except.bind, hpos, hshape, hfirst]
    exact hrest

/-! ## Operations -/

/-- After a check that passes, what matters is the rest. -/
theorem granted_read_bind {g : Store → Except TermError β} {f : β → Op α} {v : β} (hg : g s = .ok v)
    (hf : Granted (f v) s) : Granted (Store.read g >>= f) s := by
  have hread : Store.read g s = .ok v s := by
    unfold Store.read
    rw [hg]
  obtain ⟨r, s', hr⟩ := hf
  exact ⟨r, s', (bind_of_ok hread).trans hr⟩

theorem granted_look_bind {g : Store → β} {f : β → Op α} (h : Granted (f (g s)) s) :
    Granted (Store.look g >>= f) s := h

/-- Storing a term is never refused. -/
theorem granted_intern (shape : Term.Shape) (ty : Ty) : Granted (intern shape ty) s := ⟨_, _, rfl⟩

theorem granted_map {op : Op α} {f : α → β} (h : Granted op s) :
    Granted (op >>= fun r => pure (f r)) s :=
  h.bind fun _ _ _ => .pure _

/-! ## Boolean structure -/

/-- With the members checked, a disjunction is a constant, a member, or stored. -/
theorem granted_orOf (args : List Term) : Granted (orOf args) s := by
  refine .ite (fun _ => .pure _) fun _ => .ite (fun _ => .pure _) fun _ => ?_
  split
  · exact .pure _
  · exact .pure _
  · exact granted_intern _ _

/-- Formulas have a disjunction. -/
theorem granted_or (hargs : ∀ a ∈ args, s.Has a .bool) : Granted (or args) s :=
  granted_read_bind (forM_ok fun a ha => (hargs a ha).checkBool) (granted_orOf args)

theorem granted_and (hargs : ∀ a ∈ args, s.Has a .bool) : Granted (and args) s :=
  granted_read_bind (forM_ok fun a ha => (hargs a ha).checkBool) (granted_map (granted_orOf _))

/-- Formulas have an exclusive disjunction; constants and equal members need no node. -/
theorem granted_xor2 (ha : s.Has a .bool) (hb : s.Has b .bool) : Granted (xor2 a b) s := by
  refine granted_read_bind ha.checkBool (granted_read_bind hb.checkBool ?_)
  have hout {op : Op Term} {f : Term → Term} (h : Granted op s) :
    Granted (op >>= fun r => pure (f r)) s := granted_map h
  exact .ite (fun _ => hout (.pure _)) fun _ => .ite (fun _ => hout (.pure _)) fun _ =>
    .ite (fun _ => hout (.pure _))
    fun _ => .ite (fun _ => hout (granted_intern _ _)) fun _ => hout (granted_intern _ _)

theorem granted_iff (ha : s.Has a .bool) (hb : s.Has b .bool) : Granted (iff a b) s :=
  granted_map (granted_xor2 ha hb)

theorem forall_has_pair (ha : s.Has a ty) (hb : s.Has b ty) : ∀ t ∈ [a, b], s.Has t ty := by
  simp [ha, hb]

/-- A choice of formulas is a connective of its parts in most cases, which is granted in turn. -/
theorem granted_iteOf (hc : s.Has c .bool) (ha : s.Has a ty) (hb : s.Has b ty) :
    Granted (iteOf ty c a b) s := by
  refine .ite (fun hty => ?_) fun _ => granted_intern _ _
  subst hty
  exact .ite (fun _ => granted_or (forall_has_pair hc hb)) fun _ =>
    .ite (fun _ => granted_and (forall_has_pair hc.neg hb)) fun _ =>
    .ite (fun _ => granted_or (forall_has_pair hc.neg ha)) fun _ =>
    .ite (fun _ => granted_and (forall_has_pair hc ha)) fun _ =>
    .ite (fun _ => granted_iff hc ha) fun _ =>
    .ite (fun _ => granted_map (granted_intern _ _)) fun _ => granted_intern _ _

theorem granted_ite (hc : s.Has c .bool) (ha : s.Has a ty) (hb : s.Has b ty) :
    Granted (Store.ite c a b) s :=
  granted_read_bind hc.checkBool <| granted_read_bind (ha.checkSameType hb) <|
    .ite (fun _ => .pure _) fun _ => .ite (fun _ => .pure _) fun _ =>
      .ite (fun _ => granted_iteOf hc.neg hb ha) fun _ => granted_iteOf hc ha hb

/-- Terms of one type have an equality, which for formulas is an equivalence. -/
theorem granted_eq (ha : s.Has a ty) (hb : s.Has b ty) : Granted (eq a b) s := by
  refine granted_read_bind (ha.checkSameType hb) (.ite (fun _ => .pure _) fun _ =>
      .ite (fun hty => ?_) fun _ =>
    granted_look_bind ?_)
  · subst hty
    exact granted_iff ha hb
  · split
    · exact .pure _
    · exact .ite (fun _ => granted_intern _ _) fun _ => granted_intern _ _

/-! ## Functions, quantifiers and constants -/

/-- A function is applied to arguments of its domain. -/
theorem granted_app (hw : s.Wf) {f : Term} (h : s.Typed (.app f args) ty) :
    Granted (app f args) s :=
  granted_read_bind (h.checkApp hw) (granted_intern _ _)

/-- Different variables bind in a formula. -/
theorem granted_all {body : Term} (hne : vars ≠ []) (hnodup : vars.Nodup)
    (hvars : ∀ v ∈ vars, s.IsVar v) (hbody : s.Has body .bool) : Granted (all vars body) s := by
  refine .ite (fun h => absurd (List.isEmpty_iff.mp h) hne) fun _ => ?_
  refine granted_read_bind (checkVars_ok hnodup (fun _ _ => List.not_mem_nil) hvars)
    (granted_read_bind hbody.checkBool ?_)
  exact .ite (fun _ => .pure _) fun _ => granted_intern _ _

/-- There is a constant of every type of the store. -/
theorem granted_newConst (h : ∃ shape, s.tyShape? ty = some shape) : Granted (newConst ty) s := by
  have hlive : s.checkTy ty = .ok () := by
    obtain ⟨shape, hshape⟩ := h
    obtain ⟨v, hv, -⟩ := Option.map_eq_some_iff.mp hshape
    simp [checkTy, isValidTy, Arena.isLive, hv]
  refine granted_read_bind hlive ?_
  exact Granted.bind ⟨_, _, rfl⟩ fun _ _ _ => granted_intern _ _

/-! ## Bitvectors -/

/-- Widths of types are in range. -/
theorem granted_bvConst (hw : s.Wf) (hty : s.tyShape? ty = some (.bitVector w)) (n : Nat) :
    Granted (bvConst w n) s := by
  obtain ⟨hpos, hle⟩ := hw.ty_ok hty
  refine Granted.bind (.ite (fun h => absurd h (by omega)) fun _ =>
    .ite (fun h => absurd h (by omega)) fun _ => ⟨_, _, rfl⟩)
    fun _ _ _ => granted_intern _ _

/-- The constant of a sum is built when it is not neutral. -/
theorem granted_withConst (hw : s.Wf) (hty : s.tyShape? ty = some (.bitVector w)) (neutral n : Nat)
    (rest : List Term) :
    Granted (withConst w neutral n rest) s :=
  .ite (fun _ => .pure _) fun _ => granted_map (granted_bvConst hw hty n)

/-- Words of one width have a sum. -/
theorem granted_bvSum (hw : s.Wf) (hne : args ≠ []) (hargs : ∀ a ∈ args, s.HasWidth a w) :
    Granted (bvSum args) s := by
  obtain ⟨first, rest, rfl⟩ := List.exists_cons_of_ne_nil hne
  obtain ⟨ty, -, hty⟩ := hargs first List.mem_cons_self
  refine granted_read_bind (checkBvArgs_ok hne hargs) (granted_look_bind ?_)
  refine .ite (fun _ => granted_bvConst hw hty _) fun _ => (granted_withConst hw hty _ _ _).bind
    fun ts _ _ => ?_
  split
  · exact .pure _
  · exact granted_look_bind (granted_intern _ _)

/-- A word has a negation, which is a constant, its argument, or stored. -/
theorem granted_bvNeg (hw : s.Wf) (ha : s.HasWidth a w) : Granted (bvNeg a) s := by
  obtain ⟨ty, -, hty⟩ := id ha
  refine granted_read_bind ha.checkBv (granted_look_bind ?_)
  split
  · exact granted_bvConst hw hty _
  · exact .pure _
  · exact granted_look_bind (granted_intern _ _)

/-- A difference is a sum with a negation, which has the same width. -/
theorem granted_bvSub (hw : s.Wf) (ha : s.HasWidth a w) (hb : s.HasWidth b w) :
    Granted (bvSub a b) s := by
  refine granted_read_bind (ha.checkSameWidth hb) ((granted_bvNeg hw hb).bind fun nb s' hnb => ?_)
  obtain ⟨hs', ty, w', hty, hbty, hden⟩ := (bvNeg_builds hw b).of_ok hnb
  obtain rfl : w' = w := HasWidth.unique ⟨ty, hbty, hty⟩ hb
  refine granted_bvSum (w := w') hs'.wf (List.cons_ne_nil _ _) fun t ht => ?_
  rcases List.mem_pair.mp ht with rfl | rfl
  · exact hs'.ext.hasWidth ha
  · exact ⟨ty, hden.has, hs'.ext.ty hty⟩

/-- Words of one width are compared. -/
theorem granted_bvGe (ha : s.HasWidth a w) (hb : s.HasWidth b w) : Granted (bvGe a b) s := by
  refine granted_read_bind (ha.checkSameWidth hb) (.ite (fun _ => .pure _) fun _ =>
    granted_look_bind ?_)
  split
  · exact .pure _
  · exact .pure _
  · exact granted_intern _ _

theorem granted_bvSge (ha : s.HasWidth a w) (hb : s.HasWidth b w) : Granted (bvSge a b) s := by
  refine granted_read_bind (ha.checkSameWidth hb) (.ite (fun _ => .pure _) fun _ =>
    granted_look_bind ?_)
  split
  · exact .pure _
  · exact .ite (fun _ => .pure _) fun _ => granted_intern _ _
  · exact granted_intern _ _

/-- A word has the digits below its width. -/
theorem granted_bit {i : Nat} (hx : s.HasWidth x w) (hi : i < w) : Granted (bit x i) s := by
  refine granted_read_bind hx.checkBv (.ite (fun h => absurd h (by omega)) fun _ =>
    granted_look_bind ?_)
  split
  · exact .pure _
  · exact granted_intern _ _

/-- A product of bitvectors of one width is refused for its degree only. -/
theorem tooLarge_of_bvProduct (hw : s.Wf) (hne : args ≠ []) (hargs : ∀ a ∈ args, s.HasWidth a w)
    {e : TermError} {s' : Store} (h : bvProduct args s = .error e s') : e.TooLarge := by
  obtain ⟨first, rest, rfl⟩ := List.exists_cons_of_ne_nil hne
  obtain ⟨ty, -, hty⟩ := hargs first List.mem_cons_self
  have hread : Store.read (·.checkBvArgs (first :: rest)) s = .ok w s := by
    simp only [Store.read, checkBvArgs_ok hne hargs]
  -- whatever is granted is not what was refused
  have hno {op : Op Term} (hop : Granted op s) : op s ≠ .error e s' := by
    obtain ⟨r, s₁, hr⟩ := hop
    rw [hr]
    nofun
  unfold Store.bvProduct at h
  rw [bind_of_ok hread] at h
  change (if _ then _ else if _ then _ else _ : Op Term) s = _ at h
  split at h
  · exact absurd h (hno (granted_bvConst hw hty _))
  · split at h
    · cases h
      exact ⟨_, rfl⟩
    · refine absurd h (hno ((granted_withConst hw hty _ _ _).bind fun ts _ _ => ?_))
      split
      · exact .pure _
      · exact granted_look_bind (granted_intern _ _)

end Store
end Entail
