import Entail.Proofs.Store.Amounts
import Entail.Proofs.Store.Avoids

/-!
# Substitutions that touch nothing

A substitution takes a term apart and builds it again, also where it replaces nothing. In a normal
store each node is what its constructor makes of its parts, and it is found again since it is stored
already. So a substitution for atoms that do not occur in a term answers the term, and leaves the
store as it is.
-/

namespace Entail.Store

variable {s : Store} {σ memo : Subst} {α β : Type} {a b c f t p x : Term} {args vars : List Term}
  {shape : Term.Shape} {ty : Ty}
  {i : Nat}

/-! ## Each node is what its constructor makes of its parts -/

section Nodes

theorem bool_or_eq_false {x y : Prop} [Decidable x] [Decidable y] (hx : ¬x) (hy : ¬y) :
    ¬(decide x || decide y) = true := by
  simp [hx, hy]

theorem le_of_lt (h : a.raw < b.raw) : a.le b = true ∧ a ≠ b :=
  ⟨decide_eq_true (Nat.le_of_lt h), fun heq => Nat.lt_irrefl _ (heq ▸ h)⟩

variable (hw : s.Wf) (hs : s.Normalized) (ht : t.isNegated = false)

include hw hs ht

/-- Building a disjunction that is stored already answers it, and stores nothing. The constructors
that follow do the same with the shapes they store. -/
theorem or_node (hn : s.node? t = some (.or args, ty)) : or args s = .ok t s := by
  obtain ⟨-, hargs⟩ := hw.typed hn
  obtain ⟨htwo, hsorted, hopen, hcompl⟩ := hs hn
  have hfilter : args.filter (· ≠ .bot) = args :=
    List.filter_eq_self.mpr fun a ha => decide_eq_true (hopen a ha).2
  have hsort : Term.sort args = args := Term.sort_eq (.refl args) (hsorted.imp Nat.le_of_lt)
  have htop : ¬args.contains .top = true := fun h => (hopen _ (List.contains_iff_mem.mp h)).1 rfl
  unfold or
  rw [read_bind_of_ok (forM_ok fun a ha => (hargs a ha).checkBool)]
  unfold orOf
  simp only [hfilter, hsort, Term.dedup_eq hsorted]
  rw [if_neg htop, if_neg (Term.not_hasComplement hcompl)]
  refine (congrFun ?_ s).trans (intern_node hw hn ht .bool)
  split
  · cases htwo
  · simp at htwo
  · rfl

theorem xor2_node (hn : s.node? t = some (.xor a b, ty)) : xor2 a b s = .ok t s := by
  obtain ⟨-, ha, hb⟩ := hw.typed hn
  obtain ⟨hlt, hapos, hbpos, haopen, hbopen⟩ := hs hn
  obtain ⟨hle, hne⟩ := le_of_lt hlt
  unfold xor2
  rw [read_bind_of_ok ha.checkBool, read_bind_of_ok hb.checkBool]
  simp only [Term.positive_of_not_isNegated hapos, Term.positive_of_not_isNegated hbpos, hne,
    haopen.1, hbopen.1, hle, hapos,
    hbpos, if_false, if_true]
  exact bind_of_ok (intern_node hw hn ht _)

theorem ite_node (hn : s.node? t = some (.ite c a b, ty)) : Store.ite c a b s = .ok t s := by
  obtain ⟨hc, ha, hb⟩ := hw.typed hn
  obtain ⟨hpos, hopen, hne, hbranches⟩ := hs hn
  unfold Store.ite
  rw [read_bind_of_ok hc.checkBool, read_bind_of_ok (ha.checkSameType hb)]
  rw [if_neg (bool_or_eq_false hopen.1 hne), if_neg hopen.2, if_neg (by simp [hpos])]
  unfold iteOf
  split
  next hbool =>
    obtain ⟨haopen, hbopen, hcompl, hsigns⟩ := hbranches hbool
    rw [if_neg haopen.1, if_neg haopen.2, if_neg hbopen.1, if_neg hbopen.2, if_neg hcompl, if_neg]
    · exact intern_node hw hn ht ty
    · rcases hsigns with h | h <;> simp [h]
  next => exact intern_node hw hn ht ty

theorem eq_node (hn : s.node? t = some (.eq a b, ty)) : eq a b s = .ok t s := by
  obtain ⟨-, ty', hbool, ha, hb⟩ := hw.typed hn
  obtain ⟨hlt, hvalues⟩ := hs hn
  obtain ⟨hle, hne⟩ := le_of_lt hlt
  unfold eq
  rw [read_bind_of_ok (ha.checkSameType hb), if_neg hne, if_neg hbool, look_bind_apply]
  refine (congrFun ?_ s).trans (intern_node hw hn ht .bool)
  split
  next x y hxy =>
    obtain ⟨hx, hy⟩ := Prod.mk.inj hxy
    simp [hx, hy] at hvalues
  next => exact if_pos hle

theorem bvGe_node (hn : s.node? t = some (.bvGe a b, ty)) : bvGe a b s = .ok t s := by
  obtain ⟨-, w, ha, hb⟩ := hw.typed hn
  obtain ⟨hne, hvalues, hzero⟩ := hs hn
  unfold bvGe
  rw [read_bind_of_ok (ha.checkSameWidth hb), if_neg hne, look_bind_apply]
  refine (congrFun ?_ s).trans (intern_node hw hn ht .bool)
  split
  next x y hxy =>
    obtain ⟨hx, hy⟩ := Prod.mk.inj hxy
    simp [hx, hy] at hvalues
  next hxy => exact absurd (Prod.mk.inj hxy).2 hzero
  next => rfl

theorem bvSge_node (hn : s.node? t = some (.bvSge a b, ty)) : bvSge a b s = .ok t s := by
  obtain ⟨-, w, ha, hb⟩ := hw.typed hn
  obtain ⟨hne, hvalues, hsign⟩ := hs hn
  unfold bvSge
  rw [read_bind_of_ok (ha.checkSameWidth hb), if_neg hne, look_bind_apply]
  refine (congrFun ?_ s).trans (intern_node hw hn ht .bool)
  split
  next x y hxy =>
    obtain ⟨hx, hy⟩ := Prod.mk.inj hxy
    simp [hx, hy] at hvalues
  next y hxy =>
    -- a constant has the width of the other side
    obtain ⟨tyb, hnb, -⟩ := Folding.node_of_constValue hw hb (Prod.mk.inj hxy).2
    exact if_neg (hsign w y (shape_of_node hnb))
  next => rfl

theorem bvNeg_node (hn : s.node? t = some (.bvNeg a, ty)) : bvNeg a s = .ok t s := by
  obtain ⟨ha, w, hwidth⟩ := hw.typed hn
  obtain ⟨hvalue, hneg⟩ := hs hn
  unfold bvNeg
  rw [read_bind_of_ok (HasWidth.checkBv ⟨ty, ha, hwidth⟩), look_bind_apply]
  refine (congrFun (?_ : _ = look (·.ty a) >>= intern (.bvNeg a)) s).trans
    (intern_node hw hn ht (s.ty a))
  split
  next hshape => simp [constValue?, hshape] at hvalue
  next hshape => exact absurd hshape (hneg _)
  next => rfl

theorem bit_node (hn : s.node? t = some (.bit a i, ty)) : bit a i s = .ok t s := by
  obtain ⟨-, w, ha, hi⟩ := hw.typed hn
  have hvalue : s.constValue? a = none := hs hn
  unfold bit
  rw [read_bind_of_ok ha.checkBv, if_neg (by omega), look_bind_apply, hvalue]
  exact intern_node hw hn ht _

/-- Building a sum, a product or a bitwise operation that is stored already answers it. -/
theorem fold_node {k : Folding} (hn : s.node? t = some (k.shape args, ty)) :
    k.build args s = .ok t s := by
  have hne : args ≠ [] := by
    rintro rfl
    cases (Folding.gathered_of_normal (hs hn)).1.two
  obtain ⟨w, hty⟩ : ∃ w, s.tyShape? ty = some (.bitVector w) := by
    have htyped := hw.typed hn
    cases k with
    | sum => exact htyped.2.2
    | product => exact htyped.2.2
  have hargs := Folding.hasWidth_of_node hw hn hty
  have ht' : s.HasWidth t w := ⟨ty, ⟨⟨_, hn⟩, by simp [ht]⟩, hty⟩
  refine Folding.build_of_amount hw hs hne hargs ht' ?_
  -- no argument is taken apart further
  have hflat : k.flatten s args = args := by
    rw [Folding.flatten_eq, List.flatMap_congr fun a ha =>
      Folding.flatten_of_kind ((Folding.gathered_of_normal (hs hn)).1.flat a ha),
        List.flatMap_singleton']
  rw [hflat, Folding.flatten_of_shape (shape_of_node hn)]

omit hs in
/-- Building an application that is stored already answers it. -/
theorem app_node (hn : s.node? t = some (.app f args, ty)) : app f args s = .ok t s := by
  unfold app
  rw [read_bind_of_ok ((hw.typed hn).checkApp hw)]
  exact intern_node hw hn ht _

/-- Building a quantifier that is stored already answers it. -/
theorem all_node (hn : s.node? t = some (.all vars b, ty)) : all vars b s = .ok t s := by
  obtain ⟨-, hnodup, hvars, hb⟩ := hw.typed hn
  obtain ⟨hne, hopen⟩ := hs hn
  unfold all
  rw [if_neg (by simpa using hne),
    read_bind_of_ok (checkVars_ok hnodup (fun _ _ => List.not_mem_nil) hvars),
    read_bind_of_ok hb.checkBool, if_neg (bool_or_eq_false hopen.1 hopen.2)]
  exact intern_node hw hn ht _

end Nodes

/-! ## Rebuilding what is there -/

/-- Each term that is remembered became itself. -/
def Faithful (memo : Subst) : Prop := ∀ ⦃x v : Term⦄, memo[x]? = some v → v = x

theorem faithful_empty : Faithful ∅ := fun _ _ h => by simp at h

/-- Remembering that a term became itself keeps the memory faithful. -/
theorem Faithful.insert (h : Faithful memo) (x : Term) : Faithful (memo.insert x x) := by
  intro y v hy
  rw [Std.HashMap.getElem?_insert] at hy
  split at hy
  next heq =>
    cases hy
    exact eq_of_beq heq
  next => exact h hy

/-- The operation answers `a`, leaves the store as it is and remembers of terms that they became
themselves only. -/
def Idle (s : Store) (op : SubstOp α) (a : α) : Prop :=
  ∀ memo, Faithful memo → ∃ memo', Faithful memo' ∧ op memo s = .ok (a, memo') s

namespace Idle

variable {op : SubstOp α} {g : α → SubstOp β} {a : α} {b : β}

theorem pure (a : α) : Idle s (Pure.pure a) a := fun memo hm => ⟨memo, hm, rfl⟩

/-- One idle step after another is idle. -/
theorem bind (h : Idle s op a) (hg : Idle s (g a) b) : Idle s (op >>= g) b := by
  intro memo hm
  obtain ⟨memo₁, hm₁, hop⟩ := h memo hm
  obtain ⟨memo₂, hm₂, hgop⟩ := hg memo₁ hm₁
  refine ⟨memo₂, hm₂, ?_⟩
  show (op memo >>= fun x => g x.1 x.2) s = _
  rw [bind_of_ok hop]
  exact hgop

theorem lift {op : Op α} (h : op s = .ok a s) : Idle s (liftM op) a := by
  intro memo hm
  refine ⟨memo, hm, ?_⟩
  show (op >>= fun x => Pure.pure (x, memo)) s = _
  rw [bind_of_ok h]
  rfl

theorem get_bind {g : Subst → SubstOp β} (h : ∀ memo, Faithful memo → Idle s (g memo) b) :
    Idle s (get >>= g) b :=
  fun memo hm => h memo hm memo hm

theorem modify_bind {change : Subst → Subst} {g : PUnit → SubstOp β}
    (hchange : ∀ memo, Faithful memo → Faithful (change memo))
    (h : Idle s (g ⟨⟩) b) : Idle s (modify change >>= g) b :=
  fun memo hm => h (change memo) (hchange memo hm)

theorem look_bind {look : Store → α} (h : Idle s (g (look s)) b) :
    Idle s ((liftM (Store.look look) : SubstOp α) >>= g) b :=
  bind (lift rfl) h

/-- Substituting in a list is idle if it is idle in every member. -/
theorem mapM {sub : Term → SubstOp Term} (h : ∀ t ∈ args, Idle s (sub t) t) :
    Idle s (args.mapM sub) args := by
  induction args with
  | nil => exact .pure _
  | cons t args ih =>
    rw [List.mapM_cons]
    refine .bind (h t List.mem_cons_self)
      (.bind (ih fun u hu => h u (List.mem_cons_of_mem t hu)) ?_)
    exact .pure _

/-- An idle step that starts with nothing remembered answers its term from the same store. -/
theorem run' (h : Idle s op a) : op.run' ∅ s = .ok a s := by
  obtain ⟨memo, -, hop⟩ := h ∅ faithful_empty
  show ((·.1) <$> op ∅ : Op α) s = _
  rw [← bind_pure_comp, bind_of_ok hop]
  rfl

end Idle

/-- A node whose parts stay, and that binds none of the keys, stays. -/
theorem rebuild_idle {sub : Subst → Term → SubstOp Term} (hw : s.Wf) (hs : s.Normalized)
    (hp : p.isNegated = false)
    (hn : s.node? p = some (shape, ty)) (hparts : ∀ c ∈ shape.children, Idle s (sub σ c) c)
    (hkeys : ∀ c ∈ shape.children, σ[c.positive]? = none) : Idle s (rebuild sub σ p) p := by
  unfold rebuild
  refine .look_bind ?_
  rw [show s.shape? p = some shape by simp [shape?, hn]]
  cases shape with
  | truth | bvConst | uninterpreted | var => exact .pure p
  | ite c a b =>
    have hkids := List.forall_mem_cons.mp hparts
    have hbranches := List.forall_mem_cons.mp hkids.2
    refine .bind hkids.1 (.bind hbranches.1 (.bind (hbranches.2 b List.mem_cons_self) ?_))
    exact .lift (ite_node hw hs hp hn)
  | eq a b =>
    have hkids := List.forall_mem_cons.mp hparts
    exact .bind hkids.1 (.bind (hkids.2 b List.mem_cons_self) (.lift (eq_node hw hs hp hn)))
  | xor a b =>
    have hkids := List.forall_mem_cons.mp hparts
    exact .bind hkids.1 (.bind (hkids.2 b List.mem_cons_self) (.lift (xor2_node hw hs hp hn)))
  | bvGe a b =>
    have hkids := List.forall_mem_cons.mp hparts
    exact .bind hkids.1 (.bind (hkids.2 b List.mem_cons_self) (.lift (bvGe_node hw hs hp hn)))
  | bvSge a b =>
    have hkids := List.forall_mem_cons.mp hparts
    exact .bind hkids.1 (.bind (hkids.2 b List.mem_cons_self) (.lift (bvSge_node hw hs hp hn)))
  | bvNeg x => exact .bind (hparts x List.mem_cons_self) (.lift (bvNeg_node hw hs hp hn))
  | bit x i => exact .bind (hparts x List.mem_cons_self) (.lift (bit_node hw hs hp hn))
  | or args => exact .bind (.mapM hparts) (.lift (or_node hw hs hp hn))
  | bvSum args => exact .bind (.mapM hparts) (.lift (fold_node (k := .sum) hw hs hp hn))
  | bvProduct args => exact .bind (.mapM hparts) (.lift (fold_node (k := .product) hw hs hp hn))
  | app f args =>
    have hkids := List.forall_mem_cons.mp hparts
    exact .bind hkids.1 (.bind (.mapM hkids.2) (.lift (app_node hw hp hn)))
  | all vars body =>
    -- a bound variable is a part, so it is no key and hides none
    have hbinds : ¬vars.any σ.contains = true := by
      rw [List.any_eq_true]
      rintro ⟨v, hv, hkey⟩
      have hpos := ((hw.typed hn).2.2.1 v hv).1
      have hnone := hkeys v (List.mem_append_left _ hv)
      rw [Term.positive_of_not_isNegated hpos] at hnone
      rw [Std.HashMap.contains_eq_isSome_getElem?, hnone] at hkey
      cases hkey
    dsimp only
    rw [if_neg hbinds]
    refine .bind (hparts body (List.mem_append_right _ List.mem_cons_self)) ?_
    exact .lift (all_node hw hs hp hn)

/-- Terms below which there are no keys stay, if the depth is above their rank. -/
theorem substAt_idle (hw : s.Wf) (hs : s.Normalized) {rank : Nat → Nat}
    (hrank : ∀ {i shape ty}, s.terms.get? i = some (shape, ty) → ∀ c ∈ shape.children,
      rank c.index < rank i)
    {depth : Nat} (ht : ∃ ty, s.Has t ty) (hdepth : rank t.index < depth)
    (hkeys : ∀ u, s.Below t u → σ[u.positive]? = none) : Idle s (substAt depth σ t) t := by
  induction depth generalizing t with
  | zero => exact absurd hdepth (Nat.not_lt_zero _)
  | succ depth ih =>
    obtain ⟨ty, hty⟩ := ht
    obtain ⟨shape, hn⟩ := hty.positive.1
    have hchild : ∀ c ∈ shape.children, s.Below t c := fun c hc =>
      Below.child .refl (by rw [← hn, node?, node?, Term.index_positive]) hc
    have hrebuilt : Idle s (rebuild (substAt depth) σ t.positive) t.positive := by
      refine rebuild_idle hw hs (Term.isNegated_positive t) hn (fun c hc => ?_) fun c hc =>
        hkeys c (hchild c hc)
      refine ih ((hw.typed hn).live hc) ?_ fun u hu => hkeys u ((hchild c hc).trans hu)
      have hlt := hrank hn c hc
      rw [Term.index_positive] at hlt
      omega
    have hanswer : Idle s (Pure.pure (t.positive.negIf t.isNegated)) t := by
      have hself : t.positive.negIf t.isNegated = t := by
        cases hneg : t.isNegated with
        | false => exact Term.positive_of_not_isNegated hneg
        | true => exact Term.neg_positive hneg
      rw [hself]
      exact .pure t
    unfold substAt
    simp only [hkeys t .refl]
    refine .get_bind fun memo hm => ?_
    cases hr : memo[t.positive]? with
    | some r =>
      obtain rfl := hm hr
      exact hanswer
    | none => exact .bind hrebuilt (.modify_bind (fun _ hm => hm.insert _) hanswer)

/-- Whatever a substitution replaces, a term in which it does not occur stays, and
nothing is stored. -/
theorem subst_untouched (h : Reached s) (ht : s.isValid t = true)
    (hkeys : ∀ x ∈ σ, s.occurs x t = false) : subst σ t s = .ok t s := by
  have hw := h.intact.wf
  obtain ⟨ty, hty⟩ := isValid_iff.mp ht
  obtain ⟨rank, hrank, hbound⟩ := hw.bounded
  have hnone : ∀ u, s.Below t u → σ[u.positive]? = none := by
    intro u hu
    refine Std.HashMap.getElem?_eq_none fun hmem => ?_
    have hlive := hu.live hw ht
    have hoccurs := hkeys _ hmem
    rw [Bool.eq_false_iff, Ne, occurs_iff hw (by rwa [node?, Term.index_positive])] at hoccurs
    exact hoccurs (by rwa [Below, Term.index_positive])
  unfold subst
  split
  · rfl
  · rw [look_bind_apply]
    exact (substAt_idle hw h.normalized hrank ⟨ty, hty⟩
      (Nat.lt_succ_of_lt (hbound hty.node)) hnone).run'

/-- Variables `x` and `y` of 8 bits, a constant `z`, the constant 3 and the sum of all but `z`. -/
def worded : Store :=
  let s := endState (bvType 8 .empty)
  let s := endState (newVar ⟨1⟩ s)
  let s := endState (newVar ⟨1⟩ s)
  let s := endState (newConst ⟨1⟩ s)
  let s := endState (bvConst 8 3 s)
  endState (bvSum [.ofIndex 2, .ofIndex 3, .ofIndex 5] s)

theorem reached_worded : Reached worded := by
  have h₁ := ((Reached.empty.build (.bvType 8)).build (.newVar ⟨1⟩)).build (.newVar ⟨1⟩)
  have h₂ := (h₁.build (.newConst ⟨1⟩)).build (.bvConst 8 3)
  exact h₂.build (.bvSum [.ofIndex 2, .ofIndex 3, .ofIndex 5])

/-- The quantified `if x = y then x + y + 3 ≥ y else ¬(x ≥ y)`, for all `x`. -/
def guarded : Store :=
  let s := endState (eq (.ofIndex 2) (.ofIndex 3) worded)
  let s := endState (bvGe (.ofIndex 6) (.ofIndex 3) s)
  let s := endState (bvGe (.ofIndex 2) (.ofIndex 3) s)
  let s := endState (ite (.ofIndex 7) (.ofIndex 8) (Term.ofIndex 9).neg s)
  endState (all [.ofIndex 2] (.ofIndex 10) s)

theorem reached_guarded : Reached guarded := by
  unfold guarded
  have h₁ := (reached_worded.build (.eq (.ofIndex 2) (.ofIndex 3))).build
    (.bvGe (.ofIndex 6) (.ofIndex 3))
  have h₂ := h₁.build (.bvGe (.ofIndex 2) (.ofIndex 3))
  exact (h₂.build (.ite (.ofIndex 7) (.ofIndex 8) (Term.ofIndex 9).neg)).build
    (.all [.ofIndex 2] (.ofIndex 10))

/-- The variable `y` for the constant `z`. -/
def filling : Subst := Std.HashMap.insert ∅ (.ofIndex 4) (.ofIndex 3)

/-- The negated quantifier stays when `y` is put for `z`. -/
theorem guarded_untouched :
    guarded.node? (.ofIndex 11) = some (.all [.ofIndex 2] (.ofIndex 10), .bool) ∧ Reached guarded ∧
      guarded.isValid (Term.ofIndex 11).neg = true ∧
      (∀ x ∈ filling, guarded.occurs x (Term.ofIndex 11).neg = false) ∧
      subst filling (Term.ofIndex 11).neg guarded = .ok (Term.ofIndex 11).neg guarded := by
  have hn : guarded.node? (.ofIndex 11) = some (.all [.ofIndex 2] (.ofIndex 10), .bool) := by cbv
  have hvalid : guarded.isValid (Term.ofIndex 11).neg = true := by cbv
  have hkeys : ∀ x ∈ filling, guarded.occurs x (Term.ofIndex 11).neg = false := by
    intro x hx
    rcases Std.HashMap.mem_insert.mp hx with heq | hmem
    · rw [← eq_of_beq heq]
      cbv
    · exact absurd hmem Std.HashMap.not_mem_empty
  exact ⟨hn, reached_guarded, hvalid, hkeys, subst_untouched reached_guarded hvalid hkeys⟩

end Entail.Store
