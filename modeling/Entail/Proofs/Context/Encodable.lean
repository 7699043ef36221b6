import Entail.Proofs.Context.Supports
import Entail.Proofs.Store.Carried
import Entail.Proofs.Store.Costs

/-!
# Supported terms can be encoded

An encoder that is deep enough for what a term costs is never refused on a supported term. The one
step that is not down to a part, the lifting of an if-then-else out of an equality, is to a formula
that costs less.
-/

namespace Entail

namespace Store

variable {s s' : Store} {t a b c x y : Term} {ty tc : Ty} {shape : Term.Shape} {n g g' d d' : Nat}

/-- The term is one of type `ty` that an encoder can encode at depth `d`. -/
structure Encodable (s : Store) (ty : Ty) (g d : Nat) (t : Term) : Prop where
  has : s.Has t ty
  supported : s.Supported [] t
  costs : s.Costs g d t

namespace Encodable

theorem later (h : s.Encodable ty g d t) (hs : s.Extends s') : s'.Encodable ty g d t :=
  ⟨hs.has h.has, h.supported.later hs, h.costs.later hs⟩

theorem mono (h : s.Encodable ty g d t) (hg : g ≤ g') (hd : d ≤ d') : s.Encodable ty g' d' t :=
  { h with costs := h.costs.mono hg hd }

theorem positive (h : s.Encodable ty g d t) : s.Encodable ty g d t.positive :=
  ⟨h.has.positive, h.supported.positive, h.costs.positive⟩

theorem of_neg (h : s.Encodable .bool g d t.neg) : s.Encodable .bool g d t :=
  ⟨t.neg_neg ▸ h.has.neg, h.supported.of_neg, h.costs.of_neg⟩

/-- The parts of a term that is no element of a sort, no application and no equality can be encoded
at a smaller depth. -/
theorem part (h : s.Encodable ty g d t) (hn : s.node? t = some (shape, ty)) {tyShape : Ty.Shape}
    (hty : s.tyShape? ty = some tyShape) (hsort : ∀ n, tyShape ≠ .uninterpreted n)
    (happ : ∀ f args, shape ≠ .app f args) (heq : ∀ a b, shape ≠ .eq a b) :
    ∃ k i, d = k + 1 ∧ ∀ c ∈ shape.children, ∀ tc, s.Has c tc → s.Encodable tc i k c := by
  obtain ⟨k, i, rfl, hparts⟩ := h.costs.part hn hty hsort fun a b _ _ h => absurd h (heq a b)
  exact ⟨k, i, rfl, fun c hc tc hctc => ⟨hctc, h.supported.part hn happ hc, hparts c hc⟩⟩

/-- The parts of an if-then-else between elements of a sort. -/
theorem of_ite (hw : s.Wf) (h : s.Encodable ty g d t) (hshape : s.shape t = .ite c a b)
    (hty : s.tyShape? ty = some (.uninterpreted n)) :
    ∃ k i, g = k + 1 ∧ s.Encodable .bool i d c ∧ s.Encodable ty k d a ∧ s.Encodable ty k d b := by
  have hn : s.node? t = some (.ite c a b, ty) := hshape ▸ h.has.node
  obtain ⟨hc, ha, hb⟩ := hw.typed hn
  obtain ⟨k, i, rfl, hcc, hca, hcb⟩ := h.costs.of_ite hn hty
  have hpart {u : Term} (hu : u ∈ [c, a, b]) : s.Supported [] u := h.supported.part hn nofun hu
  exact ⟨k, i, rfl, ⟨hc, hpart (by simp), hcc⟩, ⟨ha, hpart (by simp), hca⟩,
    ⟨hb, hpart (by simp), hcb⟩⟩

/-- The type of the sides of an equality that is supported is one of elements of a sort,
or of words. -/
theorem sides (hw : s.Wf) (h : s.Supported [] t) (hn : s.node? t = some (.eq a b, ty)) {ty' : Ty}
    (ha : s.Has a ty') :
    (∃ n, s.tyShape? ty' = some (.uninterpreted n)) ∨ ∃ w,
    s.tyShape? ty' = some (.bitVector w) := by
  obtain ⟨-, ty₁, hbool, ha₁, -⟩ := hw.typed hn
  cases ha₁.unique ha
  cases h with
  | @eq _ _ _ _ _ tyShape hn' hty' hshape hfun =>
    cases hn.symm.trans hn'
    cases ha.unique hty'
    cases tyShape with
    | uninterpreted n => exact .inl ⟨n, hshape⟩
    | bitVector w => exact .inr ⟨w, hshape⟩
    | bool => exact absurd (hw.ty_unique hshape hw.bool_ty) hbool
    | function domain range => exact absurd rfl (hfun domain range)
  | var hn' | app hn' => cases hn.symm.trans hn'
  | plain hn' hplain =>
    cases hn.symm.trans hn'
    cases hplain

end Encodable
end Store

namespace Work

open Workspace Context

variable {w : Workspace} {p t a b c x y z : Term} {ty : Ty} {n g g' i d depth width : Nat}
  {e : Encoder}

/-- The encoder is not refused on supported terms that cost less than `depth`. -/
structure Capable (e : Encoder) (depth : Nat) : Prop where
  lit : ∀ {w t g d}, w.Supported → w.store.Encodable .bool g d t → d < depth →
    Serves True w (e.lit t) fun _ _ => True
  word : ∀ {w t ty g d width}, w.Supported → w.store.Encodable ty g d t →
    w.store.tyShape? ty = some (.bitVector width) →
    d < depth → Serves True w (e.word t) fun _ _ => True

/-! ## Atoms -/

theorem serves_addEq (hw : w.Supported) (v : Nat) (ha : w.store.Nodal [] a)
    (hb : w.store.Nodal [] b) :
    Serves True w (onEgraph fun s => Egraph.addEq s v a b) fun _ _ => True := by
  refine ⟨⟨⟨Store.later_frame.refl hw.store, ?_, rfl, fun _ => rfl⟩, trivial⟩, nofun⟩
  exact hw.ctx.of_ctx id (fun n hn => Egraph.mem_nodes_addEq (fun h => h.arg hw.store) v ha hb hn)
    fun q hq => hq

theorem serves_addPred (hw : w.Supported) (v : Nat) (hp : w.store.Nodal [] p) :
    Serves True w (onEgraph fun s => Egraph.addPred s v p) fun _ _ => True := by
  refine ⟨⟨⟨Store.later_frame.refl hw.store, ?_, rfl, fun _ => rfl⟩, trivial⟩, nofun⟩
  exact hw.ctx.of_ctx id (fun n hn => Egraph.mem_nodes_addPred (fun h => h.arg hw.store) v hp hn)
    fun q hq => hq

/-! ## Equalities -/

/-- What is built for an equality between elements of a sort costs what its sides say. -/
theorem serves_eq (hw : w.Supported) (ha : w.store.Encodable ty g d a)
    (hb : w.store.Encodable ty g' d b) (hty : w.store.tyShape? ty = some (.uninterpreted n)) :
    Serves True w (onStore (Store.eq a b)) fun r w' =>
      w'.store.Encodable .bool 0 (d + 2 * (g + g') + 1) r := by
  have hbool : ty ≠ .bool := by
    rintro rfl
    cases hw.store.bool_ty.symm.trans hty
  have heq := Store.fares_eq (E := fun _ => False) hw.store ha.has hb.has hbool
  refine (serves_onStore hw heq).imp fun r w' hs hr => ?_
  obtain ⟨-, hr, hmade⟩ := hr
  have ha' := ha.later hs.store.ext
  have hb' := hb.later hs.store.ext
  have hty' := hs.store.ext.ty hty
  refine ⟨hr, ?_, ?_⟩
  · refine hmade.supported hs.store.wf (fun _ => False.elim) fun u shape tu hu hshape => ?_
    rcases hshape with rfl | rfl
    · exact .eq hu ha'.has hty' nofun ha'.supported hb'.supported
    · exact .eq hu hb'.has hty' nofun hb'.supported ha'.supported
  · clear hr
    induction hmade with
    | top => exact Store.costs_top hs.store.wf
    | given h => exact h.elim
    | node hn h =>
      rcases h with rfl | rfl
      · exact .equation hn ha'.has hty' ha'.costs hb'.costs
      · rw [Nat.add_comm g g']
        exact .equation hn hb'.has hty' hb'.costs ha'.costs
    | neg _ ih => exact ih.neg

/-- The formula for an equality from which an if-then-else was lifted is encoded at a
smaller depth. -/
theorem serves_lifted (he : Capable e depth) (hw : w.Supported) (hc : w.store.Encodable .bool i d c)
    (hx : w.store.Encodable ty g d x) (hy : w.store.Encodable ty g d y)
    (hz : w.store.Encodable ty g' d z)
    (hty : w.store.tyShape? ty = some (.uninterpreted n)) (hd : d + 2 * (g + g') + 2 < depth) :
    Serves True w (e.lifted c x y z) fun _ _ => True := by
  refine fares_bind hw (serves_eq hw hx hz hty) fun eqX w₁ hw₁ hs₁ hX => ?_
  refine fares_bind hw₁ (serves_eq hw₁ (hy.later hs₁.store.ext) (hz.later hs₁.store.ext)
    (hs₁.store.ext.ty hty))
    fun eqY w₂ hw₂ hs₂ hY => ?_
  -- up to polarity, the new formula is made of these three
  have hall : ∀ u ∈ [c, eqX, eqY], w₂.store.Encodable .bool i (d + 2 * (g + g') + 1) u := by
    intro u hu
    simp only [List.mem_cons, List.not_mem_nil, or_false] at hu
    rcases hu with rfl | rfl | rfl
    · exact (hc.later (hs₁.store.ext.trans hs₂.store.ext)).mono (Nat.le_refl _) (by omega)
    · exact (hX.later hs₂.store.ext).mono (Nat.zero_le _) (Nat.le_refl _)
    · exact hY.mono (Nat.zero_le _) (Nat.le_refl _)
  have hite := Store.fares_of (E := fun _ => False) (Store.ite_builds hw₂.store c eqX eqY)
    (Store.ite_connects hw₂.store.shapes c eqX eqY)
    (Store.granted_ite (hall c (by simp)).has (hall eqX (by simp)).has (hall eqY (by simp)).has)
  refine fares_bind hw₂ (serves_onStore hw₂ hite) fun t w₃ hw₃ hs₃ ht => ?_
  obtain ⟨-, ⟨ty', hX', -, -, hden⟩, hmade⟩ := ht
  have hgiven : ∀ u, u ∈ [c, eqX, eqY] ∨ u.neg ∈ [c, eqX, eqY] →
      w₃.store.Encodable .bool i (d + 2 * (g + g') + 1) u := fun u hu =>
    hu.elim (fun hu => (hall u hu).later hs₃.store.ext) fun hu =>
      ((hall u.neg hu).later hs₃.store.ext).of_neg
  refine he.lit (g := i) hw₃ ⟨hX'.unique (hs₂.has hX.has) ▸ hden.has, ?_, ?_⟩ hd
  · exact hmade.supported hw₃.store (fun u hu => (hgiven u hu).supported) fun u shape tu hu h =>
      .plain hu (Term.Shape.isPlain_of_isConnective h.1) (Store.Supported.of_over h.2 fun v hv =>
        (hgiven v hv).supported)
  · exact hmade.costs hw₃.store fun u hu => ⟨(hgiven u hu).has, (hgiven u hu).costs⟩

/-- Equalities between words and between elements of sorts can be encoded. -/
theorem serves_equality (he : Capable e depth) (hw : w.Supported)
    (hp : w.store.Encodable .bool g d p) (hshape : w.store.shape p = .eq a b) (hd : d ≤ depth) :
    Serves True w (e.equality p a b) fun _ _ => True := by
  have hn : w.store.node? p = some (.eq a b, .bool) := hshape ▸ hp.has.node
  obtain ⟨-, ty, -, ha, hb⟩ := hw.store.typed hn
  have hsa := hp.supported.part hn (by simp) (c := a) (by simp [Term.Shape.children])
  have hsb := hp.supported.part hn (by simp) (c := b) (by simp [Term.Shape.children])
  refine fares_look_bind ?_
  rcases Store.Encodable.sides hw.store hp.supported hn ha with ⟨n, hsort⟩ | ⟨width, hword⟩
  · obtain ⟨k, i, j, rfl, hca, hcb⟩ := hp.costs.of_eq hw.store hn ha hsort
    replace ha : w.store.Encodable ty i k a := ⟨ha, hsa, hca⟩
    replace hb : w.store.Encodable ty j k b := ⟨hb, hsb, hcb⟩
    rw [if_neg (by simp [Store.width?, Store.tyWidth?, ha.has.ty_eq, hsort])]
    refine fares_look_bind ?_
    rw [if_neg (by simp [Store.isSort, ha.has.ty_eq, hsort])]
    refine fares_look_bind (fares_look_bind ?_)
    split
    next c x y hite =>
      obtain ⟨m, q, rfl, hc, hx, hy⟩ := ha.of_ite hw.store hite hsort
      exact serves_lifted he hw hc hx hy hb hsort (by omega)
    next c x y hite _ =>
      obtain ⟨m, q, rfl, hc, hx, hy⟩ := hb.of_ite hw.store hite hsort
      exact serves_lifted he hw hc hx hy ha hsort (by omega)
    · refine fares_bind hw (free_atom p w hw) fun l w₁ hw₁ hs₁ _ => ?_
      exact fares_bind hw₁ (serves_addEq hw₁ l.var
        (hs₁.nodal (.of_isSort hsa hw.store ⟨_, n, ha.has, hsort⟩))
        (hs₁.nodal (.of_isSort hsb hw.store ⟨_, n, hb.has, hsort⟩))) fun _ w₂ hw₂ _ _ =>
        fares_pure hw₂ trivial
  · -- words are compared bit by bit
    rw [if_pos (by simp [Store.width?, Store.tyWidth?, ha.ty_eq, hword])]
    obtain ⟨k, i, rfl, hparts⟩ := hp.costs.part hn hw.store.bool_ty (by simp)
        fun a' b' ty' n heq ha' hty' => by
      cases heq
      cases ha.unique ha'
      cases hword.symm.trans hty'
    have hside {u : Term} (hu : u ∈ [a, b]) (hty : w.store.Has u ty) : w.store.Encodable ty i k u :=
      ⟨hty, hp.supported.part hn (by simp) hu, hparts u hu⟩
    refine fares_bind hw (he.word hw (hside (by simp) ha) hword (by omega)) fun xs w₁ hw₁ hs₁ _ =>
      ?_
    refine fares_bind hw₁ (he.word hw₁ ((hside (by simp) hb).later hs₁.store.ext)
      (hs₁.store.ext.ty hword) (by omega))
      fun ys w₂ hw₂ _ _ => ?_
    exact free_equalGate xs ys w₂ hw₂

/-! ## Terms -/

section

variable (he : Capable e depth)

include he

/-- Folding words that can be encoded. -/
theorem serves_foldWords (hw : w.Supported) {op : List Literal → List Literal → Work (List Literal)}
    (hop : ∀ x y, Free (op x y)) {ts : List Term} (hts : ∀ t ∈ ts, w.store.Encodable ty g d t)
    (hty : w.store.tyShape? ty = some (.bitVector width)) (hd : d < depth) :
    Serves True w (e.foldWords op ts) fun _ _ => True := by
  cases ts with
  | nil => exact fares_pure hw trivial
  | cons t ts =>
    obtain ⟨ht, hts⟩ := List.forall_mem_cons.mp hts
    refine fares_bind hw (he.word hw ht hty hd) fun first w₁ hw₁ hs₁ _ => ?_
    refine Fares.foldlM sustains_frame hw₁ trivial fun acc t ht w₂ hw₂ hs₂ _ => ?_
    have hext := hs₁.store.ext.trans hs₂.store.ext
    exact fares_bind hw₂ (he.word hw₂ ((hts t ht).later hext) (hext.ty hty) hd) fun y w₃ hw₃ _ _ =>
      hop acc y w₃ hw₃

/-- Formulas can be encoded. -/
theorem serves_boolean (hw : w.Supported) (hp : w.store.Encodable .bool g d p)
    (hpos : p.isNegated = false) (hd : d ≤ depth) :
    Serves True w (e.boolean p) fun _ _ => True := by
  refine fares_look_bind ?_
  have hn := hp.has.node
  have htyped := hw.store.typed hn
  cases hshape : w.store.shape p with
  | truth => exact free_trueLit w hw
  | uninterpreted => exact free_atom p w hw
  | app f args =>
    refine fares_bind hw (free_atom p w hw) fun l w₁ hw₁ hs₁ _ => ?_
    exact fares_bind hw₁ (serves_addPred hw₁ l.var
        (hs₁.nodal ⟨hp.supported, .inl hp.has, fun _ => hpos⟩)) fun _ w₂ hw₂ _ _ =>
      fares_pure hw₂ trivial
  | eq a b => exact serves_equality he hw hp hshape hd
  | var =>
    rw [hshape] at hn
    cases hp.supported with
    | var _ hv => cases hv
    | app hn' | eq hn' => cases hn.symm.trans hn'
    | plain hn' hplain =>
      cases hn.symm.trans hn'
      cases hplain
  | all vars body =>
    rw [hshape] at hn
    exact (hp.supported.not_quantifier hn).elim
  | bvConst | bvNeg | bvSum | bvProduct =>
    -- words are no formulas
    rw [hshape] at htyped
    have hword : ∃ w', w.store.tyShape? .bool = some (.bitVector w') := by
      first
        | exact ⟨_, htyped.1⟩
        | exact htyped.2
        | exact htyped.2.2
    obtain ⟨w', hw'⟩ := hword
    cases hw.store.bool_ty.symm.trans hw'
  | or args =>
    rw [hshape] at hn htyped
    obtain ⟨k, i, rfl, hparts⟩ := hp.part hn hw.store.bool_ty (by simp) (by simp) (by simp)
    have hlits : Serves True w (args.mapM e.lit) fun _ _ => True :=
      (Fares.mapM (T := fun _ _ => True) sustains_frame hw (fun _ => id) fun a ha w' hw' hs =>
        he.lit hw' ((hparts a ha .bool (htyped.2 a ha)).later hs.store.ext) hd).imp
          fun _ _ _ _ => trivial
    exact fares_bind hw hlits fun lits w₁ hw₁ _ _ => free_define (free_atom p) _ w₁ hw₁
  | xor a b =>
    rw [hshape] at hn htyped
    obtain ⟨k, i, rfl, hparts⟩ := hp.part hn hw.store.bool_ty (by simp) (by simp) (by simp)
    obtain ⟨-, ha, hb⟩ := htyped
    refine fares_bind hw (he.lit hw (hparts a (by simp [Term.Shape.children]) .bool ha) hd)
      fun x w₁ hw₁ hs₁ _ => ?_
    refine fares_bind hw₁ (he.lit hw₁
      ((hparts b (by simp [Term.Shape.children]) .bool hb).later hs₁.store.ext) hd)
      fun y w₂ hw₂ _ _ => ?_
    exact free_define (free_atom p) (xorClauses · x y) w₂ hw₂
  | ite c a b =>
    rw [hshape] at hn htyped
    obtain ⟨k, i, rfl, hparts⟩ := hp.part hn hw.store.bool_ty (by simp) (by simp) (by simp)
    obtain ⟨hc, ha, hb⟩ := htyped
    refine fares_bind hw (he.lit hw (hparts c (by simp [Term.Shape.children]) .bool hc) hd)
      fun z w₁ hw₁ hs₁ _ => ?_
    refine fares_bind hw₁ (he.lit hw₁
      ((hparts a (by simp [Term.Shape.children]) .bool ha).later hs₁.store.ext) hd)
      fun x w₂ hw₂ hs₂ _ => ?_
    have hext := hs₁.store.ext.trans hs₂.store.ext
    refine fares_bind hw₂ (he.lit hw₂
      ((hparts b (by simp [Term.Shape.children]) .bool hb).later hext) hd)
      fun y w₃ hw₃ _ _ => ?_
    exact free_define (free_atom p) (iteClauses · z x y) w₃ hw₃
  | bit x i =>
    rw [hshape] at hn htyped
    obtain ⟨k, j, rfl, hparts⟩ := hp.part hn hw.store.bool_ty (by simp) (by simp) (by simp)
    obtain ⟨-, width, ⟨ty, hx, hty⟩, -⟩ := htyped
    refine fares_bind hw (he.word hw (hparts x (by simp [Term.Shape.children]) ty hx) hty hd)
      fun bits w₁ hw₁ _ _ => ?_
    exact Free.bind free_trueLit (fun _ => .pure _) w₁ hw₁
  | bvGe a b | bvSge a b =>
    rw [hshape] at hn htyped
    obtain ⟨k, i, rfl, hparts⟩ := hp.part hn hw.store.bool_ty (by simp) (by simp) (by simp)
    obtain ⟨-, width, ⟨ta, ha, hta⟩, tb, hb, htb⟩ := htyped
    refine fares_bind hw (he.word hw (hparts a (by simp [Term.Shape.children]) ta ha) hta hd)
      fun x w₁ hw₁ hs₁ _ => ?_
    refine fares_bind hw₁ (he.word hw₁
      ((hparts b (by simp [Term.Shape.children]) tb hb).later hs₁.store.ext)
      (hs₁.store.ext.ty htb) hd) fun y w₂ hw₂ _ _ => ?_
    exact free_geGate _ _ w₂ hw₂

/-- Words can be encoded. -/
theorem serves_bitvector (hw : w.Supported) (ht : w.store.Encodable ty g d t)
    (hty : w.store.tyShape? ty = some (.bitVector width)) (hd : d ≤ depth) :
    Serves True w (e.bitvector t) fun _ _ => True := by
  refine fares_look_bind ?_
  rw [show w.store.width? t = some width by simp [Store.width?, Store.tyWidth?, ht.has.ty_eq, hty]]
  refine fares_look_bind ?_
  have hn := ht.has.node
  have htyped := hw.store.typed hn
  have hbool : ty ≠ .bool := by
    rintro rfl
    cases hw.store.bool_ty.symm.trans hty
  cases hshape : w.store.shape t with
  | bvConst => exact Free.bind free_trueLit (fun _ => .pure _) w hw
  | uninterpreted =>
    refine (Fares.mapM (T := fun _ _ => True) sustains_frame hw (fun _ => id) fun i hi w₁ hw₁ hs₁ =>
      ?_).imp
      fun _ _ _ _ => trivial
    have hwidth : w₁.store.HasWidth t width := ⟨ty, hs₁.has ht.has, hs₁.store.ext.ty hty⟩
    have hbit : Fares (fun _ => False) Store.Later w₁.store (Store.bit t i) fun _ _ => True :=
      .of_granted ((Store.bit_builds hw₁.store t i).mono fun _ _ _ _ => trivial)
        (Store.granted_bit hwidth (List.mem_range.mp hi))
    exact fares_bind hw₁ (serves_onStore hw₁ hbit) fun b w₂ hw₂ _ _ => free_atom b w₂ hw₂
  | var =>
    rw [hshape] at hn
    cases ht.supported with
    | var _ hv => cases hv
    | app hn' | eq hn' => cases hn.symm.trans hn'
    | plain hn' hplain =>
      cases hn.symm.trans hn'
      cases hplain
  | app f args =>
    rw [hshape] at hn
    cases ht.supported with
    | app hn' hty' hword =>
      cases hn.symm.trans hn'
      cases hty.symm.trans hty'
      exact absurd rfl (hword width)
    | var hn' | eq hn' => cases hn.symm.trans hn'
    | plain hn' hplain =>
      cases hn.symm.trans hn'
      cases hplain
  | truth | eq | or | xor | all | bit | bvGe | bvSge =>
    -- formulas are no words
    rw [hshape] at htyped
    first
      | exact absurd htyped hbool
      | exact absurd htyped.1 hbool
  | ite c a b =>
    rw [hshape] at hn htyped
    obtain ⟨k, i, rfl, hparts⟩ := ht.part hn hty (by simp) (by simp) (by simp)
    obtain ⟨hc, ha, hb⟩ := htyped
    refine fares_bind hw (he.lit hw (hparts c (by simp [Term.Shape.children]) .bool hc) hd)
      fun z w₁ hw₁ hs₁ _ => ?_
    refine fares_bind hw₁ (he.word hw₁
      ((hparts a (by simp [Term.Shape.children]) ty ha).later hs₁.store.ext)
      (hs₁.store.ext.ty hty) hd) fun x w₂ hw₂ hs₂ _ => ?_
    have hext := hs₁.store.ext.trans hs₂.store.ext
    refine fares_bind hw₂ (he.word hw₂ ((hparts b (by simp [Term.Shape.children]) ty hb).later hext)
      (hext.ty hty) hd)
      fun y w₃ hw₃ _ _ => ?_
    exact Free.mapM (fun xy : Literal × Literal => free_iteGate z xy.1 xy.2) w₃ hw₃
  | bvNeg a =>
    rw [hshape] at hn htyped
    obtain ⟨k, i, rfl, hparts⟩ := ht.part hn hty (by simp) (by simp) (by simp)
    refine fares_bind hw (he.word hw (hparts a (by simp [Term.Shape.children]) ty htyped.1) hty hd)
      fun x w₁ hw₁ _ _ => ?_
    exact free_negater x w₁ hw₁
  | bvSum args =>
    rw [hshape] at hn htyped
    obtain ⟨k, i, rfl, hparts⟩ := ht.part hn hty (by simp) (by simp) (by simp)
    refine fares_bind hw (free_falseLit w hw) fun zero w₁ hw₁ hs₁ _ => ?_
    exact serves_foldWords he hw₁ (fun x y => free_adder x y zero)
      (fun a ha => (hparts a ha ty (htyped.2.1 a ha)).later hs₁.store.ext) (hs₁.store.ext.ty hty) hd
  | bvProduct args =>
    rw [hshape] at hn htyped
    obtain ⟨k, i, rfl, hparts⟩ := ht.part hn hty (by simp) (by simp) (by simp)
    exact serves_foldWords he hw free_multiplier
      (fun a ha => hparts a ha ty (htyped.2.1 a ha)) hty hd

end

/-! ## What is remembered -/

theorem serves_cachedLit (hw : w.Supported) {encode : Term → Work Literal}
    (h : Serves True w (encode t.positive) fun _ _ => True) :
    Serves True w (Encoder.cachedLit encode t) fun _ _ => True := by
  refine fares_look_bind ?_
  split
  · exact fares_pure hw trivial
  · refine fares_bind hw h fun l w₁ hw₁ _ _ => ?_
    have hnote : Free (change fun c => { c with
        lits := c.lits.insert t.positive l, cacheLog := c.cacheLog.push (.literal t.positive) }) :=
      .change fun _ => ⟨rfl, rfl, rfl, rfl⟩
    exact hnote.bind (fun _ => .pure _) w₁ hw₁

theorem serves_cachedWord (hw : w.Supported) {encode : Term → Work (List Literal)}
    (h : Serves True w (encode t) fun _ _ => True) :
    Serves True w (Encoder.cachedWord encode t) fun _ _ => True := by
  refine fares_look_bind ?_
  split
  · exact fares_pure hw trivial
  · refine fares_bind hw h fun bits w₁ hw₁ _ _ => ?_
    have hnote : Free (change fun c => { c with
        bits := c.bits.insert t bits, cacheLog := c.cacheLog.push (.word t) }) := .change fun _ =>
          ⟨rfl, rfl, rfl, rfl⟩
    exact hnote.bind (fun _ => .pure _) w₁ hw₁

theorem capable_nested (depth : Nat) : Capable (Encoder.nested depth) depth := by
  induction depth with
  | zero => exact ⟨fun _ _ h => absurd h (Nat.not_lt_zero _), fun _ _ _ h =>
    absurd h (Nat.not_lt_zero _)⟩
  | succ depth ih =>
    exact ⟨fun hw ht hd => serves_cachedLit hw
      (serves_boolean ih hw ht.positive (Term.isNegated_positive _) (Nat.le_of_lt_succ hd)),
      fun hw ht hty hd => serves_cachedWord hw
        (serves_bitvector ih hw ht hty (Nat.le_of_lt_succ hd))⟩

/-- A supported formula is never refused a literal: the depth is enough, whatever is lifted. -/
theorem serves_literalOf (hw : w.Supported) (ht : w.store.Has t .bool)
    (hsupp : w.store.Supported [] t) :
    Serves True w (literalOf t) fun _ _ => True := by
  obtain ⟨g, d, hd, hcosts⟩ := Store.exists_costs hw.store ht
  exact fares_look_bind ((capable_nested _).lit hw ⟨ht, hsupp, hcosts⟩ hd)

end Work
end Entail
