import Entail.Context.Encode
import Entail.Proofs.Encoding.Truths
import Entail.Proofs.Encoding.Words

/-!
# Encodings have the values of their terms

Whatever term is encoded, and however deep it is, the literal or the word that is answered has the
value of the term, in every valuation that satisfies the definitions and gives atoms the values of
their variables. What is known of the parts is enough for a term; an if-then-else of a sort has no
encoding, but lifting it out of an equality does not change what the equality says.
-/

namespace Entail

open Search Workspace Work

namespace Draft

variable {L L' : Draft} {α β : Type} {p t a b c x y z : Term} {l : Literal} {e : Encoder}

/-! ## Atoms and composed terms -/

/-- The variable of an atom. -/
theorem drafts_bareAtom (hL : L.Ok) (hp : L.store.Has p .bool) (hneg : p.isNegated = false)
    (hatom : ∀ A : Atoms, (A.atom? L.store p).isSome = true) :
    L.Drafts (atom p) fun out L' => L'.Says out p := by
  refine drafts_atom hL hp hneg (fun _ => []) (fun _ _ => nofun) (fun {out v A} _ _ _ hb => ?_)
    fun _ _ _ => meets_nil _
  obtain ⟨b, hA⟩ := Option.isSome_iff_exists.mp (hatom A)
  rw [hb b hA, A.value_of_atom? hL.work.store hp hneg hA]
  rfl

/-- The variable of a composed term, with clauses that give it the value `m` that the term has. -/
theorem drafts_composed (hL : L.Ok) (hp : L.store.Has p .bool) (hneg : p.isNegated = false)
    (cs : Literal → List (List Literal)) {m : (Nat → Bool) → Bool}
    (hover : ∀ {out : Literal} {vs : Nat → Prop}, vs out.var → (∀ x, L.view.Live x → vs x) →
      ∀ c ∈ cs out, Over vs c)
    (hcs : ∀ out v, Meets v (cs out) ↔ out.eval v = m v)
    (hm : ∀ {v A}, Meets v L.defs → L.view.Agrees L.store v A → m v = (A.value L.store p).toBool) :
    L.Drafts (do let out ← atom p; clauses (cs out); return out) fun out L' => L'.Says out p :=
  drafts_atom hL hp hneg cs hover (fun hv hA hout _ => ((hcs _ _).mp hout).trans (hm hv hA))
    fun hv hA hout => (hcs _ _).mpr (hout.trans (hm hv hA).symm)

/-- A gate that has the value of a term. -/
theorem Gives.says_term {m : (Nat → Bool) → Bool} (hl : L.Gives l m) (hp : L.store.Has p .bool)
    (hm : ∀ {v A}, Meets v L.defs → L.view.Agrees L.store v A → m v = (A.value L.store p).toBool) :
    L.Says l p :=
  ⟨hp, hl.live, fun hv hA => (hl.value hv).trans (hm hv hA)⟩

/-- Encoding a term of the right type, or one of any type as a word, answers what has its value. -/
structure Faithful (e : Encoder) : Prop where
  lit : ∀ {L : Draft} {t : Term}, L.Ok → L.store.Has t .bool → L.Drafts (e.lit t) fun l L' =>
    L'.Says l t
  word : ∀ {L : Draft} {t : Term} {ty : Ty}, L.Ok → L.store.Has t ty → L.Drafts (e.word t)
    fun word L' => L'.Spells word t

/-! ## Equalities -/

/-- A choice that was lifted out of an equality says what the equality says. -/
theorem drafts_lifted (he : Faithful e) (hL : L.Ok) {ty : Ty} (hc : L.store.Has c .bool)
    (hx : L.store.Has x ty)
    (hy : L.store.Has y ty) (hz : L.store.Has z ty) (hsort : L.store.isSort ty = true) :
    L.Drafts (e.lifted c x y z) fun l L' => L'.view.Live l.var ∧ ∀ {v A}, Meets v L'.defs →
      L'.view.Agrees L'.store v A → l.eval v = A.equal
        (if (A.value L'.store c).toBool then A.value L'.store x else A.value L'.store y)
          (A.value L'.store z) := by
  have hsort' {s : Store} (hs : Store.Later L.store s) : s.isSort ty = true := by
    unfold Store.isSort at hsort ⊢
    split at hsort
    next n hty => rw [hs.ext.ty hty]
    next => cases hsort
  refine .bind (drafts_onStore hL (Store.builders_built.eq x z) (Store.constructors_normal.eq x z)
    (Atoms.eq_builds hL.work.store hx hsort))
    fun eqX L₁ h₁ ⟨⟨hX, hvalueX⟩, _⟩ => ?_
  refine .bind (drafts_onStore h₁.ok (Store.builders_built.eq y z)
    (Store.constructors_normal.eq y z)
    (Atoms.eq_builds h₁.ok.work.store (h₁.later.ext.has hy) (hsort' h₁.later)))
      fun eqY L₂ h₂ ⟨⟨hY, hvalueY⟩, _⟩ => ?_
  refine .bind (drafts_onStore h₂.ok (Store.builders_built.ite c eqX eqY)
    (Store.constructors_normal.ite c eqX eqY)
    (Store.ite_reads h₂.ok.work.store (h₂.later.ext.has hX) c eqY)) fun t L₃ h₃ ⟨ht, _⟩ => ?_
  refine (he.lit h₃.ok ht.has).mono fun l L₄ h₄ hl => ⟨hl.live, fun {v A} hv hA => ?_⟩
  -- all of the terms are there when the choice is made
  have h₁₃ := h₂.trans h₃
  have h₁₂ := h₁.trans h₂
  have h₀₃ := h₁.trans h₁₃
  have h₀₄ := h₀₃.trans h₄
  rw [hl.value hv hA, h₄.value h₃.ok ht.has, ht.value (A.truths h₃.ok.work.store)]
  beta_reduce
  rw [h₁₃.value h₁.ok hX, hvalueX, h₃.value h₂.ok hY, hvalueY, h₀₃.value hL hc, h₁.value hL hx,
    h₁.value hL hz,
    h₁₂.value hL hy, h₁₂.value hL hz, h₀₄.value hL hc, h₀₄.value hL hx, h₀₄.value hL hy,
      h₀₄.value hL hz]
  split <;> rfl

/-- The value of an equality. -/
theorem value_equality {A : Atoms} (hL : L.Ok) (hp : L.store.Has p .bool)
    (hneg : p.isNegated = false) (hshape : L.store.shape p = .eq a b) :
    (A.value L.store p).toBool = A.equal (A.value L.store a) (A.value L.store b) := by
  rw [A.value_of_node hL.work.store hp.node hneg, hshape]
  rfl

/-- The value of a choice. -/
theorem value_choice {A : Atoms} (hL : L.Ok) {ty : Ty} (ht : L.store.Has t ty)
    (hneg : t.isNegated = false) (hshape : L.store.shape t = .ite c x y) :
    A.value L.store t = if (A.value L.store c).toBool then A.value L.store x
      else A.value L.store y := by
  rw [A.value_of_node hL.work.store ht.node hneg, hshape]
  rfl

theorem drafts_equality (he : Faithful e) (hL : L.Ok) (hp : L.store.Has p .bool)
    (hneg : p.isNegated = false)
    (hshape : L.store.shape p = .eq a b) : L.Drafts (e.equality p a b) fun l L' => L'.Says l p := by
  obtain ⟨-, ty, hne, ha, hb⟩ : L.store.Typed (.eq a b) .bool :=
    hshape ▸ hL.work.store.typed hp.node
  have hvalue {L' : Draft} {A : Atoms} (h : L.Grows L') :
      (A.value L'.store p).toBool = A.equal (A.value L'.store a) (A.value L'.store b) :=
    value_equality h.ok (h.later.ext.has hp) hneg
      ((Interp.shape_of_has h.later.ext hp).trans hshape)
  refine .look_bind ?_
  split
  · refine .bind (he.word hL ha) fun x L₁ h₁ hx => ?_
    refine .bind (he.word h₁.ok (h₁.later.ext.has hb)) fun y L₂ h₂ hy => ?_
    have h₀₂ := h₁.trans h₂
    replace hx := hx.later h₁.ok h₂
    -- both sides have one type, so the words have one length
    have hlen : x.length = y.length := by
      obtain ⟨tyx, htx, hwx⟩ := hx.has
      obtain ⟨tyy, hty, hwy⟩ := hy.has
      obtain rfl := htx.unique (h₀₂.later.ext.has ha)
      obtain rfl := hty.unique (h₀₂.later.ext.has hb)
      exact (Ty.Shape.bitVector.inj (Option.some.inj (hwx.symm.trans hwy)))
    refine (drafts_equalGate h₂.ok hlen hx.live hy.live).mono fun l L₃ h₃ hl => ?_
    have h₀₃ := h₀₂.trans h₃
    refine hl.says_term (h₀₃.later.ext.has hp) fun {v A} hv hA => ?_
    replace hx := hx.later h₂.ok h₃
    replace hy := hy.later h₂.ok h₃
    rw [hvalue h₀₃, (A.value_word h₃.ok.work.store hx.has).1,
      (A.value_word h₃.ok.work.store hy.has).1, hx.value hv hA,
      hy.value hv hA]
    rfl
  refine .look_bind ?_
  split
  · exact .throw hL _
  next hsort =>
  replace hsort : L.store.isSort ty = true := by simpa [ha.ty_eq] using hsort
  have hsign {u : Term} (hu : L.store.Has u ty) : u.isNegated = false := hu.not_isNegated hne
  refine .look_bind (.look_bind ?_)
  split
  next c x y hite =>
    obtain ⟨hc, hx, hy⟩ : L.store.Typed (.ite c x y) ty := hite ▸ hL.work.store.typed ha.node
    refine (drafts_lifted he hL hc hx hy hb hsort).mono fun l L₁ h₁ ⟨hlive, hl⟩ => ?_
    refine ⟨h₁.later.ext.has hp, hlive, fun hv hA => ?_⟩
    rw [hl hv hA, hvalue h₁, value_choice h₁.ok (h₁.later.ext.has ha) (hsign ha)
      ((Interp.shape_of_has h₁.later.ext ha).trans hite)]
  next c x y hite _ =>
    obtain ⟨hc, hx, hy⟩ : L.store.Typed (.ite c x y) ty := hite ▸ hL.work.store.typed hb.node
    refine (drafts_lifted he hL hc hx hy ha hsort).mono fun l L₁ h₁ ⟨hlive, hl⟩ => ?_
    refine ⟨h₁.later.ext.has hp, hlive, fun {v A} hv hA => ?_⟩
    rw [hl hv hA, hvalue h₁, A.equal_comm (A.value L₁.store a),
      value_choice h₁.ok (h₁.later.ext.has hb) (hsign hb)
      ((Interp.shape_of_has h₁.later.ext hb).trans hite)]
  next hleft hright =>
    have hite {u : Term} (hu : ∀ c x y, L.store.shape u = .ite c x y → False) :
        (L.store.shape u).isIte = false := by
      cases hs : L.store.shape u with
      | ite c x y => exact (hu c x y hs).elim
      | _ => rfl
    have hatom (A : Atoms) : (A.atom? L.store p).isSome = true := by
      simp [Atoms.atom?, hshape, ha.ty_eq, hsort, hite hleft, hite hright]
    refine .bind (drafts_bareAtom hL hp hneg hatom) fun l L₁ h₁ hl => ?_
    have hadd : Steps False L₁.store (onEgraph fun s => Egraph.addEq s l.var a b) :=
      steps_addEq l.var (h₁.later.ext.has ha) (h₁.later.ext.has hb)
    exact .bind (drafts_onEgraph h₁.ok hadd) fun _ L₂ h₂ _ => .pure h₂.ok (hl.later h₁.ok h₂)

/-! ## Formulas -/

theorem drafts_or (he : Faithful e) (hL : L.Ok) (hp : L.store.Has p .bool)
    (hneg : p.isNegated = false) {args : List Term} (hshape : L.store.shape p = .or args) :
    L.Drafts (do
        let lits ← args.mapM e.lit
        let out ← atom p
        clauses (orClauses out lits)
        return out)
      fun l L' => L'.Says l p := by
  obtain ⟨-, hargs⟩ : L.store.Typed (.or args) .bool := hshape ▸ hL.work.store.typed hp.node
  refine .bind (Drafts.mapM (P := fun t l L' => L'.Says l t) (fun hL h hl => hl.later hL h) hL
    fun t ht L' h => he.lit h.ok (h.later.ext.has (hargs t ht))) fun lits L₁ h₁ hlits => ?_
  have hlive : Over L₁.view.Live lits := over_of_forall₂ hlits fun hl => hl.live
  have hn : L₁.store.node? p = some (.or args, .bool) := h₁.later.ext.node (hshape ▸ hp.node)
  refine drafts_composed h₁.ok (h₁.later.ext.has hp) hneg (fun out => orClauses out lits)
    (fun hout hvs => over_orClauses hout (hlive.mono hvs)) (fun out v => meets_orClauses v out lits)
      fun {v A} hv hA => ?_
  rw [Bool.eq_iff_iff, (A.truths h₁.ok.work.store).or hn hneg, ← List.any_eq_true,
    ← Bool.eq_iff_iff]
  have hmap : lits.map (·.eval v) = args.map fun t => (A.value L₁.store t).toBool :=
    map_eq_of_forall₂ hlits fun hl => hl.value hv hA
  have hany : lits.any (·.eval v) = (lits.map (·.eval v)).any id := by rw [List.any_map]; rfl
  rw [hany, hmap, List.any_map]
  rfl

theorem drafts_xor (he : Faithful e) (hL : L.Ok) (hp : L.store.Has p .bool)
    (hneg : p.isNegated = false) (hshape : L.store.shape p = .xor a b) :
    L.Drafts (do
        let x ← e.lit a
        let y ← e.lit b
        let out ← atom p
        clauses (xorClauses out x y)
        return out)
      fun l L' => L'.Says l p := by
  obtain ⟨-, ha, hb⟩ : L.store.Typed (.xor a b) .bool := hshape ▸ hL.work.store.typed hp.node
  refine .bind (he.lit hL ha) fun x L₁ h₁ hx => ?_
  refine .bind (he.lit h₁.ok (h₁.later.ext.has hb)) fun y L₂ h₂ hy => ?_
  have h₀₂ := h₁.trans h₂
  replace hx := hx.later h₁.ok h₂
  have hn : L₂.store.node? p = some (.xor a b, .bool) := h₀₂.later.ext.node (hshape ▸ hp.node)
  refine drafts_composed h₂.ok (h₀₂.later.ext.has hp) hneg (fun out => xorClauses out x y)
    (fun hout hvs => over_xorClauses hout (over_pair.mpr ⟨hvs _ hx.live, hvs _ hy.live⟩))
    (fun out v => meets_xorClauses v out x y)
    fun {v A} hv hA => ?_
  rw [hx.value hv hA, hy.value hv hA]
  exact ((A.truths h₂.ok.work.store).xor hn hneg).symm

theorem drafts_ite (he : Faithful e) (hL : L.Ok) (hp : L.store.Has p .bool)
    (hneg : p.isNegated = false) (hshape : L.store.shape p = .ite c a b) :
    L.Drafts (do
      let z ← e.lit c; let x ← e.lit a; let y ← e.lit b
      let out ← atom p; clauses (iteClauses out z x y); return out) fun l L' => L'.Says l p := by
  obtain ⟨hc, ha, hb⟩ : L.store.Typed (.ite c a b) .bool := hshape ▸ hL.work.store.typed hp.node
  refine .bind (he.lit hL hc) fun z L₁ h₁ hz => ?_
  refine .bind (he.lit h₁.ok (h₁.later.ext.has ha)) fun x L₂ h₂ hx => ?_
  have h₀₂ := h₁.trans h₂
  refine .bind (he.lit h₂.ok (h₀₂.later.ext.has hb)) fun y L₃ h₃ hy => ?_
  have h₀₃ := h₀₂.trans h₃
  replace hz := hz.later h₁.ok (h₂.trans h₃)
  replace hx := hx.later h₂.ok h₃
  have hn : L₃.store.node? p = some (.ite c a b, .bool) := h₀₃.later.ext.node (hshape ▸ hp.node)
  refine drafts_composed h₃.ok (h₀₃.later.ext.has hp) hneg (fun out => iteClauses out z x y)
    (fun hout hvs => over_iteClauses hout
      (over_triple.mpr ⟨hvs _ hz.live, hvs _ hx.live, hvs _ hy.live⟩))
    (fun out v => meets_iteClauses v out z x y) fun {v A} hv hA => ?_
  rw [hz.value hv hA, hx.value hv hA, hy.value hv hA]
  exact ((A.truths h₃.ok.work.store).ite hn hneg).symm

theorem drafts_bit (he : Faithful e) (hL : L.Ok) (hp : L.store.Has p .bool)
    (hneg : p.isNegated = false) {i : Nat} (hshape : L.store.shape p = .bit t i) :
    L.Drafts (do let bits ← e.word t; return bits.getD i (← trueLit)) fun l L' => L'.Says l p := by
  obtain ⟨-, w, ⟨ty, ht, hty⟩, hi⟩ : L.store.Typed (.bit t i) .bool :=
    hshape ▸ hL.work.store.typed hp.node
  refine .bind (he.word hL ht) fun word L₁ h₁ hword => .look_bind (.pure h₁.ok ?_)
  have hi' : i < word.length := by
    rw [hword.has.unique (h₁.later.ext.hasWidth ⟨ty, ht, hty⟩)]
    exact hi
  have hget {l : Literal} : word.getD i l = word[i] := by simp [hi']
  refine ⟨h₁.later.ext.has hp, hget ▸ hword.live _ (List.getElem_mem hi'), fun {v A} hv hA => ?_⟩
  rw [hget, A.value_of_node h₁.ok.work.store (h₁.later.ext.node (hshape ▸ hp.node)) hneg]
  show _ = (A.value L₁.store t).toNat.testBit i
  rw [← hword.value hv hA, Literal.number, Bits.testBit_ofBits]
  simp [hi']

/-- Two words of one width are compared by a gate. -/
theorem drafts_comparison (he : Faithful e) (hL : L.Ok) (hp : L.store.Has p .bool) {w : Nat}
    (ha : L.store.HasWidth a w) (hb : L.store.HasWidth b w)
    (gate : List Literal → List Literal → Work Literal) (rel : Nat → Nat → Bool)
    (hgate : ∀ {L : Draft} {x y : List Literal}, L.Ok → x.length = w → y.length = w →
      Over L.view.Live x →
      Over L.view.Live y → L.Drafts (gate x y) fun l L' =>
        L'.Gives l fun v => rel (Literal.number v x) (Literal.number v y))
    (hvalue : ∀ {L' : Draft} {A : Atoms}, L.Grows L' →
      (A.value L'.store p).toBool = rel (A.value L'.store a).toNat (A.value L'.store b).toNat) :
    L.Drafts (do let x ← e.word a; let y ← e.word b; gate x y) fun l L' => L'.Says l p := by
  have ⟨_, hta, _⟩ := ha
  have ⟨_, htb, _⟩ := hb
  refine .bind (he.word hL hta) fun x L₁ h₁ hx => ?_
  refine .bind (he.word h₁.ok (h₁.later.ext.has htb)) fun y L₂ h₂ hy => ?_
  have h₀₂ := h₁.trans h₂
  replace hx := hx.later h₁.ok h₂
  refine (hgate h₂.ok (hx.has.unique (h₀₂.later.ext.hasWidth ha))
    (hy.has.unique (h₀₂.later.ext.hasWidth hb)) hx.live
    hy.live).mono fun l L₃ h₃ hl => ?_
  have h₀₃ := h₀₂.trans h₃
  refine hl.says_term (h₀₃.later.ext.has hp) fun {v A} hv hA => ?_
  rw [hvalue h₀₃, (hx.later h₂.ok h₃).value hv hA, (hy.later h₂.ok h₃).value hv hA]

theorem drafts_boolean (he : Faithful e) (hL : L.Ok) (hp : L.store.Has p .bool)
    (hneg : p.isNegated = false) :
    L.Drafts (e.boolean p) fun l L' => L'.Says l p := by
  have hn := hp.node
  have hlater {L' : Draft} {shape : Term.Shape} (h : L.Grows L')
    (hshape : L.store.shape p = shape) :
      L'.store.node? p = some (shape, .bool) := h.later.ext.node (hshape ▸ hn)
  refine .look_bind ?_
  cases hshape : L.store.shape p with
  | truth =>
    refine (drafts_trueLit hL (m := fun _ => true) fun _ => rfl).mono fun l L' h hl => ?_
    refine hl.says_term (h.later.ext.has hp) fun {v A} _ _ => ?_
    rw [A.value_of_node h.ok.work.store (hlater h hshape) hneg]
    rfl
  | uninterpreted => exact drafts_bareAtom hL hp hneg fun A => by simp [Atoms.atom?, hshape]
  | app =>
    refine .bind (drafts_bareAtom hL hp hneg fun A => by simp [Atoms.atom?, hshape])
      fun l L₁ h₁ hl => ?_
    have hadd : Steps False L₁.store (onEgraph fun s => Egraph.addPred s l.var p) :=
      steps_addPred l.var nofun
    exact .bind (drafts_onEgraph h₁.ok hadd) fun _ L₂ h₂ _ => .pure h₂.ok (hl.later h₁.ok h₂)
  | eq a b => exact drafts_equality he hL hp hneg hshape
  | or args => exact drafts_or he hL hp hneg hshape
  | xor a b => exact drafts_xor he hL hp hneg hshape
  | ite c a b => exact drafts_ite he hL hp hneg hshape
  | bit t i => exact drafts_bit he hL hp hneg hshape
  | bvGe a b =>
    obtain ⟨-, w, ha, hb⟩ : L.store.Typed (.bvGe a b) .bool := hshape ▸ hL.work.store.typed hn
    refine drafts_comparison he hL hp ha hb geGate (fun m n => decide (n ≤ m))
      (fun hL hx hy hlx hly => drafts_geGate hL (hx.trans hy.symm) hlx hly) fun {L' A} h => ?_
    rw [A.value_of_node h.ok.work.store (hlater h hshape) hneg, Bool.eq_iff_iff, decide_eq_true_iff]
    exact Val.toBool_ofProp
  | bvSge a b =>
    obtain ⟨-, w, ha, hb⟩ : L.store.Typed (.bvSge a b) .bool := hshape ▸ hL.work.store.typed hn
    obtain ⟨hpos, hle⟩ : 0 < w ∧ w ≤ Store.maxWidth := ha.elim fun _ h => hL.work.store.ty_ok h.2
    refine drafts_comparison he hL hp ha hb (fun x y => geGate (flipSign x) (flipSign y))
      (fun m n => decide (Bits.flipped w n ≤ Bits.flipped w m)) (fun {L x y} hL hx hy hlx hly => ?_)
        fun {L' A} h => ?_
    · refine (drafts_geGate hL (by rw [length_flipSign, length_flipSign, hx, hy])
        (over_flipSign hlx)
        (over_flipSign hly)).mono fun l L' _ hl => hl.congr fun {v} _ => ?_
      rw [number_flipSign v (List.ne_nil_of_length_pos (hy ▸ hpos)), hy,
        number_flipSign v (List.ne_nil_of_length_pos (hx ▸ hpos)), hx]
    · have ha' := h.later.ext.hasWidth ha
      have hwidth : L'.store.partWidth (.bvSge a b) = w := ha'.width_eq
      rw [A.value_of_node h.ok.work.store (hlater h hshape) hneg, Bool.eq_iff_iff,
        decide_eq_true_iff,
        ← Bits.signed_le_iff hpos hle (A.value_word h.ok.work.store (h.later.ext.hasWidth hb)).2
          (A.value_word h.ok.work.store ha').2, ← hwidth]
      exact Val.toBool_ofProp
  | var | all | bvConst | bvNeg | bvSum | bvProduct => exact .throw hL _

end Draft
end Entail
