import Entail.Proofs.Store.Granted
import Entail.Proofs.Store.Supported
import Entail.Proofs.Store.Types

/-!
# What a substitution carries over

When closed supported terms are put for constants, or terms of their types for variables, what is
supported stays supported, formulas that may be asserted stay so, and where shallow terms are put
for constants, formulas stay shallow. Such a substitution is refused for one cause only: the
degree of a product.
-/

namespace Entail.Store

variable {s s' base : Store} {σ : Subst} {α β : Type} {t r p : Term} {ty : Ty} {vars : List Term}

/-- How terms are carried over. -/
structure Passage where
  /-- Variables that may occur before and after. -/
  vars : List Term → List Term → Prop
  /-- Whether whole formulas are carried over, with the quantifiers at their top. -/
  whole : Prop
  /-- Whether conjunctions are taken apart. -/
  flatten : Bool
  /-- Where constants may stand. -/
  weight : Term → Nat → Prop

/-- The term is one that is carried over. -/
inductive Passes (s : Store) (P : Passage) (t : Term) : Prop where
  | body {vs ws : List Term} (hvars : P.vars vs ws) (h : s.Supported vs t)
  | whole (flip : Bool) (hwhole : P.whole) (h : s.Assertable P.flatten (t.negIf flip))

/-- What `t` was in `base` `r` is in `s`. -/
structure Carried (base : Store) (P : Passage) (s : Store) (t r : Term) : Prop where
  supported : ∀ {vs ws}, P.vars vs ws → base.Supported vs t → s.Supported ws r
  assertable : P.whole → ∀ flip, base.Assertable P.flatten (t.negIf flip) →
    s.Assertable P.flatten (r.negIf flip)
  shallow : ∀ {d}, base.Shallow P.weight d t → s.Shallow P.weight d r

/-- What is put for a term carries it over, and so does the term itself, when nothing is
put for it. -/
structure Carries (base : Store) (P : Passage) (s : Store) (σ : Subst) : Prop where
  assigns : s.Assigns σ
  carried : ∀ {x v}, σ[x]? = some v → base.Passes P x → base.Carried P s x v
  free : ∀ {vs ws v}, P.vars vs ws → v ∈ vs → σ[v]? = none → v ∈ ws
  grows : ∀ {x d}, P.weight x d → P.weight x (d + 1)
  closed : P.whole → ∀ vs, P.vars vs vs
  constants : P.whole → ∀ {x v}, σ[x]? = some v → (base.shape x).isVariable = false

theorem Carried.later {P : Passage} (h : base.Carried P s t r) (hs : s.Extends s') :
    base.Carried P s' t r where
  supported hvars ht := (h.supported hvars ht).later hs
  assertable hwhole flip ht := (h.assertable hwhole flip ht).later hs
  shallow ht := (h.shallow ht).later hs

theorem Carries.later {P : Passage} (h : base.Carries P s σ) (hs : s.Extends s') :
    base.Carries P s' σ :=
  { h with
    assigns := h.assigns.extends_ hs
    carried := fun hx ht => (h.carried hx ht).later hs }

/-- Nothing is carried over. -/
def Passage.none : Passage := ⟨fun _ _ => False, False, false, fun _ _ => False⟩

theorem not_passes_none : ¬ s.Passes .none t := fun h => by
  cases h with
  | body hvars => exact hvars
  | whole _ hwhole => exact hwhole

theorem carries_none (h : s.Assigns σ) : base.Carries .none s σ where
  assigns := h
  carried _ ht := absurd ht not_passes_none
  free h := h.elim
  grows := id
  closed h := h.elim
  constants h := h.elim

namespace Passes

variable {P : Passage} {shape : Term.Shape} {args : List Term} {c : Term}

/-- Polarity does not matter. -/
theorem congr {u : Term} (h : s.Passes P t) (hu : u = t ∨ u = t.neg) : s.Passes P u := by
  rcases hu with rfl | rfl
  · exact h
  · cases h with
    | body hvars h => exact .body hvars h.neg
    | whole flip hwhole h =>
      refine .whole (!flip) hwhole ?_
      cases flip with
      | false =>
        show s.Assertable _ t.neg.neg
        rwa [Term.neg_neg]
      | true => exact h

/-- What is no disjunction and no quantifier is carried over as a supported term. -/
theorem supported (h : s.Passes P t) (hclosed : P.whole → ∀ vs, P.vars vs vs)
    (hn : s.node? t = some (shape, ty))
    (hall : shape.isQuantifier = false) (hor : ∀ args, shape ≠ .or args) :
    ∃ vs ws, P.vars vs ws ∧ s.Supported vs t := by
  cases h with
  | body hvars h => exact ⟨_, _, hvars, h⟩
  | whole flip hwhole h =>
    exact ⟨[], [], hclosed hwhole [],
      (h.supported ((node?_congr (index_negIf t flip)).trans hn) hall hor).of_negIf⟩

end Passes

/-! ## Operations that remember -/

/-- What is remembered is of the right types, and carries over what passes. -/
structure Recalls (base : Store) (P : Passage) (s : Store) (memo : Subst) : Prop where
  assigns : s.Assigns memo
  carried : ∀ {x v}, memo[x]? = some v → base.Passes P x → base.Carried P s x v

theorem recalls_empty (base : Store) (P : Passage) (s : Store) : base.Recalls P s ∅ :=
  ⟨assigns_empty s, fun h => by simp at h⟩

/-- With a memory that is right, the operation fares as `Q` says, and the memory stays so. -/
def Minds (base : Store) (P : Passage) (s : Store) (op : SubstOp α) (Q : α → Store → Prop) : Prop :=
  ∀ memo, base.Recalls P s memo → Fares TermError.TooLarge Later s (op memo) fun x s' =>
    Q x.1 s' ∧ base.Recalls P s' x.2

theorem Recalls.later {P : Passage} {memo : Subst} (h : base.Recalls P s memo) (hs : s.Extends s') :
    base.Recalls P s' memo := ⟨h.assigns.extends_ hs, fun hx ht => (h.carried hx ht).later hs⟩

namespace Minds

variable {P : Passage} {op : SubstOp α} {f : α → SubstOp β} {Q Q' : α → Store → Prop}
  {R : β → Store → Prop}

theorem pure (hw : s.Wf) {a : α} (ha : Q a s) : Minds base P s (pure a) Q := fun _ hm =>
  Fares.pure later_frame hw ⟨ha, hm⟩

theorem bind (hw : s.Wf) (h : Minds base P s op Q)
    (hf : ∀ a s', Later s s' → Q a s' → Minds base P s' (f a) R) :
    Minds base P s (op >>= f) R :=
  fun memo hm => Fares.bind later_frame hw (h memo hm) fun x s' _ hs hx =>
    hf x.1 s' hs hx.1 x.2 hx.2

theorem mono (h : Minds base P s op Q) (hQ : ∀ a s', Q a s' → Q' a s') : Minds base P s op Q' :=
  fun memo hm =>
  (h memo hm).imp fun _ _ _ hx => ⟨hQ _ _ hx.1, hx.2⟩

theorem lift (hw : s.Wf) {op : Op α} (h : Fares TermError.TooLarge Later s op Q) :
    Minds base P s (liftM op) Q :=
  fun memo hm => Fares.bind later_frame hw h fun a _ hw' hs ha =>
    Fares.pure (a := (a, memo)) later_frame hw' ⟨ha, hm.later hs.ext⟩

theorem run' (hw : s.Wf) {op : SubstOp α} (h : Minds base P s op Q) :
    Fares TermError.TooLarge Later s (op.run' ∅) Q :=
  Fares.map later_frame hw (h ∅ (recalls_empty base P s)) fun _ _ _ _ hx => hx.1

theorem look_bind {g : Store → α} (h : Minds base P s (f (g s)) R) :
    Minds base P s ((liftM (Store.look g) : SubstOp α) >>= f) R :=
  fun memo hm => ⟨(h memo hm).leads, (h memo hm).cause⟩

theorem get_bind {g : Subst → SubstOp β}
    (h : ∀ memo, base.Recalls P s memo → Minds base P s (g memo) R) :
    Minds base P s (get >>= g) R :=
  fun memo hm => ⟨(h memo hm memo hm).leads, (h memo hm memo hm).cause⟩

theorem modify_bind {g : Subst → Subst} {f : PUnit → SubstOp β}
    (hg : ∀ memo, base.Recalls P s memo → base.Recalls P s (g memo)) (h : Minds base P s (f ⟨⟩) R) :
    Minds base P s (modify g >>= f) R :=
  fun memo hm => ⟨(h (g memo) (hg memo hm)).leads, (h (g memo) (hg memo hm)).cause⟩

theorem mapM {sub : α → SubstOp β} {Q : α → β → Store → Prop} (hw : s.Wf) {as : List α}
    (hQ : ∀ {a b s₁ s₂}, Later s₁ s₂ → Q a b s₁ → Q a b s₂)
    (hsub : ∀ a ∈ as, ∀ s₁, Later s s₁ → Minds base P s₁ (sub a) (Q a)) :
    Minds base P s (as.mapM sub) fun bs s' => List.Forall₂ (Q · · s') as bs := by
  induction as generalizing s with
  | nil => exact .pure hw .nil
  | cons a as ih =>
    rw [List.mapM_cons]
    refine .bind hw (hsub a List.mem_cons_self s (later_frame.refl hw)) fun b s₁ hs₁ hb => ?_
    refine .bind hs₁.wf (ih hs₁.wf fun c hc s₂ hs₂ => hsub c (List.mem_cons_of_mem _ hc) s₂
      (later_frame.trans hs₁ hs₂))
      fun bs s₂ hs₂ hbs => ?_
    exact .pure hs₂.wf (.cons (hQ hs₂ hb) hbs)

end Minds

/-! ## Rebuilding -/

/-- What is put together from supported words is supported. -/
theorem Made.combined {args : List Term}
    (hmade : s'.Made (fun t => s.Material args t ∨ s'.IsValue t)
      (fun shape => IsWord shape ∧ Over (fun t => s.Material args t ∨ s'.IsValue t) shape) r)
    (hw : s'.Wf)
    (hs : s.Extends s') (hargs : ∀ a ∈ args, s.Supported vars a) : s'.Supported vars r := by
  have hgiven : ∀ u, s.Material args u ∨ s'.IsValue u → s'.Supported vars u := fun u hu =>
    hu.elim (fun hu => (Supported.of_material hu hargs).later hs) .of_isValue
  exact hmade.supported hw hgiven fun u shape ty hu h =>
    .plain hu h.1.isPlain (Supported.of_over h.2 hgiven)

/-- `r` has the type of `t`, and carries `t` over if it passes. -/
structure Turned (base : Store) (P : Passage) (s : Store) (ty : Ty) (t r : Term) : Prop where
  has : s.Has r ty
  carried : base.Passes P t → base.Carried P s t r

theorem Turned.later {P : Passage} (h : base.Turned P s ty t r) (hs : s.Extends s') :
    base.Turned P s' ty t r :=
  ⟨hs.has h.has, fun ht => (h.carried ht).later hs⟩

/-- Whatever extends `base`, `sub` turns the small terms of `base` into terms that carry them
over. -/
def Turning (base : Store) (small : Term → Prop) (sub : Subst → Term → SubstOp Term) : Prop :=
  ∀ {P s σ t ty}, Later base s → base.Carries P s σ → base.Has t ty → small t →
    Minds base P s (sub σ t) fun r s' => base.Turned P s' ty t r

section

variable {P : Passage} {shape : Term.Shape} {args kids : List Term}

/-- A term that is no disjunction and no quantifier is carried over by what is supported and shallow
whenever it is. -/
theorem Carried.of_supported (hσ : base.Carries P s σ) (hn : base.node? p = some (shape, ty))
    (hall : shape.isQuantifier = false) (hor : ∀ args, shape ≠ .or args) (hp : base.Passes P p)
    (hsupported : ∀ {vs ws}, P.vars vs ws → base.Supported vs p → s'.Supported ws r)
    (hshallow : ∀ {vs ws d}, P.vars vs ws → base.Supported vs p → base.Shallow P.weight d p →
      s'.Shallow P.weight d r) :
    base.Carried P s' p r where
  supported := hsupported
  assertable hwhole flip h := by
    have hclosed := hσ.closed hwhole []
    have hp := h.supported ((node?_congr (index_negIf p flip)).trans hn) hall hor
    exact .body (Supported.negIf (hsupported hclosed hp.of_negIf) flip)
  shallow hd := by
    obtain ⟨vs, ws, hvars, h⟩ := hp.supported hσ.closed hn hall hor
    exact hshallow hvars h hd

/-- A term that is no formula is carried over by any supported one of its type. -/
theorem Carried.of_type (hσ : base.Carries P s σ) (hn : base.node? p = some (shape, ty))
    (hty : ty ≠ .bool)
    (hall : shape.isQuantifier = false) (hor : ∀ args, shape ≠ .or args) (hp : base.Passes P p)
    (hr : s'.Has r ty)
    (hsupported : ∀ {vs ws}, P.vars vs ws → base.Supported vs p → s'.Supported ws r) :
    base.Carried P s' p r :=
  .of_supported hσ hn hall hor hp hsupported fun _ _ _ => .other hr.node hty

/-- What is made of the new parts of a connective by connectives. -/
theorem Connects.carried (hσ : base.Carries P s σ) (hn : base.node? p = some (shape, ty))
    (hw : s'.Wf)
    (hconn : shape.isConnective = true) (hor : ∀ args, shape ≠ .or args) (hp : base.Passes P p)
    (hr : s'.Has r ty)
    {D : Term → Prop} (hmade : s'.Made D (fun shape => shape.isConnective = true ∧ Over D shape) r)
    (hD : ∀ u, D u → ∃ c ∈ shape.children, ∃ k, u.index = k.index ∧
      (base.Passes P c → base.Carried P s' c k)) :
    base.Carried P s' p r := by
  have happ : ∀ f args, shape ≠ .app f args := fun f args heq => by rw [heq] at hconn; cases hconn
  have hall : shape.isQuantifier = false := by cases shape <;> first | rfl | cases hconn
  have hsupported {vs ws : List Term} (hvars : P.vars vs ws) (h : base.Supported vs p) :
      s'.Supported ws r := by
    have hgiven : ∀ u, D u → s'.Supported ws u := fun u hu => by
      obtain ⟨c, hc, k, hi, hk⟩ := hD u hu
      have hpart := h.part hn happ hc
      exact ((hk (.body hvars hpart)).supported hvars hpart).congr hi
    exact hmade.supported hw hgiven fun u shape' ty' hu h =>
      .plain hu (Term.Shape.isPlain_of_isConnective h.1) (Supported.of_over h.2 hgiven)
  refine .of_supported hσ hn hall hor hp hsupported fun {vs ws d} hvars h hd => ?_
  by_cases hbool : ty = .bool
  · subst hbool
    obtain ⟨k, rfl, hparts⟩ := hd.part hn (.inl hconn)
    refine hmade.shallow hw (fun _ _ => hσ.grows) fun u hu => ?_
    obtain ⟨c, hc, v, hi, hv⟩ := hD u hu
    exact ((hv (.body hvars (h.part hn happ hc))).shallow (hparts c hc)).congr hi
  · exact .other hr.node hbool

/-- What is made of the new parts of a word by words. -/
theorem Combines.carried (hσ : base.Carries P s σ) (hn : base.node? p = some (shape, ty))
    (hw : s'.Wf)
    (hword : IsWord shape) {w : Nat} (hty : base.tyShape? ty = some (.bitVector w)) (hb : base.Wf)
    (hp : base.Passes P p) (hr : s'.Has r ty)
    (hmade : s'.Made (fun t => s.Material kids t ∨ s'.IsValue t)
      (fun shape => IsWord shape ∧ Over (fun t => s.Material kids t ∨ s'.IsValue t) shape) r)
    (hs : s.Extends s')
    (hkids : ∀ k ∈ kids, ∃ c ∈ shape.children, base.Passes P c → base.Carried P s c k) :
    base.Carried P s' p r := by
  have hbool : ty ≠ .bool := by
    rintro rfl
    cases hb.bool_ty.symm.trans hty
  have happ : ∀ f args, shape ≠ .app f args := fun f args heq => by rw [heq] at hword; cases hword
  refine .of_type hσ hn hbool ?_ (fun args heq => ?_) hp hr fun {vs ws} hvars h => ?_
  · cases shape <;> first | rfl | cases hword
  · rw [heq] at hword
    cases hword
  · refine hmade.combined hw hs fun k hk => ?_
    obtain ⟨c, hc, hck⟩ := hkids k hk
    have hpart := h.part hn happ hc
    exact (hck (.body hvars hpart)).supported hvars hpart

/-- What is a truth value or a node of an atomic shape. -/
theorem Carried.of_atom (hσ : base.Carries P s σ) (hn : base.node? p = some (shape, ty))
    (hw : s'.Wf)
    (hall : shape.isQuantifier = false) (hor : ∀ args, shape ≠ .or args) (hp : base.Passes P p)
    {allowed : Term.Shape → Prop} (hmade : s'.Made (fun _ => False) allowed r)
    (hallowed : ∀ shape, allowed shape →
      shape.isConnective = false ∧ shape.isQuantifier = false ∧ shape.isSymbol = false)
    (hnode : ∀ {vs ws u shape' ty'}, P.vars vs ws → base.Supported vs p →
      s'.node? u = some (shape', ty') →
      allowed shape' → s'.Supported ws u) : base.Carried P s' p r :=
  .of_supported hσ hn hall hor hp
    (fun hvars h => hmade.supported hw (fun _ => False.elim) fun _ _ _ hu hshape =>
      hnode hvars h hu hshape)
    fun _ _ _ => hmade.shallow_atom hw (fun _ => id) hallowed

/-- A node of a plain atomic shape over the new parts of a term. -/
theorem Carried.of_node (hσ : base.Carries P s σ) (hn : base.node? p = some (shape, ty))
    (hw : s'.Wf) (hall : shape.isQuantifier = false) (hor : ∀ args, shape ≠ .or args)
    (happ : ∀ f args, shape ≠ .app f args)
    (hp : base.Passes P p) {shape' : Term.Shape} (hmade : s'.Made (fun _ => False) (· = shape') r)
    (hatom : shape'.isConnective = false ∧ shape'.isQuantifier = false ∧ shape'.isSymbol = false)
    (hplain : shape'.isPlain = true) (hs : s.Extends s')
    (hkids : ∀ k ∈ shape'.children, ∃ c ∈ shape.children, base.Passes P c → base.Carried P s c k) :
    base.Carried P s' p r := by
  refine .of_atom hσ hn hw hall hor hp hmade (fun _ h => h ▸ hatom)
    fun {vs ws u _ ty'} hvars h hu heq => ?_
  subst heq
  refine .plain hu hplain fun k hk => ?_
  obtain ⟨c, hc, hck⟩ := hkids k hk
  have hpart := h.part hn happ hc
  exact ((hck (.body hvars hpart)).supported hvars hpart).later hs

/-- A disjunction of the new arguments of a disjunction. -/
theorem Carried.of_or (hσ : base.Carries P s σ) (hn : base.node? p = some (.or args, .bool))
    (hpos : p.isNegated = false) (hw : s'.Wf) (hp : base.Passes P p) (hs : s.Extends s')
    (hr : r = .top ∨ r = .bot ∨ r ∈ kids ∨ r.isNegated = false ∧ ∃ ts ty,
      s'.node? r = some (.or ts, ty) ∧ ts ⊆ kids)
    (hkids : ∀ k ∈ kids, ∃ c ∈ args, base.Passes P c → base.Carried P s c k) :
    base.Carried P s' p r where
  supported {vs ws} hvars h := by
    have hkid : ∀ k ∈ kids, s'.Supported ws k := fun k hk => by
      obtain ⟨c, hc, hck⟩ := hkids k hk
      have hpart := h.part hn nofun hc
      exact ((hck (.body hvars hpart)).supported hvars hpart).later hs
    rcases hr with rfl | rfl | hr | ⟨-, ts, ty, hnode, hts⟩
    · exact .top hw
    · exact .bot hw
    · exact hkid r hr
    · exact .plain hnode rfl fun k hk => hkid k (hts hk)
  assertable hwhole flip h := by
    have hkid : ∀ k ∈ kids, ∃ c ∈ args, base.Assertable P.flatten c.neg →
        s'.Assertable P.flatten k.neg := fun k hk => by
      obtain ⟨c, hc, hck⟩ := hkids k hk
      exact ⟨c, hc, fun h => ((hck (.whole true hwhole h)).assertable hwhole true h).later hs⟩
    have hconst {t : Term} (ht : t = .top ∨ t = .bot) : s'.Assertable P.flatten (t.negIf flip) := by
      refine .body (Supported.negIf ?_ flip)
      rcases ht with rfl | rfl
      · exact .top hw
      · exact .bot hw
    cases h with
    | body h =>
      have hclosed := hσ.closed hwhole []
      have h := h.of_negIf
      have hsupported : ∀ k ∈ kids, s'.Supported [] k := fun k hk => by
        obtain ⟨c, hc, hck⟩ := hkids k hk
        have hpart := h.part hn nofun hc
        exact ((hck (.body hclosed hpart)).supported hclosed hpart).later hs
      rcases hr with hr | hr | hr | ⟨-, ts, ty, hnode, hts⟩
      · exact hconst (.inl hr)
      · exact hconst (.inr hr)
      · exact .body ((hsupported r hr).negIf flip)
      · exact .body (Supported.negIf (.plain hnode rfl fun k hk => hsupported k (hts hk)) flip)
    | all hn' => cases ((node?_congr (index_negIf p flip)).trans hn).symm.trans hn'
    | conj hflatten hneg hn' hargs =>
      cases ((node?_congr (index_negIf p flip)).trans hn).symm.trans hn'
      -- only the negation of a disjunction is taken apart
      cases flip with
      | false => exact absurd (hpos.symm.trans hneg) Bool.false_ne_true
      | true =>
        rcases hr with hr | hr | hr | ⟨hrpos, ts, ty, hnode, hts⟩
        · exact hconst (.inl hr)
        · exact hconst (.inr hr)
        · obtain ⟨c, hc, hck⟩ := hkid r hr
          exact hck (hargs c hc)
        · refine .conj hflatten ?_ ((node?_congr (Term.index_neg r)).trans hnode) fun k hk => ?_
          · show r.neg.isNegated = true
            rw [Term.isNegated_neg, hrpos]
            rfl
          · obtain ⟨c, hc, hck⟩ := hkid k (hts hk)
            exact hck (hargs c hc)
  shallow {d} h := by
    obtain ⟨k, rfl, hparts⟩ := h.part hn (.inl rfl)
    have hkid : ∀ u ∈ kids, s'.Shallow P.weight k u := fun u hu => by
      obtain ⟨c, hc, hcu⟩ := hkids u hu
      have hpasses : base.Passes P c := by
        cases hp with
        | body hvars h => exact .body hvars (h.part hn nofun hc)
        | whole flip hwhole h =>
          exact .whole true hwhole (h.conjunct ((node?_congr (index_negIf p flip)).trans hn) hc)
      exact ((hcu hpasses).shallow (hparts c hc)).later hs
    rcases hr with rfl | rfl | hr | ⟨-, ts, ty, hnode, hts⟩
    · exact .top hw
    · exact (Shallow.top hw).neg
    · exact (hkid r hr).mono fun _ _ => hσ.grows
    · exact .node hnode (.inl rfl) fun u hu => hkid u (hts hu)

/-- A quantifier over the same variables with the new body. -/
theorem Carried.of_all (hσ : base.Carries P s σ) {body k : Term}
    (hn : base.node? p = some (.all vars body, .bool))
    (hw : s'.Wf) (hp : base.Passes P p) (hs : base.Extends s')
    (hmade : s'.Made (fun _ => False) (· = .all vars k) r)
    (hk : base.Passes P body → base.Carried P s' body k) :
    base.Carried P s' p r := by
  -- a quantifier is carried over as a whole formula
  have hbody : P.whole ∧ (∀ v ∈ vars, base.IsSort v) ∧ base.Supported vars body := by
    cases hp with
    | body _ h => exact (h.not_quantifier hn).elim
    | whole flip hwhole h =>
      exact ⟨hwhole, h.quantifier ((node?_congr (index_negIf p flip)).trans hn)⟩
  obtain ⟨hwhole, hvars, hbody⟩ := hbody
  have hk := hk (.body (hσ.closed hwhole vars) hbody)
  refine ⟨fun _ h => (h.not_quantifier hn).elim, fun _ flip _ => ?_, fun {d} h => ?_⟩
  · have hboth : ∀ flip, s'.Assertable P.flatten (r.negIf flip) := by
      induction hmade with
      | top => exact fun flip => .body (Supported.negIf (.top hw) flip)
      | given h => exact h.elim
      | @node t _ _ hnode h =>
        subst h
        exact fun flip => .all ((node?_congr (index_negIf t flip)).trans hnode)
          (fun v hv => (hvars v hv).later hs)
          (hk.supported (hσ.closed hwhole vars) hbody)
      | @neg t _ ih =>
        intro flip
        cases flip with
        | false => exact ih true
        | true =>
          show s'.Assertable P.flatten t.neg.neg
          rw [Term.neg_neg]
          exact ih false
    exact hboth flip
  · obtain ⟨i, rfl, hparts⟩ := h.part hn (.inr rfl)
    induction hmade with
    | top => exact .top hw
    | given h => exact h.elim
    | node hnode h =>
      subst h
      refine .node hnode (.inr rfl) fun c hc => ?_
      rcases List.mem_append.mp hc with hc | hc
      · exact (hparts c (List.mem_append_left _ hc)).later hs
      · rw [List.mem_singleton.mp hc]
        exact hk.shallow (hparts body (by simp [Term.Shape.children]))
    | neg _ ih => exact ih.neg

end

/-! ## Constructors -/

section

variable {a b x : Term} {args : List Term} {w : Nat}

/-- What a constructor answers has the type that it builds, is made as its walk says, and it is
not refused. -/
theorem fares_of {E : TermError → Prop} {op : Op Term} {Q M : Term → Store → Prop}
    (hb : Builds s op Q) (hm : Leads Retains s op M) (hg : Granted op s) :
    Fares E Later s op fun r s' => Q r s' ∧ M r s' :=
  .of_granted (Leads.and hb (Leads.of_moves (Leads.moves hb) (Ends.mono hm (fun _ _ h => h.2)
    fun _ _ => trivial))) hg

theorem Wf.shapes (hw : s.Wf) : s.HasConstants (fun _ => False) :=
  hw.hasConstants fun _ => False.elim

/-- An equality between terms that are no formulas. -/
theorem fares_eq {E : TermError → Prop} (hw : s.Wf) (ha : s.Has a ty) (hb : s.Has b ty)
    (hty : ty ≠ .bool) :
    Fares E Later s (eq a b) fun r s' => s'.Has r .bool ∧
      s'.Made (fun _ => False) (fun shape => shape = .eq a b ∨ shape = .eq b a) r := by
  have hbool : ¬ s.ty a = .bool := ha.ty_eq ▸ hty
  exact (fares_of (eq_builds hw a b) (eq_makes hw.shapes a b) (granted_eq ha hb)).imp
      fun r s' _ ⟨hr, hmade⟩ =>
    ⟨hr.2.has, hmade.mono (fun _ h => hbool h.1) fun _ h => h.resolve_left fun h => hbool h.1⟩

theorem fares_bvNeg {E : TermError → Prop} (hw : s.Wf) (ha : s.Has a ty)
    (hty : s.tyShape? ty = some (.bitVector w)) :
    Fares E Later s (bvNeg a) fun r s' =>
      s'.Has r ty ∧ s'.Made (fun t => s.Material [a] t ∨ s'.IsValue t)
      (fun shape => IsWord shape ∧ Over (fun t => s.Material [a] t ∨ s'.IsValue t) shape) r := by
  refine (fares_of (bvNeg_builds hw a) (bvNeg_combines hw.shapes a)
    (granted_bvNeg hw ⟨ty, ha, hty⟩)).imp
    fun r s' _ ⟨hr, hmade⟩ => ⟨?_, hmade⟩
  obtain ⟨ty', _, -, hx, hden⟩ := hr
  exact hx.unique ha ▸ hden.has

theorem has_of_first {ty' : Ty} (hne : args ≠ []) (hargs : ∀ a ∈ args, s.Has a ty)
    (hall : ∀ a ∈ args, s.Has a ty') {r : Term} (hr : s'.Has r ty') : s'.Has r ty := by
  obtain ⟨first, hfirst⟩ := List.exists_mem_of_ne_nil args hne
  exact (hall first hfirst).unique (hargs first hfirst) ▸ hr

theorem fares_bvSum {E : TermError → Prop} (hw : s.Wf) (hne : args ≠ [])
    (hargs : ∀ a ∈ args, s.Has a ty) (hty : s.tyShape? ty = some (.bitVector w)) :
    Fares E Later s (bvSum args) fun r s' =>
      s'.Has r ty ∧ s'.Made (fun t => s.Material args t ∨ s'.IsValue t)
      (fun shape => IsWord shape ∧ Over (fun t => s.Material args t ∨ s'.IsValue t) shape) r := by
  refine (fares_of (bvSum_builds hw args) (bvSum_combines hw.shapes args)
    (granted_bvSum hw hne fun a ha => ⟨ty, hargs a ha, hty⟩)).imp fun r s' _ ⟨hr, hmade⟩ =>
      ⟨?_, hmade⟩
  obtain ⟨ty', _, -, hall, hden⟩ := hr
  exact has_of_first hne hargs hall hden.has

/-- A difference between supported words is supported. -/
theorem fares_bvSub {E : TermError → Prop} (hw : s.Wf) (ha : s.Has a ty) (hb : s.Has b ty)
    (hty : s.tyShape? ty = some (.bitVector w)) (hsa : s.Supported vars a)
    (hsb : s.Supported vars b) :
    Fares E Later s (bvSub a b) fun r s' => s'.Has r ty ∧ s'.Supported vars r := by
  have hwidth : s.checkSameWidth a b = .ok w := HasWidth.checkSameWidth ⟨ty, ha, hty⟩ ⟨ty, hb, hty⟩
  have hcheck : Fares E Later s (Store.read (·.checkSameWidth a b)) fun _ _ => True :=
    .of_granted (Builds.read hw fun _ _ => trivial) ⟨w, s, by simp [Store.read, hwidth]⟩
  refine Fares.bind later_frame hw hcheck fun _ s₁ hw₁ h₁ _ => ?_
  refine Fares.bind later_frame hw₁ (fares_bvNeg hw₁ (h₁.ext.has hb) (h₁.ext.ty hty))
    fun nb s₂ hw₂ h₂ hneg => ?_
  obtain ⟨hnb, hmade⟩ := hneg
  have hsnb : s₂.Supported vars nb :=
    hmade.combined hw₂ h₂.ext (List.forall_mem_singleton.mpr (hsb.later h₁.ext))
  have h := later_frame.trans h₁ h₂
  exact (fares_bvSum hw₂ (List.cons_ne_nil _ _) (forall_has_pair (h.ext.has ha) hnb)
    (h.ext.ty hty)).imp
    fun r s' hs hr => ⟨hr.1, hr.2.combined hs.wf hs.ext (forall_mem_pair (hsa.later h.ext) hsnb)⟩

theorem fares_bvProduct (hw : s.Wf) (hne : args ≠ []) (hargs : ∀ a ∈ args, s.Has a ty)
    (hty : s.tyShape? ty = some (.bitVector w)) :
    Fares TermError.TooLarge Later s (bvProduct args) fun r s' =>
      s'.Has r ty ∧ s'.Made (fun t => s.Material args t ∨ s'.IsValue t)
        (fun shape => IsWord shape ∧ Over (fun t => s.Material args t ∨ s'.IsValue t) shape) r := by
  have hleads := Leads.and (bvProduct_builds hw args) (Leads.of_moves (bvProduct_moves args s hw)
    (Ends.mono (bvProduct_combines hw.shapes args) (fun _ _ h => h.2) fun _ _ => trivial))
  refine ⟨hleads.mono fun r s' _ ⟨hr, hmade⟩ => ⟨?_, hmade⟩,
    tooLarge_of_bvProduct hw hne fun a ha => ⟨ty, hargs a ha, hty⟩⟩
  obtain ⟨ty', _, -, hall, hden⟩ := hr
  exact has_of_first hne hargs hall hden.has

theorem fares_app {E : TermError → Prop} (hw : s.Wf) {f : Term} (h : s.Typed (.app f args) ty) :
    Fares E Later s (app f args) fun r s' => s'.Has r ty ∧
      s'.Made (fun _ => False) (fun shape => shape = .app f args) r := by
  refine (fares_of (app_builds hw f args) (app_makes hw.shapes f args) (granted_app hw h)).imp
    fun r s' hs ⟨hr, hmade⟩ => ⟨?_, hmade⟩
  obtain ⟨ty', hn, hneg⟩ := hr
  exact hs.wf.typed_unique (hs.wf.typed hn) (hs.ext.typed h) ▸ ⟨⟨_, hn⟩, by simp [hneg]⟩

end

/-! ## Nodes -/

section

variable {P : Passage} {sub : Term → SubstOp Term} {shape : Term.Shape} {a b c : Term}
  {args : List Term}

/-- New arguments correspond to the old ones. -/
theorem exists_of_turned {ts rs : List Term}
    (h : List.Forall₂ (fun t r => ∃ ty, base.Has t ty ∧ base.Turned P s ty t r) ts rs) {r : Term}
    (hr : r ∈ rs) :
    ∃ t ∈ ts, ∃ ty, base.Has t ty ∧ base.Turned P s ty t r := by
  induction h with
  | nil => cases hr
  | cons htr _ ih =>
    rcases List.mem_cons.mp hr with rfl | hr
    · exact ⟨_, List.mem_cons_self, htr⟩
    · obtain ⟨t, ht, h⟩ := ih hr
      exact ⟨t, List.mem_cons_of_mem _ ht, h⟩

/-- New arguments have the types of the old ones. -/
theorem has_of_turned {ts rs : List Term} {tys : List Ty}
    (h : List.Forall₂ (fun t r => ∃ ty, base.Has t ty ∧ base.Turned P s ty t r) ts rs)
    (hts : List.Forall₂ base.Has ts tys) : List.Forall₂ s.Has rs tys := by
  induction h generalizing tys with
  | nil =>
    cases hts
    exact .nil
  | cons htr _ ih =>
    cases hts with
    | cons ht hts =>
      obtain ⟨ty, hty, hturned⟩ := htr
      exact .cons (ht.unique hty ▸ hturned.has) (ih hts)

/-- Whatever the store has become since `s`, the parts of a term of the given shape are turned. -/
def TurnsParts (base : Store) (P : Passage) (s : Store) (shape : Term.Shape)
    (sub : Term → SubstOp Term) : Prop :=
  ∀ ⦃s₁ : Store⦄, Later s s₁ → ∀ ⦃c : Term⦄, c ∈ shape.children → ∀ ⦃tc : Ty⦄, base.Has c tc →
    Minds base P s₁ (sub c) fun r s' => base.Turned P s' tc c r

/-- The parts are turned one after the other. -/
theorem mapM_turns (hb : base.Wf) (hn : base.node? p = some (shape, ty))
    (hparts : TurnsParts base P s shape sub)
    (h₁ : Later s s') {ts : List Term} (hts : ∀ t ∈ ts, t ∈ shape.children) :
    Minds base P s' (ts.mapM sub) fun rs s' =>
      List.Forall₂ (fun t r => ∃ ty, base.Has t ty ∧ base.Turned P s' ty t r) ts rs := by
  refine .mapM h₁.wf (Q := fun t r s' => ∃ ty, base.Has t ty ∧ base.Turned P s' ty t r)
    (fun hs' ⟨ty, ht, hr⟩ => ⟨ty, ht, hr.later hs'.ext⟩) fun t ht s₂ h₂ => ?_
  obtain ⟨tc, htc⟩ := (hb.typed hn).live (hts t ht)
  exact (hparts (later_frame.trans h₁ h₂) (hts t ht) htc).mono fun r s' hr => ⟨tc, htc, hr⟩

/-- What the two parts became. -/
theorem forall_pair_turned {a' b' : Term} {ta tb : Ty} (ha : base.Turned P s ta a a')
    (hb : base.Turned P s tb b b') :
    ∀ k ∈ [a', b'], ∃ c ∈ [a, b], base.Passes P c → base.Carried P s c k :=
  forall_mem_pair ⟨a, by simp, ha.carried⟩ ⟨b, by simp, hb.carried⟩

section

variable (hs : Later base s)

include hs

/-- Two parts are turned and put together. -/
theorem two_turns (hparts : TurnsParts base P s shape sub) (hshape : shape.children = [a, b])
    {ta tb : Ty} (ha : base.Has a ta) (hb : base.Has b tb) {f : Term → Term → Op Term}
    (hf : ∀ {s₁ : Store} {a' b' : Term}, Later s s₁ → base.Turned P s₁ ta a a' →
      base.Turned P s₁ tb b b' →
      Fares TermError.TooLarge Later s₁ (f a' b') fun r s' => base.Turned P s' ty p r) :
    Minds base P s (do let a ← sub a; let b ← sub b; liftM (f a b)) fun r s' =>
      base.Turned P s' ty p r := by
  refine .bind hs.wf (hparts (later_frame.refl hs.wf) (by simp [hshape]) ha) fun a' s₁ h₁ ha' => ?_
  refine .bind h₁.wf (hparts h₁ (by simp [hshape]) hb) fun b' s₂ h₂ hb' => ?_
  exact .lift h₂.wf (hf (later_frame.trans h₁ h₂) (ha'.later h₂.ext) hb')

variable (hσ : base.Carries P s σ)

include hσ

/-- An atom that is not replaced stays. -/
theorem atom_turns (hp : p.isNegated = false) (hn : base.node? p = some (shape, ty))
    (hnone : σ[p]? = none)
    (hshape : shape.children = []) (hor : ∀ args, shape ≠ .or args) : base.Turned P s ty p p := by
  have hall : shape.isQuantifier = false := by
    cases shape <;> first | rfl | simp [Term.Shape.children] at hshape
  refine ⟨hs.ext.has ⟨⟨_, hn⟩, by simp [hp]⟩, fun hpasses => ?_⟩
  refine .of_supported hσ hn hall hor hpasses (fun hvars h => ?_) fun _ _ h => h.later hs.ext
  cases h with
  | var hn' hv =>
    refine .var (hs.ext.node hn') ?_
    rw [Term.positive_of_not_isNegated hp] at hv ⊢
    exact hσ.free hvars hv hnone
  | app hn' | eq hn' =>
    cases hn.symm.trans hn'
    simp [Term.Shape.children] at hshape
  | plain hn' hplain =>
    refine .plain (hs.ext.node hn') hplain fun c hc => ?_
    cases hn.symm.trans hn'
    rw [hshape] at hc
    cases hc

theorem ite_turns (hb : base.Wf) (hn : base.node? p = some (.ite c a b, ty))
    (hparts : TurnsParts base P s (.ite c a b) sub) :
    Minds base P s (do let c ← sub c; let a ← sub a; let b ← sub b; liftM (ite c a b))
      fun r s' => base.Turned P s' ty p r := by
  obtain ⟨hc, ha, hb⟩ := hb.typed hn
  refine .bind hs.wf (hparts (later_frame.refl hs.wf) (by simp [Term.Shape.children]) hc)
    fun c' s₁ h₁ hc' => ?_
  refine .bind h₁.wf (hparts h₁ (by simp [Term.Shape.children]) ha) fun a' s₂ h₂ ha' => ?_
  refine .bind h₂.wf (hparts (later_frame.trans h₁ h₂) (by simp [Term.Shape.children]) hb)
    fun b' s₃ h₃ hb' => ?_
  have hc' := hc'.later (h₂.ext.trans h₃.ext)
  have ha' := ha'.later h₃.ext
  refine .lift h₃.wf ((fares_of (ite_builds h₃.wf c' a' b') (ite_connects h₃.wf.shapes c' a' b')
    (granted_ite hc'.has ha'.has hb'.has)).imp fun r s' h₄ hr => ?_)
  obtain ⟨⟨ty', haty, -, -, hden⟩, hmade⟩ := hr
  have hty : s'.Has r ty := haty.unique ha'.has ▸ hden.has
  refine ⟨hty, fun hpasses => Connects.carried hσ hn h₄.wf rfl (by simp) hpasses hty hmade
    fun u hu => ?_⟩
  have hindex : u.index = c'.index ∨ u.index = a'.index ∨ u.index = b'.index := by
    have hor {v : Term} (hv : v ∈ [c', a', b']) : v.index = c'.index ∨ v.index = a'.index ∨
        v.index = b'.index := by
      simp only [List.mem_cons, List.not_mem_nil, or_false] at hv
      exact hv.imp (congrArg _) (Or.imp (congrArg _) (congrArg _))
    rcases hu with hu | hu
    · exact hor hu
    · exact Term.index_neg u ▸ hor hu
  rcases hindex with hi | hi | hi
  · exact ⟨c, by simp [Term.Shape.children], c', hi, (hc'.later h₄.ext).carried⟩
  · exact ⟨a, by simp [Term.Shape.children], a', hi, (ha'.later h₄.ext).carried⟩
  · exact ⟨b, by simp [Term.Shape.children], b', hi, (hb'.later h₄.ext).carried⟩

theorem xor_turns (hb : base.Wf) (hn : base.node? p = some (.xor a b, ty))
    (hparts : TurnsParts base P s (.xor a b) sub) :
    Minds base P s (do let a ← sub a; let b ← sub b; liftM (xor2 a b)) fun r s' =>
      base.Turned P s' ty p r := by
  obtain ⟨rfl, ha, hb⟩ := hb.typed hn
  refine two_turns hs hparts rfl ha hb fun {s₁ a' b'} h₁ ha' hb' => ?_
  refine (fares_of (xor2_builds h₁.wf a' b') (xor2_connects h₁.wf.shapes a' b')
    (granted_xor2 ha'.has hb'.has)).imp
    fun r s' h₂ ⟨hden, hmade⟩ => ⟨hden.has, fun hpasses => ?_⟩
  refine Connects.carried hσ hn h₂.wf rfl (by simp) hpasses hden.has hmade fun u hu => ?_
  obtain ⟨c, hc, h⟩ := forall_pair_turned (ha'.later h₂.ext) (hb'.later h₂.ext) u hu
  exact ⟨c, hc, u, rfl, h⟩

theorem eq_turns (hb : base.Wf) (hn : base.node? p = some (.eq a b, ty))
    (hparts : TurnsParts base P s (.eq a b) sub) :
    Minds base P s (do let a ← sub a; let b ← sub b; liftM (eq a b)) fun r s' =>
      base.Turned P s' ty p r := by
  obtain ⟨rfl, tc, htc, ha, hb⟩ := hb.typed hn
  refine two_turns hs hparts rfl ha hb fun {s₁ a' b'} h₁ ha' hb' => ?_
  refine (fares_eq h₁.wf ha'.has hb'.has htc).imp fun r s' h₂ ⟨hr, hmade⟩ => ⟨hr, fun hpasses => ?_⟩
  refine .of_atom hσ hn h₂.wf rfl (by simp) hpasses hmade (fun shape h => ?_)
    fun {vs ws u shape' ty'} hvars h hu hshape => ?_
  · rcases h with rfl | rfl <;> exact ⟨rfl, rfl, rfl⟩
  · have hside {c c' : Term} (hc : c ∈ [a, b]) (hturned : base.Turned P s₁ tc c c') :
        s'.Supported ws c' :=
      have hpart := h.part hn (by simp) hc
      ((hturned.carried (.body hvars hpart)).supported hvars hpart).later h₂.ext
    have hsa := hside (by simp) ha'
    have hsb := hside (by simp) hb'
    cases h with
    | eq hn' hty' hshape' hfun _ _ =>
      cases hn.symm.trans hn'
      cases ha.unique hty'
      have htyShape := (hs.ext.trans (h₁.ext.trans h₂.ext)).ty hshape'
      rcases hshape with rfl | rfl
      · exact .eq hu (h₂.ext.has ha'.has) htyShape hfun hsa hsb
      · exact .eq hu (h₂.ext.has hb'.has) htyShape hfun hsb hsa
    | var hn' | app hn' => cases hn.symm.trans hn'
    | plain hn' hplain =>
      cases hn.symm.trans hn'
      cases hplain

theorem or_turns (hb : base.Wf) (hp : p.isNegated = false) (hn : base.node? p = some (.or args, ty))
    (hparts : TurnsParts base P s (.or args) sub) :
    Minds base P s (do let args ← args.mapM sub; liftM (or args)) fun r s' =>
      base.Turned P s' ty p r := by
  obtain ⟨rfl, hargs⟩ := hb.typed hn
  refine .bind hs.wf (mapM_turns hb hn hparts (later_frame.refl hs.wf) fun _ => id)
    fun rs s₁ h₁ hrs => ?_
  have hhas : ∀ r ∈ rs, s₁.Has r .bool := fun r hr => by
    obtain ⟨t, ht, ty, hty, hturned⟩ := exists_of_turned hrs hr
    exact (hargs t ht).unique hty ▸ hturned.has
  refine .lift h₁.wf ((fares_of (or_builds h₁.wf rs) (or_leads h₁.wf.shapes rs)
    (granted_or hhas)).imp
    fun r s' h₂ ⟨hden, hr⟩ => ⟨hden.has, fun hpasses => ?_⟩)
  refine .of_or (hσ.later h₁.ext) hn hp h₂.wf hpasses h₂.ext hr fun k hk => ?_
  obtain ⟨t, ht, _, _, hturned⟩ := exists_of_turned hrs hk
  exact ⟨t, ht, hturned.carried⟩

/-- Words of one width are compared. -/
theorem compare_turns (hn : base.node? p = some (shape, .bool))
    (hparts : TurnsParts base P s shape sub)
    (hshape : shape.children = [a, b]) (hplain : shape.isPlain = true)
    (hall : shape.isQuantifier = false)
    (hor : ∀ args, shape ≠ .or args) {w : Nat} (ha : base.HasWidth a w) (hb : base.HasWidth b w)
    {f : Term → Term → Op Term} {g : Term → Term → Term.Shape}
    (hg : ∀ x y, (g x y).children = [x, y] ∧ (g x y).isPlain = true ∧ (g x y).isConnective = false ∧
      (g x y).isQuantifier = false ∧ (g x y).isSymbol = false)
    (hf : ∀ {s : Store} {a b : Term}, s.Wf → s.HasWidth a w → s.HasWidth b w →
      Fares TermError.TooLarge Later s (f a b) fun r s' => s'.Has r .bool ∧ s'.Made (fun _ => False)
      (· = g a b) r) :
    Minds base P s (do let a ← sub a; let b ← sub b; liftM (f a b)) fun r s' =>
      base.Turned P s' .bool p r := by
  obtain ⟨ta, hta, htaw⟩ := ha
  obtain ⟨tb, htb, htbw⟩ := hb
  have happ : ∀ f args, shape ≠ .app f args := fun f args heq => by rw [heq] at hplain; cases hplain
  refine two_turns hs hparts hshape hta htb fun {s₁ a' b'} h₁ ha' hb' => ?_
  have hext := hs.ext.trans h₁.ext
  refine (hf h₁.wf ⟨ta, ha'.has, hext.ty htaw⟩ ⟨tb, hb'.has, hext.ty htbw⟩).imp
    fun r s' h₂ ⟨hr, hmade⟩ => ⟨hr, fun hpasses => ?_⟩
  obtain ⟨hchildren, hplain', hatom⟩ := hg a' b'
  refine .of_node (hσ.later h₁.ext) hn h₂.wf hall hor happ hpasses hmade hatom hplain' h₂.ext ?_
  rw [hchildren, hshape]
  exact forall_pair_turned ha' hb'

theorem bit_turns (hb : base.Wf) {x : Term} {i : Nat} (hn : base.node? p = some (.bit x i, ty))
    (hparts : TurnsParts base P s (.bit x i) sub) :
    Minds base P s (do let x ← sub x; liftM (bit x i)) fun r s' => base.Turned P s' ty p r := by
  obtain ⟨rfl, w, ⟨tx, hx, hxw⟩, hi⟩ := hb.typed hn
  refine .bind hs.wf (hparts (later_frame.refl hs.wf) (by simp [Term.Shape.children]) hx)
    fun x' s₁ h₁ hx' => ?_
  refine .lift h₁.wf ((fares_of (bit_builds h₁.wf x' i) (bit_makes h₁.wf.shapes x' i)
    (granted_bit ⟨tx, hx'.has, (hs.ext.trans h₁.ext).ty hxw⟩ hi)).imp fun r s' h₂ hr => ?_)
  obtain ⟨⟨-, -, hden⟩, hmade⟩ := hr
  refine ⟨hden.has, fun hpasses => ?_⟩
  exact .of_node (hσ.later h₁.ext) hn h₂.wf rfl (by simp) (by simp) hpasses hmade
    ⟨rfl, rfl, rfl⟩ rfl h₂.ext
    (List.forall_mem_singleton.mpr ⟨x, by simp [Term.Shape.children], hx'.carried⟩)

theorem bvNeg_turns (hb : base.Wf) {x : Term} (hn : base.node? p = some (.bvNeg x, ty))
    (hparts : TurnsParts base P s (.bvNeg x) sub) :
    Minds base P s (do let x ← sub x; liftM (bvNeg x)) fun r s' => base.Turned P s' ty p r := by
  obtain ⟨hx, w, hw⟩ := hb.typed hn
  refine .bind hs.wf (hparts (later_frame.refl hs.wf) (by simp [Term.Shape.children]) hx)
    fun x' s₁ h₁ hx' => ?_
  refine .lift h₁.wf ((fares_bvNeg h₁.wf hx'.has ((hs.ext.trans h₁.ext).ty hw)).imp
    fun r s' h₂ hr => ⟨hr.1, fun hpasses => ?_⟩)
  exact Combines.carried (hσ.later h₁.ext) hn h₂.wf trivial hw hb hpasses hr.1 hr.2 h₂.ext
    (List.forall_mem_singleton.mpr ⟨x, by simp [Term.Shape.children], hx'.carried⟩)

/-- Sums and products. -/
theorem words_turns (hb : base.Wf) (hn : base.node? p = some (shape, ty))
    (hparts : TurnsParts base P s shape sub)
    (hshape : shape.children = args) (hword : IsWord shape) (hne : args ≠ [])
    (hargs : ∀ a ∈ args, base.Has a ty) {w : Nat}
    (hw : base.tyShape? ty = some (.bitVector w)) {f : List Term → Op Term}
    (hf : ∀ {s : Store} {args : List Term}, s.Wf → args ≠ [] → (∀ a ∈ args, s.Has a ty) →
      s.tyShape? ty = some (.bitVector w) → Fares TermError.TooLarge Later s (f args) fun r s' =>
      s'.Has r ty ∧
        s'.Made (fun t => s.Material args t ∨ s'.IsValue t)
          (fun shape => IsWord shape ∧ Over (fun t => s.Material args t ∨ s'.IsValue t) shape) r) :
    Minds base P s (do let args ← args.mapM sub; liftM (f args)) fun r s' =>
      base.Turned P s' ty p r := by
  refine .bind hs.wf (mapM_turns hb hn hparts (later_frame.refl hs.wf) fun t ht => hshape ▸ ht)
    fun rs s₁ h₁ hrs => ?_
  have hhas : ∀ r ∈ rs, s₁.Has r ty := fun r hr => by
    obtain ⟨t, ht, tc, htc, hturned⟩ := exists_of_turned hrs hr
    exact (hargs t ht).unique htc ▸ hturned.has
  have hne : rs ≠ [] := fun h =>
    hne (List.eq_nil_of_length_eq_zero (hrs.length_eq.trans (by rw [h]; rfl)))
  refine .lift h₁.wf ((hf h₁.wf hne hhas ((hs.ext.trans h₁.ext).ty hw)).imp
    fun r s' h₂ ⟨hr, hmade⟩ => ⟨hr, fun hpasses => ?_⟩)
  refine Combines.carried (hσ.later h₁.ext) hn h₂.wf hword hw hb hpasses hr hmade h₂.ext fun k hk =>
    ?_
  obtain ⟨t, ht, _, _, hturned⟩ := exists_of_turned hrs hk
  exact ⟨t, hshape ▸ ht, hturned.carried⟩

theorem app_turns (hb : base.Wf) {f : Term} (hn : base.node? p = some (.app f args, ty))
    (hparts : TurnsParts base P s (.app f args) sub) :
    Minds base P s (do let f ← sub f; let args ← args.mapM sub; liftM (app f args))
      fun r s' => base.Turned P s' ty p r := by
  obtain ⟨tf, domain, hf, hdom, hargs⟩ := hb.typed hn
  refine .bind hs.wf (hparts (later_frame.refl hs.wf) List.mem_cons_self hf) fun f' s₁ h₁ hf' => ?_
  refine .bind h₁.wf (mapM_turns hb hn hparts h₁ fun _ => List.mem_cons_of_mem _)
    fun rs s₂ h₂ hrs => ?_
  have hlater := later_frame.trans hs (later_frame.trans h₁ h₂)
  have htyped : s₂.Typed (.app f' rs) ty :=
    ⟨tf, domain, (hf'.later h₂.ext).has, hlater.ext.ty hdom, has_of_turned hrs hargs⟩
  refine .lift h₂.wf ((fares_app h₂.wf htyped).imp fun r s' h₃ ⟨hr, hmade⟩ =>
    ⟨hr, fun hpasses => ?_⟩)
  refine .of_atom hσ hn h₃.wf rfl nofun hpasses hmade (fun shape h => h ▸ ⟨rfl, rfl, rfl⟩)
    fun {vs ws u shape' tu} hvars h hu hshape => ?_
  subst hshape
  cases h₃.wf.typed_unique (h₃.wf.typed hu) (h₃.ext.typed htyped)
  cases h with
  | app hn' hty hword hsorts hargs' =>
    cases hn.symm.trans hn'
    refine .app hu ((hlater.ext.trans h₃.ext).ty hty) hword (fun k hk => ?_) fun k hk => ?_ <;>
      obtain ⟨t, ht, tc, htc, hturned⟩ := exists_of_turned hrs hk
    · obtain ⟨tc', n, htc', hsort⟩ := hsorts t ht
      obtain rfl := htc'.unique htc
      exact ⟨_, n, h₃.ext.has hturned.has, (hlater.ext.trans h₃.ext).ty hsort⟩
    · exact ((hturned.carried (.body hvars (hargs' t ht))).supported hvars (hargs' t ht)).later
        h₃.ext
  | var hn' | eq hn' => cases hn.symm.trans hn'
  | plain hn' hplain =>
    cases hn.symm.trans hn'
    cases hplain

end

variable {small : Term → Prop} {sub : Subst → Term → SubstOp Term}

/-- A substitution for a variable that a quantifier binds leaves it alone; such a quantifier is not
carried over. -/
theorem not_passes_of_any (hσ : base.Carries P s σ) (hb : base.Wf) {body : Term}
    (hn : base.node? p = some (.all vars body, ty)) (hany : vars.any σ.contains = true) :
    ¬ base.Passes P p := by
  intro hpasses
  cases hpasses with
  | body _ h => exact h.not_quantifier hn
  | whole _ hwhole =>
    obtain ⟨v, hv, hcontains⟩ := List.any_eq_true.mp hany
    obtain ⟨x, hx⟩ := Option.isSome_iff_exists.mp
      (Std.HashMap.isSome_getElem?_iff_mem.mpr (Std.HashMap.contains_iff_mem.mp hcontains))
    obtain ⟨-, -, hvars, -⟩ := hb.typed hn
    obtain ⟨-, tv, n, hvn⟩ := hvars v hv
    have hvar := hσ.constants hwhole hx
    rw [shape_of_node hvn] at hvar
    cases hvar

theorem all_turns (hsub : Turning base small sub) (hs : Later base s) (hσ : base.Carries P s σ)
    (hb : base.Wf)
    (hreg : base.Regular) {body : Term} (hn : base.node? p = some (.all vars body, ty))
    (hsmall : small body) :
    Minds base P s (if vars.any σ.contains then do
        let inner := vars.foldl (fun m v => m.erase v) σ
        let body ← if inner.isEmpty then pure body else (sub inner body).run' ∅
        all vars body
      else do
        let body ← sub σ body
        all vars body) fun r s' => base.Turned P s' ty p r := by
  obtain ⟨rfl, hnodup, hvars, hbody⟩ := hb.typed hn
  have build {s₁ : Store} (h₁ : Later s s₁) {k : Term} (hk : s₁.Has k .bool) :
      Fares TermError.TooLarge Later s₁ (all vars k) fun r s' => s'.Has r .bool ∧
        s'.Made (fun _ => False) (fun shape => shape = .all vars k) r :=
    (fares_of (all_quantifies h₁.wf vars k) (all_makes h₁.wf.shapes vars k)
      (granted_all (hreg hn) hnodup (fun v hv => (hs.ext.trans h₁.ext).isVar (hvars v hv)) hk)).imp
      fun r s' _ hr => ⟨hr.1.has, hr.2⟩
  split
  next hany =>
    have hfails := not_passes_of_any hσ hb hn hany
    have last {s₁ : Store} (h₁ : Later s s₁) {k : Term} (hk : s₁.Has k .bool) :
        Minds base P s₁ (liftM (all vars k)) fun r s' => base.Turned P s' .bool p r :=
      .lift h₁.wf ((build h₁ hk).imp fun r s' _ hr => ⟨hr.1, fun h => absurd h hfails⟩)
    dsimp only
    split
    · exact .bind (Q := fun k s' => s'.Has k .bool) hs.wf (.pure hs.wf (hs.ext.has hbody))
        fun k s₁ h₁ hk => last h₁ hk
    · have hinner : s.Assigns (vars.foldl (fun m v => m.erase v) σ) := fun x v hx => by
        rw [getElem?_foldl_erase] at hx
        split at hx
        · cases hx
        · exact hσ.assigns hx
      have hrun := (hsub hs (carries_none hinner) hbody hsmall).run' hs.wf
      exact .bind hs.wf (.lift hs.wf hrun) fun k s₁ h₁ hk => last h₁ hk.has
  next =>
    refine .bind hs.wf (hsub hs hσ hbody hsmall) fun k s₁ h₁ hk => ?_
    refine .lift h₁.wf ((build h₁ hk.has).imp fun r s' h₂ ⟨hr, hmade⟩ => ⟨hr, fun hpasses => ?_⟩)
    exact .of_all hσ hn h₂.wf hpasses (hs.ext.trans (h₁.ext.trans h₂.ext)) hmade
      (hk.later h₂.ext).carried

/-- Rebuilding a node whose parts are turned. -/
theorem rebuild_turns (hsub : Turning base small sub) (hs : Later base s) (hσ : base.Carries P s σ)
    (hb : base.Wf)
    (hreg : base.Regular) (hp : p.isNegated = false) (hn : base.node? p = some (shape, ty))
    (hnone : σ[p]? = none) (hsmall : ∀ c ∈ shape.children, small c) :
    Minds base P s (rebuild sub σ p) fun r s' => base.Turned P s' ty p r := by
  have hparts : TurnsParts base P s shape (sub σ) := fun s₁ h₁ c hc tc hctc =>
    hsub (later_frame.trans hs h₁) (hσ.later h₁.ext) hctc (hsmall c hc)
  unfold rebuild
  refine .look_bind ?_
  rw [show s.shape? p = some shape by simp [shape?, hs.ext.node hn]]
  cases shape with
  | truth | bvConst | uninterpreted | var =>
    exact .pure hs.wf (atom_turns hs hσ hp hn hnone rfl (by simp))
  | ite c a b => exact ite_turns hs hσ hb hn hparts
  | eq a b => exact eq_turns hs hσ hb hn hparts
  | xor a b => exact xor_turns hs hσ hb hn hparts
  | bvGe a b =>
    obtain ⟨rfl, w, ha, hb'⟩ := hb.typed hn
    refine compare_turns (g := .bvGe) hs hσ hn hparts rfl rfl rfl (by simp) ha hb'
      (fun x y => ⟨rfl, rfl, rfl, rfl, rfl⟩)
      fun hw ha hb => ?_
    exact (fares_of (bvGe_builds hw _ _) (bvGe_makes hw.shapes _ _) (granted_bvGe ha hb)).imp
        fun _ _ _ hr =>
      ⟨hr.1.2.has, hr.2⟩
  | bvSge a b =>
    obtain ⟨rfl, w, ha, hb'⟩ := hb.typed hn
    refine compare_turns (g := .bvSge) hs hσ hn hparts rfl rfl rfl (by simp) ha hb'
      (fun x y => ⟨rfl, rfl, rfl, rfl, rfl⟩)
      fun hw ha hb => ?_
    refine (fares_of (bvSge_builds hw _ _) (bvSge_makes hw.shapes _ _) (granted_bvSge ha hb)).imp
      fun _ _ _ hr => ?_
    obtain ⟨⟨_, _, _, hden⟩, hmade⟩ := hr
    exact ⟨hden.has, hmade⟩
  | bvNeg x => exact bvNeg_turns hs hσ hb hn hparts
  | bit x i => exact bit_turns hs hσ hb hn hparts
  | or args => exact or_turns hs hσ hb hp hn hparts
  | bvSum args =>
    obtain ⟨hne, hargs, w, hw⟩ := hb.typed hn
    exact words_turns hs hσ hb hn hparts rfl trivial hne hargs hw fun hs hne hargs hw =>
      fares_bvSum hs hne hargs hw
  | bvProduct args =>
    obtain ⟨hne, hargs, w, hw⟩ := hb.typed hn
    exact words_turns hs hσ hb hn hparts rfl trivial hne hargs hw fun hs hne hargs hw =>
      fares_bvProduct hs hne hargs hw
  | app f args => exact app_turns hs hσ hb hn hparts
  | all vars body =>
    exact all_turns hsub hs hσ hb hreg hn (hsmall body (by simp [Term.Shape.children]))

/-- With parts of smaller rank, a depth above the rank of a term is enough. -/
theorem substAt_turns (hb : base.Wf) (hreg : base.Regular) {rank : Nat → Nat}
    (hrank : ∀ {i shape ty}, base.terms.get? i = some (shape, ty) → ∀ c ∈ shape.children,
      rank c.index < rank i)
    (depth : Nat) : Turning base (fun t => rank t.index < depth) (substAt depth) := by
  induction depth with
  | zero => exact fun _ _ _ h => absurd h (Nat.not_lt_zero _)
  | succ depth ih =>
    intro P s σ t ty hs hσ ht hlt
    have hpos : s.Has t.positive ty := (hs.ext.has ht).positive
    -- what carries the positive term over carries the term over, in its polarity
    have polarity {s' : Store} {r : Term} (hr : base.Turned P s' ty t.positive r) :
        base.Turned P s' ty t (r.negIf t.isNegated) := by
      refine ⟨hr.has.negIf ht.2, fun hpasses => ?_⟩
      have hflip : t.positive = t ∨ t.positive = t.neg := by
        cases hneg : t.isNegated with
        | false => exact .inl (Term.positive_of_not_isNegated hneg)
        | true => exact .inr (by rw [← Term.neg_neg t.positive, Term.neg_positive hneg])
      have hc := hr.carried (hpasses.congr hflip)
      refine ⟨fun hvars h => (hc.supported hvars h.positive).negIf _, fun hwhole flip h =>
          ?_, fun h =>
        (hc.shallow (h.congr (Term.index_positive t))).negIf _⟩
      cases hneg : t.isNegated with
      | false =>
        rw [Term.positive_of_not_isNegated hneg] at hc
        exact hc.assertable hwhole flip h
      | true =>
        have hflipped : t.negIf flip = t.positive.negIf (!flip) := by
          rw [← Term.neg_positive hneg]
          cases flip with
          | false => simp [Term.negIf, Term.positive_neg, Term.positive_of_not_isNegated]
          | true => simp [Term.negIf, Term.positive_neg, Term.positive_of_not_isNegated]
        have := hc.assertable hwhole (!flip) (hflipped ▸ h)
        cases flip with
        | false => exact this
        | true =>
          show s'.Assertable P.flatten r.neg.neg
          rw [Term.neg_neg]
          exact this
    unfold substAt
    cases hx : σ[t.positive]? with
    | some r =>
      obtain ⟨ty', hp, hr⟩ := hσ.assigns hx
      simp only [hx]
      exact .pure hs.wf (polarity ⟨hp.unique hpos ▸ hr, hσ.carried hx⟩)
    | none =>
      simp only [hx]
      refine .get_bind fun memo hm => ?_
      cases hr : memo[t.positive]? with
      | some r =>
        obtain ⟨ty', hp, hrty⟩ := hm.assigns hr
        exact .pure hs.wf (polarity ⟨hp.unique hpos ▸ hrty, hm.carried hr⟩)
      | none =>
        obtain ⟨⟨shape, hn⟩, -⟩ := ht.positive
        have hsmall : ∀ c ∈ shape.children, rank c.index < depth := fun c hc => by
          have hlt' := hrank hn c hc
          rw [Term.index_positive] at hlt'
          omega
        refine .bind hs.wf (rebuild_turns ih hs hσ hb hreg (Term.isNegated_positive t) hn hx hsmall)
          fun r s' hs' hr => ?_
        refine .modify_bind (fun m hm => ⟨hm.assigns.insert (hs'.ext.has hpos) hr.has,
          fun {x v} hxv hpasses => ?_⟩)
          (.pure hs'.wf (polarity hr))
        rw [Std.HashMap.getElem?_insert] at hxv
        split at hxv
        next heq =>
          cases hxv
          rw [beq_iff_eq] at heq
          subst heq
          exact hr.carried hpasses
        next => exact hm.carried hxv hpasses

/-- A substitution is refused for the degree of a product only, and carries over what passes. -/
theorem subst_turns (hw : s.Wf) (hreg : s.Regular) (hσ : s.Carries P s σ) (ht : s.Has t ty) :
    Fares TermError.TooLarge Later s (subst σ t) fun r s' => s.Turned P s' ty t r := by
  obtain ⟨rank, hrank, hbound⟩ := hw.bounded
  unfold subst
  split
  next hempty =>
    have hnone {v : Term} : σ[v]? = none := Std.HashMap.getElem?_of_isEmpty hempty
    refine Fares.pure later_frame hw
      ⟨ht, fun _ => ⟨fun hvars h => h.mono fun v hv => hσ.free hvars hv hnone, ?_, id⟩⟩
    exact fun _ _ h => h
  next =>
    obtain ⟨shape, hn⟩ := ht.1
    have hrun := (substAt_turns hw hreg hrank (s.terms.slots.size + 1) (later_frame.refl hw) hσ ht
      (Nat.lt_succ_of_lt (hbound hn))).run' hw
    exact ⟨hrun.leads, hrun.cause⟩

end
end Entail.Store
