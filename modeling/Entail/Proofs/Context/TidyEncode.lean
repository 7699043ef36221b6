import Entail.Proofs.Context.Tidy

/-!
# Encoding keeps a context tidy

Gates put together literals that they are given with new outputs, so all clauses are about variables
that stand for terms. A formula without eliminated constants has parts without, and the terms that
are built on the way are put together from such parts. So no eliminated constant gets a variable, a
word or a node.
-/

namespace Entail.Work

open Workspace Context

variable {α : Type} {fixed : Prop} {w : Workspace} {l a b c out : Literal}
  {as bs lits : List Literal} {vs : Nat → Prop}

/-! ## Clauses of gates -/

/-- The clauses of a gate are over its output and its inputs; the same for the other gates below. -/
theorem over_orClauses (hout : vs out.var) (hlits : Search.Over vs lits) :
    ∀ ls ∈ orClauses out lits, Search.Over vs ls := by
  intro ls hls
  rcases List.mem_append.mp hls with hls | hls
  · obtain ⟨l, hl, rfl⟩ := List.mem_map.mp hls
    simp [Search.Over, hout, hlits l hl]
  · obtain rfl := List.mem_singleton.mp hls
    exact List.forall_mem_cons.mpr ⟨(Literal.var_neg out).symm ▸ hout, hlits⟩

theorem over_xorClauses (hout : vs out.var) (hlits : Search.Over vs [a, b]) :
    ∀ ls ∈ xorClauses out a b, Search.Over vs ls := by
  have ha := hlits a (by simp)
  have hb := hlits b (by simp)
  simp [xorClauses, Search.Over, hout, ha, hb]

theorem over_iteClauses (hout : vs out.var) (hlits : Search.Over vs [c, a, b]) :
    ∀ ls ∈ iteClauses out c a b, Search.Over vs ls := by
  have hc := hlits c (by simp)
  have ha := hlits a (by simp)
  have hb := hlits b (by simp)
  simp [iteClauses, Search.Over, hout, hc, ha, hb]

theorem over_majorityClauses (hout : vs out.var) (hlits : Search.Over vs [a, b, c]) :
    ∀ ls ∈ majorityClauses out a b c, Search.Over vs ls := by
  have ha := hlits a (by simp)
  have hb := hlits b (by simp)
  have hc := hlits c (by simp)
  simp [majorityClauses, Search.Over, hout, ha, hb, hc]

/-! ## Gates -/

theorem grows_constant?_bind {g : Option Bool → Work α} {Q : α → Workspace → Prop}
    (h : ∀ x, Leads (Grows fixed) w (g x) Q) : Leads (Grows fixed) w (constant? l >>= g) Q := h _

theorem knowsAll_three (ha : Knows a w) (hb : Knows b w) (hc : Knows c w) : KnowsAll [a, b, c] w :=
  List.forall_mem_cons.mpr ⟨ha, knowsAll_pair hb hc⟩

section

variable (hw : w.Tidy)

include hw

/-- An output that some clauses about it and given literals define. -/
theorem grows_define {op : Work Literal} (hop : Leads (Grows fixed) w op Knows)
    {cs : Literal → List (List Literal)} (hlits : KnowsAll lits w)
    (hcs : ∀ {vs : Nat → Prop} {out : Literal}, vs out.var → Search.Over vs lits → ∀ ls ∈ cs out,
      Search.Over vs ls) :
    Leads (Grows fixed) w (do let out ← op; clauses (cs out); return out) Knows :=
  grows_bind hw hop fun _ _ hw₁ hr₁ hout =>
    grows_bind hw₁ (grows_clauses hw₁ (hcs hout (hr₁.overLive hlits))) fun _ _ hw₂ hr₂ _ =>
      grows_pure hw₂ (hr₂.live hout)

/-- The gate of a conjunction answers a literal of a live variable, whatever it simplified. -/
theorem grows_andGate (ha : Knows a w) (hb : Knows b w) :
    Leads (Grows fixed) w (andGate a b) Knows := by
  refine grows_constant?_bind fun x => grows_constant?_bind fun y => ?_
  repeat' split
  · exact grows_falseLit hw
  · exact grows_pure hw hb
  · exact grows_pure hw ha
  · exact grows_pure hw ha
  · exact grows_falseLit hw
  · exact grows_define hw (grows_freshLit hw) (knowsAll_pair ha.neg hb.neg)
      fun hout hlits => over_orClauses ((Literal.var_neg _).symm ▸ hout) hlits

theorem grows_orGate (ha : Knows a w) (hb : Knows b w) : Leads (Grows fixed) w (orGate a b) Knows :=
  grows_bind hw (grows_andGate hw ha.neg hb.neg) fun _ _ hw' _ h => grows_pure hw' h.neg

theorem grows_xorGate (ha : Knows a w) (hb : Knows b w) :
    Leads (Grows fixed) w (xorGate a b) Knows := by
  refine grows_constant?_bind fun x => grows_constant?_bind fun y => ?_
  split
  · exact grows_pure hw (hb.negIf _)
  · exact grows_pure hw (ha.negIf _)
  · split
    · exact grows_falseLit hw
    · split
      · exact grows_trueLit hw
      · exact grows_define hw (grows_freshLit hw) (knowsAll_pair ha hb) over_xorClauses

theorem grows_iteGate (hc : Knows c w) (ha : Knows a w) (hb : Knows b w) :
    Leads (Grows fixed) w (iteGate c a b) Knows := by
  refine grows_constant?_bind fun x => ?_
  split
  next flag =>
    refine grows_pure hw ?_
    cases flag with
    | true => exact ha
    | false => exact hb
  · split
    · exact grows_pure hw ha
    · exact grows_define hw (grows_freshLit hw) (knowsAll_three hc ha hb) over_iteClauses

theorem grows_majorityGate (ha : Knows a w) (hb : Knows b w) (hc : Knows c w) :
    Leads (Grows fixed) w (majorityGate a b c) Knows := by
  refine grows_constant?_bind fun x => grows_constant?_bind fun y => grows_constant?_bind fun z =>
    ?_
  split
  · split
    · exact grows_orGate hw hb hc
    · exact grows_andGate hw hb hc
  · split
    · exact grows_orGate hw ha hc
    · exact grows_andGate hw ha hc
  · split
    · exact grows_orGate hw ha hb
    · exact grows_andGate hw ha hb
  · split
    · exact grows_pure hw ha
    · split
      · exact grows_pure hw hb
      · exact grows_define hw (grows_freshLit hw) (knowsAll_three ha hb hc) over_majorityClauses

end

/-! ## Words -/

theorem knowsAll_nil (w : Workspace) : KnowsAll [] w := Search.over_nil _

theorem KnowsAll.of_cons (h : KnowsAll (l :: lits) w) : Knows l w ∧ KnowsAll lits w :=
  List.forall_mem_cons.mp h

theorem KnowsAll.cons (hl : Knows l w) (h : KnowsAll lits w) : KnowsAll (l :: lits) w :=
  List.forall_mem_cons.mpr ⟨hl, h⟩

theorem KnowsAll.replicate (hl : Knows l w) (n : Nat) : KnowsAll (List.replicate n l) w :=
  fun k hk => by
  rw [List.eq_of_mem_replicate hk]
  exact hl

theorem KnowsAll.append (h : KnowsAll as w) (h' : KnowsAll bs w) : KnowsAll (as ++ bs) w :=
  fun k hk =>
  (List.mem_append.mp hk).elim (h k) (h' k)

theorem KnowsAll.flipSign (h : KnowsAll as w) : KnowsAll (flipSign as) w := by
  intro l hl
  obtain ⟨k, hk⟩ := List.mem_iff_getElem?.mp hl
  rw [Work.flipSign, List.getElem?_modify] at hk
  obtain ⟨l', hl', rfl⟩ := Option.map_eq_some_iff.mp hk
  have hknown := h l' (List.mem_of_getElem? hl')
  split
  · exact Knows.neg hknown
  · exact hknown

/-- The adder answers known literals, by induction on its digits: each carry is known after its
gate. -/
theorem grows_adder (hw : w.Tidy) (has : KnowsAll as w) (hbs : KnowsAll bs w) {carry : Literal}
    (hcarry : Knows carry w) :
    Leads (Grows fixed) w (adder as bs carry) KnowsAll := by
  induction as generalizing bs carry w with
  | nil => exact grows_pure hw (knowsAll_nil w)
  | cons a as ih =>
    cases bs with
    | nil => exact grows_pure hw (knowsAll_nil w)
    | cons b bs =>
      obtain ⟨ha, has⟩ := has.of_cons
      obtain ⟨hb, hbs⟩ := hbs.of_cons
      refine grows_bind hw (grows_xorGate hw ha hb) fun half w₁ hw₁ hr₁ hhalf => ?_
      refine grows_bind hw₁ (grows_xorGate hw₁ hhalf (hr₁.live hcarry)) fun sum w₂ hw₂ hr₂ hsum =>
        ?_
      have hr := grows_frame.trans hr₁ hr₂
      split
      · exact grows_pure hw₂ (.cons hsum (knowsAll_nil w₂))
      · refine grows_bind hw₂ (grows_majorityGate hw₂ (hr.live ha) (hr.live hb) (hr.live hcarry))
          fun carry' w₃ hw₃ hr₃ hcarry' => ?_
        have hr' := grows_frame.trans hr hr₃
        refine grows_bind hw₃ (ih hw₃ (hr'.overLive has) (hr'.overLive hbs) hcarry')
          fun rest w₄ hw₄ hr₄ hrest => ?_
        exact grows_pure hw₄ (.cons (hr₄.live (hr₃.live hsum)) hrest)

/-- The rows of a product are added one by one, and every sum is known. -/
theorem grows_addProducts (hw : w.Tidy) (has : KnowsAll as w) (hbs : KnowsAll bs w) (shift : Nat)
    {acc : List Literal} (hacc : KnowsAll acc w) :
    Leads (Grows fixed) w (addProducts as bs shift acc) KnowsAll := by
  induction bs generalizing shift acc w with
  | nil => exact grows_pure hw hacc
  | cons b bs ih =>
    obtain ⟨hb, hbs⟩ := hbs.of_cons
    refine grows_constant?_bind fun x => ?_
    split
    · exact ih hw has hbs _ hacc
    · refine grows_bind hw (grows_falseLit hw) fun zero w₁ hw₁ hr₁ hzero => ?_
      have hrow : Leads (Grows fixed) w₁
          ((as.take (as.length - shift)).mapM (andGate · b)) KnowsAll :=
        Leads.mapM grows_frame hw₁ (fun hr h => hr.live h) fun a ha w' hw' hr =>
          grows_andGate hw' (hr.live (hr₁.live (has a (List.mem_of_mem_take ha))))
            (hr.live (hr₁.live hb))
      refine grows_bind hw₁ hrow fun row w₂ hw₂ hr₂ hrow => ?_
      have hshifted : KnowsAll (List.replicate shift zero ++ row) w₂ :=
        (KnowsAll.replicate (hr₂.live hzero) shift).append hrow
      have hr := grows_frame.trans hr₁ hr₂
      refine grows_bind hw₂ (grows_adder hw₂ (hr.overLive hacc) hshifted (hr₂.live hzero))
        fun acc' w₃ hw₃ hr₃ hacc' => ?_
      exact ih hw₃ (hr₃.overLive (hr.overLive has)) (hr₃.overLive (hr.overLive hbs)) _ hacc'

theorem grows_multiplier (hw : w.Tidy) (has : KnowsAll as w) (hbs : KnowsAll bs w) :
    Leads (Grows fixed) w (multiplier as bs) KnowsAll :=
  grows_bind hw (grows_falseLit hw) fun _ _ hw' hr hzero =>
    grows_addProducts hw' (hr.overLive has) (hr.overLive hbs) 0 (.replicate hzero _)

theorem grows_negater (hw : w.Tidy) (has : KnowsAll as w) :
    Leads (Grows fixed) w (negater as) KnowsAll :=
  grows_bind hw (grows_falseLit hw) fun _ _ hw' hr hzero =>
    grows_adder hw' (hr.overLive has).neg (.replicate hzero _) hzero.neg

/-- The digits of two known words are known pair by pair. -/
theorem knows_of_mem_zip (has : KnowsAll as w) (hbs : KnowsAll bs w) {x : Literal × Literal}
    (hx : x ∈ as.zip bs) :
    Knows x.1 w ∧ Knows x.2 w :=
  ⟨has x.1 (List.of_mem_zip hx).1, hbs x.2 (List.of_mem_zip hx).2⟩

theorem grows_equalGate (hw : w.Tidy) (has : KnowsAll as w) (hbs : KnowsAll bs w) :
    Leads (Grows fixed) w (equalGate as bs) Knows := by
  refine grows_bind hw (grows_trueLit hw) fun l w₁ hw₁ hr₁ hl => ?_
  refine Leads.foldlM grows_frame hw₁ hl fun acc x hx w₂ hw₂ hr₂ hacc => ?_
  obtain ⟨hx₁, hx₂⟩ := knows_of_mem_zip has hbs hx
  have hr := grows_frame.trans hr₁ hr₂
  refine grows_bind hw₂ (grows_xorGate hw₂ (hr.live hx₁) (hr.live hx₂)) fun d w₃ hw₃ hr₃ hd => ?_
  exact grows_andGate hw₃ (hr₃.live hacc) hd.neg

theorem grows_geGate (hw : w.Tidy) (has : KnowsAll as w) (hbs : KnowsAll bs w) :
    Leads (Grows fixed) w (geGate as bs) Knows := by
  refine grows_bind hw (grows_trueLit hw) fun l w₁ hw₁ hr₁ hl => ?_
  refine Leads.foldlM grows_frame hw₁ hl fun carry x hx w₂ hw₂ hr₂ hcarry => ?_
  obtain ⟨hx₁, hx₂⟩ := knows_of_mem_zip has hbs hx
  have hr := grows_frame.trans hr₁ hr₂
  exact grows_majorityGate hw₂ (hr.live hx₁) (Knows.neg (hr.live hx₂)) hcarry

/-! ## Atoms of the e-graph -/

section

variable {s : Store} {ctx : Context} {v : Nat} {m : (Term × Term) ⊕ Term} {g : Egraph}

/-- References stay in order when a variable gets an atom for what its term says. -/
theorem refers_enter (h : ctx.Refers s) (he : Egraph.Enters s v m ctx.registry.egraph g)
    (hv : ∃ t, ctx.vars.term? v = some t ∧ ∀ atom, Egraph.Means g.nodes atom m →
      Stands s g.nodes t atom) :
    Refers s { ctx with registry := { ctx.registry with egraph := g } } := by
  refine { h with egraph := ?_, atoms := fun {u atom} hu => ?_ }
  · unfold Egraph.Over
    rw [he.classes]
    exact h.egraph
  · change g.atoms[u]? = some atom at hu
    have hold (hu : ctx.registry.egraph.atoms[u]? = some atom) :
        ∃ t, ctx.vars.term? u = some t ∧ Stands s g.nodes t atom := by
      obtain ⟨t, ht, hstands⟩ := h.atoms hu
      exact ⟨t, ht, hstands.of_isPrefix he.nodes⟩
    rcases he.atoms with ⟨rfl, -⟩ | ⟨-, -, fresh, hatoms, hmeans⟩
    · exact hold hu
    · rw [hatoms, Std.HashMap.getElem?_insert] at hu
      split at hu
      next heq =>
        cases hu
        obtain ⟨t, ht, hstands⟩ := hv
        exact ⟨t, eq_of_beq heq ▸ ht, hstands atom hmeans⟩
      next => exact hold hu

/-- New nodes keep the elimination in order if their terms mention no eliminated constant. -/
theorem eliminates_enter (h : ctx.Eliminates s)
    (hnodes : ∀ n ∈ g.nodes, n ∈ ctx.registry.egraph.nodes ∨ s.Avoids ctx.Eliminated n.term) :
    Eliminates s { ctx with registry := { ctx.registry with egraph := g } } := by
  refine h.of_ctx id (fun {t} ht => ?_) fun q hq => .inl hq
  rcases ht with hv | hword | ⟨n, hn, rfl⟩
  · exact .inl (.inl hv)
  · exact .inl (.inr (.inl hword))
  · exact (hnodes n hn).imp (fun hn => .inr (.inr ⟨n, hn, rfl⟩)) id

end

section

variable {p x y z t : Term} {ty : Ty} {m : (Term × Term) ⊕ Term} (hw : w.Tidy)

include hw

/-- A formula gets its variable, which gets an atom for what the formula says. -/
theorem grows_enter {op : Literal → Store → StateM Egraph Unit} (hp : ∃ ty, w.store.Has p ty)
    (hclean : w.Clean p) (hop : ∀ l, Steps True w.store (onEgraph (op l)))
    (henters : ∀ l, Egraph.Enters w.store l.var m w.ctx.registry.egraph
      (op l w.store w.ctx.registry.egraph).2)
    (hstands : ∀ {nodes atom}, Egraph.Means nodes atom m → Stands w.store nodes p atom)
    (hnodes : ∀ l, ∀ n ∈ (op l w.store w.ctx.registry.egraph).2.nodes,
      n ∈ w.ctx.registry.egraph.nodes ∨ w.store.Avoids w.ctx.Eliminated n.term) :
    Leads (Grows fixed) w (do let l ← atom p; onEgraph (op l); return l) Knows := by
  have hvars := hw.ok.ctx.vars
  have hatom := steps_atom hp w hw.since
  have hw₁ := typed_frame.stable hw.since hatom
  have he := henters (w.ctx.atom p).1
  have hvar : (w.ctx.atom p).2.vars.term? (w.ctx.atom p).1.var = some p :=
    (term?_atom hvars p).mpr (.inr ⟨rfl, rfl⟩)
  refine ⟨hw.grows (hatom.trans (hop _ _ hw₁)) (refers_enter (hw.refers.atom hvars p w.ctx.aux) he
    ⟨p, hvar, fun _ => hstands⟩)
    (eliminates_enter (hw.gone.atom hvars hclean w.ctx.aux) (hnodes _)) rfl
    (fun hv => (term?_atom hvars p).mpr (.inl hv)) (fun _ => rfl) ⟨he.nodes, fun {v atom} hv => ?_,
      fun {v t} hv => ?_⟩,
    ⟨p, hvar⟩⟩
  · rcases he.atoms with ⟨hsame, -⟩ | ⟨hnone, -, fresh, hinsert, -⟩
    · exact hsame.symm ▸ hv
    · refine (congrArg (·[v]?) hinsert).trans ?_
      rw [Std.HashMap.getElem?_insert, if_neg]
      · exact hv
      · intro heq
        rw [eq_of_beq heq, hv] at hnone
        cases hnone
  · refine ((term?_atom hvars p).mp hv).imp id fun ⟨heq, _⟩ _ => ?_
    subst heq
    rcases he.atoms with ⟨hsame, hatom⟩ | ⟨-, -, fresh, hinsert, -⟩
    · exact hsame.symm ▸ hatom
    · exact ⟨fresh, (congrArg (·[(w.ctx.atom p).1.var]?) hinsert).trans
        Std.HashMap.getElem?_insert_self⟩

/-- The variable of an equality gets the atom of its sides. -/
theorem grows_addEq (hp : ∃ ty, w.store.Has p ty) (hshape : w.store.shape p = .eq x y)
    (hx : w.store.Has x ty) (hy : w.store.Has y ty) (hclean : w.Clean p) :
    Leads (Grows fixed) w (do
      let l ← atom p
      onEgraph fun s => Egraph.addEq s l.var x y
      return l) Knows := by
  have hcx : w.Clean x := hclean.part (by simp [hshape, Term.Shape.children])
  have hcy : w.Clean y := hclean.part (by simp [hshape, Term.Shape.children])
  refine grows_enter hw hp hclean (fun l => steps_addEq l.var hx hy)
    (fun l => Egraph.addEq_enters hw.ok.store hw.ok.ctx.nodes l.var x y) (.eq hshape)
    fun l _ hn => ?_
  exact Egraph.mem_nodes_addEq (fun h => h.arg) l.var hcx hcy hn

/-- The variable of a boolean application gets the atom of the application. -/
theorem grows_addPred {f : Term} {args : List Term} (hshape : w.store.shape p = .app f args)
    (hp : w.store.Has p .bool) (hclean : w.Clean p) :
    Leads (Grows fixed) w (do
      let l ← atom p
      onEgraph fun s => Egraph.addPred s l.var p
      return l) Knows :=
  grows_enter hw ⟨.bool, hp⟩ hclean (fun l => steps_addPred l.var fun _ => hp)
    (fun l => Egraph.addPred_enters hw.ok.store hw.ok.ctx.nodes l.var p) (.pred hshape)
    fun l _ hn => Egraph.mem_nodes_addPred (fun h => h.arg) l.var hclean hn

/-! ## Terms -/

theorem hasConstants : w.store.HasConstants w.ctx.Eliminated :=
  hw.ok.store.hasConstants fun _ hx => (hw.gone.datum hx).const

/-- A term that is put together from others contains no eliminated constant. -/
theorem grows_build {op : Store.Op Term} {Q : Term → Store → Prop}
    (hop : Moves Store.Wf Store.Built op)
    (havoids : Store.Avoiding w.ctx.Eliminated w.store op) (hQ : Store.Builds w.store op Q) :
    Leads (Grows fixed) w (onStore op) fun t w' => w'.ctx = w.ctx ∧ w'.Clean t ∧ Q t w'.store := by
  have hlater : Moves Store.Wf Store.Later op := hop.mono fun _ _ _ h => h.later
  have hboth := Leads.and (havoids.builds hw.ok.store hlater) hQ
  refine (grows_onStore hw hop hboth).mono fun t w' _ ⟨hctx, ht, hq⟩ => ?_
  refine ⟨hctx, ?_, hq⟩
  unfold Clean
  rw [hctx]
  exact ht

end

/-- Encoding a term without eliminated constants answers literals of variables that stand for
terms. -/
structure Tidies (e : Encoder) : Prop where
  lit : ∀ {w t}, w.Tidy → w.store.Has t .bool → w.Clean t → Leads (Grows True) w (e.lit t) Knows
  word : ∀ {w t}, w.Tidy → (∃ ty, w.store.Has t ty) → w.Clean t →
    Leads (Grows True) w (e.word t) KnowsAll

section

variable {e : Encoder} {p x y z t cond : Term} {ty : Ty} (he : Tidies e)

include he

/-- A choice below an equality is encoded as the choice between two equalities, all of them
clean. -/
theorem grows_lifted (hw : w.Tidy) (hcond : w.Clean cond) (hx : w.Clean x) (hy : w.Clean y)
    (hz : w.Clean z) :
    Leads (Grows True) w (e.lifted cond x y z) Knows := by
  have heq {w : Workspace} (hw : w.Tidy) {u v : Term} (hu : w.Clean u) (hv : w.Clean v) :
      Leads (Grows True) w (onStore (Store.eq u v)) fun t w' => w'.Clean t ∧ w'.store.Has t .bool :=
    (grows_build hw (Store.builders_built.eq u v) (Store.eq_avoiding (hasConstants hw) hu hv)
      (Store.eq_builds hw.ok.store u v)).mono fun t w' _ h => ⟨h.2.1, h.2.2.2.has⟩
  refine grows_bind hw (heq hw hx hz) fun eqX w₁ hw₁ hr₁ ⟨hcX, hX⟩ => ?_
  refine grows_bind hw₁ (heq hw₁ (hr₁.clean hy) (hr₁.clean hz)) fun eqY w₂ hw₂ hr₂ ⟨hcY, _⟩ => ?_
  have hite : Leads (Grows True) w₂ (onStore (Store.ite cond eqX eqY)) _ :=
    grows_build hw₂ (Store.builders_built.ite cond eqX eqY)
      (Store.ite_avoiding (hasConstants hw₂) (hr₂.clean (hr₁.clean hcond)) (hr₂.clean hcX) hcY)
      (Store.ite_builds hw₂.ok.store cond eqX eqY)
  refine grows_bind hw₂ hite fun t w₃ hw₃ _ ⟨_, hct, ty, ha, _, _, hden⟩ => ?_
  exact he.lit hw₃ (ha.unique (hr₂.has hX) ▸ hden.has) hct

theorem grows_equality (hw : w.Tidy) (hp : ∃ ty, w.store.Has p ty)
    (hshape : w.store.shape p = .eq x y)
    (hx : w.store.Has x ty) (hy : w.store.Has y ty) (hclean : w.Clean p) :
    Leads (Grows True) w (e.equality p x y) Knows := by
  have hcx : w.Clean x := hclean.part (by simp [hshape, Term.Shape.children])
  have hcy : w.Clean y := hclean.part (by simp [hshape, Term.Shape.children])
  refine grows_look_bind ?_
  split
  · refine grows_bind hw (he.word hw ⟨ty, hx⟩ hcx) fun xs w₁ hw₁ hr₁ hxs => ?_
    refine grows_bind hw₁ (he.word hw₁ ⟨ty, hr₁.has hy⟩ (hr₁.clean hcy)) fun ys w₂ hw₂ hr₂ hys => ?_
    exact grows_equalGate hw₂ (hr₂.overLive hxs) hys
  · refine grows_look_bind ?_
    split
    · exact grows_throw hw _
    · refine grows_look_bind (grows_look_bind ?_)
      split
      next hite =>
        exact grows_lifted he hw (hcx.part (by simp [hite, Term.Shape.children]))
          (hcx.part (by simp [hite, Term.Shape.children]))
            (hcx.part (by simp [hite, Term.Shape.children])) hcy
      next hite _ =>
        exact grows_lifted he hw (hcy.part (by simp [hite, Term.Shape.children]))
          (hcy.part
            (by simp [hite, Term.Shape.children]))
              (hcy.part (by simp [hite, Term.Shape.children])) hcx
      · exact grows_addEq hw hp hshape hx hy hclean

/-- Encoding a clean formula answers a literal of a live variable. -/
theorem grows_boolean (hw : w.Tidy) (hp : w.store.Has p .bool) (hclean : w.Clean p) :
    Leads (Grows True) w (e.boolean p) Knows := by
  refine grows_look_bind ?_
  have htyped := hw.ok.store.typed hp.node
  have hparts : ∀ q ∈ (w.store.shape p).children, w.Clean q := fun q hq => hclean.part hq
  have hatom {w' : Workspace} (hplain : ¬ w.store.IsAtomic p) (hw' : w'.Tidy)
    (hr : Grows True w w') :
      Leads (Grows True) w' (atom p) Knows :=
    (grows_atom hw' ⟨.bool, hr.has hp⟩ (hr.clean hclean)
      fun hatomic => hplain ((isAtomic_iff_of_later hr.keeps.store
        ⟨.bool, hp⟩).mp hatomic)).mono fun l w'' _ hl => ⟨p, hl⟩
  unfold Store.IsAtomic at hatom
  generalize hshape : w.store.shape p = shape at htyped hparts hatom ⊢
  -- each shape asks for the literals of its parts, and then defines its own by the clauses of a
  -- gate
  cases shape with
  | truth => exact grows_trueLit hw
  | uninterpreted => exact hatom (by simp) hw (grows_frame.refl hw)
  | app f args => exact grows_addPred hw hshape hp hclean
  | eq x y =>
    obtain ⟨-, ty, -, hx, hy⟩ := htyped
    exact grows_equality he hw ⟨.bool, hp⟩ hshape hx hy hclean
  | or args =>
    have hlits : Leads (Grows True) w (args.mapM e.lit) KnowsAll :=
      Leads.mapM grows_frame hw (fun hr h => hr.live h) fun x hx w' hw' hr =>
        he.lit hw' (hr.has (htyped.2 x hx)) (hr.clean (hparts x hx))
    exact grows_bind hw hlits fun lits w₁ hw₁ hr₁ hlits =>
      grows_define hw₁ (hatom (by simp) hw₁ hr₁) hlits over_orClauses
  | xor x y =>
    refine grows_bind hw (he.lit hw htyped.2.1 (hparts x (by simp [Term.Shape.children])))
      fun l w₁ hw₁ hr₁ hl => ?_
    refine grows_bind hw₁ (he.lit hw₁ (hr₁.has htyped.2.2)
      (hr₁.clean (hparts y (by simp [Term.Shape.children]))))
      fun k w₂ hw₂ hr₂ hk => ?_
    exact grows_define hw₂ (hatom (by simp) hw₂ (grows_frame.trans hr₁ hr₂))
      (knowsAll_pair (hr₂.live hl) hk) over_xorClauses
  | ite cond x y =>
    refine grows_bind hw (he.lit hw htyped.1 (hparts cond (by simp [Term.Shape.children])))
      fun j w₁ hw₁ hr₁ hj => ?_
    refine grows_bind hw₁ (he.lit hw₁ (hr₁.has htyped.2.1)
      (hr₁.clean (hparts x (by simp [Term.Shape.children]))))
      fun k w₂ hw₂ hr₂ hk => ?_
    have hr := grows_frame.trans hr₁ hr₂
    refine grows_bind hw₂ (he.lit hw₂ (hr.has htyped.2.2)
      (hr.clean (hparts y (by simp [Term.Shape.children]))))
      fun l w₃ hw₃ hr₃ hl => ?_
    exact grows_define hw₃ (hatom (by simp) hw₃ (grows_frame.trans hr hr₃))
      (knowsAll_three (hr₃.live (hr₂.live hj)) (hr₃.live hk) hl) over_iteClauses
  | bit x i =>
    obtain ⟨-, width, ⟨ty, hx, -⟩, -⟩ := htyped
    refine grows_bind hw (he.word hw ⟨ty, hx⟩ (hparts x (by simp [Term.Shape.children])))
      fun bits w₁ hw₁ _ hbits => ?_
    refine grows_bind hw₁ (grows_trueLit hw₁) fun l w₂ hw₂ hr₂ hl => grows_pure hw₂ ?_
    rw [List.getD_eq_getElem?_getD]
    cases hbit : bits[i]? with
    | none => exact hl
    | some k => exact hr₂.live (hbits k (List.mem_of_getElem? hbit))
  | bvGe x y =>
    obtain ⟨-, width, ⟨tx, hx, -⟩, ty, hy, -⟩ := htyped
    refine grows_bind hw (he.word hw ⟨tx, hx⟩ (hparts x (by simp [Term.Shape.children])))
      fun xs w₁ hw₁ hr₁ hxs => ?_
    refine grows_bind hw₁ (he.word hw₁ ⟨ty, hr₁.has hy⟩
      (hr₁.clean (hparts y (by simp [Term.Shape.children]))))
      fun ys w₂ hw₂ hr₂ hys => ?_
    exact grows_geGate hw₂ (hr₂.overLive hxs) hys
  | bvSge x y =>
    obtain ⟨-, width, ⟨tx, hx, -⟩, ty, hy, -⟩ := htyped
    refine grows_bind hw (he.word hw ⟨tx, hx⟩ (hparts x (by simp [Term.Shape.children])))
      fun xs w₁ hw₁ hr₁ hxs => ?_
    refine grows_bind hw₁ (he.word hw₁ ⟨ty, hr₁.has hy⟩
      (hr₁.clean (hparts y (by simp [Term.Shape.children]))))
      fun ys w₂ hw₂ hr₂ hys => ?_
    exact grows_geGate hw₂ (KnowsAll.flipSign (hr₂.overLive hxs)) (KnowsAll.flipSign hys)
  | var | all | bvConst | bvNeg | bvSum | bvProduct => exact grows_throw hw _

theorem grows_foldWords (hw : w.Tidy) {op : List Literal → List Literal → Work (List Literal)}
    (hop : ∀ {w' x y}, w'.Tidy → Grows True w w' → KnowsAll x w' → KnowsAll y w' →
      Leads (Grows True) w' (op x y) KnowsAll)
    {ts : List Term} (hts : ∀ t ∈ ts, (∃ ty, w.store.Has t ty) ∧ w.Clean t) :
    Leads (Grows True) w (e.foldWords op ts) KnowsAll := by
  cases ts with
  | nil => exact grows_pure hw (knowsAll_nil w)
  | cons t ts =>
    obtain ⟨⟨ht, hct⟩, hts⟩ := List.forall_mem_cons.mp hts
    refine grows_bind hw (he.word hw ht hct) fun first w₁ hw₁ hr₁ hfirst => ?_
    refine Leads.foldlM grows_frame hw₁ hfirst fun acc t ht w₂ hw₂ hr₂ hacc => ?_
    have hr := grows_frame.trans hr₁ hr₂
    obtain ⟨⟨ty, hty⟩, hct⟩ := hts t ht
    refine grows_bind hw₂ (he.word hw₂ ⟨ty, hr.has hty⟩ (hr.clean hct)) fun y w₃ hw₃ hr₃ hy => ?_
    exact hop hw₃ (grows_frame.trans hr hr₃) (hr₃.overLive hacc) hy

/-- Encoding a clean word answers literals of live variables, one per bit. -/
theorem grows_bitvector (hw : w.Tidy) (ht : ∃ ty, w.store.Has t ty) (hclean : w.Clean t) :
    Leads (Grows True) w (e.bitvector t) KnowsAll := by
  refine grows_look_bind ?_
  split
  · exact grows_throw hw _
  next width =>
    refine grows_look_bind ?_
    obtain ⟨ty, hty⟩ := ht
    have htyped := hw.ok.store.typed hty.node
    have hparts : ∀ q ∈ (w.store.shape t).children, w.Clean q := fun q hq => hclean.part hq
    generalize hshape : w.store.shape t = shape at htyped hparts
    cases shape with
    | bvConst _ value =>
      refine grows_bind hw (grows_trueLit hw) fun one w₁ hw₁ _ hone => grows_pure hw₁ fun l hl => ?_
      obtain ⟨b, -, rfl⟩ := List.mem_map.mp hl
      exact Knows.negIf hone _
    | uninterpreted =>
      refine Leads.mapM grows_frame hw (fun hr h => hr.live h) fun i _ w₁ hw₁ hr₁ => ?_
      have hbit : Leads (Grows True) w₁ (onStore (Store.bit t i)) _ :=
        grows_build hw₁ (Store.builders_built.bit t i)
        (Store.bit_avoiding (hasConstants hw₁) (hr₁.clean hclean) i)
          (Store.bit_builds hw₁.ok.store t i)
      have hconst : w₁.store.constValue? t = none := by
        simp [Store.constValue?, (Interp.shape_of_has hr₁.keeps.store.ext hty).trans hshape]
      refine grows_bind hw₁ hbit fun b w₂ hw₂ _ ⟨_, hcb, _, hnode, hden⟩ => ?_
      have hplain : ¬ w₂.store.IsAtomic b := by
        simp [Store.IsAtomic, Store.shape, Store.shape?, (hnode hconst).2]
      exact (grows_atom hw₂ ⟨_, hden.has⟩ hcb hplain).mono fun l w' _ hl => ⟨b, hl⟩
    | ite cond x y =>
      refine grows_bind hw (he.lit hw htyped.1 (hparts cond (by simp [Term.Shape.children])))
        fun j w₁ hw₁ hr₁ hj => ?_
      refine grows_bind hw₁ (he.word hw₁ ⟨ty, hr₁.has htyped.2.1⟩
        (hr₁.clean (hparts x (by simp [Term.Shape.children]))))
        fun xs w₂ hw₂ hr₂ hxs => ?_
      have hr := grows_frame.trans hr₁ hr₂
      refine grows_bind hw₂ (he.word hw₂ ⟨ty, hr.has htyped.2.2⟩
        (hr.clean (hparts y (by simp [Term.Shape.children]))))
        fun ys w₃ hw₃ hr₃ hys => ?_
      refine Leads.mapM grows_frame hw₃ (fun hr h => hr.live h) fun z hz w₄ hw₄ hr₄ => ?_
      obtain ⟨hx, hy⟩ := knows_of_mem_zip (hr₃.overLive hxs) hys hz
      exact grows_iteGate hw₄ (hr₄.live (hr₃.live (hr₂.live hj))) (hr₄.live hx) (hr₄.live hy)
    | bvNeg x =>
      obtain ⟨hx, -⟩ := htyped
      exact grows_bind hw (he.word hw ⟨ty, hx⟩ (hparts x (by simp [Term.Shape.children])))
          fun xs w₁ hw₁ _ hxs =>
        grows_negater hw₁ hxs
    | bvSum args =>
      obtain ⟨-, hall, -⟩ := htyped
      refine grows_bind hw (grows_falseLit hw) fun zero w₁ hw₁ hr₁ hzero => ?_
      exact grows_foldWords he hw₁ (fun hw' hr hx hy => grows_adder hw' hx hy (hr.live hzero))
          fun x hx =>
        ⟨⟨ty, hr₁.has (hall x hx)⟩, hr₁.clean (hparts x hx)⟩
    | bvProduct args =>
      obtain ⟨-, hall, -⟩ := htyped
      exact grows_foldWords he hw (fun hw' _ => grows_multiplier hw') fun x hx =>
        ⟨⟨ty, hall x hx⟩, hparts x hx⟩
    | _ => exact grows_throw hw _

end

/-! ## What is remembered -/

section

variable {t : Term} (hw : w.Tidy)

include hw

/-- A formula met before answers the literal it was given then, which is still live. -/
theorem grows_cachedLit {encode : Term → Work Literal}
    (h : w.store.Has t.positive .bool → w.Clean t.positive →
      Leads (Grows True) w (encode t.positive) Knows)
    (ht : w.store.Has t .bool) (hclean : w.Clean t) :
    Leads (Grows True) w (Encoder.cachedLit encode t) Knows := by
  refine grows_look_bind ?_
  cases hlit : w.ctx.lits[t.positive]? with
  | some l => exact grows_pure hw (Knows.negIf (hw.refers.lits hlit) _)
  | none =>
    refine grows_bind hw (h ht.positive hclean.positive) fun l w₁ hw₁ hr₁ hl => ?_
    -- the term had no literal as of any open mark when its encoding began
    have hnew {m : Mark} (hm : m.Open w₁.ctx) : (w₁.ctx.upTo m).lits t.positive = none := by
      have hopen := hm.of_scopes hr₁.keeps.scopes.symm hr₁.keeps.nodes.symm hr₁.keeps.tables.symm
      rw [hr₁.keeps.upTo hopen]
      simp [Context.upTo, Entail.upTo, hlit]
    have hstep := typedStep_cacheLit hw₁.since hnew (fun _ => ⟨.bool, hr₁.has ht.positive⟩) l
    have hgrows : Grows True w₁ _ := hw₁.grows hstep
      { hw₁.refers with
        lits := fun {p k} hp => by
          rw [Std.HashMap.getElem?_insert] at hp
          split at hp
          · cases hp
            exact hl
          · exact hw₁.refers.lits hp }
      { hw₁.gone with } rfl id (fun _ => rfl) (.of_same (fun _ => rfl) rfl rfl)
    exact ⟨hgrows, Knows.negIf (hgrows.live hl) _⟩

theorem grows_cachedWord {encode : Term → Work (List Literal)}
    (h : Leads (Grows True) w (encode t) KnowsAll)
    (hwidth : ∀ {bits w'}, encode t w = .ok bits w' → ∃ width, w.store.width? t = some width)
    (ht : ∃ ty, w.store.Has t ty) (hclean : w.Clean t) :
    Leads (Grows True) w (Encoder.cachedWord encode t) KnowsAll := by
  refine grows_look_bind ?_
  cases hbits : w.ctx.bits[t]? with
  | some bits => exact grows_pure hw (hw.refers.bits hbits)
  | none =>
    refine grows_bind hw h.answered fun bits w₁ hw₁ hr₁ ⟨hop, hknown⟩ => ?_
    have hnew {m : Mark} (hm : m.Open w₁.ctx) : (w₁.ctx.upTo m).bits t = none := by
      have hopen := hm.of_scopes hr₁.keeps.scopes.symm hr₁.keeps.nodes.symm hr₁.keeps.tables.symm
      rw [hr₁.keeps.upTo hopen]
      simp [Context.upTo, Entail.upTo, hbits]
    have hword : ∃ ty width, w₁.store.Has t ty ∧
        w₁.store.tyShape? ty = some (.bitVector width) := by
      obtain ⟨ty, hty⟩ := ht
      obtain ⟨width, hwidth⟩ := hwidth hop
      rw [Store.width?, hty.ty_eq, Store.tyWidth?_eq_some] at hwidth
      exact ⟨ty, width, hr₁.has hty, hr₁.keeps.store.ext.ty hwidth⟩
    have hstep := typedStep_cacheWord hw₁.since hnew (fun _ => hword) bits
    have hgone : Eliminates w₁.store { w₁.ctx with
        bits := w₁.ctx.bits.insert t bits, cacheLog := w₁.ctx.cacheLog.push (.word t) } := by
      refine hw₁.gone.of_ctx id (fun {u} hu => ?_) fun q hq => .inl hq
      rcases hu with hv | ⟨word, hword⟩ | hn
      · exact .inl (.inl hv)
      · rw [Std.HashMap.getElem?_insert] at hword
        split at hword
        next heq => exact .inr (eq_of_beq heq ▸ hr₁.clean hclean)
        next => exact .inl (.inr (.inl ⟨word, hword⟩))
      · exact .inl (.inr (.inr hn))
    have hgrows : Grows True w₁ _ := hw₁.grows hstep
      { hw₁.refers with
        bits := fun {u word} hu => by
          rw [Std.HashMap.getElem?_insert] at hu
          split at hu
          · cases hu
            exact hknown
          · exact hw₁.refers.bits hu }
      hgone rfl id (fun _ => rfl) (.of_same (fun _ => rfl) rfl rfl)
    exact ⟨hgrows, hgrows.overLive hknown⟩

end

/-- By induction on the depth to which terms are nested. -/
theorem tidies_nested (depth : Nat) : Tidies (Encoder.nested depth) := by
  induction depth with
  | zero => exact ⟨fun hw _ _ => grows_throw hw _, fun hw _ _ => grows_throw hw _⟩
  | succ depth ih =>
    exact ⟨fun hw ht hclean => grows_cachedLit hw
      (fun hp hcp => grows_boolean ih hw hp hcp) ht hclean,
      fun hw ht hclean => grows_cachedWord hw (grows_bitvector ih hw ht hclean)
        width_of_bitvector ht hclean⟩

/-- A formula without eliminated constants gets a literal of a variable that stands for a term. -/
theorem grows_literalOf (hw : w.Tidy) {t : Term} (ht : w.store.Has t .bool) (hclean : w.Clean t) :
    Leads (Grows True) w (literalOf t) Knows := grows_look_bind ((tidies_nested _).lit hw ht hclean)

end Entail.Work
