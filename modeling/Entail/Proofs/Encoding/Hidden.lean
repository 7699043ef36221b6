import Entail.Proofs.Encoding.Warrants

/-!
# Outputs of gates stay hidden

An output of a gate is a new constant, and its gate ties it to literals, not to terms. So when a
term is encoded in which no output occurs, outputs occur in none of the terms that are built on the
way, and in no node.
-/

namespace Entail

open Context

namespace Workspace

variable {w w' w'' : Workspace} {t u c : Term}

/-- What encoding relies on: outputs of gates are constants of a well-formed store. -/
structure Masks (w : Workspace) : Prop where
  store : w.store.Wf
  nodes : w.ctx.registry.egraph.Indexed
  const : ∀ {p}, w.ctx.now.aux p → ∃ n, w.store.node? p = some (.uninterpreted .bool n, .bool)

/-- No output of a gate occurs in the term, which is closed and applies constants only. -/
abbrev Ungated (w : Workspace) (t : Term) : Prop := w.store.Plain w.ctx.now.aux t

/-- New outputs are new constants, and no output occurs in a new node. -/
structure Veils (w w' : Workspace) : Prop where
  store : Store.Later w.store w'.store
  indexed : w'.ctx.registry.egraph.Indexed
  subst : w'.ctx.subst = w.ctx.subst
  constraints : w'.ctx.solver.constraints = w.ctx.solver.constraints
  aux : ∀ {p}, w'.ctx.now.aux p → w.ctx.now.aux p ∨
    w.store.node? p = none ∧ ∃ n, w'.store.node? p = some (.uninterpreted .bool n, .bool)
  nodes : ∀ n ∈ w'.ctx.registry.egraph.nodes, n ∈ w.ctx.registry.egraph.nodes ∨ w'.Ungated n.term

namespace Veils

theorem dead (h : Veils w w') {p : Term} (hp : w'.ctx.now.aux p) :
    w.ctx.now.aux p ∨ w.store.node? p = none :=
  (h.aux hp).imp_right And.left

theorem ungated (h : Veils w w') (hw : w.store.Wf) (ht : w.Ungated t) : w'.Ungated t :=
  ht.later hw h.store h.dead

theorem masks (h : Veils w w') (hw : w.Masks) : w'.Masks where
  store := h.store.wf
  nodes := h.indexed
  const hp := (h.aux hp).elim (fun hp => (hw.const hp).imp fun _ => h.store.ext.node) And.right

end Veils

theorem veils_frame : Frame Masks Veils where
  refl h := ⟨Store.later_frame.refl h.store, h.nodes, rfl, rfl, .inl, fun _ => .inl⟩
  trans {w w₁ w₂} h h' := by
    refine ⟨Store.later_frame.trans h.store h'.store, h'.indexed, h'.subst.trans h.subst,
      h'.constraints.trans h.constraints, fun {p} hp => ?_, fun n hn => ?_⟩
    · rcases h'.aux hp with hp | ⟨hdead, hp⟩
      · exact (h.aux hp).imp_right fun ⟨hdead, hp⟩ => ⟨hdead, hp.imp fun _ => h'.store.ext.node⟩
      · refine .inr ⟨?_, hp⟩
        cases hn : w.store.node? p with
        | none => rfl
        | some n => exact absurd (hdead.symm.trans (h.store.ext.node hn)) nofun
    · rcases h'.nodes n hn with hn | hn
      · exact (h.nodes n hn).imp_right (h'.ungated h.store.wf)
      · exact .inr hn
  stable hw h := h.masks hw

theorem Masks.constants (h : w.Masks) : w.store.HasConstants w.ctx.now.aux :=
  h.store.hasConstants fun x hx => by
  obtain ⟨n, hn⟩ := h.const hx
  rw [Store.shape_of_node hn]
  rfl

/-- A change of the context that brings in no outputs and no nodes. -/
theorem Masks.veils (h : w.Masks) {ctx : Context} (hsubst : ctx.subst = w.ctx.subst)
    (hconstraints : ctx.solver.constraints = w.ctx.solver.constraints) (haux : ctx.aux = w.ctx.aux)
    (hegraph : ctx.registry.egraph = w.ctx.registry.egraph) : Veils w ⟨w.store, ctx⟩ where
  store := Store.later_frame.refl h.store
  indexed := hegraph ▸ h.nodes
  subst := hsubst
  constraints := hconstraints
  aux {p} hp := .inl (show p ∈ w.ctx.aux from haux ▸ hp)
  nodes _ hn := .inl (hegraph ▸ hn)

end Workspace

namespace Work

open Workspace

variable {α β : Type} {w : Workspace} {t p x y z cond : Term} {ty : Ty}

/-- Whatever the operation does, outputs stay hidden. -/
abbrev Hushed (w : Workspace) (op : Work α) : Prop := Leads Veils w op fun _ _ => True

theorem leads_look_bind {R : Workspace → Workspace → Prop} {f : Store → Context → β}
    {g : β → Work α} {Q : α → Workspace → Prop} (h : Leads R w (g (f w.store w.ctx)) Q) :
    Leads R w (look f >>= g) Q := h

theorem hushed_of_moves {op : Work α} (hw : w.Masks) (h : Moves Masks Veils op) : Hushed w op :=
  Leads.of_moves_any (h w hw)

section

variable (hw : w.Masks)

include hw

theorem hushed_bind {x : Work β} {f : β → Work α} {Q : β → Workspace → Prop} (h : Leads Veils w x Q)
    (hf : ∀ b w', w'.Masks → Veils w w' → Q b w' → Hushed w' (f b)) : Hushed w (x >>= f) :=
  Leads.bind veils_frame hw h hf

theorem hushed_pure (x : α) : Hushed w (pure x : Work α) := Leads.pure veils_frame hw trivial

theorem hushed_throw (e : Failure) : Hushed w (throw e : Work α) := Leads.throw veils_frame hw e

theorem hushed_mapM {as : List β} {f : β → Work α}
    (hf : ∀ a ∈ as, ∀ w', w'.Masks → Veils w w' → Hushed w' (f a)) :
    Hushed w (as.mapM f) :=
  (Leads.mapM (T := fun _ _ => True) veils_frame hw (fun _ => id) hf).mono fun _ _ _ _ => trivial

/-- Terms are built in the store. -/
theorem hushed_onStore {op : Store.Op α} {Q : α → Store → Prop} (hQ : Store.Builds w.store op Q) :
    Leads Veils w (onStore op) fun a w' => w'.ctx = w.ctx ∧ Q a w'.store := by
  have hveils {s : Store} (hs : Store.Later w.store s) : Veils w ⟨s, w.ctx⟩ :=
    ⟨hs, hw.nodes, rfl, rfl, .inl, fun _ => .inl⟩
  have hmoves := Leads.moves hQ
  unfold Leads Ends
  cases hop : op w.store with
  | ok a s =>
    obtain ⟨hs, ha⟩ := hQ.of_ok hop
    rw [onStore_of_ok hop]
    exact ⟨hveils hs, rfl, ha⟩
  | error e s =>
    rw [hop] at hmoves
    rw [onStore_of_error hop]
    exact hveils hmoves

/-- A term is put together from others. -/
theorem hushed_build {op : Store.Op Term} {Q : Term → Store → Prop}
    (hop : Moves Store.Wf Store.Built op)
    (havoids : Store.Avoiding w.ctx.now.aux w.store op) (hQ : Store.Builds w.store op Q)
    (hfirst : ∀ {t s}, Store.Later w.store s → Q t s → s.FirstOrder [] t) :
    Leads Veils w (onStore op) fun t w' => w'.Ungated t ∧ Q t w'.store := by
  have hlater : Moves Store.Wf Store.Later op := hop.mono fun _ _ _ h => h.later
  refine (hushed_onStore hw (Leads.and (havoids.builds hw.store hlater) hQ)).mono
    fun t w' h ⟨hctx, ht, hq⟩ => ⟨⟨?_, ?_⟩, hq⟩
  · rw [hctx]
    exact ht
  · exact hfirst h.store hq

end

/-! ## Gates -/

theorem veils_clause (lits : List Literal) : Moves Masks Veils (clause lits) :=
  fun _ hw => hw.veils rfl rfl rfl rfl

theorem veils_clauses (cs : List (List Literal)) : Moves Masks Veils (clauses cs) :=
  veils_frame.forM cs fun lits _ => veils_clause lits

theorem veils_atom (t : Term) : Moves Masks Veils (atom t) := fun _ hw => hw.veils rfl rfl rfl rfl

/-- A new constant is an output from then on. -/
theorem veils_freshLit : Moves Masks Veils freshLit := fun w hw => by
  cases hnew : Store.newConst .bool w.store with
  | error e s =>
    have hmoves := Store.newConst_moves .bool w.store hw.store
    rw [hnew] at hmoves
    rw [show freshLit w = .error (.term e) ⟨s, w.ctx⟩ from bind_of_error (onStore_of_error hnew)]
    exact ⟨hmoves, hw.nodes, rfl, rfl, .inl, fun _ => .inl⟩
  | ok t s =>
    obtain ⟨hlater, hdead, -, hnode, -⟩ := (Store.newConst_builds hw.store .bool).of_ok hnew
    have hrun : endState (freshLit w) =
        ⟨s, (Context.atom t { w.ctx with aux := w.ctx.aux.insert t }).2⟩ := by
      rw [show freshLit w = _ from bind_of_ok (onStore_of_ok hnew)]
      rfl
    rw [hrun]
    refine ⟨hlater, hw.nodes, rfl, rfl, fun {p} hp => ?_, fun _ => .inl⟩
    rcases Std.HashSet.mem_insert.mp (show p ∈ w.ctx.aux.insert t from hp) with heq | hp
    · obtain rfl := eq_of_beq heq
      exact .inr ⟨hdead, _, hnode⟩
    · exact .inl hp

theorem veils_define (cs : Literal → List (List Literal)) :
    Moves Masks Veils (do let out ← freshLit; clauses (cs out); return out) :=
  veils_frame.bind veils_freshLit fun out => veils_frame.bind (veils_clauses (cs out)) fun _ =>
    veils_frame.pure out

/-- The output of a gate is the variable of a term. -/
theorem veils_gate (p : Term) (cs : Literal → List (List Literal)) :
    Moves Masks Veils (do let out ← atom p; clauses (cs out); return out) :=
  veils_frame.bind (veils_atom p) fun out => veils_frame.bind (veils_clauses (cs out)) fun _ =>
    veils_frame.pure out

/-! ## Terms -/

/-- A formula gets its variable, and what it is about gets nodes. -/
theorem hushed_enter (hw : w.Masks) {op : Literal → Store → StateM Egraph Unit}
    (hindexed : ∀ l, (op l w.store w.ctx.registry.egraph).2.Indexed)
    (hnodes : ∀ l, ∀ n ∈ (op l w.store w.ctx.registry.egraph).2.nodes,
      n ∈ w.ctx.registry.egraph.nodes ∨ w.Ungated n.term) :
    Hushed w (do let l ← atom p; onEgraph (op l); return l) :=
  ⟨⟨Store.later_frame.refl hw.store, hindexed _, rfl, rfl, .inl, hnodes _⟩, trivial⟩

/-- Encoding a term in which no output occurs keeps outputs hidden. -/
structure Hushing (e : Encoder) : Prop where
  lit : ∀ {w t}, w.Masks → w.store.Has t .bool → w.Ungated t → Hushed w (e.lit t)
  word : ∀ {w t}, w.Masks → (∃ ty, w.store.Has t ty) → w.Ungated t → Hushed w (e.word t)

section

variable {e : Encoder} (he : Hushing e)

include he

theorem hushed_lifted (hw : w.Masks) (hcond : w.Ungated cond) (hx : w.Ungated x) (hy : w.Ungated y)
    (hz : w.Ungated z) :
    Hushed w (e.lifted cond x y z) := by
  have heq {w : Workspace} (hw : w.Masks) {u v : Term} (hu : w.Ungated u) (hv : w.Ungated v) :
      Leads Veils w (onStore (Store.eq u v)) fun t w' => w'.Ungated t ∧ w'.store.Has t .bool :=
    (hushed_build hw (Store.builders_built.eq u v)
      (Store.eq_avoiding hw.constants hu.avoids hv.avoids)
      (Store.eq_builds hw.store u v) fun hs h =>
        h.2.closed [] (Store.forall_mem_pair (hu.first.extends_ hw.store hs.ext)
        (hv.first.extends_ hw.store hs.ext))).mono fun t w' _ h => ⟨h.1, h.2.2.has⟩
  refine hushed_bind hw (heq hw hx hz) fun eqX w₁ hw₁ h₁ ⟨hfreeX, hX⟩ => ?_
  refine hushed_bind hw₁ (heq hw₁ (h₁.ungated hw.store hy) (h₁.ungated hw.store hz))
    fun eqY w₂ hw₂ h₂ ⟨hfreeY, _⟩ => ?_
  have hfreeC := h₂.ungated hw₁.store (h₁.ungated hw.store hcond)
  have hfreeX := h₂.ungated hw₁.store hfreeX
  have hall {s : Store} (hs : Store.Later w₂.store s) : ∀ a ∈ [cond, eqX, eqY],
      s.FirstOrder [] a := by
    simp [hfreeC.first.extends_ hw₂.store hs.ext, hfreeX.first.extends_ hw₂.store hs.ext,
      hfreeY.first.extends_ hw₂.store hs.ext]
  refine hushed_bind hw₂ (hushed_build hw₂ (Store.builders_built.ite cond eqX eqY)
    (Store.ite_avoiding hw₂.constants hfreeC.avoids hfreeX.avoids hfreeY.avoids)
    (Store.ite_builds hw₂.store cond eqX eqY) fun hs ⟨_, _, _, _, hden⟩ => hden.closed [] (hall hs))
    fun t w₃ hw₃ h₃ ⟨hfree, ty, ha, _, _, hden⟩ => ?_
  exact he.lit hw₃ (ha.unique (h₂.store.ext.has hX) ▸ hden.has) hfree

theorem hushed_equality (hw : w.Masks) (hshape : w.store.shape p = .eq x y) (hx : w.store.Has x ty)
    (hy : w.store.Has y ty) (hfree : w.Ungated p) : Hushed w (e.equality p x y) := by
  have hfx : w.Ungated x := hfree.parts hshape rfl x (by simp [Term.Shape.children])
  have hfy : w.Ungated y := hfree.parts hshape rfl y (by simp [Term.Shape.children])
  refine leads_look_bind ?_
  split
  · refine hushed_bind hw (he.word hw ⟨ty, hx⟩ hfx) fun xs w₁ hw₁ h₁ _ => ?_
    refine hushed_bind hw₁ (he.word hw₁ ⟨ty, h₁.store.ext.has hy⟩ (h₁.ungated hw.store hfy))
      fun ys w₂ hw₂ _ _ => ?_
    exact hushed_of_moves hw₂ (moves_equalGate veils_frame veils_define xs ys)
  · refine leads_look_bind ?_
    split
    · exact hushed_throw hw _
    · refine leads_look_bind (leads_look_bind ?_)
      split
      next hite =>
        have hparts := hfx.parts hite rfl
        simp only [Term.Shape.children, List.forall_mem_cons] at hparts
        exact hushed_lifted he hw hparts.1 hparts.2.1 hparts.2.2.1 hfy
      next hite _ =>
        have hparts := hfy.parts hite rfl
        simp only [Term.Shape.children, List.forall_mem_cons] at hparts
        exact hushed_lifted he hw hparts.1 hparts.2.1 hparts.2.2.1 hfx
      · exact hushed_enter hw (fun l => (Egraph.addEq_enters hw.store hw.nodes l.var x y).indexed)
            fun l n hn =>
          Egraph.mem_nodes_addEq (fun h => h.arg) l.var hfx hfy hn

theorem hushed_boolean (hw : w.Masks) (hp : w.store.Has p .bool) (hfree : w.Ungated p) :
    Hushed w (e.boolean p) := by
  refine leads_look_bind ?_
  have htyped := hw.store.typed hp.node
  have hrefl := veils_frame.refl hw
  generalize hshape : w.store.shape p = shape at htyped ⊢
  have hlit {q : Term} {w' : Workspace} (hw' : w'.Masks) (h : Veils w w') (hq : w.store.Has q .bool)
      (hchild : q ∈ shape.children) (hplain : shape.isQuantifier = false) : Hushed w' (e.lit q) :=
    he.lit hw' (h.store.ext.has hq) (h.ungated hw.store (hfree.parts hshape hplain q hchild))
  have hword {q : Term} {w' : Workspace} (hw' : w'.Masks) (h : Veils w w') {ty : Ty}
    (hq : w.store.Has q ty)
      (hchild : q ∈ shape.children) (hplain : shape.isQuantifier = false) : Hushed w' (e.word q) :=
    he.word hw' ⟨ty, h.store.ext.has hq⟩ (h.ungated hw.store (hfree.parts hshape hplain q hchild))
  cases shape with
  | truth => exact ⟨hrefl, trivial⟩
  | uninterpreted => exact hushed_of_moves hw (veils_atom p)
  | app f args =>
    exact hushed_enter hw (fun l => (Egraph.addPred_enters hw.store hw.nodes l.var p).indexed)
        fun l n hn =>
      Egraph.mem_nodes_addPred (fun h => h.arg) l.var hfree hn
  | eq x y =>
    obtain ⟨-, ty, -, hx, hy⟩ := htyped
    exact hushed_equality he hw hshape hx hy hfree
  | or args =>
    refine hushed_bind hw (hushed_mapM hw fun a ha w' hw' h => hlit hw' h (htyped.2 a ha) ha rfl)
      fun lits w₁ hw₁ _ _ => ?_
    exact hushed_of_moves hw₁ (veils_gate p (orClauses · lits))
  | xor x y =>
    refine hushed_bind hw (hlit hw hrefl htyped.2.1 (by simp [Term.Shape.children]) rfl)
      fun k w₁ hw₁ h₁ _ => ?_
    refine hushed_bind hw₁ (hlit hw₁ h₁ htyped.2.2 (by simp [Term.Shape.children]) rfl)
      fun l w₂ hw₂ _ _ => ?_
    exact hushed_of_moves hw₂ (veils_gate p (xorClauses · k l))
  | ite cond x y =>
    refine hushed_bind hw (hlit hw hrefl htyped.1 (by simp [Term.Shape.children]) rfl)
      fun j w₁ hw₁ h₁ _ => ?_
    refine hushed_bind hw₁ (hlit hw₁ h₁ htyped.2.1 (by simp [Term.Shape.children]) rfl)
      fun k w₂ hw₂ h₂ _ => ?_
    have h := veils_frame.trans h₁ h₂
    refine hushed_bind hw₂ (hlit hw₂ h htyped.2.2 (by simp [Term.Shape.children]) rfl)
      fun l w₃ hw₃ _ _ => ?_
    exact hushed_of_moves hw₃ (veils_gate p (iteClauses · j k l))
  | bit x i =>
    obtain ⟨-, width, ⟨ty, hx, -⟩, -⟩ := htyped
    refine hushed_bind hw (hword hw hrefl hx (by simp [Term.Shape.children]) rfl)
      fun bits w₁ hw₁ _ _ => ?_
    exact leads_look_bind (hushed_pure hw₁ _)
  | bvGe x y | bvSge x y =>
    obtain ⟨-, width, ⟨tx, hx, -⟩, ty, hy, -⟩ := htyped
    refine hushed_bind hw (hword hw hrefl hx (by simp [Term.Shape.children]) rfl)
      fun xs w₁ hw₁ h₁ _ => ?_
    refine hushed_bind hw₁ (hword hw₁ h₁ hy (by simp [Term.Shape.children]) rfl)
      fun ys w₂ hw₂ _ _ => ?_
    exact hushed_of_moves hw₂ (moves_geGate veils_frame veils_define _ _)
  | var | all | bvConst | bvNeg | bvSum | bvProduct => exact hushed_throw hw _

theorem hushed_foldWords (hw : w.Masks) {op : List Literal → List Literal → Work (List Literal)}
    (hop : ∀ x y, Moves Masks Veils (op x y)) {ts : List Term}
    (hts : ∀ t ∈ ts, (∃ ty, w.store.Has t ty) ∧ w.Ungated t) : Hushed w (e.foldWords op ts) := by
  cases ts with
  | nil => exact hushed_pure hw _
  | cons t ts =>
    obtain ⟨⟨ht, hfree⟩, hts⟩ := List.forall_mem_cons.mp hts
    refine hushed_bind hw (he.word hw ht hfree) fun first w₁ hw₁ h₁ _ => ?_
    refine Leads.foldlM veils_frame hw₁ trivial fun acc t ht w₂ hw₂ h₂ _ => ?_
    obtain ⟨⟨ty, hty⟩, hfree⟩ := hts t ht
    have h := veils_frame.trans h₁ h₂
    refine hushed_bind hw₂ (he.word hw₂ ⟨ty, h.store.ext.has hty⟩ (h.ungated hw.store hfree))
      fun y w₃ hw₃ _ _ => ?_
    exact hushed_of_moves hw₃ (hop acc y)

theorem hushed_bitvector (hw : w.Masks) (ht : ∃ ty, w.store.Has t ty) (hfree : w.Ungated t) :
    Hushed w (e.bitvector t) := by
  refine leads_look_bind ?_
  split
  · exact hushed_throw hw _
  next width =>
    refine leads_look_bind ?_
    obtain ⟨ty, hty⟩ := ht
    have htyped := hw.store.typed hty.node
    generalize hshape : w.store.shape t = shape at htyped
    have hparts := hfree.parts hshape
    cases shape with
    | bvConst _ value => exact leads_look_bind (hushed_pure hw _)
    | uninterpreted =>
      refine hushed_mapM hw fun i _ w₁ hw₁ h₁ => ?_
      have hbit := hushed_build hw₁ (Store.builders_built.bit t i)
        (Store.bit_avoiding hw₁.constants (h₁.ungated hw.store hfree).avoids i)
          (Store.bit_builds hw₁.store t i)
        fun hs h => h.2.2.closed [] (List.forall_mem_singleton.mpr
          ((h₁.ungated hw.store hfree).first.extends_ hw₁.store hs.ext))
      exact hushed_bind hw₁ hbit fun b w₂ hw₂ _ _ => hushed_of_moves hw₂ (veils_atom b)
    | ite cond x y =>
      refine hushed_bind hw (he.lit hw htyped.1 (hparts rfl cond (by simp [Term.Shape.children])))
        fun j w₁ hw₁ h₁ _ => ?_
      refine hushed_bind hw₁ (he.word hw₁ ⟨ty, h₁.store.ext.has htyped.2.1⟩
        (h₁.ungated hw.store (hparts rfl x (by simp [Term.Shape.children])))) fun xs w₂ hw₂ h₂ _ =>
          ?_
      have h := veils_frame.trans h₁ h₂
      refine hushed_bind hw₂ (he.word hw₂ ⟨ty, h.store.ext.has htyped.2.2⟩
        (h.ungated hw.store (hparts rfl y (by simp [Term.Shape.children])))) fun ys w₃ hw₃ _ _ => ?_
      exact hushed_mapM hw₃ fun z _ w₄ hw₄ _ =>
        hushed_of_moves hw₄ (moves_iteGate veils_frame veils_define j z.1 z.2)
    | bvNeg x =>
      obtain ⟨hx, -⟩ := htyped
      refine hushed_bind hw (he.word hw ⟨ty, hx⟩ (hparts rfl x (by simp [Term.Shape.children])))
        fun xs w₁ hw₁ _ _ => ?_
      exact hushed_of_moves hw₁ (moves_negater veils_frame veils_define xs)
    | bvSum args =>
      obtain ⟨-, hall, -⟩ := htyped
      exact leads_look_bind (hushed_foldWords he hw
        (fun x y => moves_adder veils_frame veils_define x y _)
        fun x hx => ⟨⟨ty, hall x hx⟩, hparts rfl x hx⟩)
    | bvProduct args =>
      obtain ⟨-, hall, -⟩ := htyped
      exact hushed_foldWords he hw (moves_multiplier veils_frame veils_define) fun x hx =>
        ⟨⟨ty, hall x hx⟩, hparts rfl x hx⟩
    | _ => exact hushed_throw hw _

end

theorem hushed_cachedLit (hw : w.Masks) {encode : Term → Work Literal}
    (h : Hushed w (encode t.positive)) :
    Hushed w (Encoder.cachedLit encode t) := by
  refine leads_look_bind ?_
  cases w.ctx.lits[t.positive]? with
  | some l => exact hushed_pure hw _
  | none => exact hushed_bind hw h fun l w₁ hw₁ _ _ => ⟨hw₁.veils rfl rfl rfl rfl, trivial⟩

theorem hushed_cachedWord (hw : w.Masks) {encode : Term → Work (List Literal)}
    (h : Hushed w (encode t)) :
    Hushed w (Encoder.cachedWord encode t) := by
  refine leads_look_bind ?_
  cases w.ctx.bits[t]? with
  | some bits => exact hushed_pure hw _
  | none => exact hushed_bind hw h fun bits w₁ hw₁ _ _ => ⟨hw₁.veils rfl rfl rfl rfl, trivial⟩

theorem hushing_nested (depth : Nat) : Hushing (Encoder.nested depth) := by
  induction depth with
  | zero => exact ⟨fun hw _ _ => hushed_throw hw _, fun hw _ _ => hushed_throw hw _⟩
  | succ depth ih =>
    exact ⟨fun hw ht hfree => hushed_cachedLit hw (hushed_boolean ih hw ht.positive hfree.positive),
      fun hw ht hfree => hushed_cachedWord hw (hushed_bitvector ih hw ht hfree)⟩

/-- A formula in which no output of a gate occurs is encoded, and outputs stay hidden. -/
theorem hushed_literalOf (hw : w.Masks) (ht : w.store.Has t .bool) (hfree : w.Ungated t) :
    Hushed w (literalOf t) :=
  leads_look_bind ((hushing_nested _).lit hw ht hfree)

/-! ## Definitions -/

/-- No output of a gate occurs in the term that is put for a constant. -/
def Hushes (d : Option (Term × Term)) (w : Workspace) : Prop := ∀ x v, d = some (x, v) → w.Ungated v

section

variable {r : Term} {args before after : List Term} (hw : w.Masks)

include hw

theorem hushes_none : Leads Veils w (pure none : Work (Option (Term × Term))) Hushes :=
  Leads.pure veils_frame hw nofun

theorem hushes_firstDefinition {defs : List (Term × Term)} (hdefs : ∀ d ∈ defs, w.Ungated d.2) :
    Leads Veils w (firstDefinition defs) Hushes :=
  ⟨veils_frame.refl hw, fun x v hd => hdefs (x, v) (List.mem_of_find?_eq_some hd)⟩

theorem hushes_solveFor (hr : w.Ungated r) (hargs : ∀ a ∈ before ++ after, w.Ungated a) :
    Leads Veils w (solveFor args r before after) Hushes := by
  induction after generalizing before with
  | nil => exact hushes_none hw
  | cons x after ih =>
    have hothers : ∀ a ∈ before ++ after, w.Ungated a := fun a ha => hargs a <|
      (List.mem_append.mp ha).elim (List.mem_append_left _) fun ha =>
        List.mem_append_right _ (List.mem_cons_of_mem _ ha)
    refine leads_look_bind ?_
    split
    next =>
      have hsum := hushed_build hw (Store.builders_built.bvSum _)
        (Store.bvSum_avoiding hw.constants fun a ha => (hothers a ha).avoids)
          (Store.bvSum_builds hw.store _)
        fun hs ⟨_, _, _, _, hden⟩ => hden.closed [] fun a ha =>
          (hothers a ha).first.extends_ hw.store hs.ext
      refine Leads.bind veils_frame hw hsum fun rest w₁ hw₁ h₁ ⟨hrest, _⟩ => ?_
      have hr₁ := h₁.ungated hw.store hr
      have hsub := hushed_build hw₁ (Store.built_bvSub r rest)
        (Store.bvSub_avoiding hw₁.constants hr₁.avoids hrest.avoids)
          (Store.bvSub_builds hw₁.store r rest)
        fun hs ⟨_, _, _, _, _, hden⟩ =>
          hden.closed [] (Store.forall_mem_pair (hr₁.first.extends_ hw₁.store hs.ext)
          (hrest.first.extends_ hw₁.store hs.ext))
      refine Leads.bind veils_frame hw₁ hsub fun v w₂ hw₂ _ ⟨hv, _⟩ =>
        Leads.pure veils_frame hw₂ fun y u hd => ?_
      cases hd
      exact hv
    next => exact ih fun a ha => hargs a (by simpa using ha)

theorem hushes_solveSum (ht : w.Ungated t) (hr : w.Ungated r) :
    Leads Veils w (solveSum t r) Hushes := by
  refine leads_look_bind ?_
  split
  next args hshape => exact hushes_solveFor hw hr (ht.parts hshape rfl)
  · exact hushes_none hw

theorem hushes_solveEquation (hx : w.Ungated x) (hy : w.Ungated y) :
    Leads Veils w (solveEquation x y) Hushes := by
  refine leads_look_bind ?_
  split
  · refine Leads.bind veils_frame hw (hushes_solveSum hw hx hy) fun d w' hw' h hd => ?_
    cases d with
    | some d => exact Leads.pure veils_frame hw' hd
    | none => exact hushes_solveSum hw' (h.ungated hw.store hy) (h.ungated hw.store hx)
  · exact hushes_none hw

/-- What is put for a constant is made of parts of the formula. -/
theorem hushes_definition? (ht : w.Ungated t) : Leads Veils w (definition? t) Hushes := by
  refine leads_look_bind ?_
  split
  next x y hshape =>
    have hparts := ht.parts hshape rfl
    simp only [Term.Shape.children, List.forall_mem_cons] at hparts
    refine leads_look_bind ?_
    split
    · refine hushes_firstDefinition hw fun d hd => ?_
      simp only [List.mem_cons, List.not_mem_nil, or_false] at hd
      rcases hd with rfl | rfl
      · exact hparts.2.1.negIf _
      · exact hparts.1.negIf _
    · exact hushes_none hw
  next x y hshape =>
    have hparts := ht.parts hshape rfl
    simp only [Term.Shape.children, List.forall_mem_cons] at hparts
    obtain ⟨hx, hy, -⟩ := hparts
    have hdirect : Leads Veils w (firstDefinition [(x, y), (y, x)]) Hushes :=
        hushes_firstDefinition hw fun d hd => by
      simp only [List.mem_cons, List.not_mem_nil, or_false] at hd
      rcases hd with rfl | rfl
      · exact hy
      · exact hx
    have hrest (d : Option (Term × Term)) (w' : Workspace) (hw' : w'.Masks) (h : Veils w w')
      (hd : Hushes d w') :
        Leads Veils w' (if d.isSome = true then pure d else solveEquation x y) Hushes := by
      split
      · exact Leads.pure veils_frame hw' hd
      · exact hushes_solveEquation hw' (h.ungated hw.store hx) (h.ungated hw.store hy)
    split
    · exact hushes_none hw
    · refine leads_look_bind ?_
      split
      · exact Leads.bind veils_frame hw hdirect hrest
      · exact Leads.bind veils_frame hw (hushes_none hw) hrest
  · exact hushes_none hw

end

/-! ## Substitutions -/

end Work

/-- What a plain term becomes under a substitution by plain terms is plain. -/
theorem Store.subst_plain {s : Store} {X : Term → Prop} {σ : Subst} {vars : List Term} {t : Term}
    {ty : Ty} (hw : s.Wf) (hX : s.HasConstants X) (hσ : s.SubstOk σ)
    (hvalues : ∀ x v : Term, σ[x]? = some v → s.Avoids X v) (ht : s.Has t ty)
    (havoids : s.Avoids X t) (hvars : ∀ v ∈ vars, ∃ u, σ[v]? = some u)
    (hfirst : s.FirstOrder vars t) :
    s.Builds (Store.subst σ t) fun r s' => s'.Plain X r ∧ s'.Becomes σ t r := by
  have hlater : Moves Store.Wf Store.Later (Store.subst σ t) :=
    (Store.builders_built.subst σ t).mono fun _ _ _ h => h.later
  have hshed := (Store.subst_avoiding hw hX hvalues (havoids.mono fun _ hx => hx.1)).builds hw
    hlater
  refine (Leads.and hshed (Store.subst_becomes hw hσ.assigns ht)).mono fun r s' h ⟨hr, hb⟩ =>
    ⟨⟨hr, ?_⟩, hb⟩
  exact (hb.replaced h.wf (hσ.later hw h)).first (fun v hv => .inr (hvars v hv))
    (hfirst.extends_ hw h.ext)

namespace Work

open Workspace

variable {w : Workspace} {t : Term} {ty : Ty}

/-- What a closed term becomes under a substitution by closed terms without outputs is closed and
without outputs. -/
theorem hushed_subst (hw : w.Masks) {σ : Subst} (hσ : w.store.SubstOk σ)
    (hvalues : ∀ x v : Term, σ[x]? = some v → w.store.Avoids w.ctx.now.aux v)
    (ht : w.store.Has t ty) (havoids : w.store.Avoids w.ctx.now.aux t) {vars : List Term}
    (hvars : ∀ v ∈ vars, ∃ u, σ[v]? = some u)
    (hfirst : w.store.FirstOrder vars t) : Leads Veils w (onStore (Store.subst σ t)) fun r w' =>
      w'.ctx = w.ctx ∧ w'.Ungated r ∧ w'.store.Becomes σ t r := by
  have hplain := Store.subst_plain hw.store hw.constants hσ hvalues ht havoids hvars hfirst
  refine (hushed_onStore hw hplain).mono fun r w' _ ⟨hctx, hr, hb⟩ => ⟨hctx, ?_, hb⟩
  rw [Ungated, hctx]
  exact hr

end Work

namespace Context.View

open Workspace

/-- Outputs that were hidden stay hidden. -/
theorem Hides.veils {w w' : Workspace} (h : w.ctx.now.Hides w.store) (hw : w.store.Wf)
    (hv : Veils w w') : w'.ctx.now.Hides w'.store := by
  refine h.later hw hv.store hv.aux (fun {x v} hx => .inl ?_) (fun n hn => ?_) fun q hq => .inl ?_
  · exact (congrArg (·[x]?) hv.subst).symm.trans hx
  · exact (hv.nodes n (Array.mem_toList_iff.mp hn)).imp_left Array.mem_toList_iff.mpr
  · exact (congrArg (q ∈ ·.toList) hv.constraints).mp hq

end Context.View
end Entail
