import Entail.Proofs.Context.Frame
import Entail.Proofs.Context.Moves
import Entail.Proofs.Store.Granted
import Entail.Proofs.Store.Supported

/-!
# Contexts of supported terms

What a context refers to besides its assertions is supported: what was put for eliminated constants,
the terms of nodes, which are truth values or elements of sorts, and the bodies of its constraints.
Gates leave that alone, and they are never refused: all that they build is constants.
-/

namespace Entail

/-- A formula is refused for the degree of a product only. -/
def Failure.TooLarge (e : Failure) : Prop := ∃ n, e = .term (.degreeTooLarge n)

theorem TermError.TooLarge.failure {e : TermError} (h : e.TooLarge) :
    (Failure.term e).TooLarge := by
  obtain ⟨n, rfl⟩ := h
  exact ⟨n, rfl⟩

namespace Context

variable {s s' : Store} {c c' : Context}

/-- Definitions and nodes are supported, nodes are no words, and the constraints are over sorts and
have supported bodies. -/
structure Supports (s : Store) (c : Context) : Prop where
  values : ∀ {x v : Term}, c.subst[x]? = some v → s.Supported [] v
  nodes : ∀ n ∈ c.registry.egraph.nodes, s.Nodal [] n.term
  constraints : ∀ q ∈ c.solver.constraints, (∀ v ∈ q.vars, s.IsSort v) ∧ s.Supported q.vars q.body

/-- A context that the store supports is supported by every extension of it. -/
theorem Supports.later (h : c.Supports s) (hs : s.Extends s') : c.Supports s' where
  values hx := (h.values hx).later hs
  nodes n hn := (h.nodes n hn).later hs
  constraints q hq := ⟨fun v hv => ((h.constraints q hq).1 v hv).later hs,
    (h.constraints q hq).2.later hs⟩

/-- The tables may shrink, and what is new is supported. -/
theorem Supports.of_ctx (h : c.Supports s)
    (hsubst : ∀ {x v : Term}, c'.subst[x]? = some v → c.subst[x]? = some v)
    (hnodes : ∀ n ∈ c'.registry.egraph.nodes, n ∈ c.registry.egraph.nodes ∨ s.Nodal [] n.term)
    (hconstraints : ∀ q ∈ c'.solver.constraints, q ∈ c.solver.constraints) : c'.Supports s where
  values hx := h.values (hsubst hx)
  nodes n hn := (hnodes n hn).elim (h.nodes n) id
  constraints q hq := h.constraints q (hconstraints q hq)

/-- The contexts have the same definitions, options, nodes and constraints. -/
structure Agrees (c c' : Context) : Prop where
  subst : c'.subst = c.subst
  options : c'.options = c.options
  nodes : c'.registry.egraph.nodes = c.registry.egraph.nodes
  constraints : c'.solver.constraints = c.solver.constraints

/-- Support depends on the formulas and the quantifiers of a context, and on nothing else. -/
theorem Supports.agrees (h : c.Supports s) (hc : c.Agrees c') : c'.Supports s :=
  h.of_ctx (fun hx => hc.subst ▸ hx) (fun _ hn => .inl (hc.nodes ▸ hn)) fun _ hq =>
    hc.constraints ▸ hq

end Context

namespace Workspace

/-- The store is well-formed, and the context is one of supported terms. -/
structure Supported (w : Workspace) : Prop where
  store : w.store.Wf
  ctx : w.ctx.Supports w.store

/-- The store grows, the context stays one of supported terms and keeps its options. The definitions
may have to stay. -/
structure Sustains (fixed : Prop) (w w' : Workspace) : Prop where
  store : Store.Later w.store w'.store
  ctx : w'.ctx.Supports w'.store
  options : w'.ctx.options = w.ctx.options
  subst : fixed → w'.ctx.subst = w.ctx.subst

variable {fixed : Prop} {w w' : Workspace} {t : Term} {ty : Ty} {vars : List Term}

/-- The steps that sustain the supported workspaces compose. -/
theorem sustains_frame : Frame Supported (Sustains fixed) where
  refl h := ⟨Store.later_frame.refl h.store, h.ctx, rfl, fun _ => rfl⟩
  trans h h' := ⟨Store.later_frame.trans h.store h'.store, h'.ctx, h'.options.trans h.options,
    fun hf => (h'.subst hf).trans (h.subst hf)⟩
  stable _ h := ⟨h.store.wf, h.ctx⟩

namespace Sustains

/-- A term keeps its type along a step. -/
theorem has (h : Sustains fixed w w') (ht : w.store.Has t ty) : w'.store.Has t ty :=
  h.store.ext.has ht

/-- A formula that is supported stays supported along a step. -/
theorem supported (h : Sustains fixed w w') (ht : w.store.Supported vars t) :
    w'.store.Supported vars t :=
  ht.later h.store.ext

theorem nodal (h : Sustains fixed w w') (ht : w.store.Nodal vars t) : w'.store.Nodal vars t :=
  ht.later h.store.ext

end Sustains

namespace Supported

/-- The context changes in nothing that matters. -/
theorem agrees (h : w.Supported) {ctx : Context} (hc : w.ctx.Agrees ctx) :
    Sustains fixed w ⟨w.store, ctx⟩ :=
  ⟨Store.later_frame.refl h.store, h.ctx.agrees hc, hc.options, fun _ => hc.subst⟩

end Supported
end Workspace

namespace Work

open Workspace Context

variable {α β : Type} {fixed : Prop} {E : Failure → Prop} {w : Workspace} {Q : α → Workspace → Prop}

/-- The operation sustains the workspace and is not refused. -/
abbrev Serves (fixed : Prop) (w : Workspace) (op : Work α) (Q : α → Workspace → Prop) : Prop :=
  Fares (fun _ => False) (Sustains fixed) w op Q

theorem fares_look_bind {f : Store → Context → β} {g : β → Work α}
    (h : Fares E (Sustains fixed) w (g (f w.store w.ctx)) Q) :
    Fares E (Sustains fixed) w (look f >>= g) Q := ⟨h.leads, h.cause⟩

/-- An operation on the store is refused for what it is refused for there, and moves along
with the store. -/
theorem lift_onStore {R : Workspace → Workspace → Prop} {S : Store → Store → Prop}
    (hR : ∀ s, S w.store s → R w ⟨s, w.ctx⟩) {F : TermError → Prop} (hF : ∀ e, F e → E (.term e))
    {op : Store.Op α} {T : α → Store → Prop} (h : Fares F S w.store op T) :
    Fares E R w (onStore op) fun a w' => w'.ctx = w.ctx ∧ T a w'.store := by
  have hmoves := h.leads.moves
  cases hop : op w.store with
  | ok a s =>
    obtain ⟨hs, ha⟩ := h.leads.of_ok hop
    refine ⟨?_, fun he => ?_⟩
    · unfold Leads Ends
      rw [onStore_of_ok hop]
      exact ⟨hR s hs, rfl, ha⟩
    · rw [onStore_of_ok hop] at he
      cases he
  | error e s =>
    rw [hop] at hmoves
    refine ⟨?_, fun he => ?_⟩
    · unfold Leads Ends
      rw [onStore_of_error hop]
      exact hR s hmoves
    · rw [onStore_of_error hop] at he
      cases he
      exact hF e (h.cause hop)

section

variable (hw : w.Supported)

include hw

/-- One call after another: the second starts from a supported workspace. -/
theorem fares_bind {x : Work β} {f : β → Work α} {T : β → Workspace → Prop}
    (h : Fares E (Sustains fixed) w x T)
    (hf : ∀ b w', w'.Supported → Sustains fixed w w' → T b w' →
      Fares E (Sustains fixed) w' (f b) Q) :
    Fares E (Sustains fixed) w (x >>= f) Q := .bind sustains_frame hw h hf

theorem fares_pure {x : α} (hx : Q x w) : Fares E (Sustains fixed) w (pure x : Work α) Q :=
  .pure sustains_frame hw hx

/-- What is built in the store. -/
theorem fares_onStore {F : TermError → Prop} (hF : ∀ e, F e → E (.term e)) {op : Store.Op α}
    {T : α → Store → Prop} (h : Fares F Store.Later w.store op T) :
    Fares E (Sustains fixed) w (onStore op) fun a w' => w'.ctx = w.ctx ∧ T a w'.store :=
  lift_onStore (fun _ hs => ⟨hs, hw.ctx.later hs.ext, rfl, fun _ => rfl⟩) hF h

/-- What a constructor does to the store, it does in a workspace with the context as it was. -/
theorem serves_onStore {op : Store.Op α} {T : α → Store → Prop}
    (h : Fares (fun _ => False) Store.Later w.store op T) :
    Serves fixed w (onStore op) fun a w' => w'.ctx = w.ctx ∧ T a w'.store :=
  fares_onStore hw (fun _ => id) h

end

/-- A change of the context alone ends, with what it makes of the context. -/
theorem fares_change {R : Workspace → Workspace → Prop} {f : Context → Context}
    (h : R w ⟨w.store, f w.ctx⟩) :
    Fares E R w (change f) fun _ _ => True := ⟨⟨h, trivial⟩, nofun⟩

/-! ## Gates -/

/-- Whatever it is given, the operation sustains any workspace and is not refused. -/
def Free (op : Work α) : Prop := ∀ w, w.Supported → Serves True w op fun _ _ => True

namespace Free

variable {op : Work α} {f : β → Work α}

theorem pure (a : α) : Free (pure a : Work α) := fun _ hw => fares_pure hw trivial

theorem bind {x : Work β} (h : Free x) (hf : ∀ b, Free (f b)) : Free (x >>= f) := fun w hw =>
  fares_bind hw (h w hw) fun b w' hw' _ _ => hf b w' hw'

theorem look (f : Store → Context → α) : Free (Work.look f) :=
  fun _ hw => ⟨⟨sustains_frame.refl hw, trivial⟩, nofun⟩

theorem ite {p : Prop} [Decidable p] {op' : Work α} (h : Free op) (h' : Free op') :
    Free (if p then op else op') := by
  split
  · exact h
  · exact h'

/-- A change that keeps what support depends on is free. -/
theorem change {f : Context → Context} (h : ∀ c : Context, c.Agrees (f c)) : Free (change f) :=
  fun _ hw =>
  fares_change (hw.agrees (h _))

/-- A change that also answers is free under the same condition. -/
theorem update {f : Context → α × Context} (h : ∀ c : Context, c.Agrees (f c).2) :
    Free (update f) := fun _ hw =>
  ⟨⟨hw.agrees (h _), trivial⟩, nofun⟩

/-- A loop over a list is free if its body is. -/
theorem forM {g : β → Work PUnit} {bs : List β} (h : ∀ b, Free (g b)) : Free (bs.forM g) :=
  fun _ hw =>
  .forM sustains_frame hw fun b _ w' hw' _ => h b w' hw'

/-- A map over a list is free if its function is. -/
theorem mapM {bs : List β} (h : ∀ b, Free (f b)) : Free (bs.mapM f) := fun _ hw =>
  (Fares.mapM (T := fun _ _ => True) sustains_frame hw (fun _ => id) fun b _ w' hw' _ =>
    h b w' hw').imp
    fun _ _ _ _ => trivial

theorem foldlM {g : α → β → Work α} {bs : List β} (h : ∀ a b, Free (g a b)) (a : α) :
    Free (bs.foldlM g a) :=
  fun _ hw => .foldlM sustains_frame hw trivial fun a b _ w' hw' _ _ => h a b w' hw'

end Free

variable {a b c l carry : Literal} {as bs acc : List Literal}

/-- Adding a clause leaves the formulas and the quantifiers alone. -/
theorem free_clause (lits : List Literal) : Free (clause lits) :=
  .change fun _ => ⟨rfl, rfl, rfl, rfl⟩

theorem free_clauses (cs : List (List Literal)) : Free (clauses cs) := .forM free_clause

/-- Giving a formula its variable leaves the formulas and the quantifiers alone. -/
theorem free_atom (t : Term) : Free (atom t) := .update fun _ => ⟨rfl, rfl, rfl, rfl⟩

theorem free_trueLit : Free trueLit := .look _

theorem free_falseLit : Free falseLit := .look _

theorem free_constant? (l : Literal) : Free (constant? l) := .look _

/-- A new constant is always to be had. -/
theorem free_freshLit : Free freshLit := fun w hw => by
  have hnew : Fares (fun _ => False) Store.Later w.store (Store.newConst .bool) fun _ _ => True :=
    .of_granted ((Store.newConst_builds hw.store .bool).mono fun _ _ _ _ => trivial)
      (Store.granted_newConst ⟨_, hw.store.bool_ty⟩)
  refine fares_bind hw (serves_onStore hw hnew) fun t w' hw' _ _ => ?_
  have hnote : Free (change fun c => { c with aux := c.aux.insert t }) := .change fun _ =>
    ⟨rfl, rfl, rfl, rfl⟩
  exact hnote.bind (fun _ => free_atom t) w' hw'

/-- A new output with some clauses about it. -/
theorem free_define {op : Work Literal} (hop : Free op) (cs : Literal → List (List Literal)) :
    Free (do let out ← op; clauses (cs out); return out) :=
  .bind hop fun out => .bind (free_clauses _) fun _ => .pure out

/-- The gate of a conjunction is free: it looks at its inputs, and adds a variable and clauses. -/
theorem free_andGate (a b : Literal) : Free (andGate a b) := by
  refine .bind (free_constant? a) fun x => .bind (free_constant? b) fun y => ?_
  repeat' refine .ite ?_ ?_
  · exact free_falseLit
  · exact .pure b
  · exact .pure a
  · exact .pure a
  · exact free_falseLit
  · exact free_define free_freshLit _

theorem free_orGate (a b : Literal) : Free (orGate a b) := .bind (free_andGate _ _) fun _ => .pure _

theorem free_xorGate (a b : Literal) : Free (xorGate a b) := by
  refine .bind (free_constant? a) fun x => .bind (free_constant? b) fun y => ?_
  split
  · exact .pure _
  · exact .pure _
  · exact .ite free_falseLit (.ite free_trueLit (free_define free_freshLit _))

theorem free_iteGate (c a b : Literal) : Free (iteGate c a b) := by
  refine .bind (free_constant? c) fun x => ?_
  split
  · exact .pure _
  · exact .ite (.pure a) (free_define free_freshLit _)

theorem free_majorityGate (a b c : Literal) : Free (majorityGate a b c) := by
  refine .bind (free_constant? a) fun x => .bind (free_constant? b) fun y =>
    .bind (free_constant? c) fun z => ?_
  split
  · exact .ite (free_orGate b c) (free_andGate b c)
  · exact .ite (free_orGate a c) (free_andGate a c)
  · exact .ite (free_orGate a b) (free_andGate a b)
  · exact .ite (.pure a) (.ite (.pure b) (free_define free_freshLit _))

/-- The adder is free, by induction on its digits. -/
theorem free_adder (as bs : List Literal) (carry : Literal) : Free (adder as bs carry) := by
  induction as generalizing bs carry with
  | nil => exact .pure []
  | cons a as ih =>
    cases bs with
    | nil => exact .pure []
    | cons b bs =>
      refine .bind (free_xorGate a b) fun half => .bind (free_xorGate half carry) fun sum =>
        .ite (.pure _) ?_
      exact .bind (free_majorityGate a b carry) fun carry => .bind (ih bs carry) fun _ => .pure _

theorem free_addProducts (as bs : List Literal) (shift : Nat) (acc : List Literal) :
    Free (addProducts as bs shift acc) := by
  induction bs generalizing shift acc with
  | nil => exact .pure acc
  | cons b bs ih =>
    refine .bind (free_constant? b) fun x => .ite (ih _ _) (.bind free_falseLit fun zero => ?_)
    exact .bind (.mapM fun a => free_andGate a b) fun row => .bind (free_adder _ _ _) fun acc =>
      ih _ acc

/-- The multiplier is free: each of its rows is an adder. -/
theorem free_multiplier (as bs : List Literal) : Free (multiplier as bs) :=
  .bind free_falseLit fun _ => free_addProducts _ _ _ _

theorem free_negater (as : List Literal) : Free (negater as) :=
  .bind free_falseLit fun _ => free_adder _ _ _

theorem free_equalGate (as bs : List Literal) : Free (equalGate as bs) :=
  .bind free_trueLit fun l => .foldlM (fun acc (x : Literal × Literal) =>
    .bind (free_xorGate x.1 x.2) fun _ => free_andGate acc _) l

theorem free_geGate (as bs : List Literal) : Free (geGate as bs) :=
  .bind free_trueLit fun l => .foldlM (fun carry (x : Literal × Literal) =>
    free_majorityGate x.1 x.2.neg carry) l

end Work
end Entail
