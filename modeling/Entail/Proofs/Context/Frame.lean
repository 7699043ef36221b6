import Entail.Context.Assert
import Entail.Proofs.Egraph.Nodes
import Entail.Proofs.Quant.Tables
import Entail.Proofs.Search.Clauses
import Entail.Proofs.Variables
import Entail.Theory.Registry

/-!
# What a scope is cut back to

A context is seen as of a mark, the sizes of its tables when a scope was opened: what closing the
scope is going to leave. The operations inside of a scope do not change what is seen as of its mark,
nor as of the marks of the scopes around it.
-/

/-!
## The theories of a context

In a context the quantifier solver is the only satellite, and a call to the theories comes to one
call to the e-graph and one to the solver.
-/

namespace Entail.Theory.Registry

variable {r r' : Registry} {q : Quant.Solver}

/-- The quantifier solver. -/
def solver (r : Registry) : Quant.Solver := r.quant?.getD {}

/-- The quantifier solver is the only satellite. -/
def Has (r : Registry) (q : Quant.Solver) : Prop := r.satellites = #[.quant q]

theorem Has.quant? (h : r.Has q) : r.quant? = some q := by
  unfold Registry.quant?
  rw [h]
  rfl

theorem Has.solver (h : r.Has q) : r.solver = q := by rw [Registry.solver, h.quant?]; rfl

theorem Has.setQuant (h : r.Has q) (q' : Quant.Solver) : (r.setQuant q').Has q' := by
  unfold Has Registry.setQuant
  rw [h]
  rfl

/-- Quantifier solvers keep no record of calls. -/
theorem notify_eq (g : Egraph) (calls : Array String) (e : Event) :
    notify ⟨g, #[.quant q], calls⟩ e = ⟨g, #[(Satellite.quant q).follow e], calls⟩ := by
  simp [notify, recordCall, Satellite.record]

theorem openLevel_eq (h : r.Has q) : r.openLevel = { r with egraph := r.egraph.openLevel } := by
  obtain ⟨g, satellites, calls⟩ := r
  cases (h : satellites = _)
  exact notify_eq _ _ _

theorem backtrack_eq (h : r.Has q) (level : Nat) :
    r.backtrack level = { r with egraph := r.egraph.backtrack level } := by
  obtain ⟨g, satellites, calls⟩ := r
  cases (h : satellites = _)
  exact notify_eq _ _ _

theorem push_eq (h : r.Has q) :
    r.push = { r with egraph := r.egraph.push, satellites := #[.quant q.push] } := by
  obtain ⟨g, satellites, calls⟩ := r
  cases (h : satellites = _)
  exact notify_eq _ _ _

theorem pop_eq (h : r.Has q) :
    r.pop = { r with egraph := r.egraph.pop, satellites := #[.quant q.pop] } := by
  obtain ⟨g, satellites, calls⟩ := r
  cases (h : satellites = _)
  exact notify_eq _ _ _

theorem mergeScope_eq (h : r.Has q) :
    r.mergeScope =
      { r with egraph := r.egraph.mergeScope, satellites := #[.quant q.mergeScope] } := by
  obtain ⟨g, satellites, calls⟩ := r
  cases (h : satellites = _)
  exact notify_eq _ _ _

theorem startSearch_eq (h : r.Has q) (p : Params) :
    r.startSearch p = ({},
      { r with egraph := r.egraph.startSearch, satellites := #[.quant (q.startSearch p)] }) := by
  obtain ⟨g, satellites, calls⟩ := r
  cases (h : satellites = _)
  simp [startSearch, Satellite.startSearch, recordCall, Satellite.record, register, Output.append]

theorem propagate_eq (h : r.Has q) (trail : Array Literal) :
    r.propagate trail =
      (((r.egraph.propagate trail).1.changed,
        { conflict := (r.egraph.propagate trail).1.conflict }),
        { r with egraph := (r.egraph.propagate trail).2 }) := by
  obtain ⟨g, satellites, calls⟩ := r
  cases (h : satellites = _)
  simp only [propagate, propagateAll]
  split
  · rfl
  · simp [Satellite.propagate, recordCall, Satellite.record, Output.append]

theorem finalCheck_eq (h : r.Has q) (s : Store) :
    r.finalCheck s =
      let x := q.finalCheck (some r.egraph) s
      (((FinalCheck.done.join x.1.1, { formulas := x.1.2.1 }),
        { r with satellites := #[.quant x.1.2.2] }), x.2) := by
  obtain ⟨g, satellites, calls⟩ := r
  cases (h : satellites = _)
  have hcalls : calls ++ #[] = calls := Array.append_empty
  simp only [finalCheck, finalCheckAll, Satellite.finalCheck, recordCall, Satellite.record, hcalls]
  rfl

end Entail.Theory.Registry

namespace Entail

/-- Every log was not longer in `a` than in `b`. -/
instance : LE Context.Scope where
  le a b := a.assertions ≤ b.assertions ∧ a.substLog ≤ b.substLog ∧ a.cacheLog ≤ b.cacheLog ∧
    a.created ≤ b.created

namespace Context

variable {c c' : Context} {s s' : Store}

/-- The quantifier solver of a context. -/
def solver (c : Context) : Quant.Solver := c.registry.solver

/-- Variables in the order in which they were given out, those that the core does not know yet
at the end. -/
def known (c : Context) : List Nat := c.created.toList ++ c.vars.heard.toList.map (·.var)

/-- Sizes of the logs. -/
def sizes (c : Context) : Scope :=
  ⟨c.assertions.size, c.substLog.size, c.cacheLog.size, c.known.length⟩

/-- Sizes of all tables when a scope was opened inside of `depth` others. -/
structure Mark where
  scope : Scope
  egraph : Nat × Nat
  quant : Quant.Mark
  depth : Nat

/-- The mark belongs to an open scope. -/
structure Mark.Open (m : Mark) (c : Context) : Prop where
  scope : c.scopes.reverse[m.depth]? = some m.scope
  egraph : c.registry.egraph.scopes.reverse[m.depth]? = some m.egraph
  quant : c.solver.scopes.reverse[m.depth]? = some m.quant

/-- What there is of a context as of a mark. -/
@[ext] structure View where
  assertions : List Term
  subst : Term → Option Term
  lits : Term → Option Literal
  bits : Term → Option (List Literal)
  vars : Nat → Option Term
  aux : Term → Prop
  clauses : Search.Kept
  egraph : List Egraph.Node × (Nat → Option Egraph.Atom)
  quant : List Quant.Constraint × List Quant.Pattern × List Term

/-- What closing the scope of a mark leaves of a context. -/
def upTo (c : Context) (m : Mark) : View where
  assertions := c.assertions.toList.take m.scope.assertions
  subst := Entail.upTo c.substLog.toList m.scope.substLog id (c.subst[·]?)
  lits := Entail.upTo c.cacheLog.toList m.scope.cacheLog .literal (c.lits[·]?)
  bits := Entail.upTo c.cacheLog.toList m.scope.cacheLog .word (c.bits[·]?)
  vars := Entail.upTo c.known m.scope.created id c.vars.term?
  aux t := t ∈ c.aux ∧ ∃ v, Entail.upTo c.known m.scope.created id c.vars.term? v = some t
  clauses := c.core.db.upTo m.depth
  egraph := c.registry.egraph.upTo m.egraph
  quant := c.solver.upTo m.quant

/-- The tables of a context fit together. -/
structure Ok (s : Store) (c : Context) : Prop where
  vars : c.vars.Ok
  live : ∀ {v t}, c.vars.term? v = some t → ∃ ty, s.Has t ty
  aux : ∀ {t}, t ∈ c.aux → ∃ v, c.vars.term? v = some t
  core : c.core.db.Ok c.depth
  registry : c.registry.Has c.solver
  nodes : c.registry.egraph.Indexed
  tables : c.solver.Indexed
  nested : (c.sizes :: c.scopes).Pairwise (· ≥ ·)
  nodesNested : c.registry.egraph.Nested
  tablesNested : c.solver.Nested
  nodesDepth : c.registry.egraph.scopes.length = c.depth
  tablesDepth : c.solver.scopes.length = c.depth

theorem le_of_nested {α : Type} [LE α] {top a : α} {as : List α} {i : Nat}
    (h : (top :: as).Pairwise (· ≥ ·)) (ha : as.reverse[i]? = some a) : a ≤ top :=
  (List.pairwise_cons.mp h).1 a (List.mem_reverse.mp (List.mem_of_getElem? ha))

/-- The sizes of an open mark are not above the present ones. -/
theorem Mark.Open.le {m : Mark} (h : m.Open c) (hc : c.Ok s) :
    m.scope ≤ c.sizes ∧ m.egraph ≤ c.registry.egraph.sizes ∧ m.quant ≤ c.solver.sizes ∧
    m.depth < c.depth := by
  refine ⟨le_of_nested hc.nested h.scope, le_of_nested hc.nodesNested h.egraph,
    le_of_nested hc.tablesNested h.quant, ?_⟩
  have hlt := (List.getElem?_eq_some_iff.mp h.scope).1
  rwa [List.length_reverse] at hlt

theorem Mark.Open.of_scopes {m : Mark} (h : m.Open c) (hs : c'.scopes = c.scopes)
    (he : c'.registry.egraph.scopes = c.registry.egraph.scopes)
    (hq : c'.solver.scopes = c.solver.scopes) : m.Open c' :=
  ⟨hs ▸ h.scope, he ▸ h.egraph, hq ▸ h.quant⟩

/-- The store may grow. -/
theorem Ok.later (h : c.Ok s) (hs : Store.Later s s') : c.Ok s' :=
  { h with
    live := fun hv => by
      obtain ⟨ty, hty⟩ := h.live hv
      exact ⟨ty, hs.ext.has hty⟩ }

theorem known_syncVars (c : Context) : c.syncVars.known = c.known := by
  show (c.created ++ c.vars.heard.map (·.var)).toList ++ [] = _
  rw [List.append_nil, Array.toList_append, Array.toList_map]
  rfl

theorem sizes_syncVars (c : Context) : c.syncVars.sizes = c.sizes :=
  congrArg (fun k => Scope.mk _ _ _ (List.length k)) (known_syncVars c)

end Context

namespace Workspace

open Context

variable {w w' w'' : Workspace}

/-- Store and context fit together. -/
structure Ok (w : Workspace) : Prop where
  store : w.store.Wf
  ctx : w.ctx.Ok w.store

/-- What is seen as of an open mark is the same, and the same scopes are open. -/
structure Keeps (w w' : Workspace) : Prop where
  built : Store.Built w.store w'.store
  ok : w'.ctx.Ok w'.store
  config : w'.ctx.config = w.ctx.config
  scopes : w'.ctx.scopes = w.ctx.scopes
  nodes : w'.ctx.registry.egraph.scopes = w.ctx.registry.egraph.scopes
  tables : w'.ctx.solver.scopes = w.ctx.solver.scopes
  upTo : ∀ {m : Mark}, m.Open w.ctx → w'.ctx.upTo m = w.ctx.upTo m

theorem Keeps.store (h : Keeps w w') : Store.Later w.store w'.store := h.built.later

theorem Keeps.open (h : Keeps w w') {m : Mark} (hm : m.Open w.ctx) : m.Open w'.ctx :=
  hm.of_scopes h.scopes h.nodes h.tables

theorem Keeps.refl (h : w.Ok) : Keeps w w :=
  ⟨Store.built_frame.refl h.store, h.ctx, rfl, rfl, rfl, rfl, fun _ => rfl⟩

theorem Keeps.trans (h : Keeps w w') (h' : Keeps w' w'') : Keeps w w'' where
  built := Store.built_frame.trans h.built h'.built
  ok := h'.ok
  config := h'.config.trans h.config
  scopes := h'.scopes.trans h.scopes
  nodes := h'.nodes.trans h.nodes
  tables := h'.tables.trans h.tables
  upTo hm := (h'.upTo (h.open hm)).trans (h.upTo hm)

/-- The operation keeps what is seen as of open marks, the status and the assertions. -/
structure Step (w w' : Workspace) : Prop where
  keeps : Keeps w w'
  status : w'.ctx.status = w.ctx.status
  assertions : w'.ctx.assertions = w.ctx.assertions

theorem step_frame : Frame Ok Step where
  refl h := ⟨.refl h, rfl, rfl⟩
  trans h h' := ⟨h.keeps.trans h'.keeps, h'.status.trans h.status, h'.assertions.trans h.assertions⟩
  stable _ h := ⟨h.keeps.store.wf, h.keeps.ok⟩

/-! ## Single steps -/

/-- A step on the context alone. -/
theorem step_of_ctx (h : w.Ok) {c : Context} (ok : c.Ok w.store)
    (upTo : ∀ {m}, m.Open w.ctx → c.upTo m = w.ctx.upTo m)
    (same : c.config = w.ctx.config ∧ c.scopes = w.ctx.scopes ∧ c.status = w.ctx.status ∧
      c.assertions = w.ctx.assertions)
    (sameScopes : c.registry.egraph.scopes = w.ctx.registry.egraph.scopes ∧
      c.solver.scopes = w.ctx.solver.scopes) :
    Step w ⟨w.store, c⟩ :=
  ⟨⟨Store.built_frame.refl h.store, ok, same.1, same.2.1, sameScopes.1, sameScopes.2, upTo⟩,
    same.2.2.1, same.2.2.2⟩

theorem nested_of_le {α : Type} [LE α] {top top' : α} {as : List α}
    (h : (top :: as).Pairwise (· ≥ ·))
    (hle : ∀ a, a ≤ top → a ≤ top') : (top' :: as).Pairwise (· ≥ ·) :=
  List.pairwise_cons.mpr ⟨fun a ha => hle a ((List.pairwise_cons.mp h).1 a ha),
    (List.pairwise_cons.mp h).2⟩

theorem step_of_core (h : w.Ok) {core : Core} (hg : w.ctx.core.db.Grows w.ctx.depth core.db) :
    Step w ⟨w.store, { w.ctx with core }⟩ :=
  step_of_ctx h { h.ctx with core := hg.ok }
    (fun {m} hm => congrArg (fun k => { w.ctx.upTo m with clauses := k })
      (hg.upTo (hm.le h.ctx).2.2.2))
    ⟨rfl, rfl, rfl, rfl⟩ ⟨rfl, rfl⟩

/-- A step that touches the assignment only. -/
theorem step_of_db (h : w.Ok) {core : Core} (hdb : core.db = w.ctx.core.db) :
    Step w ⟨w.store, { w.ctx with core }⟩ :=
  step_of_core h (by rw [hdb]; exact .refl h.ctx.core)

/-- An assertion is noted above all open marks. -/
theorem keeps_note (h : w.Ok) (t : Term) : Keeps w ⟨w.store, w.ctx.note t⟩ := by
  refine ⟨Store.built_frame.refl h.store, { h.ctx with nested := ?_ }, rfl, rfl, rfl, rfl,
    fun {m} hm => ?_⟩
  · refine nested_of_le h.ctx.nested fun a ha => ⟨Nat.le_trans ha.1 ?_, ha.2⟩
    show w.ctx.assertions.size ≤ (w.ctx.assertions.push t).size
    simp
  · have ha : m.scope.assertions ≤ w.ctx.assertions.size := (hm.le h.ctx).1.1
    refine congrArg (fun k => { w.ctx.upTo m with assertions := k }) ?_
    show (w.ctx.assertions.push t).toList.take _ = _
    rw [Array.toList_push]
    exact List.take_append_of_le_length (by simpa using ha)

/-- A definition of a constant that has none. -/
theorem step_define (h : w.Ok) {x : Term} (hx : w.ctx.subst[x]? = none) (v : Term) :
    Step w ⟨w.store,
      { w.ctx with subst := w.ctx.subst.insert x v, substLog := w.ctx.substLog.push x }⟩ := by
  refine step_of_ctx h { h.ctx with nested := ?_ } (fun {m} hm => ?_) ⟨rfl, rfl, rfl, rfl⟩
    ⟨rfl, rfl⟩
  · refine nested_of_le h.ctx.nested fun a ha => ⟨ha.1, Nat.le_trans ha.2.1 ?_, ha.2.2⟩
    show w.ctx.substLog.size ≤ (w.ctx.substLog.push x).size
    simp
  · have hle : m.scope.substLog ≤ w.ctx.substLog.size := (hm.le h.ctx).1.2.1
    refine congrArg (fun k => { w.ctx.upTo m with subst := k }) ?_
    show Entail.upTo (w.ctx.substLog.push x).toList _ id _ = _
    rw [Array.toList_push]
    refine upTo_insert (k := x) (by simpa using hle) (fun _ _ hij => hij) ?_ fun j hj => ?_
    · simp [Entail.upTo, hx]
    · simp [Std.HashMap.getElem?_insert, Ne.symm hj]

/-- A literal for a term that has none as of any open mark. -/
theorem step_cacheLit (h : w.Ok) {p : Term}
    (hp : ∀ {m}, m.Open w.ctx → (w.ctx.upTo m).lits p = none) (l : Literal) :
    Step w ⟨w.store, { w.ctx with
      lits := w.ctx.lits.insert p l, cacheLog := w.ctx.cacheLog.push (.literal p) }⟩ := by
  refine step_of_ctx h { h.ctx with nested := ?_ } (fun {m} hm => ?_) ⟨rfl, rfl, rfl, rfl⟩
    ⟨rfl, rfl⟩
  · refine nested_of_le h.ctx.nested fun a ha => ⟨ha.1, ha.2.1, Nat.le_trans ha.2.2.1 ?_, ha.2.2.2⟩
    show w.ctx.cacheLog.size ≤ (w.ctx.cacheLog.push _).size
    simp
  · have hle : m.scope.cacheLog ≤ w.ctx.cacheLog.toList.length := (hm.le h.ctx).1.2.2.1
    have hlits : Entail.upTo (w.ctx.cacheLog.push (.literal p)).toList m.scope.cacheLog .literal
        ((w.ctx.lits.insert p l)[·]?) = (w.ctx.upTo m).lits := by
      rw [Array.toList_push]
      exact upTo_insert (k := p) hle (fun _ _ hij => Cached.literal.inj hij) (hp hm) fun j hj => by
        simp [Std.HashMap.getElem?_insert, Ne.symm hj]
    have hbits : Entail.upTo (w.ctx.cacheLog.push (.literal p)).toList m.scope.cacheLog .word
      (w.ctx.bits[·]?) =
        (w.ctx.upTo m).bits := by
      rw [Array.toList_push]
      exact upTo_other hle fun k => nofun
    exact congrArg₂ (fun k l => { w.ctx.upTo m with lits := k, bits := l }) hlits hbits

theorem step_cacheWord (h : w.Ok) {t : Term}
    (ht : ∀ {m}, m.Open w.ctx → (w.ctx.upTo m).bits t = none) (bits : List Literal) :
    Step w ⟨w.store, { w.ctx with
      bits := w.ctx.bits.insert t bits, cacheLog := w.ctx.cacheLog.push (.word t) }⟩ := by
  refine step_of_ctx h { h.ctx with nested := ?_ } (fun {m} hm => ?_) ⟨rfl, rfl, rfl, rfl⟩
    ⟨rfl, rfl⟩
  · refine nested_of_le h.ctx.nested fun a ha => ⟨ha.1, ha.2.1, Nat.le_trans ha.2.2.1 ?_, ha.2.2.2⟩
    show w.ctx.cacheLog.size ≤ (w.ctx.cacheLog.push _).size
    simp
  · have hle : m.scope.cacheLog ≤ w.ctx.cacheLog.toList.length := (hm.le h.ctx).1.2.2.1
    have hbits : Entail.upTo (w.ctx.cacheLog.push (.word t)).toList m.scope.cacheLog .word
        ((w.ctx.bits.insert t bits)[·]?) = (w.ctx.upTo m).bits := by
      rw [Array.toList_push]
      exact upTo_insert (k := t) hle (fun _ _ hij => Cached.word.inj hij) (ht hm) fun j hj => by
        simp [Std.HashMap.getElem?_insert, Ne.symm hj]
    have hlits : Entail.upTo (w.ctx.cacheLog.push (.word t)).toList m.scope.cacheLog .literal
      (w.ctx.lits[·]?) =
        (w.ctx.upTo m).lits := by
      rw [Array.toList_push]
      exact upTo_other hle fun k => nofun
    exact congrArg₂ (fun k l => { w.ctx.upTo m with lits := k, bits := l }) hlits hbits

/-! ## Variables -/

theorem known_get (t : Term) (c : Context)
    (h : (c.vars.get t).2.heard = c.vars.heard.push ⟨0, (c.vars.get t).1, t⟩) :
    (c.atom t).2.known = c.known ++ [(c.vars.get t).1] := by
  show c.created.toList ++ (c.vars.get t).2.heard.toList.map (·.var) = _
  rw [h, Array.toList_push, List.map_append, ← List.append_assoc]
  rfl

/-- Giving out a variable for a term of the store. A term without a variable may be noted as a gate
output with it. -/
theorem step_vars (h : w.Ok) {t : Term} (ht : ∃ ty, w.store.Has t ty) {aux : Std.HashSet Term}
    (haux : aux = w.ctx.aux ∨ w.ctx.vars.find? t = none ∧ aux = w.ctx.aux.insert t) :
    Step w ⟨w.store, { (w.ctx.atom t).2 with aux }⟩ := by
  obtain ⟨hok, hterm, hsame | ⟨hnone, hfree, hget, hheard⟩⟩ := h.ctx.vars.get t
  · rw [hsame] at hterm
    rcases haux with rfl | ⟨hnone, -⟩
    · have : (w.ctx.atom t).2 = w.ctx := congrArg (fun vars => { w.ctx with vars }) hsame
      rw [this]
      exact step_frame.refl h
    · rw [h.ctx.vars.find?_eq_some.mpr hterm] at hnone
      cases hnone
  have hmem {u : Term} : u ∈ aux → u = t ∨ u ∈ w.ctx.aux := by
    rcases haux with rfl | ⟨-, rfl⟩
    · exact .inr
    · rw [Std.HashSet.mem_insert, beq_iff_eq]
      exact fun hu => hu.imp Eq.symm id
  -- from here on the term is a new one, or its variable is known already
  have hknown := known_get t w.ctx hheard
  refine step_of_ctx h { h.ctx with vars := hok, live := ?_, aux := ?_, nested := ?_ }
    (fun {m} hm => ?_) ⟨rfl, rfl, rfl, rfl⟩
    ⟨rfl, rfl⟩
  · intro v u hv
    change (w.ctx.vars.get t).2.term? v = some u at hv
    rw [hget] at hv
    split at hv
    · cases hv
      exact ht
    · exact h.ctx.live hv
  · intro u hu
    rcases hmem hu with rfl | hu
    · exact ⟨_, hterm⟩
    · obtain ⟨v, hv⟩ := h.ctx.aux hu
      refine ⟨v, (hget v).trans ((if_neg fun hvt => ?_).trans hv)⟩
      rw [hvt, hfree] at hv
      cases hv
  · refine nested_of_le h.ctx.nested fun a ha => ⟨ha.1, ha.2.1, ha.2.2.1, Nat.le_trans ha.2.2.2 ?_⟩
    show w.ctx.known.length ≤ (w.ctx.atom t).2.known.length
    rw [hknown]
    simp
  · have hle : m.scope.created ≤ w.ctx.known.length := (hm.le h.ctx).1.2.2.2
    have hvars : Entail.upTo (w.ctx.atom t).2.known m.scope.created id (w.ctx.atom t).2.vars.term? =
        (w.ctx.upTo m).vars := by
      rw [hknown]
      refine upTo_insert (k := (w.ctx.vars.get t).1) hle (fun _ _ hij => hij) ?_ fun u hu => ?_
      · simp [Entail.upTo, hfree]
      · exact (hget u).trans (if_neg hu)
    -- the term that is noted had no variable in the snapshot, so the snapshot does not see the note
    have hauxs : (fun u => u ∈ aux ∧ ∃ v, (w.ctx.upTo m).vars v = some u) = (w.ctx.upTo m).aux := by
      funext u
      refine propext ⟨?_, ?_⟩
      · rintro ⟨hu, v, hv⟩
        refine ⟨?_, v, hv⟩
        rcases hmem hu with rfl | hu
        · have hold : w.ctx.vars.term? v = some u := by
            rw [show (w.ctx.upTo m).vars v = Entail.upTo _ _ _ _ v from rfl, Entail.upTo] at hv
            split at hv
            · cases hv
            · exact hv
          rw [h.ctx.vars.find?_eq_some.mpr hold] at hnone
          cases hnone
        · exact hu
      · rintro ⟨hu, hv⟩
        refine ⟨?_, hv⟩
        rcases haux with rfl | ⟨-, rfl⟩
        · exact hu
        · exact Std.HashSet.mem_insert.mpr (.inr hu)
    refine View.ext rfl rfl rfl rfl hvars ?_ rfl rfl rfl
    show (fun u => u ∈ aux ∧ ∃ v, Entail.upTo (w.ctx.atom t).2.known m.scope.created id
      (w.ctx.atom t).2.vars.term? v =
      some u) = _
    rw [hvars]
    exact hauxs

/-- A variable is given out for a term of the store. -/
theorem step_atom (h : w.Ok) {t : Term} (ht : ∃ ty, w.store.Has t ty) :
    Step w ⟨w.store, (w.ctx.atom t).2⟩ :=
  step_vars h ht (.inl rfl)

theorem db_foldl_ensureVar (vs : Array Announcement) (core : Core) :
    (vs.foldl (fun core a => core.ensureVar a.var) core).db = core.db := by
  rw [← Array.foldl_toList]
  exact Core.db_foldl (fun core (a : Announcement) => Core.db_ensureVar core a.var) _ _

/-- The core is told of new variables. -/
theorem step_syncVars (h : w.Ok) : Step w ⟨w.store, w.ctx.syncVars⟩ := by
  have hdb : w.ctx.syncVars.core.db = w.ctx.core.db := db_foldl_ensureVar _ _
  refine step_of_ctx h { h.ctx with vars := h.ctx.vars.collect, core := ?_, nested := ?_ }
    (fun {m} hm => ?_)
    ⟨rfl, rfl, rfl, rfl⟩ ⟨rfl, rfl⟩
  · rw [hdb]
    exact h.ctx.core
  · rw [sizes_syncVars]
    exact h.ctx.nested
  · have hvars : (w.ctx.syncVars.upTo m).vars = (w.ctx.upTo m).vars :=
      congrArg (fun k => Entail.upTo k m.scope.created id w.ctx.vars.term?) (known_syncVars w.ctx)
    refine View.ext rfl rfl rfl rfl hvars ?_ (congrArg (·.upTo m.depth) hdb) rfl rfl
    exact congrArg (fun k u => u ∈ w.ctx.aux ∧ ∃ v, k v = some u) hvars

/-! ## Theories -/

/-- The theories may add to their tables while the store grows. -/
theorem step_of_registry (h : w.Ok) {store : Store} (hs : Store.Built w.store store)
    {registry : Theory.Registry}
    (hr : registry.Has registry.solver) (hg : Egraph.Adds w.ctx.registry.egraph registry.egraph)
    (hq : Quant.Solver.Grows w.ctx.solver registry.solver) :
    Step w ⟨store, { w.ctx with registry }⟩ where
  keeps := {
    built := hs
    ok := { h.ctx.later hs.later with
      registry := hr
      nodes := hg.indexed
      tables := hq.indexed
      nodesNested := by
        rw [Egraph.Nested, hg.scopes]
        exact nested_of_le h.ctx.nodesNested fun a ha =>
          ⟨Nat.le_trans ha.1 hg.sizes.1, Nat.le_trans ha.2 hg.sizes.2⟩
      tablesNested := by
        show (registry.solver.sizes :: registry.solver.scopes).Pairwise _
        rw [hq.scopes]
        obtain ⟨h₁, h₂, h₃⟩ := hq.sizes
        exact nested_of_le h.ctx.tablesNested fun a ha =>
          ⟨Nat.le_trans ha.1 h₁, Nat.le_trans ha.2.1 h₂, Nat.le_trans ha.2.2 h₃⟩
      nodesDepth := (congrArg List.length hg.scopes).trans h.ctx.nodesDepth
      tablesDepth := (congrArg List.length hq.scopes).trans h.ctx.tablesDepth }
    config := rfl
    scopes := rfl
    nodes := hg.scopes
    tables := hq.scopes
    upTo := fun {m} hm => by
      obtain ⟨-, hle, hle', -⟩ := hm.le h.ctx
      exact View.ext rfl rfl rfl rfl rfl rfl rfl (hg.upTo hle) (hq.upTo hle') }
  status := rfl
  assertions := rfl

/-- The e-graph may add to its nodes and atoms, and change its classes. -/
theorem step_of_egraph (h : w.Ok) {egraph : Egraph}
    (hg : Egraph.Adds w.ctx.registry.egraph egraph) :
    Step w ⟨w.store, { w.ctx with registry := { w.ctx.registry with egraph } }⟩ :=
  step_of_registry h (Store.built_frame.refl h.store) h.ctx.registry hg (.refl h.ctx.tables)

theorem step_setQuant (h : w.Ok) {q : Quant.Solver} (hq : Quant.Solver.Grows w.ctx.solver q) :
    Step w ⟨w.store, { w.ctx with registry := w.ctx.registry.setQuant q }⟩ := by
  have hr := h.ctx.registry.setQuant q
  have hsolver := hr.solver
  refine step_of_registry h (Store.built_frame.refl h.store) (hsolver.symm ▸ hr) ?_
    (hsolver.symm ▸ hq)
  exact Egraph.SameNodes.adds (.refl _) h.ctx.nodes

theorem step_backtrack (h : w.Ok) (level : Nat) :
    Step w ⟨w.store, { w.ctx with registry := w.ctx.registry.backtrack level }⟩ := by
  rw [Theory.Registry.backtrack_eq h.ctx.registry]
  exact step_of_egraph h (Egraph.SameNodes.adds (Egraph.sameNodes_backtrack _ level) h.ctx.nodes)

end Workspace

end Entail
