import Entail.Proofs.Context.Scopes
import Entail.Proofs.Egraph.Reasons

/-!
# References to variables

Variables are given out again once their terms are gone. So whatever a context refers to by a
variable has to belong to a variable that stands for a term: literals of clauses, of the caches and
of the trail, reasons of the e-graph, and the variables that have atoms. The variables as of a mark
are those that its scope was opened with, and what is seen as of a mark refers to these only; it
does not change while the scope is open, and is all that is left when it is closed.
-/

/-!
## Contents of a context

Everything that a context holds of its assertions, without what only steers a search. When there is
nothing newer than a mark, the contents are those that are seen as of the mark.
-/

namespace Entail

namespace Context

variable {c c' : Context} {s s' : Store} {m : Mark}

/-- What a context holds of its assertions. Tables are given by their entries, sets by their
members, and clauses by their numbers. -/
structure Contents where
  assertions : List Term
  subst : Term → Option Term
  lits : Term → Option Literal
  bits : Term → Option (List Literal)
  aux : Term → Prop
  vars : Nat → Option Term
  /-- Literals of a clause, in no order, with its scope and whether it was learned. -/
  clauses : Nat → Option Search.Content
  units : List (Literal × Nat)
  emptyClause : Option Nat
  nodes : List Egraph.Node
  apps : Term → Option (Array Nat)
  atoms : Nat → Option Egraph.Atom
  constraints : List Quant.Constraint
  patterns : List Quant.Pattern
  instances : Term → Prop
  numInstances : Nat

/-- The contents of a context. -/
def contents (c : Context) : Contents where
  assertions := c.assertions.toList
  subst t := c.subst[t]?
  lits t := c.lits[t]?
  bits t := c.bits[t]?
  aux t := t ∈ c.aux
  vars v := c.vars.term? v
  clauses n := ((c.core.clauses[n]?).join).map Search.Clause.content
  units := c.core.units.toList
  emptyClause := c.core.emptyClause
  nodes := c.registry.egraph.nodes.toList
  apps f := c.registry.egraph.apps[f]?
  atoms v := c.registry.egraph.atoms[v]?
  constraints := c.solver.constraints.toList
  patterns := c.solver.patterns.patterns.toList
  instances t := t ∈ c.solver.instances
  numInstances := c.solver.numInstances

/-- As of a mark of the present sizes, everything is seen. -/
theorem upTo_of_whole (h : m.Whole c) (hc : c.Ok s) :
    c.upTo m = {
      assertions := c.contents.assertions
      subst := c.contents.subst
      lits := c.contents.lits
      bits := c.contents.bits
      vars := c.contents.vars
      aux := c.contents.aux
      clauses := ⟨c.core.db.clause?, c.core.db.units.toList, c.core.db.empty⟩
      egraph := (c.contents.nodes, c.contents.atoms)
      quant := (c.contents.constraints, c.contents.patterns, c.solver.log.toList) } := by
  obtain ⟨scope, egraph, quant, depth⟩ := m
  obtain ⟨hscope, hegraph, hquant, hcore⟩ := h
  cases hscope
  cases hegraph
  cases hquant
  have hvars : Entail.upTo c.known c.sizes.created id c.vars.term? = c.vars.term? :=
    upTo_of_length_le (Nat.le_refl _)
  have htake {α : Type} (as : Array α) : as.toList.take as.size = as.toList :=
    List.take_of_length_le (Nat.le_of_eq Array.length_toList)
  refine View.ext (htake _) ?_ ?_ ?_ hvars ?_ hcore.upTo_eq ?_ ?_
  · exact upTo_of_length_le (Nat.le_of_eq Array.length_toList)
  · exact upTo_of_length_le (Nat.le_of_eq Array.length_toList)
  · exact upTo_of_length_le (Nat.le_of_eq Array.length_toList)
  · funext t
    show (t ∈ c.aux ∧ ∃ v, Entail.upTo c.known c.sizes.created id c.vars.term? v = some t) =
      (t ∈ c.aux)
    rw [hvars]
    exact propext (and_iff_left_of_imp hc.aux)
  · exact Prod.ext (htake _) (upTo_of_length_le (Nat.le_of_eq Array.length_toList))
  · exact Prod.ext (htake _) (Prod.ext (htake _) (htake _))

/-- Clauses are in the contents what they are up to the order of their literals. -/
theorem clause?_db (c : Context) (n : Nat) : c.core.db.clause? n = c.contents.clauses n := by
  show ((c.core.clauses.map (·.map Search.Clause.content))[n]?).join =
    ((c.core.clauses[n]?).join).map _
  rw [Array.getElem?_map]
  cases c.core.clauses[n]? <;> rfl

/-- The contents say nothing of a core but its clauses. -/
theorem contents_setCore (c : Context) {core : Core} (h : core.db = c.core.db) :
    contents { c with core } = c.contents := by
  have hclauses : (contents { c with core }).clauses = c.contents.clauses := by
    funext n
    rw [← clause?_db, ← clause?_db, h]
  have hunits : core.units = c.core.units := congrArg (·.units) h
  have hempty : core.emptyClause = c.core.emptyClause := congrArg (·.empty) h
  rw [Contents.mk.injEq]
  exact ⟨rfl, rfl, rfl, rfl, rfl, rfl, hclauses, congrArg Array.toList hunits, hempty, rfl, rfl,
    rfl, rfl, rfl, rfl, rfl⟩

/-- Contexts that are the same as of a mark with their present sizes have the same contents. -/
theorem contents_eq (hc : c.Ok s) (hc' : c'.Ok s') (h : m.Whole c) (h' : m.Whole c')
    (hupTo : c'.upTo m = c.upTo m) :
    c'.contents = c.contents := by
  rw [upTo_of_whole h hc, upTo_of_whole h' hc'] at hupTo
  simp only [View.mk.injEq, Search.Kept.mk.injEq, Prod.mk.injEq] at hupTo
  obtain ⟨hassertions, hsubst, hlits, hbits, hvars, haux, ⟨hclauses, hunits, hempty⟩,
    ⟨hnodes, hatoms⟩, hconstraints,
    hpatterns, hlog⟩ := hupTo
  have happs : c'.contents.apps = c.contents.apps := by
    funext f
    show c'.registry.egraph.apps[f]? = c.registry.egraph.apps[f]?
    have hnodes' : c'.registry.egraph.nodes = c.registry.egraph.nodes := Array.toList_inj.mp hnodes
    rw [hc'.nodes.apps, hc.nodes.apps, hnodes']
  have hlog' : c'.solver.log = c.solver.log := Array.toList_inj.mp hlog
  have hinstances : c'.contents.instances = c.contents.instances := by
    funext t
    refine propext ?_
    show t ∈ c'.solver.instances ↔ t ∈ c.solver.instances
    rw [hc'.tables.instances, hc.tables.instances, hlog']
  have hcount : c'.contents.numInstances = c.contents.numInstances := by
    show c'.solver.numInstances = c.solver.numInstances
    rw [hc'.tables.count, hc.tables.count, hlog']
  have hclauses' : c'.contents.clauses = c.contents.clauses := by
    funext n
    rw [← clause?_db, ← clause?_db, hclauses]
  rw [Contents.mk.injEq]
  exact ⟨hassertions, hsubst, hlits, hbits, haux, hvars, hclauses', hunits, hempty, hnodes, happs,
    hatoms, hconstraints,
    hpatterns, hinstances, hcount⟩

end Context
end Entail

namespace Entail

namespace Context

variable {c c' : Context} {s s' : Store} {m : Mark} {V : View}

/-- The variable stands for a term. -/
def Live (c : Context) (v : Nat) : Prop := ∃ t, c.vars.term? v = some t

/-- An atom says what a term says: that the sides of an equality are equal, or that an
application is true. -/
inductive Stands (s : Store) (nodes : Array Egraph.Node) (t : Term) (atom : Egraph.Atom) :
    Prop where
  | eq {a b : Term} (hshape : s.shape t = .eq a b) (hatom : Egraph.Means nodes atom (.inl (a, b)))
  | pred {f : Term} {args : List Term} (hshape : s.shape t = .app f args)
    (hatom : Egraph.Means nodes atom (.inr t))

/-- The variable stands for a term as of a mark. -/
def View.Live (V : View) (v : Nat) : Prop := ∃ t, V.vars v = some t

/-- What is seen as of a mark refers to variables as of the mark. -/
structure View.Closed (s : Store) (truth : Literal) (V : View) : Prop where
  truth : V.Live truth.var
  lits : ∀ {p l}, V.lits p = some l → V.Live l.var
  bits : ∀ {t word}, V.bits t = some word → Search.Over V.Live word
  clauses : V.clauses.Over V.Live
  atoms : ∀ {v atom}, V.egraph.2 v = some atom → ∃ t, V.vars v = some t ∧
    Stands s V.egraph.1.toArray t atom

/-- A context refers to variables that stand for terms, and they are what it knows. -/
structure Refers (s : Store) (c : Context) : Prop where
  truth : c.Live c.trueLit.var
  lits : ∀ {p : Term} {l : Literal}, c.lits[p]? = some l → c.Live l.var
  bits : ∀ {t : Term} {word : List Literal}, c.bits[t]? = some word → Search.Over c.Live word
  core : c.core.Over c.Live
  egraph : c.registry.egraph.Over c.Live
  atoms : ∀ {v : Nat} {atom : Egraph.Atom}, c.registry.egraph.atoms[v]? = some atom →
    ∃ t, c.vars.term? v = some t ∧ Stands s c.registry.egraph.nodes t atom
  nodup : c.known.Nodup
  known : ∀ {v}, v ∈ c.known ↔ c.Live v

section

variable {nodes nodes' : Array Egraph.Node} {t : Term} {atom : Egraph.Atom}

theorem Stands.of_shape (h : Stands s nodes t atom) (hs : s'.shape t = s.shape t) :
    Stands s' nodes t atom := by
  cases h with
  | eq hshape hatom => exact .eq (hs.trans hshape) hatom
  | pred hshape hatom => exact .pred (hs.trans hshape) hatom

theorem Stands.of_isPrefix (h : Stands s nodes t atom) (hp : nodes.toList <+: nodes'.toList) :
    Stands s nodes' t atom := by
  have means {m : (Term × Term) ⊕ Term} (hm : Egraph.Means nodes atom m) :
      Egraph.Means nodes' atom m := by
    cases hm with
    | eq ha hb => exact .eq (keyAt_of_isPrefix hp ha) (keyAt_of_isPrefix hp hb)
    | pred hp' => exact .pred (keyAt_of_isPrefix hp hp')
  cases h with
  | eq hshape hatom => exact .eq hshape (means hatom)
  | pred hshape hatom => exact .pred hshape (means hatom)

end

/-- What is seen of a context at present. -/
def now (c : Context) : View where
  assertions := c.contents.assertions
  subst := c.contents.subst
  lits := c.contents.lits
  bits := c.contents.bits
  vars := c.contents.vars
  aux := c.contents.aux
  clauses := c.core.db.all
  egraph := (c.contents.nodes, c.contents.atoms)
  quant := (c.contents.constraints, c.contents.patterns, c.solver.log.toList)

theorem Refers.closed (h : c.Refers s) : c.now.Closed s c.trueLit :=
  ⟨h.truth, h.lits, h.bits, h.core.db, h.atoms⟩

/-- The store may change as long as the terms of variables keep their shapes. -/
theorem Refers.of_shape (h : c.Refers s)
    (hs : ∀ {v t}, c.vars.term? v = some t → s'.shape t = s.shape t) :
    c.Refers s' where
  truth := h.truth
  lits := h.lits
  bits := h.bits
  core := h.core
  egraph := h.egraph
  atoms hv := by
    obtain ⟨t, ht, hatom⟩ := h.atoms hv
    exact ⟨t, ht, hatom.of_shape (hs ht)⟩
  nodup := h.nodup
  known := h.known

theorem View.Closed.of_shape {truth : Literal} (h : V.Closed s truth)
    (hs : ∀ {v t}, V.vars v = some t → s'.shape t = s.shape t) : V.Closed s' truth :=
  { h with
    atoms := fun hv => by
      obtain ⟨t, ht, hatom⟩ := h.atoms hv
      exact ⟨t, ht, hatom.of_shape (hs ht)⟩ }

/-- The variables as of a mark are variables. -/
theorem term?_of_upTo {v : Nat} {t : Term} (h : (c.upTo m).vars v = some t) :
    c.vars.term? v = some t := by
  change Entail.upTo c.known m.scope.created id c.vars.term? v = some t at h
  unfold Entail.upTo at h
  split at h
  · cases h
  · exact h

/-- As of a mark of the present sizes, what is seen is what there is at present. -/
theorem closed_of_whole (h : c.Refers s) (hm : m.Whole c) (hc : c.Ok s) :
    (c.upTo m).Closed s c.trueLit := by
  rw [upTo_of_whole hm hc]
  exact h.closed

/-- Every open scope has a mark. -/
theorem Ok.exists_open (hc : c.Ok s) {i : Nat} (hi : i < c.depth) :
    ∃ m : Mark, m.Open c ∧ m.depth = i := by
  have entry {α : Type} (as : List α) (ha : as.length = c.depth) :
      ∃ a, as.reverse[i]? = some a := by
    have hlt : i < as.reverse.length := by rw [List.length_reverse, ha]; exact hi
    exact ⟨_, List.getElem?_eq_getElem hlt⟩
  obtain ⟨a, ha⟩ := entry c.scopes rfl
  obtain ⟨g, hg⟩ := entry c.registry.egraph.scopes hc.nodesDepth
  obtain ⟨q, hq⟩ := entry c.solver.scopes hc.tablesDepth
  exact ⟨⟨a, g, q, i⟩, ⟨ha, hg, hq⟩, rfl⟩

theorem Mark.Open.unique {m' : Mark} (h : m.Open c) (h' : m'.Open c) (hdepth : m.depth = m'.depth) :
    m = m' := by
  obtain ⟨scope, egraph, quant, depth⟩ := m
  obtain ⟨scope', egraph', quant', depth'⟩ := m'
  obtain rfl : depth = depth' := hdepth
  obtain ⟨hs, he, hq⟩ := h
  obtain ⟨hs', he', hq'⟩ := h'
  obtain rfl := Option.some.inj (hs.symm.trans hs')
  obtain rfl := Option.some.inj (he.symm.trans he')
  obtain rfl := Option.some.inj (hq.symm.trans hq')
  rfl

/-- The mark of a scope that was open before is the one that it had then. -/
theorem Mark.Open.before (h : m.Open c') (hc : c.Ok s) (hlt : m.depth < c.depth)
    (hkept : ∀ {m' : Mark}, m'.Open c → m'.depth = m.depth → m'.Open c') : m.Open c := by
  obtain ⟨m', hm', hdepth⟩ := hc.exists_open hlt
  exact h.unique (hkept hm' hdepth) hdepth.symm ▸ hm'

/-- When nothing is left but what is seen as of a mark, the variables that the view refers
to are there. -/
theorem refers_of_whole (hm : m.Whole c) (hc : c.Ok s) (hview : (c.upTo m).Closed s c.trueLit)
    (htrail : ∀ l ∈ c.core.trail, c.Live l.var)
    (hlive : ∀ {v}, (c.core.info v).live = true → c.Live v)
    (hegraph : c.registry.egraph.Over c.Live) (hnodup : c.known.Nodup)
    (hknown : ∀ {v}, v ∈ c.known ↔ c.Live v) :
    c.Refers s := by
  rw [upTo_of_whole hm hc] at hview
  exact ⟨hview.truth, hview.lits, hview.bits, ⟨hview.clauses, htrail, hlive⟩, hegraph, hview.atoms,
    hnodup, hknown⟩

/-- Variables are announced when they are given out. -/
theorem Refers.syncVars (h : c.Refers s) : c.syncVars.Refers s where
  truth := h.truth
  lits := h.lits
  bits := h.bits
  core := by
    show (c.vars.heard.foldl (fun core a => core.ensureVar a.var) c.core).Over _
    rw [← Array.foldl_toList]
    refine h.core.ensureVars _ fun a ha => h.known.mp ?_
    exact List.mem_append_right _ (List.mem_map.mpr ⟨a, ha, rfl⟩)
  egraph := h.egraph
  atoms := h.atoms
  nodup := known_syncVars c ▸ h.nodup
  known {v} := known_syncVars c ▸ h.known

end Context

namespace Workspace

open Context

variable {w w' : Workspace}

/-- References are to variables at present, and as of every open mark. -/
structure Linked (w : Workspace) : Prop where
  refers : w.ctx.Refers w.store
  marks : ∀ {m : Mark}, m.Open w.ctx → (w.ctx.upTo m).Closed w.store w.ctx.trueLit

theorem shape_eq_of_later {s s' : Store} (hs : Store.Later s s') {t : Term}
    (ht : ∃ ty, s.Has t ty) :
    s'.shape t = s.shape t := by
  obtain ⟨ty, ht⟩ := ht
  exact Interp.shape_of_has hs.ext ht

/-- What is seen as of open marks stays closed while it stays the same. -/
theorem Linked.marks_of_keeps (h : w.Linked) (hw : w.Ok) (hkeeps : Keeps w w')
    (htruth : w'.ctx.trueLit = w.ctx.trueLit) {m : Mark} (hm : m.Open w'.ctx) :
    (w'.ctx.upTo m).Closed w'.store w'.ctx.trueLit := by
  have hopen : m.Open w.ctx := hm.of_scopes hkeeps.scopes.symm hkeeps.nodes.symm hkeeps.tables.symm
  rw [hkeeps.upTo hopen, htruth]
  exact (h.marks hopen).of_shape fun ht =>
    shape_eq_of_later hkeeps.store (hw.ctx.live (term?_of_upTo ht))

/-! ## Scopes -/

theorem linked_openScope (h : w.Linked) (hw : w.Ok) : Linked ⟨w.store, w.ctx.openScope⟩ := by
  obtain ⟨hok, hdepth, hopen, hwhole, hkept⟩ := openScope_spec hw
  have hsync := h.refers.syncVars
  have hrefers : w.ctx.openScope.Refers w.store := by
    rw [openScope_eq hw.ctx]
    exact { hsync with egraph := hsync.egraph }
  refine ⟨hrefers, fun {m} hm => ?_⟩
  have hlt : m.depth < w.ctx.depth + 1 := hdepth ▸ (hm.le hok).2.2.2
  rcases Nat.lt_succ_iff_lt_or_eq.mp hlt with hlt | heq
  · have hm' := hm.before hw.ctx hlt fun hm' _ => (hkept hm').1
    show (w.ctx.openScope.upTo m).Closed w.store w.ctx.trueLit
    rw [(hkept hm').2]
    exact h.marks hm'
  · obtain rfl := hm.unique hopen heq
    exact closed_of_whole hrefers hwhole hok

theorem linked_commit (h : w.Linked) (hw : w.Ok) {a : Scope} {rest : List Scope}
    (hs : w.ctx.scopes = a :: rest) :
    Linked ⟨w.store, w.ctx.commit⟩ := by
  obtain ⟨hok, hscopes, hkept⟩ := commit_spec hw hs
  have hcommit : w.ctx.commit = { w.ctx with
      scopes := rest
      core := w.ctx.core.mergeScopes rest.length
      registry := { w.ctx.registry with
        egraph := w.ctx.registry.egraph.mergeScope, satellites :=
          #[.quant w.ctx.solver.mergeScope] } } := by
    unfold commit
    rw [hs, Theory.Registry.mergeScope_eq hw.ctx.registry]
  refine ⟨?_, fun {m} hm => ?_⟩
  · rw [hcommit]
    exact { h.refers with core := h.refers.core.mergeScopes _, egraph := h.refers.egraph }
  · have hlt : m.depth < rest.length := by
      have := (hm.le hok).2.2.2
      rwa [depth, hscopes] at this
    have hdepth : w.ctx.depth = rest.length + 1 := congrArg List.length hs
    have hm' := hm.before hw.ctx (by omega) fun hm' heq => (hkept hm' (by omega)).1
    show (w.ctx.commit.upTo m).Closed w.store w.ctx.commit.trueLit
    rw [(hkept hm' hlt).2, show w.ctx.commit.trueLit = w.ctx.trueLit by rw [hcommit]]
    exact h.marks hm'

/-! ## Closing a scope -/

/-- The variables that a sweep removes are those that it answers. -/
theorem term?_sweep {vs vs' : Variables} (h : vs.Ok) {marks : Std.HashSet Nat} {dead : List Nat}
    (hsweep : vs.sweep? marks = some (dead, vs')) (v : Nat) :
    vs'.term? v = if v ∈ dead then none else vs.term? v := by
  unfold Variables.sweep? at hsweep
  split at hsweep
  · cases hsweep
  · simp only [Option.some.injEq, Prod.mk.injEq] at hsweep
    obtain ⟨rfl, rfl⟩ := hsweep
    show (Arena.get? _ v).map _ = _
    rw [(h.arena.foldl_erase _).2]
    split <;> rfl

/-- A core whose clauses and trail are over variables that a sweep keeps is over these after it. -/
theorem over_sweepVars {c : Context} (h : c.core.Over c.Live) (hc : c.vars.Ok)
    (keep : Std.HashSet Nat) (hdb : c.core.db.all.Over (c.sweepVars keep).Live)
    (htrail : ∀ l ∈ c.core.trail, (c.sweepVars keep).Live l.var) :
    (c.sweepVars keep).core.Over (c.sweepVars keep).Live := by
  unfold sweepVars at hdb htrail ⊢
  cases hsweep : c.vars.sweep? keep with
  | none =>
    rw [hsweep] at hdb htrail
    exact h
  | some x =>
    obtain ⟨dead, vars⟩ := x
    rw [hsweep] at hdb htrail
    refine h.releaseVars dead hdb htrail fun v ⟨t, hv⟩ hdead => ⟨t, ?_⟩
    show vars.term? v = some t
    rw [term?_sweep hc hsweep v, if_neg hdead]
    exact hv

theorem dropEncoded_same (c : Context) (count : Nat) :
    (c.dropEncoded count).vars = c.vars ∧ (c.dropEncoded count).core = c.core := by
  obtain ⟨lits, bits, heq, -⟩ := dropEncoded_eq c count
  rw [heq]
  exact ⟨rfl, rfl⟩

/-- A rollback ends with a sweep, of a core whose scope was dropped already, and with the units. -/
theorem rollback_eq_sweep {a : Scope} {rest : List Scope} (hs : w.ctx.scopes = a :: rest) :
    ∃ (c : Context) (keep : Std.HashSet Nat),
      w.ctx.rollback = { c.sweepVars keep with core := (c.sweepVars keep).core.assignUnits.2 } ∧
      c.vars = w.ctx.vars.collect.2 ∧
      c.core = w.ctx.vars.heard.toList.foldl (fun core a => core.ensureVar a.var)
        (w.ctx.core.popScopes rest.length) := by
  unfold rollback
  rw [hs]
  refine ⟨_, _, rfl, ?_, ?_⟩
  · simp only [syncVars]
    rw [(dropEncoded_same _ _).1]
    rfl
  · simp only [syncVars]
    rw [(dropEncoded_same _ _).1, (dropEncoded_same _ _).2, ← Array.foldl_toList]
    rfl

theorem trail_foldl_ensureVar (news : List Announcement) (core : Core) :
    (news.foldl (fun core a => core.ensureVar a.var) core).trail = core.trail := by
  induction news generalizing core with
  | nil => rfl
  | cons a news ih => exact (ih _).trans (Core.trail_ensureVar core a.var)

theorem db_sweepVars (c : Context) (keep : Std.HashSet Nat) :
    (c.sweepVars keep).core.db = c.core.db := by
  unfold sweepVars
  split
  · rfl
  · exact Core.db_foldl Core.db_releaseVar _ _

/-- Closing a scope drops the classes. -/
theorem classes_pop {g : Egraph} (hs : g.scopes ≠ []) : g.pop.classes = {} := by
  obtain ⟨mark, scopes, hs⟩ := List.exists_cons_of_ne_nil hs
  unfold Egraph.pop
  rw [hs]
  exact Egraph.Typed.classes_popNodes _ _

/-- A rollback clears the classes. -/
theorem classes_rollback (hw : w.Ok) {a : Scope} {rest : List Scope}
    (hs : w.ctx.scopes = a :: rest) :
    w.ctx.rollback.registry.egraph.classes = {} := by
  obtain ⟨vars, core, aux, lits, bits, heq, -⟩ := rollback_eq hw hs
  rw [heq]
  refine classes_pop (g := w.ctx.registry.egraph.backtrack 0) fun hnil => ?_
  have hdepth : w.ctx.registry.egraph.scopes.length = w.ctx.depth := hw.ctx.nodesDepth
  rw [show w.ctx.registry.egraph.scopes = [] from hnil, depth, hs] at hdepth
  cases hdepth

/-- Nothing that is left when a scope is closed refers to a variable that was dropped. -/
theorem linked_rollback (h : w.Linked) (hw : w.Ok) {a : Scope} {rest : List Scope}
    (hs : w.ctx.scopes = a :: rest) :
    Linked ⟨w.store, w.ctx.rollback⟩ := by
  obtain ⟨hok, hscopes, -, hback⟩ := rollback_spec hw hs
  obtain ⟨vars, core, aux, lits, bits, heq, -, -, hdb, -, -, hterm, -⟩ := rollback_eq hw hs
  have hdepth : w.ctx.depth = rest.length + 1 := congrArg List.length hs
  have htruth : w.ctx.rollback.trueLit = w.ctx.trueLit := by rw [heq]
  have hmark {m : Mark} (hm : m.Open w.ctx) :
      (w.ctx.rollback.upTo m).Closed w.store w.ctx.rollback.trueLit := by
    rw [(hback hm).1, htruth]
    exact h.marks hm
  obtain ⟨m, hm, hdm⟩ := hw.ctx.exists_open (i := rest.length) (by omega)
  have hwhole := (hback hm).2.2 hdm
  -- live after the scope is closed is what was live and was not made inside it
  have hlive {v : Nat} : w.ctx.rollback.Live v ↔ w.ctx.Live v ∧ v ∉ w.ctx.known.drop a.created := by
    have hv : w.ctx.rollback.vars.term? v = Entail.upTo w.ctx.known a.created id
        w.ctx.vars.term? v := by
      rw [heq]
      exact hterm v
    have hiff (xs : List Nat) (o : Option Term) :
        (∃ t, (if v ∈ xs then none else o) = some t) ↔ (∃ t, o = some t) ∧ v ∉ xs := by
      by_cases hmem : v ∈ xs <;> simp [hmem]
    unfold Live
    rw [hv]
    exact hiff _ _
  have hknown := known_rollback hw hs
  -- the clauses left are over live variables by the snapshot, so the sweep drops no variable of
  -- theirs
  have hcore : w.ctx.rollback.core.Over w.ctx.rollback.Live := by
    obtain ⟨c, keep, hroll, hvars, hc⟩ := rollback_eq_sweep hs
    have hcdb : c.core.db = w.ctx.rollback.core.db := by
      rw [heq, hdb, hc]
      exact Core.db_foldl (fun core (a : Announcement) => Core.db_ensureVar core a.var) _ _
    have hlive' : c.Live = w.ctx.Live := by
      unfold Live
      rw [hvars]
      rfl
    have hover : c.core.Over c.Live := by
      rw [hc, hlive']
      refine (h.refers.core.popScopes hw.ctx.core rest.length).ensureVars _ fun x hx =>
        h.refers.known.mp ?_
      exact List.mem_append_right _ (List.mem_map.mpr ⟨x, hx, rfl⟩)
    have hsame : w.ctx.rollback.Live = (c.sweepVars keep).Live := by rw [hroll]; rfl
    have hclosed := hmark hm
    rw [upTo_of_whole hwhole hok] at hclosed
    have hkept : c.core.db.all.Over (c.sweepVars keep).Live := hcdb ▸ hsame ▸ hclosed.clauses
    have hswept := over_sweepVars hover (hvars ▸ hw.ctx.vars.collect) keep hkept fun l hl => by
      rw [hc, trail_foldl_ensureVar, Core.trail_popScopes] at hl
      exact absurd hl (Array.not_mem_empty l)
    rw [hsame, hroll]
    exact hswept.assignUnits
  have hclasses := classes_rollback hw hs
  have hegraph : w.ctx.rollback.registry.egraph.Over w.ctx.rollback.Live := by
    unfold Egraph.Over
    rw [hclasses]
    exact .empty _
  refine ⟨refers_of_whole hwhole hok (hmark hm) hcore.trail hcore.live hegraph ?_ fun {v} => ?_,
    fun {m'} hm' => ?_⟩
  · rw [hknown]
    exact h.refers.nodup.sublist (List.take_sublist _ _)
  · -- a variable that was known is among the first ones or among those that were dropped
    have hsplit : v ∈ w.ctx.known ↔ v ∈ w.ctx.known.take a.created ∨
        v ∈ w.ctx.known.drop a.created := by
      rw [← List.mem_append, List.take_append_drop]
    have hdisjoint := List.disjoint_take_drop h.refers.nodup (Nat.le_refl a.created)
    rw [hknown, hlive, ← h.refers.known, hsplit]
    constructor
    · exact fun hv => ⟨.inl hv, fun hd => hdisjoint hv hd⟩
    · exact fun ⟨hv, hd⟩ => hv.resolve_right hd
  · have hlt : m'.depth < rest.length := by
      have := (hm'.le hok).2.2.2
      rwa [depth, hscopes] at this
    exact hmark (hm'.before hw.ctx (by omega) fun hm'' heq => (hback hm'').2.1 (by omega))

end Workspace
end Entail
