import Entail.Proofs.Context.Attached
import Entail.Proofs.Context.Production
import Entail.Proofs.Egraph.Admits
import Entail.Proofs.Search.Progress
import Entail.Proofs.Search.Restarts

/-!
# What is left to do in a search

An assignment is allowed when it satisfies the clauses and is consistent for the e-graph.
Propagation, conflicts, restarts and decisions leave the allowed assignments as they are, and every
step has less to do after it than before: fewer instances within the bound, fewer clauses to learn,
no restart that is due, or less room on the trail, in this order. A step that has nothing to do any
more looks at a complete assignment: the search ends there, or new instances are asserted.
-/

namespace Entail

open Workspace Context Search

variable {w w' : Workspace}

/-- The nodes of an able context are fit for a search: the applications among them are positive. -/
theorem Workspace.Able.wf (h : w.Able) : w.ctx.registry.egraph.Wf := by
  have htyped := h.tidy.typed.egraph
  have hterms : Egraph.OfTerms w.store w.ctx.registry.egraph := by
    refine ⟨h.tidy.ok.ctx.nodes, (htyped.scopes _ List.mem_cons_self).1, fun {i n} hn => ?_,
      fun {v a} ha => ?_⟩
    · obtain ⟨hdescribes, -⟩ := htyped.described hn
      refine ⟨hdescribes.app, hdescribes.leaf, fun hfunc => ?_⟩
      obtain ⟨f, hf⟩ := Option.isSome_iff_exists.mp hfunc
      obtain ⟨ts, hshape, -⟩ := hdescribes.app hf
      exact (h.ctx.nodes n (Array.mem_of_getElem? hn)).positive hshape
    · have ha := htyped.atom ha
      cases a with
      | eq a b => exact ⟨ha.1, ha.2.1⟩
      | pred n => exact ha.1
  exact hterms.wf h.tidy.ok.store

/-! ## Assignments that a context allows -/

namespace Core

variable {c : Core} {a : Nat → Bool} {l : Literal}

/-- The literals of the variables in use that are true in a valuation. -/
def literals (c : Core) (a : Nat → Bool) : List Literal :=
  ((List.range c.vars.size).filter fun v => (c.info v).live).map fun v => .mk' v (!a v)

theorem mem_literals : l ∈ c.literals a ↔ (c.info l.var).live = true ∧ l.Holds a := by
  unfold literals Literal.Holds
  simp only [List.mem_map, List.mem_filter, List.mem_range, Literal.mk'_eq_iff]
  constructor
  · rintro ⟨v, ⟨-, hlive⟩, rfl, hneg⟩
    exact ⟨hlive, by rw [hneg, Bool.not_not]⟩
  · rintro ⟨hlive, hholds⟩
    exact ⟨l.var, ⟨lt_size_of_live hlive, hlive⟩, rfl, by rw [hholds, Bool.not_not]⟩

theorem mem_literals_or (hlive : (c.info l.var).live = true) (a : Nat → Bool) :
    l ∈ c.literals a ∨ l.neg ∈ c.literals a := by
  rw [mem_literals, mem_literals, Literal.var_neg, Literal.holds_neg]
  by_cases hholds : l.Holds a
  · exact .inl ⟨hlive, hholds⟩
  · exact .inr ⟨hlive, hholds⟩

end Core

namespace Context

variable {c c' c'' : Context} {a : Nat → Bool} {lits : List Literal}

/-- The valuation satisfies the clauses and units, and its literals are consistent for
the e-graph. -/
structure Allows (c : Context) (a : Nat → Bool) : Prop where
  models : c.core.db.Models a
  admits : c.registry.egraph.Admits (c.core.literals a)

/-- The same assignments of the same variables are allowed. -/
structure Alike (c c' : Context) : Prop where
  live : ∀ v, (c'.core.info v).live = (c.core.info v).live
  allows : ∀ a, c'.Allows a ↔ c.Allows a

theorem Alike.refl (c : Context) : Alike c c := ⟨fun _ => rfl, fun _ => .rfl⟩

theorem Alike.trans (h : Alike c c') (h' : Alike c' c'') : Alike c c'' :=
  ⟨fun v => (h'.live v).trans (h.live v), fun a => (h'.allows a).trans (h.allows a)⟩

/-- Only nodes and atoms of the e-graph matter. -/
theorem admits_congr (hlive : ∀ v, (c'.core.info v).live = (c.core.info v).live)
    (hnodes : c'.registry.egraph.nodes = c.registry.egraph.nodes)
    (hatoms : c'.registry.egraph.atoms = c.registry.egraph.atoms)
    (h : c.registry.egraph.Admits (c.core.literals a)) :
    c'.registry.egraph.Admits (c'.core.literals a) := by
  refine h.congr (fun l => ?_) hnodes fun v => by rw [hatoms]
  rw [Core.mem_literals, Core.mem_literals, hlive]

/-- Clauses may be added that hold in every allowed assignment. -/
theorem alike_of_same (hlive : ∀ v, (c'.core.info v).live = (c.core.info v).live)
    (hmodels : ∀ a, c.Allows a → c'.core.db.Models a)
    (hmodels' : ∀ a, c'.core.db.Models a → c.core.db.Models a)
    (hnodes : c'.registry.egraph.nodes = c.registry.egraph.nodes)
    (hatoms : c'.registry.egraph.atoms = c.registry.egraph.atoms) :
    Alike c c' :=
  ⟨hlive, fun a => ⟨fun h => ⟨hmodels' a h.models,
    admits_congr (fun v => (hlive v).symm) hnodes.symm hatoms.symm h.admits⟩,
    fun h => ⟨hmodels a h, admits_congr hlive hnodes hatoms h.admits⟩⟩⟩

/-- A stretch of a search that asserts nothing leaves constraints and variables as they are, too. -/
structure Upholds (c c' : Context) : Prop extends Alike c c' where
  constraints : c'.solver.constraints = c.solver.constraints
  interrupted : c'.interrupted = c.interrupted
  vars : c'.vars = c.vars

theorem Upholds.trans (h : Upholds c c') (h' : Upholds c' c'') : Upholds c c'' :=
  ⟨h.toAlike.trans h'.toAlike, h'.constraints.trans h.constraints,
    h'.interrupted.trans h.interrupted, h'.vars.trans h.vars⟩

theorem upholds_of_same (hlive : ∀ v, (c'.core.info v).live = (c.core.info v).live)
    (hmodels : ∀ a, c.Allows a → c'.core.db.Models a)
    (hmodels' : ∀ a, c'.core.db.Models a → c.core.db.Models a)
    (hsame : Egraph.SameNodes c.registry.egraph c'.registry.egraph)
    (hconstraints : c'.solver.constraints = c.solver.constraints)
    (hinterrupted : c'.interrupted = c.interrupted) (hvars : c'.vars = c.vars) : Upholds c c' := by
  refine ⟨alike_of_same hlive hmodels hmodels' hsame.nodes_eq ?_, hconstraints, hinterrupted, hvars⟩
  rw [hsame.eq_with]

/-! ## Between two steps -/

/-- Between two steps of a search. -/
structure Ongoing (c : Context) : Prop where
  going : c.core.state.Going
  paced : c.core.Paced
  tracks : c.registry.egraph.Tracks c.core.state none

/-- The core and the e-graph have propagated everything and found no conflict. -/
structure Balanced (c : Context) : Prop where
  going : c.core.state.Going
  head : c.core.state.head = c.core.state.trail.length
  paced : c.core.Paced
  tracks : ∃ p : Egraph.Propagation, p.conflict = none ∧
    c.registry.egraph.Tracks c.core.state (some p)

/-- A conflict was found: all its literals are false, but every allowed assignment makes one
of them true. -/
structure Contested (lits : List Literal) (c : Context) : Prop where
  disputed : c.core.state.Disputed lits
  paced : c.core.Paced
  tracks : ∃ last, c.registry.egraph.Tracks c.core.state last
  implied : ∀ a, c.Allows a → ∃ l ∈ lits, l.Holds a

theorem Balanced.ongoing (h : c.Balanced) : c.Ongoing := by
  obtain ⟨p, hnone, htracks⟩ := h.tracks
  refine ⟨h.going, h.paced, htracks.forget fun p' hp' => ?_⟩
  cases hp'
  exact hnone

/-- Besides, every variable in use has a value. -/
structure Complete (c : Context) : Prop extends Balanced c where
  total : ∀ v, v ≠ 0 → (c.core.info v).live = true → (c.core.varValue v).isSome = true

/-- What is left to do, the most important first: instances within the bound, clauses that can be
learned, a restart that is due, and room on the trail. -/
noncomputable def effort (c : Context) : ℕ ×ₗ ℕ ×ₗ ℕ ×ₗ ℕ :=
  toLex (c.solver.maxTotalInstances - c.solver.checkInstances, toLex (c.core.state.missing,
    toLex ((if c.core.shouldRestart then 1 else 0), c.core.state.size - c.core.state.trail.length)))

theorem effort_lt_of_instances {new : List Term} (h : c.solver.Counts c'.solver new)
    (hnew : new ≠ [])
    (hwithin : c'.solver.checkInstances ≤ c.solver.maxTotalInstances) : c'.effort < c.effort := by
  have hcheck := h.check
  have hpos := List.length_pos_iff.mpr hnew
  unfold effort
  rw [h.bounds.2]
  exact Prod.Lex.toLex_lt_toLex.mpr (.inl (by omega))

theorem effort_lt_of_missing (hsolver : c'.solver = c.solver)
    (hmissing : c'.core.state.missing < c.core.state.missing) :
    c'.effort < c.effort := by
  unfold effort
  rw [hsolver]
  exact Prod.Lex.toLex_lt_toLex.mpr (.inr ⟨rfl, Prod.Lex.toLex_lt_toLex.mpr (.inl hmissing)⟩)

theorem effort_lt_of_restart (hsolver : c'.solver = c.solver)
    (hmissing : c'.core.state.missing = c.core.state.missing)
    (hdue : c.core.shouldRestart = true) (hdone : c'.core.shouldRestart = false) :
    c'.effort < c.effort := by
  unfold effort
  rw [hsolver, hmissing, hdue, hdone]
  simp [Prod.Lex.toLex_lt_toLex]

theorem effort_lt_of_trail (hsolver : c'.solver = c.solver)
    (hmissing : c'.core.state.missing = c.core.state.missing)
    (hpace : c'.core.pace = c.core.pace) (hsize : c'.core.state.size = c.core.state.size)
    (htrail : c.core.state.trail.length < c'.core.state.trail.length)
    (hroom : c'.core.state.trail.length ≤ c'.core.state.size) : c'.effort < c.effort := by
  unfold effort
  rw [hsolver, hmissing, Core.shouldRestart_eq, Core.shouldRestart_eq, hpace, hsize]
  simp only [Prod.Lex.toLex_lt_toLex, lt_irrefl, true_and, false_or]
  omega

theorem effort_le_of_trail (hsolver : c'.solver = c.solver)
    (hmissing : c'.core.state.missing = c.core.state.missing)
    (hpace : c'.core.pace = c.core.pace) (hsize : c'.core.state.size = c.core.state.size)
    (htrail : c.core.state.trail.length ≤ c'.core.state.trail.length) : c'.effort ≤ c.effort := by
  unfold effort
  rw [hsolver, hmissing, Core.shouldRestart_eq, Core.shouldRestart_eq, hpace, hsize]
  simp only [Prod.Lex.toLex_le_toLex, lt_irrefl, true_and, false_or]
  omega

end Context

/-- What comes of a step up to the point at which the assignment is complete. -/
inductive Context.Approaches (stop : StopRequest) (n : Nat) (c : Context) :
    Option (Option Status) → Context → Prop where
  | stopped {c' : Context} (h : stop = .atStep n ∨ c.interrupted = true) :
    Approaches stop n c (some (some .interrupted)) c'
  | refuted {c' : Context} (h : ∀ a, ¬ c.Allows a) : Approaches stop n c (some (some .unsat)) c'
  | on {c' : Context} (h : c'.Ongoing) (hupholds : c.Upholds c') (heffort : c'.effort < c.effort) :
    Approaches stop n c (some none) c'
  | complete {c' : Context} (h : c'.Complete) (hupholds : c.Upholds c')
    (heffort : c'.effort ≤ c.effort)
    (hrunning : c.interrupted = false) : Approaches stop n c none c'

namespace Work

/-! ## Steps that assert nothing -/

section

variable {q : Quant.Solver} (hq : w.ctx.registry.Has q)

include hq

/-- A propagation leaves everything propagated or finds a conflict. -/
theorem pursues_propagate (h : w.ctx.Ongoing) :
    Ends propagate w (fun conflict w' => w'.ctx.registry.Has q ∧ w.ctx.Upholds w'.ctx ∧
      w'.ctx.effort ≤ w.ctx.effort ∧
      (conflict = none → w'.ctx.Balanced) ∧ ∀ lits, conflict = some lits → w'.ctx.Contested lits)
        fun _ => False := by
  obtain ⟨hnone, hsome⟩ := Core.propagate_turn h.going
  have hgrown := (Core.propagate_spec h.going.ready).grown.toExtends
  have hpaced : w.ctx.core.propagate.2.Paced :=
    h.paced.of_pace (congrArg Prod.snd (Core.pace_propagate _))
  have htracks : w.ctx.registry.egraph.Tracks w.ctx.core.propagate.2.state none :=
    h.tracks.extend hgrown.trail hgrown.starts
  have hdb : w.ctx.core.propagate.2.db = w.ctx.core.db := Core.db_propagate _
  have hupholds {r : Theory.Registry} (hr : r.solver = w.ctx.registry.solver)
      (hsame : Egraph.SameNodes w.ctx.registry.egraph r.egraph) :
      w.ctx.Upholds { w.ctx with core := w.ctx.core.propagate.2, registry := r } :=
    upholds_of_same hgrown.live (fun a ha => hdb ▸ ha.models) (fun a ha => hdb ▸ ha) hsame
      (congrArg _ hr) rfl rfl
  have heffort {r : Theory.Registry} (hr : r.solver = w.ctx.registry.solver) :
      effort { w.ctx with core := w.ctx.core.propagate.2, registry := r } ≤ w.ctx.effort :=
    effort_le_of_trail hr (State.missing_congr hgrown.size hgrown.db)
      (Core.pace_propagate _) hgrown.size
      hgrown.trail.length_le
  refine ends_update_bind (a := w.ctx.core.propagate.1)
    (c := { w.ctx with core := w.ctx.core.propagate.2 }) rfl ?_
  cases hconflict : w.ctx.core.propagate.1 with
  | some lits =>
    obtain ⟨hhalted, n, cl, hcl, hlits, hfalse, -⟩ := hsome lits hconflict
    rw [Option.isSome_some, if_pos rfl]
    refine Ends.pure ⟨hq, hupholds rfl (.refl _), heffort rfl, nofun, fun lits' heq => ?_⟩
    cases heq
    refine ⟨hhalted.disputed hfalse, hpaced, ⟨none, htracks⟩, fun a ha => ?_⟩
    obtain ⟨l, hl, hholds⟩ := ha.models.clause hcl
    exact ⟨l, Multiset.mem_coe.mp (hlits ▸ hl), hholds⟩
  | none =>
    obtain ⟨hgoing, hhead⟩ := hnone hconflict
    have heq := Theory.Registry.propagate_eq hq w.ctx.core.propagate.2.trail
    have htracks' := htracks.propagate
    have htrail : w.ctx.core.propagate.2.state.trail.toArray = w.ctx.core.propagate.2.trail :=
      Array.toArray_toList
    rw [htrail] at htracks'
    rw [Option.isSome_none, if_neg Bool.false_ne_true]
    refine ends_update
      (a := (w.ctx.registry.egraph.propagate w.ctx.core.propagate.2.trail).1.conflict)
      (c := { w.ctx with
        core := w.ctx.core.propagate.2
        registry :=
          { w.ctx.registry with egraph := (w.ctx.registry.egraph.propagate
            w.ctx.core.propagate.2.trail).2 } })
      (by dsimp only; rw [heq]) ⟨hq, hupholds rfl (Egraph.sameNodes_propagate _ _), heffort rfl,
        fun hclear => ?_, fun lits hlits => ?_⟩
    · exact ⟨hgoing, hhead, hpaced, _, hclear, htracks'⟩
    · refine ⟨hgoing.disputed (htracks'.false hlits), hpaced, ⟨_, htracks'⟩, fun a ha => ?_⟩
      obtain ⟨l, hl, hmem⟩ := htracks'.conflict hlits ha.admits fun l hl =>
        Core.mem_literals_or (hgoing.orderly.used l hl) a
      exact ⟨l, hl, (Core.mem_literals.mp hmem).2⟩

/-- After a conflict the search goes on with a clause that is new, or no assignment is allowed. -/
theorem pursues_resolve {lits : List Literal} (h : w.ctx.Contested lits) :
    Ends (resolve lits) w (fun go w' => (go = true → w'.ctx.Ongoing ∧ w.ctx.Upholds w'.ctx ∧
      w'.ctx.effort < w.ctx.effort) ∧
      (go = false → ∀ a, ¬ w.ctx.Allows a)) fun _ => False := by
  refine ends_update_bind (a := (w.ctx.core.analyze lits).1)
    (c := { w.ctx with core := (w.ctx.core.analyze lits).2 }) rfl ?_
  rcases Core.resolve_spec h.disputed w.ctx.depth with
    ⟨hunsat, -, hroot⟩ | ⟨level, first, rest, hlearnt, hgoing, hsize, hmissing, htrail, hstarts,
      hlevel, hlive, hmodels⟩
  · rw [hunsat]
    refine Ends.pure ⟨nofun, fun _ a ha => ?_⟩
    obtain ⟨k, hk, hholds⟩ := h.implied a ha
    have hneg := h.disputed.false k hk
    have hfalse := h.disputed.orderly.assigned.root_holds ha.models.obeys hneg ?_
    · exact Literal.holds_neg.mp hfalse hholds
    · rw [← hroot k hk]
      exact congrArg (fun v => (w.ctx.core.state.cell v).level) (Literal.var_neg k)
  · rw [hlearnt]
    obtain ⟨last, htracks⟩ := h.tracks
    have hpace : (((w.ctx.core.analyze lits).2.backtrack level).learn
        (first :: rest) w.ctx.depth).Paced := by
      refine h.paced.of_pace ?_
      rw [Core.pace_learn, Core.pace_backtrack, Core.pace_analyze]
      rfl
    let c : Context := { w.ctx with
      core := ((w.ctx.core.analyze lits).2.backtrack level).learn (first :: rest) w.ctx.depth
      registry := w.ctx.registry.backtrack level }
    have hlearned : c.Ongoing ∧ w.ctx.Upholds c ∧ c.effort < w.ctx.effort := by
      unfold c
      rw [Theory.Registry.backtrack_eq hq]
      refine ⟨⟨hgoing, hpace, (htracks.back hlevel).extend ?_ hstarts⟩, ?_,
        effort_lt_of_missing rfl hmissing⟩
      · rw [htrail]
        exact List.prefix_append _ _
      · exact upholds_of_same hlive (fun a ha => (hmodels a).2 ha.models (h.implied a ha))
          (fun a ha => (hmodels a).1 ha)
          (Egraph.sameNodes_backtrack _ level) rfl rfl rfl
    exact ends_change_bind (Ends.pure ⟨fun _ => hlearned, nofun⟩)

/-- A restart is not due again before the next conflict. -/
theorem pursues_restart (h : w.ctx.Balanced) {factor : Float} (hfactor : 1.0 ≤ factor)
    (hdue : w.ctx.core.shouldRestart = true) :
    let c : Context :=
  { w.ctx with core := w.ctx.core.restart factor, registry := w.ctx.registry.backtrack 0 }
    c.Ongoing ∧ w.ctx.Upholds c ∧ c.effort < w.ctx.effort := by
  have hongoing := h.ongoing
  have hstate : (w.ctx.core.restart factor).state = w.ctx.core.state.back 0 :=
    Core.state_backtrack w.ctx.core 0
  obtain ⟨hpaced, hdone⟩ := Core.restart_paced h.paced hfactor
  rw [Theory.Registry.backtrack_eq hq]
  refine ⟨⟨?_, hpaced, ?_⟩, ?_, ?_⟩
  · exact hstate ▸ h.going.back 0
  · exact hstate ▸ hongoing.tracks.base
  · refine upholds_of_same (fun v => Core.live_backtrack w.ctx.core 0 v) (fun a ha => ?_)
      (fun a ha => ?_)
      (Egraph.sameNodes_backtrack _ 0) rfl rfl rfl
    · rw [Core.db_restart]
      exact ha.models
    · rwa [Core.db_restart] at ha
  · refine effort_lt_of_restart rfl ?_ hdue hdone
    rw [hstate]
    exact State.missing_congr (State.size_back _ 0) (State.db_back _ 0)

/-- A decision is taken when everything was propagated. -/
theorem pursues_decide (h : w.ctx.Balanced) {l : Literal}
    (hpick : w.ctx.core.pickBranch.1 = some l) :
    let c : Context :=
  { w.ctx with core := w.ctx.core.pickBranch.2.decide l, registry := w.ctx.registry.openLevel }
    c.Ongoing ∧ w.ctx.Upholds c ∧ c.effort < w.ctx.effort := by
  obtain ⟨hvalue, hlive⟩ := Core.open_of_pickBranch hpick
  obtain ⟨p, hnone, htracks⟩ := h.tracks
  have hstate : (w.ctx.core.pickBranch.2.decide l).state = w.ctx.core.state.decide l := by
    rw [Core.state_decide, Core.state_pickBranch]
  have hpace : (w.ctx.core.pickBranch.2.decide l).pace = w.ctx.core.pace := by
    rw [Core.pace_decide, Core.pace_pickBranch]
  have hgoing := h.going.decide h.head hvalue hlive
  have hlives (v : Nat) : ((w.ctx.core.state.decide l).cell v).live =
      (w.ctx.core.state.cell v).live :=
    (State.Extends.assign { w.ctx.core.state with starts := w.ctx.core.state.starts ++
      [w.ctx.core.state.trail.length] } l none).live v
  have hlength : (w.ctx.core.state.decide l).trail.length = w.ctx.core.state.trail.length + 1 :=
    List.length_append
  have hdb : (w.ctx.core.pickBranch.2.decide l).db = w.ctx.core.db := by
    rw [Core.db_decide, Core.db_pickBranch]
  rw [Theory.Registry.openLevel_eq hq]
  refine ⟨⟨?_, h.paced.of_pace (congrArg Prod.snd hpace), ?_⟩, ?_, ?_⟩
  · exact hstate ▸ hgoing
  · exact hstate ▸ htracks.decide hnone l
  · refine upholds_of_same (fun v => ?_) (fun a ha => hdb ▸ ha.models) (fun a ha => hdb ▸ ha)
      (.modify _ _) rfl rfl rfl
    exact (congrArg (fun s : State => (s.cell v).live) hstate).trans (hlives v)
  · refine effort_lt_of_trail rfl ?_ hpace ?_ ?_ ?_
    all_goals rw [hstate]
    · exact State.missing_congr rfl rfl
    · rfl
    · omega
    · exact hgoing.orderly.assigned.length_le

/-- One step of a search, up to the point at which the assignment is complete. -/
theorem pursues_approach {p : Params} (hp : p.validate = .ok ()) (stop : StopRequest) (n : Nat)
    (h : w.ctx.Ongoing) :
    Ends (approach p stop n) w (fun outcome w' => w.ctx.Approaches stop n outcome w'.ctx) fun _ =>
      False := by
  refine ends_change_bind (ends_look_bind ?_)
  -- the ways out of the step in the order in which it looks for them
  by_cases hseen : stop = .atStep n ∨ w.ctx.interrupted = true
  · have hafter : (if stop = .atStep n then w.ctx.stop else w.ctx).interrupted = true := by
      split
      · rfl
      next hstop => exact hseen.resolve_left hstop
    rw [if_pos hafter]
    exact Ends.pure (.stopped hseen)
  obtain ⟨hstop, hrunning⟩ := not_or.mp hseen
  simp only [if_neg hstop]
  rw [if_neg hrunning]
  refine Ends.bind (Ends.mono (pursues_propagate hq h) (fun conflict w₁ hw₁ => ?_)
    fun _ => False.elim)
  obtain ⟨hq₁, hupholds, heffort, hnone, hsome⟩ := hw₁
  cases conflict with
  | some lits =>
    refine Ends.bind (Ends.bind (Ends.mono (pursues_resolve hq₁ (hsome lits rfl))
      (fun go w₂ hw₂ => ?_) fun _ => False.elim))
    cases go with
    | true =>
      obtain ⟨hongoing, hupholds', heffort'⟩ := hw₂.1 rfl
      exact Ends.pure (Ends.pure (.on hongoing (hupholds.trans hupholds')
        (lt_of_lt_of_le heffort' heffort)))
    | false =>
      exact Ends.pure (Ends.pure (.refuted fun a ha => hw₂.2 rfl a ((hupholds.allows a).mpr ha)))
  | none =>
    have h₁ := hnone rfl
    refine ends_look_bind ?_
    split
    next hdue =>
      obtain ⟨hongoing, hupholds', heffort'⟩ :=
        pursues_restart hq₁ h₁ (Core.one_le_restartFactor hp) hdue
      exact ends_change_bind (Ends.pure
        (.on hongoing (hupholds.trans hupholds') (lt_of_lt_of_le heffort' heffort)))
    refine ends_update_bind (a := w₁.ctx.core.pickBranch.1)
      (c := { w₁.ctx with core := w₁.ctx.core.pickBranch.2 }) rfl ?_
    cases hpick : w₁.ctx.core.pickBranch.1 with
    | some l =>
      obtain ⟨hongoing, hupholds', heffort'⟩ := pursues_decide hq₁ h₁ hpick
      exact ends_change_bind (Ends.pure
        (.on hongoing (hupholds.trans hupholds') (lt_of_lt_of_le heffort' heffort)))
    | none =>
      -- no variable is open: the heap was emptied, and nothing else in the core was changed
      have hstate := Core.state_pickBranch w₁.ctx.core
      have hlive (v : Nat) : (w₁.ctx.core.pickBranch.2.info v).live = (w₁.ctx.core.info v).live :=
        congrArg (fun s : State => (s.cell v).live) hstate
      have hvalue (v : Nat) : w₁.ctx.core.pickBranch.2.varValue v = w₁.ctx.core.varValue v :=
        congrArg (fun s : State => (s.cell v).value) hstate
      have hpaced : w₁.ctx.core.pickBranch.2.Paced :=
        h₁.paced.of_pace (congrArg Prod.snd (Core.pace_pickBranch _))
      let c : Context := { w₁.ctx with core := w₁.ctx.core.pickBranch.2 }
      have hpicked : w₁.ctx.Upholds c := by
        refine upholds_of_same hlive (fun a ha => ?_) (fun a ha => ?_) (.refl _) rfl rfl rfl
        · exact (Core.db_pickBranch w₁.ctx.core).symm ▸ ha.models
        · exact Core.db_pickBranch w₁.ctx.core ▸ ha
      have heffort' : c.effort ≤ w₁.ctx.effort :=
        effort_le_of_trail rfl (congrArg State.missing hstate) (Core.pace_pickBranch _)
          (congrArg State.size hstate)
          (Nat.le_of_eq (congrArg (fun s : State => s.trail.length) hstate.symm))
      refine Ends.pure (.complete
        ⟨⟨hstate ▸ h₁.going, hstate ▸ h₁.head, hpaced, hstate ▸ h₁.tracks⟩, fun v hv hin => ?_⟩
        (hupholds.trans hpicked) (le_trans heffort' heffort) (Bool.eq_false_iff.mpr hrunning))
      rw [hvalue]
      exact Core.assigned_of_pickBranch hpick hv ((hlive v).symm.trans hin)

end

end Work

/-! ## Rounds of instances -/

namespace Core

variable {c c' c'' : Core}

/-- Besides, a search goes on at level 0 as long as no contradiction was found, with the same
restart ahead. -/
structure Amasses (c c' : Core) : Prop extends Gathers c c' where
  admits : c.state.Running → c.state.Admits c'.state
  pace : c'.pace = c.pace

namespace Amasses

theorem refl (h : c.state.Orderly) (hstarts : c.state.starts = []) : Amasses c c :=
  ⟨.refl h hstarts, fun _ hi => ⟨hi, id⟩, rfl⟩

theorem trans (h : Amasses c c') (h' : Amasses c' c'') : Amasses c c'' :=
  ⟨h.toGathers.trans h'.toGathers, fun hr => (h.admits hr).trans (h'.admits (h.running hr)),
    h'.pace.trans h.pace⟩

theorem ensureVars {α : Type} (var : α → Nat) (as : List α) (h : c.state.Orderly)
    (hstarts : c.state.starts = []) :
    Amasses c (as.foldl (fun c a => c.ensureVar (var a)) c) := by
  refine ⟨gathers_ensureVars var as h hstarts, fun hr => ?_,
    pace_foldl (fun c a => pace_ensureVar c (var a)) as c⟩
  have hens := ensureVars_running (as.map fun a => Literal.pos (var a)) c hr
  simp only [List.foldl_map, Literal.var_pos] at hens
  exact hens.2

theorem addClause (h : c.state.Orderly) (hstarts : c.state.starts = []) (lits : List Literal)
    (scope : Nat) :
    Amasses c (c.addClause lits scope) :=
  ⟨gathers_addClause h hstarts lits scope, fun hr => (addClause_running hr hstarts lits scope).2,
    pace_addClause c lits scope⟩

theorem going (h : Amasses c c') (hc : c.state.Going) (hroot : c'.hasRootConflict = false) :
    c'.state.Going := by
  obtain ⟨hconflict, hempty⟩ := Bool.or_eq_false_iff.mp hroot
  have hnone : c'.emptyClause = none := by simpa using hempty
  have hintact : c'.state.Intact := ⟨hconflict, hnone⟩
  exact ⟨h.running hc.toRunning, (h.admits hc.toRunning hintact).2 hc.rooted, hintact⟩

end Amasses

end Core

theorem Edit.amasses (h : Edit w w') (horderly : w.ctx.core.state.Orderly)
    (hstarts : w.ctx.core.state.starts = []) :
    w.ctx.core.Amasses w'.ctx.core := by
  cases h with
  | clause s c lits => exact .addClause horderly hstarts lits _
  | _ => exact .refl horderly hstarts

theorem Edits.amasses (h : Edits w w') (horderly : w.ctx.core.state.Orderly)
    (hstarts : w.ctx.core.state.starts = []) :
    w.ctx.core.Amasses w'.ctx.core := by
  induction h with
  | refl => exact .refl horderly hstarts
  | tail _ hedit ih => exact ih.trans (hedit.amasses ih.orderly ih.starts)

theorem Edit.interrupted (h : Edit w w') : w'.ctx.interrupted = w.ctx.interrupted := by
  cases h <;> rfl

theorem Edits.interrupted (h : Edits w w') : w'.ctx.interrupted = w.ctx.interrupted := by
  induction h with
  | refl => rfl
  | tail _ hedit ih => exact hedit.interrupted.trans ih

namespace Workspace

/-- Nodes that are added leave those of the trail alone: a variable on the trail without an atom
stands for no equality and no application. -/
theorem grown_of_maintains (hw : w.Able) (h : w.ctx.now.Attached w.store) (hm : Maintains w w')
    (core : Core) (hcore : ∀ l ∈ core.state.trail, l ∈ w.ctx.core.trail) {g : Egraph}
    (hsame : Egraph.SameNodes w.ctx.registry.egraph g)
    (hclasses : w'.ctx.registry.egraph.classes = g.classes) :
    Egraph.Grown core.state.trail.toArray g w'.ctx.registry.egraph := by
  have hw' := maintains_frame.stable hw hm
  refine ⟨hw'.wf, hsame.nodes_eq ▸ hm.grows.binds.nodes, fun l hl => ?_, hclasses⟩
  have hatoms : g.atoms[l.var]? = w.ctx.registry.egraph.atoms[l.var]? := by rw [hsame.eq_with]
  rw [hatoms]
  cases hold : w.ctx.registry.egraph.atoms[l.var]? with
  | some atom => exact hm.grows.binds.atoms hold
  | none =>
    cases hnew : w'.ctx.registry.egraph.atoms[l.var]? with
    | none => rfl
    | some atom =>
      obtain ⟨t, ht⟩ := hw.tidy.refers.core.trail l (hcore l (List.mem_toArray.mp hl))
      obtain ⟨t', ht', hstands⟩ := hw'.tidy.refers.atoms hnew
      cases (hm.grows.vars ht).symm.trans ht'
      have hatomic : w'.store.IsAtomic t := by
        cases hstands with
        | eq hshape => exact .inl ⟨_, _, hshape⟩
        | pred hshape => exact .inr ⟨_, _, hshape⟩
      obtain ⟨atom', hatom'⟩ := h l.var t ht
        ((isAtomic_iff_of_later hm.grows.keeps.store (hw.tidy.ok.ctx.live ht)).mp hatomic)
      cases hold.symm.trans hatom'

end Workspace

/-- Between two steps of a search over a context in which everything is in order. -/
structure Workspace.Pursuing (w : Workspace) : Prop where
  able : w.Able
  attached : w.ctx.now.Attached w.store
  ongoing : w.ctx.Ongoing

namespace Workspace

theorem Able.pursuing (hw : w.Able) (h : w.ctx.now.Attached w.store) (hm : Maintains w w')
    (hongoing : w'.ctx.Ongoing) :
    w'.Pursuing :=
  ⟨maintains_frame.stable hw hm, hm.grows.binds.attached hw.tidy.ok.ctx hm.grows.keeps.store h,
    hongoing⟩

theorem Pursuing.maintains (h : w.Pursuing) (hm : Maintains w w') (hongoing : w'.ctx.Ongoing) :
    w'.Pursuing :=
  h.able.pursuing h.attached hm hongoing

end Workspace

/-- What comes of a step. Without quantifiers the same assignments stay allowed up to the end. -/
inductive Workspace.Turns (stop : StopRequest) (w : Workspace) :
    Option Status → Workspace → Prop where
  | stopped {w' : Workspace} (h : stop ≠ .never ∨ w.ctx.interrupted = true) :
    Turns stop w (some .interrupted) w'
  | refuted {w' : Workspace} (h : w.ctx.solver.constraints = #[] → ∀ a, ¬ w.ctx.Allows a) :
    Turns stop w (some .unsat) w'
  | on {w' : Workspace} (h : w'.Pursuing) (heffort : w'.ctx.effort < w.ctx.effort)
    (hinterrupted : w'.ctx.interrupted = w.ctx.interrupted)
    (hupholds : w.ctx.solver.constraints = #[] → w.ctx.Upholds w'.ctx) : Turns stop w none w'
  | answered {w' : Workspace} {status : Status} (h : w'.ctx.Complete) (hstatus : status = .sat ∨
    status = .unknown)
    (hupholds : w.ctx.solver.constraints = #[] → status = .sat ∧ w.ctx.Upholds w'.ctx) :
    Turns stop w (some status) w'

namespace Work

variable {formulas : List Term}

/-- Formulas are processed at level 0. -/
theorem edits_assertInstances (formulas : List Term) (w : Workspace) :
    Ends (assertInstances formulas) w (fun go w' => ∃ w₁, Entail.Edits ⟨w.store, { w.ctx with
        core := w.ctx.core.backtrack 0, registry := w.ctx.registry.backtrack 0 }⟩ w₁ ∧
      w' = ⟨w₁.store, w₁.ctx.syncVars⟩ ∧ go = !w'.ctx.core.hasRootConflict) fun _ => True := by
  refine ends_change_bind (Ends.bind ?_)
  refine Ends.mono (Leads.of_moves_any
    (edits_frame.forM formulas (fun t _ => edits_process t) _ trivial))
    (fun _ w₁ hw₁ => ?_) fun w₁ hw₁ => trivial
  exact ends_change_bind ⟨w₁, hw₁.1, rfl, rfl⟩

/-- Unless the formulas are contradictory, the search goes on at level 0. -/
theorem pursues_assertInstances (h : w.Pursuing)
    (hformulas : ∀ t ∈ formulas, w.store.Has t .bool ∧ w.store.Supported [] t) :
    Ends (assertInstances formulas) w
      (fun go w' => w'.ctx.interrupted = w.ctx.interrupted ∧ (go = true → w'.Pursuing)) fun _ =>
        True := by
  have hmaintains := (maintains_assertInstances h.able hformulas).leads
  refine Ends.mono (Ends.both hmaintains (edits_assertInstances formulas w)) (fun go w' hw' => ?_)
    fun _ _ => trivial
  obtain ⟨⟨hm, -⟩, w₁, hedits, rfl, rfl⟩ := hw'
  refine ⟨hedits.interrupted, fun hgo => h.maintains hm ?_⟩
  have hstate := Core.state_backtrack w.ctx.core 0
  have hbased : (w.ctx.core.backtrack 0).state.Going := hstate ▸ h.ongoing.going.back 0
  have hstarts : (w.ctx.core.backtrack 0).state.starts = [] := hstate ▸ Core.starts_back_zero _
  have hbacktrack := Theory.Registry.backtrack_eq h.able.tidy.ok.ctx.registry 0
  have htracks : (w.ctx.registry.egraph.backtrack 0).Tracks (w.ctx.core.backtrack 0).state none :=
    hstate ▸ h.ongoing.tracks.base
  have hamasses := hedits.amasses hbased.orderly hstarts
  have hsync : w₁.ctx.core.Amasses w₁.ctx.syncVars.core := by
    have hens := Core.Amasses.ensureVars
      (fun a : Announcement => a.var) w₁.ctx.vars.collect.1.toList hamasses.orderly hamasses.starts
    rwa [Array.foldl_toList] at hens
  have hall := hamasses.trans hsync
  have hclasses : w₁.ctx.syncVars.registry.egraph.classes =
      (w.ctx.registry.egraph.backtrack 0).classes := by
    have hsame := (hedits.gathers hbased.orderly hstarts).egraph.classes
    rw [hbacktrack] at hsame
    exact hsame
  have hgrown := grown_of_maintains h.able h.attached hm (w.ctx.core.backtrack 0)
    (fun l hl => Array.mem_toList_iff.mp (h.ongoing.going.orderly.assigned.mem_of_back 0
      (hstate ▸ hl)).1)
    (Egraph.sameNodes_backtrack _ 0) hclasses
  refine ⟨hall.going hbased ((Bool.not_eq_true' _).mp hgo), ?_, ?_⟩
  · refine h.ongoing.paced.of_pace (congrArg Prod.snd (hall.pace.trans (Core.pace_backtrack _ 0)))
  · exact (htracks.grow hstarts hgrown).extend hall.trail (hall.starts.trans hstarts.symm)

/-! ## Steps -/

theorem finalCheck_of_empty {q : Quant.Solver} (h : q.constraints = #[]) (g : Option Egraph)
    (s : Store) :
    q.finalCheck g s = ((.done, [], q), s) := by
  unfold Quant.Solver.finalCheck
  cases g with
  | none => rfl
  | some g =>
    simp only [h]
    rfl

theorem interrupted_finalCheck {n : Nat} {x : FinalCheck × Theory.Output}
    (h : finalCheck .never n w = .ok x w') :
    w'.ctx.interrupted = w.ctx.interrupted := by
  cases h
  rfl

/-- A look at a complete assignment ends the search, or there are new instances. -/
theorem pursues_conclude (h : w.Pursuing) (hcomplete : w.ctx.Complete)
    (hrunning : w.ctx.interrupted = false) (stop : StopRequest) (n : Nat) :
    (∀ status w', conclude stop n w = .ok status w' → w.Turns stop status w') ∧
      ∀ e w', conclude stop n w = .error e w' → e.TooLarge ∧ w.ctx.solver.constraints ≠ #[] := by
  obtain ⟨x, w₁, hfinal⟩ : ∃ x w₁, finalCheck stop n w = .ok x w₁ := ⟨_, _, rfl⟩
  obtain ⟨hm, -, hformulas⟩ := (maintains_finalCheck h.able stop n).of_ok hfinal
  obtain ⟨hlook, hhas, hconflict, interrupted, hctx, hegraph⟩ :=
    finalCheck_eq_ok h.able.tidy.ok.ctx.registry hfinal
  obtain ⟨hyields, hstretch, hcontinue, hdone⟩ := looks_of_finalCheck h.able.tidy hfinal
  have hcore : w₁.ctx.core = w.ctx.core := by rw [hctx]
  have hcomplete₁ : w₁.ctx.Complete := by
    refine ⟨⟨hcore ▸ hcomplete.going, hcore ▸ hcomplete.head, hcore ▸ hcomplete.paced, ?_⟩,
      hcore ▸ hcomplete.total⟩
    rw [hcore, hegraph]
    exact hcomplete.tracks
  have hquantified (hformulas : x.2.formulas ≠ []) : w.ctx.solver.constraints ≠ #[] := by
    obtain ⟨t, ht⟩ := List.exists_mem_of_ne_nil _ hformulas
    obtain ⟨c, b, σ, ⟨hc, -⟩, -⟩ := hstretch.made t ht
    exact fun hempty => Array.not_mem_empty c (hempty ▸ hc)
  rw [conclude_eq, bind_of_ok hfinal]
  unfold respond
  rw [bind_of_ok (rfl : look _ w₁ = .ok w₁.ctx.interrupted w₁), hconflict]
  cases hseen : w₁.ctx.interrupted with
  | true =>
    rw [if_pos rfl]
    refine ⟨fun status w' heq => ?_, fun e w' heq => by cases heq⟩
    cases heq
    refine .stopped (.inl ?_)
    rintro rfl
    rw [interrupted_finalCheck hfinal, hrunning] at hseen
    cases hseen
  | false =>
    have hsame : w₁.ctx.interrupted = w.ctx.interrupted := hseen.trans hrunning.symm
    rw [if_neg Bool.false_ne_true]
    dsimp only
    split
    next hnew =>
      have hnew : x.2.formulas ≠ [] := by simpa using (Bool.and_eq_true_iff.mp hnew).2
      have hpursuing₁ := h.maintains hm hcomplete₁.ongoing
      have hrounds := pursues_assertInstances hpursuing₁ hformulas
      cases hrun : assertInstances x.2.formulas w₁ with
      | ok go w₂ =>
        obtain ⟨hinterrupted, hgo⟩ := hrounds.of_ok hrun
        have hquiet : Quiet w₁ w₂ := quiet_of_ok (quiets_assertInstances _) hpursuing₁.able hrun
        have hcounts := (hyields.quiet hquiet).counts
        unfold unlessStuck
        rw [bind_of_ok hrun]
        refine ⟨fun status w' heq => ?_, fun e w' heq => by cases heq⟩
        cases heq
        cases go with
        | true =>
          refine .on (hgo rfl) (effort_lt_of_instances hcounts hnew ?_) (hinterrupted.trans hsame)
              fun hnone =>
            absurd hnone (hquantified hnew)
          have hcheck := hquiet.counts.check
          rw [List.length_nil, Nat.add_zero] at hcheck
          rw [hcheck]
          exact (hstretch.within hnew).2
        | false => exact .refuted fun hnone => absurd hnone (hquantified hnew)
      | error e w₂ =>
        unfold unlessStuck
        rw [bind_of_error hrun]
        refine ⟨fun status w' heq => (by cases heq), fun e' w' heq => ?_⟩
        cases heq
        exact ⟨(maintains_assertInstances hpursuing₁.able hformulas).cause hrun, hquantified hnew⟩
    next hdone' =>
      have hnone : x.2.formulas = [] := by
        by_contra hnew
        refine hdone' (Bool.and_eq_true_iff.mpr ⟨decide_eq_true (hcontinue.mpr hnew), ?_⟩)
        simpa using hnew
      -- without constraints there is nothing to say
      have hempty (hnone : w.ctx.solver.constraints = #[]) :
          x.1 = .done ∧ w₁.ctx.solver = w.ctx.solver := by
        rw [finalCheck_of_empty hnone] at hlook
        obtain ⟨hx, hsolver⟩ := Prod.mk.inj (congrArg Prod.fst hlook)
        exact ⟨hx.symm, (congrArg Prod.snd hsolver).symm⟩
      have hupholds (hnone : w.ctx.solver.constraints = #[]) : w.ctx.Upholds w₁.ctx := by
        refine upholds_of_same (fun v => by rw [hcore]) (fun a ha => hcore ▸ ha.models)
          (fun a ha => hcore ▸ ha) ?_
          (congrArg _ (hempty hnone).2) hsame (by rw [hctx])
        exact hegraph ▸ .refl _
      split
      next hincomplete =>
        refine ⟨fun status w' heq => ?_, fun e w' heq => by cases heq⟩
        cases heq
        refine .answered hcomplete₁ (.inr rfl) fun hnone => ?_
        cases hincomplete.symm.trans (hempty hnone).1
      · refine ⟨fun status w' heq => ?_, fun e w' heq => by cases heq⟩
        cases heq
        refine .answered hcomplete₁ ?_ fun hnone => ⟨?_, hupholds hnone⟩
        · split <;> simp
        · have hcomplete : w₁.ctx.registry.isComplete = true := by
            unfold Theory.Registry.isComplete
            rw [show w₁.ctx.registry.satellites = _ from hhas]
            simp [Theory.Satellite.isComplete, Quant.Solver.isComplete, (hempty hnone).2, hnone]
          rw [if_pos hcomplete]

end Work

end Entail
