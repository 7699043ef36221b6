import Entail.Proofs.Search.Entailment
import Entail.Proofs.Search.Scopes

/-!
# The variables that a core mentions

Clauses, units and the trail of a core mention variables, and so do the clauses that it learns and
the conflicts that it reports: whatever the core answers is put together from literals that it was
given. So a core that is given variables of some set only, and told to use no others, keeps to that
set. Nothing is assumed of the core; neither its watches nor the levels of its trail have to be in
order for this.
-/

namespace Entail

namespace Search

/-- The variables of all literals are in `vs`. -/
def Over (vs : Nat → Prop) (lits : List Literal) : Prop := ∀ l ∈ lits, vs l.var

/-- The variables of the clauses and units are in `vs`. -/
structure Kept.Over (vs : Nat → Prop) (k : Kept) : Prop where
  clauses : ∀ {n cl}, k.clauses n = some cl → ∀ l ∈ cl.1, vs l.var
  units : ∀ u ∈ k.units, vs u.1.var

theorem Kept.Over.mono {vs vs' : Nat → Prop} {k : Kept} (h : k.Over vs) (hvs : ∀ v, vs v → vs' v) :
    k.Over vs' :=
  ⟨fun hn l hl => hvs _ (h.clauses hn l hl), fun u hu => hvs _ (h.units u hu)⟩

theorem Over.mono {vs vs' : Nat → Prop} {lits : List Literal} (h : Over vs lits)
    (hvs : ∀ v, vs v → vs' v) :
    Over vs' lits := fun l hl => hvs _ (h l hl)

theorem over_nil (vs : Nat → Prop) : Over vs [] := List.forall_mem_nil _

theorem Over.neg {vs : Nat → Prop} {lits : List Literal} (h : Over vs lits) :
    Over vs (lits.map .neg) := by
  intro l hl
  obtain ⟨k, hk, rfl⟩ := List.mem_map.mp hl
  exact (Literal.var_neg k).symm ▸ h k hk

namespace Database

/-- All clauses, units and the empty clause. -/
def all (d : Database) : Kept := ⟨d.clause?, d.units.toList, d.empty⟩

variable {d : Database} {vs : Nat → Prop} {depth : Nat}

/-- Storing a clause over some variables keeps the database over them. -/
theorem over_store (h : d.all.Over vs) (hd : d.Ok depth) {cl : Content}
    (hcl : ∀ l ∈ cl.1, vs l.var) :
    (d.store cl).all.Over vs := by
  obtain ⟨n, -, hclause⟩ := clause?_store hd cl
  have hunits : (d.store cl).units = d.units := by
    unfold Database.store
    split <;> rfl
  refine ⟨fun {m cl'} hm => ?_, fun u hu => ?_⟩
  · change (d.store cl).clause? m = some cl' at hm
    rw [hclause] at hm
    split at hm
    · cases hm
      exact hcl
    · exact h.clauses hm
  · change u ∈ (d.store cl).units.toList at hu
    rw [hunits] at hu
    exact h.units u hu

theorem over_addUnit (h : d.all.Over vs) {l : Literal} (hl : vs l.var) (scope : Nat) :
    (d.addUnit l scope).all.Over vs := by
  refine ⟨h.clauses, fun u hu => ?_⟩
  rcases Array.mem_push.mp (Array.mem_toList_iff.mp hu) with hu | rfl
  · exact h.units u (Array.mem_toList_iff.mpr hu)
  · exact hl

end Database
end Search

namespace Core

open Search

variable {c c' : Core} {vs vs' : Nat → Prop} {l : Literal} {lits : List Literal} {depth : Nat}

/-- The variables that the core mentions or uses are in `vs`. -/
structure Over (vs : Nat → Prop) (c : Core) : Prop where
  db : c.db.all.Over vs
  trail : ∀ l ∈ c.trail, vs l.var
  live : ∀ {v}, (c.info v).live = true → vs v

/-- Releasing variables changes what is known of them only. -/
theorem foldl_releaseVar_eq (ns : List Nat) (c : Core) :
    ∃ vars misused, ns.foldl releaseVar c = { c with vars, misused } := by
  induction ns generalizing c with
  | nil => exact ⟨c.vars, c.misused, rfl⟩
  | cons n ns ih => exact ih (c.releaseVar n)

/-- Releasing a list of variables leaves the others live. -/
theorem live_foldl_releaseVar (ns : List Nat) (c : Core) (v : Nat) :
    ((ns.foldl releaseVar c).info v).live = true ↔ (c.info v).live = true ∧ v ∉ ns := by
  induction ns generalizing c with
  | nil => simp
  | cons n ns ih =>
    rw [List.foldl_cons, ih, releaseVar, info_modifyVar]
    split
    next heq => simp [heq.1]
    next hne =>
      -- a variable in use is one that there is room for
      have hroom (hv : (c.info v).live = true) : v < c.vars.size := by
        by_contra hge
        simp [info, hge] at hv
      refine and_congr_right fun hv => ?_
      have : v ≠ n := fun heq => hne ⟨heq, hroom hv⟩
      simp [this]

/-- Dropping scopes empties the trail. -/
theorem trail_popScopes (c : Core) (depth : Nat) : (c.popScopes depth).trail = #[] := by
  have htrail : (c.popScopes depth).state.trail = c.state.clear.trail := by rw [state_popScopes]
  exact Array.toList_inj.mp htrail

theorem trail_ensureVar (c : Core) (v : Nat) : (c.ensureVar v).trail = c.trail := by
  have htrail : (c.ensureVar v).state.trail = (c.state.ensure v).trail := by rw [state_ensureVar]
  exact Array.toList_inj.mp htrail

namespace Over

/-- A core over some variables is over more. -/
theorem mono (h : c.Over vs) (hvs : ∀ v, vs v → vs' v) : c.Over vs' where
  db := h.db.mono hvs
  trail l hl := hvs _ (h.trail l hl)
  live hv := hvs _ (h.live hv)

/-- A core that holds the same clauses, uses no other variables and has nothing else on its
trail. -/
theorem of_same (h : c.Over vs) (hdb : c'.db = c.db) (htrail : ∀ l ∈ c'.trail, l ∈ c.trail)
    (hlive : ∀ v, (c'.info v).live = (c.info v).live) : c'.Over vs where
  db := hdb ▸ h.db
  trail l hl := h.trail l (htrail l hl)
  live {v} hv := h.live (hlive v ▸ hv)

theorem require (h : c.Over vs) (ok : Bool) : (c.require ok).Over vs := ⟨h.db, h.trail, h.live⟩

/-- A clause of the core. -/
theorem clause (h : c.Over vs) {n : Nat} {cl : Clause} (hn : (c.clauses[n]?).join = some cl) :
    Search.Over vs cl.lits := by
  intro l hl
  have hcontent : c.db.clause? n = some cl.content := by
    rw [clause?_db, hn]
    rfl
  exact h.db.clauses hcontent l (Multiset.mem_coe.mpr hl)

/-! ## The trail -/

/-- Assigning a literal keeps the trail over the variables that its literal is over. -/
theorem enqueue (h : c.Over vs) (hl : vs l.var) (reason : Option Nat) :
    (c.enqueue l reason).Over vs where
  db := h.db
  trail k hk := by
    rcases Array.mem_push.mp hk with hk | rfl
    · exact h.trail k hk
    · exact hl
  live {v} hv := h.live (live_enqueue c l reason v ▸ hv)

theorem decide (h : c.Over vs) (hl : vs l.var) : (c.decide l).Over vs := by
  have hopened : Over vs { c with
      levelStarts := c.levelStarts.push c.trail.size
      stats := { c.stats with decisions := c.stats.decisions + 1 } } := ⟨h.db, h.trail, h.live⟩
  exact hopened.enqueue hl none

theorem assignUnit (h : c.Over vs) (hl : vs l.var) : (c.assignUnit l).2.Over vs := by
  unfold Core.assignUnit
  split
  · exact ⟨h.db, h.trail, h.live⟩
  · exact h
  · exact h.enqueue hl none

theorem assignUnitList {us : List (Literal × Nat)} (h : c.Over vs) (hus : ∀ u ∈ us, vs u.1.var) :
    (Core.assignUnitList us c).2.Over vs := by
  induction us generalizing c with
  | nil => exact h
  | cons u us ih =>
    have hone := h.assignUnit (hus u List.mem_cons_self)
    unfold Core.assignUnitList
    split
    next heq =>
      rw [heq] at hone
      exact ih hone fun x hx => hus x (List.mem_cons_of_mem _ hx)
    next heq =>
      rw [heq] at hone
      exact hone

/-- The units that are assigned come from the database. -/
theorem assignUnits (h : c.Over vs) : c.assignUnits.2.Over vs := by
  have hrequire := h.require (c.decisionLevel = 0)
  simp only [Core.assignUnits]
  split
  · exact hrequire
  · exact hrequire.assignUnitList h.db.units

/-- Backtracking takes literals from the trail, and puts none on it. -/
theorem backtrack (h : c.Over vs) (level : Nat) : (c.backtrack level).Over vs := by
  refine h.of_same (db_backtrack c level) (fun l hl => ?_) fun v => live_backtrack c level v
  have hmem : l ∈ (c.backtrack level).state.trail := Array.mem_toList_iff.mpr hl
  rw [state_backtrack] at hmem
  unfold State.back at hmem
  split at hmem
  · exact Array.mem_toList_iff.mp hmem
  · exact Array.mem_toList_iff.mp (List.mem_of_mem_take hmem)

theorem resetTrail (h : c.Over vs) : c.resetTrail.Over vs := by
  refine h.of_same (db_resetTrail c) (fun l hl => ?_) fun v => live_resetTrail c v
  have hmem : l ∈ c.resetTrail.state.trail := Array.mem_toList_iff.mpr hl
  rw [state_resetTrail] at hmem
  exact Array.mem_toList_iff.mp (List.mem_of_mem_take hmem)

theorem restart (h : c.Over vs) (factor : Float) : (c.restart factor).Over vs :=
  have hback := h.backtrack 0
  ⟨hback.db, hback.trail, hback.live⟩

/-- A search begins with the units of the database on its trail. -/
theorem startSearch (h : c.Over vs) (p : Params) : (c.startSearch p).2.Over vs :=
  have hreset := h.resetTrail
  assignUnits
    (c := { c.resetTrail with decay := _, restartThreshold := _, conflictsSinceRestart := _ })
    ⟨hreset.db, hreset.trail, hreset.live⟩

/-! ## Variables -/

/-- A variable that is made live is one of the variables. -/
theorem ensureVar (h : c.Over vs) {v : Nat} (hv : vs v) : (c.ensureVar v).Over vs where
  db := db_ensureVar c v ▸ h.db
  trail l hl := h.trail l (trail_ensureVar c v ▸ hl)
  live {u} hu := by
    have hcell : ((c.state.ensure v).cell u).live = true := by
      rw [← state_ensureVar]
      exact hu
    unfold State.ensure at hcell
    simp only at hcell
    split at hcell
    next heq => exact heq ▸ hv
    next => exact h.live hcell

theorem ensureVars {α : Type} {var : α → Nat} (as : List α) (h : c.Over vs)
    (has : ∀ a ∈ as, vs (var a)) :
    (as.foldl (fun c a => c.ensureVar (var a)) c).Over vs := by
  induction as generalizing c with
  | nil => exact h
  | cons a as ih =>
    exact ih (h.ensureVar (has a List.mem_cons_self)) fun b hb => has b (List.mem_cons_of_mem a hb)

/-- Variables that nothing mentions go out of use. -/
theorem releaseVars (ns : List Nat) (h : c.Over vs) (hdb : c.db.all.Over vs')
    (htrail : ∀ l ∈ c.trail, vs' l.var)
    (hvs : ∀ v, vs v → v ∉ ns → vs' v) : (ns.foldl Core.releaseVar c).Over vs' := by
  obtain ⟨vars, misused, heq⟩ := foldl_releaseVar_eq ns c
  refine ⟨?_, ?_, fun {v} hv => ?_⟩
  · rw [heq]
    exact hdb
  · rw [heq]
    exact htrail
  · rw [live_foldl_releaseVar] at hv
    exact hvs v (h.live hv.1) hv.2

/-! ## Clauses -/

theorem storeClause (h : c.Over vs) (hc : c.db.Ok depth) {cl : Clause}
    (hcl : Search.Over vs cl.lits) :
    (c.storeClause cl).2.Over vs where
  db := by
    rw [db_storeClause]
    exact Database.over_store h.db hc fun l hl => hcl l (Multiset.mem_coe.mp hl)
  trail l hl := by
    refine h.trail l ?_
    unfold Core.storeClause at hl
    cases hfree : c.freeClauses with
    | nil =>
      rw [hfree] at hl
      exact hl
    | cons n free =>
      rw [hfree] at hl
      exact hl
  live {v} hv := h.live (live_storeClause c cl v ▸ hv)

/-- A clause over the variables may be added. -/
theorem addClause (h : c.Over vs) (hc : c.db.Ok depth) (hlits : Search.Over vs lits) (scope : Nat) :
    (c.addClause lits scope).Over vs := by
  have hnormal : Search.Over vs (Literal.normalize lits) :=
    fun l hl => hlits l (Literal.mem_normalize.mp hl)
  have hensured := (h.require (c.decisionLevel = 0)).ensureVars lits hlits
  have hdb : (lits.foldl (fun c l => c.ensureVar l.var) (c.require (c.decisionLevel = 0))).db =
      c.db :=
    db_foldl (fun c (l : Literal) => db_ensureVar c l.var) lits _
  unfold Core.addClause
  simp only
  generalize lits.foldl (fun c l => c.ensureVar l.var) (c.require (c.decisionLevel = 0)) =
    c₁ at hensured hdb
  generalize Literal.normalize lits = ls at hnormal ⊢
  have hsub {k : Literal} (hk : k ∈ ls.filter (fun l => !c₁.isFalse l) ++ ls.filter c₁.isFalse) :
      vs k.var := by
    rcases List.mem_append.mp hk with hk | hk
    · exact hnormal k (List.mem_of_mem_filter hk)
    · exact hnormal k (List.mem_of_mem_filter hk)
  split
  · exact hensured
  split
  · exact ⟨⟨hensured.db.clauses, hensured.db.units⟩, hensured.trail, hensured.live⟩
  next l _ =>
    have hl := hnormal l (List.mem_singleton_self l)
    have hadded : Over vs { c₁ with units := c₁.units.push (l, scope) } :=
      ⟨Database.over_addUnit hensured.db hl scope, hensured.trail, hensured.live⟩
    exact hadded.assignUnit hl
  · split
    next first second rest heq =>
      rw [heq] at hsub
      have hok : c₁.db.Ok depth := hdb ▸ hc
      have hover : Search.Over vs (Clause.lits ⟨first, second, rest, scope, false⟩) :=
        fun k hk => hsub hk
      have hstored := hensured.storeClause hok hover
      split
      · exact ⟨hstored.db, hstored.trail, hstored.live⟩
      next l hone =>
        have hl : vs l.var := hnormal l (List.mem_of_mem_filter (hone ▸ List.mem_singleton_self l))
        split
        · exact hstored.enqueue hl _
        · exact hstored
      · exact hstored
    · exact hensured

/-- A clause over the variables may be learned. -/
theorem learn (h : c.Over vs) (hc : c.db.Ok depth) (hlits : Search.Over vs lits) (scope : Nat) :
    (c.learn lits scope).Over vs := by
  have hcounted : Over vs { c with stats := { c.stats with learned := c.stats.learned + 1 } } :=
    ⟨h.db, h.trail, h.live⟩
  unfold Core.learn
  split
  · exact hcounted
  next l =>
    have hl := hlits l (List.mem_singleton_self l)
    have hadded : Over vs { c with
        stats := { c.stats with learned := c.stats.learned + 1 }
        units := c.units.push (l, scope) } := ⟨Database.over_addUnit h.db hl scope, h.trail, h.live⟩
    exact hadded.enqueue hl none
  next first second rest =>
    have hok : Search.Database.Ok depth
      { c with stats := { c.stats with learned := c.stats.learned + 1 } }.db := hc
    have hover : Search.Over vs (Clause.lits ⟨first, second, rest, scope, true⟩) := hlits
    have hstored := hcounted.storeClause hok hover
    exact hstored.enqueue (hlits first List.mem_cons_self) _

/-- Dropping scopes leaves some of the clauses. -/
theorem popScopes (h : c.Over vs) (hc : c.db.Ok depth) (below : Nat) :
    (c.popScopes below).Over vs where
  db := by
    obtain ⟨hclause, hunits, -⟩ := db_popScopes hc below
    refine ⟨fun {n cl} hn => ?_, fun u hu => ?_⟩
    · change (c.popScopes below).db.clause? n = some cl at hn
      rw [hclause, Option.filter_eq_some_iff] at hn
      exact h.db.clauses hn.1
    · change u ∈ (c.popScopes below).db.units.toList at hu
      rw [hunits] at hu
      exact h.db.units u (List.mem_of_mem_filter hu)
  trail l hl := by
    rw [trail_popScopes] at hl
    exact absurd hl (Array.not_mem_empty l)
  live {v} hv := h.live (live_popScopes c below v ▸ hv)

/-- Merging scopes leaves the literals of the clauses. -/
theorem mergeScopes (h : c.Over vs) (below : Nat) : (c.mergeScopes below).Over vs where
  db := by
    rw [db_mergeScopes]
    refine ⟨fun {n cl} hn => ?_, fun u hu => ?_⟩
    · obtain ⟨cl', hcl', rfl⟩ : ∃ cl', c.db.clause? n = some cl' ∧
          (cl'.1, min cl'.2.1 below, cl'.2.2) = cl := by
        change (c.db.merge below).clause? n = some cl at hn
        rw [Database.clause?_merge] at hn
        exact Option.map_eq_some_iff.mp hn
      have hover : ∀ l ∈ cl'.1, vs l.var := h.db.clauses hcl'
      exact hover
    · obtain ⟨u', hu', rfl⟩ := Array.mem_map.mp (Array.mem_toList_iff.mp hu)
      exact h.db.units u' (Array.mem_toList_iff.mpr hu')
  trail := h.trail
  live := h.live

/-! ## Propagation -/

/-- The core after the visit of a clause, and the literals of the clause if it is falsified. -/
theorem visit (h : c.Over vs) (l : Literal) (n : Nat) :
    (c.visit l n).core.Over vs ∧ ∀ c' lits, c.visit l n = .falsified c' lits →
    Search.Over vs lits := by
  have hdb := db_visit c l n
  unfold Core.visit at hdb ⊢
  cases hcl : (c.clauses[n]?).join with
  | none => exact ⟨h.require false, nofun⟩
  | some cl =>
    have hlits : Search.Over vs (cl.watchedSecond l).lits := by
      intro k hk
      have hmem : k ∈ (cl.watchedSecond l).content.1 := Multiset.mem_coe.mpr hk
      rw [content_watchedSecond] at hmem
      exact h.clause hcl k (Multiset.mem_coe.mp hmem)
    have hset :
        Over vs { c with clauses := c.clauses.setIfInBounds n (some (cl.watchedSecond l)) } :=
      h.of_same (db_setClause hcl (content_watchedSecond cl l)) (fun _ => id) fun _ => rfl
    simp only [hcl] at hdb ⊢
    generalize cl.watchedSecond l = cl₁ at hdb hlits hset ⊢
    generalize { c with clauses := c.clauses.setIfInBounds n (some cl₁) } = c₁ at hdb hset ⊢
    by_cases hfirst : c₁.value cl₁.first = some true
    · rw [if_pos hfirst]
      exact ⟨hset, nofun⟩
    rw [if_neg hfirst] at hdb ⊢
    cases hre : cl₁.rewatch? fun k => !c₁.isFalse k with
    | some cl₂ =>
      rw [hre] at hdb
      exact ⟨⟨hdb ▸ h.db, h.trail, h.live⟩, nofun⟩
    | none =>
      simp only
      split
      · refine ⟨hset, fun c' lits heq => ?_⟩
        cases heq
        exact hlits
      · exact ⟨hset.enqueue (hlits _ List.mem_cons_self) _, nofun⟩

/-- Visiting watched clauses forces literals of the database, and a conflict is one of its
clauses. -/
theorem visitAll (l : Literal) (ns : List Nat) (kept : Array Nat) (h : c.Over vs) :
    (Core.visitAll l ns kept c).2.2.Over vs ∧ ∀ lits, (Core.visitAll l ns kept c).2.1 = some lits →
    Search.Over vs lits := by
  induction ns generalizing kept c with
  | nil => exact ⟨h, nofun⟩
  | cons n ns ih =>
    obtain ⟨hcore, hfalse⟩ := h.visit l n
    unfold Core.visitAll
    cases hv : c.visit l n with
    | satisfied c' | forced c' =>
      rw [hv] at hcore
      exact ih (kept.push n) hcore
    | moved c' =>
      rw [hv] at hcore
      exact ih kept hcore
    | falsified c' lits =>
      rw [hv] at hcore
      refine ⟨hcore, fun lits' heq => ?_⟩
      cases heq
      exact hfalse c' lits hv

theorem propagateLit (h : c.Over vs) (p : Literal) :
    (c.propagateLit p).2.Over vs ∧ ∀ lits, (c.propagateLit p).1 = some lits →
    Search.Over vs lits := by
  have hstart : Over vs { c with watches := c.watches.setIfInBounds p.neg.code #[] } :=
    ⟨h.db, h.trail, h.live⟩
  obtain ⟨hcore, hconflict⟩ := hstart.visitAll p.neg (c.watches.getD p.neg.code #[]).toList #[]
  exact ⟨⟨hcore.db, hcore.trail, hcore.live⟩, hconflict⟩

/-- Propagation stays over the variables, by induction on the bound. -/
theorem propagateUpTo (bound : Nat) (h : c.Over vs) :
    (c.propagateUpTo bound).2.Over vs ∧ ∀ lits, (c.propagateUpTo bound).1 = some lits →
    Search.Over vs lits := by
  induction bound generalizing c with
  | zero => exact ⟨h, nofun⟩
  | succ bound ih =>
    unfold Core.propagateUpTo
    cases c.trail[c.head]? with
    | none =>
      refine ⟨h, fun lits hlits => ?_⟩
      cases hlits
    | some p =>
      have hstart : Over vs { c with
          head := c.head + 1
          stats := { c.stats with propagations := c.stats.propagations + 1 } } := ⟨h.db,
            h.trail, h.live⟩
      obtain ⟨hcore, hconflict⟩ := hstart.propagateLit p
      simp only
      generalize Core.propagateLit _ p = answer at hcore hconflict ⊢
      obtain ⟨conflict, c'⟩ := answer
      cases conflict with
      | some lits =>
        refine ⟨⟨hcore.db, hcore.trail, hcore.live⟩, fun lits' hlits => ?_⟩
        cases hlits
        exact hconflict lits rfl
      | none => exact ih hcore

/-- Propagation, and the clause that was falsified, if one was. -/
theorem propagate (h : c.Over vs) :
    c.propagate.2.Over vs ∧ ∀ lits, c.propagate.1 = some lits → Search.Over vs lits :=
  h.propagateUpTo _

/-! ## Decisions -/

theorem var_mk' (v : Nat) (b : Bool) : (Literal.mk' v b).var = v := by
  cases b with
  | false => simp [Literal.mk', Literal.var]
  | true =>
    simp only [Literal.mk', Literal.var, Bool.toNat_true]
    omega

/-- The heap of open variables gives out a live variable. -/
theorem popOpen (bound : Nat) (h : c.Over vs) :
    (c.popOpen bound).2.Over vs ∧ ∀ v, (c.popOpen bound).1 = some v → vs v := by
  induction bound generalizing c with
  | zero => exact ⟨h, nofun⟩
  | succ bound ih =>
    unfold Core.popOpen
    split
    · exact ⟨h, nofun⟩
    next v order _ =>
      have htaken : Over vs { c with order } := ⟨h.db, h.trail, h.live⟩
      simp only
      split
      next hopen =>
        refine ⟨htaken, fun u hu => ?_⟩
        cases hu
        exact htaken.live (Bool.and_eq_true_iff.mp hopen).1
      next => exact ih htaken

/-- The variable of a decision is one that is in use. -/
theorem pickBranch (h : c.Over vs) :
    c.pickBranch.2.Over vs ∧ ∀ l, c.pickBranch.1 = some l → vs l.var := by
  obtain ⟨hcore, hvar⟩ := h.popOpen c.order.size
  unfold Core.pickBranch
  split
  next v c' heq =>
    rw [heq] at hcore hvar
    refine ⟨hcore, fun l hl => ?_⟩
    cases hl
    rw [branchOn, var_mk']
    exact hvar v rfl
  next c' heq =>
    rw [heq] at hcore
    refine ⟨hcore, fun l hl => ?_⟩
    obtain ⟨v, hv, rfl⟩ := Option.map_eq_some_iff.mp hl
    rw [branchOn, var_mk']
    have hopen := List.find?_some hv
    simp only [Bool.and_eq_true] at hopen
    exact hcore.live (Bool.and_eq_true_iff.mp hopen.2).1

end Over

end Core

/-! ## Conflict analysis -/

namespace Search

/-- The core and the literals that were put aside are over `vs`. -/
structure Resolution.Over (vs : Nat → Prop) (r : Resolution) : Prop where
  core : r.core.Over vs
  lower : ∀ l ∈ r.lower, vs l.var

end Search

namespace Core

open Search

variable {c : Core} {vs : Nat → Prop} {lits : List Literal} {r : Resolution}

theorem Over.setSeen (h : c.Over vs) (v : Nat) (seen : Bool) : (c.setSeen v seen).Over vs :=
  h.of_same (db_setSeen c v seen) (fun _ => id) fun u => by
    rw [Core.setSeen, info_modifyVar]
    split <;> rfl

/-- What only steers the search does not matter. -/
theorem Over.of_state (h : c.Over vs) {c' : Core} (hstate : c'.state = c.state) : c'.Over vs := by
  refine h.of_same (congrArg State.db hstate) (fun l hl => ?_) fun u =>
    congrArg (fun s => (s.cell u).live) hstate
  have hmem : l ∈ c'.state.trail := Array.mem_toList_iff.mpr hl
  rw [hstate] at hmem
  exact Array.mem_toList_iff.mp hmem

theorem over_absorbLit (top : Nat) (h : r.Over vs) {l : Literal} (hl : vs l.var) :
    (absorbLit top r l).Over vs := by
  have hcore := (h.core.setSeen l.var true).of_state (state_bump _ l.var)
  unfold absorbLit
  simp only
  generalize bump _ l.var = core at hcore ⊢
  split
  · exact h
  split
  · exact ⟨hcore, h.lower⟩
  · refine ⟨hcore, fun k hk => ?_⟩
    rcases Array.mem_push.mp hk with hk | rfl
    · exact h.lower k hk
    · exact hl

/-- A resolution that takes a clause over the variables in stays over them. -/
theorem over_absorb (top : Nat) (h : r.Over vs) (hlits : Search.Over vs lits) :
    (absorb top r lits).Over vs := by
  induction lits generalizing r with
  | nil => exact h
  | cons l lits ih =>
    exact ih (over_absorbLit top h (hlits l List.mem_cons_self)) fun k hk =>
      hlits k (List.mem_cons_of_mem l hk)

/-- Resolving down the trail meets reasons from the database only. -/
theorem over_resolveDown (top length : Nat) (h : r.Over vs) :
    (resolveDown top length r).2.Over vs ∧ ∀ p, (resolveDown top length r).1 = some p →
    vs p.var := by
  induction length generalizing r with
  | zero => exact ⟨h, nofun⟩
  | succ length ih =>
    unfold resolveDown
    cases hget : r.core.trail[length]? with
    | none =>
      refine ⟨h, fun p hp => ?_⟩
      cases hp
    | some p =>
      have hp : vs p.var := h.core.trail p (Array.mem_of_getElem? hget)
      simp only
      split
      · exact ih h
      have htaken : Resolution.Over vs
          { r with core := r.core.setSeen p.var false, pending := r.pending - 1 } :=
        ⟨h.core.setSeen p.var false, h.lower⟩
      split
      · refine ⟨htaken, fun q hq => ?_⟩
        cases hq
        exact hp
      cases hcl : ((r.core.setSeen p.var false).info p.var).reason.bind fun n =>
        ((r.core.setSeen p.var false).clauses[n]?).join with
      | none =>
        refine ⟨htaken, fun q hq => ?_⟩
        cases hq
      | some cl =>
        obtain ⟨n, -, hn⟩ := Option.bind_eq_some_iff.mp hcl
        have hlits := htaken.core.clause hn
        exact ih (over_absorb top htaken fun k hk => hlits k (List.mem_of_mem_filter hk))

/-- The core after an analysis, and the clause to learn. -/
theorem Over.analyze (h : c.Over vs) {conflict : List Literal}
    (hconflict : Search.Over vs conflict) :
    (c.analyze conflict).2.Over vs ∧
      ∀ level clause, (c.analyze conflict).1 = .learnt level clause → Search.Over vs clause := by
  have hcounted : Over vs { c with
      stats := { c.stats with conflicts := c.stats.conflicts + 1 }
      conflictsSinceRestart := c.conflictsSinceRestart + 1 } := ⟨h.db, h.trail, h.live⟩
  unfold Core.analyze
  simp only
  split
  · exact ⟨hcounted, nofun⟩
  generalize (conflict.map fun l => _).foldl max 0 = top
  have hback := hcounted.backtrack top
  generalize Core.backtrack _ top = c₁ at hback ⊢
  obtain ⟨hr, huip⟩ := over_resolveDown top c₁.trail.size
    (over_absorb top (r := ⟨c₁, #[], 0⟩) ⟨hback, nofun⟩ hconflict)
  split
  next r heq =>
    rw [heq] at hr
    exact ⟨hr.core, nofun⟩
  next uip r heq =>
    rw [heq] at hr huip
    have hcore : (r.lower.foldl (fun c l => c.setSeen l.var false) r.core).Over vs := by
      rw [← Array.foldl_toList]
      exact List.foldlRecOn r.lower.toList _ hr.core fun c hc l _ => hc.setSeen l.var false
    refine ⟨⟨hcore.db, hcore.trail, hcore.live⟩, fun level clause hclause => ?_⟩
    cases hclause
    intro l hl
    rcases List.mem_cons.mp hl with rfl | hl
    · exact (Literal.var_neg uip).symm ▸ huip uip rfl
    · exact hr.lower l (Array.mem_toList_iff.mp ((swap_deepest_spec _ r.lower).1.mem_iff.mp hl))

end Core
end Entail
