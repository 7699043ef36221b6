import Entail.Proofs.Context.Search

/-!
# Opening and closing scopes

Opening a scope changes nothing that is seen as of the marks of other scopes, and closing one leaves
what was seen as of its mark. Committing a scope only forgets its mark.
-/

namespace Entail

namespace Context

variable {c c' : Context} {s s' : Store} {m : Mark}

/-- The mark has the present sizes, and there are no clauses of deeper scopes. -/
structure Mark.Whole (m : Mark) (c : Context) : Prop where
  scope : c.sizes = m.scope
  egraph : c.registry.egraph.sizes = m.egraph
  quant : c.solver.sizes = m.quant
  core : c.core.db.Ok m.depth

/-- The mark of the present sizes. -/
def here (c : Context) : Mark := ⟨c.sizes, c.registry.egraph.sizes, c.solver.sizes, c.depth⟩

/-! ## Opening -/

theorem Mark.Open.push (h : m.Open c) {a : Scope} {b : Nat × Nat} {q : Quant.Mark}
    (hs : c'.scopes = a :: c.scopes)
    (he : c'.registry.egraph.scopes = b :: c.registry.egraph.scopes)
    (hq : c'.solver.scopes = q :: c.solver.scopes) : m.Open c' := by
  have hpush {α : Type} {as bs : List α} {a x : α} {i : Nat} (hb : bs = a :: as)
    (ha : as.reverse[i]? = some x) :
      bs.reverse[i]? = some x := by
    rw [hb, List.reverse_cons]
    exact List.getElem?_append_left (List.getElem?_eq_some_iff.mp ha).1 ▸ ha
  exact ⟨hpush hs h.scope, hpush he h.egraph, hpush hq h.quant⟩

theorem getElem?_reverse_cons_length {α : Type} (a : α) (as : List α) :
    (a :: as).reverse[as.length]? = some a := by
  rw [List.reverse_cons, List.getElem?_append_right (by simp)]
  simp

theorem Mark.Open.pop (h : m.Open c) (hc : c.Ok s) (hdepth : m.depth + 1 < c.depth)
    (hs : c'.scopes = c.scopes.tail)
    (he : c'.registry.egraph.scopes = c.registry.egraph.scopes.tail)
    (hq : c'.solver.scopes = c.solver.scopes.tail) :
    m.Open c' := by
  have hpop {α : Type} {as bs : List α} {x : α} {i : Nat} (hb : bs = as.tail)
    (hi : i + 1 < as.length)
      (ha : as.reverse[i]? = some x) : bs.reverse[i]? = some x := by
    cases as with
    | nil => simp at hi
    | cons a as =>
      rw [List.reverse_cons, List.getElem?_append_left (by simpa using hi)] at ha
      rw [hb]
      exact ha
  exact ⟨hpop hs hdepth h.scope, hpop he (hc.nodesDepth ▸ hdepth) h.egraph,
    hpop hq (hc.tablesDepth ▸ hdepth) h.quant⟩

/-- A scope is opened with the mark of the present sizes. -/
theorem openScope_eq (hc : c.Ok s) :
    c.openScope = { c.syncVars with
      scopes := c.sizes :: c.scopes
      registry :=
  { c.registry with egraph := c.registry.egraph.push, satellites := #[.quant c.solver.push] }
      } := by
  have hmark : Scope.mk c.syncVars.assertions.size c.syncVars.substLog.size c.syncVars.cacheLog.size
      c.syncVars.created.size = c.sizes := by
    rw [← sizes_syncVars]
    show Scope.mk _ _ _ _ = Scope.mk _ _ _ (c.syncVars.created.toList ++ []).length
    rw [List.append_nil, Array.length_toList]
  unfold openScope
  simp only
  rw [hmark, show c.syncVars.registry = c.registry from rfl, Theory.Registry.push_eq hc.registry]
  rfl

end Context

namespace Workspace

open Context

variable {w : Workspace} {m : Mark}

/-- An opened scope has a mark for what there was, and leaves what is seen as of other marks. -/
theorem openScope_spec (hw : w.Ok) :
    w.ctx.openScope.Ok w.store ∧ w.ctx.openScope.depth = w.ctx.depth + 1 ∧
      w.ctx.here.Open w.ctx.openScope ∧ w.ctx.here.Whole w.ctx.openScope ∧
      ∀ {m}, m.Open w.ctx → m.Open w.ctx.openScope ∧ w.ctx.openScope.upTo m = w.ctx.upTo m := by
  have hsync := step_syncVars hw
  have hok := hsync.keeps.ok
  obtain ⟨hi, hn, hs, hz, hu⟩ := Egraph.push_spec hw.ctx.nodes hw.ctx.nodesNested
  obtain ⟨hi', hn', hs', hz', hu'⟩ := Quant.Solver.push_spec hw.ctx.tables hw.ctx.tablesNested
  rw [openScope_eq hw.ctx]
  have hsizes : w.ctx.syncVars.sizes = w.ctx.sizes := sizes_syncVars _
  refine ⟨{ hok with
      core := hok.core.mono (Nat.le_succ _)
      registry := rfl
      nodes := hi
      tables := hi'
      nested := ?_
      nodesNested := hn
      tablesNested := hn'
      nodesDepth := ?_
      tablesDepth := ?_ }, rfl, ⟨?_, ?_, ?_⟩, ⟨hsizes, hz, hz', hok.core⟩, fun {m} hm =>
        ⟨hm.push rfl hs hs', ?_⟩⟩
  · show (w.ctx.syncVars.sizes :: w.ctx.sizes :: w.ctx.scopes).Pairwise _
    rw [hsizes]
    refine List.pairwise_cons.mpr ⟨fun a ha => ?_, hw.ctx.nested⟩
    rcases List.mem_cons.mp ha with rfl | ha
    · exact ⟨Nat.le_refl _, Nat.le_refl _, Nat.le_refl _, Nat.le_refl _⟩
    · exact (List.pairwise_cons.mp hw.ctx.nested).1 a ha
  · exact (congrArg List.length hs).trans (congrArg (· + 1) hw.ctx.nodesDepth)
  · exact (congrArg List.length hs').trans (congrArg (· + 1) hw.ctx.tablesDepth)
  · exact getElem?_reverse_cons_length _ _
  · show w.ctx.registry.egraph.push.scopes.reverse[w.ctx.depth]? = _
    rw [hs, ← hw.ctx.nodesDepth]
    exact getElem?_reverse_cons_length _ _
  · show w.ctx.solver.push.scopes.reverse[w.ctx.depth]? = _
    rw [hs', ← hw.ctx.tablesDepth]
    exact getElem?_reverse_cons_length _ _
  · rw [← hsync.keeps.upTo hm]
    exact View.ext rfl rfl rfl rfl rfl rfl rfl (hu m.egraph) (hu' m.quant)

/-- Committing a scope forgets its mark, and leaves what is seen as of the others. -/
theorem commit_spec (hw : w.Ok) {a : Scope} {rest : List Scope} (hs : w.ctx.scopes = a :: rest) :
    w.ctx.commit.Ok w.store ∧ w.ctx.commit.scopes = rest ∧
      ∀ {m}, m.Open w.ctx → m.depth < rest.length → m.Open w.ctx.commit ∧
      w.ctx.commit.upTo m = w.ctx.upTo m := by
  have hcommit : w.ctx.commit = { w.ctx with
      scopes := rest
      core := w.ctx.core.mergeScopes rest.length
      registry := { w.ctx.registry with
        egraph := w.ctx.registry.egraph.mergeScope, satellites :=
          #[.quant w.ctx.solver.mergeScope] } } := by
    unfold commit
    rw [hs, Theory.Registry.mergeScope_eq hw.ctx.registry]
  obtain ⟨hi, hn, hz, hu⟩ := Egraph.mergeScope_spec hw.ctx.nodes hw.ctx.nodesNested
  obtain ⟨hi', hn', hz', hu'⟩ := Quant.Solver.mergeScope_spec hw.ctx.tables hw.ctx.tablesNested
  obtain ⟨hcore, hkept⟩ := Search.Database.merge_spec hw.ctx.core rest.length
  have hdepth : w.ctx.depth = rest.length + 1 := congrArg List.length hs
  rw [hcommit]
  refine ⟨{ hw.ctx with
      core := ?_
      registry := rfl
      nodes := hi
      tables := hi'
      nested := ?_
      nodesNested := hn
      tablesNested := hn'
      nodesDepth := ?_
      tablesDepth := ?_ }, rfl, fun {m} hm hlt =>
        ⟨hm.pop hw.ctx (by omega) (by rw [hs]; rfl) rfl rfl, ?_⟩⟩
  · rw [Core.db_mergeScopes]
    exact hcore
  · have hnested := hw.ctx.nested
    rw [hs] at hnested
    exact hnested.sublist ((List.sublist_cons_self a rest).cons_cons _)
  · show w.ctx.registry.egraph.scopes.tail.length = rest.length
    rw [List.length_tail, hw.ctx.nodesDepth, hdepth, Nat.add_sub_cancel]
  · show w.ctx.solver.scopes.tail.length = rest.length
    rw [List.length_tail, hw.ctx.tablesDepth, hdepth, Nat.add_sub_cancel]
  · refine View.ext rfl rfl rfl rfl rfl rfl ?_ (hu m.egraph) (hu' m.quant)
    show (w.ctx.core.mergeScopes rest.length).db.upTo m.depth = _
    rw [Core.db_mergeScopes]
    exact hkept hlt

/-! ## Closing -/

theorem dropCached_eq (es : List Cached) (c : Context) :
    ∃ lits bits, es.foldl dropCached c = { c with lits, bits } ∧
      (∀ p, lits[p]? = if Cached.literal p ∈ es then none else c.lits[p]?) ∧
      ∀ t, bits[t]? = if Cached.word t ∈ es then none else c.bits[t]? := by
  induction es generalizing c with
  | nil => exact ⟨c.lits, c.bits, rfl, fun _ => by simp, fun _ => by simp⟩
  | cons e es ih =>
    obtain ⟨lits, bits, heq, hlits, hbits⟩ := ih (c.dropCached e)
    cases e with
    | literal q =>
      refine ⟨lits, bits, heq, fun p => ?_, fun t => ?_⟩
      · rw [hlits, show (c.dropCached (.literal q)).lits = c.lits.erase q from rfl,
          Std.HashMap.getElem?_erase]
        by_cases hq : q = p
        · simp [hq]
        · simp [hq, Ne.symm hq]
      · refine (hbits t).trans ?_
        simp [dropCached]
    | word u =>
      refine ⟨lits, bits, heq, fun p => ?_, fun t => ?_⟩
      · refine (hlits p).trans ?_
        simp [dropCached]
      · rw [hbits, show (c.dropCached (.word u)).bits = c.bits.erase u from rfl,
          Std.HashMap.getElem?_erase]
        by_cases hu : u = t
        · simp [hu]
        · simp [hu, Ne.symm hu]

/-- Dropping variables keeps those that were known up to a number, with their terms. -/
theorem dropVars_eq {c : Context} (hc : c.vars.Ok) (count : Nat) :
    ∃ vars core aux, c.dropVars count =
      { c with vars, core, aux, created := c.created.take count } ∧ vars.Ok ∧
      vars.heard = c.vars.heard ∧ core.db = c.core.db ∧
      (∀ v, vars.term? v = if v ∈ c.created.toList.drop count then none else c.vars.term? v) ∧
      ∀ t, t ∈ aux ↔ t ∈ c.aux ∧ ¬ ∃ v ∈ c.created.toList.drop count, c.vars.term? v = some t := by
  have hdoomed (v : Nat) :
      (Std.HashSet.ofList (c.created.toList.drop count)).contains v = decide
        (v ∈ c.created.toList.drop count) := by
    rw [Std.HashSet.contains_ofList, List.contains_eq_mem]
  obtain ⟨dead, vars, hsweep, hok, hheard, hterm⟩ := hc.sweep
    ((c.vars.toList.filter fun x => !(Std.HashSet.ofList (c.created.toList.drop count)).contains
      x.1).map (·.1))
    (c.vars.nodup_toList.sublist (List.filter_sublist.map _)) fun v hv => by
      obtain ⟨x, hx, rfl⟩ := List.mem_map.mp hv
      exact Variables.isLive_eq_true.mpr ⟨_, Variables.mem_toList.mp (List.mem_filter.mp hx).1⟩
  refine ⟨vars, dead.foldl Core.releaseVar c.core,
    ((c.vars.toList.filter fun x => (Std.HashSet.ofList (c.created.toList.drop count)).contains
      x.1).map (·.2)).foldl
      (fun aux t => aux.erase t) c.aux, ?_, hok, hheard, ?_, fun v => ?_, fun t => ?_⟩
  · unfold dropVars sweepVars
    simp only [hsweep]
  · exact Core.db_foldl Core.db_releaseVar _ _
  · rw [hterm]
    cases hv : c.vars.term? v with
    | none => simp
    | some t =>
      by_cases hd : v ∈ c.created.toList.drop count
      · rw [if_pos hd, if_neg]
        intro hmem
        obtain ⟨x, hx, rfl⟩ := List.mem_map.mp hmem
        have := (List.mem_filter.mp hx).2
        rw [hdoomed] at this
        simp [hd] at this
      · rw [if_neg hd, if_pos]
        refine List.mem_map.mpr ⟨(v, t), List.mem_filter.mpr ⟨Variables.mem_toList.mpr hv, ?_⟩, rfl⟩
        rw [hdoomed]
        simp [hd]
  · rw [mem_foldl_erase]
    refine and_congr Iff.rfl (not_congr ?_)
    rw [List.mem_map]
    constructor
    · rintro ⟨x, hx, rfl⟩
      obtain ⟨hlive, hx⟩ := List.mem_filter.mp hx
      rw [hdoomed] at hx
      exact ⟨x.1, by simpa using hx, Variables.mem_toList.mp hlive⟩
    · rintro ⟨v, hd, hv⟩
      refine ⟨(v, t), List.mem_filter.mpr ⟨Variables.mem_toList.mpr hv, ?_⟩, rfl⟩
      rw [hdoomed]
      simpa using hd

theorem dropEncoded_eq (c : Context) (count : Nat) :
    ∃ lits bits, c.dropEncoded count = { c with lits, bits, cacheLog := c.cacheLog.take count } ∧
      (∀ p, lits[p]? = Entail.upTo c.cacheLog.toList count .literal (c.lits[·]?) p) ∧
      ∀ t, bits[t]? = Entail.upTo c.cacheLog.toList count .word (c.bits[·]?) t := by
  obtain ⟨lits, bits, heq, hlits, hbits⟩ := dropCached_eq (c.cacheLog.toList.drop count) c
  refine ⟨lits, bits, ?_, hlits, hbits⟩
  unfold dropEncoded
  rw [heq]

/-- What is left when the innermost scope is closed. -/
theorem rollback_eq (hw : w.Ok) {a : Scope} {rest : List Scope} (hs : w.ctx.scopes = a :: rest) :
    ∃ vars core aux lits bits, w.ctx.rollback = { w.ctx with
        scopes := rest
        vars
        core
        registry := { w.ctx.registry with
          egraph := (w.ctx.registry.egraph.backtrack 0).pop, satellites :=
  #[.quant w.ctx.solver.pop] }
        assertions := w.ctx.assertions.take a.assertions
        subst := (w.ctx.substLog.toList.drop a.substLog).foldl (fun m x => m.erase x) w.ctx.subst
        substLog := w.ctx.substLog.take a.substLog
        lits
        bits
        cacheLog := w.ctx.cacheLog.take a.cacheLog
        aux
        created := w.ctx.syncVars.created.take a.created } ∧
      vars.Ok ∧ vars.heard = #[] ∧ core.db = (w.ctx.core.popScopes rest.length).db ∧
      (∀ p, lits[p]? = Entail.upTo w.ctx.cacheLog.toList a.cacheLog .literal (w.ctx.lits[·]?) p) ∧
      (∀ t, bits[t]? = Entail.upTo w.ctx.cacheLog.toList a.cacheLog .word (w.ctx.bits[·]?) t) ∧
      (∀ v, vars.term? v = Entail.upTo w.ctx.known a.created id w.ctx.vars.term? v) ∧
      ∀ t, t ∈ aux ↔ t ∈ w.ctx.aux ∧ ¬ ∃ v ∈ w.ctx.known.drop a.created,
      w.ctx.vars.term? v = some t := by
  have hregistry : (w.ctx.registry.backtrack 0).pop = { w.ctx.registry with
      egraph := (w.ctx.registry.egraph.backtrack 0).pop, satellites :=
        #[.quant w.ctx.solver.pop] } := by
    rw [Theory.Registry.backtrack_eq hw.ctx.registry]
    exact Theory.Registry.pop_eq hw.ctx.registry
  let c₁ : Context := { w.ctx with
    scopes := rest
    core := w.ctx.core.popScopes rest.length
    registry := (w.ctx.registry.backtrack 0).pop
    assertions := w.ctx.assertions.take a.assertions }
  obtain ⟨lits, bits, hencoded, hlits, hbits⟩ :=
    dropEncoded_eq (c₁.dropDefinitions a.substLog) a.cacheLog
  let c₂ : Context :=
    { c₁.dropDefinitions a.substLog with lits, bits, cacheLog := w.ctx.cacheLog.take a.cacheLog }
  have hknown : c₂.syncVars.created.toList = w.ctx.known := by
    have h := known_syncVars c₂
    rwa [known, show c₂.syncVars.vars.heard = #[] from rfl, List.map_nil, List.append_nil] at h
  obtain ⟨vars, core, aux, hdrop, hok, hheard, hdb, hterm, haux⟩ :=
    dropVars_eq (c := c₂.syncVars) hw.ctx.vars.collect a.created
  rw [hknown] at hterm haux
  have hrollback : w.ctx.rollback = { c₂.syncVars.dropVars a.created with
      core := (c₂.syncVars.dropVars a.created).core.assignUnits.2 } := by
    rw [show c₂ = (c₁.dropDefinitions a.substLog).dropEncoded a.cacheLog from hencoded.symm]
    unfold rollback
    rw [hs]
    rfl
  refine ⟨vars, core.assignUnits.2, aux, lits, bits, ?_, hok, hheard, ?_, hlits, hbits, hterm, haux⟩
  · rw [hrollback, hdrop, ← hregistry]
    rfl
  · rw [Core.db_assignUnits, hdb]
    exact db_foldl_ensureVar _ _

theorem length_take_eq {α : Type} {as : List α} {count : Nat} (h : count ≤ as.length) :
    (as.take count).length = count := by
  rw [List.length_take, Nat.min_eq_left h]

theorem toList_take {α : Type} (as : Array α) (count : Nat) :
    (as.take count).toList = as.toList.take count := by
  rw [Array.take_eq_extract, Array.toList_extract]
  rfl

theorem take_take_toList {α : Type} (as : Array α) {count below : Nat} (h : below ≤ count) :
    (as.take count).toList.take below = as.toList.take below := by
  rw [toList_take, List.take_take, Nat.min_eq_left h]

/-- The variables that were given out first are those that stay. -/
theorem known_rollback (hw : w.Ok) {a : Scope} {rest : List Scope} (hs : w.ctx.scopes = a :: rest) :
    w.ctx.rollback.known = w.ctx.known.take a.created := by
  obtain ⟨vars, core, aux, lits, bits, heq, -, hheard, -⟩ := rollback_eq hw hs
  rw [heq]
  show (w.ctx.syncVars.created.take a.created).toList ++ vars.heard.toList.map (·.var) = _
  rw [hheard, toList_take]
  have h := known_syncVars w.ctx
  rw [known, show w.ctx.syncVars.vars.heard = #[] from rfl, List.map_nil, List.append_nil] at h
  rw [h]
  exact List.append_nil _

/-- An entry of a stack is the innermost one or not above it. -/
theorem le_head_of_nested {α : Type} [LE α] {x y : α} {xs : List α} (h : (x :: xs).Pairwise (· ≥ ·))
    {i : Nat}
    (hy : (x :: xs).reverse[i]? = some y) (hrefl : x ≤ x) : y ≤ x ∧ (i = xs.length → y = x) := by
  refine ⟨?_, fun hi => ?_⟩
  · rcases List.mem_cons.mp (List.mem_reverse.mp (List.mem_of_getElem? hy)) with rfl | hmem
    · exact hrefl
    · exact (List.pairwise_cons.mp h).1 y hmem
  · rw [hi, getElem?_reverse_cons_length] at hy
    exact (Option.some.inj hy).symm

/-- Closing a scope leaves what was seen as of its mark, and nothing else; as of the marks of other
scopes nothing changes. -/
theorem rollback_spec (hw : w.Ok) {a : Scope} {rest : List Scope} (hs : w.ctx.scopes = a :: rest) :
    w.ctx.rollback.Ok w.store ∧ w.ctx.rollback.scopes = rest ∧
    w.ctx.rollback.config = w.ctx.config ∧
      ∀ {m}, m.Open w.ctx → w.ctx.rollback.upTo m = w.ctx.upTo m ∧
      (m.depth < rest.length → m.Open w.ctx.rollback) ∧
        (m.depth = rest.length → m.Whole w.ctx.rollback) := by
  obtain ⟨vars, core, aux, lits, bits, heq, hok, hheard, hdb, hlits, hbits, hterm, haux⟩ :=
    rollback_eq hw hs
  have hdepth : w.ctx.depth = rest.length + 1 := congrArg List.length hs
  have hnested := hw.ctx.nested
  rw [hs] at hnested
  obtain ⟨htop, hrest⟩ := List.pairwise_cons.mp hnested
  obtain ⟨hassert, hsubst, hcache, hcreated⟩ : a ≤ w.ctx.sizes := htop a List.mem_cons_self
  -- the e-graph and the solver have a scope to close as well
  have hnodes : (w.ctx.registry.egraph.backtrack 0).Nested := hw.ctx.nodesNested
  have hindexed : (w.ctx.registry.egraph.backtrack 0).Indexed :=
    (Egraph.SameNodes.adds (Egraph.sameNodes_backtrack _ 0) hw.ctx.nodes).indexed
  obtain ⟨b, gs, hgs⟩ : ∃ b gs, w.ctx.registry.egraph.scopes = b :: gs :=
    List.exists_cons_of_length_pos (by rw [hw.ctx.nodesDepth]; omega)
  obtain ⟨q, qs, hqs⟩ : ∃ q qs, w.ctx.solver.scopes = q :: qs :=
    List.exists_cons_of_length_pos (by rw [hw.ctx.tablesDepth]; omega)
  obtain ⟨hgi, hgn, hgs', hgz, hgu⟩ := Egraph.pop_spec hindexed hnodes hgs
  obtain ⟨hqi, hqn, hqs', hqz, hqu⟩ := Quant.Solver.pop_spec hw.ctx.tables hw.ctx.tablesNested hqs
  have hglen : gs.length = rest.length := by
    have := hw.ctx.nodesDepth
    rw [hgs, List.length_cons] at this
    omega
  have hqlen : qs.length = rest.length := by
    have := hw.ctx.tablesDepth
    rw [hqs, List.length_cons] at this
    omega
  obtain ⟨hcore, hkept⟩ := Core.popScopes_spec hw.ctx.core rest.length
  rw [← hdb] at hcore hkept
  have hknown := known_rollback hw hs
  have hsizes : w.ctx.rollback.sizes = a := by
    rw [sizes, hknown, length_take_eq hcreated, heq]
    show Scope.mk (w.ctx.assertions.take _).size (w.ctx.substLog.take _).size
      (w.ctx.cacheLog.take _).size _ = a
    simp only [← Array.length_toList, toList_take]
    rw [length_take_eq (by simpa [sizes] using hassert),
      length_take_eq (by simpa [sizes] using hsubst),
      length_take_eq (by simpa [sizes] using hcache)]
  have hmarks {m : Mark} (hm : m.Open w.ctx) :
      (m.scope ≤ a ∧ m.egraph ≤ b ∧ m.quant ≤ q ∧ m.depth ≤ rest.length) ∧
        (m.depth = rest.length → m.scope = a ∧ m.egraph = b ∧ m.quant = q) := by
    obtain ⟨h₁, h₂, h₃⟩ := hm
    have hlt := (List.getElem?_eq_some_iff.mp h₁).1
    rw [List.length_reverse, hs, List.length_cons] at hlt
    rw [hs] at h₁
    rw [hgs] at h₂
    rw [hqs] at h₃
    have hgnested := hw.ctx.nodesNested
    have hqnested := hw.ctx.tablesNested
    rw [Egraph.Nested, hgs] at hgnested
    rw [Quant.Solver.Nested, hqs] at hqnested
    obtain ⟨hle₁, heq₁⟩ := le_head_of_nested hrest h₁ ⟨Nat.le_refl _, Nat.le_refl _, Nat.le_refl _,
      Nat.le_refl _⟩
    obtain ⟨hle₂, heq₂⟩ := le_head_of_nested (List.pairwise_cons.mp hgnested).2 h₂
      ⟨Nat.le_refl _, Nat.le_refl _⟩
    obtain ⟨hle₃, heq₃⟩ :=
      le_head_of_nested (List.pairwise_cons.mp hqnested).2 h₃ ⟨Nat.le_refl _, Nat.le_refl _,
        Nat.le_refl _⟩
    refine ⟨⟨hle₁, hle₂, hle₃, Nat.le_of_lt_succ hlt⟩, fun hd =>
      ⟨heq₁ hd, heq₂ (hd.trans hglen.symm), heq₃ (hd.trans hqlen.symm)⟩⟩
  have hsub (k : Term) : ((w.ctx.substLog.toList.drop a.substLog).foldl
    (fun m x => m.erase x) w.ctx.subst)[k]? =
      Entail.upTo w.ctx.substLog.toList a.substLog id (w.ctx.subst[·]?) k :=
    getElem?_foldl_erase _ _ k
  refine ⟨?_, by rw [heq], by rw [heq], fun {m} hm => ⟨?_, fun hlt => ?_, fun hd => ?_⟩⟩
  · rw [heq]
    exact {
      vars := hok
      live := fun {v t} hv => by
        rw [show Variables.term? _ v = _ from hterm v, Entail.upTo] at hv
        split at hv
        · cases hv
        · exact hw.ctx.live hv
      aux := fun {t} ht => by
        obtain ⟨hin, hnot⟩ := (haux t).mp ht
        obtain ⟨v, hv⟩ := hw.ctx.aux hin
        exact ⟨v, (hterm v).trans ((if_neg fun hmem => hnot ⟨v, hmem, hv⟩).trans hv)⟩
      core := hcore
      registry := rfl
      nodes := hgi
      tables := hqi
      nested := by
        rw [heq] at hsizes
        rw [hsizes]
        exact hrest
      nodesNested := hgn
      tablesNested := hqn
      nodesDepth := (congrArg List.length hgs').trans hglen
      tablesDepth := (congrArg List.length hqs').trans hqlen }
  · obtain ⟨⟨hle₁, hle₂, hle₃, hle₄⟩, -⟩ := hmarks hm
    have hvars : (w.ctx.rollback.upTo m).vars = (w.ctx.upTo m).vars := by
      show Entail.upTo w.ctx.rollback.known _ _ _ = _
      rw [hknown]
      refine upTo_take hle₁.2.2.2 fun v => ?_
      rw [heq]
      exact hterm v
    have hauxs : (w.ctx.rollback.upTo m).aux = (w.ctx.upTo m).aux := by
      funext t
      show (t ∈ w.ctx.rollback.aux ∧ ∃ v, (w.ctx.rollback.upTo m).vars v = some t) = _
      have hmem : t ∈ w.ctx.rollback.aux ↔ t ∈ w.ctx.aux ∧ ¬ ∃ v ∈ w.ctx.known.drop a.created,
          w.ctx.vars.term? v = some t := by
        rw [heq]
        exact haux t
      rw [hvars, hmem]
      refine propext ⟨fun h => ⟨h.1.1, h.2⟩, ?_⟩
      rintro ⟨ht, v, hv⟩
      refine ⟨⟨ht, ?_⟩, v, hv⟩
      -- the variable of a term that stays is not one of those dropped
      rintro ⟨u, hu, hut⟩
      change Entail.upTo w.ctx.known m.scope.created id w.ctx.vars.term? v = some t at hv
      rw [Entail.upTo] at hv
      split at hv
      · cases hv
      next hnot =>
        rw [hw.ctx.vars.term_unique hut hv] at hu
        exact hnot (List.drop_subset_drop_left _ hle₁.2.2.2 hu)
    have hlits' : (w.ctx.rollback.upTo m).lits = (w.ctx.upTo m).lits := by
      rw [heq]
      show Entail.upTo (w.ctx.cacheLog.take a.cacheLog).toList _ _ _ = _
      rw [toList_take]
      exact upTo_take hle₁.2.2.1 hlits
    have hbits' : (w.ctx.rollback.upTo m).bits = (w.ctx.upTo m).bits := by
      rw [heq]
      show Entail.upTo (w.ctx.cacheLog.take a.cacheLog).toList _ _ _ = _
      rw [toList_take]
      exact upTo_take hle₁.2.2.1 hbits
    have hsubst' : (w.ctx.rollback.upTo m).subst = (w.ctx.upTo m).subst := by
      rw [heq]
      show Entail.upTo (w.ctx.substLog.take a.substLog).toList _ _ _ = _
      rw [toList_take]
      exact upTo_take hle₁.2.1 hsub
    refine View.ext ?_ hsubst' hlits' hbits' hvars hauxs ?_ ?_ ?_
    · rw [heq]
      exact take_take_toList _ hle₁.1
    · rw [heq]
      exact hkept hle₄
    · rw [heq]
      exact hgu hle₂
    · rw [heq]
      exact hqu hle₃
  · refine hm.pop hw.ctx (by omega) ?_ ?_ ?_
    · rw [heq, hs]
      rfl
    · rw [heq, hgs]
      exact hgs'
    · rw [heq, hqs]
      exact hqs'
  · obtain ⟨-, hlast⟩ := hmarks hm
    obtain ⟨h₁, h₂, h₃⟩ := hlast hd
    refine ⟨hsizes.trans h₁.symm, ?_, ?_, ?_⟩
    · rw [heq, h₂]
      exact hgz
    · rw [heq, h₃]
      exact hqz
    · rw [heq, hd]
      exact hcore

end Workspace
end Entail
