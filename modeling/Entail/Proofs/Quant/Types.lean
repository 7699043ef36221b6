import Entail.Proofs.Egraph.Types
import Entail.Proofs.Quant.Tables
import Entail.Proofs.Store.Subterms
import Entail.Proofs.Store.Types

/-!
# Instances are formulas

The classes of an e-graph stay within types, and applications of one function have arguments of the
same types. So a match binds variables to classes of their types, whatever the trail says, and an
instance is what its formula is: a boolean term. What the solver keeps is in the store as long as
its roots are.
-/

namespace Entail.Quant

variable {s s' : Store} {g : Egraph} {vars : List Term} {b b' : Binding} {bs : List Binding}

/-! ## Bindings -/

/-- Node `n` has the type of `t`. -/
def OfType (s : Store) (g : Egraph) (t : Term) (n : Nat) : Prop :=
  ∃ node, g.nodes[n]? = some node ∧ s.Has t node.ty

/-- Variables are bound to nodes of their types. -/
def Fits (s : Store) (g : Egraph) (vars : List Term) (b : Binding) : Prop :=
  ∀ {i r : Nat}, b[i]? = some (some r) → ∃ v, vars[i]? = some v ∧ OfType s g v r

theorem OfType.root (hg : g.Typed s) {t : Term} {n : Nat} (h : OfType s g t n) :
    OfType s g t (g.root n) := by
  obtain ⟨node, hn, ht⟩ := h
  obtain ⟨m, r, hm, hr, hty⟩ := hg.sorted.sameTy_root (Array.getElem?_eq_some_iff.mp hn).1
  obtain rfl := Option.some.inj (hn.symm.trans hm)
  exact ⟨r, hr, hty ▸ ht⟩

theorem bind_fits {i root : Nat} {v : Term} (hi : vars[i]? = some v) (hroot : OfType s g v root)
    (hb : Fits s g vars b) (h : bind i root b = some b') : Fits s g vars b' := by
  unfold bind at h
  split at h
  · cases h
    intro j r hj
    rw [List.getElem?_set] at hj
    split at hj
    next heq =>
      split at hj
      · cases hj
        exact ⟨v, heq ▸ hi, hroot⟩
      · cases hj
    next => exact hb hj
  · split at h
    · cases h
      exact hb
    · cases h
  · cases h

/-- The arguments of two applications of one function correspond in their types. -/
theorem args_ofType (hw : s.Wf) (hg : g.Typed s) {pattern f : Term} {args : List Term} {n : Nat}
    (hshape : s.shape pattern = .app f args) (hfunc : (g.node n).func = some f) :
    ∀ x ∈ args.zip (g.node n).args, OfType s g x.1 (g.root x.2) := by
  have hlt := Egraph.lt_size_of_func hfunc
  have hn : g.nodes[n]? = some (g.node n) := by
    rw [Egraph.node, Array.getD_eq_getD_getElem?, Array.getElem?_eq_getElem hlt, Option.getD_some]
  obtain ⟨ts, hts, hargs⟩ := (hg.described hn).1.app hfunc
  have hnode := (hg.has_node hn).node
  rw [hts] at hnode
  obtain ⟨tf, domain, hf, hdomain, htyped⟩ := hw.typed hnode
  obtain ⟨ty, hpattern⟩ := Store.node_of_shape hshape (by simp)
  obtain ⟨tf', domain', hf', hdomain', htyped'⟩ := hw.typed hpattern
  rw [hf'.unique hf, hdomain, Option.some.injEq, Ty.Shape.function.injEq] at hdomain'
  obtain ⟨rfl, -⟩ := hdomain'
  intro x hx
  obtain ⟨i, hi, rfl⟩ := List.mem_iff_getElem.mp hx
  rw [List.length_zip] at hi
  rw [List.getElem_zip]
  have hi' : i < args.length := by omega
  have hin : i < (g.node n).args.length := by omega
  have hits : i < ts.length := hargs.length_eq ▸ hin
  have hid : i < domain.length := htyped.length_eq ▸ hits
  obtain ⟨m, hm, hterm⟩ := Option.map_eq_some_iff.mp (List.Forall₂.get hargs hin hits).2
  have hmty : s.Has ts[i] m.ty := by
    have h := hg.has_node hm
    rwa [show m.term = ts[i] from hterm] at h
  have hty : m.ty = domain[i] := hmty.unique (List.Forall₂.get htyped hits hid)
  exact OfType.root hg ⟨m, hm, hty ▸ List.Forall₂.get htyped' hi' hid⟩

/-! ## Matching -/

section

variable {P : Binding → Prop} (hw : s.Wf) (hg : g.Typed s)
  (hbind : ∀ {i root v b b'}, vars[i]? = some v → OfType s g v root → P b →
    bind i root b = some b' → P b')

include hw hg hbind

/-- Matching a pattern against a node, or against a class of its type, binds variables to classes of
their types only. -/
theorem match_induction (depth : Nat) :
    (∀ pattern n bs, (∀ b ∈ bs, P b) → ∀ b ∈ matchNode g s vars depth pattern n bs, P b) ∧
      ∀ pattern root bs, OfType s g pattern root → (∀ b ∈ bs, P b) →
        ∀ b ∈ matchClass g s vars depth pattern root bs, P b := by
  -- a variable is bound, and a term that is looked up is compared, in the same way at any depth
  have leaf {pattern : Term} {i root : Nat} {bs : List Binding} (hi : vars.idxOf? pattern = some i)
      (hroot : OfType s g pattern root) (hbs : ∀ b ∈ bs, P b) :
      ∀ b ∈ bs.filterMap (bind i root), P b := by
    intro b hb
    obtain ⟨b₀, hb₀, hb⟩ := List.mem_filterMap.mp hb
    refine hbind ?_ hroot (hbs b₀ hb₀) hb
    obtain ⟨hlt, heq, -⟩ := List.idxOf?_eq_some_iff.mp hi
    rw [List.getElem?_eq_getElem hlt, heq]
  have keep {bs : List Binding} (hbs : ∀ b ∈ bs, P b) (p : Prop) [Decidable p] :
      ∀ b ∈ (if p then bs else []), P b := by
    split
    · exact hbs
    · exact List.forall_mem_nil _
  induction depth with
  | zero =>
    refine ⟨fun pattern n bs hbs => ?_, fun pattern root bs hroot hbs => ?_⟩
    · unfold matchNode
      exact List.forall_mem_nil _
    · unfold matchClass
      split
      next i hi => exact leaf hi hroot hbs
      next =>
        dsimp only
        split
        · exact keep hbs _
        · exact List.forall_mem_nil _
  | succ depth ih =>
    refine ⟨fun pattern n bs hbs => ?_, fun pattern root bs hroot hbs => ?_⟩
    · unfold matchNode
      split
      next depth' f args hdepth hshape =>
        cases hdepth
        dsimp only
        split
        next hcond =>
          simp only [Bool.and_eq_true, decide_eq_true_eq] at hcond
          have hargs := args_ofType hw hg hshape hcond.1
          generalize args.zip (g.node n).args = pairs at hargs
          induction pairs generalizing bs with
          | nil => exact hbs
          | cons x pairs ihp =>
            exact ihp _ (ih.2 x.1 _ bs (hargs x List.mem_cons_self) hbs) fun y hy =>
              hargs y (List.mem_cons_of_mem _ hy)
        next => exact List.forall_mem_nil _
      next => exact List.forall_mem_nil _
    · unfold matchClass
      split
      next i hi => exact leaf hi hroot hbs
      next =>
        split
        next depth' _ _ hdepth _ _ =>
          cases hdepth
          intro b hb
          obtain ⟨m, -, hb⟩ := List.mem_flatMap.mp hb
          exact ih.1 _ m bs hbs b hb
        next =>
          split
          · exact keep hbs _
          · exact List.forall_mem_nil _

/-- What all bindings of patterns that are matched together have in common. -/
theorem matchAll_induction (hfree : P (vars.map fun _ => none))
    (patterns : List (Term × List Nat)) :
    ∀ b ∈ matchAll g s vars patterns, P b := by
  have hbs := List.forall_mem_singleton.mpr hfree
  unfold matchAll
  generalize [vars.map fun _ => (none : Option Nat)] = bs at hbs
  induction patterns generalizing bs with
  | nil => exact hbs
  | cons p patterns ih =>
    refine ih _ fun b hb => ?_
    obtain ⟨n, -, hb⟩ := List.mem_flatMap.mp hb
    exact (match_induction hw hg hbind _).1 p.1 n bs hbs b hb

end

/-- All bindings of patterns that are matched together put classes of the right types for
variables. -/
theorem matchAll_fits (hw : s.Wf) (hg : g.Typed s) (patterns : List (Term × List Nat)) :
    ∀ b ∈ matchAll g s vars patterns, Fits s g vars b := by
  refine matchAll_induction hw hg bind_fits (fun {i r} hi => ?_) patterns
  rw [List.getElem?_map] at hi
  cases h : vars[i]? <;> simp [h] at hi

/-- The terms of the classes are put for the variables, all of which are bound. -/
theorem Solver.replacement?_spec {σ : Subst} (h : Solver.replacement? g vars b = some σ) :
    (∀ {x v : Term}, σ[x]? = some v → ∃ r, (x, some r) ∈ vars.zip b ∧
      v = (g.node (g.root r)).term) ∧
      ∀ y ∈ vars.zip b, σ[y.1]? ≠ none := by
  have hfold (pairs : List (Term × Option Nat)) (σ₀ : Subst)
      (h : pairs.foldlM (fun σ x => x.2.map fun n => σ.insert x.1 (g.node (g.root n)).term) σ₀ =
        some σ) :
      (∀ {x v : Term}, σ[x]? = some v →
        σ₀[x]? = some v ∨ ∃ r, (x, some r) ∈ pairs ∧ v = (g.node (g.root r)).term) ∧
      (∀ x : Term, σ₀[x]? ≠ none → σ[x]? ≠ none) ∧ ∀ y ∈ pairs, σ[y.1]? ≠ none := by
    induction pairs generalizing σ₀ with
    | nil =>
      cases h
      exact ⟨.inl, fun _ => id, nofun⟩
    | cons y pairs ih =>
      obtain ⟨u, n⟩ := y
      rw [List.foldlM_cons] at h
      cases n with
      | none => cases h
      | some r =>
        obtain ⟨hterms, hkeep, hall⟩ := ih _ h
        have hinsert (x : Term) (hx : x = u ∨ σ₀[x]? ≠ none) :
            (σ₀.insert u (g.node (g.root r)).term)[x]? ≠ none := by
          rw [Std.HashMap.getElem?_insert]
          split
          · nofun
          next hne => exact hx.resolve_left fun h => hne (by simp [h])
        refine ⟨fun {x v} hx => ?_, fun x hx => hkeep x (hinsert x (.inr hx)), fun y hy => ?_⟩
        · rcases hterms hx with hx | ⟨r', hmem, hv⟩
          · rw [Std.HashMap.getElem?_insert] at hx
            split at hx
            next heq =>
              cases hx
              exact .inr ⟨r, eq_of_beq heq ▸ List.mem_cons_self, rfl⟩
            next => exact .inl hx
          · exact .inr ⟨r', List.mem_cons_of_mem _ hmem, hv⟩
        · rcases List.mem_cons.mp hy with rfl | hy
          · exact hkeep u (hinsert u (.inl rfl))
          · exact hall y hy
  obtain ⟨hterms, -, hall⟩ := hfold _ ∅ h
  exact ⟨fun hx => (hterms hx).resolve_left fun h => by simp at h, hall⟩

/-- What is put for a variable is of its type. -/
theorem Solver.has_of_replacement? (hg : g.Typed s) (hb : Fits s g vars b) {x : Term} {r : Nat}
    (hmem : (x, some r) ∈ vars.zip b) :
    ∃ n, g.nodes[g.root r]? = some n ∧ s.Has x n.ty ∧ s.Has n.term n.ty := by
  obtain ⟨i, hi, heq⟩ := List.mem_iff_getElem.mp hmem
  rw [List.length_zip] at hi
  rw [List.getElem_zip, Prod.mk.injEq] at heq
  obtain ⟨u, hu, htype⟩ := hb (i := i) (r := r) (by rw [List.getElem?_eq_getElem (by omega), heq.2])
  rw [List.getElem?_eq_getElem (by omega), heq.1] at hu
  cases hu
  obtain ⟨n, hn, hx⟩ := OfType.root hg htype
  exact ⟨n, hn, hx, hg.has_node hn⟩

/-- The terms of the classes are put for variables of their types. -/
theorem Solver.replacement?_assigns (hg : g.Typed s) (hb : Fits s g vars b) {σ : Subst}
    (h : Solver.replacement? g vars b = some σ) : s.Assigns σ := by
  intro x v hx
  obtain ⟨r, hmem, rfl⟩ := (replacement?_spec h).1 hx
  obtain ⟨n, hn, hxt, hnt⟩ := has_of_replacement? hg hb hmem
  rw [Egraph.node, Array.getD_eq_getD_getElem?, hn, Option.getD_some]
  exact ⟨n.ty, hxt, hnt⟩

/-! ## The solver -/

/-- The pattern is an application in the store, with its function and with variables of its. -/
structure Pattern.Typed (s : Store) (p : Pattern) : Prop where
  valid : s.isValid p.term = true
  shape : ∃ args, s.shape p.term = .app p.head args
  vars : ∀ v ∈ p.vars, s.Below p.term v ∧ s.isValid v = true

/-- The constraint is a formula in the store, with its variables and its body. -/
structure Constraint.Typed (s : Store) (c : Constraint) : Prop where
  formula : s.Has c.formula .bool
  shape : s.shape c.formula = .all c.vars c.body

namespace Solver

/-- What the solver keeps is in the store, formulas as boolean terms. -/
structure Typed (s : Store) (q : Solver) : Prop where
  constraints : ∀ c ∈ q.constraints, c.Typed s
  patterns : ∀ p ∈ q.patterns.patterns, p.Typed s
  log : ∀ t ∈ q.log, s.Has t .bool

variable {q q' : Solver} {r : Round}

theorem typed_empty (s : Store) : ({} : Solver).Typed s := ⟨nofun, nofun, nofun⟩

/-- Everything that the solver keeps stays with its roots. -/
theorem Typed.spares (h : q.Typed s) (hs : s.Spares s' q.roots) : q.Typed s' where
  constraints c hc := by
    obtain ⟨hformula, hshape⟩ := h.constraints c hc
    have hstays := hs c.formula (by simp [roots]; exact .inl ⟨c, hc, rfl⟩)
      (Store.isValid_iff.mpr ⟨_, hformula⟩)
    exact ⟨hstays.has hformula, hstays.shape_eq.trans hshape⟩
  patterns p hp := by
    obtain ⟨hvalid, hshape, hvars⟩ := h.patterns p hp
    have hstays := hs p.term (by simp [roots]; exact .inr (.inl ⟨p, hp, rfl⟩)) hvalid
    refine ⟨hstays.valid.2, hstays.shape_eq ▸ hshape, fun v hv => ?_⟩
    obtain ⟨hbelow, hv⟩ := hvars v hv
    exact ⟨hstays.below hbelow, (hstays.part hbelow hv).valid.2⟩
  log t ht := by
    have hbool := h.log t ht
    exact (hs t (by simp [roots, ht]) (Store.isValid_iff.mpr ⟨_, hbool⟩)).has hbool

theorem Typed.later (h : q.Typed s) (hw : s.Wf) (hs : s.Extends s') : q.Typed s' :=
  h.spares (hs.spares hw _)

/-! ## Constraints -/

theorem checkPatterns_valid {vars ts covered : List Term}
    (h : checkPatterns s vars ts = .ok covered) :
    ∀ t ∈ ts, s.isValid t = true := by
  induction ts generalizing covered with
  | nil => exact List.forall_mem_nil _
  | cons p rest ih =>
    unfold checkPatterns at h
    obtain ⟨_, hcheck, h⟩ := Store.bind_eq_ok_iff.mp h
    have hp : s.isValid p = true := by
      cases hp : s.check p with
      | error e =>
        rw [hp] at hcheck
        cases hcheck
      | ok => exact Store.isValid_iff.mpr (Store.check_eq_ok hp)
    split at h
    · obtain ⟨-, h⟩ := Store.guard_eq_ok.mp h
      obtain ⟨more, hrest, -⟩ := Store.bind_eq_ok_iff.mp h
      exact List.forall_mem_cons.mpr ⟨hp, ih hrest⟩
    · cases h

theorem mem_greedyCover {vars covered chosen : List Term} {cs : List Candidate} {t : Term}
    (h : t ∈ greedyCover vars cs covered chosen) : t ∈ chosen ∨ ∃ c ∈ cs, c.term = t := by
  induction cs generalizing covered chosen with
  | nil => cases h
  | cons c rest ih =>
    unfold greedyCover at h
    have hstep {chosen' : List Term} (h : t ∈ chosen' ∨ ∃ c ∈ rest, c.term = t)
        (hchosen : t ∈ chosen' → t ∈ chosen ∨ c.term = t) : t ∈ chosen ∨ ∃ d ∈ c :: rest,
        d.term = t := by
      rcases h with h | ⟨d, hd, hdt⟩
      · exact (hchosen h).imp_right fun hc => ⟨c, List.mem_cons_self, hc⟩
      · exact .inr ⟨d, List.mem_cons_of_mem _ hd, hdt⟩
    have happend (h : t ∈ chosen ++ [c.term]) : t ∈ chosen ∨ c.term = t :=
      (List.mem_append.mp h).imp_right fun hc => (List.mem_singleton.mp hc).symm
    split at h
    · exact hstep (ih h) .inl
    · dsimp only at h
      split at h
      · exact (happend h).imp_right fun hc => ⟨c, List.mem_cons_self, hc⟩
      · exact hstep (ih h) happend

/-- Inferred patterns are subterms of the body. -/
theorem infer_valid (hw : s.Wf) {vars : List Term} {body : Term} (hbody : s.isValid body = true) :
    ∀ t ∈ infer s vars body, s.isValid t = true := by
  have hcandidates : ∀ c ∈ candidates s body, s.isValid c.term = true := by
    intro c hc
    obtain ⟨u, hu, hc⟩ := List.mem_filterMap.mp hc
    split at hc
    · dsimp only at hc
      split at hc
      · cases hc
      · cases hc
        exact Store.isValid_iff.mpr (Store.mem_subterms hw hbody hu).2.2
    · cases hc
  intro t ht
  unfold infer at ht
  dsimp only at ht
  split at ht
  next c cs heq =>
    obtain rfl := List.mem_singleton.mp ht
    have hc : c ∈ ((candidates s body).filter fun c => covers vars c.vars).mergeSort
        Candidate.le := by
      rw [heq]
      exact List.mem_cons_self
    exact hcandidates c (List.mem_of_mem_filter (List.mem_mergeSort.mp hc))
  next =>
    obtain ⟨c, hc, rfl⟩ := (mem_greedyCover ht).resolve_left List.not_mem_nil
    exact hcandidates c (List.mem_mergeSort.mp hc)

theorem choosePatterns_valid (hw : s.Wf) {vars explicit terms : List Term} {body : Term}
    (hbody : s.isValid body = true)
    (h : choosePatterns s vars body explicit = .ok terms) : ∀ t ∈ terms, s.isValid t = true := by
  unfold choosePatterns at h
  split at h
  · cases h
    exact infer_valid hw hbody
  · obtain ⟨covered, hcovered, h⟩ := Store.bind_eq_ok_iff.mp h
    split at h
    · cases h
    · cases h
      exact checkPatterns_valid hcovered

/-- Patterns that are entered are applications in the store. -/
theorem addAll_typed (hw : s.Wf) {ts : List Term} (hts : ∀ t ∈ ts, s.isValid t = true)
    {p : PatternTable} (hp : ∀ x ∈ p.patterns, x.Typed s) :
    ∀ x ∈ (PatternTable.addAll s ts p).2.patterns, x.Typed s := by
  induction ts generalizing p with
  | nil => exact hp
  | cons t rest ih =>
    refine ih (fun u hu => hts u (List.mem_cons_of_mem _ hu)) fun x hx => ?_
    have ht := hts t List.mem_cons_self
    split at hx
    · exact hp x hx
    · split at hx
      next head args hshape =>
        rcases Array.mem_push.mp hx with hx | rfl
        · exact hp x hx
        · refine ⟨ht, ⟨args, hshape⟩, fun v hv => ?_⟩
          obtain ⟨hbelow, -, hlive⟩ := Store.mem_subterms hw ht
            (List.mem_of_mem_filter (Term.mem_sort.mp hv))
          exact ⟨hbelow, Store.isValid_iff.mpr hlive⟩
      · exact hp x hx

/-- A universally quantified formula has a boolean body. -/
theorem has_of_all (hw : s.Wf) {formula body : Term} {vars : List Term}
    (hshape : s.shape formula = .all vars body) : s.Has formula .bool ∧ s.Has body .bool := by
  obtain ⟨ty, hn⟩ := Store.node_of_shape hshape (by simp)
  obtain ⟨rfl, -, -, hbody⟩ := hw.typed hn
  exact ⟨⟨⟨_, hn⟩, fun _ => rfl⟩, hbody⟩

theorem Typed.addConstraint (hw : s.Wf) (h : q.Typed s) {formula : Term} {explicit : List Term}
    (hq : q.addConstraint s formula explicit = .ok q') : q'.Typed s := by
  unfold Solver.addConstraint at hq
  split at hq
  next vars body hshape =>
    obtain ⟨terms, hterms, hq⟩ := Store.bind_eq_ok_iff.mp hq
    cases hq
    obtain ⟨hformula, hbody⟩ := has_of_all hw hshape
    refine ⟨fun c hc => ?_, ?_, h.log⟩
    · rcases Array.mem_push.mp hc with hc | rfl
      · exact h.constraints c hc
      · exact ⟨hformula, hshape⟩
    · exact addAll_typed hw (choosePatterns_valid hw (Store.isValid_iff.mpr ⟨_, hbody⟩) hterms)
        h.patterns
  · cases hq

/-! ## Instances -/

/-- The solver and the new instances are in the store. -/
structure Round.Typed (s : Store) (r : Round) : Prop where
  solver : r.solver.Typed s
  formulas : ∀ t ∈ r.formulas, s.Has t .bool

theorem Round.Typed.later (h : r.Typed s) (hw : s.Wf) (hs : s.Extends s') : r.Typed s' :=
  ⟨h.solver.later hw hs, fun t ht => hs.has (h.formulas t ht)⟩

theorem Round.Typed.add (h : r.Typed s) {t : Term} (ht : s.Has t .bool) : (r.add t).Typed s where
  solver := { h.solver with
    log := fun u hu => by
      rcases Array.mem_push.mp (show u ∈ r.solver.log.push t from hu) with hu | rfl
      · exact h.solver.log u hu
      · exact ht }
  formulas u hu := by
    rcases Array.mem_push.mp (show u ∈ r.formulas.push t from hu) with hu | rfl
    · exact h.formulas u hu
    · exact ht

/-- An instance is the body of a formula with terms for variables of their types. -/
theorem instantiate_typed (hw : s.Wf) (hg : g.Typed s) {c : Constraint} (hc : s.Has c.body .bool)
    (hbs : ∀ b ∈ bs, Fits s g c.vars b) (hr : r.Typed s) :
    (instantiate g c bs r s).1.Typed (instantiate g c bs r s).2 := by
  induction bs generalizing r s with
  | nil => exact hr
  | cons b bs ih =>
    have hrest : ∀ b ∈ bs, Fits s g c.vars b := fun b hb => hbs b (List.mem_cons_of_mem _ hb)
    -- the rest starts from a store that extends `s`
    have next {s' : Store} {r' : Round} (hs : Store.Later s s') (hr' : r'.Typed s') :
        (instantiate g c bs r' s').1.Typed (instantiate g c bs r' s').2 :=
      ih hs.wf (hg.later hs.ext) (hs.ext.has hc) (fun b hb i r hi => by
        obtain ⟨v, hv, n, hn, hty⟩ := hrest b hb hi
        exact ⟨v, hv, n, hn, hs.ext.has hty⟩) hr'
    unfold instantiate
    split
    · exact hr
    · cases hσ : replacement? g c.vars b with
      | none => exact next (Store.later_frame.refl hw) hr
      | some σ =>
        have hyields :=
          (Store.subst_yields hw (replacement?_assigns hg (hbs b List.mem_cons_self) hσ) hc).builds
        unfold Store.Builds Ends at hyields
        simp only
        split
        next e s' heq =>
          rw [heq] at hyields
          exact next hyields (hr.later hw hyields.ext)
        next t s' heq =>
          rw [heq] at hyields
          obtain ⟨hs, ht⟩ := hyields
          have hr' := hr.later hw hs.ext
          split
          · exact next hs hr'
          · exact next hs (hr'.add ht)

theorem instantiateAll_typed (hw : s.Wf) (hg : g.Typed s) (cs : List Constraint)
    (hcs : ∀ c ∈ cs, c.Typed s) (hr : r.Typed s) (hi : r.solver.Indexed) :
    (instantiateAll g cs r s).1.Typed (instantiateAll g cs r s).2 := by
  induction cs generalizing r s with
  | nil => exact hr
  | cons c cs ih =>
    have hrest : ∀ d ∈ cs, d.Typed s := fun d hd => hcs d (List.mem_cons_of_mem _ hd)
    unfold instantiateAll
    split
    · exact hr
    · split
      · exact ih hw hg hrest hr hi
      · obtain ⟨hs, hgrows⟩ := instantiate_grows g c (r.solver.bindings g s c) r hi hw
        have hbody := (has_of_all hw (hcs c List.mem_cons_self).shape).2
        have hfits : ∀ b ∈ r.solver.bindings g s c, Fits s g c.vars b := matchAll_fits hw hg _
        have hfirst := instantiate_typed hw hg hbody hfits hr
        refine ih hs.later.wf (hg.later hs.later.ext) (fun d hd => ?_) hfirst hgrows.indexed
        obtain ⟨hformula, hshape⟩ := hrest d hd
        have hstays := hs.later.ext.stays hw (Store.isValid_iff.mpr ⟨_, hformula⟩)
        exact ⟨hstays.has hformula, hstays.shape_eq.trans hshape⟩

/-- What a look at a complete assignment adds are formulas. -/
theorem finalCheck_typed (hw : s.Wf) (hg : g.Typed s) (h : q.Typed s) (hi : q.Indexed) :
    (q.finalCheck (some g) s).1.2.2.Typed (q.finalCheck (some g) s).2 ∧
      ∀ t ∈ (q.finalCheck (some g) s).1.2.1, (q.finalCheck (some g) s).2.Has t .bool := by
  unfold finalCheck
  dsimp only
  split
  · exact ⟨h, nofun⟩
  · have hround : Round.Typed s ⟨q, #[]⟩ := ⟨h, nofun⟩
    have hall := instantiateAll_typed hw hg q.constraints.toList
      (fun c hc => h.constraints c (Array.mem_toList_iff.mp hc)) hround hi
    exact ⟨hall.solver, fun t ht => hall.formulas t (Array.mem_toList_iff.mp ht)⟩

/-! ## Scopes -/

theorem Typed.startSearch (h : q.Typed s) (p : Params) : (q.startSearch p).Typed s := { h with }

theorem Typed.push (h : q.Typed s) : q.push.Typed s := { h with }

theorem Typed.mergeScope (h : q.Typed s) : q.mergeScope.Typed s := { h with }

theorem Typed.pop (h : q.Typed s) : q.pop.Typed s := by
  have hmem {α : Type} {as : Array α} {a : α} {count : Nat} (ha : a ∈ as.take count) : a ∈ as := by
    rw [← Array.mem_toList_iff, Array.take_eq_extract, Array.toList_extract,
      List.extract_eq_take_drop] at ha
    exact Array.mem_toList_iff.mp (List.mem_of_mem_drop (List.mem_of_mem_take ha))
  unfold Solver.pop
  split
  · exact h
  · exact ⟨fun c hc => h.constraints c (hmem hc), fun p hp => h.patterns p (hmem hp), fun t ht =>
      h.log t (hmem ht)⟩

end Solver
end Entail.Quant
