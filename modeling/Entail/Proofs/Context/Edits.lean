import Entail.Context.Check
import Entail.Proofs.Context.Gates
import Entail.Proofs.Egraph.Nodes
import Mathlib.Logic.Relation

/-!
# What processing a formula is made of

Whatever formula is processed, only a few kinds of things are done to a workspace on the way: terms
are built and get variables, clauses are added, nodes, atoms and quantifiers are entered, and what
was encoded or defined is noted. So what each of them keeps is kept by processing.
-/

namespace Entail

namespace Egraph

variable {s : Store} {g g' g'' : Egraph} {t : Term}

/-- `g'` has come from `g` by adding nodes, without a change to the classes. -/
structure Enlarges (g g' : Egraph) : Prop where
  classes : g'.classes = g.classes
  size_le : g.nodes.size ≤ g'.nodes.size

namespace Enlarges

/-- Nothing is added. -/
theorem refl (g : Egraph) : Enlarges g g := ⟨rfl, Nat.le_refl _⟩

/-- What comes about in two steps. -/
theorem trans (h : Enlarges g g') (h' : Enlarges g' g'') : Enlarges g g'' :=
  ⟨h'.classes.trans h.classes, Nat.le_trans h.size_le h'.size_le⟩

/-- A node more. -/
theorem addNode (n : Node) (g : Egraph) : Enlarges g (addNode n g).2 :=
  ⟨rfl, Nat.le_trans (Nat.le_succ _) (Nat.le_of_eq (Array.size_push ..).symm)⟩

/-- One term after the other is entered. -/
theorem mapM {f : Term → StateM Egraph Nat} (h : ∀ t g, Enlarges g (f t g).2) (ts : List Term)
    (g : Egraph) :
    Enlarges g (ts.mapM f g).2 := by
  induction ts generalizing g with
  | nil => exact .refl g
  | cons t ts ih =>
    rw [List.mapM_cons]
    exact (h t g).trans (ih _)

/-- The induction is on the depth to which applications are opened. -/
theorem internalizeAt (s : Store) (depth : Nat) (t : Term) (g : Egraph) :
    Enlarges g (internalizeAt s depth t g).2 := by
  induction depth generalizing t g with
  | zero =>
    cases hnode : g.nodeOf[t]? with
    | some i =>
      rw [internalizeAt_found hnode]
      exact .refl g
    | none =>
      rw [internalizeAt_leaf hnode (.inl rfl)]
      exact addNode _ g
  | succ depth ih =>
    cases hnode : g.nodeOf[t]? with
    | some i =>
      rw [internalizeAt_found hnode]
      exact .refl g
    | none =>
      by_cases hshape : ∃ f args, s.shape t = .app f args
      · obtain ⟨f, args, hshape⟩ := hshape
        rw [internalizeAt_app hnode hshape]
        exact (mapM ih args g).trans (addNode _ _)
      · rw [internalizeAt_leaf hnode (.inr fun f args h => hshape ⟨f, args, h⟩)]
        exact addNode _ g

/-- An atom is noted beside the nodes. -/
theorem setAtom (v : Nat) (a : Atom) (g : Egraph) : Enlarges g (setAtom v a g).2 :=
  ⟨rfl, Nat.le_refl _⟩

/-- An equality enters its two sides, unless its variable has an atom already. -/
theorem addEq (s : Store) (v : Nat) (a b : Term) (g : Egraph) : Enlarges g (addEq s v a b g).2 := by
  by_cases hv : g.atoms.contains v = true
  · rw [addEq_of_contains hv]
    exact .refl g
  · rw [addEq_of_new hv]
    exact ((internalizeAt s _ a g).trans (internalizeAt s _ b _)).trans (setAtom v _ _)

/-- So does a boolean application with itself. -/
theorem addPred (s : Store) (v : Nat) (p : Term) (g : Egraph) : Enlarges g (addPred s v p g).2 := by
  by_cases hv : g.atoms.contains v = true
  · rw [addPred_of_contains hv]
    exact .refl g
  · rw [addPred_of_new hv]
    exact (internalizeAt s _ p g).trans (setAtom v _ _)

end Enlarges
end Egraph

/-- One of the things that are done to a workspace while a formula is processed. -/
inductive Edit : Workspace → Workspace → Prop where
  /-- Terms are built. -/
  | build (s s' : Store) (c : Context) : Edit ⟨s, c⟩ ⟨s', c⟩
  /-- A term gets a variable. -/
  | atom (s : Store) (c : Context) (t : Term) : Edit ⟨s, c⟩ ⟨s, (c.atom t).2⟩
  /-- A clause is added to the innermost scope. -/
  | clause (s : Store) (c : Context) (lits : List Literal) : Edit ⟨s, c⟩ ⟨s, c.addClause lits⟩
  /-- Gate outputs, encoded terms, definitions and assertions are noted. -/
  | note (s : Store) (c : Context) (aux : Std.HashSet Term) (lits : Std.HashMap Term Literal)
    (bits : Std.HashMap Term (List Literal)) (cacheLog : Array Context.Cached) (subst : Subst)
    (substLog : Array Term)
    (assertions : Array Term) : Edit ⟨s, c⟩
    ⟨s, { c with aux, lits, bits, cacheLog, subst, substLog, assertions }⟩
  /-- Nodes and atoms are entered. -/
  | enter (s : Store) (c : Context) {g : Egraph} (h : c.registry.egraph.Enlarges g) :
    Edit ⟨s, c⟩ ⟨s, { c with registry := { c.registry with egraph := g } }⟩
  /-- A quantified formula is registered; it is no negation. -/
  | constrain (s : Store) (c : Context) {q q' : Quant.Solver} {t : Term} {patterns : List Term}
    (hq : c.registry.quant? = some q) (hpos : t.isNegated = false)
    (hadd : q.addConstraint s t patterns = .ok q') :
    Edit ⟨s, c⟩ ⟨s, { c with registry := c.registry.setQuant q' }⟩

/-- A workspace is edited step by step. -/
abbrev Edits : Workspace → Workspace → Prop := Relation.ReflTransGen Edit

/-- Edits one after the other. -/
theorem edits_frame : Frame (fun _ => True) Edits := ⟨fun _ => .refl, .trans, fun _ _ => trivial⟩

namespace Work

variable {α β : Type}

/-- The operation edits, whether it is refused or not. -/
abbrev Edits (op : Work α) : Prop := Moves (fun _ => True) Entail.Edits op

/-! ## Primitive operations -/

/-- Reading is no edit. -/
theorem edits_look (f : Store → Context → α) : Edits (look f) := moves_look edits_frame f

theorem edits_shape (t : Term) : Edits (shape t) := edits_look _

/-- Whatever is built, and whether it is refused or not, is one edit. -/
theorem edits_onStore (op : Store.Op α) : Edits (onStore op) := by
  rintro ⟨s, c⟩ -
  unfold onStore
  dsimp only
  split
  · exact .single (.build s _ c)
  · exact .single (.build s _ c)

theorem edits_clause (lits : List Literal) : Edits (clause lits) :=
  fun ⟨s, c⟩ _ => .single (.clause s c lits)

/-- Clauses are added one by one. -/
theorem edits_clauses (cs : List (List Literal)) : Edits (clauses cs) :=
  edits_frame.forM cs fun c _ => edits_clause c

theorem edits_atom (t : Term) : Edits (atom t) := fun ⟨s, c⟩ _ => .single (.atom s c t)

theorem edits_addEq (v : Nat) (a b : Term) : Edits (onEgraph fun s => Egraph.addEq s v a b) :=
  fun ⟨s, c⟩ _ =>
  .single (.enter s c (.addEq s v a b c.registry.egraph))

theorem edits_addPred (v : Nat) (p : Term) : Edits (onEgraph fun s => Egraph.addPred s v p) :=
  fun ⟨s, c⟩ _ =>
  .single (.enter s c (.addPred s v p c.registry.egraph))

/-- A quantifier that its solver refuses is not registered. -/
theorem edits_addConstraint {t : Term} (hpos : t.isNegated = false) (patterns : List Term) :
    Edits (addConstraint t patterns) := by
  rintro ⟨s, c⟩ -
  unfold addConstraint
  rw [bind_of_ok (show look (fun _ c => c.registry.quant?) ⟨s, c⟩ = .ok c.registry.quant? ⟨s, c⟩
    from rfl)]
  cases hq : c.registry.quant? with
  | none => exact .refl
  | some q =>
    dsimp only
    cases hadd : q.addConstraint s t patterns with
    | error e =>
      rw [bind_of_error (show check (fun s _ => q.addConstraint s t patterns) ⟨s, c⟩ = .error e
        ⟨s, c⟩ by simp [check, hadd])]
      exact .refl
    | ok q' =>
      rw [bind_of_ok (show check (fun s _ => q.addConstraint s t patterns) ⟨s, c⟩ = .ok q'
        ⟨s, c⟩ by simp [check, hadd])]
      exact .single (.constrain s c hq hpos hadd)

/-- A new output is a new constant with a variable. -/
theorem edits_freshLit : Edits freshLit :=
  edits_frame.bind (edits_onStore _) fun t =>
    edits_frame.bind (fun ⟨s, c⟩ _ => .single (.note s c ..)) fun _ => edits_atom t

/-- The output of a gate and its clauses. -/
theorem edits_define (cs : Literal → List (List Literal)) :
    Edits (do let out ← freshLit; clauses (cs out); return out) :=
  edits_frame.bind edits_freshLit fun out => edits_frame.bind (edits_clauses (cs out)) fun _ =>
    edits_frame.pure out

/-! ## Encoding -/

/-- Encoding any term edits. -/
structure Editing (e : Encoder) : Prop where
  lit : ∀ t, Edits (e.lit t)
  word : ∀ t, Edits (e.word t)

section

variable {e : Encoder} (he : Editing e)

include he

/-- An equality with a choice is turned into a choice of equalities, which is encoded. -/
theorem edits_lifted (c x y z : Term) : Edits (e.lifted c x y z) :=
  edits_frame.bind (edits_onStore _) fun _ => edits_frame.bind (edits_onStore _) fun _ =>
    edits_frame.bind (edits_onStore _) fun t => he.lit t

/-- Words are compared by digits, choices are lifted, and all else is for the e-graph. -/
theorem edits_equality (p a b : Term) : Edits (e.equality p a b) := by
  refine edits_frame.bind (edits_look _) fun width => ?_
  split
  · exact edits_frame.bind (he.word a) fun x => edits_frame.bind (he.word b) fun y =>
      moves_equalGate edits_frame edits_define x y
  · refine edits_frame.bind (edits_look _) fun sort => ?_
    split
    · exact edits_frame.throw _
    · refine edits_frame.bind (edits_shape a) fun sa => edits_frame.bind (edits_shape b) fun sb =>
        ?_
      split
      · exact edits_lifted he _ _ _ _
      · exact edits_lifted he _ _ _ _
      · exact edits_frame.bind (edits_atom p) fun l => edits_frame.bind (edits_addEq l.var a b)
          fun _ => edits_frame.pure l

/-- One case for each boolean constructor; its parts are encoded before it. -/
theorem edits_boolean (p : Term) : Edits (e.boolean p) := by
  have hgate (cs : Literal → List (List Literal)) :
      Edits (do let out ← atom p; clauses (cs out); return out) :=
    edits_frame.bind (edits_atom p) fun out =>
      edits_frame.bind (edits_clauses (cs out)) fun _ => edits_frame.pure out
  refine edits_frame.bind (edits_shape p) fun shape => ?_
  cases shape with
  | truth => exact edits_look _
  | uninterpreted => exact edits_atom p
  | app =>
    exact edits_frame.bind (edits_atom p) fun l =>
      edits_frame.bind (edits_addPred l.var p) fun _ => edits_frame.pure l
  | eq a b => exact edits_equality he p a b
  | or args =>
    exact edits_frame.bind (edits_frame.mapM args fun a _ => he.lit a)
      fun lits => hgate (orClauses · lits)
  | xor a b =>
    exact edits_frame.bind (he.lit a) fun x => edits_frame.bind (he.lit b)
      fun y => hgate (xorClauses · x y)
  | ite c a b =>
    exact edits_frame.bind (he.lit c) fun z => edits_frame.bind (he.lit a) fun x => edits_frame.bind
        (he.lit b) fun y =>
      hgate (iteClauses · z x y)
  | bit t i => exact edits_frame.bind (he.word t) fun bits =>
    edits_frame.bind (edits_look _) fun l => edits_frame.pure _
  | bvGe a b | bvSge a b =>
    exact edits_frame.bind (he.word a) fun x => edits_frame.bind (he.word b) fun y =>
      moves_geGate edits_frame edits_define _ _
  | var | all | bvConst | bvNeg | bvSum | bvProduct => exact edits_frame.throw _

/-- Words are combined from the first on. -/
theorem edits_foldWords {op : List Literal → List Literal → Work (List Literal)}
    (hop : ∀ x y, Edits (op x y)) (ts : List Term) : Edits (e.foldWords op ts) := by
  cases ts with
  | nil => exact edits_frame.pure _
  | cons t ts =>
    exact edits_frame.bind (he.word t) fun x => edits_frame.foldlM ts x fun acc t _ =>
      edits_frame.bind (he.word t) fun y => hop acc y

/-- One case for each constructor of words. -/
theorem edits_bitvector (t : Term) : Edits (e.bitvector t) := by
  refine edits_frame.bind (edits_look _) fun width => ?_
  cases width with
  | none => exact edits_frame.throw _
  | some width =>
    refine edits_frame.bind (edits_shape t) fun shape => ?_
    cases shape with
    | bvConst => exact edits_frame.bind (edits_look _) fun one => edits_frame.pure _
    | uninterpreted =>
      exact edits_frame.mapM _ fun i _ => edits_frame.bind (edits_onStore _) fun b => edits_atom b
    | ite c a b =>
      exact edits_frame.bind (he.lit c) fun z => edits_frame.bind (he.word a) fun x =>
        edits_frame.bind (he.word b) fun y =>
        edits_frame.mapM _ fun (x, y) _ => moves_iteGate edits_frame edits_define z x y
    | bvNeg a =>
      exact edits_frame.bind (he.word a) fun x => moves_negater edits_frame edits_define x
    | bvSum args =>
      exact edits_frame.bind (edits_look _) fun zero =>
        edits_foldWords he (fun x y => moves_adder edits_frame edits_define x y zero) args
    | bvProduct args => exact edits_foldWords he (moves_multiplier edits_frame edits_define) args
    | truth | app | eq | or | xor | bit | bvGe | bvSge | var | all => exact edits_frame.throw _

end

/-- A literal that was found is not encoded again, and a new one is noted. -/
theorem edits_cachedLit {encode : Term → Work Literal} (h : ∀ p, Edits (encode p)) (t : Term) :
    Edits (Encoder.cachedLit encode t) := by
  refine edits_frame.bind (edits_look _) fun found => ?_
  split
  · exact edits_frame.pure _
  · exact edits_frame.bind (h _) fun l => edits_frame.bind (fun ⟨s, c⟩ _ => .single (.note s c ..))
      fun _ => edits_frame.pure _

/-- The same for words. -/
theorem edits_cachedWord {encode : Term → Work (List Literal)} (h : ∀ t, Edits (encode t))
    (t : Term) :
    Edits (Encoder.cachedWord encode t) := by
  refine edits_frame.bind (edits_look _) fun found => ?_
  split
  · exact edits_frame.pure _
  · exact edits_frame.bind (h t) fun w => edits_frame.bind (fun ⟨s, c⟩ _ => .single (.note s c ..))
      fun _ => edits_frame.pure _

/-- The induction is on the depth to which terms are encoded. -/
theorem editing_nested (depth : Nat) : Editing (Encoder.nested depth) := by
  induction depth with
  | zero => exact ⟨fun _ => edits_frame.throw _, fun _ => edits_frame.throw _⟩
  | succ depth ih =>
    exact ⟨edits_cachedLit (edits_boolean ih), edits_cachedWord (edits_bitvector ih)⟩

theorem edits_literalOf (t : Term) : Edits (literalOf t) :=
  edits_frame.bind (edits_look _) fun _ => (editing_nested _).lit t

/-! ## Simplifying -/

/-- Solving a sum for one of its words builds the difference of the others. -/
theorem edits_solveFor (args : List Term) (r : Term) (before after : List Term) :
    Edits (solveFor args r before after) := by
  induction after generalizing before with
  | nil => exact edits_frame.pure _
  | cons x after ih =>
    refine edits_frame.bind (edits_look _) fun ok => ?_
    split
    · exact edits_frame.bind (edits_onStore _) fun rest => edits_frame.bind (edits_onStore _)
        fun v => edits_frame.pure _
    · exact ih _

theorem edits_solveSum (t r : Term) : Edits (solveSum t r) := by
  refine edits_frame.bind (edits_shape t) fun shape => ?_
  split
  · exact edits_solveFor _ _ _ _
  · exact edits_frame.pure _

/-- Either side may be solved. -/
theorem edits_solveEquation (a b : Term) : Edits (solveEquation a b) := by
  refine edits_frame.bind (edits_look _) fun on => ?_
  split
  · refine edits_frame.bind (edits_solveSum a b) fun d => ?_
    split
    · exact edits_frame.pure _
    · exact edits_solveSum b a
  · exact edits_frame.pure _

/-- To look for a definition is to build terms at most. -/
theorem edits_definition? (t : Term) : Edits (definition? t) := by
  refine edits_frame.bind (edits_shape t) fun shape => ?_
  split
  · refine edits_frame.bind (edits_look _) fun on => ?_
    split
    · exact edits_look _
    · exact edits_frame.pure _
  next a b =>
    split
    · exact edits_frame.pure _
    · refine edits_frame.bind (edits_look _) fun on => ?_
      have hrest (direct : Option (Term × Term)) :
          Edits (if direct.isSome then pure direct else solveEquation a b) := by
        split
        · exact edits_frame.pure _
        · exact edits_solveEquation a b
      split
      · exact edits_frame.bind (edits_look _) hrest
      · exact hrest none
  · exact edits_frame.pure _

/-- A constant is made for each variable and put into the body. -/
theorem edits_skolemize (vars : List Term) (body : Term) : Edits (skolemize vars body) :=
  edits_frame.bind (edits_frame.foldlM vars _ fun _ _ _ => edits_frame.bind (edits_look _) fun _ =>
    edits_frame.bind (edits_onStore _) fun _ => edits_frame.pure _) fun _ => edits_onStore _

/-- A disjunction becomes a clause of its leaves, anything else a unit. -/
theorem edits_assertEncoded (t : Term) : Edits (assertEncoded t) := by
  refine edits_frame.bind (edits_look _) fun on => edits_frame.bind (edits_shape t) fun shape => ?_
  split
  · exact edits_frame.bind (edits_look _) fun leaves =>
      edits_frame.bind (edits_frame.mapM leaves fun l _ => edits_literalOf l)
      fun lits => edits_clause lits
  · exact edits_frame.bind (edits_literalOf t) fun l => edits_clause [l]

/-- The induction is on the depth to which a formula is split; a definition, a quantifier and a
clause are each one edit. -/
theorem edits_processAt (depth : Nat) (t : Term) : Edits (processAt depth t) := by
  induction depth generalizing t with
  | zero => exact edits_frame.throw _
  | succ depth ih =>
    refine edits_frame.bind (edits_look _) fun σ => edits_frame.bind (edits_onStore _) fun t => ?_
    split
    · exact edits_frame.pure _
    · split
      · exact edits_frame.bind (edits_clause []) fun _ => edits_frame.pure _
      · refine edits_frame.bind (edits_look _) fun on =>
          edits_frame.bind (edits_shape t) fun shape => ?_
        split
        · exact edits_frame.forM _ fun a _ => ih a.neg
        next hpos => exact edits_addConstraint hpos []
        · exact edits_frame.bind (edits_skolemize _ _) fun body => ih body.neg
        · refine edits_frame.bind (edits_definition? t) fun d => ?_
          split
          · exact fun ⟨s, c⟩ _ => .single (.note s c ..)
          · exact edits_assertEncoded t

/-- Processing a formula edits, whether it is refused or not. -/
theorem edits_process (t : Term) : Edits (process t) :=
  edits_frame.bind (edits_look _) fun _ => edits_processAt _ t

/-! ## Asserting -/

/-- What asserting leaves of a workspace: everything, or a finished search is dropped, formulas are
processed, and unless this was refused, the status is set. -/
inductive Asserts (w : Workspace) : Workspace → Prop where
  | ignored : Asserts w w
  | refused {w' : Workspace} (h : Entail.Edits ⟨w.store, w.ctx.reopen⟩ w') : Asserts w w'
  | settled {w' : Workspace} (h : Entail.Edits ⟨w.store, w.ctx.reopen⟩ w') :
    Asserts w ⟨w'.store, w'.ctx.settle⟩

/-- The operation edits, and sets the status unless it is refused. -/
def Settles (op : Work α) : Prop := ∀ w, ∃ w', Entail.Edits w w' ∧
  (endState (op w) = w' ∨ endState (op w) = ⟨w'.store, w'.ctx.settle⟩)

/-- Setting the status ends an assertion. -/
theorem settles_settle : Settles (change (·.settle)) := fun w => ⟨w, .refl, .inr rfl⟩

/-- What edits may come before. -/
theorem settles_bind {x : Work β} {f : β → Work α} (hx : Edits x) (hf : ∀ b, Settles (f b)) :
    Settles (x >>= f) := by
  intro w
  have h := hx w trivial
  cases hrun : x w with
  | ok b w₁ =>
    rw [hrun] at h
    rw [bind_of_ok hrun]
    obtain ⟨w', hw', hend⟩ := hf b w₁
    exact ⟨w', h.trans hw', hend⟩
  | error e w₁ =>
    rw [hrun] at h
    rw [bind_of_error hrun]
    exact ⟨w₁, h, .inl rfl⟩

theorem edits_note (t : Term) : Edits (change (·.note t)) := fun ⟨s, c⟩ _ => .single (.note s c ..)

section

variable {w : Workspace}

/-- A check that refuses leaves everything as it was. -/
theorem asserts_check_bind {f : Store → Context → Except Failure β} {g : β → Work Unit}
    (h : ∀ b, Asserts w (endState (g b w))) : Asserts w (endState ((check f >>= g) w)) := by
  cases hf : f w.store w.ctx with
  | ok b =>
    rw [bind_of_ok (show check f w = .ok b w by simp [check, hf])]
    exact h b
  | error e =>
    rw [bind_of_error (show check f w = .error e w by simp [check, hf])]
    exact .ignored

/-- Unless the context is unsatisfiable, a finished search is dropped first. -/
theorem asserts_reopen_bind {g : Work Unit} (h : Settles g) : Asserts w (endState ((do
    if (← look fun _ c => c.status) = .unsat then return
    change (·.reopen)
    g : Work Unit) w)) := by
  rw [bind_of_ok (show look (fun _ c => c.status) w = .ok w.ctx.status w from rfl)]
  split
  · exact .ignored
  · rw [bind_of_ok (show change (·.reopen) w = .ok () ⟨w.store, w.ctx.reopen⟩ from rfl)]
    obtain ⟨w', hw', hend | hend⟩ := h ⟨w.store, w.ctx.reopen⟩
    · rw [hend]
      exact .refused hw'
    · rw [hend]
      exact .settled hw'

end

/-- Formulas are noted and processed one after the other. -/
theorem asserts_assertAll (ts : List Term) (w : Workspace) :
    Asserts w (endState (assertAll ts w)) := by
  refine asserts_check_bind fun _ => asserts_check_bind fun _ => asserts_reopen_bind ?_
  refine settles_bind (edits_frame.forM ts fun t _ => ?_) fun _ => settles_settle
  exact edits_frame.bind (edits_note t) fun _ => edits_process t

/-- A quantifier that became a truth value is processed, any other one is registered. -/
theorem asserts_assertQuantifier (formula : Term) (patterns : List Term) (w : Workspace) :
    Asserts w (endState (assertQuantifier formula patterns w)) := by
  refine asserts_check_bind fun _ => asserts_check_bind fun _ => ?_
  unfold checkQuantified
  rw [bind_assoc, bind_of_ok (show shape formula w = .ok (w.store.shape formula) w from rfl)]
  split
  · exact .ignored
  refine asserts_reopen_bind (settles_bind (edits_look _) fun σ => settles_bind (edits_onStore _)
    fun t => ?_)
  refine settles_bind (edits_shape t) fun shape => ?_
  split
  · exact settles_bind (edits_note formula) fun _ => settles_bind (edits_process t) fun _ =>
      settles_settle
  next hquant =>
    have hpos : t.isNegated = false := Bool.eq_false_iff.mpr fun h =>
      hquant (Bool.or_eq_true_iff.mpr (.inl h))
    refine settles_bind (edits_onStore _) fun patterns =>
      settles_bind (edits_addConstraint hpos patterns) fun _ => ?_
    exact settles_bind (edits_note formula) fun _ => settles_settle

end Work
end Entail
