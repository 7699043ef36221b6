import Entail.Context.Check
import Entail.Proofs.Context.Gates
import Entail.Proofs.Context.Typed

/-!
# Encoding and simplifying inside of a scope

Whatever formula is processed, and whether it is refused or not, what is seen as of open marks stays
the same. When it is a boolean term of the store, only terms of the right types are encoded on the
way: the parts of a term have the types that its shape wants, and so do the terms that are built.
Both are shown at once, for strict runs and for others.
-/

namespace Entail.Work

open Workspace Context

variable {α β : Type} {strict : Prop} {s : Store} {w : Workspace}

/-- From any workspace whose store extends `s`, the operation takes steps inside of a scope; what
`s` says of terms may be used along the way. -/
abbrev Steps (strict : Prop) (s : Store) (op : Work α) : Prop :=
  Moves (Since strict s) (TypedStep strict) op

/-- A run that is not strict may start anywhere. -/
theorem Steps.moves {op : Work α} (h : ∀ s, Steps False s op) : Moves Workspace.Ok Step op :=
  fun w hw => (h w.store w (since_of_ok hw)).step

/-! ## Primitive operations -/

theorem steps_look (f : Store → Context → α) : Steps strict s (look f) :=
  fun _ hw => typed_frame.refl hw

/-- What was read holds where the run goes on. -/
theorem steps_look_bind {f : Store → Context → β} {g : β → Work α}
    (h : ∀ w, Since strict s w → Steps strict w.store (g (f w.store w.ctx))) :
    Steps strict s (look f >>= g) :=
  fun w hw => h w hw w hw.here

theorem endState_check (f : Store → Context → Except Failure α) (w : Workspace) :
    endState (check f w) = w := by
  unfold check
  split <;> rfl

/-- What is known from a check that passed may be used. -/
theorem moves_check_bind {P : Workspace → Prop} {R : Workspace → Workspace → Prop}
    {f : Store → Context → Except Failure β} {g : β → Work α} (hrefl : ∀ {w}, P w → R w w)
    (h : ∀ {w b}, P w → f w.store w.ctx = .ok b → R w (endState (g b w))) :
    Moves P R (check f >>= g) := by
  intro w hw
  cases hf : f w.store w.ctx with
  | error e =>
    rw [bind_of_error (show check f w = .error e w by simp [check, hf])]
    exact hrefl hw
  | ok b =>
    rw [bind_of_ok (show check f w = .ok b w by simp [check, hf])]
    exact h hw hf

theorem onStore_of_ok {op : Store.Op α} {a : α} {s : Store} (h : op w.store = .ok a s) :
    onStore op w = .ok a ⟨s, w.ctx⟩ := by
  simp [onStore, h]

theorem onStore_of_error {op : Store.Op α} {e : TermError} {s : Store}
    (h : op w.store = .error e s) :
    onStore op w = .error (.term e) ⟨s, w.ctx⟩ := by
  simp [onStore, h]

/-- What an operation on the store answers, and what it leaves, are answer and leaving of
the operation. -/
theorem onStore_eq_ok {op : Store.Op α} {a : α} {w' : Workspace} (h : onStore op w = .ok a w') :
    op w.store = .ok a w'.store ∧ w'.ctx = w.ctx := by
  cases hop : op w.store with
  | ok b s =>
    rw [onStore_of_ok hop] at h
    cases h
    exact ⟨rfl, rfl⟩
  | error e s =>
    rw [onStore_of_error hop] at h
    cases h

theorem steps_onStore {op : Store.Op α} (h : Moves Store.Wf Store.Built op) :
    Steps strict s (onStore op) := by
  intro w hw
  have hs := h w.store hw.ok.store
  cases hop : op w.store with
  | ok a s =>
    rw [hop] at hs
    rw [onStore_of_ok hop]
    exact hw.built hs
  | error e s =>
    rw [hop] at hs
    rw [onStore_of_error hop]
    exact hw.built hs

theorem steps_check (f : Store → Context → Except Failure α) : Steps strict s (check f) :=
  fun w hw => by
  rw [endState_check]
  exact typed_frame.refl hw

/-- What is known of a term that was built holds where the run goes on. -/
theorem steps_onStore_bind {op : Store.Op β} {f : β → Work α} {Q : β → Store → Prop}
    (hop : Moves Store.Wf Store.Built op)
    (hQ : ∀ {w b s'}, Since strict s w → op w.store = .ok b s' → Store.Later w.store s' → Q b s')
    (hf : ∀ b s', s.Extends s' → Q b s' → Steps strict s' (f b)) :
    Steps strict s (onStore op >>= f) := by
  refine typed_frame.bind' (steps_onStore hop) fun w b w' hw hb hstep => ?_
  obtain ⟨hb, -⟩ := onStore_eq_ok hb
  have hw' := typed_frame.stable hw hstep
  exact hf b w'.store hw'.ext (hQ hw hb hstep.step.keeps.store) w' hw'.here

theorem steps_change {P : Workspace → Prop} {f : Context → Context}
    (h : ∀ w, P w → TypedStep strict w ⟨w.store, f w.ctx⟩) :
    Moves P (TypedStep strict) (change f) :=
  h

theorem steps_update {P : Workspace → Prop} {f : Context → α × Context}
    (h : ∀ w, P w → TypedStep strict w ⟨w.store, (f w.ctx).2⟩) :
    Moves P (TypedStep strict) (update f) :=
  h

theorem steps_shape (t : Term) : Steps strict s (shape t) := steps_look _

theorem steps_clause (lits : List Literal) : Steps strict s (clause lits) :=
  steps_change fun _ hw => hw.step (step_of_core hw.ok (Core.grows_addClause hw.ok.ctx.core lits))
    fun ht => { ht with }

theorem steps_clauses (cs : List (List Literal)) : Steps strict s (clauses cs) :=
  typed_frame.forM cs fun c _ => steps_clause c

theorem steps_trueLit : Steps strict s trueLit := steps_look _

theorem steps_falseLit : Steps strict s falseLit := steps_look _

/-- A variable for a term of the store. -/
theorem steps_atom {t : Term} (ht : ∃ ty, s.Has t ty) : Steps strict s (atom t) := by
  refine steps_update fun w hw => hw.step (step_atom hw.ok ?_) fun ht => { ht with }
  exact ht.imp fun _ => hw.ext.has

/-- Terms of one type may be made equal. -/
theorem steps_addEq (v : Nat) {a b : Term} {ty : Ty} (ha : s.Has a ty) (hb : s.Has b ty) :
    Steps strict s (onEgraph fun s => Egraph.addEq s v a b) := fun _ hw =>
  hw.step (step_of_egraph hw.ok (Egraph.addEq_enters hw.ok.store hw.ok.ctx.nodes v a b).adds)
      fun ht =>
    { ht with
      egraph := ht.egraph.addEq hw.ok.store hw.ok.ctx.nodes hw.ok.ctx.nodesNested v (hw.ext.has ha)
        (hw.ext.has hb) }

theorem steps_addPred (v : Nat) {p : Term} (hp : strict → s.Has p .bool) :
    Steps strict s (onEgraph fun s => Egraph.addPred s v p) := fun w hw => by
  have hstep := step_of_egraph hw.ok (Egraph.addPred_enters hw.ok.store hw.ok.ctx.nodes v p).adds
  refine ⟨hstep, fun hs => ?_⟩
  have ht := hw.typed hs
  exact { ht with
    egraph := ht.egraph.addPred hw.ok.store hw.ok.ctx.nodes hw.ok.ctx.nodesNested v
      (hw.ext.has (hp hs)) }

theorem steps_addConstraint (formula : Term) (patterns : List Term) :
    Steps strict s (addConstraint formula patterns) := by
  refine typed_frame.bind' (steps_look _) fun w q w' hw hq _ => ?_
  cases hq
  simp only [hw.ok.ctx.registry.quant?]
  refine moves_check_bind (P := (· = w)) (fun h => h ▸ typed_frame.refl hw)
    (fun {w q} h hadd => ?_) w rfl
  subst h
  have hsolver : (w.ctx.registry.setQuant q).solver = q := (hw.ok.ctx.registry.setQuant q).solver
  refine hw.step (step_setQuant hw.ok (Quant.Solver.addConstraint_grows hw.ok.ctx.tables hadd))
    fun ht => ?_
  have hq := ht.solver.addConstraint hw.ok.store hadd
  rw [← hsolver] at hq
  exact { ht with solver := hq }

/-- A gate output is a new constant, which has no variable yet. -/
theorem steps_freshLit : Steps strict s freshLit := by
  have hbuilt := (Store.Orderly.newConst .bool).built (Store.newConst_moves .bool)
  refine typed_frame.bind' (steps_onStore hbuilt) fun w t w' hw hop hstep => ?_
  obtain ⟨hnew, hctx⟩ := onStore_eq_ok hop
  obtain ⟨hlater, hdead, hneg, hnode, -⟩ := (Store.newConst_builds hw.ok.store .bool).of_ok hnew
  have hw' := typed_frame.stable hw hstep
  refine hw'.step (step_vars hw'.ok ⟨.bool, ⟨⟨_, hnode⟩, fun _ => rfl⟩⟩ (.inr ⟨?_, rfl⟩)) fun ht =>
    { ht with }
  cases hfind : w'.ctx.vars.find? t with
  | none => rfl
  | some v =>
    rw [hctx, hw.ok.ctx.vars.find?_eq_some] at hfind
    obtain ⟨ty, ⟨shape, hlive⟩, -⟩ := hw.ok.ctx.live hfind
    rw [hdead] at hlive
    cases hlive

/-! ## Gates -/

/-- An output that some clauses define. -/
theorem steps_define (cs : Literal → List (List Literal)) :
    Steps strict s (do let out ← freshLit; clauses (cs out); return out) :=
  typed_frame.bind steps_freshLit fun out => typed_frame.bind (steps_clauses (cs out)) fun _ =>
    typed_frame.pure out

/-! ## Encoding -/

/-- Encoding any term, in a strict run a term of the right type, takes steps inside of a scope. -/
structure Steady (strict : Prop) (e : Encoder) : Prop where
  lit : ∀ {s t}, (strict → s.Has t .bool) → Steps strict s (e.lit t)
  word : ∀ {s t}, (strict → ∃ ty, s.Has t ty) → Steps strict s (e.word t)

theorem has_of_node {s : Store} {p : Term} {n : Term.Shape × Ty} (hp : p.isNegated = false)
    (hn : s.node? p = some n) : s.Has p n.2 := ⟨⟨n.1, hn⟩, by simp [hp]⟩

section

variable {e : Encoder} (he : Steady strict e)

include he

/-- The formula that is encoded in place of the equality is boolean, whatever it is built from. -/
theorem steps_lifted (c x y z : Term) : Steps strict s (e.lifted c x y z) := by
  have hboth (a b : Term) : Moves Store.Wf Store.Built (Store.eq a b) := Store.builders_built.eq a b
  refine steps_onStore_bind (hboth x z) (Q := fun t s' => s'.Has t .bool) (fun hw hop _ => ?_)
    fun eqX s₁ _ hX => ?_
  · exact ((Store.eq_builds hw.ok.store x z).of_ok hop).2.2.has
  refine typed_frame.bind (steps_onStore (hboth y z)) fun eqY => ?_
  refine steps_onStore_bind (Store.builders_built.ite c eqX eqY) (Q := fun t s' => s'.Has t .bool)
    (fun hw hop hs => ?_)
    fun t s₂ _ ht => he.lit fun _ => ht
  obtain ⟨-, ty, ha, -, -, hden⟩ := (Store.ite_builds hw.ok.store c eqX eqY).of_ok hop
  exact ha.unique (hw.ext.has hX) ▸ hden.has

/-- A gate whose output is the variable of a live term. -/
theorem steps_equality {p a b : Term} {ty : Ty} (hp : ∃ ty, s.Has p ty) (ha : s.Has a ty)
    (hb : s.Has b ty) :
    Steps strict s (e.equality p a b) := by
  refine typed_frame.bind (steps_look _) fun width => ?_
  split
  · exact typed_frame.bind (he.word fun _ => ⟨ty, ha⟩) fun x =>
        typed_frame.bind (he.word fun _ => ⟨ty, hb⟩) fun y =>
      moves_equalGate typed_frame steps_define x y
  · refine typed_frame.bind (steps_look _) fun sort => ?_
    split
    · exact typed_frame.throw _
    · refine typed_frame.bind (steps_shape a) fun sa => typed_frame.bind (steps_shape b) fun sb =>
        ?_
      split
      · exact steps_lifted he _ _ _ _
      · exact steps_lifted he _ _ _ _
      · exact typed_frame.bind (steps_atom hp) fun l =>
            typed_frame.bind (steps_addEq l.var ha hb) fun _ =>
          typed_frame.pure l

theorem steps_boolean {p : Term} (hneg : p.isNegated = false) (hp : strict → s.Has p .bool) :
    Steps strict s (e.boolean p) := by
  refine steps_look_bind fun w hw => ?_
  replace hp : strict → w.store.Has p .bool := fun hs => hw.ext.has (hp hs)
  by_cases htruth : w.store.shape p = .truth
  · rw [htruth]
    exact steps_trueLit
  obtain ⟨ty, hn⟩ := Store.node_of_shape rfl htruth
  have htyped := hw.ok.store.typed hn
  have hlive : ∃ ty, w.store.Has p ty := ⟨ty, has_of_node hneg hn⟩
  have hatom : Steps strict w.store (atom p) := steps_atom hlive
  have hgate (out : Literal) (cs : List (List Literal)) :
      Steps strict w.store (do clauses cs; return out : Work Literal) :=
    typed_frame.bind (steps_clauses cs) fun _ => typed_frame.pure out
  generalize w.store.shape p = shape at htruth htyped ⊢
  cases shape with
  | truth => exact absurd rfl htruth
  | uninterpreted => exact hatom
  | app => exact typed_frame.bind hatom fun l => typed_frame.bind (steps_addPred l.var hp) fun _ =>
    typed_frame.pure l
  | eq a b =>
    obtain ⟨-, ty', -, ha, hb⟩ := htyped
    exact steps_equality he hlive ha hb
  | or args =>
    exact typed_frame.bind (typed_frame.mapM args fun a ha => he.lit fun _ => htyped.2 a ha)
        fun lits =>
      typed_frame.bind hatom fun out => hgate out _
  | xor a b =>
    exact typed_frame.bind (he.lit fun _ => htyped.2.1) fun x =>
        typed_frame.bind (he.lit fun _ => htyped.2.2) fun y =>
      typed_frame.bind hatom fun out => hgate out _
  | ite c a b =>
    -- the branches of a boolean term are boolean
    have branch {x : Term} (hx : w.store.Has x ty) (hs : strict) : w.store.Has x .bool :=
      (has_of_node hneg hn).unique (hp hs) ▸ hx
    exact typed_frame.bind (he.lit fun _ => htyped.1) fun z =>
        typed_frame.bind (he.lit (branch htyped.2.1)) fun x =>
      typed_frame.bind (he.lit (branch htyped.2.2)) fun y => typed_frame.bind hatom fun out =>
        hgate out _
  | bit t i =>
    obtain ⟨-, width, ⟨ty', ht, -⟩, -⟩ := htyped
    exact typed_frame.bind (he.word fun _ => ⟨ty', ht⟩) fun bits =>
        typed_frame.bind steps_trueLit fun l =>
      typed_frame.pure _
  | bvGe a b | bvSge a b =>
    obtain ⟨-, width, ⟨ta, ha, -⟩, tb, hb, -⟩ := htyped
    exact typed_frame.bind (he.word fun _ => ⟨ta, ha⟩) fun x =>
        typed_frame.bind (he.word fun _ => ⟨tb, hb⟩) fun y =>
      moves_geGate typed_frame steps_define _ _
  | var | all | bvConst | bvNeg | bvSum | bvProduct => exact typed_frame.throw _

theorem steps_foldWords {op : List Literal → List Literal → Work (List Literal)}
    (hop : ∀ x y, Steps strict s (op x y)) {ts : List Term} (hts : ∀ t ∈ ts, ∃ ty, s.Has t ty) :
    Steps strict s (e.foldWords op ts) := by
  cases ts with
  | nil => exact typed_frame.pure _
  | cons t ts =>
    exact typed_frame.bind (he.word fun _ => hts t List.mem_cons_self) fun x =>
        typed_frame.foldlM ts x fun acc t ht =>
      typed_frame.bind (he.word fun _ => hts t (List.mem_cons_of_mem _ ht)) fun y => hop acc y

theorem steps_bitvector (t : Term) : Steps strict s (e.bitvector t) := by
  refine typed_frame.bind (steps_look _) fun width => ?_
  split
  · exact typed_frame.throw _
  next width =>
    refine steps_look_bind fun w hw => ?_
    have typed {shape : Term.Shape} (h : w.store.shape t = shape) (hne : shape ≠ .truth) :
        ∃ ty, w.store.Typed shape ty := by
      obtain ⟨ty, hn⟩ := Store.node_of_shape h hne
      exact ⟨ty, hw.ok.store.typed hn⟩
    split
    · exact typed_frame.bind steps_trueLit fun _ => typed_frame.pure _
    · refine typed_frame.mapM _ fun i _ => ?_
      refine steps_onStore_bind (Store.builders_built.bit t i) (Q := fun b s' => ∃ ty, s'.Has b ty)
        (fun hw hop _ => ?_) fun b s' _ hb => steps_atom hb
      obtain ⟨-, -, -, hden⟩ := (Store.bit_builds hw.ok.store t i).of_ok hop
      exact ⟨_, hden.has⟩
    next hshape =>
      obtain ⟨ty, hc, ha, hb⟩ := typed hshape nofun
      exact typed_frame.bind (he.lit fun _ => hc) fun z =>
          typed_frame.bind (he.word fun _ => ⟨ty, ha⟩) fun x =>
        typed_frame.bind (he.word fun _ => ⟨ty, hb⟩) fun y => typed_frame.mapM _ fun (x, y) _ =>
          moves_iteGate typed_frame steps_define z x y
    next hshape =>
      obtain ⟨ty, ha, -⟩ := typed hshape nofun
      exact typed_frame.bind (he.word fun _ => ⟨ty, ha⟩) fun x =>
        moves_negater typed_frame steps_define x
    next hshape =>
      obtain ⟨ty, -, hall, -⟩ := typed hshape nofun
      exact typed_frame.bind steps_falseLit fun zero =>
        steps_foldWords he (fun x y => moves_adder typed_frame steps_define x y zero) fun a ha =>
          ⟨ty, hall a ha⟩
    next hshape =>
      obtain ⟨ty, -, hall, -⟩ := typed hshape nofun
      exact steps_foldWords he (moves_multiplier typed_frame steps_define) fun a ha =>
        ⟨ty, hall a ha⟩
    · exact typed_frame.throw _
    · exact typed_frame.throw _

end

/-- What is seen as of an open mark does not change, whatever it is. -/
theorem view_frame (strict : Prop) (s : Store) (good : View → Prop) :
    Frame (fun w => Since strict s w ∧ ∀ {m}, Mark.Open m w.ctx → good (w.ctx.upTo m))
      (TypedStep strict) :=
  typed_frame.and fun _ h hq m hm => by
    have hopen : m.Open _ :=
      hm.of_scopes h.step.keeps.scopes.symm h.step.keeps.nodes.symm h.step.keeps.tables.symm
    rw [h.step.keeps.upTo hopen]
    exact hq hopen

/-- The literal of a term that had none as of any open mark is remembered. -/
theorem typedStep_cacheLit (hw : Since strict s w) {p : Term}
    (hnew : ∀ {m}, Mark.Open m w.ctx → (w.ctx.upTo m).lits p = none)
    (hp : strict → ∃ ty, s.Has p ty) (l : Literal) :
    TypedStep strict w ⟨w.store, { w.ctx with
      lits := w.ctx.lits.insert p l, cacheLog := w.ctx.cacheLog.push (.literal p) }⟩ := by
  refine ⟨step_cacheLit hw.ok hnew l, fun hs => ?_⟩
  have htyped := hw.typed hs
  refine { htyped with lits := fun {q l'} hq => ?_ }
  rw [Std.HashMap.getElem?_insert] at hq
  split at hq
  next heq =>
    obtain ⟨ty, hty⟩ := hp hs
    exact ⟨ty, eq_of_beq heq ▸ hw.ext.has hty⟩
  next => exact htyped.lits hq

theorem typedStep_cacheWord (hw : Since strict s w) {t : Term}
    (hnew : ∀ {m}, Mark.Open m w.ctx → (w.ctx.upTo m).bits t = none)
    (ht : strict → ∃ ty width, w.store.Has t ty ∧ w.store.tyShape? ty = some (.bitVector width))
    (bits : List Literal) :
    TypedStep strict w ⟨w.store, { w.ctx with
      bits := w.ctx.bits.insert t bits, cacheLog := w.ctx.cacheLog.push (.word t) }⟩ := by
  refine ⟨step_cacheWord hw.ok hnew bits, fun hs => ?_⟩
  have htyped := hw.typed hs
  refine { htyped with bits := fun {u bits'} hu => ?_ }
  rw [Std.HashMap.getElem?_insert] at hu
  split at hu
  next heq =>
    exact eq_of_beq heq ▸ ht hs
  next => exact htyped.bits hu

/-- A term that was not remembered was not known as of any open mark, and that is still so after it
was encoded. -/
theorem steps_cachedLit {encode : Term → Work Literal}
    (h : ∀ {s p}, p.isNegated = false → (strict → s.Has p .bool) → Steps strict s (encode p))
    {t : Term} (ht : strict → s.Has t .bool) : Steps strict s (Encoder.cachedLit encode t) := by
  refine typed_frame.bind' (steps_look _) fun w x w' hw hx _ => ?_
  cases hx
  cases hlit : w.ctx.lits[t.positive]? with
  | some l =>
    simp only [hlit]
    exact typed_frame.refl hw
  | none =>
    simp only [hlit]
    have hf := view_frame strict s fun v => v.lits t.positive = none
    have hencode : Steps strict s (encode t.positive) :=
      h (Term.isNegated_positive t) fun hs => (ht hs).positive
    refine hf.bind (hencode.weaken fun _ hw => hw.1) (fun l => ?_) w ⟨hw, fun _ => ?_⟩
    · refine hf.bind (steps_change fun w hw => ?_) fun _ => hf.pure _
      exact typedStep_cacheLit hw.1 hw.2 (fun hs => ⟨.bool, (ht hs).positive⟩) l
    · simp [Context.upTo, Entail.upTo, hlit]

/-- Only terms that have a width are encoded as words. -/
theorem width_of_bitvector {e : Encoder} {t : Term} {w w' : Workspace} {bits : List Literal}
    (h : e.bitvector t w = .ok bits w') : ∃ width, w.store.width? t = some width := by
  cases hwidth : w.store.width? t with
  | some width => exact ⟨width, rfl⟩
  | none =>
    unfold Encoder.bitvector at h
    rw [bind_of_ok (rfl : look _ w = .ok (w.store.width? t) w), hwidth] at h
    cases h

theorem steps_cachedWord {encode : Term → Work (List Literal)}
    (h : ∀ {s} t, Steps strict s (encode t))
    (hwidth : ∀ {t w bits w'}, encode t w = .ok bits w' → ∃ width, w.store.width? t = some width)
    {t : Term} (ht : strict → ∃ ty, s.Has t ty) : Steps strict s (Encoder.cachedWord encode t) := by
  refine typed_frame.bind' (steps_look _) fun w x w' hw hx _ => ?_
  cases hx
  cases hbits : w.ctx.bits[t]? with
  | some bits =>
    simp only [hbits]
    exact typed_frame.refl hw
  | none =>
    simp only [hbits]
    have hf := view_frame strict s fun v => v.bits t = none
    have hencode : Steps strict s (encode t) := h t
    refine hf.bind' (hencode.weaken fun _ hw => hw.1) (fun w bits w' hw hop hstep => ?_) w ⟨hw,
      fun _ => ?_⟩
    · have hw' := hf.stable hw hstep
      refine typedStep_cacheWord hw'.1 hw'.2 (fun hs => ?_) bits
      obtain ⟨ty, hty⟩ := ht hs
      obtain ⟨width, hwidth⟩ := hwidth hop
      rw [Store.width?, (hw.1.ext.has hty).ty_eq, Store.tyWidth?_eq_some] at hwidth
      exact ⟨ty, width, hw'.1.ext.has hty, hstep.step.keeps.store.ext.ty hwidth⟩
    · simp [Context.upTo, Entail.upTo, hbits]

theorem steady_nested (depth : Nat) : Steady strict (Encoder.nested depth) := by
  induction depth with
  | zero => exact ⟨fun _ => typed_frame.throw _, fun _ => typed_frame.throw _⟩
  | succ depth ih =>
    exact ⟨steps_cachedLit fun hneg hp => steps_boolean ih hneg hp,
      steps_cachedWord (fun t => steps_bitvector ih t) width_of_bitvector⟩

theorem steps_literalOf {t : Term} (ht : strict → s.Has t .bool) : Steps strict s (literalOf t) :=
  typed_frame.bind (steps_look _) fun _ => (steady_nested _).lit ht

/-! ## Simplifying -/

/-- What can be eliminated is a constant that has no definition yet. -/
theorem undefined_of_canEliminate {c : Context} {s : Store} {x v : Term}
    (h : c.canEliminate s x v = true) :
    c.subst[x]? = none ∧ (s.shape x).isUninterpreted = true := by
  simp only [canEliminate, Bool.and_eq_true, Bool.not_eq_true'] at h
  have hx := h.1.1.1.1.1.2
  exact ⟨by simpa using hx, h.1.1.1.1.1.1.1.2⟩

/-- A definition that may be used: of a constant that has none, by a term of its type. -/
def Usable (s : Store) (c : Context) (d : Option (Term × Term)) : Prop :=
  ∀ x v, d = some (x, v) → c.subst[x]? = none ∧ (s.shape x).isUninterpreted = true ∧ ∃ ty,
    s.Has x ty ∧ s.Has v ty

/-- From `w`, the operation only builds terms, and a definition that it answers may be used. -/
def FindsAt (w : Workspace) (op : Work (Option (Term × Term))) : Prop :=
  Ends op w (fun d w' => (Store.Built w.store w'.store ∧ w'.ctx = w.ctx) ∧ Usable w'.store w.ctx d)
    fun w' => Store.Built w.store w'.store ∧ w'.ctx = w.ctx

/-- That is so for all stores that extend `s`. -/
def Finds (s : Store) (op : Work (Option (Term × Term))) : Prop :=
  ∀ w, w.store.Wf → s.Extends w.store → FindsAt w op

theorem finds_pure {d : Option (Term × Term)} {c : Context} (hw : w.store.Wf) (hc : w.ctx = c)
    (hd : Usable w.store c d) : FindsAt w (pure d) := by
  subst hc
  exact ⟨⟨Store.built_frame.refl hw, rfl⟩, hd⟩

theorem finds_none : Finds s (pure none) :=
  fun _ hw _ => finds_pure hw rfl fun _ _ hd => by cases hd

/-- What was read may be used. -/
theorem finds_look {f : Store → Context → β} {g : β → Work (Option (Term × Term))}
    (h : ∀ w, w.store.Wf → s.Extends w.store → FindsAt w (g (f w.store w.ctx))) :
    Finds s (look f >>= g) :=
  fun w hw hs => Ends.bind (h w hw hs)

theorem Finds.ite {p : Prop} [Decidable p] {a b : Work (Option (Term × Term))} (ha : Finds s a)
    (hb : Finds s b) :
    Finds s (if p then a else b) := by
  split
  · exact ha
  · exact hb

/-- The rest of a search starts from a store that was built upon, with the same context. -/
theorem FindsAt.after {w' : Workspace} {op : Work (Option (Term × Term))}
    (h : Store.Built w.store w'.store ∧ w'.ctx = w.ctx) (hop : FindsAt w' op) :
    Ends op w' (fun d w'' => (Store.Built w.store w''.store ∧ w''.ctx = w.ctx) ∧
      Usable w''.store w.ctx d)
      fun w'' => Store.Built w.store w''.store ∧ w''.ctx = w.ctx := by
  have trans {w'' : Workspace} (h' : Store.Built w'.store w''.store ∧ w''.ctx = w'.ctx) :
      Store.Built w.store w''.store ∧ w''.ctx = w.ctx :=
    ⟨Store.built_frame.trans h.1 h'.1, h'.2.trans h.2⟩
  exact hop.mono (fun d w'' hd => ⟨trans hd.1, h.2 ▸ hd.2⟩) fun w'' => trans

/-- Terms may be built first. -/
theorem findsAt_onStore_bind {op : Store.Op β} {f : β → Work (Option (Term × Term))}
    (hw : w.store.Wf) (hop : Moves Store.Wf Store.Built op)
    (hf : ∀ b s', op w.store = .ok b s' → Store.Later w.store s' → FindsAt ⟨s', w.ctx⟩ (f b)) :
    FindsAt w (onStore op >>= f) := by
  have hs := hop w.store hw
  refine Ends.bind ?_
  unfold Ends
  cases hrun : op w.store with
  | ok b s' =>
    rw [hrun] at hs
    rw [onStore_of_ok hrun]
    have hhere : Store.Built w.store s' ∧ w.ctx = w.ctx := ⟨hs, rfl⟩
    exact FindsAt.after hhere (hf b s' hrun hs.later)
  | error e s' =>
    rw [hrun] at hs
    rw [onStore_of_error hrun]
    exact ⟨hs, rfl⟩

/-- A definition that was found may be kept, or looked for again. -/
theorem Finds.bind_found {op : Work (Option (Term × Term))}
    {f : Option (Term × Term) → Work (Option (Term × Term))} (h : Finds s op)
    (hf : ∀ d w, w.store.Wf → s.Extends w.store → Usable w.store w.ctx d → FindsAt w (f d)) :
    Finds s (op >>= f) := by
  intro w hw hs
  refine Ends.bind ((h w hw hs).mono (fun d w₁ h₁ => ?_) fun _ => id)
  obtain ⟨hbuilt, hd⟩ := h₁
  exact FindsAt.after hbuilt
    (hf d w₁ hbuilt.1.later.wf (hs.trans hbuilt.1.later.ext) (hbuilt.2.symm ▸ hd))

theorem finds_firstDefinition {defs : List (Term × Term)}
    (hdefs : ∀ d ∈ defs, ∃ ty, s.Has d.1 ty ∧ s.Has d.2 ty) :
    Finds s (firstDefinition defs) := by
  intro w hw hs
  refine ⟨⟨Store.built_frame.refl hw, rfl⟩, fun x v hd => ?_⟩
  have hx := List.find?_some hd
  obtain ⟨ty, hxty, hvty⟩ := hdefs (x, v) (List.mem_of_find?_eq_some hd)
  obtain ⟨hnew, hconst⟩ := undefined_of_canEliminate (s := w.store) (v := v) hx
  exact ⟨hnew, hconst, ty, hs.has hxty, hs.has hvty⟩

/-- The rest of an equation has the type of its sides. -/
theorem finds_solveFor {args : List Term} {r : Term} {before after : List Term} {ty : Ty}
    (hr : s.Has r ty)
    (hafter : ∀ a ∈ after, s.Has a ty) : Finds s (solveFor args r before after) := by
  induction after generalizing before with
  | nil => exact finds_none
  | cons x after ih =>
    unfold solveFor
    refine finds_look fun w hw hs => ?_
    split
    next hok =>
      obtain ⟨hnew, hconst⟩ := undefined_of_canEliminate (Bool.and_eq_true_iff.mp hok).2
      refine findsAt_onStore_bind hw (Store.builders_built.bvSum _) fun rest s₁ _ hs₁ => ?_
      refine findsAt_onStore_bind hs₁.wf (Store.built_bvSub r rest) fun v s₂ hop hs₂ => ?_
      refine finds_pure hs₂.wf rfl fun y u hd => ?_
      cases hd
      obtain ⟨-, ty', _, -, hr', -, hden⟩ := (Store.bvSub_builds hs₁.wf r rest).of_ok hop
      obtain rfl := hr'.unique (hs₁.ext.has (hs.has hr))
      have hx := hs.has (hafter x List.mem_cons_self)
      have hext := hs₁.ext.trans hs₂.ext
      exact ⟨hnew, Interp.shape_of_has hext hx ▸ hconst, ty', hext.has hx, hden.has⟩
    next => exact ih (fun a ha => hafter a (List.mem_cons_of_mem _ ha)) w hw hs

theorem finds_solveSum {t r : Term} {ty : Ty} (ht : s.Has t ty) (hr : s.Has r ty) :
    Finds s (solveSum t r) := by
  refine finds_look fun w hw hs => ?_
  split
  next args hshape =>
    obtain ⟨ty', hn⟩ := Store.node_of_shape hshape nofun
    have htyped := hw.typed hn
    have hty : ty' = ty := congrArg Prod.snd (Option.some.inj (hn.symm.trans (hs.has ht).node))
    exact finds_solveFor (hs.has hr) (fun a ha => hty ▸ htyped.2.1 a ha) w hw (.refl _)
  · exact finds_none w hw hs

theorem finds_solveEquation {a b : Term} {ty : Ty} (ha : s.Has a ty) (hb : s.Has b ty) :
    Finds s (solveEquation a b) := by
  refine finds_look fun w hw hs => ?_
  refine Finds.ite ?_ finds_none w hw hs
  refine .bind_found (finds_solveSum ha hb) fun d w hw hs hd => ?_
  cases d with
  | some d => exact finds_pure hw rfl hd
  | none => exact finds_solveSum hb ha w hw hs

theorem finds_definition? (t : Term) : Finds s (definition? t) := by
  refine finds_look fun w hw hs => ?_
  split
  next a b hshape =>
    obtain ⟨ty, hn⟩ := Store.node_of_shape hshape nofun
    obtain ⟨-, ha, hb⟩ := hw.typed hn
    have polarity {x : Term} (hx : w.store.Has x .bool) (flip : Bool) :
        w.store.Has (x.negIf flip) .bool :=
      hx.negIf fun _ => rfl
    refine finds_look (s := w.store) (fun w' hw' hs' => ?_) w hw (.refl _)
    refine Finds.ite (finds_firstDefinition fun d hd => ?_) finds_none w' hw' hs'
    simp only [List.mem_cons, List.not_mem_nil, or_false] at hd
    rcases hd with rfl | rfl
    · exact ⟨.bool, ha, polarity hb _⟩
    · exact ⟨.bool, hb, polarity ha _⟩
  next a b hshape =>
    obtain ⟨ty, hn⟩ := Store.node_of_shape hshape nofun
    obtain ⟨-, ty', -, ha, hb⟩ := hw.typed hn
    refine Finds.ite (s := w.store) finds_none (finds_look fun w' hw' hs' => ?_) w hw (.refl _)
    have hdirect : Finds w.store (firstDefinition [(a, b), (b, a)]) :=
        finds_firstDefinition fun d hd => by
      simp only [List.mem_cons, List.not_mem_nil, or_false] at hd
      rcases hd with rfl | rfl
      · exact ⟨ty', ha, hb⟩
      · exact ⟨ty', hb, ha⟩
    refine Finds.ite (s := w.store) ?_ (finds_solveEquation ha hb) w' hw' hs'
    refine .bind_found hdirect fun d w hw hs hd => ?_
    beta_reduce
    split
    · exact finds_pure hw rfl hd
    · exact finds_solveEquation ha hb w hw hs
  · exact finds_none w hw hs

/-! ## Asserting formulas -/

/-- New constants are put for variables of their types. -/
theorem steps_constants_bind {vars : List Term} (hvars : ∀ v ∈ vars, ∃ ty, s.Has v ty) {σ : Subst}
    (hσ : s.Assigns σ)
    {f : Subst → Work α} (hf : ∀ σ s', s.Extends s' → s'.Assigns σ → Steps strict s' (f σ)) :
    Steps strict s (vars.foldlM (fun (σ : Subst) v => do
      let ty ← look fun s _ => s.ty v
      return σ.insert v (← onStore (Store.newConst ty))) σ >>= f) := by
  induction vars generalizing s σ with
  | nil => exact hf σ s (.refl s) hσ
  | cons v vars ih =>
    simp only [List.foldlM_cons, bind_assoc, pure_bind]
    refine steps_look_bind fun w hw => ?_
    obtain ⟨ty, hv⟩ := hvars v List.mem_cons_self
    replace hv := hw.ext.has hv
    rw [hv.ty_eq]
    refine steps_onStore_bind ((Store.Orderly.newConst ty).built (Store.newConst_moves ty))
      (Q := fun t s' => s'.Has t ty) (fun hw hop _ => ?_) fun t s' hs ht => ?_
    · obtain ⟨-, -, hneg, hnode, -⟩ := (Store.newConst_builds hw.ok.store ty).of_ok hop
      exact has_of_node hneg hnode
    · have hext := hw.ext.trans hs
      exact ih (fun u hu => (hvars u (List.mem_cons_of_mem _ hu)).imp fun _ => hext.has)
        ((hσ.extends_ hext).insert (hs.has hv) ht) fun σ s'' hs' => hf σ s'' (hext.trans hs')

/-- What is put for a boolean term is boolean. -/
theorem steps_subst_bind {σ : Subst} {t : Term} {f : Term → Work α} (hσ : strict → s.Assigns σ)
    (ht : strict → s.Has t .bool) (hf : ∀ r s', s.Extends s' → (strict → s'.Has r .bool) →
      Steps strict s' (f r)) :
    Steps strict s (onStore (Store.subst σ t) >>= f) := by
  refine steps_onStore_bind (Store.builders_built.subst σ t) (Q := fun r s' => strict →
    s'.Has r .bool)
    (fun hw hop _ hs => ?_) hf
  exact ((Store.subst_yields hw.ok.store ((hσ hs).extends_ hw.ext)
    (hw.ext.has (ht hs))).builds.of_ok hop).2

/-- The body of a formula stays boolean. -/
theorem steps_skolemize_bind {vars : List Term} {body : Term} {f : Term → Work α}
    (hvars : ∀ v ∈ vars, ∃ ty, s.Has v ty) (hbody : s.Has body .bool)
    (hf : ∀ t s', s.Extends s' → s'.Has t .bool → Steps strict s' (f t)) :
    Steps strict s (skolemize vars body >>= f) := by
  unfold skolemize
  rw [bind_assoc]
  refine steps_constants_bind hvars (Store.assigns_empty s) fun σ s' hs hσ => ?_
  refine steps_onStore_bind (Store.builders_built.subst σ body) (Q := fun r s' => s'.Has r .bool)
    (fun hw hop _ => ?_) fun t s'' hs' => hf t s'' (hs.trans hs')
  have hyields := Store.subst_yields hw.ok.store (hσ.extends_ hw.ext) (hw.ext.has (hs.has hbody))
  exact (hyields.builds.of_ok hop).2

/-- What parts of disjunctions have from them the disjuncts have. -/
theorem forall_disjuncts {s : Store} {P : Term → Prop}
    (hpart : ∀ {a : Term} {inner : List Term}, s.shape a = .or inner → P a → ∀ c ∈ inner, P c)
    (depth : Nat) {args : List Term}
    (hargs : ∀ a ∈ args, P a) : ∀ a ∈ disjuncts s depth args, P a := by
  induction depth generalizing args with
  | zero => exact hargs
  | succ depth ih =>
    intro x hx
    obtain ⟨a, ha, hx⟩ := List.mem_flatMap.mp hx
    split at hx
    next inner _ hshape => exact ih (hpart hshape (hargs a ha)) x hx
    · exact List.mem_singleton.mp hx ▸ hargs a ha

/-- The disjuncts of a formula are formulas. -/
theorem has_disjuncts {s : Store} (hw : s.Wf) (depth : Nat) {args : List Term}
    (hargs : ∀ a ∈ args, s.Has a .bool) :
    ∀ a ∈ disjuncts s depth args, s.Has a .bool :=
  forall_disjuncts (fun hshape _ => (hw.typed (Store.node_of_shape hshape nofun).choose_spec).2)
    depth hargs

theorem steps_assertEncoded {t : Term} (ht : strict → s.Has t .bool) :
    Steps strict s (assertEncoded t) := by
  have hwhole : Steps strict s (do clause [← literalOf t]) :=
    typed_frame.bind (steps_literalOf ht) fun l => steps_clause [l]
  refine typed_frame.bind (steps_look _) fun on => steps_look_bind fun w hw => ?_
  split
  next args _ hshape =>
    obtain ⟨ty, hn⟩ := Store.node_of_shape hshape nofun
    have hargs := (hw.ok.store.typed hn).2
    refine steps_look_bind fun w' hw' => ?_
    have hleaves := has_disjuncts hw'.ok.store (w'.store.terms.slots.size + 1) fun a ha =>
      hw'.ext.has (hargs a ha)
    exact typed_frame.bind (typed_frame.mapM _ fun l hl => steps_literalOf fun _ => hleaves l hl)
        fun lits =>
      steps_clause lits
  · exact typed_frame.bind (steps_literalOf fun hs => hw.ext.has (ht hs)) fun l => steps_clause [l]

theorem steps_processAt (depth : Nat) {t : Term} (ht : strict → s.Has t .bool) :
    Steps strict s (processAt depth t) := by
  induction depth generalizing s t with
  | zero => exact typed_frame.throw _
  | succ depth ih =>
    refine steps_look_bind fun w hw => ?_
    refine steps_subst_bind (fun hs => (hw.typed hs).subst) (fun hs => hw.ext.has (ht hs))
      fun t s hs ht => ?_
    split
    · exact typed_frame.pure _
    · split
      · exact typed_frame.bind (steps_clause []) fun _ => typed_frame.pure _
      · refine typed_frame.bind (steps_look _) fun on => steps_look_bind fun w hw => ?_
        split
        next args _ _ hshape =>
          obtain ⟨ty, hn⟩ := Store.node_of_shape hshape nofun
          have hargs := (hw.ok.store.typed hn).2
          exact typed_frame.forM _ fun a ha => ih fun _ => (hargs a ha).neg
        · exact steps_addConstraint t []
        next vars body _ hshape =>
          obtain ⟨ty, hn⟩ := Store.node_of_shape hshape nofun
          obtain ⟨-, -, hvars, hbody⟩ := hw.ok.store.typed hn
          exact steps_skolemize_bind (fun v hv => (hvars v hv).has) hbody fun body s' _ hbody =>
            ih fun _ => hbody.neg
        · intro w' hw'
          have hfind := finds_definition? t w' hw'.ok.store (.refl _)
          unfold FindsAt Ends at hfind
          cases hd : definition? t w' with
          | error e w'' =>
            rw [hd] at hfind
            rw [bind_of_error hd]
            exact hw'.built_of_ctx hfind.1 hfind.2
          | ok d w'' =>
            rw [hd] at hfind
            rw [bind_of_ok hd]
            obtain ⟨⟨hbuilt, hctx⟩, huse⟩ := hfind
            have hstep : TypedStep strict w' w'' := hw'.built_of_ctx hbuilt hctx
            have hw'' := typed_frame.stable hw' hstep
            refine hstep.trans ?_
            cases d with
            | some d =>
              obtain ⟨hnew, hconst, ty, hx, hv⟩ := huse d.1 d.2 rfl
              exact hw''.step (step_define hw''.ok (hctx ▸ hnew) d.2) fun htyped =>
                htyped.define hx hv hconst
            | none => exact steps_assertEncoded (fun hs =>
              hw''.ext.has (hw.ext.has (ht hs))) w'' hw''.here

/-- Whatever is processed, and whether it is refused or not, what is seen as of open marks
stays the same. -/
theorem steps_process {t : Term} (ht : strict → s.Has t .bool) : Steps strict s (process t) :=
  typed_frame.bind (steps_look _) fun _ => steps_processAt _ ht

theorem moves_process (t : Term) : Moves Workspace.Ok Step (process t) :=
  Steps.moves fun _ => steps_process False.elim

end Entail.Work
