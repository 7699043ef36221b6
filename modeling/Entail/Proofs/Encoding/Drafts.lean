import Entail.Proofs.Context.Moves
import Entail.Proofs.Encoding.Exact
import Entail.Proofs.Store.Normal

/-!
# Drafts

A draft is a workspace together with the clauses that define what it has encoded so far. Encoding
only adds to a draft: terms, variables, and clauses to the innermost scope, all of which define
something. What was said of a literal or a word stays true on the way, so the encoding of a term can
be followed from its parts up.
-/

namespace Entail

open Search Workspace Context

/-- A workspace with the clauses that define what is encoded in it. -/
structure Draft where
  work : Workspace
  defs : List (List Literal)

namespace Draft

/-- The store of a draft. -/
abbrev store (L : Draft) : Store := L.work.store

/-- What is seen of a draft. -/
abbrev view (L : Draft) : View := L.work.ctx.now

/-- The definitions of a draft are exact. -/
structure Ok (L : Draft) : Prop where
  work : L.work.Ok
  exact_ : L.view.Exact L.store L.work.ctx.trueLit L.defs

/-- Whatever was added to a draft defines something. -/
structure Grows (L L' : Draft) : Prop where
  ok : L'.Ok
  step : Step L.work L'.work
  truth : L'.work.ctx.trueLit = L.work.ctx.trueLit
  vars : ∀ {x p}, L.view.vars x = some p → L'.view.vars x = some p
  normal : L.store.Normalized → L'.store.Normalized
  defs : ∃ cs, L'.defs = L.defs ++ cs ∧
    L'.work.ctx.core.db = L.work.ctx.core.db.addAll cs L.work.ctx.depth

variable {L L' L'' : Draft} {α β : Type} {a b : Nat → Bool} {A : Atoms} {l : Literal} {p t : Term}

theorem Grows.refl (h : L.Ok) : L.Grows L :=
  ⟨h, step_frame.refl h.work, rfl, id, id, [], by simp, rfl⟩

theorem Grows.trans (h : L.Grows L') (h' : L'.Grows L'') : L.Grows L'' where
  ok := h'.ok
  step := step_frame.trans h.step h'.step
  truth := h'.truth.trans h.truth
  vars hx := h'.vars (h.vars hx)
  normal hs := h'.normal (h.normal hs)
  defs := by
    obtain ⟨cs, hdefs, hdb⟩ := h.defs
    obtain ⟨ds, hdefs', hdb'⟩ := h'.defs
    have hdepth : L'.work.ctx.depth = L.work.ctx.depth := congrArg List.length h.step.keeps.scopes
    exact ⟨cs ++
      ds, by
        rw [hdefs', hdefs, List.append_assoc], by rw [hdb', hdb, hdepth, Database.addAll_append]⟩

theorem Grows.later (h : L.Grows L') : Store.Later L.store L'.store := h.step.keeps.store

theorem Grows.live (h : L.Grows L') {x : Nat} (hx : L.view.Live x) : L'.view.Live x :=
  hx.imp fun _ => h.vars

theorem Grows.meets (h : L.Grows L') (ha : Meets a L'.defs) : Meets a L.defs := by
  obtain ⟨cs, hdefs, -⟩ := h.defs
  exact (meets_append.mp (hdefs ▸ ha)).1

/-- The values of terms stay what they were. -/
theorem Grows.value (h : L.Grows L') (hL : L.Ok) {ty : Ty} (ht : L.store.Has t ty) :
    A.value L'.store t = A.value L.store t :=
  Atoms.value_of_extends hL.work.store h.later.wf h.later.ext ht

/-- Values that atoms have with more variables are those of the variables that there were. -/
theorem Grows.agrees (h : L.Grows L') (hL : L.Ok) (hA : L'.view.Agrees L'.store a A) :
    L.view.Agrees L.store a A := by
  intro x p b hx hb
  have hp := (hL.exact_.vars hx).1
  refine hA x p b (h.vars hx) ?_
  rw [Atoms.atom?_of_stays hL.work.store
    (h.later.ext.stays hL.work.store (Store.isValid_iff.mpr ⟨_, hp⟩)) hp]
  exact hb

/-! ## What is known of literals -/

/-- The literal is true when `m` says so. -/
structure Gives (L : Draft) (l : Literal) (m : (Nat → Bool) → Bool) : Prop where
  live : L.view.Live l.var
  value : ∀ {a}, Meets a L.defs → l.eval a = m a

/-- The bits of the word make the number that `m` says. -/
structure Counts (L : Draft) (word : List Literal) (m : (Nat → Bool) → Nat) : Prop where
  live : Over L.view.Live word
  value : ∀ {a}, Meets a L.defs → Literal.number a word = m a

/-- The literal has the value of the term. -/
structure Says (L : Draft) (l : Literal) (t : Term) : Prop where
  has : L.store.Has t .bool
  live : L.view.Live l.var
  value : ∀ {a A}, Meets a L.defs → L.view.Agrees L.store a A →
    l.eval a = (A.value L.store t).toBool

/-- The bits of the word make the value of the term. -/
structure Spells (L : Draft) (word : List Literal) (t : Term) : Prop where
  has : L.store.HasWidth t word.length
  live : Over L.view.Live word
  value : ∀ {a A}, Meets a L.defs → L.view.Agrees L.store a A →
    Literal.number a word = (A.value L.store t).toNat

section Later

variable {word : List Literal}

theorem Gives.later {m : (Nat → Bool) → Bool} (hl : L.Gives l m) (h : L.Grows L') : L'.Gives l m :=
  ⟨h.live hl.live, fun ha => hl.value (h.meets ha)⟩

theorem Gives.congr {m m' : (Nat → Bool) → Bool} (hl : L.Gives l m)
    (h : ∀ {a}, Meets a L.defs → m a = m' a) :
    L.Gives l m' :=
  ⟨hl.live, fun ha => (hl.value ha).trans (h ha)⟩

theorem Gives.neg {m : (Nat → Bool) → Bool} (hl : L.Gives l m) : L.Gives l.neg fun a => !m a :=
  ⟨(Literal.var_neg l).symm ▸ hl.live, fun {a} ha => by rw [Literal.eval_neg, hl.value ha]⟩

theorem Counts.congr {m m' : (Nat → Bool) → Nat} (hword : L.Counts word m)
    (h : ∀ {a}, Meets a L.defs → m a = m' a) : L.Counts word m' :=
  ⟨hword.live, fun ha => (hword.value ha).trans (h ha)⟩

theorem Says.later (hl : L.Says l t) (hL : L.Ok) (h : L.Grows L') : L'.Says l t where
  has := h.later.ext.has hl.has
  live := h.live hl.live
  value ha hA := by
    rw [h.value hL hl.has]
    exact hl.value (h.meets ha) (h.agrees hL hA)

theorem Says.negIf (hl : L.Says l t) (hL : L.Ok) (flip : Bool) :
    L.Says (l.negIf flip) (t.negIf flip) where
  has := hl.has.negIf fun _ => rfl
  live := (Literal.var_negIf flip l).symm ▸ hl.live
  value {a A} ha hA := by
    rw [Literal.eval_negIf, hl.value ha hA]
    cases flip with
    | false => exact Bool.bne_false _
    | true => exact (Bool.bne_true _).trans (A.toBool_neg hL.work.store hl.has).symm

theorem Says.of_positive (hl : L.Says l t.positive) (hL : L.Ok) :
    L.Says (l.negIf t.isNegated) t := by
  have hsign : t.positive.negIf t.isNegated = t := by
    cases hneg : t.isNegated with
    | false => exact Term.positive_of_not_isNegated hneg
    | true => exact Term.neg_positive hneg
  have h := hl.negIf hL t.isNegated
  rwa [hsign] at h

theorem Spells.later (hword : L.Spells word t) (hL : L.Ok) (h : L.Grows L') : L'.Spells word t where
  has := h.later.ext.hasWidth hword.has
  live := hword.live.mono fun _ => h.live
  value ha hA := by
    obtain ⟨ty, hty, -⟩ := hword.has
    rw [h.value hL hty]
    exact hword.value (h.meets ha) (h.agrees hL hA)

/-- The literals and words of a draft that are remembered have the values of their terms. -/
theorem Ok.says_lit (h : L.Ok) (hp : L.work.ctx.lits[p]? = some l) : L.Says l p where
  has := (h.exact_.lits hp).1
  live := (h.exact_.lits hp).2
  value ha hA := (h.exact_.sound ha hA).lits hp

theorem Ok.spells (h : L.Ok) (ht : L.work.ctx.bits[t]? = some word) : L.Spells word t where
  has := (h.exact_.bits ht).1
  live := (h.exact_.bits ht).2
  value ha hA := (h.exact_.sound ha hA).bits ht

/-- The literals of truth and falsity. -/
theorem Ok.truth (h : L.Ok) : L.Gives L.work.ctx.trueLit fun _ => true :=
  ⟨h.exact_.truth_live, h.exact_.eval_truth⟩

theorem Ok.falsity (h : L.Ok) : L.Gives L.work.ctx.trueLit.neg fun _ => false := h.truth.neg

end Later

/-! ## Following an encoding -/

/-- Starting from `L`, the operation only adds definitions to the draft, and what it answers is
as `Q` says. -/
def Drafts (L : Draft) (op : Work α) (Q : α → Draft → Prop) : Prop :=
  Ends op L.work (fun x w => ∃ L', L'.work = w ∧ L.Grows L' ∧ Q x L') fun w =>
    ∃ L', L'.work = w ∧ L.Grows L'

namespace Drafts

variable {op : Work α} {f : α → Work β} {Q Q' : α → Draft → Prop} {R : β → Draft → Prop}

theorem mono (h : L.Drafts op Q) (hQ : ∀ x L', L.Grows L' → Q x L' → Q' x L') : L.Drafts op Q' :=
  Ends.mono h (fun x _ ⟨L', hw, hg, hx⟩ => ⟨L', hw, hg, hQ x L' hg hx⟩) fun _ => id

theorem pure (hL : L.Ok) {x : α} (hx : Q x L) : L.Drafts (pure x) Q := ⟨L, rfl, .refl hL, hx⟩

theorem throw (hL : L.Ok) (e : Failure) : L.Drafts (throw e) Q := ⟨L, rfl, .refl hL⟩

theorem bind (h : L.Drafts op Q) (hf : ∀ x L', L.Grows L' → Q x L' → L'.Drafts (f x) R) :
    L.Drafts (op >>= f) R := by
  refine Ends.bind (Ends.mono h ?_ fun _ => id)
  rintro x w ⟨L', rfl, hg, hx⟩
  exact Ends.mono (hf x L' hg hx) (fun y _ ⟨L'', hw, hg', hy⟩ => ⟨L'', hw, hg.trans hg', hy⟩)
    fun _ ⟨L'', hw, hg'⟩ => ⟨L'', hw, hg.trans hg'⟩

/-- The rest may use what was read. -/
theorem look_bind {g : Store → Context → α} (h : L.Drafts (f (g L.store L.work.ctx)) R) :
    L.Drafts (Work.look g >>= f) R := h

/-- A pass over a list, whose answers stay what they were. -/
theorem mapM {P : α → β → Draft → Prop} (hP : ∀ {x y L L'}, L.Ok → L.Grows L' → P x y L → P x y L')
    (hL : L.Ok) {xs : List α} (hf : ∀ x ∈ xs, ∀ L', L.Grows L' → L'.Drafts (f x) (P x)) :
    L.Drafts (xs.mapM f) fun ys L' => List.Forall₂ (P · · L') xs ys := by
  induction xs generalizing L with
  | nil => exact pure hL .nil
  | cons x xs ih =>
    rw [List.mapM_cons]
    refine bind (hf x List.mem_cons_self L (.refl hL)) fun y L₁ h₁ hy => ?_
    refine bind (ih h₁.ok fun z hz L' hg => hf z (List.mem_cons_of_mem _ hz) L' (h₁.trans hg))
      fun ys L₂ h₂ hys => ?_
    exact pure h₂.ok (.cons (hP h₁.ok h₂ hy) hys)

end Drafts

/-- What the answers of a pass are over. -/
theorem over_of_forall₂ {R : α → Literal → Prop} {vs : Nat → Prop} {xs : List α} {ls : List Literal}
    (h : List.Forall₂ R xs ls) (hR : ∀ {x l}, R x l → vs l.var) : Over vs ls := by
  induction h with
  | nil => exact over_nil vs
  | cons hl _ ih => exact over_cons.mpr ⟨hR hl, ih⟩

/-- What the answers of a pass are. -/
theorem map_eq_of_forall₂ {γ : Type} {R : α → β → Prop} {f : β → γ} {g : α → γ} {xs : List α}
    {ys : List β}
    (h : List.Forall₂ R xs ys) (hR : ∀ {x y}, R x y → f y = g x) : ys.map f = xs.map g := by
  induction h with
  | nil => rfl
  | cons hy _ ih => rw [List.map_cons, List.map_cons, hR hy, ih]

/-! ## Steps that define nothing -/

/-- The draft stays as it is while the store grows, and other parts of the context change. -/
theorem Grows.same (hL : L.Ok) {w : Workspace} (hstep : Step L.work w)
    (htruth : w.ctx.trueLit = L.work.ctx.trueLit)
    (hvars : w.ctx.now.vars = L.view.vars) (hlits : w.ctx.now.lits = L.view.lits)
    (hbits : w.ctx.now.bits = L.view.bits) (haux : w.ctx.now.aux = L.view.aux)
    (hdb : w.ctx.core.db = L.work.ctx.core.db) (hnormal : L.store.Normalized → w.store.Normalized) :
    L.Grows ⟨w, L.defs⟩ where
  ok := by
    have hlater := hstep.keeps.store
    refine ⟨⟨hlater.wf, hstep.keeps.ok⟩, ?_⟩
    show w.ctx.now.Exact w.store w.ctx.trueLit L.defs
    rw [htruth]
    refine (hL.exact_.of_extends hL.work.store hlater.wf hlater.ext).of_same hvars hlits hbits haux
      fun a ha => ?_
    exact (show w.ctx.now.clauses = L.view.clauses from congrArg Database.all hdb) ▸ ha
  step := hstep
  truth := htruth
  vars hx := by rw [hvars]; exact hx
  normal := hnormal
  defs := ⟨[], by simp, hdb⟩

/-- The store may grow. -/
theorem drafts_onStore (hL : L.Ok) {op : Store.Op α} (hop : Moves Store.Wf Store.Built op)
    (hnormal : Moves (fun s => s.Wf ∧ s.Normalized) (fun s s' => Store.Later s s' ∧
      s'.Normalized) op)
    {Q : α → Store → Prop} (hQ : Store.Builds L.store op Q) :
    L.Drafts (Work.onStore op) fun x L' => Q x L'.store ∧ L'.work.ctx = L.work.ctx := by
  have hstep := Work.Steps.moves (fun s => Work.steps_onStore hop) L.work hL.work
  have hnormal' (h : L.store.Normalized) : (endState (op L.store)).Normalized :=
    (hnormal _ ⟨hL.work.store, h⟩).2
  unfold Drafts Ends
  unfold Store.Builds Ends at hQ
  cases hrun : op L.store with
  | ok x s =>
    rw [hrun] at hQ hnormal'
    rw [Work.onStore_of_ok hrun] at hstep ⊢
    exact ⟨⟨⟨s, L.work.ctx⟩, L.defs⟩, rfl, .same hL hstep rfl rfl rfl rfl rfl rfl hnormal', hQ.2,
      rfl⟩
  | error e s =>
    rw [hrun] at hnormal'
    rw [Work.onStore_of_error hrun] at hstep ⊢
    exact ⟨⟨⟨s, L.work.ctx⟩, L.defs⟩, rfl, .same hL hstep rfl rfl rfl rfl rfl rfl hnormal'⟩

/-- The e-graph may change. -/
theorem drafts_onEgraph (hL : L.Ok) {op : Store → StateM Egraph α}
    (hop : Work.Steps False L.store (Work.onEgraph op)) :
    L.Drafts (Work.onEgraph op) fun _ _ => True := by
  have hstep := (hop L.work (since_of_ok hL.work)).step
  exact ⟨⟨endState (Work.onEgraph op L.work), L.defs⟩, rfl,
    .same hL hstep rfl rfl rfl rfl rfl rfl id, trivial⟩

/-! ## Steps that define something -/

/-- Clauses are added one after the other. -/
theorem foldl_addClause (cs : List (List Literal)) (c : Context) :
    ∃ core, cs.foldl (fun c ls => c.addClause ls) c = { c with core } ∧
    core.db = c.core.db.addAll cs c.depth := by
  induction cs generalizing c with
  | nil => exact ⟨c.core, rfl, rfl⟩
  | cons ls cs ih =>
    obtain ⟨core, heq, hdb⟩ := ih (c.addClause ls)
    refine ⟨core, heq, ?_⟩
    rw [hdb, show (c.addClause ls).core.db = _ from Core.db_addClause c.core ls c.depth]
    rfl

theorem clauses_eq (cs : List (List Literal)) (w : Workspace) :
    Work.clauses cs w = .ok () ⟨w.store, cs.foldl (fun c ls => c.addClause ls) w.ctx⟩ := by
  induction cs generalizing w with
  | nil => rfl
  | cons ls cs ih => exact ih ⟨w.store, w.ctx.addClause ls⟩

/-- A variable has the value of its term. -/
theorem Ok.says_var (h : L.Ok) {v : Nat} (hv : L.view.vars v = some p) : L.Says (.pos v) p where
  has := (h.exact_.vars hv).1
  live := (Literal.var_pos v).symm ▸ ⟨p, hv⟩
  value {a _} ha hA := (Literal.eval_pos a v).trans ((h.exact_.sound ha hA).vars hv)

/-- The output of a gate is a new variable, with clauses that make it true when `m` says so. -/
theorem drafts_define (hL : L.Ok) (cs : Literal → List (List Literal)) {m : (Nat → Bool) → Bool}
    (hcs : ∀ out a, Meets a (cs out) ↔ out.eval a = m a)
    (hm : ∀ {a b}, (∀ x, L.view.Live x → a x = b x) → m a = m b)
    (hover : ∀ {out : Literal} {vs : Nat → Prop}, vs out.var →
      (∀ x, L.view.Live x → vs x) → ∀ c ∈ cs out, Over vs c) :
    L.Drafts (do let out ← Work.freshLit; Work.clauses (cs out); return out)
      fun out L' => L'.Gives out m := by
  have hstep := Work.Steps.moves (fun s => Work.steps_define cs) L.work hL.work
  have hnormal (h : L.store.Normalized) : (endState (Store.newConst .bool L.store)).Normalized :=
    (Store.constructors_normal.newConst .bool _ ⟨hL.work.store, h⟩).2
  cases hnew : Store.newConst .bool L.store with
  | error e s =>
    have hrun : (do
        let out ← Work.freshLit
        Work.clauses (cs out)
        return out : Work Literal) L.work =
        .error (.term e) ⟨s, L.work.ctx⟩ := bind_of_error (bind_of_error
          (Work.onStore_of_error hnew))
    unfold Drafts Ends
    rw [hrun] at hstep ⊢
    rw [hnew] at hnormal
    exact ⟨⟨⟨s, L.work.ctx⟩, L.defs⟩, rfl, .same hL hstep rfl rfl rfl rfl rfl rfl hnormal⟩
  | ok t s =>
    rw [hnew] at hnormal
    obtain ⟨hlater, hdead, hneg, hnode, -⟩ := (Store.newConst_builds hL.work.store .bool).of_ok hnew
    -- the new constant has no variable yet
    obtain ⟨-, hterm, hsame | ⟨-, hfresh, hget, -⟩⟩ := hL.work.ctx.vars.get t
    · rw [hsame] at hterm
      obtain ⟨ty, ⟨shape, hlive⟩, -⟩ := hL.work.ctx.live hterm
      exact absurd (hdead.symm.trans hlive) nofun
    generalize hv : (L.work.ctx.vars.get t).1 = v at hterm hfresh hget
    let c := (Context.atom t { L.work.ctx with aux := L.work.ctx.aux.insert t }).2
    obtain ⟨core, heq, hdb⟩ := foldl_addClause (cs (.pos v)) c
    have hrun : (do
        let out ← Work.freshLit
        Work.clauses (cs out)
        return out : Work Literal) L.work =
        .ok (.pos v) ⟨s, { c with core }⟩ := by
      have hfreshLit : Work.freshLit L.work = .ok (.pos v) ⟨s, c⟩ := by
        rw [← hv]
        exact bind_of_ok (Work.onStore_of_ok hnew)
      rw [bind_of_ok hfreshLit, bind_of_ok (clauses_eq _ _), heq]
      rfl
    have hold {x : Nat} {u : Term} (hu : L.view.vars x = some u) :
        (L.work.ctx.vars.get t).2.term? x = some u :=
      (hget x).trans ((if_neg (View.ne_of_fresh hfresh hu)).trans hu)
    have hexact : View.Exact s L.work.ctx.trueLit (L.defs ++ cs (.pos v))
        (Context.now { c with core }) := by
      refine hL.exact_.addOutput hL.work.store hlater.wf hlater.ext hdead hnode hneg hfresh
        hget rfl rfl
        (fun u hu => Std.HashSet.mem_insert.mpr (hu.imp_left fun hu => by simp [hu])) ?_
          (fun a ha => ?_)
        (fun a => by rw [hcs, Literal.eval_pos]) hm
      · exact hover ⟨t, (Literal.var_pos v).symm ▸ hterm⟩ fun x hx => hx.imp fun _ => hold
      · exact (Database.models_addAll hL.work.ctx.core).mp ((show core.db = _ from hdb) ▸ ha)
    unfold Drafts Ends
    rw [hrun] at hstep ⊢
    exact ⟨⟨⟨s, { c with core }⟩, L.defs ++ cs (.pos v)⟩, rfl,
      ⟨⟨⟨hlater.wf, hstep.keeps.ok⟩, hexact⟩, hstep, rfl, hold, hnormal, cs (.pos v), rfl, hdb⟩,
      ⟨t, (Literal.var_pos v).symm ▸ hterm⟩, fun ha => (hcs _ _).mp (meets_append.mp ha).2⟩

/-- The variable of a term, with clauses that determine its value from those of the atoms, and hold
when it has it. -/
theorem drafts_atom (hL : L.Ok) (hp : L.store.Has p .bool) (hneg : p.isNegated = false)
    (cs : Literal → List (List Literal))
    (hover : ∀ {out : Literal} {vs : Nat → Prop}, vs out.var → (∀ x, L.view.Live x → vs x) →
      ∀ c ∈ cs out, Over vs c)
    (hsound : ∀ {out a A}, Meets a L.defs → L.view.Agrees L.store a A → Meets a (cs out) →
      (∀ b, A.atom? L.store p = some b → out.eval a = b) → out.eval a = (A.value L.store p).toBool)
    (hfree : ∀ {out a A}, Meets a L.defs → L.view.Agrees L.store a A →
      out.eval a = (A.value L.store p).toBool →
      Meets a (cs out)) :
    L.Drafts (do let out ← Work.atom p; Work.clauses (cs out); return out)
      fun out L' => L'.Says out p := by
  have hmoves (s : Store) (hs : s.Has p .bool) :
      Work.Steps False s (do let out ← Work.atom p; Work.clauses (cs out); return out) :=
    typed_frame.bind (Work.steps_atom ⟨_, hs⟩) fun out =>
        typed_frame.bind (Work.steps_clauses (cs out)) fun _ =>
      typed_frame.pure out
  have hstep : Step L.work
      (endState ((do
        let out ← Work.atom p
        Work.clauses (cs out)
        return out : Work Literal) L.work)) :=
    (hmoves L.store hp L.work (since_of_ok hL.work)).step
  obtain ⟨-, hterm, hcases⟩ := hL.work.ctx.vars.get p
  generalize hv : (L.work.ctx.vars.get p).1 = v at hterm hcases
  let c := (L.work.ctx.atom p).2
  obtain ⟨core, heq, hdb⟩ := foldl_addClause (cs (.pos v)) c
  have hrun : (do let out ← Work.atom p; Work.clauses (cs out); return out : Work Literal) L.work =
      .ok (.pos v) ⟨L.store, { c with core }⟩ := by
    have hatom : Work.atom p L.work = .ok (.pos v) ⟨L.store, c⟩ := by
      rw [← hv]
      rfl
    rw [bind_of_ok hatom, bind_of_ok (clauses_eq _ _), heq]
    rfl
  have hmeets (a : Nat → Bool) (ha : (Context.now { c with core }).clauses.Models a) :
      L.view.clauses.Models a ∧ Meets a (cs (.pos v)) :=
    (Database.models_addAll hL.work.ctx.core).mp ((show core.db = _ from hdb) ▸ ha)
  rw [hrun] at hstep
  -- it is enough that the definitions are exact with the new clauses
  suffices h : (∀ {x u}, L.view.vars x = some u → (L.work.ctx.vars.get p).2.term? x = some u) ∧
      View.Exact L.store L.work.ctx.trueLit (L.defs ++ cs (.pos v)) (Context.now { c with core }) by
    obtain ⟨hold, hexact⟩ := h
    have hok : Ok ⟨⟨L.store, { c with core }⟩, L.defs ++ cs (.pos v)⟩ :=
      ⟨⟨hL.work.store, hstep.keeps.ok⟩, hexact⟩
    unfold Drafts Ends
    rw [hrun]
    exact ⟨_, rfl, ⟨hok, hstep, rfl, hold, id, cs (.pos v), rfl, hdb⟩, hok.says_var hterm⟩
  have hlive : (Context.now { c with core }).Live (Literal.pos v).var :=
    ⟨p, (Literal.var_pos v).symm ▸ hterm⟩
  rcases hcases with hsame | ⟨-, hfresh, hget, -⟩
  · have hvars : (Context.now { c with core }).vars = L.view.vars := congrArg Variables.term? hsame
    have hthere : L.view.vars v = some p := hvars ▸ hterm
    refine ⟨fun hu => by rw [hsame]; exact hu, ?_⟩
    have hsameview : View.Exact L.store L.work.ctx.trueLit L.defs (Context.now { c with core }) :=
      hL.exact_.of_same hvars rfl rfl rfl fun a ha => (hmeets a ha).1
    refine hsameview.addClauses (hover hlive fun x hx => hx.imp fun _ hu => hvars ▸ hu)
      (fun a ha => (hmeets a ha).2) fun a A ha hc => ?_
    refine hfree ha ?_ ((Literal.eval_pos a v).trans (hc.vars hterm))
    exact fun x q b hx hb => hc.agrees hL.work.store hsameview x q b (hvars ▸ hx) hb
  · have hold {x : Nat} {u : Term} (hu : L.view.vars x = some u) :
        (L.work.ctx.vars.get p).2.term? x = some u :=
      (hget x).trans ((if_neg (View.ne_of_fresh hfresh hu)).trans hu)
    refine ⟨hold, hL.exact_.addAtom hL.work.store hp hneg hfresh hget rfl rfl rfl
      (hover hlive fun x hx => hx.imp fun _ => hold) hmeets (fun a A ha hA hcs hb => ?_)
        fun a A ha hA hvalue => ?_⟩
    · rw [← Literal.eval_pos a v] at hb ⊢
      exact hsound ha hA hcs hb
    · exact hfree ha hA ((Literal.eval_pos a v).trans hvalue)

end Draft
end Entail
