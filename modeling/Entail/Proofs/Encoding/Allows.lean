import Entail.Proofs.Context.Pursuit
import Entail.Proofs.Encoding.Conveyed

/-!
# Assignments that a structure allows

Where the clauses are warranted by a structure, an assignment that follows it and satisfies the
definitions is one that a search allows: it satisfies the clauses, and the values of the nodes of
the e-graph are a congruence in which its equalities and disequalities hold. So there is no such
structure when no assignment is allowed.
-/

namespace Entail

open Search Context Quant

/-! ## Nodes -/

namespace Egraph

variable {g : Egraph} {s : Store} {M : Structure} {ρ : M.Env} {i : Nat} {t : Term}

/-- Nodes whose terms have the same value in a structure are a congruence. -/
theorem isCongruence_value (hs : s.Wf) (hg : g.Typed s)
    (hpos : ∀ n ∈ g.nodes, ∀ f args, s.shape n.term = .app f args → n.term.isNegated = false)
    (M : Structure) (ρ : M.Env) :
    g.IsCongruence fun i j => M.value s ρ (g.node i).term = M.value s ρ (g.node j).term where
  equiv := ⟨fun _ => rfl, Eq.symm, Eq.trans⟩
  app {p q f} hp hq hargs := by
    have happ {i : Nat} (hi : (g.node i).func = some f) : M.value s ρ (g.node i).term =
        M.call (M.value s ρ f) ((g.node i).args.map fun j => M.value s ρ (g.node j).term) := by
      have hlt : i < g.nodes.size := by
        by_contra hge
        have hnone : g.node i = { term := .top, ty := .bool } := by
          rw [node, Array.getD_eq_getD_getElem?, Array.getElem?_eq_none (Nat.le_of_not_lt hge),
            Option.getD_none]
        rw [hnone] at hi
        cases hi
      have hn := getElem?_node hlt
      obtain ⟨hdescribes, ty, hty⟩ := hg.described hn
      obtain ⟨ts, hshape, hts⟩ := hdescribes.app hi
      have hnode := hty.node
      rw [hshape] at hnode
      rw [Structure.value_of_node hs hnode (hpos _ (Array.mem_of_getElem? hn) _ _ hshape),
        Structure.node]
      refine congrArg _ (List.forall₂_eq_eq_eq ▸ List.forall₂_map_left_iff.mpr
        (List.forall₂_map_right_iff.mpr ?_))
      exact hts.flip.imp fun t j h => by rw [(term_of_termAt h.2).2]
    rw [happ hp, happ hq]
    exact congrArg _ (map_eq_map_iff.mpr hargs)

end Egraph

namespace Workspace

variable {w w' : Workspace} {t p : Term} {a : Nat → Bool} {M : Structure} {ρ : M.Env}
  {defs : List (List Literal)}
  {v i j : Nat} {l : Literal} {s : Store}

/-- The nodes start with those of truth and falsity. -/
def Truths (w : Workspace) : Prop :=
  Egraph.empty.nodes.toList <+: w.ctx.registry.egraph.nodes.toList

/-- The value of the term of a node. -/
noncomputable def nodeValue (w : Workspace) (M : Structure) (ρ : M.Env) (i : Nat) : Val M.elems :=
  M.value w.store ρ (w.ctx.registry.egraph.node i).term

/-- The first nodes have the values of truth and falsity. -/
theorem Truths.nodeValue (h : w.Truths) (hs : w.store.Wf) (b : Bool) :
    w.nodeValue M ρ (if b then Egraph.trueNode else Egraph.falseNode) = .bool b := by
  have htop : M.value w.store ρ .top = .bool true := Structure.holds_top hs
  unfold Workspace.nodeValue
  cases b with
  | true =>
    have hterm : (w.ctx.registry.egraph.node Egraph.trueNode).term = .top :=
      (term_of_termAt (keyAt_of_isPrefix h rfl)).2
    exact hterm ▸ htop
  | false =>
    have hterm : (w.ctx.registry.egraph.node Egraph.falseNode).term = .bot :=
      (term_of_termAt (keyAt_of_isPrefix h rfl)).2
    have hneg : M.value w.store ρ .bot = _ := Structure.value_neg hs ⟨⟨_, hs.truth⟩, fun _ => rfl⟩ ρ
    exact hterm ▸ hneg.trans (by rw [htop]; rfl)

section

variable (hw : w.Carrying t) (h : w.ctx.now.Exact w.store w.ctx.trueLit defs) (hM : M.Fits w.store)
  (hρ : M.EnvFits w.store ρ)
  (ha : Meets a defs) (hA : w.ctx.now.Follows w.store a (M.atoms w.store ρ))

include hw h hM hρ ha hA

/-- A variable has the value of its term. -/
theorem Carrying.eval_var (hv : w.ctx.now.vars v = some p) (hp : w.store.Avoids w.ctx.now.aux p) :
    a v = (M.value w.store ρ p).toBool := by
  rw [(h.sound ha (hA.agrees hw.outputs)).vars hv]
  exact Structure.toBool_value hw.wf hM hρ (w.ctx.now.except_mend a _) (h.vars hv).1 hp

/-- What an atom says of its nodes has the value of its variable. -/
theorem Carrying.value_of_atom {atom : Egraph.Atom}
    (hatom : w.ctx.registry.egraph.atoms[v]? = some atom) :
    match atom with
    | .eq i j => a v = true ↔ w.nodeValue M ρ i = w.nodeValue M ρ j
    | .pred i => w.nodeValue M ρ i = .bool (a v) := by
  obtain ⟨t, ht, hstands⟩ := hw.described.tidy.refers.atoms hatom
  obtain ⟨hbool, hpos⟩ := h.vars ht
  have hplain {i : Nat} {u : Term} (hu : Egraph.termAt w.ctx.registry.egraph.nodes i = some u) :
      w.store.Avoids w.ctx.now.aux u := by
    obtain ⟨n, hn, rfl⟩ := Option.map_eq_some_iff.mp hu
    exact (hw.hides.nodes n (Array.mem_toList_iff.mpr (Array.mem_of_getElem? hn))).avoids
  cases hstands with
  | eq hshape hmeans =>
    cases hmeans with
    | eq hx hy =>
      have hn := hbool.node
      rw [hshape] at hn
      have hvalue := hw.eval_var h hM hρ ha hA ht (.of_node hn (fun haux => ?_) fun c hc => ?_)
      · simp only [nodeValue]
        rw [hvalue, (term_of_termAt hx).2, (term_of_termAt hy).2,
          Structure.value_of_node hw.wf hn hpos,
          Structure.node_eq_combine rfl]
        simp [Term.Shape.combine, Term.Shape.children, Val.toBool_ofProp]
      · -- an output is a constant
        obtain ⟨n, hconst⟩ := hw.hides.const haux
        rw [Term.positive_of_not_isNegated hpos, hn] at hconst
        cases hconst
      · rcases List.mem_cons.mp hc with rfl | hc
        · exact hplain hx
        · exact List.mem_singleton.mp hc ▸ hplain hy
  | pred hshape hmeans =>
    cases hmeans with
    | pred hp =>
      have hvalue := hw.eval_var h hM hρ ha hA ht (hplain hp)
      obtain ⟨b, hb⟩ := (Val.inhabits_bool hw.wf).mp (Structure.value_inhabits hw.wf hM hρ hbool)
      simp only [nodeValue]
      rw [(term_of_termAt hp).2, hvalue, hb]
      rfl

/-- The nodes that a true literal makes equal have one value. -/
theorem Carrying.value_of_equation (htruths : w.Truths) (hl : l.Holds a)
    (he : w.ctx.registry.egraph.equation? l = some (i, j)) :
    w.nodeValue M ρ i = w.nodeValue M ρ j := by
  unfold Egraph.equation? at he
  split at he
  next c d hatom =>
    split at he
    next => cases he
    next hpos =>
      cases he
      refine (hw.value_of_atom h hM hρ ha hA hatom).mp (Eq.trans hl ?_)
      simpa using hpos
  next hatom =>
    cases he
    have hvalue : w.nodeValue M ρ i = .bool (a l.var) := hw.value_of_atom h hM hρ ha hA hatom
    rw [hvalue, ← htruths.nodeValue hw.wf (M := M) (ρ := ρ) (a l.var), show a l.var = _ from hl]
    cases l.isNegated <;> rfl
  next => cases he

/-- The nodes that a true literal makes differ have different values. -/
theorem Carrying.value_of_disequation (hl : l.Holds a)
    (he : w.ctx.registry.egraph.disequation? l = some (i, j)) :
    w.nodeValue M ρ i ≠ w.nodeValue M ρ j := by
  unfold Egraph.disequation? at he
  split at he
  next c d hatom =>
    split at he
    next hneg =>
      cases he
      intro hequal
      have htrue := (hw.value_of_atom h hM hρ ha hA hatom).mpr hequal
      rw [show a l.var = _ from hl, hneg] at htrue
      cases htrue
    next => cases he
  next => cases he

/-- Where the clauses are warranted, assignments that follow the structure are allowed. -/
theorem Carrying.allows (hable : w.Able) (htruths : w.Truths)
    (hwarranted : w.ctx.now.Warranted w.store defs M ρ) :
    w.ctx.Allows a := by
  have hcong := Egraph.isCongruence_value hw.wf hw.described.tidy.typed.egraph
      (fun n hn f args hshape =>
    (hable.ctx.nodes n hn).positive hshape) M ρ
  have hequal {i j : Nat} (hij : w.ctx.registry.egraph.Cong (w.ctx.core.literals a) i j) :
      w.nodeValue M ρ i = w.nodeValue M ρ j :=
    hcong.of_cong (fun hl he => hw.value_of_equation h hM hρ ha hA htruths
      (Core.mem_literals.mp hl).2 he) hij
  refine ⟨Database.all_models.mp (hwarranted.clauses ha hA), fun hij => ?_,
    fun l hl i j hdiffer hij => ?_⟩
  · have htrue := htruths.nodeValue hw.wf (M := M) (ρ := ρ) true
    have hfalse := htruths.nodeValue hw.wf (M := M) (ρ := ρ) false
    cases htrue.symm.trans ((hequal hij).trans hfalse)
  · exact hw.value_of_disequation h hM hρ ha hA (Core.mem_literals.mp hl).2 hdiffer (hequal hij)

end

/-! ## Contradictions -/

/-- No structure for the store `s`, which the present one has grown to, warrants the clauses. -/
def Refuted (w : Workspace) (s : Store) : Prop :=
  ∀ ⦃defs⦄, w.ctx.now.Exact w.store w.ctx.trueLit defs →
  ∀ ⦃M : Structure⦄ ⦃ρ : M.Env⦄, M.Fits s → M.EnvFits s ρ → ¬ w.ctx.now.Warranted w.store defs M ρ

/-- Where no assignment is allowed, no structure warrants the clauses. -/
theorem Carrying.refuted (hw : w.Carrying t) (hable : w.Able) (htruths : w.Truths)
    (hs : Store.Later w.store s) (hnone : ∀ a, ¬ w.ctx.Allows a) : w.Refuted s := by
  intro defs h M ρ hM hρ hwarranted
  have hM : M.Fits w.store := hM.of_extends hw.wf hs.ext
  have hρ : M.EnvFits w.store ρ := hρ.of_extends hw.wf hs.ext
  obtain ⟨a, ha, hA⟩ := h.follows hw.wf (M.atoms w.store ρ)
  exact hnone a (hw.allows h hM hρ ha hA hable htruths hwarranted)

/-- What is refuted after some steps was so before. -/
theorem Conveys.refuted (h : Conveys .top w w') (hs : Store.Later w'.store s) (hw' : w'.Refuted s) :
    w.Refuted s := by
  intro defs hdefs M ρ hM hρ hwarranted
  have hwf' := h.later.wf
  obtain ⟨defs', hdefs', hsound⟩ := h.sound hdefs
  obtain ⟨ρ₁, hρ₁, -, hwarranted₁⟩ :=
    hsound (hM.of_extends hwf' hs.ext) (hρ.of_extends hwf' hs.ext) hwarranted
    (Structure.holds_top h.start.wf)
  -- values of what is newer still
  obtain ⟨ρ₂, hρ₂, hsame, -⟩ := hρ₁.complete hρ hwf' hs.ext
  have htyped := (h.carrying h.start).described.typed
  exact hw' hdefs' hM hρ₂ (hwarranted₁.later hwf' htyped (Store.later_frame.refl hwf') hsame)

end Workspace
end Entail
