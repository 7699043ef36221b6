import Entail.Proofs.Context.SupportedRuns
import Entail.Proofs.Encoding.Runs

/-!
# Exactness

What is encoded of a term in a context that was used in whatever way is exact. In every assignment
that satisfies the clauses, the literal of a formula is true when the formula is, and the bits of a
word make the number that the bitvector is, for the values that the assignment gives atoms. The
clauses that were added are definitions only: whatever the values of atoms, they can be satisfied.
-/

namespace Entail

open Search Context

variable {s : Store} {V : View} {a : Nat → Bool} {A B : Atoms} {p q : Term} {ty : Ty}

/-! ## Values that an assignment gives atoms -/

/-- Every positive term is in the store once. -/
theorem Store.Wf.eq_of_shape (hw : s.Wf) (hp : s.Has p ty) (hq : s.Has q ty)
    (hshape : s.shape q = s.shape p)
    (hpos : p.isNegated = false) (hqpos : q.isNegated = false) : q = p := by
  have hnode : s.node? q = some (s.shape p, ty) := hshape ▸ hq.node
  have hindex : q.index = p.index := hw.terms.slot_unique hnode hp.node
  rw [← Term.positive_of_not_isNegated hpos, ← Term.positive_of_not_isNegated hqpos]
  exact congrArg Term.ofIndex hindex

/-- What is given for atoms that are not free is the same. -/
theorem Atoms.Except.atom?_eq {free : Term → Prop} (h : A.Except free B) (hp : ¬free p) :
    B.atom? s p = A.atom? s p := by
  unfold Atoms.atom?
  rw [h.holds hp, h.bit, h.same]

namespace Context.View

section

open Classical

/-- Atoms with the values of their variables. -/
noncomputable def atoms (s : Store) (V : View) (a : Nat → Bool) : Atoms where
  holds p := decide (∃ x, V.vars x = some p ∧ a x = true)
  bit t i := decide (∃ x p, V.vars x = some p ∧ s.shape p = .bit t i ∧ a x = true)
  same t u := decide (t = u ∨ ∃ x p, V.vars x = some p ∧
    (s.shape p = .eq t u ∨ s.shape p = .eq u t) ∧ a x = true)
  same_self _ := decide_eq_true (.inl rfl)
  same_comm _ _ := decide_eq_decide.mpr
    (or_congr eq_comm (exists_congr fun _ => exists_congr fun _ => and_congr_right fun _ =>
      and_congr_left fun _ => or_comm))

@[simp] theorem holds_atoms : (V.atoms s a).holds p = true ↔ ∃ x, V.vars x = some p ∧ a x = true :=
  decide_eq_true_iff

@[simp] theorem bit_atoms {t : Term} {i : Nat} :
    (V.atoms s a).bit t i = true ↔ ∃ x p, V.vars x = some p ∧ s.shape p = .bit t i ∧ a x = true :=
  decide_eq_true_iff

@[simp] theorem same_atoms {t u : Term} : (V.atoms s a).same t u = true ↔
    t = u ∨ ∃ x p, V.vars x = some p ∧ (s.shape p = .eq t u ∨ s.shape p = .eq u t) ∧ a x = true :=
  decide_eq_true_iff

end

/-- Nothing is an atom twice, so an assignment may be as it likes. -/
theorem agrees_atoms (hw : s.Wf) (hs : s.Normalized)
    (hvars : ∀ {x p}, V.vars x = some p → s.Has p .bool ∧ p.isNegated = false)
    (hunique : ∀ {x y p}, V.vars x = some p → V.vars y = some p → x = y) :
    V.Agrees s a (V.atoms s a) := by
  intro x p b hx hb
  obtain ⟨hp, hpos⟩ := hvars hx
  -- the value is that of the only variable of the only such term
  have honly {y : Nat} {q : Term} (hy : V.vars y = some q) (hshape : s.shape q = s.shape p) :
      y = x := by
    obtain ⟨hq, hqpos⟩ := hvars hy
    obtain rfl := hw.eq_of_shape hp hq hshape hpos hqpos
    exact hunique hy hx
  have hholds : a x = (V.atoms s a).holds p := by
    rw [Bool.eq_iff_iff, holds_atoms]
    exact ⟨fun ha => ⟨x, hx, ha⟩, fun ⟨y, hy, ha⟩ => honly hy rfl ▸ ha⟩
  unfold Atoms.atom? at hb
  split at hb
  next => exact hholds.trans (Option.some.inj hb)
  next => exact hholds.trans (Option.some.inj hb)
  next t i hshape =>
    split at hb
    next =>
      rw [← Option.some.inj hb, Bool.eq_iff_iff, bit_atoms]
      exact ⟨fun ha => ⟨x, p, hx, hshape, ha⟩, fun ⟨y, q, hy, hq, ha⟩ =>
        honly hy (hq.trans hshape.symm) ▸ ha⟩
    next => cases hb
  next t u hshape =>
    split at hb
    next =>
      have hlt : t.raw < u.raw := by
        have hnormal := hs hp.node
        rw [hshape] at hnormal
        exact hnormal.1
      rw [← Option.some.inj hb, Bool.eq_iff_iff, same_atoms]
      refine ⟨fun ha => .inr ⟨x, p, hx, .inl hshape, ha⟩, ?_⟩
      rintro (rfl | ⟨y, q, hy, hq | hq, ha⟩)
      · exact absurd hlt (Nat.lt_irrefl _)
      · exact honly hy (hq.trans hshape.symm) ▸ ha
      · -- the sides of an equality are in order
        have hnormal := hs (hvars hy).1.node
        rw [hq] at hnormal
        exact absurd hnormal.1 (Nat.lt_asymm hlt)
    next => cases hb
  next => cases hb

end Context.View

/-! ## What was encoded -/

/-- The encoding that led from `w` to `w'` is exact: something is said of every assignment that
satisfies the clauses and of the values that it gives atoms, which may be any, and what was added to
the clauses are definitions, which say it already and leave atoms free. -/
structure Workspace.Encodes (w w' : Workspace) (means : (Nat → Bool) → Atoms → Prop) : Prop where
  sound : ∀ a A, w'.ctx.now.clauses.Models a → w'.ctx.now.Agrees w'.store a A → means a A
  agrees : w.store.Normalized → ∀ a, ∃ A, w'.ctx.now.Agrees w'.store a A
  defined : ∃ old new : List (List Literal), w'.ctx.core.db = w.ctx.core.db.addAll new w.ctx.depth ∧
    (∀ a, w'.ctx.now.clauses.Models a → Meets a (old ++ new)) ∧
    (∀ a A, Meets a (old ++ new) → w'.ctx.now.Agrees w'.store a A → means a A) ∧
    ∀ A : Atoms, ∃ a, Meets a (old ++ new) ∧ ∀ x p b, w'.ctx.now.vars x = some p →
      ¬w'.ctx.now.aux p →
      A.atom? w'.store p = some b → a x = b

namespace Draft

/-- Additions to a draft that say something encode it. -/
theorem Grows.encodes {L L' : Draft} {means : (Nat → Bool) → Atoms → Prop} (h : L.Grows L')
    (hsay : ∀ a A, Meets a L'.defs → L'.view.Agrees L'.store a A → means a A) :
    L.work.Encodes L'.work means := by
  obtain ⟨hwork, hexact⟩ := h.ok
  obtain ⟨new, hdefs, hdb⟩ := h.defs
  have hwf : L'.store.Wf := hwork.store
  refine ⟨fun a A ha => hsay a A (hexact.meets ha), fun hs a => ?_, L.defs, new, hdb, fun a ha =>
    ?_, fun a A ha => ?_,
    fun A => ?_⟩
  · exact ⟨_, View.agrees_atoms hwf (h.normal hs) hexact.vars hwork.ctx.vars.term_unique⟩
  · exact hdefs ▸ hexact.meets ha
  · exact hsay a A (hdefs ▸ ha)
  · obtain ⟨a, B, hB, ha, hc⟩ := hexact.free A
    refine ⟨a, hdefs ▸ ha, fun x p b hx hp hb => hc.agrees hwf hexact x p b hx ?_⟩
    rw [hB.atom?_eq hp]
    exact hb

end Draft

namespace Workspace

variable {w : Workspace}

/-- What is encoded in a context that was used in some way has its value. -/
theorem encodes_of_used (h : Used w) :
    (∀ t l w', w.store.Has t .bool → Work.literalOf t w = .ok l w' →
      w.Encodes w' fun a A => l.eval a = (A.value w.store t).toBool) ∧
    ∀ depth t n word w', w.store.HasWidth t n → (Encoder.nested depth).word t w = .ok word w' →
      w.Encodes w' fun a A => word.length = n ∧
      Literal.number a word = (A.value w.store t).toNat := by
  have haccounted := accounted_of_used h
  obtain ⟨defs, hexact⟩ := haccounted.now
  -- a workspace with the definitions made in it is a draft, and encoding a term continues the draft
  let L : Draft := ⟨w, defs⟩
  have hL : L.Ok := ⟨haccounted.kempt.tidy.ok, hexact⟩
  refine ⟨fun t l w' ht hrun => ?_, fun depth t n word w' ht hrun => ?_⟩
  · have hdrafts := Draft.drafts_literalOf hL ht
    unfold Draft.Drafts Ends at hdrafts
    rw [show Work.literalOf t L.work = _ from hrun] at hdrafts
    obtain ⟨L', rfl, hgrows, hsay⟩ := hdrafts
    exact hgrows.encodes fun a A ha hA => (hsay.value ha hA).trans (by rw [hgrows.value hL ht])
  · obtain ⟨ty, hty, hwidth⟩ := ht
    have hdrafts := (Draft.faithful_nested depth).word hL hty
    unfold Draft.Drafts Ends at hdrafts
    rw [show (Encoder.nested depth).word t L.work = _ from hrun] at hdrafts
    obtain ⟨L', rfl, hgrows, hspells⟩ := hdrafts
    refine hgrows.encodes fun a A ha hA =>
      ⟨?_, (hspells.value ha hA).trans (by rw [hgrows.value hL hty])⟩
    exact hspells.has.unique (hgrows.later.ext.hasWidth ⟨ty, hty, hwidth⟩)

/-- Two constants of 2 bits, their sum, and whether it is at least the second one. -/
def wrapped : Store :=
  let s := endState (Store.bvType 2 .empty)
  let s := endState (Store.newConst ⟨1⟩ s)
  let s := endState (Store.newConst ⟨1⟩ s)
  let s := endState (Store.bvSum [.ofIndex 2, .ofIndex 3] s)
  endState (Store.bvGe (.ofIndex 4) (.ofIndex 3) s)

theorem reached_wrapped : Store.Reached wrapped := by
  have h := (((Store.Reached.empty.build (.bvType 2)).build (.newConst ⟨1⟩)).build (.newConst ⟨1⟩))
  exact (h.build (.bvSum [.ofIndex 2, .ofIndex 3])).build (.bvGe (.ofIndex 4) (.ofIndex 3))

/-- Whether a sum of words is at least one of its summands is encoded, and any assignment gives
it a value. -/
theorem encodes_wrapped :
    let w : Workspace := ⟨wrapped, .new {}⟩
    Used w ∧ w.store.Normalized ∧ wrapped.node? (.ofIndex 5) = some
      (.bvGe (.ofIndex 4) (.ofIndex 3), .bool) ∧
      ∃ l w', Work.literalOf (.ofIndex 5) w = .ok l w' ∧
        w.Encodes w' fun a A => l.eval a = (A.value wrapped (.ofIndex 5)).toBool := by
  intro w
  have hintact : wrapped.Intact := reached_wrapped.intact
  have hused : UsedInOrder w := .new hintact {}
  have hnode : wrapped.node? (.ofIndex 5) = some (.bvGe (.ofIndex 4) (.ofIndex 3), .bool) := by cbv
  have hsum : wrapped.node? (.ofIndex 4) = some (.bvSum [.ofIndex 2, .ofIndex 3], ⟨1⟩) := by cbv
  have hleft : wrapped.node? (.ofIndex 2) = some (.uninterpreted ⟨1⟩ 0, ⟨1⟩) := by cbv
  have hright : wrapped.node? (.ofIndex 3) = some (.uninterpreted ⟨1⟩ 1, ⟨1⟩) := by cbv
  have hbool : wrapped.Has (.ofIndex 5) .bool := ⟨⟨_, hnode⟩, fun _ => rfl⟩
  have hsupp : wrapped.Supported [] (.ofIndex 5) := by
    have hthird : wrapped.Supported [] (.ofIndex 3) :=
      .plain hright rfl (by simp [Term.Shape.children])
    have hsecond : wrapped.Supported [] (.ofIndex 2) :=
      .plain hleft rfl (by simp [Term.Shape.children])
    refine .plain hnode rfl (List.forall_mem_cons.mpr ⟨.plain hsum rfl ?_,
      List.forall_mem_singleton.mpr hthird⟩)
    exact List.forall_mem_cons.mpr ⟨hsecond, List.forall_mem_singleton.mpr hthird⟩
  have hserves := Work.serves_literalOf ⟨hintact.wf, hused.stocked.ctx⟩ hbool hsupp
  refine ⟨hused.used, reached_wrapped.normalized, hnode, ?_⟩
  cases hrun : Work.literalOf (.ofIndex 5) w with
  | ok l w' => exact ⟨l, w', rfl, (encodes_of_used hused.used).1 _ l w' hbool hrun⟩
  | error e w' => exact (hserves.cause hrun).elim

end Workspace
end Entail
