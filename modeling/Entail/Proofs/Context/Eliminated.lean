import Entail.Proofs.Context.Scopes
import Entail.Proofs.Context.TypedRuns
import Entail.Proofs.Store.Avoids

/-!
# Eliminated constants

A constant is eliminated by a definition, which is put for it in whatever is asserted from then
on. So it must not occur in anything that refers to terms already: it has no variable, no word and
no node, and neither the definitions nor the constraints contain it. What is asserted later
contains no eliminated constant once the definitions are put in, and neither do the parts of it
that are encoded.
-/

namespace Entail

namespace Store

variable {s s' : Store} {x : Term}

/-- A positive constant whose type is not one of functions. -/
structure Datum (s : Store) (x : Term) : Prop where
  positive : x.isNegated = false
  const : (s.shape x).isUninterpreted = true
  ty : s.isFunctionTy (s.ty x) = false

theorem Datum.valid (h : s.Datum x) : s.isValid x = true := by
  obtain ⟨ty, n, ty', hn⟩ := node_of_isUninterpreted h.const
  exact isValid_iff.mpr ⟨ty', ⟨_, hn⟩, by simp [h.positive]⟩

theorem Datum.stays (h : s.Datum x) (hs : s.Stays s' x) : s'.Datum x where
  positive := h.positive
  const := hs.shape_eq ▸ h.const
  ty := by
    obtain ⟨ty, hty⟩ := isValid_iff.mp h.valid
    obtain ⟨tyShape, hold, hnew⟩ := hs.ty .refl hty.node .refl
    have hfun := h.ty
    rw [hty.ty_eq, isFunctionTy, hold] at hfun
    rw [(hs.has hty).ty_eq, isFunctionTy, hnew]
    exact hfun

theorem Datum.later (h : s.Datum x) (hw : s.Wf) (hs : s.Extends s') : s'.Datum x :=
  h.stays (hs.stays hw h.valid)

end Store

namespace Context

variable {s s' : Store} {c c' : Context} {t x y v : Term}

/-- The constant has a definition. -/
def Eliminated (c : Context) (x : Term) : Prop := ∃ v, c.subst[x]? = some v

/-- The term has a variable, a word or a node. -/
def Encoded (c : Context) (t : Term) : Prop :=
  (∃ v, c.vars.term? v = some t) ∨ (∃ word, c.bits[t]? = some word) ∨ ∃ n ∈ c.registry.egraph.nodes,
    n.term = t

theorem isEncoded_iff (hc : c.Ok s) : c.isEncoded t = true ↔ c.Encoded t := by
  unfold isEncoded Encoded
  rw [Bool.or_eq_true, Bool.or_eq_true, or_assoc]
  refine or_congr ?_ (or_congr ?_ ?_)
  · rw [Variables.has, Option.isSome_iff_exists]
    exact exists_congr fun v => hc.vars.find?_eq_some
  · rw [Std.HashMap.contains_iff_mem, ← Std.HashMap.isSome_getElem?_iff_mem,
      Option.isSome_iff_exists]
  · rw [Std.HashMap.contains_iff_mem, ← Std.HashMap.isSome_getElem?_iff_mem,
      Option.isSome_iff_exists]
    constructor
    · rintro ⟨i, hi⟩
      obtain ⟨n, hn, hterm⟩ := Option.map_eq_some_iff.mp ((hc.nodes.nodeOf t i).mp hi)
      exact ⟨n, Array.mem_of_getElem? hn, hterm⟩
    · rintro ⟨n, hn, rfl⟩
      obtain ⟨i, hi⟩ := Array.mem_iff_getElem?.mp hn
      exact ⟨i, (hc.nodes.nodeOf n.term i).mpr (Option.map_eq_some_iff.mpr ⟨n, hi, rfl⟩)⟩

/-- Nothing refers to an eliminated constant but its definition. -/
structure Eliminates (s : Store) (c : Context) : Prop where
  datum : ∀ {x}, c.Eliminated x → s.Datum x
  values : s.Sheds c.Eliminated c.subst
  encoded : ∀ {t}, c.Encoded t → ¬ c.Eliminated t
  formulas : ∀ q ∈ c.solver.constraints, s.Avoids c.Eliminated q.formula

/-- Nothing refers to a constant that may be eliminated. -/
structure Removable (s : Store) (c : Context) (x : Term) : Prop where
  datum : s.Datum x
  new : c.subst[x]? = none
  values : s.Sheds (· = x) c.subst
  encoded : ¬ c.Encoded x
  formulas : ∀ q ∈ c.solver.constraints, s.Avoids (· = x) q.formula

theorem mem_roots_of_subst (h : c.subst[x]? = some v) : x ∈ c.roots ∧ v ∈ c.roots :=
  ⟨mem_roots.mpr (.inr (.inr (.inl ⟨x, v, h, .inl rfl⟩))),
    mem_roots.mpr (.inr (.inr (.inl ⟨x, v, h, .inr rfl⟩)))⟩

theorem mem_roots_of_formula (hc : c.registry.Has c.solver) {q : Quant.Constraint}
    (hq : q ∈ c.solver.constraints) :
    q.formula ∈ c.roots := by
  refine mem_roots_of_solver hc ?_
  simp only [Quant.Solver.roots, List.mem_append, Array.mem_toList_iff, Array.mem_map]
  exact .inl (.inl ⟨q, hq, rfl⟩)

section

variable (ht : c.Typed s) (hc : c.registry.Has c.solver) (hs : s.Spares s' c.roots)

include ht hs

theorem stays_subst (h : c.subst[x]? = some v) : s.Stays s' x ∧ s.Stays s' v := by
  obtain ⟨ty, hx, hv⟩ := ht.subst h
  obtain ⟨hxroot, hvroot⟩ := mem_roots_of_subst h
  exact ⟨hs x hxroot (Store.isValid_iff.mpr ⟨ty, hx⟩), hs v hvroot (Store.isValid_iff.mpr ⟨ty, hv⟩)⟩

include hc

theorem stays_formula {q : Quant.Constraint} (hq : q ∈ c.solver.constraints) :
    s.Stays s' q.formula :=
  hs _ (mem_roots_of_formula hc hq)
    (Store.isValid_iff.mpr ⟨_, (ht.solver.constraints q hq).formula⟩)

/-- The store may change as long as the roots stay. -/
theorem Eliminates.spares (h : c.Eliminates s) : c.Eliminates s' where
  datum hx := by
    obtain ⟨v, hv⟩ := hx
    exact (h.datum ⟨v, hv⟩).stays (stays_subst ht hs hv).1
  values x v hx := (h.values x v hx).stays (stays_subst ht hs hx).2
  encoded := h.encoded
  formulas q hq := (h.formulas q hq).stays (stays_formula ht hc hs hq)

end

theorem Eliminates.later (h : c.Eliminates s) (ht : c.Typed s) (hc : c.Ok s) (hw : s.Wf)
    (hs : s.Extends s') :
    c.Eliminates s' := h.spares ht hc.registry (hs.spares hw _)

/-- The tables may shrink, and terms without eliminated constants may be encoded. -/
theorem Eliminates.of_ctx (h : c.Eliminates s)
    (hsubst : ∀ {x v : Term}, c'.subst[x]? = some v → c.subst[x]? = some v)
    (hencoded : ∀ {t}, c'.Encoded t → c.Encoded t ∨ s.Avoids c.Eliminated t)
    (hformulas : ∀ q ∈ c'.solver.constraints, q ∈ c.solver.constraints ∨
      s.Avoids c.Eliminated q.formula) :
    c'.Eliminates s := by
  have hold {x : Term} (hx : c'.Eliminated x) : c.Eliminated x := hx.imp fun v => hsubst
  refine ⟨fun hx => h.datum (hold hx), fun x v hx => (h.values x v (hsubst hx)).mono fun _ => hold,
    ?_, fun q hq => ?_⟩
  · intro t ht hx
    rcases hencoded ht with ht | ht
    · exact h.encoded ht (hold hx)
    · refine ht.not_mem ?_
      rw [Term.positive_of_not_isNegated (h.datum (hold hx)).positive]
      exact hold hx
  · rcases hformulas q hq with hq | hq
    · exact (h.formulas q hq).mono fun _ => hold
    · exact hq.mono fun _ => hold

theorem eliminated_insert : Eliminated { c with subst := c.subst.insert x v } y ↔
    c.Eliminated y ∨ y = x := by
  unfold Eliminated
  simp only [Std.HashMap.getElem?_insert]
  by_cases hxy : x = y
  · subst hxy
    simp
  · simp [hxy, Ne.symm hxy]

/-- A constant to which nothing refers is eliminated by a term without it and without
eliminated constants. -/
theorem Eliminates.define (h : c.Eliminates s) (hx : c.Removable s x)
    (hv : s.Avoids (fun y => c.Eliminated y ∨ y = x) v) :
    Eliminates s { c with subst := c.subst.insert x v, substLog := c.substLog.push x } := by
  have hnew {y : Term} (hy : Eliminated
    { c with subst := c.subst.insert x v, substLog := c.substLog.push x } y) :
      c.Eliminated y ∨ y = x := eliminated_insert.mp hy
  refine ⟨fun {y} hy => ?_, fun y u hy => ?_, fun {t} ht hy => ?_, fun q hq => ?_⟩
  · rcases hnew hy with hy | rfl
    · exact h.datum hy
    · exact hx.datum
  · have hboth : s.Avoids (fun y => c.Eliminated y ∨ y = x) u := by
      change (c.subst.insert x v)[y]? = some u at hy
      rw [Std.HashMap.getElem?_insert] at hy
      split at hy
      · cases hy
        exact hv
      · exact (h.values y u hy).or (hx.values y u hy)
    exact hboth.mono fun _ => hnew
  · rcases hnew hy with hy | rfl
    · exact h.encoded ht hy
    · exact hx.encoded ht
  · exact ((h.formulas q hq).or (hx.formulas q hq)).mono fun _ => hnew

theorem Removable.later (h : c.Removable s x) (ht : c.Typed s) (hc : c.Ok s) (hw : s.Wf)
    (hs : s.Extends s') :
    c.Removable s' x where
  datum := h.datum.later hw hs
  new := h.new
  values y u hy := (h.values y u hy).stays (stays_subst ht (hs.spares hw _) hy).2
  encoded := h.encoded
  formulas q hq := (h.formulas q hq).stays (stays_formula ht hc.registry (hs.spares hw _) hq)

/-- In a well-formed store a live term avoids a constant if the constant does not occur in it. -/
theorem avoids_of_occurs (hw : s.Wf) (hx : s.Datum x) (ht : ∃ ty, s.Has t ty)
    (hno : s.occurs x t = false) :
    s.Avoids (· = x) t := by
  obtain ⟨ty, n, ty', hn⟩ := Store.node_of_isUninterpreted hx.const
  obtain ⟨_, htn⟩ := ht
  refine (Store.avoids_iff (X := (· = x)) hw ⟨_, htn.node⟩ fun y hy => hy ▸ hx.positive).mpr
    fun y hy hbelow => ?_
  subst hy
  rw [← Store.occurs_iff hw ⟨_, hn⟩, hno] at hbelow
  cases hbelow

/-- A constant that passes the check is a datum that does not occur in what is put for it. -/
theorem datum_of_canEliminate (h : c.canEliminate s x v = true) :
    s.Datum x ∧ s.occurs x v = false := by
  simp only [canEliminate, Bool.and_eq_true, Bool.not_eq_true'] at h
  obtain ⟨⟨⟨⟨⟨⟨⟨⟨hpos, hconst⟩, hfun⟩, -⟩, -⟩, hoccurs⟩, -⟩, -⟩, -⟩ := h
  exact ⟨⟨hpos, hconst, hfun⟩, hoccurs⟩

/-- Nothing refers to a constant that passes the check. -/
theorem removable_of_canEliminate (hw : s.Wf) (hc : c.Ok s) (ht : c.Typed s)
    (h : c.canEliminate s x v = true) :
    c.Removable s x ∧ s.occurs x v = false := by
  obtain ⟨hdatum, hoccurs⟩ := datum_of_canEliminate h
  simp only [canEliminate, Bool.and_eq_true, Bool.not_eq_true'] at h
  obtain ⟨⟨⟨⟨⟨-, hnew⟩, hencoded⟩, -⟩, hvalues⟩, -⟩ := h.1
  have hquant := h.2
  refine ⟨⟨hdatum, by simpa using hnew, fun y u hy => ?_, fun henc => ?_, fun q hq => ?_⟩, hoccurs⟩
  · obtain ⟨ty, -, hu⟩ := ht.subst hy
    refine avoids_of_occurs hw hdatum ⟨ty, hu⟩ ?_
    rw [List.any_eq_false] at hvalues
    simpa using hvalues u (mem_values.mpr ⟨y, hy⟩)
  · rw [(isEncoded_iff hc).mpr henc] at hencoded
    cases hencoded
  · refine avoids_of_occurs hw hdatum ⟨_, (ht.solver.constraints q hq).formula⟩ ?_
    rw [hc.registry.quant?] at hquant
    simp only [Option.any_some, Quant.Solver.mentions, Array.any_eq_false] at hquant
    obtain ⟨i, hi, rfl⟩ := Array.mem_iff_getElem.mp hq
    simpa using hquant i hi

end Context
end Entail
