import Entail.Proofs.Context.TidyRuns

/-!
# Variables that are given out again

A variable that was given out in a scope is given out again once the scope is closed. Nothing that
is left refers to it then: the clauses and units of a scope mention the variables of this scope and
of those around it only, and these stand for terms as long as the scope is open.
-/

namespace Entail

namespace Context

variable {s : Store} {c : Context} {m : Mark} {v k : Nat}

/-- The scope that a variable was given out in: how many of the open scopes were open already. -/
def creationScope (c : Context) (v : Nat) : Nat :=
  c.scopes.countP fun mark => mark.created ≤ c.known.idxOf v

/-- Whatever a context refers to by a variable is a variable that stands for a term. Clauses and
units do not mention variables of inner scopes, and an atom is that of the term that its variable
stands for. -/
structure Anchored (s : Store) (c : Context) : Prop where
  clause : ∀ {n : Nat} {cl : Search.Clause}, (c.core.clauses[n]?).join = some cl →
    ∀ l ∈ cl.lits, c.Live l.var ∧ c.creationScope l.var ≤ cl.scope
  unit : ∀ u ∈ c.core.units, c.Live u.1.var ∧ c.creationScope u.1.var ≤ u.2
  literal : ∀ {p : Term} {l : Literal}, c.lits[p]? = some l → c.Live l.var
  word : ∀ {t : Term} {word : List Literal}, c.bits[t]? = some word → ∀ l ∈ word, c.Live l.var
  atom : ∀ {v : Nat} {atom : Egraph.Atom}, c.registry.egraph.atoms[v]? = some atom →
    ∃ t, c.vars.term? v = some t ∧ c.vars.find? t = some v ∧ Stands s c.registry.egraph.nodes t atom
  nodup : (c.created.toList ++ c.vars.heard.toList.map (·.var)).Nodup
  known : ∀ {v : Nat}, v ∈ c.created.toList ++ c.vars.heard.toList.map (·.var) ↔ c.Live v

/-- A variable as of a mark is among the first ones that were given out. -/
theorem idxOf_lt_of_live (hlive : (c.upTo m).Live v) (hv : v ∈ c.known) :
    c.known.idxOf v < m.scope.created := by
  obtain ⟨t, ht⟩ := hlive
  change Entail.upTo c.known m.scope.created id c.vars.term? v = some t at ht
  unfold Entail.upTo at ht
  split at ht
  · cases ht
  next hdropped =>
    refine Nat.lt_of_not_le fun hle => hdropped ?_
    have hlt := List.idxOf_lt_length_of_mem hv
    refine List.mem_iff_getElem?.mpr ⟨c.known.idxOf v - m.scope.created, ?_⟩
    rw [List.getElem?_drop, Nat.add_sub_cancel' hle, List.getElem?_eq_getElem hlt,
      List.getElem_idxOf]
    rfl

/-- Scopes that are not outside of an open mark were opened with more variables. -/
theorem created_le_of_mem_drop (hc : c.Ok s) (hm : m.Open c) {a : Scope}
    (ha : a ∈ c.scopes.reverse.drop m.depth) :
    m.scope.created ≤ a.created := by
  have hsorted : (c.scopes.reverse.drop m.depth).Pairwise fun a b : Scope => a ≤ b :=
    (List.pairwise_reverse.mpr (List.pairwise_cons.mp hc.nested).2).sublist (List.drop_sublist _ _)
  have hhead : (c.scopes.reverse.drop m.depth)[0]? = some m.scope := by
    rw [List.getElem?_drop, Nat.add_zero]
    exact hm.scope
  cases hdrop : c.scopes.reverse.drop m.depth with
  | nil =>
    rw [hdrop] at ha
    cases ha
  | cons b rest =>
    rw [hdrop] at ha hsorted hhead
    obtain rfl : b = m.scope := Option.some.inj hhead
    rcases List.mem_cons.mp ha with rfl | ha
    · exact Nat.le_refl _
    · exact ((List.pairwise_cons.mp hsorted).1 a ha).2.2.2

/-- A variable that is there as of the mark of a scope was given out before the scope was opened. -/
theorem creationScope_le (hc : c.Ok s) (hv : v ∈ c.known)
    (hlive : ∀ {m : Mark}, m.Open c → m.depth = k → (c.upTo m).Live v) : c.creationScope v ≤ k := by
  rcases Nat.lt_or_ge k c.depth with hlt | hge
  · obtain ⟨m, hm, rfl⟩ := hc.exists_open hlt
    have hidx := idxOf_lt_of_live (hlive hm rfl) hv
    have hnone : (c.scopes.reverse.drop m.depth).countP
        (fun mark => mark.created ≤ c.known.idxOf v) = 0 := by
      refine List.countP_eq_zero.mpr fun a ha => ?_
      have hle := created_le_of_mem_drop hc hm ha
      rw [decide_eq_true_eq]
      omega
    calc c.creationScope v
        = c.scopes.reverse.countP (fun mark => mark.created ≤ c.known.idxOf v) :=
          (List.countP_reverse).symm
      _ = (c.scopes.reverse.take m.depth).countP (fun mark => mark.created ≤ c.known.idxOf v) := by
          rw [← List.take_append_drop m.depth c.scopes.reverse, List.countP_append, hnone,
            List.take_append_drop]
          rfl
      _ ≤ (c.scopes.reverse.take m.depth).length := List.countP_le_length
      _ ≤ m.depth := List.length_take_le _ _
  · exact Nat.le_trans List.countP_le_length hge

end Context

namespace Workspace

open Context

variable {w : Workspace} {m : Mark}

/-- A context that is kempt refers to nothing that is gone. -/
theorem Kempt.anchored (h : w.Kempt) : w.ctx.Anchored w.store := by
  have hrefers := h.tidy.refers
  have hscope {v k : Nat} (hv : w.ctx.Live v) (hmark : ∀ {m : Mark}, m.Open w.ctx → m.depth = k →
    (w.ctx.upTo m).Live v) :
      w.ctx.Live v ∧ w.ctx.creationScope v ≤ k :=
    ⟨hv, creationScope_le h.tidy.ok.ctx (hrefers.known.mpr hv) hmark⟩
  refine ⟨fun {n cl} hn l hl => ?_, fun u hu => ?_, hrefers.lits, fun ht l hl =>
    hrefers.bits ht l hl, fun hv => ?_,
    hrefers.nodup, hrefers.known⟩
  · have hcontent : w.ctx.core.db.clause? n = some cl.content := by
      rw [Core.clause?_db, hn]
      rfl
    refine hscope (hrefers.core.clause hn l hl) fun {m} hm hdepth => ?_
    have hseen : (w.ctx.upTo m).clauses.clauses n = some cl.content := by
      show (w.ctx.core.db.clause? n).filter _ = _
      rw [hcontent, Option.filter_eq_some_iff]
      exact ⟨rfl, decide_eq_true hdepth.ge⟩
    exact (h.marks hm).clauses.clauses hseen l (Multiset.mem_coe.mpr hl)
  · refine hscope (hrefers.core.db.units u (Array.mem_toList_iff.mpr hu)) fun {m} hm hdepth => ?_
    have hseen : u ∈ (w.ctx.upTo m).clauses.units :=
      List.mem_filter.mpr ⟨Array.mem_toList_iff.mpr hu, decide_eq_true hdepth.ge⟩
    exact (h.marks hm).clauses.units u hseen
  · obtain ⟨t, ht, hstands⟩ := hrefers.atoms hv
    exact ⟨t, ht, h.tidy.ok.ctx.vars.find?_eq_some.mpr ht, hstands⟩

/-- However a context was used, nothing in it refers to a variable that is gone. -/
theorem anchored_of_used (h : Used w) : w.ctx.Anchored w.store := (kempt_of_used h).anchored

/-- The variable of a constant goes to another one, after a check was stopped and the scope of the
first was closed. -/
theorem anchored_of_used_closedScope :
    let constants : Store.Op Term := do
      let _ ← Store.newConst .bool
      Store.newConst .bool
    let w := after ⟨endState (constants .empty), .new { mode := .interactive }⟩
      [.push, .assert [.ofIndex 2], .check {} .atStart 1, .pop, .assert [.ofIndex 3],
        .check {} .never 8]
    Used w ∧ w.ctx.Anchored w.store := by
  intro constants w
  have hconst := (Store.Orderly.newConst .bool).built (Store.newConst_moves .bool)
  have hconstants : Moves Store.Wf Store.Built constants := Store.built_frame.bind hconst fun _ =>
    hconst
  have hw : (endState (constants .empty)).Wf := (hconstants .empty Store.wf_empty).later.wf
  have hused : Used w := used_after hw _ _
  exact ⟨hused, anchored_of_used hused⟩

end Workspace
end Entail
