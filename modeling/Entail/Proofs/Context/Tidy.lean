import Entail.Proofs.Context.Eliminated
import Entail.Proofs.Context.References

/-!
# Variables that are given out

A context is tidy when its terms are typed, its references are to variables that stand for terms,
and nothing refers to eliminated constants. While a formula is encoded the definitions do not
change; so the literals that come back, of terms without eliminated constants, are of variables that
stand for terms, and so are the outputs of gates.
-/

namespace Entail

open Context

namespace Context

variable {s : Store} {c : Context} {t : Term}

/-- Where a term has its variable after it was given out. -/
theorem term?_atom (hc : c.vars.Ok) (t : Term) {v : Nat} {u : Term} :
    (c.atom t).2.vars.term? v = some u ↔
      c.vars.term? v = some u ∨ v = (c.atom t).1.var ∧ u = t := by
  obtain ⟨-, hterm, hsame | ⟨-, hfree, hget, -⟩⟩ := hc.get t
  all_goals
    show (c.vars.get t).2.term? v = some u ↔ c.vars.term? v = some u ∨
      v = (Literal.pos (c.vars.get t).1).var ∧ u = t
    rw [Literal.var_pos]
  · rw [hsame] at hterm ⊢
    refine ⟨.inl, fun h => h.elim id ?_⟩
    rintro ⟨rfl, rfl⟩
    exact hterm
  · rw [hget]
    split
    next heq =>
      subst heq
      simp [hfree, eq_comm]
    next hne => simp [hne]

/-- References stay in order when a term gets a variable. -/
theorem Refers.atom (h : c.Refers s) (hc : c.vars.Ok) (t : Term) (aux : Std.HashSet Term) :
    Refers s { (c.atom t).2 with aux } := by
  have hvars {v : Nat} {u : Term} (hv : c.vars.term? v = some u) :
      (c.atom t).2.vars.term? v = some u :=
    (term?_atom hc t).mpr (.inl hv)
  have hlive {v : Nat} (hv : c.Live v) : Live { (c.atom t).2 with aux } v := hv.imp fun _ => hvars
  have hknown : (c.atom t).2.known = c.known ∧ (c.atom t).2.vars = c.vars ∨
      c.vars.term? (c.atom t).1.var = none ∧
        (c.atom t).2.known = c.known ++ [(c.atom t).1.var] := by
    obtain ⟨-, -, hsame | ⟨-, hfree, -, hheard⟩⟩ := hc.get t
    · refine .inl ⟨?_, hsame⟩
      show c.created.toList ++ (c.vars.get t).2.heard.toList.map (·.var) = _
      rw [hsame]
      rfl
    · have hvar : (c.atom t).1.var = (c.vars.get t).1 := Literal.var_pos _
      rw [hvar]
      exact .inr ⟨hfree, Workspace.known_get t c hheard⟩
  exact {
    truth := hlive h.truth
    lits := fun hp => hlive (h.lits hp)
    bits := fun ht => (h.bits ht).mono fun _ => hlive
    core := h.core.mono fun _ => hlive
    egraph := h.egraph.mono fun _ => hlive
    atoms := fun hv => by
      obtain ⟨u, hu, hstands⟩ := h.atoms hv
      exact ⟨u, hvars hu, hstands⟩
    nodup := by
      show (c.atom t).2.known.Nodup
      rcases hknown with ⟨heq, -⟩ | ⟨hfree, heq⟩
      · exact heq ▸ h.nodup
      · rw [heq, List.nodup_append]
        refine ⟨h.nodup, List.nodup_singleton _, fun v hv u hu hne => ?_⟩
        obtain rfl := List.mem_singleton.mp hu
        obtain ⟨x, hx⟩ := h.known.mp (hne ▸ hv)
        rw [hfree] at hx
        cases hx
    known := fun {v} => by
      show v ∈ (c.atom t).2.known ↔ ∃ u, (c.atom t).2.vars.term? v = some u
      rcases hknown with ⟨heq, hsame⟩ | ⟨-, heq⟩
      · rw [heq, hsame]
        exact h.known
      · simp only [heq, List.mem_append, List.mem_singleton, h.known, Live,
          term?_atom hc t, exists_or]
        simp }

/-- Giving a formula that mentions no eliminated constant its variable keeps the elimination in
order. -/
theorem Eliminates.atom (h : c.Eliminates s) (hc : c.vars.Ok) (ht : s.Avoids c.Eliminated t)
    (aux : Std.HashSet Term) :
    Eliminates s { (c.atom t).2 with aux } := by
  refine h.of_ctx id (fun {u} hu => ?_) fun q hq => .inl hq
  rcases hu with ⟨v, hv⟩ | hu
  · rcases (term?_atom hc t).mp hv with hv | ⟨-, rfl⟩
    · exact .inl (.inl ⟨v, hv⟩)
    · exact .inr ht
  · exact .inl (.inr hu)

end Context

/-- Whether the e-graph says what a variable for the formula means: equalities and boolean
applications. -/
def Store.IsAtomic (s : Store) (t : Term) : Prop :=
  (∃ a b, s.shape t = .eq a b) ∨ ∃ f args, s.shape t = .app f args

namespace Workspace

variable {fixed : Prop} {w w' w'' : Workspace} {t : Term} {ty : Ty} {v : Nat} {ls : List Literal}

/-- A term of the store stays atomic or not in every later store. -/
theorem isAtomic_iff_of_later {s s' : Store} (hs : Store.Later s s') (ht : ∃ ty, s.Has t ty) :
    s'.IsAtomic t ↔ s.IsAtomic t := by
  unfold Store.IsAtomic
  rw [shape_eq_of_later hs ht]

/-- Tables fit together and hold typed terms; variables that are mentioned stand for terms, and
eliminated constants are not mentioned. -/
structure Tidy (w : Workspace) : Prop where
  ok : w.Ok
  typed : w.ctx.Typed w.store
  refers : w.ctx.Refers w.store
  gone : w.ctx.Eliminates w.store

/-- Nodes and atoms stay, and a variable that is new has an atom if its term is an equality or an
application. -/
structure Binds (w w' : Workspace) : Prop where
  nodes : w.ctx.registry.egraph.nodes.toList <+: w'.ctx.registry.egraph.nodes.toList
  atoms : ∀ {v : Nat} {atom : Egraph.Atom}, w.ctx.registry.egraph.atoms[v]? = some atom →
    w'.ctx.registry.egraph.atoms[v]? = some atom
  fresh : ∀ {v : Nat} {t : Term}, w'.ctx.vars.term? v = some t → w.ctx.vars.term? v = some t ∨
    (w'.store.IsAtomic t → ∃ atom, w'.ctx.registry.egraph.atoms[v]? = some atom)

/-- A step that keeps variables, nodes and atoms binds nothing new. -/
theorem Binds.of_same (hvars : ∀ v, w'.ctx.vars.term? v = w.ctx.vars.term? v)
    (hnodes : w'.ctx.registry.egraph.nodes = w.ctx.registry.egraph.nodes)
    (hatoms : w'.ctx.registry.egraph.atoms = w.ctx.registry.egraph.atoms) : Binds w w' where
  nodes := hnodes ▸ List.prefix_rfl
  atoms hv := hatoms ▸ hv
  fresh hv := .inl (hvars _ ▸ hv)

theorem Binds.trans (h : Binds w w') (h' : Binds w' w'') (hs : Store.Later w'.store w''.store)
    (hw' : w'.ctx.Ok w'.store) : Binds w w'' where
  nodes := h.nodes.trans h'.nodes
  atoms hv := h'.atoms (h.atoms hv)
  fresh hv := (h'.fresh hv).elim (fun hv => (h.fresh hv).imp_right fun hbound ht =>
    (hbound ((isAtomic_iff_of_later hs (hw'.live hv)).mp ht)).imp fun _ => h'.atoms) .inr

/-- What is seen as of open marks is the same, variables stand for the terms they stood for, and the
end is tidy. The definitions may have to stay. -/
structure Grows (fixed : Prop) (w w' : Workspace) : Prop where
  keeps : Keeps w w'
  tidy : w'.Tidy
  truth : w'.ctx.trueLit = w.ctx.trueLit
  vars : ∀ {v t}, w.ctx.vars.term? v = some t → w'.ctx.vars.term? v = some t
  subst : fixed → w'.ctx.subst = w.ctx.subst
  binds : Binds w w'

/-- The steps that grow the tidy workspaces compose. -/
theorem grows_frame : Frame Tidy (Grows fixed) where
  refl h := ⟨.refl h.ok, h, rfl, id, fun _ => rfl, .of_same (fun _ => rfl) rfl rfl⟩
  trans h h' := ⟨h.keeps.trans h'.keeps, h'.tidy, h'.truth.trans h.truth, fun hv =>
    h'.vars (h.vars hv),
    fun hf => (h'.subst hf).trans (h.subst hf), h.binds.trans h'.binds h'.keeps.store h.tidy.ok.ctx⟩
  stable _ h := h.tidy

/-- No eliminated constant occurs in the term. -/
def Clean (w : Workspace) (t : Term) : Prop := w.store.Avoids w.ctx.Eliminated t

namespace Grows

theorem weaken (h : Grows True w w') : Grows fixed w w' :=
  { h with subst := fun _ => h.subst trivial }

theorem live (h : Grows fixed w w') (hv : w.ctx.Live v) : w'.ctx.Live v := hv.imp fun _ => h.vars

/-- Literals of live variables are of live variables still after a step. -/
theorem overLive (h : Grows fixed w w') (hls : Search.Over w.ctx.Live ls) :
    Search.Over w'.ctx.Live ls :=
  hls.mono fun _ => h.live

theorem has (h : Grows fixed w w') (ht : w.store.Has t ty) : w'.store.Has t ty :=
  h.keeps.store.ext.has ht

/-- A clean term stays clean where nothing is eliminated. -/
theorem clean (h : Grows True w w') (ht : w.Clean t) : w'.Clean t := by
  unfold Clean Eliminated
  rw [h.subst trivial]
  exact ht.retains h.keeps.store.retains

end Grows

namespace Tidy

variable (h : w.Tidy)

include h

theorem since : Since True w.store w := ⟨h.ok, fun _ => h.typed, .refl _⟩

/-- A step that leaves references and definitions in order. -/
theorem grows (hstep : TypedStep True w w') (hrefers : w'.ctx.Refers w'.store)
    (hgone : w'.ctx.Eliminates w'.store) (htruth : w'.ctx.trueLit = w.ctx.trueLit)
    (hvars : ∀ {v t}, w.ctx.vars.term? v = some t → w'.ctx.vars.term? v = some t)
    (hsubst : fixed → w'.ctx.subst = w.ctx.subst) (hbinds : Binds w w') : Grows fixed w w' :=
  ⟨hstep.step.keeps, ⟨step_frame.stable h.ok hstep.step, hstep.typed trivial, hrefers, hgone⟩,
    htruth, hvars, hsubst,
    hbinds⟩

/-- A step of the core alone grows the workspace, if it stays over the live variables. -/
theorem grows_core {core : Core} (hstep : TypedStep True w ⟨w.store, { w.ctx with core }⟩)
    (hover : core.Over w.ctx.Live) : Grows fixed w ⟨w.store, { w.ctx with core }⟩ :=
  h.grows hstep { h.refers with core := hover } { h.gone with } rfl id (fun _ => rfl)
    (.of_same (fun _ => rfl) rfl rfl)

/-- A step of the store alone grows the workspace. -/
theorem grows_built {store : Store} (hs : Store.Built w.store store) :
    Grows fixed w ⟨store, w.ctx⟩ := by
  refine h.grows (h.since.built hs) (h.refers.of_shape fun ht => ?_) ?_ rfl id (fun _ => rfl)
    (.of_same (fun _ => rfl) rfl rfl)
  · exact shape_eq_of_later hs.later (h.ok.ctx.live ht)
  · exact h.gone.later h.typed h.ok.ctx h.ok.store hs.later.ext

end Tidy
end Workspace

namespace Work

open Workspace

variable {α β : Type} {fixed : Prop} {w : Workspace} {t : Term} {l a b c : Literal}
  {as bs lits : List Literal}

/-- The variable of the literal stands for a term. -/
def Knows (l : Literal) (w : Workspace) : Prop := w.ctx.Live l.var

/-- The variables of the word stand for terms. -/
def KnowsAll (ls : List Literal) (w : Workspace) : Prop := Search.Over w.ctx.Live ls

/-- A literal is known with its negation. -/
theorem Knows.neg (h : Knows l w) : Knows l.neg w := by
  unfold Knows
  rwa [Literal.var_neg]

theorem Knows.negIf (h : Knows l w) (flip : Bool) : Knows (l.negIf flip) w := by
  cases flip with
  | false => exact h
  | true => exact h.neg

theorem knowsAll_pair (ha : Knows a w) (hb : Knows b w) : KnowsAll [a, b] w :=
  List.forall_mem_cons.mpr ⟨ha, List.forall_mem_singleton.mpr hb⟩

/-! ## Primitive operations -/

theorem grows_look_bind {f : Store → Context → β} {g : β → Work α} {Q : α → Workspace → Prop}
    (h : Leads (Grows fixed) w (g (f w.store w.ctx)) Q) : Leads (Grows fixed) w (look f >>= g) Q :=
  h

theorem grows_update {f : Context → α × Context} {Q : α → Workspace → Prop}
    (h : Grows fixed w ⟨w.store, (f w.ctx).2⟩) (hQ : Q (f w.ctx).1 ⟨w.store, (f w.ctx).2⟩) :
    Leads (Grows fixed) w (update f) Q := ⟨h, hQ⟩

section

variable (hw : w.Tidy)

include hw

/-- One call after another: the second starts from a tidy workspace that grew out of the first. -/
theorem grows_bind {x : Work β} {f : β → Work α} {Q : β → Workspace → Prop}
    {T : α → Workspace → Prop} (h : Leads (Grows fixed) w x Q)
    (hf : ∀ b w', w'.Tidy → Grows fixed w w' → Q b w' → Leads (Grows fixed) w' (f b) T) :
    Leads (Grows fixed) w (x >>= f) T := Leads.bind grows_frame hw h hf

theorem grows_pure {Q : α → Workspace → Prop} {x : α} (hx : Q x w) :
    Leads (Grows fixed) w (pure x : Work α) Q :=
  Leads.pure grows_frame hw hx

theorem grows_throw {Q : α → Workspace → Prop} (e : Failure) :
    Leads (Grows fixed) w (throw e : Work α) Q :=
  Leads.throw grows_frame hw e

/-- What a constructor answers it answers in the workspace, with the context as it was. -/
theorem grows_onStore {op : Store.Op α} {Q : α → Store → Prop} (hop : Moves Store.Wf Store.Built op)
    (hQ : Store.Builds w.store op Q) :
    Leads (Grows fixed) w (onStore op) fun x w' => w'.ctx = w.ctx ∧ Q x w'.store := by
  have hs := hop w.store hw.ok.store
  unfold Leads Ends
  cases hrun : op w.store with
  | ok x s =>
    rw [hrun] at hs
    rw [onStore_of_ok hrun]
    exact ⟨hw.grows_built hs, rfl, (hQ.of_ok hrun).2⟩
  | error e s =>
    rw [hrun] at hs
    rw [onStore_of_error hrun]
    exact hw.grows_built hs

theorem grows_trueLit : Leads (Grows fixed) w trueLit Knows :=
  ⟨grows_frame.refl hw, hw.refers.truth⟩

theorem grows_falseLit : Leads (Grows fixed) w falseLit Knows :=
  ⟨grows_frame.refl hw, Knows.neg (l := w.ctx.trueLit) hw.refers.truth⟩

/-- A clause of known literals keeps the core over the live variables. -/
theorem grows_clause (hlits : KnowsAll lits w) :
    Leads (Grows fixed) w (clause lits) fun _ _ => True :=
  ⟨hw.grows_core (steps_clause lits w hw.since) (hw.refers.core.addClause hw.ok.ctx.core hlits _),
    trivial⟩

theorem grows_clauses {cs : List (List Literal)} (hcs : ∀ lits ∈ cs, KnowsAll lits w) :
    Leads (Grows fixed) w (clauses cs) fun _ _ => True :=
  Leads.forM grows_frame hw fun lits hl _ hw' hr => grows_clause hw' (hr.overLive (hcs lits hl))

/-- A term that is no equality and no application gets a variable that needs no atom. -/
theorem binds_atom (hplain : ¬ w.store.IsAtomic t) (aux : Std.HashSet Term) :
    Binds w ⟨w.store, { (w.ctx.atom t).2 with aux }⟩ where
  nodes := List.prefix_rfl
  atoms := id
  fresh hv := ((term?_atom hw.ok.ctx.vars t).mp hv).imp id fun heq ht => absurd (heq.2 ▸ ht) hplain

/-- A term without eliminated constants gets its variable. -/
theorem grows_atom (ht : ∃ ty, w.store.Has t ty) (hclean : w.Clean t)
    (hplain : ¬ w.store.IsAtomic t) :
    Leads (Grows fixed) w (atom t) fun l w' => w'.ctx.vars.term? l.var = some t := by
  refine ⟨hw.grows (steps_atom ht w hw.since) (hw.refers.atom hw.ok.ctx.vars t w.ctx.aux)
    (hw.gone.atom hw.ok.ctx.vars hclean w.ctx.aux) rfl ?_ (fun _ => rfl)
      (binds_atom hw hplain w.ctx.aux), ?_⟩
  · exact fun hv => (term?_atom hw.ok.ctx.vars t).mpr (.inl hv)
  · exact (term?_atom hw.ok.ctx.vars t).mpr (.inr ⟨rfl, rfl⟩)

/-- A gate output is a new constant, so it was not eliminated. -/
theorem grows_freshLit : Leads (Grows fixed) w freshLit Knows := by
  have hbuilt := (Store.Orderly.newConst .bool).built (Store.newConst_moves .bool)
  have hkeys : ∀ x, w.ctx.Eliminated x → ∃ n, w.store.node? x = some n := fun x hx => by
    obtain ⟨ty, n, ty', hn⟩ := Store.node_of_isUninterpreted (hw.gone.datum hx).const
    exact ⟨_, hn⟩
  have hnew := Leads.and (Store.newConst_builds hw.ok.store .bool)
    (Store.newConst_avoids hw.ok.store hkeys .bool)
  refine grows_bind hw (grows_onStore hw hbuilt hnew) fun t w' hw' _ ⟨hctx, ⟨hdead, hneg, hnode, _⟩,
    _, havoids⟩ => ?_
  have hnone : w'.ctx.vars.find? t = none := by
    cases hfind : w'.ctx.vars.find? t with
    | none => rfl
    | some v =>
      rw [hctx, hw.ok.ctx.vars.find?_eq_some] at hfind
      obtain ⟨ty, ⟨shape, hlive⟩, -⟩ := hw.ok.ctx.live hfind
      rw [hdead] at hlive
      cases hlive
  have hclean : w'.Clean t := by
    unfold Clean
    rw [hctx]
    exact havoids
  have hplain : ¬ w'.store.IsAtomic t := by
    simp [Store.IsAtomic, Store.shape, Store.shape?, hnode]
  have hstep := step_vars hw'.ok ⟨.bool, has_of_node hneg hnode⟩ (.inr ⟨hnone, rfl⟩)
  refine ⟨hw'.grows (hw'.since.step hstep fun ht => { ht with })
    (hw'.refers.atom hw'.ok.ctx.vars t _)
    (hw'.gone.atom hw'.ok.ctx.vars hclean _) rfl ?_ (fun _ => rfl) (binds_atom hw' hplain _), ?_⟩
  · exact fun hv => (term?_atom hw'.ok.ctx.vars t).mpr (.inl hv)
  · exact ⟨t, (term?_atom hw'.ok.ctx.vars t).mpr (.inr ⟨rfl, rfl⟩)⟩

end
end Work
end Entail
