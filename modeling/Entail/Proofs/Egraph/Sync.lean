import Entail.Proofs.Egraph.Settle
import Mathlib.Data.List.Induction

/-!
# New nodes

A new node comes into a class of its own, so representatives stay as they are. When there is an
application of its signature already, the equality of the two waits. At the start of a search every
node is alone, and no application is there twice: nothing waits.
-/

namespace Entail.Egraph

variable {g : Egraph} {R : Nat → Nat → Prop} {es : List Edge} {n : Nat}
  {parents : Array (Array Nat)}

/-- `g` with node `n` in a class of its own and with other lists of applications. -/
def withClass (g : Egraph) (n : Nat) (parents : Array (Array Nat)) : Egraph :=
  g.modifyClasses fun k =>
    { k with
      root := k.root.push n
      next := k.next.push n
      size := k.size.push 1
      parents
      adj := k.adj.push #[] }

/-- The lists of applications, with `n` at the end of those of the classes of its arguments, once
for each argument. -/
structure Lists (g : Egraph) (n : Nat) (args : List Nat) (parents : Array (Array Nat)) : Prop where
  size : parents.size = g.known + 1
  entries : ∀ r, (parents.getD r #[]).toList = (g.parentsOf r).toList ++
    if r ≤ g.known then List.replicate (args.countP (g.root · == r)) n else []

namespace Lists

variable {args : List Nat} {r p : Nat} (h : g.Lists n args parents)

include h

theorem mem_iff : p ∈ parents.getD r #[] ↔
    p ∈ g.parentsOf r ∨ r ≤ g.known ∧ p = n ∧ ∃ a ∈ args, g.root a = r := by
  rw [← Array.mem_toList_iff, h.entries, List.mem_append, Array.mem_toList_iff]
  refine or_congr_right ?_
  split
  next hle =>
    rw [List.mem_replicate, Nat.ne_zero_iff_zero_lt, List.countP_pos_iff]
    simp [hle, and_comm]
  next hlt => simp [hlt]

theorem kept (hp : p ∈ g.parentsOf r) : p ∈ parents.getD r #[] := h.mem_iff.mpr (.inl hp)

theorem listed {a : Nat} (ha : a ∈ args) (hle : g.root a ≤ g.known) :
    n ∈ parents.getD (g.root a) #[] :=
  h.mem_iff.mpr (.inr ⟨hle, rfl, a, ha, rfl⟩)

theorem new (hp : p ∈ parents.getD r #[]) : p ∈ g.parentsOf r ∨ p = n :=
  (h.mem_iff.mp hp).imp_right fun hor => hor.2.1

end Lists

theorem root_withClass (hn : n = g.known) (parents : Array (Array Nat)) :
    (g.withClass n parents).root = g.root := by
  funext m
  show (g.classes.root.push n).getD m m = g.classes.root.getD m m
  rw [Array.getD_eq_getD_getElem?, Array.getD_eq_getD_getElem?, Array.getElem?_push]
  split
  next heq =>
    have hnone : g.classes.root[m]? = none := Array.getElem?_eq_none (Nat.le_of_eq heq.symm)
    rw [hnone, hn, heq]
    rfl
  next => rfl

theorem known_withClass (g : Egraph) (n : Nat) (parents : Array (Array Nat)) :
    (g.withClass n parents).known = g.known + 1 := Array.size_push n

/-- A node enters the lists of the classes of its arguments, one after the other. -/
theorem exists_lists (ht : g.Tables) (hn : n = g.known) (args : List Nat) :
    ∃ parents, g.Lists n args parents ∧
    args.foldl (fun g a => g.modifyClasses fun k =>
      { k with parents := k.parents.modify (k.root.getD a a) (·.push n) })
      (g.withClass n (g.classes.parents.push #[])) = g.withClass n parents := by
  induction args using List.reverseRecOn with
  | nil =>
    have hpush (r : Nat) : (g.classes.parents.push #[]).getD r #[] = g.parentsOf r := by
      rw [parentsOf, Array.getD_eq_getD_getElem?, Array.getD_eq_getD_getElem?, Array.getElem?_push]
      split
      next heq =>
        have hnone : g.classes.parents[r]? = none := Array.getElem?_eq_none (Nat.le_of_eq heq.symm)
        rw [hnone]
        rfl
      next => rfl
    refine ⟨g.classes.parents.push #[], ⟨?_, fun r => ?_⟩, rfl⟩
    · rw [Array.size_push, ht.size_parents]
    · simp [hpush]
  | append_singleton args a ih =>
    obtain ⟨parents, hlists, heq⟩ := ih
    have hroot : (g.withClass n parents).classes.root.getD a a = g.root a :=
      congrFun (root_withClass hn parents) a
    have hentry (r : Nat) : ((parents.modify (g.root a) (·.push n)).getD r #[]).toList =
        (parents.getD r #[]).toList ++ if r ≤ g.known ∧ g.root a = r then [n] else [] := by
      have hsize : r < parents.size ↔ r ≤ g.known := by rw [hlists.size, Nat.lt_succ_iff]
      rw [Array.getD_eq_getD_getElem?, Array.getD_eq_getD_getElem?, Array.getElem?_modify]
      by_cases hr : r < parents.size
      · by_cases ha : g.root a = r <;> simp [ha, hr, hsize.mp hr]
      · simp [hr, hsize.not.mp hr]
    refine ⟨parents.modify (g.root a) (·.push n), ⟨?_, fun r => ?_⟩, ?_⟩
    · rw [Array.size_modify, hlists.size]
    · rw [hentry, hlists.entries, List.append_assoc, List.countP_append]
      by_cases hr : r ≤ g.known <;> by_cases ha :
        g.root a = r <;> simp [hr, ha, List.replicate_succ']
    · rw [List.foldl_append, heq, List.foldl_cons, List.foldl_nil]
      simp only [modifyClasses, hroot]
      rfl

theorem Tables.withClass (hg : g.Wf) (ht : g.Tables) (hn : n = g.known) (hlt : n < g.nodes.size)
    (hlists : g.Lists n (g.node n).args parents) : (g.withClass n parents).Tables where
  size_next := by
    rw [known_withClass, ← ht.size_next]
    exact Array.size_push n
  size_parents := by
    rw [known_withClass]
    exact hlists.size
  size_adj := by
    rw [known_withClass, ← ht.size_adj]
    exact Array.size_push _
  known_le := by
    rw [known_withClass, ← hn]
    exact hlt
  root_lt {m} hm := by
    rw [known_withClass] at hm ⊢
    rw [root_withClass hn]
    rcases Nat.lt_succ_iff_lt_or_eq.mp hm with hm | rfl
    · exact Nat.lt_succ_of_lt (ht.root_lt hm)
    · rw [root_of_known_le (Nat.le_refl _)]
      exact Nat.lt_succ_self _
  root_root m := by
    rw [root_withClass hn]
    exact ht.root_root m
  ring {r} hr hroot := by
    rw [known_withClass] at hr ⊢
    rw [root_withClass hn] at hroot ⊢
    -- old rings stay, and the new node is a ring by itself
    rcases Nat.lt_succ_iff_lt_or_eq.mp hr with hr | rfl
    · obtain ⟨l, hring, hmem⟩ := ht.ring hr hroot
      refine ⟨l, hring.push n, fun m => ?_⟩
      have hself : g.root g.known = g.known := root_of_known_le (Nat.le_refl _)
      rw [hmem, Nat.lt_succ_iff_lt_or_eq]
      refine and_congr_left fun hm => (or_iff_left ?_).symm
      rintro rfl
      exact Nat.lt_irrefl _ (hself ▸ hm ▸ hr)
    · have hnext : (g.classes.next.push n)[g.known]? = some g.known := by
        rw [Array.getElem?_push, ht.size_next, if_pos rfl, hn]
      refine ⟨[], isRing_singleton hnext, fun m => ?_⟩
      rw [List.mem_singleton, Nat.lt_succ_iff_lt_or_eq]
      constructor
      · rintro rfl
        exact ⟨.inr rfl, hroot⟩
      · rintro ⟨hm | hm, heq⟩
        · exact absurd (ht.root_lt hm) (heq ▸ Nat.lt_irrefl _)
        · exact hm
  parent {m a} hm ha := by
    rw [known_withClass] at hm
    rw [root_withClass hn]
    rcases Nat.lt_succ_iff_lt_or_eq.mp hm with hm | rfl
    · exact hlists.kept (ht.parent hm ha)
    · rw [← hn] at ha ⊢
      have hlt' : a < g.known := hn ▸ hg.args_lt ha hlt
      exact hlists.listed ha (Nat.le_of_lt (ht.root_lt hlt'))
  parent_lt {p r} hp := by
    rw [known_withClass]
    rcases hlists.new hp with hp | rfl
    · exact Nat.lt_succ_of_lt (ht.parent_lt hp)
    · exact hn ▸ Nat.lt_succ_self _

theorem Edge.Valid.withClass {e : Edge} (hn : n = g.known) (he : e.Valid g) :
    e.Valid (g.withClass n parents) := by
  have hle : g.known ≤ (g.withClass n parents).known := known_withClass g n parents ▸ Nat.le_succ _
  refine ⟨Nat.lt_of_lt_of_le he.a_lt hle, Nat.lt_of_lt_of_le he.b_lt hle, fun hr => ?_⟩
  obtain ⟨hp, hq, hpq⟩ := he.congruent hr
  refine ⟨Nat.lt_of_lt_of_le hp hle, Nat.lt_of_lt_of_le hq hle, ?_⟩
  rw [alike_iff, root_withClass hn]
  exact alike_iff.mp hpq

/-- The first node without a class is in no class of other nodes. -/
theorem Tables.lt_or_eq_of_root_eq (ht : g.Tables) {a b : Nat} (ha : a < g.known + 1)
    (hb : b < g.known + 1) (hab : g.root a = g.root b) : a < g.known ∧ b < g.known ∨ a = b := by
  have hself : g.root g.known = g.known := root_of_known_le (Nat.le_refl _)
  have halone {c : Nat} (hc : c < g.known) : g.root c ≠ g.root g.known := by
    rw [hself]
    exact Nat.ne_of_lt (ht.root_lt hc)
  rcases Nat.lt_succ_iff_lt_or_eq.mp ha with ha | rfl
  · rcases Nat.lt_succ_iff_lt_or_eq.mp hb with hb | rfl
    · exact .inl ⟨ha, hb⟩
    · exact absurd hab (halone ha)
  · rcases Nat.lt_succ_iff_lt_or_eq.mp hb with hb | rfl
    · exact absurd hab.symm (halone hb)
    · exact .inr rfl

/-- A node that is alone has no edges yet. -/
theorem Forest.withClass (hf : g.Forest) (ht : g.Tables) (hn : n = g.known) :
    (g.withClass n parents).Forest where
  valid he := by
    rw [root_withClass hn]
    exact ⟨(hf.valid he).1.withClass hn, (hf.valid he).2⟩
  ends {m i} hi := by
    have hadj : (g.classes.adj.push #[]).getD m #[] = g.classes.adj.getD m #[] := by
      rw [Array.getD_eq_getD_getElem?, Array.getD_eq_getD_getElem?, Array.getElem?_push]
      split
      next heq => simp [heq]
      next => rfl
    change i ∈ (g.classes.adj.push #[]).getD m #[] at hi
    rw [hadj] at hi
    exact hf.ends hi
  walk {a b} ha hb hab := by
    rw [known_withClass] at ha hb
    rw [root_withClass hn] at hab
    rcases ht.lt_or_eq_of_root_eq ha hb hab with ⟨ha, hb⟩ | rfl
    · obtain ⟨is, hwalk, hnodup⟩ := hf.walk ha hb hab
      refine ⟨is, hwalk.mono (fun {m i} (hi : i ∈ g.classes.adj.getD m #[]) => ?_) (fun he => he),
        hnodup⟩
      show i ∈ (g.classes.adj.push #[]).getD m #[]
      rw [Array.getD_eq_getD_getElem?] at hi ⊢
      rw [Array.getElem?_push]
      split
      next heq => simp [heq] at hi
      next => exact hi
    · exact ⟨[], rfl, List.nodup_nil⟩

/-- What a new node changes. -/
structure Added (g g' : Egraph) : Prop where
  sameNodes : SameNodes g g'
  known : g'.known = g.known + 1
  root : g'.root = g.root
  diseqs : g'.classes.diseqs = g.classes.diseqs
  levels : g'.classes.levels = g.classes.levels
  processed : g'.classes.processed = g.classes.processed

/-- The signature of a new node is entered, or the node waits to be merged with the application
that has it. -/
theorem exists_addToClasses_eq (ht : g.Tables) (hn : n = g.known) :
    ∃ parents, g.Lists n (g.node n).args parents ∧
    (g.signature? n = none ∧ g.addToClasses n = g.withClass n parents ∨
      ∃ key, g.signature? n = some key ∧
        ((∃ other, g.classes.sigs[key]? = some other ∧
            g.addToClasses n = (g.withClass n parents).modifyClasses fun k =>
              { k with pending := ⟨n, other, .congruence n other⟩ :: k.pending }) ∨
          g.classes.sigs[key]? = none ∧
            g.addToClasses n = (g.withClass n parents).modifyClasses fun k =>
              { k with sigs := k.sigs.insert key n })) := by
  obtain ⟨parents, hlists, hfold⟩ := exists_lists ht hn (g.node n).args
  have hsig : (g.withClass n parents).signature? n = g.signature? n := by
    rw [signature?, signature?, root_withClass hn]
    rfl
  refine ⟨parents, hlists, ?_⟩
  rw [← hsig, ← hfold]
  unfold addToClasses
  dsimp only
  split
  next hkey => exact .inl ⟨hkey, rfl⟩
  next key hkey =>
    refine .inr ⟨key, hkey, ?_⟩
    have hsigs : (g.withClass n parents).classes.sigs = g.classes.sigs := rfl
    rw [← hsigs, ← hfold, modifyClasses]
    split
    next other hother => exact .inl ⟨other, hother, rfl⟩
    next hnone => exact .inr ⟨hnone, rfl⟩

/-- The signature table is right again when it was before and knows the signature of the new
node. -/
theorem Signatures.of_new {g' : Egraph} {es' : List Edge} (hs : g.Signatures es) (hn : n = g.known)
    (hadded : Added g g') (hsub : es ⊆ es')
    (hkept : ∀ {key : Signature} {q : Nat}, g.classes.sigs[key]? = some q →
      g'.classes.sigs[key]? = some q)
    (hback : ∀ {key : Signature} {q : Nat}, g'.classes.sigs[key]? = some q →
      g.classes.sigs[key]? = some q ∨ q = n ∧ g.signature? n = some key)
    (hnew : ∀ {key}, g.signature? n = some key → ∃ q, g'.classes.sigs[key]? = some q ∧
      g'.Linked es' n q) :
    g'.Signatures es' := by
  have hsig (p : Nat) : g'.signature? p = g.signature? p := by
    rw [signature?, signature?, hadded.root, hadded.sameNodes.node_eq]
  refine ⟨fun {key p} hp => ?_, fun {key p} hp hkey => ?_⟩
  · rw [hadded.known, hsig]
    rcases hback hp with hold | ⟨rfl, hkey⟩
    · exact ⟨Nat.lt_succ_of_lt (hs.sound hold).1, (hs.sound hold).2⟩
    · exact ⟨hn ▸ Nat.lt_succ_self _, hkey⟩
  · rw [hadded.known] at hp
    rw [hsig] at hkey
    rcases Nat.lt_succ_iff_lt_or_eq.mp hp with hp | hp
    · obtain ⟨q, hq, hpq⟩ := hs.complete hp hkey
      refine ⟨q, hkept hq, hpq.imp (fun heq => ?_) fun e he => .of_mem (hsub he)⟩
      rwa [hadded.root]
    · obtain rfl : p = n := hp.trans hn.symm
      exact hnew hkey

/-- A new node enters its signature, or waits to be merged with the application that has it. -/
theorem Signatures.addToClasses (ht : g.Tables) (hs : g.Signatures g.classes.pending)
    (hn : n = g.known) :
    ∃ parents sigs waits, g.Lists n (g.node n).args parents ∧
      g.addToClasses n = (g.withClass n parents).modifyClasses
        (fun k => { k with sigs, pending := waits }) ∧
      (g.addToClasses n).Signatures waits ∧ ∀ e ∈ waits, e ∈ g.classes.pending ∨
        ∃ other, e = ⟨n, other, .congruence n other⟩ ∧ other < g.known ∧ g.Alike n other := by
  obtain ⟨parents, hlists, hcases⟩ := exists_addToClasses_eq ht hn
  have hadded (sigs : Std.HashMap Signature Nat) (waits : List Edge) :
      Added g ((g.withClass n parents).modifyClasses fun k => { k with sigs, pending := waits }) :=
    ⟨rfl, known_withClass g n parents, root_withClass hn parents, rfl, rfl, rfl⟩
  rcases hcases with ⟨hnone, heq⟩ | ⟨key, hkey, ⟨other, hother, heq⟩ | ⟨hnone, heq⟩⟩
  · -- not an application
    refine ⟨parents, g.classes.sigs, g.classes.pending, hlists, heq, ?_, fun e he => .inl he⟩
    rw [heq]
    refine hs.of_new hn (hadded g.classes.sigs g.classes.pending) (List.Subset.refl _) id .inl
      fun hkey => ?_
    rw [hnone] at hkey
    cases hkey
  · -- another application has the signature
    refine ⟨parents, g.classes.sigs, _, hlists, heq, ?_, fun e he => ?_⟩
    · rw [heq]
      refine hs.of_new hn (hadded g.classes.sigs _) (List.subset_cons_self _ _) id .inl
        fun {key'} hkey' => ?_
      obtain rfl : key = key' := Option.some.inj (hkey.symm.trans hkey')
      exact ⟨other, hother, .of_mem (e := ⟨n, other, .congruence n other⟩) List.mem_cons_self⟩
    · refine (List.mem_cons.mp he).symm.imp_right fun heq => ⟨other, heq, ?_⟩
      exact ⟨(hs.sound hother).1, key, hkey, (hs.sound hother).2⟩
  · -- the node stands for a new signature
    have hentry (key' : Signature) : (g.classes.sigs.insert key n)[key']? =
        if key = key' then some n else g.classes.sigs[key']? := by
      rw [Std.HashMap.getElem?_insert]
      simp
    refine ⟨parents, g.classes.sigs.insert key n, g.classes.pending, hlists, heq, ?_,
      fun e he => .inl he⟩
    rw [heq]
    refine hs.of_new hn (hadded (g.classes.sigs.insert key n) g.classes.pending)
      (List.Subset.refl _)
      (fun {key' q} hq => ?_) (fun {key' q} hq => ?_) fun {key'} hkey' => ?_
    · show (g.classes.sigs.insert key n)[key']? = some q
      rw [hentry, if_neg, hq]
      rintro rfl
      rw [hnone] at hq
      cases hq
    · change (g.classes.sigs.insert key n)[key']? = some q at hq
      rw [hentry] at hq
      split at hq
      next heq => exact .inr ⟨(Option.some.inj hq).symm, heq ▸ hkey⟩
      next => exact .inl hq
    · obtain rfl : key = key' := Option.some.inj (hkey.symm.trans hkey')
      refine ⟨n, ?_, .of_root rfl⟩
      show (g.classes.sigs.insert key n)[key]? = some n
      rw [hentry, if_pos rfl]

/-- A new node keeps the classes in order. -/
theorem Merging.addToClasses (hg : g.Wf) (hR : g.IsCongruence R) (h : Merging R g.classes.pending g)
    (hn : n = g.known) (hlt : n < g.nodes.size) :
    Merging R (g.addToClasses n).classes.pending (g.addToClasses n) ∧
    Added g (g.addToClasses n) := by
  obtain ⟨parents, sigs, waits, hlists, heq, hsigs, hwaits⟩ :=
    Signatures.addToClasses h.tables h.sigs hn
  have hroot := root_withClass hn parents
  have hknown := known_withClass g n parents
  have ht := h.tables.withClass hg hn hlt hlists
  have hf : (g.withClass n parents).Forest := h.forest.withClass h.tables hn
  have hsound {a b : Nat} (ha : a < (g.withClass n parents).known)
    (hb : b < (g.withClass n parents).known)
      (hab : (g.withClass n parents).root a = (g.withClass n parents).root b) : R a b := by
    rw [hknown] at ha hb
    rw [hroot] at hab
    rcases h.tables.lt_or_eq_of_root_eq ha hb hab with ⟨ha, hb⟩ | rfl
    · exact h.sound ha hb hab
    · exact hR.equiv.refl a
  have hvalid : ∀ e ∈ waits, e.Valid (g.withClass n parents) ∧ R e.a e.b := fun e he => by
    rcases hwaits e he with hold | ⟨other, rfl, hlto, halike⟩
    · exact ⟨(h.waiting e hold).1.withClass hn, (h.waiting e hold).2⟩
    · have hn' : n < (g.withClass n parents).known := by
        rw [hknown, hn]
        exact Nat.lt_succ_self _
      have hother : other < (g.withClass n parents).known := by
        rw [hknown]
        exact Nat.lt_succ_of_lt hlto
      have halike' : (g.withClass n parents).Alike n other := by
        rw [alike_iff, hroot]
        exact alike_iff.mp halike
      have hsame : SameNodes g (g.withClass n parents) := rfl
      refine ⟨⟨hn', hother, fun hr => ?_⟩, halike'.rel (hsame.wf hg)
        (hsame.isCongruence hR) ht hsound hn' hother⟩
      obtain ⟨rfl, rfl⟩ := Reason.congruence.inj hr
      exact ⟨hn', hother, halike'⟩
  rw [heq] at hsigs ⊢
  have hsame : SameTables (g.withClass n parents)
      ((g.withClass n parents).modifyClasses fun k => { k with sigs, pending := waits }) :=
        ⟨rfl, rfl, rfl, rfl, rfl, rfl⟩
  exact ⟨⟨hsame.tables ht, hsigs, hsame.forest hf, hsound, fun e he =>
    ⟨hsame.valid (hvalid e he).1, (hvalid e he).2⟩⟩,
    rfl, hknown, hroot, rfl, rfl, rfl⟩

/-- While every node is alone, no new node waits: it would be an application that is
there already. -/
theorem pending_addToClasses (hg : g.Wf) (ht : g.Tables) (hs : g.Signatures g.classes.pending)
    (hn : n = g.known) (halone : ∀ m, g.root m = m) (hnil : g.classes.pending = []) :
    (g.addToClasses n).classes.pending = [] := by
  obtain ⟨parents, sigs, waits, -, heq, -, hwaits⟩ := Signatures.addToClasses ht hs hn
  rw [heq]
  refine List.eq_nil_iff_forall_not_mem.mpr fun e he => ?_
  rcases hwaits e he with hold | ⟨other, -, hlt, halike⟩
  · rw [hnil] at hold
    cases hold
  · obtain ⟨f, hpf, hqf, hargs⟩ := alike_iff.mp halike
    have hsame : (g.node n).args = (g.node other).args := by
      rw [← List.forall₂_eq_eq_eq]
      exact hargs.imp fun x y hxy => by rwa [halone, halone] at hxy
    have heq : n = other := hg.distinct hpf hqf hsame
    rw [← heq, hn] at hlt
    exact Nat.lt_irrefl _ hlt

/-! ## All new nodes -/

/-- What putting all nodes into classes changes. -/
structure Synced (g g' : Egraph) : Prop where
  known : g'.known = g.nodes.size
  root : g'.root = g.root
  diseqs : g'.classes.diseqs = g.classes.diseqs
  levels : g'.classes.levels = g.classes.levels
  processed : g'.classes.processed = g.classes.processed

/-- All new nodes keep the classes in order. When every node is alone and nothing waits, nothing
waits afterwards. -/
theorem Merging.sync (hg : g.Wf) (hR : g.IsCongruence R) (h : Merging R g.classes.pending g) :
    Merging R g.sync.classes.pending g.sync ∧ Synced g g.sync ∧
      ((∀ m, g.root m = m) → g.classes.pending = [] → g.sync.classes.pending = []) := by
  have hcount (count : Nat) : ∀ {g : Egraph}, g.Wf → g.IsCongruence R →
    Merging R g.classes.pending g →
      g.known + count = g.nodes.size →
      Merging R ((List.range' g.known count).foldl Egraph.addToClasses g).classes.pending
        ((List.range' g.known count).foldl Egraph.addToClasses g) ∧
      Synced g ((List.range' g.known count).foldl Egraph.addToClasses g) ∧
      ((∀ m, g.root m = m) → g.classes.pending = [] →
        ((List.range' g.known count).foldl Egraph.addToClasses g).classes.pending = []) := by
    induction count with
    | zero =>
      intro g _ _ h hsize
      exact ⟨h, ⟨hsize, rfl, rfl, rfl, rfl⟩, fun _ hnil => hnil⟩
    | succ count ih =>
      intro g hg hR h hsize
      obtain ⟨hadd, hadded⟩ := h.addToClasses hg hR rfl (by omega)
      have hsame := hadded.sameNodes
      have hnodes : (g.addToClasses g.known).nodes.size = g.nodes.size :=
        congrArg Array.size hsame.nodes_eq
      rw [List.range'_succ, List.foldl_cons, ← hadded.known]
      obtain ⟨hdone, hsynced, hpending⟩ :=
        ih (hsame.wf hg) (hsame.isCongruence hR) hadd (by rw [hadded.known, hnodes]; omega)
      refine ⟨hdone, ⟨hsynced.known.trans hnodes, hsynced.root.trans hadded.root,
        hsynced.diseqs.trans hadded.diseqs,
        hsynced.levels.trans hadded.levels, hsynced.processed.trans hadded.processed⟩,
          fun halone hnil => ?_⟩
      refine hpending (fun m => ?_) (pending_addToClasses hg h.tables h.sigs rfl halone hnil)
      rw [hadded.root, halone]
  exact hcount _ hg hR h (Nat.add_sub_cancel' h.tables.known_le)

/-- Without new nodes nothing changes. -/
theorem sync_of_known (h : g.known = g.nodes.size) : g.sync = g := by
  have hnone : g.nodes.size - g.classes.root.size = 0 := Nat.sub_eq_zero_of_le (Nat.le_of_eq h.symm)
  simp only [Egraph.sync, hnone, List.range'_zero, List.foldl_nil]

/-- Without classes everything is in order. -/
theorem merging_clearClasses (g : Egraph) (R : Nat → Nat → Prop) : Merging R [] g.clearClasses where
  tables :=
    { size_next := rfl
      size_parents := rfl
      size_adj := rfl
      known_le := Nat.zero_le _
      root_lt := nofun
      root_root := fun n => by rw [root_of_known_le (Nat.zero_le n)]
      ring := nofun
      parent := nofun
      parent_lt := fun {n r} hn => by simp [parentsOf, clearClasses] at hn }
  sigs :=
    { sound := fun {key p} hp => by
        rw [show g.clearClasses.classes.sigs = ∅ from rfl, Std.HashMap.getElem?_empty] at hp
        cases hp
      complete := nofun }
  forest :=
    { valid := fun {i e} he => by simp [clearClasses] at he
      ends := fun {n i} hi => by simp [clearClasses] at hi
      walk := nofun }
  sound := nofun
  waiting := nofun

/-- At the start of a search every node is alone and nothing waits. -/
theorem Merging.startSearch (hg : g.Wf) (hR : g.IsCongruence R) :
    Merging R [] g.startSearch ∧ Synced g.clearClasses g.startSearch ∧
    g.startSearch.classes.pending = [] := by
  have hsame : SameNodes g g.clearClasses := rfl
  obtain ⟨hdone, hsynced, hpending⟩ :=
    (merging_clearClasses g R).sync (hsame.wf hg) (hsame.isCongruence hR)
  have hnil : g.startSearch.classes.pending = [] :=
    hpending (fun m => root_of_known_le (Nat.zero_le m)) rfl
  refine ⟨?_, hsynced, hnil⟩
  have hwaits : g.clearClasses.sync.classes.pending = [] := hnil
  rwa [hwaits] at hdone

end Entail.Egraph
