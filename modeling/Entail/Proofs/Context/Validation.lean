import Entail.Proofs.Context.TypedRuns
import Entail.Proofs.Store.Runs
import Entail.Proofs.Store.Subterms
import Entail.Proofs.Store.Supported
import Mathlib

/-!
# What the look at a formula finds

The look walks through a formula with a set of what it has seen. When it accepts, everything
that was seen passed, and so did the parts that are looked at of everything that was seen. All
parts of a node are looked at, except the head of an application. So in an accepted formula
there is no free variable and no quantifier below the top level, as long as there is none in the
head of an application.
-/

namespace Entail

namespace Store

variable {s : Store}

/-- The variables that a formula binds at its top. -/
def topVars (s : Store) (part : Term) : List Term :=
  match s.shape part with
  | .all vars _ => vars
  | _ => []

/-- Every variable in `t` is one that `part` binds, and every quantifier in `t` is the one at the
top of `part`. -/
def Confined (s : Store) (part t : Term) : Prop :=
  ∀ u, s.Below t u → ((s.shape u).isVariable = true → u.positive ∈ s.topVars part) ∧
    ((s.shape u).isQuantifier = true → u.index = part.index)

/-- `f` is the head of an application in `t`. -/
def HeadIn (s : Store) (t f : Term) : Prop := ∃ u args, s.Below t u ∧ s.shape u = .app f args

theorem shape_positive (t : Term) : s.shape t.positive = s.shape t := by
  simp only [shape, shape?, node?, Term.index_positive]

/-- What is below a term is the term itself or below one of its parts. -/
theorem Below.cases_head {t u : Term} (h : s.Below t u) :
    t.index = u.index ∨ ∃ n, s.node? t = some n ∧ ∃ c ∈ n.1.children, s.Below c u := by
  rcases Relation.ReflTransGen.cases_head h with heq | ⟨j, hchild, hrest⟩
  · exact .inl heq
  · obtain ⟨shape, ty, c, hn, hc, rfl⟩ := hchild
    exact .inr ⟨(shape, ty), hn, c, hc, hrest⟩

theorem HeadIn.below {t f : Term} (h : s.HeadIn t f) : s.Below t f := by
  obtain ⟨u, args, hu, hshape⟩ := h
  obtain ⟨ty, hn⟩ := node_of_shape hshape nofun
  exact hu.child hn (List.mem_cons_self ..)

theorem HeadIn.of_below {t u f : Term} (h : s.HeadIn u f) (ht : s.Below t u) : s.HeadIn t f :=
  let ⟨v, args, hv, hshape⟩ := h
  ⟨v, args, ht.trans hv, hshape⟩

end Store

namespace Context

variable {s : Store} {c : Context} {root t part : Term} {bound : List Term}

/-! ## The walk -/

/-- A node that passed is no quantifier, and if it is a variable, it is bound. -/
theorem shape_of_checkNode {u : Term} {iteOk : Bool} {parts : List (Term × Bool)}
    (h : checkNode s root bound u iteOk = .ok parts) :
    ((s.shape u).isVariable = true → u ∈ bound) ∧ (s.shape u).isQuantifier = false := by
  unfold checkNode at h
  cases hshape : s.shape u with
  | var ty n =>
    rw [hshape] at h
    by_cases hbound : bound.contains u = true
    · exact ⟨fun _ => List.contains_iff_mem.mp hbound, rfl⟩
    · simp only [if_neg hbound] at h
      cases h
  | all vars body =>
    rw [hshape] at h
    cases h
  | _ => exact ⟨nofun, rfl⟩

/-- The parts that are left to look at are parts of the node. -/
theorem mem_children_of_checkNode {u : Term} {iteOk : Bool} {parts : List (Term × Bool)}
    (h : checkNode s root bound u iteOk = .ok parts) {x : Term × Bool} (hx : x ∈ parts) :
    x.1 ∈ (s.shape u).children := by
  unfold checkNode at h
  split at h <;> rename_i hshape
  · split at h <;> cases h
    cases hx
  · cases h
  · split at h <;> cases h
    obtain ⟨a, ha, rfl⟩ := List.mem_map.mp hx
    rw [hshape]
    exact List.mem_cons_of_mem _ ha
  · split at h <;> cases h
    rw [hshape]
    simp only [List.mem_cons, List.not_mem_nil, or_false] at hx
    rcases hx with rfl | rfl <;> simp [Term.Shape.children]
  · split at h <;> cases h
    rw [hshape]
    simp only [List.mem_cons, List.not_mem_nil, or_false] at hx
    rcases hx with rfl | rfl | rfl <;> simp [Term.Shape.children]
  · cases h
    obtain ⟨a, ha, rfl⟩ := List.mem_map.mp hx
    exact ha

/-- All parts of a node that passed are left to look at, except the head of an application. -/
theorem mem_parts_of_checkNode {u : Term} {iteOk : Bool} {parts : List (Term × Bool)}
    (h : checkNode s root bound u iteOk = .ok parts) {a : Term} (ha : a ∈ (s.shape u).children) :
    (∃ ok, (a, ok) ∈ parts) ∨ ∃ args, s.shape u = .app a args := by
  unfold checkNode at h
  split at h <;> rename_i hshape
  · rw [hshape] at ha
    cases ha
  · cases h
  · split at h <;> cases h
    rw [hshape] at ha
    rcases List.mem_cons.mp ha with rfl | ha
    · exact .inr ⟨_, hshape⟩
    · exact .inl ⟨false, List.mem_map_of_mem ha⟩
  · split at h <;> cases h
    rw [hshape] at ha
    rcases List.mem_pair.mp ha with rfl | rfl
    · exact .inl ⟨_, List.mem_cons_self ..⟩
    · exact .inl ⟨_, List.mem_cons_of_mem _ (List.mem_cons_self ..)⟩
  · split at h <;> cases h
    rw [hshape] at ha
    simp only [Term.Shape.children, List.mem_cons, List.not_mem_nil, or_false] at ha
    rcases ha with rfl | rfl | rfl
    · exact .inl ⟨_, List.mem_cons_self ..⟩
    · exact .inl ⟨_, List.mem_cons_of_mem _ (List.mem_cons_self ..)⟩
    · exact .inl ⟨_, List.mem_cons_of_mem _ (List.mem_cons_of_mem _ (List.mem_cons_self ..))⟩
  · cases h
    exact .inl ⟨false, List.mem_map_of_mem ha⟩

/-- On the way from `seen` to `seen'` everything that was seen passed, and its parts were seen. -/
structure Looked (s : Store) (root : Term) (bound : List Term)
    (seen seen' : Std.HashSet (Term × Bool)) : Prop where
  mono : ∀ x ∈ seen, x ∈ seen'
  passed : ∀ x ∈ seen', x ∈ seen ∨ ∃ parts, checkNode s root bound x.1 x.2 = .ok parts ∧
    ∀ y ∈ parts, (y.1.positive, y.2) ∈ seen'

theorem Looked.refl (seen : Std.HashSet (Term × Bool)) : Looked s root bound seen seen :=
  ⟨fun _ => id, fun _ => .inl⟩

theorem Looked.trans {seen seen' seen'' : Std.HashSet (Term × Bool)}
    (h : Looked s root bound seen seen')
    (h' : Looked s root bound seen' seen'') : Looked s root bound seen seen'' where
  mono x hx := h'.mono x (h.mono x hx)
  passed x hx := by
    rcases h'.passed x hx with hx | hx
    · refine (h.passed x hx).imp_right ?_
      rintro ⟨parts, hparts, hseen⟩
      exact ⟨parts, hparts, fun y hy => h'.mono _ (hseen y hy)⟩
    · exact .inr hx

/-- Looking at one term after the other. -/
theorem looked_forM {f : Term × Bool → BodyCheck Unit} {xs : List (Term × Bool)}
    (hf : ∀ x ∈ xs, ∀ seen seen', f x seen = .ok ((), seen') →
      Looked s root bound seen seen' ∧ (x.1.positive, x.2) ∈ seen')
    {seen seen' : Std.HashSet (Term × Bool)} (h : xs.forM f seen = .ok ((), seen')) :
    Looked s root bound seen seen' ∧ ∀ x ∈ xs, (x.1.positive, x.2) ∈ seen' := by
  induction xs generalizing seen with
  | nil =>
    cases h
    exact ⟨.refl _, by simp⟩
  | cons x xs ih =>
    obtain ⟨⟨⟨⟩, mid⟩, hx, hrest⟩ :=
      Store.bind_eq_ok_iff.mp (show (f x seen >>= fun y => xs.forM f y.2) = _ from h)
    obtain ⟨hhead, hmem⟩ := hf x (List.mem_cons_self ..) seen mid hx
    obtain ⟨htail, hmems⟩ := ih (fun y hy => hf y (List.mem_cons_of_mem _ hy)) hrest
    refine ⟨hhead.trans htail, fun y hy => ?_⟩
    rcases List.mem_cons.mp hy with rfl | hy
    · exact htail.mono _ hmem
    · exact hmems y hy

theorem checkBody_succ (depth : Nat) (t : Term) (iteOk : Bool) (seen : Std.HashSet (Term × Bool)) :
    checkBody s root bound (depth + 1) (t, iteOk) seen =
      if seen.contains (t.positive, iteOk) then .ok ((), seen)
      else (checkNode s root bound t.positive iteOk >>= fun parts =>
        parts.reverse.forM (checkBody s root bound depth) (seen.insert (t.positive, iteOk))) := by
  show (if _ then _ else _ : BodyCheck Unit) seen = _
  split
  · rfl
  · show (checkNode s root bound t.positive iteOk >>= _) >>= _ = _
    cases checkNode s root bound t.positive iteOk <;> rfl

/-- A walk that is deep enough sees the term it starts from. -/
theorem looked_checkBody (hs : s.Wf) {rank : Nat → Nat}
    (hrank : ∀ {i shape ty}, s.terms.get? i = some (shape, ty) → ∀ c ∈ shape.children,
      rank c.index < rank i)
    (depth : Nat) {x : Term × Bool} (hlive : ∃ ty, s.Has x.1 ty) (hdepth : rank x.1.index < depth)
    {seen seen' : Std.HashSet (Term × Bool)}
    (h : checkBody s root bound depth x seen = .ok ((), seen')) :
    Looked s root bound seen seen' ∧ (x.1.positive, x.2) ∈ seen' := by
  induction depth generalizing x seen seen' with
  | zero => omega
  | succ depth ih =>
    obtain ⟨t, iteOk⟩ := x
    obtain ⟨ty, hty⟩ := hlive
    have hn : s.node? t.positive = some (s.shape t.positive, ty) := hty.positive.node
    rw [checkBody_succ] at h
    split at h
    · rename_i hseen
      cases h
      exact ⟨.refl _, Std.HashSet.mem_iff_contains.mpr hseen⟩
    · obtain ⟨parts, hparts, hforM⟩ := Store.bind_eq_ok_iff.mp h
      have hpart : ∀ y ∈ parts.reverse, ∀ seen₁ seen₂, checkBody s root bound depth y seen₁ = .ok
        ((), seen₂) →
          Looked s root bound seen₁ seen₂ ∧ (y.1.positive, y.2) ∈ seen₂ := by
        intro y hy seen₁ seen₂ hrun
        have hchild := mem_children_of_checkNode hparts (List.mem_reverse.mp hy)
        have hlt : rank y.1.index < rank t.positive.index := hrank hn y.1 hchild
        rw [Term.index_positive] at hlt
        exact ih ((hs.typed hn).live hchild) (hlt.trans_le (Nat.le_of_lt_succ hdepth)) hrun
      obtain ⟨hlooked, hmem⟩ := looked_forM hpart hforM
      refine ⟨⟨fun y hy => hlooked.mono y (Std.HashSet.mem_insert.mpr (.inr hy)), fun y hy => ?_⟩,
        hlooked.mono _ Std.HashSet.mem_insert_self⟩
      rcases hlooked.passed y hy with hy | hy
      · rcases Std.HashSet.mem_insert.mp hy with heq | hy
        · obtain rfl := eq_of_beq heq
          exact .inr ⟨parts, hparts, fun z hz => hmem z (List.mem_reverse.mpr hz)⟩
        · exact .inl hy
      · exact .inr hy

/-- Below a term that was seen by a finished walk, everything was seen that is not below the head of
an application. -/
theorem seen_or_headIn {seen : Std.HashSet (Term × Bool)} (hlooked : Looked s root bound ∅ seen)
    {t u : Term} (ht : ∃ ok, (t.positive, ok) ∈ seen) (hu : s.Below t u) :
    (∃ ok, (u.positive, ok) ∈ seen) ∨ ∃ f, s.HeadIn t f ∧ s.Below f u := by
  have hslots {i : Nat} (hi : Relation.ReflTransGen s.Child t.index i) :
      (∃ ok, (Term.ofIndex i, ok) ∈ seen) ∨ ∃ f, s.HeadIn t f ∧
        Relation.ReflTransGen s.Child f.index i := by
    induction hi with
    | refl => exact .inl ht
    | @tail i j hi hij ih =>
      rcases ih with ⟨ok, hseen⟩ | ⟨f, hf, hbelow⟩
      · obtain ⟨parts, hparts, hall⟩ :=
          (hlooked.passed _ hseen).resolve_left Std.HashSet.not_mem_empty
        obtain ⟨shape, ty, a, hn, ha, rfl⟩ := hij
        have hshape : s.shape (.ofIndex i) = shape := by
          simp [Store.shape, Store.shape?, Store.node?, hn]
        rcases mem_parts_of_checkNode hparts (hshape ▸ ha) with ⟨ok', hmem⟩ | ⟨args, happ⟩
        · exact .inl ⟨ok', hall _ hmem⟩
        · exact .inr ⟨a, ⟨.ofIndex i, args, by rwa [Store.Below, Term.index_ofIndex], happ⟩, .refl⟩
      · exact .inr ⟨f, hf, hbelow.tail hij⟩
  exact hslots hu

/-- What the walk through a body accepts: outside of heads, its variables are bound and it has no
quantifiers. -/
theorem of_checkBody (hs : s.Wf) {body : Term} (hlive : ∃ ty, s.Has body ty)
    (h : (checkBody s root bound (s.terms.slots.size + 1) (body, false)).run' ∅ = .ok ()) {u : Term}
    (hu : s.Below body u) :
    (((s.shape u).isVariable = true → u.positive ∈ bound) ∧ (s.shape u).isQuantifier = false) ∨
      ∃ f, s.HeadIn body f ∧ s.Below f u := by
  obtain ⟨rank, hrank, hbound⟩ := hs.bounded
  obtain ⟨ty, hty⟩ := hlive
  have hdepth : rank body.index < s.terms.slots.size + 1 := Nat.lt_succ_of_lt (hbound hty.node)
  obtain ⟨⟨⟨⟩, seen⟩, hrun, -⟩ := Store.bind_eq_ok_iff.mp
    (show (checkBody s root bound (s.terms.slots.size + 1) (body, false) ∅ >>= fun x => .ok x.1) = _
      from h)
  obtain ⟨hlooked, hmem⟩ := looked_checkBody hs hrank _ ⟨ty, hty⟩ hdepth hrun
  refine (seen_or_headIn hlooked ⟨false, hmem⟩ hu).imp_left ?_
  rintro ⟨ok, hseen⟩
  obtain ⟨parts, hparts, -⟩ := (hlooked.passed _ hseen).resolve_left Std.HashSet.not_mem_empty
  rw [← Store.shape_positive]
  exact shape_of_checkNode hparts

/-! ## Top-level formulas -/

/-- The formulas that count as top level in `t`. -/
def topLevel (c : Context) (s : Store) (t : Term) : List Term :=
  conjuncts s (c.isOn .flatten) (s.terms.slots.size + 1) t

/-- The conjuncts of a formula are formulas. -/
theorem has_conjuncts (hs : s.Wf) (flatten : Bool) (depth : Nat) (ht : s.Has t .bool) :
    ∀ part ∈ conjuncts s flatten depth t, s.Has part .bool := by
  induction depth generalizing t with
  | zero =>
    intro part hpart
    obtain rfl := List.mem_singleton.mp hpart
    exact ht
  | succ depth ih =>
    intro part hpart
    unfold conjuncts at hpart
    split at hpart
    · rename_i args _ hshape
      obtain ⟨a, ha, hpart⟩ := List.mem_flatMap.mp hpart
      have hn : s.node? t = some (.or args, .bool) := hshape ▸ ht.node
      obtain ⟨-, hargs⟩ := hs.typed hn
      exact ih (hargs a ha).neg part hpart
    · obtain rfl := List.mem_singleton.mp hpart
      exact ht

/-- An accepted top-level formula: outside of heads, its variables are bound at its top, where its
only quantifier is. -/
theorem of_validatePart (hs : s.Wf) (hpart : s.Has part .bool) (h : validatePart s part = .ok ())
    {u : Term} (hu : s.Below part u) :
    (((s.shape u).isVariable = true → u.positive ∈ s.topVars part) ∧
      ((s.shape u).isQuantifier = true → u.index = part.index)) ∨ ∃ f, s.HeadIn part f ∧
      s.Below f u := by
  unfold validatePart at h
  cases hshape : s.shape part with
  | all vars body =>
    simp only [hshape] at h
    have htop : s.topVars part = vars := by rw [Store.topVars, hshape]
    have hn : s.node? part = some (.all vars body, .bool) := hshape ▸ hpart.node
    obtain ⟨-, -, hvars, hbody⟩ := hs.typed hn
    split at h
    · cases h
    · rcases hu.cases_head with heq | ⟨n, hn', a, ha, hbelow⟩
      · have hsame : s.shape u = .all vars body := by
          rw [← hshape]
          simp only [Store.shape, Store.shape?, Store.node?, heq]
        exact .inl ⟨by simp [hsame, Term.Shape.isVariable], fun _ => heq.symm⟩
      · obtain rfl := Option.some.inj (hn.symm.trans hn')
        rcases List.mem_append.mp ha with ha | ha
        · -- a bound variable has no parts
          obtain ⟨hpos, ty, n, hv⟩ := hvars a ha
          rcases hbelow.cases_head with heq | ⟨m, hm, b, hb, -⟩
          · have hva : s.node? u = some (.var ty n, ty) := by
              rw [← hv, Store.node?, Store.node?, heq]
            have hpositive : u.positive = a := by
              rw [← Term.positive_of_not_isNegated hpos]
              exact congrArg Term.ofIndex heq.symm
            refine .inl ⟨fun _ => by rwa [hpositive, htop], ?_⟩
            simp [Interp.node?_of_shape hva, Term.Shape.isQuantifier]
          · obtain rfl := Option.some.inj (hv.symm.trans hm)
            cases hb
        · have hbelow' : s.Below part a := .child .refl hn (List.mem_append.mpr (.inr ha))
          obtain rfl := List.mem_singleton.mp ha
          rcases of_checkBody hs ⟨_, hbody⟩ h hbelow with ⟨hvar, hquant⟩ | ⟨f, hf, hfu⟩
          · exact .inl ⟨fun hu => htop ▸ hvar hu, by simp [hquant]⟩
          · exact .inr ⟨f, hf.of_below hbelow', hfu⟩
  | _ =>
    simp only [hshape] at h
    rcases of_checkBody hs ⟨_, hpart⟩ h hu with ⟨hvar, hquant⟩ | hhead
    · exact .inl ⟨fun hu => absurd (hvar hu) List.not_mem_nil, by simp [hquant]⟩
    · exact .inr hhead

/-- In a top-level formula of an accepted formula all variables are bound at its top, where
its only quantifier is, exactly when this is so in the heads of its applications: the look
does not go there. -/
theorem confined_iff_of_validate (hs : s.Wf) (h : c.validate s t = .ok ())
    (hpart : part ∈ c.topLevel s t) :
    s.Confined part part ↔ ∀ f, s.HeadIn part f → s.Confined part f := by
  have hbool : s.Has part .bool := has_conjuncts hs _ _ (has_of_validate h) part hpart
  have hvalid : validatePart s part = .ok () := by
    obtain ⟨-, -, hall⟩ := Store.bind_eq_ok_iff.mp h
    exact Store.forM_eq_ok hall part hpart
  constructor
  · intro hconfined f hf u hu
    exact hconfined u (hf.below.trans hu)
  · intro hheads u hu
    rcases of_validatePart hs hbool hvalid hu with hok | ⟨f, hf, hfu⟩
    · exact hok
    · exact hheads f hf u hfu

/-! ## Heads that are not looked at -/

/-- The look does not refuse a constant. -/
theorem checkBody_constant (depth : Nat) {a : Term} (ha : (s.shape a).isUninterpreted = true)
    (iteOk : Bool) (seen : Std.HashSet (Term × Bool)) :
    ∃ seen', checkBody s root bound depth (a, iteOk) seen = .ok ((), seen') := by
  cases depth with
  | zero => exact ⟨seen, rfl⟩
  | succ depth =>
    have hnode : checkNode s root bound a.positive iteOk = .ok [] := by
      cases hshape : s.shape a with
      | uninterpreted ty n =>
        unfold checkNode
        rw [Store.shape_positive, hshape]
        rfl
      | _ => simp [hshape, Term.Shape.isUninterpreted] at ha
    rw [checkBody_succ, hnode]
    split
    · exact ⟨seen, rfl⟩
    · exact ⟨seen.insert (a.positive, iteOk), rfl⟩

/-- The look accepts every application of a predicate to constants of sorts, whatever stands for
the predicate. -/
theorem validate_application {f : Term} {args : List Term} (ht : s.Has t .bool)
    (hbool : s.tyShape? .bool = some .bool) (hshape : s.shape t = .app f args)
    (hargs : ∀ a ∈ args, s.isSort (s.ty a) = true ∧ (s.shape a).isUninterpreted = true) :
    c.validate s t = .ok () ∧ c.topLevel s t = [t] := by
  have htop : c.topLevel s t = [t] := by
    unfold topLevel conjuncts
    rw [hshape]
    cases c.isOn .flatten && t.isNegated <;> rfl
  have hchecked : s.checkBool t = .ok () := by
    unfold Store.checkBool
    rw [Store.typeOf_eq_ok.mpr ht]
    rfl
  have hnode : checkNode s t [] t.positive false = .ok (args.map (·, false)) := by
    unfold checkNode
    rw [Store.shape_positive, hshape]
    have hty : s.ty t.positive = .bool := ht.positive.ty_eq
    have hwidth : s.width? t.positive = none := by simp [Store.width?, Store.tyWidth?, hty, hbool]
    have hfunction : s.isFunctionTy (s.ty t.positive) = false := by
      simp [Store.isFunctionTy, hty, hbool]
    have hsorts : (args.any fun a => !s.isSort (s.ty a)) = false := by
      simp only [List.any_eq_false, Bool.not_eq_true, Bool.not_eq_false']
      exact fun a ha => (hargs a ha).1
    simp [hwidth, hfunction, hsorts]
  -- whatever was seen, the constants among the arguments pass
  have hall (depth : Nat) (xs : List Term) (hxs : ∀ a ∈ xs, (s.shape a).isUninterpreted = true)
      (seen : Std.HashSet (Term × Bool)) :
      ∃ seen', (xs.map (·, false)).forM (checkBody s t [] depth) seen = .ok ((), seen') := by
    induction xs generalizing seen with
    | nil => exact ⟨seen, rfl⟩
    | cons a xs ih =>
      have ha := hxs a (List.mem_cons_self ..)
      obtain ⟨mid, hmid⟩ : ∃ mid, checkBody s t [] depth (a, false) seen = .ok ((), mid) :=
        checkBody_constant depth ha false seen
      obtain ⟨seen', hseen'⟩ := ih (fun b hb => hxs b (List.mem_cons_of_mem _ hb)) mid
      exact ⟨seen', Store.bind_eq_ok_iff.mpr ⟨_, hmid, hseen'⟩⟩
  have hpart : validatePart s t = .ok () := by
    unfold validatePart
    rw [hshape]
    obtain ⟨seen, hseen⟩ := hall s.terms.slots.size args.reverse
      (fun a ha => (hargs a (List.mem_reverse.mp ha)).2) (Std.HashSet.insert ∅ (t.positive, false))
    refine Store.bind_eq_ok_iff.mpr ⟨((), seen), ?_, rfl⟩
    rw [checkBody_succ, hnode, if_neg (by simp)]
    rw [List.map_reverse] at hseen
    exact hseen
  refine ⟨Store.bind_eq_ok_iff.mpr ⟨(), by rw [hchecked]; rfl, ?_⟩, htop⟩
  have hforM : (c.topLevel s t).forM (validatePart s) = .ok () := by
    rw [htop]
    exact Store.bind_eq_ok_iff.mpr ⟨(), hpart, rfl⟩
  exact hforM

/-- A formula whose only application has a variable as its head is not confined. -/
theorem not_confined_of_head {f : Term} {args : List Term} {ty : Ty}
    (hn : s.node? t = some (.app f args, ty))
    (hf : (s.shape f).isVariable = true) : ¬s.Confined t t := by
  intro hconfined
  have hbelow : s.Below t f := .child .refl hn (List.mem_cons_self ..)
  have hbound := (hconfined f hbelow).1 hf
  rw [Store.topVars, Interp.node?_of_shape hn] at hbound
  exact List.not_mem_nil hbound

/-- An application whose head is a variable. -/
def openHead : Store :=
  let s := endState (Store.newSort .empty)
  let s := endState (Store.functionType [⟨1⟩] .bool s)
  let s := endState (Store.newVar ⟨2⟩ s)
  let s := endState (Store.newConst ⟨1⟩ s)
  endState (Store.app (.ofIndex 2) [.ofIndex 3] s)

theorem reached_openHead : Store.Reached openHead := by
  have h₁ := Store.Reached.empty.build .newSort
  have h₂ := h₁.build (.functionType [⟨1⟩] .bool)
  have h₃ := h₂.build (.newVar ⟨2⟩)
  have h₄ := h₃.build (.newConst ⟨1⟩)
  exact h₄.build (.app (.ofIndex 2) [.ofIndex 3])

/-- A formula is accepted although the variable in the head of its application is not bound. -/
theorem confined_iff_of_validate_openHead :
    Store.Reached openHead ∧ Reachable ⟨openHead, .new {}⟩ ∧
      (new {}).validate openHead (.ofIndex 4) = .ok () ∧ .ofIndex 4 ∈ (new {}).topLevel openHead
        (.ofIndex 4) ∧
      ¬openHead.Confined (.ofIndex 4) (.ofIndex 4) ∧
      (openHead.Confined (.ofIndex 4) (.ofIndex 4) ↔
        ∀ f, openHead.HeadIn (.ofIndex 4) f → openHead.Confined (.ofIndex 4) f) := by
  have hs : openHead.Wf := reached_openHead.intact.wf
  have hnode : openHead.node? (.ofIndex 4) = some (.app (.ofIndex 2) [.ofIndex 3], .bool) := by cbv
  have hhead : (openHead.shape (.ofIndex 2)).isVariable = true := by cbv
  have hsort : openHead.isSort (openHead.ty (.ofIndex 3)) = true := by cbv
  have hconst : (openHead.shape (.ofIndex 3)).isUninterpreted = true := by cbv
  have ht : openHead.Has (.ofIndex 4) .bool := ⟨⟨_, hnode⟩, fun _ => rfl⟩
  have hargs : ∀ a ∈ [Term.ofIndex 3],
      openHead.isSort (openHead.ty a) = true ∧ (openHead.shape a).isUninterpreted = true := by
    intro a ha
    obtain rfl := List.mem_singleton.mp ha
    exact ⟨hsort, hconst⟩
  obtain ⟨hvalid, htop⟩ := validate_application (c := new {}) ht hs.bool_ty
    (Interp.node?_of_shape hnode) hargs
  have hmem : Term.ofIndex 4 ∈ (new {}).topLevel openHead (.ofIndex 4) :=
    htop ▸ List.mem_singleton_self _
  exact ⟨reached_openHead, ⟨openHead, {}, hs, .refl⟩, hvalid, hmem,
    not_confined_of_head hnode hhead,
    confined_iff_of_validate hs hvalid hmem⟩

end Context
end Entail

/-!
## Accepted formulas may be asserted

The walk through an accepted body leaves a trace of what it has seen, closed under the parts
that are looked at. From the parts up, everything seen is supported; so an accepted formula
is assertable.
-/

namespace Entail.Context

variable {s : Store} {c : Context} {root t part : Term} {bound : List Term}

/-- A type that passes for one of elements of a sort is one. -/
theorem tyShape_of_isSort {ty : Ty} (h : s.isSort ty = true) :
    ∃ n, s.tyShape? ty = some (.uninterpreted n) := by
  unfold Store.isSort at h
  split at h
  next n hty => exact ⟨n, hty⟩
  next => cases h

/-- A node that passed is supported if the parts that are left to look at are. -/
theorem supported_of_checkNode (hs : s.Wf) {ty : Ty} (ht : s.Has t ty) {iteOk : Bool}
    {parts : List (Term × Bool)} (h : checkNode s root bound t.positive iteOk = .ok parts)
    (hparts : ∀ y ∈ parts, s.Supported bound y.1) :
    s.Supported bound t := by
  have hn := ht.node
  obtain ⟨tyShape, hty⟩ := hs.ty_live ht
  -- variables, applications and equations have conditions of their own, the other shapes have none
  cases hshape : s.shape t with
  | var =>
    rw [hshape] at hn
    refine .var hn ((shape_of_checkNode h).1 ?_)
    rw [Store.shape_positive, hshape]
    rfl
  | all =>
    have hquant := (shape_of_checkNode h).2
    rw [Store.shape_positive, hshape] at hquant
    cases hquant
  | app f args =>
    rw [hshape] at hn
    unfold checkNode at h
    rw [Store.shape_positive, hshape] at h
    dsimp only at h
    split at h
    · cases h
    next hok =>
      cases h
      have hwidth : s.width? t.positive = none := by
        cases hw : s.width? t.positive with
        | none => rfl
        | some w => simp [hw] at hok
      refine .app hn hty (fun w heq => ?_) (fun a ha => ?_) fun a ha =>
        hparts _ (List.mem_map_of_mem ha)
      · simp [Store.width?, Store.tyWidth?, ht.positive.ty_eq, hty, heq] at hwidth
      · obtain ⟨ta, hta⟩ := (hs.typed hn).live (List.mem_cons_of_mem f ha)
        obtain ⟨n, hsort⟩ : ∃ n, s.tyShape? ta = some (.uninterpreted n) := by
          refine tyShape_of_isSort ?_
          by_contra hno
          exact hok (Bool.or_eq_true_iff.mpr
            (.inr (List.any_eq_true.mpr ⟨a, ha, by simpa [hta.ty_eq] using hno⟩)))
        exact ⟨ta, n, hta, hsort⟩
  | eq a b =>
    rw [hshape] at hn
    unfold checkNode at h
    rw [Store.shape_positive, hshape] at h
    dsimp only at h
    split at h
    · cases h
    next hok =>
      cases h
      obtain ⟨-, ty', -, ha, -⟩ := hs.typed hn
      obtain ⟨shape', hshape'⟩ := hs.ty_live ha
      refine .eq hn ha hshape' (fun domain range heq => hok ?_) (hparts _ List.mem_cons_self)
        (hparts _ (List.mem_cons_of_mem _ (List.mem_singleton_self _)))
      simp [Store.isFunctionTy, ha.ty_eq, hshape', heq]
  | _ =>
    refine .plain hn (by rw [hshape]; rfl) fun x hx => ?_
    rw [← Store.shape_positive] at hx
    rcases mem_parts_of_checkNode h hx with ⟨ok, hmem⟩ | ⟨args, happ⟩
    · exact hparts _ hmem
    · rw [Store.shape_positive, hshape] at happ
      cases happ

/-- What a finished walk has seen is supported. -/
theorem supported_of_seen (hs : s.Wf) {seen : Std.HashSet (Term × Bool)}
    (h : Looked s root bound ∅ seen) {ty : Ty}
    (ht : s.Has t ty) {ok : Bool} (hseen : (t.positive, ok) ∈ seen) : s.Supported bound t := by
  obtain ⟨rank, hrank⟩ := hs.ranked
  induction hr : rank t.index using Nat.strongRecOn generalizing t ty ok with
  | ind r ih =>
    subst hr
    obtain ⟨parts, hparts, hall⟩ := (h.passed _ hseen).resolve_left Std.HashSet.not_mem_empty
    refine supported_of_checkNode hs ht hparts fun y hy => ?_
    have hchild := mem_children_of_checkNode hparts hy
    rw [Store.shape_positive] at hchild
    obtain ⟨ty', hty'⟩ := (hs.typed ht.node).live hchild
    exact ih _ (hrank ht.node _ hchild) hty' (hall y hy) rfl

/-- An accepted body is supported. -/
theorem supported_of_checkBody (hs : s.Wf) {ty : Ty} (ht : s.Has t ty)
    (h : (checkBody s root bound (s.terms.slots.size + 1) (t, false)).run' ∅ = .ok ()) :
    s.Supported bound t := by
  obtain ⟨rank, hrank, hbound⟩ := hs.bounded
  obtain ⟨⟨⟨⟩, seen⟩, hrun, -⟩ := Store.bind_eq_ok_iff.mp
    (show (checkBody s root bound (s.terms.slots.size + 1) (t, false) ∅ >>= fun x => .ok x.1) = _
      from h)
  have hdepth : rank t.index < s.terms.slots.size + 1 := Nat.lt_succ_of_lt (hbound ht.node)
  obtain ⟨hlooked, hmem⟩ := looked_checkBody hs hrank _ ⟨ty, ht⟩ hdepth hrun
  exact supported_of_seen hs hlooked ht hmem

/-- An accepted top-level formula may be asserted. -/
theorem assertable_of_validatePart (hs : s.Wf) (hpart : s.Has part .bool)
    (h : validatePart s part = .ok ()) (flatten : Bool) : s.Assertable flatten part := by
  unfold validatePart at h
  cases hshape : s.shape part with
  | all vars body =>
    simp only [hshape] at h
    have hn : s.node? part = some (.all vars body, .bool) := hshape ▸ hpart.node
    obtain ⟨-, -, hvars, hbody⟩ := hs.typed hn
    split at h
    · cases h
    next hfind =>
      refine .all hn (fun v hv => ?_) (supported_of_checkBody hs hbody h)
      obtain ⟨ty, hty⟩ := (hvars v hv).has
      have hsort := List.find?_eq_none.mp hfind v hv
      rw [Bool.not_eq_true, Bool.not_eq_false', hty.ty_eq] at hsort
      obtain ⟨n, hn⟩ := tyShape_of_isSort hsort
      exact ⟨ty, n, hty, hn⟩
  | _ =>
    simp only [hshape] at h
    exact .body (supported_of_checkBody hs hpart h)

/-- A formula may be asserted if the formulas that count as top level in it may. -/
theorem assertable_of_conjuncts (hs : s.Wf) (flatten : Bool) (depth : Nat) (ht : s.Has t .bool)
    (h : ∀ part ∈ conjuncts s flatten depth t, s.Assertable flatten part) :
    s.Assertable flatten t := by
  induction depth generalizing t with
  | zero => exact h t (List.mem_singleton_self t)
  | succ depth ih =>
    unfold conjuncts at h
    split at h
    · rename_i args hneg hshape
      rw [Bool.and_eq_true] at hneg
      have hn : s.node? t = some (.or args, .bool) := hshape ▸ ht.node
      obtain ⟨-, hargs⟩ := hs.typed hn
      refine .conj hneg.1 hneg.2 hn fun a ha => ih (hargs a ha).neg fun part hpart => ?_
      exact h part (List.mem_flatMap.mpr ⟨a, ha, hpart⟩)
    · exact h t (List.mem_singleton_self t)

/-- An accepted formula may be asserted. -/
theorem assertable_of_validate (hs : s.Wf) (h : c.validate s t = .ok ()) :
    s.Assertable (c.isOn .flatten) t := by
  have ht : s.Has t .bool := has_of_validate h
  obtain ⟨-, -, hall⟩ := Store.bind_eq_ok_iff.mp h
  refine assertable_of_conjuncts hs _ (s.terms.slots.size + 1) ht fun part hpart => ?_
  exact assertable_of_validatePart hs (has_conjuncts hs _ _ ht part hpart)
    (Store.forM_eq_ok hall part hpart) _

end Entail.Context
