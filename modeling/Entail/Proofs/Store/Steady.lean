import Entail.Proofs.Store.Subst

/-!
# Building terms only extends the store

Whatever a constructor or a substitution is given, and whether it is refused or not, what was in the
store before stays as it was.
-/

namespace Entail.Store

variable {α β : Type}

/-- A disjunction is built from the store as it is, whatever its members are. -/
theorem or_moves (args : List Term) : Moves Wf Later (or args) :=
  Builds.moves fun _ hw => or_builds hw args

/-- So is an exclusive disjunction. -/
theorem xor2_moves (a b : Term) : Moves Wf Later (xor2 a b) :=
  Builds.moves fun _ hw => xor2_builds hw a b

/-- A choice may build connectives, and each of them extends the store. -/
theorem ite_moves (c a b : Term) : Moves Wf Later (ite c a b) :=
  Builds.moves fun _ hw => ite_builds hw c a b

theorem eq_moves (a b : Term) : Moves Wf Later (eq a b) := Builds.moves fun _ hw => eq_builds hw a b

theorem newConst_moves (ty : Ty) : Moves Wf Later (newConst ty) :=
  Builds.moves fun _ hw => newConst_builds hw ty

/-- An application is refused or stored. -/
theorem app_moves (f : Term) (args : List Term) : Moves Wf Later (app f args) :=
  Builds.moves fun _ hw => app_builds hw f args

/-- A quantifier with a constant body is not stored. -/
theorem all_moves (vars : List Term) (body : Term) : Moves Wf Later (all vars body) :=
  Builds.moves fun _ hw => all_quantifies hw vars body

/-- A sum may store the constant that its summands come to. -/
theorem bvSum_moves (args : List Term) : Moves Wf Later (bvSum args) :=
  Builds.moves fun _ hw => bvSum_builds hw args

theorem bvProduct_moves (args : List Term) : Moves Wf Later (bvProduct args) :=
  Builds.moves fun _ hw => bvProduct_builds hw args

theorem bvNeg_moves (a : Term) : Moves Wf Later (bvNeg a) :=
  Builds.moves fun _ hw => bvNeg_builds hw a

/-- A difference stores the negation, and then the sum with it. -/
theorem bvSub_moves (a b : Term) : Moves Wf Later (bvSub a b) :=
  Builds.moves fun _ hw => bvSub_builds hw a b

/-- Comparisons of constants are decided on the spot. -/
theorem bvGe_moves (a b : Term) : Moves Wf Later (bvGe a b) :=
  Builds.moves fun _ hw => bvGe_builds hw a b

theorem bvSge_moves (a b : Term) : Moves Wf Later (bvSge a b) :=
  Builds.moves fun _ hw => bvSge_builds hw a b

theorem bit_moves (x : Term) (i : Nat) : Moves Wf Later (bit x i) :=
  Builds.moves fun _ hw => bit_builds hw x i

/-! ## Substitution -/

/-- Frames that the constructors stay in that a substitution uses. -/
structure Builders (P : Store → Prop) (R : Store → Store → Prop) : Prop extends Frame P R where
  or : ∀ args, Moves P R (Store.or args)
  xor2 : ∀ a b, Moves P R (Store.xor2 a b)
  ite : ∀ c a b, Moves P R (Store.ite c a b)
  eq : ∀ a b, Moves P R (Store.eq a b)
  app : ∀ f args, Moves P R (Store.app f args)
  all : ∀ vars body, Moves P R (Store.all vars body)
  bvSum : ∀ args, Moves P R (Store.bvSum args)
  bvProduct : ∀ args, Moves P R (Store.bvProduct args)
  bvNeg : ∀ a, Moves P R (Store.bvNeg a)
  bvGe : ∀ a b, Moves P R (Store.bvGe a b)
  bvSge : ∀ a b, Moves P R (Store.bvSge a b)
  bit : ∀ x i, Moves P R (Store.bit x i)

/-- The constructors of a substitution extend the store. -/
theorem builders_later : Builders Wf Later where
  toFrame := later_frame
  or := or_moves
  xor2 := xor2_moves
  ite := ite_moves
  eq := eq_moves
  app := app_moves
  all := all_moves
  bvSum := bvSum_moves
  bvProduct := bvProduct_moves
  bvNeg := bvNeg_moves
  bvGe := bvGe_moves
  bvSge := bvSge_moves
  bit := bit_moves

variable {P : Store → Prop} {R : Store → Store → Prop}

/-- Whatever is remembered, the store moves along `R`. -/
def Steady (P : Store → Prop) (R : Store → Store → Prop) (op : SubstOp α) : Prop :=
  ∀ memo, Moves P R (op memo)

namespace Steady

/-- What is done to the store only is steady. -/
theorem lift (hR : Frame P R) {op : Op α} (h : Moves P R op) : Steady P R (liftM op) :=
  fun memo => hR.bind h fun a => hR.pure (a, memo)

theorem look (hR : Frame P R) (g : Store → α) : Steady P R (liftM (Store.look g)) :=
  lift hR fun _ hs => hR.refl hs

/-- A steady operation may be run from any memory. -/
theorem run' (hR : Frame P R) {op : SubstOp α} (h : Steady P R op) (memo : Subst) :
    Moves P R (op.run' memo) :=
  hR.map _ (h memo)

theorem pure (hR : Frame P R) (a : α) : Steady P R (pure a) := fun _ => hR.pure _

/-- Steady operations one after the other are steady. -/
theorem bind (hR : Frame P R) {op : SubstOp α} {f : α → SubstOp β} (h : Steady P R op)
    (hf : ∀ a, Steady P R (f a)) :
    Steady P R (op >>= f) :=
  fun memo => hR.bind (h memo) fun x => hf x.1 x.2

/-- A steady operation may be done for every member of a list. -/
theorem mapM (hR : Frame P R) {f : α → SubstOp β} (as : List α) (h : ∀ a, Steady P R (f a)) :
    Steady P R (as.mapM f) := by
  induction as with
  | nil => exact pure hR _
  | cons a as ih =>
    rw [List.mapM_cons]
    exact bind hR (h a) fun b => bind hR ih fun bs => pure hR _

/-- What is remembered may be read. -/
theorem get_bind {f : Subst → SubstOp β} (h : ∀ memo, Moves P R (f memo memo)) :
    Steady P R (get >>= f) := h

end Steady

namespace Builders

variable (hB : Builders P R)

include hB

/-- The node is rebuilt by one of the constructors, once its parts were substituted in. -/
theorem rebuild {sub : Subst → Term → SubstOp Term} (hsub : ∀ σ t, Steady P R (sub σ t)) (σ : Subst)
    (p : Term) :
    Steady P R (rebuild sub σ p) := by
  have hR := hB.toFrame
  have one {t : Term} {f : Term → SubstOp Term} (hf : ∀ t, Steady P R (f t)) :
      Steady P R (sub σ t >>= f) :=
    .bind hR (hsub σ t) hf
  have many {ts : List Term} {f : List Term → SubstOp Term} (hf : ∀ ts, Steady P R (f ts)) :
      Steady P R (ts.mapM (sub σ) >>= f) :=
    .bind hR (.mapM hR ts (hsub σ)) hf
  refine .bind hR (.look hR _) fun shape => ?_
  split
  · exact fun _ => hR.throw _
  · exact .pure hR _
  · exact .pure hR _
  · exact .pure hR _
  · exact .pure hR _
  · exact one fun c => one fun a => one fun b => .lift hR (hB.ite c a b)
  · exact one fun a => one fun b => .lift hR (hB.eq a b)
  · exact one fun a => one fun b => .lift hR (hB.xor2 a b)
  · exact one fun a => one fun b => .lift hR (hB.bvGe a b)
  · exact one fun a => one fun b => .lift hR (hB.bvSge a b)
  · exact one fun x => .lift hR (hB.bvNeg x)
  · exact one fun x => .lift hR (hB.bit x _)
  · exact many fun args => .lift hR (hB.or args)
  · exact many fun args => .lift hR (hB.bvSum args)
  · exact many fun args => .lift hR (hB.bvProduct args)
  · exact one fun f => many fun args => .lift hR (hB.app f args)
  next vars body =>
    split
    · simp only
      split
      · exact .bind hR (.pure hR _) fun body => .lift hR (hB.all vars body)
      · exact .bind hR (.lift hR ((hsub _ body).run' hR ∅)) fun body => .lift hR (hB.all vars body)
    · exact one fun body => .lift hR (hB.all vars body)

/-- The induction is on the depth to which terms are opened; each level rebuilds one node. -/
theorem substAt (depth : Nat) (σ : Subst) (t : Term) : Steady P R (substAt depth σ t) := by
  have hR := hB.toFrame
  induction depth generalizing σ t with
  | zero => exact fun _ => hR.throw _
  | succ depth ih =>
    unfold Store.substAt
    simp only
    split
    · exact .pure hR _
    · refine .get_bind fun memo => ?_
      cases memo[t.positive]? with
      | some r => exact hR.pure _
      | none => exact Steady.bind hR (hB.rebuild ih σ _) (fun r memo => hR.pure _) memo

/-- A substitution moves along every frame that the constructors move along. -/
theorem subst (σ : Subst) (t : Term) : Moves P R (subst σ t) := by
  have hR := hB.toFrame
  unfold Store.subst
  split
  · exact hR.pure _
  · exact hR.bind (fun _ hs => hR.refl hs) fun n => (hB.substAt _ σ t).run' hR ∅

end Builders

/-- A substitution only extends the store. -/
theorem subst_moves (σ : Subst) (t : Term) : Moves Wf Later (subst σ t) := builders_later.subst σ t

end Entail.Store
