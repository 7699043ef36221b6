/-!
# What an operation may do to its state

Operations on a store or on a context run in `EStateM` and keep what was done before a refusal. Many
facts about them have one shape: from a state with `P`, whatever the operation does, and whether it
is refused or not, the state only moves along some relation `R`. This file says so for `pure`,
`bind` and the list combinators, for any `R` that composes and keeps `P`, so that for a composed
operation only its primitive steps have to be looked at.
-/

namespace Entail

variable {ε σ α β : Type}

/-- The state in which a run ends, refused or not. -/
def endState : EStateM.Result ε σ α → σ
  | .ok _ s => s
  | .error _ s => s

/-- From `s`, `op` answers and ends as `Q` says, or is refused and ends as `E` says. -/
def Ends (op : EStateM ε σ α) (s : σ) (Q : α → σ → Prop) (E : σ → Prop) : Prop :=
  match op s with
  | .ok a s' => Q a s'
  | .error _ s' => E s'

/-- From a state with `P`, `op` moves along `R`, whether it is refused or not. -/
def Moves (P : σ → Prop) (R : σ → σ → Prop) (op : EStateM ε σ α) : Prop :=
  ∀ s, P s → R s (endState (op s))

/-- From `s`, `op` moves along `R`, and what it answers is as `Q` says. -/
def Leads (R : σ → σ → Prop) (s : σ) (op : EStateM ε σ α) (Q : α → σ → Prop) : Prop :=
  Ends op s (fun a s' => R s s' ∧ Q a s') (R s)

/-- Whatever `op` answers has `Q`. -/
def Answers (Q : α → Prop) (op : EStateM ε σ α) : Prop := ∀ s a s', op s = .ok a s' → Q a

/-- Relations that a sequence of moves stays in, starting from `P`. -/
structure Frame (P : σ → Prop) (R : σ → σ → Prop) : Prop where
  refl : ∀ {s}, P s → R s s
  trans : ∀ {a b c}, R a b → R b c → R a c
  stable : ∀ {a b}, P a → R a b → P b

/-- What a bind answers comes from an answer of its first part. -/
theorem bind_eq_ok {x : EStateM ε σ α} {f : α → EStateM ε σ β} {s s' : σ} {b : β} :
    (x >>= f) s = .ok b s' ↔ ∃ a s₁, x s = .ok a s₁ ∧ f a s₁ = .ok b s' := by
  show EStateM.bind x f s = _ ↔ _
  unfold EStateM.bind
  cases hs : x s with
  | ok a s₁ =>
    refine ⟨fun h => ⟨a, s₁, rfl, h⟩, ?_⟩
    rintro ⟨_, _, h₁, h₂⟩
    cases h₁
    exact h₂
  | error e s₁ => simp

/-- What an operation answers, with the state in which it ends. -/
theorem ok_of_run' {x : EStateM ε σ α} {s : σ} {a : α} (h : x.run' s = some a) :
    x s = .ok a (endState (x s)) := by
  delta EStateM.run' EStateM.run at h
  cases hx : x s with
  | ok b s' =>
    rw [hx] at h
    cases h
    rfl
  | error e s' =>
    rw [hx] at h
    cases h

theorem bind_of_ok {x : EStateM ε σ α} {f : α → EStateM ε σ β} {s s₁ : σ} {a : α}
    (h : x s = .ok a s₁) :
    (x >>= f) s = f a s₁ := by
  show EStateM.bind x f s = _
  unfold EStateM.bind
  rw [h]

theorem bind_of_error {x : EStateM ε σ α} {f : α → EStateM ε σ β} {s s₁ : σ} {e : ε}
    (h : x s = .error e s₁) :
    (x >>= f) s = .error e s₁ := by
  show EStateM.bind x f s = _
  unfold EStateM.bind
  rw [h]

/-- A pass over a list is refused where it is refused for one of its members, after those before
it. -/
theorem mapM_eq_error {f : α → EStateM ε σ β} {as : List α} {s s' : σ} {e : ε} :
    as.mapM f s = .error e s' ↔ ∃ before a after bs s₁, as = before ++ a :: after ∧
      before.mapM f s = .ok bs s₁ ∧ f a s₁ = .error e s' := by
  induction as generalizing s with
  | nil =>
    refine ⟨nofun, ?_⟩
    rintro ⟨before, a, after, -, -, h, -⟩
    cases before <;> cases h
  | cons x as ih =>
    rw [List.mapM_cons]
    constructor
    · intro h
      cases hx : f x s with
      | error e' s₁ =>
        rw [bind_of_error hx] at h
        cases h
        exact ⟨[], x, as, [], s, rfl, rfl, hx⟩
      | ok b s₁ =>
        rw [bind_of_ok hx] at h
        cases has : as.mapM f s₁ with
        | ok bs s₂ =>
          rw [bind_of_ok has] at h
          cases h
        | error e' s₂ =>
          rw [bind_of_error has] at h
          cases h
          obtain ⟨before, a, after, bs, s₃, rfl, hbefore, ha⟩ := ih.mp has
          refine ⟨x :: before, a, after, b :: bs, s₃, rfl, ?_, ha⟩
          rw [List.mapM_cons, bind_of_ok hx, bind_of_ok hbefore]
          rfl
    · rintro ⟨before, a, after, bs, s₁, heq, hbefore, ha⟩
      cases before with
      | nil =>
        obtain ⟨rfl, rfl⟩ := List.cons.inj heq
        cases hbefore
        rw [bind_of_error ha]
      | cons y before =>
        obtain ⟨rfl, rfl⟩ := List.cons.inj heq
        rw [List.mapM_cons] at hbefore
        obtain ⟨b, s₂, hx, hbefore⟩ := bind_eq_ok.mp hbefore
        obtain ⟨bs', s₃, hrest, hbefore⟩ := bind_eq_ok.mp hbefore
        cases hbefore
        rw [bind_of_ok hx, bind_of_error (ih.mpr ⟨before, a, after, _, _, rfl, hrest, ha⟩)]

namespace Answers

variable {Q : α → Prop} {R : β → Prop}

theorem pure {a : α} (h : Q a) : Answers Q (pure a : EStateM ε σ α) := fun _ _ _ hs => by
  cases hs
  exact h

theorem throw (e : ε) : Answers Q (throw e : EStateM ε σ α) := nofun

theorem bind {x : EStateM ε σ α} {f : α → EStateM ε σ β} (h : ∀ a, Answers R (f a)) :
    Answers R (x >>= f) := by
  intro s b s' hs
  obtain ⟨a, s₁, -, hf⟩ := bind_eq_ok.mp hs
  exact h a s₁ b s' hf

end Answers

namespace Ends

variable {x : EStateM ε σ α} {f : α → EStateM ε σ β} {s : σ} {Q Q' : α → σ → Prop} {E E' : σ → Prop}

theorem mono (h : Ends x s Q E) (hQ : ∀ a s', Q a s' → Q' a s') (hE : ∀ s', E s' → E' s') :
    Ends x s Q' E' := by
  unfold Ends at h ⊢
  cases hs : x s with
  | ok a s' =>
    rw [hs] at h
    exact hQ a s' h
  | error e s' =>
    rw [hs] at h
    exact hE s' h

theorem pure {a : α} (h : Q a s) : Ends (pure a : EStateM ε σ α) s Q E := h

theorem throw {e : ε} (h : E s) : Ends (throw e : EStateM ε σ α) s Q E := h

theorem bind {R : β → σ → Prop} (h : Ends x s (fun a s' => Ends (f a) s' R E) E) :
    Ends (x >>= f) s R E := by
  unfold Ends at h ⊢
  cases hs : x s with
  | ok a s' =>
    rw [hs] at h
    rw [bind_of_ok hs]
    exact h
  | error e s' =>
    rw [hs] at h
    rw [bind_of_error hs]
    exact h

/-- Two facts about the end of an operation hold of it at once. -/
theorem both (h : Ends x s Q E) (h' : Ends x s Q' E') :
    Ends x s (fun a s' => Q a s' ∧ Q' a s') fun s' => E s' ∧ E' s' := by
  unfold Ends at *
  cases hs : x s with
  | ok a s' =>
    rw [hs] at h h'
    exact ⟨h, h'⟩
  | error e s' =>
    rw [hs] at h h'
    exact ⟨h, h'⟩

theorem of_ok {a : α} {s' : σ} (h : Ends x s Q E) (hx : x s = .ok a s') : Q a s' := by
  unfold Ends at h
  rw [hx] at h
  exact h

theorem endState {E : σ → Prop} (h : Ends x s (fun _ => E) E) : E (endState (x s)) := by
  unfold Ends at h
  unfold Entail.endState
  split <;> simp_all

end Ends

/-- A move from more states is a move from fewer. -/
theorem Moves.weaken {P Q : σ → Prop} {R : σ → σ → Prop} {op : EStateM ε σ α} (hop : Moves P R op)
    (h : ∀ s, Q s → P s) : Moves Q R op :=
  fun s hs => hop s (h s hs)

/-- A move along a relation is one along every coarser relation. -/
theorem Moves.mono {P : σ → Prop} {R S : σ → σ → Prop} {op : EStateM ε σ α} (hop : Moves P R op)
    (h : ∀ a b, P a → R a b → S a b) : Moves P S op :=
  fun s hs => h _ _ hs (hop s hs)

namespace Frame

variable {P : σ → Prop} {R : σ → σ → Prop} (hR : Frame P R)

include hR

/-- A frame may start from more, if a move never loses it. -/
theorem and {Q : σ → Prop} (hQ : ∀ {a b}, P a → R a b → Q a → Q b) :
    Frame (fun s => P s ∧ Q s) R where
  refl h := hR.refl h.1
  trans := hR.trans
  stable h r := ⟨hR.stable h.1 r, hQ h.1 r h.2⟩

theorem pure (a : α) : Moves P R (pure a : EStateM ε σ α) := fun _ hs => hR.refl hs

theorem throw (e : ε) : Moves P R (throw e : EStateM ε σ α) := fun _ hs => hR.refl hs

/-- The rest of a bind may use what is known of its first part's answer. -/
theorem bind' {x : EStateM ε σ α} {f : α → EStateM ε σ β} (hx : Moves P R x)
    (hf : ∀ s a s', P s → x s = .ok a s' → R s s' → R s' (endState (f a s'))) :
    Moves P R (x >>= f) := by
  intro s hs
  have h := hx s hs
  cases hxs : x s with
  | ok a s' =>
    rw [hxs] at h
    rw [bind_of_ok hxs]
    exact hR.trans h (hf s a s' hs hxs h)
  | error e s' =>
    rw [hxs] at h
    rw [bind_of_error hxs]
    exact h

theorem bind {x : EStateM ε σ α} {f : α → EStateM ε σ β} (hx : Moves P R x)
    (hf : ∀ a, Moves P R (f a)) :
    Moves P R (x >>= f) :=
  hR.bind' hx fun _ a s' hs _ h => hf a s' (hR.stable hs h)

theorem map {x : EStateM ε σ α} (f : α → β) (hx : Moves P R x) : Moves P R (f <$> x) := by
  rw [← bind_pure_comp]
  exact hR.bind hx fun a => hR.pure (f a)

theorem forM {f : α → EStateM ε σ PUnit} (as : List α) (hf : ∀ a ∈ as, Moves P R (f a)) :
    Moves P R (as.forM f) := by
  induction as with
  | nil => exact hR.pure _
  | cons a as ih =>
    show Moves P R (f a >>= fun _ => as.forM f)
    exact hR.bind (hf a List.mem_cons_self) fun _ => ih fun b hb => hf b (List.mem_cons_of_mem _ hb)

theorem mapM {f : α → EStateM ε σ β} (as : List α) (hf : ∀ a ∈ as, Moves P R (f a)) :
    Moves P R (as.mapM f) := by
  induction as with
  | nil => exact hR.pure _
  | cons a as ih =>
    rw [List.mapM_cons]
    exact hR.bind (hf a List.mem_cons_self) fun b =>
      hR.bind (ih fun c hc => hf c (List.mem_cons_of_mem _ hc)) fun bs => hR.pure _

theorem foldlM {f : β → α → EStateM ε σ β} (as : List α) (b : β)
    (hf : ∀ b, ∀ a ∈ as, Moves P R (f b a)) :
    Moves P R (as.foldlM f b) := by
  induction as generalizing b with
  | nil => exact hR.pure _
  | cons a as ih =>
    rw [List.foldlM_cons]
    exact hR.bind (hf b a List.mem_cons_self) fun b => ih b fun b c hc =>
      hf b c (List.mem_cons_of_mem _ hc)

end Frame

/-! ## Moves with answers -/

namespace Leads

variable {P : σ → Prop} {R : σ → σ → Prop} {s : σ} {x : EStateM ε σ α} {f : α → EStateM ε σ β}
  {Q Q' : α → σ → Prop}
  {T : β → σ → Prop}

theorem mono (h : Leads R s x Q) (hQ : ∀ a s', R s s' → Q a s' → Q' a s') : Leads R s x Q' :=
  Ends.mono h (fun a s' ha => ⟨ha.1, hQ a s' ha.1 ha.2⟩) fun _ => id

theorem moves (h : Leads R s x Q) : R s (endState (x s)) :=
  Ends.endState (Ends.mono h (fun _ _ ha => ha.1) fun _ => id)

theorem weaken {S : σ → σ → Prop} (h : Leads R s x Q) (hRS : ∀ {a b}, R a b → S a b) :
    Leads S s x Q :=
  Ends.mono h (fun _ _ ha => ⟨hRS ha.1, ha.2⟩) fun _ => hRS

/-- What is known of an answer may depend on how it was got. -/
theorem answered (h : Leads R s x Q) : Leads R s x fun a s' => x s = .ok a s' ∧ Q a s' := by
  unfold Leads Ends at *
  cases hx : x s with
  | ok a s' =>
    rw [hx] at h
    exact ⟨h.1, rfl, h.2⟩
  | error e s' =>
    rw [hx] at h
    exact h

/-- Only the moves from `s` matter. -/
theorem reframe {S : σ → σ → Prop} (h : Leads R s x Q) (hRS : ∀ s', R s s' → S s s') :
    Leads S s x Q :=
  Ends.mono h (fun _ s' ha => ⟨hRS s' ha.1, ha.2⟩) hRS

/-- The moves along two relations are moves along both. -/
theorem both {S : σ → σ → Prop} (h : Leads R s x Q) (h' : Leads S s x Q') :
    Leads (fun s s' => R s s' ∧ S s s') s x fun a s' => Q a s' ∧ Q' a s' :=
  Ends.mono (Ends.both h h') (fun _ _ ha => ⟨⟨ha.1.1, ha.2.1⟩, ha.1.2, ha.2.2⟩) fun _ => id

theorem and (h : Leads R s x Q) (h' : Leads R s x Q') : Leads R s x fun a s' => Q a s' ∧ Q' a s' :=
  (h.both h').reframe fun _ hr => hr.1

/-- What is known of the moves along another relation may be noted of the answers. -/
theorem noting {S : σ → σ → Prop} (h : Leads R s x Q) (h' : Leads S s x Q') :
    Leads R s x fun a s' => Q a s' ∧ S s s' ∧ Q' a s' :=
  Ends.mono (Ends.both h h') (fun _ _ ha => ⟨ha.1.1, ha.1.2, ha.2⟩) fun _ h => h.1

/-- What is known of the answers and of the moves of an operation holds of both at once. -/
theorem of_moves (hmoves : R s (endState (x s))) (h : Ends x s Q fun _ => True) :
    Leads R s x Q := by
  unfold Leads Ends at *
  unfold endState at hmoves
  cases hx : x s with
  | ok a s' =>
    rw [hx] at hmoves h
    exact ⟨hmoves, h⟩
  | error e s' =>
    rw [hx] at hmoves
    exact hmoves

theorem of_moves_any (hmoves : R s (endState (x s))) : Leads R s x fun _ _ => True :=
  .of_moves hmoves (by unfold Ends; split <;> trivial)

section

variable (hR : Frame P R)

include hR

theorem pure (hs : P s) {a : α} (ha : Q a s) : Leads R s (pure a : EStateM ε σ α) Q :=
  ⟨hR.refl hs, ha⟩

theorem throw (hs : P s) (e : ε) : Leads R s (throw e : EStateM ε σ α) Q := hR.refl hs

theorem bind (hs : P s) (h : Leads R s x Q)
    (hf : ∀ a s', P s' → R s s' → Q a s' → Leads R s' (f a) T) :
    Leads R s (x >>= f) T := by
  refine Ends.bind (Ends.mono h (fun a s' ha => ?_) fun _ => id)
  exact Ends.mono (hf a s' (hR.stable hs ha.1) ha.1 ha.2)
    (fun b s'' hb => ⟨hR.trans ha.1 hb.1, hb.2⟩)
    fun _ => hR.trans ha.1

theorem map (hs : P s) (h : Leads R s x Q) {g : α → β}
    (hg : ∀ a s', P s' → R s s' → Q a s' → T (g a) s') :
    Leads R s (g <$> x) T := by
  rw [← bind_pure_comp]
  exact bind hR hs h fun a s' hs' hr ha => pure hR hs' (hg a s' hs' hr ha)

variable {as : List α}

/-- Each answer of a pass over a list stays what it was. -/
theorem mapM (hs : P s) (hT : ∀ {b s₁ s₂}, R s₁ s₂ → T b s₁ → T b s₂)
    (hf : ∀ a ∈ as, ∀ s', P s' → R s s' → Leads R s' (f a) T) :
    Leads R s (as.mapM f) fun bs s' => ∀ b ∈ bs, T b s' := by
  induction as generalizing s with
  | nil => exact pure hR hs nofun
  | cons a as ih =>
    rw [List.mapM_cons]
    refine bind hR hs (hf a List.mem_cons_self s hs (hR.refl hs)) fun b s₁ hs₁ hr₁ hb => ?_
    refine bind hR hs₁ (ih hs₁ fun c hc s₂ hs₂ hr₂ => hf c (List.mem_cons_of_mem _ hc) s₂ hs₂
      (hR.trans hr₁ hr₂))
      fun bs s₂ hs₂ hr₂ hbs => pure hR hs₂ fun c hc => ?_
    rcases List.mem_cons.mp hc with rfl | hc
    · exact hT hr₂ hb
    · exact hbs c hc

theorem foldlM {g : β → α → EStateM ε σ β} {b : β} (hs : P s) (hb : T b s)
    (hg : ∀ b, ∀ a ∈ as, ∀ s', P s' → R s s' → T b s' → Leads R s' (g b a) T) :
    Leads R s (as.foldlM g b) T := by
  induction as generalizing b s with
  | nil => exact pure hR hs hb
  | cons a as ih =>
    rw [List.foldlM_cons]
    refine bind hR hs (hg b a List.mem_cons_self s hs (hR.refl hs) hb) fun c s₁ hs₁ hr₁ hc => ?_
    exact ih hs₁ hc fun b a ha s₂ hs₂ hr₂ =>
      hg b a (List.mem_cons_of_mem _ ha) s₂ hs₂ (hR.trans hr₁ hr₂)

theorem forM {g : α → EStateM ε σ PUnit} (hs : P s)
    (hg : ∀ a ∈ as, ∀ s', P s' → R s s' → Leads R s' (g a) fun _ _ => True) :
    Leads R s (as.forM g) fun _ _ => True := by
  induction as generalizing s with
  | nil => exact pure hR hs trivial
  | cons a as ih =>
    show Leads R s (g a >>= fun _ => as.forM g) _
    refine bind hR hs (hg a List.mem_cons_self s hs (hR.refl hs)) fun _ s₁ hs₁ hr₁ _ => ?_
    exact ih hs₁ fun b hb s₂ hs₂ hr₂ => hg b (List.mem_cons_of_mem _ hb) s₂ hs₂ (hR.trans hr₁ hr₂)

end
end Leads
end Entail
