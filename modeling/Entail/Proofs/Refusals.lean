import Entail.Proofs.Moves

/-!
# Why an operation is refused

An operation that is granted answers. Of an operation that may be refused it is often enough to know
what for: this file follows a condition on the causes through `bind` and the list combinators, along
with the moves of the state and what is answered.
-/

namespace Entail

variable {ε σ α β : Type} {s : σ} {x : EStateM ε σ α} {f : α → EStateM ε σ β}

/-- From `s`, the operation is not refused. -/
def Granted (op : EStateM ε σ α) (s : σ) : Prop := ∃ a s', op s = .ok a s'

namespace Granted

theorem pure (a : α) : Granted (pure a : EStateM ε σ α) s := ⟨a, s, rfl⟩

/-- A sequence is granted if its second part is granted wherever the first leads. -/
theorem bind (h : Granted x s) (hf : ∀ a s', x s = .ok a s' → Granted (f a) s') :
    Granted (x >>= f) s := by
  obtain ⟨a, s', hx⟩ := h
  obtain ⟨b, s'', hfa⟩ := hf a s' hx
  exact ⟨b, s'', bind_eq_ok.mpr ⟨a, s', hx, hfa⟩⟩

theorem ite {c : Prop} [Decidable c] {op op' : EStateM ε σ α} (h : c → Granted op s)
    (h' : ¬ c → Granted op' s) :
    Granted (if c then op else op') s := by
  split
  next hc => exact h hc
  next hc => exact h' hc

end Granted

/-- From `s`, `op` moves along `R`, what it answers is as `Q` says, and what it is refused for is
as `E` says. -/
structure Fares (E : ε → Prop) (R : σ → σ → Prop) (s : σ) (op : EStateM ε σ α) (Q : α → σ → Prop) :
    Prop where
  leads : Leads R s op Q
  cause : ∀ {e s'}, op s = .error e s' → E e

namespace Fares

variable {E E' : ε → Prop} {P : σ → Prop} {R : σ → σ → Prop} {Q Q' : α → σ → Prop}
  {T : β → σ → Prop}

theorem of_granted (h : Leads R s x Q) (hx : Granted x s) : Fares E R s x Q where
  leads := h
  cause he := by
    obtain ⟨a, s', hok⟩ := hx
    rw [hok] at he
    cases he

/-- What an operation is refused for may be left open. -/
theorem of_leads (h : Leads R s x Q) : Fares (fun _ => True) R s x Q := ⟨h, fun _ => trivial⟩

/-- More causes may be allowed, and less may be said of the answer. -/
theorem mono (h : Fares E R s x Q) (hE : ∀ e, E e → E' e) (hQ : ∀ a s', R s s' → Q a s' → Q' a s') :
    Fares E' R s x Q' :=
  ⟨h.leads.mono hQ, fun he => hE _ (h.cause he)⟩

theorem weaken {S : σ → σ → Prop} (h : Fares E R s x Q) (hRS : ∀ {a b}, R a b → S a b) :
    Fares E S s x Q :=
  ⟨h.leads.weaken hRS, h.cause⟩

theorem imp (h : Fares E R s x Q) (hQ : ∀ a s', R s s' → Q a s' → Q' a s') : Fares E R s x Q' :=
  h.mono (fun _ => id) hQ

/-- Only the moves from `s` matter. -/
theorem reframe {S : σ → σ → Prop} (h : Fares E R s x Q) (hRS : ∀ s', R s s' → S s s') :
    Fares E S s x Q :=
  ⟨h.leads.reframe hRS, h.cause⟩

/-- What holds at the end for each of a family holds for all of it. -/
theorem forall_ {ι : Type} [Nonempty ι] {Q : ι → α → σ → Prop} (h : ∀ i, Fares E R s x (Q i)) :
    Fares E R s x fun a s' => ∀ i, Q i a s' where
  leads := by
    obtain ⟨i⟩ := ‹Nonempty ι›
    have hmoves := (h i).leads.moves
    unfold Leads Ends
    cases hx : x s with
    | ok a s' => exact ⟨((h i).leads.of_ok hx).1, fun i => ((h i).leads.of_ok hx).2⟩
    | error e s' => rwa [hx] at hmoves
  cause he := by
    obtain ⟨i⟩ := ‹Nonempty ι›
    exact (h i).cause he

/-- The moves along two relations are moves along both. -/
theorem both {S : σ → σ → Prop} (h : Fares E R s x Q) (h' : Leads S s x Q') :
    Fares E (fun s s' => R s s' ∧ S s s') s x fun a s' => Q a s' ∧ Q' a s' :=
  ⟨h.leads.both h', h.cause⟩

section

variable (hR : Frame P R) (hs : P s)

include hR hs

theorem pure {a : α} (ha : Q a s) : Fares E R s (pure a : EStateM ε σ α) Q :=
  ⟨.pure hR hs ha, nofun⟩

theorem throw {e : ε} (he : E e) : Fares E R s (throw e : EStateM ε σ α) Q :=
  ⟨.throw hR hs e, fun h => by cases h; exact he⟩

/-- One call after another: the second starts where the first stopped, with what is known of its
answer. -/
theorem bind (h : Fares E R s x Q) (hf : ∀ a s', P s' → R s s' → Q a s' → Fares E R s' (f a) T) :
    Fares E R s (x >>= f) T where
  leads := .bind hR hs h.leads fun a s' hs' hr ha => (hf a s' hs' hr ha).leads
  cause {e s'} he := by
    cases hx : x s with
    | ok a s₁ =>
      obtain ⟨hr, ha⟩ := h.leads.of_ok hx
      rw [bind_of_ok hx] at he
      exact (hf a s₁ (hR.stable hs hr) hr ha).cause he
    | error e' s₁ =>
      rw [bind_of_error hx] at he
      cases he
      exact h.cause hx

theorem map (h : Fares E R s x Q) {g : α → β} (hg : ∀ a s', P s' → R s s' → Q a s' → T (g a) s') :
    Fares E R s (g <$> x) T := by
  rw [← bind_pure_comp]
  exact bind hR hs h fun a s' hs' hr ha => pure hR hs' (hg a s' hs' hr ha)

end

section

variable (hR : Frame P R) {as : List α}

include hR

theorem mapM (hs : P s) (hT : ∀ {b s₁ s₂}, R s₁ s₂ → T b s₁ → T b s₂)
    (hf : ∀ a ∈ as, ∀ s', P s' → R s s' → Fares E R s' (f a) T) :
    Fares E R s (as.mapM f) fun bs s' => ∀ b ∈ bs, T b s' := by
  induction as generalizing s with
  | nil => exact pure hR hs nofun
  | cons a as ih =>
    rw [List.mapM_cons]
    refine bind hR hs (hf a List.mem_cons_self s hs (hR.refl hs)) fun b s₁ hs₁ hr₁ hb => ?_
    refine bind hR hs₁ (ih hs₁ fun c hc s₂ hs₂ hr₂ => hf c (List.mem_cons_of_mem _ hc) s₂ hs₂
      (hR.trans hr₁ hr₂))
      fun bs s₂ hs₂ hr₂ hbs => pure hR hs₂ fun c hc => ?_
    rcases List.mem_cons.mp hc with rfl | hc
    · exact hT hr₂ hb
    · exact hbs c hc

theorem foldlM {g : β → α → EStateM ε σ β} {b : β} (hs : P s) (hb : T b s)
    (hg : ∀ b, ∀ a ∈ as, ∀ s', P s' → R s s' → T b s' → Fares E R s' (g b a) T) :
    Fares E R s (as.foldlM g b) T := by
  induction as generalizing b s with
  | nil => exact pure hR hs hb
  | cons a as ih =>
    rw [List.foldlM_cons]
    refine bind hR hs (hg b a List.mem_cons_self s hs (hR.refl hs) hb) fun c s₁ hs₁ hr₁ hc => ?_
    exact ih hs₁ hc fun b a ha s₂ hs₂ hr₂ =>
      hg b a (List.mem_cons_of_mem _ ha) s₂ hs₂ (hR.trans hr₁ hr₂)

/-- A loop has the failures of its body, by induction on the list. -/
theorem forM {g : α → EStateM ε σ PUnit} (hs : P s)
    (hg : ∀ a ∈ as, ∀ s', P s' → R s s' → Fares E R s' (g a) fun _ _ => True) :
    Fares E R s (as.forM g) fun _ _ => True := by
  induction as generalizing s with
  | nil => exact pure hR hs trivial
  | cons a as ih =>
    show Fares E R s (g a >>= fun _ => as.forM g) _
    refine bind hR hs (hg a List.mem_cons_self s hs (hR.refl hs)) fun _ s₁ hs₁ hr₁ _ => ?_
    exact ih hs₁ fun b hb s₂ hs₂ hr₂ => hg b (List.mem_cons_of_mem _ hb) s₂ hs₂ (hR.trans hr₁ hr₂)

end
end Fares
end Entail
