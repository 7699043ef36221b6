import Entail.Proofs.Egraph.Classes

/-!
# The signature table

Before two classes are joined, the applications that may get another signature give up standing for
the one they have; afterwards their signatures are entered again. An application that finds another
one of its signature is in the same class, or the equality of the two waits.
-/

namespace Entail.Egraph

variable {g g' : Egraph} {p q : Nat} {ps : List Nat} {key : Signature}

/-! ## Changing nothing else -/

/-- `g'` has another signature table and a longer log. -/
structure OnlySigs (g g' : Egraph) : Prop where
  eq_with : ∃ sigs undo, g' = g.modifyClasses fun k => { k with sigs, undo }
  undoes : Undoes g.classes g'.classes

namespace OnlySigs

theorem refl (g : Egraph) : OnlySigs g g := ⟨⟨_, _, rfl⟩, .refl _⟩

theorem trans {g'' : Egraph} (h : OnlySigs g g') (h' : OnlySigs g' g'') : OnlySigs g g'' where
  eq_with := by
    obtain ⟨sigs, undo, rfl⟩ := h.eq_with
    obtain ⟨sigs', undo', rfl⟩ := h'.eq_with
    exact ⟨sigs', undo', rfl⟩
  undoes := h.undoes.trans h'.undoes

theorem sameTables (h : OnlySigs g g') : SameTables g g' := by
  obtain ⟨sigs, undo, rfl⟩ := h.eq_with
  exact ⟨rfl, rfl, rfl, rfl, rfl, rfl⟩

theorem size_eq (h : OnlySigs g g') : g'.classes.size = g.classes.size := by
  obtain ⟨sigs, undo, rfl⟩ := h.eq_with
  rfl

/-- Where only signatures changed, the same nodes are equal. -/
theorem coarser (h : OnlySigs g g') : Coarser g g' := by
  have hundoes := h.undoes
  obtain ⟨sigs, undo, rfl⟩ := h.eq_with
  exact ⟨rfl, rfl, id, hundoes, rfl, rfl, rfl, rfl⟩

end OnlySigs

/-! ## Taking signatures out -/

/-- Every entry is an application of its signature. -/
def SigsSound (g : Egraph) : Prop :=
  ∀ {key : Signature} {p : Nat}, g.classes.sigs[key]? = some p → p < g.known ∧
    g.signature? p = some key

theorem onlySigs_eraseSig (g : Egraph) (p : Nat) : OnlySigs g (g.eraseSig p) := by
  refine ⟨?_, undoes_eraseSig g p⟩
  unfold eraseSig
  split
  · exact ⟨_, _, rfl⟩
  · split
    · exact ⟨_, _, rfl⟩
    · exact ⟨_, _, rfl⟩

/-- An application does not stand for its signature any more, the others stay. -/
theorem sigs_eraseSig (hs : g.SigsSound) :
    (g.eraseSig p).classes.sigs[key]? = some q ↔ g.classes.sigs[key]? = some q ∧ q ≠ p := by
  unfold eraseSig
  split
  next hnone =>
    refine ⟨fun hq => ⟨hq, fun heq => ?_⟩, And.left⟩
    have hsig := (hs hq).2
    rw [heq, hnone] at hsig
    cases hsig
  next own hown =>
    split
    next hfound =>
      show (g.classes.sigs.erase own)[key]? = some q ↔ _
      rw [Std.HashMap.getElem?_erase]
      by_cases hkey : own = key
      · subst hkey
        simp only [beq_self_eq_true, if_true, hfound]
        exact ⟨nofun, fun h => absurd (Option.some.inj h.1).symm h.2⟩
      · rw [if_neg (by simpa using hkey)]
        refine ⟨fun hq => ⟨hq, fun heq => hkey ?_⟩, And.left⟩
        have hsig := (hs hq).2
        rw [heq, hown] at hsig
        exact Option.some.inj hsig
    next hfound =>
      refine ⟨fun hq => ⟨hq, fun heq => hfound ?_⟩, And.left⟩
      have hsig := (hs hq).2
      rw [heq, hown] at hsig
      rw [Option.some.inj hsig, hq, heq]

/-- Taking an entry out keeps the signatures that are left sound. -/
theorem SigsSound.eraseSig (hs : g.SigsSound) (p : Nat) : (g.eraseSig p).SigsSound := by
  intro key q hq
  have honly := onlySigs_eraseSig g p
  rw [honly.sameTables.known_eq, honly.sameTables.signature?_eq]
  exact hs ((sigs_eraseSig hs).mp hq).1

/-- Taking the entries of some parents out changes signatures only, and leaves exactly those of the
others. -/
theorem eraseSigs_spec (hs : g.SigsSound) (ps : List Nat) :
    OnlySigs g (ps.foldl eraseSig g) ∧ ∀ {key : Signature} {q : Nat},
      (ps.foldl eraseSig g).classes.sigs[key]? = some q ↔ g.classes.sigs[key]? = some q ∧
      q ∉ ps := by
  induction ps generalizing g with
  | nil => exact ⟨.refl g, by simp⟩
  | cons p ps ih =>
    obtain ⟨honly, hsigs⟩ := ih (hs.eraseSig p)
    refine ⟨(onlySigs_eraseSig g p).trans honly, fun {key q} => ?_⟩
    rw [List.foldl_cons, hsigs, sigs_eraseSig hs, List.mem_cons, not_or, and_assoc]

/-! ## Entering signatures -/

/-- What entering the signatures of `ps` leads from `g` to, with the equalities found
before and after. -/
structure Entered (g : Egraph) (ps : List Nat) (found found' : List Edge) (g' : Egraph) : Prop where
  only : OnlySigs g g'
  sound : g'.SigsSound
  kept : ∀ {key : Signature} {q : Nat}, g.classes.sigs[key]? = some q →
    g'.classes.sigs[key]? = some q
  entered : ∀ {p key}, p ∈ ps → g.signature? p = some key →
    ∃ q, g'.classes.sigs[key]? = some q ∧ (g.root p = g.root q ∨ ⟨p, q, .congruence p q⟩ ∈ found')
  old : found ⊆ found'
  new : ∀ e ∈ found', e ∈ found ∨
    ∃ p q, e = ⟨p, q, .congruence p q⟩ ∧ p < g.known ∧ q < g.known ∧ g.Alike p q

/-- Entering one signature: it is there already, or it is new. -/
theorem enterSig_spec (hs : g.SigsSound) (hp : p < g.known) (found : List Edge) :
    g.Entered [p] found ((g.enterSig p).1.toList ++ found) (g.enterSig p).2 := by
  have hundoes := undoes_enterSig g p
  unfold enterSig at hundoes ⊢
  -- no signature, one that another node has, or one that is new
  split
  next hnone =>
    refine ⟨.refl g, hs, id, fun hmem hkey => ?_, by simp, fun e he => .inl he⟩
    rw [List.mem_singleton.mp hmem, hnone] at hkey
    cases hkey
  next own hown =>
    simp only [hown] at hundoes
    split
    next other hother =>
      have hlike : g.Alike p other := ⟨own, hown, (hs hother).2⟩
      have hfound {e : Edge} (he : e ∈ (if g.areEqual other p = true then none
          else some ⟨p, other, .congruence p other⟩ : Option Edge).toList ++ found) :
          e = ⟨p, other, .congruence p other⟩ ∨ e ∈ found := by
        split at he
        · exact .inr (by simpa using he)
        · simpa using he
      refine ⟨.refl g, hs, id, fun {p' key} hmem hkey => ⟨other, ?_, ?_⟩, by simp, fun e he => ?_⟩
      · obtain rfl := List.mem_singleton.mp hmem
        obtain rfl := Option.some.inj (hown.symm.trans hkey)
        exact hother
      · obtain rfl := List.mem_singleton.mp hmem
        split
        next heq =>
          have hroot : g.root other = g.root p' := by simpa [areEqual] using heq
          exact .inl hroot.symm
        · exact .inr (by simp)
      · rcases hfound he with rfl | hold
        · exact .inr ⟨p, other, rfl, hp, (hs hother).1, hlike⟩
        · exact .inl hold
    next hnone =>
      simp only [hnone] at hundoes
      have hentry (key : Signature) : (g.classes.sigs.insert own p)[key]? =
          if own = key then some p else g.classes.sigs[key]? := by
        rw [Std.HashMap.getElem?_insert]
        simp
      refine ⟨⟨⟨_, _, rfl⟩, hundoes⟩, fun {key q} hq => ?_, fun {key q} hq => ?_,
        fun {p' key} hmem hkey => ?_, by simp,
        fun e he => .inl (by simpa using he)⟩
      · change (g.classes.sigs.insert own p)[key]? = some q at hq
        rw [hentry] at hq
        split at hq
        next hkey =>
          obtain rfl := Option.some.inj hq
          exact ⟨hp, hkey ▸ hown⟩
        · exact hs hq
      · show (g.classes.sigs.insert own p)[key]? = some q
        rw [hentry, if_neg, hq]
        rintro rfl
        rw [hnone] at hq
        cases hq
      · obtain rfl := List.mem_singleton.mp hmem
        obtain rfl := Option.some.inj (hown.symm.trans hkey)
        refine ⟨p', ?_, .inl rfl⟩
        show (g.classes.sigs.insert own p')[own]? = some p'
        rw [hentry, if_pos rfl]

theorem enterSigs_cons (p : Nat) (ps : List Nat) (found : List Edge) (g : Egraph) :
    enterSigs (p :: ps) found g = enterSigs ps ((g.enterSig p).1.toList ++ found)
      (g.enterSig p).2 := by
  rw [enterSigs]
  split
  next heq => rw [heq]; rfl
  next heq => rw [heq]; rfl

/-- Entering parents again gives every one of them an entry or an edge to the node that has it. -/
theorem enterSigs_spec (hs : g.SigsSound) (hps : ∀ p ∈ ps, p < g.known) (found : List Edge) :
    g.Entered ps found (enterSigs ps found g).1 (enterSigs ps found g).2 := by
  induction ps generalizing g found with
  | nil => exact ⟨.refl g, hs, id, nofun, List.Subset.refl _, fun e he => .inl he⟩
  | cons p ps ih =>
    have hone := enterSig_spec hs (hps p List.mem_cons_self) found
    have hknown := hone.only.sameTables.known_eq
    have hrest := ih hone.sound (fun q hq => hknown ▸ hps q (List.mem_cons_of_mem p hq))
      ((g.enterSig p).1.toList ++ found)
    rw [enterSigs_cons]
    refine ⟨hone.only.trans hrest.only, hrest.sound, fun hq => hrest.kept (hone.kept hq), ?_,
      List.Subset.trans hone.old hrest.old, fun e he => ?_⟩
    · intro q key hq hkey
      rcases List.mem_cons.mp hq with rfl | hq
      · obtain ⟨r, hr, hor⟩ := hone.entered List.mem_cons_self hkey
        exact ⟨r, hrest.kept hr, hor.imp_right fun hmem => hrest.old hmem⟩
      · have hother := hrest.entered hq ((hone.only.sameTables.signature?_eq q).trans hkey)
        rwa [hone.only.sameTables.root_eq] at hother
    · rcases hrest.new e he with hold | ⟨q, r, rfl, hq, hr, hqr⟩
      · exact hone.new e hold
      · refine .inr ⟨q, r, rfl, hknown ▸ hq, hknown ▸ hr, ?_⟩
        rwa [Alike, hone.only.sameTables.signature?_eq, hone.only.sameTables.signature?_eq] at hqr

end Entail.Egraph
