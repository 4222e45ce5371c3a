import Mathlib.Tactic

/-!
# The first entry of largest score

A scan over a list that keeps the best admitted entry seen so far, and replaces
it only by a strictly better one, ends with the first admitted entry of largest
score.
-/

namespace AviKernel

variable {α : Type*} {l : List α} {P Q : ℕ → α → Prop} {score : α → ℕ} {i j max : ℕ} {a b : α}
  {best : Option α}

/-- The entry `a` at place `i` is admitted, and each other admitted entry has a
smaller score, or the same score and a later place. -/
structure FirstMax (l : List α) (P : ℕ → α → Prop) (score : α → ℕ) (i : ℕ) (a : α) : Prop where
  entry : l[i]? = some a
  admitted : P i a
  beats : ∀ j b, l[j]? = some b → P j b → score b < score a ∨ score b = score a ∧ i ≤ j

/-- The entry `b` at place `j` loses to a different admitted entry. -/
def Beaten (l : List α) (P : ℕ → α → Prop) (score : α → ℕ) (j : ℕ) (b : α) : Prop :=
  ∃ i a, l[i]? = some a ∧ P i a ∧ (score b < score a ∨ score b = score a ∧ i < j)

/-- What a scan knows after the entries of `l`: nothing was admitted, or `best`
is the first of largest score and `max` is that score plus one. -/
def BestOf (l : List α) (P : ℕ → α → Prop) (score : α → ℕ) (max : ℕ) (best : Option α) : Prop :=
  (max = 0 ∧ best = none ∧ ∀ i a, l[i]? = some a → ¬P i a) ∨
    ∃ i a, max = score a + 1 ∧ best = some a ∧ FirstMax l P score i a

theorem FirstMax.not_beaten (h : FirstMax l P score i a) : ¬Beaten l P score i a := by
  rintro ⟨j, b, hj, hP, hb⟩
  have hle := h.beats j b hj hP
  omega

theorem FirstMax.unique (ha : FirstMax l P score i a) (hb : FirstMax l P score j b) : a = b := by
  have hab := ha.beats j b hb.entry hb.admitted
  have hba := hb.beats i a ha.entry ha.admitted
  have hij : i = j := by omega
  subst hij
  exact Option.some.inj (ha.entry.symm.trans hb.entry)

theorem bestOf_nil : BestOf ([] : List α) P score 0 none := by
  left
  simp

theorem BestOf.isSome_iff (h : BestOf l P score max best) :
    best.isSome ↔ ∃ i a, l[i]? = some a ∧ P i a := by
  rcases h with ⟨-, rfl, hnone⟩ | ⟨i, a, -, rfl, hfirst⟩
  · constructor
    · intro h
      cases h
    · rintro ⟨i, a, hi, hP⟩
      exact absurd hP (hnone i a hi)
  · exact ⟨fun _ => ⟨i, a, hfirst.entry, hfirst.admitted⟩, fun _ => rfl⟩

theorem BestOf.max_eq_zero_iff (h : BestOf l P score max best) : max = 0 ↔ best = none := by
  rcases h with ⟨rfl, rfl, -⟩ | ⟨i, a, rfl, rfl, -⟩ <;> simp

theorem BestOf.firstMax (h : BestOf l P score max (some a)) : ∃ i, FirstMax l P score i a := by
  rcases h with ⟨-, hbest, -⟩ | ⟨i, b, -, hbest, hfirst⟩
  · cases hbest
  · cases hbest
    exact ⟨i, hfirst⟩

private theorem entry_append_singleton (h : (l ++ [a])[j]? = some b) :
    l[j]? = some b ∨ j = l.length ∧ b = a := by
  rcases lt_or_ge j l.length with hlt | hge
  · left
    rwa [List.getElem?_append_left hlt] at h
  · right
    rw [List.getElem?_append_right hge, List.getElem?_singleton] at h
    split at h
    · cases h
      exact ⟨by omega, rfl⟩
    · cases h

private theorem entry_append_left (h : l[j]? = some b) : (l ++ [a])[j]? = some b := by
  have hlt : j < l.length := (List.getElem?_eq_some_iff.mp h).1
  rwa [List.getElem?_append_left hlt]

theorem BestOf.skip (h : BestOf l P score max best) (hP : ¬P l.length a) :
    BestOf (l ++ [a]) P score max best := by
  rcases h with ⟨hmax, hbest, hnone⟩ | ⟨i, b, hmax, hbest, hfirst⟩
  · refine Or.inl ⟨hmax, hbest, fun j c hj => ?_⟩
    rcases entry_append_singleton hj with hj | ⟨rfl, rfl⟩
    · exact hnone j c hj
    · exact hP
  · refine Or.inr ⟨i, b, hmax, hbest, entry_append_left hfirst.entry, hfirst.admitted, ?_⟩
    intro j c hj hc
    rcases entry_append_singleton hj with hj | ⟨rfl, rfl⟩
    · exact hfirst.beats j c hj hc
    · exact absurd hc hP

theorem BestOf.replace (h : BestOf l P score max best) (hP : P l.length a)
    (hmax : max < score a + 1) : BestOf (l ++ [a]) P score (score a + 1) (some a) := by
  have hentry : (l ++ [a])[l.length]? = some a := by simp
  refine Or.inr ⟨l.length, a, rfl, rfl, hentry, hP, fun j c hj hc => ?_⟩
  rcases entry_append_singleton hj with hj | ⟨rfl, rfl⟩
  · rcases h with ⟨-, -, hnone⟩ | ⟨i, b, rfl, -, hfirst⟩
    · exact absurd hc (hnone j c hj)
    · have hle := hfirst.beats j c hj hc
      omega
  · exact Or.inr ⟨rfl, le_refl _⟩

theorem BestOf.keep (h : BestOf l P score max best) (hmax : ¬max < score a + 1) :
    BestOf (l ++ [a]) P score max best := by
  rcases h with ⟨rfl, -, -⟩ | ⟨i, b, rfl, hbest, hfirst⟩
  · exact absurd (Nat.succ_pos _) hmax
  · refine Or.inr ⟨i, b, rfl, hbest, entry_append_left hfirst.entry, hfirst.admitted, ?_⟩
    intro j c hj hc
    rcases entry_append_singleton hj with hj | ⟨rfl, rfl⟩
    · exact hfirst.beats j c hj hc
    · have hlt : i < l.length := (List.getElem?_eq_some_iff.mp hfirst.entry).1
      omega

/-- A scan that admits too much still finds the first of largest score among the
entries that `R` admits, exactly when each wrongly admitted entry is beaten by
one of them. -/
theorem BestOf.agrees_iff {R : α → Prop} (h : BestOf l Q score max best)
    (hsub : ∀ j b, R b → l[j]? = some b → Q j b) :
    ((best.isSome ↔ ∃ a ∈ l, R a) ∧
        ∀ a, best = some a → ∃ i, FirstMax l (fun _ a => R a) score i a) ↔
      ∀ j b, l[j]? = some b → Q j b → ¬R b → Beaten l (fun _ a => R a) score j b := by
  constructor
  · rintro ⟨-, hlongest⟩ j b hj hQ hR
    obtain ⟨a, rfl⟩ := Option.isSome_iff_exists.mp (h.isSome_iff.mpr ⟨j, b, hj, hQ⟩)
    obtain ⟨i, hi⟩ := hlongest a rfl
    obtain ⟨k, hk⟩ := h.firstMax
    have hRa : R a := hi.admitted
    have hne : k ≠ j := by
      rintro rfl
      have hab : a = b := by
        rw [hk.entry] at hj
        exact Option.some.inj hj
      exact hR (hab ▸ hRa)
    have hle := hk.beats j b hj hQ
    exact ⟨k, a, hk.entry, hRa, by omega⟩
  · intro hbeaten
    constructor
    · rw [h.isSome_iff]
      constructor
      · rintro ⟨j, b, hj, hQ⟩
        by_cases hR : R b
        · exact ⟨b, List.mem_of_getElem? hj, hR⟩
        · obtain ⟨i, a, hi, hRa, -⟩ := hbeaten j b hj hQ hR
          exact ⟨a, List.mem_of_getElem? hi, hRa⟩
      · rintro ⟨a, ha, hR⟩
        obtain ⟨j, hj⟩ := List.mem_iff_getElem?.mp ha
        exact ⟨j, a, hj, hsub j a hR hj⟩
    · rintro a rfl
      obtain ⟨k, hk⟩ := h.firstMax
      have hR : R a := by
        by_contra hR
        obtain ⟨i, b, hi, hRb, hlt⟩ := hbeaten k a hk.entry hk.admitted hR
        exact hk.not_beaten ⟨i, b, hi, hsub i b hRb hi, hlt⟩
      exact ⟨k, hk.entry, hR, fun j b hj hRb => hk.beats j b hj (hsub j b hRb hj)⟩

end AviKernel
