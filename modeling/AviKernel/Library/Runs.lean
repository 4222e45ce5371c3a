import Mathlib.Tactic

/-!
# Runs of partial step functions

A system is a step function that may have no result.  `RunAll ok` says that
every action of a run meets a condition in the state it is taken in; an
invariant that such actions preserve holds, and the run has a result.
-/

namespace AviKernel

variable {σ τ α : Type*} {step : σ → α → Option σ} {step' : τ → α → Option τ}
  {ok : σ → α → Prop} {I : σ → Prop} {R : σ → τ → Prop} {s t : σ} {u : τ} {a : α} {as bs : List α}

/-- Take the actions in order. -/
def run (step : σ → α → Option σ) : σ → List α → Option σ
  | s, [] => some s
  | s, a :: as => (step s a).bind fun t => run step t as

/-- Each action meets `ok` in the state it is taken in. -/
def RunAll (step : σ → α → Option σ) (ok : σ → α → Prop) : σ → List α → Prop
  | _, [] => True
  | s, a :: as => ok s a ∧ ∀ t, step s a = some t → RunAll step ok t as

@[simp] theorem run_nil : run step s [] = some s := rfl

@[simp] theorem run_cons : run step s (a :: as) = (step s a).bind fun t => run step t as := rfl

@[simp] theorem runAll_nil : RunAll step ok s [] := trivial

@[simp] theorem runAll_cons : RunAll step ok s (a :: as) ↔
    ok s a ∧ ∀ t, step s a = some t → RunAll step ok t as := Iff.rfl

instance runAllDecidable [∀ s a, Decidable (ok s a)] :
    ∀ (s : σ) (as : List α), Decidable (RunAll step ok s as)
  | _, [] => isTrue trivial
  | s, a :: as =>
      match hs : step s a with
      | none => decidable_of_iff (ok s a) (by simp [hs])
      | some t =>
          have := runAllDecidable t as
          decidable_of_iff (ok s a ∧ RunAll step ok t as) (by simp [hs])

theorem run_append : run step s (as ++ bs) = (run step s as).bind fun t => run step t bs := by
  induction as generalizing s with
  | nil => rfl
  | cons a as ih =>
      rw [List.cons_append, run_cons, run_cons]
      cases step s a with
      | none => rfl
      | some u => simpa using ih

theorem runAll_append : RunAll step ok s (as ++ bs) ↔
    RunAll step ok s as ∧ ∀ t, run step s as = some t → RunAll step ok t bs := by
  induction as generalizing s with
  | nil => simp
  | cons a as ih =>
      rw [List.cons_append, runAll_cons, runAll_cons, and_assoc]
      refine and_congr_right fun _ => ?_
      cases hs : step s a with
      | none => simp [hs]
      | some u => simp [hs, ih]

theorem RunAll.mono {ok' : σ → α → Prop} (h : RunAll step ok s as)
    (himp : ∀ s a, ok s a → ok' s a) : RunAll step ok' s as := by
  induction as generalizing s with
  | nil => trivial
  | cons a as ih => exact ⟨himp s a h.1, fun t ht => ih (h.2 t ht)⟩

theorem RunAll.and {ok' : σ → α → Prop} (h : RunAll step ok s as) (h' : RunAll step ok' s as) :
    RunAll step (fun s a => ok s a ∧ ok' s a) s as := by
  induction as generalizing s with
  | nil => trivial
  | cons a as ih => exact ⟨⟨h.1, h'.1⟩, fun t ht => ih (h.2 t ht) (h'.2 t ht)⟩

/-- A condition on the actions alone. -/
theorem runAll_of_forall {P : α → Prop} (h : ∀ a ∈ as, P a) :
    RunAll step (fun _ a => P a) s as := by
  induction as generalizing s with
  | nil => trivial
  | cons a as ih =>
      exact ⟨h a (by simp), fun _ _ => ih fun b hb => h b (List.mem_cons_of_mem a hb)⟩

/-- In a run with a result each action has one. -/
theorem runAll_of_isSome (h : (run step s as).isSome) :
    RunAll step (fun s a => (step s a).isSome) s as := by
  induction as generalizing s with
  | nil => trivial
  | cons a as ih =>
      rw [run_cons] at h
      refine ⟨?_, fun t ht => ?_⟩
      · cases hs : step s a with
        | none => simp [hs] at h
        | some t => exact Option.isSome_iff_exists.mpr ⟨t, hs⟩
      · rw [ht] at h
        exact ih h

/-- An invariant that every admissible action preserves, and under which every
admissible action has a result, holds at the end of the run. -/
theorem run_invariant (hstep : ∀ s a, I s → ok s a → ∃ t, step s a = some t ∧ I t)
    (hs : I s) (hrun : RunAll step ok s as) : ∃ t, run step s as = some t ∧ I t := by
  induction as generalizing s with
  | nil => exact ⟨s, rfl, hs⟩
  | cons a as ih =>
      obtain ⟨hok, hrest⟩ := hrun
      obtain ⟨u, hu, hIu⟩ := hstep s a hs hok
      obtain ⟨t, ht, hIt⟩ := ih hIu (hrest u hu)
      exact ⟨t, by rw [run_cons, hu, Option.bind_some, ht], hIt⟩

/-- The same for actions that may have no result: the invariant holds if the
run has one. -/
theorem run_preserves (hstep : ∀ s a t, I s → ok s a → step s a = some t → I t)
    (hs : I s) (hrun : RunAll step ok s as) (h : run step s as = some t) : I t := by
  induction as generalizing s with
  | nil =>
      cases h
      exact hs
  | cons a as ih =>
      rw [run_cons] at h
      obtain ⟨u, hu, hrest⟩ := Option.bind_eq_some_iff.mp h
      exact ih (hstep s a u hs hrun.1 hu) (hrun.2 u hu) hrest

/-- An invariant that speaks of the actions so far. -/
theorem run_history {J : σ → List α → Prop}
    (hstep : ∀ t u bs a, J t bs → step t a = some u → J u (bs ++ [a])) (hs : J s [])
    (h : run step s as = some t) : J t as := by
  induction as using List.reverseRecOn generalizing t with
  | nil =>
      cases h
      exact hs
  | append_singleton as a ih =>
      rw [run_append] at h
      obtain ⟨u, hu, ha⟩ := Option.bind_eq_some_iff.mp h
      obtain ⟨v, hv, hvt⟩ := Option.bind_eq_some_iff.mp ha
      cases hvt
      exact hstep u t as a (ih hu) hv

/-- What the actions do under an invariant they do all along the run. -/
theorem RunAll.of_invariant {ok' : σ → α → Prop}
    (hstep : ∀ s a, I s → ok s a → ok' s a ∧ ∀ t, step s a = some t → I t)
    (hs : I s) (hrun : RunAll step ok s as) : RunAll step ok' s as := by
  induction as generalizing s with
  | nil => trivial
  | cons a as ih =>
      obtain ⟨hok, hrest⟩ := hrun
      obtain ⟨hok', hkeep⟩ := hstep s a hs hok
      exact ⟨hok', fun t ht => ih (hkeep t ht) (hrest t ht)⟩

/-- A loop over the numbers from `a` on, with an invariant of its own for each of
them. -/
theorem run_range' {step : σ → ℕ → Option σ} {J : ℕ → σ → Prop} {a n : ℕ} (hs : J a s)
    (hstep : ∀ i, a ≤ i → i < a + n → ∀ s, J i s → ∃ t, step s i = some t ∧ J (i + 1) t) :
    ∃ t, run step s (List.range' a n) = some t ∧ J (a + n) t := by
  induction n with
  | zero => exact ⟨s, rfl, hs⟩
  | succ n ih =>
      obtain ⟨u, hu, hJu⟩ := ih fun i hi hlt => hstep i hi (by omega)
      obtain ⟨t, ht, hJt⟩ := hstep (a + n) (by omega) (by omega) u hJu
      refine ⟨t, ?_, hJt⟩
      have hrange : List.range' a (n + 1) = List.range' a n ++ [a + n] := by
        rw [List.range'_concat, Nat.one_mul]
      rw [hrange, run_append, hu, Option.bind_some, run_cons, ht]
      rfl

theorem run_range {step : σ → ℕ → Option σ} {J : ℕ → σ → Prop} {n : ℕ} (hs : J 0 s)
    (hstep : ∀ i < n, ∀ s, J i s → ∃ t, step s i = some t ∧ J (i + 1) t) :
    ∃ t, run step s (List.range n) = some t ∧ J n t := by
  obtain ⟨t, ht, hJt⟩ := run_range' (a := 0) (n := n) hs fun i _ hi => hstep i (by omega)
  rw [Nat.zero_add] at hJt
  rw [← List.range_eq_range'] at ht
  exact ⟨t, ht, hJt⟩

/-- After every first part of the actions both systems have a state, and the
states are related. -/
def Simulates (step : σ → α → Option σ) (step' : τ → α → Option τ) (R : σ → τ → Prop) (s : σ)
    (u : τ) (as : List α) : Prop :=
  ∀ bs, bs <+: as → ∃ t v, run step s bs = some t ∧ run step' u bs = some v ∧ R t v

theorem Simulates.start (h : Simulates step step' R s u as) : R s u := by
  obtain ⟨t, v, ht, hv, hR⟩ := h [] List.nil_prefix
  cases ht
  cases hv
  exact hR

theorem simulates_nil : Simulates step step' R s u [] ↔ R s u := by
  refine ⟨Simulates.start, fun h bs hbs => ?_⟩
  obtain rfl := List.prefix_nil.mp hbs
  exact ⟨s, u, rfl, rfl, h⟩

theorem simulates_cons : Simulates step step' R s u (a :: as) ↔ R s u ∧
    ∃ t v, step s a = some t ∧ step' u a = some v ∧ Simulates step step' R t v as := by
  constructor
  · intro h
    obtain ⟨t, v, ht, hv, -⟩ := h [a] (List.prefix_append [a] as)
    obtain ⟨t', ht', -⟩ := Option.bind_eq_some_iff.mp ht
    obtain ⟨v', hv', -⟩ := Option.bind_eq_some_iff.mp hv
    refine ⟨h.start, t', v', ht', hv', fun bs hbs => ?_⟩
    have hcons := h (a :: bs) (List.cons_prefix_cons.mpr ⟨rfl, hbs⟩)
    rwa [run_cons, run_cons, ht', hv', Option.bind_some, Option.bind_some] at hcons
  · rintro ⟨hR, t, v, ht, hv, h⟩ bs hbs
    cases bs with
    | nil => exact ⟨s, u, rfl, rfl, hR⟩
    | cons b bs =>
        obtain ⟨rfl, hrest⟩ := List.cons_prefix_cons.mp hbs
        rw [run_cons, run_cons, ht, hv, Option.bind_some, Option.bind_some]
        exact h bs hrest

/-- Where an admissible action keeps related states related exactly if it meets
`P`, a run does exactly if each of its actions meets `P`. -/
theorem simulates_iff {ok : τ → α → Prop} {I : τ → Prop} {P : α → Prop}
    (hstep : ∀ s u a, R s u → I u → ok u a →
      ((∃ t v, step s a = some t ∧ step' u a = some v ∧ R t v) ↔ P a))
    (hinv : ∀ u a v, I u → ok u a → step' u a = some v → I v)
    (hR : R s u) (hI : I u) (hrun : RunAll step' ok u as) :
    Simulates step step' R s u as ↔ ∀ a ∈ as, P a := by
  induction as generalizing s u with
  | nil => simpa [simulates_nil] using hR
  | cons a as ih =>
      obtain ⟨hok, hrest⟩ := hrun
      rw [simulates_cons, List.forall_mem_cons, ← hstep s u a hR hI hok]
      constructor
      · rintro ⟨-, t, v, ht, hv, h⟩
        have hiff := ih h.start (hinv u a v hI hok hv) (hrest v hv)
        exact ⟨⟨t, v, ht, hv, h.start⟩, hiff.mp h⟩
      · rintro ⟨⟨t, v, ht, hv, hR'⟩, h⟩
        exact ⟨hR, t, v, ht, hv, (ih hR' (hinv u a v hI hok hv) (hrest v hv)).mpr h⟩

/-- What an admissible action does under the invariant it does at every point
of a run. -/
theorem run_step {P : σ → α → σ → Prop}
    (hstep : ∀ s a, I s → ok s a → ∃ t, step s a = some t ∧ I t ∧ P s a t)
    (hs : I s) (hrun : RunAll step ok s (as ++ [a])) :
    ∃ u t, run step s as = some u ∧ step u a = some t ∧ I t ∧ P u a t := by
  obtain ⟨hpre, hlast⟩ := runAll_append.mp hrun
  obtain ⟨u, hu, hIu⟩ := run_invariant
    (fun s a hI hok => (hstep s a hI hok).imp fun _ h => ⟨h.1, h.2.1⟩) hs hpre
  obtain ⟨t, ht, hIt, hP⟩ := hstep u a hIu (hlast u hu).1
  exact ⟨u, t, hu, ht, hIt, hP⟩

end AviKernel
