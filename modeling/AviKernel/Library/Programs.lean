import Mathlib.Tactic

/-!
# Programs over an interface

A program calls operations and goes on with what they answer.  It runs against any
implementation of the interface; where one implementation represents another one on the calls
that are admitted, every program that keeps to them does the same over both.
-/

namespace AviKernel

inductive Program (κ ρ α : Type)
  | ret (a : α)
  | call (q : κ) (next : ρ → Program κ ρ α)

namespace Program

variable {κ ρ α β σ τ : Type}

def bind (f : α → Program κ ρ β) : Program κ ρ α → Program κ ρ β
  | ret a => f a
  | call q next => call q fun r => bind f (next r)

/-- Run a program against an implementation. -/
def exec (answer : σ → κ → Option (ρ × σ)) : Program κ ρ α → σ → Option (α × σ)
  | ret a, s => some (a, s)
  | call q next, s => (answer s q).bind fun r => exec answer (next r.1) r.2

/-- Every call of the run is admitted in the state it is made in. -/
def Admits (answer : σ → κ → Option (ρ × σ)) (ok : σ → κ → Prop) : Program κ ρ α → σ → Prop
  | ret _, _ => True
  | call q next, s => ok s q ∧ ∀ r t, answer s q = some (r, t) → Admits answer ok (next r) t

variable {answer : σ → κ → Option (ρ × σ)} {answer' : τ → κ → Option (ρ × τ)}
  {ok : σ → κ → Prop} {R : σ → τ → Prop} {p : Program κ ρ α} {f : α → Program κ ρ β}
  {s t : σ} {u : τ} {a : α} {q : κ}

@[simp] theorem exec_ret : (ret a : Program κ ρ α).exec answer s = some (a, s) := rfl

@[simp] theorem exec_call {next : ρ → Program κ ρ α} :
    (call q next).exec answer s = (answer s q).bind fun r => (next r.1).exec answer r.2 := rfl

theorem exec_bind : (p.bind f).exec answer s =
    (p.exec answer s).bind fun r => (f r.1).exec answer r.2 := by
  induction p generalizing s with
  | ret a => rfl
  | call q next ih =>
      rw [bind, exec_call, exec_call, Option.bind_assoc]
      exact Option.bind_congr fun r _ => ih r.1

/-- Where admitted calls have the same answers in related states, and lead to related states, a
program that keeps to them has the same result. -/
theorem exec_represents
    (hcall : ∀ s u q, R s u → ok s q → ∃ r s' u', answer s q = some (r, s') ∧
      answer' u q = some (r, u') ∧ R s' u')
    (hR : R s u) (hok : p.Admits answer ok s) :
    ∃ a s' u', p.exec answer s = some (a, s') ∧ p.exec answer' u = some (a, u') ∧ R s' u' := by
  induction p generalizing s u with
  | ret a => exact ⟨a, s, u, rfl, rfl, hR⟩
  | call q next ih =>
      obtain ⟨hq, hnext⟩ := hok
      obtain ⟨r, s', u', hs, hu, hR'⟩ := hcall s u q hR hq
      obtain ⟨a, s'', u'', hs', hu', hR''⟩ := ih r hR' (hnext r s' hs)
      refine ⟨a, s'', u'', ?_, ?_, hR''⟩
      · rw [exec_call, hs, Option.bind_some, hs']
      · rw [exec_call, hu, Option.bind_some, hu']

section Records

variable {δ : Type} {record : σ → List δ} {entry : κ → δ} {P : δ → Prop}

/-- The record of an implementation grows by an entry for each call. -/
theorem record_of_exec
    (hrecord : ∀ s q r s', answer s q = some (r, s') → record s' = entry q :: record s)
    (h : p.exec answer s = some (a, t)) : ∃ new, record t = new ++ record s := by
  induction p generalizing s with
  | ret b =>
      cases h
      exact ⟨[], rfl⟩
  | call q next ih =>
      obtain ⟨⟨r, s'⟩, hs', hrest⟩ := Option.bind_eq_some_iff.mp h
      obtain ⟨new, hnew⟩ := ih r hrest
      refine ⟨new ++ [entry q], ?_⟩
      rw [hnew, hrecord s q r s' hs', List.append_assoc, List.singleton_append]

/-- What holds of all new entries of the record holds of all calls. -/
theorem admits_of_record
    (hrecord : ∀ s q r s', answer s q = some (r, s') → record s' = entry q :: record s)
    {new : List δ} (h : p.exec answer s = some (a, t)) (hnew : record t = new ++ record s)
    (hP : ∀ e ∈ new, P e) : p.Admits answer (fun _ q => P (entry q)) s := by
  induction p generalizing s new with
  | ret b => trivial
  | call q next ih =>
      obtain ⟨⟨r, s'⟩, hs', hrest⟩ := Option.bind_eq_some_iff.mp h
      obtain ⟨new', hnew'⟩ := record_of_exec hrecord hrest
      have hfirst := hrecord s q r s' hs'
      have hsplit : new = new' ++ [entry q] := by
        rw [hfirst, hnew] at hnew'
        have hsame : new ++ record s = new' ++ [entry q] ++ record s := by
          rw [hnew', List.append_assoc, List.singleton_append]
        exact List.append_cancel_right hsame
      refine ⟨hP _ (by simp [hsplit]), fun r₁ s₁ hs₁ => ?_⟩
      rw [hs'] at hs₁
      cases hs₁
      exact ih r hrest hnew' fun e he => hP e (hsplit ▸ List.mem_append_left _ he)

end Records

end Program

end AviKernel
