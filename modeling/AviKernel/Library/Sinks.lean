import AviKernel.Library.Words

/-!
# Sinks

A sink takes one item after the other, each with its place.  A program that has no other
effect than to fill a sink writes a list, whatever the sink does with the items.
-/

namespace AviKernel

/-- The state of a sink and the place of the next item, which is a 32-bit word. -/
structure Cursor (σ : Type*) where
  state : σ
  idx : ℕ

variable {α σ : Type*} {out : α → ℕ → σ → σ} {s : Cursor σ} {l l₁ l₂ : List α} {a : α}

namespace Cursor

def put (out : α → ℕ → σ → σ) (s : Cursor σ) (a : α) : Cursor σ :=
  ⟨out a s.idx s.state, add32 s.idx 1⟩

def putAll (out : α → ℕ → σ → σ) (s : Cursor σ) (l : List α) : Cursor σ := l.foldl (put out) s

@[simp] theorem putAll_nil : s.putAll out [] = s := rfl

@[simp] theorem putAll_cons : s.putAll out (a :: l) = (s.put out a).putAll out l := rfl

theorem putAll_append : s.putAll out (l₁ ++ l₂) = (s.putAll out l₁).putAll out l₂ :=
  List.foldl_append

theorem idx_putAll (hs : s.idx < 2 ^ 32) :
    (s.putAll out l).idx = (s.idx + l.length) % 2 ^ 32 := by
  induction l generalizing s with
  | nil => exact (Nat.mod_eq_of_lt hs).symm
  | cons a l ih =>
      have hnext : (s.put out a).idx = (s.idx + 1) % 2 ^ 32 := rfl
      rw [putAll_cons, ih add32_lt, hnext, Nat.mod_add_mod, List.length_cons, Nat.add_assoc,
        Nat.add_comm 1]

/-- The distance that the place has gone, which wraps like the place itself. -/
theorem sub32_idx_putAll (hs : s.idx < 2 ^ 32) (hl : l.length < 2 ^ 32) :
    sub32 (s.putAll out l).idx s.idx = l.length := by
  rw [idx_putAll hs, sub32]
  omega

end Cursor

/-! ## Programs that only write -/

/-- `f` has no other effect than to put the items of `l`, from every place on. -/
def Writes (out : α → ℕ → σ → σ) (f : Cursor σ → Cursor σ) (l : List α) : Prop :=
  ∀ s, s.idx < 2 ^ 32 → f s = s.putAll out l

/-- The same for a program that may have no result; whether it has one does not depend on the
sink. -/
def WritesOpt (out : α → ℕ → σ → σ) (f : Cursor σ → Option (Cursor σ)) (t : Option (List α)) :
    Prop :=
  ∀ s, s.idx < 2 ^ 32 → f s = t.map (s.putAll out)

section Writes

variable {f g : Cursor σ → Cursor σ} {p : Prop} [Decidable p]

theorem writes_id : Writes out id [] := fun _ _ => rfl

theorem writes_put (a : α) : Writes out (fun s => s.put out a) [a] := fun _ _ => rfl

theorem writes_putAll (l : List α) : Writes out (fun s => s.putAll out l) l := fun _ _ => rfl

theorem Writes.idx_lt (h : Writes out f l) (hs : s.idx < 2 ^ 32) : (f s).idx < 2 ^ 32 := by
  rw [h s hs, Cursor.idx_putAll hs]
  exact Nat.mod_lt _ (by decide)

/-- Two programs in a row write one list after the other. -/
theorem Writes.comp (hf : Writes out f l₁) (hg : Writes out g l₂) :
    Writes out (fun s => g (f s)) (l₁ ++ l₂) := by
  intro s hs
  have hsecond := hg (f s) (hf.idx_lt hs)
  rw [Cursor.putAll_append, ← hf s hs, ← hsecond]

end Writes

/-! ## Folding and bounded sinks -/

/-- A sink that does not look at the places folds the items. -/
theorem putAll_eq_foldl {g : σ → α → σ} (hout : ∀ a i x, out a i x = g x a) :
    (s.putAll out l).state = l.foldl g s.state := by
  induction l generalizing s with
  | nil => rfl
  | cons a l ih => rw [Cursor.putAll_cons, ih, List.foldl_cons, Cursor.put, hout]

/-- A sink that only takes items is filled up to any bound by the items below it. -/
theorem putAll_bounded {bound : ℕ} {store : α → ℕ → σ → σ}
    (hout : ∀ a i x, out a i x = if i < bound then store a i x else x)
    (hroom : s.idx + l.length < 2 ^ 32) :
    (s.putAll out l).state = (s.putAll store (l.take (bound - s.idx))).state := by
  induction l generalizing s with
  | nil => rw [List.take_nil]; rfl
  | cons a l ih =>
      rw [List.length_cons] at hroom
      have hidx : (s.put out a).idx = s.idx + 1 := add32_of_lt (by omega)
      rw [Cursor.putAll_cons, ih (by rw [hidx]; omega), hidx]
      by_cases hlt : s.idx < bound
      · have hput : s.put out a = s.put store a := by
          rw [Cursor.put, hout, if_pos hlt, Cursor.put]
        have hsucc : bound - s.idx = bound - (s.idx + 1) + 1 := by omega
        rw [hput, hsucc, List.take_succ_cons, Cursor.putAll_cons]
      · have hnone : bound - (s.idx + 1) = 0 := by omega
        have hnone' : bound - s.idx = 0 := by omega
        rw [hnone, hnone', List.take_zero, List.take_zero, Cursor.putAll_nil, Cursor.putAll_nil,
          Cursor.put, hout, if_neg hlt]

end AviKernel
