import Mathlib.Tactic

/-!
# Terminated texts

A buffer spells the list that stands before its first terminator.
-/

namespace AviKernel

variable {α : Type*} {z a : α} {b l m rest : List α} {n : ℕ}

/-- `b` starts with `l` and the terminator `z`, which is not in `l`. -/
structure Spells (z : α) (b l : List α) : Prop where
  notMem : z ∉ l
  eq : ∃ rest, b = l ++ z :: rest

theorem spells_append (h : z ∉ l) : Spells z (l ++ z :: rest) l := ⟨h, rest, rfl⟩

namespace Spells

theorem length_lt (h : Spells z b l) : l.length < b.length := by
  obtain ⟨rest, rfl⟩ := h.eq
  rw [List.length_append, List.length_cons]
  omega

theorem take (h : Spells z b l) : b.take l.length = l := by
  obtain ⟨rest, rfl⟩ := h.eq
  exact List.take_left

theorem drop (h : Spells z b l) (hn : n ≤ l.length) : Spells z (b.drop n) (l.drop n) := by
  obtain ⟨rest, rfl⟩ := h.eq
  refine ⟨fun hz => h.notMem (List.mem_of_mem_drop hz), rest, ?_⟩
  exact List.drop_append_of_le_length hn

theorem set (h : Spells z b l) (hn : n < l.length) (ha : a ≠ z) :
    Spells z (b.set n a) (l.set n a) := by
  obtain ⟨rest, rfl⟩ := h.eq
  refine ⟨fun hz => ?_, rest, List.set_append_left _ _ hn⟩
  rcases List.mem_or_eq_of_mem_set hz with hz | hz
  · exact h.notMem hz
  · exact ha hz.symm

end Spells

/-- A buffer spells what it agrees with up to the terminator. -/
theorem spells_of_getElem? (h : z ∉ l) (hagree : ∀ i < l.length, b[i]? = l[i]?)
    (hend : b[l.length]? = some z) : Spells z b l := by
  refine ⟨h, b.drop (l.length + 1), ?_⟩
  have htake : b.take l.length = l := by
    apply List.ext_getElem?
    intro i
    by_cases hi : i < l.length
    · rw [List.getElem?_take_of_lt hi, hagree i hi]
    · rw [List.getElem?_take_eq_none (by omega), List.getElem?_eq_none (by omega)]
  have hlt : l.length < b.length := (List.getElem?_eq_some_iff.mp hend).1
  have hget : b[l.length] = z := (List.getElem?_eq_some_iff.mp hend).2
  calc b = b.take l.length ++ b.drop l.length := (List.take_append_drop _ _).symm
    _ = l ++ z :: b.drop (l.length + 1) := by rw [htake, List.drop_eq_getElem_cons hlt, hget]

/-- The list before the first terminator; all of it where there is none. -/
def text [DecidableEq α] (z : α) (b : List α) : List α := b.takeWhile (· ≠ z)

variable [DecidableEq α]

@[simp] theorem text_nil : text z [] = [] := rfl

theorem text_cons_self : text z (z :: b) = [] := by
  rw [text, List.takeWhile_cons_of_neg (by simp)]

theorem text_cons_ne (h : a ≠ z) : text z (a :: b) = a :: text z b := by
  rw [text, List.takeWhile_cons_of_pos (by simpa using h)]
  rfl

theorem text_singleton : text z [a] = if a = z then [] else [a] := by
  split
  · next h => rw [h, text_cons_self]
  · next h => rw [text_cons_ne h, text_nil]

theorem text_replicate_self : text z (List.replicate n z) = [] := by
  cases n with
  | zero => rfl
  | succ n => rw [List.replicate_succ, text_cons_self]

theorem text_of_notMem (h : z ∉ b) : text z b = b := by
  induction b with
  | nil => rfl
  | cons a b ih =>
      have hne : z ≠ a := List.ne_of_not_mem_cons h
      rw [text_cons_ne hne.symm, ih (List.not_mem_of_not_mem_cons h)]

theorem notMem_text : z ∉ text z b := by
  induction b with
  | nil => exact List.not_mem_nil
  | cons a b ih =>
      by_cases ha : a = z
      · subst ha
        rw [text_cons_self]
        exact List.not_mem_nil
      · rw [text_cons_ne ha]
        exact List.not_mem_cons_of_ne_of_not_mem (Ne.symm ha) ih

/-- Two texts agree if their buffers do up to the first terminator. -/
theorem text_ofFn_eq_iff {f g : Fin n → α} :
    text z (List.ofFn f) = text z (List.ofFn g) ↔ ∀ i, (∀ j < i, f j ≠ z) → f i = g i := by
  induction n with
  | zero => simp
  | succ n ih =>
      rw [List.ofFn_succ, List.ofFn_succ, Fin.forall_fin_succ]
      have htail : (∀ i : Fin n, (∀ j < i.succ, f j ≠ z) → f i.succ = g i.succ) ↔
          (f 0 ≠ z → text z (List.ofFn fun i => f i.succ) =
            text z (List.ofFn fun i => g i.succ)) := by
        rw [ih]
        simp only [Fin.forall_fin_succ, Fin.succ_pos, forall_const, Fin.succ_lt_succ_iff]
        exact ⟨fun h h0 i hi => h i ⟨h0, hi⟩, fun h i hi => h hi.1 i hi.2⟩
      rw [htail]
      by_cases hf : f 0 = z
      · by_cases hg : g 0 = z
        · simp [hf, hg, text_cons_self]
        · simp [hf, text_cons_self, text_cons_ne hg, Ne.symm hg]
      · by_cases hg : g 0 = z
        · simp [hg, hf, text_cons_self, text_cons_ne hf]
        · simp [hf, text_cons_ne hf, text_cons_ne hg]

theorem spells_text (h : z ∈ b) : Spells z b (text z b) := by
  refine ⟨notMem_text, ?_⟩
  induction b with
  | nil => exact absurd h List.not_mem_nil
  | cons a b ih =>
      by_cases ha : a = z
      · subst ha
        exact ⟨b, by rw [text_cons_self, List.nil_append]⟩
      · have hb : z ∈ b := (List.mem_cons.mp h).resolve_left (Ne.symm ha)
        obtain ⟨rest, hrest⟩ := ih hb
        exact ⟨rest, by rw [text_cons_ne ha, List.cons_append, ← hrest]⟩

end AviKernel
