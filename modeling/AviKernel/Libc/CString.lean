import AviKernel.Library.Terminated

/-!
# The string functions of the C library

A pointer is the list of the bytes from there to the end of its block.  Leaving
the block, to read or to write, has no result.
-/

namespace AviKernel.Libc

variable {b dest src l r : List UInt8} {n : ℕ}

def strlen : List UInt8 → Option ℕ
  | [] => none
  | c :: s => if c = 0 then some 0 else (strlen s).map (· + 1)

/-- The block of `dest` after the copy. -/
def strcpy : List UInt8 → List UInt8 → Option (List UInt8)
  | _ :: dest, c :: src => if c = 0 then some (0 :: dest) else (strcpy dest src).map (c :: ·)
  | _, _ => none

def strcat (dest src : List UInt8) : Option (List UInt8) := do
  let n ← strlen dest
  let tail ← strcpy (dest.drop n) src
  some (dest.take n ++ tail)

theorem strlen_append (hl : 0 ∉ l) : strlen (l ++ 0 :: r) = some l.length := by
  induction l with
  | nil => rfl
  | cons c l ih =>
      have hne : 0 ≠ c := List.ne_of_not_mem_cons hl
      rw [List.cons_append, strlen, if_neg hne.symm, ih (List.not_mem_of_not_mem_cons hl)]
      rfl

theorem strlen_of_spells (h : Spells 0 b l) : strlen b = some l.length := by
  obtain ⟨rest, rfl⟩ := h.eq
  exact strlen_append h.notMem

theorem spells_of_strlen (h : strlen b = some n) : Spells 0 b (b.take n) := by
  induction b generalizing n with
  | nil => cases h
  | cons c b ih =>
      by_cases hc : c = 0
      · subst hc
        obtain rfl : 0 = n := Option.some.inj h
        exact ⟨List.not_mem_nil, b, rfl⟩
      · rw [strlen, if_neg hc] at h
        obtain ⟨m, hm, rfl⟩ := Option.map_eq_some_iff.mp h
        obtain ⟨hnot, rest, hrest⟩ := ih hm
        refine ⟨List.not_mem_cons_of_ne_of_not_mem (Ne.symm hc) hnot, rest, ?_⟩
        rw [List.take_succ_cons, List.cons_append, ← hrest]

theorem strcpy_append (hl : 0 ∉ l) (hlen : l.length < dest.length) :
    strcpy dest (l ++ 0 :: r) = some (l ++ 0 :: dest.drop (l.length + 1)) := by
  induction l generalizing dest with
  | nil =>
      cases dest with
      | nil => cases hlen
      | cons d dest => rfl
  | cons c l ih =>
      cases dest with
      | nil => cases hlen
      | cons d dest =>
          have hne : 0 ≠ c := List.ne_of_not_mem_cons hl
          have hrest := ih (List.not_mem_of_not_mem_cons hl) (Nat.lt_of_succ_lt_succ hlen)
          rw [List.cons_append, strcpy, if_neg hne.symm, hrest]
          rfl

theorem strcpy_of_spells (h : Spells 0 src l) (hlen : l.length < dest.length) :
    strcpy dest src = some (l ++ 0 :: dest.drop (l.length + 1)) := by
  obtain ⟨rest, rfl⟩ := h.eq
  exact strcpy_append h.notMem hlen

/-- `strcat` appends the text of the source. -/
theorem strcat_of_spells (hdest : Spells 0 dest l) (hsrc : Spells 0 src r)
    (hlen : l.length + r.length < dest.length) :
    ∃ t, strcat dest src = some t ∧ t.length = dest.length ∧ Spells 0 t (l ++ r) := by
  have hroom : r.length < (dest.drop l.length).length := by
    rw [List.length_drop]
    omega
  have hnot : 0 ∉ l ++ r := fun h =>
    (List.mem_append.mp h).elim hdest.notMem hsrc.notMem
  refine ⟨(l ++ r) ++ 0 :: (dest.drop l.length).drop (r.length + 1), ?_, ?_, spells_append hnot⟩
  · rw [strcat, strlen_of_spells hdest, Option.bind_eq_bind, Option.bind_some,
      strcpy_of_spells hsrc hroom, Option.bind_eq_bind, Option.bind_some, hdest.take,
      List.append_assoc]
  · simp only [List.length_append, List.length_cons, List.length_drop]
    omega

end AviKernel.Libc
