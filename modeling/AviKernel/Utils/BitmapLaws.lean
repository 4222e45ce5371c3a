import AviKernel.Utils.Bitmap

/-!
# The laws of a bitmap

What is put is tested, and what was tested is put back, but for the last bit of a
cell: it tests as clear where it is set.
-/

namespace AviKernel.Bitmap

variable {m : Memory} {base cells i j : ℕ} {what other : Bool}

/-- The index is an `int` that belongs to a bitmap of that many cells. -/
def InRange (cells i : ℕ) : Prop := i < 32 * cells ∧ i < 2 ^ 31

/-! ## The bytes of the memory -/

theorem bit_eq_testBit : bit m base i = (m.load32 (cellAddr base i)).testBit (i % 32) := by
  rw [load_cellAddr, bit]

/-- Putting the bit that is there changes nothing. -/
theorem byte_put_bit (m : Memory) (base i a : ℕ) :
    (put m base i (bit m base i)).byte a = m.byte a := by
  have hi : i % 32 < 32 := Nat.mod_lt _ (by decide)
  rw [put_eq, bit_eq_testBit, putBit_self Memory.load32_lt hi, Memory.byte_store32_load32]

/-- The last put is what counts. -/
theorem byte_put_put (m : Memory) (base i : ℕ) (what other : Bool) (a : ℕ) :
    (put (put m base i what) base i other).byte a = (put m base i other).byte a := by
  have hi : i % 32 < 32 := Nat.mod_lt _ (by decide)
  rw [put_eq m base i what, put_eq _ base i other,
    Memory.load32_store32_self (putBit_lt Memory.load32_lt hi),
    putBit_putBit Memory.load32_lt hi, Memory.byte_store32_store32, ← put_eq]

theorem cellAddr_apart (hi : i < 2 ^ 31) (hj : j < 2 ^ 31) (hcell : i / 32 ≠ j / 32) :
    ∀ k < 4, ∀ n < 4, (cellAddr base j + n) % 2 ^ 32 ≠ (cellAddr base i + k) % 2 ^ 32 := by
  intro k hk n hn
  rw [cellAddr, cellAddr, tdiv_natCast, tdiv_natCast]
  omega

theorem byte_put_comm (hi : i < 2 ^ 31) (hj : j < 2 ^ 31) (hne : i ≠ j) (m : Memory) (base : ℕ)
    (what other : Bool) (a : ℕ) :
    (put (put m base i what) base j other).byte a =
      (put (put m base j other) base i what).byte a := by
  have hi32 : i % 32 < 32 := Nat.mod_lt _ (by decide)
  have hj32 : j % 32 < 32 := Nat.mod_lt _ (by decide)
  by_cases hcell : i / 32 = j / 32
  · -- Both bits are in one cell, which is stored twice.
    have hsame : cellAddr base j = cellAddr base i := by
      rw [cellAddr, cellAddr, tdiv_natCast, tdiv_natCast, hcell]
    have hbit : i % 32 ≠ j % 32 := by omega
    rw [put_eq m base i, put_eq m base j, put_eq _ base j, put_eq _ base i, hsame,
      Memory.load32_store32_self (putBit_lt Memory.load32_lt hi32),
      Memory.load32_store32_self (putBit_lt Memory.load32_lt hj32), Memory.byte_store32_store32,
      Memory.byte_store32_store32, putBit_comm Memory.load32_lt hi32 hj32 hbit]
  · have hapart : ∀ k < 4, ∀ n < 4,
        (cellAddr base j + n) % 2 ^ 32 ≠ (cellAddr base i + k) % 2 ^ 32 :=
      cellAddr_apart hi hj hcell
    have hapart' : ∀ k < 4, ∀ n < 4,
        (cellAddr base i + n) % 2 ^ 32 ≠ (cellAddr base j + k) % 2 ^ 32 :=
      cellAddr_apart hj hi (Ne.symm hcell)
    rw [put_eq m base i, put_eq m base j, put_eq _ base j, put_eq _ base i,
      Memory.load32_store32_of_ne hapart, Memory.load32_store32_of_ne hapart',
      Memory.byte_store32_comm hapart]

/-! ## The laws -/

/-- The laws of an index and of what is put there. -/
structure PutGet (m : Memory) (base cells i : ℕ) (what : Bool) : Prop where
  reads : test (put m base i what) base i = what
  others : ∀ j, InRange cells j → j ≠ i → test (put m base i what) base j = test m base j
  commutes : ∀ j other, InRange cells j → j ≠ i → ∀ a,
    (put (put m base i what) base j other).byte a = (put (put m base j other) base i what).byte a
  restores : ∀ a, (put (put m base i what) base i (test m base i)).byte a = m.byte a
  keeps : ∀ a, (put m base i (test m base i)).byte a = m.byte a

/-- The bit is not the last one of its cell, or it is clear and stays clear. -/
def Readable (m : Memory) (base i : ℕ) (what : Bool) : Prop :=
  i % 32 ≠ 31 ∨ (bit m base i = false ∧ what = false)

theorem test_put_of_ne (hi : i < 2 ^ 31) (hj : j < 2 ^ 31) (hne : j ≠ i) :
    test (put m base i what) base j = test m base j := by
  rw [test_eq, test_eq, bit_put hi hj, if_neg hne]

theorem test_put_self (hi : i < 2 ^ 31) :
    test (put m base i what) base i = (what && decide (i % 32 ≠ 31)) := by
  rw [test_eq, bit_put hi hi, if_pos rfl]

/-- The bits that can be read as they are. -/
theorem test_eq_bit_iff : test m base i = bit m base i ↔ i % 32 ≠ 31 ∨ bit m base i = false := by
  rw [test_eq]
  by_cases hlast : i % 32 = 31 <;> cases bit m base i <;> simp [hlast]

theorem putGet_iff (hi : InRange cells i) :
    PutGet m base cells i what ↔ Readable m base i what := by
  obtain ⟨-, hi⟩ := hi
  have hreads : test (put m base i what) base i = what ↔ i % 32 ≠ 31 ∨ what = false := by
    rw [test_put_self hi]
    by_cases hlast : i % 32 = 31 <;> cases what <;> simp [hlast]
  constructor
  · intro h
    have hkeeps : test m base i = bit m base i := by
      have hbit : bit (put m base i (test m base i)) base i = bit m base i := by
        rw [bit_eq_testBit, bit_eq_testBit, Memory.load32_congr fun k _ => h.keeps _]
      rwa [bit_put hi hi, if_pos rfl] at hbit
    rcases hreads.mp h.reads with hlast | hwhat
    · exact Or.inl hlast
    · rcases test_eq_bit_iff.mp hkeeps with hlast | hclear
      · exact Or.inl hlast
      · exact Or.inr ⟨hclear, hwhat⟩
  · intro h
    have htest : test m base i = bit m base i := test_eq_bit_iff.mpr (h.imp_right And.left)
    refine ⟨hreads.mpr (h.imp_right And.right), fun j hj hne => test_put_of_ne hi hj.2 hne,
      fun j other hj hne => byte_put_comm hi hj.2 hne.symm m base what other, fun a => ?_,
      fun a => ?_⟩
    · rw [byte_put_put, htest, byte_put_bit]
    · rw [htest, byte_put_bit]

theorem putGet_iff_secondCell : PutGet ⟨fun _ => 0, []⟩ 0x1000 2 40 true ↔
    Readable ⟨fun _ => 0, []⟩ 0x1000 40 true :=
  putGet_iff ⟨by decide, by decide⟩

/-- The last bit of the first cell is set, and is tested as clear. -/
theorem not_putGet : ¬ ∀ (m : Memory) (base cells i : ℕ) (what : Bool), InRange cells i →
    PutGet m base cells i what := by
  intro h
  have hreads := (h ⟨fun _ => 0, []⟩ 0x1000 1 31 true ⟨by decide, by decide⟩).reads
  exact absurd hreads (by decide)

end AviKernel.Bitmap
