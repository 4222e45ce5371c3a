import AviKernel.Library.ByteMemory
import Mathlib.Data.List.GetD

/-!
# The string functions on addresses

The functions of the C library on one memory in which their arguments may overlap.  A loop
that gets to the end of the address space has no result.
-/

namespace AviKernel.Memory

variable {m m' : Memory} {a dest i n src steps x : ℕ} {l r : List UInt8}

def strlenFrom (m : Memory) : ℕ → ℕ → Option ℕ
  | 0, _ => none
  | steps + 1, s => if m.byte s = 0 then some 0 else (m.strlenFrom steps (s + 1)).map (· + 1)

def strlen (m : Memory) (str : ℕ) : Option ℕ := m.strlenFrom (2 ^ 32 - str) str

/-- The loop of `strcpy`, which stores a byte before it looks at it. -/
def strcpyFrom (m : Memory) : ℕ → ℕ → ℕ → Option Memory
  | 0, _, _ => none
  | steps + 1, dest, src =>
      if m.byte src = 0 then some (m.storeByte dest (m.byte src))
      else (m.storeByte dest (m.byte src)).strcpyFrom steps (dest + 1) (src + 1)

def strcpy (m : Memory) (dest src : ℕ) : Option Memory := m.strcpyFrom (2 ^ 32 - src) dest src

def strcat (m : Memory) (dest src : ℕ) : Option Memory := do
  let length ← m.strlen dest
  m.strcpy (dest + length) src

/-- The text `l` and its terminator stand at the address. -/
structure SpellsAt (m : Memory) (a : ℕ) (l : List UInt8) : Prop where
  notMem : 0 ∉ l
  bytes : ∀ i ≤ l.length, m.byte (a + i) = l.getD i 0

/-! ## The length -/

theorem strlenFrom_eq_some_iff : m.strlenFrom steps a = some n ↔
    n < steps ∧ m.byte (a + n) = 0 ∧ ∀ i < n, m.byte (a + i) ≠ 0 := by
  induction steps generalizing a n with
  | zero => simp [strlenFrom]
  | succ steps ih =>
      rw [strlenFrom]
      split_ifs with hzero
      · constructor
        · intro h
          obtain rfl := Option.some.inj h
          exact ⟨by omega, hzero, fun i hi => absurd hi (Nat.not_lt_zero i)⟩
        · rintro ⟨-, -, hne⟩
          cases n with
          | zero => rfl
          | succ n => exact absurd hzero (hne 0 n.succ_pos)
      · rw [Option.map_eq_some_iff]
        constructor
        · rintro ⟨k, hk, rfl⟩
          obtain ⟨hlt, hend, hne⟩ := ih.mp hk
          rw [Nat.add_right_comm, Nat.add_assoc] at hend
          refine ⟨by omega, hend, fun i hi => ?_⟩
          cases i with
          | zero => exact hzero
          | succ i =>
              have := hne i (by omega)
              rwa [Nat.add_right_comm, Nat.add_assoc] at this
        · rintro ⟨hlt, hend, hne⟩
          cases n with
          | zero => exact absurd hend hzero
          | succ n =>
              refine ⟨n, ih.mpr ⟨by omega, ?_, fun i hi => ?_⟩, rfl⟩
              · rw [Nat.add_right_comm, Nat.add_assoc]
                exact hend
              · rw [Nat.add_right_comm, Nat.add_assoc]
                exact hne (i + 1) (by omega)

theorem strlen_eq_some_iff : m.strlen a = some n ↔
    a + n < 2 ^ 32 ∧ m.byte (a + n) = 0 ∧ ∀ i < n, m.byte (a + i) ≠ 0 := by
  rw [strlen, strlenFrom_eq_some_iff, Nat.lt_sub_iff_add_lt, Nat.add_comm n a]

namespace SpellsAt

theorem byte_end (h : m.SpellsAt a l) : m.byte (a + l.length) = 0 := by
  rw [h.bytes _ le_rfl, List.getD_eq_default _ _ le_rfl]

theorem getD_eq_zero_iff (hl : 0 ∉ l) (hi : i ≤ l.length) : l.getD i 0 = 0 ↔ i = l.length := by
  constructor
  · intro hzero
    by_contra hne
    have hlt : i < l.length := by omega
    rw [List.getD_eq_getElem _ _ hlt] at hzero
    exact hl (hzero ▸ List.getElem_mem hlt)
  · rintro rfl
    exact List.getD_eq_default _ _ le_rfl

theorem strlen (h : m.SpellsAt a l) (hlt : a + l.length < 2 ^ 32) :
    m.strlen a = some l.length := by
  refine strlen_eq_some_iff.mpr ⟨hlt, h.byte_end, fun i hi hzero => ?_⟩
  rw [h.bytes i hi.le, getD_eq_zero_iff h.notMem hi.le] at hzero
  omega

theorem getD_drop (l : List UInt8) (n i : ℕ) : (l.drop n).getD i 0 = l.getD (n + i) 0 := by
  rw [List.getD_eq_getElem?_getD, List.getD_eq_getElem?_getD, List.getElem?_drop]

theorem drop (h : m.SpellsAt a l) (hn : n ≤ l.length) : m.SpellsAt (a + n) (l.drop n) := by
  refine ⟨fun hz => h.notMem (List.mem_of_mem_drop hz), fun i hi => ?_⟩
  rw [List.length_drop] at hi
  rw [Nat.add_assoc, h.bytes (n + i) (by omega), getD_drop]

theorem append (hl : 0 ∉ l) (hbytes : ∀ i < l.length, m.byte (a + i) = l.getD i 0)
    (hr : m.SpellsAt (a + l.length) r) : m.SpellsAt a (l ++ r) := by
  refine ⟨fun hz => (List.mem_append.mp hz).elim hl hr.notMem, fun i hi => ?_⟩
  rw [List.length_append] at hi
  by_cases hlt : i < l.length
  · rw [hbytes i hlt, List.getD_append _ _ _ _ hlt]
  · have hplace : a + i = a + l.length + (i - l.length) := by omega
    rw [hplace, hr.bytes _ (by omega), List.getD_append_right _ _ _ _ (by omega)]

end SpellsAt

/-! ## The copy -/

/-- From any point on the loop goes on to copy byte by byte up to a zero. -/
theorem strcpyFrom_eq_some_iff :
    (m.copy dest src i).strcpyFrom steps (dest + i) (src + i) = some m' ↔
      ∃ n, i ≤ n ∧ n < i + steps ∧ m' = m.copy dest src (n + 1) ∧
        (m.copy dest src n).byte (src + n) = 0 ∧
        ∀ j, i ≤ j → j < n → (m.copy dest src j).byte (src + j) ≠ 0 := by
  induction steps generalizing i with
  | zero =>
      refine iff_of_false (fun h => nomatch h) ?_
      rintro ⟨n, hle, hlt, -⟩
      omega
  | succ steps ih =>
      have hstored : (m.copy dest src i).storeByte (dest + i) ((m.copy dest src i).byte (src + i)) =
          m.copy dest src (i + 1) := rfl
      rw [strcpyFrom, hstored]
      split_ifs with hzero
      · constructor
        · intro h
          obtain rfl := Option.some.inj h
          exact ⟨i, le_rfl, by omega, rfl, hzero, fun j hj hj' => by omega⟩
        · rintro ⟨n, hle, -, rfl, -, hne⟩
          obtain rfl | hlt := Nat.eq_or_lt_of_le hle
          · rfl
          · exact absurd hzero (hne i le_rfl hlt)
      · rw [Nat.add_assoc, Nat.add_assoc, ih]
        constructor
        · rintro ⟨n, hle, hlt, heq, hend, hne⟩
          refine ⟨n, by omega, by omega, heq, hend, fun j hj hj' => ?_⟩
          obtain rfl | hij := Nat.eq_or_lt_of_le hj
          · exact hzero
          · exact hne j hij hj'
        · rintro ⟨n, hle, hlt, heq, hend, hne⟩
          have hin : i ≠ n := by
            rintro rfl
            exact hzero hend
          exact ⟨n, by omega, by omega, heq, hend, fun j hj => hne j (by omega)⟩

theorem strcpy_eq_some_iff : m.strcpy dest src = some m' ↔
    ∃ n, src + n < 2 ^ 32 ∧ m' = m.copy dest src (n + 1) ∧
      (m.copy dest src n).byte (src + n) = 0 ∧
      ∀ j < n, (m.copy dest src j).byte (src + j) ≠ 0 := by
  have h := @strcpyFrom_eq_some_iff m m' dest 0 src (2 ^ 32 - src)
  rw [copy, Nat.add_zero, Nat.add_zero] at h
  rw [strcpy, h]
  apply exists_congr
  intro n
  simp only [Nat.zero_le, true_and, Nat.zero_add, forall_const, Nat.lt_sub_iff_add_lt,
    Nat.add_comm n src]

/-- Below the target nothing is stored. -/
theorem byte_strcpy_below (h : m.strcpy dest src = some m') (hx : x < dest) :
    m'.byte x = m.byte x := by
  obtain ⟨n, -, rfl, -⟩ := strcpy_eq_some_iff.mp h
  exact byte_copy_of_not_mem (Or.inl hx)

/-- A byte that has not been overwritten is read as it was. -/
theorem byte_copy_source (h : dest ≤ src ∨ src + n < dest) :
    (m.copy dest src n).byte (src + n) = m.byte (src + n) :=
  byte_copy_of_not_mem (by omega)

/-- A copy to below the source, or to above the text, ends with the text if and only if the
source has it. -/
theorem strcpy_spells_iff (hapart : dest ≤ src ∨ src + l.length < dest)
    (hlt : src + l.length < 2 ^ 32) :
    (∃ m', m.strcpy dest src = some m' ∧ m'.SpellsAt dest l) ↔ m.SpellsAt src l := by
  constructor
  · rintro ⟨m', hcopy, hspells⟩
    obtain ⟨n, -, rfl, hend, -⟩ := strcpy_eq_some_iff.mp hcopy
    have hlong : l.length ≤ n := by
      by_contra hshort
      have hread := @byte_copy_source m dest n src (by omega)
      have hmoved := @byte_copy_ascending m (n + 1) dest src n (by omega) (by omega)
      rw [hspells.bytes n (by omega), ← hread, hend,
        SpellsAt.getD_eq_zero_iff hspells.notMem (by omega)] at hmoved
      omega
    refine ⟨hspells.notMem, fun i hi => ?_⟩
    rw [← hspells.bytes i hi]
    exact (byte_copy_ascending (by omega) (by omega)).symm
  · intro hspells
    refine ⟨m.copy dest src (l.length + 1), ?_, hspells.notMem, fun i hi => ?_⟩
    · refine strcpy_eq_some_iff.mpr ⟨l.length, hlt, rfl, ?_, fun j hj => ?_⟩
      · rw [byte_copy_source hapart]
        exact hspells.byte_end
      · rw [byte_copy_source (by omega), hspells.bytes j hj.le]
        intro hzero
        have := (SpellsAt.getD_eq_zero_iff hspells.notMem hj.le).mp hzero
        omega
    · rw [byte_copy_ascending (by omega) (by omega)]
      exact hspells.bytes i hi

theorem strcat_spells_iff (hdest : m.SpellsAt dest l) (hlt : dest + l.length < 2 ^ 32)
    (hapart : dest + l.length ≤ src ∨ src + r.length < dest + l.length)
    (hlt' : src + r.length < 2 ^ 32) :
    (∃ m', m.strcat dest src = some m' ∧ m'.SpellsAt dest (l ++ r)) ↔ m.SpellsAt src r := by
  have hcat : m.strcat dest src = m.strcpy (dest + l.length) src := by
    simp only [strcat, hdest.strlen hlt, Option.bind_eq_bind, Option.bind_some]
  rw [← strcpy_spells_iff hapart hlt', hcat]
  apply exists_congr
  intro m'
  apply and_congr_right
  intro hcopy
  constructor
  · intro hspells
    have hrest := hspells.drop (n := l.length) (by simp)
    rwa [List.drop_left] at hrest
  · intro hrest
    refine SpellsAt.append hdest.notMem (fun i hi => ?_) hrest
    rw [byte_strcpy_below hcopy (by omega)]
    exact hdest.bytes i hi.le

end AviKernel.Memory
