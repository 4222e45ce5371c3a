import AviKernel.Library.Paging
import AviKernel.Utils.Bitmap

/-!
# Paging entries

An entry is one word with flags and the address of a frame.  The flags are put
and tested as bits of a bitmap of one cell.
-/

namespace AviKernel

namespace PagingEntry

variable {m : Memory} {entry index a b i k frame : ℕ} {present writeable supervisor large : Bool}

def flagPresent : ℕ := 0

def flagWritable : ℕ := 1

def flagRequiresSupervisor : ℕ := 2

def flagAccessed : ℕ := 5

def frameMask : ℕ := 0xFFFFF000

/-- Put a bit of the one cell. -/
def put (entry index : ℕ) (what : Bool) : ℕ :=
  if what then setBit entry index else clearBit entry index

/-- Test a bit of the one cell. -/
def test (entry index : ℕ) : Bool := decide (0 < toInt32 (entry &&& 1 <<< index))

def setFrame (entry addr : ℕ) : ℕ :=
  entry &&& (2 ^ 32 - 1 ^^^ frameMask) ||| addr % 2 ^ 32 &&& frameMask

def setPresent (entry : ℕ) (p : Bool) : ℕ := put entry flagPresent p

def setWriteable (entry : ℕ) (w : Bool) : ℕ := put entry flagWritable w

def setRequiresSupervisor (entry : ℕ) (r : Bool) : ℕ := put entry flagRequiresSupervisor r

def getPresent (entry : ℕ) : Bool := test entry flagPresent

def getRequiresSupervisor (entry : ℕ) : Bool := test entry flagRequiresSupervisor

def getFrame (entry : ℕ) : ℕ := entry &&& frameMask

def create (present writeable requiresSupervisor : Bool) (frame : ℕ) : ℕ :=
  let entry := setPresent 0 present
  let entry := setWriteable entry writeable
  let entry := setRequiresSupervisor entry requiresSupervisor
  setFrame entry frame

end PagingEntry

namespace PageTableEntry

def create (present writeable requiresSupervisor : Bool) (frame : ℕ) : ℕ :=
  PagingEntry.create present writeable requiresSupervisor frame

end PageTableEntry

namespace PageDirectoryEntry

def flag4mb : ℕ := 7

def set4mbPageSize (entry : ℕ) (b : Bool) : ℕ := PagingEntry.put entry flag4mb b

def create (present writeable requiresSupervisor mb4PageSize : Bool) (frame : ℕ) : ℕ :=
  set4mbPageSize (PagingEntry.create present writeable requiresSupervisor frame) mb4PageSize

end PageDirectoryEntry

namespace PagingEntry

variable {m : Memory} {entry index a b i k frame : ℕ} {present writeable supervisor large : Bool}

/-- The bitmap with the entry as its cell. -/
theorem load32_put (ha : a < 2 ^ 32) (hi : i < 32) (what : Bool) :
    (Bitmap.put m a (i : ℤ) what).load32 a = put (m.load32 a) i what := by
  have hcell : Bitmap.cellAddr a (i : ℤ) = a := by
    rw [Bitmap.cellAddr, Bitmap.tdiv_natCast]
    omega
  rw [Bitmap.put_eq, hcell, Nat.mod_eq_of_lt hi, Memory.load32_store32_self]
  · rfl
  · exact putBit_lt Memory.load32_lt hi

theorem test_eq (hi : i < 31) : test entry i = entry.testBit i := by
  unfold test
  rw [Bitmap.and_one_shiftLeft]
  cases entry.testBit i with
  | false => rfl
  | true =>
      have hlt : 2 ^ i < 2 ^ 31 := Nat.pow_lt_pow_right (by decide) hi
      have hpos : 0 < 2 ^ i := Nat.two_pow_pos i
      rw [if_pos rfl, toInt32_of_lt hlt]
      exact decide_eq_true (by exact_mod_cast hpos)

theorem testBit_put (hk : k < 32) (what : Bool) :
    (put entry i what).testBit k = if k = i then what else entry.testBit k :=
  testBit_putBit hk

theorem put_lt (h : entry < 2 ^ 32) (hi : i < 32) (what : Bool) : put entry i what < 2 ^ 32 :=
  putBit_lt h hi

theorem testBit_frameMask (hk : k < 32) : frameMask.testBit k = decide (12 ≤ k) := by
  revert k
  decide

theorem setFrame_lt : setFrame entry frame < 2 ^ 32 := by
  apply Nat.or_lt_two_pow
  · exact lt_of_le_of_lt Nat.and_le_right (by decide)
  · exact lt_of_le_of_lt Nat.and_le_right (by decide)

theorem testBit_setFrame (hk : k < 32) : (setFrame entry frame).testBit k =
    if 12 ≤ k then frame.testBit k else entry.testBit k := by
  unfold setFrame
  rw [Nat.testBit_or, Nat.testBit_and, Nat.testBit_xor, Nat.testBit_and,
    Nat.testBit_two_pow_sub_one, Nat.testBit_mod_two_pow, testBit_frameMask hk]
  by_cases hle : 12 ≤ k
  · simp [hle, hk]
  · simp [hle, hk]

/-- The bits of a new entry. -/
theorem testBit_create (hk : k < 32) :
    (create present writeable supervisor frame).testBit k =
      if 12 ≤ k then frame.testBit k
      else if k = 2 then supervisor
      else if k = 1 then writeable
      else if k = 0 then present
      else false := by
  unfold create setRequiresSupervisor setWriteable setPresent
  dsimp only
  rw [testBit_setFrame hk, testBit_put hk, testBit_put hk, testBit_put hk, Nat.zero_testBit]
  rfl

theorem create_lt : create present writeable supervisor frame < 2 ^ 32 := setFrame_lt

theorem isPresent_create :
    Paging.isPresent (create present writeable supervisor frame) = present := by
  unfold Paging.isPresent
  rw [testBit_create (by decide)]
  rfl

theorem frameOf_eq (h : entry < 2 ^ 32) (hframe : frame < 2 ^ 32)
    (hbits : ∀ k < 32, 12 ≤ k → entry.testBit k = frame.testBit k) :
    Paging.frameOf entry = frame / 4096 := by
  have hpage : 4096 = 2 ^ 12 := by decide
  unfold Paging.frameOf
  rw [hpage]
  apply Nat.eq_of_testBit_eq
  intro k
  rw [Nat.testBit_div_two_pow, Nat.testBit_div_two_pow]
  by_cases hk : k + 12 < 32
  · exact hbits (k + 12) hk (by omega)
  · have hle : 2 ^ 32 ≤ 2 ^ (k + 12) := Nat.pow_le_pow_right (by decide) (by omega)
    rw [Nat.testBit_lt_two_pow (lt_of_lt_of_le h hle),
      Nat.testBit_lt_two_pow (lt_of_lt_of_le hframe hle)]

theorem frameOf_create (hframe : frame < 2 ^ 32) :
    Paging.frameOf (create present writeable supervisor frame) = frame / 4096 := by
  apply frameOf_eq create_lt hframe
  intro k hk hle
  rw [testBit_create hk, if_pos hle]

theorem testBit_directory_create (hk : k < 32) :
    (PageDirectoryEntry.create present writeable supervisor large frame).testBit k =
      if k = 7 then large else (create present writeable supervisor frame).testBit k :=
  testBit_put hk large

theorem isPresent_directory_create :
    Paging.isPresent (PageDirectoryEntry.create present writeable supervisor large frame) =
      present := by
  unfold Paging.isPresent
  rw [testBit_directory_create (by decide), testBit_create (by decide)]
  rfl

theorem isUser_create :
    Paging.isUser (create present writeable supervisor frame) = supervisor := by
  unfold Paging.isUser
  rw [testBit_create (by decide)]
  rfl

theorem isUser_directory_create :
    Paging.isUser (PageDirectoryEntry.create present writeable supervisor large frame) =
      supervisor := by
  unfold Paging.isUser
  rw [testBit_directory_create (by decide), testBit_create (by decide)]
  rfl

theorem isLarge_directory_create :
    Paging.isLarge (PageDirectoryEntry.create present writeable supervisor large frame) =
      large := by
  unfold Paging.isLarge
  rw [testBit_directory_create (by decide)]
  rfl

theorem directory_create_lt :
    PageDirectoryEntry.create present writeable supervisor large frame < 2 ^ 32 :=
  put_lt create_lt (by decide) large

theorem frameOf_directory_create (hframe : frame < 2 ^ 32) :
    Paging.frameOf (PageDirectoryEntry.create present writeable supervisor large frame) =
      frame / 4096 := by
  apply frameOf_eq directory_create_lt hframe
  intro k hk hle
  have hne : k ≠ 7 := by omega
  rw [testBit_directory_create hk, if_neg hne, testBit_create hk, if_pos hle]

end PagingEntry

end AviKernel
