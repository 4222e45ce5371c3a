import AviKernel.Utils.Bitmap

/-!
# The physical memory manager

One bit for every block of 4096 bytes, clear when the block is free.  The
bitmap lies in the memory that it describes, and so does the memory map of the
bootloader: a stray write to the one may be a write to the other.  The walks
over the map are bounded by a number of steps; a walk that needs more has no
result, and neither has a panic.
-/

namespace AviKernel.PhysicalMgr

def blockSize : ℕ := 4096

def usableMemoryStart : ℕ := 0x100000

def bootMappingMemoryEnd : ℕ := 0x400000

def memoryAvailable : ℕ := 1

/-- What the bootloader and the linker provide; `higherMemorySize` is in bytes.
The linker script puts the kernel above three gigabytes. -/
structure Boot where
  higherMemorySize : UInt32
  mmapAddr : UInt32
  mmapLength : UInt32
  kernelStart : UInt32
  kernelEnd : UInt32
  linked : 0xC0000000 ≤ kernelStart.toNat ∧ kernelStart.toNat ≤ kernelEnd.toNat

namespace Boot

def virtualToPhysical (v : UInt32) : ℕ := sub32 v.toNat 0xC0000000

def kernelStartP (boot : Boot) : ℕ := virtualToPhysical boot.kernelStart

def kernelEndP (boot : Boot) : ℕ := virtualToPhysical boot.kernelEnd

theorem kernelStartP_le (boot : Boot) : boot.kernelStartP ≤ boot.kernelEndP := by
  obtain ⟨hbase, hle⟩ := boot.linked
  have hlt := boot.kernelEnd.toNat_lt
  unfold kernelStartP kernelEndP virtualToPhysical
  rw [sub32_of_le (by omega) hbase, sub32_of_le (by omega) (by omega)]
  omega

/-- The end of the memory map. -/
def mmapEnd (boot : Boot) : ℕ := add32 boot.mmapAddr.toNat boot.mmapLength.toNat

def numberOfBlocks (boot : Boot) : ℕ := boot.higherMemorySize.toNat / blockSize

def numberOfCells (boot : Boot) : ℕ := boot.numberOfBlocks / 32

def bitmapSize (boot : Boot) : ℕ := boot.numberOfCells * 4

end Boot

/-! ## Entries of the memory map -/

def load64 (m : Memory) (a : ℕ) : ℕ := m.load32 a + 2 ^ 32 * m.load32 (a + 4)

def entrySize (m : Memory) (entry : ℕ) : ℕ := m.load32 entry

def entryAddr (m : Memory) (entry : ℕ) : ℕ := load64 m (entry + 4)

def entryLen (m : Memory) (entry : ℕ) : ℕ := load64 m (entry + 12)

def entryType (m : Memory) (entry : ℕ) : ℕ := m.load32 (entry + 20)

def nextEntry (m : Memory) (entry : ℕ) : ℕ := add32 (add32 entry (entrySize m entry)) 4

/-! ## Initialization -/

/-- The loop of `find_memory_for_bitmap`. -/
def findMemoryForBitmap (m : Memory) (boot : Boot) : ℕ → ℕ → Option ℕ
  | 0, _ => none
  | steps + 1, entry =>
      let size := boot.bitmapSize
      if entry < boot.mmapEnd then
        let addr := entryAddr m entry
        let len := entryLen m entry
        let afterKernel := (boot.kernelEndP + 1) % 2 ^ 64
        if entryType m entry = memoryAvailable ∧ usableMemoryStart ≤ addr ∧
            (addr + size) % 2 ^ 64 < bootMappingMemoryEnd ∧ size ≤ len then
          -- Before the kernel, or else after it.
          if (addr + size) % 2 ^ 64 < boot.kernelStartP then some (addr % 2 ^ 32)
          else if (afterKernel + size) % 2 ^ 64 < (addr + len) % 2 ^ 64 then
            some (afterKernel % 2 ^ 32)
          else findMemoryForBitmap m boot steps (nextEntry m entry)
        else findMemoryForBitmap m boot steps (nextEntry m entry)
      else none

structure State where
  memory : Memory
  bitmap : ℕ
  numberOfBlocks : ℕ
  numberOfCells : ℕ
  bitmapSize : ℕ

namespace State

def setUsed (s : State) (index : ℤ) : State :=
  { s with memory := Bitmap.set s.memory s.bitmap index }

def setFree (s : State) (index : ℤ) : State :=
  { s with memory := Bitmap.clear s.memory s.bitmap index }

def markBlock (s : State) (used : Bool) (index : ℤ) : State :=
  if used then s.setUsed index else s.setFree index

/-- The loop of `mark_memory_as`, for that many blocks. -/
def markBlocks (s : State) (used : Bool) (startBlock : ℕ) : ℕ → State
  | 0 => s
  | i + 1 => (s.markBlocks used startBlock i).markBlock used (toInt32 (add32 startBlock i))

def startBlock (startAddress : ℕ) : ℕ := startAddress / blockSize

def endBlock (startAddress size : ℕ) : ℕ := add32 startAddress size / blockSize

def blocksCount (startAddress size : ℕ) : ℕ :=
  add32 (sub32 (endBlock startAddress size) (startBlock startAddress)) 1

def markMemoryAs (s : State) (startAddress size : ℕ) (used : Bool) : State :=
  s.markBlocks used (startBlock startAddress) (blocksCount startAddress size)

/-- `memset` to zero. -/
def clearBytes (m : Memory) (start : ℕ) : ℕ → Memory
  | 0 => m
  | n + 1 => (clearBytes m start n).storeByte (add32 start n) 0

/-- The loop of `fill_bitmap`; the length it frees is the size of the entry. -/
def freeEntries (boot : Boot) : ℕ → State → ℕ → Option State
  | 0, _, _ => none
  | steps + 1, s, entry =>
      if entry < boot.mmapEnd then
        let s :=
          if entryType s.memory entry = memoryAvailable then
            s.markMemoryAs (entryAddr s.memory entry % 2 ^ 32) (entrySize s.memory entry) false
          else s
        freeEntries boot steps s (nextEntry s.memory entry)
      else some s

/-- The last part of `fill_bitmap`. -/
def reserve (boot : Boot) (s : State) : State :=
  let s := s.markMemoryAs 0 usableMemoryStart true
  let s := s.markMemoryAs s.bitmap (s.bitmapSize % 2 ^ 32) true
  s.markMemoryAs boot.kernelStartP (sub32 boot.kernelEndP boot.kernelStartP) true

def fillBitmap (boot : Boot) (steps : ℕ) (s : State) : Option State := do
  let s := { s with memory := clearBytes s.memory s.bitmap (s.bitmapSize % 2 ^ 32) }
  let s ← freeEntries boot steps s boot.mmapAddr.toNat
  some (reserve boot s)

/-! ## Allocation -/

/-- The inner loop of `allocate_block`, with the bits of the cell still to do. -/
def findFree (s : State) (i : ℕ) : ℕ → Option ℕ
  | 0 => none
  | todo + 1 =>
      let bit := i * 32 + (31 - todo)
      if Bitmap.test s.memory s.bitmap bit then s.findFree i todo else some bit

/-- The outer loop of `allocate_block`, with the cells still to do. -/
def allocateFrom (s : State) : ℕ → ℕ × State
  | 0 => (0, s)
  | todo + 1 =>
      let i := s.numberOfCells - (todo + 1)
      let cell := s.memory.load32 (s.bitmap + 4 * i)
      if cell ≠ 2 ^ 32 - 1 then
        match s.findFree i 32 with
        | some bit => (bit * blockSize % 2 ^ 32, s.setUsed bit)
        | none => s.allocateFrom todo
      else s.allocateFrom todo

def allocateBlock (s : State) : ℕ × State := s.allocateFrom s.numberOfCells

def freeBlock (s : State) (block : ℕ) : State :=
  if block % blockSize ≠ 0 then s else s.setFree (toInt32 (block / blockSize))

end State

/-- `PhysicalMgr::initialize`. -/
def initializeBlocks (memory : Memory) (boot : Boot) (steps : ℕ) : Option State := do
  let bitmap ← findMemoryForBitmap memory boot steps boot.mmapAddr.toNat
  State.fillBitmap boot steps
    ⟨memory, bitmap, boot.numberOfBlocks, boot.numberOfCells, boot.bitmapSize⟩

end AviKernel.PhysicalMgr
