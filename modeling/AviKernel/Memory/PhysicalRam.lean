import AviKernel.Memory.PhysicalRuns

/-!
# Which memory is handed out

`fill_bitmap` starts from a bitmap of zeros, so the memory map frees nothing
that was not free: after initialization every block is free that is not
reserved.  The map is obeyed exactly when it agrees with that.
-/

namespace AviKernel.PhysicalMgr

open State

variable {s : State} {boot : Boot} {m memory : Memory} {b n p steps entry a : ℕ}

/-! ## What the memory map says -/

/-- The entries that a walk over the map comes to. -/
inductive Listed (m : Memory) (boot : Boot) : ℕ → Prop where
  | first : boot.mmapAddr.toNat < boot.mmapEnd → Listed m boot boot.mmapAddr.toNat
  | next {entry : ℕ} : Listed m boot entry → nextEntry m entry < boot.mmapEnd →
      Listed m boot (nextEntry m entry)

/-- The entries that a walk from one entry comes to. -/
inductive Walks (m : Memory) (boot : Boot) : ℕ → ℕ → Prop where
  | here {entry : ℕ} : entry < boot.mmapEnd → Walks m boot entry entry
  | next {entry e : ℕ} : entry < boot.mmapEnd → Walks m boot (nextEntry m entry) e →
      Walks m boot entry e

theorem Walks.snoc {e : ℕ} (h : Walks m boot entry e) (hnext : nextEntry m e < boot.mmapEnd) :
    Walks m boot entry (nextEntry m e) := by
  induction h with
  | here hin => exact Walks.next hin (Walks.here hnext)
  | next hin _ ih => exact Walks.next hin (ih hnext)

theorem Walks.lt {e : ℕ} (h : Walks m boot entry e) : entry < boot.mmapEnd := by
  cases h with
  | here hin => exact hin
  | next hin _ => exact hin

theorem listed_of_walks {e : ℕ} (h : Walks m boot entry e) (hlisted : Listed m boot entry) :
    Listed m boot e := by
  induction h with
  | here _ => exact hlisted
  | next _ hrest ih => exact ih (Listed.next hlisted hrest.lt)

theorem listed_iff_walks {e : ℕ} : Listed m boot e ↔ Walks m boot boot.mmapAddr.toNat e := by
  constructor
  · intro h
    induction h with
    | first hin => exact Walks.here hin
    | next _ hin ih => exact ih.snoc hin
  · exact fun h => listed_of_walks h (Listed.first h.lt)

theorem walks_iff {e : ℕ} (hin : entry < boot.mmapEnd) :
    Walks m boot entry e ↔ e = entry ∨ Walks m boot (nextEntry m entry) e := by
  constructor
  · intro h
    cases h with
    | here _ => exact Or.inl rfl
    | next _ hrest => exact Or.inr hrest
  · rintro (rfl | hrest)
    · exact Walks.here hin
    · exact Walks.next hin hrest

theorem forall_walks {P : ℕ → Prop} (hin : entry < boot.mmapEnd) :
    (∀ e, Walks m boot entry e → P e) ↔
      P entry ∧ ∀ e, Walks m boot (nextEntry m entry) e → P e := by
  constructor
  · exact fun h => ⟨h entry (Walks.here hin), fun e he => h e (Walks.next hin he)⟩
  · rintro ⟨hentry, hrest⟩ e he
    rcases (walks_iff hin).mp he with rfl | he
    · exact hentry
    · exact hrest e he

def region (m : Memory) (entry : ℕ) : Extent := ⟨entryAddr m entry, entryLen m entry⟩

/-- The byte lies in a region that is marked available. -/
def Available (m : Memory) (boot : Boot) (a : ℕ) : Prop :=
  ∃ entry, Listed m boot entry ∧ entryType m entry = memoryAvailable ∧ a ∈ region m entry

/-- The byte lies in a region of another type. -/
def Withheld (m : Memory) (boot : Boot) (a : ℕ) : Prop :=
  ∃ entry, Listed m boot entry ∧ entryType m entry ≠ memoryAvailable ∧ a ∈ region m entry

def block (b : ℕ) : Extent := ⟨b * blockSize, blockSize⟩

/-- The block is usable memory: available throughout and withheld nowhere. -/
def Usable (m : Memory) (boot : Boot) (b : ℕ) : Prop :=
  ∀ a ∈ block b, Available m boot a ∧ ¬ Withheld m boot a

/-- The block lies within one available region. -/
def WithinAvailable (m : Memory) (boot : Boot) (b : ℕ) : Prop :=
  ∃ entry, Listed m boot entry ∧ entryType m entry = memoryAvailable ∧
    ∀ a ∈ block b, a ∈ region m entry

/-- The block lies above the first megabyte and overlaps neither the kernel
nor the bitmap. -/
def Unoccupied (boot : Boot) (bitmap b : ℕ) : Prop :=
  ∀ a ∈ block b, usableMemoryStart ≤ a ∧ ¬ (boot.kernelStartP ≤ a ∧ a < boot.kernelEndP) ∧
    a ∉ (⟨bitmap, boot.bitmapSize⟩ : Extent)

/-- Some sequence of calls of `allocate_block` returns the address. -/
def Returnable (s : State) (p : ℕ) : Prop :=
  p ≠ 0 ∧ ∃ n, (s.afterAllocations n).allocateBlock.1 = p

/-- Only usable memory is handed out, and all usable memory that is not
occupied is free. -/
structure OnlyRam (m : Memory) (boot : Boot) (s : State) : Prop where
  returned : ∀ p, Returnable s p → ∀ a ∈ (⟨p, blockSize⟩ : Extent),
    Available m boot a ∧ ¬ Withheld m boot a
  free : ∀ b < 32 * s.numberOfCells, WithinAvailable m boot b →
    Unoccupied boot s.bitmap b → s.inUse b = false

/-- The memory map agrees with what `fill_bitmap` reserves: outside the reserved
blocks everything is usable, and the blocks reserved by rounding up hold no
unoccupied memory of an available region. -/
structure Agrees (m : Memory) (boot : Boot) (bitmap : ℕ) : Prop where
  usable : ∀ b < 32 * boot.numberOfCells, ¬ Reserved boot bitmap b → Usable m boot b
  rounded : ∀ b < 32 * boot.numberOfCells,
    b = 256 ∨ b = (bitmap + boot.bitmapSize) / blockSize ∨ b = boot.kernelEndP / blockSize →
      WithinAvailable m boot b → ¬ Unoccupied boot bitmap b

/-! ## What can be returned -/

theorem numberOfCells_allocateBlock (hcells : s.numberOfCells < 2 ^ 15) :
    s.allocateBlock.2.numberOfCells < 2 ^ 15 := by
  rw [numberOfCells_of_shape (shape_allocateBlock hcells)]
  exact hcells

theorem inUse_afterAllocations (hcells : s.numberOfCells < 2 ^ 15) (hb : b < 2 ^ 20)
    (h : (s.afterAllocations n).inUse b = false) : s.inUse b = false := by
  induction n generalizing s with
  | zero => exact h
  | succ n ih =>
      have hnext := ih (numberOfCells_allocateBlock hcells) h
      rcases allocateBlock_spec hcells with ⟨-, hnone⟩ | ⟨c, hc, -, -, hsome⟩
      · rw [hnone] at hnext
        exact hnext
      · rw [hsome, inUse_setUsed (by omega) (by omega), Bool.or_eq_false_iff] at hnext
        exact hnext.1

theorem shape_afterAllocations (hcells : s.numberOfCells < 2 ^ 15) :
    (s.afterAllocations n).shape = s.shape := by
  induction n generalizing s with
  | zero => rfl
  | succ n ih =>
      rw [afterAllocations, ih (numberOfCells_allocateBlock hcells), shape_allocateBlock hcells]

/-- The clear blocks are what repeated allocation returns. -/
theorem returnable_iff (hcells : s.numberOfCells < 2 ^ 15) :
    Returnable s p ↔ p ≠ 0 ∧ ∃ b < 32 * s.numberOfCells, p = b * blockSize ∧ s.inUse b = false := by
  constructor
  · rintro ⟨hp, n, rfl⟩
    have hshape := shape_afterAllocations (n := n) hcells
    have hcount := numberOfCells_of_shape hshape
    rcases allocateBlock_spec (s := s.afterAllocations n) (by rw [hcount]; exact hcells) with
      ⟨-, hnone⟩ | ⟨b, hb, hfree, -, hsome⟩
    · rw [hnone] at hp
      exact absurd rfl hp
    · rw [hcount] at hb
      refine ⟨hp, b, hb, by rw [hsome], inUse_afterAllocations hcells (by omega) hfree⟩
  · rintro ⟨hp, b, hb, rfl, hfree⟩
    exact ⟨hp, exists_allocation hcells hb hfree⟩

/-- A reserved block without occupied bytes is reserved by rounding up. -/
theorem rounded_of_unoccupied {bitmap : ℕ} (hreserved : Reserved boot bitmap b)
    (hunoccupied : Unoccupied boot bitmap b) :
    b = 256 ∨ b = (bitmap + boot.bitmapSize) / blockSize ∨ b = boot.kernelEndP / blockSize := by
  have hstart := (hunoccupied (b * blockSize) ⟨le_rfl, by simp [block, blockSize]⟩).1
  simp only [usableMemoryStart, blockSize] at hstart
  rcases hreserved with hlow | ⟨hlow, hhigh⟩ | ⟨hlow, hhigh⟩
  · left
    omega
  · right; left
    by_contra hne
    simp only [blockSize] at hlow hhigh hne
    have hin : max bitmap (b * 4096) ∈ block b := by
      simp only [block, blockSize, Extent.mem_mk]
      omega
    have hout := (hunoccupied _ hin).2.2
    rw [Extent.mem_mk] at hout
    omega
  · right; right
    by_contra hne
    simp only [blockSize] at hlow hhigh hne
    have hin : max boot.kernelStartP (b * 4096) ∈ block b := by
      simp only [block, blockSize, Extent.mem_mk]
      omega
    have hout := (hunoccupied _ hin).2.1
    omega

theorem reserved_of_rounded {bitmap : ℕ}
    (h : b = 256 ∨ b = (bitmap + boot.bitmapSize) / blockSize ∨ b = boot.kernelEndP / blockSize) :
    Reserved boot bitmap b := by
  have hle := boot.kernelStartP_le
  rcases h with rfl | rfl | rfl
  · exact Or.inl le_rfl
  · exact Or.inr (Or.inl ⟨Nat.div_le_div_right (Nat.le_add_right _ _), le_rfl⟩)
  · exact Or.inr (Or.inr ⟨Nat.div_le_div_right hle, le_rfl⟩)

/-- Only usable memory is handed out exactly when the memory map agrees with
the reserved blocks. -/
theorem onlyRam_iff (hinit : initializeBlocks memory boot steps = some s) :
    OnlyRam memory boot s ↔ Agrees memory boot s.bitmap := by
  obtain ⟨-, -, hused⟩ := initializeBlocks_spec hinit
  have hcount := numberOfCells_initializeBlocks hinit
  have hcells : s.numberOfCells < 2 ^ 15 := by
    rw [hcount]
    exact numberOfCells_lt boot
  have hfree : ∀ b < 32 * boot.numberOfCells,
      (s.inUse b = false ↔ ¬ Reserved boot s.bitmap b) := by
    intro b hb
    rw [← hused b hb, Bool.not_eq_true]
  constructor
  · rintro ⟨hreturned, hall⟩
    rw [hcount] at hall
    refine ⟨fun b hb hreserved => ?_, fun b hb hrounded hwithin hunoccupied => ?_⟩
    · have hpos : b * blockSize ≠ 0 := by
        intro hzero
        refine hreserved (Or.inl ?_)
        simp only [blockSize] at hzero
        omega
      refine hreturned (b * blockSize) ((returnable_iff hcells).mpr ⟨hpos, b, ?_, rfl, ?_⟩)
      · rw [hcount]
        exact hb
      · exact (hfree b hb).mpr hreserved
    · exact (hfree b hb).mp (hall b hb hwithin hunoccupied) (reserved_of_rounded hrounded)
  · rintro ⟨husable, hrounded⟩
    refine ⟨fun p hp => ?_, fun b hb hwithin hunoccupied => ?_⟩
    · obtain ⟨-, b, hb, rfl, hclear⟩ := (returnable_iff hcells).mp hp
      rw [hcount] at hb
      exact husable b hb ((hfree b hb).mp hclear)
    · rw [hcount] at hb
      refine (hfree b hb).mpr fun hreserved => ?_
      exact hrounded b hb (rounded_of_unoccupied hreserved hunoccupied) hwithin hunoccupied

theorem onlyRam_iff_small : ∃ s, initializeBlocks smallMemory smallBoot 2 = some s ∧
    (OnlyRam smallMemory smallBoot s ↔ Agrees smallMemory smallBoot s.bitmap) := by
  obtain ⟨s, hs⟩ := exists_small
  exact ⟨s, hs, onlyRam_iff hs⟩

/-- The bytes of a map of two entries: 68 kilobytes of available memory from
one megabyte on, and reserved memory from there to two megabytes. -/
def reservedMap : List UInt8 :=
  [20, 0, 0, 0, 0, 0, 0x10, 0, 0, 0, 0, 0, 0, 0x10, 0x01, 0, 0, 0, 0, 0, 1, 0, 0, 0,
    20, 0, 0, 0, 0, 0x10, 0x11, 0, 0, 0, 0, 0, 0, 0xF0, 0x0E, 0, 0, 0, 0, 0, 2, 0, 0, 0]

def reservedMemory : Memory where
  byte a := if 0x9000 ≤ a then reservedMap.getD (a - 0x9000) 0 else 0
  written := []

def reservedBoot : Boot := ⟨0x200000, 0x9000, 48, 0xC0100000, 0xC0110000, smallBoot.linked⟩

/-- The first block that is handed out is reserved memory. -/
theorem not_onlyRam : ¬ ∀ (memory : Memory) (boot : Boot) (steps : ℕ) (s : State),
    initializeBlocks memory boot steps = some s → OnlyRam memory boot s := by
  intro h
  have hsome : (initializeBlocks reservedMemory reservedBoot 3).isSome = true := by decide +kernel
  obtain ⟨s, hs⟩ := Option.isSome_iff_exists.mp hsome
  have hfirst : ∀ s ∈ initializeBlocks reservedMemory reservedBoot 3,
      s.allocateBlock.1 = 0x111000 := by decide +kernel
  have hreturned : Returnable s 0x111000 := ⟨by decide, 0, hfirst s hs⟩
  have hlisted : Listed reservedMemory reservedBoot (nextEntry reservedMemory 0x9000) :=
    Listed.next (Listed.first (by decide +kernel)) (by decide +kernel)
  have hwithheld : Withheld reservedMemory reservedBoot 0x111000 :=
    ⟨_, hlisted, by decide +kernel, by decide +kernel⟩
  have hall := (h reservedMemory reservedBoot 3 s hs).returned 0x111000 hreturned
  exact (hall 0x111000 (by decide)).2 hwithheld

end AviKernel.PhysicalMgr
