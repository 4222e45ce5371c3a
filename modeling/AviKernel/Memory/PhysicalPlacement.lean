import AviKernel.Memory.PhysicalRam

/-!
# Where the bitmap is placed

`find_memory_for_bitmap` tests an entry of the memory map for a bitmap at the start of
the entry, but may then place the bitmap behind the kernel.  The start of the entry
is as good as the test; the place behind the kernel is so only if the entry begins
before it and the kernel ends in time.
-/

namespace AviKernel.PhysicalMgr

open State

variable {boot : Boot} {m : Memory} {b e entry steps : ℕ}

/-! ## The entry that is chosen -/

/-- The test of an entry, for a bitmap at its start. -/
def Tested (m : Memory) (boot : Boot) (e : ℕ) : Prop :=
  entryType m e = memoryAvailable ∧ usableMemoryStart ≤ entryAddr m e ∧
    (entryAddr m e + boot.bitmapSize) % 2 ^ 64 < bootMappingMemoryEnd ∧
      boot.bitmapSize ≤ entryLen m e

/-- A bitmap at the start of the entry ends before the kernel. -/
def BeforeKernel (m : Memory) (boot : Boot) (e : ℕ) : Prop :=
  (entryAddr m e + boot.bitmapSize) % 2 ^ 64 < boot.kernelStartP

/-- A bitmap behind the kernel ends before the entry does. -/
def AfterKernel (m : Memory) (boot : Boot) (e : ℕ) : Prop :=
  boot.kernelEndP + 1 + boot.bitmapSize < (entryAddr m e + entryLen m e) % 2 ^ 64

instance : Decidable (Tested m boot e) := inferInstanceAs (Decidable (_ ∧ _))

instance : Decidable (BeforeKernel m boot e) := inferInstanceAs (Decidable (_ < _))

instance : Decidable (AfterKernel m boot e) := inferInstanceAs (Decidable (_ < _))

def Accepts (m : Memory) (boot : Boot) (e : ℕ) : Prop :=
  Tested m boot e ∧ (BeforeKernel m boot e ∨ AfterKernel m boot e)

instance : Decidable (Accepts m boot e) := inferInstanceAs (Decidable (_ ∧ _))

/-- The first entry of a walk that is accepted. -/
inductive Chosen (m : Memory) (boot : Boot) : ℕ → ℕ → Prop where
  | here {entry : ℕ} : entry < boot.mmapEnd → Accepts m boot entry → Chosen m boot entry entry
  | next {entry e : ℕ} : entry < boot.mmapEnd → ¬ Accepts m boot entry →
      Chosen m boot (nextEntry m entry) e → Chosen m boot entry e

theorem Chosen.walks (h : Chosen m boot entry e) : Walks m boot entry e := by
  induction h with
  | here hin _ => exact Walks.here hin
  | next hin _ _ ih => exact Walks.next hin ih

theorem Chosen.accepts (h : Chosen m boot entry e) : Accepts m boot e := by
  induction h with
  | here _ haccepts => exact haccepts
  | next _ _ _ ih => exact ih

theorem Chosen.unique {e' : ℕ} (h : Chosen m boot entry e) (h' : Chosen m boot entry e') :
    e = e' := by
  induction h with
  | here _ haccepts =>
      cases h' with
      | here _ _ => rfl
      | next _ hrefuses _ => exact absurd haccepts hrefuses
  | next _ hrefuses _ ih =>
      cases h' with
      | here _ haccepts => exact absurd haccepts hrefuses
      | next _ _ hrest => exact ih hrest

theorem kernelEndP_lt (boot : Boot) : boot.kernelEndP < 2 ^ 30 := by
  obtain ⟨hbase, hle⟩ := boot.linked
  have hlt := boot.kernelEnd.toNat_lt
  unfold Boot.kernelEndP Boot.virtualToPhysical
  rw [sub32_of_le (by omega) (by omega)]
  omega

/-- What the body of the loop of `find_memory_for_bitmap` returns, if it does. -/
def placeOf (m : Memory) (boot : Boot) (entry : ℕ) : Option ℕ :=
  if Tested m boot entry then
    if BeforeKernel m boot entry then some (entryAddr m entry % 2 ^ 32)
    else if AfterKernel m boot entry then some (boot.kernelEndP + 1)
    else none
  else none

theorem findMemoryForBitmap_succ : findMemoryForBitmap m boot (steps + 1) entry =
    if entry < boot.mmapEnd then
      (placeOf m boot entry).elim (findMemoryForBitmap m boot steps (nextEntry m entry)) some
    else none := by
  have hend := kernelEndP_lt boot
  have hsize := bitmapSize_lt boot
  have hafter : (boot.kernelEndP + 1) % 2 ^ 64 = boot.kernelEndP + 1 :=
    Nat.mod_eq_of_lt (by omega)
  have hsum : (boot.kernelEndP + 1 + boot.bitmapSize) % 2 ^ 64 =
      boot.kernelEndP + 1 + boot.bitmapSize := Nat.mod_eq_of_lt (by omega)
  have hlow : (boot.kernelEndP + 1) % 2 ^ 32 = boot.kernelEndP + 1 :=
    Nat.mod_eq_of_lt (by omega)
  rw [findMemoryForBitmap, placeOf]
  simp only [hafter, hsum, hlow]
  by_cases hin : entry < boot.mmapEnd
  · rw [if_pos hin, if_pos hin]
    by_cases htested : Tested m boot entry
    · rw [if_pos htested]
      refine (if_pos htested).trans ?_
      by_cases hbefore : BeforeKernel m boot entry
      · rw [if_pos hbefore]
        exact if_pos hbefore
      · rw [if_neg hbefore]
        refine (if_neg hbefore).trans ?_
        by_cases hfits : AfterKernel m boot entry
        · rw [if_pos hfits]
          exact if_pos hfits
        · rw [if_neg hfits]
          exact if_neg hfits
    · rw [if_neg htested]
      exact if_neg htested
  · rw [if_neg hin, if_neg hin]

/-- The bitmap starts with the chosen entry, or else right behind the kernel. -/
theorem findMemoryForBitmap_chosen (h : findMemoryForBitmap m boot steps entry = some b) :
    ∃ e, Chosen m boot entry e ∧
      b = if BeforeKernel m boot e then entryAddr m e % 2 ^ 32 else boot.kernelEndP + 1 := by
  induction steps generalizing entry with
  | zero => cases h
  | succ steps ih =>
      rw [findMemoryForBitmap_succ, placeOf] at h
      split_ifs at h with hin htested hbefore hfits
      · obtain rfl := Option.some.inj h
        exact ⟨entry, Chosen.here hin ⟨htested, Or.inl hbefore⟩, (if_pos hbefore).symm⟩
      · obtain rfl := Option.some.inj h
        exact ⟨entry, Chosen.here hin ⟨htested, Or.inr hfits⟩, (if_neg hbefore).symm⟩
      · obtain ⟨e, hchosen, hb⟩ := ih h
        exact ⟨e, Chosen.next hin (fun ha => ha.2.elim hbefore hfits) hchosen, hb⟩
      · obtain ⟨e, hchosen, hb⟩ := ih h
        exact ⟨e, Chosen.next hin (fun ha => htested ha.1) hchosen, hb⟩

/-! ## Good places -/

/-- The bytes from `b` on lie in one available region. -/
def InOneRegion (m : Memory) (boot : Boot) (b : ℕ) : Prop :=
  ∃ e, Listed m boot e ∧ entryType m e = memoryAvailable ∧ entryAddr m e ≤ b ∧
    b + boot.bitmapSize ≤ entryAddr m e + entryLen m e

/-- A bitmap at `b` lies in usable memory that is mapped early and holds no kernel. -/
structure Placed (m : Memory) (boot : Boot) (b : ℕ) : Prop where
  inside : InOneRegion m boot b
  above : usableMemoryStart ≤ b
  below : b + boot.bitmapSize ≤ bootMappingMemoryEnd
  apart : ∀ a ∈ (⟨b, boot.bitmapSize⟩ : Extent), ¬ (boot.kernelStartP ≤ a ∧ a < boot.kernelEndP)

/-- The place behind the kernel was not tested: the kernel has to end in time, and
some available entry has to hold the bitmap, if the chosen one starts too late. -/
def ServesAfter (m : Memory) (boot : Boot) (e : ℕ) : Prop :=
  boot.kernelEndP + 1 + boot.bitmapSize ≤ bootMappingMemoryEnd ∧
    (entryAddr m e ≤ boot.kernelEndP + 1 ∨
      usableMemoryStart ≤ boot.kernelEndP + 1 ∧ InOneRegion m boot (boot.kernelEndP + 1))

/-- The chosen entry leads to a good place. -/
structure Serves (m : Memory) (boot : Boot) (e : ℕ) : Prop where
  before : BeforeKernel m boot e → entryAddr m e + boot.bitmapSize < 2 ^ 64
  after : ¬ BeforeKernel m boot e → ServesAfter m boot e

theorem placed_start (htested : Tested m boot e) (hlisted : Listed m boot e)
    (hbefore : BeforeKernel m boot e) :
    Placed m boot (entryAddr m e % 2 ^ 32) ↔ entryAddr m e + boot.bitmapSize < 2 ^ 64 := by
  obtain ⟨htype, hlow, hhigh, hlen⟩ := htested
  have hsize := bitmapSize_lt boot
  unfold BeforeKernel at hbefore
  unfold usableMemoryStart at hlow
  unfold bootMappingMemoryEnd at hhigh
  constructor
  · rintro ⟨-, -, hbelow, -⟩
    have haddr : entryAddr m e < 2 ^ 64 := by
      have h₁ := m.load32_lt (a := e)
      have h₂ := m.load32_lt (a := e + 4)
      have h₃ := m.load32_lt (a := e + 4 + 4)
      unfold entryAddr load64
      omega
    unfold bootMappingMemoryEnd at hbelow
    omega
  · intro hfits
    rw [Nat.mod_eq_of_lt hfits] at hbefore hhigh
    have hmod : entryAddr m e % 2 ^ 32 = entryAddr m e := Nat.mod_eq_of_lt (by omega)
    rw [hmod]
    refine ⟨⟨e, hlisted, htype, le_rfl, by omega⟩, hlow, ?_, fun a ha => ?_⟩
    · unfold bootMappingMemoryEnd
      omega
    · rw [Extent.mem_mk] at ha
      omega

theorem placed_afterKernel (htested : Tested m boot e) (hlisted : Listed m boot e)
    (hafter : AfterKernel m boot e) :
    Placed m boot (boot.kernelEndP + 1) ↔ ServesAfter m boot e := by
  obtain ⟨htype, hlow, -, -⟩ := htested
  unfold AfterKernel at hafter
  constructor
  · rintro ⟨hinside, habove, hbelow, -⟩
    exact ⟨hbelow, Or.inr ⟨habove, hinside⟩⟩
  · rintro ⟨hbelow, hstart⟩
    have hgood : usableMemoryStart ≤ boot.kernelEndP + 1 ∧
        InOneRegion m boot (boot.kernelEndP + 1) := by
      rcases hstart with hstart | hgood
      · -- Where the end of the entry wraps, the entry goes on beyond all addresses.
        have hle := Nat.mod_le (entryAddr m e + entryLen m e) (2 ^ 64)
        exact ⟨hlow.trans hstart, e, hlisted, htype, hstart, by omega⟩
      · exact hgood
    refine ⟨hgood.2, hgood.1, hbelow, fun a ha => ?_⟩
    rw [Extent.mem_mk] at ha
    omega

/-- The bitmap is placed well exactly if the entry that is chosen serves. -/
theorem placed_iff (h : findMemoryForBitmap m boot steps boot.mmapAddr.toNat = some b) :
    Placed m boot b ↔ ∀ e, Chosen m boot boot.mmapAddr.toNat e → Serves m boot e := by
  obtain ⟨e, hchosen, hb⟩ := findMemoryForBitmap_chosen h
  have hlisted : Listed m boot e := listed_iff_walks.mpr hchosen.walks
  obtain ⟨htested, hplace⟩ := hchosen.accepts
  have hall : (∀ e, Chosen m boot boot.mmapAddr.toNat e → Serves m boot e) ↔ Serves m boot e := by
    constructor
    · exact fun hserves => hserves e hchosen
    · intro hserves e' hchosen'
      rw [← hchosen.unique hchosen']
      exact hserves
  rw [hall, hb]
  by_cases hbefore : BeforeKernel m boot e
  · rw [if_pos hbefore, placed_start htested hlisted hbefore]
    exact ⟨fun h => ⟨fun _ => h, fun hn => absurd hbefore hn⟩, fun h => h.before hbefore⟩
  · rw [if_neg hbefore, placed_afterKernel htested hlisted (hplace.resolve_left hbefore)]
    exact ⟨fun h => ⟨fun hn => absurd hn hbefore, fun _ => h⟩, fun h => h.after hbefore⟩

theorem placed_iff_small : Placed smallMemory smallBoot 0x110001 := by
  have hfind : findMemoryForBitmap smallMemory smallBoot 2 smallBoot.mmapAddr.toNat =
      some 0x110001 := by decide +kernel
  refine (placed_iff hfind).mpr fun e he => ?_
  have hfirst : e = 0x9000 := by
    cases he with
    | here _ _ => rfl
    | next _ hrefuses _ => exact absurd (by decide +kernel) hrefuses
  have hbefore : ¬ BeforeKernel smallMemory smallBoot 0x9000 := by decide +kernel
  have hstart : entryAddr smallMemory 0x9000 ≤ smallBoot.kernelEndP + 1 := by decide +kernel
  rw [hfirst]
  exact ⟨fun h => absurd h hbefore, fun _ => ⟨by decide +kernel, Or.inl hstart⟩⟩

/-- A map of one entry: 16 megabytes of available memory from one megabyte on. -/
def wideMap : List UInt8 :=
  [20, 0, 0, 0, 0, 0, 0x10, 0, 0, 0, 0, 0, 0, 0, 0, 1, 0, 0, 0, 0, 1, 0, 0, 0]

def wideMemory : Memory where
  byte a := if 0x9000 ≤ a then wideMap.getD (a - 0x9000) 0 else 0
  written := []

/-- A kernel of four megabytes. -/
def wideBoot : Boot := ⟨0x1000000, 0x9000, 24, 0xC0100000, 0xC0500000, by decide⟩

/-- Behind a kernel of four megabytes the bitmap is not mapped. -/
theorem not_placed : ¬ ∀ (m : Memory) (boot : Boot) (steps b : ℕ),
    findMemoryForBitmap m boot steps boot.mmapAddr.toNat = some b → Placed m boot b := by
  intro h
  have hfind : findMemoryForBitmap wideMemory wideBoot 1 wideBoot.mmapAddr.toNat =
      some 0x500001 := by decide +kernel
  exact absurd (h _ _ _ _ hfind).below (by decide +kernel)

end AviKernel.PhysicalMgr
