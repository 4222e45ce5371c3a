import AviKernel.Memory.PhysicalAccesses
import AviKernel.Memory.PhysicalPlacement

/-!
# The walks over the memory map

Both loops take the size of an entry from the entry itself, and only look whether it
begins before the end of the map.  They end, and keep to the map, for a map in which each
entry leads to a whole one or to the end.  What `fill_bitmap` clears meanwhile has to lie
elsewhere.
-/

namespace AviKernel.PhysicalMgr

open State

variable {s t : State} {boot : Boot} {m m₁ m₂ m₃ memory : Memory} {b bitmap e entry steps : ℕ}
  {es : List ℕ} {r : Option ℕ} {cs : List ℤ}

/-! ## The entries that are examined -/

/-- The entries that `find_memory_for_bitmap` examines, and what it returns; without an
address it panics. -/
def findSeen (m : Memory) (boot : Boot) : ℕ → ℕ → Option (List ℕ × Option ℕ)
  | 0, _ => none
  | steps + 1, entry =>
      if entry < boot.mmapEnd then
        match placeOf m boot entry with
        | some bitmap => some ([entry], some bitmap)
        | none => (findSeen m boot steps (nextEntry m entry)).map fun r => (entry :: r.1, r.2)
      else some ([], none)

/-- The state after the body of the loop of `fill_bitmap`. -/
def freed (s : State) (entry : ℕ) : State :=
  if entryType s.memory entry = memoryAvailable then
    s.markMemoryAs (entryAddr s.memory entry % 2 ^ 32) (entrySize s.memory entry) false
  else s

/-- The entries that the loop of `fill_bitmap` examines, and the state it ends in. -/
def freeSeen (boot : Boot) : ℕ → State → ℕ → Option (List ℕ × State)
  | 0, _, _ => none
  | steps + 1, s, entry =>
      if entry < boot.mmapEnd then
        (freeSeen boot steps (freed s entry) (nextEntry (freed s entry).memory entry)).map
          fun r => (entry :: r.1, r.2)
      else some ([], s)

theorem findMemoryForBitmap_eq :
    findMemoryForBitmap m boot steps entry = (findSeen m boot steps entry).bind Prod.snd := by
  induction steps generalizing entry with
  | zero => rfl
  | succ steps ih =>
      rw [findMemoryForBitmap_succ, findSeen]
      split_ifs with hin
      · cases placeOf m boot entry with
        | some bitmap => rfl
        | none => rw [Option.elim_none, ih, Option.bind_map, Function.comp_def]
      · rfl

theorem freeEntries_eq :
    freeEntries boot steps s entry = (freeSeen boot steps s entry).map Prod.snd := by
  induction steps generalizing s entry with
  | zero => rfl
  | succ steps ih =>
      rw [freeEntries, freeSeen]
      by_cases hin : entry < boot.mmapEnd
      · refine (if_pos hin).trans ?_
        rw [if_pos hin, Option.map_map]
        exact ih
      · rw [if_neg hin, if_neg hin]
        rfl

/-! ## The entries of a map -/

/-- The entry lies wholly inside the map. -/
def InMap (boot : Boot) (entry : ℕ) : Prop :=
  boot.mmapAddr.toNat ≤ entry ∧ entry + 24 ≤ boot.mmapEnd

instance : Decidable (InMap boot entry) := inferInstanceAs (Decidable (_ ∧ _))

/-- From the entry on each leads to another one wholly inside the map, until one leads to
its end. -/
inductive WellFormed (m : Memory) (boot : Boot) : ℕ → Prop where
  | stop {entry : ℕ} : boot.mmapEnd ≤ entry → WellFormed m boot entry
  | next {entry : ℕ} : InMap boot entry → WellFormed m boot (nextEntry m entry) →
      WellFormed m boot entry

/-- The state in which the loop of `fill_bitmap` begins. -/
def cleared (memory : Memory) (boot : Boot) (bitmap : ℕ) : State :=
  ⟨clearBytes memory bitmap (boot.bitmapSize % 2 ^ 32), bitmap, boot.numberOfBlocks,
    boot.numberOfCells, boot.bitmapSize⟩

/-- Both loops end, and the entries that they examine lie wholly inside the map. -/
structure WalksInside (memory : Memory) (boot : Boot) : Prop where
  find : ∃ steps es r, findSeen memory boot steps boot.mmapAddr.toNat = some (es, r) ∧
    ∀ e ∈ es, InMap boot e
  fill : ∀ steps es bitmap,
    findSeen memory boot steps boot.mmapAddr.toNat = some (es, some bitmap) →
      ∃ steps es t, freeSeen boot steps (cleared memory boot bitmap) boot.mmapAddr.toNat =
        some (es, t) ∧ ∀ e ∈ es, InMap boot e

/-- None of the cells has a byte of the map. -/
def Spares (boot : Boot) (bitmap : ℕ) (cs : List ℤ) : Prop :=
  ∀ c ∈ cs, ∀ k < 4, (((bitmap + 4 * c) % 2 ^ 32).toNat + k) % 2 ^ 32 < boot.mmapAddr.toNat ∨
    boot.mmapEnd ≤ (((bitmap + 4 * c) % 2 ^ 32).toNat + k) % 2 ^ 32

/-- What `fill_bitmap` clears is elsewhere: the bitmap, and the bits of available
entries. -/
structure SparesMap (memory : Memory) (boot : Boot) (bitmap : ℕ) : Prop where
  clear : Spares boot bitmap (clearBytesCells (boot.bitmapSize % 2 ^ 32))
  mark : ∀ e, Listed memory boot e → entryType memory e = memoryAvailable →
    Spares boot bitmap (markMemoryCells (entryAddr memory e % 2 ^ 32) (entrySize memory e))

/-- The map has the same bytes. -/
def SameMap (boot : Boot) (m₁ m₂ : Memory) : Prop :=
  ∀ a, boot.mmapAddr.toNat ≤ a → a < boot.mmapEnd → m₂.byte a = m₁.byte a

theorem SameMap.trans (h : SameMap boot m₁ m₂) (h' : SameMap boot m₂ m₃) :
    SameMap boot m₁ m₃ := fun a hlow hhigh => (h' a hlow hhigh).trans (h a hlow hhigh)

theorem Spares.sameMap (h : Spares boot bitmap cs) (hsame : Untouched bitmap cs m₁ m₂) :
    SameMap boot m₁ m₂ := by
  intro a hlow hhigh
  refine hsame a fun c hc k hk heq => ?_
  have hout := h c hc k hk
  omega

theorem mmapEnd_lt (boot : Boot) : boot.mmapEnd < 2 ^ 32 := add32_lt

/-- The words of an entry of the map are read as before. -/
theorem SameMap.load32_eq {a : ℕ} (h : SameMap boot m₁ m₂) (hin : InMap boot entry)
    (hlow : entry ≤ a) (hhigh : a ≤ entry + 20) : m₂.load32 a = m₁.load32 a := by
  obtain ⟨hstart, hend⟩ := hin
  have hlt := mmapEnd_lt boot
  refine Memory.load32_congr fun k hk => ?_
  have haddr : (a + k) % 2 ^ 32 = a + k := Nat.mod_eq_of_lt (by omega)
  rw [haddr]
  exact h _ (by omega) (by omega)

theorem SameMap.entry_eq (h : SameMap boot m₁ m₂) (hin : InMap boot entry) :
    entryType m₂ entry = entryType m₁ entry ∧ entrySize m₂ entry = entrySize m₁ entry ∧
      entryAddr m₂ entry = entryAddr m₁ entry ∧ nextEntry m₂ entry = nextEntry m₁ entry := by
  have hsize : m₂.load32 entry = m₁.load32 entry := h.load32_eq hin le_rfl (by omega)
  have haddr : m₂.load32 (entry + 4) = m₁.load32 (entry + 4) :=
    h.load32_eq hin (by omega) (by omega)
  have hhigh : m₂.load32 (entry + 4 + 4) = m₁.load32 (entry + 4 + 4) :=
    h.load32_eq hin (by omega) (by omega)
  refine ⟨h.load32_eq hin (by omega) le_rfl, hsize, ?_, ?_⟩
  · rw [entryAddr, entryAddr, load64, load64, haddr, hhigh]
  · rw [nextEntry, nextEntry, entrySize, entrySize, hsize]

theorem freed_bitmap : (freed s entry).bitmap = s.bitmap := by
  unfold freed
  split_ifs
  · exact bitmap_of_shape shape_markMemoryAs
  · rfl

/-- The body of the loop leaves the map as it is. -/
theorem sameMap_freed (hin : InMap boot entry) (hsame : SameMap boot m s.memory)
    (hspares : entryType m entry = memoryAvailable →
      Spares boot s.bitmap (markMemoryCells (entryAddr m entry % 2 ^ 32) (entrySize m entry))) :
    SameMap boot m (freed s entry).memory := by
  obtain ⟨htype, hsize, haddr, -⟩ := hsame.entry_eq hin
  unfold freed
  split_ifs with havailable
  · refine hsame.trans (Spares.sameMap ?_ (untouched_markMemoryAs s _ _ false))
    rw [hsize, haddr]
    exact hspares (htype.symm.trans havailable)
  · exact hsame

/-! ## When the walks end -/

theorem findSeen_of_wellFormed (h : WellFormed m boot entry) :
    ∃ steps es r, findSeen m boot steps entry = some (es, r) ∧ ∀ e ∈ es, InMap boot e := by
  induction h with
  | stop hend => exact ⟨1, [], none, if_neg (by omega), by simp⟩
  | @next entry hin _ ih =>
      have hlt : entry < boot.mmapEnd := by
        have hend := hin.2
        omega
      cases hplace : placeOf m boot entry with
      | some bitmap =>
          refine ⟨1, [entry], some bitmap, ?_, by simpa using hin⟩
          rw [findSeen, if_pos hlt, hplace]
      | none =>
          obtain ⟨steps, es, r, hseen, hes⟩ := ih
          refine ⟨steps + 1, entry :: es, r, ?_, List.forall_mem_cons.mpr ⟨hin, hes⟩⟩
          rw [findSeen, if_pos hlt, hplace, hseen]
          rfl

/-- A walk that finds no place has seen the whole map. -/
theorem wellFormed_of_findSeen (h : findSeen m boot steps entry = some (es, none))
    (hes : ∀ e ∈ es, InMap boot e) : WellFormed m boot entry := by
  induction steps generalizing entry es with
  | zero => cases h
  | succ steps ih =>
      rw [findSeen] at h
      split_ifs at h with hlt
      · cases hplace : placeOf m boot entry with
        | some bitmap =>
            rw [hplace] at h
            cases h
        | none =>
            rw [hplace] at h
            obtain ⟨⟨es', r⟩, hseen, hcons⟩ := Option.map_eq_some_iff.mp h
            cases hcons
            obtain ⟨hin, hrest⟩ := List.forall_mem_cons.mp hes
            exact WellFormed.next hin (ih hseen hrest)
      · exact WellFormed.stop (by omega)

theorem freeSeen_of_wellFormed (h : WellFormed m boot entry) (hsame : SameMap boot m s.memory)
    (hspares : ∀ e, Walks m boot entry e → entryType m e = memoryAvailable →
      Spares boot s.bitmap (markMemoryCells (entryAddr m e % 2 ^ 32) (entrySize m e))) :
    ∃ steps es t, freeSeen boot steps s entry = some (es, t) ∧ ∀ e ∈ es, InMap boot e := by
  induction h generalizing s with
  | stop hend => exact ⟨1, [], s, if_neg (by omega), by simp⟩
  | @next entry hin _ ih =>
      have hlt : entry < boot.mmapEnd := by
        have hend := hin.2
        omega
      have hfreed := sameMap_freed hin hsame (hspares entry (Walks.here hlt))
      have hnext := (hfreed.entry_eq hin).2.2.2
      obtain ⟨steps, es, t, hseen, hes⟩ := ih hfreed fun e he => by
        rw [freed_bitmap]
        exact hspares e (Walks.next hlt he)
      refine ⟨steps + 1, entry :: es, t, ?_, List.forall_mem_cons.mpr ⟨hin, hes⟩⟩
      rw [freeSeen, if_pos hlt, hnext, hseen]
      rfl

theorem wellFormed_of_freeSeen (h : freeSeen boot steps s entry = some (es, t))
    (hes : ∀ e ∈ es, InMap boot e) (hsame : SameMap boot m s.memory)
    (hspares : ∀ e, Walks m boot entry e → entryType m e = memoryAvailable →
      Spares boot s.bitmap (markMemoryCells (entryAddr m e % 2 ^ 32) (entrySize m e))) :
    WellFormed m boot entry := by
  induction steps generalizing s entry es with
  | zero => cases h
  | succ steps ih =>
      rw [freeSeen] at h
      split_ifs at h with hlt
      · obtain ⟨⟨es', t'⟩, hseen, hcons⟩ := Option.map_eq_some_iff.mp h
        cases hcons
        obtain ⟨hin, hrest⟩ := List.forall_mem_cons.mp hes
        have hfreed := sameMap_freed hin hsame (hspares entry (Walks.here hlt))
        rw [(hfreed.entry_eq hin).2.2.2] at hseen
        refine WellFormed.next hin (ih hseen hrest hfreed fun e he => ?_)
        rw [freed_bitmap]
        exact hspares e (Walks.next hlt he)
      · exact WellFormed.stop (by omega)

theorem sameMap_cleared (h : SparesMap memory boot bitmap) :
    SameMap boot memory (cleared memory boot bitmap).memory :=
  h.clear.sameMap (untouched_clearBytes bitmap _)

/-- Where the map is spared, both walks end inside it exactly if it is well formed. -/
theorem walksInside_iff (hspares : ∀ steps bitmap,
      findMemoryForBitmap memory boot steps boot.mmapAddr.toNat = some bitmap →
        SparesMap memory boot bitmap) :
    WalksInside memory boot ↔ WellFormed memory boot boot.mmapAddr.toNat := by
  have hmap : ∀ steps es bitmap,
      findSeen memory boot steps boot.mmapAddr.toNat = some (es, some bitmap) →
        SparesMap memory boot bitmap := by
    intro steps es bitmap hseen
    refine hspares steps bitmap ?_
    rw [findMemoryForBitmap_eq, hseen, Option.bind_some]
  constructor
  · rintro ⟨⟨steps, es, r, hseen, hes⟩, hfill⟩
    cases r with
    | none => exact wellFormed_of_findSeen hseen hes
    | some bitmap =>
        have hspare := hmap steps es bitmap hseen
        obtain ⟨steps', es', t, hfree, hes'⟩ := hfill steps es bitmap hseen
        exact wellFormed_of_freeSeen hfree hes' (sameMap_cleared hspare) fun e he =>
          hspare.mark e (listed_iff_walks.mpr he)
  · intro h
    refine ⟨findSeen_of_wellFormed h, fun steps es bitmap hseen => ?_⟩
    have hspare := hmap steps es bitmap hseen
    exact freeSeen_of_wellFormed h (sameMap_cleared hspare) fun e he =>
      hspare.mark e (listed_iff_walks.mpr he)

theorem place_small (h : findMemoryForBitmap smallMemory smallBoot steps 0x9000 = some bitmap) :
    bitmap = 0x110001 := by
  have hplace : placeOf smallMemory smallBoot 0x9000 = some 0x110001 := by decide +kernel
  cases steps with
  | zero => cases h
  | succ steps =>
      rw [findMemoryForBitmap_succ, if_pos (by decide), hplace] at h
      exact (Option.some.inj h).symm

theorem walksInside_iff_small :
    WalksInside smallMemory smallBoot ↔ WellFormed smallMemory smallBoot 0x9000 := by
  refine walksInside_iff fun steps bitmap h => ?_
  obtain rfl := place_small h
  refine ⟨?_, fun e he _ => ?_⟩
  · unfold Spares
    decide +kernel
  · rw [listed_iff_walks, walks_iff (by decide)] at he
    rcases he with rfl | he
    · unfold Spares
      decide +kernel
    · exact absurd he.lt (by decide +kernel)

/-- An entry whose size leads back to itself. -/
def circularMemory : Memory where
  byte a := if a = 0x9000 then 0xFC else if a < 0x9004 then 0xFF else 0
  written := []

theorem findSeen_circular (steps : ℕ) :
    findSeen circularMemory smallBoot steps 0x9000 = none := by
  have hplace : placeOf circularMemory smallBoot 0x9000 = none := by decide +kernel
  have hnext : nextEntry circularMemory 0x9000 = 0x9000 := by decide +kernel
  induction steps with
  | zero => rfl
  | succ steps ih =>
      rw [findSeen, if_pos (by decide), hplace, hnext, ih]
      rfl

/-- A map at the start of the memory that its one entry makes available. -/
def overlaidBoot : Boot := ⟨0x200000, 0x100000, 24, 0xC0110000, 0xC0120000, by decide⟩

def overlaidMemory : Memory where
  byte a :=
    if a = 0x100000 then 20
    else if a = 0x100006 then 0x10
    else if a = 0x10000E then 0x20
    else if a = 0x100014 then 1
    else 0
  written := []

theorem freeSeen_cons (hlt : entry < boot.mmapEnd)
    (h : freeSeen boot steps s entry = some (es, t)) : ∃ steps' es', es = entry :: es' ∧
      freeSeen boot steps' (freed s entry) (nextEntry (freed s entry).memory entry) =
        some (es', t) := by
  cases steps with
  | zero => cases h
  | succ steps =>
      rw [freeSeen, if_pos hlt] at h
      obtain ⟨⟨es', t'⟩, hseen, hcons⟩ := Option.map_eq_some_iff.mp h
      cases hcons
      exact ⟨steps, es', rfl, hseen⟩

/-- The bitmap is laid over the map, and then the entries are four bytes long. -/
theorem not_walksInside_overlaid : ¬ WalksInside overlaidMemory overlaidBoot := by
  intro h
  have hfind : findSeen overlaidMemory overlaidBoot 1 0x100000 =
      some ([0x100000], some 0x100000) := by decide +kernel
  obtain ⟨steps, es, t, hfree, hes⟩ := h.fill 1 [0x100000] 0x100000 hfind
  obtain ⟨steps', es', rfl, hrest⟩ := freeSeen_cons (by decide) hfree
  have hnext : nextEntry (freed (cleared overlaidMemory overlaidBoot 0x100000) 0x100000).memory
      0x100000 = 0x100004 := by decide +kernel
  have hentry : overlaidBoot.mmapAddr.toNat = 0x100000 := rfl
  rw [hentry, hnext] at hrest
  obtain ⟨-, es'', rfl, -⟩ := freeSeen_cons (by decide) hrest
  exact absurd (hes 0x100004 (by simp)) (by decide)

/-- An entry of the wrong size is examined forever, and a good map may be overwritten. -/
theorem not_walksInside :
    (¬ ∀ (memory : Memory) (boot : Boot),
      boot.mmapAddr.toNat + boot.mmapLength.toNat < 2 ^ 32 → WalksInside memory boot) ∧
    ∃ (memory : Memory) (boot : Boot), boot.mmapAddr.toNat + boot.mmapLength.toNat < 2 ^ 32 ∧
      WellFormed memory boot boot.mmapAddr.toNat ∧ ¬ WalksInside memory boot := by
  constructor
  · intro h
    obtain ⟨steps, es, r, hseen, -⟩ := (h circularMemory smallBoot (by decide)).find
    have hnone : findSeen circularMemory smallBoot steps smallBoot.mmapAddr.toNat = none :=
      findSeen_circular steps
    rw [hnone] at hseen
    cases hseen
  · refine ⟨overlaidMemory, overlaidBoot, by decide, ?_, not_walksInside_overlaid⟩
    exact WellFormed.next (by decide) (WellFormed.stop (by decide +kernel))

end AviKernel.PhysicalMgr
