import AviKernel.Fs.DevFs

/-!
# The write to a drive

The first and the last sector are read, updated and written back, and the
sectors between them are written.  From 256 sectors between on, each group of
255 is a copy of the first group, and the sectors after the groups are read into
the buffer of the caller.
-/

namespace AviKernel

variable {d d₁ e : Drive} {lba count offset pos n k bufPtr m : ℕ} {buf fresh : Buffer}
  {allocated : ℕ → Option Buffer}

theorem memcpy_eq {dest src : Buffer} {from' : ℕ} (h : n < 2 ^ 32) :
    memcpy dest pos src from' n = splice dest pos n fun i => src (from' + i) := by
  rw [memcpy, Nat.mod_eq_of_lt h]

namespace Drive

@[simp] theorem readSectors_image : (d.readSectors lba count buf pos).2.image = d.image := by
  unfold readSectors
  dsimp only
  split <;> rfl

@[simp] theorem readSectors_sectors : (d.readSectors lba count buf pos).2.sectors = d.sectors := by
  unfold readSectors
  dsimp only
  split <;> rfl

@[simp] theorem writeSectors_sectors :
    (d.writeSectors lba count buf pos).sectors = d.sectors := by
  unfold writeSectors
  dsimp only
  split <;> rfl

theorem readSectors_buffer (hlt : count < 2 ^ 8) : (d.readSectors lba count buf pos).1 =
    splice buf pos (count * sectorSize) fun i => d.image (lba * sectorSize + i) := by
  unfold readSectors
  dsimp only
  rw [Nat.mod_eq_of_lt hlt]
  split
  · rename_i hzero
    rw [hzero, Nat.zero_mul, splice_zero]
  · rfl

theorem writeSectors_apply (hpos : 0 < count) (hlt : count < 2 ^ 8) (a : ℕ) :
    (d.writeSectors lba count buf pos).image a =
      if a < d.sectors * sectorSize then
        splice d.image (lba * sectorSize) (count * sectorSize) (fun i => buf (pos + i)) a
      else d.image a := by
  unfold writeSectors
  dsimp only
  rw [Nat.mod_eq_of_lt hlt, if_neg hpos.ne']

/-- A write within the drive. -/
theorem writeSectors_image (hpos : 0 < count) (hlt : count < 2 ^ 8)
    (hin : (lba + count) * sectorSize ≤ d.sectors * sectorSize) :
    (d.writeSectors lba count buf pos).image =
      splice d.image (lba * sectorSize) (count * sectorSize) fun i => buf (pos + i) := by
  funext a
  rw [writeSectors_apply hpos hlt]
  split
  · rfl
  · rw [splice_of_ge (by rw [← Nat.add_mul]; omega)]

/-- Sectors that are read, updated and written back.  The image may have changed
elsewhere since, and the last sector may be past the drive. -/
theorem update_image {from' : ℕ} (hpos : 0 < count) (hlt : count < 2 ^ 8)
    (hsectors : e.sectors = d.sectors)
    (hsame : ∀ i < count * sectorSize,
      d.image (lba * sectorSize + i) = e.image (lba * sectorSize + i))
    (hn : n < 2 ^ 32) (hpart : pos + n ≤ count * sectorSize)
    (hend : lba * sectorSize + pos + n ≤ d.sectors * sectorSize) :
    (e.writeSectors lba count
        (memcpy (d.readSectors lba count fresh 0).1 pos buf from' n) 0).image =
      splice e.image (lba * sectorSize + pos) n fun i => buf (from' + i) := by
  funext a
  have hwindow : splice e.image (lba * sectorSize) (count * sectorSize)
        (splice (splice fresh 0 (count * sectorSize) fun i => e.image (lba * sectorSize + i)) pos n
          fun i => buf (from' + i)) =
      splice e.image (lba * sectorSize + pos) n fun i => buf (from' + i) := splice_window hpart
  rw [writeSectors_apply hpos hlt, readSectors_buffer hlt, memcpy_eq hn, splice_congr hsame,
    hsectors]
  by_cases ha : a < d.sectors * sectorSize
  · rw [if_pos ha, ← hwindow]
    simp
  · rw [if_neg ha, splice_of_ge (by omega)]

theorem writeGroups_spec (hin : (lba + 255 * k) * sectorSize ≤ d.sectors * sectorSize) :
    ∃ d', writeGroups buf pos k d lba bufPtr = (d', lba + 255 * k, bufPtr + 255 * sectorSize * k) ∧
      d'.sectors = d.sectors ∧
      d'.image = tile d.image (lba * sectorSize) (255 * sectorSize) (fun i => buf (pos + i)) k := by
  induction k generalizing d lba bufPtr with
  | zero => exact ⟨d, rfl, rfl, rfl⟩
  | succ k ih =>
      have hfirst : (lba + 255) * sectorSize ≤ d.sectors * sectorSize := by
        refine le_trans (Nat.mul_le_mul_right _ ?_) hin
        omega
      have hrest : (lba + 255 + 255 * k) * sectorSize ≤
          (d.writeSectors lba 255 buf pos).sectors * sectorSize := by
        rw [writeSectors_sectors]
        refine le_trans (Nat.mul_le_mul_right _ ?_) hin
        omega
      obtain ⟨d', hgroups, hsectors, himage⟩ :
          ∃ d', writeGroups buf pos k (d.writeSectors lba 255 buf pos) (lba + 255)
              (bufPtr + 255 * sectorSize) =
            (d', lba + 255 + 255 * k, bufPtr + 255 * sectorSize + 255 * sectorSize * k) ∧
          d'.sectors = (d.writeSectors lba 255 buf pos).sectors ∧
          d'.image = tile (d.writeSectors lba 255 buf pos).image ((lba + 255) * sectorSize)
            (255 * sectorSize) (fun i => buf (pos + i)) k := ih hrest
      refine ⟨d', ?_, by rw [hsectors, writeSectors_sectors], ?_⟩
      · rw [writeGroups, hgroups, Nat.mul_succ, Nat.mul_succ]
        congr 2
        · omega
        · omega
      · rw [himage, writeSectors_image (by decide) (by decide) hfirst, Nat.add_mul, tile]

theorem writeBetween_spec (buf : Buffer) (pos : ℕ) (hpos : 0 < m)
    (hin : (lba + m) * sectorSize ≤ d.sectors * sectorSize) :
    (d.writeBetween lba m pos buf).2.sectors = d.sectors ∧
      ((d.writeBetween lba m pos buf).2.image =
          splice d.image (lba * sectorSize) (m * sectorSize) (fun i => buf (pos + i)) ∧
        (d.writeBetween lba m pos buf).1 = buf ↔
      m ≤ 255 ∨ (∀ i < 255 * sectorSize * (m / 255),
          buf (pos + i % (255 * sectorSize)) = buf (pos + i)) ∧
        ∀ i, 255 * sectorSize * (m / 255) ≤ i → i < m * sectorSize →
          d.image (lba * sectorSize + i) = buf (pos + i)) := by
  unfold writeBetween
  by_cases hfew : m ≤ 255
  · rw [if_pos hfew]
    refine ⟨writeSectors_sectors, ?_⟩
    exact ⟨fun _ => Or.inl hfew, fun _ => ⟨writeSectors_image hpos (by omega) hin, rfl⟩⟩
  · rw [if_neg hfew]
    have hle : 255 * sectorSize * (m / 255) ≤ m * sectorSize := by
      unfold sectorSize
      omega
    have hgroups : (lba + 255 * (m / 255)) * sectorSize ≤ d.sectors * sectorSize := by
      refine le_trans (Nat.mul_le_mul_right _ ?_) hin
      omega
    obtain ⟨d', hwrite, hsectors, himage⟩ :
        ∃ d', writeGroups buf pos (m / 255) d lba pos =
            (d', lba + 255 * (m / 255), pos + 255 * sectorSize * (m / 255)) ∧
          d'.sectors = d.sectors ∧
          d'.image = tile d.image (lba * sectorSize) (255 * sectorSize)
            (fun i => buf (pos + i)) (m / 255) := writeGroups_spec hgroups
    have hrest : m % 255 < 2 ^ 8 := by omega
    rw [hwrite]
    dsimp only
    rw [readSectors_sectors, readSectors_image, readSectors_buffer hrest, himage,
      tile_eq_splice_iff hle, splice_eq_iff]
    refine ⟨hsectors, ?_⟩
    constructor
    · rintro ⟨hrepeats, -⟩
      exact Or.inr hrepeats
    · intro hrepeats
      obtain ⟨hrepeat, hthere⟩ := hrepeats.resolve_left hfew
      refine ⟨⟨hrepeat, hthere⟩, fun i hi => ?_⟩
      have hplace : (lba + 255 * (m / 255)) * sectorSize + i =
          lba * sectorSize + (255 * sectorSize * (m / 255) + i) := by
        unfold sectorSize
        omega
      have hlt : 255 * sectorSize * (m / 255) + i < m * sectorSize := by
        unfold sectorSize at hi ⊢
        omega
      rw [hplace, tile_of_ge (by omega), hthere _ (by omega) hlt, Nat.add_assoc]

/-- The write of one or two sectors. -/
theorem writeOneOrTwo_spec (buf : Buffer) (hnew : (allocated 0).isSome) (hpos : 0 < n) (htwo : n ≤ 2)
    (hpart : offset % sectorSize + count ≤ n * sectorSize)
    (hend : offset + count ≤ d.sectors * sectorSize) :
    ∃ d', d.writeOneOrTwo allocated (offset / sectorSize) n count offset buf = .ok (buf, d') ∧
      d'.sectors = d.sectors ∧ d'.image = splice d.image offset count buf := by
  obtain ⟨sectors, hsectors⟩ := Option.isSome_iff_exists.mp hnew
  have hoffset : offset / sectorSize * sectorSize + offset % sectorSize = offset :=
    Nat.div_add_mod' offset sectorSize
  have hsmall : count < 2 ^ 32 := by
    unfold sectorSize at hpart
    omega
  refine ⟨(d.readSectors (offset / sectorSize) n sectors 0).2.writeSectors (offset / sectorSize) n
    (memcpy (d.readSectors (offset / sectorSize) n sectors 0).1 (offset % sectorSize) buf 0
      count) 0, ?_, ?_, ?_⟩
  · rw [writeOneOrTwo, hsectors]
  · rw [writeSectors_sectors, readSectors_sectors]
  · rw [update_image hpos (by omega) readSectors_sectors (by simp) hsmall hpart (by omega),
      readSectors_image, hoffset]
    simp

/-- The update of the first and the last sector. -/
theorem updateEnds_image {d₁ d₂ : Drive} {first last : Buffer} {ending p q r : ℕ}
    (himage₁ : d₁.image = d.image) (hsectors₁ : d₁.sectors = d.sectors)
    (himage₂ : d₂.image = d.image) (hsectors₂ : d₂.sectors = d.sectors)
    (hp : p < sectorSize) (hr : r < sectorSize)
    (hlt : lba * sectorSize + sectorSize ≤ ending * sectorSize)
    (hend : ending * sectorSize + r ≤ d.sectors * sectorSize) :
    ((d₂.writeSectors lba 1 (memcpy (d.readSectors lba 1 first 0).1 p buf 0 (sectorSize - p))
        0).writeSectors ending 1 (memcpy (d₁.readSectors ending 1 last 0).1 0 buf q r) 0).image =
      splice (splice d.image (lba * sectorSize + p) (sectorSize - p) buf) (ending * sectorSize) r
        fun i => buf (q + i) := by
  have hsize : sectorSize = 512 := rfl
  have hfirst : (d₂.writeSectors lba 1
      (memcpy (d.readSectors lba 1 first 0).1 p buf 0 (sectorSize - p)) 0).image =
        splice d.image (lba * sectorSize + p) (sectorSize - p) buf := by
    rw [update_image (by decide) (by decide) hsectors₂ (fun i _ => by rw [himage₂]) (by omega)
      (by omega) (by omega), himage₂]
    simp
  have hsectors : (d₂.writeSectors lba 1
      (memcpy (d.readSectors lba 1 first 0).1 p buf 0 (sectorSize - p)) 0).sectors =
        d₁.sectors := by
    rw [writeSectors_sectors, hsectors₁, hsectors₂]
  have hend' : ending * sectorSize + 0 + r ≤ d₁.sectors * sectorSize := by
    rwa [hsectors₁, Nat.add_zero]
  rw [update_image (by decide) (by decide) hsectors (fun i _ => ?_) (by omega) (by omega) hend',
    hfirst, Nat.add_zero]
  rw [hfirst, himage₁, splice_of_ge (by omega)]

/-- The place in the buffer of what goes to the last sector. -/
theorem inBuf_eq {ending p size : ℕ} (hp : p < sectorSize) (hlt : lba + 1 < ending)
    (hle : ending * sectorSize ≤ size) (hsize : size < 2 ^ 64) :
    add64 (mul64 (ending - lba - 1) sectorSize) (sectorSize - p) =
      ending * sectorSize - (lba * sectorSize + p) := by
  obtain ⟨m, rfl⟩ := Nat.exists_eq_add_of_lt hlt
  have hsub : lba + 1 + m + 1 - lba - 1 = m + 1 := by omega
  unfold sectorSize at *
  rw [hsub, mul64_of_lt (by omega), add64_of_lt (by omega)]
  omega

/-- The sectors between the first and the last one, as they are counted. -/
theorem sub64_sectorCount (hlt : offset / sectorSize + 1 < (offset + count) / sectorSize)
    (hsize : offset + count < 2 ^ 64) :
    sub64 ((offset + count) / sectorSize - offset / sectorSize + 1) 2 =
      (offset + count) / sectorSize - offset / sectorSize - 1 := by
  unfold sectorSize at *
  rw [sub64_of_le (by omega) (by omega)]
  omega

/-- The write of three sectors or more. -/
theorem writeMore_spec (buf : Buffer) {first last : Buffer} (hfirst : allocated 0 = some first)
    (hlast : allocated 1 = some last)
    (hlt : offset / sectorSize + 1 < (offset + count) / sectorSize)
    (hend : offset + count ≤ d.sectors * sectorSize) :
    ∃ d' : Drive, d.writeMore allocated (offset / sectorSize) ((offset + count) / sectorSize)
        ((offset + count) / sectorSize - offset / sectorSize + 1) count offset buf =
      .ok (d'.writeBetween (offset / sectorSize + 1)
        ((offset + count) / sectorSize - offset / sectorSize - 1)
        (sectorSize - offset % sectorSize) buf) ∧ d'.sectors = d.sectors ∧
      d'.image = splice (splice d.image offset (sectorSize - offset % sectorSize) buf)
        ((offset + count) / sectorSize * sectorSize) ((offset + count) % sectorSize)
          fun i => buf ((offset + count) / sectorSize * sectorSize - offset + i) := by
  have hfits := d.fits
  have hbetween := sub64_sectorCount hlt (lt_of_le_of_lt hend hfits)
  have hinBuf : add64 (mul64 ((offset + count) / sectorSize - offset / sectorSize - 1) sectorSize)
      (sectorSize - offset % sectorSize) = (offset + count) / sectorSize * sectorSize - offset := by
    rw [inBuf_eq (Nat.mod_lt _ (by decide)) hlt (Nat.div_mul_le_self _ _)
      (lt_of_le_of_lt hend hfits), Nat.div_add_mod']
  have hrest : sub64 count ((offset + count) / sectorSize * sectorSize - offset) =
      (offset + count) % sectorSize := by
    unfold sectorSize at *
    rw [sub64_of_le (by omega) (by omega)]
    omega
  rw [writeMore, hfirst, hlast]
  dsimp only
  rw [hbetween, hinBuf, hrest]
  refine ⟨_, rfl, ?_, ?_⟩
  · simp only [writeSectors_sectors, readSectors_sectors]
  · have hoffset : offset / sectorSize * sectorSize + offset % sectorSize = offset :=
      Nat.div_add_mod' offset sectorSize
    have hending : (offset + count) / sectorSize * sectorSize + (offset + count) % sectorSize =
        offset + count := Nat.div_add_mod' (offset + count) sectorSize
    have hnext : offset / sectorSize * sectorSize + sectorSize ≤
        (offset + count) / sectorSize * sectorSize := by
      unfold sectorSize at *
      omega
    rw [updateEnds_image readSectors_image readSectors_sectors (by simp) (by simp)
      (Nat.mod_lt _ (by decide)) (Nat.mod_lt _ (by decide)) hnext (by rwa [hending]), hoffset]

/-- The sectors strictly between the first and the last one. -/
def sectorsBetween (count offset : ℕ) : ℕ :=
  (offset + count) / sectorSize - offset / sectorSize - 1

/-- The bytes up to the second sector. -/
def firstPart (offset : ℕ) : ℕ := sectorSize - offset % sectorSize

theorem sectorsBetween_eq_zero
    (h : ¬offset / sectorSize + 1 < (offset + count) / sectorSize) :
    sectorsBetween count offset = 0 := by
  unfold sectorsBetween
  omega

/-- At most 255 sectors lie between the first and the last one; or the buffer
repeats the first group of 255 of them, as far as full groups go, and the drive
already holds the rest. -/
def Splices (d : Drive) (count offset : ℕ) (buf : Buffer) : Prop :=
  sectorsBetween count offset ≤ 255 ∨
    (∀ i < 255 * sectorSize * (sectorsBetween count offset / 255),
      buf (firstPart offset + i % (255 * sectorSize)) = buf (firstPart offset + i)) ∧
    ∀ i, 255 * sectorSize * (sectorsBetween count offset / 255) ≤ i →
      i < sectorsBetween count offset * sectorSize →
        d.image ((offset / sectorSize + 1) * sectorSize + i) = buf (firstPart offset + i)

/-- The ends and the sectors between them, put together. -/
theorem splice_ends (image : ℕ → UInt8) (buf : Buffer)
    (hlt : offset / sectorSize + 1 < (offset + count) / sectorSize) :
    splice (splice (splice image offset (firstPart offset) buf)
        ((offset + count) / sectorSize * sectorSize) ((offset + count) % sectorSize)
          fun i => buf ((offset + count) / sectorSize * sectorSize - offset + i))
        ((offset / sectorSize + 1) * sectorSize) (sectorsBetween count offset * sectorSize)
        (fun i => buf (firstPart offset + i)) = splice image offset count buf := by
  have hfirst : firstPart offset = (offset / sectorSize + 1) * sectorSize - offset := by
    unfold firstPart sectorSize
    omega
  have hbetween : sectorsBetween count offset * sectorSize =
      (offset + count) / sectorSize * sectorSize - (offset / sectorSize + 1) * sectorSize := by
    rw [sectorsBetween, Nat.sub_sub, Nat.sub_mul]
  have hlast : (offset + count) % sectorSize =
      offset + count - (offset + count) / sectorSize * sectorSize := by
    unfold sectorSize
    omega
  have hstart : offset ≤ (offset / sectorSize + 1) * sectorSize := by
    unfold sectorSize
    omega
  have hmiddle : (offset / sectorSize + 1) * sectorSize ≤
      (offset + count) / sectorSize * sectorSize := Nat.mul_le_mul_right _ hlt.le
  have hend : (offset + count) / sectorSize * sectorSize ≤ offset + count :=
    Nat.div_mul_le_self _ _
  have hparts := splice_parts (f := image) (g := buf) hstart hmiddle hend
  rw [Nat.add_sub_cancel_left, ← hfirst, ← hbetween, ← hlast] at hparts
  exact hparts

theorem sector_le : offset / sectorSize ≤ (offset + count) / sectorSize :=
  Nat.div_le_div_right (Nat.le_add_right _ _)

/-- The sums and differences of the write do not wrap. -/
theorem sectorCount_eq (hfits : offset + count ≤ d.sectors * sectorSize) :
    add64 offset count = offset + count ∧ d.getSizeBy = d.sectors * sectorSize ∧
      add64 (sub64 ((offset + count) / sectorSize) (offset / sectorSize)) 1 =
        (offset + count) / sectorSize - offset / sectorSize + 1 := by
  have hsize := d.fits
  have hmono := @sector_le count offset
  refine ⟨add64_of_lt (by omega), mul64_of_lt hsize, ?_⟩
  unfold sectorSize at *
  rw [sub64_of_le (by omega) (by omega), add64_of_lt (by omega)]

theorem storageWrite_few (buf : Buffer) (hnew : (allocated 0).isSome)
    (hfits : offset + count ≤ d.sectors * sectorSize)
    (hfew : (offset + count) / sectorSize ≤ offset / sectorSize + 1) :
    ∃ d', d.storageWrite allocated count offset buf = .ok (buf, d') ∧
      d'.sectors = d.sectors ∧ d'.image = splice d.image offset count buf := by
  have hmono := @sector_le count offset
  obtain ⟨hsum, hbytes, hcount⟩ := sectorCount_eq hfits
  have hspec := writeOneOrTwo_spec buf
    (n := (offset + count) / sectorSize - offset / sectorSize + 1) hnew (by omega)
    (by omega) (by unfold sectorSize at *; omega) hfits
  have htwo : (offset + count) / sectorSize - offset / sectorSize + 1 = 1 ∨
      (offset + count) / sectorSize - offset / sectorSize + 1 = 2 := by
    omega
  rw [storageWrite, hsum, hbytes, if_neg (not_lt.mpr hfits)]
  dsimp only
  rw [hcount, if_pos htwo]
  exact hspec

theorem storageWrite_more (buf : Buffer) (hnew : (allocated 0).isSome ∧ (allocated 1).isSome)
    (hfits : offset + count ≤ d.sectors * sectorSize)
    (hmore : offset / sectorSize + 1 < (offset + count) / sectorSize) :
    ∃ d' : Drive, d.storageWrite allocated count offset buf =
        .ok (d'.writeBetween (offset / sectorSize + 1) (sectorsBetween count offset)
          (firstPart offset) buf) ∧ d'.sectors = d.sectors ∧
      d'.image = splice (splice d.image offset (firstPart offset) buf)
        ((offset + count) / sectorSize * sectorSize) ((offset + count) % sectorSize)
          fun i => buf ((offset + count) / sectorSize * sectorSize - offset + i) := by
  obtain ⟨hsum, hbytes, hcount⟩ := sectorCount_eq hfits
  have htwo : ¬((offset + count) / sectorSize - offset / sectorSize + 1 = 1 ∨
      (offset + count) / sectorSize - offset / sectorSize + 1 = 2) := by
    omega
  obtain ⟨first, hfirst⟩ := Option.isSome_iff_exists.mp hnew.1
  obtain ⟨last, hlast⟩ := Option.isSome_iff_exists.mp hnew.2
  rw [storageWrite, hsum, hbytes, if_neg (not_lt.mpr hfits)]
  dsimp only
  rw [hcount, if_neg htwo]
  exact writeMore_spec buf hfirst hlast hmore hfits

theorem storageWrite_spec (buf : Buffer) (hfirst : (allocated 0).isSome)
    (hlast : offset / sectorSize + 1 < (offset + count) / sectorSize → (allocated 1).isSome)
    (hfits : offset + count ≤ d.sectors * sectorSize) :
    ∃ buf' d', d.storageWrite allocated count offset buf = .ok (buf', d') ∧
      d'.sectors = d.sectors ∧
      (d'.image = splice d.image offset count buf ∧ buf' = buf ↔ Splices d count offset buf) := by
  by_cases hmore : offset / sectorSize + 1 < (offset + count) / sectorSize
  · obtain ⟨e, hwrite, hsectors, himage⟩ := storageWrite_more buf ⟨hfirst, hlast hmore⟩ hfits hmore
    have hends := splice_ends d.image buf hmore
    have hpos : 0 < sectorsBetween count offset := by
      unfold sectorsBetween
      omega
    have hin : (offset / sectorSize + 1 + sectorsBetween count offset) * sectorSize ≤
        e.sectors * sectorSize := by
      have hsum : offset / sectorSize + 1 + sectorsBetween count offset =
          (offset + count) / sectorSize := by
        unfold sectorsBetween
        omega
      rw [hsum, hsectors]
      exact le_trans (Nat.div_mul_le_self _ _) hfits
    obtain ⟨hkeeps, hiff⟩ := writeBetween_spec buf (firstPart offset) hpos hin
    have hsame : ∀ i, i < sectorsBetween count offset * sectorSize →
        e.image ((offset / sectorSize + 1) * sectorSize + i) =
          d.image ((offset / sectorSize + 1) * sectorSize + i) := by
      intro i hi
      have hhigh : offset + firstPart offset ≤ (offset / sectorSize + 1) * sectorSize + i := by
        unfold firstPart sectorSize
        omega
      have hlow : (offset / sectorSize + 1) * sectorSize + i <
          (offset + count) / sectorSize * sectorSize := by
        rw [sectorsBetween, Nat.sub_sub, Nat.sub_mul] at hi
        omega
      rw [himage, splice_of_lt hlow, splice_of_ge hhigh]
    refine ⟨(e.writeBetween (offset / sectorSize + 1) (sectorsBetween count offset)
      (firstPart offset) buf).1, (e.writeBetween (offset / sectorSize + 1)
        (sectorsBetween count offset) (firstPart offset) buf).2, hwrite, hkeeps.trans hsectors, ?_⟩
    rw [← hends, ← himage, hiff, Splices]
    refine or_congr_right (and_congr_right fun _ => ?_)
    constructor
    · intro hthere i hle hi
      rw [← hsame i hi, hthere i hle hi]
    · intro hthere i hle hi
      rw [hsame i hi, hthere i hle hi]
  · obtain ⟨d', hwrite, hsectors, himage⟩ := storageWrite_few buf hfirst hfits
      (not_lt.mp hmore)
    refine ⟨buf, d', hwrite, hsectors, ?_⟩
    have hfew : Splices d count offset buf := by
      left
      rw [sectorsBetween_eq_zero hmore]
      exact Nat.zero_le 255
    exact ⟨fun _ => hfew, fun _ => ⟨himage, rfl⟩⟩

end Drive

namespace DevFS

variable {s : DevFS} {path : Path} {i : ℕ}

/-- What is put in the place of a drive can be read back. -/
theorem eq_of_set_eq {drives : List Drive} (hd : drives[i]? = some e)
    (h : drives.set i d = drives.set i d₁) : d = d₁ := by
  have hi : i < drives.length := (List.getElem?_eq_some_iff.mp hd).1
  have hget := congrArg (fun l => l[i]?) h
  simpa [hi] using hget

section Outcomes

variable (buf : Buffer) (hpath : driveNumber path = some (i : ℤ)) (hd : s.drives[i]? = some d)
include hpath hd

theorem storageDriveWrite_error {e : Errno}
    (h : d.storageWrite allocated count offset buf = .error e) :
    s.storageDriveWrite allocated path count offset buf = some (0, buf, { s with errno := e }) := by
  simp [storageDriveWrite, hpath, hd, h]

theorem storageDriveWrite_ok {buf' : Buffer} {d' : Drive}
    (h : d.storageWrite allocated count offset buf = .ok (buf', d')) :
    s.storageDriveWrite allocated path count offset buf =
      some (1, buf', { s with drives := s.drives.set i d' }) := by
  simp [storageDriveWrite, hpath, hd, h]

theorem storageDriveRead_error {e : Errno}
    (h : d.storageRead allocated count offset buf = .error e) :
    s.storageDriveRead allocated path count offset buf = some (0, buf, { s with errno := e }) := by
  simp [storageDriveRead, hpath, hd, h]

theorem storageDriveRead_ok {buf' : Buffer} {d' : Drive} {temp : TempBuffer}
    (h : d.storageRead allocated count offset buf = .ok (buf', d', temp)) :
    s.storageDriveRead allocated path count offset buf =
      some (1, buf', { s with drives := s.drives.set i d' }) := by
  simp [storageDriveRead, hpath, hd, h]

end Outcomes

/-- What a write of `count` bytes at `offset` of a drive is for. -/
def WritesSplice (s : DevFS) (allocated : ℕ → Option Buffer) (path : Path) (count offset : ℕ)
    (buf : Buffer) (i : ℕ) (d : Drive) : Prop :=
  ∃ code s' d', s.storageDriveWrite allocated path count offset buf = some (code, buf, s') ∧
    s'.drives = s.drives.set i d' ∧ d'.sectors = d.sectors ∧
    d'.image = splice d.image offset count buf

theorem storageDriveWrite_eq (buf : Buffer) (halloc : ∀ k, (allocated k).isSome)
    (hpath : driveNumber path = some (i : ℤ)) (hd : s.drives[i]? = some d)
    (hfits : offset + count ≤ d.sectors * sectorSize) :
    ∃ buf' d', s.storageDriveWrite allocated path count offset buf =
        some (1, buf', { s with drives := s.drives.set i d' }) ∧ d'.sectors = d.sectors ∧
      (d'.image = splice d.image offset count buf ∧ buf' = buf ↔ d.Splices count offset buf) := by
  obtain ⟨buf', d', hwrite, hsectors, hiff⟩ :=
    Drive.storageWrite_spec buf (halloc 0) (fun _ => halloc 1) hfits
  exact ⟨buf', d', storageDriveWrite_ok buf hpath hd hwrite, hsectors, hiff⟩

theorem splices_of_writesSplice (halloc : ∀ k, (allocated k).isSome)
    (hpath : driveNumber path = some (i : ℤ)) (hd : s.drives[i]? = some d)
    (hfits : offset + count ≤ d.sectors * sectorSize)
    (h : WritesSplice s allocated path count offset buf i d) : d.Splices count offset buf := by
  obtain ⟨buf', d', hresult, -, hiff⟩ := storageDriveWrite_eq buf halloc hpath hd hfits
  obtain ⟨code, s', d'', hsome, hdrives, -, himage⟩ := h
  rw [hresult] at hsome
  cases hsome
  rw [← eq_of_set_eq hd hdrives] at himage
  exact hiff.mp ⟨himage, rfl⟩

theorem writesSplice_of_splices (halloc : ∀ k, (allocated k).isSome)
    (hpath : driveNumber path = some (i : ℤ)) (hd : s.drives[i]? = some d)
    (hfits : offset + count ≤ d.sectors * sectorSize) (h : d.Splices count offset buf) :
    WritesSplice s allocated path count offset buf i d := by
  obtain ⟨buf', d', hresult, hsectors, hiff⟩ := storageDriveWrite_eq buf halloc hpath hd hfits
  obtain ⟨himage, rfl⟩ := hiff.mpr h
  exact ⟨1, _, d', hresult, rfl, hsectors, himage⟩

theorem writesSplice_iff (halloc : ∀ k, (allocated k).isSome)
    (hpath : driveNumber path = some (i : ℤ)) (hd : s.drives[i]? = some d)
    (hfits : offset + count ≤ d.sectors * sectorSize) :
    WritesSplice s allocated path count offset buf i d ↔ d.Splices count offset buf := by
  constructor
  · exact splices_of_writesSplice halloc hpath hd hfits
  · exact writesSplice_of_splices halloc hpath hd hfits

def sdaPath : Path := ⟨false, [['s', 'd', 'a']]⟩

/-- A drive of zeros. -/
def zeroDrive (sectors : ℕ) (fits : sectors * sectorSize < 2 ^ 64) : Drive :=
  ⟨sectors, fun _ => 0, [], fits⟩

theorem writesSplice_iff_small :
    WritesSplice ⟨[zeroDrive 4 (by decide)], .none⟩ (fun _ => some fun _ => 0) sdaPath 600 100
        (fun _ => 7) 0 (zeroDrive 4 (by decide)) ↔
      (zeroDrive 4 (by decide)).Splices 600 100 fun _ => 7 :=
  writesSplice_iff (fun _ => rfl) (by decide) rfl (by decide)

/-- With 257 sectors between the ends, the last two of them are not written. -/
theorem not_writesSplice : ¬∀ (s : DevFS) allocated path count offset buf (i : ℕ) d,
    (∀ k, (allocated k).isSome) → driveNumber path = some (i : ℤ) → s.drives[i]? = some d →
    0 < count → offset + count ≤ d.sectors * sectorSize →
      WritesSplice s allocated path count offset buf i d := by
  intro h
  have hwrites := h ⟨[zeroDrive 300 (by decide)], .none⟩ (fun _ => some fun _ => 0) sdaPath
    (258 * sectorSize) 0 (fun _ => 7) 0 (zeroDrive 300 (by decide)) (fun _ => rfl) (by decide) rfl
    (by decide) (by decide)
  have hsplices := splices_of_writesSplice (fun _ => rfl) (by decide) rfl (by decide) hwrites
  rcases hsplices with hfew | ⟨-, hrest⟩
  · exact absurd hfew (by decide)
  · have hbyte := hrest (255 * sectorSize) (by decide) (by decide)
    exact absurd hbyte (by decide)

end DevFS

theorem fourSectors_fit : 4 * sectorSize < 2 ^ 64 := by decide

def smallDrive : Drive := DevFS.zeroDrive 4 fourSectors_fit

def smallDevFs : DevFS := ⟨[smallDrive], .none⟩

theorem driveNumber_sda : DevFS.driveNumber DevFS.sdaPath = some ((0 : ℕ) : ℤ) := by decide

end AviKernel
