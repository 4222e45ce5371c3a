import AviKernel.Fs.DevFsWrite

/-!
# The read from a drive

The sectors that the range touches are loaded in order into the temporary
buffer, at once or in groups of 255 and a rest, which may be empty.  What a load
does is told by the sectors it covers, and two loads in a row are one load.
-/

namespace AviKernel

variable {d d₁ d₂ : Drive} {temp temp₁ temp₂ : TempBuffer} {lba m k tmp count offset : ℕ}
  {buf : Buffer} {allocated : ℕ → Option Buffer}

/-- The sectors from `lba` on, `m` in number, have come to `tmp` in the temporary
buffer, and nothing past them was touched. -/
structure Loads (d d' : Drive) (temp temp' : TempBuffer) (lba m tmp : ℕ) : Prop where
  image : d'.image = d.image
  sectors : d'.sectors = d.sectors
  size : temp'.size = temp.size
  bytes : temp'.bytes =
    splice temp.bytes tmp (m * sectorSize) fun i => d.image (lba * sectorSize + i)
  touched : ∀ x ∈ temp'.touched, x ∈ temp.touched ∨ x.1 + x.2 ≤ tmp + m * sectorSize

theorem Loads.trans (h : Loads d d₁ temp temp₁ lba m tmp)
    (h' : Loads d₁ d₂ temp₁ temp₂ (lba + m) k (tmp + m * sectorSize)) :
    Loads d d₂ temp temp₂ lba (m + k) tmp where
  image := h'.image.trans h.image
  sectors := h'.sectors.trans h.sectors
  size := h'.size.trans h.size
  bytes := by
    rw [h'.bytes, h.bytes, h.image, Nat.add_mul m, ← splice_append]
    refine splice_congr fun i _ => ?_
    rw [Nat.add_mul, Nat.add_assoc]
  touched := by
    intro x hx
    rw [Nat.add_mul, ← Nat.add_assoc]
    rcases h'.touched x hx with hold | hnew
    · rcases h.touched x hold with hold | hnew
      · exact Or.inl hold
      · exact Or.inr (hnew.trans (Nat.le_add_right _ _))
    · exact Or.inr hnew

namespace Drive

theorem readInto_loads (hlt : count < 2 ^ 8) :
    Loads d (d.readInto lba count temp tmp).2 temp (d.readInto lba count temp tmp).1 lba count
      tmp where
  image := readSectors_image
  sectors := readSectors_sectors
  size := rfl
  bytes := readSectors_buffer hlt
  touched := by
    intro x hx
    rcases List.mem_cons.mp hx with rfl | hold
    · rw [Nat.mod_eq_of_lt hlt]
      exact Or.inr le_rfl
    · exact Or.inl hold

theorem readGroups_loads (k : ℕ) (d : Drive) (lba : ℕ) (temp : TempBuffer) (tmp : ℕ) :
    ∃ d' temp', readGroups k d lba temp tmp =
        (d', lba + 255 * k, temp', tmp + 255 * k * sectorSize) ∧
      Loads d d' temp temp' lba (255 * k) tmp := by
  induction k generalizing d lba temp tmp with
  | zero =>
      refine ⟨d, temp, ?_, rfl, rfl, rfl, ?_, fun x hx => Or.inl hx⟩
      · rw [Nat.mul_zero, Nat.zero_mul]
        rfl
      · rw [Nat.mul_zero, Nat.zero_mul, splice_zero]
  | succ k ih =>
      have hfirst : Loads d (d.readInto lba 255 temp tmp).2 temp (d.readInto lba 255 temp tmp).1 lba
          255 tmp := readInto_loads (by decide)
      obtain ⟨d', temp', hgroups, hrest⟩ := ih (d.readInto lba 255 temp tmp).2 (lba + 255)
        (d.readInto lba 255 temp tmp).1 (tmp + 255 * sectorSize)
      have hcount : 255 * (k + 1) = 255 + 255 * k := by omega
      refine ⟨d', temp', ?_, ?_⟩
      · rw [hcount, Nat.add_mul 255, ← Nat.add_assoc, ← Nat.add_assoc]
        exact hgroups
      · rw [hcount]
        exact hfirst.trans hrest

theorem readAll_loads : Loads d (d.readAll lba m temp).2 temp (d.readAll lba m temp).1 lba m 0 := by
  unfold readAll
  by_cases hfew : m ≤ 255
  · rw [if_pos hfew]
    exact readInto_loads (by omega)
  · obtain ⟨d', temp', hgroups, hloads⟩ := readGroups_loads (m / 255) d lba temp 0
    rw [if_neg hfew, hgroups]
    have hrest : Loads d' (d'.readInto (lba + 255 * (m / 255)) (m % 255) temp'
          (0 + 255 * (m / 255) * sectorSize)).2 temp'
        (d'.readInto (lba + 255 * (m / 255)) (m % 255) temp'
          (0 + 255 * (m / 255) * sectorSize)).1 (lba + 255 * (m / 255)) (m % 255)
        (0 + 255 * (m / 255) * sectorSize) := readInto_loads (by omega)
    have hboth := hloads.trans hrest
    rwa [Nat.div_add_mod] at hboth

/-- The range lies within the sectors that are loaded, and their size is a word
of 32 bits. -/
theorem range_le (hcount : count < 2 ^ 31) :
    offset % sectorSize + count ≤
        ((offset + count) / sectorSize - offset / sectorSize + 1) * sectorSize ∧
      ((offset + count) / sectorSize - offset / sectorSize + 1) * sectorSize < 2 ^ 32 := by
  unfold sectorSize
  omega

theorem storageRead_spec (buf : Buffer) (hnew : (allocated 0).isSome) (hcount : count < 2 ^ 31)
    (hfits : offset + count ≤ d.sectors * sectorSize) :
    ∃ d' temp, d.storageRead allocated count offset buf =
        .ok (splice buf 0 count fun i => d.image (offset + i), d', temp) ∧
      d'.sectors = d.sectors ∧ d'.image = d.image ∧
        ∀ x ∈ temp.touched, x.1 + x.2 ≤ temp.size := by
  obtain ⟨bytes, hbytes⟩ := Option.isSome_iff_exists.mp hnew
  obtain ⟨hsum, -, hsectors⟩ := sectorCount_eq hfits
  obtain ⟨hrange, hword⟩ := @range_le count offset hcount
  set n := (offset + count) / sectorSize - offset / sectorSize + 1 with hn
  have hsize : mul64 n sectorSize % 2 ^ 32 = n * sectorSize := by
    rw [mul64_of_lt (hword.trans (by decide)), Nat.mod_eq_of_lt hword]
  have hloads := @readAll_loads d ⟨n * sectorSize, bytes, []⟩ (offset / sectorSize) n
  rcases hread : d.readAll (offset / sectorSize) n ⟨n * sectorSize, bytes, []⟩ with ⟨temp, d'⟩
  rw [hread] at hloads
  have hslice : memcpy buf 0 temp.bytes (offset % sectorSize) count =
      splice buf 0 count fun i => d.image (offset + i) := by
    rw [memcpy_eq (hcount.trans (by decide)), hloads.bytes]
    refine splice_congr fun i hi => ?_
    rw [splice_of_mem (Nat.zero_le _) (by omega), Nat.sub_zero, ← Nat.add_assoc,
      Nat.div_add_mod']
  refine ⟨d', { temp with touched := (offset % sectorSize, count % 2 ^ 32) :: temp.touched }, ?_,
    hloads.sectors, hloads.image, ?_⟩
  · rw [storageRead, hsum]
    dsimp only
    rw [hsectors, hbytes, hsize]
    dsimp only
    rw [hread, hslice]
  · intro x hx
    dsimp only at hx ⊢
    rw [hloads.size]
    rcases List.mem_cons.mp hx with rfl | hold
    · rw [Nat.mod_eq_of_lt (hcount.trans (by decide))]
      exact hrange
    · rcases hloads.touched x hold with hnil | hle
      · exact absurd hnil List.not_mem_nil
      · exact hle.trans_eq (Nat.zero_add _)

end Drive

namespace DevFS

variable {s : DevFS} {path : Path} {i : ℕ}

/-- The bytes of the range come to the buffer, the drive keeps its contents, and
what is touched in the temporary buffer lies in it. -/
theorem storageDriveRead_slice (buf : Buffer) (hnew : (allocated 0).isSome)
    (hpath : driveNumber path = some (i : ℤ)) (hd : s.drives[i]? = some d)
    (hcount : count < 2 ^ 31) (hfits : offset + count ≤ d.sectors * sectorSize) :
    ∃ d' temp, d.storageRead allocated count offset buf =
        .ok (splice buf 0 count fun i => d.image (offset + i), d', temp) ∧
      s.storageDriveRead allocated path count offset buf =
        some (1, splice buf 0 count fun i => d.image (offset + i),
          { s with drives := s.drives.set i d' }) ∧
      d'.sectors = d.sectors ∧ d'.image = d.image ∧
        ∀ x ∈ temp.touched, x.1 + x.2 ≤ temp.size := by
  obtain ⟨d', temp, hread, hkept⟩ := Drive.storageRead_spec buf hnew hcount hfits
  exact ⟨d', temp, hread, storageDriveRead_ok buf hpath hd hread, hkept⟩

theorem storageDriveRead_slice_small :
    ∃ d' temp, smallDrive.storageRead (fun _ => some fun _ => 7) 600 100 (fun _ => 3) =
        .ok (splice (fun _ => 3) 0 600 fun i => smallDrive.image (100 + i), d', temp) ∧
      smallDevFs.storageDriveRead (fun _ => some fun _ => 7) sdaPath 600 100 (fun _ => 3) =
        some (1, splice (fun _ => 3) 0 600 fun i => smallDrive.image (100 + i),
          { smallDevFs with drives := smallDevFs.drives.set 0 d' }) ∧
      d'.sectors = smallDrive.sectors ∧ d'.image = smallDrive.image ∧
        ∀ x ∈ temp.touched, x.1 + x.2 ≤ temp.size :=
  storageDriveRead_slice (fun _ => 3) rfl driveNumber_sda rfl (by decide) (by decide)

end DevFS

end AviKernel
