import AviKernel.Fs.DevFsRead

/-!
# The sectors that a range addresses

The last sector is computed from the end of the range, which is exclusive.  So
the calls reach exactly one sector past the sector of that end, and the drive is
left exactly by the ranges that end with it.
-/

namespace AviKernel

namespace Drive

variable {d d₁ d₂ : Drive} {b c lba count offset pos bufPtr tmp k m : ℕ} {buf : Buffer}
  {temp : TempBuffer} {allocated : ℕ → Option Buffer}

/-- The calls between two states of a drive end at `b` or before. -/
def UpTo (b : ℕ) (d d' : Drive) : Prop :=
  ∃ new, d'.requests = new ++ d.requests ∧ ∀ r ∈ new, r.1 + r.2 ≤ b

/-- And one of them ends there. -/
def Reaches (b : ℕ) (d d' : Drive) : Prop :=
  ∃ new, d'.requests = new ++ d.requests ∧ (∀ r ∈ new, r.1 + r.2 ≤ b) ∧ ∃ r ∈ new, r.1 + r.2 = b

theorem UpTo.refl : UpTo b d d := ⟨[], rfl, fun _ hr => absurd hr List.not_mem_nil⟩

theorem UpTo.mono (h : UpTo b d d₁) (hle : b ≤ c) : UpTo c d d₁ := by
  obtain ⟨new, hnew, hall⟩ := h
  exact ⟨new, hnew, fun r hr => (hall r hr).trans hle⟩

theorem UpTo.trans (h : UpTo b d d₁) (h' : UpTo b d₁ d₂) : UpTo b d d₂ := by
  obtain ⟨new, hnew, hall⟩ := h
  obtain ⟨new', hnew', hall'⟩ := h'
  refine ⟨new' ++ new, by rw [hnew', hnew, List.append_assoc], fun r hr => ?_⟩
  rcases List.mem_append.mp hr with hr | hr
  · exact hall' r hr
  · exact hall r hr

theorem Reaches.upTo (h : Reaches b d d₁) : UpTo b d d₁ := by
  obtain ⟨new, hnew, hall, -⟩ := h
  exact ⟨new, hnew, hall⟩

/-- The calls of two steps, put together. -/
theorem calls_append {old new' new : List (ℕ × ℕ)} (hold : d₁.requests = old ++ d.requests)
    (hnew' : d₂.requests = new' ++ d₁.requests) (hnew : d₂.requests = new ++ d.requests) :
    new = new' ++ old := by
  rw [hnew', hold, ← List.append_assoc] at hnew
  exact (List.append_cancel_right hnew).symm

theorem UpTo.reaches (h : UpTo b d d₁) (h' : Reaches b d₁ d₂) : Reaches b d d₂ := by
  obtain ⟨new, hnew, hall⟩ := h.trans h'.upTo
  obtain ⟨new', hnew', -, r, hr, hreach⟩ := h'
  obtain ⟨old, hold, -⟩ := h
  have hparts := calls_append hold hnew' hnew
  exact ⟨new, hnew, hall, r, hparts ▸ List.mem_append_left _ hr, hreach⟩

theorem Reaches.upTo_after (h : Reaches b d d₁) (h' : UpTo b d₁ d₂) : Reaches b d d₂ := by
  obtain ⟨new, hnew, hall⟩ := h.upTo.trans h'
  obtain ⟨new', hnew', -⟩ := h'
  obtain ⟨old, hold, -, r, hr, hreach⟩ := h
  have hparts := calls_append hold hnew' hnew
  exact ⟨new, hnew, hall, r, hparts ▸ List.mem_append_right _ hr, hreach⟩

theorem Reaches.upTo_iff (h : Reaches b d d₁) : UpTo c d d₁ ↔ b ≤ c := by
  constructor
  · rintro ⟨new, hnew, hall⟩
    obtain ⟨new', hnew', -, r, hr, hreach⟩ := h
    have hsame : new' = new := List.append_cancel_right (hnew'.symm.trans hnew)
    rw [← hreach]
    exact hall r (hsame ▸ hr)
  · exact h.upTo.mono

/-! ### The calls of each operation -/

theorem reaches_cons {p : ℕ × ℕ} (h : d₁.requests = p :: d.requests) : Reaches (p.1 + p.2) d d₁ :=
  ⟨[p], h, fun r hr => by rw [List.mem_singleton.mp hr], p, List.mem_singleton_self p, rfl⟩

theorem readSectors_requests (hlt : count < 2 ^ 8) :
    (d.readSectors lba count buf pos).2.requests = (lba, count) :: d.requests := by
  unfold readSectors
  dsimp only
  rw [Nat.mod_eq_of_lt hlt]
  split
  · rename_i hzero
    rw [hzero]
  · rfl

theorem writeSectors_requests (hlt : count < 2 ^ 8) :
    (d.writeSectors lba count buf pos).requests = (lba, count) :: d.requests := by
  unfold writeSectors
  dsimp only
  rw [Nat.mod_eq_of_lt hlt]
  split
  · rename_i hzero
    rw [hzero]
  · rfl

theorem readSectors_reaches (hlt : count < 2 ^ 8) :
    Reaches (lba + count) d (d.readSectors lba count buf pos).2 :=
  reaches_cons (readSectors_requests hlt)

theorem writeSectors_reaches (hlt : count < 2 ^ 8) :
    Reaches (lba + count) d (d.writeSectors lba count buf pos) :=
  reaches_cons (writeSectors_requests hlt)

theorem readInto_reaches (hlt : count < 2 ^ 8) :
    Reaches (lba + count) d (d.readInto lba count temp tmp).2 := by
  have hread : Reaches (lba + count) d (d.readSectors lba count temp.bytes tmp).2 :=
    readSectors_reaches hlt
  exact hread

theorem readGroups_upTo : UpTo (lba + 255 * k) d (readGroups k d lba temp tmp).1 := by
  induction k generalizing d lba temp tmp with
  | zero => exact UpTo.refl
  | succ k ih =>
      have hfirst : Reaches (lba + 255) d (d.readInto lba 255 temp tmp).2 :=
        readInto_reaches (by decide)
      have hrest : UpTo (lba + 255 + 255 * k) (d.readInto lba 255 temp tmp).2
        (readGroups (k + 1) d lba temp tmp).1 := ih
      have hsum : lba + 255 + 255 * k = lba + 255 * (k + 1) := by omega
      rw [hsum] at hrest
      exact (hfirst.upTo.mono (by omega)).trans hrest

theorem readAll_reaches : Reaches (lba + m) d (d.readAll lba m temp).2 := by
  unfold readAll
  by_cases hfew : m ≤ 255
  · rw [if_pos hfew]
    exact readSectors_reaches (by omega)
  · obtain ⟨d', temp', hgroups, -⟩ := readGroups_loads (m / 255) d lba temp 0
    have hup : UpTo (lba + 255 * (m / 255)) d (readGroups (m / 255) d lba temp 0).1 :=
      readGroups_upTo
    rw [if_neg hfew, hgroups]
    rw [hgroups] at hup
    have hrest : Reaches (lba + 255 * (m / 255) + m % 255) d'
        (d'.readInto (lba + 255 * (m / 255)) (m % 255) temp'
          (0 + 255 * (m / 255) * sectorSize)).2 := readInto_reaches (by omega)
    rw [Nat.add_assoc, Nat.div_add_mod] at hrest
    exact (hup.mono (by omega)).reaches hrest

theorem writeGroups_upTo : UpTo (lba + 255 * k) d (writeGroups buf pos k d lba bufPtr).1 ∧
    (writeGroups buf pos k d lba bufPtr).2.1 = lba + 255 * k := by
  induction k generalizing d lba bufPtr with
  | zero => exact ⟨UpTo.refl, rfl⟩
  | succ k ih =>
      have hfirst : Reaches (lba + 255) d (d.writeSectors lba 255 buf pos) :=
        writeSectors_reaches (by decide)
      have hrest : UpTo (lba + 255 + 255 * k) (d.writeSectors lba 255 buf pos)
            (writeGroups buf pos (k + 1) d lba bufPtr).1 ∧
          (writeGroups buf pos (k + 1) d lba bufPtr).2.1 = lba + 255 + 255 * k := ih
      have hsum : lba + 255 + 255 * k = lba + 255 * (k + 1) := by omega
      rw [hsum] at hrest
      exact ⟨(hfirst.upTo.mono (by omega)).trans hrest.1, hrest.2⟩

theorem writeBetween_upTo : UpTo (lba + m) d (d.writeBetween lba m pos buf).2 := by
  unfold writeBetween
  by_cases hfew : m ≤ 255
  · rw [if_pos hfew]
    exact (writeSectors_reaches (by omega)).upTo
  · rcases hgroups : writeGroups buf pos (m / 255) d lba pos with ⟨d', lba', bufPtr'⟩
    have hup := @writeGroups_upTo d lba pos pos (m / 255) buf
    rw [hgroups] at hup
    obtain ⟨hgroup, rfl⟩ := hup
    rw [if_neg hfew]
    have hrest : Reaches (lba + 255 * (m / 255) + m % 255) d'
        (d'.readSectors (lba + 255 * (m / 255)) (m % 255) buf bufPtr').2 :=
      readSectors_reaches (by omega)
    rw [Nat.add_assoc, Nat.div_add_mod] at hrest
    exact (hgroup.mono (by omega)).trans hrest.upTo

theorem writeOneOrTwo_reaches {sectors : Buffer} (hnew : allocated 0 = some sectors)
    (hlt : m < 2 ^ 8) :
    ∃ buf' d', d.writeOneOrTwo allocated lba m count offset buf = .ok (buf', d') ∧
      Reaches (lba + m) d d' := by
  rw [writeOneOrTwo, hnew]
  refine ⟨buf, _, rfl, ?_⟩
  exact (readSectors_reaches hlt).upTo.reaches (writeSectors_reaches hlt)

theorem updateEnds_reaches {ending : ℕ} (first last p q : Buffer) (hle : lba ≤ ending) :
    Reaches (ending + 1) d
      ((((d.readSectors lba 1 first 0).2.readSectors ending 1 last 0).2.writeSectors lba 1 p
        0).writeSectors ending 1 q 0) := by
  have hone : lba + 1 ≤ ending + 1 := Nat.succ_le_succ hle
  have hread : Reaches (lba + 1) d (d.readSectors lba 1 first 0).2 :=
    readSectors_reaches (by decide)
  have hread' : Reaches (ending + 1) (d.readSectors lba 1 first 0).2
      ((d.readSectors lba 1 first 0).2.readSectors ending 1 last 0).2 :=
    readSectors_reaches (by decide)
  have hwrite : Reaches (lba + 1) ((d.readSectors lba 1 first 0).2.readSectors ending 1 last 0).2
      (((d.readSectors lba 1 first 0).2.readSectors ending 1 last 0).2.writeSectors lba 1 p 0) :=
    writeSectors_reaches (by decide)
  refine (((hread.upTo.mono hone).trans hread'.upTo).trans (hwrite.upTo.mono hone)).reaches ?_
  exact writeSectors_reaches (by decide)

theorem writeMore_reaches {first last : Buffer} {ending : ℕ} (hfirst : allocated 0 = some first)
    (hlast : allocated 1 = some last) (hbetween : lba + 1 + sub64 m 2 = ending) :
    ∃ buf' d', d.writeMore allocated lba ending m count offset buf = .ok (buf', d') ∧
      Reaches (ending + 1) d d' := by
  have hle : lba ≤ ending := by omega
  have hends : ∃ e n, d.writeMore allocated lba ending m count offset buf =
        .ok (e.writeBetween (lba + 1) (sub64 m 2) n buf) ∧ Reaches (ending + 1) d e := by
    rw [writeMore, hfirst, hlast]
    dsimp only
    exact ⟨_, _, rfl, updateEnds_reaches first last _ _ hle⟩
  obtain ⟨e, n, hwrite, hreaches⟩ := hends
  have hup : UpTo (lba + 1 + sub64 m 2) e (e.writeBetween (lba + 1) (sub64 m 2) n buf).2 :=
    writeBetween_upTo
  rcases hresult : e.writeBetween (lba + 1) (sub64 m 2) n buf with ⟨buf', d'⟩
  rw [hresult, hbetween] at hup
  rw [hresult] at hwrite
  exact ⟨buf', d', hwrite, hreaches.upTo_after (hup.mono (Nat.le_succ ending))⟩

/-! ### Whole reads and writes -/

theorem storageRead_reaches (hnew : (allocated 0).isSome)
    (hfits : offset + count ≤ d.sectors * sectorSize) :
    ∃ buf' d' temp, d.storageRead allocated count offset buf = .ok (buf', d', temp) ∧
      Reaches ((offset + count) / sectorSize + 1) d d' := by
  obtain ⟨bytes, hbytes⟩ := Option.isSome_iff_exists.mp hnew
  obtain ⟨hsum, -, hsectors⟩ := sectorCount_eq hfits
  have hmono := @sector_le count offset
  have hend : offset / sectorSize + ((offset + count) / sectorSize - offset / sectorSize + 1) =
      (offset + count) / sectorSize + 1 := by omega
  rw [storageRead, hsum]
  dsimp only
  rw [hsectors, hbytes, ← hend]
  exact ⟨_, _, _, rfl, readAll_reaches⟩

theorem storageRead_enomem (hnew : ¬(allocated 0).isSome) :
    d.storageRead allocated count offset buf = .error .ENOMEM := by
  rw [storageRead, Option.not_isSome_iff_eq_none.mp hnew]

/-- The memory that a write asks for is there. -/
def CanUpdate (allocated : ℕ → Option Buffer) (count offset : ℕ) : Prop :=
  (allocated 0).isSome ∧
    (offset / sectorSize + 1 < (offset + count) / sectorSize → (allocated 1).isSome)

theorem storageWrite_reaches (hnew : CanUpdate allocated count offset)
    (hfits : offset + count ≤ d.sectors * sectorSize) :
    ∃ buf' d', d.storageWrite allocated count offset buf = .ok (buf', d') ∧
      Reaches ((offset + count) / sectorSize + 1) d d' := by
  obtain ⟨first, hfirst⟩ := Option.isSome_iff_exists.mp hnew.1
  obtain ⟨hsum, hbytes, hsectors⟩ := sectorCount_eq hfits
  have hmono := @sector_le count offset
  rw [storageWrite, hsum, hbytes, if_neg (not_lt.mpr hfits)]
  dsimp only
  rw [hsectors]
  by_cases hmore : offset / sectorSize + 1 < (offset + count) / sectorSize
  · obtain ⟨last, hlast⟩ := Option.isSome_iff_exists.mp (hnew.2 hmore)
    rw [if_neg (by omega)]
    refine writeMore_reaches hfirst hlast ?_
    rw [sub64_sectorCount hmore (hfits.trans_lt d.fits)]
    omega
  · have hend : offset / sectorSize + ((offset + count) / sectorSize - offset / sectorSize + 1) =
        (offset + count) / sectorSize + 1 := by omega
    have hlt : (offset + count) / sectorSize - offset / sectorSize + 1 < 2 ^ 8 := by omega
    rw [if_pos (by omega), ← hend]
    exact writeOneOrTwo_reaches hfirst hlt

theorem storageWrite_enomem (hnew : ¬CanUpdate allocated count offset)
    (hfits : offset + count ≤ d.sectors * sectorSize) :
    d.storageWrite allocated count offset buf = .error .ENOMEM := by
  obtain ⟨hsum, hbytes, hsectors⟩ := sectorCount_eq hfits
  rw [storageWrite, hsum, hbytes, if_neg (not_lt.mpr hfits)]
  dsimp only
  rw [hsectors]
  cases hfirst : allocated 0 with
  | none =>
      split
      · rw [writeOneOrTwo, hfirst]
      · rw [writeMore, hfirst]
  | some first =>
      have hboth : ¬(offset / sectorSize + 1 < (offset + count) / sectorSize →
          (allocated 1).isSome) := by
        intro hyes
        exact hnew ⟨by rw [hfirst]; rfl, hyes⟩
      obtain ⟨hmore, hlast⟩ := Classical.not_imp.mp hboth
      rw [if_neg (by omega), writeMore, hfirst, Option.not_isSome_iff_eq_none.mp hlast]

/-- What ends at the sector of the exclusive end is past the drive exactly if the
range ends with the drive. -/
theorem ending_le_iff : (offset + count) / sectorSize + 1 ≤ d.sectors ↔
    offset + count < d.sectors * sectorSize :=
  Nat.div_lt_iff_lt_mul (by decide)

end Drive

namespace DevFS

variable {s : DevFS} {path : Path} {i count offset : ℕ} {d : Drive} {buf : Buffer}
  {allocated : ℕ → Option Buffer}

/-- The calls that an operation makes are calls for drive `i`, and lie within
it. -/
def StaysInside (s : DevFS) (i : ℕ) (d : Drive) (result : Option (ℕ × Buffer × DevFS)) : Prop :=
  ∃ code buf t d', result = some (code, buf, t) ∧ t.drives = s.drives.set i d' ∧
    Drive.UpTo d.sectors d d'

theorem staysInside_same {code : ℕ} {e : Errno} (hd : s.drives[i]? = some d) :
    StaysInside s i d (some (code, buf, { s with errno := e })) := by
  refine ⟨code, buf, _, d, rfl, ?_, Drive.UpTo.refl⟩
  obtain ⟨hi, rfl⟩ := List.getElem?_eq_some_iff.mp hd
  exact (List.set_getElem_self hi).symm

theorem staysInside_set {code : ℕ} {d' : Drive} (hd : s.drives[i]? = some d) :
    StaysInside s i d (some (code, buf, { s with drives := s.drives.set i d' })) ↔
      Drive.UpTo d.sectors d d' := by
  constructor
  · rintro ⟨_, _, _, d'', hresult, hdrives, hup⟩
    cases hresult
    rwa [eq_of_set_eq hd hdrives]
  · intro hup
    exact ⟨code, buf, _, d', rfl, rfl, hup⟩

section Inside

variable (hpath : driveNumber path = some (i : ℤ)) (hd : s.drives[i]? = some d)
  (hfits : offset + count ≤ d.sectors * sectorSize)
include hpath hd hfits

theorem read_staysInside_iff : StaysInside s i d (s.storageDriveRead allocated path count offset buf) ↔
    ((allocated 0).isSome → offset + count < d.sectors * sectorSize) := by
  by_cases hnew : (allocated 0).isSome
  · obtain ⟨buf', d', temp, hread, hreaches⟩ := @Drive.storageRead_reaches d count offset buf
      allocated hnew hfits
    rw [storageDriveRead_ok buf hpath hd hread, staysInside_set hd, hreaches.upTo_iff, Drive.ending_le_iff,
      forall_prop_of_true hnew]
  · refine iff_of_true ?_ fun hyes => absurd hyes hnew
    rw [storageDriveRead_error buf hpath hd (Drive.storageRead_enomem hnew)]
    exact staysInside_same hd

theorem write_staysInside_iff :
    StaysInside s i d (s.storageDriveWrite allocated path count offset buf) ↔
      (Drive.CanUpdate allocated count offset → offset + count < d.sectors * sectorSize) := by
  by_cases hnew : Drive.CanUpdate allocated count offset
  · obtain ⟨buf', d', hwrite, hreaches⟩ := @Drive.storageWrite_reaches d count offset buf allocated
      hnew hfits
    rw [storageDriveWrite_ok buf hpath hd hwrite, staysInside_set hd, hreaches.upTo_iff, Drive.ending_le_iff,
      forall_prop_of_true hnew]
  · refine iff_of_true ?_ fun hyes => absurd hyes hnew
    rw [storageDriveWrite_error buf hpath hd (Drive.storageWrite_enomem hnew hfits)]
    exact staysInside_same hd

end Inside

/-- A drive is left exactly by the ranges that end with it, if there is memory for
the sectors. -/
theorem staysInside_iff (buf : Buffer) (hpath : driveNumber path = some (i : ℤ))
    (hd : s.drives[i]? = some d) (hfits : offset + count ≤ d.sectors * sectorSize) :
    (StaysInside s i d (s.storageDriveRead allocated path count offset buf) ↔
        ((allocated 0).isSome → offset + count < d.sectors * sectorSize)) ∧
      (StaysInside s i d (s.storageDriveWrite allocated path count offset buf) ↔
        (Drive.CanUpdate allocated count offset → offset + count < d.sectors * sectorSize)) :=
  ⟨read_staysInside_iff hpath hd hfits, write_staysInside_iff hpath hd hfits⟩

/-- There is always memory, and its bytes are sevens. -/
def sevens : ℕ → Option Buffer := fun _ => some fun _ => 7

theorem staysInside_iff_small :
    (StaysInside smallDevFs 0 smallDrive
          (smallDevFs.storageDriveRead sevens sdaPath 512 1536 fun _ => 3) ↔
        ((sevens 0).isSome → 1536 + 512 < smallDrive.sectors * sectorSize)) ∧
      (StaysInside smallDevFs 0 smallDrive
          (smallDevFs.storageDriveWrite sevens sdaPath 512 1536 fun _ => 3) ↔
        (Drive.CanUpdate sevens 512 1536 → 1536 + 512 < smallDrive.sectors * sectorSize)) :=
  staysInside_iff (fun _ => 3) driveNumber_sda rfl (by decide)

/-- Reading the last sector of a drive reads one more after it, and writing it
writes one more. -/
theorem not_staysInside :
    (¬∀ (s : DevFS) allocated path count offset buf (i : ℕ) d, 0 < count →
      driveNumber path = some (i : ℤ) → s.drives[i]? = some d →
      offset + count ≤ d.sectors * sectorSize →
        StaysInside s i d (s.storageDriveRead allocated path count offset buf)) ∧
    ¬∀ (s : DevFS) allocated path count offset buf (i : ℕ) d, 0 < count →
      driveNumber path = some (i : ℤ) → s.drives[i]? = some d →
      offset + count ≤ d.sectors * sectorSize →
        StaysInside s i d (s.storageDriveWrite allocated path count offset buf) := by
  constructor
  · intro h
    have hinside := h smallDevFs sevens sdaPath 512 1536 (fun _ => 3) 0
      smallDrive (by decide) driveNumber_sda rfl (by decide)
    rw [read_staysInside_iff driveNumber_sda rfl (by decide)] at hinside
    exact absurd (hinside rfl) (by decide)
  · intro h
    have hinside := h smallDevFs sevens sdaPath 512 1536 (fun _ => 3) 0
      smallDrive (by decide) driveNumber_sda rfl (by decide)
    rw [write_staysInside_iff driveNumber_sda rfl (by decide)] at hinside
    exact absurd (hinside ⟨rfl, fun _ => rfl⟩) (by decide)

end DevFS

end AviKernel
