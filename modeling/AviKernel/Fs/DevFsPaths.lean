import AviKernel.Fs.DevFsRead

/-!
# The paths of the device file system

The root directory lists one name for each drive.  Whether a path is listed is
never found out, since the code for a missing file is not zero: a path with the
shape of a drive's name goes on to a drive, and every other one is a success.
-/

namespace AviKernel

namespace DevFS

variable {s : DevFS} {path : Path} {rootDir : List Path} {i k n : ℕ} {d : Drive}

/-- The name of drive `i`. -/
def driveName (i : ℕ) : List Char := ['/', 's', 'd', Char.ofNat ('a'.toNat + i)]

theorem letter_toNat (hi : i < 26) : (Char.ofNat ('a'.toNat + i)).toNat = 'a'.toNat + i := by
  revert i
  decide

theorem toString_ofString {c : Char} (hc : c ≠ '/') :
    (Path.ofString ['/', 's', 'd', c]).toString = ['/', 's', 'd', c] := by
  have hspace : Path.isspace '/' = false := by decide
  have habsolute : Path.absolute ['/', 's', 'd', c] = ['/', 's', 'd', c] := by
    simp [Path.absolute, Path.emptyOrWhitespaces, hspace]
  simp [Path.ofString, Path.toString, Path.isFolder, habsolute, Path.fillVector, Path.joinParts, hc]

theorem toString_driveName (hi : i < 26) : (Path.ofString (driveName i)).toString = driveName i := by
  refine toString_ofString fun hslash => ?_
  have hletter := letter_toNat hi
  rw [hslash] at hletter
  have hlarge : 'a'.toNat = 97 := rfl
  have hsmall : '/'.toNat = 47 := rfl
  omega

/-- A round of the loop lists the next drive. -/
theorem mountFrom_map (hrounds : i + n = 26) (hi : i ≤ k) (hk : k ≤ 26) :
    (mountFrom k n i rootDir).map Path.toString =
      rootDir.map Path.toString ++ (List.range' i (k - i)).map driveName := by
  induction n generalizing i rootDir with
  | zero =>
      have hnone : k - i = 0 := by omega
      rw [hnone, List.range'_zero, List.map_nil, List.append_nil]
      rfl
  | succ n ih =>
      rw [mountFrom]
      by_cases hlt : i < k
      · have hletter : 'z'.toNat - n = 'a'.toNat + i := by
          have ha : 'a'.toNat = 97 := rfl
          have hz : 'z'.toNat = 122 := rfl
          omega
        have hname : ['/', 's', 'd'] ++ [Char.ofNat ('z'.toNat - n)] = driveName i := by
          rw [hletter]
          rfl
        have hrest : k - i = k - (i + 1) + 1 := by omega
        rw [if_pos hlt, ih (by omega) hlt, hname, hrest, List.range'_succ, List.map_append,
          List.append_assoc, List.map_singleton, toString_driveName (by omega), List.map_cons,
          List.singleton_append]
      · have hnone : k - i = 0 := by omega
        rw [if_neg hlt, hnone, List.range'_zero, List.map_nil, List.append_nil]

/-- The root directory lists the names of the drives. -/
theorem mount_map (hdrives : s.drives.length ≤ 26) :
    (s.mount []).map Path.toString = (List.range s.drives.length).map driveName := by
  rw [mount, mountFrom_map rfl (Nat.zero_le _) hdrives, List.map_nil, List.nil_append, Nat.sub_zero,
    List.range_eq_range']

theorem listed_iff (hdrives : s.drives.length ≤ 26) :
    (∃ p ∈ s.mount [], p.toString = path.toString) ↔
      ∃ i < s.drives.length, path.toString = driveName i := by
  have hmem : (∃ p ∈ s.mount [], p.toString = path.toString) ↔
      path.toString ∈ (s.mount []).map Path.toString := List.mem_map.symm
  rw [hmem, mount_map hdrives, List.mem_map]
  constructor
  · rintro ⟨i, hi, hname⟩
    exact ⟨i, List.mem_range.mp hi, hname.symm⟩
  · rintro ⟨i, hi, hname⟩
    exact ⟨i, List.mem_range.mpr hi, hname.symm⟩

/-! ### Unknown and listed paths -/

/-- The path is rejected, and nothing else happens. -/
structure Rejects (s : DevFS) (rootDir : List Path) (path : Path) : Prop where
  read : ∀ allocated count offset buf,
    s.read rootDir allocated path count offset buf = some (0, buf, { s with errno := .ENOENT })
  write : ∀ allocated count offset buf,
    s.write rootDir allocated path count offset buf = some (0, buf, { s with errno := .ENOENT })
  getFileSize : s.getFileSize rootDir path = some (0, none, { s with errno := .ENOENT })

/-- What the file system returns for what drive `i` did. -/
def onDrive (s : DevFS) (i : ℕ) (buf : Buffer) :
    Except Errno (Buffer × Drive) → ℕ × Buffer × DevFS
  | .error e => (0, buf, { s with errno := e })
  | .ok (buf, d) => (1, buf, { s with drives := s.drives.set i d })

/-- The path stands for drive `i`. -/
structure Serves (s : DevFS) (rootDir : List Path) (path : Path) (i : ℕ) (d : Drive) : Prop where
  read : ∀ allocated count offset buf, s.read rootDir allocated path count offset buf =
    some (s.onDrive i buf ((d.storageRead allocated count offset buf).map fun x => (x.1, x.2.1)))
  write : ∀ allocated count offset buf, s.write rootDir allocated path count offset buf =
    some (s.onDrive i buf (d.storageWrite allocated count offset buf))
  getFileSize : s.getFileSize rootDir path = some (1, some d.getSizeBy, s)

/-- Unknown paths are rejected, and the name of a drive stands for it. -/
structure HandlesPath (s : DevFS) (path : Path) : Prop where
  unknown : (¬∃ i < s.drives.length, path.toString = driveName i) → s.Rejects (s.mount []) path
  listed : ∀ i d, s.drives[i]? = some d → path.toString = driveName i →
    s.Serves (s.mount []) path i d

/-- No answer means that the file is missing, as far as a truth value goes. -/
theorem fileExist_ne_zero : fileExist rootDir path ≠ 0 := by
  unfold fileExist
  split
  · split <;> decide
  · split <;> decide

theorem not_rejects (hfolder : path.isFolder = false) : ¬s.Rejects rootDir path := by
  intro hrejects
  have hsize := hrejects.getFileSize
  rw [getFileSize, hfolder, if_neg Bool.false_ne_true, if_neg fileExist_ne_zero] at hsize
  obtain ⟨storage, -, hrest⟩ := Option.bind_eq_some_iff.mp hsize
  cases storage with
  | false =>
      rw [if_neg Bool.false_ne_true] at hrest
      cases hrest
  | true =>
      obtain ⟨number, -, hrest⟩ := Option.bind_eq_some_iff.mp hrest
      obtain ⟨d, -, hrest⟩ := Option.bind_eq_some_iff.mp hrest
      cases hrest

theorem driveNumber_driveName (hi : i < 26) (hname : path.toString = driveName i) :
    driveNumber path = some (i : ℤ) := by
  have hletter : (Char.ofNat ('a'.toNat + i)).toNat = 'a'.toNat + i := letter_toNat hi
  have ha : 'a'.toNat = 97 := rfl
  have hvalue : ('a'.toNat + i + (256 - 'a'.toNat)) % 256 = i := by omega
  have hget : path.toString[3]? = some (Char.ofNat ('a'.toNat + i)) := by
    rw [hname]
    rfl
  rw [driveNumber, hget, Option.map_some, hletter, hvalue]
  dsimp only
  rw [if_pos (by omega)]

theorem isStorageDrive_driveName (hname : path.toString = driveName i) :
    isStorageDrive path = some true := by
  rw [isStorageDrive, hname]
  rfl

theorem serves_of_driveName (hfolder : path.isFolder = false) (hi : i < 26)
    (hd : s.drives[i]? = some d) (hname : path.toString = driveName i) :
    s.Serves rootDir path i d := by
  have hnumber := driveNumber_driveName hi hname
  have hstorage := isStorageDrive_driveName hname
  constructor
  · intro allocated count offset buf
    rw [read, io, hfolder, if_neg Bool.false_ne_true, if_neg fileExist_ne_zero, hstorage]
    cases hread : d.storageRead allocated count offset buf with
    | error e => exact storageDriveRead_error buf hnumber hd hread
    | ok x => exact storageDriveRead_ok buf hnumber hd hread
  · intro allocated count offset buf
    rw [write, io, hfolder, if_neg Bool.false_ne_true, if_neg fileExist_ne_zero, hstorage]
    cases hwrite : d.storageWrite allocated count offset buf with
    | error e => exact storageDriveWrite_error buf hnumber hd hwrite
    | ok x => exact storageDriveWrite_ok buf hnumber hd hwrite
  · rw [getFileSize, hfolder, if_neg Bool.false_ne_true, if_neg fileExist_ne_zero, hstorage]
    simp [hnumber, hd]

/-- Exactly the listed paths are handled as they should be. -/
theorem handlesPath_iff (hdrives : s.drives.length ≤ 26) (hfolder : path.isFolder = false) :
    s.HandlesPath path ↔ ∃ p ∈ s.mount [], p.toString = path.toString := by
  rw [listed_iff hdrives]
  constructor
  · intro hhandles
    by_contra hunknown
    exact not_rejects hfolder (hhandles.unknown hunknown)
  · intro hlisted
    refine ⟨fun hunknown => absurd hlisted hunknown, fun i d hd hname => ?_⟩
    have hi : i < s.drives.length := (List.getElem?_eq_some_iff.mp hd).1
    exact serves_of_driveName hfolder (hi.trans_le hdrives) hd hname

theorem handlesPath_iff_sda :
    smallDevFs.HandlesPath sdaPath ↔ ∃ p ∈ smallDevFs.mount [], p.toString = sdaPath.toString :=
  handlesPath_iff (by decide) rfl

/-- The path of no file. -/
def nullPath : Path := ⟨false, [['n', 'u', 'l', 'l']]⟩

/-- The size of a file that does not exist is asked for with success. -/
theorem not_handlesPath : ¬∀ (s : DevFS) (path : Path), s.drives.length ≤ 26 →
    path.isFolder = false → s.HandlesPath path := by
  intro h
  have hhandles := h smallDevFs nullPath (by decide) rfl
  have hunknown : ¬∃ i < smallDevFs.drives.length, nullPath.toString = driveName i := by
    rintro ⟨i, -, hname⟩
    have hlength : nullPath.toString.length = 4 := by
      rw [hname]
      rfl
    exact absurd hlength (by decide)
  exact not_rejects rfl (hhandles.unknown hunknown)

end DevFS

end AviKernel
