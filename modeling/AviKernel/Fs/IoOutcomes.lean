import AviKernel.Fs.Bindings
import AviKernel.Fs.DevFsWrite

/-!
# What a call that reads or writes may leave

A call that returns zero leaves its descriptor alone, unless the file system
wrote and then did not tell the size.  A read stays in the file, and a write to a
drive in the drive, unless the end of the range wraps around.
-/

namespace AviKernel

variable {φ ω : Type} {ops : φ → FS ω}

namespace VFS

variable {s t : VFS φ ω} {c : IoCall} {fs : φ} {trimmed : Path}

/-- Where a call acts. -/
def startOf (s : VFS φ ω) (c : IoCall) : ℕ := s.actualOffset c.desct (c.place.getD 0)

/-- The call passes the checks. -/
abbrev Admits (s : VFS φ ω) (c : IoCall) : Prop :=
  s.Passes c.desct c.nbyte (c.place.getD 0) c.operation

/-! ### Calls that fail -/

/-- On the way from `s` to `t` the descriptor stayed as it was, and no write to a
file system was reported as done. -/
def LeavesAlone (ops : φ → FS ω) (s t : VFS φ ω) (c : IoCall) : Prop :=
  t.fileDescriptors c.desct = s.fileDescriptors c.desct ∧
    ∃ new, t.calls = new ++ s.calls ∧ ∀ call ∈ new, ∀ n offset, call.method = .write n offset →
      ((ops call.fs).write call.path n offset c.buf s.world).1 = 0

/-- After a write the file system tells the size. -/
def TellsSize (ops : φ → FS ω) (s : VFS φ ω) (c : IoCall) : Prop :=
  c.operation = .write → s.Admits c → ∀ fs trimmed,
    target s.mountedFss (s.fileDescriptors c.desct).filePath = some (fs, trimmed) →
    ((ops fs).write trimmed c.nbyte (s.startOf c) c.buf s.world).1 ≠ 0 →
      ((ops fs).getFileSize trimmed
        ((ops fs).write trimmed c.nbyte (s.startOf c) c.buf s.world).2.2).1 ≠ 0

theorem exec_of_not_admits (h : ¬s.Admits c) : ∃ e new,
    c.exec ops s = some (0, c.buf, { s with errno := e, accesses := new ++ s.accesses }) ∧
      (c.nbyte = 0 ∧ e = s.errno ∨ c.nbyte ≠ 0 ∧ e ≠ .none) := by
  rw [IoCall.exec_eq]
  exact io_of_not_passes h

theorem exec_of_admits (h : s.Admits c) : c.exec ops s =
    (target s.mountedFss (s.fileDescriptors c.desct).filePath).map fun (fs, trimmed) =>
      ((s.access c.desct).access c.desct).ioTransfer ops c.desct fs trimmed c.buf c.nbyte
        (s.startOf c) c.operation := by
  rw [IoCall.exec_eq, io_eq_of_passes h]
  rfl

theorem leavesAlone_of_not_admits (hadmits : ¬s.Admits c) {code : ℕ} {buf : Buffer}
    (h : c.exec ops s = some (code, buf, t)) : LeavesAlone ops s t c := by
  obtain ⟨e, new, hexec, -⟩ := @exec_of_not_admits φ ω ops s c hadmits
  rw [hexec] at h
  cases h
  exact ⟨rfl, [], rfl, by simp⟩

theorem leavesAlone_read (hpos : 0 < c.nbyte) (hop : c.operation = .read) {buf : Buffer}
    (h : c.exec ops s = some (0, buf, t)) : LeavesAlone ops s t c := by
  by_cases hadmits : s.Admits c
  · rw [exec_of_admits hadmits] at h
    obtain ⟨⟨fs, trimmed⟩, -, htransfer⟩ := Option.map_eq_some_iff.mp h
    dsimp only at htransfer
    rw [hop] at htransfer
    obtain ⟨k, u, hcall, ⟨-, -, rfl⟩ | ⟨-, -, hcode, -⟩ | ⟨-, hwrite, -⟩⟩ :=
      ioTransfer_cases htransfer.symm
    · cases hcall
      exact ⟨rfl, [⟨fs, .read c.nbyte (s.startOf c), trimmed⟩], rfl, by simp⟩
    · omega
    · cases hwrite
  · exact leavesAlone_of_not_admits hadmits h

/-- A write that returns zero, by what the file system did. -/
theorem leavesAlone_write (hpos : 0 < c.nbyte) (hop : c.operation = .write) (h : s.Admits c)
    (htarget : target s.mountedFss (s.fileDescriptors c.desct).filePath = some (fs, trimmed)) :
    (∀ buf t, c.exec ops s = some (0, buf, t) → LeavesAlone ops s t c) ↔
      (((ops fs).write trimmed c.nbyte (s.startOf c) c.buf s.world).1 ≠ 0 →
        ((ops fs).getFileSize trimmed
          ((ops fs).write trimmed c.nbyte (s.startOf c) c.buf s.world).2.2).1 ≠ 0) := by
  rw [exec_of_admits h, htarget, Option.map_some]
  dsimp only
  rw [hop]
  rcases hresult : ((s.access c.desct).access c.desct).ioTransfer ops c.desct fs trimmed c.buf
    c.nbyte (s.startOf c) .write with ⟨code, buf, t⟩
  obtain ⟨k, u, hcall, hcases⟩ := ioTransfer_cases hresult.symm
  have hk : k = ((ops fs).write trimmed c.nbyte (s.startOf c) c.buf s.world).1 :=
    (congrArg Prod.fst hcall).symm
  have hu : u.world = ((ops fs).write trimmed c.nbyte (s.startOf c) c.buf s.world).2.2 := by
    cases hcall
    rfl
  have hcalls : u.calls = ⟨fs, .write c.nbyte (s.startOf c), trimmed⟩ :: s.calls :=
    (callReadWrite_frame hcall).2.2.2
  rw [← hk, ← hu]
  rcases hcases with ⟨hzero, -, rfl⟩ | ⟨-, hread, -⟩ | ⟨hne, -, k', hsize, hcode⟩
  · refine iff_of_true ?_ fun hne => absurd hzero hne
    rintro buf' t' heq
    cases heq
    refine ⟨?_, [⟨fs, .write c.nbyte (s.startOf c), trimmed⟩], hcalls, ?_⟩
    · exact congrFun (callReadWrite_frame hcall).1 c.desct
    · rintro call hcall' n offset hmethod
      obtain rfl := List.mem_singleton.mp hcall'
      cases hmethod
      exact hk.symm.trans hzero
  · cases hread
  · have hk' : k' = ((ops fs).getFileSize trimmed u.world).1 := (congrArg Prod.fst hsize).symm
    rw [← hk']
    constructor
    · intro hleaves _ hzero
      rw [if_pos hzero] at hcode
      subst hcode
      obtain ⟨-, new, hnew, hnone⟩ := hleaves buf t rfl
      have hall : t.calls = [⟨fs, .getFileSize, trimmed⟩,
          ⟨fs, .write c.nbyte (s.startOf c), trimmed⟩] ++ s.calls := by
        cases hsize
        exact congrArg (List.cons _) hcalls
      rw [hall] at hnew
      have hdone := hnone ⟨fs, .write c.nbyte (s.startOf c), trimmed⟩
        (by rw [← List.append_cancel_right hnew]; simp) c.nbyte (s.startOf c) rfl
      exact hne (hk.trans hdone)
    · intro htells buf' t' heq
      rw [if_neg (htells hne)] at hcode
      cases heq
      omega

theorem leavesAlone_iff (hpos : 0 < c.nbyte) :
    (∀ buf t, c.exec ops s = some (0, buf, t) → LeavesAlone ops s t c) ↔ TellsSize ops s c := by
  cases hop : c.operation with
  | read =>
      refine iff_of_true (fun buf t => leavesAlone_read hpos hop) fun hwrite => ?_
      rw [hop] at hwrite
      cases hwrite
  | write =>
      by_cases hadmits : s.Admits c
      · cases htarget : target s.mountedFss (s.fileDescriptors c.desct).filePath with
        | none =>
            refine iff_of_true (fun buf t h => ?_) fun _ _ fs trimmed hsome => ?_
            · rw [exec_of_admits hadmits, htarget] at h
              cases h
            · rw [htarget] at hsome
              cases hsome
        | some found =>
            obtain ⟨fs, trimmed⟩ := found
            rw [leavesAlone_write hpos hop hadmits htarget]
            constructor
            · intro htells _ _ fs' trimmed' hsome
              rw [htarget] at hsome
              cases hsome
              exact htells
            · intro htells
              exact htells hop hadmits fs trimmed htarget
      · exact iff_of_true (fun buf t => leavesAlone_of_not_admits hadmits)
          fun _ hyes => absurd hyes hadmits

/-- A file system that writes, but does not tell sizes. -/
def mutedFs : FS Unit := { Session.steadyFs with getFileSize := fun _ _ => (0, none, ()) }

/-- Descriptor three is open on a file of eight bytes. -/
def openedVfs : VFS ℕ Unit :=
  rootedVfs.modify 3 fun _ => ⟨⟨false, [['a']]⟩, 0, true, true, false, 8, true⟩

theorem leavesAlone_iff_opened :
    (∀ buf t, IoCall.exec (fun _ => mutedFs) openedVfs ⟨3, fun _ => 7, 1, none, .write⟩ =
        some (0, buf, t) →
      LeavesAlone (fun _ => mutedFs) openedVfs t ⟨3, fun _ => 7, 1, none, .write⟩) ↔
    TellsSize (fun _ => mutedFs) openedVfs ⟨3, fun _ => 7, 1, none, .write⟩ :=
  leavesAlone_iff (by decide)

/-- The byte is written and the position advanced, and the call fails. -/
theorem not_leavesAlone : ¬∀ (s : VFS ℕ Unit) c, 0 < c.nbyte → ∀ buf t,
    IoCall.exec (fun _ => mutedFs) s c = some (0, buf, t) →
      LeavesAlone (fun _ => mutedFs) s t c := by
  intro h
  have hleaves := h openedVfs ⟨3, fun _ => 7, 1, none, .write⟩ (by decide) _ _ rfl
  have hposition := congrArg FileDesc.position hleaves.1
  exact absurd hposition (by decide)

/-! ### Ranges that wrap around -/

/-- The end of the range does not wrap, or wraps to a place past the size. -/
def EndFits (start count size : ℕ) : Prop :=
  start + count < 2 ^ 64 ∨ size < start + count - 2 ^ 64

instance (start count size : ℕ) : Decidable (EndFits start count size) :=
  inferInstanceAs (Decidable (_ ∨ _))

/-- The check that the code makes is right exactly then. -/
theorem endFits_iff {start count size : ℕ} (hstart : start < 2 ^ 64) (hcount : count < 2 ^ 64)
    (hsize : size < 2 ^ 64) :
    (add64 start count ≤ size → start + count ≤ size) ↔ EndFits start count size := by
  unfold add64 EndFits
  omega

/-- A read that is handed over stays in the file; one that is not returns zero
with errno set, and leaves the buffer and the table alone. -/
def ReadsWithin (ops : φ → FS ω) (s : VFS φ ω) (desct : ℤ) (buf : Buffer) (nbyte offset : ℕ) :
    Prop :=
  ∃ code buf' t, s.io ops desct buf nbyte offset .read = some (code, buf', t) ∧
    ((∃ call, t.calls = call :: s.calls) ∧
        s.actualOffset desct offset + nbyte ≤ (s.fileDescriptors desct).size ∨
      t.calls = s.calls ∧ code = 0 ∧ t.errno ≠ .none ∧ buf' = buf ∧
        t.fileDescriptors = s.fileDescriptors)

/-- Some bytes are asked for, or errno is set before; and if the descriptor is
open for reading, the end of the range fits, and a range within the file is one
of a path that resolves. -/
def RangeFits (s : VFS φ ω) (desct : ℤ) (nbyte offset : ℕ) : Prop :=
  (nbyte = 0 → s.errno ≠ .none) ∧
    (nbyte ≠ 0 → desct < VFS_OPEN_FILES_MAX → (s.fileDescriptors desct).inUse = true →
      (s.fileDescriptors desct).read = true →
        EndFits (s.actualOffset desct offset) nbyte (s.fileDescriptors desct).size ∧
          (s.actualOffset desct offset + nbyte ≤ (s.fileDescriptors desct).size →
            target s.mountedFss (s.fileDescriptors desct).filePath ≠ none))

section Ranges

variable {desct : ℤ} {nbyte offset : ℕ} (buf : Buffer)

/-- A read that passes the checks and resolves is handed over. -/
theorem read_handed (h : s.Passes desct nbyte offset .read)
    (htarget : target s.mountedFss (s.fileDescriptors desct).filePath = some (fs, trimmed)) :
    ∃ code buf' t, s.io ops desct buf nbyte offset .read = some (code, buf', t) ∧
      t.calls = ⟨fs, .read nbyte (s.actualOffset desct offset), trimmed⟩ :: s.calls := by
  rcases hresult : ((s.access desct).access desct).ioTransfer ops desct fs trimmed buf nbyte
    (s.actualOffset desct offset) .read with ⟨code, buf', t⟩
  refine ⟨code, buf', t, by rw [io_of_passes h htarget, hresult], ?_⟩
  obtain ⟨k, u, hcall, ⟨-, -, rfl⟩ | ⟨-, -, -, rfl⟩ | ⟨-, hwrite, -⟩⟩ :=
    ioTransfer_cases hresult.symm
  · cases hcall
    rfl
  · cases hcall
    rfl
  · cases hwrite

theorem readsWithin_of_passes (h : s.Passes desct nbyte offset .read) :
    ReadsWithin ops s desct buf nbyte offset ↔
      s.actualOffset desct offset + nbyte ≤ (s.fileDescriptors desct).size ∧
        target s.mountedFss (s.fileDescriptors desct).filePath ≠ none := by
  cases htarget : target s.mountedFss (s.fileDescriptors desct).filePath with
  | none =>
      refine iff_of_false ?_ fun hand => hand.2 rfl
      rintro ⟨code, buf', t, hsome, -⟩
      rw [io_eq_of_passes h, htarget] at hsome
      cases hsome
  | some found =>
      obtain ⟨fs, trimmed⟩ := found
      obtain ⟨code, buf', t, hio, hcalls⟩ := @read_handed φ ω ops s fs trimmed desct nbyte offset
        buf h htarget
      rw [and_iff_left (Option.some_ne_none _)]
      constructor
      · rintro ⟨code', buf'', t', hsome, hcases⟩
        rw [hio] at hsome
        cases hsome
        rcases hcases with ⟨-, hle⟩ | ⟨hsame, -⟩
        · exact hle
        · rw [hcalls] at hsame
          exact absurd hsame (List.cons_ne_self _ _)
      · intro hle
        exact ⟨code, buf', t, hio, Or.inl ⟨⟨_, hcalls⟩, hle⟩⟩

theorem readsWithin_of_not_passes (h : ¬s.Passes desct nbyte offset .read) :
    ReadsWithin ops s desct buf nbyte offset ↔ (nbyte = 0 → s.errno ≠ .none) := by
  obtain ⟨e, new, hio, herrno⟩ := @io_of_not_passes φ ω s ops desct nbyte offset buf .read h
  constructor
  · rintro ⟨code, buf', t, hsome, hcases⟩ hzero
    rw [hio] at hsome
    cases hsome
    rcases herrno with ⟨-, rfl⟩ | ⟨hne, -⟩
    · rcases hcases with ⟨⟨call, hcall⟩, -⟩ | ⟨-, -, hset, -⟩
      · exact absurd hcall.symm (List.cons_ne_self _ _)
      · exact hset
    · exact absurd hzero hne
  · intro hset
    refine ⟨0, buf, _, hio, Or.inr ⟨rfl, rfl, ?_, rfl, rfl⟩⟩
    rcases herrno with ⟨hzero, rfl⟩ | ⟨-, hne⟩
    · exact hset hzero
    · exact hne

theorem readsWithin_iff (hnbyte : nbyte < 2 ^ 64) (hoffset : offset < 2 ^ 64)
    (hposition : (s.fileDescriptors desct).position < 2 ^ 64)
    (hsize : (s.fileDescriptors desct).size < 2 ^ 64) :
    ReadsWithin ops s desct buf nbyte offset ↔ RangeFits s desct nbyte offset := by
  have hstart : s.actualOffset desct offset < 2 ^ 64 := by
    unfold actualOffset
    split
    · exact hposition
    · exact hoffset
  have hfits := endFits_iff hstart hnbyte hsize
  by_cases hpasses : s.Passes desct nbyte offset .read
  · rw [readsWithin_of_passes buf hpasses]
    constructor
    · rintro ⟨hle, htarget⟩
      exact ⟨fun hzero => absurd hzero hpasses.nonempty,
        fun _ _ _ _ => ⟨hfits.mp fun _ => hle, fun _ => htarget⟩⟩
    · intro hrange
      obtain ⟨hend, htarget⟩ :=
        hrange.2 hpasses.nonempty hpasses.lt hpasses.inUse (hpasses.readable rfl)
      have hle := hfits.mpr hend (hpasses.fits rfl)
      exact ⟨hle, htarget hle⟩
  · rw [readsWithin_of_not_passes buf hpasses]
    refine ⟨fun hset => ⟨hset, fun hne hlt huse hread => ?_⟩, fun hrange => hrange.1⟩
    have hover : ¬add64 (s.actualOffset desct offset) nbyte ≤ (s.fileDescriptors desct).size :=
      fun hle => hpasses ⟨hne, hlt, huse, fun _ => hread, (nomatch ·), fun _ => hle⟩
    refine ⟨hfits.mp fun hle => absurd hle hover, fun hle => absurd ?_ hover⟩
    rwa [add64_of_lt (lt_of_le_of_lt hle hsize)]

end Ranges

end VFS

namespace Drive

variable {d : Drive} {count offset : ℕ} {allocated : ℕ → Option Buffer} {buf : Buffer}

theorem storageWrite_refused (h : d.sectors * sectorSize < add64 offset count) :
    d.storageWrite allocated count offset buf = .error .ENOSPC := by
  have hsize : d.getSizeBy = d.sectors * sectorSize := mul64_of_lt d.fits
  rw [storageWrite, hsize, if_pos h]

/-- Past that check, memory is all that can be missing. -/
theorem storageWrite_accepted (h : add64 offset count ≤ d.sectors * sectorSize) :
    d.storageWrite allocated count offset buf ≠ .error .ENOSPC := by
  have hsize : d.getSizeBy = d.sectors * sectorSize := mul64_of_lt d.fits
  rw [storageWrite, hsize, if_neg (not_lt.mpr h)]
  dsimp only
  split
  · unfold writeOneOrTwo
    split <;> simp
  · unfold writeMore
    split <;> simp

end Drive

namespace DevFS

variable {s : DevFS} {path : Path} {i count offset : ℕ} {d : Drive}
  {allocated : ℕ → Option Buffer}

/-- A write to a drive is refused for want of space, and nothing else happens, or
it is within the drive. -/
def AcceptsWithin (s : DevFS) (allocated : ℕ → Option Buffer) (path : Path) (count offset : ℕ)
    (buf : Buffer) (d : Drive) : Prop :=
  ∀ code buf' t, s.storageDriveWrite allocated path count offset buf = some (code, buf', t) →
    code = 0 ∧ t = { s with errno := .ENOSPC } ∧ buf' = buf ∨
      offset + count ≤ d.sectors * sectorSize

section Accepts

variable (buf : Buffer) (hpath : driveNumber path = some (i : ℤ)) (hd : s.drives[i]? = some d)
include hpath hd

theorem acceptsWithin_of_le (h : add64 offset count ≤ d.sectors * sectorSize) :
    AcceptsWithin s allocated path count offset buf d ↔ offset + count ≤ d.sectors * sectorSize := by
  refine ⟨fun hall => ?_, fun hin _ _ _ _ => Or.inr hin⟩
  have haccepted := @Drive.storageWrite_accepted d count offset allocated buf h
  cases hresult : d.storageWrite allocated count offset buf with
  | error e =>
      refine (hall _ _ _ (storageDriveWrite_error buf hpath hd hresult)).resolve_left ?_
      rintro ⟨-, herrno, -⟩
      have he : e = .ENOSPC := congrArg DevFS.errno herrno
      rw [he] at hresult
      exact haccepted hresult
  | ok x =>
      refine (hall _ _ _ (storageDriveWrite_ok buf hpath hd hresult)).resolve_left ?_
      rintro ⟨hzero, -⟩
      cases hzero

theorem acceptsWithin_iff (hcount : count < 2 ^ 64) (hoffset : offset < 2 ^ 64) :
    AcceptsWithin s allocated path count offset buf d ↔
      VFS.EndFits offset count (d.sectors * sectorSize) := by
  rw [← VFS.endFits_iff hoffset hcount d.fits]
  by_cases hle : add64 offset count ≤ d.sectors * sectorSize
  · rw [acceptsWithin_of_le buf hpath hd hle, forall_prop_of_true hle]
  · refine iff_of_true (fun code buf' t hsome => ?_) fun hyes => absurd hyes hle
    have hrefused := @Drive.storageWrite_refused d count offset allocated buf (not_le.mp hle)
    rw [storageDriveWrite_error buf hpath hd hrefused] at hsome
    cases hsome
    exact Or.inl ⟨rfl, rfl, rfl⟩

end Accepts

end DevFS

/-- The checks of both layers are right exactly where the end of the range does
not wrap to a place within the file or the drive. -/
theorem within_iff {s : VFS φ ω} {desct : ℤ} {nbyte offset : ℕ} (buf : Buffer)
    (hnbyte : nbyte < 2 ^ 64) (hoffset : offset < 2 ^ 64)
    (hposition : (s.fileDescriptors desct).position < 2 ^ 64)
    (hsize : (s.fileDescriptors desct).size < 2 ^ 64) {v : DevFS} {path : Path} {i : ℕ} {d : Drive}
    {count place : ℕ} (allocated : ℕ → Option Buffer) (data : Buffer)
    (hpath : DevFS.driveNumber path = some (i : ℤ)) (hd : v.drives[i]? = some d)
    (hcount : count < 2 ^ 64) (hplace : place < 2 ^ 64) :
    (VFS.ReadsWithin ops s desct buf nbyte offset ↔ VFS.RangeFits s desct nbyte offset) ∧
      (DevFS.AcceptsWithin v allocated path count place data d ↔
        VFS.EndFits place count (d.sectors * sectorSize)) :=
  ⟨VFS.readsWithin_iff buf hnbyte hoffset hposition hsize,
    DevFS.acceptsWithin_iff data hpath hd hcount hplace⟩

theorem within_iff_opened :
    (VFS.ReadsWithin (fun _ => Session.steadyFs) VFS.openedVfs 3 (fun _ => 0) 2 (2 ^ 64 - 1) ↔
        VFS.RangeFits VFS.openedVfs 3 2 (2 ^ 64 - 1)) ∧
      (DevFS.AcceptsWithin smallDevFs (fun _ => none) DevFS.sdaPath 1024 (2 ^ 64 - 512)
          (fun _ => 7) smallDrive ↔
        VFS.EndFits (2 ^ 64 - 512) 1024 (smallDrive.sectors * sectorSize)) :=
  within_iff (fun _ => 0) (by decide) (by decide) (by decide) (by decide) (fun _ => none)
    (fun _ => 7) driveNumber_sda rfl (by decide) (by decide)

/-- The last byte of the address space and the first one, and the sectors around
it. -/
theorem not_within :
    (¬∀ (s : VFS ℕ Unit) desct buf nbyte offset, nbyte ≠ 0 → nbyte < 2 ^ 64 → offset < 2 ^ 64 →
      (s.fileDescriptors desct).position < 2 ^ 64 → (s.fileDescriptors desct).size < 2 ^ 64 →
        VFS.ReadsWithin (fun _ => Session.steadyFs) s desct buf nbyte offset) ∧
    ¬∀ (v : DevFS) allocated path count place buf (i : ℕ) d,
      DevFS.driveNumber path = some (i : ℤ) → v.drives[i]? = some d → count < 2 ^ 64 →
        place < 2 ^ 64 → DevFS.AcceptsWithin v allocated path count place buf d := by
  constructor
  · intro h
    have hreads := h VFS.openedVfs 3 (fun _ => 0) 2 (2 ^ 64 - 1) (by decide) (by decide) (by decide)
      (by decide) (by decide)
    have hpasses : VFS.openedVfs.Passes 3 2 (2 ^ 64 - 1) .read :=
      ⟨by decide, by decide, by decide, fun _ => by decide, (nomatch ·), fun _ => by decide⟩
    rw [VFS.readsWithin_of_passes _ hpasses] at hreads
    exact absurd hreads.1 (by decide)
  · intro h
    have haccepts := h smallDevFs (fun _ => none) DevFS.sdaPath 1024 (2 ^ 64 - 512) (fun _ => 7) 0
      smallDrive driveNumber_sda rfl (by decide) (by decide)
    rw [DevFS.acceptsWithin_of_le _ driveNumber_sda rfl (by decide)] at haccepts
    exact absurd haccepts (by decide)

end AviKernel
