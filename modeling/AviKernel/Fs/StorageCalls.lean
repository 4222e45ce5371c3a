import AviKernel.Fs.DevFsSectors
import AviKernel.Library.Programs

/-!
# The device file system as a program

The reads and writes of a drive as programs that call `read_sectors` and `write_sectors` of the
storage driver, whatever driver that is.  Over a drive that is its sectors they are the reads and
writes of the device file system.
-/

namespace AviKernel

/-- The calls of the storage driver. -/
inductive SectorCall
  | read (lba count : ℕ) (buffer : Buffer) (pos : ℕ)
  | write (lba count : ℕ) (buffer : Buffer) (pos : ℕ)

/-- The first sector and the number of sectors.  The count is one byte. -/
def SectorCall.sectors : SectorCall → ℕ × ℕ
  | .read lba count _ _ => (lba, count % 2 ^ 8)
  | .write lba count _ _ => (lba, count % 2 ^ 8)

abbrev Sectors (α : Type) := Program SectorCall Buffer α

namespace Sectors

def writeOneOrTwo (allocated : ℕ → Option Buffer) (lba sectorsCount count offset : ℕ)
    (buf : Buffer) : Sectors (Except Errno Buffer) :=
  match allocated 0 with
  | none => .ret (.error .ENOMEM)
  | some sectors =>
      .call (.read lba sectorsCount sectors 0) fun sectors =>
        .call (.write lba sectorsCount (memcpy sectors (offset % sectorSize) buf 0 count) 0)
          fun _ => .ret (.ok buf)

def writeGroups (buf : Buffer) (pos : ℕ) : ℕ → ℕ → ℕ → Sectors (ℕ × ℕ)
  | 0, lba, bufPtr => .ret (lba, bufPtr)
  | k + 1, lba, bufPtr =>
      .call (.write lba 255 buf pos) fun _ =>
        writeGroups buf pos k (lba + 255) (bufPtr + 255 * sectorSize)

def writeBetween (lba sectorsBetweenCount pos : ℕ) (buf : Buffer) : Sectors Buffer :=
  if sectorsBetweenCount ≤ 255 then
    .call (.write lba sectorsBetweenCount buf pos) fun _ => .ret buf
  else
    (writeGroups buf pos (sectorsBetweenCount / 255) lba pos).bind fun r =>
      .call (.read r.1 (sectorsBetweenCount % 255) buf r.2) .ret

def writeMore (allocated : ℕ → Option Buffer) (lba endingSector sectorsCount count offset : ℕ)
    (buf : Buffer) : Sectors (Except Errno Buffer) :=
  match allocated 0, allocated 1 with
  | some firstSector, some lastSector =>
      .call (.read lba 1 firstSector 0) fun firstSector =>
        .call (.read endingSector 1 lastSector 0) fun lastSector =>
          let offsetInFirstSector := offset % sectorSize
          let countInFirstSector := sectorSize - offsetInFirstSector
          let firstSector := memcpy firstSector offsetInFirstSector buf 0 countInFirstSector
          let sectorsBetweenCount := sub64 sectorsCount 2
          let offsetInBuf := add64 (mul64 sectorsBetweenCount sectorSize) countInFirstSector
          let lastSector := memcpy lastSector 0 buf offsetInBuf (sub64 count offsetInBuf)
          .call (.write lba 1 firstSector 0) fun _ =>
            .call (.write endingSector 1 lastSector 0) fun _ =>
              (writeBetween (lba + 1) sectorsBetweenCount countInFirstSector buf).bind fun buf =>
                .ret (.ok buf)
  | _, _ => .ret (.error .ENOMEM)

/-- The write to a drive of so many bytes. -/
def storageWrite (sizeBy : ℕ) (allocated : ℕ → Option Buffer) (count offset : ℕ) (buf : Buffer) :
    Sectors (Except Errno Buffer) :=
  if add64 offset count > sizeBy then .ret (.error .ENOSPC)
  else
    let lba := offset / sectorSize
    let endingSector := add64 offset count / sectorSize
    let sectorsCount := add64 (sub64 endingSector lba) 1
    if sectorsCount = 1 ∨ sectorsCount = 2 then
      writeOneOrTwo allocated lba sectorsCount count offset buf
    else writeMore allocated lba endingSector sectorsCount count offset buf

def readGroups : ℕ → ℕ → Buffer → ℕ → Sectors (ℕ × Buffer × ℕ)
  | 0, lba, tempBuf, tmp => .ret (lba, tempBuf, tmp)
  | k + 1, lba, tempBuf, tmp =>
      .call (.read lba 255 tempBuf tmp) fun tempBuf =>
        readGroups k (lba + 255) tempBuf (tmp + 255 * sectorSize)

def readAll (lba sectorsCount : ℕ) (tempBuf : Buffer) : Sectors Buffer :=
  if sectorsCount ≤ 255 then .call (.read lba sectorsCount tempBuf 0) .ret
  else
    (readGroups (sectorsCount / 255) lba tempBuf 0).bind fun r =>
      .call (.read r.1 (sectorsCount % 255) r.2.1 r.2.2) .ret

def storageRead (allocated : ℕ → Option Buffer) (count offset : ℕ) (buf : Buffer) :
    Sectors (Except Errno Buffer) :=
  let lba := offset / sectorSize
  let endingSector := add64 offset count / sectorSize
  let sectorsCount := add64 (sub64 endingSector lba) 1
  match allocated 0 with
  | none => .ret (.error .ENOMEM)
  | some tempBuf =>
      (readAll lba sectorsCount tempBuf).bind fun tempBuf =>
        .ret (.ok (memcpy buf 0 tempBuf (offset % sectorSize) count))

end Sectors

/-! ## Over a drive that is its sectors -/

namespace Drive

def answer (d : Drive) : SectorCall → Option (Buffer × Drive)
  | .read lba count buffer pos => some (d.readSectors lba count buffer pos)
  | .write lba count buffer pos => some (buffer, d.writeSectors lba count buffer pos)

variable {d d' : Drive} {lba m k pos bufPtr tmp count offset : ℕ} {buf buffer : Buffer}
  {t : TempBuffer} {allocated : ℕ → Option Buffer} {q : SectorCall}

theorem answer_requests (d : Drive) (q : SectorCall) (buffer : Buffer) (d' : Drive)
    (h : d.answer q = some (buffer, d')) : d'.requests = q.sectors :: d.requests := by
  cases q with
  | read lba count b pos =>
      have hd : d' = (d.readSectors lba count b pos).2 :=
        (congrArg Prod.snd (Option.some.inj h)).symm
      rw [hd, readSectors, SectorCall.sectors]
      split_ifs with hzero
      · rw [hzero]
      · rfl
  | write lba count b pos =>
      have hd : d' = d.writeSectors lba count b pos := (congrArg Prod.snd (Option.some.inj h)).symm
      rw [hd, writeSectors, SectorCall.sectors]
      split_ifs with hzero
      · rw [hzero]
      · rfl

theorem exec_writeGroups : (Sectors.writeGroups buf pos k lba bufPtr).exec answer d =
    some ((writeGroups buf pos k d lba bufPtr).2, (writeGroups buf pos k d lba bufPtr).1) := by
  induction k generalizing d lba bufPtr with
  | zero => rfl
  | succ k ih => exact ih

theorem exec_writeBetween : (Sectors.writeBetween lba m pos buf).exec answer d =
    some (d.writeBetween lba m pos buf) := by
  rw [Sectors.writeBetween, writeBetween]
  split_ifs
  · rfl
  · rw [Program.exec_bind, exec_writeGroups, Option.bind_some]
    rfl

/-- What a program has answered, and the drive after it. -/
def outcome (d : Drive) : Except Errno (Buffer × Drive) → Except Errno Buffer × Drive
  | .error e => (.error e, d)
  | .ok r => (.ok r.1, r.2)

theorem exec_read {α : Type} {next : Buffer → Sectors α} :
    (Program.call (.read lba m buf pos) next).exec answer d =
      (next (d.readSectors lba m buf pos).1).exec answer (d.readSectors lba m buf pos).2 := by
  rw [Program.exec_call, answer, Option.bind_some]

theorem exec_write {α : Type} {next : Buffer → Sectors α} :
    (Program.call (.write lba m buf pos) next).exec answer d =
      (next buf).exec answer (d.writeSectors lba m buf pos) := by
  rw [Program.exec_call, answer, Option.bind_some]

theorem exec_writeOneOrTwo :
    (Sectors.writeOneOrTwo allocated lba m count offset buf).exec answer d =
      some (d.outcome (d.writeOneOrTwo allocated lba m count offset buf)) := by
  rw [Sectors.writeOneOrTwo, writeOneOrTwo]
  cases allocated 0 with
  | none => rfl
  | some sectors =>
      simp only [Program.exec_call, answer, Option.bind_some, Program.exec_ret, outcome]

theorem exec_writeMore {ending : ℕ} :
    (Sectors.writeMore allocated lba ending m count offset buf).exec answer d =
      some (d.outcome (d.writeMore allocated lba ending m count offset buf)) := by
  rw [Sectors.writeMore, writeMore]
  -- the sums of words must not be computed
  generalize sub64 m 2 = between
  cases allocated 0 with
  | none => rfl
  | some first =>
      cases allocated 1 with
      | none => rfl
      | some last =>
          dsimp only
          generalize add64 (mul64 between sectorSize) (sectorSize - offset % sectorSize) = inBuf
          rw [exec_read, exec_read, exec_write, exec_write, Program.exec_bind, exec_writeBetween,
            Option.bind_some, Program.exec_ret, outcome]

theorem exec_storageWrite : (Sectors.storageWrite d.getSizeBy allocated count offset buf).exec
    answer d = some (d.outcome (d.storageWrite allocated count offset buf)) := by
  unfold Sectors.storageWrite storageWrite
  by_cases hspace : add64 offset count > d.getSizeBy
  · rw [if_pos hspace, if_pos hspace, Program.exec_ret, outcome]
  · rw [if_neg hspace, if_neg hspace]
    dsimp only
    generalize add64 offset count / sectorSize = ending
    generalize add64 (sub64 ending (offset / sectorSize)) 1 = n
    by_cases hfew : n = 1 ∨ n = 2
    · rw [if_pos hfew, if_pos hfew]
      exact exec_writeOneOrTwo
    · rw [if_neg hfew, if_neg hfew]
      exact exec_writeMore

theorem exec_readGroups : (Sectors.readGroups k lba t.bytes tmp).exec answer d =
    some (((readGroups k d lba t tmp).2.1, (readGroups k d lba t tmp).2.2.1.bytes,
      (readGroups k d lba t tmp).2.2.2), (readGroups k d lba t tmp).1) := by
  induction k generalizing d lba t tmp with
  | zero => rfl
  | succ k ih => exact ih (t := (d.readInto lba 255 t tmp).1)

theorem exec_readAll : (Sectors.readAll lba m t.bytes).exec answer d =
    some ((d.readAll lba m t).1.bytes, (d.readAll lba m t).2) := by
  rw [Sectors.readAll, readAll]
  split_ifs
  · rfl
  · rw [Program.exec_bind, exec_readGroups, Option.bind_some]
    rfl

theorem exec_storageRead : (Sectors.storageRead allocated count offset buf).exec answer d =
    some (d.outcome ((d.storageRead allocated count offset buf).map fun r => (r.1, r.2.1))) := by
  unfold Sectors.storageRead storageRead
  dsimp only
  generalize add64 (sub64 (add64 offset count / sectorSize) (offset / sectorSize)) 1 = n
  generalize mul64 n sectorSize % 2 ^ 32 = size
  cases allocated 0 with
  | none => rfl
  | some bytes =>
      have hall : (Sectors.readAll (offset / sectorSize) n bytes).exec answer d =
          some ((d.readAll (offset / sectorSize) n ⟨size, bytes, []⟩).1.bytes,
            (d.readAll (offset / sectorSize) n ⟨size, bytes, []⟩).2) :=
        exec_readAll (t := ⟨size, bytes, []⟩)
      simp only [Program.exec_bind, hall, Option.bind_some, Program.exec_ret, Except.map, outcome]

end Drive

end AviKernel
