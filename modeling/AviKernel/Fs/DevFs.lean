import AviKernel.Fs.Vfs
import AviKernel.Library.Splice

/-!
# The device file system

The files are the storage drives, and the root directory lists their paths.  A
drive is its sectors; the image goes on after the last sector with the bytes that
an access past the drive reads, and such an access writes nothing.  The requests
record, latest first, the calls that read and write sectors.
-/

namespace AviKernel

def sectorSize : ℕ := 512

structure Drive where
  sectors : ℕ
  image : ℕ → UInt8
  requests : List (ℕ × ℕ)
  fits : sectors * sectorSize < 2 ^ 64

/-- The bytes from `from'` on in `src`, `n` in number, are copied to `pos`. -/
def memcpy (dest : Buffer) (pos : ℕ) (src : Buffer) (from' n : ℕ) : Buffer :=
  splice dest pos (n % 2 ^ 32) fun i => src (from' + i)

namespace Drive

variable (d : Drive)

def getSizeBy : ℕ := mul64 d.sectors sectorSize

/-- Read into the buffer at `pos`.  The count is one byte. -/
def readSectors (lba count : ℕ) (buffer : Buffer) (pos : ℕ) : Buffer × Drive :=
  let count := count % 2 ^ 8
  if count = 0 then (buffer, { d with requests := (lba, 0) :: d.requests })
  else
    (splice buffer pos (count * sectorSize) fun i => d.image (lba * sectorSize + i),
      { d with requests := (lba, count) :: d.requests })

/-- Write from the buffer at `pos`.  The count is one byte. -/
def writeSectors (lba count : ℕ) (buffer : Buffer) (pos : ℕ) : Drive :=
  let count := count % 2 ^ 8
  if count = 0 then { d with requests := (lba, 0) :: d.requests }
  else
    { d with
      image := fun a =>
        if a < d.sectors * sectorSize then
          splice d.image (lba * sectorSize) (count * sectorSize) (fun i => buffer (pos + i)) a
        else d.image a
      requests := (lba, count) :: d.requests }

/-- The write of one or two sectors.  The memory that `new` yields comes from
`allocated`. -/
def writeOneOrTwo (allocated : ℕ → Option Buffer) (lba sectorsCount count offset : ℕ)
    (buf : Buffer) : Except Errno (Buffer × Drive) :=
  match allocated 0 with
  | none => .error .ENOMEM
  | some sectors =>
      let (sectors, d) := d.readSectors lba sectorsCount sectors 0
      let offsetInSector := offset % sectorSize
      let sectors := memcpy sectors offsetInSector buf 0 count
      .ok (buf, d.writeSectors lba sectorsCount sectors 0)

/-- The full groups of 255 sectors, `k` in number.  Each is written from `pos`;
the pointer that advances is `bufPtr`. -/
def writeGroups (buf : Buffer) (pos : ℕ) : ℕ → Drive → ℕ → ℕ → Drive × ℕ × ℕ
  | 0, d, lba, bufPtr => (d, lba, bufPtr)
  | k + 1, d, lba, bufPtr =>
      writeGroups buf pos k (d.writeSectors lba 255 buf pos) (lba + 255)
        (bufPtr + 255 * sectorSize)

/-- The sectors between the first and the last one.  The rest after the groups
is read. -/
def writeBetween (lba sectorsBetweenCount pos : ℕ) (buf : Buffer) : Buffer × Drive :=
  if sectorsBetweenCount ≤ 255 then (buf, d.writeSectors lba sectorsBetweenCount buf pos)
  else
    let (d, lba, bufPtr) := writeGroups buf pos (sectorsBetweenCount / 255) d lba pos
    d.readSectors lba (sectorsBetweenCount % 255) buf bufPtr

/-- The write of more sectors: the first and the last are updated, and those
between are written. -/
def writeMore (allocated : ℕ → Option Buffer) (lba endingSector sectorsCount count offset : ℕ)
    (buf : Buffer) : Except Errno (Buffer × Drive) :=
  match allocated 0, allocated 1 with
  | some firstSector, some lastSector =>
      let (firstSector, d) := d.readSectors lba 1 firstSector 0
      let (lastSector, d) := d.readSectors endingSector 1 lastSector 0
      let offsetInFirstSector := offset % sectorSize
      let countInFirstSector := sectorSize - offsetInFirstSector
      let firstSector := memcpy firstSector offsetInFirstSector buf 0 countInFirstSector
      let sectorsBetweenCount := sub64 sectorsCount 2
      let offsetInBuf := add64 (mul64 sectorsBetweenCount sectorSize) countInFirstSector
      let lastSector := memcpy lastSector 0 buf offsetInBuf (sub64 count offsetInBuf)
      let d := d.writeSectors lba 1 firstSector 0
      let d := d.writeSectors endingSector 1 lastSector 0
      .ok (d.writeBetween (lba + 1) sectorsBetweenCount countInFirstSector buf)
  | _, _ => .error .ENOMEM

/-- The write to a drive, with the buffer after it. -/
def storageWrite (allocated : ℕ → Option Buffer) (count offset : ℕ) (buf : Buffer) :
    Except Errno (Buffer × Drive) :=
  if add64 offset count > d.getSizeBy then .error .ENOSPC
  else
    let lba := offset / sectorSize
    let endingSector := add64 offset count / sectorSize
    let sectorsCount := add64 (sub64 endingSector lba) 1
    if sectorsCount = 1 ∨ sectorsCount = 2 then
      d.writeOneOrTwo allocated lba sectorsCount count offset buf
    else d.writeMore allocated lba endingSector sectorsCount count offset buf

end Drive

/-- The temporary buffer of a read.  The intervals that were accessed in it are
recorded, latest first. -/
structure TempBuffer where
  size : ℕ
  bytes : Buffer
  touched : List (ℕ × ℕ)

namespace Drive

variable (d : Drive)

def readInto (lba count : ℕ) (tempBuf : TempBuffer) (tmp : ℕ) : TempBuffer × Drive :=
  let (bytes, d) := d.readSectors lba count tempBuf.bytes tmp
  ({ tempBuf with
      bytes := bytes
      touched := (tmp, count % 2 ^ 8 * sectorSize) :: tempBuf.touched }, d)

/-- The full jumps of 255 sectors, `k` in number. -/
def readGroups : ℕ → Drive → ℕ → TempBuffer → ℕ → Drive × ℕ × TempBuffer × ℕ
  | 0, d, lba, tempBuf, tmp => (d, lba, tempBuf, tmp)
  | k + 1, d, lba, tempBuf, tmp =>
      let (tempBuf, d) := d.readInto lba 255 tempBuf tmp
      readGroups k d (lba + 255) tempBuf (tmp + 255 * sectorSize)

/-- The sectors from `lba` on, at once or in groups. -/
def readAll (lba sectorsCount : ℕ) (tempBuf : TempBuffer) : TempBuffer × Drive :=
  if sectorsCount ≤ 255 then d.readInto lba sectorsCount tempBuf 0
  else
    let (d, lba, tempBuf, tmp) := readGroups (sectorsCount / 255) d lba tempBuf 0
    d.readInto lba (sectorsCount % 255) tempBuf tmp

/-- The read from a drive, with the buffer after it.  The size given to `new` is
a word of 32 bits. -/
def storageRead (allocated : ℕ → Option Buffer) (count offset : ℕ) (buf : Buffer) :
    Except Errno (Buffer × Drive × TempBuffer) :=
  let lba := offset / sectorSize
  let endingSector := add64 offset count / sectorSize
  let sectorsCount := add64 (sub64 endingSector lba) 1
  match allocated 0 with
  | none => .error .ENOMEM
  | some bytes =>
      let (tempBuf, d) := d.readAll lba sectorsCount ⟨mul64 sectorsCount sectorSize % 2 ^ 32, bytes, []⟩
      .ok (memcpy buf 0 tempBuf.bytes (offset % sectorSize) count, d,
        { tempBuf with touched := (offset % sectorSize, count % 2 ^ 32) :: tempBuf.touched })

end Drive

/-- The drives of the storage driver, and errno. -/
structure DevFS where
  drives : List Drive
  errno : Errno

namespace DevFS

/-- The number of the drive whose letter is the fourth character of the path.
Characters are signed bytes. -/
def driveNumber (path : Path) : Option ℤ :=
  path.toString[3]?.map fun driveChar =>
    let n := (driveChar.toNat + (256 - 'a'.toNat)) % 256
    if n < 128 then n else n - 256

def storageDriveWrite (s : DevFS) (allocated : ℕ → Option Buffer) (path : Path)
    (count offset : ℕ) (buf : Buffer) : Option (ℕ × Buffer × DevFS) := do
  let number ← driveNumber path
  let d ← Vector.get s.drives number
  match d.storageWrite allocated count offset buf with
  | .error e => some (0, buf, { s with errno := e })
  | .ok (buf, d) => some (1, buf, { s with drives := s.drives.set number.toNat d })

def storageDriveRead (s : DevFS) (allocated : ℕ → Option Buffer) (path : Path)
    (count offset : ℕ) (buf : Buffer) : Option (ℕ × Buffer × DevFS) := do
  let number ← driveNumber path
  let d ← Vector.get s.drives number
  match d.storageRead allocated count offset buf with
  | .error e => some (0, buf, { s with errno := e })
  | .ok (buf, d, _) => some (1, buf, { s with drives := s.drives.set number.toNat d })

/-! ### The paths of the drives -/

/-- The loop that fills the root directory, when at most `n` rounds are left
before the letter passes `z`, and `i` is the number of the next drive. -/
def mountFrom (numberOfDrives : ℕ) : ℕ → ℕ → List Path → List Path
  | 0, _, rootDir => rootDir
  | n + 1, i, rootDir =>
      if i < numberOfDrives then
        mountFrom numberOfDrives n (i + 1)
          (rootDir ++ [Path.ofString (['/', 's', 'd'] ++ [Char.ofNat ('z'.toNat - n)])])
      else rootDir

/-- The root directory after a mount. -/
def mount (s : DevFS) (rootDir : List Path) : List Path :=
  mountFrom s.drives.length 26 0 rootDir

/-- Paths are equal if their strings are. -/
def fileExist (rootDir : List Path) (path : Path) : ℤ :=
  if path.isFolder then (if path.isRoot then FS_FILE_EXIST else FS_FILE_N_EXISTS)
  else if rootDir.any fun p => p.toString = path.toString then FS_FILE_EXIST
  else FS_FILE_N_EXISTS

/-- A substring.  A place past the end panics. -/
def substr (s : List Char) (pos len : ℕ) : Option (List Char) :=
  if pos = s.length then some []
  else if pos > s.length then none
  else some ((s.drop pos).take len)

/-- Is it a storage drive? -/
def isStorageDrive (path : Path) : Option Bool :=
  (substr path.toString 1 2).map fun name => name = ['s', 'd'] && path.toString.length = 4

variable (s : DevFS) (rootDir : List Path) (allocated : ℕ → Option Buffer)

def io (operation : VfsOperation) (path : Path) (count offset : ℕ) (buf : Buffer) :
    Option (ℕ × Buffer × DevFS) :=
  if path.isFolder then some (0, buf, { s with errno := .EISDIR })
  else if fileExist rootDir path = 0 then some (0, buf, { s with errno := .ENOENT })
  else do
    if ← isStorageDrive path then
      match operation with
      | .read => s.storageDriveRead allocated path count offset buf
      | .write => s.storageDriveWrite allocated path count offset buf
    else some (1, buf, s)

def read (path : Path) (count offset : ℕ) (buf : Buffer) : Option (ℕ × Buffer × DevFS) :=
  s.io rootDir allocated .read path count offset buf

def write (path : Path) (count offset : ℕ) (buf : Buffer) : Option (ℕ × Buffer × DevFS) :=
  s.io rootDir allocated .write path count offset buf

/-- The value, the size if it is set, and the state. -/
def getFileSize (path : Path) : Option (ℕ × Option ℕ × DevFS) :=
  if path.isFolder then some (0, none, { s with errno := .EISDIR })
  else if fileExist rootDir path = 0 then some (0, none, { s with errno := .ENOENT })
  else do
    if ← isStorageDrive path then
      let number ← driveNumber path
      let d ← Vector.get s.drives number
      some (1, some d.getSizeBy, s)
    else some (1, none, s)

end DevFS

end AviKernel
