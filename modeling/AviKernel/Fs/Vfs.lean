import AviKernel.Fs.Path
import AviKernel.Library.Words

/-!
# The file-systems layer

The table of mounted file systems, the table of descriptors, and the calls on
them.  A file system is a pointer of type `φ`; its methods act on the state `ω`
of all file systems together, and may do so in any way.  The fields `accesses`
and `calls` record, latest first, the indices at which the descriptor table was
accessed and the calls made to file systems.  A call that panics, or jumps
through an uninitialised pointer, has no result.
-/

namespace AviKernel

/-- The memory behind a `char*`. -/
abbrev Buffer := ℕ → UInt8

/-- The methods of a file system.  `getFileSize` may or may not write its output
parameter. -/
structure FS (ω : Type) where
  mount : Path → ω → ℤ × ω
  read : Path → ℕ → ℕ → Buffer → ω → ℕ × Buffer × ω
  write : Path → ℕ → ℕ → Buffer → ω → ℕ × Buffer × ω
  getFileSize : Path → ω → ℕ × Option ℕ × ω
  createFile : Path → ω → ℕ × ω
  fileExist : Path → ω → ℤ × ω

def FS_FILE_EXIST : ℤ := 1

def FS_FILE_N_EXISTS : ℤ := 2

inductive FsMethod
  | mount
  | read (count offset : ℕ)
  | write (count offset : ℕ)
  | getFileSize
  | createFile
  | fileExist
deriving DecidableEq, Repr

structure FsCall (φ : Type) where
  fs : φ
  method : FsMethod
  path : Path
deriving DecidableEq, Repr

structure MountedFS (φ : Type) where
  mountPath : Path
  fs : φ
deriving DecidableEq, Repr

@[ext]
structure FileDesc where
  filePath : Path
  position : ℕ
  read : Bool
  write : Bool
  append : Bool
  size : ℕ
  inUse : Bool
deriving DecidableEq, Repr

inductive Errno
  | none
  | ENOENT
  | EEXIST
  | EMFILE
  | EBADF
  | EOVERFLOW
  | EISDIR
  | ENOMEM
  | ENOSPC
deriving DecidableEq, Repr

inductive VfsOperation
  | read
  | write
deriving DecidableEq, Repr

def VFS_OPEN_FILES_MAX : ℕ := 200

def O_RDONLY : ℕ := 0b1

def O_WRONLY : ℕ := 0b10

def O_RDWR : ℕ := 0b100

def O_APPEND : ℕ := 0b1000

def O_CREAT : ℕ := 0b100000

def O_EXCL : ℕ := 0b1000000

/-- Is a flag set? -/
def hasFlag (oflag flag : ℕ) : Bool := oflag &&& flag ≠ 0

/-- The descriptor table is a function of any index: an index out of range
reaches the memory around the table. -/
structure VFS (φ ω : Type) where
  mountedFss : List (MountedFS φ)
  fileDescriptors : ℤ → FileDesc
  errno : Errno
  world : ω
  accesses : List ℤ
  calls : List (FsCall φ)

/-! ### Resolution of mounts -/

section Mounts

variable {φ : Type}

/-- The comparison of parts, when `n` rounds of the loop are left.  The index of
the compared part is that of the mounted file system. -/
def comparesEqual (mountPath path : Path) (i : ℕ) : ℕ → Option Bool
  | 0 => some true
  | n + 1 => do
      let a ← mountPath.getPart i
      let b ← path.getPart i
      if a ≠ b then some false else comparesEqual mountPath path i n

def foundAt (path : Path) (i : ℕ) (m : MountedFS φ) : Option Bool :=
  if m.mountPath.getDepth ≤ path.getDepth then
    comparesEqual m.mountPath path i m.mountPath.getDepth.toNat
  else some false

/-- The loop over the mounted file systems that are left, the next of index `i`. -/
def getMountedFsFrom (path : Path) : ℕ → List (MountedFS φ) → ℕ → Option (MountedFS φ) →
    Option (ℕ × Option (MountedFS φ))
  | _, [], max, best => some (max, best)
  | i, m :: rest, max, best => do
      let found ← foundAt path i m
      if found && max < (m.mountPath.getDepth + 1).toNat then
        getMountedFsFrom path (i + 1) rest (m.mountPath.getDepth + 1).toNat (some m)
      else getMountedFsFrom path (i + 1) rest max best

/-- The mounted file system that holds the path, if there is one. -/
def getMountedFs (mounts : List (MountedFS φ)) (path : Path) : Option (Option (MountedFS φ)) := do
  let (max, best) ← getMountedFsFrom path 0 mounts 0 none
  return if max ≠ 0 then best else none

def trimmedPath (path : Path) (m : MountedFS φ) : Option Path :=
  path.removeParts m.mountPath.getDepth.toNat

end Mounts

namespace VFS

variable {φ ω : Type} (s : VFS φ ω)

def setErrno (e : Errno) : VFS φ ω := { s with errno := e }

def access (i : ℤ) : VFS φ ω := { s with accesses := i :: s.accesses }

@[simp] theorem access_fileDescriptors (i : ℤ) :
    (s.access i).fileDescriptors = s.fileDescriptors := rfl

@[simp] theorem access_mountedFss (i : ℤ) : (s.access i).mountedFss = s.mountedFss := rfl

/-- Write to the fields of one descriptor. -/
def modify (i : ℤ) (f : FileDesc → FileDesc) : VFS φ ω :=
  { s with
    fileDescriptors := Function.update s.fileDescriptors i (f (s.fileDescriptors i))
    accesses := i :: s.accesses }

/-! ### Calls to file systems -/

variable (ops : φ → FS ω)

def callFileExist (fs : φ) (path : Path) : Bool × VFS φ ω :=
  let (code, world) := (ops fs).fileExist path s.world
  (code ≠ 0, { s with world := world, calls := ⟨fs, .fileExist, path⟩ :: s.calls })

def callCreateFile (fs : φ) (path : Path) : ℕ × VFS φ ω :=
  let (code, world) := (ops fs).createFile path s.world
  (code, { s with world := world, calls := ⟨fs, .createFile, path⟩ :: s.calls })

/-- The output parameter is the size in the descriptor. -/
def callGetFileSize (fs : φ) (path : Path) (desct : ℤ) : ℕ × VFS φ ω :=
  let (code, size, world) := (ops fs).getFileSize path s.world
  (code, { s.modify desct (fun d => { d with size := size.getD d.size }) with
    world := world, calls := ⟨fs, .getFileSize, path⟩ :: s.calls })

def callReadWrite (fs : φ) (path : Path) (nbyte offset : ℕ) (buf : Buffer) :
    VfsOperation → ℕ × Buffer × VFS φ ω
  | .write =>
      let (code, buf, world) := (ops fs).write path nbyte offset buf s.world
      (code, buf,
        { s with world := world, calls := ⟨fs, .write nbyte offset, path⟩ :: s.calls })
  | .read =>
      let (code, buf, world) := (ops fs).read path nbyte offset buf s.world
      (code, buf,
        { s with world := world, calls := ⟨fs, .read nbyte offset, path⟩ :: s.calls })

/-! ### Descriptors -/

/-- The first unused descriptor from `i` on, when `n` are left. -/
def findUnused (s : VFS φ ω) (i : ℕ) : ℕ → ℤ × VFS φ ω
  | 0 => (-1, s)
  | n + 1 =>
      if (s.fileDescriptors i).inUse then (s.access i).findUnused (i + 1) n
      else (i, s.access i)

def allocateDescriptor : ℤ × VFS φ ω :=
  let (desct, s) := s.findUnused 0 VFS_OPEN_FILES_MAX
  (desct, s.modify desct fun d => { d with inUse := true })

def isLegalDescriptor (desc : ℤ) : Bool × VFS φ ω :=
  if desc ≥ VFS_OPEN_FILES_MAX then (false, s)
  else ((s.fileDescriptors desc).inUse, s.access desc)

def freeDescriptor (desct : ℤ) : Option (VFS φ ω) :=
  if !(s.fileDescriptors desct).inUse then none
  else some ((s.access desct).modify desct fun d => { d with inUse := false })

/-! ### The calls -/

def mountFs (where' device : Path) (what : φ) : Option (ℤ × VFS φ ω) :=
  if device.isFolder && !device.isRoot then none
  else if !where'.isFolder then none
  else
    let (code, world) := (ops what).mount device s.world
    let s := { s with world := world, calls := ⟨what, .mount, device⟩ :: s.calls }
    if code = 0 then some (0, s)
    else some (1, { s with mountedFss := s.mountedFss ++ [⟨where', what⟩] })

def exitErrCleanup (desct : ℤ) (e : Errno) : Option (ℤ × VFS φ ω) :=
  ((s.setErrno e).freeDescriptor desct).map fun s => (-1, s)

/-- The fields that open writes before it asks for the size. -/
def fillDescriptor (path : Path) (oflag : ℕ) (d : FileDesc) : FileDesc :=
  { d with
    filePath := path
    position := 0
    read := hasFlag oflag O_RDONLY || hasFlag oflag O_RDWR
    write := hasFlag oflag O_WRONLY || hasFlag oflag O_RDWR
    append := hasFlag oflag O_APPEND }

/-- Open an existing or just created file.  A failure leaves at once, with the
value of `false`. -/
def openExisting (desct : ℤ) (fs : φ) (path trimmed : Path) (oflag : ℕ) : ℤ × VFS φ ω :=
  let (code, s) :=
    (s.modify desct (fillDescriptor path oflag)).callGetFileSize ops fs trimmed desct
  if code = 0 then (0, s) else (desct, s)

/-- Open a file of a mounted file system.  The constant `O_CREAT` in the
condition of the creation is not zero. -/
def openTrimmed (desct : ℤ) (fs : φ) (path trimmed : Path) (pathStr : List Char) (oflag : ℕ) :
    Option (ℤ × VFS φ ω) :=
  let (exists', s) := s.callFileExist ops fs trimmed
  if hasFlag oflag O_CREAT && hasFlag oflag O_EXCL && exists' then s.exitErrCleanup desct .EEXIST
  else if !hasFlag oflag O_CREAT && !exists' || pathStr.isEmpty then
    s.exitErrCleanup desct .ENOENT
  else if O_CREAT ≠ 0 && !exists' then
    let (code, s) := s.callCreateFile ops fs trimmed
    if code = 0 then some (0, s) else some (s.openExisting ops desct fs path trimmed oflag)
  else some (s.openExisting ops desct fs path trimmed oflag)

def openFile (pathStr : List Char) (oflag : ℕ) : Option (ℤ × VFS φ ω) :=
  let path := Path.ofString pathStr
  if path.isFolder then some (-1, s.setErrno .EISDIR)
  else
    let (desct, s) := s.allocateDescriptor
    if desct = -1 then some (-1, s.setErrno .EMFILE)
    else do
      match ← getMountedFs s.mountedFss path with
      | none => s.exitErrCleanup desct .ENOENT
      | some m =>
          let trimmed ← trimmedPath path m
          s.openTrimmed ops desct m.fs path trimmed pathStr oflag

def close (fildes : ℤ) : Option (ℤ × VFS φ ω) :=
  let (legal, s) := s.isLegalDescriptor fildes
  if !legal then some (-1, s.setErrno .EBADF)
  else (s.freeDescriptor fildes).map fun s => (0, s)

/-- The offset at which a call acts: zero stands for the position. -/
def actualOffset (desct : ℤ) (offset : ℕ) : ℕ :=
  if offset = 0 then (s.fileDescriptors desct).position else offset

/-- The end of a call that passed all checks. -/
def ioTransfer (desct : ℤ) (fs : φ) (trimmed : Path) (buf : Buffer) (nbyte actualOffset : ℕ)
    (operation : VfsOperation) : ℕ × Buffer × VFS φ ω :=
  let (code, buf, s) := s.callReadWrite ops fs trimmed nbyte actualOffset buf operation
  if code = 0 then (0, buf, s)
  else
    let s := s.modify desct fun d => { d with position := add64 actualOffset nbyte }
    if operation = .write then
      let (code, s) := s.callGetFileSize ops fs trimmed desct
      if code = 0 then (0, buf, s) else (nbyte, buf, s)
    else (nbyte, buf, s)

def io (desct : ℤ) (buf : Buffer) (nbyte offset : ℕ) (operation : VfsOperation) :
    Option (ℕ × Buffer × VFS φ ω) :=
  if nbyte = 0 then some (0, buf, s)
  else
    let (legal, s) := s.isLegalDescriptor desct
    if !legal then some (0, buf, s.setErrno .EBADF)
    else
      let s := s.access desct
      let d := s.fileDescriptors desct
      let actualOffset := s.actualOffset desct offset
      if operation = .read && !d.read || operation = .write && !d.write then
        some (0, buf, s.setErrno .EBADF)
      else if operation = .read && add64 actualOffset nbyte > d.size then
        some (0, buf, s.setErrno .EOVERFLOW)
      else do
        match ← getMountedFs s.mountedFss d.filePath with
        | none => none
        | some m =>
            let trimmed ← trimmedPath d.filePath m
            some (s.ioTransfer ops desct m.fs trimmed buf nbyte actualOffset operation)

def read (desct : ℤ) (buf : Buffer) (nbyte : ℕ) : Option (ℕ × Buffer × VFS φ ω) :=
  s.io ops desct buf nbyte 0 .read

def pread (desct : ℤ) (buf : Buffer) (nbyte offset : ℕ) : Option (ℕ × Buffer × VFS φ ω) :=
  s.io ops desct buf nbyte offset .read

def write (desct : ℤ) (buf : Buffer) (nbyte : ℕ) : Option (ℕ × Buffer × VFS φ ω) :=
  s.io ops desct buf nbyte 0 .write

def pwrite (desct : ℤ) (buf : Buffer) (nbyte offset : ℕ) : Option (ℕ × Buffer × VFS φ ω) :=
  s.io ops desct buf nbyte offset .write

/-- The state that the constructor leaves: the memory of the table, with the
descriptors out of use but for the reserved ones. -/
def new (memory : ℤ → FileDesc) (errno : Errno) (world : ω) : VFS φ ω where
  mountedFss := []
  fileDescriptors := fun i =>
    if 0 ≤ i ∧ i < VFS_OPEN_FILES_MAX then { memory i with inUse := i ≤ 2 } else memory i
  errno := errno
  world := world
  accesses := [2, 1, 0]
  calls := []

end VFS

end AviKernel
