import AviKernel.Fs.Vfs
import AviKernel.Library.Splice

/-!
# Files as byte arrays

The purpose of the calls that read and write: a descriptor is a position in a
byte array, sequential calls act there and advance it, positional calls act at
their offset and leave it alone.
-/

namespace AviKernel

structure File where
  size : ℕ
  byte : ℕ → UInt8

namespace File

def slice (f : File) (offset : ℕ) : Buffer := fun i => f.byte (offset + i)

def splice (f : File) (offset nbyte : ℕ) (buf : Buffer) : File :=
  { f with byte := AviKernel.splice f.byte offset nbyte buf }

end File

/-- A call that reads or writes.  The calls at the position have no place. -/
structure IoCall where
  desct : ℤ
  buf : Buffer
  nbyte : ℕ
  place : Option ℕ
  operation : VfsOperation

/-- An open file: where it is, the position, and what is permitted. -/
structure OpenFile (φ : Type) where
  fs : φ
  path : Path
  position : ℕ
  read : Bool
  write : Bool

namespace OpenFile

variable {φ : Type}

def permits (o : OpenFile φ) : VfsOperation → Bool
  | .read => o.read
  | .write => o.write

/-- Where a call acts. -/
def start (o : OpenFile φ) (c : IoCall) : ℕ := c.place.getD o.position

/-- The open file after a call. -/
def after (o : OpenFile φ) (c : IoCall) : OpenFile φ :=
  match c.place with
  | none => { o with position := o.position + c.nbyte }
  | some _ => o

variable {o : OpenFile φ} {c : IoCall}

@[simp] theorem after_fs : (o.after c).fs = o.fs := by
  unfold after
  split <;> rfl

@[simp] theorem after_path : (o.after c).path = o.path := by
  unfold after
  split <;> rfl

@[simp] theorem after_read : (o.after c).read = o.read := by
  unfold after
  split <;> rfl

@[simp] theorem after_write : (o.after c).write = o.write := by
  unfold after
  split <;> rfl

end OpenFile

/-- The reference model. -/
structure Ref (φ : Type) where
  files : φ → Path → Option File
  opened : ℤ → Option (OpenFile φ)

namespace Ref

variable {φ : Type} (r : Ref φ)

def setOpen (desct : ℤ) (o : OpenFile φ) : Ref φ :=
  { r with opened := Function.update r.opened desct (some o) }

def setFile [DecidableEq φ] (fs : φ) (path : Path) (f : Option File) : Ref φ :=
  { r with files := fun fs' path' => if fs' = fs ∧ path' = path then f else r.files fs' path' }

section Updates

variable {r} {fs fs' : φ} {path path' : Path} {f : Option File} {desct desct' : ℤ}
  {o : OpenFile φ}

@[simp] theorem setOpen_files : (r.setOpen desct o).files = r.files := rfl

@[simp] theorem setOpen_self : (r.setOpen desct o).opened desct = some o :=
  Function.update_self ..

theorem setOpen_of_ne (h : desct' ≠ desct) : (r.setOpen desct o).opened desct' = r.opened desct' :=
  Function.update_of_ne h ..

variable [DecidableEq φ]

@[simp] theorem setFile_opened : (r.setFile fs path f).opened = r.opened := rfl

@[simp] theorem setFile_self : (r.setFile fs path f).files fs path = f := if_pos ⟨rfl, rfl⟩

theorem setFile_of_ne (h : ¬(fs' = fs ∧ path' = path)) :
    (r.setFile fs path f).files fs' path' = r.files fs' path' := if_neg h

end Updates

variable [DecidableEq φ]

/-- A call within the permissions and the file: the number of bytes, the buffer,
and the state after it. -/
def io (c : IoCall) : Option (ℕ × Buffer × Ref φ) := do
  let o ← r.opened c.desct
  let f ← r.files o.fs o.path
  if c.nbyte = 0 then some (0, c.buf, r)
  else if o.permits c.operation && o.start c + c.nbyte ≤ f.size then
    match c.operation with
    | .read =>
        some (c.nbyte, splice c.buf 0 c.nbyte (f.slice (o.start c)),
          r.setOpen c.desct (o.after c))
    | .write =>
        some (c.nbyte, c.buf,
          (r.setFile o.fs o.path (some (f.splice (o.start c) c.nbyte c.buf))).setOpen c.desct
            (o.after c))
  else none

variable {r} {c : IoCall} {r' : Ref φ} {code : ℕ} {buf : Buffer}

theorem io_cases (h : r.io c = some (code, buf, r')) :
    ∃ o f, r.opened c.desct = some o ∧ r.files o.fs o.path = some f ∧
      (c.nbyte = 0 ∧ code = 0 ∧ buf = c.buf ∧ r' = r ∨
        c.nbyte ≠ 0 ∧ code = c.nbyte ∧ o.permits c.operation = true ∧
          o.start c + c.nbyte ≤ f.size ∧
          (c.operation = .read ∧ buf = splice c.buf 0 c.nbyte (f.slice (o.start c)) ∧
              r' = r.setOpen c.desct (o.after c) ∨
            c.operation = .write ∧ buf = c.buf ∧
              r' = (r.setFile o.fs o.path (some (f.splice (o.start c) c.nbyte c.buf))).setOpen
                c.desct (o.after c))) := by
  unfold io at h
  obtain ⟨o, ho, h⟩ := Option.bind_eq_some_iff.mp h
  obtain ⟨f, hf, h⟩ := Option.bind_eq_some_iff.mp h
  refine ⟨o, f, ho, hf, ?_⟩
  split at h
  · rename_i hzero
    cases h
    exact Or.inl ⟨hzero, rfl, rfl, rfl⟩
  · rename_i hne
    split at h
    · rename_i hok
      rw [Bool.and_eq_true, decide_eq_true_eq] at hok
      right
      split at h
      · rename_i hop
        cases h
        exact ⟨hne, rfl, hok.1, hok.2, Or.inl ⟨hop, rfl, rfl⟩⟩
      · rename_i hop
        cases h
        exact ⟨hne, rfl, hok.1, hok.2, Or.inr ⟨hop, rfl, rfl⟩⟩
    · cases h

/-- What a positional call wrote, the next positional call at that place reads. -/
theorem pread_pwrite {desct : ℤ} {b b' : Buffer} {n off : ℕ} {r'' : Ref φ} {code' : ℕ}
    {buf' : Buffer} (hwrite : r.io ⟨desct, b, n, some off, .write⟩ = some (code, buf, r'))
    (hread : r'.io ⟨desct, b', n, some off, .read⟩ = some (code', buf', r'')) {i : ℕ}
    (hi : i < n) : buf' i = b i := by
  obtain ⟨o, f, ho, hf, ⟨hzero, -⟩ | ⟨-, -, -, -, ⟨hop, -⟩ | ⟨-, -, rfl⟩⟩⟩ := io_cases hwrite
  · exact absurd hi (by simp [show n = 0 from hzero])
  · cases hop
  · obtain ⟨o', f', ho', hf', ⟨hzero, -⟩ | ⟨-, -, -, -, ⟨-, rfl, -⟩ | ⟨hop, -⟩⟩⟩ := io_cases hread
    · exact absurd hi (by simp [show n = 0 from hzero])
    · have hoo : o' = o := by
        rw [setOpen_self] at ho'
        exact (Option.some.inj ho').symm
      subst hoo
      have hff : f' = f.splice off n b := by
        rw [setOpen_files, setFile_self] at hf'
        exact (Option.some.inj hf').symm
      subst hff
      have hbuf : splice b' 0 n (fun k => splice f.byte off n b (off + k)) i = b i := by
        rw [splice_of_mem (Nat.zero_le i) (by omega), Nat.sub_zero]
        exact splice_add hi
      exact hbuf
    · cases hop

end Ref

/-- The file systems behave as a byte array per path, as far as `files` shows. -/
structure ByteArrays {φ ω : Type} (ops : φ → FS ω) (files : ω → φ → Path → Option File) :
    Prop where
  bounded : ∀ w fs path f, files w fs path = some f → f.size < 2 ^ 64
  exist : ∀ w fs path, files ((ops fs).fileExist path w).2 = files w
  create : ∀ w fs path fs' path' f, files w fs' path' = some f →
    files ((ops fs).createFile path w).2 fs' path' = some f
  sized : ∀ w fs path f, files w fs path = some f →
    ((ops fs).getFileSize path w).1 ≠ 0 ∧ ((ops fs).getFileSize path w).2.1 = some f.size
  unsized : ∀ w fs path, files w fs path = none → ((ops fs).getFileSize path w).1 = 0
  size_keeps : ∀ w fs path, files ((ops fs).getFileSize path w).2.2 = files w
  read : ∀ w fs path f n offset buf, files w fs path = some f → 0 < n → offset + n ≤ f.size →
    ((ops fs).read path n offset buf w).1 ≠ 0 ∧
      ((ops fs).read path n offset buf w).2.1 = splice buf 0 n (f.slice offset) ∧
      files ((ops fs).read path n offset buf w).2.2 = files w
  write : ∀ w fs path f n offset buf, files w fs path = some f → 0 < n → offset + n ≤ f.size →
    ((ops fs).write path n offset buf w).1 ≠ 0 ∧
      ((ops fs).write path n offset buf w).2.1 = buf ∧
      files ((ops fs).write path n offset buf w).2.2 fs path = some (f.splice offset n buf) ∧
      ∀ fs' path', ¬(fs' = fs ∧ path' = path) →
        files ((ops fs).write path n offset buf w).2.2 fs' path' = files w fs' path'

end AviKernel
