import AviKernel.Fs.ByteFiles
import AviKernel.Fs.Descriptors

/-!
# The calls that read and write refine byte arrays

The layer and the reference model take the same calls.  They stay together as
long as a positional call has a place other than zero and leaves the position
where it was by chance.
-/

namespace AviKernel

variable {φ ω : Type} {ops : φ → FS ω} {files : ω → φ → Path → Option File}
  {mounts : List (MountedFS φ)} {path trimmed : Path} {fs : φ}

/-- The file system and the path in it that the layer finds for a path. -/
def target (mounts : List (MountedFS φ)) (path : Path) : Option (φ × Path) :=
  (getMountedFs mounts path).bind fun found => found.bind fun m =>
    (trimmedPath path m).map fun trimmed => (m.fs, trimmed)

theorem target_eq_some_iff : target mounts path = some (fs, trimmed) ↔
    ∃ m, getMountedFs mounts path = some (some m) ∧ m.fs = fs ∧
      trimmedPath path m = some trimmed := by
  constructor
  · intro h
    obtain ⟨found, hget, h⟩ := Option.bind_eq_some_iff.mp h
    obtain ⟨m, rfl, h⟩ := Option.bind_eq_some_iff.mp h
    obtain ⟨trimmed', htrim, h⟩ := Option.map_eq_some_iff.mp h
    cases h
    exact ⟨m, hget, rfl, htrim⟩
  · rintro ⟨m, hget, rfl, htrim⟩
    simp [target, hget, htrim]

def IoCall.exec (ops : φ → FS ω) (s : VFS φ ω) (c : IoCall) : Option (ℕ × Buffer × VFS φ ω) :=
  match c.operation, c.place with
  | .read, none => s.read ops c.desct c.buf c.nbyte
  | .read, some offset => s.pread ops c.desct c.buf c.nbyte offset
  | .write, none => s.write ops c.desct c.buf c.nbyte
  | .write, some offset => s.pwrite ops c.desct c.buf c.nbyte offset

theorem IoCall.exec_eq (s : VFS φ ω) (c : IoCall) :
    c.exec ops s = s.io ops c.desct c.buf c.nbyte (c.place.getD 0) c.operation := by
  obtain ⟨desct, buf, nbyte, place, operation⟩ := c
  cases operation <;> cases place <;> rfl

namespace VFS

variable {s t u v : VFS φ ω} {desct i j r : ℤ} {pathStr : List Char} {oflag nbyte offset : ℕ}
  {buf : Buffer} {operation : VfsOperation}

/-! ### Calls that pass the checks -/

theorem io_of_zero : s.io ops desct buf 0 offset operation = some (0, buf, s) := rfl

theorem io_eq_of_passes (h : s.Passes desct nbyte offset operation) :
    s.io ops desct buf nbyte offset operation =
      (target s.mountedFss (s.fileDescriptors desct).filePath).map fun (fs, trimmed) =>
        ((s.access desct).access desct).ioTransfer ops desct fs trimmed buf nbyte
          (s.actualOffset desct offset) operation := by
  have hoff : ((s.access desct).access desct).actualOffset desct offset =
      s.actualOffset desct offset := rfl
  have hperm : ¬(operation = .read && !(s.fileDescriptors desct).read ||
      operation = .write && !(s.fileDescriptors desct).write) = true := by
    cases operation with
    | read => simp [h.readable rfl]
    | write => simp [h.writable rfl]
  have hover : ¬(operation = .read &&
      add64 (s.actualOffset desct offset) nbyte > (s.fileDescriptors desct).size) = true := by
    cases operation with
    | read => simpa using h.fits rfl
    | write => simp
  rw [io, if_neg h.nonempty, isLegalDescriptor_of_lt (not_le.mpr h.lt)]
  simp only [access_fileDescriptors, access_mountedFss, hoff, h.inUse, Bool.not_true]
  rw [if_neg Bool.false_ne_true, if_neg hperm, if_neg hover, target]
  cases getMountedFs s.mountedFss (s.fileDescriptors desct).filePath with
  | none => rfl
  | some found =>
      cases found with
      | none => rfl
      | some m =>
          cases htrim : trimmedPath (s.fileDescriptors desct).filePath m <;> simp [htrim]

theorem io_of_passes (h : s.Passes desct nbyte offset operation)
    (htarget : target s.mountedFss (s.fileDescriptors desct).filePath = some (fs, trimmed)) :
    s.io ops desct buf nbyte offset operation =
      some (((s.access desct).access desct).ioTransfer ops desct fs trimmed buf nbyte
        (s.actualOffset desct offset) operation) := by
  rw [io_eq_of_passes h, htarget, Option.map_some]

theorem ioTransfer_read
    (hcode : (s.callReadWrite ops fs trimmed nbyte offset buf .read).1 ≠ 0) :
    s.ioTransfer ops desct fs trimmed buf nbyte offset .read =
      (nbyte, (s.callReadWrite ops fs trimmed nbyte offset buf .read).2.1,
        (s.callReadWrite ops fs trimmed nbyte offset buf .read).2.2.movedTo desct
          (add64 offset nbyte)) := by
  unfold ioTransfer
  rcases hcall : s.callReadWrite ops fs trimmed nbyte offset buf .read with ⟨c, b, u⟩
  rw [hcall] at hcode
  dsimp only
  rw [if_neg hcode]
  rfl

theorem ioTransfer_write
    (hcode : (s.callReadWrite ops fs trimmed nbyte offset buf .write).1 ≠ 0)
    (hsize : (((s.callReadWrite ops fs trimmed nbyte offset buf .write).2.2.movedTo desct
      (add64 offset nbyte)).callGetFileSize ops fs trimmed desct).1 ≠ 0) :
    s.ioTransfer ops desct fs trimmed buf nbyte offset .write =
      (nbyte, (s.callReadWrite ops fs trimmed nbyte offset buf .write).2.1,
        (((s.callReadWrite ops fs trimmed nbyte offset buf .write).2.2.movedTo desct
          (add64 offset nbyte)).callGetFileSize ops fs trimmed desct).2) := by
  unfold ioTransfer
  rcases hcall : s.callReadWrite ops fs trimmed nbyte offset buf .write with ⟨c, b, u⟩
  rw [hcall] at hcode hsize
  dsimp only at hsize ⊢
  rw [if_neg hcode, if_pos rfl]
  rw [movedTo] at hsize ⊢
  rw [if_neg hsize]

/-! ### Opening -/

/-- No file loses its contents. -/
def Keeps (files : ω → φ → Path → Option File) (s t : VFS φ ω) : Prop :=
  ∀ fs path f, files s.world fs path = some f → files t.world fs path = some f

theorem Keeps.trans (hst : Keeps files s t) (htu : Keeps files t u) : Keeps files s u :=
  fun fs path f h => htu fs path f (hst fs path f h)

theorem Keeps.of_eq (h : files t.world = files s.world) : Keeps files s t := by
  intro fs path f hf
  rwa [h]

/-- What open does to the files and to the table, except for the descriptor it
claimed. -/
structure OpenFrame (files : ω → φ → Path → Option File) (s t : VFS φ ω) (i : ℤ) : Prop where
  mounts : t.mountedFss = s.mountedFss
  keeps : Keeps files s t
  table : ∀ j, j ≠ i → t.fileDescriptors j = s.fileDescriptors j

theorem OpenFrame.trans (hst : OpenFrame files s t i) (htu : OpenFrame files t u i) :
    OpenFrame files s u i :=
  ⟨htu.mounts.trans hst.mounts, hst.keeps.trans htu.keeps,
    fun j hj => (htu.table j hj).trans (hst.table j hj)⟩

theorem OpenFrame.modify (f : FileDesc → FileDesc) : OpenFrame files s (s.modify i f) i :=
  ⟨rfl, Keeps.of_eq rfl, fun _ hj => modify_of_ne hj f⟩

theorem claimed_frame (new : List ℤ) : OpenFrame files s (s.claimed i new) i :=
  ⟨rfl, Keeps.of_eq rfl, fun _ hj => modify_of_ne hj _⟩

theorem exitErrCleanup_frame {e : Errno} (h : s.exitErrCleanup i e = some (r, t)) :
    r = -1 ∧ OpenFrame files s t i := by
  obtain ⟨rfl, rfl⟩ := exitErrCleanup_eq_some h
  exact ⟨rfl, rfl, Keeps.of_eq rfl, fun _ hj => modify_of_ne hj _⟩

theorem openExisting_frame (hb : ByteArrays ops files)
    (h : (r, t) = s.openExisting ops i fs path trimmed oflag) :
    OpenFrame files s t i ∧ (r = 0 ∨ r = i ∧ ∃ f, files t.world fs trimmed = some f ∧
      t.fileDescriptors i =
        { fillDescriptor path oflag (s.fileDescriptors i) with size := f.size }) := by
  obtain ⟨code, hsize, hr⟩ := openExisting_cases h
  have hcode : code = ((ops fs).getFileSize trimmed s.world).1 := (congrArg Prod.fst hsize).symm
  have ht : t = ((s.modify i (fillDescriptor path oflag)).callGetFileSize ops fs trimmed i).2 :=
    (congrArg Prod.snd hsize).symm
  have hkeeps : files t.world = files s.world := by
    rw [ht]
    exact hb.size_keeps s.world fs trimmed
  refine ⟨⟨?_, Keeps.of_eq hkeeps, fun j hj => ?_⟩, ?_⟩
  · rw [ht]
    rfl
  · rw [ht, callGetFileSize_of_ne hj, modify_of_ne hj]
  · by_cases hzero : code = 0
    · rw [if_pos hzero] at hr
      exact Or.inl hr
    · rw [if_neg hzero] at hr
      refine Or.inr ⟨hr, ?_⟩
      cases hf : files s.world fs trimmed with
      | none =>
          rw [hb.unsized s.world fs trimmed hf] at hcode
          exact absurd hcode hzero
      | some f =>
          refine ⟨f, by rw [hkeeps, hf], ?_⟩
          have hout := (hb.sized s.world fs trimmed f hf).2
          have hworld : (s.modify i (fillDescriptor path oflag)).world = s.world := rfl
          rw [ht, callGetFileSize_self, modify_self, hworld, hout]
          rfl

theorem openTrimmed_frame (hb : ByteArrays ops files)
    (h : s.openTrimmed ops i fs path trimmed pathStr oflag = some (r, t)) :
    OpenFrame files s t i ∧ (r = -1 ∨ r = 0 ∨ r = i ∧ ∃ f, files t.world fs trimmed = some f ∧
      t.fileDescriptors i =
        { fillDescriptor path oflag (s.fileDescriptors i) with size := f.size }) := by
  obtain ⟨exists', u, hexist, hcases⟩ := openTrimmed_cases h
  have hu : OpenFrame files s u i ∧ u.fileDescriptors i = s.fileDescriptors i := by
    cases hexist
    exact ⟨⟨rfl, Keeps.of_eq (hb.exist s.world fs trimmed), fun _ _ => rfl⟩, rfl⟩
  rcases hcases with ⟨-, e, hfail⟩ | ⟨-, -, code, v, hcreate, hcases⟩ | ⟨-, -, hopen⟩
  · obtain ⟨hr, hframe⟩ : r = -1 ∧ OpenFrame files u t i := exitErrCleanup_frame hfail
    exact ⟨hu.1.trans hframe, Or.inl hr⟩
  · have hv : OpenFrame files u v i ∧ v.fileDescriptors i = u.fileDescriptors i := by
      cases hcreate
      exact ⟨⟨rfl, hb.create u.world fs trimmed, fun _ _ => rfl⟩, rfl⟩
    rcases hcases with ⟨-, hr, rfl⟩ | ⟨-, hopen⟩
    · exact ⟨hu.1.trans hv.1, Or.inr (Or.inl hr)⟩
    · obtain ⟨hframe, hr⟩ := openExisting_frame hb hopen
      rw [hv.2, hu.2] at hr
      exact ⟨hu.1.trans (hv.1.trans hframe), Or.inr hr⟩
  · obtain ⟨hframe, hr⟩ := openExisting_frame hb hopen
    rw [hu.2] at hr
    exact ⟨hu.1.trans hframe, Or.inr hr⟩

/-- Either open changed at most the entry of a descriptor that was unused, or it
returned that descriptor, filled in for a file that exists. -/
theorem openFile_frame (hb : ByteArrays ops files) (h : s.openFile ops pathStr oflag = some (r, t)) :
    ∃ i, OpenFrame files s t i ∧ (i = -1 ∨ (s.fileDescriptors i).inUse = false) ∧
      (r < 3 ∨ r = i ∧ r < VFS_OPEN_FILES_MAX ∧ ∃ fs trimmed f,
        target s.mountedFss (Path.ofString pathStr) = some (fs, trimmed) ∧
          files t.world fs trimmed = some f ∧
          t.fileDescriptors i = { fillDescriptor (Path.ofString pathStr) oflag
            (s.fileDescriptors i) with size := f.size, inUse := true }) := by
  rcases openFile_cases h with ⟨-, rfl, rfl⟩ | ⟨-, new, -, ⟨-, rfl, rfl⟩ | ⟨j, hj, hfree, hcases⟩⟩
  · exact ⟨-1, ⟨rfl, Keeps.of_eq rfl, fun _ _ => rfl⟩, Or.inl rfl, Or.inl (by decide)⟩
  · have hclaimed : OpenFrame files s (s.claimed (-1) new) (-1) := claimed_frame new
    exact ⟨-1, ⟨rfl, hclaimed.keeps, hclaimed.table⟩, Or.inl rfl, Or.inl (by decide)⟩
  · have hclaimed : OpenFrame files s (s.claimed j new) j := claimed_frame new
    refine ⟨j, ?_⟩
    rcases hcases with ⟨-, hfail⟩ | ⟨m, trimmed, hget, htrim, hopen⟩
    · obtain ⟨rfl, hframe⟩ : r = -1 ∧ OpenFrame files (s.claimed j new) t j :=
        exitErrCleanup_frame hfail
      exact ⟨hclaimed.trans hframe, Or.inr hfree, Or.inl (by decide)⟩
    · obtain ⟨hframe, hr⟩ := openTrimmed_frame hb hopen
      refine ⟨hclaimed.trans hframe, Or.inr hfree, ?_⟩
      rcases hr with rfl | rfl | ⟨rfl, f, hf, htable⟩
      · exact Or.inl (by decide)
      · exact Or.inl (by decide)
      · refine Or.inr ⟨rfl, by exact_mod_cast hj, m.fs, trimmed, f, ?_, hf, ?_⟩
        · exact target_eq_some_iff.mpr ⟨m, hget, rfl, htrim⟩
        · rw [htable, claimed, modify_self]
          rfl

end VFS

/-! ### The layer and the reference model together -/

variable [DecidableEq φ]

/-- A descriptor of the layer is the open file of the model. -/
structure Describes (files : ω → φ → Path → Option File) (s : VFS φ ω) (r : Ref φ) (desct : ℤ)
    (o : OpenFile φ) : Prop where
  lower : 3 ≤ desct
  upper : desct < VFS_OPEN_FILES_MAX
  inUse : (s.fileDescriptors desct).inUse = true
  target : target s.mountedFss (s.fileDescriptors desct).filePath = some (o.fs, o.path)
  position : (s.fileDescriptors desct).position = o.position
  read : (s.fileDescriptors desct).read = o.read
  write : (s.fileDescriptors desct).write = o.write
  size : ∃ f, r.files o.fs o.path = some f ∧ (s.fileDescriptors desct).size = f.size

/-- The layer is in a state that the model describes. -/
structure Refines (files : ω → φ → Path → Option File) (s : VFS φ ω) (r : Ref φ) : Prop where
  contents : ∀ fs path f, r.files fs path = some f → files s.world fs path = some f
  opened : ∀ desct o, r.opened desct = some o → Describes files s r desct o

/-- A call of a run: open, or a call that reads or writes. -/
inductive FileCall
  | openFile (pathStr : List Char) (oflag : ℕ)
  | io (c : IoCall)

/-- The open file that a successful open adds to the model, with the contents
that the file has then. -/
def Ref.add (files : ω → φ → Path → Option File) (r : Ref φ) (t : VFS φ ω) (desct : ℤ)
    (oflag : ℕ) : φ × Path → Ref φ
  | (fs, path) => (r.setFile fs path (files t.world fs path)).setOpen desct
      ⟨fs, path, 0, hasFlag oflag O_RDONLY || hasFlag oflag O_RDWR,
        hasFlag oflag O_WRONLY || hasFlag oflag O_RDWR⟩

/-- One call on both sides. -/
def bothStep (ops : φ → FS ω) (files : ω → φ → Path → Option File) :
    VFS φ ω × Ref φ → FileCall → Option (VFS φ ω × Ref φ)
  | (s, r), .openFile pathStr oflag =>
      (s.openFile ops pathStr oflag).bind fun (desct, t) =>
        if desct < 3 then some (t, r)
        else (target s.mountedFss (Path.ofString pathStr)).map fun found =>
          (t, r.add files t desct oflag found)
  | (s, r), .io c =>
      (c.exec ops s).bind fun (_, _, t) => (r.io c).map fun (_, _, r') => (t, r')

/-- Files are not opened for appending, and reads and writes stay within the permissions and
the file. -/
def Within : VFS φ ω × Ref φ → FileCall → Prop
  | _, .openFile _ oflag => hasFlag oflag O_APPEND = false
  | (_, r), .io c => (r.io c).isSome

/-- A positional call of some bytes has a place other than zero, and ends at the
position. -/
def Aligned : VFS φ ω × Ref φ → FileCall → Prop
  | _, .openFile _ _ => True
  | (s, _), .io c => c.nbyte = 0 ∨ ∀ offset ∈ c.place, offset ≠ 0 ∧
      offset + c.nbyte = (s.fileDescriptors c.desct).position

section Steps

variable {s t : VFS φ ω} {r r' : Ref φ} {c : IoCall} {pathStr : List Char} {oflag code : ℕ}
  {buf : Buffer} {desct : ℤ}

omit [DecidableEq φ] in
theorem Refines.frame {i : ℤ} (h : Refines files s r) (hframe : VFS.OpenFrame files s t i)
    (hi : i = -1 ∨ (s.fileDescriptors i).inUse = false) : Refines files t r := by
  refine ⟨fun fs path f hf => hframe.keeps fs path f (h.contents fs path f hf), ?_⟩
  intro desct o ho
  have hd := h.opened desct o ho
  have hne : desct ≠ i := by
    rintro rfl
    rcases hi with rfl | hfree
    · exact absurd hd.lower (by decide)
    · rw [hd.inUse] at hfree
      cases hfree
  have htable := hframe.table desct hne
  constructor
  · exact hd.lower
  · exact hd.upper
  · rw [htable, hd.inUse]
  · rw [htable, hframe.mounts, hd.target]
  · rw [htable, hd.position]
  · rw [htable, hd.read]
  · rw [htable, hd.write]
  · rw [htable]
    exact hd.size

omit [DecidableEq φ] in
theorem Describes.sizes {o : OpenFile φ} (h : Describes files s r desct o)
    (hsizes : ∀ fs path f, r.files fs path = some f → ∃ f', r'.files fs path = some f' ∧
      f'.size = f.size) : Describes files s r' desct o := by
  obtain ⟨f, hf, hsize⟩ := h.size
  obtain ⟨f', hf', heq⟩ := hsizes o.fs o.path f hf
  exact { h with size := ⟨f', hf', hsize.trans heq.symm⟩ }

/-- Setting a file to one of the same size keeps the sizes. -/
theorem setFile_sizes {f : File} (hf : ∀ f', r.files fs path = some f' → f.size = f'.size)
    (fs' : φ) (path' : Path) (f' : File) (hf' : r.files fs' path' = some f') :
    ∃ f'', (r.setFile fs path (some f)).files fs' path' = some f'' ∧ f''.size = f'.size := by
  by_cases hsame : fs' = fs ∧ path' = path
  · obtain ⟨rfl, rfl⟩ := hsame
    exact ⟨f, Ref.setFile_self, hf f' hf'⟩
  · exact ⟨f', (Ref.setFile_of_ne hsame).trans hf', rfl⟩

theorem Refines.openFile (hb : ByteArrays ops files) (h : Refines files s r)
    (hopen : s.openFile ops pathStr oflag = some (desct, t)) :
    (desct < 3 → Refines files t r) ∧ (3 ≤ desct → ∀ found,
      target s.mountedFss (Path.ofString pathStr) = some found →
        Refines files t (r.add files t desct oflag found)) := by
  obtain ⟨i, hframe, hi, hcases⟩ := VFS.openFile_frame hb hopen
  have hold := h.frame hframe hi
  refine ⟨fun _ => hold, fun hlower found hfound => ?_⟩
  rcases hcases with hlt | ⟨rfl, hupper, fs, trimmed, f, htarget, hf, htable⟩
  · exact absurd hlower (not_le.mpr hlt)
  · rw [htarget] at hfound
    cases hfound
    have hsizes : ∀ fs' path' f', r.files fs' path' = some f' →
        ∃ f'', (r.setFile fs trimmed (some f)).files fs' path' = some f'' ∧
          f''.size = f'.size := setFile_sizes fun f' hf' => by
      rw [hold.contents fs trimmed f' hf'] at hf
      rw [Option.some.inj hf]
    rw [Ref.add, hf]
    constructor
    · intro fs' path' f' hf'
      rw [Ref.setOpen_files] at hf'
      by_cases hsame : fs' = fs ∧ path' = trimmed
      · obtain ⟨rfl, rfl⟩ := hsame
        rw [Ref.setFile_self] at hf'
        rw [hf, hf']
      · rw [Ref.setFile_of_ne hsame] at hf'
        exact hold.contents fs' path' f' hf'
    · intro desct' o ho
      by_cases hd : desct' = desct
      · subst hd
        rw [Ref.setOpen_self] at ho
        cases ho
        constructor
        · exact hlower
        · exact hupper
        · rw [htable]
        · rw [htable, hframe.mounts]
          exact htarget
        · rw [htable]
          rfl
        · rw [htable]
          rfl
        · rw [htable]
          rfl
        · exact ⟨f, Ref.setFile_self, by rw [htable]⟩
      · rw [Ref.setOpen_of_ne hd] at ho
        exact (hold.opened desct' o ho).sizes hsizes

omit [DecidableEq φ] in
/-- The effect of a call that passed the checks, on both sides. -/
theorem Refines.transfer {o : OpenFile φ} {r₁ : Ref φ} (h : Refines files s r)
    (ho : r.opened c.desct = some o) (hopened : r₁.opened = r.opened)
    (hafter : o.start c + c.nbyte = (o.after c).position)
    (hmounts : t.mountedFss = s.mountedFss)
    (htable : ∀ j, j ≠ c.desct → t.fileDescriptors j = s.fileDescriptors j)
    (hself : t.fileDescriptors c.desct =
      { s.fileDescriptors c.desct with position := o.start c + c.nbyte })
    (hsizes : ∀ fs path f, r.files fs path = some f → ∃ f', r₁.files fs path = some f' ∧
      f'.size = f.size)
    (hcontents : ∀ fs path f, r₁.files fs path = some f → files t.world fs path = some f) :
    Refines files t (r₁.setOpen c.desct (o.after c)) := by
  refine ⟨hcontents, fun desct o' ho' => ?_⟩
  by_cases hd : desct = c.desct
  · subst hd
    rw [Ref.setOpen_self] at ho'
    cases ho'
    have hold := h.opened c.desct o ho
    obtain ⟨f, hf, hsize⟩ := hold.size
    obtain ⟨f', hf', heq⟩ := hsizes o.fs o.path f hf
    constructor
    · exact hold.lower
    · exact hold.upper
    · rw [hself, hold.inUse]
    · rw [hself, hmounts, OpenFile.after_fs, OpenFile.after_path]
      exact hold.target
    · rw [hself, hafter]
    · rw [hself, OpenFile.after_read]
      exact hold.read
    · rw [hself, OpenFile.after_write]
      exact hold.write
    · refine ⟨f', ?_, ?_⟩
      · rw [OpenFile.after_fs, OpenFile.after_path]
        exact hf'
      · rw [hself, heq]
        exact hsize
  · rw [Ref.setOpen_of_ne hd, hopened] at ho'
    have hold := (h.opened desct o' ho').sizes hsizes
    have hrow := htable desct hd
    constructor
    · exact hold.lower
    · exact hold.upper
    · rw [hrow, hold.inUse]
    · rw [hrow, hmounts, hold.target]
    · rw [hrow, hold.position]
    · rw [hrow, hold.read]
    · rw [hrow, hold.write]
    · rw [hrow]
      exact hold.size

omit [DecidableEq φ] in
theorem Describes.actualOffset {o : OpenFile φ} (h : Describes files s r c.desct o)
    (hplace : ∀ offset ∈ c.place, offset ≠ 0) :
    s.actualOffset c.desct (c.place.getD 0) = o.start c := by
  unfold VFS.actualOffset OpenFile.start
  cases hc : c.place with
  | none => exact h.position
  | some offset => exact if_neg (hplace offset hc)

omit [DecidableEq φ] in
theorem Describes.passes {o : OpenFile φ} {f : File} (h : Describes files s r c.desct o)
    (hf : r.files o.fs o.path = some f) (hbound : f.size < 2 ^ 64) (hnbyte : c.nbyte ≠ 0)
    (hpermits : o.permits c.operation = true) (hfits : o.start c + c.nbyte ≤ f.size)
    (hoff : s.actualOffset c.desct (c.place.getD 0) = o.start c) :
    s.Passes c.desct c.nbyte (c.place.getD 0) c.operation := by
  obtain ⟨f', hf', hsize⟩ := h.size
  rw [hf] at hf'
  cases hf'
  constructor
  · exact hnbyte
  · exact h.upper
  · exact h.inUse
  · intro hop
    rw [hop] at hpermits
    rw [h.read]
    exact hpermits
  · intro hop
    rw [hop] at hpermits
    rw [h.write]
    exact hpermits
  · intro _
    rw [hoff, hsize, add64_of_lt (lt_of_le_of_lt hfits hbound)]
    exact hfits

omit [DecidableEq φ] in
/-- The end of a call that reads. -/
theorem Refines.read {o : OpenFile φ} {f : File} (hb : ByteArrays ops files)
    (h : Refines files s r) (ho : r.opened c.desct = some o)
    (hf : files s.world o.fs o.path = some f) (hpos : 0 < c.nbyte)
    (hfits : o.start c + c.nbyte ≤ f.size)
    (hadd : add64 (o.start c) c.nbyte = o.start c + c.nbyte)
    (hafter : o.start c + c.nbyte = (o.after c).position) :
    ∃ t, some (((s.access c.desct).access c.desct).ioTransfer ops c.desct o.fs o.path c.buf
        c.nbyte (o.start c) .read) =
      some (c.nbyte, splice c.buf 0 c.nbyte (f.slice (o.start c)), t) ∧
        Refines files t (r.setOpen c.desct (o.after c)) := by
  obtain ⟨hcode, hbuf, hfiles⟩ :=
    hb.read s.world o.fs o.path f c.nbyte (o.start c) c.buf hf hpos hfits
  have hcode' : (((s.access c.desct).access c.desct).callReadWrite ops o.fs o.path c.nbyte
      (o.start c) c.buf .read).1 ≠ 0 := hcode
  have hbuf' : (((s.access c.desct).access c.desct).callReadWrite ops o.fs o.path c.nbyte
      (o.start c) c.buf .read).2.1 = splice c.buf 0 c.nbyte (f.slice (o.start c)) := hbuf
  rw [VFS.ioTransfer_read hcode', hbuf']
  refine ⟨_, rfl, ?_⟩
  refine h.transfer ho rfl hafter rfl (fun j hj => VFS.modify_of_ne hj _) ?_ ?_ ?_
  · rw [VFS.movedTo, VFS.modify_self, hadd]
    rfl
  · exact fun fs path f hf => ⟨f, hf, rfl⟩
  · intro fs path f' hf'
    have hkept := h.contents fs path f' hf'
    rw [← hfiles] at hkept
    exact hkept

/-- The end of a call that writes. -/
theorem Refines.write {o : OpenFile φ} {f : File} (hb : ByteArrays ops files)
    (h : Refines files s r) (ho : r.opened c.desct = some o)
    (hf : r.files o.fs o.path = some f) (hpos : 0 < c.nbyte)
    (hfits : o.start c + c.nbyte ≤ f.size)
    (hadd : add64 (o.start c) c.nbyte = o.start c + c.nbyte)
    (hafter : o.start c + c.nbyte = (o.after c).position) :
    ∃ t, some (((s.access c.desct).access c.desct).ioTransfer ops c.desct o.fs o.path c.buf
        c.nbyte (o.start c) .write) = some (c.nbyte, c.buf, t) ∧
      Refines files t ((r.setFile o.fs o.path
        (some (f.splice (o.start c) c.nbyte c.buf))).setOpen c.desct (o.after c)) := by
  have hworld := h.contents o.fs o.path f hf
  obtain ⟨hcode, hbuf, hself, hothers⟩ :=
    hb.write s.world o.fs o.path f c.nbyte (o.start c) c.buf hworld hpos hfits
  have hcode' : (((s.access c.desct).access c.desct).callReadWrite ops o.fs o.path c.nbyte
      (o.start c) c.buf .write).1 ≠ 0 := hcode
  obtain ⟨hsize, hout⟩ := hb.sized _ o.fs o.path _ hself
  have hkeeps := hb.size_keeps
    ((ops o.fs).write o.path c.nbyte (o.start c) c.buf s.world).2.2 o.fs o.path
  have hbuf' : (((s.access c.desct).access c.desct).callReadWrite ops o.fs o.path c.nbyte
      (o.start c) c.buf .write).2.1 = c.buf := hbuf
  rw [VFS.ioTransfer_write hcode' hsize, hbuf']
  refine ⟨_, rfl, ?_⟩
  refine h.transfer ho rfl hafter rfl ?_ ?_ ?_ ?_
  · intro j hj
    rw [VFS.callGetFileSize_of_ne hj, VFS.movedTo_of_ne hj, VFS.callReadWrite_table]
    rfl
  · obtain ⟨f', hf', hold⟩ := (h.opened c.desct o ho).size
    rw [hf] at hf'
    cases hf'
    have hworld' : ((((s.access c.desct).access c.desct).callReadWrite ops o.fs o.path c.nbyte
        (o.start c) c.buf .write).2.2.movedTo c.desct (add64 (o.start c) c.nbyte)).world =
      ((ops o.fs).write o.path c.nbyte (o.start c) c.buf s.world).2.2 := rfl
    rw [VFS.callGetFileSize_self, VFS.movedTo_self, VFS.callReadWrite_table, hworld', hout, hadd]
    exact FileDesc.ext_iff.mpr (by simp [hold, File.splice])
  · exact setFile_sizes fun f' hf' => by
      rw [hf] at hf'
      cases hf'
      rfl
  · intro fs path f' hf'
    have hkept : files (((((s.access c.desct).access c.desct).callReadWrite ops o.fs o.path
        c.nbyte (o.start c) c.buf .write).2.2.movedTo c.desct
          (add64 (o.start c) c.nbyte)).callGetFileSize ops o.fs o.path c.desct).2.world =
        files ((ops o.fs).write o.path c.nbyte (o.start c) c.buf s.world).2.2 := hkeeps
    rw [hkept]
    by_cases hsame : fs = o.fs ∧ path = o.path
    · obtain ⟨rfl, rfl⟩ := hsame
      rw [Ref.setFile_self] at hf'
      rw [hself, hf']
    · rw [Ref.setFile_of_ne hsame] at hf'
      rw [hothers fs path hsame]
      exact h.contents fs path f' hf'

/-- A call of a run: the layer answers what the model answers, and they stay
together. -/
theorem Refines.io (hb : ByteArrays ops files) (h : Refines files s r)
    (haligned : Aligned (s, r) (.io c)) (hr : r.io c = some (code, buf, r')) :
    ∃ t, c.exec ops s = some (code, buf, t) ∧ Refines files t r' := by
  rw [IoCall.exec_eq]
  obtain ⟨o, f, ho, hf, ⟨hzero, rfl, rfl, rfl⟩ | ⟨hnbyte, rfl, hpermits, hfits, hcases⟩⟩ :=
    Ref.io_cases hr
  · rw [hzero]
    exact ⟨s, VFS.io_of_zero, h⟩
  · have hplace := haligned.resolve_left hnbyte
    have hd := h.opened c.desct o ho
    have hoff := hd.actualOffset fun offset hc => (hplace offset hc).1
    have hworld := h.contents o.fs o.path f hf
    have hbound := hb.bounded s.world o.fs o.path f hworld
    have hadd : add64 (o.start c) c.nbyte = o.start c + c.nbyte :=
      add64_of_lt (lt_of_le_of_lt hfits hbound)
    have hafter : o.start c + c.nbyte = (o.after c).position := by
      unfold OpenFile.start OpenFile.after
      cases hc : c.place with
      | none => rfl
      | some offset => exact (hplace offset hc).2.trans hd.position
    have hpasses := hd.passes hf hbound hnbyte hpermits hfits hoff
    rw [VFS.io_of_passes hpasses hd.target, hoff]
    have hpos : 0 < c.nbyte := Nat.pos_of_ne_zero hnbyte
    rcases hcases with ⟨hop, rfl, rfl⟩ | ⟨hop, rfl, rfl⟩
    · rw [hop]
      exact h.read hb ho hworld hpos hfits hadd hafter
    · rw [hop]
      exact h.write hb ho hf hpos hfits hadd hafter

theorem Refines.step {a : FileCall} (hb : ByteArrays ops files) (h : Refines files s r)
    (haligned : Aligned (s, r) a) (hstep : bothStep ops files (s, r) a = some (t, r')) :
    Refines files t r' := by
  cases a with
  | openFile pathStr oflag =>
      obtain ⟨⟨desct, u⟩, hopen, hrest⟩ := Option.bind_eq_some_iff.mp hstep
      obtain ⟨hlow, hhigh⟩ := h.openFile hb hopen
      dsimp only at hrest
      split at hrest
      · rename_i hlt
        cases hrest
        exact hlow hlt
      · rename_i hge
        obtain ⟨found, hfound, heq⟩ := Option.map_eq_some_iff.mp hrest
        cases heq
        exact hhigh (not_lt.mp hge) found hfound
  | io c =>
      obtain ⟨⟨code, buf, u⟩, hexec, hrest⟩ := Option.bind_eq_some_iff.mp hstep
      obtain ⟨⟨code', buf', r''⟩, hr, heq⟩ := Option.map_eq_some_iff.mp hrest
      cases heq
      obtain ⟨v, hexec', hv⟩ := h.io hb haligned hr
      rw [hexec] at hexec'
      cases hexec'
      exact hv

end Steps

/-- The model before any file is open. -/
def Ref.empty : Ref φ := ⟨fun _ _ => none, fun _ => none⟩

instance : ∀ (p : VFS φ ω × Ref φ) (a : FileCall), Decidable (Within p a)
  | _, .openFile _ oflag => inferInstanceAs (Decidable (hasFlag oflag O_APPEND = false))
  | (_, r), .io c => inferInstanceAs (Decidable ((r.io c).isSome = true))

omit [DecidableEq φ] in
instance : ∀ (p : VFS φ ω × Ref φ) (a : FileCall), Decidable (Aligned p a)
  | _, .openFile _ _ => isTrue trivial
  | (s, _), .io c => inferInstanceAs (Decidable (c.nbyte = 0 ∨ ∀ offset ∈ c.place,
      offset ≠ 0 ∧ offset + c.nbyte = (s.fileDescriptors c.desct).position))

def memoryPath : Path := ⟨false, [['a']]⟩

/-- A file system with one file, of eight bytes. -/
def memoryFs : FS (ℕ → UInt8) where
  mount := fun _ w => (1, w)
  read := fun path n offset buf w =>
    if path = memoryPath ∧ offset + n ≤ 8 then
      (n, splice buf 0 n ((File.mk 8 w).slice offset), w)
    else (0, buf, w)
  write := fun path n offset buf w =>
    if path = memoryPath ∧ offset + n ≤ 8 then (n, buf, splice w offset n buf) else (0, buf, w)
  getFileSize := fun path w => if path = memoryPath then (1, some 8, w) else (0, none, w)
  createFile := fun _ w => (0, w)
  fileExist := fun path w => if path = memoryPath then (1, w) else (2, w)

def memoryVfs : VFS Unit (ℕ → UInt8) :=
  { VFS.new (fun _ => Session.blankDesc) .none (fun _ => 0) with
    mountedFss := [⟨⟨true, []⟩, ()⟩] }

end AviKernel
