import AviKernel.Fs.IoOutcomes

/-!
# Several descriptors on a growing file

Each descriptor remembers the size of its file, and a write refreshes only the
size in its own descriptor.  So the sizes are right as long as a write that
extends a file goes through the only descriptor that is open on it.
-/

namespace AviKernel

variable {φ ω : Type} {ops : φ → FS ω} {files : ω → φ → Path → Option File} {fs fs' : φ}
  {trimmed trimmed' : Path}

/-- The file after a write that may extend it. -/
def File.grow (f : File) (offset nbyte : ℕ) (buf : Buffer) : File :=
  ⟨max f.size (offset + nbyte), AviKernel.splice f.byte offset nbyte buf⟩

/-- The file systems behave as a byte array per path that writes extend. -/
structure GrowingArrays (ops : φ → FS ω) (files : ω → φ → Path → Option File) : Prop
    extends ByteArrays ops files where
  reading : ∀ w fs path n offset buf, files ((ops fs).read path n offset buf w).2.2 = files w
  refused : ∀ w fs path n offset buf, ((ops fs).write path n offset buf w).1 = 0 →
    files ((ops fs).write path n offset buf w).2.2 = files w
  written : ∀ w fs path n offset buf, ((ops fs).write path n offset buf w).1 ≠ 0 →
    ∃ f, files w fs path = some f ∧
      files ((ops fs).write path n offset buf w).2.2 fs path = some (f.grow offset n buf) ∧
      ∀ fs' path', ¬(fs' = fs ∧ path' = path) →
        files ((ops fs).write path n offset buf w).2.2 fs' path' = files w fs' path'

namespace VFS

variable {s t u : VFS φ ω} {c : IoCall} {d : ℤ} {code : ℕ} {buf : Buffer}

/-- The descriptor is open on a file whose size it remembers. -/
structure Shows (files : ω → φ → Path → Option File) (s : VFS φ ω) (d : ℤ) : Prop where
  upper : d < VFS_OPEN_FILES_MAX
  inUse : (s.fileDescriptors d).inUse = true
  size : ∃ fs trimmed f, target s.mountedFss (s.fileDescriptors d).filePath = some (fs, trimmed) ∧
    files s.world fs trimmed = some f ∧ (s.fileDescriptors d).size = f.size

/-- If the call is a write that extends a file, the descriptor `d` is not open on
that file. -/
def Apart (files : ω → φ → Path → Option File) (s : VFS φ ω) (c : IoCall) (d : ℤ) : Prop :=
  c.operation = .write → s.Admits c → ∀ x ∈ target s.mountedFss (s.fileDescriptors c.desct).filePath,
    ∀ f ∈ files s.world x.1 x.2, f.size < s.startOf c + c.nbyte →
      target s.mountedFss (s.fileDescriptors d).filePath ≠ some x

theorem Shows.of_eq (h : Shows files s d) (hmounts : t.mountedFss = s.mountedFss)
    (htable : t.fileDescriptors d = s.fileDescriptors d)
    (hfiles : ∀ fs path f, files s.world fs path = some f → ∃ f', files t.world fs path = some f' ∧
      (target s.mountedFss (s.fileDescriptors d).filePath = some (fs, path) → f'.size = f.size)) :
    Shows files t d := by
  obtain ⟨fs, trimmed, f, htarget, hf, hsize⟩ := h.size
  obtain ⟨f', hf', heq⟩ := hfiles fs trimmed f hf
  refine ⟨h.upper, by rw [htable, h.inUse], fs, trimmed, f', ?_, hf', ?_⟩
  · rw [hmounts, htable, htarget]
  · rw [htable, hsize, heq htarget]

/-- What a call that reads or writes does to files and sizes. -/
theorem exec_files (hg : GrowingArrays ops files) (h : c.exec ops s = some (code, buf, t)) :
    (files t.world = files s.world ∧
        (t.fileDescriptors c.desct).size = (s.fileDescriptors c.desct).size) ∨
      c.operation = .write ∧ s.Admits c ∧ ∃ fs trimmed f,
        target s.mountedFss (s.fileDescriptors c.desct).filePath = some (fs, trimmed) ∧
        files s.world fs trimmed = some f ∧
        files t.world fs trimmed = some (f.grow (s.startOf c) c.nbyte c.buf) ∧
        (∀ fs' path', ¬(fs' = fs ∧ path' = trimmed) →
          files t.world fs' path' = files s.world fs' path') ∧
        (t.fileDescriptors c.desct).size = (f.grow (s.startOf c) c.nbyte c.buf).size := by
  by_cases hadmits : s.Admits c
  · rw [exec_of_admits hadmits] at h
    obtain ⟨⟨fs, trimmed⟩, htarget, htransfer⟩ := Option.map_eq_some_iff.mp h
    dsimp only at htransfer
    obtain ⟨k, u, hcall, hcases⟩ := ioTransfer_cases htransfer.symm
    have hutable : u.fileDescriptors = s.fileDescriptors := (callReadWrite_frame hcall).1
    rcases hcases with ⟨hzero, -, rfl⟩ | ⟨-, hread, -, rfl⟩ | ⟨hne, hwrite, k', hsize, -⟩
    · refine Or.inl ⟨?_, by rw [hutable]⟩
      cases hop : c.operation with
      | read =>
          rw [hop] at hcall
          cases hcall
          exact hg.reading s.world fs trimmed c.nbyte (s.startOf c) c.buf
      | write =>
          rw [hop] at hcall
          cases hcall
          exact hg.refused s.world fs trimmed c.nbyte (s.startOf c) c.buf hzero
    · refine Or.inl ⟨?_, ?_⟩
      · rw [hread] at hcall
        cases hcall
        exact hg.reading s.world fs trimmed c.nbyte (s.startOf c) c.buf
      · rw [movedTo_self, hutable]
    · rw [hwrite] at hcall
      have hk : ((ops fs).write trimmed c.nbyte (s.startOf c) c.buf s.world).1 ≠ 0 := by
        cases hcall
        exact hne
      have hworld : u.world = ((ops fs).write trimmed c.nbyte (s.startOf c) c.buf s.world).2.2 := by
        cases hcall
        rfl
      obtain ⟨f, hf, hgrown, hothers⟩ := hg.written _ _ _ _ _ _ hk
      rw [← hworld] at hgrown hothers
      obtain ⟨-, hreported⟩ := hg.sized u.world fs trimmed _ hgrown
      have ht := congrArg Prod.snd hsize
      dsimp only at ht
      have hfiles : files t.world = files u.world := by
        rw [← ht]
        exact hg.size_keeps u.world fs trimmed
      refine Or.inr ⟨hwrite, hadmits, fs, trimmed, f, htarget, hf, ?_, ?_, ?_⟩
      · rw [hfiles, hgrown]
      · rw [hfiles]
        exact hothers
      · have hmoved : (u.movedTo c.desct (add64 (s.startOf c) c.nbyte)).world = u.world := rfl
        rw [← ht, callGetFileSize_self, hmoved, hreported]
        rfl
  · obtain ⟨e, new, hexec, -⟩ := @exec_of_not_admits φ ω ops s c hadmits
    rw [hexec] at h
    cases h
    exact Or.inl ⟨rfl, rfl⟩

/-- A call keeps the size right in its own descriptor, and in the others that are
apart from it. -/
theorem Shows.io (hg : GrowingArrays ops files) (h : Shows files s d)
    (hapart : d ≠ c.desct → Apart files s c d) (hexec : c.exec ops s = some (code, buf, t)) :
    Shows files t d := by
  have hio := hexec
  rw [IoCall.exec_eq] at hio
  obtain ⟨hchanges, hsame⟩ := io_changesOnly hio
  by_cases hd : d = c.desct
  · subst hd
    refine ⟨h.upper, hsame.inUse.trans h.inUse, ?_⟩
    obtain ⟨fs, trimmed, f, htarget, hf, hsize⟩ := h.size
    rw [hchanges.mounts, hsame.filePath]
    rcases exec_files hg hexec with ⟨hfiles, hkept⟩ |
      ⟨-, -, fs', trimmed', f', htarget', -, hgrown, -, hsize'⟩
    · exact ⟨fs, trimmed, f, htarget, by rw [hfiles, hf], hkept.trans hsize⟩
    · exact ⟨fs', trimmed', _, htarget', hgrown, hsize'⟩
  · refine h.of_eq hchanges.mounts (hchanges.others d hd) fun fs path f hf => ?_
    rcases exec_files hg hexec with ⟨hfiles, -⟩ |
      ⟨hwrite, hadmits, fs', trimmed', f', htarget', hf', hgrown, hothers, -⟩
    · exact ⟨f, by rw [hfiles, hf], fun _ => rfl⟩
    · by_cases hfile : fs = fs' ∧ path = trimmed'
      · obtain ⟨rfl, rfl⟩ := hfile
        rw [hf] at hf'
        cases hf'
        refine ⟨_, hgrown, fun htarget => ?_⟩
        have hle : s.startOf c + c.nbyte ≤ f.size := by
          by_contra hlt
          exact hapart hd hwrite hadmits (fs, path) htarget' f hf (not_le.mp hlt) htarget
        exact max_eq_left hle
      · exact ⟨f, by rw [hothers fs path hfile, hf], fun _ => rfl⟩

/-- The file of the descriptor is there, and the call, if its range is in the
file, reads the bytes of the file. -/
def ReadsCurrent (ops : φ → FS ω) (files : ω → φ → Path → Option File) (s : VFS φ ω) (c : IoCall) :
    Prop :=
  ∃ fs trimmed f, target s.mountedFss (s.fileDescriptors c.desct).filePath = some (fs, trimmed) ∧
    files s.world fs trimmed = some f ∧
    (c.place.getD (s.fileDescriptors c.desct).position + c.nbyte ≤ f.size →
      ∃ t, c.exec ops s = some (c.nbyte, splice c.buf 0 c.nbyte
        (f.slice (c.place.getD (s.fileDescriptors c.desct).position)), t))

theorem Shows.read (hg : GrowingArrays ops files) (h : Shows files s c.desct)
    (hop : c.operation = .read) (hread : (s.fileDescriptors c.desct).read = true)
    (hpos : 0 < c.nbyte)
    (hplace : c.place = some 0 → (s.fileDescriptors c.desct).position = 0) :
    ReadsCurrent ops files s c := by
  obtain ⟨fs, trimmed, f, htarget, hf, hsize⟩ := h.size
  refine ⟨fs, trimmed, f, htarget, hf, fun hin => ?_⟩
  have hstart : s.startOf c = c.place.getD (s.fileDescriptors c.desct).position := by
    unfold startOf actualOffset
    cases hc : c.place with
    | none => rfl
    | some offset =>
        cases offset with
        | zero => exact hplace hc
        | succ n => rfl
  rw [← hstart] at hin ⊢
  have hadmits : s.Admits c := by
    refine ⟨hpos.ne', h.upper, h.inUse, fun _ => hread, fun hwrite => ?_, fun _ => ?_⟩
    · rw [hop] at hwrite
      cases hwrite
    · have hbound := hg.bounded s.world fs trimmed f hf
      have hsum : add64 (s.startOf c) c.nbyte = s.startOf c + c.nbyte :=
        add64_of_lt (lt_of_le_of_lt hin hbound)
      rw [hsize]
      exact le_of_eq_of_le hsum hin
  obtain ⟨hcode, hbuf, -⟩ := hg.read s.world fs trimmed f c.nbyte (s.startOf c) c.buf hf hpos hin
  have hcode' : (((s.access c.desct).access c.desct).callReadWrite ops fs trimmed c.nbyte
      (s.startOf c) c.buf .read).1 ≠ 0 := hcode
  have hbuf' : (((s.access c.desct).access c.desct).callReadWrite ops fs trimmed c.nbyte
      (s.startOf c) c.buf .read).2.1 = splice c.buf 0 c.nbyte (f.slice (s.startOf c)) := hbuf
  rw [exec_of_admits hadmits, htarget, Option.map_some]
  dsimp only
  rw [hop, ioTransfer_read hcode', hbuf']
  exact ⟨_, rfl⟩

end VFS

/-! ### Runs -/

namespace Session

variable {c c' : Session φ ω} {a : VfsCall φ} {as : List (VfsCall φ)} {d : ℤ}

/-- The call reaches no memory outside the table and mounts nothing, and if it
extends a file, no other descriptor held is open on that file. -/
def Settled (files : ω → φ → Path → Option File) (c : Session φ ω)
    (a : VfsCall φ) : Prop :=
  a.InBounds c.vfs ∧ a.isMount = false ∧
    ∀ io ∈ a.ioCall, ∀ d ∈ c.held, d ≠ io.desct → VFS.Apart files c.vfs io d

/-- The sizes that the descriptors held remember are right. -/
def Current (files : ω → φ → Path → Option File) (c : Session φ ω) : Prop :=
  ∀ d ∈ c.held, 3 ≤ d → VFS.Shows files c.vfs d

/-- A fresh layer with file systems mounted. -/
def mounted (memory : ℤ → FileDesc) (errno : Errno) (world : ω) (mounts : List (MountedFS φ)) :
    Session φ ω :=
  ⟨{ VFS.new memory errno world with mountedFss := mounts }, ∅⟩

theorem heldAfter_ioCall {held : Finset ℤ} {r : ℤ} {io : IoCall} (h : a.ioCall = some io) :
    heldAfter held r a = held := by
  cases a <;> first | rfl | cases h

/-- A descriptor in use is not the one that open claims. -/
theorem Current.frame {t : VFS φ ω} {i : ℤ} (h : Current files c)
    (hframe : VFS.OpenFrame files c.vfs t i) (hi : i = -1 ∨ (c.vfs.fileDescriptors i).inUse = false)
    (hd : d ∈ c.held) (hlower : 3 ≤ d) : VFS.Shows files t d := by
  have hshows := h d hd hlower
  have hne : d ≠ i := by
    rintro rfl
    rcases hi with rfl | hfree
    · omega
    · rw [hshows.inUse] at hfree
      cases hfree
  exact hshows.of_eq hframe.mounts (hframe.table d hne)
    fun fs path f hf => ⟨f, hframe.keeps fs path f hf, fun _ => rfl⟩

theorem Current.step (hg : GrowingArrays ops files) (h : Current files c)
    (hok : Settled files c a) (hstep : c.step ops a = some c') : Current files c' := by
  obtain ⟨⟨r, t⟩, hexec, rfl⟩ := Option.map_eq_some_iff.mp hstep
  obtain ⟨-, hmounts, hapart⟩ := hok
  intro d hd hlower
  dsimp only at hd ⊢
  rcases VfsCall.exec_cases hexec with ⟨where', device, what, rfl, -⟩ |
    ⟨pathStr, oflag, rfl, hopen⟩ | ⟨fildes, rfl, hclose⟩ | ⟨io, code, buf, hio, hcall⟩
  · cases hmounts
  · obtain ⟨i, hframe, hi, hcases⟩ := VFS.openFile_frame hg.toByteArrays hopen
    have hold : d = r ∨ d ∈ c.held := by
      rw [heldAfter] at hd
      split at hd
      · exact Or.inr hd
      · exact Finset.mem_insert.mp hd
    rcases hold with rfl | hold
    · rcases hcases with hlt | ⟨rfl, hupper, fs, trimmed, f, htarget, hf, htable⟩
      · omega
      · refine ⟨hupper, by rw [htable], fs, trimmed, f, ?_, hf, by rw [htable]⟩
        rw [htable, hframe.mounts]
        exact htarget
    · exact h.frame hframe hi hold hlower
  · rw [heldAfter] at hd
    have hsame : ∀ {u : VFS φ ω}, u.mountedFss = c.vfs.mountedFss →
        u.fileDescriptors d = c.vfs.fileDescriptors d → u.world = c.vfs.world → d ∈ c.held →
        VFS.Shows files u d := by
      intro u hmounts htable hworld hold
      exact (h d hold hlower).of_eq hmounts htable
        fun fs path f hf => ⟨f, by rw [hworld, hf], fun _ => rfl⟩
    rcases VFS.close_cases hclose with ⟨-, rfl, rfl⟩ | ⟨-, ⟨-, rfl, rfl⟩ | ⟨-, rfl, rfl⟩⟩
    · exact hsame rfl rfl rfl hd
    · exact hsame rfl rfl rfl hd
    · rw [if_pos rfl, Finset.mem_erase] at hd
      exact hsame rfl (VFS.modify_of_ne hd.1 _) rfl hd.2
  · rw [heldAfter_ioCall hio] at hd
    exact (h d hd hlower).io hg (fun hne => hapart io hio d hd hne) hcall

theorem current_of_run (hg : GrowingArrays ops files) (memory : ℤ → FileDesc) (errno : Errno)
    (world : ω) (mounts : List (MountedFS φ))
    (hrun : RunAll (step ops) (Settled files) (mounted memory errno world mounts) as)
    (hc : run (step ops) (mounted memory errno world mounts) as = some c) : Current files c := by
  have hstart : Current files (mounted memory errno world mounts) := by
    intro d hd
    exact absurd hd (Finset.notMem_empty d)
  exact run_preserves (fun _ _ _ h hok hstep => h.step hg hok hstep) hstart hrun hc

/-- In a run in which only the sole descriptor of a file extends it, each read
through a descriptor held of a range in its file is served. -/
theorem readsCurrent_of_run (hg : GrowingArrays ops files) (memory : ℤ → FileDesc) (errno : Errno)
    (world : ω) (mounts : List (MountedFS φ))
    (hrun : RunAll (step ops) (Settled files) (mounted memory errno world mounts) as)
    (hc : run (step ops) (mounted memory errno world mounts) as = some c) (io : IoCall)
    (hheld : io.desct ∈ c.held) (hlower : 3 ≤ io.desct) (hop : io.operation = .read)
    (hread : (c.vfs.fileDescriptors io.desct).read = true) (hpos : 0 < io.nbyte)
    (hplace : io.place = some 0 → (c.vfs.fileDescriptors io.desct).position = 0) :
    VFS.ReadsCurrent ops files c.vfs io := by
  have hshows := current_of_run hg memory errno world mounts hrun hc io.desct hheld hlower
  exact hshows.read hg hop hread hpos hplace

end Session

/-! ### A file in memory that grows -/

/-- The size of a file is a word of 64 bits. -/
abbrev SizedFile := { f : File // f.size < 2 ^ 64 }

theorem grow_fits {n offset : ℕ} (w : SizedFile) (buf : Buffer) (h : offset + n < 2 ^ 64) :
    (w.1.grow offset n buf).size < 2 ^ 64 := max_lt w.2 h

/-- A file system with one file, which writes extend. -/
def growFs : FS SizedFile where
  mount := fun _ w => (1, w)
  read := fun path n offset buf w =>
    if path = memoryPath ∧ offset + n ≤ w.1.size then
      (n, splice buf 0 n (w.1.slice offset), w)
    else (0, buf, w)
  write := fun path n offset buf w =>
    if h : offset + n < 2 ^ 64 then
      if path = memoryPath ∧ n ≠ 0 then (n, buf, ⟨w.1.grow offset n buf, grow_fits w buf h⟩)
      else (0, buf, w)
    else (0, buf, w)
  getFileSize := fun path w => if path = memoryPath then (1, some w.1.size, w) else (0, none, w)
  createFile := fun _ w => (0, w)
  fileExist := fun path w => if path = memoryPath then (1, w) else (2, w)

def growFiles (w : SizedFile) (_ : Unit) (path : Path) : Option File :=
  if path = memoryPath then some w.1 else none

theorem growFiles_eq_some {w : SizedFile} {fs : Unit} {path : Path} {f : File}
    (h : growFiles w fs path = some f) : path = memoryPath ∧ f = w.1 := by
  unfold growFiles at h
  split at h
  · rename_i hpath
    exact ⟨hpath, (Option.some.inj h).symm⟩
  · cases h

theorem growFiles_of_ne {w w' : SizedFile} {fs : Unit} {path : Path} (h : path ≠ memoryPath) :
    growFiles w fs path = growFiles w' fs path := by
  rw [growFiles, growFiles, if_neg h, if_neg h]

theorem growFs_write {w : SizedFile} {n offset : ℕ} {buf : Buffer} (h : offset + n < 2 ^ 64)
    (hn : n ≠ 0) : growFs.write memoryPath n offset buf w =
      (n, buf, ⟨w.1.grow offset n buf, grow_fits w buf h⟩) := by
  have hin : memoryPath = memoryPath ∧ n ≠ 0 := ⟨rfl, hn⟩
  dsimp only [growFs]
  rw [dif_pos h, if_pos hin]

theorem growFs_write_cases {w : SizedFile} {path : Path} {n offset : ℕ} {buf : Buffer} :
    (path = memoryPath ∧ n ≠ 0 ∧ offset + n < 2 ^ 64) ∨
      growFs.write path n offset buf w = (0, buf, w) := by
  by_cases hfits : offset + n < 2 ^ 64
  · by_cases hin : path = memoryPath ∧ n ≠ 0
    · exact Or.inl ⟨hin.1, hin.2, hfits⟩
    · right
      dsimp only [growFs]
      rw [dif_pos hfits, if_neg hin]
  · right
    dsimp only [growFs]
    rw [dif_neg hfits]

theorem grow_of_le {f : File} {n offset : ℕ} {buf : Buffer} (h : offset + n ≤ f.size) :
    f.grow offset n buf = f.splice offset n buf := by
  rw [File.grow, max_eq_left h]
  rfl

theorem growingArrays_grow : GrowingArrays (fun _ => growFs) growFiles where
  bounded := by
    intro w fs path f h
    obtain ⟨-, rfl⟩ := growFiles_eq_some h
    exact w.2
  exist := by
    intro w fs path
    dsimp only [growFs]
    split <;> rfl
  create := fun _ _ _ _ _ _ h => h
  sized := by
    intro w fs path f h
    obtain ⟨rfl, rfl⟩ := growFiles_eq_some h
    exact ⟨one_ne_zero, rfl⟩
  unsized := by
    intro w fs path h
    have hpath : path ≠ memoryPath := by
      rintro rfl
      cases h
    simp [growFs, hpath]
  size_keeps := by
    intro w fs path
    dsimp only [growFs]
    split <;> rfl
  read := by
    intro w fs path f n offset buf h hn hfits
    obtain ⟨rfl, rfl⟩ := growFiles_eq_some h
    have hin : memoryPath = memoryPath ∧ offset + n ≤ w.1.size := ⟨rfl, hfits⟩
    dsimp only [growFs]
    rw [if_pos hin]
    exact ⟨hn.ne', rfl, rfl⟩
  write := by
    intro w fs path f n offset buf h hn hfits
    obtain ⟨rfl, rfl⟩ := growFiles_eq_some h
    rw [growFs_write (lt_of_le_of_lt hfits w.2) hn.ne']
    refine ⟨hn.ne', rfl, ?_, fun fs' path' hother => ?_⟩
    · rw [← grow_of_le hfits]
      rfl
    · exact growFiles_of_ne fun hpath => hother ⟨rfl, hpath⟩
  reading := by
    intro w fs path n offset buf
    dsimp only [growFs]
    split <;> rfl
  refused := by
    intro w fs path n offset buf hcode
    rcases @growFs_write_cases w path n offset buf with ⟨rfl, hn, hfits⟩ | hwrite
    · rw [growFs_write hfits hn] at hcode
      exact absurd hcode hn
    · rw [hwrite]
  written := by
    intro w fs path n offset buf hcode
    rcases @growFs_write_cases w path n offset buf with ⟨rfl, hn, hfits⟩ | hwrite
    · rw [growFs_write hfits hn]
      exact ⟨w.1, rfl, rfl, fun fs' path' hother => growFiles_of_ne fun hpath => hother ⟨rfl, hpath⟩⟩
    · rw [hwrite] at hcode
      exact absurd rfl hcode

instance (s : VFS φ ω) (desct : ℤ) (nbyte offset : ℕ) (operation : VfsOperation) :
    Decidable (s.Passes desct nbyte offset operation) :=
  decidable_of_iff (nbyte ≠ 0 ∧ desct < VFS_OPEN_FILES_MAX ∧
      (s.fileDescriptors desct).inUse = true ∧
      (operation = .read → (s.fileDescriptors desct).read = true) ∧
      (operation = .write → (s.fileDescriptors desct).write = true) ∧
      (operation = .read →
        add64 (s.actualOffset desct offset) nbyte ≤ (s.fileDescriptors desct).size))
    ⟨fun ⟨hn, hlt, huse, hr, hw, hfits⟩ => ⟨hn, hlt, huse, hr, hw, hfits⟩,
      fun h => ⟨h.nonempty, h.lt, h.inUse, h.readable, h.writable, h.fits⟩⟩

instance [DecidableEq φ] (s : VFS φ ω) (c : IoCall) (d : ℤ) : Decidable (VFS.Apart files s c d) :=
  inferInstanceAs (Decidable (c.operation = .write → s.Admits c →
    ∀ x ∈ target s.mountedFss (s.fileDescriptors c.desct).filePath,
      ∀ f ∈ files s.world x.1 x.2, f.size < s.startOf c + c.nbyte →
        target s.mountedFss (s.fileDescriptors d).filePath ≠ some x))

instance [DecidableEq φ] (c : Session φ ω) (a : VfsCall φ) :
    Decidable (Session.Settled files c a) :=
  inferInstanceAs (Decidable (a.InBounds c.vfs ∧ a.isMount = false ∧
    ∀ io ∈ a.ioCall, ∀ d ∈ c.held, d ≠ io.desct → VFS.Apart files c.vfs io d))

namespace Session

/-- The file has eight bytes. -/
def eightBytes : SizedFile := ⟨⟨8, fun _ => 0⟩, by decide⟩

def grown : Session Unit SizedFile :=
  mounted (fun _ => blankDesc) .none eightBytes [⟨⟨true, []⟩, ()⟩]

/-- Two descriptors are open while the file keeps its size, and one while it is
extended. -/
def settledCalls : List (VfsCall Unit) :=
  [.openFile ['/', 'a'] O_RDWR, .openFile ['/', 'a'] O_RDONLY, .write 3 (fun _ => 5) 2, .close 4,
    .pwrite 3 (fun _ => 7) 2 8, .openFile ['/', 'a'] O_RDONLY]

theorem readsCurrent_of_run_settled : ∃ c, run (step fun _ => growFs) grown settledCalls = some c ∧
    VFS.ReadsCurrent (fun _ => growFs) growFiles c.vfs ⟨4, fun _ => 0, 9, some 1, .read⟩ := by
  have hrun : RunAll (step fun _ => growFs) (Settled growFiles) grown settledCalls := by
    decide +kernel
  have hheld : (run (step fun _ => growFs) grown settledCalls).map (fun c => decide (4 ∈ c.held ∧
      (c.vfs.fileDescriptors 4).read = true)) = some true := by decide +kernel
  obtain ⟨c, hc⟩ : ∃ c, run (step fun _ => growFs) grown settledCalls = some c := ⟨_, rfl⟩
  rw [hc, Option.map_some] at hheld
  obtain ⟨hmem, hread⟩ := of_decide_eq_true (Option.some.inj hheld)
  refine ⟨c, hc, ?_⟩
  exact readsCurrent_of_run growingArrays_grow (fun _ => blankDesc) .none eightBytes
    [⟨⟨true, []⟩, ()⟩] hrun hc ⟨4, fun _ => 0, 9, some 1, .read⟩ hmem (by decide) rfl hread
    (by decide) fun hzero => nomatch hzero

/-- Two descriptors, and a byte that is appended through the first one. -/
def appendCalls : List (VfsCall Unit) :=
  [.openFile ['/', 'a'] O_RDWR, .openFile ['/', 'a'] O_RDONLY, .pwrite 3 (fun _ => 7) 1 8]

/-- The appended byte cannot be read through the second one. -/
theorem not_readsCurrent_of_run : ¬∀ (as : List (VfsCall Unit)) c io,
    (∀ a ∈ as, a.isMount = false) → run (step fun _ => growFs) grown as = some c →
    io.desct ∈ c.held → 3 ≤ io.desct → io.operation = .read →
    (c.vfs.fileDescriptors io.desct).read = true → 0 < io.nbyte →
      VFS.ReadsCurrent (fun _ => growFs) growFiles c.vfs io := by
  intro h
  have hfacts : (run (step fun _ => growFs) grown appendCalls).map (fun c => decide (4 ∈ c.held ∧
      (c.vfs.fileDescriptors 4).read = true ∧ c.vfs.world.1.size = 9)) = some true := by
    decide +kernel
  have hcode : (run (step fun _ => growFs) grown appendCalls).bind (fun c =>
      (IoCall.exec (fun _ => growFs) c.vfs ⟨4, fun _ => 0, 1, some 8, .read⟩).map Prod.fst) =
        some 0 := by decide +kernel
  obtain ⟨c, hc⟩ : ∃ c, run (step fun _ => growFs) grown appendCalls = some c := ⟨_, rfl⟩
  rw [hc, Option.map_some] at hfacts
  rw [hc, Option.bind_some] at hcode
  obtain ⟨hmem, hread, hsize⟩ := of_decide_eq_true (Option.some.inj hfacts)
  obtain ⟨fs, trimmed, f, -, hf, hserved⟩ := h appendCalls c ⟨4, fun _ => 0, 1, some 8, .read⟩
    (by decide) hc hmem (by decide) rfl hread (by decide)
  obtain ⟨-, rfl⟩ := growFiles_eq_some hf
  obtain ⟨t, hexec⟩ := hserved (le_of_eq hsize.symm)
  rw [hexec] at hcode
  cases hcode

end Session

end AviKernel
