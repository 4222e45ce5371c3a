import AviKernel.Fs.VfsSteps
import AviKernel.Library.Runs

/-!
# The table of descriptors over runs

A session is the file-systems layer together with the descriptors that its
clients hold: those that open returned, and that no close took back since.
-/

namespace AviKernel

variable {φ ω : Type} {ops : φ → FS ω}

/-- The calls of the layer. -/
inductive VfsCall (φ : Type)
  | mountFs (where' device : Path) (what : φ)
  | openFile (pathStr : List Char) (oflag : ℕ)
  | close (fildes : ℤ)
  | read (desct : ℤ) (buf : Buffer) (nbyte : ℕ)
  | pread (desct : ℤ) (buf : Buffer) (nbyte offset : ℕ)
  | write (desct : ℤ) (buf : Buffer) (nbyte : ℕ)
  | pwrite (desct : ℤ) (buf : Buffer) (nbyte offset : ℕ)

/-- The value that a call returns, and the state it leaves. -/
def VfsCall.exec (ops : φ → FS ω) (s : VFS φ ω) : VfsCall φ → Option (ℤ × VFS φ ω)
  | .mountFs where' device what => s.mountFs ops where' device what
  | .openFile pathStr oflag => s.openFile ops pathStr oflag
  | .close fildes => s.close fildes
  | .read desct buf nbyte => (s.read ops desct buf nbyte).map fun (n, _, t) => (n, t)
  | .pread desct buf nbyte offset =>
      (s.pread ops desct buf nbyte offset).map fun (n, _, t) => (n, t)
  | .write desct buf nbyte => (s.write ops desct buf nbyte).map fun (n, _, t) => (n, t)
  | .pwrite desct buf nbyte offset =>
      (s.pwrite ops desct buf nbyte offset).map fun (n, _, t) => (n, t)

structure Session (φ ω : Type) where
  vfs : VFS φ ω
  held : Finset ℤ

namespace Session

/-- The descriptors held after a call returned `r`. -/
def heldAfter (held : Finset ℤ) (r : ℤ) : VfsCall φ → Finset ℤ
  | .openFile _ _ => if r = -1 then held else insert r held
  | .close fildes => if r = 0 then held.erase fildes else held
  | _ => held

def step (ops : φ → FS ω) (c : Session φ ω) (a : VfsCall φ) : Option (Session φ ω) :=
  (a.exec ops c.vfs).map fun (r, t) => ⟨t, heldAfter c.held r a⟩

def new (memory : ℤ → FileDesc) (errno : Errno) (world : ω) : Session φ ω :=
  ⟨VFS.new memory errno world, ∅⟩

/-- What a call must not do to the table, and what the table must say after it. -/
structure TableSafe (ops : φ → FS ω) (c : Session φ ω) (a : VfsCall φ) (c' : Session φ ω) :
    Prop where
  inBounds : ∀ i ∈ c'.vfs.accesses, VFS.InTable i
  returned : ∀ pathStr oflag r t, a = .openFile pathStr oflag →
    c.vfs.openFile ops pathStr oflag = some (r, t) →
    r = -1 ∨ 3 ≤ r ∧ VFS.InTable r ∧ (c.vfs.fileDescriptors r).inUse = false
  reserved : ∀ i, 0 ≤ i → i ≤ 2 → (c'.vfs.fileDescriptors i).inUse = true
  exhausted : ∀ pathStr oflag r t, a = .openFile pathStr oflag → ¬c.vfs.HasFree →
    c.vfs.openFile ops pathStr oflag = some (r, t) →
    r = -1 ∧ t.errno = .EMFILE ∧ t.fileDescriptors = c.vfs.fileDescriptors ∧
      t.mountedFss = c.vfs.mountedFss ∧ t.world = c.vfs.world ∧ t.calls = c.vfs.calls
  tracked : ∀ i, VFS.InTable i →
    ((c'.vfs.fileDescriptors i).inUse = true ↔ i ≤ 2 ∨ i ∈ c'.held)

/-- The file system gives the size of the file. -/
def Sized (ops : φ → FS ω) (fs : φ) (trimmed : Path) (world : ω) : Prop :=
  ((ops fs).getFileSize trimmed world).1 ≠ 0

/-- Open gives up on the file, or the file system does what is asked of it: it
creates a file that does not exist, and gives the size. -/
def Answers (ops : φ → FS ω) (fs : φ) (trimmed : Path) (pathStr : List Char) (oflag : ℕ)
    (world : ω) : Prop :=
  let asked := (ops fs).fileExist trimmed world
  let created := (ops fs).createFile trimmed asked.2
  VFS.rejects pathStr oflag (asked.1 ≠ 0) = true ∨
    asked.1 ≠ 0 ∧ Sized ops fs trimmed asked.2 ∨
    asked.1 = 0 ∧ created.1 ≠ 0 ∧ Sized ops fs trimmed created.2

/-- Open finds a free descriptor and, if it gets to a file system, an answer;
close is not given a reserved descriptor; and no descriptor is negative. -/
def Careful (ops : φ → FS ω) (c : Session φ ω) : VfsCall φ → Prop
  | .mountFs _ _ _ => True
  | .openFile pathStr oflag => c.vfs.HasFree ∧ ((Path.ofString pathStr).folder = false →
      ∀ found ∈ getMountedFs c.vfs.mountedFss (Path.ofString pathStr), ∀ m ∈ found,
        ∀ trimmed ∈ trimmedPath (Path.ofString pathStr) m,
          Answers ops m.fs trimmed pathStr oflag c.vfs.world)
  | .close fildes => 3 ≤ fildes
  | .read desct _ nbyte => nbyte = 0 ∨ 0 ≤ desct
  | .pread desct _ nbyte _ => nbyte = 0 ∨ 0 ≤ desct
  | .write desct _ nbyte => nbyte = 0 ∨ 0 ≤ desct
  | .pwrite desct _ nbyte _ => nbyte = 0 ∨ 0 ≤ desct

end Session

namespace VFS

variable {s t u : VFS φ ω} {desct fildes r i j : ℤ} {fs : φ} {path trimmed : Path}
  {pathStr : List Char} {oflag nbyte offset code : ℕ} {buf buf' : Buffer}
  {operation : VfsOperation} {new : List ℤ} {e : Errno}

/-- The table was accessed only within its bounds on the way from `s` to `t`. -/
def StaysIn (s t : VFS φ ω) : Prop := ∀ i ∈ t.accesses, i ∈ s.accesses ∨ InTable i

theorem StaysIn.of_append (new : List ℤ) (h : t.accesses = new ++ s.accesses)
    (hnew : ∀ i ∈ new, InTable i) : StaysIn s t := by
  intro i hi
  rw [h] at hi
  rcases List.mem_append.mp hi with hi | hi
  · exact Or.inr (hnew i hi)
  · exact Or.inl hi

theorem StaysIn.trans (hst : StaysIn s t) (htu : StaysIn t u) : StaysIn s u := by
  intro i hi
  rcases htu i hi with hi | hi
  · exact hst i hi
  · exact Or.inr hi

theorem StaysIn.same (h : t.accesses = s.accesses) : StaysIn s t := by
  intro i hi
  rw [h] at hi
  exact Or.inl hi

theorem StaysIn.cons (h : t.accesses = i :: s.accesses) (hi : InTable i) : StaysIn s t :=
  StaysIn.of_append [i] h (by simpa using hi)

theorem modify_self (f : FileDesc → FileDesc) :
    (s.modify i f).fileDescriptors i = f (s.fileDescriptors i) := Function.update_self ..

theorem modify_of_ne (h : j ≠ i) (f : FileDesc → FileDesc) :
    (s.modify i f).fileDescriptors j = s.fileDescriptors j := Function.update_of_ne h ..

theorem callGetFileSize_of_ne (h : j ≠ i) :
    (s.callGetFileSize ops fs trimmed i).2.fileDescriptors j = s.fileDescriptors j :=
  Function.update_of_ne h ..

theorem callGetFileSize_self : (s.callGetFileSize ops fs trimmed i).2.fileDescriptors i =
    { s.fileDescriptors i with
      size := ((ops fs).getFileSize trimmed s.world).2.1.getD (s.fileDescriptors i).size } :=
  Function.update_self ..

theorem callReadWrite_table : (s.callReadWrite ops fs trimmed nbyte offset buf
    operation).2.2.fileDescriptors = s.fileDescriptors := by
  cases operation <;> rfl

theorem movedTo_of_ne {position : ℕ} (h : j ≠ i) :
    (s.movedTo i position).fileDescriptors j = s.fileDescriptors j := modify_of_ne h _

theorem movedTo_self {position : ℕ} : (s.movedTo i position).fileDescriptors i =
    { s.fileDescriptors i with position := position } := modify_self _

theorem inUse_movedTo (position : ℕ) (j : ℤ) :
    ((s.movedTo i position).fileDescriptors j).inUse = (s.fileDescriptors j).inUse := by
  by_cases hj : j = i
  · rw [hj, movedTo_self]
  · rw [movedTo_of_ne hj]

theorem inUse_callGetFileSize (j : ℤ) :
    ((s.callGetFileSize ops fs trimmed i).2.fileDescriptors j).inUse =
      (s.fileDescriptors j).inUse := by
  by_cases hj : j = i
  · rw [hj, callGetFileSize_self]
  · rw [callGetFileSize_of_ne hj]

/-- Giving a claimed descriptor back restores the table. -/
theorem free_claimed (h : (s.fileDescriptors i).inUse = false)
    (hu : u.fileDescriptors = (s.claimed i new).fileDescriptors) :
    (u.modify i fun d => { d with inUse := false }).fileDescriptors = s.fileDescriptors := by
  funext j
  by_cases hj : j = i
  · subst hj
    rw [modify_self, hu, claimed, modify_self]
    exact FileDesc.ext_iff.mpr (by simp [h])
  · rw [modify_of_ne hj, hu, claimed, modify_of_ne hj]

theorem exitErrCleanup_table (hi : InTable i) (h : u.exitErrCleanup i e = some (r, t)) :
    r = -1 ∧ StaysIn u t ∧
      t.fileDescriptors = (u.modify i fun d => { d with inUse := false }).fileDescriptors := by
  obtain ⟨rfl, rfl⟩ := exitErrCleanup_eq_some h
  refine ⟨rfl, ?_, rfl⟩
  exact StaysIn.of_append [i, i] rfl (by simpa using hi)

theorem openExisting_table (hi : InTable i)
    (h : (r, t) = s.openExisting ops i fs path trimmed oflag)
    (hsized : Session.Sized ops fs trimmed s.world) :
    r = i ∧ StaysIn s t ∧ (∀ j, j ≠ i → t.fileDescriptors j = s.fileDescriptors j) ∧
      (t.fileDescriptors i).inUse = (s.fileDescriptors i).inUse := by
  obtain ⟨code, hsize, hr⟩ := openExisting_cases h
  have hcode : code ≠ 0 := by
    have hfst := congrArg Prod.fst hsize
    dsimp only at hfst
    rw [← hfst]
    exact hsized
  have ht := congrArg Prod.snd hsize
  dsimp only at ht
  rw [if_neg hcode] at hr
  refine ⟨hr, ?_, fun j hj => ?_, ?_⟩
  · rw [← ht]
    exact StaysIn.of_append [i, i] rfl (by simpa using hi)
  · rw [← ht, callGetFileSize_of_ne hj, modify_of_ne hj]
  · rw [← ht, callGetFileSize_self, modify_self]
    rfl

theorem openTrimmed_table (hi : InTable i) (hfree : (s.fileDescriptors i).inUse = false)
    (hanswers : Session.Answers ops fs trimmed pathStr oflag s.world)
    (h : (s.claimed i new).openTrimmed ops i fs path trimmed pathStr oflag = some (r, t)) :
    StaysIn (s.claimed i new) t ∧
      (r = -1 ∧ t.fileDescriptors = s.fileDescriptors ∨
        r = i ∧ (∀ j, j ≠ i → t.fileDescriptors j = s.fileDescriptors j) ∧
          (t.fileDescriptors i).inUse = true) := by
  obtain ⟨exists', u, hexist, hcases⟩ := openTrimmed_cases h
  have hexists : exists' = decide (((ops fs).fileExist trimmed s.world).1 ≠ 0) :=
    (congrArg Prod.fst hexist).symm
  have hu : u = ((s.claimed i new).callFileExist ops fs trimmed).2 :=
    (congrArg Prod.snd hexist).symm
  have hutable : u.fileDescriptors = (s.claimed i new).fileDescriptors := by
    rw [hu]
    rfl
  have hustays : StaysIn (s.claimed i new) u := by
    rw [hu]
    exact StaysIn.same rfl
  have huworld : u.world = ((ops fs).fileExist trimmed s.world).2 := by
    rw [hu]
    rfl
  have hclaimed : ((s.claimed i new).fileDescriptors i).inUse = true := by
    rw [claimed, modify_self]
  have hothers : ∀ j, j ≠ i →
      (s.claimed i new).fileDescriptors j = s.fileDescriptors j := by
    intro j hj
    rw [claimed, modify_of_ne hj]
  rw [Session.Answers, ← huworld, ← hexists] at hanswers
  rcases hcases with ⟨-, e, hfail⟩ | ⟨hrejects, hnot, code, v, hcreate, hcases⟩ |
    ⟨hrejects, hexist', hopen⟩
  · obtain ⟨hr, hstays, htable⟩ := exitErrCleanup_table hi hfail
    exact ⟨hustays.trans hstays, Or.inl ⟨hr, htable.trans (free_claimed hfree hutable)⟩⟩
  · have hzero : ((ops fs).fileExist trimmed s.world).1 = 0 := by
      rw [hnot] at hexists
      simpa using hexists.symm
    obtain ⟨hcode, hsized⟩ : code ≠ 0 ∧ Session.Sized ops fs trimmed v.world := by
      rcases hanswers with hrej | ⟨hne, -⟩ | ⟨-, hcode, hsized⟩
      · rw [hrejects] at hrej
        cases hrej
      · exact absurd hzero hne
      · cases hcreate
        exact ⟨hcode, hsized⟩
    have hv : v.fileDescriptors = u.fileDescriptors ∧ v.accesses = u.accesses := by
      cases hcreate
      exact ⟨rfl, rfl⟩
    rcases hcases with ⟨hcode', -, -⟩ | ⟨-, hopen⟩
    · exact absurd hcode' hcode
    · obtain ⟨hr, hstays, hrest, huse⟩ := openExisting_table hi hopen hsized
      refine ⟨hustays.trans ((StaysIn.same hv.2).trans hstays), Or.inr ⟨hr, fun j hj => ?_, ?_⟩⟩
      · rw [hrest j hj, hv.1, hutable, hothers j hj]
      · rw [huse, hv.1, hutable, hclaimed]
  · have hsized : Session.Sized ops fs trimmed u.world := by
      rcases hanswers with hrej | ⟨-, hsized⟩ | ⟨hzero, -, -⟩
      · rw [hrejects] at hrej
        cases hrej
      · exact hsized
      · rw [hexist', hzero] at hexists
        cases hexists
    obtain ⟨hr, hstays, hrest, huse⟩ := openExisting_table hi hopen hsized
    refine ⟨hustays.trans hstays, Or.inr ⟨hr, fun j hj => ?_, ?_⟩⟩
    · rw [hrest j hj, hutable, hothers j hj]
    · rw [huse, hutable, hclaimed]

theorem openFile_table (hfree : s.HasFree) (hanswers : (Path.ofString pathStr).folder = false →
      ∀ found ∈ getMountedFs s.mountedFss (Path.ofString pathStr), ∀ m ∈ found,
        ∀ trimmed ∈ trimmedPath (Path.ofString pathStr) m,
          Session.Answers ops m.fs trimmed pathStr oflag s.world)
    (h : s.openFile ops pathStr oflag = some (r, t)) :
    StaysIn s t ∧ (r = -1 ∧ t.fileDescriptors = s.fileDescriptors ∨
      InTable r ∧ (s.fileDescriptors r).inUse = false ∧
        (∀ j, j ≠ r → t.fileDescriptors j = s.fileDescriptors j) ∧
        (t.fileDescriptors r).inUse = true) := by
  rcases openFile_cases h with ⟨-, hr, rfl⟩ | ⟨hfile, new, hnew, hcases⟩
  · exact ⟨StaysIn.same rfl, Or.inl ⟨hr, rfl⟩⟩
  · rcases hcases with ⟨hfull, -, -⟩ | ⟨j, hj, hunused, hcases⟩
    · exact absurd hfree hfull
    · have hin : InTable (j : ℤ) := ⟨by omega, by exact_mod_cast hj⟩
      have hclaimed : StaysIn s (s.claimed j new) := by
        refine StaysIn.of_append ((j : ℤ) :: new) rfl fun i hi => ?_
        rcases List.mem_cons.mp hi with rfl | hi
        · exact hin
        · exact hnew i hi
      rcases hcases with ⟨-, hfail⟩ | ⟨m, trimmed, hget, htrim, hopen⟩
      · obtain ⟨hr, hstays, htable⟩ := exitErrCleanup_table hin hfail
        exact ⟨hclaimed.trans hstays, Or.inl ⟨hr, htable.trans (free_claimed hunused rfl)⟩⟩
      · have hans := hanswers hfile (some m) hget m rfl trimmed htrim
        obtain ⟨hstays, htable⟩ := openTrimmed_table hin hunused hans hopen
        refine ⟨hclaimed.trans hstays, ?_⟩
        rcases htable with hsame | ⟨rfl, hrest, huse⟩
        · exact Or.inl hsame
        · exact Or.inr ⟨hin, hunused, hrest, huse⟩

theorem close_table (hfildes : 3 ≤ fildes) (h : s.close fildes = some (r, t)) :
    StaysIn s t ∧ (r = -1 ∧ t.fileDescriptors = s.fileDescriptors ∨
      r = 0 ∧ (∀ j, j ≠ fildes → t.fileDescriptors j = s.fileDescriptors j) ∧
        (t.fileDescriptors fildes).inUse = false) := by
  rcases close_cases h with ⟨-, hr, rfl⟩ | ⟨hlt, hcases⟩
  · exact ⟨StaysIn.same rfl, Or.inl ⟨hr, rfl⟩⟩
  · have hin : InTable fildes := ⟨by omega, hlt⟩
    rcases hcases with ⟨-, hr, rfl⟩ | ⟨-, hr, rfl⟩
    · exact ⟨StaysIn.cons rfl hin, Or.inl ⟨hr, rfl⟩⟩
    · refine ⟨?_, Or.inr ⟨hr, fun j hj => ?_, ?_⟩⟩
      · exact StaysIn.of_append [fildes, fildes, fildes] rfl (by simpa using hin)
      · rw [modify_of_ne hj, access_fileDescriptors, access_fileDescriptors]
      · rw [modify_self]

theorem ioTransfer_table {offset' : ℕ} (hin : InTable desct)
    (h : (code, buf', t) = s.ioTransfer ops desct fs trimmed buf nbyte offset' operation) :
    StaysIn s t ∧ ∀ i, (t.fileDescriptors i).inUse = (s.fileDescriptors i).inUse := by
  obtain ⟨c, u, hcall, hcases⟩ := ioTransfer_cases h
  obtain ⟨htable, -, haccesses, -⟩ := callReadWrite_frame hcall
  have hstays : StaysIn s u := StaysIn.same haccesses
  rcases hcases with ⟨-, -, rfl⟩ | ⟨-, -, -, rfl⟩ | ⟨-, -, c', hsize, -⟩
  · exact ⟨hstays, fun i => by rw [htable]⟩
  · refine ⟨hstays.trans (StaysIn.cons rfl hin), fun i => ?_⟩
    rw [inUse_movedTo, htable]
  · have ht := congrArg Prod.snd hsize
    dsimp only at ht
    rw [← ht]
    refine ⟨hstays.trans (StaysIn.of_append [desct, desct] rfl (by simpa using hin)),
      fun i => ?_⟩
    rw [inUse_callGetFileSize, inUse_movedTo, htable]

theorem io_table (hdesct : nbyte = 0 ∨ 0 ≤ desct)
    (h : s.io ops desct buf nbyte offset operation = some (code, buf', t)) :
    StaysIn s t ∧ ∀ i, (t.fileDescriptors i).inUse = (s.fileDescriptors i).inUse := by
  rcases io_cases h with ⟨-, -, e, new, rfl, hnew⟩ | ⟨hpasses, m, trimmed, -, -, htransfer⟩
  · refine ⟨StaysIn.of_append new rfl fun i hi => ?_, fun _ => rfl⟩
    obtain ⟨rfl, hlt, hne⟩ := hnew i hi
    exact ⟨hdesct.resolve_left hne, hlt⟩
  · have hin : InTable desct := ⟨hdesct.resolve_left hpasses.nonempty, hpasses.lt⟩
    obtain ⟨hstays, huse⟩ := ioTransfer_table hin htransfer
    have hstart : StaysIn s ((s.access desct).access desct) :=
      StaysIn.of_append [desct, desct] rfl (by simpa using hin)
    exact ⟨hstart.trans hstays, huse⟩

theorem mountFs_table {where' device : Path} {what : φ}
    (h : s.mountFs ops where' device what = some (r, t)) :
    StaysIn s t ∧ t.fileDescriptors = s.fileDescriptors := by
  unfold mountFs at h
  split at h
  · cases h
  · split at h
    · cases h
    · dsimp only at h
      split at h
      · cases h
        exact ⟨StaysIn.same rfl, rfl⟩
      · cases h
        exact ⟨StaysIn.same rfl, rfl⟩

end VFS

namespace Session

variable {c c' : Session φ ω} {a : VfsCall φ} {as : List (VfsCall φ)} {r : ℤ} {t : VFS φ ω}

/-- The table is right for the descriptors held. -/
structure Tracked (c : Session φ ω) : Prop where
  inBounds : ∀ i ∈ c.vfs.accesses, VFS.InTable i
  tracked : ∀ i, VFS.InTable i →
    ((c.vfs.fileDescriptors i).inUse = true ↔ i ≤ 2 ∨ i ∈ c.held)

theorem tracked_new (memory : ℤ → FileDesc) (errno : Errno) (world : ω) :
    Tracked (new (φ := φ) memory errno world) := by
  constructor
  · intro i hi
    have hmem : i = 2 ∨ i = 1 ∨ i = 0 := by simpa [new, VFS.new] using hi
    rcases hmem with rfl | rfl | rfl <;> exact ⟨by decide, by decide⟩
  · intro i hi
    have hin : 0 ≤ i ∧ i < VFS_OPEN_FILES_MAX := hi
    simp [new, VFS.new, hin]

theorem Tracked.stays (h : Tracked c) (hstays : c.vfs.StaysIn t) :
    ∀ i ∈ t.accesses, VFS.InTable i := by
  intro i hi
  rcases hstays i hi with hi | hi
  · exact h.inBounds i hi
  · exact hi

theorem Tracked.same (h : Tracked c)
    (huse : ∀ i, (t.fileDescriptors i).inUse = (c.vfs.fileDescriptors i).inUse) (i : ℤ)
    (hi : VFS.InTable i) : (t.fileDescriptors i).inUse = true ↔ i ≤ 2 ∨ i ∈ c.held := by
  rw [huse i]
  exact h.tracked i hi

/-- Reading and writing hold what was held. -/
theorem Tracked.io {desct : ℤ} {buf : Buffer} {nbyte offset : ℕ} {operation : VfsOperation}
    (h : Tracked c) (hdesct : nbyte = 0 ∨ 0 ≤ desct)
    (hexec : ((c.vfs.io ops desct buf nbyte offset operation).map fun (n, _, t) => (n, t)) =
      some (r, t)) : Tracked ⟨t, c.held⟩ := by
  obtain ⟨⟨n, buf', u⟩, hio, heq⟩ := Option.map_eq_some_iff.mp hexec
  cases heq
  obtain ⟨hstays, huse⟩ := VFS.io_table hdesct hio
  exact ⟨h.stays hstays, h.same huse⟩

/-- One careful call keeps the table right. -/
theorem Tracked.exec (h : Tracked c) (hok : Careful ops c a) (hexec : a.exec ops c.vfs = some (r, t)) :
    Tracked ⟨t, heldAfter c.held r a⟩ := by
  cases a with
  | mountFs where' device what =>
      obtain ⟨hstays, htable⟩ := VFS.mountFs_table hexec
      exact ⟨h.stays hstays, h.same fun i => by rw [htable]⟩
  | openFile pathStr oflag =>
      obtain ⟨hstays, ⟨rfl, htable⟩ | ⟨hin, hunused, hrest, huse⟩⟩ :=
        VFS.openFile_table hok.1 hok.2 hexec
      · exact ⟨h.stays hstays, h.same fun i => by rw [htable]⟩
      · have hr : r ≠ -1 := by
          rintro rfl
          exact absurd hin.1 (by decide)
        refine ⟨h.stays hstays, fun i hi => ?_⟩
        rw [heldAfter, if_neg hr, Finset.mem_insert]
        by_cases hir : i = r
        · subst hir
          simp [huse]
        · dsimp only
          rw [hrest i hir, h.tracked i hi]
          simp [hir]
  | close fildes =>
      obtain ⟨hstays, ⟨rfl, htable⟩ | ⟨rfl, hrest, huse⟩⟩ := VFS.close_table hok hexec
      · exact ⟨h.stays hstays, h.same fun i => by rw [htable]⟩
      · refine ⟨h.stays hstays, fun i hi => ?_⟩
        rw [heldAfter, if_pos rfl, Finset.mem_erase]
        by_cases hir : i = fildes
        · subst hir
          have hok' : 3 ≤ i := hok
          simp [huse]
          omega
        · dsimp only
          rw [hrest i hir, h.tracked i hi]
          simp [hir]
  | read desct buf nbyte =>
      exact h.io hok hexec
  | pread desct buf nbyte offset =>
      exact h.io hok hexec
  | write desct buf nbyte =>
      exact h.io hok hexec
  | pwrite desct buf nbyte offset =>
      exact h.io hok hexec

theorem Tracked.step (h : Tracked c) (hok : Careful ops c a) (hstep : c.step ops a = some c') :
    Tracked c' := by
  obtain ⟨⟨r, t⟩, hexec, rfl⟩ := Option.map_eq_some_iff.mp hstep
  exact h.exec hok hexec

theorem Tracked.reserved (h : Tracked c) {i : ℤ} (hzero : 0 ≤ i) (htwo : i ≤ 2) :
    (c.vfs.fileDescriptors i).inUse = true := by
  have hin : VFS.InTable i := ⟨hzero, lt_of_le_of_lt htwo (by decide)⟩
  exact (h.tracked i hin).mpr (Or.inl htwo)

theorem Tracked.tableSafe (h : Tracked c) (hok : Careful ops c a)
    (hstep : c.step ops a = some c') : TableSafe ops c a c' := by
  have hafter := h.step hok hstep
  constructor
  · exact hafter.inBounds
  · rintro pathStr oflag r t rfl hopen
    obtain ⟨-, ⟨rfl, -⟩ | ⟨hin, hunused, -, -⟩⟩ := VFS.openFile_table hok.1 hok.2 hopen
    · exact Or.inl rfl
    · refine Or.inr ⟨?_, hin, hunused⟩
      by_contra hlt
      rw [h.reserved hin.1 (by omega)] at hunused
      cases hunused
  · intro i hzero htwo
    exact hafter.reserved hzero htwo
  · rintro pathStr oflag r t rfl hfull -
    exact absurd hok.1 hfull
  · exact hafter.tracked

theorem tableSafe_of_run (memory : ℤ → FileDesc) (errno : Errno) (world : ω)
    (hrun : RunAll (step ops) (Careful ops) (new memory errno world) (as ++ [a]))
    (hc : run (step ops) (new memory errno world) as = some c)
    (hstep : c.step ops a = some c') : TableSafe ops c a c' := by
  obtain ⟨hpre, hlast⟩ := runAll_append.mp hrun
  have htracked : Tracked c := run_preserves (fun _ _ _ h hok hstep => h.step hok hstep)
    (tracked_new memory errno world) hpre hc
  exact htracked.tableSafe (hlast c hc).1 hstep

/-- A file system on which each call succeeds, and each file has eight bytes. -/
def steadyFs : FS Unit where
  mount := fun _ _ => (1, ())
  read := fun _ count _ buf _ => (count, buf, ())
  write := fun _ count _ buf _ => (count, buf, ())
  getFileSize := fun _ _ => (1, some 8, ())
  createFile := fun _ _ => (1, ())
  fileExist := fun _ _ => (1, ())

def blankDesc : FileDesc := ⟨⟨true, []⟩, 0, false, false, false, 0, false⟩

def blankSession : Session ℕ Unit := new (fun _ => blankDesc) .none ()

def smallCalls : List (VfsCall ℕ) :=
  [.mountFs ⟨true, [['d']]⟩ ⟨true, []⟩ 0, .openFile ['/', 'd', '/', 'a'] O_RDWR,
    .pwrite 3 (fun _ => 7) 2 5, .close 3, .close 300]

instance (c : Session φ ω) : Decidable c.vfs.HasFree :=
  inferInstanceAs (Decidable (∃ j : ℕ, j < VFS_OPEN_FILES_MAX ∧ _))

instance (fs : φ) (trimmed : Path) (world : ω) : Decidable (Sized ops fs trimmed world) :=
  inferInstanceAs (Decidable (_ ≠ 0))

instance (fs : φ) (trimmed : Path) (pathStr : List Char) (oflag : ℕ) (world : ω) :
    Decidable (Answers ops fs trimmed pathStr oflag world) :=
  inferInstanceAs (Decidable (_ = true ∨ _ ≠ 0 ∧ Sized _ _ _ _ ∨ _ = 0 ∧ _ ≠ 0 ∧ Sized _ _ _ _))

instance : ∀ (c : Session φ ω) (a : VfsCall φ), Decidable (Careful ops c a)
  | _, .mountFs _ _ _ => isTrue trivial
  | c, .openFile pathStr oflag => inferInstanceAs (Decidable (c.vfs.HasFree ∧
      ((Path.ofString pathStr).folder = false →
        ∀ found ∈ getMountedFs c.vfs.mountedFss (Path.ofString pathStr), ∀ m ∈ found,
          ∀ trimmed ∈ trimmedPath (Path.ofString pathStr) m,
            Answers ops m.fs trimmed pathStr oflag c.vfs.world)))
  | _, .close fildes => inferInstanceAs (Decidable (3 ≤ fildes))
  | _, .read desct _ nbyte => inferInstanceAs (Decidable (nbyte = 0 ∨ 0 ≤ desct))
  | _, .pread desct _ nbyte _ => inferInstanceAs (Decidable (nbyte = 0 ∨ 0 ≤ desct))
  | _, .write desct _ nbyte => inferInstanceAs (Decidable (nbyte = 0 ∨ 0 ≤ desct))
  | _, .pwrite desct _ nbyte _ => inferInstanceAs (Decidable (nbyte = 0 ∨ 0 ≤ desct))

theorem tableSafe_of_run_small : ∃ c c', run (step fun _ => steadyFs) blankSession smallCalls =
      some c ∧ c.step (fun _ => steadyFs) (.openFile ['/', 'd', '/', 'b'] O_RDONLY) = some c' ∧
    TableSafe (fun _ => steadyFs) c (.openFile ['/', 'd', '/', 'b'] O_RDONLY) c' := by
  have hrun : RunAll (step fun _ => steadyFs) (Careful fun _ => steadyFs) blankSession
      (smallCalls ++ [.openFile ['/', 'd', '/', 'b'] O_RDONLY]) := by decide +kernel
  obtain ⟨c', hboth⟩ : ∃ c', ((run (step fun _ => steadyFs) blankSession smallCalls).bind
      fun c => c.step (fun _ => steadyFs) (.openFile ['/', 'd', '/', 'b'] O_RDONLY)) =
        some c' := ⟨_, rfl⟩
  obtain ⟨c, hc, hc'⟩ := Option.bind_eq_some_iff.mp hboth
  exact ⟨c, c', hc, hc', tableSafe_of_run (fun _ => blankDesc) .none () hrun hc hc'⟩

/-- Reading from a negative descriptor reaches the memory before the table. -/
theorem not_tableSafe_of_run : ¬∀ (as : List (VfsCall ℕ)) a c c',
    run (step fun _ => steadyFs) blankSession as = some c →
    c.step (fun _ => steadyFs) a = some c' → TableSafe (fun _ => steadyFs) c a c' := by
  intro h
  have hsafe := h [] (.read (-1) (fun _ => 0) 1) blankSession _ rfl rfl
  have hin := hsafe.inBounds (-1) (by decide)
  exact absurd hin.1 (by decide)

end Session

end AviKernel
