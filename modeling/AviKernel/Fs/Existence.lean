import AviKernel.Fs.Opening

/-!
# Whether a file exists

The answer of a file system is one of two codes, or zero for an error.  Open
takes any code but zero for an existing file.
-/

namespace AviKernel

variable {φ ω : Type} {ops : φ → FS ω} {present : ω → Path → Prop}

/-- The documented behaviour of a file system whose existing files have a size. -/
structure FollowsContract (fsys : FS ω) (present : ω → Path → Prop) : Prop where
  exist : ∀ w path, (fsys.fileExist path w).1 = FS_FILE_EXIST ∧ present w path ∨
    (fsys.fileExist path w).1 = FS_FILE_N_EXISTS ∧ ¬present w path ∨
    (fsys.fileExist path w).1 = 0
  asking : ∀ w path path', present (fsys.fileExist path w).2 path' ↔ present w path'
  create : ∀ w path, (fsys.createFile path w).1 ≠ 0 → present (fsys.createFile path w).2 path
  sized : ∀ w path, present w path → (fsys.getFileSize path w).1 ≠ 0

/-- The rest of a path for the file system that holds it. -/
def MountedFS.remainder (m : MountedFS φ) (path : Path) : Path :=
  { path with parts := path.parts.drop m.depth }

theorem target_single {m : MountedFS φ} {path : Path} (hfolder : m.mountPath.folder = true)
    (hholds : m.Holds path) : target [m] path = some (m.fs, m.remainder path) := by
  have hsome : foundAt path 0 m ≠ none := by
    intro hnone
    obtain ⟨hpos, -, hle⟩ := (foundAt_eq_none_iff hfolder).mp hnone
    omega
  have hfound : foundAt path 0 m = some true := accepts_of_holds hfolder hsome hholds
  have hpos : 0 < (m.mountPath.getDepth + 1).toNat := by
    rw [getDepth_mount hfolder]
    omega
  have hloop : getMountedFsFrom path 0 [m] 0 none =
      some ((m.mountPath.getDepth + 1).toNat, some m) := by
    simp [getMountedFsFrom, hfound, hpos]
  have hget : getMountedFs [m] path = some (some m) := by
    rw [getMountedFs, hloop]
    simp [hpos.ne']
  refine target_eq_some_iff.mpr ⟨m, hget, rfl, ?_⟩
  exact trimmedPath_eq hfolder hholds.1.length_le

theorem isEmpty_of_file {pathStr : List Char} (h : (Path.ofString pathStr).folder = false) :
    pathStr.isEmpty = false := by
  cases pathStr with
  | nil => exact absurd h (by decide)
  | cons c rest => rfl

namespace VFS

variable {s t : VFS φ ω} {fs : φ} {path trimmed : Path} {pathStr : List Char} {oflag : ℕ} {r : ℤ}
  {m : MountedFS φ}

/-- A descriptor that was free is in use for the path. -/
structure Yields (s t : VFS φ ω) (pathStr : List Char) (r : ℤ) : Prop where
  inTable : InTable r
  unused : (s.fileDescriptors r).inUse = false
  inUse : (t.fileDescriptors r).inUse = true
  filePath : (t.fileDescriptors r).filePath = Path.ofString pathStr

/-- The flags ask for a file that does not exist yet. -/
def exclusive (oflag : ℕ) : Bool := hasFlag oflag O_CREAT && hasFlag oflag O_EXCL

/-- What open must do with a file that does not exist, when the calls it made are
`new`. -/
structure MissingRight (ops : φ → FS ω) (s t : VFS φ ω) (fs : φ) (trimmed : Path)
    (pathStr : List Char) (oflag : ℕ) (r : ℤ) (new : List (FsCall φ)) : Prop where
  kept : hasFlag oflag O_CREAT = false → r = -1 ∧ t.errno = .ENOENT ∧
    t.fileDescriptors = s.fileDescriptors ∧ t.mountedFss = s.mountedFss ∧
    new = [⟨fs, .fileExist, trimmed⟩]
  created : hasFlag oflag O_CREAT = true →
    (new.filter fun c => c.method = .createFile) = [⟨fs, .createFile, trimmed⟩] ∧
      (((ops fs).createFile trimmed ((ops fs).fileExist trimmed s.world).2).1 ≠ 0 →
        Yields s t pathStr r)

/-- What open must do with a file that exists. -/
structure ExistingRight (s t : VFS φ ω) (pathStr : List Char) (oflag : ℕ) (r : ℤ)
    (new : List (FsCall φ)) : Prop where
  excluded : exclusive oflag = true → r = -1 ∧ t.errno = .EEXIST
  opened : exclusive oflag = false →
    Yields s t pathStr r ∧ (new.filter fun c => c.method = .createFile) = []

/-- Open decides existence right for the one mounted file system. -/
def DecidesExistence (ops : φ → FS ω) (present : ω → Path → Prop) (s : VFS φ ω) (m : MountedFS φ)
    (pathStr : List Char) (oflag : ℕ) : Prop :=
  ∃ r t new, s.openFile ops pathStr oflag = some (r, t) ∧ t.calls = new ++ s.calls ∧
    (¬present s.world (m.remainder (Path.ofString pathStr)) →
      MissingRight ops s t m.fs (m.remainder (Path.ofString pathStr)) pathStr oflag r new) ∧
    (present s.world (m.remainder (Path.ofString pathStr)) →
      ExistingRight s t pathStr oflag r new)

/-- The outcomes of asking for the size of a claimed file. -/
theorem yields_sized {u : VFS φ ω} {i : ℤ} {new : List ℤ} (hin : InTable i)
    (hunused : (s.fileDescriptors i).inUse = false)
    (hu : u.fileDescriptors = (s.claimed i new).fileDescriptors) :
    Yields s (u.sized ops fs (Path.ofString pathStr) trimmed oflag i) pathStr i := by
  refine ⟨hin, hunused, ?_, ?_⟩
  · rw [sized_self, hu, claimed, modify_self]
    rfl
  · rw [sized_self]
    rfl

/-- Open with a file system that answers any code but zero. -/
theorem openFile_told (hfile : (Path.ofString pathStr).folder = false) (hfree : s.HasFree)
    (htarget : target s.mountedFss (Path.ofString pathStr) = some (fs, trimmed))
    (hcode : ((ops fs).fileExist trimmed s.world).1 ≠ 0) :
    ∃ r t, s.openFile ops pathStr oflag = some (r, t) ∧
      (exclusive oflag = true ∧ r = -1 ∧ t.errno = .EEXIST ∧
          t.calls = [⟨fs, .fileExist, trimmed⟩] ++ s.calls ∨
        exclusive oflag = false ∧ r ≠ -1 ∧
          t.calls = [⟨fs, .getFileSize, trimmed⟩, ⟨fs, .fileExist, trimmed⟩] ++ s.calls ∧
          (Session.Sized ops fs trimmed ((ops fs).fileExist trimmed s.world).2 →
            Yields s t pathStr r)) := by
  obtain ⟨j, new, hj, hunused, -, hopen⟩ :=
    @openFile_targeted φ ω ops s fs trimmed pathStr oflag hfile hfree htarget
  have hrejects : rejects pathStr oflag true = exclusive oflag := by
    simp [rejects, exclusive, isEmpty_of_file hfile]
  have hin : InTable (j : ℤ) := ⟨by omega, by exact_mod_cast hj⟩
  have hworld : (s.claimed j new).world = s.world := rfl
  rw [hopen, openTrimmed_eq, hworld, decide_eq_true hcode]
  dsimp only
  rw [hrejects]
  cases hexcl : exclusive oflag with
  | true =>
      have hrejection : rejection oflag true = .EEXIST := by
        rw [exclusive] at hexcl
        simp [rejection, hexcl]
      obtain ⟨t, hfail, hcalls, herrno, -⟩ := @failsCleanly_claimed φ ω s
        ((s.claimed j new).asked ops fs trimmed) j new .EEXIST hunused rfl rfl Errno.noConfusion
      rw [if_pos rfl, hrejection, hfail]
      exact ⟨-1, t, rfl, Or.inl ⟨rfl, rfl, herrno, hcalls⟩⟩
  | false =>
      rw [if_neg Bool.false_ne_true, if_pos rfl, openExisting_eq]
      refine ⟨_, _, rfl, Or.inr ⟨rfl, ?_, rfl, fun hsized => ?_⟩⟩
      · split <;> omega
      · have hsize : ¬((ops fs).getFileSize trimmed
            ((s.claimed j new).asked ops fs trimmed).world).1 = 0 := hsized
        rw [if_neg hsize]
        exact yields_sized hin hunused rfl

/-- Open with a file system that answers zero. -/
theorem openFile_untold (hfile : (Path.ofString pathStr).folder = false) (hfree : s.HasFree)
    (htarget : target s.mountedFss (Path.ofString pathStr) = some (fs, trimmed))
    (hcode : ((ops fs).fileExist trimmed s.world).1 = 0) :
    ∃ r t, s.openFile ops pathStr oflag = some (r, t) ∧
      (hasFlag oflag O_CREAT = false ∧ r = -1 ∧ t.errno = .ENOENT ∧
          t.fileDescriptors = s.fileDescriptors ∧ t.mountedFss = s.mountedFss ∧
          t.calls = [⟨fs, .fileExist, trimmed⟩] ++ s.calls ∨
        hasFlag oflag O_CREAT = true ∧ r ≠ -1 ∧
          ∃ new, t.calls = new ++ s.calls ∧
            (new.filter fun c => c.method = .createFile) = [⟨fs, .createFile, trimmed⟩] ∧
            (((ops fs).createFile trimmed ((ops fs).fileExist trimmed s.world).2).1 ≠ 0 →
              Session.Sized ops fs trimmed
                ((ops fs).createFile trimmed ((ops fs).fileExist trimmed s.world).2).2 →
              Yields s t pathStr r)) := by
  obtain ⟨j, new, hj, hunused, -, hopen⟩ :=
    @openFile_targeted φ ω ops s fs trimmed pathStr oflag hfile hfree htarget
  have hrejects : rejects pathStr oflag false = !hasFlag oflag O_CREAT := by
    simp [rejects, isEmpty_of_file hfile]
  have hin : InTable (j : ℤ) := ⟨by omega, by exact_mod_cast hj⟩
  have hworld : (s.claimed j new).world = s.world := rfl
  have hnot : ¬((ops fs).fileExist trimmed s.world).1 ≠ 0 := not_not.mpr hcode
  rw [hopen, openTrimmed_eq, hworld, decide_eq_false hnot]
  dsimp only
  rw [hrejects]
  cases hcreat : hasFlag oflag O_CREAT with
  | false =>
      obtain ⟨t, hfail, hcalls, herrno, hclean⟩ := @failsCleanly_claimed φ ω s
        ((s.claimed j new).asked ops fs trimmed) j new .ENOENT hunused rfl rfl Errno.noConfusion
      have hrejection : rejection oflag false = .ENOENT := by simp [rejection]
      rw [Bool.not_false, if_pos rfl, hrejection, hfail]
      exact ⟨-1, t, rfl, Or.inl ⟨rfl, rfl, herrno, hclean.table, hclean.mounts, hcalls⟩⟩
  | true =>
      rw [Bool.not_true, if_neg Bool.false_ne_true, if_neg Bool.false_ne_true]
      by_cases hcreate :
          ((ops fs).createFile trimmed ((ops fs).fileExist trimmed s.world).2).1 = 0
      · rw [if_pos hcreate]
        refine ⟨_, _, rfl, Or.inr ⟨rfl, by decide,
          [⟨fs, .createFile, trimmed⟩, ⟨fs, .fileExist, trimmed⟩], rfl, by simp, ?_⟩⟩
        exact fun hne => absurd hcreate hne
      · rw [if_neg hcreate, openExisting_eq]
        refine ⟨_, _, rfl, Or.inr ⟨rfl, ?_, [⟨fs, .getFileSize, trimmed⟩,
          ⟨fs, .createFile, trimmed⟩, ⟨fs, .fileExist, trimmed⟩], rfl, by simp, ?_⟩⟩
        · split <;> omega
        · intro _ hsized
          have hsize : ¬((ops fs).getFileSize trimmed
              ((s.claimed j new).created ops fs trimmed).world).1 = 0 := hsized
          rw [if_neg hsize]
          exact yields_sized hin hunused rfl

section Single

variable (hcontract : FollowsContract (ops m.fs) present)
  (htarget : target s.mountedFss (Path.ofString pathStr) =
    some (m.fs, m.remainder (Path.ofString pathStr)))
  (hfile : (Path.ofString pathStr).folder = false) (hfree : s.HasFree)
include hcontract htarget hfile hfree

theorem decidesExistence_told
    (hcode : ((ops m.fs).fileExist (m.remainder (Path.ofString pathStr)) s.world).1 ≠ 0) :
    DecidesExistence ops present s m pathStr oflag ↔
      present s.world (m.remainder (Path.ofString pathStr)) := by
  obtain ⟨r, t, hopen, hcases⟩ :=
    @openFile_told φ ω ops s m.fs _ pathStr oflag hfile hfree htarget hcode
  constructor
  · rintro ⟨r', t', new, hopen', hnew, habsent, -⟩
    rw [hopen] at hopen'
    cases hopen'
    by_contra hpresent
    have hright := habsent hpresent
    cases hcreat : hasFlag oflag O_CREAT with
    | false =>
        have hexcl : exclusive oflag = false := by rw [exclusive, hcreat, Bool.false_and]
        rcases hcases with ⟨htrue, -⟩ | ⟨-, hr, -⟩
        · rw [hexcl] at htrue
          cases htrue
        · exact hr (hright.kept hcreat).1
    | true =>
        have hfilter := (hright.created hcreat).1
        rcases hcases with ⟨-, -, -, hcalls⟩ | ⟨-, -, hcalls, -⟩
        all_goals
          rw [hcalls] at hnew
          rw [← List.append_cancel_right hnew] at hfilter
          simp at hfilter
  · intro hpresent
    have hstill := (hcontract.asking s.world (m.remainder (Path.ofString pathStr))
      (m.remainder (Path.ofString pathStr))).mpr hpresent
    have hsized := hcontract.sized _ _ hstill
    rcases hcases with ⟨hexcl, hr, herrno, hcalls⟩ | ⟨hexcl, -, hcalls, hyields⟩
    · refine ⟨r, t, _, hopen, hcalls, fun habsent => absurd hpresent habsent, fun _ => ?_⟩
      refine ⟨fun _ => ⟨hr, herrno⟩, fun hfalse => ?_⟩
      rw [hexcl] at hfalse
      cases hfalse
    · refine ⟨r, t, _, hopen, hcalls, fun habsent => absurd hpresent habsent, fun _ => ?_⟩
      refine ⟨fun htrue => ?_, fun _ => ⟨hyields hsized, by simp⟩⟩
      rw [hexcl] at htrue
      cases htrue

theorem decidesExistence_untold
    (hcode : ((ops m.fs).fileExist (m.remainder (Path.ofString pathStr)) s.world).1 = 0) :
    DecidesExistence ops present s m pathStr oflag ↔
      ¬present s.world (m.remainder (Path.ofString pathStr)) := by
  obtain ⟨r, t, hopen, hcases⟩ :=
    @openFile_untold φ ω ops s m.fs _ pathStr oflag hfile hfree htarget hcode
  constructor
  · rintro ⟨r', t', new, hopen', hnew, -, hexists⟩ hpresent
    rw [hopen] at hopen'
    cases hopen'
    have hright := hexists hpresent
    rcases hcases with ⟨hcreat, hr, -⟩ | ⟨-, hr, new', hcalls, hfilter, -⟩
    · have hexcl : exclusive oflag = false := by rw [exclusive, hcreat, Bool.false_and]
      have hlower := (hright.opened hexcl).1.inTable.1
      omega
    · cases hexcl : exclusive oflag with
      | true => exact hr (hright.excluded hexcl).1
      | false =>
          have hnone := (hright.opened hexcl).2
          rw [hcalls] at hnew
          rw [← List.append_cancel_right hnew, hfilter] at hnone
          cases hnone
  · intro habsent
    rcases hcases with
      ⟨hcreat, hr, herrno, htable, hmounts, hcalls⟩ | ⟨hcreat, -, new, hcalls, hfilter, hyields⟩
    · refine ⟨r, t, _, hopen, hcalls, fun _ => ?_, fun hpresent => absurd hpresent habsent⟩
      refine ⟨fun _ => ⟨hr, herrno, htable, hmounts, rfl⟩, fun htrue => ?_⟩
      rw [hcreat] at htrue
      cases htrue
    · refine ⟨r, t, new, hopen, hcalls, fun _ => ?_, fun hpresent => absurd hpresent habsent⟩
      refine ⟨fun hfalse => ?_, fun _ => ⟨hfilter, fun hcreate => hyields hcreate ?_⟩⟩
      · rw [hcreat] at hfalse
        cases hfalse
      · exact hcontract.sized _ _ (hcontract.create _ _ hcreate)

end Single

theorem decidesExistence_iff (hcontract : FollowsContract (ops m.fs) present)
    (hmounts : s.mountedFss = [m]) (hfolder : m.mountPath.folder = true)
    (hholds : m.Holds (Path.ofString pathStr)) (hfile : (Path.ofString pathStr).folder = false)
    (hfree : s.HasFree) : DecidesExistence ops present s m pathStr oflag ↔
      (((ops m.fs).fileExist (m.remainder (Path.ofString pathStr)) s.world).1 ≠ 0 ↔
        present s.world (m.remainder (Path.ofString pathStr))) := by
  have htarget : target s.mountedFss (Path.ofString pathStr) =
      some (m.fs, m.remainder (Path.ofString pathStr)) := by
    rw [hmounts, target_single hfolder hholds]
  by_cases hcode :
      ((ops m.fs).fileExist (m.remainder (Path.ofString pathStr)) s.world).1 = 0
  · rw [decidesExistence_untold hcontract htarget hfile hfree hcode]
    simp [hcode]
  · rw [decidesExistence_told hcontract htarget hfile hfree hcode]
    simp [hcode]

/-! ### A file system with one file -/

theorem followsContract_memory : FollowsContract memoryFs fun _ path => path = memoryPath where
  exist := by
    intro w path
    by_cases hpath : path = memoryPath
    · exact Or.inl ⟨by simp [memoryFs, hpath, FS_FILE_EXIST], hpath⟩
    · exact Or.inr (Or.inl ⟨by simp [memoryFs, hpath, FS_FILE_N_EXISTS], hpath⟩)
  asking := fun _ _ _ => Iff.rfl
  create := fun _ _ h => absurd rfl h
  sized := by
    rintro w path rfl
    exact one_ne_zero

def memoryMount : MountedFS Unit := ⟨⟨true, []⟩, ()⟩

theorem hasFree_memory : memoryVfs.HasFree := ⟨3, by decide, rfl⟩

theorem decidesExistence_iff_memory :
    DecidesExistence (fun _ => memoryFs) (fun _ path => path = memoryPath) memoryVfs memoryMount
        ['/', 'a'] O_RDWR ↔
      ((memoryFs.fileExist (memoryMount.remainder (Path.ofString ['/', 'a']))
          memoryVfs.world).1 ≠ 0 ↔
        memoryMount.remainder (Path.ofString ['/', 'a']) = memoryPath) :=
  @decidesExistence_iff Unit (ℕ → UInt8) (fun _ => memoryFs) _ memoryVfs ['/', 'a'] O_RDWR
    memoryMount followsContract_memory rfl rfl (by decide) (by decide) hasFree_memory

/-- A file that does not exist is opened, and the size cannot be told. -/
theorem not_decidesExistence : ¬∀ (s : VFS Unit (ℕ → UInt8)) m pathStr oflag,
    s.mountedFss = [m] → m.mountPath.folder = true → m.Holds (Path.ofString pathStr) →
    (Path.ofString pathStr).folder = false → s.HasFree →
      DecidesExistence (fun _ => memoryFs) (fun _ path => path = memoryPath) s m pathStr oflag := by
  intro h
  obtain ⟨r, t, new, hopen, -, habsent, -⟩ := h memoryVfs memoryMount ['/', 'b'] O_RDONLY rfl rfl
    (by decide) (by decide) hasFree_memory
  have hzero : (memoryVfs.openFile (fun _ => memoryFs) ['/', 'b'] O_RDONLY).map Prod.fst =
      some 0 := by decide +kernel
  rw [hopen, Option.map_some] at hzero
  have hkept := (habsent (by decide)).kept (by decide)
  have hr := Option.some.inj hzero
  dsimp only at hr
  omega

end VFS

end AviKernel
