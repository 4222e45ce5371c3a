import AviKernel.Fs.FileIo
import AviKernel.Fs.MountTable

/-!
# Opening a file

Open asks the file system whether the file exists, creates it if it is told that
it does not, and asks for the size.  The two exits for a file system that does
not create or size the file return the value of `false`, with the descriptor in
use.
-/

namespace AviKernel

variable {φ ω : Type} {ops : φ → FS ω}

/-! ### What the file system answers -/

namespace Session

/-- The file exists, or is created, and has a size. -/
def Served (ops : φ → FS ω) (fs : φ) (trimmed : Path) (world : ω) : Prop :=
  let asked := (ops fs).fileExist trimmed world
  let created := (ops fs).createFile trimmed asked.2
  asked.1 ≠ 0 ∧ Sized ops fs trimmed asked.2 ∨
    asked.1 = 0 ∧ created.1 ≠ 0 ∧ Sized ops fs trimmed created.2

instance (fs : φ) (trimmed : Path) (world : ω) : Decidable (Served ops fs trimmed world) :=
  inferInstanceAs (Decidable (_ ≠ 0 ∧ Sized _ _ _ _ ∨ _ = 0 ∧ _ ≠ 0 ∧ Sized _ _ _ _))

end Session

namespace VFS

variable {s t : VFS φ ω} {fs : φ} {path trimmed : Path} {pathStr : List Char} {oflag : ℕ}
  {desct r : ℤ} {m : MountedFS φ}

/-! ### The exits of open -/

theorem exitErrCleanup_of_inUse {e : Errno} (h : (s.fileDescriptors desct).inUse = true) :
    s.exitErrCleanup desct e = some (-1,
      ((s.setErrno e).access desct).modify desct fun d => { d with inUse := false }) := by
  have hfree : (s.setErrno e).freeDescriptor desct = some (((s.setErrno e).access desct).modify desct
      fun d => { d with inUse := false }) := freeDescriptor_of_inUse h
  rw [exitErrCleanup, hfree]
  rfl

theorem openFile_folder (h : (Path.ofString pathStr).folder = true) :
    s.openFile ops pathStr oflag = some (-1, s.setErrno .EISDIR) := if_pos h

theorem findUnused_first {i n k : ℕ} (hle : i ≤ k) (hk : (k : ℤ) < (s.findUnused i n).1) :
    (s.fileDescriptors k).inUse = true := by
  induction n generalizing s i with
  | zero =>
      rw [findUnused] at hk
      omega
  | succ n ih =>
      rw [findUnused] at hk
      split at hk
      · rename_i huse
        rcases Nat.eq_or_lt_of_le hle with rfl | hlt
        · exact huse
        · exact ih (s := s.access i) hlt hk
      · dsimp only at hk
        omega

theorem openFile_claimed (h : (Path.ofString pathStr).folder = false) (hfree : s.HasFree) :
    ∃ (j : ℕ) (new : List ℤ), j < VFS_OPEN_FILES_MAX ∧ (s.fileDescriptors j).inUse = false ∧
      (∀ k < j, (s.fileDescriptors k).inUse = true) ∧
      s.openFile ops pathStr oflag =
        (getMountedFs s.mountedFss (Path.ofString pathStr)).bind fun
          | none => (s.claimed j new).exitErrCleanup j .ENOENT
          | some m => (trimmedPath (Path.ofString pathStr) m).bind fun trimmed =>
              (s.claimed j new).openTrimmed ops j m.fs (Path.ofString pathStr) trimmed pathStr
                oflag := by
  obtain ⟨d, new, halloc, -, ⟨rfl, hfull⟩ | ⟨j, rfl, hj, hunused⟩⟩ := allocateDescriptor_cases s
  · exact absurd hfree hfull
  · refine ⟨j, new, hj, hunused, fun k hk => ?_, ?_⟩
    · have hd : (s.findUnused 0 VFS_OPEN_FILES_MAX).1 = j := congrArg Prod.fst halloc
      refine findUnused_first (n := VFS_OPEN_FILES_MAX) (Nat.zero_le k) ?_
      rw [hd]
      exact_mod_cast hk
    · have hne : (j : ℤ) ≠ -1 := by omega
      have hmounts : (s.claimed j new).mountedFss = s.mountedFss := rfl
      unfold openFile
      rw [halloc]
      dsimp only
      rw [Path.isFolder, h, if_neg Bool.false_ne_true, if_neg hne, hmounts]
      rfl

/-! ### What open does once it has a file system -/

section Trimmed

variable (s)

/-- The state after the file system was asked whether the file exists. -/
def asked (ops : φ → FS ω) (fs : φ) (trimmed : Path) : VFS φ ω :=
  (s.callFileExist ops fs trimmed).2

/-- The state after it was asked to create the file, too. -/
def created (ops : φ → FS ω) (fs : φ) (trimmed : Path) : VFS φ ω :=
  ((s.asked ops fs trimmed).callCreateFile ops fs trimmed).2

/-- The state after it was asked for the size. -/
def sized (ops : φ → FS ω) (fs : φ) (path trimmed : Path) (oflag : ℕ) (desct : ℤ) : VFS φ ω :=
  ((s.modify desct (fillDescriptor path oflag)).callGetFileSize ops fs trimmed desct).2

end Trimmed

theorem openExisting_eq : s.openExisting ops desct fs path trimmed oflag =
    (if ((ops fs).getFileSize trimmed s.world).1 = 0 then 0 else desct,
      s.sized ops fs path trimmed oflag desct) := by
  have hcode : ((s.modify desct (fillDescriptor path oflag)).callGetFileSize ops fs trimmed desct).1 =
      ((ops fs).getFileSize trimmed s.world).1 := rfl
  unfold openExisting sized
  dsimp only
  rw [hcode]
  split <;> rfl

/-- The value of errno for a rejected file. -/
def rejection (oflag : ℕ) (exists' : Bool) : Errno :=
  if hasFlag oflag O_CREAT && hasFlag oflag O_EXCL && exists' then .EEXIST else .ENOENT

theorem openTrimmed_eq : s.openTrimmed ops desct fs path trimmed pathStr oflag =
    let exists' : Bool := ((ops fs).fileExist trimmed s.world).1 ≠ 0
    if rejects pathStr oflag exists' then
      (s.asked ops fs trimmed).exitErrCleanup desct (rejection oflag exists')
    else if exists' then some ((s.asked ops fs trimmed).openExisting ops desct fs path trimmed oflag)
    else if ((ops fs).createFile trimmed ((ops fs).fileExist trimmed s.world).2).1 = 0 then
      some (0, s.created ops fs trimmed)
    else some ((s.created ops fs trimmed).openExisting ops desct fs path trimmed oflag) := by
  have hask : (s.callFileExist ops fs trimmed).1 =
      decide (((ops fs).fileExist trimmed s.world).1 ≠ 0) := rfl
  have hcreate : ((s.asked ops fs trimmed).callCreateFile ops fs trimmed).1 =
      ((ops fs).createFile trimmed ((ops fs).fileExist trimmed s.world).2).1 := rfl
  unfold openTrimmed rejects rejection
  dsimp only
  rw [hask, ← asked, hcreate, ← created]
  generalize decide (((ops fs).fileExist trimmed s.world).1 ≠ 0) = exists'
  cases hasFlag oflag O_CREAT <;> cases hasFlag oflag O_EXCL <;> cases exists' <;>
    cases pathStr.isEmpty <;> simp [O_CREAT]

/-! ### What a call of open leaves -/

/-- Open failed, said so, and left the table as it was. -/
structure FailsCleanly (s t : VFS φ ω) (r : ℤ) : Prop where
  returned : r = -1
  errno : t.errno ≠ .none
  table : t.fileDescriptors = s.fileDescriptors
  mounts : t.mountedFss = s.mountedFss

/-- The reserved descriptors are in use. -/
def Reserved (s : VFS φ ω) : Prop := ∀ i : ℕ, i ≤ 2 → (s.fileDescriptors i).inUse = true

variable {u : VFS φ ω} {i : ℤ} {new : List ℤ} {e : Errno}

/-- Giving up after the descriptor was claimed. -/
theorem failsCleanly_claimed (hunused : (s.fileDescriptors i).inUse = false)
    (hu : u.fileDescriptors = (s.claimed i new).fileDescriptors)
    (hmounts : u.mountedFss = s.mountedFss) (he : e ≠ .none) :
    ∃ t, u.exitErrCleanup i e = some (-1, t) ∧ t.calls = u.calls ∧ t.errno = e ∧
      FailsCleanly s t (-1) := by
  have huse : (u.fileDescriptors i).inUse = true := by
    rw [hu, claimed, modify_self]
  refine ⟨_, exitErrCleanup_of_inUse huse, rfl, rfl, rfl, he, ?_, hmounts⟩
  exact free_claimed (u := (u.setErrno e).access i) hunused hu

theorem sized_self : (u.sized ops fs path trimmed oflag i).fileDescriptors i =
    { fillDescriptor path oflag (u.fileDescriptors i) with
      size := ((ops fs).getFileSize trimmed u.world).2.1.getD (u.fileDescriptors i).size } := by
  rw [sized, callGetFileSize_self, modify_self]
  rfl

theorem sized_of_ne {j : ℤ} (h : j ≠ i) :
    (u.sized ops fs path trimmed oflag i).fileDescriptors j = u.fileDescriptors j := by
  rw [sized, callGetFileSize_of_ne h, modify_of_ne h]

/-- The state in which the file system is asked for the size. -/
def beforeSize (ops : φ → FS ω) (s : VFS φ ω) (fs : φ) (trimmed : Path) : VFS φ ω :=
  if ((ops fs).fileExist trimmed s.world).1 ≠ 0 then s.asked ops fs trimmed
  else s.created ops fs trimmed

theorem beforeSize_table :
    (beforeSize ops s fs trimmed).fileDescriptors = s.fileDescriptors := by
  unfold beforeSize
  split <;> rfl

theorem beforeSize_mounts : (beforeSize ops s fs trimmed).mountedFss = s.mountedFss := by
  unfold beforeSize
  split <;> rfl

theorem beforeSize_sized (h : Session.Served ops fs trimmed s.world) :
    Session.Sized ops fs trimmed (beforeSize ops s fs trimmed).world := by
  unfold beforeSize
  rcases h with ⟨hexist, hsized⟩ | ⟨hexist, -, hsized⟩
  · rw [if_pos hexist]
    exact hsized
  · rw [if_neg (not_not.mpr hexist)]
    exact hsized

/-- The descriptor is filled if the file system does what is asked of it. -/
theorem openTrimmed_served
    (hrejects : rejects pathStr oflag (((ops fs).fileExist trimmed s.world).1 ≠ 0) = false)
    (h : Session.Served ops fs trimmed s.world) :
    s.openTrimmed ops desct fs path trimmed pathStr oflag =
      some (desct, (beforeSize ops s fs trimmed).sized ops fs path trimmed oflag desct) := by
  have hsized := beforeSize_sized h
  rw [openTrimmed_eq]
  dsimp only
  rw [hrejects, if_neg Bool.false_ne_true]
  unfold beforeSize at hsized ⊢
  rcases h with ⟨hexist, -⟩ | ⟨hexist, hcreate, -⟩
  · rw [if_pos hexist] at hsized ⊢
    rw [decide_eq_true hexist, if_pos rfl, openExisting_eq, if_neg hsized]
  · have hnot := not_not.mpr hexist
    rw [if_neg hnot] at hsized ⊢
    rw [decide_eq_false hnot, if_neg Bool.false_ne_true, if_neg hcreate, openExisting_eq,
      if_neg hsized]

/-- What open makes of a free descriptor and a file. -/
theorem openFile_targeted (h : (Path.ofString pathStr).folder = false) (hfree : s.HasFree)
    (htarget : target s.mountedFss (Path.ofString pathStr) = some (fs, trimmed)) :
    ∃ (j : ℕ) (new : List ℤ), j < VFS_OPEN_FILES_MAX ∧ (s.fileDescriptors j).inUse = false ∧
      (∀ k < j, (s.fileDescriptors k).inUse = true) ∧
      s.openFile ops pathStr oflag =
        (s.claimed j new).openTrimmed ops j fs (Path.ofString pathStr) trimmed pathStr oflag := by
  obtain ⟨j, new, hj, hunused, hfirst, hopen⟩ := @openFile_claimed φ ω ops s pathStr oflag h hfree
  obtain ⟨m, hget, rfl, htrim⟩ := target_eq_some_iff.mp htarget
  refine ⟨j, new, hj, hunused, hfirst, ?_⟩
  rw [hopen, hget, Option.bind_some]
  dsimp only
  rw [htrim, Option.bind_some]

/-- A fresh layer with one file system at the root. -/
def rootedVfs : VFS ℕ Unit :=
  { VFS.new (fun _ => Session.blankDesc) .none () with mountedFss := [mountAt ['/'] 0] }

end VFS

end AviKernel
