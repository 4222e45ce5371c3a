import AviKernel.Fs.Vfs

/-!
# What each call of the file-systems layer does

One lemma for each function lists its outcomes, with the states they leave.
-/

namespace AviKernel

namespace VFS

variable {φ ω : Type} {s t : VFS φ ω} {ops : φ → FS ω} {desct fildes : ℤ} {fs : φ}
  {path trimmed : Path} {pathStr : List Char} {oflag nbyte offset : ℕ} {r : ℤ}
  {buf buf' : Buffer} {operation : VfsOperation} {code : ℕ} {e : Errno} {i n : ℕ}

/-! ### Descriptors -/

/-- The indices are those of the table. -/
def InTable (i : ℤ) : Prop := 0 ≤ i ∧ i < VFS_OPEN_FILES_MAX

/-- Some descriptor is not in use. -/
def HasFree (s : VFS φ ω) : Prop :=
  ∃ j : ℕ, j < VFS_OPEN_FILES_MAX ∧ (s.fileDescriptors j).inUse = false

theorem findUnused_cases (s : VFS φ ω) (i n : ℕ) :
    ∃ d new, s.findUnused i n = (d, { s with accesses := new ++ s.accesses }) ∧
      (∀ a ∈ new, (i : ℤ) ≤ a ∧ a < i + n) ∧
      (d = -1 ∧ (∀ j : ℕ, i ≤ j → j < i + n → (s.fileDescriptors j).inUse = true) ∨
        ∃ j : ℕ, d = j ∧ i ≤ j ∧ j < i + n ∧ (s.fileDescriptors j).inUse = false) := by
  induction n generalizing s i with
  | zero =>
      refine ⟨-1, [], rfl, by simp, Or.inl ⟨rfl, fun j hi hj => ?_⟩⟩
      omega
  | succ n ih =>
      by_cases huse : (s.fileDescriptors i).inUse = true
      · obtain ⟨d, new, hfind, hnew, hd⟩ := ih (s.access i) (i + 1)
        refine ⟨d, new ++ [(i : ℤ)], ?_, ?_, ?_⟩
        · rw [findUnused, if_pos huse, hfind]
          simp [access]
        · intro a ha
          rcases List.mem_append.mp ha with ha | ha
          · have hbounds := hnew a ha
            omega
          · have hai := List.mem_singleton.mp ha
            omega
        · rcases hd with ⟨hd, hall⟩ | ⟨j, hd, hi, hj, hfree⟩
          · refine Or.inl ⟨hd, fun j hi hj => ?_⟩
            rcases Nat.eq_or_lt_of_le hi with rfl | hlt
            · exact huse
            · exact hall j hlt (by omega)
          · exact Or.inr ⟨j, hd, by omega, by omega, hfree⟩
      · refine ⟨i, [(i : ℤ)], ?_, ?_, Or.inr ⟨i, rfl, le_refl _, by omega, by simpa using huse⟩⟩
        · rw [findUnused, if_neg huse]
          rfl
        · intro a ha
          have hai := List.mem_singleton.mp ha
          omega

/-- The state after a descriptor was claimed. -/
def claimed (s : VFS φ ω) (desct : ℤ) (new : List ℤ) : VFS φ ω :=
  ({ s with accesses := new ++ s.accesses }).modify desct fun d => { d with inUse := true }

theorem allocateDescriptor_cases (s : VFS φ ω) :
    ∃ d new, s.allocateDescriptor = (d, s.claimed d new) ∧ (∀ a ∈ new, InTable a) ∧
      (d = -1 ∧ ¬s.HasFree ∨
        ∃ j : ℕ, d = j ∧ j < VFS_OPEN_FILES_MAX ∧ (s.fileDescriptors j).inUse = false) := by
  obtain ⟨d, new, hfind, hnew, hd⟩ := findUnused_cases s 0 VFS_OPEN_FILES_MAX
  refine ⟨d, new, ?_, fun a ha => ?_, ?_⟩
  · rw [allocateDescriptor, hfind]
    rfl
  · have hbounds := hnew a ha
    constructor <;> omega
  · rcases hd with ⟨hd, hall⟩ | ⟨j, hd, -, hj, hfree⟩
    · refine Or.inl ⟨hd, fun ⟨j, hj, hfree⟩ => ?_⟩
      rw [hall j (Nat.zero_le j) (by omega)] at hfree
      cases hfree
    · exact Or.inr ⟨j, hd, by omega, hfree⟩

theorem isLegalDescriptor_of_ge (h : desct ≥ VFS_OPEN_FILES_MAX) :
    s.isLegalDescriptor desct = (false, s) := if_pos h

theorem isLegalDescriptor_of_lt (h : ¬desct ≥ VFS_OPEN_FILES_MAX) :
    s.isLegalDescriptor desct = ((s.fileDescriptors desct).inUse, s.access desct) := if_neg h

theorem freeDescriptor_of_inUse (h : (s.fileDescriptors desct).inUse = true) :
    s.freeDescriptor desct =
      some ((s.access desct).modify desct fun d => { d with inUse := false }) := by
  simp [freeDescriptor, h]

theorem freeDescriptor_eq_some (h : s.freeDescriptor desct = some t) :
    t = (s.access desct).modify desct fun d => { d with inUse := false } := by
  unfold freeDescriptor at h
  split at h
  · cases h
  · exact (Option.some.inj h).symm

/-! ### Opening and closing -/

theorem exitErrCleanup_eq_some (h : s.exitErrCleanup desct e = some (r, t)) :
    r = -1 ∧ t = ((s.setErrno e).access desct).modify desct fun d => { d with inUse := false } := by
  unfold exitErrCleanup at h
  obtain ⟨u, hu, heq⟩ := Option.map_eq_some_iff.mp h
  cases heq
  exact ⟨rfl, freeDescriptor_eq_some hu⟩

/-- Does open give up once it knows whether the file exists? -/
def rejects (pathStr : List Char) (oflag : ℕ) (exists' : Bool) : Bool :=
  hasFlag oflag O_CREAT && hasFlag oflag O_EXCL && exists' ||
    (!hasFlag oflag O_CREAT && !exists' || pathStr.isEmpty)

/-- The state in which open asks for the size: the file existed, or was created. -/
theorem openTrimmed_cases
    (h : s.openTrimmed ops desct fs path trimmed pathStr oflag = some (r, t)) :
    ∃ exists' u, s.callFileExist ops fs trimmed = (exists', u) ∧
      ((rejects pathStr oflag exists' = true ∧ ∃ e, u.exitErrCleanup desct e = some (r, t)) ∨
        (rejects pathStr oflag exists' = false ∧ exists' = false ∧
          ∃ code v, u.callCreateFile ops fs trimmed = (code, v) ∧
            (code = 0 ∧ r = 0 ∧ t = v ∨
              code ≠ 0 ∧ (r, t) = v.openExisting ops desct fs path trimmed oflag)) ∨
        (rejects pathStr oflag exists' = false ∧ exists' = true ∧
          (r, t) = u.openExisting ops desct fs path trimmed oflag)) := by
  unfold openTrimmed at h
  cases hexist : s.callFileExist ops fs trimmed with
  | mk exists' u =>
      refine ⟨exists', u, rfl, ?_⟩
      rw [hexist] at h
      dsimp only at h
      split at h
      · rename_i hexcl
        exact Or.inl ⟨by rw [rejects, hexcl, Bool.true_or], .EEXIST, h⟩
      · rename_i hexcl
        split at h
        · rename_i hnoent
          exact Or.inl ⟨by rw [rejects, hnoent, Bool.or_true], .ENOENT, h⟩
        · rename_i hnoent
          have hrejects : rejects pathStr oflag exists' = false := by
            rw [rejects, Bool.eq_false_iff.mpr hexcl, Bool.eq_false_iff.mpr hnoent, Bool.or_false]
          cases exists' with
          | true => exact Or.inr (Or.inr ⟨hrejects, rfl, (Option.some.inj h).symm⟩)
          | false =>
              refine Or.inr (Or.inl ⟨hrejects, rfl, ?_⟩)
              cases hcreate : u.callCreateFile ops fs trimmed with
              | mk code v =>
                  refine ⟨code, v, rfl, ?_⟩
                  rw [hcreate] at h
                  have hflag : (O_CREAT ≠ 0 && !false) = true := rfl
                  rw [if_pos hflag] at h
                  dsimp only at h
                  split at h
                  · rename_i hcode
                    cases h
                    exact Or.inl ⟨hcode, rfl, rfl⟩
                  · rename_i hcode
                    exact Or.inr ⟨hcode, (Option.some.inj h).symm⟩

theorem openExisting_cases (h : (r, t) = s.openExisting ops desct fs path trimmed oflag) :
    ∃ code, (s.modify desct (fillDescriptor path oflag)).callGetFileSize ops fs trimmed desct =
        (code, t) ∧ r = if code = 0 then 0 else desct := by
  unfold openExisting at h
  cases hsize : (s.modify desct (fillDescriptor path oflag)).callGetFileSize ops fs trimmed desct with
  | mk code u =>
      rw [hsize] at h
      dsimp only at h
      by_cases hcode : code = 0
      · rw [if_pos hcode] at h
        cases h
        exact ⟨code, rfl, by rw [if_pos hcode]⟩
      · rw [if_neg hcode] at h
        cases h
        exact ⟨code, rfl, by rw [if_neg hcode]⟩

theorem openFile_cases (h : s.openFile ops pathStr oflag = some (r, t)) :
    ((Path.ofString pathStr).folder = true ∧ r = -1 ∧ t = s.setErrno .EISDIR) ∨
      ((Path.ofString pathStr).folder = false ∧ ∃ new, (∀ a ∈ new, InTable a) ∧
        ((¬s.HasFree ∧ r = -1 ∧ t = (s.claimed (-1) new).setErrno .EMFILE) ∨
          ∃ j : ℕ, j < VFS_OPEN_FILES_MAX ∧ (s.fileDescriptors j).inUse = false ∧
            ((getMountedFs s.mountedFss (Path.ofString pathStr) = some none ∧
                (s.claimed j new).exitErrCleanup j .ENOENT = some (r, t)) ∨
              ∃ m trimmed, getMountedFs s.mountedFss (Path.ofString pathStr) = some (some m) ∧
                trimmedPath (Path.ofString pathStr) m = some trimmed ∧
                (s.claimed j new).openTrimmed ops j m.fs (Path.ofString pathStr) trimmed pathStr
                  oflag = some (r, t)))) := by
  unfold openFile at h
  dsimp only at h
  split at h
  · rename_i hfolder
    cases h
    exact Or.inl ⟨hfolder, rfl, rfl⟩
  · rename_i hfolder
    refine Or.inr ⟨Bool.eq_false_iff.mpr hfolder, ?_⟩
    obtain ⟨d, new, halloc, hnew, hd⟩ := allocateDescriptor_cases s
    refine ⟨new, hnew, ?_⟩
    rw [halloc] at h
    dsimp only at h
    rcases hd with ⟨rfl, hfull⟩ | ⟨j, rfl, hj, hfree⟩
    · rw [if_pos rfl] at h
      cases h
      exact Or.inl ⟨hfull, rfl, rfl⟩
    · have hne : (j : ℤ) ≠ -1 := by omega
      rw [if_neg hne] at h
      refine Or.inr ⟨j, hj, hfree, ?_⟩
      have hmounts : (s.claimed j new).mountedFss = s.mountedFss := rfl
      rw [hmounts] at h
      cases hget : getMountedFs s.mountedFss (Path.ofString pathStr) with
      | none =>
          rw [hget] at h
          cases h
      | some found =>
          rw [hget] at h
          cases found with
          | none => exact Or.inl ⟨rfl, h⟩
          | some m =>
              cases htrim : trimmedPath (Path.ofString pathStr) m with
              | none =>
                  simp [htrim] at h
              | some trimmed =>
                  refine Or.inr ⟨m, trimmed, rfl, htrim, ?_⟩
                  simpa [htrim] using h

theorem close_cases (h : s.close fildes = some (r, t)) :
    (fildes ≥ VFS_OPEN_FILES_MAX ∧ r = -1 ∧ t = s.setErrno .EBADF) ∨
      (fildes < VFS_OPEN_FILES_MAX ∧
        ((s.fileDescriptors fildes).inUse = false ∧ r = -1 ∧
            t = (s.access fildes).setErrno .EBADF ∨
          (s.fileDescriptors fildes).inUse = true ∧ r = 0 ∧
            t = ((s.access fildes).access fildes).modify fildes
              fun d => { d with inUse := false })) := by
  unfold close at h
  by_cases hge : fildes ≥ VFS_OPEN_FILES_MAX
  · rw [isLegalDescriptor_of_ge hge] at h
    cases h
    exact Or.inl ⟨hge, rfl, rfl⟩
  · rw [isLegalDescriptor_of_lt hge] at h
    refine Or.inr ⟨not_le.mp hge, ?_⟩
    cases huse : (s.fileDescriptors fildes).inUse with
    | false =>
        simp only [huse] at h
        cases h
        exact Or.inl ⟨rfl, rfl, rfl⟩
    | true =>
        simp only [huse] at h
        have hfree := freeDescriptor_of_inUse (s := s.access fildes) huse
        rw [hfree] at h
        cases h
        exact Or.inr ⟨rfl, rfl, rfl⟩

/-! ### Reading and writing -/

/-- The checks that a call passes before it gets to a file system. -/
structure Passes (s : VFS φ ω) (desct : ℤ) (nbyte offset : ℕ) (operation : VfsOperation) : Prop where
  nonempty : nbyte ≠ 0
  lt : desct < VFS_OPEN_FILES_MAX
  inUse : (s.fileDescriptors desct).inUse = true
  readable : operation = .read → (s.fileDescriptors desct).read = true
  writable : operation = .write → (s.fileDescriptors desct).write = true
  fits : operation = .read →
    add64 (s.actualOffset desct offset) nbyte ≤ (s.fileDescriptors desct).size

theorem io_cases (h : s.io ops desct buf nbyte offset operation = some (code, buf', t)) :
    (code = 0 ∧ buf' = buf ∧ ∃ e new, t = { s with errno := e, accesses := new ++ s.accesses } ∧
        ∀ a ∈ new, a = desct ∧ desct < VFS_OPEN_FILES_MAX ∧ nbyte ≠ 0) ∨
      (s.Passes desct nbyte offset operation ∧
        ∃ m trimmed, getMountedFs s.mountedFss (s.fileDescriptors desct).filePath = some (some m) ∧
          trimmedPath (s.fileDescriptors desct).filePath m = some trimmed ∧
          (code, buf', t) = ((s.access desct).access desct).ioTransfer ops desct m.fs trimmed buf
            nbyte (s.actualOffset desct offset) operation) := by
  unfold io at h
  split at h
  · cases h
    exact Or.inl ⟨rfl, rfl, s.errno, [], rfl, by simp⟩
  · rename_i hnbyte
    by_cases hge : desct ≥ VFS_OPEN_FILES_MAX
    · rw [isLegalDescriptor_of_ge hge] at h
      cases h
      exact Or.inl ⟨rfl, rfl, .EBADF, [], rfl, by simp⟩
    · have hlt : desct < VFS_OPEN_FILES_MAX := not_le.mp hge
      have hall : ∀ new : List ℤ, (∀ a ∈ new, a = desct) →
          ∀ a ∈ new, a = desct ∧ desct < VFS_OPEN_FILES_MAX ∧ nbyte ≠ 0 :=
        fun new hnew a ha => ⟨hnew a ha, hlt, hnbyte⟩
      have hoff : ((s.access desct).access desct).actualOffset desct offset =
          s.actualOffset desct offset := rfl
      rw [isLegalDescriptor_of_lt hge] at h
      simp only [access_fileDescriptors, access_mountedFss, hoff] at h
      split at h
      · cases h
        exact Or.inl ⟨rfl, rfl, .EBADF, [desct], rfl, hall _ (by simp)⟩
      · rename_i huse
        split at h
        · cases h
          exact Or.inl ⟨rfl, rfl, .EBADF, [desct, desct], rfl, hall _ (by simp)⟩
        · rename_i hperm
          split at h
          · cases h
            exact Or.inl ⟨rfl, rfl, .EOVERFLOW, [desct, desct], rfl, hall _ (by simp)⟩
          · rename_i hover
            have hpasses : s.Passes desct nbyte offset operation := by
              simp only [Bool.or_eq_true, Bool.and_eq_true, decide_eq_true_eq, not_or, not_and,
                Bool.not_eq_false, Bool.not_eq_eq_eq_not, Bool.not_true]
                at huse hperm hover
              exact ⟨hnbyte, hlt, huse, hperm.1, hperm.2, fun hop => not_lt.mp (hover hop)⟩
            refine Or.inr ⟨hpasses, ?_⟩
            cases hget : getMountedFs s.mountedFss (s.fileDescriptors desct).filePath with
            | none =>
                rw [hget] at h
                cases h
            | some found =>
                rw [hget] at h
                cases found with
                | none => cases h
                | some m =>
                    cases htrim : trimmedPath (s.fileDescriptors desct).filePath m with
                    | none => simp [htrim] at h
                    | some trimmed =>
                        refine ⟨m, trimmed, rfl, htrim, ?_⟩
                        rw [Option.bind_eq_bind, Option.bind_some] at h
                        dsimp only at h
                        rw [htrim] at h
                        exact (Option.some.inj h).symm

/-- A call that fails a check. -/
theorem io_of_not_passes (h : ¬s.Passes desct nbyte offset operation) : ∃ e new,
    s.io ops desct buf nbyte offset operation =
        some (0, buf, { s with errno := e, accesses := new ++ s.accesses }) ∧
      (nbyte = 0 ∧ e = s.errno ∨ nbyte ≠ 0 ∧ e ≠ .none) := by
  unfold io
  by_cases hnbyte : nbyte = 0
  · rw [if_pos hnbyte]
    exact ⟨s.errno, [], rfl, Or.inl ⟨hnbyte, rfl⟩⟩
  · rw [if_neg hnbyte]
    by_cases hge : desct ≥ VFS_OPEN_FILES_MAX
    · rw [isLegalDescriptor_of_ge hge]
      exact ⟨.EBADF, [], rfl, Or.inr ⟨hnbyte, Errno.noConfusion⟩⟩
    · rw [isLegalDescriptor_of_lt hge]
      dsimp only
      split
      · exact ⟨.EBADF, [desct], rfl, Or.inr ⟨hnbyte, Errno.noConfusion⟩⟩
      · rename_i huse
        split
        · exact ⟨.EBADF, [desct, desct], rfl, Or.inr ⟨hnbyte, Errno.noConfusion⟩⟩
        · rename_i hperm
          split
          · exact ⟨.EOVERFLOW, [desct, desct], rfl, Or.inr ⟨hnbyte, Errno.noConfusion⟩⟩
          · rename_i hover
            refine absurd ?_ h
            have hoff : ((s.access desct).access desct).actualOffset desct offset =
                s.actualOffset desct offset := rfl
            simp only [access_fileDescriptors, hoff, Bool.or_eq_true, Bool.and_eq_true,
              decide_eq_true_eq, not_or, not_and, Bool.not_eq_false, Bool.not_eq_eq_eq_not,
              Bool.not_true] at huse hperm hover
            exact ⟨hnbyte, not_le.mp hge, huse, hperm.1, hperm.2, fun hop => not_lt.mp (hover hop)⟩

/-- The state after the position of a descriptor was set. -/
def movedTo (s : VFS φ ω) (desct : ℤ) (position : ℕ) : VFS φ ω :=
  s.modify desct fun d => { d with position := position }

/-- The method that an operation stands for. -/
def methodOf (operation : VfsOperation) (nbyte offset : ℕ) : FsMethod :=
  match operation with
  | .read => .read nbyte offset
  | .write => .write nbyte offset

/-- Asking a file system changes the world and the record of the calls. -/
theorem callReadWrite_frame
    (h : s.callReadWrite ops fs trimmed nbyte offset buf operation = (code, buf', t)) :
    t.fileDescriptors = s.fileDescriptors ∧ t.mountedFss = s.mountedFss ∧
      t.accesses = s.accesses ∧
      t.calls = ⟨fs, methodOf operation nbyte offset, trimmed⟩ :: s.calls := by
  cases operation with
  | read =>
      cases h
      exact ⟨rfl, rfl, rfl, rfl⟩
  | write =>
      cases h
      exact ⟨rfl, rfl, rfl, rfl⟩

theorem ioTransfer_cases {offset' : ℕ}
    (h : (code, buf', t) = s.ioTransfer ops desct fs trimmed buf nbyte offset' operation) :
    ∃ c u, s.callReadWrite ops fs trimmed nbyte offset' buf operation = (c, buf', u) ∧
      (c = 0 ∧ code = 0 ∧ t = u ∨
        c ≠ 0 ∧ operation = .read ∧ code = nbyte ∧ t = u.movedTo desct (add64 offset' nbyte) ∨
        c ≠ 0 ∧ operation = .write ∧ ∃ c',
          (u.movedTo desct (add64 offset' nbyte)).callGetFileSize ops fs trimmed desct = (c', t) ∧
            code = if c' = 0 then 0 else nbyte) := by
  unfold ioTransfer at h
  rcases hcall : s.callReadWrite ops fs trimmed nbyte offset' buf operation with ⟨c, b, u⟩
  rw [hcall] at h
  dsimp only at h
  by_cases hc : c = 0
  · rw [if_pos hc] at h
    cases h
    exact ⟨c, _, rfl, Or.inl ⟨hc, rfl, rfl⟩⟩
  · rw [if_neg hc] at h
    cases operation with
    | read =>
        cases h
        exact ⟨c, u, rfl, Or.inr (Or.inl ⟨hc, rfl, rfl, rfl⟩)⟩
    | write =>
        rw [if_pos rfl] at h
        rcases hsize : (u.movedTo desct (add64 offset' nbyte)).callGetFileSize ops fs trimmed desct
          with ⟨c', v⟩
        rw [movedTo] at hsize
        rw [hsize] at h
        dsimp only at h
        by_cases hc' : c' = 0
        · rw [if_pos hc'] at h
          cases h
          exact ⟨c, u, rfl, Or.inr (Or.inr ⟨hc, rfl, c', hsize, by rw [if_pos hc']⟩)⟩
        · rw [if_neg hc'] at h
          cases h
          exact ⟨c, u, rfl, Or.inr (Or.inr ⟨hc, rfl, c', hsize, by rw [if_neg hc']⟩)⟩

/-! ### The calls that reach a file system -/

/-- The calls made to file systems on the way from `s` to `t` all go to `fs`,
with the path `trimmed`. -/
def HandsOver (s t : VFS φ ω) (fs : φ) (trimmed : Path) : Prop :=
  ∃ new, t.calls = new ++ s.calls ∧ ∀ c ∈ new, c.fs = fs ∧ c.path = trimmed

variable {u : VFS φ ω}

theorem HandsOver.of_eq (h : t.calls = s.calls) : HandsOver s t fs trimmed :=
  ⟨[], h, by simp⟩

theorem HandsOver.trans (hst : HandsOver s t fs trimmed) (htu : HandsOver t u fs trimmed) :
    HandsOver s u fs trimmed := by
  obtain ⟨new, hnew, hst⟩ := hst
  obtain ⟨new', hnew', htu⟩ := htu
  refine ⟨new' ++ new, by rw [hnew', hnew, List.append_assoc], fun c hc => ?_⟩
  rcases List.mem_append.mp hc with hc | hc
  · exact htu c hc
  · exact hst c hc

theorem HandsOver.cons {method : FsMethod} (h : t.calls = ⟨fs, method, trimmed⟩ :: s.calls) :
    HandsOver s t fs trimmed :=
  ⟨[⟨fs, method, trimmed⟩], h, by simp⟩

theorem exitErrCleanup_handsOver (h : s.exitErrCleanup desct e = some (r, t)) :
    HandsOver s t fs trimmed := by
  obtain ⟨-, rfl⟩ := exitErrCleanup_eq_some h
  exact HandsOver.of_eq rfl

theorem openExisting_handsOver (h : (r, t) = s.openExisting ops desct fs path trimmed oflag) :
    HandsOver s t fs trimmed := by
  obtain ⟨code, hsize, -⟩ := openExisting_cases h
  cases hsize
  exact HandsOver.cons rfl

theorem openTrimmed_handsOver
    (h : s.openTrimmed ops desct fs path trimmed pathStr oflag = some (r, t)) :
    HandsOver s t fs trimmed := by
  obtain ⟨exists', u, hexist, hcases⟩ := openTrimmed_cases h
  have hu : HandsOver s u fs trimmed := by
    cases hexist
    exact HandsOver.cons rfl
  rcases hcases with ⟨-, e, hfail⟩ | ⟨-, -, code, v, hcreate, hcases⟩ | ⟨-, -, hopen⟩
  · exact hu.trans (exitErrCleanup_handsOver hfail)
  · have hv : HandsOver u v fs trimmed := by
      cases hcreate
      exact HandsOver.cons rfl
    rcases hcases with ⟨-, -, rfl⟩ | ⟨-, hopen⟩
    · exact hu.trans hv
    · exact hu.trans (hv.trans (openExisting_handsOver hopen))
  · exact hu.trans (openExisting_handsOver hopen)

/-- Open hands the trimmed path to the file system that the resolution yields. -/
theorem openFile_handsOver {m : MountedFS φ} (h : s.openFile ops pathStr oflag = some (r, t))
    (hget : getMountedFs s.mountedFss (Path.ofString pathStr) = some (some m))
    (htrim : trimmedPath (Path.ofString pathStr) m = some trimmed) :
    HandsOver s t m.fs trimmed := by
  rcases openFile_cases h with ⟨-, -, rfl⟩ | ⟨-, new, -, ⟨-, -, rfl⟩ | ⟨j, -, -, hcases⟩⟩
  · exact HandsOver.of_eq rfl
  · exact HandsOver.of_eq rfl
  · have hclaimed : HandsOver s (s.claimed j new) m.fs trimmed := HandsOver.of_eq rfl
    rcases hcases with ⟨-, hfail⟩ | ⟨m', trimmed', hget', htrim', hopen⟩
    · exact hclaimed.trans (exitErrCleanup_handsOver hfail)
    · rw [hget] at hget'
      cases hget'
      rw [htrim] at htrim'
      cases htrim'
      exact hclaimed.trans (openTrimmed_handsOver hopen)

theorem ioTransfer_handsOver {offset' : ℕ}
    (h : (code, buf', t) = s.ioTransfer ops desct fs trimmed buf nbyte offset' operation) :
    HandsOver s t fs trimmed := by
  obtain ⟨c, u, hcall, hcases⟩ := ioTransfer_cases h
  obtain ⟨-, -, -, hcalls⟩ := callReadWrite_frame hcall
  have hu : HandsOver s u fs trimmed := HandsOver.cons hcalls
  have hmoved : HandsOver u (u.movedTo desct (add64 offset' nbyte)) fs trimmed :=
    HandsOver.of_eq rfl
  rcases hcases with ⟨-, -, rfl⟩ | ⟨-, -, -, rfl⟩ | ⟨-, -, c', hsize, -⟩
  · exact hu
  · exact hu.trans hmoved
  · cases hsize
    exact hu.trans (hmoved.trans (HandsOver.cons rfl))

/-- So do the calls that read and write. -/
theorem io_handsOver {m : MountedFS φ}
    (h : s.io ops desct buf nbyte offset operation = some (code, buf', t))
    (hget : getMountedFs s.mountedFss (s.fileDescriptors desct).filePath = some (some m))
    (htrim : trimmedPath (s.fileDescriptors desct).filePath m = some trimmed) :
    HandsOver s t m.fs trimmed := by
  rcases io_cases h with ⟨-, -, e, new, rfl, -⟩ | ⟨-, m', trimmed', hget', htrim', htransfer⟩
  · exact HandsOver.of_eq rfl
  · rw [hget] at hget'
    cases hget'
    rw [htrim] at htrim'
    cases htrim'
    have hstart : HandsOver s ((s.access desct).access desct) m.fs trimmed := HandsOver.of_eq rfl
    exact hstart.trans (ioTransfer_handsOver htransfer)

end VFS

end AviKernel
