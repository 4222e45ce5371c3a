import AviKernel.Fs.Existence

/-!
# The file a descriptor is bound to

A descriptor keeps its path, and each call that reads or writes resolves the path
again.  The answer is that of open as long as no file system is mounted since
that the resolution takes instead, or that stops it.
-/

namespace AviKernel

variable {φ ω : Type} {ops : φ → FS ω} {mounts rest : List (MountedFS φ)} {path trimmed : Path}
  {m x : MountedFS φ} {fs : φ}

/-! ### Resolution before and after a mount -/

theorem getMountedFsFrom_cons {i max : ℕ} {best : Option (MountedFS φ)} :
    getMountedFsFrom path i (m :: mounts) max best = (foundAt path i m).bind fun found =>
      if found && max < (m.mountPath.getDepth + 1).toNat then
        getMountedFsFrom path (i + 1) mounts (m.mountPath.getDepth + 1).toNat (some m)
      else getMountedFsFrom path (i + 1) mounts max best := rfl

theorem getMountedFsFrom_append {i max : ℕ} {best : Option (MountedFS φ)} :
    getMountedFsFrom path i (mounts ++ rest) max best =
      (getMountedFsFrom path i mounts max best).bind fun (max, best) =>
        getMountedFsFrom path (i + mounts.length) rest max best := by
  induction mounts generalizing i max best with
  | nil => rfl
  | cons m mounts ih =>
      have hnext : i + (m :: mounts).length = i + 1 + mounts.length := by
        rw [List.length_cons]
        omega
      rw [List.cons_append, getMountedFsFrom_cons, getMountedFsFrom_cons, hnext]
      cases foundAt path i m with
      | none => rfl
      | some found =>
          rw [Option.bind_some, Option.bind_some]
          split
          · exact ih
          · exact ih

/-- The resolution of the path ends at the mount. -/
structure Chosen (mounts : List (MountedFS φ)) (path : Path) (m : MountedFS φ) : Prop where
  folders : Folders mounts
  mem : m ∈ mounts
  loop : getMountedFsFrom path 0 mounts 0 none = some (m.depth + 1, some m)

theorem Chosen.target (h : Chosen mounts path m) (hle : m.depth ≤ path.parts.length) :
    target mounts path = some (m.fs, m.remainder path) := by
  have hget : getMountedFs mounts path = some (some m) := by
    rw [getMountedFs, h.loop]
    simp
  exact target_eq_some_iff.mpr ⟨m, hget, rfl, trimmedPath_eq (h.folders m h.mem) hle⟩

/-- The first mount of largest depth is chosen, where the resolution is right. -/
theorem chosen_of_firstMax {i : ℕ} (hfolders : Folders mounts) (hresolvable : Resolvable mounts path)
    (hfirst : FirstMax mounts (fun _ m => m.Holds path) MountedFS.depth i m) :
    Chosen mounts path m := by
  obtain ⟨hsome, hbeaten⟩ := (resolvable_iff hfolders).mp hresolvable
  obtain ⟨max, best, hloop, hbest⟩ := getMountedFsFrom_spec [] hfolders bestOf_nil
    (by simpa using hsome)
  have hsub : ∀ j b, MountedFS.Holds path b → mounts[j]? = some b → Accepts path j b := by
    intro j b hholds hj
    exact accepts_of_holds (hfolders b (List.mem_of_getElem? hj)) (hsome j b hj) hholds
  obtain ⟨hfound, hlongest⟩ := (hbest.agrees_iff hsub).mpr hbeaten
  have hmem : m ∈ mounts := List.mem_of_getElem? hfirst.entry
  obtain ⟨m', rfl⟩ := Option.isSome_iff_exists.mp (hfound.mpr ⟨m, hmem, hfirst.admitted⟩)
  obtain ⟨j, hj⟩ := hlongest m' rfl
  obtain rfl := hj.unique hfirst
  refine ⟨hfolders, hmem, ?_⟩
  rcases hbest with ⟨-, hnone, -⟩ | ⟨k, a, rfl, ha, -⟩
  · cases hnone
  · cases ha
    exact hloop

/-- A new mount at `where'` leaves the resolution of the path to `m` alone: it is
the root, or deeper than the path, or has a part at its place in the table and
differs there from the path or is no deeper than `m`. -/
def Spares (mounts : List (MountedFS φ)) (path where' : Path) (m : MountedFS φ) : Prop :=
  where'.parts.length = 0 ∨ path.getDepth < where'.parts.length ∨
    mounts.length < where'.parts.length ∧
      (where'.parts[mounts.length]? ≠ path.parts[mounts.length]? ∨
        where'.parts.length ≤ m.depth)

instance (where' : Path) : Decidable (Spares mounts path where' m) :=
  inferInstanceAs (Decidable (_ ∨ _ ∨ _ ∧ (_ ∨ _)))

theorem Chosen.mount {where' : Path} (h : Chosen mounts path m) (hfolder : where'.folder = true)
    (hspares : Spares mounts path where' m) (hdepth : (0 : ℤ) ≤ path.getDepth) :
    Chosen (mounts ++ [⟨where', fs⟩]) path m := by
  have hdepth' : (MountedFS.mk where' fs).depth = where'.parts.length := rfl
  constructor
  · intro x hx
    rcases List.mem_append.mp hx with hx | hx
    · exact h.folders x hx
    · rw [List.mem_singleton.mp hx]
      exact hfolder
  · exact List.mem_append_left _ h.mem
  · have hkeep : ∀ found, foundAt path mounts.length ⟨where', fs⟩ = some found →
        (found = true → where'.parts.length ≤ m.depth) →
        getMountedFsFrom path 0 (mounts ++ [⟨where', fs⟩]) 0 none = some (m.depth + 1, some m) := by
      intro found hfound hle
      have hcond : ¬(found && m.depth + 1 < (where'.getDepth + 1).toNat) = true := by
        rw [Path.getDepth_of_folder hfolder, Bool.and_eq_true, decide_eq_true_eq]
        rintro ⟨htrue, hlt⟩
        have hshort := hle htrue
        omega
      rw [getMountedFsFrom_append, h.loop, Option.bind_some]
      dsimp only
      rw [getMountedFsFrom_cons, Nat.zero_add, hfound, Option.bind_some, if_neg hcond,
        getMountedFsFrom]
    rcases hspares with hroot | hdeep | ⟨hlen, hpart⟩
    · refine hkeep true (foundAt_root hfolder hroot ?_) fun _ => ?_
      · rw [hdepth', hroot]
        exact hdepth
      · omega
    · exact hkeep false (foundAt_deep hfolder hdeep) fun hfalse => absurd hfalse Bool.false_ne_true
    · by_cases hle : (where'.parts.length : ℤ) ≤ path.getDepth
      · refine hkeep _ (foundAt_compares hfolder (by omega) hle hlen) fun htrue => ?_
        exact hpart.resolve_left fun hne => hne (of_decide_eq_true htrue)
      · exact hkeep false (foundAt_deep hfolder (not_le.mp hle)) fun hfalse =>
          absurd hfalse Bool.false_ne_true

/-! ### What each call leaves alone -/

namespace VFS

variable {s t u : VFS φ ω} {desct i j r : ℤ} {pathStr : List Char}
  {oflag nbyte offset code : ℕ} {buf buf' : Buffer} {operation : VfsOperation} {e : Errno}

/-- The mounts are the same, and the table is but for one descriptor. -/
structure ChangesOnly (s t : VFS φ ω) (i : ℤ) : Prop where
  mounts : t.mountedFss = s.mountedFss
  others : ∀ j, j ≠ i → t.fileDescriptors j = s.fileDescriptors j

theorem ChangesOnly.of_eq (hmounts : t.mountedFss = s.mountedFss)
    (htable : t.fileDescriptors = s.fileDescriptors) : ChangesOnly s t i :=
  ⟨hmounts, fun j _ => by rw [htable]⟩

theorem ChangesOnly.trans (hst : ChangesOnly s t i) (htu : ChangesOnly t u i) :
    ChangesOnly s u i :=
  ⟨htu.mounts.trans hst.mounts, fun j hj => (htu.others j hj).trans (hst.others j hj)⟩

theorem claimed_changesOnly (new : List ℤ) : ChangesOnly s (s.claimed i new) i :=
  ⟨rfl, fun _ hj => modify_of_ne hj _⟩

theorem exitErrCleanup_changesOnly (h : s.exitErrCleanup i e = some (r, t)) :
    ChangesOnly s t i := by
  obtain ⟨-, rfl⟩ := exitErrCleanup_eq_some h
  exact ⟨rfl, fun _ hj => modify_of_ne hj _⟩

theorem sized_changesOnly : ChangesOnly s (s.sized ops fs path trimmed oflag i) i :=
  ⟨rfl, fun _ hj => sized_of_ne hj⟩

theorem openTrimmed_changesOnly
    (h : s.openTrimmed ops i fs path trimmed pathStr oflag = some (r, t)) :
    ChangesOnly s t i := by
  have hasked : ChangesOnly s (s.asked ops fs trimmed) i := .of_eq rfl rfl
  have hcreated : ChangesOnly s (s.created ops fs trimmed) i := .of_eq rfl rfl
  rw [openTrimmed_eq] at h
  dsimp only at h
  split at h
  · exact hasked.trans (exitErrCleanup_changesOnly h)
  · split at h
    · rw [openExisting_eq] at h
      cases h
      exact hasked.trans sized_changesOnly
    · split at h
      · cases h
        exact hcreated
      · rw [openExisting_eq] at h
        cases h
        exact hcreated.trans sized_changesOnly

/-- Open changes one descriptor that was not in use, or the memory before the
table. -/
theorem openFile_changesOnly (h : s.openFile ops pathStr oflag = some (r, t)) :
    ∃ i, (i = -1 ∨ (s.fileDescriptors i).inUse = false) ∧ ChangesOnly s t i := by
  rcases openFile_cases h with ⟨-, -, rfl⟩ | ⟨-, new, -, ⟨-, -, rfl⟩ | ⟨j, -, hfree, hcases⟩⟩
  · exact ⟨-1, Or.inl rfl, .of_eq rfl rfl⟩
  · exact ⟨-1, Or.inl rfl, (claimed_changesOnly new).trans (.of_eq rfl rfl)⟩
  · refine ⟨j, Or.inr hfree, ?_⟩
    rcases hcases with ⟨-, hfail⟩ | ⟨m, trimmed, -, -, hopen⟩
    · exact (claimed_changesOnly new).trans (exitErrCleanup_changesOnly hfail)
    · exact (claimed_changesOnly new).trans (openTrimmed_changesOnly hopen)

/-- The parts of a descriptor that reading and writing leave alone. -/
structure SameFile (d d' : FileDesc) : Prop where
  filePath : d'.filePath = d.filePath
  read : d'.read = d.read
  write : d'.write = d.write
  append : d'.append = d.append
  inUse : d'.inUse = d.inUse

theorem SameFile.refl (d : FileDesc) : SameFile d d := ⟨rfl, rfl, rfl, rfl, rfl⟩

theorem movedTo_sameFile (position : ℕ) :
    SameFile (s.fileDescriptors i) ((s.movedTo i position).fileDescriptors i) := by
  rw [movedTo_self]
  exact ⟨rfl, rfl, rfl, rfl, rfl⟩

theorem callGetFileSize_sameFile : SameFile (s.fileDescriptors i)
    ((s.callGetFileSize ops fs trimmed i).2.fileDescriptors i) := by
  rw [callGetFileSize_self]
  exact ⟨rfl, rfl, rfl, rfl, rfl⟩

theorem SameFile.trans {d d' d'' : FileDesc} (h : SameFile d d') (h' : SameFile d' d'') :
    SameFile d d'' :=
  ⟨h'.filePath.trans h.filePath, h'.read.trans h.read, h'.write.trans h.write,
    h'.append.trans h.append, h'.inUse.trans h.inUse⟩

theorem io_changesOnly (h : s.io ops desct buf nbyte offset operation = some (code, buf', t)) :
    ChangesOnly s t desct ∧ SameFile (s.fileDescriptors desct) (t.fileDescriptors desct) := by
  rcases io_cases h with ⟨-, -, e, new, rfl, -⟩ | ⟨-, m, trimmed, -, -, htransfer⟩
  · exact ⟨.of_eq rfl rfl, SameFile.refl _⟩
  · obtain ⟨c, u, hcall, hcases⟩ := ioTransfer_cases htransfer
    have hframe := callReadWrite_frame hcall
    have htable : u.fileDescriptors = s.fileDescriptors := hframe.1
    have hmounts : u.mountedFss = s.mountedFss := hframe.2.1
    have hstart : ChangesOnly s u desct := .of_eq hmounts htable
    have hmoved : ChangesOnly s (u.movedTo desct (add64 (s.actualOffset desct offset) nbyte)) desct :=
      hstart.trans ⟨rfl, fun _ hj => movedTo_of_ne hj⟩
    have hsame : SameFile (s.fileDescriptors desct)
        ((u.movedTo desct (add64 (s.actualOffset desct offset) nbyte)).fileDescriptors desct) := by
      rw [← htable]
      exact movedTo_sameFile _
    rcases hcases with ⟨-, -, rfl⟩ | ⟨-, -, -, rfl⟩ | ⟨-, -, c', hsize, -⟩
    · refine ⟨hstart, ?_⟩
      rw [htable]
      exact SameFile.refl _
    · exact ⟨hmoved, hsame⟩
    · have ht := congrArg Prod.snd hsize
      dsimp only at ht
      rw [← ht]
      exact ⟨hmoved.trans ⟨rfl, fun _ hj => callGetFileSize_of_ne hj⟩,
        hsame.trans callGetFileSize_sameFile⟩

theorem close_changesOnly {fildes : ℤ} (h : s.close fildes = some (r, t)) :
    ChangesOnly s t fildes := by
  rcases close_cases h with ⟨-, -, rfl⟩ | ⟨-, ⟨-, -, rfl⟩ | ⟨-, -, rfl⟩⟩
  · exact .of_eq rfl rfl
  · exact .of_eq rfl rfl
  · exact ⟨rfl, fun _ hj => modify_of_ne hj _⟩

theorem mountFs_cases {where' device : Path} {what : φ}
    (h : s.mountFs ops where' device what = some (r, t)) :
    where'.folder = true ∧ t.fileDescriptors = s.fileDescriptors ∧
      (((ops what).mount device s.world).1 = 0 ∧ t.mountedFss = s.mountedFss ∨
        ((ops what).mount device s.world).1 ≠ 0 ∧
          t.mountedFss = s.mountedFss ++ [⟨where', what⟩]) := by
  unfold mountFs at h
  split at h
  · cases h
  · split at h
    · cases h
    · rename_i hwhere
      have hfolder : where'.folder = true := by simpa [Path.isFolder] using hwhere
      dsimp only at h
      split at h
      · rename_i hcode
        cases h
        exact ⟨hfolder, rfl, Or.inl ⟨hcode, rfl⟩⟩
      · rename_i hcode
        cases h
        exact ⟨hfolder, rfl, Or.inr ⟨hcode, rfl⟩⟩

end VFS

/-! ### Runs -/

namespace VfsCall

/-- The state after a call. -/
def step (ops : φ → FS ω) (s : VFS φ ω) (a : VfsCall φ) : Option (VFS φ ω) :=
  (a.exec ops s).map Prod.snd

/-- The call as one that reads or writes. -/
def ioCall : VfsCall φ → Option IoCall
  | .read desct buf nbyte => some ⟨desct, buf, nbyte, none, .read⟩
  | .pread desct buf nbyte offset => some ⟨desct, buf, nbyte, some offset, .read⟩
  | .write desct buf nbyte => some ⟨desct, buf, nbyte, none, .write⟩
  | .pwrite desct buf nbyte offset => some ⟨desct, buf, nbyte, some offset, .write⟩
  | _ => none

def isMount : VfsCall φ → Bool
  | .mountFs _ _ _ => true
  | _ => false

/-- The call reaches no memory outside the table of descriptors. -/
def InBounds (s : VFS φ ω) : VfsCall φ → Prop
  | .mountFs _ _ _ => True
  | .openFile pathStr _ => (Path.ofString pathStr).folder = false → s.HasFree
  | .close fildes => 0 ≤ fildes
  | .read desct _ nbyte => nbyte = 0 ∨ 0 ≤ desct
  | .pread desct _ nbyte _ => nbyte = 0 ∨ 0 ≤ desct
  | .write desct _ nbyte => nbyte = 0 ∨ 0 ≤ desct
  | .pwrite desct _ nbyte _ => nbyte = 0 ∨ 0 ≤ desct

/-- If the call mounts a file system, the resolution of the path to `m` is left
alone. -/
def SparesPath (ops : φ → FS ω) (path : Path) (m : MountedFS φ) (s : VFS φ ω) : VfsCall φ → Prop
  | .mountFs where' device what =>
      ((ops what).mount device s.world).1 ≠ 0 → Spares s.mountedFss path where' m
  | _ => True

variable {s t u : VFS φ ω} {a : VfsCall φ} {fd : ℤ}

theorem exec_of_step (h : a.step ops s = some t) : ∃ r, a.exec ops s = some (r, t) := by
  obtain ⟨⟨r, u⟩, hexec, rfl⟩ := Option.map_eq_some_iff.mp h
  exact ⟨r, hexec⟩

theorem exec_cases {r : ℤ} (hexec : a.exec ops s = some (r, t)) :
    (∃ where' device what, a = .mountFs where' device what ∧
        s.mountFs ops where' device what = some (r, t)) ∨
      (∃ pathStr oflag, a = .openFile pathStr oflag ∧
        s.openFile ops pathStr oflag = some (r, t)) ∨
      (∃ fildes, a = .close fildes ∧ s.close fildes = some (r, t)) ∨
      ∃ c code buf, a.ioCall = some c ∧ c.exec ops s = some (code, buf, t) := by
  have hio : ∀ {c : IoCall}, a.ioCall = some c →
      ((c.exec ops s).map fun x => ((x.1 : ℤ), x.2.2)) = some (r, t) →
      ∃ c code buf, a.ioCall = some c ∧ c.exec ops s = some (code, buf, t) := by
    intro c hc hmap
    obtain ⟨⟨code, buf, v⟩, hio, heq⟩ := Option.map_eq_some_iff.mp hmap
    cases heq
    exact ⟨c, code, buf, hc, hio⟩
  cases a with
  | mountFs where' device what => exact Or.inl ⟨where', device, what, rfl, hexec⟩
  | openFile pathStr oflag => exact Or.inr (Or.inl ⟨pathStr, oflag, rfl, hexec⟩)
  | close fildes => exact Or.inr (Or.inr (Or.inl ⟨fildes, rfl, hexec⟩))
  | read desct buf nbyte => exact Or.inr (Or.inr (Or.inr (hio rfl hexec)))
  | pread desct buf nbyte offset => exact Or.inr (Or.inr (Or.inr (hio rfl hexec)))
  | write desct buf nbyte => exact Or.inr (Or.inr (Or.inr (hio rfl hexec)))
  | pwrite desct buf nbyte offset => exact Or.inr (Or.inr (Or.inr (hio rfl hexec)))

theorem step_folders (hfolders : Folders s.mountedFss) (h : a.step ops s = some t) :
    Folders t.mountedFss := by
  obtain ⟨r, hexec⟩ := exec_of_step h
  rcases exec_cases hexec with ⟨where', device, what, -, hmount⟩ | ⟨pathStr, oflag, -, hopen⟩ |
    ⟨fildes, -, hclose⟩ | ⟨c, code, buf, -, hio⟩
  · obtain ⟨hfolder, -, ⟨-, hmounts⟩ | ⟨-, hmounts⟩⟩ := VFS.mountFs_cases hmount
    · rw [hmounts]
      exact hfolders
    · rw [hmounts]
      intro m hm
      rcases List.mem_append.mp hm with hm | hm
      · exact hfolders m hm
      · rw [List.mem_singleton.mp hm]
        exact hfolder
  · obtain ⟨i, -, hchanges⟩ := VFS.openFile_changesOnly hopen
    rw [hchanges.mounts]
    exact hfolders
  · rw [(VFS.close_changesOnly hclose).mounts]
    exact hfolders
  · rw [IoCall.exec_eq] at hio
    rw [(VFS.io_changesOnly hio).1.mounts]
    exact hfolders

/-- The descriptor is open on the path, and the path resolves to the mount. -/
structure BoundTo (s : VFS φ ω) (fd : ℤ) (path : Path) (m : MountedFS φ) : Prop where
  lower : 0 ≤ fd
  inUse : (s.fileDescriptors fd).inUse = true
  filePath : (s.fileDescriptors fd).filePath = path
  chosen : Chosen s.mountedFss path m

theorem BoundTo.sameFile (h : BoundTo s fd path m) (hmounts : t.mountedFss = s.mountedFss)
    (hsame : VFS.SameFile (s.fileDescriptors fd) (t.fileDescriptors fd)) : BoundTo t fd path m := by
  refine ⟨h.lower, hsame.inUse.trans h.inUse, hsame.filePath.trans h.filePath, ?_⟩
  rw [hmounts]
  exact h.chosen

theorem BoundTo.changesOnly {i : ℤ} (h : BoundTo s fd path m) (hi : fd ≠ i)
    (hchanges : VFS.ChangesOnly s t i) : BoundTo t fd path m := by
  refine h.sameFile hchanges.mounts ?_
  rw [hchanges.others fd hi]
  exact VFS.SameFile.refl _

theorem BoundTo.step (h : BoundTo s fd path m) (hdepth : 0 ≤ path.getDepth)
    (hspares : SparesPath ops path m s a) (hclose : a ≠ .close fd)
    (hstep : a.step ops s = some t) : BoundTo t fd path m := by
  obtain ⟨r, hexec⟩ := exec_of_step hstep
  rcases exec_cases hexec with ⟨where', device, what, rfl, hmount⟩ | ⟨pathStr, oflag, rfl, hopen⟩ |
    ⟨fildes, rfl, hcloses⟩ | ⟨c, code, buf, -, hio⟩
  · obtain ⟨hfolder, htable, ⟨-, hmounts⟩ | ⟨hcode, hmounts⟩⟩ := VFS.mountFs_cases hmount
    · refine h.sameFile hmounts ?_
      rw [htable]
      exact VFS.SameFile.refl _
    · refine ⟨h.lower, by rw [htable, h.inUse], by rw [htable, h.filePath], ?_⟩
      rw [hmounts]
      exact h.chosen.mount hfolder (hspares hcode) hdepth
  · obtain ⟨i, hi, hchanges⟩ := VFS.openFile_changesOnly hopen
    refine h.changesOnly ?_ hchanges
    rintro rfl
    rcases hi with rfl | hfree
    · exact absurd h.lower (by decide)
    · rw [h.inUse] at hfree
      cases hfree
  · refine h.changesOnly ?_ (VFS.close_changesOnly hcloses)
    rintro rfl
    exact hclose rfl
  · rw [IoCall.exec_eq] at hio
    obtain ⟨hchanges, hsame⟩ := VFS.io_changesOnly hio
    by_cases hfd : fd = c.desct
    · subst hfd
      exact h.sameFile hchanges.mounts hsame
    · exact h.changesOnly hfd hchanges

theorem BoundTo.run {as : List (VfsCall φ)} (h : BoundTo s fd path m) (hdepth : 0 ≤ path.getDepth)
    (hspares : RunAll (VfsCall.step ops) (SparesPath ops path m) s as) (hclose : .close fd ∉ as)
    (hrun : AviKernel.run (VfsCall.step ops) s as = some t) : BoundTo t fd path m := by
  have hopen : RunAll (VfsCall.step ops) (fun _ a => a ≠ .close fd) s as := by
    refine runAll_of_forall fun a ha => ?_
    rintro rfl
    exact hclose ha
  have hstep : ∀ (s : VFS φ ω) a t, BoundTo s fd path m →
      SparesPath ops path m s a ∧ a ≠ .close fd → VfsCall.step ops s a = some t →
        BoundTo t fd path m := fun _ _ _ h hok hstep => h.step hdepth hok.1 hok.2 hstep
  exact run_preserves (I := fun s => BoundTo s fd path m) hstep h (hspares.and hopen) hrun

end VfsCall

/-! ### The calls on a bound descriptor -/

/-- The method of a file system that a call stands for. -/
def IoCall.method (c : IoCall) (offset : ℕ) : FsMethod :=
  match c.operation with
  | .read => .read c.nbyte offset
  | .write => .write c.nbyte offset

/-- The call returns, asks nothing of another file system or path, and if it
passes the checks it is handed over. -/
def IssuedTo (ops : φ → FS ω) (s : VFS φ ω) (c : IoCall) (fs : φ) (trimmed : Path) : Prop :=
  ∃ code buf t new, c.exec ops s = some (code, buf, t) ∧ t.calls = new ++ s.calls ∧
    (∀ call ∈ new, call.fs = fs ∧ call.path = trimmed) ∧
    (s.Passes c.desct c.nbyte (c.place.getD 0) c.operation →
      ⟨fs, c.method (s.actualOffset c.desct (c.place.getD 0)), trimmed⟩ ∈ new)

section Issued

variable {s t : VFS φ ω} {c : IoCall}

theorem issuedTo_of_target
    (htarget : target s.mountedFss (s.fileDescriptors c.desct).filePath = some (fs, trimmed)) :
    IssuedTo ops s c fs trimmed := by
  unfold IssuedTo
  rw [IoCall.exec_eq]
  by_cases hpasses : s.Passes c.desct c.nbyte (c.place.getD 0) c.operation
  · rw [VFS.io_of_passes hpasses htarget]
    rcases hresult : ((s.access c.desct).access c.desct).ioTransfer ops c.desct fs trimmed c.buf
      c.nbyte (s.actualOffset c.desct (c.place.getD 0)) c.operation with ⟨code, buf, t⟩
    obtain ⟨k, u, hcall, hcases⟩ := VFS.ioTransfer_cases hresult.symm
    have hu : u.calls = ⟨fs, c.method (s.actualOffset c.desct (c.place.getD 0)), trimmed⟩ ::
        s.calls := (VFS.callReadWrite_frame hcall).2.2.2
    generalize c.method (s.actualOffset c.desct (c.place.getD 0)) = method at hu
    refine ⟨code, buf, t, ?_⟩
    rcases hcases with ⟨-, -, rfl⟩ | ⟨-, -, -, rfl⟩ | ⟨-, -, k', hsize, -⟩
    · exact ⟨[⟨fs, method, trimmed⟩], rfl, hu, by simp, fun _ => by simp⟩
    · exact ⟨[⟨fs, method, trimmed⟩], rfl, hu, by simp, fun _ => by simp⟩
    · refine ⟨[⟨fs, .getFileSize, trimmed⟩, ⟨fs, method, trimmed⟩], rfl, ?_, by simp,
        fun _ => by simp⟩
      cases hsize
      exact congrArg (List.cons _) hu
  · obtain ⟨e, new, hio, -⟩ := @VFS.io_of_not_passes φ ω s ops c.desct c.nbyte (c.place.getD 0)
      c.buf c.operation hpasses
    exact ⟨0, c.buf, _, [], hio, rfl, by simp, fun h => absurd h hpasses⟩

end Issued

namespace VfsCall

variable {s t u : VFS φ ω} {fd : ℤ} {pathStr : List Char} {oflag i : ℕ} {as as₁ as₂ : List (VfsCall φ)}

theorem folders_of_run (memory : ℤ → FileDesc) (errno : Errno) (world : ω)
    (hs : run (step ops) (VFS.new memory errno world) as = some s) : Folders s.mountedFss := by
  have hrun : RunAll (step ops) (fun _ _ => True) (VFS.new memory errno world) as :=
    runAll_of_forall fun _ _ => trivial
  refine run_preserves (I := fun s => Folders s.mountedFss)
    (fun _ _ _ h _ hstep => step_folders h hstep) ?_ hrun hs
  intro m hm
  cases hm

/-- A successful open binds the descriptor it returns. -/
theorem boundTo_of_open (hfile : (Path.ofString pathStr).folder = false) (hfree : s.HasFree)
    (hchosen : Chosen s.mountedFss (Path.ofString pathStr) m)
    (hle : m.depth ≤ (Path.ofString pathStr).parts.length)
    (hanswers : Session.Answers ops m.fs (m.remainder (Path.ofString pathStr)) pathStr oflag s.world)
    (hopen : s.openFile ops pathStr oflag = some (fd, t)) (hfd : fd ≠ -1) :
    BoundTo t fd (Path.ofString pathStr) m := by
  obtain ⟨j, new, -, hunused, -, heq⟩ :=
    @VFS.openFile_targeted φ ω ops s m.fs _ pathStr oflag hfile hfree (hchosen.target hle)
  cases hrejects : VFS.rejects pathStr oflag
      (((ops m.fs).fileExist (m.remainder (Path.ofString pathStr)) s.world).1 ≠ 0) with
  | true =>
      rw [heq, VFS.openTrimmed_eq] at hopen
      dsimp only at hopen
      have hworld : (s.claimed j new).world = s.world := rfl
      rw [hworld, hrejects, if_pos rfl] at hopen
      obtain ⟨hr, -⟩ := VFS.exitErrCleanup_eq_some hopen
      exact absurd hr hfd
  | false =>
      have hserved : Session.Served ops m.fs (m.remainder (Path.ofString pathStr)) s.world := by
        rcases hanswers with hreject | hserved
        · rw [hrejects] at hreject
          cases hreject
        · exact hserved
      have hresult := heq.trans (VFS.openTrimmed_served hrejects hserved)
      rw [hopen] at hresult
      cases hresult
      constructor
      · exact Int.natCast_nonneg j
      · rw [VFS.sized_self, VFS.beforeSize_table, VFS.claimed, VFS.modify_self]
        rfl
      · rw [VFS.sized_self]
        rfl
      · have hmounts : (VFS.beforeSize ops (s.claimed j new) m.fs
            (m.remainder (Path.ofString pathStr))).mountedFss = s.mountedFss := VFS.beforeSize_mounts
        rw [VFS.sized_changesOnly.mounts, hmounts]
        exact hchosen

/-- A descriptor stays bound to its file, as long as the mounts after the open
leave the resolution of its path alone. -/
theorem issuedTo_of_run (memory : ℤ → FileDesc) (errno : Errno) (world : ω)
    (hbounds : RunAll (step ops) InBounds (VFS.new memory errno world)
      (as₁ ++ .openFile pathStr oflag :: as₂))
    (hs : run (step ops) (VFS.new memory errno world) as₁ = some s)
    (hfirst : FirstMax s.mountedFss (fun _ m => m.Holds (Path.ofString pathStr))
      MountedFS.depth i m)
    (hresolvable : Resolvable s.mountedFss (Path.ofString pathStr))
    (hanswers : Session.Answers ops m.fs (m.remainder (Path.ofString pathStr)) pathStr oflag s.world)
    (hopen : s.openFile ops pathStr oflag = some (fd, t)) (hfd : fd ≠ -1)
    (hspares : RunAll (step ops) (SparesPath ops (Path.ofString pathStr) m) t as₂)
    (hclose : .close fd ∉ as₂) (hu : run (step ops) t as₂ = some u) (c : IoCall)
    (hc : c.desct = fd) : IssuedTo ops u c m.fs (m.remainder (Path.ofString pathStr)) := by
  have hfile : (Path.ofString pathStr).folder = false := by
    by_contra hfolder
    rw [VFS.openFile_folder (by simpa using hfolder)] at hopen
    cases hopen
    exact hfd rfl
  have hfree : s.HasFree := (((runAll_append.mp hbounds).2 s hs).1 : _ → _) hfile
  have hfolders := folders_of_run memory errno world hs
  have hfolder : m.mountPath.folder = true :=
    hfolders m (List.mem_of_getElem? hfirst.entry)
  have hdepth : (m.depth : ℤ) ≤ (Path.ofString pathStr).getDepth := by
    rw [← getDepth_mount hfolder]
    exact hfirst.admitted.2
  have hle : m.depth ≤ (Path.ofString pathStr).parts.length := depth_le_of_firstMax hfolders hfirst
  have hchosen := chosen_of_firstMax hfolders hresolvable hfirst
  have hbound := (boundTo_of_open hfile hfree hchosen hle hanswers hopen hfd).run
    (by omega) hspares hclose hu
  apply issuedTo_of_target
  rw [hc, hbound.filePath]
  exact hbound.chosen.target hle

/-! ### A file system at the root and another one in a folder -/

instance (s : VFS φ ω) : Decidable s.HasFree :=
  inferInstanceAs (Decidable (∃ j : ℕ, j < VFS_OPEN_FILES_MAX ∧ _))

instance : ∀ (s : VFS φ ω) (a : VfsCall φ), Decidable (InBounds s a)
  | _, .mountFs _ _ _ => isTrue trivial
  | s, .openFile pathStr _ =>
      inferInstanceAs (Decidable ((Path.ofString pathStr).folder = false → s.HasFree))
  | _, .close fildes => inferInstanceAs (Decidable (0 ≤ fildes))
  | _, .read desct _ nbyte => inferInstanceAs (Decidable (nbyte = 0 ∨ 0 ≤ desct))
  | _, .pread desct _ nbyte _ => inferInstanceAs (Decidable (nbyte = 0 ∨ 0 ≤ desct))
  | _, .write desct _ nbyte => inferInstanceAs (Decidable (nbyte = 0 ∨ 0 ≤ desct))
  | _, .pwrite desct _ nbyte _ => inferInstanceAs (Decidable (nbyte = 0 ∨ 0 ≤ desct))

instance : ∀ (s : VFS φ ω) (a : VfsCall φ), Decidable (SparesPath ops path m s a)
  | s, .mountFs where' device what => inferInstanceAs (Decidable
      (((ops what).mount device s.world).1 ≠ 0 → Spares s.mountedFss path where' m))
  | _, .openFile _ _ => isTrue trivial
  | _, .close _ => isTrue trivial
  | _, .read _ _ _ => isTrue trivial
  | _, .pread _ _ _ _ => isTrue trivial
  | _, .write _ _ _ => isTrue trivial
  | _, .pwrite _ _ _ _ => isTrue trivial

def rootMount : VfsCall ℕ := .mountFs ⟨true, []⟩ ⟨true, []⟩ 0

def blankVfs : VFS ℕ Unit := VFS.new (fun _ => Session.blankDesc) .none ()

theorem firstMax_root {path : Path} (h : (0 : ℤ) ≤ path.getDepth) :
    FirstMax [(⟨⟨true, []⟩, 0⟩ : MountedFS ℕ)] (fun _ m => m.Holds path) MountedFS.depth 0
      ⟨⟨true, []⟩, 0⟩ := by
  refine ⟨rfl, ⟨List.nil_prefix, h⟩, fun j b hj _ => ?_⟩
  have hb : b = ⟨⟨true, []⟩, 0⟩ := List.mem_singleton.mp (List.mem_of_getElem? hj)
  exact Or.inr ⟨by rw [hb], Nat.zero_le j⟩

theorem resolvable_root {path : Path} :
    Resolvable [(⟨⟨true, []⟩, 0⟩ : MountedFS ℕ)] path := by
  intro i m hi hpos
  have hm : m = ⟨⟨true, []⟩, 0⟩ := List.mem_singleton.mp (List.mem_of_getElem? hi)
  rw [hm] at hpos
  exact absurd hpos (by decide)

/-- A mount in another folder, and calls on the descriptor. -/
def otherCalls : List (VfsCall ℕ) :=
  [.mountFs ⟨true, [['e'], ['x']]⟩ ⟨true, []⟩ 1, .write 3 (fun _ => 7) 2,
    .openFile ['/', 'e', '/', 'x', '/', 'b'] O_RDWR, .close 4]

theorem issuedTo_of_run_other : ∃ s t u, run (step fun _ => Session.steadyFs) blankVfs [rootMount] = some s ∧
    s.openFile (fun _ => Session.steadyFs) ['/', 'd', '/', 'a'] O_RDWR = some (3, t) ∧
    run (step fun _ => Session.steadyFs) t otherCalls = some u ∧
    IssuedTo (fun _ => Session.steadyFs) u ⟨3, fun _ => 0, 1, none, .read⟩ 0
      ⟨false, [['d'], ['a']]⟩ := by
  have hbounds : RunAll (step fun _ => Session.steadyFs) InBounds blankVfs
      ([rootMount] ++ .openFile ['/', 'd', '/', 'a'] O_RDWR :: otherCalls) := by decide +kernel
  refine ⟨_, _, _, rfl, rfl, rfl, ?_⟩
  refine @issuedTo_of_run ℕ Unit (fun _ => Session.steadyFs) ⟨⟨true, []⟩, 0⟩ _ _ _ 3
    ['/', 'd', '/', 'a'] O_RDWR 0 [rootMount] otherCalls (fun _ => Session.blankDesc) .none ()
    hbounds rfl (firstMax_root (by decide)) ?_ ?_ rfl (by decide) ?_ ?_ rfl _ rfl
  · exact resolvable_root
  · decide +kernel
  · decide +kernel
  · simp [otherCalls]

/-- A file is opened, and then a file system is mounted in its folder. -/
def takenOver : Option (VFS ℕ Unit) :=
  ((run (step fun _ => Session.steadyFs) blankVfs [rootMount]).bind fun s =>
    s.openFile (fun _ => Session.steadyFs) ['/', 'd', '/', 'e', '/', 'a'] O_RDWR).bind fun x =>
      run (step fun _ => Session.steadyFs) x.2 [.mountFs ⟨true, [['d'], ['e']]⟩ ⟨true, []⟩ 1]

/-- The mount takes the calls over. -/
theorem not_issuedTo_of_run : ¬∀ (as₁ as₂ : List (VfsCall ℕ)) pathStr oflag s t u fd m i c,
    run (step fun _ => Session.steadyFs) blankVfs as₁ = some s →
    FirstMax s.mountedFss (fun _ m => m.Holds (Path.ofString pathStr)) MountedFS.depth i m →
    s.openFile (fun _ => Session.steadyFs) pathStr oflag = some (fd, t) → fd ≠ -1 →
    .close fd ∉ as₂ → run (step fun _ => Session.steadyFs) t as₂ = some u → c.desct = fd →
      IssuedTo (fun _ => Session.steadyFs) u c m.fs (m.remainder (Path.ofString pathStr)) := by
  intro h
  obtain ⟨t, ht⟩ : ∃ t, (run (step fun _ => Session.steadyFs) blankVfs [rootMount]).bind
      (fun s => s.openFile (fun _ => Session.steadyFs) ['/', 'd', '/', 'e', '/', 'a'] O_RDWR) =
        some (3, t) := ⟨_, rfl⟩
  obtain ⟨u, hu⟩ : ∃ u, run (step fun _ => Session.steadyFs) t
      [.mountFs ⟨true, [['d'], ['e']]⟩ ⟨true, []⟩ 1] = some u := ⟨_, rfl⟩
  have hover : takenOver = some u := by
    rw [takenOver, ht]
    exact hu
  have hone : takenOver.map (fun u => u.calls.countP fun call => call.fs = 1) = some 1 := by
    decide +kernel
  have htwo : takenOver.bind (fun u =>
      (IoCall.exec (fun _ => Session.steadyFs) u ⟨3, fun _ => 0, 1, none, .read⟩).map
        fun x => x.2.2.calls.countP fun call => call.fs = 1) = some 2 := by decide +kernel
  rw [hover, Option.map_some] at hone
  rw [hover, Option.bind_some] at htwo
  obtain ⟨code, buf, v, new, hexec, hcalls, hto, -⟩ := h [rootMount]
    [.mountFs ⟨true, [['d'], ['e']]⟩ ⟨true, []⟩ 1] ['/', 'd', '/', 'e', '/', 'a'] O_RDWR _ t u 3
    ⟨⟨true, []⟩, 0⟩ 0 ⟨3, fun _ => 0, 1, none, .read⟩ rfl (firstMax_root (by decide)) ht (by decide)
    (by simp) hu rfl
  have hnew : (new.countP fun call => call.fs = 1) = 0 := by
    rw [List.countP_eq_zero]
    intro call hcall
    simp [(hto call hcall).1]
  rw [hexec, Option.map_some, hcalls, List.countP_append, hnew, Option.some.inj hone] at htwo
  cases htwo

end VfsCall

end AviKernel
