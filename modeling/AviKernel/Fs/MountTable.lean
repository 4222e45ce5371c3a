import AviKernel.Fs.VfsSteps
import AviKernel.Library.FirstMax

/-!
# Resolution of a path to a mounted file system

The loop keeps the deepest accepted mount, the earliest on a tie.  It accepts a
mount by its part at the index of the mount in the table, so a mount that holds
the path is accepted, but others are too, and a mount with too few parts stops
the kernel.
-/

namespace AviKernel

variable {φ ω : Type} {mounts done rest : List (MountedFS φ)} {path mountPath : Path}
  {m : MountedFS φ} {i n max : ℕ} {best : Option (MountedFS φ)}

namespace MountedFS

def depth (m : MountedFS φ) : ℕ := m.mountPath.parts.length

/-- The parts of the mount path begin the path, and it is not deeper. -/
def Holds (path : Path) (m : MountedFS φ) : Prop :=
  m.mountPath.parts <+: path.parts ∧ m.mountPath.getDepth ≤ path.getDepth

instance : Decidable (m.Holds path) := inferInstanceAs (Decidable (_ ∧ _))

end MountedFS

/-- The mounts are folders, as `mountFs` ensures. -/
def Folders (mounts : List (MountedFS φ)) : Prop := ∀ m ∈ mounts, m.mountPath.folder = true

instance : Decidable (Folders mounts) :=
  inferInstanceAs (Decidable (∀ m ∈ mounts, m.mountPath.folder = true))

def Accepts (path : Path) (i : ℕ) (m : MountedFS φ) : Prop := foundAt path i m = some true

theorem comparesEqual_succ : comparesEqual mountPath path i (n + 1) =
    (mountPath.parts[i]?).bind fun a => (path.parts[i]?).bind fun b => some (a == b) := by
  induction n with
  | zero =>
      rw [comparesEqual, Path.getPart, Path.getPart, Vector.get_natCast, Vector.get_natCast]
      cases mountPath.parts[i]? with
      | none => rfl
      | some a =>
          cases path.parts[i]? with
          | none => rfl
          | some b => by_cases hab : a = b <;> simp [hab, comparesEqual]
  | succ n ih =>
      rw [comparesEqual, ih, Path.getPart, Path.getPart, Vector.get_natCast, Vector.get_natCast]
      cases mountPath.parts[i]? with
      | none => rfl
      | some a =>
          cases path.parts[i]? with
          | none => rfl
          | some b => by_cases hab : a = b <;> simp [hab]

section Found

variable (hfolder : m.mountPath.folder = true)
include hfolder

theorem getDepth_mount : m.mountPath.getDepth = m.depth := Path.getDepth_of_folder hfolder

theorem foundAt_deep (h : path.getDepth < m.depth) : foundAt path i m = some false := by
  rw [foundAt, getDepth_mount hfolder, if_neg (not_le.mpr h)]

theorem foundAt_root (h : m.depth = 0) (hle : (m.depth : ℤ) ≤ path.getDepth) :
    foundAt path i m = some true := by
  rw [foundAt, getDepth_mount hfolder, if_pos hle, h]
  rfl

theorem foundAt_panics (hpos : 0 < m.depth) (hle : (m.depth : ℤ) ≤ path.getDepth)
    (hi : m.depth ≤ i) : foundAt path i m = none := by
  obtain ⟨n, hn⟩ := Nat.exists_eq_succ_of_ne_zero hpos.ne'
  have hnone : m.mountPath.parts[i]? = none := List.getElem?_eq_none hi
  rw [foundAt, getDepth_mount hfolder, if_pos hle, Int.toNat_natCast, hn, comparesEqual_succ,
    hnone, Option.bind_none]

theorem foundAt_compares (hpos : 0 < m.depth) (hle : (m.depth : ℤ) ≤ path.getDepth)
    (hi : i < m.depth) :
    foundAt path i m = some (decide (m.mountPath.parts[i]? = path.parts[i]?)) := by
  obtain ⟨n, hn⟩ := Nat.exists_eq_succ_of_ne_zero hpos.ne'
  have hpath : i < path.parts.length := by
    have hdepth := path.getDepth_le
    omega
  rw [foundAt, getDepth_mount hfolder, if_pos hle, Int.toNat_natCast, hn, comparesEqual_succ,
    List.getElem?_eq_getElem hi, List.getElem?_eq_getElem hpath]
  simp [beq_eq_decide]

theorem foundAt_eq_none_iff : foundAt path i m = none ↔
    0 < m.depth ∧ (m.depth : ℤ) ≤ path.getDepth ∧ m.depth ≤ i := by
  constructor
  · intro h
    by_cases hle : (m.depth : ℤ) ≤ path.getDepth
    · rcases Nat.eq_zero_or_pos m.depth with hzero | hpos
      · rw [foundAt_root hfolder hzero hle] at h
        cases h
      · by_cases hi : i < m.depth
        · rw [foundAt_compares hfolder hpos hle hi] at h
          cases h
        · exact ⟨hpos, hle, not_lt.mp hi⟩
    · rw [foundAt_deep hfolder (not_le.mp hle)] at h
      cases h
  · rintro ⟨hpos, hle, hi⟩
    exact foundAt_panics hfolder hpos hle hi

theorem accepts_of_holds (hsome : foundAt path i m ≠ none) (h : m.Holds path) :
    Accepts path i m := by
  obtain ⟨hbegins, hle⟩ := h
  rw [getDepth_mount hfolder] at hle
  rcases Nat.eq_zero_or_pos m.depth with hzero | hpos
  · exact foundAt_root hfolder hzero hle
  · have hi : i < m.depth := by
      by_contra hi
      exact hsome (foundAt_panics hfolder hpos hle (not_lt.mp hi))
    have hpart : m.mountPath.parts[i]? = path.parts[i]? := by
      obtain ⟨tail, htail⟩ := hbegins
      rw [← htail, List.getElem?_append_left hi]
    rw [Accepts, foundAt_compares hfolder hpos hle hi, hpart, decide_eq_true rfl]

theorem accepts_iff (hsome : foundAt path i m ≠ none) : Accepts path i m ↔
    (m.depth : ℤ) ≤ path.getDepth ∧
      (0 < m.depth → m.mountPath.parts[i]? = path.parts[i]?) := by
  by_cases hle : (m.depth : ℤ) ≤ path.getDepth
  · rcases Nat.eq_zero_or_pos m.depth with hzero | hpos
    · simp [Accepts, foundAt_root hfolder hzero hle, hle, hzero.not_gt]
    · have hi : i < m.depth := by
        by_contra hi
        exact hsome (foundAt_panics hfolder hpos hle (not_lt.mp hi))
      simp [Accepts, foundAt_compares hfolder hpos hle hi, hle, hpos]
  · simp [Accepts, foundAt_deep hfolder (not_le.mp hle), hle]

end Found

/-! ### The loop over the mounts -/

theorem getMountedFsFrom_spec (done : List (MountedFS φ)) (hfolders : Folders rest)
    (hbest : BestOf done (Accepts path) MountedFS.depth max best)
    (hsome : ∀ j m, rest[j]? = some m → foundAt path (done.length + j) m ≠ none) :
    ∃ max' best', getMountedFsFrom path done.length rest max best = some (max', best') ∧
      BestOf (done ++ rest) (Accepts path) MountedFS.depth max' best' := by
  induction rest generalizing done max best with
  | nil => exact ⟨max, best, rfl, by rwa [List.append_nil]⟩
  | cons m rest ih =>
      have hfolder : m.mountPath.folder = true := hfolders m List.mem_cons_self
      have hrest : Folders rest := fun m' h => hfolders m' (List.mem_cons_of_mem m h)
      have hlen : (done ++ [m]).length = done.length + 1 := by simp
      have hsome' : ∀ j m', rest[j]? = some m' →
          foundAt path ((done ++ [m]).length + j) m' ≠ none := by
        intro j m' hj
        have hnext := hsome (j + 1) m' hj
        rwa [hlen, Nat.add_assoc, Nat.add_comm 1 j]
      have hn : (m.mountPath.getDepth + 1).toNat = m.depth + 1 := by
        rw [getDepth_mount hfolder]
        exact Int.toNat_natCast _
      have happend : done ++ m :: rest = done ++ [m] ++ rest := List.append_cons done m rest
      rw [getMountedFsFrom, hn, ← hlen, happend]
      cases hfound : foundAt path done.length m with
      | none => exact absurd hfound (hsome 0 m rfl)
      | some found =>
          cases found with
          | false =>
              have hskip : ¬Accepts path done.length m := by simp [Accepts, hfound]
              exact ih (done ++ [m]) hrest (hbest.skip hskip) hsome'
          | true =>
              by_cases hmax : max < m.depth + 1
              · simpa [hmax] using ih (done ++ [m]) hrest (hbest.replace hfound hmax) hsome'
              · simpa [hmax] using ih (done ++ [m]) hrest (hbest.keep hmax) hsome'

theorem getMountedFsFrom_panics {j : ℕ} (hj : rest[j]? = some m)
    (hnone : foundAt path (i + j) m = none) : getMountedFsFrom path i rest max best = none := by
  induction rest generalizing i j max best with
  | nil => cases hj
  | cons m' rest ih =>
      cases j with
      | zero =>
          cases hj
          rw [getMountedFsFrom]
          rw [Nat.add_zero] at hnone
          rw [hnone]
          rfl
      | succ j =>
          have hrest : foundAt path (i + 1 + j) m = none := by
            rwa [Nat.add_assoc, Nat.add_comm 1 j]
          rw [getMountedFsFrom]
          cases foundAt path i m' with
          | none => rfl
          | some found =>
              rw [Option.bind_eq_bind, Option.bind_some]
              split
              · exact ih hj hrest
              · exact ih hj hrest

/-- Without a panic the answer is the first accepted mount of largest depth. -/
theorem getMountedFs_spec (hfolders : Folders mounts)
    (hsome : ∀ j m, mounts[j]? = some m → foundAt path j m ≠ none) :
    ∃ max best, getMountedFs mounts path = some best ∧
      BestOf mounts (Accepts path) MountedFS.depth max best := by
  obtain ⟨max, best, hloop, hbest⟩ := getMountedFsFrom_spec [] hfolders bestOf_nil
    (by simpa using hsome)
  refine ⟨max, best, ?_, hbest⟩
  have hzero := hbest.max_eq_zero_iff
  rw [List.length_nil] at hloop
  rw [getMountedFs, hloop]
  by_cases hmax : max = 0
  · simp [hmax, hzero.mp hmax]
  · simp [hmax]

theorem getMountedFs_panics {j : ℕ} (hj : mounts[j]? = some m)
    (hnone : foundAt path j m = none) : getMountedFs mounts path = none := by
  rw [getMountedFs, getMountedFsFrom_panics hj (by rwa [Nat.zero_add])]
  rfl

/-! ### Longest prefix -/

theorem depth_le_of_firstMax (hfolders : Folders mounts)
    (h : FirstMax mounts (fun _ m => m.Holds path) MountedFS.depth i m) :
    m.depth ≤ path.parts.length := by
  have hfolder : m.mountPath.folder = true := hfolders m (List.mem_of_getElem? h.entry)
  have hle : m.mountPath.getDepth ≤ path.getDepth := h.admitted.2
  have hdepth := path.getDepth_le
  rw [getDepth_mount hfolder] at hle
  omega

theorem trimmedPath_eq (hfolder : m.mountPath.folder = true) (h : m.depth ≤ path.parts.length) :
    trimmedPath path m = some { path with parts := path.parts.drop m.depth } := by
  rw [trimmedPath, getDepth_mount hfolder, Int.toNat_natCast, Path.removeParts_eq h]

/-- What the resolution of a path is for: no panic, a mount exactly when some
mount holds the path, then the first of the deepest, and the rest of the path
for its file system. -/
structure Resolves (ops : φ → FS ω) (mounts : List (MountedFS φ)) (path : Path) : Prop where
  total : getMountedFs mounts path ≠ none
  found : ∀ found, getMountedFs mounts path = some found →
    (found.isSome ↔ ∃ m ∈ mounts, m.Holds path)
  longest : ∀ m, getMountedFs mounts path = some (some m) →
    ∃ i, FirstMax mounts (fun _ m => m.Holds path) MountedFS.depth i m
  handed : ∀ m, getMountedFs mounts path = some (some m) →
    ∃ trimmed : Path, m.mountPath.parts ++ trimmed.parts = path.parts ∧
      trimmed.folder = path.folder ∧
      (∀ (s t : VFS φ ω) pathStr oflag r, s.mountedFss = mounts → Path.ofString pathStr = path →
        s.openFile ops pathStr oflag = some (r, t) → s.HandsOver t m.fs trimmed) ∧
      ∀ (s t : VFS φ ω) desct buf nbyte offset operation code buf', s.mountedFss = mounts →
        (s.fileDescriptors desct).filePath = path →
        s.io ops desct buf nbyte offset operation = some (code, buf', t) →
        s.HandsOver t m.fs trimmed

/-- Each mount that is no deeper than the path has more parts than its index in
the table, and if it agrees with the path in that part only, a mount that holds
the path is deeper, or as deep and earlier. -/
def Resolvable (mounts : List (MountedFS φ)) (path : Path) : Prop :=
  ∀ i m, mounts[i]? = some m → 0 < m.depth → (m.depth : ℤ) ≤ path.getDepth →
    i < m.depth ∧
      (m.mountPath.parts[i]? = path.parts[i]? → ¬m.mountPath.parts <+: path.parts →
        Beaten mounts (fun _ m => m.Holds path) MountedFS.depth i m)

theorem holds_of_root (hfolder : m.mountPath.folder = true) (hzero : m.depth = 0)
    (hle : (m.depth : ℤ) ≤ path.getDepth) : m.Holds path := by
  constructor
  · rw [List.eq_nil_of_length_eq_zero hzero]
    exact List.nil_prefix
  · rwa [getDepth_mount hfolder]

theorem resolvable_iff (hfolders : Folders mounts) : Resolvable mounts path ↔
    (∀ i m, mounts[i]? = some m → foundAt path i m ≠ none) ∧
      ∀ i m, mounts[i]? = some m → Accepts path i m → ¬m.Holds path →
        Beaten mounts (fun _ m => m.Holds path) MountedFS.depth i m := by
  have hfolder : ∀ (i : ℕ) m, mounts[i]? = some m → m.mountPath.folder = true :=
    fun i m hi => hfolders m (List.mem_of_getElem? hi)
  constructor
  · intro h
    have hsome : ∀ i m, mounts[i]? = some m → foundAt path i m ≠ none := by
      intro i m hi hnone
      obtain ⟨hpos, hle, hlen⟩ := (foundAt_eq_none_iff (hfolder i m hi)).mp hnone
      exact absurd (h i m hi hpos hle).1 (not_lt.mpr hlen)
    refine ⟨hsome, fun i m hi haccept hholds => ?_⟩
    obtain ⟨hle, hpart⟩ := (accepts_iff (hfolder i m hi) (hsome i m hi)).mp haccept
    rcases Nat.eq_zero_or_pos m.depth with hzero | hpos
    · exact absurd (holds_of_root (hfolder i m hi) hzero hle) hholds
    · refine (h i m hi hpos hle).2 (hpart hpos) fun hbegins => hholds ⟨hbegins, ?_⟩
      rwa [getDepth_mount (hfolder i m hi)]
  · rintro ⟨hsome, hbeaten⟩ i m hi hpos hle
    have hlt : i < m.depth := by
      by_contra hge
      exact hsome i m hi (foundAt_panics (hfolder i m hi) hpos hle (not_lt.mp hge))
    refine ⟨hlt, fun hpart hbegins => hbeaten i m hi ?_ fun hholds => hbegins hholds.1⟩
    exact (accepts_iff (hfolder i m hi) (hsome i m hi)).mpr ⟨hle, fun _ => hpart⟩

theorem resolves_iff (ops : φ → FS ω) (hfolders : Folders mounts) :
    Resolves ops mounts path ↔ Resolvable mounts path := by
  have hfolder : ∀ (i : ℕ) m, mounts[i]? = some m → m.mountPath.folder = true :=
    fun i m hi => hfolders m (List.mem_of_getElem? hi)
  have hagrees : (∀ i m, mounts[i]? = some m → foundAt path i m ≠ none) →
      ∃ best, getMountedFs mounts path = some best ∧
        (((best.isSome ↔ ∃ m ∈ mounts, m.Holds path) ∧
          ∀ m, best = some m → ∃ i, FirstMax mounts (fun _ m => m.Holds path) MountedFS.depth i m) ↔
        ∀ i m, mounts[i]? = some m → Accepts path i m → ¬m.Holds path →
          Beaten mounts (fun _ m => m.Holds path) MountedFS.depth i m) := by
    intro hsome
    obtain ⟨max, best, hget, hbest⟩ := getMountedFs_spec hfolders hsome
    refine ⟨best, hget, hbest.agrees_iff fun i m hholds hi => ?_⟩
    exact accepts_of_holds (hfolder i m hi) (hsome i m hi) hholds
  rw [resolvable_iff hfolders]
  constructor
  · intro h
    have hsome : ∀ i m, mounts[i]? = some m → foundAt path i m ≠ none :=
      fun i m hi hnone => h.total (getMountedFs_panics hi hnone)
    obtain ⟨best, hget, hiff⟩ := hagrees hsome
    refine ⟨hsome, hiff.mp ⟨h.found best hget, ?_⟩⟩
    rintro m rfl
    exact h.longest m hget
  · rintro ⟨hsome, hbeaten⟩
    obtain ⟨best, hget, hiff⟩ := hagrees hsome
    obtain ⟨hfound, hlongest⟩ := hiff.mpr hbeaten
    have hlongest' : ∀ m, getMountedFs mounts path = some (some m) →
        ∃ i, FirstMax mounts (fun _ m => m.Holds path) MountedFS.depth i m := by
      intro m hm
      rw [hget] at hm
      exact hlongest m (Option.some.inj hm)
    refine ⟨by simp [hget], fun found hfound' => ?_, hlongest', fun m hm => ?_⟩
    · rw [hget] at hfound'
      cases hfound'
      exact hfound
    · obtain ⟨i, hfirst⟩ := hlongest' m hm
      have hlen := depth_le_of_firstMax hfolders hfirst
      have htrim := trimmedPath_eq (hfolder i m hfirst.entry) hlen
      refine ⟨{ path with parts := path.parts.drop m.depth }, ?_, rfl, ?_, ?_⟩
      · obtain ⟨tail, htail⟩ := hfirst.admitted.1
        rw [← htail, MountedFS.depth, List.drop_left]
      · rintro s t pathStr oflag r rfl rfl hopen
        exact VFS.openFile_handsOver hopen hm htrim
      · rintro s t desct buf nbyte offset operation code buf' rfl rfl hio
        exact VFS.io_handsOver hio hm htrim

/-- A file system whose methods all fail. -/
def failingFs : FS Unit where
  mount := fun _ _ => (0, ())
  read := fun _ _ _ buf _ => (0, buf, ())
  write := fun _ _ _ buf _ => (0, buf, ())
  getFileSize := fun _ _ => (0, none, ())
  createFile := fun _ _ => (0, ())
  fileExist := fun _ _ => (0, ())

def mountAt (where' : List Char) (fs : ℕ) : MountedFS ℕ := ⟨Path.ofString where', fs⟩

/-- A root and a folder in it, mounted in the other order. -/
def nestedMounts : List (MountedFS ℕ) := [mountAt ['/', 'd', '/'] 0, mountAt ['/'] 1]

theorem resolves_iff_nested : Folders nestedMounts ∧
    (Resolves (fun _ => failingFs) nestedMounts (Path.ofString ['/', 'd', '/', 'a']) ↔
      Resolvable nestedMounts (Path.ofString ['/', 'd', '/', 'a'])) := by
  have hfolders : Folders nestedMounts := by decide
  exact ⟨hfolders, resolves_iff (fun _ => failingFs) hfolders⟩

/-- Two folders of depth one: the part of index one of the second is read. -/
def siblingMounts : List (MountedFS ℕ) :=
  [mountAt ['/', 'd', '/'] 0, mountAt ['/', 'm', '/'] 1]

theorem not_resolves : ¬∀ (mounts : List (MountedFS ℕ)) (path : Path), Folders mounts →
    Resolves (fun _ => failingFs) mounts path := by
  intro h
  have hfolders : Folders siblingMounts := by decide
  have hpanics : getMountedFs siblingMounts (Path.ofString ['/', 'd', '/', 'a']) = none := by
    decide
  exact (h siblingMounts (Path.ofString ['/', 'd', '/', 'a']) hfolders).total hpanics

end AviKernel
