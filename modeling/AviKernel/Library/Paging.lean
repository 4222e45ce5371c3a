import Mathlib.Tactic

/-!
# Two-level paging

Physical memory is frames of 1024 words.  A directory entry gives a page table,
or with the size bit 1024 frames in a row, and a table entry gives the frame of
a page.  Addresses are divided into the indexes in the directory, the table and
the page; a word is reached through the directory that the processor uses.
-/

namespace AviKernel.Paging

/-- The words of the frames. -/
abbrev Frames := ℕ → ℕ → ℕ

variable {m m' : Frames} {root i j k f g l v w : ℕ}

def store (m : Frames) (f k w : ℕ) : Frames := fun g l => if g = f ∧ l = k then w else m g l

/-- The words of a frame from `n` on, up to the last one, are kept. -/
def clearFirst (m : Frames) (f n : ℕ) : Frames := fun g l => if g = f ∧ l < n then 0 else m g l

theorem store_self : store m f k w f k = w := if_pos ⟨rfl, rfl⟩

theorem store_of_ne (h : g ≠ f) : store m f k w g l = m g l := if_neg fun hmem => h hmem.1

theorem store_of_ne_word (h : l ≠ k) : store m f k w g l = m g l := if_neg fun hmem => h hmem.2

theorem clearFirst_of_ne (h : g ≠ f) : clearFirst m f k g l = m g l := if_neg fun hmem => h hmem.1

theorem clearFirst_self (h : l < k) : clearFirst m f k f l = 0 := if_pos ⟨rfl, h⟩

theorem clearFirst_zero : clearFirst m f 0 = m := by
  funext g l
  exact if_neg fun hmem => Nat.not_lt_zero l hmem.2

theorem store_clearFirst : store (clearFirst m f k) f k 0 = clearFirst m f (k + 1) := by
  funext g l
  unfold store clearFirst
  by_cases hframe : g = f
  · by_cases hword : l = k
    · simp [hframe, hword]
    · have hlt : l < k + 1 ↔ l < k := by omega
      simp [hframe, hword, hlt]
  · simp [hframe]

/-! ## Entries -/

def isPresent (e : ℕ) : Bool := e.testBit 0

/-- The size bit of a directory entry. -/
def isLarge (e : ℕ) : Bool := e.testBit 7

/-- Programs of the user may use the page. -/
def isUser (e : ℕ) : Bool := e.testBit 2

def frameOf (e : ℕ) : ℕ := e / 4096

/-- The entry of a page in a table. -/
def entryIn (m : Frames) (table j : ℕ) : Option ℕ :=
  if isPresent (m table j) then some (m table j) else none

/-- The frame that a table gives for a page. -/
def pageIn (m : Frames) (table j : ℕ) : Option ℕ := (entryIn m table j).map frameOf

/-- The frame of page `j` of the directory entry `i`. -/
def walk (m : Frames) (root i j : ℕ) : Option ℕ :=
  if isPresent (m root i) then
    if isLarge (m root i) then some (m root i / 2 ^ 22 * 1024 + j)
    else pageIn m (frameOf (m root i)) j
  else none

/-- May the user use the page?  Both entries have to allow it. -/
def userMay (m : Frames) (root i j : ℕ) : Bool :=
  isPresent (m root i) && isUser (m root i) &&
    (isLarge (m root i) ||
      isPresent (m (frameOf (m root i)) j) && isUser (m (frameOf (m root i)) j))

theorem entryIn_congr (h : m' f j = m f j) : entryIn m' f j = entryIn m f j := by
  unfold entryIn
  rw [h]

theorem pageIn_congr (h : m' f j = m f j) : pageIn m' f j = pageIn m f j := by
  rw [pageIn, entryIn_congr h, pageIn]

/-- A walk depends on two words. -/
theorem walk_congr (hdir : m' root i = m root i)
    (htable : isLarge (m root i) = true ∨
      m' (frameOf (m root i)) j = m (frameOf (m root i)) j) :
    walk m' root i j = walk m root i j := by
  unfold walk
  rw [hdir]
  cases htable with
  | inl hlarge => rw [if_pos hlarge, if_pos hlarge]
  | inr hword => rw [pageIn_congr hword]

theorem walk_of_table (hpresent : isPresent (m root i) = true) (hsmall : isLarge (m root i) = false) :
    walk m root i j = pageIn m (frameOf (m root i)) j := by
  unfold walk
  rw [if_pos hpresent, if_neg (by simp [hsmall])]

theorem walk_of_not_present (h : isPresent (m root i) = false) : walk m root i j = none :=
  if_neg (by simp [h])

theorem entryIn_of_present (h : isPresent (m f j) = true) : entryIn m f j = some (m f j) :=
  if_pos h

theorem entryIn_of_not_present (h : isPresent (m f j) = false) : entryIn m f j = none :=
  if_neg (by simp [h])

theorem pageIn_of_present (h : isPresent (m f j) = true) :
    pageIn m f j = some (frameOf (m f j)) := by
  rw [pageIn, entryIn_of_present h, Option.map_some]

theorem userMay_of_table (hpresent : isPresent (m root i) = true)
    (huser : isUser (m root i) = true) (hsmall : isLarge (m root i) = false) :
    userMay m root i j = (entryIn m (frameOf (m root i)) j).any isUser := by
  unfold userMay entryIn
  rw [hpresent, huser, hsmall]
  cases hentry : isPresent (m (frameOf (m root i)) j) <;> simp

/-! ## Addresses -/

/-- The address of a word. -/
def address (i j k : ℕ) : ℕ := 2 ^ 22 * i + 2 ^ 12 * j + 4 * k

structure Cpu where
  memory : Frames
  /-- The register with the address of the directory. -/
  cr3 : ℕ

namespace Cpu

variable {cpu : Cpu}

/-- The frame and the word at an address, if the page is mapped. -/
def translate (cpu : Cpu) (v : ℕ) : Option (ℕ × ℕ) :=
  (walk cpu.memory (cpu.cr3 / 4096) (v / 2 ^ 22 % 1024) (v / 2 ^ 12 % 1024)).map fun f =>
    (f, v % 4096 / 4)

/-- Load a word.  There is none in a page that is not mapped. -/
def load (cpu : Cpu) (v : ℕ) : Option ℕ := (cpu.translate v).map fun place =>
  cpu.memory place.1 place.2

def store (cpu : Cpu) (v w : ℕ) : Option Cpu := (cpu.translate v).map fun place =>
  { cpu with memory := Paging.store cpu.memory place.1 place.2 w }

theorem translate_address (hi : i < 1024) (hj : j < 1024) (hk : k < 1024) :
    cpu.translate (address i j k) =
      (walk cpu.memory (cpu.cr3 / 4096) i j).map fun f => (f, k) := by
  have hdir : address i j k / 2 ^ 22 % 1024 = i := by
    unfold address
    omega
  have htable : address i j k / 2 ^ 12 % 1024 = j := by
    unfold address
    omega
  have hword : address i j k % 4096 / 4 = k := by
    unfold address
    omega
  rw [translate, hdir, htable, hword]

theorem load_address (hi : i < 1024) (hj : j < 1024) (hk : k < 1024)
    (h : walk cpu.memory (cpu.cr3 / 4096) i j = some f) :
    cpu.load (address i j k) = some (cpu.memory f k) := by
  rw [load, translate_address hi hj hk, h]
  rfl

theorem store_address (hi : i < 1024) (hj : j < 1024) (hk : k < 1024)
    (h : walk cpu.memory (cpu.cr3 / 4096) i j = some f) (w : ℕ) :
    cpu.store (address i j k) w = some { cpu with memory := Paging.store cpu.memory f k w } := by
  rw [store, translate_address hi hj hk, h]
  rfl

/-- A word that is stored is in the page that the walk gives. -/
theorem store_some {cpu' : Cpu} (hi : i < 1024) (hj : j < 1024) (hk : k < 1024)
    (h : cpu.store (address i j k) w = some cpu') :
    ∃ f, walk cpu.memory (cpu.cr3 / 4096) i j = some f ∧
      cpu' = { cpu with memory := Paging.store cpu.memory f k w } := by
  rw [store, translate_address hi hj hk, Option.map_map] at h
  obtain ⟨f, hf, hstore⟩ := Option.map_eq_some_iff.mp h
  exact ⟨f, hf, hstore.symm⟩

end Cpu

end AviKernel.Paging
