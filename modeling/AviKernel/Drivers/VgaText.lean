import AviKernel.Library.Runs

/-!
# The text screen

Characters are put at the cursor, which wraps at the end of a line and waits
below the last line until the screen is scrolled.  Scrolling copies the lines
by putting their characters again; a scroll inside a scroll would need one more
level.
-/

namespace AviKernel.VgaText

def vgaRows : ℤ := 25

def vgaColumns : ℤ := 80

def vgaCharAttributes : UInt8 := 0x17

def vgaCursorStartIndex : UInt8 := 10

def vgaCursorOffsetHighIndex : UInt8 := 14

def vgaCursorOffsetLowIndex : UInt8 := 15

structure State where
  x : ℤ
  y : ℤ
  /-- The bytes from the start of the video memory on. -/
  memory : ℕ → UInt8
  /-- The registers of the display, by their index. -/
  registers : UInt8 → UInt8
  /-- The offsets of the characters that were written, newest first. -/
  written : List ℕ

namespace State

def xyToMemoryOffset (s : State) : ℕ := ((s.x * 2 + s.y * 2 * vgaColumns) % 2 ^ 16).toNat

def writeDataRegister (s : State) (index what : UInt8) : State :=
  { s with registers := Function.update s.registers index what }

def moveCursor (s : State) : State :=
  let offset := ((s.y * vgaColumns + s.x) % 2 ^ 16).toNat
  let s := s.writeDataRegister vgaCursorOffsetHighIndex (UInt8.ofNat (offset >>> 8))
  s.writeDataRegister vgaCursorOffsetLowIndex (UInt8.ofNat offset)

def nextLine (s : State) : State := { s with x := 0, y := s.y + 1 }

def nextChar (s : State) : State :=
  let s := { s with x := s.x + 1 }
  if s.x = vgaColumns then s.nextLine else s

/-- A character and its attributes at the cursor. -/
def putCell (s : State) (c : UInt8) : State :=
  let offset := s.xyToMemoryOffset
  { s with
    memory := Function.update (Function.update s.memory offset c) (offset + 1) vgaCharAttributes
    written := offset :: s.written }

section Scroll

variable (scroll : State → Option State)

def putRegularChar (s : State) (c : UInt8) (next : Bool) : Option State := do
  let s ← if s.y = vgaRows then scroll s else some s
  let s := s.putCell c
  some (if next then s.nextChar else s)

/-- A space `count` times. -/
def putSpaces (s : State) (count : ℕ) : Option State :=
  run (fun s _ => putRegularChar scroll s 0x20 true) s (List.range count)

def backspace (s : State) : Option State :=
  let s := { s with x := s.x - 1 }
  let s :=
    if s.x = -1 then
      if s.y ≠ 0 then { s with y := s.y - 1, x := vgaColumns - 1 } else { s with x := 0 }
    else s
  putRegularChar scroll s 0x20 false

def putcharWith (s : State) (c : UInt8) : Option State := do
  let s ←
    -- '\n'
    if c = 0x0A then
      let s := s.nextLine
      if s.y = vgaRows then scroll s else some s
    -- '\t'
    else if c = 0x09 then putSpaces scroll s 4
    -- '\b'
    else if c = 0x08 then backspace scroll s
    else putRegularChar scroll s c true
  some s.moveCursor

def copyChar (source target : ℤ) (s : State) (i : ℕ) : Option State :=
  let s := { s with y := source, x := i }
  let c := s.memory s.xyToMemoryOffset
  let s := { s with y := target, x := i }
  putcharWith scroll s c

def copyRow (s : State) (source target : ℤ) : Option State := do
  let t ← run (copyChar scroll source target) s (List.range 80)
  some { t with x := s.x, y := s.y }

/-- Each line from the second on is copied to the line above it. -/
def scrollWith (s : State) : Option State := do
  let s ← run (fun s (row : ℕ) => copyRow scroll s row (row - 1)) s (List.range' 1 24)
  let s := { s with x := 0, y := s.y - 1 }
  let s ← putSpaces scroll s 79
  let s ← putRegularChar scroll s 0x20 false
  some { s with x := 0 }

end Scroll

/-- A scroll with scrolls inside it, up to a depth. -/
def scrollWithin : ℕ → State → Option State
  | 0, _ => none
  | depth + 1, s => scrollWith (scrollWithin depth) s

def scroll (s : State) : Option State := scrollWithin 2 s

def putchar (s : State) (c : UInt8) : Option State := putcharWith scroll s c

def clear (s : State) : Option State := do
  let s ← putSpaces scroll s (25 * 80 - 1)
  let s ← putRegularChar scroll s 0x20 false
  some { s with x := 0, y := 0 }

def initializeCursor (s : State) : State :=
  (s.writeDataRegister vgaCursorStartIndex 0).moveCursor

end State

/-- `"Initialized VgaText...\n"` -/
def message : List UInt8 :=
  [0x49, 0x6E, 0x69, 0x74, 0x69, 0x61, 0x6C, 0x69, 0x7A, 0x65, 0x64, 0x20, 0x56, 0x67, 0x61,
    0x54, 0x65, 0x78, 0x74, 0x2E, 0x2E, 0x2E, 0x0A]

def initializeX (s : State) : Option State := do
  let s ← { s with x := 0, y := 0 }.clear
  run State.putchar s.initializeCursor message

namespace State

variable {f : State → Option State} {s t : State} {c : UInt8} {p k n : ℕ} {next : Bool}

/-! ## Positions -/

theorem vgaColumns_pos : 0 < vgaColumns := by decide

/-- The character at a position of the screen. -/
def char (s : State) (k : ℕ) : UInt8 := s.memory (2 * k)

/-- The cursor is at a position; `2000` is below the last line. -/
structure At (s : State) (p : ℕ) : Prop where
  x_nonneg : 0 ≤ s.x
  x_lt : s.x < vgaColumns
  position : s.x + vgaColumns * s.y = p

/-- Characters were written on the screen only. -/
def InScreen (s : State) : Prop := ∀ o ∈ s.written, o < 4000

theorem xyToMemoryOffset_of_at (h : s.At p) (hp : p < 2000) : s.xyToMemoryOffset = 2 * p := by
  obtain ⟨hnonneg, hlt, hposition⟩ := h
  unfold vgaColumns at *
  unfold xyToMemoryOffset vgaColumns
  omega

theorem y_ne_of_at (h : s.At p) (hp : p < 2000) : s.y ≠ vgaRows := by
  obtain ⟨hnonneg, hlt, hposition⟩ := h
  unfold vgaColumns at *
  unfold vgaRows
  omega

theorem at_nextChar (h : s.At p) : s.nextChar.At (p + 1) := by
  obtain ⟨hnonneg, hlt, hposition⟩ := h
  unfold nextChar
  dsimp only
  split_ifs with hend
  · refine ⟨le_rfl, vgaColumns_pos, ?_⟩
    dsimp only [nextLine]
    unfold vgaColumns at *
    omega
  · refine ⟨by dsimp only; omega, by dsimp only; omega, ?_⟩
    dsimp only
    unfold vgaColumns at *
    omega

theorem char_putCell (h : s.At p) (hp : p < 2000) (k : ℕ) :
    (s.putCell c).char k = if k = p then c else s.char k := by
  have hmemory : (s.putCell c).memory =
      Function.update (Function.update s.memory (2 * p) c) (2 * p + 1) vgaCharAttributes := by
    rw [putCell, xyToMemoryOffset_of_at h hp]
  have hattributes : 2 * k ≠ 2 * p + 1 := by omega
  rw [char, hmemory, Function.update_of_ne hattributes, Function.update_apply]
  have hsame : 2 * k = 2 * p ↔ k = p := by omega
  simp only [hsame]
  rfl

theorem inScreen_putCell (h : s.At p) (hp : p < 2000) (hs : s.InScreen) :
    (s.putCell c).InScreen := by
  have hwritten : (s.putCell c).written = 2 * p :: s.written := by
    rw [putCell, xyToMemoryOffset_of_at h hp]
  intro o ho
  rw [hwritten, List.mem_cons] at ho
  rcases ho with rfl | ho
  · omega
  · exact hs o ho

/-- What a character on the screen does. -/
structure Put (s t : State) (p : ℕ) (c : UInt8) : Prop where
  char : ∀ k, t.char k = if k = p then c else s.char k
  inScreen : s.InScreen → t.InScreen

@[simp] theorem memory_nextChar : s.nextChar.memory = s.memory := by
  unfold nextChar
  dsimp only
  split_ifs <;> rfl

@[simp] theorem written_nextChar : s.nextChar.written = s.written := by
  unfold nextChar
  dsimp only
  split_ifs <;> rfl

theorem put_putCell (h : s.At p) (hp : p < 2000) (c : UInt8) : Put s (s.putCell c) p c :=
  ⟨char_putCell h hp, inScreen_putCell h hp⟩

theorem Put.nextChar (h : Put s t p c) : Put s t.nextChar p c where
  char k := by
    have hchar : t.nextChar.char k = t.char k := by rw [State.char, memory_nextChar, State.char]
    rw [hchar, h.char]
  inScreen hs := by
    unfold InScreen
    rw [written_nextChar]
    exact h.inScreen hs

/-- A regular character on the screen is put without a scroll. -/
theorem putRegularChar_spec (h : s.At p) (hp : p < 2000) (c : UInt8) (next : Bool) :
    ∃ t, putRegularChar f s c next = some t ∧ t.At (if next then p + 1 else p) ∧
      Put s t p c := by
  have hcell : (s.putCell c).At p := ⟨h.x_nonneg, h.x_lt, h.position⟩
  unfold putRegularChar
  rw [if_neg (y_ne_of_at h hp)]
  cases next with
  | true => exact ⟨_, rfl, at_nextChar hcell, (put_putCell h hp c).nextChar⟩
  | false => exact ⟨_, rfl, hcell, put_putCell h hp c⟩

/-- Spaces fill the positions from the cursor on. -/
structure Filled (s t : State) (p n : ℕ) : Prop where
  char : ∀ k, t.char k = if p ≤ k ∧ k < p + n then 0x20 else s.char k
  inScreen : s.InScreen → t.InScreen

theorem Filled.put (h : Filled s t p n) {u : State} (hput : Put t u (p + n) 0x20) :
    Filled s u p (n + 1) where
  char k := by
    rw [hput.char, h.char]
    split_ifs <;> first | rfl | omega
  inScreen hs := hput.inScreen (h.inScreen hs)

theorem putSpaces_spec (h : s.At p) (hn : p + n ≤ 2000) :
    ∃ t, putSpaces f s n = some t ∧ t.At (p + n) ∧ Filled s t p n := by
  have hstart : s.At (p + 0) ∧ Filled s s p 0 :=
    ⟨h, fun k => (if_neg (by omega)).symm, fun hs => hs⟩
  have hstep : ∀ i < n, ∀ u, u.At (p + i) ∧ Filled s u p i →
      ∃ t, putRegularChar f u 0x20 true = some t ∧ t.At (p + (i + 1)) ∧
        Filled s t p (i + 1) := by
    intro i hi u hu
    obtain ⟨t, ht, hat, hput⟩ := putRegularChar_spec hu.1 (by omega) 0x20 true
    exact ⟨t, ht, hat, hu.2.put hput⟩
  exact run_range (J := fun i t => t.At (p + i) ∧ Filled s t p i) hstart hstep

/-! ## Scrolling -/

/-- Not a newline, a tab or a backspace. -/
def Plain (c : UInt8) : Prop := c ≠ 0x0A ∧ c ≠ 0x09 ∧ c ≠ 0x08

instance (c : UInt8) : Decidable (Plain c) := inferInstanceAs (Decidable (_ ∧ _ ∧ _))

theorem putcharWith_plain (h : s.At p) (hp : p < 2000) (hc : Plain c) :
    ∃ t, putcharWith f s c = some t ∧ t.At (p + 1) ∧ Put s t p c := by
  obtain ⟨t, ht, hat, hput⟩ := putRegularChar_spec h hp c true
  refine ⟨t.moveCursor, ?_, ⟨hat.x_nonneg, hat.x_lt, hat.position⟩, hput.char, hput.inScreen⟩
  rw [putcharWith, if_neg hc.1, if_neg hc.2.1, if_neg hc.2.2, ht]
  rfl

theorem at_of_coordinates {x y : ℕ} (hx : x < 80) :
    ({ s with y := y, x := x } : State).At (80 * y + x) := by
  refine ⟨?_, ?_, ?_⟩
  · exact Int.natCast_nonneg x
  · dsimp only
    unfold vgaColumns
    omega
  · dsimp only
    unfold vgaColumns
    omega

/-- A character is copied, and the cursor is behind it. -/
theorem copyChar_spec {source target i : ℕ} (hi : i < 80) (hsource : source < 25)
    (htarget : target < 25) (hc : Plain (s.char (80 * source + i))) :
    ∃ t, copyChar f source target s i = some t ∧
      Put s t (80 * target + i) (s.char (80 * source + i)) := by
  have hfrom : ({ s with y := source, x := i } : State).At (80 * source + i) :=
    at_of_coordinates hi
  have hto : ({ s with y := target, x := i } : State).At (80 * target + i) := at_of_coordinates hi
  obtain ⟨t, ht, -, hput⟩ := putcharWith_plain hto (by omega) hc
  refine ⟨t, ?_, hput.char, hput.inScreen⟩
  rw [copyChar, xyToMemoryOffset_of_at hfrom (by omega)]
  exact ht

/-- The first `n` characters of a line are copied. -/
structure Copied (s t : State) (source target n : ℕ) : Prop where
  char : ∀ k, t.char k = if 80 * target ≤ k ∧ k < 80 * target + n then
    s.char (80 * source + (k - 80 * target)) else s.char k
  inScreen : s.InScreen → t.InScreen

theorem Copied.put {u : State} {source target : ℕ} (h : Copied s t source target n)
    (hput : Put t u (80 * target + n) (t.char (80 * source + n))) (hn : n < 80) :
    Copied s u source target (n + 1) where
  char k := by
    have hkept : t.char (80 * source + n) = s.char (80 * source + n) := by
      rw [h.char, if_neg (by omega)]
    rw [hput.char, hkept, h.char]
    by_cases hk : k = 80 * target + n
    · have hin : 80 * target ≤ k ∧ k < 80 * target + (n + 1) := by omega
      have hsub : k - 80 * target = n := by omega
      rw [if_pos hk, if_pos hin, hsub]
    · have hiff : (80 * target ≤ k ∧ k < 80 * target + n) ↔
          80 * target ≤ k ∧ k < 80 * target + (n + 1) := by omega
      simp only [if_neg hk, hiff]
  inScreen hs := hput.inScreen (h.inScreen hs)

theorem Copied.copyChar {source target : ℕ} (h : Copied s t source target n) (hn : n < 80)
    (hsource : source < 25) (htarget : target < 25)
    (hplain : ∀ i < 80, Plain (s.char (80 * source + i))) :
    ∃ u, copyChar f source target t n = some u ∧ Copied s u source target (n + 1) := by
  have hkept : t.char (80 * source + n) = s.char (80 * source + n) := by
    rw [h.char, if_neg (by omega)]
  have hc : Plain (t.char (80 * source + n)) := by
    rw [hkept]
    exact hplain n hn
  obtain ⟨u, hu, hput⟩ := copyChar_spec hn hsource htarget hc
  exact ⟨u, hu, h.put hput hn⟩

theorem copied_zero {source target : ℕ} : Copied s s source target 0 :=
  ⟨fun _ => (if_neg (by omega)).symm, fun hs => hs⟩

theorem copyRow_spec {source target : ℕ} (hsource : source < 25)
    (htarget : target < 25) (hplain : ∀ i < 80, Plain (s.char (80 * source + i))) :
    ∃ t, copyRow f s source target = some t ∧ Copied s t source target 80 ∧
      t.x = s.x ∧ t.y = s.y := by
  obtain ⟨t, ht, hcopied⟩ := run_range (J := fun i t => Copied s t source target i) copied_zero
    fun i hi u hu => hu.copyChar (f := f) hi hsource htarget hplain
  refine ⟨{ t with x := s.x, y := s.y }, ?_, ⟨hcopied.char, hcopied.inScreen⟩, rfl, rfl⟩
  rw [copyRow, ht]
  rfl

/-- The first `n` lines are those that were below them. -/
structure Shifted (s t : State) (n : ℕ) : Prop where
  char : ∀ k, t.char k = if k < 80 * n then s.char (k + 80) else s.char k
  inScreen : s.InScreen → t.InScreen
  x : t.x = s.x
  y : t.y = s.y

theorem Shifted.copy {u : State} (h : Shifted s t n) (hcopied : Copied t u (n + 1) n 80)
    (hx : u.x = t.x) (hy : u.y = t.y) : Shifted s u (n + 1) where
  char k := by
    rw [hcopied.char]
    by_cases hk : 80 * n ≤ k ∧ k < 80 * n + 80
    · have hplace : 80 * (n + 1) + (k - 80 * n) = k + 80 := by omega
      rw [if_pos hk, hplace, h.char, if_neg (by omega), if_pos (by omega)]
    · rw [if_neg hk, h.char]
      split_ifs <;> first | rfl | omega
  inScreen hs := hcopied.inScreen (h.inScreen hs)
  x := hx.trans h.x
  y := hy.trans h.y

theorem shifted_zero : Shifted s s 0 :=
  ⟨fun _ => (if_neg (by omega)).symm, fun hs => hs, rfl, rfl⟩

theorem Shifted.copyRow {row : ℕ} (h : Shifted s t (row - 1)) (hrow : 1 ≤ row) (hlt : row < 25)
    (hplain : ∀ k < 2000, Plain (s.char k)) :
    (∀ i < 80, Plain (t.char (80 * row + i))) ∧
      ∃ u, copyRow f t row (row - 1) = some u ∧ Shifted s u (row + 1 - 1) := by
  have hkept : ∀ i < 80, Plain (t.char (80 * row + i)) := by
    intro i hi
    rw [h.char, if_neg (by omega)]
    exact hplain _ (by omega)
  obtain ⟨u, hu, hcopied, hx, hy⟩ := copyRow_spec (f := f) hlt (by omega : row - 1 < 25) hkept
  have hcast : ((row - 1 : ℕ) : ℤ) = row - 1 := by omega
  rw [hcast] at hu
  have hsucc : row - 1 + 1 = row := by omega
  have hnext : Shifted s u (row - 1 + 1) := h.copy (by rwa [hsucc]) hx hy
  refine ⟨hkept, u, hu, ?_⟩
  rwa [hsucc] at hnext

/-- A screen without special characters is shifted by one line, and the last line
is blank.  No scroll happens inside. -/
theorem scrollWith_spec (hy : s.y = vgaRows) (hplain : ∀ k < 2000, Plain (s.char k)) :
    ∃ t, scrollWith f s = some t ∧ t.x = 0 ∧ t.y = 24 ∧
      (∀ k < 2000, t.char k = if k < 1920 then s.char (k + 80) else 0x20) ∧
      (s.InScreen → t.InScreen) := by
  have hstep : ∀ row, 1 ≤ row → row < 1 + 24 → ∀ t, Shifted s t (row - 1) →
      ∃ u, copyRow f t row (row - 1) = some u ∧ Shifted s u (row + 1 - 1) :=
    fun _ hrow hlt _ ht => (ht.copyRow hrow hlt hplain).2
  obtain ⟨u, hu, hshifted⟩ := run_range' (J := fun row t => Shifted s t (row - 1)) shifted_zero hstep
  have hlast : ({ u with x := 0, y := u.y - 1 } : State).At 1920 := by
    refine ⟨le_rfl, vgaColumns_pos, ?_⟩
    dsimp only
    rw [hshifted.y, hy]
    decide
  obtain ⟨v, hv, hatv, hfilled⟩ := putSpaces_spec (n := 79) hlast (by decide)
  obtain ⟨t, ht, hat, hput⟩ := putRegularChar_spec hatv (by decide) 0x20 false
  refine ⟨{ t with x := 0 }, ?_, rfl, ?_, fun k hk => ?_, fun hs => ?_⟩
  · rw [scrollWith, hu, Option.bind_eq_bind, Option.bind_some]
    dsimp only
    rw [hv, Option.bind_some, ht]
    rfl
  · obtain ⟨hnonneg, hlt, hposition⟩ := hat
    unfold vgaColumns at *
    dsimp only
    simp only [Bool.false_eq_true, if_false] at hposition
    omega
  · have hchar : ({ t with x := 0 } : State).char k = t.char k := rfl
    have hsame : ({ u with x := 0, y := u.y - 1 } : State).char k = u.char k := rfl
    rw [hchar, hput.char, hfilled.char, hsame, hshifted.char]
    split_ifs <;> first | rfl | omega
  · exact hput.inScreen (hfilled.inScreen (hshifted.inScreen hs))

end State

end AviKernel.VgaText
