import AviKernel.Drivers.VgaText

/-!
# The cursor of the text screen

The position of the cursor after a character is a function of the position
before it, except when a newline comes while a scroll is waiting: the cursor
then leaves the screen.
-/

namespace AviKernel.VgaText

namespace State

variable {f : State → Option State} {s t : State} {c : UInt8} {p k n : ℕ}

/-! ## Characters -/

/-- The cursor after a regular character. -/
def advance (p : ℕ) : ℕ := (if p = 2000 then 1920 else p) + 1

/-- The cursor after a character, if it stays on the screen. -/
def nextPosition (p : ℕ) (c : UInt8) : ℕ :=
  if c = 0x0A then if p / 80 + 1 = 25 then 1920 else 80 * (p / 80 + 1)
  else if c = 0x09 then advance^[4] p
  else if c = 0x08 then p - 1
  else advance p

/-- The screen holds no special characters, and the cursor is on it or below its
last line. -/
structure Screen (s : State) (p : ℕ) : Prop where
  position : s.At p
  le : p ≤ 2000
  plain : ∀ k < 2000, Plain (s.char k)
  inScreen : s.InScreen

theorem Screen.moveCursor (h : Screen s p) : Screen s.moveCursor p :=
  ⟨⟨h.position.x_nonneg, h.position.x_lt, h.position.position⟩, h.le, h.plain, h.inScreen⟩

theorem screen_of_put {q : ℕ} (h : Screen s p) (hput : Put s t p c) (hc : Plain c) (hat : t.At q)
    (hq : q ≤ 2000) : Screen t q where
  position := hat
  le := hq
  plain k hk := by
    rw [hput.char]
    split_ifs
    · exact hc
    · exact h.plain k hk
  inScreen := hput.inScreen h.inScreen

theorem y_of_pending (h : s.At 2000) : s.y = vgaRows ∧ s.x = 0 := by
  obtain ⟨hnonneg, hlt, hposition⟩ := h
  unfold vgaColumns at *
  unfold vgaRows
  omega

/-- A waiting scroll is made. -/
theorem scroll_spec (hy : s.y = vgaRows) (hplain : ∀ k < 2000, Plain (s.char k))
    (hs : s.InScreen) : ∃ t, scroll s = some t ∧ Screen t 1920 := by
  obtain ⟨t, ht, hx, hyt, hchar, hin⟩ := scrollWith_spec (f := scrollWithin 1) hy hplain
  refine ⟨t, ht, ⟨?_, ?_, ?_⟩, by decide, fun k hk => ?_, hin hs⟩
  · exact hx.ge
  · rw [hx]
    exact vgaColumns_pos
  · rw [hx, hyt]
    decide
  · rw [hchar k hk]
    split_ifs
    · exact hplain _ (by omega)
    · decide

theorem putRegularChar_screen (h : Screen s p) (hc : Plain c) :
    ∃ t, putRegularChar scroll s c true = some t ∧ Screen t (advance p) := by
  by_cases hpending : p = 2000
  · rw [hpending] at h
    obtain ⟨u, hu, hscreen⟩ := scroll_spec (y_of_pending h.position).1 h.plain h.inScreen
    obtain ⟨t, ht, hat, hput⟩ :=
      putRegularChar_spec (f := scroll) hscreen.position (by decide) c true
    refine ⟨t, ?_, ?_⟩
    · rw [putRegularChar, if_neg (y_ne_of_at hscreen.position (by decide))] at ht
      rw [putRegularChar, if_pos (y_of_pending h.position).1, hu]
      exact ht
    · rw [advance, if_pos hpending]
      exact screen_of_put hscreen hput hc hat (by decide)
  · have hlt := lt_of_le_of_ne h.le hpending
    obtain ⟨t, ht, hat, hput⟩ := putRegularChar_spec h.position hlt c true
    refine ⟨t, ht, ?_⟩
    rw [advance, if_neg hpending]
    exact screen_of_put h hput hc hat hlt

theorem putSpaces_screen (h : Screen s p) :
    ∃ t, putSpaces scroll s n = some t ∧ Screen t (advance^[n] p) := by
  have hstep : ∀ i < n, ∀ u, Screen u (advance^[i] p) →
      ∃ t, putRegularChar scroll u 0x20 true = some t ∧ Screen t (advance^[i + 1] p) := by
    intro i _ u hu
    rw [Function.iterate_succ_apply']
    exact putRegularChar_screen hu (by decide)
  exact run_range (J := fun i t => Screen t (advance^[i] p)) h hstep

theorem nextLine_at (h : s.At p) : s.nextLine.At (80 * (p / 80 + 1)) := by
  obtain ⟨hnonneg, hlt, hposition⟩ := h
  unfold vgaColumns at hlt hposition
  refine ⟨le_rfl, vgaColumns_pos, ?_⟩
  dsimp only [nextLine]
  unfold vgaColumns
  omega

theorem newline_screen (h : Screen s p) (hp : p ≠ 2000) :
    ∃ t, putchar s 0x0A = some t ∧ Screen t (nextPosition p 0x0A) := by
  have hlt := lt_of_le_of_ne h.le hp
  have hat := nextLine_at h.position
  rw [nextPosition, if_pos rfl]
  by_cases hlast : p / 80 + 1 = 25
  · have hy : s.nextLine.y = vgaRows := by
      rw [hlast] at hat
      exact (y_of_pending hat).1
    obtain ⟨t, ht, hscreen⟩ := scroll_spec hy h.plain h.inScreen
    refine ⟨t.moveCursor, ?_, ?_⟩
    · rw [putchar, putcharWith, if_pos rfl]
      dsimp only
      rw [if_pos hy, ht]
      rfl
    · rw [if_pos hlast]
      exact hscreen.moveCursor
  · have hy : s.nextLine.y ≠ vgaRows := y_ne_of_at hat (by omega)
    refine ⟨s.nextLine.moveCursor, ?_, ?_⟩
    · rw [putchar, putcharWith, if_pos rfl]
      dsimp only
      rw [if_neg hy]
      rfl
    · have hscreen : Screen s.nextLine (80 * (p / 80 + 1)) :=
        ⟨hat, by omega, h.plain, h.inScreen⟩
      rw [if_neg hlast]
      exact hscreen.moveCursor

/-- A newline while the screen waits for a scroll puts the cursor below it. -/
theorem newline_pending (h : Screen s 2000) : ∃ t, putchar s 0x0A = some t ∧ t.y = 26 := by
  have hy : s.nextLine.y = 26 := by
    have hpending := (y_of_pending h.position).1
    dsimp only [nextLine]
    rw [hpending]
    decide
  have hne : s.nextLine.y ≠ vgaRows := by
    rw [hy]
    decide
  refine ⟨s.nextLine.moveCursor, ?_, hy⟩
  rw [putchar, putcharWith, if_pos rfl]
  dsimp only
  rw [if_neg hne]
  rfl

/-- The cursor one position back. -/
def stepBack (s : State) : State :=
  let s := { s with x := s.x - 1 }
  if s.x = -1 then
    if s.y ≠ 0 then { s with y := s.y - 1, x := vgaColumns - 1 } else { s with x := 0 }
  else s

theorem stepBack_at (h : s.At p) : s.stepBack.At (p - 1) := by
  obtain ⟨hnonneg, hlt, hposition⟩ := h
  unfold vgaColumns at hlt hposition
  unfold stepBack
  dsimp only
  split_ifs with hstart hfirst
  · refine ⟨by dsimp only; unfold vgaColumns; omega, by dsimp only; omega, ?_⟩
    dsimp only
    unfold vgaColumns
    omega
  · refine ⟨le_rfl, vgaColumns_pos, ?_⟩
    dsimp only
    unfold vgaColumns
    omega
  · refine ⟨by dsimp only; omega, by dsimp only; unfold vgaColumns; omega, ?_⟩
    dsimp only
    unfold vgaColumns
    omega

theorem memory_stepBack : s.stepBack.memory = s.memory := by
  unfold stepBack
  dsimp only
  split_ifs <;> rfl

theorem stepBack_screen (h : Screen s p) : Screen s.stepBack (p - 1) := by
  have hwritten : s.stepBack.written = s.written := by
    unfold stepBack
    dsimp only
    split_ifs <;> rfl
  refine ⟨stepBack_at h.position, by have hle := h.le; omega, fun k hk => ?_, ?_⟩
  · rw [char, memory_stepBack]
    exact h.plain k hk
  · unfold InScreen
    rw [hwritten]
    exact h.inScreen

theorem backspace_screen (h : Screen s p) :
    ∃ t, backspace scroll s = some t ∧ Screen t (p - 1) := by
  have hback := stepBack_screen h
  have hlt : p - 1 < 2000 := by
    have hle := h.le
    omega
  obtain ⟨t, ht, hat, hput⟩ :=
    putRegularChar_spec (f := scroll) hback.position hlt 0x20 false
  exact ⟨t, ht, screen_of_put hback hput (by decide) hat hlt.le⟩

/-- A character that is not a newline on a screen that waits for a scroll. -/
theorem putchar_screen (h : Screen s p) (hc : ¬(c = 0x0A ∧ p = 2000)) :
    ∃ t, putchar s c = some t ∧ Screen t (nextPosition p c) := by
  by_cases hnewline : c = 0x0A
  · rw [hnewline]
    exact newline_screen h fun hp => hc ⟨hnewline, hp⟩
  · rw [putchar, putcharWith, nextPosition, if_neg hnewline, if_neg hnewline]
    by_cases htab : c = 0x09
    · obtain ⟨t, ht, hscreen⟩ := putSpaces_screen (n := 4) h
      rw [if_pos htab, if_pos htab, ht]
      exact ⟨t.moveCursor, rfl, hscreen.moveCursor⟩
    · rw [if_neg htab, if_neg htab]
      by_cases hback : c = 0x08
      · obtain ⟨t, ht, hscreen⟩ := backspace_screen h
        rw [if_pos hback, if_pos hback, ht]
        exact ⟨t.moveCursor, rfl, hscreen.moveCursor⟩
      · obtain ⟨t, ht, hscreen⟩ := putRegularChar_screen h ⟨hnewline, htab, hback⟩
        rw [if_neg hback, if_neg hback, ht]
        exact ⟨t.moveCursor, rfl, hscreen.moveCursor⟩

/-! ## Runs -/

/-- The cursor is on the screen, or waits for a scroll at the start of the line
below it, and nothing was written elsewhere. -/
structure Safe (s : State) : Prop where
  x_nonneg : 0 ≤ s.x
  x_lt : s.x < 80
  y_nonneg : 0 ≤ s.y
  y_le : s.y ≤ 25
  pending : s.y = 25 → s.x = 0
  inScreen : ∀ o ∈ s.written, o < 4000

/-- The character is no newline, or no scroll is waiting. -/
def NotPending (s : State) (c : UInt8) : Prop := ¬(c = 0x0A ∧ s.y = 25)

theorem Screen.safe (h : Screen s p) : Safe s := by
  obtain ⟨⟨hnonneg, hlt, hposition⟩, hle, -, hin⟩ := h
  unfold vgaColumns at hlt hposition
  exact ⟨hnonneg, hlt, by omega, by omega, by omega, hin⟩

theorem Screen.pending_iff (h : Screen s p) : s.y = 25 ↔ p = 2000 := by
  obtain ⟨⟨hnonneg, hlt, hposition⟩, hle, -⟩ := h
  unfold vgaColumns at hlt hposition
  omega

/-- A character keeps the screen safe exactly if it is no newline while a scroll is
waiting. -/
theorem safe_step_iff (h : Screen s p) :
    (∃ t, putchar s c = some t ∧ Safe t) ↔ NotPending s c := by
  constructor
  · rintro ⟨t, ht, hsafe⟩ ⟨rfl, hy⟩
    have hp := h.pending_iff.mp hy
    rw [hp] at h
    obtain ⟨u, hu, hyu⟩ := newline_pending h
    rw [Option.some.inj (ht.symm.trans hu)] at hsafe
    have hle := hsafe.y_le
    omega
  · intro hc
    obtain ⟨t, ht, hscreen⟩ := putchar_screen h fun hboth =>
      hc ⟨hboth.1, h.pending_iff.mpr hboth.2⟩
    exact ⟨t, ht, hscreen.safe⟩

theorem safe_run_iff (h : Screen s p) (cs : List UInt8) :
    (∀ n, ∃ t, run putchar s (cs.take n) = some t ∧ Safe t) ↔
      RunAll putchar NotPending s cs := by
  induction cs generalizing s p with
  | nil => exact iff_of_true (fun n => ⟨s, by rw [List.take_nil]; rfl, h.safe⟩) trivial
  | cons c cs ih =>
      rw [runAll_cons]
      constructor
      · intro hall
        have hc : NotPending s c := by
          obtain ⟨t, ht, hsafe⟩ := hall 1
          rw [List.take_succ_cons, List.take_zero, run_cons] at ht
          obtain ⟨u, hu, hrest⟩ := Option.bind_eq_some_iff.mp ht
          rw [← Option.some.inj hrest] at hsafe
          exact (safe_step_iff h).mp ⟨u, hu, hsafe⟩
        refine ⟨hc, fun u hu => ?_⟩
        obtain ⟨v, hv, hscreen⟩ := putchar_screen h fun hboth =>
          hc ⟨hboth.1, h.pending_iff.mpr hboth.2⟩
        rw [Option.some.inj (hu.symm.trans hv)]
        apply (ih hscreen).mp
        intro n
        have hnext := hall (n + 1)
        rwa [List.take_succ_cons, run_cons, hv] at hnext
      · rintro ⟨hc, hrest⟩ n
        obtain ⟨v, hv, hscreen⟩ := putchar_screen h fun hboth =>
          hc ⟨hboth.1, h.pending_iff.mpr hboth.2⟩
        cases n with
        | zero => exact ⟨s, rfl, h.safe⟩
        | succ n =>
            rw [List.take_succ_cons, run_cons, hv]
            exact (ih hscreen).mpr (hrest v hv) n

/-- No newline comes while a scroll is waiting. -/
def neverPending : ℕ → List UInt8 → Bool
  | _, [] => true
  | p, c :: cs => !(c == 0x0A && p == 2000) && neverPending (nextPosition p c) cs

theorem run_screen (cs : List UInt8) (h : Screen s p) (hcs : neverPending p cs = true) :
    ∃ t, run putchar s cs = some t ∧ Screen t (cs.foldl nextPosition p) := by
  induction cs generalizing s p with
  | nil => exact ⟨s, rfl, h⟩
  | cons c cs ih =>
      rw [neverPending, Bool.and_eq_true] at hcs
      have hc : ¬(c = 0x0A ∧ p = 2000) := not_and_or.mpr (by simpa using hcs.1)
      obtain ⟨u, hu, hscreen⟩ := putchar_screen h hc
      obtain ⟨t, ht, hafter⟩ := ih hscreen hcs.2
      exact ⟨t, by rw [run_cons, hu, Option.bind_some, ht], hafter⟩

/-! ## Initialization -/

theorem clear_screen (h : s.At 0) (hs : s.InScreen) : ∃ t, clear s = some t ∧ Screen t 0 := by
  obtain ⟨u, hu, hatu, hfilled⟩ :=
    putSpaces_spec (f := scroll) (n := 25 * 80 - 1) h (by decide)
  obtain ⟨t, ht, -, hput⟩ := putRegularChar_spec (f := scroll) hatu (by decide) 0x20 false
  refine ⟨{ t with x := 0, y := 0 }, ?_, ⟨le_rfl, vgaColumns_pos, rfl⟩, by decide,
    fun k hk => ?_, hput.inScreen (hfilled.inScreen hs)⟩
  · rw [clear, hu, Option.bind_eq_bind, Option.bind_some, ht]
    rfl
  · have hspace : ({ t with x := 0, y := 0 } : State).char k = 0x20 := by
      have hchar : ({ t with x := 0, y := 0 } : State).char k = t.char k := rfl
      rw [hchar, hput.char, hfilled.char]
      split_ifs <;> first | rfl | omega
    rw [hspace]
    decide

end State

open State

/-- Before initialization, with any video memory. -/
def booted (memory : ℕ → UInt8) (registers : UInt8 → UInt8) : State := ⟨0, 0, memory, registers, []⟩

/-- After initialization the cursor is at the start of the second line. -/
theorem initialize_screen (memory : ℕ → UInt8) (registers : UInt8 → UInt8) :
    ∃ s, initializeX (booted memory registers) = some s ∧ Screen s 80 := by
  have hstart : (booted memory registers).At 0 := ⟨le_rfl, vgaColumns_pos, rfl⟩
  have hclean : (booted memory registers).InScreen := fun o ho => absurd ho List.not_mem_nil
  obtain ⟨u, hu, hscreen⟩ := clear_screen hstart hclean
  have hcursor : Screen u.initializeCursor 0 :=
    ⟨⟨hscreen.position.x_nonneg, hscreen.position.x_lt, hscreen.position.position⟩, hscreen.le,
      hscreen.plain, hscreen.inScreen⟩
  obtain ⟨t, ht, hafter⟩ := run_screen message hcursor (by decide)
  have hposition : message.foldl nextPosition 0 = 80 := by decide
  rw [hposition] at hafter
  have hinit : initializeX (booted memory registers) =
      (booted memory registers).clear.bind fun s => run putchar s.initializeCursor message := rfl
  refine ⟨t, ?_, hafter⟩
  rw [hinit, hu, Option.bind_some, ht]

theorem safe_iff (memory : ℕ → UInt8) (registers : UInt8 → UInt8) :
    ∃ s, initializeX (booted memory registers) = some s ∧ Safe s ∧
      ∀ cs, (∀ n, ∃ t, run putchar s (cs.take n) = some t ∧ Safe t) ↔
        RunAll putchar NotPending s cs := by
  obtain ⟨s, hs, hscreen⟩ := initialize_screen memory registers
  exact ⟨s, hs, hscreen.safe, fun cs => safe_run_iff hscreen cs⟩

/-- Newlines down to the last line, and a full line. -/
def fullScreen : List UInt8 := List.replicate 23 0x0A ++ List.replicate 80 0x61

/-- The newline after a full last line. -/
theorem newline_fullScreen : ∃ s t, initializeX (booted (fun _ => 0) fun _ => 0) = some s ∧
    run putchar s (fullScreen ++ [0x0A]) = some t ∧ t.y = 26 ∧ ¬Safe t := by
  obtain ⟨s, hs, hscreen⟩ := initialize_screen (fun _ => 0) fun _ => 0
  obtain ⟨u, hu, hfull⟩ := run_screen fullScreen hscreen (by decide +kernel)
  have hposition : fullScreen.foldl nextPosition 80 = 2000 := by decide +kernel
  rw [hposition] at hfull
  obtain ⟨t, ht, hy⟩ := newline_pending hfull
  refine ⟨s, t, hs, ?_, hy, fun hsafe => ?_⟩
  · rw [run_append, hu, Option.bind_some, run_cons, ht]
    rfl
  · have hle := hsafe.y_le
    omega

end AviKernel.VgaText
