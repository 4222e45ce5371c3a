import AviKernel.Drivers.VgaTextRuns

/-!
# Scrolling the text screen

A screen never holds a newline, a tab or a backspace, wherever the cursor went.  So
scrolling it puts regular characters on the screen only and ends before the cursor is
below the last line again.
-/

namespace AviKernel.VgaText

namespace State

variable {f g : State → Option State} {s t u : State} {c : UInt8} {p n source target : ℕ}

/-! ## Characters and attributes on the screen -/

/-- Everything that is written is on the screen. -/
structure Confined (s t : State) : Prop where
  written : ∃ os, t.written = os ++ s.written ∧ ∀ o ∈ os, o < 4000
  memory : ∀ o, 4000 ≤ o → t.memory o = s.memory o

theorem Confined.refl (s : State) : Confined s s := ⟨⟨[], rfl, by simp⟩, fun _ _ => rfl⟩

theorem Confined.trans (h : Confined s t) (h' : Confined t u) : Confined s u := by
  obtain ⟨⟨os, hos, hlt⟩, hmemory⟩ := h
  obtain ⟨⟨os', hos', hlt'⟩, hmemory'⟩ := h'
  refine ⟨⟨os' ++ os, ?_, fun o ho => ?_⟩, fun o ho => (hmemory' o ho).trans (hmemory o ho)⟩
  · rw [hos', hos, List.append_assoc]
  · exact (List.mem_append.mp ho).elim (hlt' o) (hlt o)

theorem confined_putCell (h : s.At p) (hp : p < 2000) (c : UInt8) : Confined s (s.putCell c) := by
  have hoffset := xyToMemoryOffset_of_at h hp
  refine ⟨⟨[2 * p], ?_, fun o ho => ?_⟩, fun o ho => ?_⟩
  · rw [putCell, hoffset]
    rfl
  · rw [List.mem_singleton.mp ho]
    omega
  · have hmemory : (s.putCell c).memory =
        Function.update (Function.update s.memory (2 * p) c) (2 * p + 1) vgaCharAttributes := by
      rw [putCell, hoffset]
    rw [hmemory, Function.update_of_ne (by omega), Function.update_of_ne (by omega)]

theorem confined_putRegularChar {next : Bool} (h : s.At p) (hp : p < 2000)
    (ht : putRegularChar f s c next = some t) : Confined s t := by
  have hcell := confined_putCell h hp c
  rw [putRegularChar, if_neg (y_ne_of_at h hp)] at ht
  cases next with
  | false =>
      cases ht
      exact hcell
  | true =>
      have hnext : Confined (s.putCell c) (s.putCell c).nextChar :=
        ⟨⟨[], written_nextChar, by simp⟩, fun o _ => by rw [memory_nextChar]⟩
      cases ht
      exact hcell.trans hnext

theorem confined_putSpaces (h : s.At p) (hn : p + n ≤ 2000) (ht : putSpaces f s n = some t) :
    Confined s t := by
  have hstep : ∀ i < n, ∀ u, u.At (p + i) ∧ Confined s u →
      ∃ t, putRegularChar f u 0x20 true = some t ∧ t.At (p + (i + 1)) ∧ Confined s t := by
    intro i hi u ⟨hat, hconfined⟩
    obtain ⟨t, ht, hat', -⟩ := putRegularChar_spec (f := f) hat (by omega) 0x20 true
    exact ⟨t, ht, hat', hconfined.trans (confined_putRegularChar hat (by omega) ht)⟩
  obtain ⟨u, hu, -, hconfined⟩ := run_range (J := fun i t => t.At (p + i) ∧ Confined s t)
    ⟨h, Confined.refl s⟩ hstep
  rw [Option.some.inj (ht.symm.trans hu)]
  exact hconfined

theorem confined_putcharWith (h : s.At p) (hp : p < 2000) (hc : Plain c)
    (ht : putcharWith f s c = some t) : Confined s t := by
  rw [putcharWith, if_neg hc.1, if_neg hc.2.1, if_neg hc.2.2] at ht
  obtain ⟨u, hu, hcursor⟩ := Option.bind_eq_some_iff.mp ht
  have hconfined := confined_putRegularChar h hp hu
  cases hcursor
  exact ⟨hconfined.written, hconfined.memory⟩

theorem confined_copyChar {i : ℕ} (hi : i < 80) (hsource : source < 25) (htarget : target < 25)
    (hc : Plain (s.char (80 * source + i))) (ht : copyChar f source target s i = some t) :
    Confined s t := by
  have hfrom : ({ s with y := source, x := i } : State).At (80 * source + i) :=
    at_of_coordinates hi
  have hto : ({ s with y := target, x := i } : State).At (80 * target + i) := at_of_coordinates hi
  rw [copyChar, xyToMemoryOffset_of_at hfrom (by omega)] at ht
  have hconfined := confined_putcharWith hto (by omega) hc ht
  exact ⟨hconfined.written, hconfined.memory⟩

theorem confined_copyRow (hsource : source < 25) (htarget : target < 25)
    (hplain : ∀ i < 80, Plain (s.char (80 * source + i)))
    (ht : copyRow f s source target = some t) : Confined s t := by
  have hstep : ∀ i < 80, ∀ u, Copied s u source target i ∧ Confined s u →
      ∃ t, copyChar f source target u i = some t ∧ Copied s t source target (i + 1) ∧
        Confined s t := by
    intro i hi u ⟨hcopied, hconfined⟩
    have hkept : u.char (80 * source + i) = s.char (80 * source + i) := by
      rw [hcopied.char, if_neg (by omega)]
    have hc : Plain (u.char (80 * source + i)) := by
      rw [hkept]
      exact hplain i hi
    obtain ⟨t, ht, hcopied'⟩ := hcopied.copyChar (f := f) hi hsource htarget hplain
    exact ⟨t, ht, hcopied', hconfined.trans (confined_copyChar hi hsource htarget hc ht)⟩
  obtain ⟨u, hu, -, hconfined⟩ := run_range
    (J := fun i t => Copied s t source target i ∧ Confined s t) ⟨copied_zero, Confined.refl s⟩ hstep
  obtain ⟨v, hv, hrestored⟩ := Option.bind_eq_some_iff.mp ht
  cases hrestored
  rw [Option.some.inj (hv.symm.trans hu)]
  exact ⟨hconfined.written, hconfined.memory⟩

theorem confined_scrollWith (hy : s.y = vgaRows) (hplain : ∀ k < 2000, Plain (s.char k))
    (ht : scrollWith f s = some t) : Confined s t := by
  have hstep : ∀ row, 1 ≤ row → row < 1 + 24 → ∀ u, Shifted s u (row - 1) ∧ Confined s u →
      ∃ t, copyRow f u row (row - 1) = some t ∧ Shifted s t (row + 1 - 1) ∧ Confined s t := by
    intro row hrow hlt u ⟨hshifted, hconfined⟩
    obtain ⟨hkept, t, ht, hshifted'⟩ := hshifted.copyRow (f := f) hrow hlt hplain
    have hcast : ((row - 1 : ℕ) : ℤ) = row - 1 := by omega
    refine ⟨t, ht, hshifted', hconfined.trans ?_⟩
    rw [← hcast] at ht
    exact confined_copyRow hlt (by omega) hkept ht
  obtain ⟨u, hu, hshifted, hconfined⟩ := run_range'
    (J := fun row t => Shifted s t (row - 1) ∧ Confined s t) ⟨shifted_zero, Confined.refl s⟩ hstep
  have hlast : ({ u with x := 0, y := u.y - 1 } : State).At 1920 := by
    refine ⟨le_rfl, vgaColumns_pos, ?_⟩
    dsimp only
    rw [hshifted.y, hy]
    decide
  have hlast' : Confined s { u with x := 0, y := u.y - 1 } := ⟨hconfined.written, hconfined.memory⟩
  rw [scrollWith, hu, Option.bind_eq_bind, Option.bind_some] at ht
  obtain ⟨v, hv, hrest⟩ := Option.bind_eq_some_iff.mp ht
  obtain ⟨w, hw, hstart⟩ := Option.bind_eq_some_iff.mp hrest
  obtain ⟨v', hv', hat, -⟩ := putSpaces_spec (f := f) (n := 79) hlast (by decide)
  have hsame := Option.some.inj (hv'.symm.trans hv)
  rw [hsame] at hat
  have hend := (hlast'.trans (confined_putSpaces hlast (by decide) hv)).trans
    (confined_putRegularChar hat (by decide) hw)
  cases hstart
  exact ⟨hend.written, hend.memory⟩

/-! ## The scroll inside a scroll -/

/-- A scroll that may be missing. -/
def Within (f g : State → Option State) : Prop := ∀ s t, f s = some t → g s = some t

theorem within_zero : Within (scrollWithin 0) g := fun _ _ h => nomatch h

theorem bind_within {x y : Option State} {k : State → Option State}
    (h : ∀ u, x = some u → y = some u) (ht : x >>= k = some t) : y >>= k = some t := by
  obtain ⟨u, hu, hrest⟩ := Option.bind_eq_some_iff.mp ht
  exact Option.bind_eq_some_iff.mpr ⟨u, h u hu, hrest⟩

theorem putRegularChar_within (hfg : Within f g) (c : UInt8) (next : Bool) :
    Within (putRegularChar f · c next) (putRegularChar g · c next) := by
  intro s t ht
  unfold putRegularChar at ht ⊢
  dsimp only at ht ⊢
  by_cases hy : s.y = vgaRows
  · rw [if_pos hy] at ht ⊢
    exact bind_within (hfg s) ht
  · rw [if_neg hy] at ht ⊢
    exact ht

theorem run_within {α : Type*} {step step' : State → α → Option State}
    (h : ∀ a, Within (step · a) (step' · a)) (as : List α) :
    Within (run step · as) (run step' · as) := by
  intro s t ht
  induction as generalizing s with
  | nil => exact ht
  | cons a as ih =>
      obtain ⟨u, hu, hrest⟩ := Option.bind_eq_some_iff.mp ht
      exact Option.bind_eq_some_iff.mpr ⟨u, h a s u hu, ih u hrest⟩

theorem putSpaces_within (hfg : Within f g) (n : ℕ) :
    Within (putSpaces f · n) (putSpaces g · n) :=
  run_within (fun _ => putRegularChar_within hfg 0x20 true) _

theorem backspace_within (hfg : Within f g) : Within (backspace f) (backspace g) :=
  fun _ _ ht => putRegularChar_within hfg 0x20 false _ _ ht

theorem putcharWith_within (hfg : Within f g) (c : UInt8) :
    Within (putcharWith f · c) (putcharWith g · c) := by
  intro s t ht
  unfold putcharWith at ht ⊢
  dsimp only at ht ⊢
  split_ifs at ht ⊢
  · exact bind_within (hfg s.nextLine) ht
  · exact ht
  · exact bind_within (putSpaces_within hfg 4 s) ht
  · exact bind_within (backspace_within hfg s) ht
  · exact bind_within (putRegularChar_within hfg c true s) ht

theorem copyRow_within (hfg : Within f g) (source target : ℤ) :
    Within (copyRow f · source target) (copyRow g · source target) :=
  fun s _ => bind_within (run_within (fun _ _ => putcharWith_within hfg _ _) (List.range 80) s)

theorem scrollWith_within (hfg : Within f g) : Within (scrollWith f) (scrollWith g) := by
  intro s t ht
  obtain ⟨u, hu, hrest⟩ := Option.bind_eq_some_iff.mp ht
  obtain ⟨v, hv, hlast⟩ := Option.bind_eq_some_iff.mp hrest
  have hrows := run_within (fun row : ℕ => copyRow_within hfg row (row - 1)) _ s u hu
  have hspaces := putSpaces_within hfg 79 _ v hv
  have hspace := bind_within (putRegularChar_within hfg 0x20 false v) hlast
  exact Option.bind_eq_some_iff.mpr ⟨u, hrows, Option.bind_eq_some_iff.mpr ⟨v, hspaces, hspace⟩⟩

/-! ## Screens wherever the cursor is -/

/-- No character of the screen is a newline, a tab or a backspace. -/
def PlainScreen (s : State) : Prop := ∀ k < 2000, Plain (s.char k)

/-- A row further up, a blank last row, and the cursor at its start. -/
structure Scrolled (s t : State) : Prop where
  rows : ∀ r < 24, ∀ i < 80, t.char (80 * r + i) = s.char (80 * (r + 1) + i)
  last : ∀ i < 80, t.char (80 * 24 + i) = 0x20
  x : t.x = 0
  y : t.y = 24
  confined : Confined s t

/-- One level is enough: the scroll needs no scroll inside it. -/
theorem scroll_scrolled (hy : s.y = 25) (hplain : PlainScreen s) :
    ∃ t, (∀ f, scrollWith f s = some t) ∧ scroll s = some t ∧ Scrolled s t := by
  obtain ⟨t, ht, hx, hyt, hchar, -⟩ := scrollWith_spec (f := scrollWithin 0) hy hplain
  have hall : ∀ f, scrollWith f s = some t := fun f => scrollWith_within within_zero s t ht
  refine ⟨t, hall, hall _, ⟨fun r hr i hi => ?_, fun i hi => ?_, hx, hyt,
    confined_scrollWith hy hplain ht⟩⟩
  · have hplace : 80 * r + i + 80 = 80 * (r + 1) + i := by omega
    rw [hchar _ (by omega), if_pos (by omega), hplace]
  · rw [hchar _ (by omega), if_neg (by omega)]

theorem Scrolled.plainScreen (h : Scrolled s t) (hs : PlainScreen s) : PlainScreen t := by
  intro k hk
  have hdiv := Nat.div_add_mod k 80
  have hmod := Nat.mod_lt k (by decide : 0 < 80)
  by_cases hrow : k / 80 < 24
  · rw [← hdiv, h.rows _ hrow _ hmod]
    exact hs _ (by omega)
  · have hlast : k / 80 = 24 := by omega
    rw [← hdiv, hlast, h.last _ hmod]
    decide

/-- The characters have even offsets, wherever the cursor is. -/
theorem putCell_plainScreen (hs : PlainScreen s) (hc : Plain c) : PlainScreen (s.putCell c) := by
  intro k hk
  have hparity : s.xyToMemoryOffset % 2 = 0 := by
    unfold xyToMemoryOffset vgaColumns
    omega
  have hattributes : 2 * k ≠ s.xyToMemoryOffset + 1 := by omega
  have hchar : (s.putCell c).char k =
      Function.update s.memory s.xyToMemoryOffset c (2 * k) :=
    Function.update_of_ne hattributes _ _
  rw [hchar, Function.update_apply]
  split_ifs
  · exact hc
  · exact hs k hk

theorem putRegularChar_plainScreen (hs : PlainScreen s) (hc : Plain c) (next : Bool) :
    ∃ t, putRegularChar scroll s c next = some t ∧ PlainScreen t := by
  have hput : ∀ u, PlainScreen u → PlainScreen (if next then (u.putCell c).nextChar
      else u.putCell c) := by
    intro u hu
    have hcell := putCell_plainScreen hu hc
    split_ifs
    · intro k hk
      rw [char, memory_nextChar]
      exact hcell k hk
    · exact hcell
  unfold putRegularChar
  by_cases hy : s.y = vgaRows
  · obtain ⟨u, -, hu, hscrolled⟩ := scroll_scrolled hy hs
    rw [if_pos hy, hu]
    exact ⟨_, rfl, hput u (hscrolled.plainScreen hs)⟩
  · rw [if_neg hy]
    exact ⟨_, rfl, hput s hs⟩

theorem putchar_plainScreen (hs : PlainScreen s) (c : UInt8) :
    ∃ t, putchar s c = some t ∧ PlainScreen t := by
  have hspace : Plain 0x20 := by decide
  unfold putchar putcharWith
  dsimp only
  split_ifs with hnewline hy htab hback
  · obtain ⟨t, -, ht, hscrolled⟩ := scroll_scrolled (s := s.nextLine) hy hs
    rw [ht]
    exact ⟨_, rfl, hscrolled.plainScreen hs⟩
  · exact ⟨_, rfl, hs⟩
  · obtain ⟨t, ht, hplain⟩ := run_range (J := fun _ t => PlainScreen t) hs
      fun _ _ u hu => putRegularChar_plainScreen hu hspace true
    rw [putSpaces, ht]
    exact ⟨_, rfl, hplain⟩
  · have hmemory : PlainScreen s.stepBack := by
      unfold PlainScreen char
      rw [memory_stepBack]
      exact hs
    obtain ⟨t, ht, hplain⟩ := putRegularChar_plainScreen hmemory hspace false
    have hback : backspace scroll s = some t := ht
    rw [hback]
    exact ⟨_, rfl, hplain⟩
  · obtain ⟨t, ht, hplain⟩ := putRegularChar_plainScreen hs ⟨hnewline, htab, hback⟩ true
    rw [ht]
    exact ⟨_, rfl, hplain⟩

end State

open State

/-- Whatever was put on the screen, a scroll shifts it by one row, from the cursor as it is
or as a newline, a tab or a backspace moves it first. -/
theorem scroll_shifts_screen (memory : ℕ → UInt8) (registers : UInt8 → UInt8) (cs : List UInt8) :
    ∃ s t, initializeX (booted memory registers) = some s ∧ run putchar s cs = some t ∧
      PlainScreen t ∧ ∀ u, u.memory = t.memory → u.y = 25 → ∃ v, (∀ f, scrollWith f u = some v) ∧
        scroll u = some v ∧ Scrolled u v := by
  obtain ⟨s, hs, hscreen⟩ := initialize_screen memory registers
  have hany : RunAll putchar (fun _ _ => True) s cs := runAll_of_forall fun _ _ => trivial
  obtain ⟨t, ht, hplain⟩ := run_invariant (I := PlainScreen)
    (fun u c hu _ => putchar_plainScreen hu c) hscreen.plain hany
  refine ⟨s, t, hs, ht, hplain, fun u hmemory hy => scroll_scrolled hy ?_⟩
  unfold PlainScreen char
  rw [hmemory]
  exact hplain

/-- A full screen that waits for a scroll. -/
theorem scroll_shifts_screen_full : ∃ s t v, initializeX (booted (fun _ => 0) fun _ => 0) = some s ∧
    run putchar s fullScreen = some t ∧ t.y = 25 ∧ scroll t = some v ∧ Scrolled t v := by
  obtain ⟨s, t, hs, ht, -, hscroll⟩ := scroll_shifts_screen (fun _ => 0) (fun _ => 0) fullScreen
  obtain ⟨s', hs', hscreen⟩ := initialize_screen (fun _ => 0) fun _ => 0
  obtain ⟨t', ht', hfull⟩ := run_screen fullScreen hscreen (by decide +kernel)
  rw [Option.some.inj (hs'.symm.trans hs)] at ht'
  rw [Option.some.inj (ht'.symm.trans ht)] at hfull
  have hposition : fullScreen.foldl nextPosition 80 = 2000 := by decide +kernel
  have hy : t.y = 25 := hfull.pending_iff.mpr hposition
  obtain ⟨v, -, hv, hscrolled⟩ := hscroll t rfl hy
  exact ⟨s, t, v, hs, ht, hy, hv, hscrolled⟩

end AviKernel.VgaText
