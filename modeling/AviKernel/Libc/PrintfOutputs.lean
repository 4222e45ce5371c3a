import AviKernel.Libc.PrintfTexts

/-!
# The outputs of a format

The bounded buffer of `snprintf_` and the screen of `printf_` are sinks of the same text.
-/

namespace AviKernel.Printf

variable {σ : Type} {floats : FloatTexts} {format : List UInt8} {va : List VaArg}
  {l : List UInt8} {m : Memory} {a buffer count n : ℕ}

/-! ## The buffer -/

/-- One character behind the other from an address on. -/
def storeAll (m : Memory) (a : ℕ) : List UInt8 → Memory
  | [] => m
  | c :: l => storeAll (m.storeByte a c) (a + 1) l

theorem byte_storeAll (m : Memory) (a : ℕ) (l : List UInt8) (x : ℕ) :
    (storeAll m a l).byte x =
      if a ≤ x ∧ x < a + l.length then l.getD (x - a) 0 else m.byte x := by
  induction l generalizing m a with
  | nil => exact (if_neg (by rw [List.length_nil]; omega)).symm
  | cons c l ih =>
      rw [storeAll, ih, List.length_cons]
      by_cases hx : x = a
      · subst hx
        rw [if_neg (by omega), if_pos (by omega), Nat.sub_self, Memory.byte_storeByte_self]
        rfl
      · rw [Memory.byte_storeByte_of_ne hx]
        by_cases hin : a + 1 ≤ x ∧ x < a + 1 + l.length
        · have hsucc : x - a = x - (a + 1) + 1 := by omega
          rw [if_pos hin, if_pos (by omega), hsucc, List.getD_cons_succ]
        · rw [if_neg hin, if_neg (by omega)]

theorem confined_storeAll {A : Set ℕ} (h : ∀ x, a ≤ x → x < a + l.length → x ∈ A) :
    Memory.Confined A m (storeAll m a l) := by
  induction l generalizing m a with
  | nil => exact Memory.Confined.refl A m
  | cons c l ih =>
      rw [List.length_cons] at h
      exact (Memory.confined_storeByte (h a le_rfl (by omega))).trans
        (ih fun x h₁ h₂ => h x (by omega) (by omega))

theorem putAll_storeAll (l : List UInt8) {i : ℕ} (h : i + l.length < 2 ^ 32) :
    ((⟨m, i⟩ : Cursor Memory).putAll (fun c idx m => m.storeByte (buffer + idx) c) l).state =
      storeAll m (buffer + i) l := by
  induction l generalizing m i with
  | nil => rfl
  | cons c l ih =>
      rw [List.length_cons] at h
      have hidx : add32 i 1 = i + 1 := add32_of_lt (by omega)
      rw [Cursor.putAll_cons, Cursor.put, hidx, ih (by omega)]
      rfl

/-- As much of a text as there is room for, and a terminator. -/
def truncated (count : ℕ) (l : List UInt8) : List UInt8 := l.take (count - 1) ++ [0]

theorem storeAll_concat (m : Memory) (a : ℕ) (l : List UInt8) (c : UInt8) :
    storeAll m a (l ++ [c]) = (storeAll m a l).storeByte (a + l.length) c := by
  induction l generalizing m a with
  | nil => rfl
  | cons b l ih =>
      rw [List.cons_append, storeAll, ih, storeAll, List.length_cons, Nat.add_assoc a 1,
        Nat.add_comm 1]

/-- The sink of a buffer: the characters below the bound. -/
theorem putAll_outBuffer (l : List UInt8) (hlt : l.length < 2 ^ 32) :
    ((⟨m, 0⟩ : Cursor Memory).putAll (sink outBuffer buffer count) l).state =
      storeAll m buffer (l.take count) := by
  have hroom : 0 + l.length < 2 ^ 32 := by rwa [Nat.zero_add]
  have htake : 0 + (l.take count).length < 2 ^ 32 := by
    rw [List.length_take]
    omega
  have hbounded : ((⟨m, 0⟩ : Cursor Memory).putAll (sink outBuffer buffer count) l).state =
      ((⟨m, 0⟩ : Cursor Memory).putAll (fun c idx m => m.storeByte (buffer + idx) c)
        (l.take (count - 0))).state :=
    putAll_bounded (fun _ _ _ => rfl) hroom
  exact hbounded.trans (putAll_storeAll (l.take count) htake)

/-- The terminator takes the place of the last character where the text is too long. -/
theorem byte_terminated (hcount : 0 < count) (hcount' : count < 2 ^ 32) (l : List UInt8) (x : ℕ) :
    (outBuffer 0 buffer (if l.length < count then l.length else sub32 count 1) count
      (storeAll m buffer (l.take count))).byte x =
      (storeAll m buffer (truncated count l)).byte x := by
  have hlast : sub32 count 1 = count - 1 := sub32_of_le hcount' hcount
  rw [truncated, storeAll_concat, hlast, outBuffer]
  by_cases hfits : l.length < count
  · have htake : l.take (count - 1) = l := List.take_of_length_le (by omega)
    rw [if_pos hfits, if_pos hfits, htake, List.take_of_length_le (by omega)]
  · have hlength : (l.take (count - 1)).length = count - 1 := by
      rw [List.length_take]
      omega
    have hlength' : (l.take count).length = count := by
      rw [List.length_take]
      omega
    rw [if_neg hfits, if_pos (by omega), hlength]
    by_cases hx : x = buffer + (count - 1)
    · rw [hx, Memory.byte_storeByte_self, Memory.byte_storeByte_self]
    · rw [Memory.byte_storeByte_of_ne hx, Memory.byte_storeByte_of_ne hx, byte_storeAll,
        byte_storeAll, hlength, hlength']
      by_cases hin : buffer ≤ x ∧ x < buffer + (count - 1)
      · rw [if_pos (by omega), if_pos hin, List.getD_eq_getElem?_getD, List.getD_eq_getElem?_getD,
          List.getElem?_take_of_lt (by omega), List.getElem?_take_of_lt (by omega)]
      · rw [if_neg (by omega), if_neg hin]

theorem confined_outBuffer (c : UInt8) (idx : ℕ) :
    Memory.Confined (Set.Ico buffer (buffer + count)) m (outBuffer c buffer idx count m) := by
  rw [outBuffer]
  split_ifs with hidx
  · exact Memory.confined_storeByte ⟨by omega, by omega⟩
  · exact Memory.Confined.refl _ m

theorem putAll_null (l : List UInt8) {s : Cursor σ} :
    (s.putAll (sink outNull buffer count) l).state = s.state := by
  induction l generalizing s with
  | nil => rfl
  | cons c l ih => exact ih

/-- `snprintf_` returns the length of the whole text for every buffer, a null pointer too.  It
leaves as much of the text as fits, with a terminator, and stores nowhere else. -/
theorem snprintf_eq (hl : text floats format va = some l) (hlt : l.length < 2 ^ 32)
    (hcount : count < 2 ^ 32) (m : Memory) : ∃ m', snprintf_ floats format va buffer count m =
      some (m', toInt32 l.length) ∧
      (buffer = 0 ∨ count = 0 → m' = m) ∧
      (buffer ≠ 0 → 0 < count → (∀ x, m'.byte x = (storeAll m buffer (truncated count l)).byte x)
        ∧ Memory.Confined (Set.Ico buffer (buffer + count)) m m') := by
  have hidx : l.length % 2 ^ 32 = l.length := Nat.mod_eq_of_lt hlt
  rw [snprintf_, vsnprintf_eq, hl, Option.map_some, hidx]
  by_cases hbuffer : buffer = 0
  · rw [if_pos hbuffer]
    refine ⟨_, rfl, fun _ => ?_, fun hne => absurd hbuffer hne⟩
    exact putAll_null l
  · rw [if_neg hbuffer]
    refine ⟨_, rfl, fun hnone => ?_, fun _ hpos => ?_⟩
    · have hzero : count = 0 := hnone.resolve_left hbuffer
      rw [putAll_outBuffer l hlt, hzero, List.take_zero]
      exact if_neg (Nat.not_lt_zero _)
    · rw [putAll_outBuffer l hlt]
      refine ⟨byte_terminated hpos hcount l, ?_⟩
      have hall : Memory.Confined (Set.Ico buffer (buffer + count)) m
          (storeAll m buffer (l.take count)) := by
        apply confined_storeAll
        intro x hx hx'
        have hle := List.length_take_le count l
        exact ⟨hx, by omega⟩
      exact hall.trans (confined_outBuffer 0 _)

/-- The five characters of `%05d` for -42 in a buffer of four. -/
theorem snprintf_eq_truncated : ∃ m', snprintf_ ⟨fun _ _ _ _ => [], fun _ _ _ _ => []⟩
    [0x25, 0x30, 0x35, 0x64, 0] [.word (-42)] 0x1000 4 ⟨fun _ => 0xAA, []⟩ = some (m', 5) ∧
      m'.byte 0x1000 = 0x2D ∧ m'.byte 0x1002 = 0x30 ∧ m'.byte 0x1003 = 0 ∧
        m'.byte 0x1004 = 0xAA := by
  have hl : text ⟨fun _ _ _ _ => [], fun _ _ _ _ => []⟩ [0x25, 0x30, 0x35, 0x64, 0]
    [.word (-42)] = some [0x2D, 0x30, 0x30, 0x34, 0x32] := rfl
  obtain ⟨m', hcall, -, hbytes⟩ := snprintf_eq hl (by decide) (show 4 < 2 ^ 32 by decide)
    ⟨fun _ => 0xAA, []⟩
  obtain ⟨hbyte, -⟩ := hbytes (show 0x1000 ≠ 0 by decide) (by decide)
  exact ⟨m', hcall, (hbyte _).trans rfl, (hbyte _).trans rfl, (hbyte _).trans rfl,
    (hbyte _).trans rfl⟩

/-! ## The other outputs -/

/-- A text that is typed without its zeros. -/
theorem vsnprintf_type {out : OutFct σ} {type : UInt8 → σ → σ} (hbuffer : buffer ≠ 0)
    (hout : ∀ c i s, out c buffer i count s = if c ≠ 0 then type c s else s) (s : σ) :
    vsnprintf floats out buffer count format va s = (text floats format va).map fun l =>
      ((l.filter (· ≠ 0)).foldl (fun s c => type c s) s, toInt32 (l.length % 2 ^ 32)) := by
  rw [vsnprintf_eq, if_neg hbuffer]
  congr 1
  funext l
  have hfold : ((⟨s, 0⟩ : Cursor σ).putAll (sink out buffer count) l).state =
      l.foldl (fun s c => if c ≠ 0 then type c s else s) s :=
    putAll_eq_foldl fun c i s => hout c i s
  have hend : ∀ i s, out 0 buffer i count s = s := fun i s => hout 0 i s
  simp only [hend, hfold, List.foldl_filter, decide_eq_true_eq]

/-- `printf_` types the characters of the text that are not zero, and counts all of them. -/
theorem printf_eq (putchar : UInt8 → σ → σ) {stack : ℕ} (hstack : stack ≠ 0) (s : σ) :
    printf_ floats format va putchar stack s = (text floats format va).map fun l =>
      ((l.filter (· ≠ 0)).foldl (fun s c => putchar c s) s, toInt32 (l.length % 2 ^ 32)) :=
  vsnprintf_type hstack (fun _ _ _ => rfl) s

theorem fctprintf_eq (fct : UInt8 → ℕ → σ → σ) (arg : ℕ) {wrap : ℕ} (hwrap : wrap ≠ 0) (s : σ) :
    fctprintf floats format va fct arg wrap s = (text floats format va).map fun l =>
      ((l.filter (· ≠ 0)).foldl (fun s c => fct c arg s) s, toInt32 (l.length % 2 ^ 32)) :=
  vsnprintf_type hwrap (fun _ _ _ => rfl) s

end AviKernel.Printf
