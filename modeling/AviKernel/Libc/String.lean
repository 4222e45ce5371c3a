import AviKernel.Library.Runs
import AviKernel.Library.Words
import AviKernel.Libc.CString

/-!
# The String class

A string has a buffer of its own and keeps its length beside it.  A buffer that
was allocated holds what the memory held; `fresh` has it.  An allocation that
fails, an access outside the buffer and a panic have no result.  A local that is
returned is not copied once more.
-/

namespace AviKernel.Libc

/-! ## Buffers -/

def newChar (fresh : ℕ → UInt8) (n : ℕ) : Option (List UInt8) :=
  if n = 0 then none else some ((List.range n).map fresh)

def realloc (fresh : ℕ → UInt8) (b : List UInt8) (n : ℕ) : Option (List UInt8) :=
  if n = 0 then none else some ((List.range n).map fun i => b.getD i (fresh i))

def setByte (b : List UInt8) (i : ℕ) (c : UInt8) : Option (List UInt8) :=
  if i < b.length then some (b.set i c) else none

section Buffers

variable {fresh : ℕ → UInt8} {b l : List UInt8} {i k n : ℕ} {c : UInt8}

theorem newChar_eq (hn : n ≠ 0) : newChar fresh n = some ((List.range n).map fresh) := if_neg hn

theorem setByte_eq (hi : i < b.length) : setByte b i c = some (b.set i c) := if_pos hi

theorem realloc_spells (fresh : ℕ → UInt8) (h : Spells 0 b l) (hn : l.length < n) :
    ∃ t, realloc fresh b n = some t ∧ t.length = n ∧ Spells 0 t l := by
  refine ⟨(List.range n).map fun i => b.getD i (fresh i), if_neg (by omega), by simp, ?_⟩
  obtain ⟨rest, rfl⟩ := h.eq
  have hget : ∀ i < n, ((List.range n).map fun i => (l ++ 0 :: rest).getD i (fresh i))[i]? =
      some ((l ++ 0 :: rest).getD i (fresh i)) := by
    intro i hi
    rw [List.getElem?_map, List.getElem?_range hi, Option.map_some]
  apply spells_of_getElem? h.notMem
  · intro i hi
    rw [hget i (by omega), List.getD_append _ _ _ _ hi, List.getD_eq_getElem _ _ hi,
      List.getElem?_eq_getElem hi]
  · rw [hget _ hn, List.getD_append_right _ _ _ _ le_rfl, Nat.sub_self]
    rfl

/-- A loop that writes one character from the beginning on. -/
theorem run_setByte : run (fun b i => setByte b i c) b (List.range k) =
    if k ≤ b.length then some (List.replicate k c ++ b.drop k) else none := by
  induction k with
  | zero => rfl
  | succ k ih =>
      rw [List.range_succ, run_append, ih]
      by_cases hk : k < b.length
      · have hsucc : k + 1 ≤ b.length := hk
        have hroom : k < (List.replicate k c ++ b.drop k).length := by
          rw [List.length_append, List.length_replicate, List.length_drop]
          omega
        have hset : (List.replicate k c ++ b.drop k).set k c =
            List.replicate (k + 1) c ++ b.drop (k + 1) := by
          rw [List.set_append_right _ _ (by simp), List.length_replicate, Nat.sub_self,
            List.drop_eq_getElem_cons hk, List.set_cons_zero, List.replicate_succ',
            List.append_assoc]
          rfl
        rw [if_pos hk.le, Option.bind_some, run_cons, setByte_eq hroom, hset, if_pos hsucc]
        rfl
      · have hsucc : ¬k + 1 ≤ b.length := hk
        rw [if_neg hsucc]
        by_cases heq : k ≤ b.length
        · have hfull : ¬k < (List.replicate k c ++ b.drop k).length := by
            rw [List.length_append, List.length_replicate, List.length_drop]
            omega
          rw [if_pos heq, Option.bind_some, run_cons, setByte, if_neg hfull]
          rfl
        · rw [if_neg heq]
          rfl

end Buffers

structure String where
  actualString : List UInt8
  size : ℕ

/-- The greatest `size_t`. -/
def npos : ℕ := 2 ^ 32 - 1

namespace String

/-! ## Private methods -/

/-- Nothing is left of the buffer that the string had. -/
def initializeFromCString (fresh : ℕ → UInt8) (s : List UInt8) : Option String := do
  let length ← strlen s
  let b ← newChar fresh (add32 length 1)
  let b ← strcpy b s
  some ⟨b, length⟩

def initializeFromChar (fresh : ℕ → UInt8) (c : UInt8) : Option String :=
  if c = 0 then do
    let b ← newChar fresh 1
    let b ← setByte b 0 c
    some ⟨b, 0⟩
  else do
    let b ← newChar fresh 2
    let b ← setByte b 0 c
    let b ← setByte b 1 0
    some ⟨b, 2⟩

def appendCString (fresh : ℕ → UInt8) (s : String) (str : List UInt8) : Option String := do
  let length ← strlen str
  let size := add32 s.size length
  let b ← realloc fresh s.actualString (add32 size 1)
  let b ← strcat b str
  some ⟨b, size⟩

def appendChar (fresh : ℕ → UInt8) (s : String) (c : UInt8) : Option String := do
  let size := add32 s.size 1
  let b ← realloc fresh s.actualString (add32 size 2)
  let b ← setByte b (sub32 size 1) c
  let b ← setByte b size 0
  some ⟨b, size⟩

/-! ## Constructors -/

def cStr (s : String) : List UInt8 := s.actualString

def ofNothing (fresh : ℕ → UInt8) : Option String := initializeFromChar fresh 0

def ofString (fresh : ℕ → UInt8) (str : String) : Option String :=
  initializeFromCString fresh str.cStr

def ofPointer (fresh : ℕ → UInt8) (s : List UInt8) (n : ℕ) : Option String := do
  let b ← newChar fresh (add32 n 1)
  let b ← run (fun b i => s[i]?.bind fun c => setByte b i c) b (List.range n)
  let b ← setByte b n 0
  some ⟨b, n⟩

/-- The loop counts up to the character, which is a byte with a sign. -/
def ofCount (fresh : ℕ → UInt8) (n : ℕ) (c : UInt8) : Option String := do
  let b ← newChar fresh (add32 n 1)
  let b ← run (fun b i => setByte b i c) b (List.range c.toInt8.toInt.toNat)
  let b ← setByte b n 0
  some ⟨b, n⟩

/-! ## Operators

The allocations of one operator are numbered.
-/

def addCString (fresh : ℕ → ℕ → UInt8) (lhs : String) (rhs : List UInt8) : Option String := do
  let s ← ofString (fresh 0) lhs
  appendCString (fresh 1) s rhs

def add (fresh : ℕ → ℕ → UInt8) (lhs rhs : String) : Option String :=
  addCString fresh lhs rhs.cStr

def cStringAdd (fresh : ℕ → ℕ → UInt8) (lhs : List UInt8) (rhs : String) : Option String := do
  let s ← initializeFromCString (fresh 0) lhs
  appendCString (fresh 1) s rhs.cStr

def addChar (fresh : ℕ → ℕ → UInt8) (lhs : String) (rhs : UInt8) : Option String := do
  let s ← ofString (fresh 0) lhs
  appendChar (fresh 1) s rhs

def charAdd (fresh : ℕ → ℕ → UInt8) (lhs : UInt8) (rhs : String) : Option String := do
  let _ ← ofNothing (fresh 0)
  let s ← initializeFromChar (fresh 1) lhs
  appendCString (fresh 2) s rhs.cStr

/-! ## Methods -/

def clear (fresh : ℕ → UInt8) : Option String := initializeFromChar fresh 0

/-- A write through the reference that `at` returns. -/
def setAt (s : String) (pos : ℕ) (c : UInt8) : Option String :=
  if pos > sub32 s.size 1 then none
  else (setByte s.actualString pos c).map fun b => { s with actualString := b }

def substr (fresh : ℕ → UInt8) (s : String) (pos len : ℕ) : Option String :=
  if pos = s.size then initializeFromCString fresh [0]
  else if pos > s.size then none
  else
    let len := if len = npos then sub32 s.size pos
      else if add32 len pos > s.size then sub32 s.size pos
      else len
    ofPointer fresh (s.cStr.drop pos) len

/-! ## The text of a string -/

/-- The buffer has room for the length and the terminator, the length is that of
the text in it, and the text is `l`. -/
structure Refines (s : String) (l : List UInt8) : Prop where
  room : s.size + 1 ≤ s.actualString.length
  strlen : strlen s.cStr = some s.size
  text : s.cStr.take s.size = l

variable {fresh : ℕ → UInt8} {s t : String} {str b l r : List UInt8} {c : UInt8} {n pos len : ℕ}

theorem refines_iff : s.Refines l ↔ Spells 0 s.cStr l ∧ s.size = l.length := by
  constructor
  · rintro ⟨hroom, hstrlen, rfl⟩
    refine ⟨spells_of_strlen hstrlen, ?_⟩
    have hle : s.size ≤ s.cStr.length := by
      have hroom : s.size + 1 ≤ s.cStr.length := hroom
      omega
    rw [List.length_take, Nat.min_eq_left hle]
  · rintro ⟨hspells, hsize⟩
    refine ⟨?_, ?_, ?_⟩
    · rw [hsize]
      exact hspells.length_lt
    · rw [hsize]
      exact strlen_of_spells hspells
    · rw [hsize]
      exact hspells.take

theorem Refines.spells (h : s.Refines l) : Spells 0 s.cStr l := (refines_iff.mp h).1

theorem Refines.size_eq (h : s.Refines l) : s.size = l.length := (refines_iff.mp h).2

theorem initializeFromCString_refines (fresh : ℕ → UInt8) (h : Spells 0 str l)
    (hfit : l.length + 1 < 2 ^ 32) :
    ∃ t, initializeFromCString fresh str = some t ∧ t.Refines l := by
  have hroom : l.length < ((List.range (l.length + 1)).map fresh).length := by simp
  have heq : initializeFromCString fresh str =
      some ⟨l ++ 0 :: ((List.range (l.length + 1)).map fresh).drop (l.length + 1), l.length⟩ := by
    rw [initializeFromCString, strlen_of_spells h, Option.bind_eq_bind, Option.bind_some,
      add32_of_lt hfit, newChar_eq (Nat.succ_ne_zero _), Option.bind_eq_bind, Option.bind_some,
      strcpy_of_spells h hroom]
    rfl
  exact ⟨_, heq, refines_iff.mpr ⟨spells_append h.notMem, rfl⟩⟩

/-- A character counts twice. -/
theorem initializeFromChar_spells (fresh : ℕ → UInt8) (c : UInt8) :
    ∃ t, initializeFromChar fresh c = some t ∧ Spells 0 t.cStr (AviKernel.text 0 [c]) ∧
      t.size = 2 * (AviKernel.text 0 [c]).length := by
  by_cases hc : c = 0
  · subst hc
    exact ⟨⟨[0], 0⟩, rfl, spells_append List.not_mem_nil, rfl⟩
  · have hnot : 0 ∉ [c] := by simpa using Ne.symm hc
    rw [text_singleton, if_neg hc]
    exact ⟨⟨[c, 0], 2⟩, if_neg hc, spells_append hnot, rfl⟩

theorem initializeFromChar_zero (fresh : ℕ → UInt8) :
    ∃ t, initializeFromChar fresh 0 = some t ∧ t.Refines [] :=
  ⟨⟨[0], 0⟩, rfl, refines_iff.mpr ⟨spells_append List.not_mem_nil, rfl⟩⟩

theorem initializeFromChar_refines_iff :
    (∃ t, initializeFromChar fresh c = some t ∧ t.Refines (AviKernel.text 0 [c])) ↔ c = 0 := by
  constructor
  · rintro ⟨t, ht, href⟩
    obtain ⟨t', ht', -, hsize⟩ := @initializeFromChar_spells fresh c
    obtain rfl : t = t' := Option.some.inj (ht.symm.trans ht')
    rw [href.size_eq, text_singleton] at hsize
    by_contra hc
    rw [if_neg hc] at hsize
    cases hsize
  · rintro rfl
    exact initializeFromChar_zero fresh

theorem appendCString_spells (fresh : ℕ → UInt8) (hs : Spells 0 s.cStr l) (hstr : Spells 0 str r)
    (hsize : l.length ≤ s.size) (hfit : s.size + r.length + 1 < 2 ^ 32) :
    ∃ t, appendCString fresh s str = some t ∧ Spells 0 t.cStr (l ++ r) ∧
      t.size = s.size + r.length := by
  obtain ⟨b, hb, hlen, hspells⟩ := realloc_spells (n := s.size + r.length + 1) fresh
    hs (by omega)
  obtain ⟨b', hb', -, hspells'⟩ := strcat_of_spells hspells hstr (by omega)
  have hrealloc : realloc fresh s.actualString (s.size + r.length + 1) = some b := hb
  have hsum : add32 s.size r.length = s.size + r.length := add32_of_lt (by omega)
  refine ⟨⟨b', s.size + r.length⟩, ?_, hspells', rfl⟩
  simp only [appendCString, strlen_of_spells hstr, hsum, add32_of_lt hfit, hrealloc, hb',
    Option.bind_eq_bind, Option.bind_some]

theorem appendCString_refines (h : s.Refines l) (hstr : Spells 0 str r)
    (hfit : l.length + r.length + 1 < 2 ^ 32) :
    ∃ t, appendCString fresh s str = some t ∧ t.Refines (l ++ r) := by
  have hsize := h.size_eq
  obtain ⟨t, ht, hspells, hsize'⟩ := appendCString_spells fresh h.spells hstr
    hsize.ge (by omega)
  refine ⟨t, ht, refines_iff.mpr ⟨hspells, ?_⟩⟩
  rw [hsize', hsize, List.length_append]

/-- The character comes after the text, whichever it is. -/
theorem appendChar_eq (fresh : ℕ → UInt8) (c : UInt8) (h : s.Refines l)
    (hfit : l.length + 3 < 2 ^ 32) : ∃ t rest, appendChar fresh s c = some t ∧
      t.cStr = l ++ c :: 0 :: rest ∧ t.size = l.length + 1 := by
  obtain ⟨b, hb, hlen, hspells⟩ := realloc_spells (n := l.length + 3) fresh
    h.spells (by omega)
  obtain ⟨rest, rfl⟩ := hspells.eq
  obtain ⟨x, rest, rfl⟩ : ∃ x rest', rest = x :: rest' := by
    cases rest with
    | nil => simp at hlen
    | cons x rest => exact ⟨x, rest, rfl⟩
  have hrealloc : realloc fresh s.actualString (l.length + 3) = some (l ++ 0 :: x :: rest) := hb
  have hfirst : setByte (l ++ 0 :: x :: rest) l.length c = some (l ++ c :: x :: rest) := by
    rw [setByte_eq (by simp), List.set_append_right _ _ le_rfl, Nat.sub_self]
    rfl
  have hsecond : setByte (l ++ c :: x :: rest) (l.length + 1) 0 = some (l ++ c :: 0 :: rest) := by
    rw [setByte_eq (by simp), List.set_append_right _ _ (by omega), Nat.add_sub_cancel_left]
    rfl
  have hsize : add32 l.length 1 = l.length + 1 := add32_of_lt (by omega)
  have hrequest : add32 (l.length + 1) 2 = l.length + 3 := add32_of_lt (by omega)
  have hlast : sub32 (l.length + 1) 1 = l.length := sub32_of_le (by omega) (by omega)
  refine ⟨⟨l ++ c :: 0 :: rest, l.length + 1⟩, rest, ?_, rfl, rfl⟩
  simp only [appendChar, h.size_eq, hsize, hrequest, hlast, hrealloc, hfirst, hsecond,
    Option.bind_eq_bind, Option.bind_some]

theorem appendChar_refines (fresh : ℕ → UInt8) (h : s.Refines l) (hc : c ≠ 0)
    (hfit : l.length + 3 < 2 ^ 32) :
    ∃ t, appendChar fresh s c = some t ∧ t.Refines (l ++ [c]) := by
  obtain ⟨t, rest, ht, hstr, hsize⟩ := appendChar_eq fresh c h hfit
  have hnot : 0 ∉ l ++ [c] := by
    intro hmem
    rcases List.mem_append.mp hmem with hmem | hmem
    · exact h.spells.notMem hmem
    · exact hc (List.mem_singleton.mp hmem).symm
  refine ⟨t, ht, refines_iff.mpr ⟨?_, by rw [hsize, List.length_append, List.length_singleton]⟩⟩
  rw [hstr]
  exact ⟨hnot, rest, by simp⟩

theorem appendChar_refines_iff (h : s.Refines l) (hfit : l.length + 3 < 2 ^ 32) :
    (∃ t, appendChar fresh s c = some t ∧ t.Refines (l ++ AviKernel.text 0 [c])) ↔ c ≠ 0 := by
  obtain ⟨t, rest, ht, hstr, hsize⟩ := appendChar_eq fresh c h hfit
  constructor
  · rintro ⟨t', ht', href⟩ rfl
    obtain rfl : t = t' := Option.some.inj (ht.symm.trans ht')
    have hlen := href.size_eq
    rw [hsize, text_cons_self, List.append_nil] at hlen
    omega
  · intro hc
    rw [text_singleton, if_neg hc]
    exact appendChar_refines fresh h hc hfit

/-! ## The other constructors -/

/-- A buffer of `n` characters and a terminator. -/
theorem refines_closed (hb : b.length = n) : Refines ⟨b ++ [0], n⟩ l ↔ b = l ∧ 0 ∉ b := by
  rw [refines_iff]
  constructor
  · rintro ⟨hspells, hsize⟩
    have htake : (b ++ [0]).take l.length = l := hspells.take
    have hlen : b.length = l.length := hb.trans hsize
    rw [← hlen, List.take_left] at htake
    exact ⟨htake, htake ▸ hspells.notMem⟩
  · rintro ⟨rfl, hnot⟩
    exact ⟨spells_append hnot, hb.symm⟩

theorem setByte_last (hb : b.length = n + 1) : setByte b n c = some (b.take n ++ [c]) := by
  have hdrop : b.drop (n + 1) = [] := List.drop_eq_nil_of_le hb.le
  rw [setByte_eq (by omega), List.set_eq_take_append_cons_drop, if_pos (by omega), hdrop]

theorem take_succ_set {i : ℕ} (hi : i < b.length) : (b.set i c).take (i + 1) = b.take i ++ [c] := by
  rw [List.set_eq_take_append_cons_drop, if_pos hi]
  have hlen : (b.take i).length = i := List.length_take_of_le hi.le
  rw [List.take_append, hlen, List.take_of_length_le (by omega), Nat.add_sub_cancel_left]
  rfl

theorem ofPointer_refines (hn : n ≤ str.length) (hnot : 0 ∉ str.take n) (hfit : n + 1 < 2 ^ 32) :
    ∃ t, ofPointer fresh str n = some t ∧ t.Refines (str.take n) := by
  have hstep : ∀ i < n, ∀ b : List UInt8, b.length = n + 1 ∧ b.take i = str.take i →
      ∃ t, (str[i]?.bind fun c => setByte b i c) = some t ∧
        t.length = n + 1 ∧ t.take (i + 1) = str.take (i + 1) := by
    rintro i hi b ⟨hlen, htake⟩
    have hstr : i < str.length := by omega
    refine ⟨b.set i str[i], ?_, by rw [List.length_set, hlen], ?_⟩
    · rw [List.getElem?_eq_getElem hstr, Option.bind_some, setByte_eq (by omega)]
    · rw [take_succ_set (by omega), htake, List.take_append_getElem]
  have hstart : ((List.range (n + 1)).map fresh).length = n + 1 := by simp
  obtain ⟨b, hb, hlen, htake⟩ := run_range
    (J := fun i (b : List UInt8) => b.length = n + 1 ∧ b.take i = str.take i)
    ⟨hstart, rfl⟩ hstep
  refine ⟨⟨str.take n ++ [0], n⟩, ?_, (refines_closed (List.length_take_of_le hn)).mpr ⟨rfl, hnot⟩⟩
  simp only [ofPointer, add32_of_lt hfit, newChar_eq (Nat.succ_ne_zero n), hb,
    setByte_last hlen, htake, Option.bind_eq_bind, Option.bind_some]

/-- What the buffer holds after the loop that counts up to the character. -/
theorem ofCount_eq {k : ℕ} (hk : c.toInt8.toInt.toNat = k) (hfit : n + 1 < 2 ^ 32) :
    ofCount fresh n c = if k ≤ n + 1 then
      some ⟨(List.range n).map (fun i => if i < k then c else fresh i) ++ [0], n⟩ else none := by
  have hlen : ((List.range (n + 1)).map fresh).length = n + 1 := by simp
  have hnew : newChar fresh (n + 1) = some ((List.range (n + 1)).map fresh) :=
    newChar_eq (Nat.succ_ne_zero n)
  rw [ofCount, add32_of_lt hfit, hnew, Option.bind_eq_bind, Option.bind_some, hk, run_setByte,
    hlen]
  by_cases hroom : k ≤ n + 1
  · have hlen' : (List.replicate k c ++ ((List.range (n + 1)).map fresh).drop k).length =
        n + 1 := by
      rw [List.length_append, List.length_replicate, List.length_drop, hlen]
      omega
    have hbody : (List.replicate k c ++ ((List.range (n + 1)).map fresh).drop k).take n =
        (List.range n).map fun i => if i < k then c else fresh i := by
      apply List.ext_getElem
      · rw [List.length_take_of_le (by omega), List.length_map, List.length_range]
      · intro i hi _
        rw [List.getElem_take, List.getElem_map, List.getElem_range]
        by_cases hik : i < k
        · rw [List.getElem_append_left (by simpa using hik), List.getElem_replicate, if_pos hik]
        · have hsum : k + (i - k) = i := by omega
          rw [List.getElem_append_right (by simpa using hik), if_neg hik]
          simp [hsum]
    rw [if_pos hroom, if_pos hroom, Option.bind_some, setByte_last hlen', hbody]
    rfl
  · rw [if_neg hroom, if_neg hroom]
    rfl

/-- The characters are right where the garbage happens to be. -/
theorem filled_iff {k : ℕ} {body : List UInt8}
    (hbody : (List.range n).map (fun i => if i < k then c else fresh i) = body) :
    (body = AviKernel.text 0 (List.replicate n c) ∧ 0 ∉ body) ↔
      ∀ i < n, c ≠ 0 ∧ (i < k ∨ fresh i = c) := by
  have hfill : ∀ i, (if i < k then c else fresh i) = c ↔ i < k ∨ fresh i = c := by
    intro i
    split
    · next hi => simp [hi]
    · next hi => simp [hi]
  have hlen : body.length = n := by
    rw [← hbody, List.length_map, List.length_range]
  by_cases hc : c = 0
  · subst hc
    rw [text_replicate_self]
    constructor
    · rintro ⟨rfl, -⟩ i hi
      rw [List.length_nil] at hlen
      omega
    · intro h
      cases n with
      | zero =>
          obtain rfl := List.eq_nil_of_length_eq_zero hlen
          exact ⟨rfl, List.not_mem_nil⟩
      | succ n => exact absurd rfl (h 0 (Nat.succ_pos n)).1
  · have hnot : 0 ∉ List.replicate n c := fun h => hc (List.eq_of_mem_replicate h).symm
    rw [text_of_notMem hnot]
    constructor
    · rintro ⟨heq, -⟩ i hi
      have hmem : (if i < k then c else fresh i) ∈ body := by
        rw [← hbody]
        exact List.mem_map.mpr ⟨i, List.mem_range.mpr hi, rfl⟩
      exact ⟨hc, (hfill i).mp ((List.eq_replicate_iff.mp heq).2 _ hmem)⟩
    · intro h
      have heq : body = List.replicate n c := by
        refine List.eq_replicate_iff.mpr ⟨hlen, fun x hx => ?_⟩
        rw [← hbody] at hx
        obtain ⟨i, hi, rfl⟩ := List.mem_map.mp hx
        exact (hfill i).mpr (h i (List.mem_range.mp hi)).2
      exact ⟨heq, heq ▸ hnot⟩

/-- The loop has to end in the buffer, too. -/
theorem ofCount_refines_iff (hfit : n + 1 < 2 ^ 32) :
    (∃ t, ofCount fresh n c = some t ∧ t.Refines (AviKernel.text 0 (List.replicate n c))) ↔
      c.toInt8.toInt ≤ n + 1 ∧ ∀ i < n, c ≠ 0 ∧ (i < c.toInt8.toInt ∨ fresh i = c) := by
  obtain ⟨k, hk⟩ : ∃ k, c.toInt8.toInt.toNat = k := ⟨_, rfl⟩
  have hlt : ∀ i : ℕ, (i : ℤ) < c.toInt8.toInt ↔ i < k := fun i => by omega
  have hroom : c.toInt8.toInt ≤ n + 1 ↔ k ≤ n + 1 := by omega
  have hlen : ((List.range n).map fun i => if i < k then c else fresh i).length = n := by simp
  simp only [ofCount_eq hk hfit, hlt, hroom]
  by_cases hkn : k ≤ n + 1
  · simp only [hkn, if_true, true_and, Option.some.injEq, exists_eq_left', refines_closed hlen]
    exact filled_iff rfl
  · simp [hkn]

theorem ofString_refines (fresh : ℕ → UInt8) (h : s.Refines l) (hfit : l.length + 1 < 2 ^ 32) :
    ∃ t, ofString fresh s = some t ∧ t.Refines l :=
  initializeFromCString_refines fresh h.spells hfit

theorem substr_refines (h : s.Refines l) (hfit : l.length + 1 < 2 ^ 32) (hpos : pos ≤ l.length)
    (hlen : len = npos ∨ pos + len < 2 ^ 32) :
    ∃ t, substr fresh s pos len = some t ∧ t.Refines ((l.drop pos).take len) := by
  have hsize := h.size_eq
  by_cases hend : pos = l.length
  · have hnil : (l.drop pos).take len = [] := by
      rw [hend, List.drop_length, List.take_nil]
    have hempty : Spells 0 [0] ([] : List UInt8) := spells_append List.not_mem_nil
    rw [substr, if_pos (by omega), hnil]
    exact initializeFromCString_refines fresh hempty (by simp)
  · have hcut : (if len = npos then sub32 s.size pos
        else if add32 len pos > s.size then sub32 s.size pos else len) =
        min len (l.length - pos) := by
      have hsub : sub32 s.size pos = l.length - pos := by
        rw [hsize]
        exact sub32_of_le (by omega) hpos
      rw [hsub]
      by_cases hnpos : len = npos
      · have hvalue : npos = 2 ^ 32 - 1 := rfl
        rw [if_pos hnpos]
        omega
      · have hsum : add32 len pos = len + pos := by
          apply add32_of_lt
          have := hlen.resolve_left hnpos
          omega
        rw [if_neg hnpos, hsum]
        split <;> omega
    have hspells := h.spells.drop hpos
    obtain ⟨rest, hrest⟩ := hspells.eq
    have hle : min len (l.length - pos) ≤ (l.drop pos).length := by
      rw [List.length_drop]
      exact Nat.min_le_right _ _
    have htake : (s.cStr.drop pos).take (min len (l.length - pos)) = (l.drop pos).take len := by
      rw [hrest, List.take_append_of_le_length hle, ← List.length_drop, ← List.take_eq_take_min]
    have hnot : 0 ∉ (l.drop pos).take len := fun hmem =>
      hspells.notMem (List.mem_of_mem_take hmem)
    rw [substr, if_neg (by omega), if_neg (by omega), hcut, ← htake]
    apply ofPointer_refines
    · exact hle.trans hspells.length_lt.le
    · rwa [htake]
    · omega

theorem setAt_refines (h : s.Refines l) (hfit : l.length + 1 < 2 ^ 32) (hpos : pos < l.length)
    (hc : c ≠ 0) : ∃ t, setAt s pos c = some t ∧ t.Refines (l.set pos c) := by
  have hsize := h.size_eq
  have hlast : sub32 s.size 1 = l.length - 1 := by
    rw [hsize]
    exact sub32_of_le (by omega) (by omega)
  have hroom : pos < s.actualString.length := hpos.trans h.spells.length_lt
  refine ⟨⟨s.actualString.set pos c, s.size⟩, ?_, refines_iff.mpr ⟨h.spells.set hpos hc, ?_⟩⟩
  · rw [setAt, hlast, if_neg (by omega), setByte_eq hroom]
    rfl
  · rw [List.length_set]
    exact hsize

/-! ## The operators on two operands -/

variable {garbage : ℕ → ℕ → UInt8}

theorem addCString_refines (h : s.Refines l) (hstr : Spells 0 str r)
    (hfit : l.length + r.length + 1 < 2 ^ 32) :
    ∃ t, addCString garbage s str = some t ∧ t.Refines (l ++ r) := by
  obtain ⟨u, hu, href⟩ := ofString_refines (garbage 0) h (by omega)
  rw [addCString, hu]
  exact appendCString_refines href hstr hfit

theorem cStringAdd_refines (hstr : Spells 0 str l) (h : s.Refines r)
    (hfit : l.length + r.length + 1 < 2 ^ 32) :
    ∃ t, cStringAdd garbage str s = some t ∧ t.Refines (l ++ r) := by
  obtain ⟨u, hu, href⟩ := initializeFromCString_refines (garbage 0) hstr (by omega)
  rw [cStringAdd, hu]
  exact appendCString_refines href h.spells hfit

theorem addChar_refines_iff (h : s.Refines l) (hfit : l.length + 3 < 2 ^ 32) :
    (∃ t, addChar garbage s c = some t ∧ t.Refines (l ++ AviKernel.text 0 [c])) ↔ c ≠ 0 := by
  obtain ⟨u, hu, href⟩ := ofString_refines (garbage 0) h (by omega)
  rw [addChar, hu]
  exact appendChar_refines_iff href hfit

/-- The character that counts twice is still counted twice. -/
theorem charAdd_spells (garbage : ℕ → ℕ → UInt8) (c : UInt8) (h : s.Refines l)
    (hfit : l.length + 3 < 2 ^ 32) :
    ∃ t, charAdd garbage c s = some t ∧ Spells 0 t.cStr (AviKernel.text 0 [c] ++ l) ∧
      t.size = 2 * (AviKernel.text 0 [c]).length + l.length := by
  obtain ⟨v, hv, -⟩ := initializeFromChar_zero (garbage 0)
  obtain ⟨u, hu, hspells, hsize⟩ := initializeFromChar_spells (garbage 1) c
  have hone : (AviKernel.text 0 [c]).length ≤ 1 := by
    rw [text_singleton]
    split <;> simp
  obtain ⟨t, ht, hspells', hsize'⟩ := appendCString_spells (garbage 2) hspells h.spells
    (by omega) (by omega)
  refine ⟨t, ?_, hspells', by rw [hsize', hsize]⟩
  rw [charAdd, ofNothing, hv, Option.bind_eq_bind, Option.bind_some, hu]
  exact ht

theorem charAdd_refines_iff (h : s.Refines l) (hfit : l.length + 3 < 2 ^ 32) :
    (∃ t, charAdd garbage c s = some t ∧ t.Refines (AviKernel.text 0 [c] ++ l)) ↔ c = 0 := by
  obtain ⟨t, heq, hspells, hsize⟩ := charAdd_spells garbage c h hfit
  have hlen : (AviKernel.text 0 [c]).length = 0 ↔ c = 0 := by
    rw [text_singleton]
    split <;> simp_all
  rw [heq, ← hlen]
  simp only [Option.some.injEq, exists_eq_left', refines_iff, hspells, true_and, hsize,
    List.length_append]
  omega

end String

end AviKernel.Libc
