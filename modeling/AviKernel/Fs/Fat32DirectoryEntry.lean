import AviKernel.Libc.String

/-!
# Directory entries of FAT32

The name in a long entry is scattered over it.  The table of its positions gives the
loop its length; the bytes that the loop reads are those at the counter.
-/

namespace AviKernel

structure FAT32DirectoryEntry where
  bytes : Fin 32 → UInt8

namespace FAT32DirectoryEntry

def indexes : Fin 13 → Fin 32 := ![1, 3, 5, 7, 9, 14, 16, 18, 20, 22, 24, 28, 30]

/-- The place of `bytes[i]`, where the table is not looked at. -/
def counter (i : Fin 13) : Fin 32 := i.castLE (by decide)

/-- The loop of `le_get_name` at the counters still to come. -/
def leNameFrom (fresh : ℕ → ℕ → UInt8) (e : FAT32DirectoryEntry) :
    List (Fin 13) → Libc.String → Option Libc.String
  | [], s => some s
  | i :: todo, s =>
      if e.bytes (counter i) = 0 then some s
      else (s.appendChar (fresh (i + 1)) (e.bytes (counter i))).bind (e.leNameFrom fresh todo)

def leGetName (fresh : ℕ → ℕ → UInt8) (e : FAT32DirectoryEntry) : Option Libc.String :=
  (Libc.String.ofNothing (fresh 0)).bind (e.leNameFrom fresh (List.finRange 13))

/-! ## The name of a long entry -/

/-- What stands at the given places, up to a zero. -/
def textAt (e : FAT32DirectoryEntry) (place : Fin 13 → Fin 32) : List UInt8 :=
  text 0 (List.ofFn fun i => e.bytes (place i))

def Returns (fresh : ℕ → ℕ → UInt8) (e : FAT32DirectoryEntry) (l : List UInt8) : Prop :=
  ∃ s, e.leGetName fresh = some s ∧ s.Refines l

/-- The entries that agree with `e` in the places of the name have the same name. -/
def Independent (fresh : ℕ → ℕ → UInt8) (e : FAT32DirectoryEntry) : Prop :=
  ∀ e' : FAT32DirectoryEntry, (∀ i, e'.bytes (indexes i) = e.bytes (indexes i)) →
    ∀ l, e.Returns fresh l → e'.Returns fresh l

variable {fresh : ℕ → ℕ → UInt8} {e : FAT32DirectoryEntry} {s : Libc.String} {l r : List UInt8}
  {todo : List (Fin 13)}

theorem leNameFrom_refines (h : s.Refines l) (hfit : l.length + todo.length + 3 < 2 ^ 32) :
    ∃ t, e.leNameFrom fresh todo s = some t ∧
      t.Refines (l ++ text 0 (todo.map fun i => e.bytes (counter i))) := by
  induction todo generalizing s l with
  | nil => exact ⟨s, rfl, by simpa using h⟩
  | cons i todo ih =>
      rw [List.length_cons] at hfit
      rw [leNameFrom, List.map_cons]
      by_cases hzero : e.bytes (counter i) = 0
      · rw [if_pos hzero, hzero, text_cons_self, List.append_nil]
        exact ⟨s, rfl, h⟩
      · obtain ⟨t, ht, href⟩ := Libc.String.appendChar_refines (fresh (i + 1)) h hzero (by omega)
        rw [if_neg hzero, text_cons_ne hzero, ht, Option.bind_some, List.append_cons]
        apply ih href
        rw [List.length_append, List.length_singleton]
        omega

theorem leGetName_refines : e.Returns fresh (e.textAt counter) := by
  obtain ⟨s, hs, href⟩ := Libc.String.initializeFromChar_zero (fresh 0)
  have hnone : Libc.String.ofNothing (fresh 0) = some s := hs
  rw [Returns, leGetName, hnone, Option.bind_some, textAt, List.ofFn_eq_map]
  exact leNameFrom_refines href (by simp)

theorem returns_iff : e.Returns fresh l ↔ e.textAt counter = l := by
  obtain ⟨s, hs, href⟩ := @leGetName_refines fresh e
  constructor
  · rintro ⟨t, ht, hl⟩
    obtain rfl : s = t := Option.some.inj (hs.symm.trans ht)
    exact href.text.symm.trans hl.text
  · rintro rfl
    exact ⟨s, hs, href⟩

/-- The byte at the counter `0` is the first one, whatever the name is. -/
theorem textAt_counter_eq_nil : e.textAt counter = [] ↔ e.bytes 0 = 0 := by
  have hfirst : e.bytes (counter 0) = e.bytes 0 := rfl
  rw [textAt, List.ofFn_succ, hfirst]
  by_cases hzero : e.bytes 0 = 0
  · rw [hzero, text_cons_self]
    simp
  · rw [text_cons_ne hzero]
    simp [hzero]

theorem indexes_ne_zero (i : Fin 13) : indexes i ≠ 0 := by
  revert i
  decide

/-- The order byte decides whether there is a name at all. -/
theorem not_independent : ¬ e.Independent fresh := by
  intro h
  obtain ⟨c, hc⟩ : ∃ c : UInt8, ¬ (c = 0 ↔ e.bytes 0 = 0) := by
    by_cases hzero : e.bytes 0 = 0
    · exact ⟨1, by simp [hzero]⟩
    · exact ⟨0, by simp [hzero]⟩
  obtain ⟨e', hfirst, hsame⟩ : ∃ e' : FAT32DirectoryEntry, e'.bytes 0 = c ∧
      ∀ i, e'.bytes (indexes i) = e.bytes (indexes i) :=
    ⟨⟨Function.update e.bytes 0 c⟩, by simp,
      fun i => Function.update_of_ne (indexes_ne_zero i) _ _⟩
  have hname := returns_iff.mp (h e' hsame _ leGetName_refines)
  apply hc
  rw [← @textAt_counter_eq_nil e, ← hname, textAt_counter_eq_nil, hfirst]

/-- The name is read where each byte at the counter is the one in its place, up to the
first zero; and it always depends on the order byte. -/
theorem leGetName_iff (fresh : ℕ → ℕ → UInt8) (e : FAT32DirectoryEntry) :
    (e.Returns fresh (e.textAt indexes) ↔
      ∀ i, (∀ j < i, e.bytes (counter j) ≠ 0) → e.bytes (counter i) = e.bytes (indexes i)) ∧
    ¬ e.Independent fresh :=
  ⟨returns_iff.trans text_ofFn_eq_iff, not_independent⟩

/-- An entry with the name `hi`. -/
def entryHi : FAT32DirectoryEntry where
  bytes := ![65, 104, 0, 105, 0, 0, 0, 0, 0, 0, 0, 15, 0, 77, 0, 0, 0, 0, 0, 0, 0, 0, 0, 0, 0, 0,
    0, 0, 0, 0, 0, 0]

/-- It is read with the order byte in front and without its second letter. -/
theorem leGetName_entryHi : entryHi.textAt indexes = [104, 105] ∧
    entryHi.Returns (fun _ _ => 0) [65, 104] ∧
    ¬ ∀ e : FAT32DirectoryEntry, e.Returns (fun _ _ => 0) (e.textAt indexes) ∧
      e.Independent fun _ _ => 0 := by
  have hname : entryHi.textAt indexes = [104, 105] := by decide
  have hreturned : entryHi.textAt counter = [65, 104] := by decide
  refine ⟨hname, returns_iff.mpr hreturned, fun h => ?_⟩
  have hreads := returns_iff.mp (h entryHi).1
  rw [hname, hreturned] at hreads
  cases hreads

end FAT32DirectoryEntry

end AviKernel
