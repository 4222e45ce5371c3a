import AviKernel.Libc.MemoryStrings
import AviKernel.Memory.HeapStale

/-!
# Strings that are given their own text

The text of a string is in a chunk of the heap.  `operator=` releases the chunk, and
`operator+=` moves it, before they read what they were given.  Where that is a part of the
same text, they read what the heap has made of the chunk.
-/

namespace AviKernel.Libc

open Heap Heap.Holds

/-- A string as the address of its text and the length. -/
structure HeapString where
  actualString : ℕ
  size : ℕ

namespace HeapString

def cStr (s : HeapString) : ℕ := s.actualString

/-! ## The operators

A panic for want of memory has no result.
-/

def initializeFromCString (this : HeapString) (heap : State) (s : ℕ) :
    Option (HeapString × State) := do
  let heap ← if this.actualString = 0 then some heap else heap.free this.actualString
  let length ← heap.memory.strlen s
  let (actualString, heap) ← heap.malloc (add32 length 1)
  if actualString = 0 then none
  else
    let memory ← heap.memory.strcpy actualString s
    some (⟨actualString, length⟩, { heap with memory := memory })

def appendCString (this : HeapString) (heap : State) (str : ℕ) :
    Option (HeapString × State) := do
  let length ← heap.memory.strlen str
  let size := add32 this.size length
  let (actualString, heap) ← heap.realloc this.actualString (add32 size 1)
  if actualString = 0 then none
  else
    let memory ← heap.memory.strcat actualString str
    some (⟨actualString, size⟩, { heap with memory := memory })

def assign (this : HeapString) (heap : State) (str : HeapString) : Option (HeapString × State) :=
  this.initializeFromCString heap str.cStr

def assignCString (this : HeapString) (heap : State) (s : ℕ) : Option (HeapString × State) :=
  this.initializeFromCString heap s

def append (this : HeapString) (heap : State) (str : HeapString) : Option (HeapString × State) :=
  this.appendCString heap str.cStr

def addCString (this : HeapString) (heap : State) (s : ℕ) : Option (HeapString × State) :=
  this.appendCString heap s

/-! ## Texts -/

structure Spelled (s : HeapString) (heap : State) (l : List UInt8) : Prop where
  size_eq : s.size = l.length
  spells : heap.memory.SpellsAt s.actualString l

/-- The text is in a chunk in use that has room for it. -/
structure Stored (s : HeapString) (u : Config) (l : List UInt8) : Prop where
  spelled : s.Spelled u.heap l
  live : s.actualString ∈ u.live
  room : l.length + 5 ≤ (chunk u.heap s.actualString).size

/-- The operator returns, and the string has the text. -/
def Leaves (r : Option (HeapString × State)) (l : List UInt8) : Prop := ∃ x ∈ r, x.1.Spelled x.2 l

/-- The heap serves the calls of the operators: there is memory for the longer text, no hole
is cut too thin, and no release compares itself with the word at address zero. -/
structure Served (u : Config) (s : HeapString) (l : List UInt8) (k : ℕ) : Prop where
  freed : Anchored u.heap u.heap.holes s.actualString
  unsliced : ∀ e ∈ fit (l.length - k + 1 + 4) (released u.heap.holes
    (chunk u.heap s.actualString)), Unsliced (l.length - k + 1 + 4) e
  mallocable : Mallocable u.heap u.heap.holes (l.length + (l.length - k) + 1)
  moved : Anchored u.heap (holesAfter u.heap u.heap.holes (l.length + (l.length - k) + 1))
    s.actualString

instance (s : State) (holes : List Extent) (n : ℕ) : Decidable (Mallocable s holes n) :=
  decidable_of_iff (n + 16 < 2 ^ 32 ∧ (fit (n + 4) holes = none → Supplied s (n + 4)) ∧
      ∀ e ∈ fit (n + 4) holes, Unsliced (n + 4) e)
    ⟨fun h => ⟨h.1, h.2.1, h.2.2⟩, fun h => ⟨h.wrap, h.supply, h.unsliced⟩⟩

instance (u : Config) (s : HeapString) (l : List UInt8) (k : ℕ) : Decidable (Served u s l k) :=
  decidable_of_iff (_ ∧ _ ∧ _ ∧ _) ⟨fun h => ⟨h.1, h.2.1, h.2.2.1, h.2.2.2⟩, fun h =>
    ⟨h.freed, h.unsliced, h.mallocable, h.moved⟩⟩

/-- The operators work on the text of the string itself, from its `k`-th character on. -/
structure ToleratesAlias (s : HeapString) (heap : State) (l : List UInt8) (k : ℕ) : Prop where
  assign_self : k = 0 → Leaves (s.assign heap s) l
  assign : Leaves (s.assignCString heap (s.cStr + k)) (l.drop k)
  append_self : k = 0 → Leaves (s.append heap s) (l ++ l)
  append : Leaves (s.addCString heap (s.cStr + k)) (l ++ l.drop k)

/-! ## Bytes that the heap has stored -/

/-- From position `k` on, what was stored in the text is what stood there. -/
def Keeps (stored : ℕ → Option UInt8) (l : List UInt8) (k : ℕ) : Prop :=
  ∀ i ≤ l.length, k ≤ i → (stored i).getD (l.getD i 0) = l.getD i 0

/-- With what was stored in it, the text has its first zero from position `k` on at its end. -/
def KeepsEnd (stored : ℕ → Option UInt8) (l : List UInt8) (k : ℕ) : Prop :=
  ∀ i ≤ l.length, k ≤ i → ((stored i).getD (l.getD i 0) = 0 ↔ i = l.length)

instance (stored : ℕ → Option UInt8) (l : List UInt8) (k : ℕ) : Decidable (Keeps stored l k) :=
  inferInstanceAs (Decidable (∀ i ≤ l.length, k ≤ i → _ = _))

instance (stored : ℕ → Option UInt8) (l : List UInt8) (k : ℕ) :
    Decidable (KeepsEnd stored l k) :=
  inferInstanceAs (Decidable (∀ i ≤ l.length, k ≤ i → (_ = _ ↔ _ = _)))

variable {stored : ℕ → Option UInt8} {l : List UInt8} {k p : ℕ} {m : Memory} {s : HeapString}
  {u : Config} {lost : List Extent}

theorem keeps_iff (n : Memory) (hs : m.SpellsAt p l) (hk : k ≤ l.length)
    (hbytes : ∀ i ≤ l.length, n.byte (p + i) = (stored i).getD (m.byte (p + i))) :
    n.SpellsAt (p + k) (l.drop k) ↔ Keeps stored l k := by
  have hread : ∀ i ≤ l.length, n.byte (p + i) = (stored i).getD (l.getD i 0) := fun i hi => by
    rw [hbytes i hi, hs.bytes i hi]
  constructor
  · intro h i hi hki
    have hplace : p + k + (i - k) = p + i := by omega
    have hspelled := h.bytes (i - k) (by rw [List.length_drop]; omega)
    rw [hplace, hread i hi, Memory.SpellsAt.getD_drop, Nat.add_sub_cancel' hki] at hspelled
    exact hspelled
  · intro h
    refine ⟨fun hz => hs.notMem (List.mem_of_mem_drop hz), fun i hi => ?_⟩
    rw [List.length_drop] at hi
    rw [Nat.add_assoc, hread (k + i) (by omega), Memory.SpellsAt.getD_drop]
    exact h (k + i) (by omega) (by omega)

theorem keepsEnd_iff (n : Memory) (hs : m.SpellsAt p l) (hk : k ≤ l.length)
    (hlt : p + l.length < 2 ^ 32)
    (hbytes : ∀ i ≤ l.length, n.byte (p + i) = (stored i).getD (m.byte (p + i))) :
    n.strlen (p + k) = some (l.length - k) ↔ KeepsEnd stored l k := by
  have hread : ∀ i ≤ l.length, n.byte (p + i) = (stored i).getD (l.getD i 0) := fun i hi => by
    rw [hbytes i hi, hs.bytes i hi]
  have hend : p + k + (l.length - k) = p + l.length := by omega
  rw [Memory.strlen_eq_some_iff, hend, hread _ le_rfl]
  constructor
  · rintro ⟨-, hzero, hne⟩ i hi hki
    obtain rfl | hlast := Nat.eq_or_lt_of_le hi
    · exact iff_of_true hzero rfl
    · have hplace : p + k + (i - k) = p + i := by omega
      have hne' := hne (i - k) (by omega)
      rw [hplace, hread i hi] at hne'
      exact iff_of_false hne' hlast.ne
  · intro h
    refine ⟨hlt, (h _ le_rfl hk).mpr rfl, fun i hi hz => ?_⟩
    rw [Nat.add_assoc, hread (k + i) (by omega)] at hz
    have := (h (k + i) (by omega) (by omega)).mp hz
    omega

/-! ## The two operators -/

theorem leaves_map_iff {o : Option Memory} {t : State} {q n : ℕ} (hn : n = l.length) :
    Leaves (o.map fun memory => (⟨q, n⟩, { t with memory := memory })) l ↔
      ∃ m', o = some m' ∧ m'.SpellsAt q l := by
  constructor
  · rintro ⟨x, hx, -, hspells⟩
    obtain ⟨memory, ho, rfl⟩ := Option.map_eq_some_iff.mp hx
    exact ⟨memory, ho, hspells⟩
  · rintro ⟨memory, ho, hspells⟩
    exact ⟨_, Option.map_eq_some_iff.mpr ⟨memory, ho, rfl⟩, hn, hspells⟩

/-- The length is that of the text that is read first. -/
theorem strlen_of_assignCString {r : HeapString × State} {heap t : State} {a : ℕ}
    (hfree : heap.free s.actualString = some t) (hne : s.actualString ≠ 0)
    (h : s.assignCString heap a = some r) : t.memory.strlen a = some r.1.size := by
  simp only [assignCString, initializeFromCString, if_neg hne, hfree, Option.bind_eq_bind,
    Option.bind_some] at h
  obtain ⟨length, hlen, h⟩ := Option.bind_eq_some_iff.mp h
  obtain ⟨x, -, h⟩ := Option.bind_eq_some_iff.mp h
  split_ifs at h
  obtain ⟨memory, -, h⟩ := Option.bind_eq_some_iff.mp h
  obtain rfl := Option.some.inj h
  exact hlen

theorem assign_iff (hv : Valid u lost) (hs : s.Stored u l) (hk : k ≤ l.length)
    (hserved : Served u s l k) :
    Leaves (s.assignCString u.heap (s.cStr + k)) (l.drop k) ↔
      KeepsEnd (freedByte u.heap.holes (chunk u.heap s.actualString)) l k ∧
        Keeps (reusedByte u.heap.holes (chunk u.heap s.actualString)
          (holesAfter u.heap (released u.heap.holes (chunk u.heap s.actualString))
            (l.length - k + 1))) l k := by
  obtain ⟨⟨-, hspells⟩, hp, hroom⟩ := hs
  have hstart := (Layout.pointer_bounds hv hp).1
  have hend := (hv.live_bounds (List.mem_map_of_mem hp)).2
  obtain ⟨t, hfree, hholds, hfreed⟩ := Layout.free_bytes hv hp hserved.freed
  obtain ⟨q, t', hmalloc, hq, hle, hreused⟩ := Layout.malloc_bytes hv hp hholds
    (n := l.length - k + 1) (by omega) (by omega) hserved.unsliced hfreed
  simp only [chunk, heapStartAddr, windowStart] at hstart hend hroom
  have hne : s.actualString ≠ 0 := by omega
  have hlen := keepsEnd_iff t.memory hspells hk (by omega) fun i hi =>
    hfreed i (by simp only [chunk]; omega)
  have htext := keeps_iff t'.memory hspells hk fun i hi =>
    hreused i (by simp only [chunk]; omega)
  have hcopy := @Memory.strcpy_spells_iff t'.memory q (s.actualString + k) (l.drop k)
    (Or.inl (by omega)) (by rw [List.length_drop]; omega)
  rw [← hlen, ← htext, ← hcopy]
  have hadd : add32 (l.length - k) 1 = l.length - k + 1 := add32_of_lt (by omega)
  by_cases hstrlen : t.memory.strlen (s.actualString + k) = some (l.length - k)
  · have hcall : s.assignCString u.heap (s.cStr + k) =
        (t'.memory.strcpy q (s.actualString + k)).map fun memory =>
          (⟨q, l.length - k⟩, { t' with memory := memory }) := by
      simp only [assignCString, initializeFromCString, if_neg hne, hfree, cStr,
        Option.bind_eq_bind, Option.bind_some, hstrlen, hadd, hmalloc, if_neg hq]
      cases t'.memory.strcpy q (s.actualString + k) <;> rfl
    rw [hcall, and_iff_right hstrlen]
    exact leaves_map_iff List.length_drop.symm
  · refine iff_of_false ?_ fun h => hstrlen h.1
    rintro ⟨x, hx, hsize, -⟩
    have hread := strlen_of_assignCString hfree hne hx
    rw [hsize, List.length_drop] at hread
    exact hstrlen hread

theorem append_iff (hv : Valid u lost) (hs : s.Stored u l) (hk : k ≤ l.length)
    (hserved : Served u s l k) :
    Leaves (s.addCString u.heap (s.cStr + k)) (l ++ l.drop k) ↔
      Keeps (freedByte (holesAfter u.heap u.heap.holes (l.length + (l.length - k) + 1))
        (chunk u.heap s.actualString)) l k := by
  obtain ⟨⟨hsize, hspells⟩, hp, hroom⟩ := hs
  have hstart := (Layout.pointer_bounds hv hp).1
  have hend := (hv.live_bounds (List.mem_map_of_mem hp)).2
  obtain ⟨q, t, hrealloc, hq, hqend, hapart, hcopied, hfreed⟩ :=
    Layout.realloc_bytes hv hp (by omega) hserved.mallocable hserved.moved
  simp only [chunk, heapStartAddr, windowStart] at hstart hend hroom hapart hcopied
  have hsource := hspells.drop hk
  have hstrlen := hsource.strlen (by rw [List.length_drop]; omega)
  rw [List.length_drop] at hstrlen
  have hmoved : t.memory.SpellsAt q l := by
    refine ⟨hspells.notMem, fun i hi => ?_⟩
    rw [hcopied i (by omega) (by omega)]
    exact hspells.bytes i hi
  have htext := keeps_iff t.memory hspells hk fun i hi =>
    hfreed i (by simp only [chunk]; omega)
  have hcat := @Memory.strcat_spells_iff t.memory q (s.actualString + k) l (l.drop k) hmoved
    (by omega) (by rw [List.length_drop]; omega) (by rw [List.length_drop]; omega)
  rw [← htext, ← hcat]
  have hsum : add32 s.size (l.length - k) = l.length + (l.length - k) := by
    rw [hsize]
    exact add32_of_lt (by omega)
  have hone : add32 (l.length + (l.length - k)) 1 = l.length + (l.length - k) + 1 :=
    add32_of_lt (by omega)
  have hcall : s.addCString u.heap (s.cStr + k) =
      (t.memory.strcat q (s.actualString + k)).map fun memory =>
        (⟨q, l.length + (l.length - k)⟩, { t with memory := memory }) := by
    simp only [addCString, appendCString, cStr, hstrlen, hsum, hone, hrealloc,
      Option.bind_eq_bind, Option.bind_some, if_neg hq]
    cases t.memory.strcat q (s.actualString + k) <;> rfl
  rw [hcall]
  apply leaves_map_iff
  rw [List.length_append, List.length_drop]

/-- From the ninth character on the links are not in the way. -/
theorem append_of_le (hv : Valid u lost) (hs : s.Stored u l) (hk : k ≤ l.length) (h8 : 8 ≤ k)
    (hserved : Served u s l k) : Leaves (s.addCString u.heap (s.cStr + k)) (l ++ l.drop k) := by
  refine (append_iff hv hs hk hserved).mpr fun i hi hki => ?_
  rw [freedByte, if_neg (by omega), Option.getD_none]

/-! ## All of them -/

/-- What the heap stores in the chunk before the text is read is harmless to the text from
position `k` on. -/
structure Harmless (u : Config) (s : HeapString) (l : List UInt8) (k : ℕ) : Prop where
  freed : KeepsEnd (freedByte u.heap.holes (chunk u.heap s.actualString)) l k
  reused : Keeps (reusedByte u.heap.holes (chunk u.heap s.actualString)
    (holesAfter u.heap (released u.heap.holes (chunk u.heap s.actualString))
      (l.length - k + 1))) l k
  moved : Keeps (freedByte (holesAfter u.heap u.heap.holes (l.length + (l.length - k) + 1))
    (chunk u.heap s.actualString)) l k

instance (u : Config) (s : HeapString) (l : List UInt8) (k : ℕ) : Decidable (Harmless u s l k) :=
  decidable_of_iff (_ ∧ _ ∧ _) ⟨fun h => ⟨h.1, h.2.1, h.2.2⟩, fun h => ⟨h.freed, h.reused, h.moved⟩⟩

theorem toleratesAlias_iff (hv : Valid u lost) (hs : s.Stored u l) (hk : k ≤ l.length)
    (hserved : Served u s l k) : s.ToleratesAlias u.heap l k ↔ Harmless u s l k := by
  have hassign := assign_iff hv hs hk hserved
  have happend := append_iff hv hs hk hserved
  constructor
  · intro h
    obtain ⟨hfreed, hreused⟩ := hassign.mp h.assign
    exact ⟨hfreed, hreused, happend.mp h.append⟩
  · intro h
    have hassigned := hassign.mpr ⟨h.freed, h.reused⟩
    have happended := happend.mpr h.moved
    refine ⟨?_, hassigned, ?_, happended⟩
    · rintro rfl
      exact hassigned
    · rintro rfl
      exact happended

/-- A hole of twelve bytes, a chunk in use, and a chunk for ten bytes with the text. -/
def lastCharacters : List Call :=
  [.malloc 8, .malloc 8, .malloc 10, .free 0xC0C00004] ++
    (List.range 9).map fun i => .store (0xC0C0001C + i) 97

theorem toleratesAlias_iff_lastCharacters : ∃ c u, Config.initial zeroMemory [4096, 8192] = some c ∧
    run Config.step c lastCharacters = some u ∧
      (⟨0xC0C0001C, 9⟩ : HeapString).ToleratesAlias u.heap (List.replicate 9 97) 8 := by
  obtain ⟨c, hc⟩ : ∃ c, Config.initial zeroMemory [4096, 8192] = some c := ⟨_, rfl⟩
  have hrun : ∀ c ∈ Config.initial zeroMemory [4096, 8192],
      RunAll Config.step Copes c lastCharacters := by decide +kernel
  obtain ⟨u, hu, lost, hv⟩ := run_copes hc (hrun c hc)
  have hstate : ∀ c ∈ Config.initial zeroMemory [4096, 8192],
      ∀ u ∈ run Config.step c lastCharacters,
      (∀ i ≤ 9, u.heap.memory.byte (0xC0C0001C + i) = (List.replicate 9 97).getD i 0) ∧
        0xC0C0001C ∈ u.live ∧ 9 + 5 ≤ (chunk u.heap 0xC0C0001C).size ∧
        Served u ⟨0xC0C0001C, 9⟩ (List.replicate 9 97) 8 ∧
        Harmless u ⟨0xC0C0001C, 9⟩ (List.replicate 9 97) 8 := by
    decide +kernel
  obtain ⟨hbytes, hp, hroom, hserved, hharmless⟩ := hstate c hc u hu
  have hstored : Stored ⟨0xC0C0001C, 9⟩ u (List.replicate 9 97) :=
    ⟨⟨rfl, ⟨by decide, hbytes⟩⟩, hp, hroom⟩
  exact ⟨c, u, hc, hu, (toleratesAlias_iff hv hstored (by decide) hserved).mpr hharmless⟩

/-- Three characters at the beginning of a heap. -/
def threeCharacters : List Call :=
  [.malloc 4, .store 0xC0C00004 97, .store 0xC0C00005 98, .store 0xC0C00006 99,
    .store 0xC0C00007 0]

/-- The links of the released header are both `NULL`, and the text is gone. -/
theorem not_toleratesAlias : ¬ ∀ (u : Config) (lost : List Extent) (s : HeapString)
    (l : List UInt8) (k : ℕ), Valid u lost → s.Stored u l → k ≤ l.length → Served u s l k →
      s.ToleratesAlias u.heap l k := by
  intro h
  obtain ⟨c, hc⟩ : ∃ c, Config.initial zeroMemory [4096, 8192] = some c := ⟨_, rfl⟩
  have hrun : ∀ c ∈ Config.initial zeroMemory [4096, 8192],
      RunAll Config.step Copes c threeCharacters := by decide +kernel
  obtain ⟨u, hu, lost, hv⟩ := run_copes hc (hrun c hc)
  have hstate : ∀ c ∈ Config.initial zeroMemory [4096, 8192],
      ∀ u ∈ run Config.step c threeCharacters,
      (∀ i ≤ 3, u.heap.memory.byte (0xC0C00004 + i) = [97, 98, 99].getD i 0) ∧
        0xC0C00004 ∈ u.live ∧ 3 + 5 ≤ (chunk u.heap 0xC0C00004).size ∧
        Served u ⟨0xC0C00004, 3⟩ [97, 98, 99] 0 ∧
        ∀ r ∈ assign ⟨0xC0C00004, 3⟩ u.heap ⟨0xC0C00004, 3⟩, r.1.size = 0 := by
    decide +kernel
  obtain ⟨hbytes, hp, hroom, hserved, hsize⟩ := hstate c hc u hu
  have hstored : Stored ⟨0xC0C00004, 3⟩ u [97, 98, 99] :=
    ⟨⟨rfl, ⟨by decide, hbytes⟩⟩, hp, hroom⟩
  have htolerates := h u lost ⟨0xC0C00004, 3⟩ [97, 98, 99] 0 hv hstored (by decide) hserved
  obtain ⟨r, hr, hspelled⟩ := htolerates.assign_self rfl
  have hthree : r.1.size = 3 := hspelled.size_eq
  rw [hsize r hr] at hthree
  exact absurd hthree (by decide)

end HeapString

end AviKernel.Libc
