import AviKernel.Libc.MemoryStrings
import AviKernel.Library.Numerals

/-!
# Numbers as text

`itoa` writes the digits from the least significant on and then turns them round.  The
buffer has room for them.
-/

namespace AviKernel.Memory

section Definitions

variable (m : Memory) (base : ℤ)

/-- The digits of the remainders from `-35` to `35`. -/
def digitTable : List UInt8 :=
  "zyxwvutsrqponmlkjihgfedcba9876543210123456789abcdefghijklmnopqrstuvwxyz".toList.map fun c =>
    c.toUInt8

/-- The conversion loop, which has one turn at least, and the end of the digits. -/
def convertFrom (base : ℤ) : ℕ → ℤ → Memory → ℕ → Option (Memory × ℕ)
  | 0, _, _, _ => none
  | fuel + 1, value, m, ptr =>
      let m := m.storeByte ptr (digitTable.getD (35 + value.tmod base).toNat 0)
      if value.tdiv base = 0 then some (m, ptr + 1)
      else convertFrom base fuel (value.tdiv base) m (ptr + 1)

/-- The loop that inverts the numbers. -/
def invertFrom : ℕ → Memory → ℕ → ℕ → Option Memory
  | 0, m, low, ptr => if low < ptr then none else some m
  | fuel + 1, m, low, ptr =>
      if low < ptr then
        invertFrom fuel ((m.storeByte low (m.byte ptr)).storeByte ptr (m.byte low)) (low + 1)
          (ptr - 1)
      else some m

/-- Where the numbers start, behind the sign of a negative decimal. -/
def putSign (value : ℤ) (str : ℕ) : Memory × ℕ :=
  if value < 0 ∧ base = 10 then (m.storeByte str 45, str + 1) else (m, str)

def itoa (value : ℤ) (str : ℕ) : Option (Memory × ℕ) :=
  if base < 2 ∨ base > 36 then some (m.storeByte str 0, str)
  else do
    let (m, low) := putSign m base value str
    let (m, ptr) ← convertFrom base (value.natAbs + 1) value m low
    let m ← invertFrom (ptr - low) (m.storeByte ptr 0) low (ptr - 1)
    some (m, str)

end Definitions

variable {m m' : Memory} {base fuel low ptr str x : ℕ} {value : ℤ} {l : List UInt8}

/-! ## The digits -/

theorem digitTable_eq {k : ℕ} (hk : k < 36) :
    digitTable.getD (35 + k) 0 = digitByte k ∧ digitTable.getD (35 - k) 0 = digitByte k := by
  revert k
  decide

/-- The table is its own mirror image, so that the sign does not matter. -/
theorem digitTable_tmod (hbase : 2 ≤ base) (hbase' : base ≤ 36) (value : ℤ) :
    digitTable.getD (35 + value.tmod base).toNat 0 = digitByte (value.natAbs % base) := by
  have habs : (value.tmod base).natAbs = value.natAbs % base := Int.natAbs_tmod value base
  have hlt : value.natAbs % base < base := Nat.mod_lt _ (by omega)
  obtain ⟨hup, hdown⟩ := digitTable_eq (lt_of_lt_of_le hlt hbase')
  rcases Int.natAbs_eq (value.tmod base) with hpos | hneg
  · have hindex : (35 + value.tmod base).toNat = 35 + value.natAbs % base := by omega
    rw [hindex, hup]
  · have hindex : (35 + value.tmod base).toNat = 35 - value.natAbs % base := by omega
    rw [hindex, hdown]

theorem tdiv_eq_zero_iff : value.tdiv base = 0 ↔ value.natAbs / base = 0 := by
  rw [← Int.natAbs_eq_zero, Int.natAbs_tdiv]
  exact Iff.rfl

/-- The digits `l` stand from `ptr` on, and nothing else was written. -/
structure Puts (m m' : Memory) (ptr : ℕ) (l : List UInt8) : Prop where
  puts : ∀ i < l.length, m'.byte (ptr + i) = l.getD i 0
  kept : ∀ x, x < ptr ∨ ptr + l.length ≤ x → m'.byte x = m.byte x

theorem Puts.cons {c : UInt8} (hp : Puts (m.storeByte ptr c) m' (ptr + 1) l) :
    Puts m m' ptr (c :: l) := by
  refine ⟨fun i hi => ?_, fun x hx => ?_⟩
  · cases i with
    | zero =>
        rw [Nat.add_zero, hp.kept ptr (Or.inl ptr.lt_succ_self), byte_storeByte_self]
        rfl
    | succ i =>
        have hbyte := hp.puts i (Nat.lt_of_succ_lt_succ hi)
        rw [Nat.add_assoc, Nat.add_comm 1 i] at hbyte
        rw [hbyte, List.getD_cons_succ]
  · rw [List.length_cons] at hx
    rw [hp.kept x (by omega), byte_storeByte_of_ne (by omega)]

theorem puts_nil : Puts m m ptr [] :=
  ⟨fun i hi => absurd hi (Nat.not_lt_zero i), fun _ _ => rfl⟩

theorem convertFrom_eq (hbase : 2 ≤ base) (hbase' : base ≤ 36) (hfuel : value.natAbs < fuel) :
    ∃ m', convertFrom base fuel value m ptr =
        some (m', ptr + (lowDigits base value.natAbs).length) ∧
      Puts m m' ptr ((lowDigits base value.natAbs).map digitByte) := by
  induction fuel generalizing value m ptr with
  | zero => exact absurd hfuel (Nat.not_lt_zero _)
  | succ fuel ih =>
      have hdigit := digitTable_tmod hbase hbase' value
      rw [convertFrom, hdigit, lowDigits_eq hbase]
      by_cases hmore : value.natAbs / base = 0
      · rw [if_pos (tdiv_eq_zero_iff.mpr hmore), if_pos hmore]
        exact ⟨_, rfl, puts_nil.cons⟩
      · have hsmaller : (value.tdiv base).natAbs = value.natAbs / base := Int.natAbs_tdiv value base
        have hlt : value.natAbs / base < value.natAbs :=
          Nat.div_lt_self (Nat.pos_of_ne_zero fun hzero => hmore (by rw [hzero, Nat.zero_div]))
            hbase
        have hfuel' : (value.tdiv base).natAbs < fuel := by omega
        obtain ⟨m', hrest, hputs⟩ :=
          @ih (m.storeByte ptr (digitByte (value.natAbs % base))) (ptr + 1) (value.tdiv base) hfuel'
        rw [hsmaller] at hrest hputs
        rw [if_neg (mt tdiv_eq_zero_iff.mp hmore), if_neg hmore]
        refine ⟨m', ?_, hputs.cons⟩
        rw [hrest, List.length_cons, Nat.add_assoc, Nat.add_comm 1]

/-! ## The inversion -/

theorem reflect_of_le (hend : ptr ≤ low) (x : ℕ) :
    m.byte x = if low ≤ x ∧ x ≤ ptr then m.byte (low + ptr - x) else m.byte x := by
  split_ifs with hx
  · have hself : low + ptr - x = x := by omega
    rw [hself]
  · rfl

/-- The bytes from `low` to `ptr` are reflected. -/
theorem invertFrom_eq (hfuel : ptr - low ≤ fuel) : ∃ m', invertFrom fuel m low ptr = some m' ∧
    ∀ x, m'.byte x = if low ≤ x ∧ x ≤ ptr then m.byte (low + ptr - x) else m.byte x := by
  induction fuel generalizing m low ptr with
  | zero =>
      refine ⟨m, ?_, reflect_of_le (by omega)⟩
      rw [invertFrom, if_neg (by omega)]
  | succ fuel ih =>
      rw [invertFrom]
      by_cases hmore : low < ptr
      · have hlow : ((m.storeByte low (m.byte ptr)).storeByte ptr (m.byte low)).byte low =
            m.byte ptr := by
          rw [byte_storeByte_of_ne hmore.ne, byte_storeByte_self]
        have hother : ∀ y, y ≠ low → y ≠ ptr →
            ((m.storeByte low (m.byte ptr)).storeByte ptr (m.byte low)).byte y = m.byte y := by
          intro y hl hp
          rw [byte_storeByte_of_ne hp, byte_storeByte_of_ne hl]
        have hfuel' : ptr - 1 - (low + 1) ≤ fuel := by omega
        obtain ⟨m', hrest, hbytes⟩ :=
          @ih ((m.storeByte low (m.byte ptr)).storeByte ptr (m.byte low)) (low + 1) (ptr - 1) hfuel'
        rw [if_pos hmore]
        refine ⟨m', hrest, fun x => ?_⟩
        have hsum : low + 1 + (ptr - 1) = low + ptr := by omega
        rw [hbytes x, hsum]
        rcases eq_or_ne x low with rfl | hxl
        · rw [if_neg (by omega), if_pos (by omega), hlow, Nat.add_sub_cancel_left]
        · rcases eq_or_ne x ptr with rfl | hxp
          · rw [if_neg (by omega), if_pos (by omega), byte_storeByte_self, Nat.add_sub_cancel]
          · by_cases hin : low ≤ x ∧ x ≤ ptr
            · rw [if_pos (by omega), if_pos hin, hother _ (by omega) (by omega)]
            · rw [if_neg (by omega), if_neg hin, hother x hxl hxp]
      · rw [if_neg hmore]
        exact ⟨m, rfl, reflect_of_le (by omega)⟩

/-! ## The text -/

theorem SpellsAt.cons {a : ℕ} {c : UInt8} (hc : c ≠ 0) (hbyte : m.byte a = c)
    (h : m.SpellsAt (a + 1) l) : m.SpellsAt a (c :: l) := by
  have happend : m.SpellsAt a ([c] ++ l) := by
    refine SpellsAt.append ?_ (fun i hi => ?_) h
    · rw [List.mem_singleton]
      exact hc.symm
    · obtain rfl : i = 0 := by simpa using hi
      exact hbyte
  exact happend

/-- A text that was put down backwards is terminated and turned round. -/
theorem spells_of_puts (hl : l ≠ []) (hzero : 0 ∉ l) (hputs : Puts m m' low l) :
    ∃ m'', invertFrom (low + l.length - low) (m'.storeByte (low + l.length) 0) low
        (low + l.length - 1) = some m'' ∧ m''.SpellsAt low l.reverse ∧
      ∀ x, x < low ∨ low + l.length < x → m''.byte x = m.byte x := by
  have hpos : 0 < l.length := List.length_pos_of_ne_nil hl
  have hfuel : low + l.length - 1 - low ≤ low + l.length - low := by omega
  obtain ⟨m'', hinvert, hbytes⟩ :=
    @invertFrom_eq (m'.storeByte (low + l.length) 0) (low + l.length - low) low
      (low + l.length - 1) hfuel
  refine ⟨m'', hinvert, ⟨fun hz => hzero (List.mem_reverse.mp hz), fun i hi => ?_⟩, fun x hx => ?_⟩
  · rw [List.length_reverse] at hi
    rw [hbytes]
    rcases Nat.lt_or_eq_of_le hi with hlt | rfl
    · have hplace : low + (low + l.length - 1) - (low + i) = low + (l.length - 1 - i) := by omega
      rw [if_pos (by omega), hplace, byte_storeByte_of_ne (by omega),
        hputs.puts _ (by omega)]
      rw [List.getD_eq_getElem?_getD, List.getD_eq_getElem?_getD, List.getElem?_reverse hlt]
    · rw [if_neg (by omega), byte_storeByte_self, List.getD_eq_default _ _ (by simp)]
  · rw [hbytes, if_neg (by omega), byte_storeByte_of_ne (by omega), hputs.kept x (by omega)]

/-- The digits from `low` on, whatever stands before them. -/
theorem itoaFrom_eq (hbase : 2 ≤ base) (hbase' : base ≤ 36) (m : Memory) (value : ℤ) (low : ℕ) :
    ∃ m₁ ptr m₂, convertFrom base (value.natAbs + 1) value m low = some (m₁, ptr) ∧
      invertFrom (ptr - low) (m₁.storeByte ptr 0) low (ptr - 1) = some m₂ ∧
      m₂.SpellsAt low (numeral base value.natAbs) ∧
      ∀ x, x < low ∨ low + (numeral base value.natAbs).length < x → m₂.byte x = m.byte x := by
  obtain ⟨m₁, hconvert, hputs⟩ :=
    @convertFrom_eq m base (value.natAbs + 1) low value hbase hbase' (Nat.lt_succ_self _)
  have hne : (lowDigits base value.natAbs).map digitByte ≠ [] := fun hnil =>
    lowDigits_ne_nil base value.natAbs (List.map_eq_nil_iff.mp hnil)
  have hzero : 0 ∉ (lowDigits base value.natAbs).map digitByte := fun hmem =>
    notMem_numeral hbase hbase' rfl value.natAbs (List.mem_reverse.mpr hmem)
  obtain ⟨m₂, hinvert, hspells, hkept⟩ := spells_of_puts hne hzero hputs
  rw [List.length_map] at hinvert hkept
  refine ⟨m₁, _, m₂, hconvert, hinvert, hspells, fun x hx => hkept x ?_⟩
  rwa [numeral, List.length_reverse, List.length_map] at hx

def signOf (value : ℤ) (base : ℕ) : List UInt8 :=
  if value < 0 ∧ base = 10 then [minusByte] else []

/-- The number stands at `str` as a text without superfluous zeros, from which it can be
read again, and nothing behind the text has changed. -/
structure Prints (m m' : Memory) (str : ℕ) (value : ℤ) (base : ℕ) : Prop where
  spells : m'.SpellsAt str (signOf value base ++ numeral base value.natAbs)
  nonempty : numeral base value.natAbs ≠ []
  canonical : (numeral base value.natAbs).head? = some (digitByte 0) ↔ value = 0
  reads : readDigits base (numeral base value.natAbs) = some value.natAbs
  decimal : base = 10 →
    readDecimal (signOf value base ++ numeral base value.natAbs) = some value
  kept : ∀ x, x < str ∨ str + (signOf value base ++ numeral base value.natAbs).length < x →
    m'.byte x = m.byte x

theorem readDecimal_signed (value : ℤ) :
    readDecimal (signOf value 10 ++ numeral 10 value.natAbs) = some value := by
  by_cases hneg : value < 0
  · rw [signOf, if_pos ⟨hneg, rfl⟩]
    have hvalue : -(value.natAbs : ℤ) = value := by omega
    exact (readDecimal_minus value.natAbs).trans (congrArg some hvalue)
  · rw [signOf, if_neg fun h => hneg h.1]
    have hvalue : (value.natAbs : ℤ) = value := by omega
    exact (readDecimal_numeral value.natAbs).trans (congrArg some hvalue)

theorem prints_of_spells (hbase : 2 ≤ base) (hbase' : base ≤ 36)
    (hspells : m'.SpellsAt str (signOf value base ++ numeral base value.natAbs))
    (hkept : ∀ x, x < str ∨ str + (signOf value base ++ numeral base value.natAbs).length < x →
      m'.byte x = m.byte x) : Prints m m' str value base := by
  refine ⟨hspells, numeral_ne_nil base value.natAbs, ?_, ?_, ?_, hkept⟩
  · rw [head?_numeral hbase hbase', Int.natAbs_eq_zero]
  · exact readDigits_numeral hbase hbase' value.natAbs
  · rintro rfl
    exact readDecimal_signed value

/-- `itoa` prints every number in every base that it supports. -/
theorem itoa_prints (hbase : 2 ≤ base) (hbase' : base ≤ 36) (m : Memory) (value : ℤ) (str : ℕ) :
    ∃ m', itoa m base value str = some (m', str) ∧ Prints m m' str value base := by
  have hsupported : ¬ ((base : ℤ) < 2 ∨ (base : ℤ) > 36) := by omega
  by_cases hsign : value < 0 ∧ base = 10
  · have hput : putSign m base value str = (m.storeByte str minusByte, str + 1) :=
      if_pos ⟨hsign.1, by exact_mod_cast hsign.2⟩
    have htext : signOf value base = [minusByte] := if_pos hsign
    obtain ⟨m₁, ptr, m₂, hconvert, hinvert, hspells, hkept⟩ :=
      itoaFrom_eq hbase hbase' (m.storeByte str minusByte) value (str + 1)
    refine ⟨m₂, ?_, prints_of_spells hbase hbase' ?_ fun x hx => ?_⟩
    · rw [itoa, if_neg hsupported, hput]
      simp only [hconvert, hinvert, Option.bind_eq_bind, Option.bind_some]
    · rw [htext]
      refine hspells.cons (by decide) ?_
      rw [hkept str (Or.inl str.lt_succ_self), byte_storeByte_self]
    · rw [htext, List.length_append, List.length_singleton] at hx
      rw [hkept x (by omega), byte_storeByte_of_ne (by omega)]
  · have hput : putSign m base value str = (m, str) :=
      if_neg fun h => hsign ⟨h.1, by exact_mod_cast h.2⟩
    have htext : signOf value base = [] := if_neg hsign
    obtain ⟨m₁, ptr, m₂, hconvert, hinvert, hspells, hkept⟩ := itoaFrom_eq hbase hbase' m value str
    refine ⟨m₂, ?_, prints_of_spells hbase hbase' ?_ fun x hx => ?_⟩
    · rw [itoa, if_neg hsupported, hput]
      simp only [hconvert, hinvert, Option.bind_eq_bind, Option.bind_some]
    · rw [htext]
      exact hspells
    · rw [htext, List.nil_append] at hx
      exact hkept x hx

/-- The least number, whose absolute value is out of range. -/
theorem itoa_prints_least : ∃ m', itoa ⟨fun _ => 0xFF, []⟩ (10 : ℕ) (-2 ^ 31) 16 = some (m', 16) ∧
    Prints ⟨fun _ => 0xFF, []⟩ m' 16 (-2 ^ 31) 10 :=
  itoa_prints (by decide) (by decide) ⟨fun _ => 0xFF, []⟩ (-2 ^ 31) 16

end AviKernel.Memory
