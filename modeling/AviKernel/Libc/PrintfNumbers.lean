import AviKernel.Libc.PrintfFormats

/-!
# Numbers in a format

The digits that a conversion prints stand for its argument, except that the prefix of `#`
takes the place of digits where it is put over a number that fills its field.
-/

namespace AviKernel.Printf

variable {base prec width value m n : ℕ} {negative uppercase : Bool} {flags : Flags}
  {buf l : List UInt8} {ds : List ℕ} {c : UInt8} {p : Specifier} {va : List VaArg}

/-- A letter as a small one. -/
def lowerByte (c : UInt8) : UInt8 := if 'A'.toUInt8 ≤ c ∧ c ≤ 'Z'.toUInt8 then c + 32 else c

/-- A text without its spaces and capitals. -/
def plain (l : List UInt8) : List UInt8 := (l.filter (· ≠ ' '.toUInt8)).map lowerByte

theorem plain_append (l l' : List UInt8) : plain (l ++ l') = plain l ++ plain l' := by
  rw [plain, List.filter_append, List.map_append]
  rfl

theorem plain_spaces (n : ℕ) : plain (spaces n) = [] := by
  induction n with
  | zero => rfl
  | succ n ih => exact ih

theorem plain_outRevText (buf : List UInt8) (width : ℕ) (flags : Flags) :
    plain (outRevText buf width flags) = plain buf.reverse := by
  rw [outRevText, plain_append, plain_append]
  have hspaces : ∀ (q : Prop) [Decidable q] (n : ℕ), plain (if q then spaces n else []) = [] := by
    intro q _ n
    split_ifs
    · exact plain_spaces n
    · rfl
  rw [hspaces, hspaces, List.nil_append, List.append_nil]

/-! ## Digits -/

theorem lowerByte_digitChar {d : ℕ} (hd : d < 36) (uppercase : Bool) :
    digitChar uppercase d ≠ ' '.toUInt8 ∧ lowerByte (digitChar uppercase d) = digitByte d := by
  revert d uppercase
  decide

theorem plain_digits (hbase : base ≤ 36) (hds : ∀ d ∈ ds, d < base) (uppercase : Bool) :
    plain (ds.map (digitChar uppercase)).reverse = (ds.map digitByte).reverse := by
  induction ds with
  | nil => rfl
  | cons d ds ih =>
      obtain ⟨hd, hrest⟩ := List.forall_mem_cons.mp hds
      obtain ⟨hne, hlower⟩ := lowerByte_digitChar (lt_of_lt_of_le hd hbase) uppercase
      rw [List.map_cons, List.reverse_cons, plain_append, ih hrest, List.map_cons,
        List.reverse_cons, ← hlower, plain, List.filter_singleton, decide_eq_true hne]
      rfl

/-- The buffer holds the digits of the value, the least significant first, with zeros behind
them. -/
structure Digits (base value : ℕ) (uppercase : Bool) (buf : List UInt8) (ds : List ℕ) : Prop where
  lt : ∀ d ∈ ds, d < base
  eq : Nat.ofDigits base ds = value
  buf : buf = ds.map (digitChar uppercase)

theorem zero_eq_digitChar (uppercase : Bool) : '0'.toUInt8 = digitChar uppercase 0 := by
  cases uppercase <;> rfl

theorem Digits.padZeros (h : Digits base value uppercase buf ds) (hbase : 0 < base) (n : ℕ) :
    ∃ ds', Digits base value uppercase (padZeros n buf) ds' := by
  refine ⟨ds ++ List.replicate (min n ntoaBufferSize - buf.length) 0, fun d hd => ?_, ?_, ?_⟩
  · rcases List.mem_append.mp hd with hd | hd
    · exact h.lt d hd
    · rw [List.eq_of_mem_replicate hd]
      exact hbase
  · rw [Nat.ofDigits_append_replicate_zero, h.eq]
  · rw [Printf.padZeros, List.map_append, List.map_replicate, ← h.buf, ← zero_eq_digitChar]

theorem Digits.padLeading (h : Digits base value uppercase buf ds) (hbase : 0 < base)
    (prec width : ℕ) (flags : Flags) :
    ∃ ds', Digits base value uppercase (padLeading prec width flags buf) ds' := by
  obtain ⟨ds₁, h₁⟩ := h.padZeros hbase prec
  obtain ⟨ds₂, h₂⟩ := h₁.padZeros hbase width
  rw [Printf.padLeading]
  split_ifs
  · exact ⟨ds, h⟩
  · exact ⟨ds₂, h₂⟩
  · exact ⟨ds₁, h₁⟩

theorem lowDigits_length_le (hbase : 1 < base) (hn : 0 < n) (value : ℕ) :
    (lowDigits base value).length ≤ n ↔ value < base ^ n := by
  rw [lowDigits]
  split_ifs with hzero
  · rw [hzero, List.length_singleton]
    exact iff_of_true hn (Nat.pow_pos (by omega))
  · exact Nat.digits_length_le_iff hbase value

theorem digits_digitsOf (hbase : 1 < base) (hvalue : value < base ^ ntoaBufferSize)
    (flags : Flags) :
    ∃ ds, Digits base value flags.uppercase (digitsOf value base flags) ds := by
  rw [digitsOf]
  by_cases hwrite : ¬flags.precision ∨ value ≠ 0
  · have hall : (lowDigits base value).take ntoaBufferSize = lowDigits base value :=
      List.take_of_length_le ((lowDigits_length_le hbase (by decide) value).mpr hvalue)
    rw [if_pos hwrite, hall]
    exact ⟨lowDigits base value, fun d => lowDigits_lt hbase, ofDigits_lowDigits base value, rfl⟩
  · push Not at hwrite
    rw [if_neg (by push Not; exact hwrite), hwrite.2]
    exact ⟨[], fun d hd => absurd hd List.not_mem_nil, rfl, rfl⟩

/-- The digits below a place stand for the remainder. -/
theorem Digits.readDigits_take (h : Digits base value uppercase buf ds) (hbase : 0 < base)
    (hbase' : base ≤ 36) (m : ℕ) :
    readDigits base ((ds.take m).map digitByte).reverse = some (value % base ^ m) := by
  rw [readDigits_reverse hbase' fun d hd => h.lt d (List.mem_of_mem_take hd),
    ← Nat.ofDigits_mod_pow_eq_ofDigits_take m hbase ds h.lt, h.eq]

theorem Digits.readDigits (h : Digits base value uppercase buf ds) (hbase' : base ≤ 36) :
    AviKernel.readDigits base (ds.map digitByte).reverse = some value := by
  rw [readDigits_reverse hbase' h.lt, h.eq]

/-! ## Lengths -/

theorem length_padZeros (hbuf : buf.length ≤ ntoaBufferSize) (n : ℕ) :
    (padZeros n buf).length = max buf.length (min n ntoaBufferSize) := by
  rw [padZeros, List.length_append, List.length_replicate]
  omega

theorem length_padLeading (hbuf : buf.length ≤ ntoaBufferSize) (prec width : ℕ) (flags : Flags) :
    (padLeading prec width flags buf).length =
      if flags.left then buf.length
      else max (max buf.length (min prec ntoaBufferSize))
        (if flags.zeropad then min width ntoaBufferSize else 0) := by
  rw [padLeading]
  split_ifs
  · rfl
  · rw [length_padZeros (length_padZeros_le hbuf), length_padZeros hbuf]
  · rw [length_padZeros hbuf]
    omega

theorem push_of_lt (h : buf.length < ntoaBufferSize) (c : UInt8) : push buf c = buf ++ [c] :=
  if_pos h

/-- The number of digits that a conversion prints. -/
def digitCount (value base : ℕ) (flags : Flags) : ℕ :=
  if ¬flags.precision ∨ value ≠ 0 then (lowDigits base value).length else 0

theorem length_digitsOf (hbase : 1 < base) (hvalue : value < base ^ ntoaBufferSize)
    (flags : Flags) : (digitsOf value base flags).length = digitCount value base flags := by
  rw [digitsOf, digitCount]
  split_ifs
  · rw [List.length_map, List.length_take]
    exact min_eq_right ((lowDigits_length_le hbase (by decide) value).mpr hvalue)
  · rfl

/-- The value, its precision and its width have room in the conversion buffer, with two
characters to spare. -/
structure Fits (value base prec width : ℕ) (flags : Flags) : Prop where
  value : value < base ^ 30
  prec : prec ≤ 30
  width : flags.zeropad → width ≤ 31

theorem Fits.value_lt (h : Fits value base prec width flags) (hbase : 1 < base) :
    value < base ^ ntoaBufferSize :=
  lt_of_lt_of_le h.value (Nat.pow_le_pow_right (by omega) (by decide))

theorem digitCount_le (hbase : 1 < base) (hvalue : value < base ^ 30) (flags : Flags) :
    digitCount value base flags ≤ 30 := by
  rw [digitCount]
  split_ifs
  · exact (lowDigits_length_le hbase (by decide) value).mpr hvalue
  · exact Nat.zero_le _

theorem paddedWidth_le (negative : Bool) (width : ℕ) (flags : Flags) :
    paddedWidth negative width flags ≤ width := by
  rw [paddedWidth]
  split_ifs <;> omega

/-- The characters of a number in front of its sign. -/
def padded (value base prec width : ℕ) (flags : Flags) : List UInt8 :=
  padLeading prec width flags (digitsOf value base flags)

theorem length_padded (h : Fits value base prec width flags) (hbase : 1 < base) :
    (padded value base prec width flags).length =
      if flags.left then digitCount value base flags
      else max (max (digitCount value base flags) prec) (if flags.zeropad then width else 0) := by
  have hcount := digitCount_le hbase h.value flags
  have hprec := h.prec
  have hsize : ntoaBufferSize = 32 := rfl
  rw [padded, length_padLeading (length_digitsOf_le value base flags),
    length_digitsOf hbase (h.value_lt hbase)]
  by_cases hzero : flags.zeropad
  · have hwidth := h.width hzero
    rw [if_pos hzero, if_pos hzero, min_eq_left (by omega), min_eq_left (by omega)]
  · rw [if_neg hzero, if_neg hzero, min_eq_left (by omega)]

theorem length_padded_le (h : Fits value base prec width flags) (hbase : 1 < base) :
    (padded value base prec width flags).length ≤ 31 := by
  have hcount := digitCount_le hbase h.value flags
  have hprec := h.prec
  rw [length_padded h hbase]
  split_ifs with hleft hzero
  · omega
  · have hwidth := h.width hzero
    omega
  · omega

theorem digits_padded (h : Fits value base prec width flags) (hbase : 1 < base) :
    ∃ ds, Digits base value flags.uppercase (padded value base prec width flags) ds := by
  obtain ⟨ds, hds⟩ := digits_digitsOf hbase (h.value_lt hbase) flags
  exact hds.padLeading (by omega) prec width flags

/-! ## Numbers without a prefix -/

/-- The sign of a number, where it is not a space. -/
def signBytes (negative : Bool) (flags : Flags) : List UInt8 :=
  if negative then ['-'.toUInt8] else if flags.plus then ['+'.toUInt8] else []

theorem plain_addSign (hbuf : buf.length < ntoaBufferSize) (negative : Bool) (flags : Flags) :
    plain (addSign negative flags buf).reverse =
      signBytes negative flags ++ plain buf.reverse := by
  rw [addSign, signBytes]
  split_ifs
  · rw [push_of_lt hbuf, List.reverse_append, plain_append]
    rfl
  · rw [push_of_lt hbuf, List.reverse_append, plain_append]
    rfl
  · rw [push_of_lt hbuf, List.reverse_append, plain_append]
    rfl
  · rfl

/-- Whether a number has a character in front of its digits. -/
def signed (negative : Bool) (flags : Flags) : Bool := negative || flags.plus || flags.space

theorem length_addSign (hbuf : buf.length < ntoaBufferSize) (negative : Bool) (flags : Flags) :
    (addSign negative flags buf).length =
      buf.length + if signed negative flags then 1 else 0 := by
  have hpush : ∀ c, (push buf c).length = buf.length + 1 := by
    intro c
    rw [push_of_lt hbuf, List.length_append, List.length_singleton]
  rw [addSign, signed]
  cases negative with
  | true => exact hpush _
  | false =>
      cases flags.plus with
      | true => exact hpush _
      | false =>
          cases flags.space with
          | true => exact hpush _
          | false => rfl

@[simp] theorem digitsOf_valueFlags (value base : ℕ) (flags : Flags) :
    digitsOf value base (valueFlags value flags) = digitsOf value base flags := by
  rw [digitsOf, digitsOf, precision_valueFlags, uppercase_valueFlags]

theorem valueFlags_idem (value : ℕ) (flags : Flags) :
    valueFlags value (valueFlags value flags) = valueFlags value flags := by
  unfold valueFlags
  split_ifs <;> rfl

theorem ntoaText_valueFlags (hbase : 1 < base) (value : ℕ) (negative : Bool) (prec width : ℕ)
    (flags : Flags) : ntoaText value negative base prec width (valueFlags value flags) =
      ntoaText value negative base prec width flags := by
  rw [ntoaText, ntoaText, ntoaDigits_eq hbase, ntoaDigits_eq hbase, valueFlags_idem,
    digitsOf_valueFlags]

/-- The characters of a number in its field, for flags that are those of the value. -/
theorem ntoaText_eq (hbase : 1 < base) (hflags : valueFlags value flags = flags) (negative : Bool)
    (prec width : ℕ) : ntoaText value negative base prec width flags =
      some (outRevText (addSign negative flags
        (handleHash base prec (paddedWidth negative width flags) flags
          (padded value base prec (paddedWidth negative width flags) flags)))
        (paddedWidth negative width flags) flags) := by
  rw [ntoaText, ntoaDigits_eq hbase, hflags]
  rfl

theorem Fits.padded (h : Fits value base prec width flags) (negative : Bool) :
    Fits value base prec (paddedWidth negative width flags) flags where
  value := h.value
  prec := h.prec
  width hzero := (paddedWidth_le negative width flags).trans (h.width hzero)

theorem handleHash_of_not (hhash : flags.hash = false) (base prec width : ℕ) (buf : List UInt8) :
    handleHash base prec width flags buf = buf := by
  rw [handleHash, hhash]
  rfl

/-- Without a prefix the digits stand for the value. -/
theorem reads_of_not_hash (hbase : 1 < base) (hbase' : base ≤ 36)
    (hflags : valueFlags value flags = flags) (hhash : flags.hash = false)
    (h : Fits value base prec width flags) (negative : Bool) :
    ∃ l ds, ntoaText value negative base prec width flags = some l ∧
      plain l = signBytes negative flags ++ ds ∧ readDigits base ds = some value := by
  have hfits := h.padded negative
  obtain ⟨ds, hds⟩ := digits_padded hfits hbase
  have hroom : (Printf.padded value base prec (paddedWidth negative width flags) flags).length <
      ntoaBufferSize := lt_of_le_of_lt (length_padded_le hfits hbase) (by decide)
  refine ⟨_, (ds.map digitByte).reverse, ntoaText_eq hbase hflags negative prec width, ?_,
    hds.readDigits hbase'⟩
  rw [plain_outRevText, handleHash_of_not hhash, plain_addSign hroom, hds.buf,
    plain_digits hbase' hds.lt]

theorem signed_iff : signed negative flags = true ↔ negative ∨ flags.plus ∨ flags.space := by
  rw [signed, Bool.or_eq_true, Bool.or_eq_true, or_assoc]

theorem length_spaces (n : ℕ) : (spaces n).length = n := List.length_replicate

theorem length_outRevText (buf : List UInt8) (width : ℕ) (flags : Flags) :
    (outRevText buf width flags).length =
      if flags.left ∨ ¬flags.zeropad then max width buf.length else buf.length := by
  rw [outRevText, List.length_append, List.length_append, List.length_reverse]
  by_cases hleft : flags.left
  · rw [if_neg fun h => h.1 hleft, if_pos hleft, if_pos (Or.inl hleft), length_spaces]
    simp only [List.length_nil]
    omega
  · rw [if_neg hleft]
    by_cases hzero : flags.zeropad
    · rw [if_neg fun h => h.2 hzero, if_neg (by tauto)]
      simp only [List.length_nil]
      omega
    · rw [if_pos ⟨hleft, hzero⟩, if_pos (Or.inr hzero), length_spaces]
      simp only [List.length_nil]
      omega

theorem paddedWidth_eq (negative : Bool) (width : ℕ) (flags : Flags) :
    paddedWidth negative width flags =
      if ¬flags.left ∧ flags.zeropad ∧ signed negative flags then width - 1 else width := by
  rw [paddedWidth]
  by_cases hwidth : width = 0
  · rw [hwidth]
    split_ifs <;> rfl
  · simp only [signed_iff, ne_eq, hwidth, not_false_eq_true, true_and]

/-- The length of a number in its field: a precision has no effect on a number that is left
in its field, and zeros and spaces fill up the field. -/
theorem length_of_not_hash (hbase : 1 < base) (hflags : valueFlags value flags = flags)
    (hhash : flags.hash = false) (h : Fits value base prec width flags) (negative : Bool) :
    ∃ l, ntoaText value negative base prec width flags = some l ∧
      l.length = max width ((if flags.left then digitCount value base flags
        else max (digitCount value base flags) prec) + if signed negative flags then 1 else 0) := by
  have hfits := h.padded negative
  have hroom : (Printf.padded value base prec (paddedWidth negative width flags) flags).length <
      ntoaBufferSize := lt_of_le_of_lt (length_padded_le hfits hbase) (by decide)
  refine ⟨_, ntoaText_eq hbase hflags negative prec width, ?_⟩
  rw [handleHash_of_not hhash, length_outRevText, length_addSign hroom,
    length_padded hfits hbase, paddedWidth_eq]
  by_cases hleft : flags.left
  · rw [if_pos (Or.inl hleft), if_neg fun hall => hall.1 hleft, if_pos hleft, if_pos hleft]
  · rw [if_neg hleft, if_neg hleft]
    by_cases hzero : flags.zeropad
    · rw [if_neg (by tauto), if_pos hzero]
      by_cases hsigned : signed negative flags
      · rw [if_pos ⟨hleft, hzero, hsigned⟩, if_pos hsigned]
        omega
      · rw [if_neg fun hall => hsigned hall.2.2, if_neg hsigned]
        omega
    · rw [if_pos (Or.inr hzero), if_neg fun hall => hzero hall.2.1, if_neg hzero, Nat.max_zero]

/-! ## Numbers with a prefix -/

/-- What `#` puts in front of a number. -/
def prefixBytes (base : ℕ) (flags : Flags) : List UInt8 :=
  if flags.hash then
    if base = 16 then ['0'.toUInt8, 'x'.toUInt8]
    else if base = 2 then ['0'.toUInt8, 'b'.toUInt8]
    else ['0'.toUInt8]
  else []

/-- The number of characters that make room for the prefix. -/
def prefixRoom (base : ℕ) (flags : Flags) : ℕ :=
  if base = 16 ∧ flags.zeropad ∧ ¬flags.left then 2 else 1

/-- The prefix takes the place of digits. -/
def Eats (value base width : ℕ) (flags : Flags) : Prop :=
  flags.hash ∧ ¬flags.precision ∧ base ^ (width - prefixRoom base flags) ≤ value ∧
    value < base ^ width

theorem plain_addPrefix (hbuf : buf.length ≤ 30) (hhash : flags.hash = true) (base : ℕ) :
    plain (addPrefix base flags buf).reverse = prefixBytes base flags ++ plain buf.reverse := by
  have hsize : ntoaBufferSize = 32 := rfl
  have hpush : ∀ c, push buf c = buf ++ [c] := fun c => push_of_lt (by omega) c
  have hpush' : ∀ c d, push (buf ++ [c]) d = buf ++ [c] ++ [d] := by
    intro c d
    apply push_of_lt
    rw [List.length_append, List.length_singleton]
    omega
  have htwo : ∀ c d, plain (buf ++ [c] ++ [d]).reverse = plain [d, c] ++ plain buf.reverse := by
    intro c d
    rw [List.append_assoc, List.reverse_append, plain_append]
    rfl
  rw [addPrefix, prefixBytes, if_pos hhash]
  by_cases h16 : base = 16
  · rw [if_pos h16]
    cases hupper : flags.uppercase with
    | true =>
        rw [if_neg fun h => h.2 rfl, if_pos ⟨h16, rfl⟩, hpush, hpush', htwo]
        rfl
    | false =>
        rw [if_pos ⟨h16, Bool.false_ne_true⟩, hpush, hpush', htwo]
        rfl
  · rw [if_neg h16, if_neg fun h => h16 h.1, if_neg fun h => h16 h.1]
    by_cases h2 : base = 2
    · rw [if_pos h2, if_pos h2, hpush, hpush', htwo]
      rfl
    · rw [if_neg h2, if_neg h2, hpush, List.reverse_append, plain_append]
      rfl

theorem dropLast_dropLast_eq (hne : buf ≠ []) (base : ℕ) :
    (if buf.dropLast ≠ [] ∧ base = 16 then buf.dropLast.dropLast else buf.dropLast) =
      buf.take (buf.length - if base = 16 ∧ buf.length ≠ 1 then 2 else 1) := by
  have hpos : 0 < buf.length := List.length_pos_iff.mpr hne
  have hone : buf.dropLast ≠ [] ↔ buf.length ≠ 1 := by
    rw [ne_eq, ← List.length_eq_zero_iff, List.length_dropLast]
    omega
  by_cases h16 : base = 16 ∧ buf.length ≠ 1
  · rw [if_pos ⟨hone.mpr h16.2, h16.1⟩, if_pos h16, List.dropLast_eq_take,
      List.length_dropLast, List.dropLast_eq_take, List.take_take]
    congr 1
    omega
  · rw [if_neg fun hall => h16 ⟨hall.2, hone.mp hall.1⟩, if_neg h16, List.dropLast_eq_take]

/-- What is kept of the digits. -/
theorem dropPadding_eq (hne : buf ≠ []) (hprec : flags.precision = false → prec = 0)
    (base width : ℕ) : dropPadding base prec width flags buf =
      if ¬flags.precision ∧ buf.length = width then
        buf.take (width - if base = 16 ∧ width ≠ 1 then 2 else 1)
      else buf := by
  have hpos : 0 < buf.length := List.length_pos_iff.mpr hne
  rw [dropPadding, dropLast_dropLast_eq hne]
  by_cases hfull : ¬flags.precision ∧ buf.length = width
  · obtain ⟨hno, rfl⟩ := hfull
    have hcond : ¬flags.precision ∧ buf ≠ [] ∧ (buf.length = prec ∨ buf.length = buf.length) :=
      ⟨hno, hne, Or.inr rfl⟩
    have hcond' : ¬flags.precision ∧ buf.length = buf.length := ⟨hno, rfl⟩
    exact (if_pos hcond).trans (if_pos hcond').symm
  · have hno : ¬(¬flags.precision ∧ buf ≠ [] ∧ (buf.length = prec ∨ buf.length = width)) := by
      rintro ⟨hprecision, -, heq | heq⟩
      · rw [hprec (Bool.eq_false_iff.mpr hprecision)] at heq
        omega
      · exact hfull ⟨hprecision, heq⟩
    exact (if_neg hno).trans (if_neg hfull).symm

section Hash

variable (hbase : 1 < base) (h : Fits value base prec width flags) (hvalue : value ≠ 0)
  (hprec : flags.precision = false → prec = 0)
  (hzero : flags.precision = true → flags.zeropad = false)

include hvalue in
theorem digitCount_of_ne (base : ℕ) (flags : Flags) :
    digitCount value base flags = (lowDigits base value).length := if_pos (Or.inr hvalue)

include hbase hvalue in
/-- A number fills a field without zeros exactly if it has that many digits. -/
theorem digitCount_eq_iff (flags : Flags) (hwidth : 0 < width) :
    digitCount value base flags = width ↔ base ^ (width - 1) ≤ value ∧ value < base ^ width := by
  rw [digitCount_of_ne hvalue]
  have hle := lowDigits_length_le hbase hwidth value
  by_cases hone : width = 1
  · subst hone
    have hpos : 0 < (lowDigits base value).length :=
      List.length_pos_iff.mpr (lowDigits_ne_nil base value)
    have hmin : base ^ (1 - 1) ≤ value := Nat.pos_of_ne_zero hvalue
    constructor
    · intro heq
      exact ⟨hmin, hle.mp heq.le⟩
    · rintro ⟨-, hlt⟩
      exact le_antisymm (hle.mpr hlt) hpos
  · have hless := lowDigits_length_le hbase (show 0 < width - 1 by omega) value
    rw [← hle, ← not_lt, ← hless]
    omega

include h hbase hvalue hprec in
/-- The characters fill the field where the number is shorter than the field and padded, or has
as many digits as the field has places. -/
theorem length_padded_eq_iff (hno : flags.precision = false) (hwidth : 0 < width) :
    (padded value base prec width flags).length = width ↔
      (if flags.zeropad ∧ ¬flags.left then True else base ^ (width - 1) ≤ value) ∧
        value < base ^ width := by
  have hcount := digitCount_eq_iff hbase hvalue flags hwidth
  have hle := lowDigits_length_le hbase hwidth value
  rw [← digitCount_of_ne hvalue base flags] at hle
  rw [length_padded h hbase, hprec hno]
  by_cases hleft : flags.left
  · rw [if_pos hleft, if_neg fun hall => hall.2 hleft, hcount]
  · rw [if_neg hleft]
    by_cases hpad : flags.zeropad
    · rw [if_pos hpad, if_pos ⟨hpad, hleft⟩, true_and, ← hle]
      omega
    · rw [if_neg hpad, if_neg fun hall => hpad hall.1, ← hcount]
      omega

include hbase hvalue in
theorem padded_ne_nil (h : Fits value base prec width flags) :
    padded value base prec width flags ≠ [] := by
  have hpos : 0 < digitCount value base flags := by
    rw [digitCount_of_ne hvalue]
    exact List.length_pos_iff.mpr (lowDigits_ne_nil base value)
  rw [← List.length_pos_iff, length_padded h hbase]
  split_ifs <;> omega

include h hbase hvalue hprec in
/-- The prefix takes the place of digits exactly if what is kept is too short for the value. -/
theorem eats_iff (hhash : flags.hash = true) (hno : flags.precision = false)
    (hfull : (padded value base prec width flags).length = width) :
    Eats value base width flags ↔
      ¬value < base ^ (width - if base = 16 ∧ width ≠ 1 then 2 else 1) := by
  have hwidth : 0 < width := by
    rw [← hfull]
    exact List.length_pos_iff.mpr (padded_ne_nil hbase hvalue h)
  obtain ⟨hmany, hlt⟩ := (length_padded_eq_iff hbase h hvalue hprec hno hwidth).mp hfull
  rw [not_lt, Eats, hno, prefixRoom]
  constructor
  · rintro ⟨-, -, hle, -⟩
    refine le_trans (Nat.pow_le_pow_right (by omega) ?_) hle
    split_ifs with h₁ h₂ h₂ <;> omega
  · intro hle
    refine ⟨hhash, Bool.false_ne_true, ?_, hlt⟩
    by_cases hpad : flags.zeropad ∧ ¬flags.left
    · refine le_trans (Nat.pow_le_pow_right (by omega) ?_) hle
      split_ifs with h₁ h₂ h₂
      · omega
      · omega
      · exact absurd ⟨h₂.1, hpad⟩ h₁
      · omega
    · rw [if_neg hpad] at hmany
      rw [if_neg fun hall => hpad hall.2]
      exact hmany

include h hbase hvalue hprec hzero in
theorem not_eats_of_not_full
    (hfull : ¬(¬flags.precision ∧ (padded value base prec width flags).length = width)) :
    ¬Eats value base width flags ∧ (padded value base prec width flags).length ≤ 30 := by
  constructor
  · rintro ⟨-, hno, hle, hlt⟩
    have hno' : flags.precision = false := Bool.eq_false_iff.mpr hno
    have hwidth : 0 < width := by
      by_contra hzero
      rw [Nat.eq_zero_of_not_pos hzero, Nat.pow_zero] at hlt
      omega
    refine hfull ⟨hno, (length_padded_eq_iff hbase h hvalue hprec hno' hwidth).mpr ⟨?_, hlt⟩⟩
    by_cases hpad : flags.zeropad ∧ ¬flags.left
    · rw [if_pos hpad]
      trivial
    · rw [if_neg hpad]
      rw [prefixRoom, if_neg fun hall => hpad hall.2] at hle
      exact hle
  · have hcount := digitCount_le hbase h.value flags
    have hprec' := h.prec
    have hlength := length_padded h hbase
    by_contra hlong
    split_ifs at hlength with hleft hpad
    · omega
    · have hwidth := h.width hpad
      refine hfull ⟨fun hprecision => ?_, by omega⟩
      rw [hzero hprecision] at hpad
      cases hpad
    · omega

include h hbase hvalue hprec hzero in
/-- With a prefix the digits stand for the value unless the prefix takes the place of some. -/
theorem reads_of_hash (hbase' : base ≤ 36) (hhash : flags.hash = true)
    (hplus : flags.plus = false) (hspace : flags.space = false) :
    ∃ l ds, ntoaText value false base prec width flags = some l ∧
      plain l = prefixBytes base flags ++ ds ∧
      (readDigits base ds = some value ↔ ¬Eats value base width flags) := by
  have hflags : valueFlags value flags = flags := if_neg hvalue
  have hwidth : paddedWidth false width flags = width := by
    rw [paddedWidth_eq, signed, hplus, hspace]
    exact if_neg fun hall => Bool.false_ne_true hall.2.2
  have hsign : ∀ buf, addSign false flags buf = buf := by
    intro buf
    rw [addSign, hplus, hspace]
    rfl
  have htext := ntoaText_eq hbase hflags false prec width
  rw [hwidth, hsign, handleHash, if_pos hhash,
    dropPadding_eq (padded_ne_nil hbase hvalue h) hprec] at htext
  obtain ⟨ds, hds⟩ := digits_padded h hbase
  by_cases hfull : ¬flags.precision ∧ (padded value base prec width flags).length = width
  · rw [if_pos hfull] at htext
    have hno : flags.precision = false := Bool.eq_false_iff.mpr hfull.1
    have hiff := eats_iff hbase h hvalue hprec hhash hno hfull.2
    have hle := length_padded_le h hbase
    have hroom : ((padded value base prec width flags).take
        (width - if base = 16 ∧ width ≠ 1 then 2 else 1)).length ≤ 30 := by
      rw [List.length_take]
      split_ifs <;> omega
    generalize (width - if base = 16 ∧ width ≠ 1 then 2 else 1) = m at htext hiff hroom
    refine ⟨_, ((ds.take m).map digitByte).reverse, htext, ?_, ?_⟩
    · rw [plain_outRevText, plain_addPrefix hroom hhash, hds.buf, ← List.map_take,
        plain_digits hbase' fun d hd => hds.lt d (List.mem_of_mem_take hd)]
    · rw [hds.readDigits_take (by omega) hbase', Option.some.injEq, hiff, not_not,
        Nat.mod_eq_iff_lt (Nat.pow_pos (by omega)).ne']
  · rw [if_neg hfull] at htext
    obtain ⟨hnot, hroom⟩ := not_eats_of_not_full hbase h hvalue hprec hzero hfull
    refine ⟨_, (ds.map digitByte).reverse, htext, ?_, ?_⟩
    · rw [plain_outRevText, plain_addPrefix hroom hhash, hds.buf,
        plain_digits hbase' hds.lt]
    · rw [hds.readDigits hbase']
      exact iff_of_true rfl hnot

end Hash

/-! ## Conversions of a format -/

section Specifiers

variable {q : Specifier} {f : List UInt8}

theorem precision_setWidth (p : Specifier) (n : Number) :
    (p.setWidth n).flags.precision = p.flags.precision ∧
      (p.setWidth n).precision = p.precision := by
  cases n with
  | star w =>
      rw [Specifier.setWidth]
      split_ifs
      · exact ⟨rfl, rfl⟩
      · exact ⟨rfl, rfl⟩
  | nothing => exact ⟨rfl, rfl⟩
  | digits n => exact ⟨rfl, rfl⟩

theorem precision_evaluateWidth (h : evaluateWidth p = some q) :
    q.flags.precision = p.flags.precision ∧ q.precision = p.precision := by
  rw [evaluateWidth_eq] at h
  obtain ⟨r, -, rfl⟩ := Option.map_eq_some_iff.mp h
  exact precision_setWidth p r.1

theorem flags_evaluateDigits (h : evaluateDigits p = some q) : q.flags = p.flags := by
  rw [evaluateDigits_eq] at h
  obtain ⟨r, -, rfl⟩ := Option.map_eq_some_iff.mp h
  cases r.1 <;> rfl

theorem precision_evaluatePrecision (h : evaluatePrecision p = some q) (hp : p.precision = 0)
    (hno : q.flags.precision = false) : q.precision = 0 := by
  obtain ⟨c, -, h⟩ := Option.bind_eq_some_iff.mp h
  split_ifs at h
  · rw [flags_evaluateDigits h] at hno
    cases hno
  · cases h
    exact hp

theorem precision_evaluateLength (h : evaluateLength p = some q) :
    q.flags.precision = p.flags.precision ∧ q.precision = p.precision := by
  obtain ⟨c, -, h⟩ := Option.bind_eq_some_iff.mp h
  split_ifs at h
  · obtain ⟨d, -, h⟩ := Option.bind_eq_some_iff.mp h
    split_ifs at h
    · cases h
      exact ⟨rfl, rfl⟩
    · cases h
      exact ⟨rfl, rfl⟩
  · obtain ⟨d, -, h⟩ := Option.bind_eq_some_iff.mp h
    split_ifs at h
    · cases h
      exact ⟨rfl, rfl⟩
    · cases h
      exact ⟨rfl, rfl⟩
  · cases h
    exact ⟨rfl, rfl⟩
  · cases h
    exact ⟨rfl, rfl⟩
  · cases h
    exact ⟨rfl, rfl⟩

/-- Without a dot there is no precision. -/
theorem precision_of_evaluate (h : evaluate f va = some p) (hno : p.flags.precision = false) :
    p.precision = 0 := by
  obtain ⟨⟨flags, g⟩, -, h⟩ := Option.bind_eq_some_iff.mp h
  obtain ⟨p₁, hwidth, h⟩ := Option.bind_eq_some_iff.mp h
  obtain ⟨p₂, hprecision, hlength⟩ := Option.bind_eq_some_iff.mp h
  obtain ⟨hflag, hsame⟩ := precision_evaluateLength hlength
  rw [hsame]
  rw [hflag] at hno
  exact precision_evaluatePrecision hprecision (precision_evaluateWidth hwidth).2 hno

end Specifiers

theorem integerBase_cases (c : UInt8) : integerBase c = 16 ∨ integerBase c = 8 ∨
    integerBase c = 2 ∨ integerBase c = 10 := by
  rw [integerBase]
  split_ifs <;> decide

theorem integerBase_of_signed (h : signedConversion c = true) : integerBase c = 10 := by
  rcases of_decide_eq_true h with rfl | rfl <;> rfl

/-- The flags of a conversion of a value. -/
def conversionFlags (c : UInt8) (value : ℕ) (flags : Flags) : Flags :=
  valueFlags value (integerFlags c flags)

theorem conversionFlags_spec (c : UInt8) (value : ℕ) (flags : Flags) :
    (conversionFlags c value flags).precision = flags.precision ∧
    (conversionFlags c value flags).zeropad = (flags.zeropad && !flags.precision) ∧
    (conversionFlags c value flags).plus = (flags.plus && signedConversion c) ∧
    (conversionFlags c value flags).space = (flags.space && signedConversion c) ∧
    ((conversionFlags c value flags).hash = true → integerBase c ≠ 10 ∧ value ≠ 0) := by
  rw [conversionFlags, valueFlags]
  by_cases hvalue : value = 0
  · rw [if_pos hvalue]
    exact ⟨rfl, rfl, rfl, rfl, fun h => absurd h Bool.false_ne_true⟩
  · rw [if_neg hvalue]
    refine ⟨rfl, rfl, rfl, rfl, fun h => ⟨?_, hvalue⟩⟩
    exact of_decide_eq_true (Bool.and_eq_true_iff.mp h).2

theorem fits_conversion (hvalue : value < integerBase c ^ 30) (hprec : p.precision ≤ 30)
    (hwidth : p.flags.zeropad → p.width ≤ 31) :
    Fits value (integerBase c) p.precision p.width (conversionFlags c value p.flags) where
  value := hvalue
  prec := hprec
  width hzero := by
    rw [(conversionFlags_spec c value p.flags).2.1] at hzero
    exact hwidth (Bool.and_eq_true_iff.mp hzero).1

theorem not_negative_of_unsigned {va' : List VaArg} (hunsigned : signedConversion c = false)
    (harg : integerArg c flags va = some ((value, negative), va')) : negative = false := by
  rw [integerArg, hunsigned] at harg
  split_ifs at harg
  · obtain ⟨r, -, hr⟩ := Option.map_eq_some_iff.mp harg
    cases hr
    rfl
  · obtain ⟨r, -, hr⟩ := Option.map_eq_some_iff.mp harg
    cases hr
    rfl

/-- A specifier writes the text of its number. -/
theorem evaluateSpecifier_integer {va' : List VaArg} (floats : FloatTexts)
    (hc : p.format.head? = some c) (hinteger : integerConversion c = true)
    (harg : integerArg c (integerFlags c p.flags) p.va = some ((value, negative), va'))
    (hl : ntoaText value negative (integerBase c) p.precision p.width
      (conversionFlags c value p.flags) = some l) {σ : Type} (out : OutFct σ)
    (buffer maxlen : ℕ) {s : Cursor σ} (hs : s.idx < 2 ^ 32) :
    evaluateSpecifier floats out buffer maxlen p s =
      some (p.format.tail, va', s.putAll (sink out buffer maxlen) l) := by
  rw [conversionFlags, ntoaText_valueFlags (one_lt_integerBase c)] at hl
  have htext : conversionText floats c p = some (va', l) := by
    rw [conversionText, if_pos hinteger, integerText]
    simp only [Option.bind_eq_bind, harg, Option.bind_some, hl]
  rw [evaluateSpecifier_eq p hs, hc, Option.bind_some, htext]
  rfl

/-- Where the numbers have room in the conversion buffer, the text of an integer conversion is a
sign, a prefix and digits that stand for the argument, unless the prefix takes the place of
digits. -/
theorem integer_reads_iff {f : List UInt8} {va' : List VaArg} (floats : FloatTexts)
    (hp : evaluate f va = some p) (hc : p.format.head? = some c)
    (hinteger : integerConversion c = true)
    (harg : integerArg c (integerFlags c p.flags) p.va = some ((value, negative), va'))
    (hvalue : value < integerBase c ^ 30) (hprec : p.precision ≤ 30)
    (hwidth : p.flags.zeropad → p.width ≤ 31) :
    ∃ l, (∀ (σ : Type) (out : OutFct σ) (buffer maxlen : ℕ) (s : Cursor σ), s.idx < 2 ^ 32 →
        evaluateSpecifier floats out buffer maxlen p s =
          some (p.format.tail, va', s.putAll (sink out buffer maxlen) l)) ∧
      ((∃ ds, plain l = signBytes negative (conversionFlags c value p.flags) ++
        prefixBytes (integerBase c) (conversionFlags c value p.flags) ++ ds ∧
          readDigits (integerBase c) ds = some value) ↔
        ¬Eats value (integerBase c) p.width (conversionFlags c value p.flags)) := by
  have hbase := one_lt_integerBase c
  have hbase' : integerBase c ≤ 36 := by
    rcases integerBase_cases c with h | h | h | h <;> rw [h] <;> decide
  have hfits := fits_conversion hvalue hprec hwidth
  have hflags : valueFlags value (conversionFlags c value p.flags) =
      conversionFlags c value p.flags := valueFlags_idem value _
  obtain ⟨hprecision, hzeropad, hplus, hspace, hhash⟩ := conversionFlags_spec c value p.flags
  cases hprefix : (conversionFlags c value p.flags).hash with
  | false =>
      obtain ⟨l, ds, hl, hplain, hread⟩ :=
        reads_of_not_hash hbase hbase' hflags hprefix hfits negative
      refine ⟨l, fun σ out buffer maxlen s hs =>
        evaluateSpecifier_integer floats hc hinteger harg hl out buffer maxlen hs, ?_⟩
      have hnone : prefixBytes (integerBase c) (conversionFlags c value p.flags) = [] := by
        rw [prefixBytes, hprefix]
        rfl
      rw [hnone, List.append_nil]
      refine iff_of_true ⟨ds, hplain, hread⟩ fun heats => ?_
      rw [Eats, hprefix] at heats
      exact Bool.false_ne_true heats.1
  | true =>
      obtain ⟨hten, hne⟩ := hhash hprefix
      have hunsigned : signedConversion c = false := by
        by_contra hsigned
        exact hten (integerBase_of_signed (Bool.not_eq_false _ ▸ hsigned))
      have hnegative : negative = false := not_negative_of_unsigned hunsigned harg
      subst hnegative
      rw [hunsigned, Bool.and_false] at hplus hspace
      have hnone : signBytes false (conversionFlags c value p.flags) = [] := by
        rw [signBytes, hplus]
        rfl
      obtain ⟨l, ds, hl, hplain, hread⟩ := reads_of_hash hbase hfits hne
        (fun hno => precision_of_evaluate hp (hprecision.symm.trans hno))
        (fun hyes => by rw [hzeropad, ← hprecision, hyes]; exact Bool.and_false _)
        hbase' hprefix hplus hspace
      refine ⟨l, fun σ out buffer maxlen s hs =>
        evaluateSpecifier_integer floats hc hinteger harg hl out buffer maxlen hs, ?_⟩
      rw [hnone, List.nil_append, ← hread, hplain]
      constructor
      · rintro ⟨ds', heq, hds'⟩
        rwa [List.append_cancel_left heq]
      · intro hds
        exact ⟨ds, rfl, hds⟩

/-- `%#06x`, which prints the number 0x12345 as `0x2345`. -/
def paddedHex : Specifier := ⟨{ zeropad := true, hash := true }, 6, 0, [0x78, 0], [.word 0x12345]⟩

theorem integer_reads_iff_paddedHex : ∃ l, (∀ (σ : Type) (out : OutFct σ) (buffer maxlen : ℕ)
    (s : Cursor σ), s.idx < 2 ^ 32 → evaluateSpecifier ⟨fun _ _ _ _ => [], fun _ _ _ _ => []⟩ out
      buffer maxlen paddedHex s = some ([0], [], s.putAll (sink out buffer maxlen) l)) ∧
      ¬∃ ds, plain l = [0x30, 0x78] ++ ds ∧ readDigits 16 ds = some 0x12345 := by
  have hp : evaluate [0x23, 0x30, 0x36, 0x78, 0] [.word 0x12345] = some paddedHex := rfl
  obtain ⟨l, hl, hiff⟩ := integer_reads_iff ⟨fun _ _ _ _ => [], fun _ _ _ _ => []⟩ hp rfl rfl rfl
    (by decide) (by decide) (by decide)
  refine ⟨l, hl, fun hreads => hiff.mp hreads ⟨rfl, by decide, by decide, by decide⟩⟩

/-- Without a prefix a number takes its field exactly, or as many characters as it has. -/
theorem integer_length {va' : List VaArg} (floats : FloatTexts)
    (hc : p.format.head? = some c) (hinteger : integerConversion c = true)
    (harg : integerArg c (integerFlags c p.flags) p.va = some ((value, negative), va'))
    (hvalue : value < integerBase c ^ 30) (hprec : p.precision ≤ 30)
    (hwidth : p.flags.zeropad → p.width ≤ 31)
    (hhash : (conversionFlags c value p.flags).hash = false) :
    ∃ l, (∀ (σ : Type) (out : OutFct σ) (buffer maxlen : ℕ) (s : Cursor σ), s.idx < 2 ^ 32 →
        evaluateSpecifier floats out buffer maxlen p s =
          some (p.format.tail, va', s.putAll (sink out buffer maxlen) l)) ∧
      l.length = max p.width ((if p.flags.left then
          digitCount value (integerBase c) (conversionFlags c value p.flags)
        else max (digitCount value (integerBase c) (conversionFlags c value p.flags)) p.precision) +
          if signed negative (conversionFlags c value p.flags) then 1 else 0) := by
  have hbase := one_lt_integerBase c
  have hflags : valueFlags value (conversionFlags c value p.flags) =
      conversionFlags c value p.flags := valueFlags_idem value _
  obtain ⟨l, hl, hlength⟩ := length_of_not_hash hbase hflags hhash
    (fits_conversion hvalue hprec hwidth) negative
  have hleft : (conversionFlags c value p.flags).left = p.flags.left := by
    rw [conversionFlags, valueFlags]
    split_ifs <;> rfl
  rw [hleft] at hlength
  exact ⟨l, fun σ out buffer maxlen s hs =>
    evaluateSpecifier_integer floats hc hinteger harg hl out buffer maxlen hs, hlength⟩

/-- `%-8.5d`, which prints the number 42 without leading zeros. -/
def leftDecimal : Specifier :=
  ⟨{ left := true, precision := true }, 8, 5, [0x64, 0], [.word 42]⟩

theorem integer_length_leftDecimal : ∃ l, (∀ (σ : Type) (out : OutFct σ) (buffer maxlen : ℕ)
    (s : Cursor σ), s.idx < 2 ^ 32 → evaluateSpecifier ⟨fun _ _ _ _ => [], fun _ _ _ _ => []⟩ out
      buffer maxlen leftDecimal s = some ([0], [], s.putAll (sink out buffer maxlen) l)) ∧
      l.length = 8 := by
  obtain ⟨l, hl, hlength⟩ := @integer_length _ _ _ leftDecimal _
    ⟨fun _ _ _ _ => [], fun _ _ _ _ => []⟩ rfl rfl rfl (by decide) (by decide) (by decide) rfl
  exact ⟨l, hl, hlength⟩

end AviKernel.Printf
