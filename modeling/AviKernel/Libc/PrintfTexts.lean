import AviKernel.Libc.Printf
import AviKernel.Library.Numerals

/-!
# The text of a format

What a format says is a list of characters, and the loop over it does nothing but hand them
to the output function one after the other.
-/

namespace AviKernel.Printf

variable {σ : Type} {floats : FloatTexts} {out : OutFct σ} {buffer maxlen : ℕ}

/-! ## The texts of the conversions -/

def spaces (n : ℕ) : List UInt8 := List.replicate n ' '.toUInt8

def outRevText (buf : List UInt8) (width : ℕ) (flags : Flags) : List UInt8 :=
  (if ¬flags.left ∧ ¬flags.zeropad then spaces (width - buf.length) else []) ++ buf.reverse ++
    (if flags.left then spaces (width - buf.length) else [])

def ntoaText (value : ℕ) (negative : Bool) (base prec width : ℕ) (flags : Flags) :
    Option (List UInt8) := do
  let (buf, flags) ← ntoaDigits value base flags
  let (buf, width) := ntoaBuffer buf negative base prec width flags
  some (outRevText buf width flags)

/-- A text in a field of spaces. -/
def fieldText (left : Bool) (n : ℕ) (l : List UInt8) : List UInt8 :=
  (if ¬left then spaces n else []) ++ l ++ (if left then spaces n else [])

def stringText (flags : Flags) : List UInt8 → ℕ → Option (List UInt8)
  | [], _ => none
  | c :: p, precision =>
      if c = 0 then some []
      else if flags.precision then
        if precision = 0 then some []
        else (stringText flags p (precision - 1)).map (c :: ·)
      else (stringText flags p precision).map (c :: ·)

def integerText (c : UInt8) (p : Specifier) : Option (List VaArg × List UInt8) := do
  let flags := integerFlags c p.flags
  let ((value, negative), va) ← integerArg c flags p.va
  let l ← ntoaText value negative (integerBase c) p.precision p.width flags
  some (va, l)

def charText (p : Specifier) : Option (List VaArg × List UInt8) := do
  let (v, va) ← vaWord p.va
  some (va, fieldText p.flags.left (p.width - 1) [UInt8.ofNat v.toNat])

def convertedString (p : Specifier) : Option (List VaArg × List UInt8) := do
  let (object, va) ← vaText p.va
  let l ← strnlenS object (if p.precision ≠ 0 then p.precision else 2 ^ 32 - 1)
  let l := if p.flags.precision then min l p.precision else l
  let t ← stringText p.flags object p.precision
  some (va, fieldText p.flags.left (p.width - l) t)

def pointerText (p : Specifier) : Option (List VaArg × List UInt8) := do
  let (v, va) ← vaWord p.va
  let flags := { p.flags with zeropad := true, uppercase := true }
  let l ← ntoaText v.toNat false 16 p.precision 8 flags
  some (va, l)

def floatText (floats : FloatTexts) (c : UInt8) (p : Specifier) :
    Option (List VaArg × List UInt8) := do
  let (bits, va) ← vaDouble p.va
  if c = 'f'.toUInt8 ∨ c = 'F'.toUInt8 then
    let flags := { p.flags with uppercase := p.flags.uppercase || c = 'F'.toUInt8 }
    some (va, floats.ftoa bits p.precision p.width flags)
  else
    let flags := { p.flags with
      adaptExp := p.flags.adaptExp || c = 'g'.toUInt8 || c = 'G'.toUInt8
      uppercase := p.flags.uppercase || c = 'E'.toUInt8 || c = 'G'.toUInt8 }
    some (va, floats.etoa bits p.precision p.width flags)

def conversionText (floats : FloatTexts) (c : UInt8) (p : Specifier) :
    Option (List VaArg × List UInt8) :=
  if integerConversion c then integerText c p
  else if floatConversion c then floatText floats c p
  else if c = 'c'.toUInt8 then charText p
  else if c = 's'.toUInt8 then convertedString p
  else if c = 'p'.toUInt8 then pointerText p
  else some (p.va, [c])

/-- A specifier with its conversion: the rest of the format, the arguments that are left and the
text. -/
def specifierText (floats : FloatTexts) (format : List UInt8) (va : List VaArg) :
    Option (List UInt8 × List VaArg × List UInt8) := do
  let p ← evaluate format va
  let d ← p.format.head?
  let (va, l) ← conversionText floats d p
  some (p.format.tail, va, l)

/-- The text of a format and the arguments that it does not take. -/
def scanFrom (floats : FloatTexts) :
    ℕ → List UInt8 → List VaArg → Option (List UInt8 × List VaArg)
  | 0, _, _ => none
  | _ + 1, [], _ => none
  | steps + 1, c :: format, va =>
      if c = 0 then some ([], va)
      else if c ≠ '%'.toUInt8 then (scanFrom floats steps format va).map fun r => (c :: r.1, r.2)
      else (specifierText floats format va).bind fun s =>
        (scanFrom floats steps s.1 s.2.1).map fun r => (s.2.2 ++ r.1, r.2)

def scan (floats : FloatTexts) (format : List UInt8) (va : List VaArg) :
    Option (List UInt8 × List VaArg) :=
  scanFrom floats format.length format va

/-- The text of a format with its arguments. -/
def text (floats : FloatTexts) (format : List UInt8) (va : List VaArg) : Option (List UInt8) :=
  (scan floats format va).map Prod.fst

/-! ## The conversion buffer -/

/-- The digits come from the least significant one on, as far as the buffer goes. -/
theorem digitsFrom_eq {base room : ℕ} {uppercase : Bool} {buf : List UInt8} (hbase : 1 < base)
    (hroom : buf.length + (room + 1) = ntoaBufferSize) (value : ℕ) :
    digitsFrom base uppercase (room + 1) value buf =
      some (buf ++ ((lowDigits base value).take (room + 1)).map (digitChar uppercase)) := by
  induction room generalizing value buf with
  | zero =>
      rw [digitsFrom, lowDigits_eq hbase]
      have hfull : ¬(buf ++ [digitChar uppercase (value % base)]).length < ntoaBufferSize := by
        rw [List.length_append, List.length_singleton]
        omega
      exact if_neg fun h => hfull h.2
  | succ room ih =>
      rw [digitsFrom, lowDigits_eq hbase]
      have hlength : (buf ++ [digitChar uppercase (value % base)]).length + (room + 1) =
          ntoaBufferSize := by
        rw [List.length_append, List.length_singleton]
        omega
      by_cases hmore : value / base = 0
      · rw [if_pos hmore]
        exact if_neg fun h => h.1 hmore
      · rw [if_neg hmore]
        have hnext := ih hlength (value / base)
        refine (if_pos ⟨hmore, by omega⟩).trans ?_
        rw [hnext, List.take_succ_cons, List.map_cons, List.append_assoc, List.singleton_append]

/-- The digits of a conversion, the least significant one first. -/
def digitsOf (value base : ℕ) (flags : Flags) : List UInt8 :=
  if ¬flags.precision ∨ value ≠ 0 then
    ((lowDigits base value).take ntoaBufferSize).map (digitChar flags.uppercase)
  else []

/-- The flags of a conversion of a value. -/
def valueFlags (value : ℕ) (flags : Flags) : Flags :=
  if value = 0 then { flags with hash := false } else flags

@[simp] theorem precision_valueFlags (value : ℕ) (flags : Flags) :
    (valueFlags value flags).precision = flags.precision := by
  rw [valueFlags]
  split_ifs <;> rfl

@[simp] theorem uppercase_valueFlags (value : ℕ) (flags : Flags) :
    (valueFlags value flags).uppercase = flags.uppercase := by
  rw [valueFlags]
  split_ifs <;> rfl

theorem ntoaDigits_eq {base : ℕ} (hbase : 1 < base) (value : ℕ) (flags : Flags) :
    ntoaDigits value base flags = some (digitsOf value base flags, valueFlags value flags) := by
  have hdigits : digitsFrom base flags.uppercase ntoaBufferSize value [] =
      some (((lowDigits base value).take ntoaBufferSize).map (digitChar flags.uppercase)) :=
    @digitsFrom_eq base 31 flags.uppercase [] hbase rfl value
  rw [ntoaDigits, ← valueFlags, precision_valueFlags, uppercase_valueFlags, hdigits, digitsOf]
  split_ifs <;> rfl

theorem length_digitsOf_le (value base : ℕ) (flags : Flags) :
    (digitsOf value base flags).length ≤ ntoaBufferSize := by
  rw [digitsOf]
  split_ifs
  · rw [List.length_map]
    exact List.length_take_le _ _
  · exact Nat.zero_le _

section Buffer

variable {buf : List UInt8} {length base prec width : ℕ} {negative : Bool} {flags : Flags}

theorem length_padZeros_le (h : buf.length ≤ ntoaBufferSize) :
    (padZeros length buf).length ≤ ntoaBufferSize := by
  rw [padZeros, List.length_append, List.length_replicate]
  omega

theorem length_padLeading_le (h : buf.length ≤ ntoaBufferSize) :
    (padLeading prec width flags buf).length ≤ ntoaBufferSize := by
  rw [padLeading]
  split_ifs
  · exact h
  · exact length_padZeros_le (length_padZeros_le h)
  · exact length_padZeros_le h

theorem length_push_le (h : buf.length ≤ ntoaBufferSize) (c : UInt8) :
    (push buf c).length ≤ ntoaBufferSize := by
  rw [push]
  split_ifs with hroom
  · rw [List.length_append, List.length_singleton]
    exact hroom
  · exact h

theorem length_dropPadding_le : (dropPadding base prec width flags buf).length ≤ buf.length := by
  rw [dropPadding]
  split_ifs
  · rw [List.length_dropLast, List.length_dropLast]
    omega
  · rw [List.length_dropLast]
    omega
  · exact le_rfl

theorem length_handleHash_le (h : buf.length ≤ ntoaBufferSize) :
    (handleHash base prec width flags buf).length ≤ ntoaBufferSize := by
  have hdrop : (dropPadding base prec width flags buf).length ≤ ntoaBufferSize :=
    length_dropPadding_le.trans h
  rw [handleHash]
  split_ifs
  · rw [addPrefix]
    apply length_push_le
    split_ifs
    · exact length_push_le hdrop _
    · exact length_push_le hdrop _
    · exact length_push_le hdrop _
    · exact hdrop
  · exact h

theorem length_addSign_le (h : buf.length ≤ ntoaBufferSize) :
    (addSign negative flags buf).length ≤ ntoaBufferSize := by
  rw [addSign]
  split_ifs
  · exact length_push_le h _
  · exact length_push_le h _
  · exact length_push_le h _
  · exact h

/-- Nothing is written beyond the conversion buffer. -/
theorem length_ntoaBuffer_le (h : buf.length ≤ ntoaBufferSize) :
    (ntoaBuffer buf negative base prec width flags).1.length ≤ ntoaBufferSize :=
  length_addSign_le (length_handleHash_le (length_padLeading_le h))

end Buffer

/-! ## The output -/

/-- The output function with its buffer, as a sink. -/
abbrev sink (out : OutFct σ) (buffer maxlen : ℕ) : UInt8 → ℕ → σ → σ := fun c idx =>
  out c buffer idx maxlen

theorem putAll_eq (s : Cursor σ) (l : List UInt8) :
    putAll out buffer maxlen s l = s.putAll (sink out buffer maxlen) l := rfl

theorem writes_putSpaces (n : ℕ) :
    Writes (sink out buffer maxlen) (putSpaces out buffer maxlen n) (spaces n) := by
  induction n with
  | zero => exact writes_id
  | succ n ih => exact (writes_put _).comp ih

theorem writes_outRev {buf : List UInt8} (hbuf : buf.length ≤ ntoaBufferSize) (width : ℕ)
    (flags : Flags) : Writes (sink out buffer maxlen) (outRev out buffer maxlen buf width flags)
      (outRevText buf width flags) := by
  have hlength : buf.reverse.length < 2 ^ 32 := by
    rw [List.length_reverse]
    exact lt_of_le_of_lt hbuf (by decide)
  intro s hs
  rw [outRev, outRevText]
  by_cases hleft : flags.left
  · have hdistance : sub32 (putAll out buffer maxlen s buf.reverse).idx s.idx = buf.length := by
      rw [putAll_eq, Cursor.sub32_idx_putAll hs hlength, List.length_reverse]
    have hnot : ¬(¬flags.left ∧ ¬flags.zeropad) := fun h => h.1 hleft
    rw [if_neg hnot, if_neg hnot, if_pos hleft, if_pos hleft, hdistance]
    exact (writes_putAll buf.reverse).comp (writes_putSpaces _) s hs
  · rw [if_neg hleft, if_neg hleft, List.append_nil]
    by_cases hzero : flags.zeropad
    · have hnot : ¬(¬flags.left ∧ ¬flags.zeropad) := fun h => h.2 hzero
      rw [if_neg hnot, if_neg hnot, List.nil_append]
      rfl
    · rw [if_pos ⟨hleft, hzero⟩, if_pos ⟨hleft, hzero⟩]
      exact (writes_putSpaces _).comp (writes_putAll buf.reverse) s hs

/-- A conversion takes the arguments of its text and writes the text. -/
def Converts (out : UInt8 → ℕ → σ → σ) (f : Cursor σ → Option (List VaArg × Cursor σ))
    (t : Option (List VaArg × List UInt8)) : Prop :=
  ∀ s, s.idx < 2 ^ 32 → f s = t.map fun r => (r.1, s.putAll out r.2)

theorem ntoa_eq {base : ℕ} (hbase : 1 < base) (value : ℕ) (negative : Bool) (prec width : ℕ)
    (flags : Flags) : WritesOpt (sink out buffer maxlen)
      (ntoa out buffer maxlen value negative base prec width flags)
      (ntoaText value negative base prec width flags) := by
  intro s hs
  have hbuf : (ntoaBuffer (digitsOf value base flags) negative base prec width
      (valueFlags value flags)).1.length ≤ ntoaBufferSize :=
    length_ntoaBuffer_le (length_digitsOf_le value base flags)
  rw [ntoa, ntoaText, ntoaDigits_eq hbase]
  exact congrArg some (writes_outRev hbuf _ _ s hs)

theorem one_lt_integerBase (c : UInt8) : 1 < integerBase c := by
  rw [integerBase]
  split_ifs <;> decide

theorem converts_integer (c : UInt8) (p : Specifier) : Converts (sink out buffer maxlen)
    (convertInteger out buffer maxlen c p) (integerText c p) := by
  intro s hs
  rw [convertInteger, integerText]
  cases integerArg c (integerFlags c p.flags) p.va with
  | none => rfl
  | some r =>
      obtain ⟨⟨value, negative⟩, va⟩ := r
      have hsame : (if (integerFlags c p.flags).longLong then ntoaLongLong out buffer maxlen
          else ntoaLong out buffer maxlen) = ntoa out buffer maxlen := ite_self _
      have hwrites : ntoa out buffer maxlen value negative (integerBase c) p.precision p.width
          (integerFlags c p.flags) s = _ :=
        ntoa_eq (one_lt_integerBase c) value negative p.precision p.width _ s hs
      simp only [Option.bind_eq_bind, Option.bind_some, hsame, hwrites]
      cases ntoaText value negative (integerBase c) p.precision p.width
        (integerFlags c p.flags) with
      | none => rfl
      | some l => rfl

theorem converts_pointer (p : Specifier) : Converts (sink out buffer maxlen)
    (convertPointer out buffer maxlen p) (pointerText p) := by
  intro s hs
  rw [convertPointer, pointerText]
  cases vaWord p.va with
  | none => rfl
  | some r =>
      obtain ⟨v, va⟩ := r
      have hwrites : ntoa out buffer maxlen v.toNat false 16 p.precision 8
          { p.flags with zeropad := true, uppercase := true } s = _ :=
        ntoa_eq (show 1 < 16 by decide) v.toNat false p.precision 8 _ s hs
      simp only [Option.bind_eq_bind, Option.bind_some, ntoaLong, hwrites]
      cases ntoaText v.toNat false 16 p.precision 8
        { p.flags with zeropad := true, uppercase := true } with
      | none => rfl
      | some l => rfl

theorem writes_field {f : Cursor σ → Cursor σ} {l : List UInt8}
    (hf : Writes (sink out buffer maxlen) f l) (left : Bool) (n : ℕ) :
    Writes (sink out buffer maxlen) (fun s =>
      if left then
        putSpaces out buffer maxlen n (f (if ¬left then putSpaces out buffer maxlen n s else s))
      else f (if ¬left then putSpaces out buffer maxlen n s else s)) (fieldText left n l) := by
  cases left with
  | true => exact hf.comp (writes_putSpaces n)
  | false =>
      rw [fieldText]
      have hboth := (writes_putSpaces n).comp hf
      intro s hs
      exact (hboth s hs).trans (by rw [if_pos (by decide), if_neg (by decide), List.append_nil])

theorem converts_char (p : Specifier) : Converts (sink out buffer maxlen)
    (convertChar out buffer maxlen p) (charText p) := by
  intro s hs
  rw [convertChar, charText]
  cases vaWord p.va with
  | none => rfl
  | some r =>
      have hput : Writes (sink out buffer maxlen)
          (fun s => put out buffer maxlen s (UInt8.ofNat r.1.toNat)) _ := writes_put _
      exact congrArg (fun c => some (r.2, c)) (writes_field hput p.flags.left (p.width - 1) s hs)

theorem writesOpt_putString (flags : Flags) (l : List UInt8) (precision : ℕ) :
    WritesOpt (sink out buffer maxlen) (putString out buffer maxlen flags l precision)
      (stringText flags l precision) := by
  induction l generalizing precision with
  | nil => exact fun s _ => rfl
  | cons c l ih =>
      intro s hs
      have hnext : (put out buffer maxlen s c).idx < 2 ^ 32 := add32_lt
      have hcons : ∀ t : Option (List UInt8),
          (t.map (c :: ·)).map (s.putAll (sink out buffer maxlen)) =
            t.map ((put out buffer maxlen s c).putAll (sink out buffer maxlen)) := by
        intro t
        rw [Option.map_map]
        rfl
      rw [putString, stringText]
      split_ifs
      · rfl
      · rfl
      · rw [ih _ _ hnext, hcons]
      · rw [ih _ _ hnext, hcons]

theorem converts_string (p : Specifier) : Converts (sink out buffer maxlen)
    (convertString out buffer maxlen p) (convertedString p) := by
  intro s hs
  rw [convertString, convertedString]
  cases vaText p.va with
  | none => rfl
  | some r =>
      obtain ⟨object, va⟩ := r
      simp only [Option.bind_eq_bind, Option.bind_some]
      cases strnlenS object (if p.precision ≠ 0 then p.precision else 2 ^ 32 - 1) with
      | none => rfl
      | some l =>
          simp only [Option.bind_some]
          generalize p.width - (if p.flags.precision then min l p.precision else l) = n
          have hpre : (if ¬p.flags.left then putSpaces out buffer maxlen n s else s).idx <
              2 ^ 32 := by
            split_ifs
            · exact hs
            · exact (writes_putSpaces n).idx_lt hs
          rw [writesOpt_putString p.flags object p.precision _ hpre]
          cases stringText p.flags object p.precision with
          | none => rfl
          | some t =>
              have hall : Writes (sink out buffer maxlen)
                  (fun s => s.putAll (sink out buffer maxlen) t) t := writes_putAll t
              exact congrArg (fun c => some (va, c)) (writes_field hall p.flags.left n s hs)

theorem converts_float (floats : FloatTexts) (c : UInt8) (p : Specifier) :
    Converts (sink out buffer maxlen) (convertFloat floats out buffer maxlen c p)
      (floatText floats c p) := by
  intro s _
  rw [convertFloat, floatText]
  cases vaDouble p.va with
  | none => rfl
  | some r =>
      simp only [Option.bind_eq_bind, Option.bind_some]
      split_ifs <;> rfl

theorem converts_convert (floats : FloatTexts) (c : UInt8) (p : Specifier) :
    Converts (sink out buffer maxlen) (convert floats out buffer maxlen c p)
      (conversionText floats c p) := by
  intro s hs
  rw [convert, conversionText]
  split_ifs
  · exact converts_integer c p s hs
  · exact converts_float floats c p s hs
  · exact converts_char p s hs
  · exact converts_string p s hs
  · exact converts_pointer p s hs
  · rfl

/-! ## The loop over the format -/

theorem evaluateSpecifier_eq (p : Specifier) {s : Cursor σ} (hs : s.idx < 2 ^ 32) :
    evaluateSpecifier floats out buffer maxlen p s = p.format.head?.bind fun c =>
      (conversionText floats c p).map fun r =>
        (p.format.tail, r.1, s.putAll (sink out buffer maxlen) r.2) := by
  rw [evaluateSpecifier]
  cases p.format.head? with
  | none => rfl
  | some c =>
      have hconverts : convert floats out buffer maxlen c p s = _ := converts_convert floats c p s hs
      simp only [Option.bind_eq_bind, Option.bind_some, hconverts]
      cases conversionText floats c p with
      | none => rfl
      | some r => rfl

/-- What is read from the format and the arguments does not depend on the output. -/
theorem writesOpt_formatFrom (steps : ℕ) (format : List UInt8) (va : List VaArg) :
    WritesOpt (sink out buffer maxlen) (formatFrom floats out buffer maxlen steps format va)
      ((scanFrom floats steps format va).map Prod.fst) := by
  induction steps generalizing format va with
  | zero => exact fun s _ => rfl
  | succ steps ih =>
      intro s hs
      cases format with
      | nil => rfl
      | cons c format =>
          rw [formatFrom, scanFrom]
          split_ifs
          · rfl
          · have hnext : (put out buffer maxlen s c).idx < 2 ^ 32 := add32_lt
            rw [ih _ _ _ hnext, Option.map_map, Option.map_map, Option.map_map]
            rfl
          · rw [specifierText]
            cases evaluate format va with
            | none => rfl
            | some p =>
                simp only [Option.bind_eq_bind, Option.bind_some, evaluateSpecifier_eq p hs]
                cases p.format.head? with
                | none => rfl
                | some d =>
                    simp only [Option.bind_some]
                    cases conversionText floats d p with
                    | none => rfl
                    | some r =>
                        have hnext : (s.putAll (sink out buffer maxlen) r.2).idx < 2 ^ 32 :=
                          (writes_putAll r.2).idx_lt hs
                        simp only [Option.map_some, Option.bind_some, ih _ _ _ hnext]
                        cases scanFrom floats steps p.format.tail r.1 with
                        | none => rfl
                        | some rest => simp only [Option.map_some, Cursor.putAll_append]

/-- Whatever the output function does: it is given the characters of the text one after the
other, then the terminator, and the result is their number. -/
theorem vsnprintf_eq (format : List UInt8) (va : List VaArg) (s : σ) :
    vsnprintf floats out buffer maxlen format va s = (text floats format va).map fun l =>
      let out := if buffer = 0 then outNull else out
      let idx := l.length % 2 ^ 32
      (out 0 buffer (if idx < maxlen then idx else sub32 maxlen 1) maxlen
        ((⟨s, 0⟩ : Cursor σ).putAll (sink out buffer maxlen) l).state, toInt32 idx) := by
  rw [vsnprintf, text, scan]
  generalize (if buffer = 0 then outNull else out) = out
  have hwrites : formatFrom floats out buffer maxlen format.length format va ⟨s, 0⟩ = _ :=
    writesOpt_formatFrom format.length format va ⟨s, 0⟩ (Nat.two_pow_pos 32)
  rw [hwrites]
  cases scanFrom floats format.length format va with
  | none => rfl
  | some r =>
      have hidx : ((⟨s, 0⟩ : Cursor σ).putAll (sink out buffer maxlen) r.1).idx =
          r.1.length % 2 ^ 32 := by
        rw [Cursor.idx_putAll (Nat.two_pow_pos 32), Nat.zero_add]
      simp only [Option.map_some, Option.bind_eq_bind, Option.bind_some, hidx]

end AviKernel.Printf
