import AviKernel.Library.Sinks
import AviKernel.Library.ByteMemory

/-!
# Formatted output

`_vsnprintf` reads a format and sends one character after the other to an output function.
A format and a string argument are the bytes of their objects; to read beyond them, to take
an argument of another kind than the one passed and to write beyond the conversion buffer
has no result.  What a floating point number looks like is a parameter.
-/

namespace AviKernel.Printf

/-- The size of the buffer of a conversion. -/
def ntoaBufferSize : ℕ := 32

structure Flags where
  zeropad : Bool := false
  left : Bool := false
  plus : Bool := false
  space : Bool := false
  hash : Bool := false
  uppercase : Bool := false
  char : Bool := false
  short : Bool := false
  long : Bool := false
  longLong : Bool := false
  precision : Bool := false
  adaptExp : Bool := false
  deriving DecidableEq

/-- What a caller passes for the dots: four bytes, eight bytes, the address of a string, whose
object is given, or a floating point number. -/
inductive VaArg where
  | word (v : BitVec 32)
  | longLong (v : BitVec 64)
  | text (object : List UInt8)
  | double (bits : BitVec 64)
  deriving DecidableEq

/-- The texts of a floating point number for a precision, a width and the flags. -/
structure FloatTexts where
  ftoa : BitVec 64 → ℕ → ℕ → Flags → List UInt8
  etoa : BitVec 64 → ℕ → ℕ → Flags → List UInt8

/-- An output function: the character, the buffer, the place in it and its size. -/
abbrev OutFct (σ : Type) := UInt8 → ℕ → ℕ → ℕ → σ → σ

section Outputs

variable {σ : Type}

def outBuffer : OutFct Memory := fun character buffer idx maxlen m =>
  if idx < maxlen then m.storeByte (buffer + idx) character else m

def outNull : OutFct σ := fun _ _ _ _ s => s

def outChar (putchar : UInt8 → σ → σ) : OutFct σ := fun character _ _ _ s =>
  if character ≠ 0 then putchar character s else s

/-- The wrapper of the function and the argument that `fctprintf` is given. -/
def outFct (fct : UInt8 → ℕ → σ → σ) (arg : ℕ) : OutFct σ := fun character _ _ _ s =>
  if character ≠ 0 then fct character arg s else s

end Outputs

/-- The loop of `_strnlen_s`, which looks at a character before it looks at the bound. -/
def strnlenS : List UInt8 → ℕ → Option ℕ
  | [], _ => none
  | c :: str, maxsize =>
      if c = 0 then some 0
      else if maxsize = 0 then some 0
      else (strnlenS str (maxsize - 1)).map (· + 1)

def isDigit (ch : UInt8) : Bool := '0'.toUInt8 ≤ ch ∧ ch ≤ '9'.toUInt8

def atoi (i : ℕ) : List UInt8 → Option (ℕ × List UInt8)
  | [] => none
  | c :: str =>
      if isDigit c then atoi ((i * 10 + (c.toNat - '0'.toNat)) % 2 ^ 32) str
      else some (i, c :: str)

/-! ## Reading a format specifier -/

/-- The variables of the loop while it reads a specifier. -/
structure Specifier where
  flags : Flags
  width : ℕ := 0
  precision : ℕ := 0
  format : List UInt8
  va : List VaArg

def vaWord : List VaArg → Option (BitVec 32 × List VaArg)
  | .word v :: va => some (v, va)
  | _ => none

def vaLongLong : List VaArg → Option (BitVec 64 × List VaArg)
  | .longLong v :: va => some (v, va)
  | _ => none

def vaText : List VaArg → Option (List UInt8 × List VaArg)
  | .text object :: va => some (object, va)
  | _ => none

def vaDouble : List VaArg → Option (BitVec 64 × List VaArg)
  | .double bits :: va => some (bits, va)
  | _ => none

def evaluateFlags (flags : Flags) : List UInt8 → Option (Flags × List UInt8)
  | [] => none
  | c :: format =>
      if c = '0'.toUInt8 then evaluateFlags { flags with zeropad := true } format
      else if c = '-'.toUInt8 then evaluateFlags { flags with left := true } format
      else if c = '+'.toUInt8 then evaluateFlags { flags with plus := true } format
      else if c = ' '.toUInt8 then evaluateFlags { flags with space := true } format
      else if c = '#'.toUInt8 then evaluateFlags { flags with hash := true } format
      else some (flags, c :: format)

def evaluateWidth (p : Specifier) : Option Specifier := do
  let c ← p.format.head?
  if isDigit c then
    let (width, format) ← atoi 0 p.format
    some { p with width := width, format := format }
  else if c = '*'.toUInt8 then
    let (w, va) ← vaWord p.va
    let p := { p with format := p.format.tail, va := va }
    if w.toInt < 0 then
      -- reverse padding
      some { p with flags := { p.flags with left := true }, width := (-w).toNat }
    else some { p with width := w.toNat }
  else some p

/-- The precision behind the dot. -/
def evaluateDigits (p : Specifier) : Option Specifier := do
  let c ← p.format.head?
  if isDigit c then
    let (precision, format) ← atoi 0 p.format
    some { p with precision := precision, format := format }
  else if c = '*'.toUInt8 then
    let (prec, va) ← vaWord p.va
    some { p with
      precision := if 0 < prec.toInt then prec.toNat else 0
      format := p.format.tail
      va := va }
  else some p

def evaluatePrecision (p : Specifier) : Option Specifier := do
  let c ← p.format.head?
  if c = '.'.toUInt8 then
    evaluateDigits { p with
      flags := { p.flags with precision := true }
      format := p.format.tail }
  else some p

/-- Words, pointers, sizes and differences of pointers have four bytes, `intmax_t` has eight. -/
def evaluateLength (p : Specifier) : Option Specifier := do
  let c ← p.format.head?
  if c = 'l'.toUInt8 then
    let p := { p with flags := { p.flags with long := true }, format := p.format.tail }
    let c ← p.format.head?
    if c = 'l'.toUInt8 then
      some { p with flags := { p.flags with longLong := true }, format := p.format.tail }
    else some p
  else if c = 'h'.toUInt8 then
    let p := { p with flags := { p.flags with short := true }, format := p.format.tail }
    let c ← p.format.head?
    if c = 'h'.toUInt8 then
      some { p with flags := { p.flags with char := true }, format := p.format.tail }
    else some p
  else if c = 't'.toUInt8 ∨ c = 'z'.toUInt8 then
    some { p with flags := { p.flags with long := true }, format := p.format.tail }
  else if c = 'j'.toUInt8 then
    some { p with flags := { p.flags with longLong := true }, format := p.format.tail }
  else some p

/-- A specifier from the character behind the `%` on, up to its conversion. -/
def evaluate (format : List UInt8) (va : List VaArg) : Option Specifier := do
  let (flags, format) ← evaluateFlags {} format
  let p ← evaluateWidth { flags := flags, format := format, va := va }
  let p ← evaluatePrecision p
  evaluateLength p

/-! ## Integers -/

def digitChar (uppercase : Bool) (digit : ℕ) : UInt8 :=
  if digit < 10 then UInt8.ofNat ('0'.toNat + digit)
  else UInt8.ofNat ((if uppercase then 'A'.toNat else 'a'.toNat) + digit - 10)

/-- The loop that converts the digits; `room` characters are free in the buffer. -/
def digitsFrom (base : ℕ) (uppercase : Bool) : ℕ → ℕ → List UInt8 → Option (List UInt8)
  | 0, _, _ => none
  | room + 1, value, buf =>
      let buf := buf ++ [digitChar uppercase (value % base)]
      if value / base ≠ 0 ∧ buf.length < ntoaBufferSize then
        digitsFrom base uppercase room (value / base) buf
      else some buf

/-- Zeros up to a length, as far as the buffer goes. -/
def padZeros (length : ℕ) (buf : List UInt8) : List UInt8 :=
  buf ++ List.replicate (min length ntoaBufferSize - buf.length) '0'.toUInt8

/-- The width, which leaves the sign out for padding with zeros. -/
def paddedWidth (negative : Bool) (width : ℕ) (flags : Flags) : ℕ :=
  if ¬flags.left ∧ width ≠ 0 ∧ flags.zeropad ∧ (negative ∨ flags.plus ∨ flags.space) then
    width - 1
  else width

def padLeading (prec width : ℕ) (flags : Flags) (buf : List UInt8) : List UInt8 :=
  if flags.left then buf
  else if flags.zeropad then padZeros width (padZeros prec buf)
  else padZeros prec buf

/-- One more character where the buffer is not full. -/
def push (buf : List UInt8) (c : UInt8) : List UInt8 :=
  if buf.length < ntoaBufferSize then buf ++ [c] else buf

/-- The last characters make room for the prefix where they are taken for padding. -/
def dropPadding (base prec width : ℕ) (flags : Flags) (buf : List UInt8) : List UInt8 :=
  if ¬flags.precision ∧ buf ≠ [] ∧ (buf.length = prec ∨ buf.length = width) then
    if buf.dropLast ≠ [] ∧ base = 16 then buf.dropLast.dropLast else buf.dropLast
  else buf

def addPrefix (base : ℕ) (flags : Flags) (buf : List UInt8) : List UInt8 :=
  let buf :=
    if base = 16 ∧ ¬flags.uppercase then push buf 'x'.toUInt8
    else if base = 16 ∧ flags.uppercase then push buf 'X'.toUInt8
    else if base = 2 then push buf 'b'.toUInt8
    else buf
  push buf '0'.toUInt8

def handleHash (base prec width : ℕ) (flags : Flags) (buf : List UInt8) : List UInt8 :=
  if flags.hash then addPrefix base flags (dropPadding base prec width flags buf) else buf

def addSign (negative : Bool) (flags : Flags) (buf : List UInt8) : List UInt8 :=
  if negative then push buf '-'.toUInt8
  -- ignore the space if the '+' exists
  else if flags.plus then push buf '+'.toUInt8
  else if flags.space then push buf ' '.toUInt8
  else buf

/-- What `_ntoa_format` leaves in the buffer, and the width. -/
def ntoaBuffer (buf : List UInt8) (negative : Bool) (base prec width : ℕ) (flags : Flags) :
    List UInt8 × ℕ :=
  let width := paddedWidth negative width flags
  let buf := padLeading prec width flags buf
  (addSign negative flags (handleHash base prec width flags buf), width)

/-- The digits of a value and the flags that are left for it. -/
def ntoaDigits (value base : ℕ) (flags : Flags) : Option (List UInt8 × Flags) :=
  -- no hash for 0 values
  let flags := if value = 0 then { flags with hash := false } else flags
  -- write if precision != 0 and value is != 0
  (if ¬flags.precision ∨ value ≠ 0 then
    digitsFrom base flags.uppercase ntoaBufferSize value []
  else some []).map fun buf => (buf, flags)

/-- The conversions with an integer. -/
def integerConversion (c : UInt8) : Bool :=
  c = 'd'.toUInt8 ∨ c = 'i'.toUInt8 ∨ c = 'u'.toUInt8 ∨ c = 'x'.toUInt8 ∨ c = 'X'.toUInt8 ∨
    c = 'o'.toUInt8 ∨ c = 'b'.toUInt8

def integerBase (c : UInt8) : ℕ :=
  if c = 'x'.toUInt8 ∨ c = 'X'.toUInt8 then 16
  else if c = 'o'.toUInt8 then 8
  else if c = 'b'.toUInt8 then 2
  else 10

def signedConversion (c : UInt8) : Bool := c = 'i'.toUInt8 ∨ c = 'd'.toUInt8

/-- No hash for decimal numbers, no sign for unsigned ones, no zeros where a precision is
given. -/
def integerFlags (c : UInt8) (flags : Flags) : Flags :=
  { flags with
    hash := flags.hash && integerBase c ≠ 10
    uppercase := flags.uppercase || c = 'X'.toUInt8
    plus := flags.plus && signedConversion c
    space := flags.space && signedConversion c
    zeropad := flags.zeropad && !flags.precision }

/-- The magnitude of an argument of eight bytes and whether it is negative. -/
def longLongValue (signed : Bool) (v : BitVec 64) : ℕ × Bool :=
  if signed then (v.toInt.natAbs, v.toInt < 0) else (v.toNat, false)

/-- The value of a signed argument of four bytes. -/
def signedWord (flags : Flags) (v : BitVec 32) : ℤ :=
  if flags.long then v.toInt
  else if flags.char then (v.setWidth 8).toInt
  else if flags.short then (v.setWidth 16).toInt
  else v.toInt

def unsignedWord (flags : Flags) (v : BitVec 32) : ℕ :=
  if flags.long then v.toNat
  else if flags.char then (v.setWidth 8).toNat
  else if flags.short then (v.setWidth 16).toNat
  else v.toNat

def wordValue (signed : Bool) (flags : Flags) (v : BitVec 32) : ℕ × Bool :=
  if signed then ((signedWord flags v).natAbs, signedWord flags v < 0)
  else (unsignedWord flags v, false)

/-- The value of the argument of an integer conversion and the arguments that are left. -/
def integerArg (c : UInt8) (flags : Flags) (va : List VaArg) :
    Option ((ℕ × Bool) × List VaArg) :=
  if flags.longLong then
    (vaLongLong va).map fun r => (longLongValue (signedConversion c) r.1, r.2)
  else (vaWord va).map fun r => (wordValue (signedConversion c) flags r.1, r.2)

/-! ## The output -/

section Engine

variable {σ : Type} (floats : FloatTexts) (out : OutFct σ) (buffer maxlen : ℕ)

/-- One character at the next place of the buffer. -/
def put (s : Cursor σ) (character : UInt8) : Cursor σ :=
  s.put (fun c idx => out c buffer idx maxlen) character

def putAll (s : Cursor σ) (characters : List UInt8) : Cursor σ :=
  characters.foldl (put out buffer maxlen) s

def putSpaces : ℕ → Cursor σ → Cursor σ
  | 0, s => s
  | n + 1, s => putSpaces n (put out buffer maxlen s ' '.toUInt8)

/-- The characters of the buffer from the last one on, with spaces before or behind them. -/
def outRev (buf : List UInt8) (width : ℕ) (flags : Flags) (s : Cursor σ) : Cursor σ :=
  let startIdx := s.idx
  let s :=
    if ¬flags.left ∧ ¬flags.zeropad then putSpaces out buffer maxlen (width - buf.length) s
    else s
  let s := putAll out buffer maxlen s buf.reverse
  if flags.left then putSpaces out buffer maxlen (width - sub32 s.idx startIdx) s else s

def ntoaFormat (buf : List UInt8) (negative : Bool) (base prec width : ℕ) (flags : Flags)
    (s : Cursor σ) : Cursor σ :=
  let (buf, width) := ntoaBuffer buf negative base prec width flags
  outRev out buffer maxlen buf width flags s

/-- The common body of the two integer conversions. -/
def ntoa (value : ℕ) (negative : Bool) (base prec width : ℕ) (flags : Flags) (s : Cursor σ) :
    Option (Cursor σ) := do
  let (buf, flags) ← ntoaDigits value base flags
  some (ntoaFormat out buffer maxlen buf negative base prec width flags s)

def ntoaLong : ℕ → Bool → ℕ → ℕ → ℕ → Flags → Cursor σ → Option (Cursor σ) :=
  ntoa out buffer maxlen

def ntoaLongLong : ℕ → Bool → ℕ → ℕ → ℕ → Flags → Cursor σ → Option (Cursor σ) :=
  ntoa out buffer maxlen

/-- The output loop of a string. -/
def putString (flags : Flags) : List UInt8 → ℕ → Cursor σ → Option (Cursor σ)
  | [], _, _ => none
  | c :: p, precision, s =>
      if c = 0 then some s
      else if flags.precision then
        if precision = 0 then some s
        else putString flags p (precision - 1) (put out buffer maxlen s c)
      else putString flags p precision (put out buffer maxlen s c)

def convertInteger (c : UInt8) (p : Specifier) (s : Cursor σ) :
    Option (List VaArg × Cursor σ) := do
  let flags := integerFlags c p.flags
  let ((value, negative), va) ← integerArg c flags p.va
  let ntoa := if flags.longLong then ntoaLongLong out buffer maxlen else ntoaLong out buffer maxlen
  let s ← ntoa value negative (integerBase c) p.precision p.width flags s
  some (va, s)

def convertChar (p : Specifier) (s : Cursor σ) : Option (List VaArg × Cursor σ) := do
  let s := if ¬p.flags.left then putSpaces out buffer maxlen (p.width - 1) s else s
  let (v, va) ← vaWord p.va
  let s := put out buffer maxlen s (UInt8.ofNat v.toNat)
  some (va, if p.flags.left then putSpaces out buffer maxlen (p.width - 1) s else s)

def convertString (p : Specifier) (s : Cursor σ) : Option (List VaArg × Cursor σ) := do
  let (object, va) ← vaText p.va
  let l ← strnlenS object (if p.precision ≠ 0 then p.precision else 2 ^ 32 - 1)
  let l := if p.flags.precision then min l p.precision else l
  let s := if ¬p.flags.left then putSpaces out buffer maxlen (p.width - l) s else s
  let s ← putString out buffer maxlen p.flags object p.precision s
  some (va, if p.flags.left then putSpaces out buffer maxlen (p.width - l) s else s)

/-- The eight digits of an address. -/
def convertPointer (p : Specifier) (s : Cursor σ) : Option (List VaArg × Cursor σ) := do
  let (v, va) ← vaWord p.va
  let flags := { p.flags with zeropad := true, uppercase := true }
  let s ← ntoaLong out buffer maxlen v.toNat false 16 p.precision 8 flags s
  some (va, s)

def convertFloat (c : UInt8) (p : Specifier) (s : Cursor σ) :
    Option (List VaArg × Cursor σ) := do
  let (bits, va) ← vaDouble p.va
  if c = 'f'.toUInt8 ∨ c = 'F'.toUInt8 then
    let flags := { p.flags with uppercase := p.flags.uppercase || c = 'F'.toUInt8 }
    some (va, putAll out buffer maxlen s (floats.ftoa bits p.precision p.width flags))
  else
    let flags := { p.flags with
      adaptExp := p.flags.adaptExp || c = 'g'.toUInt8 || c = 'G'.toUInt8
      uppercase := p.flags.uppercase || c = 'E'.toUInt8 || c = 'G'.toUInt8 }
    some (va, putAll out buffer maxlen s (floats.etoa bits p.precision p.width flags))

def floatConversion (c : UInt8) : Bool :=
  c = 'f'.toUInt8 ∨ c = 'F'.toUInt8 ∨ c = 'e'.toUInt8 ∨ c = 'E'.toUInt8 ∨ c = 'g'.toUInt8 ∨
    c = 'G'.toUInt8

def convert (c : UInt8) (p : Specifier) (s : Cursor σ) : Option (List VaArg × Cursor σ) :=
  if integerConversion c then convertInteger out buffer maxlen c p s
  else if floatConversion c then convertFloat floats out buffer maxlen c p s
  else if c = 'c'.toUInt8 then convertChar out buffer maxlen p s
  else if c = 's'.toUInt8 then convertString out buffer maxlen p s
  else if c = 'p'.toUInt8 then convertPointer out buffer maxlen p s
  -- '%' and the characters that are no conversion
  else some (p.va, put out buffer maxlen s c)

/-- The conversion of a specifier: the rest of the format, the arguments that are left and
the output. -/
def evaluateSpecifier (p : Specifier) (s : Cursor σ) :
    Option (List UInt8 × List VaArg × Cursor σ) := do
  let c ← p.format.head?
  let (va, s) ← convert floats out buffer maxlen c p s
  some (p.format.tail, va, s)

/-- The loop over the format, of at most `steps` turns. -/
def formatFrom : ℕ → List UInt8 → List VaArg → Cursor σ → Option (Cursor σ)
  | 0, _, _, _ => none
  | _ + 1, [], _, _ => none
  | steps + 1, c :: format, va, s =>
      if c = 0 then some s
      else if c ≠ '%'.toUInt8 then formatFrom steps format va (put out buffer maxlen s c)
      else do
        let p ← evaluate format va
        let (format, va, s) ← evaluateSpecifier floats out buffer maxlen p s
        formatFrom steps format va s

/-- The output of a format and the number of characters, as an `int`. -/
def vsnprintf (format : List UInt8) (va : List VaArg) (s : σ) : Option (σ × ℤ) := do
  let out := if buffer = 0 then outNull else out
  let s ← formatFrom floats out buffer maxlen format.length format va ⟨s, 0⟩
  -- termination
  let idx := if s.idx < maxlen then s.idx else sub32 maxlen 1
  some (out 0 buffer idx maxlen s.state, toInt32 s.idx)

end Engine

section Functions

variable {σ : Type} (floats : FloatTexts) (format : List UInt8) (va : List VaArg)

/-- `stack` is the address of the local buffer that stands for a text to come. -/
def printf_ (putchar : UInt8 → σ → σ) (stack : ℕ) : σ → Option (σ × ℤ) :=
  vsnprintf floats (outChar putchar) stack (2 ^ 32 - 1) format va

def sprintf_ (buffer : ℕ) : Memory → Option (Memory × ℤ) :=
  vsnprintf floats outBuffer buffer (2 ^ 32 - 1) format va

def snprintf_ (buffer count : ℕ) : Memory → Option (Memory × ℤ) :=
  vsnprintf floats outBuffer buffer count format va

/-- `wrap` is the address of the wrapper on the stack. -/
def fctprintf (fct : UInt8 → ℕ → σ → σ) (arg wrap : ℕ) : σ → Option (σ × ℤ) :=
  vsnprintf floats (outFct fct arg) wrap (2 ^ 32 - 1) format va

end Functions

end AviKernel.Printf
