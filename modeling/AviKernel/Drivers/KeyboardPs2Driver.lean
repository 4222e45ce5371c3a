import AviKernel.Drivers.ExtendedChar
import AviKernel.Library.Runs
import AviKernel.Library.Words

/-!
# The PS/2 keyboard driver

The driver decodes scan codes byte by byte.  Two flags wait for the codes that
follow a prefix; a key of two codes is heard when its second code is in the
range of the one-byte codes.
-/

namespace AviKernel.KeyboardPs2Driver

def makeScanCodesStart : UInt8 := 0x1

def makeScanCodesEnd : UInt8 := 0x58

def breakScanCodeStart : UInt8 := makeScanCodesStart ||| 0x80

def breakScanCodeEnd : UInt8 := makeScanCodesEnd ||| 0x80

def scanCodeWaitForSecond : UInt8 := 0xE0

def scanCodeWaitForSecondAndThird : UInt8 := 0xE1

inductive Kind
  | press
  | release
  deriving DecidableEq

/-- What a listener is told. -/
structure Event where
  kind : Kind
  char : ExtendedChar
  deriving DecidableEq

structure Driver where
  waitForSecondScanCode : Bool
  waitForSecondAndThirdScanCode : Bool
  /-- Are the listeners set? -/
  pressListener : Bool
  releaseListener : Bool
  /-- What the listeners were told, oldest first. -/
  heard : List Event
  deriving DecidableEq

namespace Driver

def tell (d : Driver) (e : Event) : Driver := { d with heard := d.heard ++ [e] }

/-- Is the scan code to be ignored? -/
def ignore (d : Driver) (scanCode : UInt8) : Bool × Driver :=
  -- Print Screen.
  if d.waitForSecondScanCode && (scanCode == 0x2A || scanCode == 0xB7) then (true, d)
  else if d.waitForSecondScanCode && (scanCode == 0x37 || scanCode == 0xAA) then
    (true, { d with waitForSecondScanCode := false })
  -- Pause.
  else if d.waitForSecondAndThirdScanCode && (scanCode == 0x1D || scanCode == 0x9D) then (true, d)
  else if d.waitForSecondAndThirdScanCode && (scanCode == 0x45 || scanCode == 0xC5) then
    (true, { d with waitForSecondAndThirdScanCode := false })
  else (false, d)

/-- A scan code is told to a listener, if that is set. -/
def onScanCode (kind : Kind) (listener : Bool) (d : Driver) (scanCode : UInt8) : Option Driver :=
  if d.waitForSecondScanCode then do
    let ec ← ExtendedChar.ofTwoScanCodes scanCodeWaitForSecond scanCode
    let d := { d with waitForSecondScanCode := false }
    some (if listener then d.tell ⟨kind, ec⟩ else d)
  else do
    let ec ← ExtendedChar.ofScanCode scanCode
    some (if listener then d.tell ⟨kind, ec⟩ else d)

def onMakeScanCode (d : Driver) (scanCode : UInt8) : Option Driver :=
  onScanCode .press d.pressListener d scanCode

def onBreakScanCode (d : Driver) (scanCode : UInt8) : Option Driver :=
  onScanCode .release d.releaseListener d scanCode

/-- A byte of the keyboard. -/
def onKeData (d : Driver) (data : UInt8) : Option Driver :=
  if data = scanCodeWaitForSecond then some { d with waitForSecondScanCode := true }
  else if data = scanCodeWaitForSecondAndThird then
    some { d with waitForSecondAndThirdScanCode := true }
  else
    let (ignored, d) := d.ignore data
    if ignored then some d
    else
      let isBreak := decide (data ≥ breakScanCodeStart ∧ data ≤ breakScanCodeEnd)
      let data := if isBreak then data &&& ~~~(0x80 : UInt8) else data
      if (data ≥ makeScanCodesStart ∧ data ≤ makeScanCodesEnd) ∨ data = scanCodeWaitForSecond then
        if isBreak then d.onBreakScanCode data else d.onMakeScanCode data
      else some d

/-- No prefix is waiting. -/
structure Idle (d : Driver) : Prop where
  waitForSecondScanCode : d.waitForSecondScanCode = false
  waitForSecondAndThirdScanCode : d.waitForSecondAndThirdScanCode = false

end Driver

/-- The driver with its listeners, before the first byte. -/
def initial : Driver := ⟨false, false, true, true, []⟩

/-! ## Key sequences -/

/-- The codes of the keys of one code. -/
structure OneByte where
  code : UInt8
  start_le : makeScanCodesStart ≤ code
  le_end : code ≤ makeScanCodesEnd

/-- The second codes of the keys that the two-byte table names. -/
def twoByteCodes : List UInt8 :=
  [0x1C, 0x1D, 0x35, 0x38, 0x47, 0x48, 0x49, 0x4B, 0x4D, 0x4F, 0x50, 0x51, 0x52, 0x53, 0x5B, 0x5C,
    0x5D]

structure TwoByte where
  code : UInt8
  mem : code ∈ twoByteCodes

inductive KeySequence
  | one (kind : Kind) (key : OneByte)
  | two (kind : Kind) (key : TwoByte)
  | printScreen (kind : Kind)
  | pause

/-- A code as it is sent when the key is pressed or released. -/
def Kind.code : Kind → UInt8 → UInt8
  | .press, code => code
  | .release, code => code ||| 0x80

def OneByte.char (key : OneByte) : ExtendedChar :=
  ⟨ExtendedChar.oneScanCodeToAviCharcodeArr.getD key.code.toNat AviCharcode.keyUnknown⟩

def TwoByte.char (key : TwoByte) : ExtendedChar :=
  ⟨ExtendedChar.twoScanCodesToAviCharcodeArr.getD key.code.toNat AviCharcode.keyUnknown⟩

namespace KeySequence

def bytes : KeySequence → List UInt8
  | one kind key => [kind.code key.code]
  | two kind key => [0xE0, kind.code key.code]
  | printScreen .press => [0xE0, 0x2A, 0xE0, 0x37]
  | printScreen .release => [0xE0, 0xB7, 0xE0, 0xAA]
  | pause => [0xE1, 0x1D, 0x45, 0xE1, 0x9D, 0xC5]

def events : KeySequence → List Event
  | one kind key => [⟨kind, key.char⟩]
  | two kind key => [⟨kind, key.char⟩]
  | printScreen _ => []
  | pause => []

/-- The second code is past the range of the one-byte codes. -/
def PastEnd : KeySequence → Prop
  | two _ key => makeScanCodesEnd < key.code
  | _ => False

end KeySequence

/-! ## One byte -/

variable {d : Driver} {kind : Kind} {m : UInt8} {k : KeySequence} {ks : List KeySequence}

/-- Codes in the range are sent as themselves when the key is pressed, and as
break codes when it is released. -/
theorem code_in_range : ∀ m : UInt8, makeScanCodesStart ≤ m ∧ m ≤ makeScanCodesEnd →
    (m ≠ scanCodeWaitForSecond ∧ m ≠ scanCodeWaitForSecondAndThird ∧
      ¬(m ≥ breakScanCodeStart ∧ m ≤ breakScanCodeEnd)) ∧
    m ||| 0x80 ≠ scanCodeWaitForSecond ∧ m ||| 0x80 ≠ scanCodeWaitForSecondAndThird ∧
      (m ||| 0x80 ≥ breakScanCodeStart ∧ m ||| 0x80 ≤ breakScanCodeEnd) ∧
      (m ||| 0x80) &&& ~~~(0x80 : UInt8) = m :=
  forall_byte (by decide +kernel)

def Driver.listener (d : Driver) : Kind → Bool
  | .press => d.pressListener
  | .release => d.releaseListener

theorem onKeData_code (hm : makeScanCodesStart ≤ m ∧ m ≤ makeScanCodesEnd)
    (hignore : d.ignore (kind.code m) = (false, d)) :
    d.onKeData (kind.code m) = Driver.onScanCode kind (d.listener kind) d m := by
  obtain ⟨⟨hsecond, hthird, hmake⟩, hsecond', hthird', hbreak, hcode⟩ := code_in_range m hm
  cases kind with
  | press =>
      have hrange : m ≥ makeScanCodesStart ∧ m ≤ makeScanCodesEnd := hm
      have hcode' : Kind.code .press m = m := rfl
      rw [hcode'] at hignore ⊢
      rw [Driver.onKeData, if_neg hsecond, if_neg hthird, hignore]
      simp only [hmake, hrange, decide_false, Bool.false_eq_true, if_false, true_and, true_or, if_true]
      rfl
  | release =>
      have hrange : m ≥ makeScanCodesStart ∧ m ≤ makeScanCodesEnd := hm
      have hcode' : Kind.code .release m = m ||| 0x80 := rfl
      rw [hcode'] at hignore ⊢
      rw [Driver.onKeData, if_neg hsecond', if_neg hthird', hignore]
      simp only [hbreak, hcode, hrange, and_true, true_or, decide_true, Bool.false_eq_true, if_false,
        if_true]
      rfl

/-- Codes past the range are dropped. -/
theorem code_past_end (kind : Kind) : ∀ m : UInt8, m ∈ twoByteCodes ∧ makeScanCodesEnd < m →
    kind.code m ≠ scanCodeWaitForSecond ∧
      kind.code m ≠ scanCodeWaitForSecondAndThird ∧
      ¬(kind.code m ≥ breakScanCodeStart ∧ kind.code m ≤ breakScanCodeEnd) ∧
      ¬((kind.code m ≥ makeScanCodesStart ∧ kind.code m ≤ makeScanCodesEnd) ∨
        kind.code m = scanCodeWaitForSecond) := by
  cases kind with
  | press => exact forall_byte (by decide +kernel)
  | release => exact forall_byte (by decide +kernel)

theorem onKeData_past_end (hm : m ∈ twoByteCodes) (hend : makeScanCodesEnd < m)
    (hignore : d.ignore (kind.code m) = (false, d)) : d.onKeData (kind.code m) = some d := by
  obtain ⟨hsecond, hthird, hbreak, hrange⟩ := code_past_end kind m ⟨hm, hend⟩
  rw [Driver.onKeData, if_neg hsecond, if_neg hthird, hignore]
  simp only [hbreak, hrange, decide_false, Bool.false_eq_true, if_false]

/-! ## Key sequences from the idle state -/

open Driver

variable {key : OneByte} {key₂ : TwoByte}

/-- Without a prefix nothing is ignored. -/
theorem ignore_idle (hidle : d.Idle) (data : UInt8) : d.ignore data = (false, d) := by
  unfold ignore
  rw [hidle.waitForSecondScanCode, hidle.waitForSecondAndThirdScanCode]
  rfl

/-- The driver after the prefix of a key of two codes. -/
def waiting (d : Driver) : Driver := { d with waitForSecondScanCode := true }

theorem onKeData_prefix (d : Driver) : d.onKeData 0xE0 = some (waiting d) := if_pos rfl

/-- The second codes are not those of Print Screen. -/
theorem ignore_waiting (hidle : d.Idle) (hm : m ∈ twoByteCodes) (kind : Kind) :
    (waiting d).ignore (kind.code m) = (false, waiting d) := by
  have hcode : ∀ m ∈ twoByteCodes, ∀ kind : Kind,
      ((kind.code m == 0x2A || kind.code m == 0xB7) = false) ∧
        (kind.code m == 0x37 || kind.code m == 0xAA) = false := by
    intro m hm kind
    revert m
    cases kind with
    | press => decide +kernel
    | release => decide +kernel
  obtain ⟨hfirst, hsecond⟩ := hcode m hm kind
  unfold ignore
  rw [hfirst, hsecond]
  have hthird : (waiting d).waitForSecondAndThirdScanCode = false :=
    hidle.waitForSecondAndThirdScanCode
  rw [hthird, Bool.and_false]
  rfl

theorem ofScanCode_char (key : OneByte) : ExtendedChar.ofScanCode key.code = some key.char := by
  have hlt : key.code.toNat < ExtendedChar.oneScanCodeToAviCharcodeArr.size := by
    have hle : key.code.toNat ≤ makeScanCodesEnd.toNat := UInt8.le_iff_toNat_le.mp key.le_end
    exact Nat.lt_succ_of_le hle
  rw [ExtendedChar.ofScanCode, OneByte.char, Array.getElem?_eq_getElem hlt,
    Array.getD_eq_getD_getElem?, Array.getElem?_eq_getElem hlt]
  rfl

theorem ofTwoScanCodes_char (key : TwoByte) (scanCode : UInt8) :
    ExtendedChar.ofTwoScanCodes scanCode key.code = some key.char := by
  have hlt : key.code.toNat < ExtendedChar.twoScanCodesToAviCharcodeArr.size := by
    have hall : ∀ m ∈ twoByteCodes, m.toNat < 0x5E := by decide +kernel
    exact hall key.code key.mem
  rw [ExtendedChar.ofTwoScanCodes, TwoByte.char, Array.getElem?_eq_getElem hlt,
    Array.getD_eq_getD_getElem?, Array.getElem?_eq_getElem hlt]
  rfl

/-- The driver with its listeners set, and no prefix waiting. -/
structure Ready (d : Driver) : Prop extends d.Idle where
  listener : ∀ kind, d.listener kind = true

theorem feed_one (hready : Ready d) (kind : Kind) (key : OneByte) :
    run onKeData d [kind.code key.code] = some (d.tell ⟨kind, key.char⟩) := by
  have hcode := onKeData_code ⟨key.start_le, key.le_end⟩
    (ignore_idle hready.toIdle (kind.code key.code))
  rw [run_cons, hcode, onScanCode, hready.waitForSecondScanCode, hready.listener,
    ofScanCode_char]
  rfl

theorem start_le_of_mem (hm : m ∈ twoByteCodes) : makeScanCodesStart ≤ m := by
  revert m
  decide +kernel

theorem feed_two (hready : Ready d) (kind : Kind) (key : TwoByte)
    (hend : key.code ≤ makeScanCodesEnd) :
    run onKeData d [0xE0, kind.code key.code] = some (d.tell ⟨kind, key.char⟩) := by
  have hcode := onKeData_code ⟨start_le_of_mem key.mem, hend⟩
    (ignore_waiting hready.toIdle key.mem kind)
  have hlistener : (waiting d).listener kind = true := by
    cases kind with
    | press => exact hready.listener .press
    | release => exact hready.listener .release
  have hwaiting : { waiting d with waitForSecondScanCode := false } = d := by
    have hflag := hready.waitForSecondScanCode
    cases d with
    | mk => exact congrArg (Driver.mk · _ _ _ _) hflag.symm
  have hscan : onScanCode kind true (waiting d) key.code = some (d.tell ⟨kind, key.char⟩) := by
    have hflag : (waiting d).waitForSecondScanCode = true := rfl
    rw [onScanCode, if_pos hflag, ofTwoScanCodes_char, Option.bind_eq_bind, Option.bind_some]
    dsimp only
    rw [hwaiting, if_pos rfl]
  rw [run_cons, onKeData_prefix, Option.bind_some, run_cons, hcode, hlistener, hscan]
  rfl

/-- The codes of Print Screen and Pause leave no trace. -/
theorem feed_ignored (hidle : d.Idle) : run onKeData d [0xE0, 0x2A, 0xE0, 0x37] = some d ∧
    run onKeData d [0xE0, 0xB7, 0xE0, 0xAA] = some d ∧
    run onKeData d [0xE1, 0x1D, 0x45, 0xE1, 0x9D, 0xC5] = some d := by
  obtain ⟨second, third, press, release, heard⟩ := d
  obtain ⟨hsecond, hthird⟩ := hidle
  dsimp only at hsecond hthird
  rw [hsecond, hthird]
  exact ⟨rfl, rfl, rfl⟩

/-- A key sequence is told, and the driver is ready again. -/
theorem feed_sequence (hready : Ready d) (hend : ¬k.PastEnd) :
    run onKeData d k.bytes = some { d with heard := d.heard ++ k.events } := by
  obtain ⟨hpress, hrelease, hpause⟩ := feed_ignored hready.toIdle
  cases k with
  | one kind key => exact feed_one hready kind key
  | two kind key => exact feed_two hready kind key (UInt8.not_lt.mp hend)
  | printScreen kind =>
      rw [KeySequence.events, List.append_nil]
      cases kind with
      | press => exact hpress
      | release => exact hrelease
  | pause =>
      rw [KeySequence.events, List.append_nil]
      exact hpause

/-- The flag is left set by a key past the range. -/
theorem feed_past_end (hready : Ready d) (hend : k.PastEnd) :
    run onKeData d k.bytes = some (waiting d) := by
  cases k with
  | two kind key =>
      have hdropped := onKeData_past_end key.mem hend (ignore_waiting hready.toIdle key.mem kind)
      rw [KeySequence.bytes, run_cons, onKeData_prefix, Option.bind_some, run_cons, hdropped]
      rfl
  | one kind key => exact absurd hend id
  | printScreen kind => exact absurd hend id
  | pause => exact absurd hend id

/-! ## Streams -/

/-- All keys of a stream are heard, in their order, and no prefix is waiting. -/
def Decoded (ks : List KeySequence) : Prop :=
  ∃ d, run onKeData initial (ks.flatMap KeySequence.bytes) = some d ∧ d.Idle ∧
    d.heard = ks.flatMap KeySequence.events

theorem ready_initial : Ready initial where
  waitForSecondScanCode := rfl
  waitForSecondAndThirdScanCode := rfl
  listener kind := by cases kind <;> rfl

theorem feed_stream (hready : Ready d) (hend : ∀ k ∈ ks, ¬k.PastEnd) :
    run onKeData d (ks.flatMap KeySequence.bytes) =
      some { d with heard := d.heard ++ ks.flatMap KeySequence.events } := by
  induction ks generalizing d with
  | nil => rw [List.flatMap_nil, List.flatMap_nil, List.append_nil, run_nil]
  | cons k ks ih =>
      have hnext : Ready { d with heard := d.heard ++ k.events } :=
        ⟨⟨hready.waitForSecondScanCode, hready.waitForSecondAndThirdScanCode⟩, fun kind => by
          cases kind with
          | press => exact hready.listener .press
          | release => exact hready.listener .release⟩
      rw [List.flatMap_cons, run_append, feed_sequence hready (hend k (by simp)), Option.bind_some,
        ih hnext fun l hl => hend l (List.mem_cons_of_mem k hl), List.flatMap_cons,
        List.append_assoc]

theorem decoded_of_forall (hend : ∀ k ∈ ks, ¬k.PastEnd) : Decoded ks :=
  ⟨_, feed_stream ready_initial hend, ⟨rfl, rfl⟩, List.nil_append _⟩

theorem not_decoded_of_last (hend : ∀ k ∈ ks, ¬k.PastEnd) (hlast : k.PastEnd) :
    ¬Decoded (ks ++ [k]) := by
  rintro ⟨d, hrun, hidle, -⟩
  have hready : Ready { initial with heard := initial.heard ++ ks.flatMap KeySequence.events } :=
    ⟨⟨rfl, rfl⟩, ready_initial.listener⟩
  rw [List.flatMap_append, run_append, feed_stream ready_initial hend, Option.bind_some,
    List.flatMap_singleton, feed_past_end hready hlast] at hrun
  have hset : d.waitForSecondScanCode = true := by
    rw [← Option.some.inj hrun]
    rfl
  rw [hidle.waitForSecondScanCode] at hset
  exact absurd hset (by decide)

/-- A stream is decoded after each of its sequences exactly if no key of two codes
in it is past the range of the one-byte codes. -/
theorem decoded_iff (ks : List KeySequence) :
    (∀ n, Decoded (ks.take n)) ↔ ∀ k ∈ ks, ¬k.PastEnd := by
  constructor
  · intro hdecoded
    induction ks using List.reverseRecOn with
    | nil => simp
    | append_singleton ks k ih =>
        have hbefore : ∀ l ∈ ks, ¬l.PastEnd := by
          apply ih
          intro n
          have hprefix := hdecoded (min n ks.length)
          rwa [List.take_append_of_le_length (min_le_right n ks.length), ← List.take_take,
            List.take_length] at hprefix
        have hall : Decoded (ks ++ [k]) := by
          have hlast := hdecoded (ks ++ [k]).length
          rwa [List.take_length] at hlast
        intro l hl
        rcases List.mem_append.mp hl with hl | hl
        · exact hbefore l hl
        · rw [List.mem_singleton.mp hl]
          exact fun hend => not_decoded_of_last hbefore hend hall
  · intro hend n
    exact decoded_of_forall fun k hk => hend k (List.mem_of_mem_take hk)

/-- The left GUI key, and the key of the letter a after it. -/
def guiThenA : List KeySequence :=
  [.two .press ⟨0x5B, by decide⟩, .one .press ⟨0x1E, by decide, by decide⟩]

/-- The first key is not heard, and the second one is taken for the second code of
the first. -/
theorem heard_guiThenA : run onKeData initial (guiThenA.flatMap KeySequence.bytes) =
      some { initial with heard := [⟨.press, ⟨AviCharcode.keyUnknown⟩⟩] } ∧
    guiThenA.flatMap KeySequence.events =
      [⟨.press, ⟨AviCharcode.keyLgui⟩⟩, ⟨.press, ⟨AviCharcode.keyA⟩⟩] ∧
    ¬Decoded guiThenA := by
  have hrun : run onKeData initial (guiThenA.flatMap KeySequence.bytes) =
      some { initial with heard := [⟨.press, ⟨AviCharcode.keyUnknown⟩⟩] } := by decide
  refine ⟨hrun, by decide, ?_⟩
  rintro ⟨d, hd, -, hheard⟩
  rw [hrun] at hd
  rw [← Option.some.inj hd] at hheard
  exact absurd hheard (by decide)

end AviKernel.KeyboardPs2Driver
