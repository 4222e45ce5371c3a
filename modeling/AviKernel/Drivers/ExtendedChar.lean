import Mathlib.Tactic

/-!
# Extended characters

A key gives a character of its own code, by one table for the keys of one scan
code and another for the keys of two.
-/

namespace AviKernel

abbrev AviCharcode := ℕ

namespace AviCharcode

def keySpace : AviCharcode := ' '.toNat

def key0 : AviCharcode := '0'.toNat

def key1 : AviCharcode := '1'.toNat

def key2 : AviCharcode := '2'.toNat

def key3 : AviCharcode := '3'.toNat

def key4 : AviCharcode := '4'.toNat

def key5 : AviCharcode := '5'.toNat

def key6 : AviCharcode := '6'.toNat

def key7 : AviCharcode := '7'.toNat

def key8 : AviCharcode := '8'.toNat

def key9 : AviCharcode := '9'.toNat

def keyA : AviCharcode := 'a'.toNat

def keyB : AviCharcode := 'b'.toNat

def keyC : AviCharcode := 'c'.toNat

def keyD : AviCharcode := 'd'.toNat

def keyE : AviCharcode := 'e'.toNat

def keyF : AviCharcode := 'f'.toNat

def keyG : AviCharcode := 'g'.toNat

def keyH : AviCharcode := 'h'.toNat

def keyI : AviCharcode := 'i'.toNat

def keyJ : AviCharcode := 'j'.toNat

def keyK : AviCharcode := 'k'.toNat

def keyL : AviCharcode := 'l'.toNat

def keyM : AviCharcode := 'm'.toNat

def keyN : AviCharcode := 'n'.toNat

def keyO : AviCharcode := 'o'.toNat

def keyP : AviCharcode := 'p'.toNat

def keyQ : AviCharcode := 'q'.toNat

def keyR : AviCharcode := 'r'.toNat

def keyS : AviCharcode := 's'.toNat

def keyT : AviCharcode := 't'.toNat

def keyU : AviCharcode := 'u'.toNat

def keyV : AviCharcode := 'v'.toNat

def keyW : AviCharcode := 'w'.toNat

def keyX : AviCharcode := 'x'.toNat

def keyY : AviCharcode := 'y'.toNat

def keyZ : AviCharcode := 'z'.toNat

def keyReturn : AviCharcode := 10

def keyEscape : AviCharcode := 0x1001

def keyBackspace : AviCharcode := 8

def keyTab : AviCharcode := 9

def keyF1 : AviCharcode := 0x1201

def keyF2 : AviCharcode := 0x1202

def keyF3 : AviCharcode := 0x1203

def keyF4 : AviCharcode := 0x1204

def keyF5 : AviCharcode := 0x1205

def keyF6 : AviCharcode := 0x1206

def keyF7 : AviCharcode := 0x1207

def keyF8 : AviCharcode := 0x1208

def keyF9 : AviCharcode := 0x1209

def keyF10 : AviCharcode := 0x120A

def keyF11 : AviCharcode := 0x120B

def keyF12 : AviCharcode := 0x120C

def keyDot : AviCharcode := '.'.toNat

def keyComma : AviCharcode := ','.toNat

def keySemicolon : AviCharcode := ';'.toNat

def keySlash : AviCharcode := '/'.toNat

def keyBackslash : AviCharcode := 0x5C

def keyMinus : AviCharcode := '-'.toNat

def keyQuote : AviCharcode := 0x27

def keyEqual : AviCharcode := '='.toNat

def keyLeftbracket : AviCharcode := '['.toNat

def keyRightbracket : AviCharcode := ']'.toNat

def keyGrave : AviCharcode := 0x60

def keyKp0 : AviCharcode := '0'.toNat

def keyKp2 : AviCharcode := '2'.toNat

def keyKp3 : AviCharcode := '3'.toNat

def keyKp8 : AviCharcode := '8'.toNat

def keyKpDecimal : AviCharcode := '.'.toNat

def keyKpDivide : AviCharcode := '/'.toNat

def keyKpAsterisk : AviCharcode := '*'.toNat

def keyKpNumlock : AviCharcode := 0x300F

def keyKpEnter : AviCharcode := 0x3010

def keyCapslock : AviCharcode := 0x4001

def keyLshift : AviCharcode := 0x4002

def keyLctrl : AviCharcode := 0x4003

def keyRshift : AviCharcode := 0x4006

def keyRctrl : AviCharcode := 0x4007

def keyRalt : AviCharcode := 0x4008

def keyInsert : AviCharcode := 0x400A

def keyDelete : AviCharcode := 0x400B

def keyHome : AviCharcode := 0x400C

def keyEnd : AviCharcode := 0x400D

def keyPageup : AviCharcode := 0x400E

def keyPagedown : AviCharcode := 0x400F

def keyScrolllock : AviCharcode := 0x4010

def keyUparrow : AviCharcode := 0x4012

def keyLeftarrow : AviCharcode := 0x4013

def keyRightarrow : AviCharcode := 0x4014

def keyDownarrow : AviCharcode := 0x4015

def keyLgui : AviCharcode := 0x4016

def keyRgui : AviCharcode := 0x4017

def keyApps : AviCharcode := 0x4018

def keyUnknown : AviCharcode := 0x4019

end AviCharcode

/-- What a listener hears of a key. -/
structure ExtendedChar where
  aviCharcode : AviCharcode
  deriving DecidableEq

namespace ExtendedChar

open AviCharcode

/-- The characters of the make codes from `0` to `0x58`. -/
def oneScanCodeToAviCharcodeArr : Array AviCharcode := #[
  keyUnknown, keyEscape, key1, key2, key3, key4, key5, key6, key7, key8, key9, key0, keyMinus,
  keyEqual, keyBackspace, keyTab, keyQ, keyW, keyE, keyR, keyT, keyY, keyU, keyI, keyO, keyP,
  keyLeftbracket, keyRightbracket, keyReturn, keyLctrl, keyA, keyS, keyD, keyF, keyG, keyH, keyJ,
  keyK, keyL, keySemicolon, keyQuote, keyGrave, keyLshift, keyBackslash, keyZ, keyX, keyC, keyV,
  keyB, keyN, keyM, keyComma, keyDot, keySlash, keyRshift, keyKpAsterisk, keyRalt, keySpace,
  keyCapslock, keyF1, keyF2, keyF3, keyF4, keyF5, keyF6, keyF7, keyF8, keyF9, keyF10,
  keyKpNumlock, keyScrolllock, keyHome, keyKp8, keyPageup, keyUnknown, keyUnknown, keyUnknown,
  keyUnknown, keyUnknown, keyUnknown, keyKp2, keyKp3, keyKp0, keyKpDecimal, keyUnknown,
  keyUnknown, keyUnknown, keyF11, keyF12]

/-- The characters of the second make codes from `0` to `0x5d`. -/
def twoScanCodesToAviCharcodeArr : Array AviCharcode := #[
  keyUnknown, keyUnknown, keyUnknown, keyUnknown, keyUnknown, keyUnknown, keyUnknown, keyUnknown,
  keyUnknown, keyUnknown, keyUnknown, keyUnknown, keyUnknown, keyUnknown, keyUnknown, keyUnknown,
  keyUnknown, keyUnknown, keyUnknown, keyUnknown, keyUnknown, keyUnknown, keyUnknown, keyUnknown,
  keyUnknown, keyUnknown, keyUnknown, keyUnknown, keyKpEnter, keyRctrl, keyUnknown, keyUnknown,
  keyUnknown, keyUnknown, keyUnknown, keyUnknown, keyUnknown, keyUnknown, keyUnknown, keyUnknown,
  keyUnknown, keyUnknown, keyUnknown, keyUnknown, keyUnknown, keyUnknown, keyUnknown, keyUnknown,
  keyUnknown, keyUnknown, keyUnknown, keyUnknown, keyUnknown, keyKpDivide, keyUnknown,
  keyUnknown, keyRalt, keyUnknown, keyUnknown, keyUnknown, keyUnknown, keyUnknown, keyUnknown,
  keyUnknown, keyUnknown, keyUnknown, keyUnknown, keyUnknown, keyUnknown, keyUnknown, keyUnknown,
  keyHome, keyUparrow, keyPageup, keyUnknown, keyLeftarrow, keyUnknown, keyRightarrow,
  keyUnknown, keyEnd, keyDownarrow, keyPagedown, keyInsert, keyDelete, keyUnknown, keyUnknown,
  keyUnknown, keyUnknown, keyUnknown, keyUnknown, keyUnknown, keyLgui, keyRgui, keyApps]

/-- There is none past the end of the table. -/
def ofScanCode (scanCode : UInt8) : Option ExtendedChar :=
  oneScanCodeToAviCharcodeArr[scanCode.toNat]?.map fun c => ⟨c⟩

/-- The first scan code is always `0xE0`. -/
def ofTwoScanCodes (_scanCode1 scanCode2 : UInt8) : Option ExtendedChar :=
  twoScanCodesToAviCharcodeArr[scanCode2.toNat]?.map fun c => ⟨c⟩

end ExtendedChar

end AviKernel
