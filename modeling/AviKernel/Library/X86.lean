import AviKernel.Library.Runs
import AviKernel.Library.Words

/-!
# Straight-line code of the x86

The registers, the stack as a list of words, and the instructions that an
interrupt stub needs.  The stack pointer is where the list begins.  A call reads
its arguments from the stack and leaves other values in the scratch registers.
-/

namespace AviKernel.X86

/-- An immediate byte is pushed with its sign. -/
def signExtend8 (b : UInt8) : UInt32 := b.toInt8.toInt32.toUInt32

theorem signExtend8_of_lt : ∀ b : UInt8, b < 128 → signExtend8 b = b.toUInt32 :=
  forall_byte (by decide +kernel)

/-- From 128 on the number pushed is not a byte. -/
theorem le_signExtend8 : ∀ b : UInt8, ¬ b < 128 → 256 ≤ (signExtend8 b).toNat :=
  forall_byte (by decide +kernel)

def interruptFlag : UInt32 := 0x200

structure Cpu where
  eax : UInt32
  ecx : UInt32
  edx : UInt32
  ebx : UInt32
  ebp : UInt32
  esi : UInt32
  edi : UInt32
  ds : UInt16
  es : UInt16
  fs : UInt16
  gs : UInt16
  cs : UInt16
  eip : UInt32
  eflags : UInt32
  /-- The address above the bottom of the stack. -/
  stackTop : UInt32
  stack : List UInt32
deriving DecidableEq

/-- What a called function leaves in the registers it need not keep. -/
structure Scratch where
  eax : UInt32
  ecx : UInt32
  edx : UInt32
  eflags : UInt32
deriving DecidableEq

namespace Cpu

variable (c : Cpu)

def esp : UInt32 := c.stackTop - 4 * UInt32.ofNat c.stack.length

def push (w : UInt32) : Cpu := { c with stack := w :: c.stack }

/-- An interrupt through an interrupt gate of the same privilege. -/
def interrupt (selector : UInt16) (offset : UInt32) (errorCode : Option UInt32) : Cpu :=
  { c with
    cs := selector
    eip := offset
    eflags := c.eflags &&& ~~~interruptFlag
    stack := errorCode.toList ++ c.eip :: c.cs.toUInt32 :: c.eflags :: c.stack }

end Cpu

inductive Instr
  | cli
  | pushByte (imm : UInt8)
  | pushEax
  | popEax
  | pusha
  | popa
  | movAxDs
  | movAx (imm : UInt16)
  | movDsAx
  | movEsAx
  | movFsAx
  | movGsAx
  | call
  | addEsp (bytes : ℕ)
  | iret
deriving DecidableEq

/-- A register with its lower half replaced. -/
def setLow (w : UInt32) (low : UInt16) : UInt32 := (w &&& 0xFFFF0000) ||| low.toUInt32

@[simp] theorem setLow_toUInt16 (w : UInt32) (low : UInt16) : (setLow w low).toUInt16 = low := by
  have hmask : (0xFFFF0000 : UInt32).toUInt16 = 0 := rfl
  rw [setLow, UInt32.toUInt16_or, UInt32.toUInt16_and, UInt16.toUInt16_toUInt32, hmask,
    UInt16.and_zero, UInt16.zero_or]

variable {σ : Type*}

/-- One instruction.  `callee` is the function that is called. -/
def exec (callee : List UInt32 → σ → Option σ) (left : Scratch) :
    Cpu × σ → Instr → Option (Cpu × σ)
  | (c, s), .cli => some ({ c with eflags := c.eflags &&& ~~~interruptFlag }, s)
  | (c, s), .pushByte imm => some (c.push (signExtend8 imm), s)
  | (c, s), .pushEax => some (c.push c.eax, s)
  | (c, s), .popEax =>
      match c.stack with
      | w :: rest => some ({ c with eax := w, stack := rest }, s)
      | [] => none
  | (c, s), .pusha =>
      some ({ c with stack := c.edi :: c.esi :: c.ebp :: c.esp :: c.ebx :: c.edx :: c.ecx ::
        c.eax :: c.stack }, s)
  | (c, s), .popa =>
      match c.stack with
      | edi :: esi :: ebp :: _ :: ebx :: edx :: ecx :: eax :: rest =>
          some ({ c with edi, esi, ebp, ebx, edx, ecx, eax, stack := rest }, s)
      | _ => none
  | (c, s), .movAxDs => some ({ c with eax := setLow c.eax c.ds }, s)
  | (c, s), .movAx imm => some ({ c with eax := setLow c.eax imm }, s)
  | (c, s), .movDsAx => some ({ c with ds := c.eax.toUInt16 }, s)
  | (c, s), .movEsAx => some ({ c with es := c.eax.toUInt16 }, s)
  | (c, s), .movFsAx => some ({ c with fs := c.eax.toUInt16 }, s)
  | (c, s), .movGsAx => some ({ c with gs := c.eax.toUInt16 }, s)
  | (c, s), .call =>
      (callee c.stack s).map fun t =>
        ({ c with eax := left.eax, ecx := left.ecx, edx := left.edx, eflags := left.eflags }, t)
  | (c, s), .addEsp bytes =>
      if bytes ≤ 4 * c.stack.length then some ({ c with stack := c.stack.drop (bytes / 4) }, s)
      else none
  | (c, s), .iret =>
      match c.stack with
      | eip :: cs :: eflags :: rest =>
          some ({ c with eip, cs := cs.toUInt16, eflags, stack := rest }, s)
      | _ => none

variable {callee : List UInt32 → σ → Option σ} {left : Scratch} {c : Cpu} {s : σ}

theorem exec_pushByte (imm : UInt8) :
    exec callee left (c, s) (.pushByte imm) = some (c.push (signExtend8 imm), s) := rfl

end AviKernel.X86
