import AviKernel.Library.Ata

/-!
# The IDE controller

The registers of the two channels are at the ports of the compatibility mode.
The controller of a channel knows the first port of the command block and the
port of the control register.
-/

namespace AviKernel

open Ata

/-- The two channels as the ports reach them. -/
structure Bus where
  channel : Fin 2 → Channel

namespace Bus

variable (bus : Bus)

def set (i : Fin 2) (c : Channel) : Bus := ⟨Function.update bus.channel i c⟩

/-- The registers of a command block, from the second port on. -/
def commandBlock : ℕ → Option Register
  | 1 => some .features
  | 2 => some .sectorCount
  | 3 => some .lbaLow
  | 4 => some .lbaMid
  | 5 => some .lbaHigh
  | 6 => some .driveHead
  | 7 => some .command
  | _ => none

def decode (port : ℕ) : Option (Fin 2 × Register) :=
  if port = 0x3F6 then some (0, .control)
  else if port = 0x376 then some (1, .control)
  else if 0x1F0 ≤ port then (commandBlock (port - 0x1F0)).map fun r => (0, r)
  else if 0x170 ≤ port then (commandBlock (port - 0x170)).map fun r => (1, r)
  else none

/-- The channel whose data register is at the port. -/
def decodeData (port : ℕ) : Option (Fin 2) :=
  if port = 0x1F0 then some 0 else if port = 0x170 then some 1 else none

def outb (port : ℕ) (val : UInt8) : Bus :=
  match decode port with
  | some (i, r) => bus.set i ((bus.channel i).write r val)
  | none => bus

def inb (port : ℕ) : UInt8 × Bus :=
  match decode port with
  | some (i, r) => (((bus.channel i).read r).1, bus.set i ((bus.channel i).read r).2)
  | none => (0xFF, bus)

def outw (port : ℕ) (val : UInt16) : Bus :=
  match decodeData port with
  | some i => bus.set i ((bus.channel i).writeData val)
  | none => bus

def inw (port : ℕ) : UInt16 × Bus :=
  match decodeData port with
  | some i => ((bus.channel i).readData.1, bus.set i (bus.channel i).readData.2)
  | none => (0xFFFF, bus)

end Bus

structure IDEController where
  ports1Base : ℕ
  ports2Base : ℕ

namespace IDEController

variable (controller : IDEController) (data low high : UInt8) (bus : Bus)

def readDataRegister : UInt16 × Bus := bus.inw (controller.ports1Base + 0)

def readDriveHeadRegister : UInt8 × Bus := bus.inb (controller.ports1Base + 6)

def readAlternateStatusRegister : UInt8 × Bus := bus.inb (controller.ports2Base + 0)

def readWords : ℕ → (ℕ → UInt8) → ℕ → Bus → (ℕ → UInt8) × Bus
  | 0, buf, _, bus => (buf, bus)
  | n + 1, buf, pos, bus =>
      let (word, bus) := controller.readDataRegister bus
      readWords n (storeWord buf pos word) (pos + 2) bus

/-- The size is in bytes. -/
def readDataRegisterBuffer (buf : ℕ → UInt8) (pos size : ℕ) (bus : Bus) : (ℕ → UInt8) × Bus :=
  controller.readWords (size / 2) buf pos bus

def writeDataRegister (data : UInt16) : Bus := bus.outw (controller.ports1Base + 0) data

def writeWords (buf : ℕ → UInt8) : ℕ → ℕ → Bus → Bus
  | 0, _, bus => bus
  | n + 1, pos, bus =>
      writeWords buf n (pos + 2) (controller.writeDataRegister bus (loadWord buf pos))

/-- The size is in bytes. -/
def writeDataRegisterBuffer (buf : ℕ → UInt8) (pos size : ℕ) (bus : Bus) : Bus :=
  controller.writeWords buf (size / 2) pos bus

def writeSectorCountRegister : Bus := bus.outb (controller.ports1Base + 2) data

def writeSectorNumberRegister : Bus := bus.outb (controller.ports1Base + 3) data

def writeCylinderLSBRegister : Bus := bus.outb (controller.ports1Base + 4) data

def writeCylinderMSBRegister : Bus := bus.outb (controller.ports1Base + 5) data

def writeDriveHeadRegister : Bus := bus.outb (controller.ports1Base + 6) data

def writeCommandRegister : Bus := bus.outb (controller.ports1Base + 7) data

def writeSectorCountRegister48 : Bus :=
  (bus.outb (controller.ports1Base + 2) high).outb (controller.ports1Base + 2) low

def writeLBAloRegister48 : Bus :=
  (bus.outb (controller.ports1Base + 3) high).outb (controller.ports1Base + 3) low

def writeLBAmidRegister48 : Bus :=
  (bus.outb (controller.ports1Base + 4) high).outb (controller.ports1Base + 4) low

def writeLBIhiRegister48 : Bus :=
  (bus.outb (controller.ports1Base + 5) high).outb (controller.ports1Base + 5) low

end IDEController

end AviKernel
