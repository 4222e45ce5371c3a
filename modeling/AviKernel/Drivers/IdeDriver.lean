import AviKernel.Drivers.IdeController
import AviKernel.Utils.Vector

/-!
# The IDE compatibility driver

Reads and writes of sectors.  A panic and a wait that does not end within
`polls` reads of the status have no result.
-/

namespace AviKernel

open Ata

structure PhysicalIDEDrive where
  channel : Fin 2
  driveInChannel : Fin 2
  supportsLba : Bool
  uses48BitsMode : Bool
  numberOfSectors : ℕ
  lba_of_48 : uses48BitsMode = true → supportsLba = true

namespace StorageIDECompatibilityDriver

def sectorSize : ℕ := 512

def readPioNot48 : UInt8 := 0x20

def writePioNot48 : UInt8 := 0x30

def writePio48 : UInt8 := 0x34

def flushCache48 : UInt8 := 0xEA

def statusBsy : UInt8 := (1 : UInt8) <<< 7

def statusDrq : UInt8 := (1 : UInt8) <<< 3

def primaryIdeController : IDEController := ⟨0x1F0, 0x3F6⟩

def secondaryIdeController : IDEController := ⟨0x170, 0x376⟩

def getIdeController (channel : Fin 2) : IDEController :=
  if channel = 0 then primaryIdeController else secondaryIdeController

/-- The number at word `i` of the identification space, `n` words long. -/
def identWords (buf : ℕ → UInt16) (i : ℕ) : ℕ → ℕ
  | 0 => 0
  | n + 1 => (buf i).toNat + 2 ^ 16 * identWords buf (i + 1) n

/-- The drive that the identification space describes is appended. -/
def addDrive (drives : List PhysicalIDEDrive) (channel drive : Fin 2) (buf : ℕ → UInt16) :
    List PhysicalIDEDrive :=
  let capabilities := identWords buf 49 2
  let supportsLba := capabilities.testBit 9
  let commandsSet := identWords buf 82 4
  let uses48BitsMode := supportsLba && commandsSet.testBit 26
  let numberOfSectors := if uses48BitsMode then identWords buf 100 4 else identWords buf 60 2
  drives ++ [⟨channel, drive, supportsLba, uses48BitsMode, numberOfSectors, fun h =>
    (Bool.and_eq_true_iff.mp h).1⟩]

def ideSelectDrive (channel drive : Fin 2) (lba : Bool) (bus : Bus) : Bus :=
  let tmp : UInt8 := if lba then 0xE0 else 0xA0
  let data := tmp ||| UInt8.ofNat (drive.val <<< 4)
  (getIdeController channel).writeDriveHeadRegister data bus

def fillAddress48Bits (controller : IDEController) (lba : ℕ) (bus : Bus) : Bus :=
  let lba0 := UInt8.ofNat (lba >>> 0)
  let lba1 := UInt8.ofNat (lba >>> 8)
  let lba2 := UInt8.ofNat (lba >>> 16)
  let lba3 := UInt8.ofNat (lba >>> 24)
  let lba4 := UInt8.ofNat (lba >>> 32)
  let lba5 := UInt8.ofNat (lba >>> 40)
  let bus := controller.writeLBAloRegister48 lba0 lba3 bus
  let bus := controller.writeLBAmidRegister48 lba1 lba4 bus
  controller.writeLBIhiRegister48 lba2 lba5 bus

def fillAddress28Bits (controller : IDEController) (lba : ℕ) (bus : Bus) : Bus :=
  let lba0 := UInt8.ofNat (lba >>> 0)
  let lba1 := UInt8.ofNat (lba >>> 8)
  let lba2 := UInt8.ofNat (lba >>> 16)
  let lba3 := UInt8.ofNat (lba >>> 24) &&& 0b00001111
  let bus := controller.writeSectorNumberRegister lba0 bus
  let bus := controller.writeCylinderLSBRegister lba1 bus
  let bus := controller.writeCylinderMSBRegister lba2 bus
  let (driveHead, bus) := controller.readDriveHeadRegister bus
  let driveHead := driveHead &&& 0b11110000
  let driveHead := driveHead ||| lba3
  controller.writeDriveHeadRegister driveHead bus

/-- The addresses by cylinder, head and sector are not implemented. -/
def fillAddressChs (_ : IDEController) (_ : ℕ) (_ : Bus) : Option Bus := none

def setupRw48Bits (drive : PhysicalIDEDrive) (controller : IDEController) (lba : ℕ)
    (count : UInt8) (bus : Bus) : Option Bus := do
  let bus := ideSelectDrive drive.channel drive.driveInChannel drive.supportsLba bus
  let bus ←
    if drive.supportsLba then
      if drive.uses48BitsMode then some (fillAddress48Bits controller lba bus)
      else some (fillAddress28Bits controller lba bus)
    else fillAddressChs controller lba bus
  if drive.uses48BitsMode then some (controller.writeSectorCountRegister48 count 0 bus)
  else some (controller.writeSectorCountRegister count bus)

/-- Wait until data is wanted or the device is not busy. -/
def waitForData (controller : IDEController) : ℕ → Bus → Option Bus
  | 0, _ => none
  | polls + 1, bus =>
      let (status, bus) := controller.readAlternateStatusRegister bus
      if status &&& statusDrq = 0 ∧ status &&& statusBsy ≠ 0 then
        waitForData controller polls bus
      else some bus

/-- Wait until the device is not busy. -/
def waitForFlush (controller : IDEController) : ℕ → Bus → Option Bus
  | 0, _ => none
  | polls + 1, bus =>
      let (status, bus) := controller.readAlternateStatusRegister bus
      if status &&& statusBsy ≠ 0 then waitForFlush controller polls bus else some bus

def readEach (controller : IDEController) (polls : ℕ) :
    ℕ → (ℕ → UInt8) → ℕ → Bus → Option ((ℕ → UInt8) × Bus)
  | 0, buffer, _, bus => some (buffer, bus)
  | n + 1, buffer, pos, bus => do
      let bus ← waitForData controller polls bus
      let (buffer, bus) := controller.readDataRegisterBuffer buffer pos sectorSize bus
      readEach controller polls n buffer (pos + 512) bus

def writeEach (controller : IDEController) (polls : ℕ) (buffer : ℕ → UInt8) :
    ℕ → ℕ → Bus → Option Bus
  | 0, _, bus => some bus
  | n + 1, pos, bus => do
      let bus ← waitForData controller polls bus
      let bus := controller.writeDataRegisterBuffer buffer pos sectorSize bus
      writeEach controller polls buffer n (pos + 512) bus

def readSectors (drives : List PhysicalIDEDrive) (polls : ℕ) (driveNumber : ℤ) (lba : ℕ)
    (count : UInt8) (buffer : ℕ → UInt8) (pos : ℕ) (bus : Bus) :
    Option ((ℕ → UInt8) × Bus) :=
  if count = 0 then some (buffer, bus)
  else do
    let drive ← Vector.get drives driveNumber
    let controller := getIdeController drive.channel
    let bus ← setupRw48Bits drive controller lba count bus
    let bus := controller.writeCommandRegister
      (if drive.uses48BitsMode then readPioNot48 else readPioNot48) bus
    readEach controller polls count.toNat buffer pos bus

def writeSectors (drives : List PhysicalIDEDrive) (polls : ℕ) (driveNumber : ℤ) (lba : ℕ)
    (count : UInt8) (buffer : ℕ → UInt8) (pos : ℕ) (bus : Bus) : Option Bus :=
  if count = 0 then some bus
  else do
    let drive ← Vector.get drives driveNumber
    let controller := getIdeController drive.channel
    let bus ← setupRw48Bits drive controller lba count bus
    let bus := controller.writeCommandRegister
      (if drive.uses48BitsMode then writePio48 else writePioNot48) bus
    let bus ← writeEach controller polls buffer count.toNat pos bus
    let bus := controller.writeCommandRegister flushCache48 bus
    waitForFlush controller polls bus

end StorageIDECompatibilityDriver

end AviKernel
