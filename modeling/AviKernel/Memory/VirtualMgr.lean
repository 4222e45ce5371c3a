import AviKernel.Library.Words
import AviKernel.Memory.PagingEntry

/-!
# The virtual memory manager

The directory and the table of the page tables are arrays of the kernel, which
the first four megabytes of physical memory hold.  Every access goes through the
directory that is in use; a panic and an access to a page that is not mapped
have no result.
-/

namespace AviKernel.VirtualMgr

open Paging

def pageSize : ℕ := 4096

def kernelVirtualBaseAddr : ℕ := 0xC0000000

def pageEtableDirectoryIndex : ℕ := 1023

/-- Where the linker puts the arrays: the frames of the directory, of the table
of page tables and of the directory of the boot.  The code starts at one
megabyte. -/
structure Image where
  directoryFrame : ℕ
  etableFrame : ℕ
  bootFrame : ℕ
  directory_lt : directoryFrame < 1024
  etable_lt : etableFrame < 1024
  boot_lt : bootFrame < 1024
  distinct : [directoryFrame, etableFrame, bootFrame].Nodup
  linked : ∀ f ∈ [directoryFrame, etableFrame, bootFrame], 0x100 ≤ f

/-- The processor, and what `PhysicalMgr::allocate_block` answers from now on. -/
structure State where
  cpu : Cpu
  blocks : ℕ → ℕ

namespace State

def load (s : State) (addr : ℕ) : Option ℕ := s.cpu.load addr

def store (s : State) (addr w : ℕ) : Option State :=
  (s.cpu.store addr w).map fun cpu => { s with cpu }

def getCr3 (s : State) : ℕ := s.cpu.cr3

def setCr3 (s : State) (addr : ℕ) : State := { s with cpu := { s.cpu with cr3 := addr } }

def allocateBlock (s : State) : ℕ × State :=
  (s.blocks 0, { s with blocks := fun k => s.blocks (k + 1) })

/-- Fill `n` words with zeros, from the address on. -/
def clearWords (s : State) (addr : ℕ) : ℕ → Option State
  | 0 => some s
  | n + 1 => do
      let s ← clearWords s addr n
      s.store (add32 addr (4 * n)) 0

end State

variable (image : Image)

/-- The address of the array `page_directory`. -/
def pageDirectory : ℕ := kernelVirtualBaseAddr + pageSize * image.directoryFrame

/-- The address of the array `page_etable`. -/
def pageEtable : ℕ := kernelVirtualBaseAddr + pageSize * image.etableFrame

def kernelVirtualAddrToPhysical (vAddr : ℕ) : ℕ := sub32 vAddr kernelVirtualBaseAddr

def getPageDirectoryIndex (vAddr : ℕ) : ℕ := vAddr >>> 22 &&& 0x3FF

def getPageTableIndex (vAddr : ℕ) : ℕ := vAddr >>> 12 &&& 0x3FF

def setPageDirectoryIndex (vAddr dIndex : ℕ) : ℕ := vAddr ||| dIndex <<< 22

def setPageTableIndex (vAddr tIndex : ℕ) : ℕ := vAddr ||| tIndex <<< 12

/-- The address of a page table in the window. -/
def getPageTableVirtualAddress (index : ℕ) : ℕ :=
  let addr := 0
  let addr := setPageTableIndex addr index
  setPageDirectoryIndex addr pageEtableDirectoryIndex

/-- A new page table. -/
def createTable (s : State) (indexInPageDirectory : ℕ) : Option State := do
  let (pageTableAddr, s) := s.allocateBlock
  let s ← s.store (pageEtable image + 4 * indexInPageDirectory)
    (PageTableEntry.create true true true pageTableAddr)
  let s ← s.store (pageDirectory image + 4 * indexInPageDirectory)
    (PageDirectoryEntry.create true true true false pageTableAddr)
  let s := s.setCr3 s.getCr3
  s.clearWords (getPageTableVirtualAddress indexInPageDirectory) (pageSize / 4)

def map (s : State) (vAddr pAddr : ℕ) (requiresSupervisor : Bool) : Option State :=
  if vAddr % pageSize ≠ 0 then none
  else if pAddr % pageSize ≠ 0 then none
  else do
    let indexInPageDirectory := getPageDirectoryIndex vAddr
    let indexInPageTable := getPageTableIndex vAddr
    let pageTableEtableEntry ← s.load (pageEtable image + 4 * indexInPageDirectory)
    let pageTable := getPageTableVirtualAddress indexInPageDirectory
    let s ←
      if PagingEntry.getPresent pageTableEtableEntry then some s
      else createTable image s indexInPageDirectory
    s.store (pageTable + 4 * indexInPageTable)
      (PageTableEntry.create true true requiresSupervisor pAddr)

/-- The directory is reached by its physical address. -/
def putPageEtable (s : State) : Option State :=
  let pageEtablePhysicalAddr := kernelVirtualAddrToPhysical (pageEtable image)
  s.store (add32 s.getCr3 (4 * pageEtableDirectoryIndex))
    (PageDirectoryEntry.create true true true false pageEtablePhysicalAddr)

def mapRange (s : State) (vAddr pAddr : ℕ) : ℕ → Bool → Option State
  | 0, _ => some s
  | count + 1, requiresSupervisor => do
      let s ← map image s vAddr pAddr requiresSupervisor
      mapRange s (add32 vAddr pageSize) (add32 pAddr pageSize) count requiresSupervisor

def initializeX (s : State) : Option State := do
  let s ← s.clearWords (pageEtable image) 1024
  let s ← putPageEtable image s
  let s ← mapRange image s kernelVirtualBaseAddr 0 (0x400000 / pageSize) true
  let s ← mapRange image s 0 0 (0x400000 / pageSize) true
  let s := s.setCr3 (kernelVirtualAddrToPhysical (pageDirectory image))
  putPageEtable image s

end AviKernel.VirtualMgr
