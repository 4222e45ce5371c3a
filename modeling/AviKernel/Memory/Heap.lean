import AviKernel.Library.ByteMemory
import AviKernel.Library.Words
import AviKernel.Memory.VirtualMgr

/-!
# The kernel heap

Holes and chunks in use live in one byte memory.  A hole starts with a header
of three words (`size`, `next`, `prev`, twelve bytes), a chunk in use with one
word, its size.  Addresses and sizes are 32-bit and wrap.  The heap asks the
physical manager for frames and the virtual manager to map them, which takes a
frame of its own for each new page table; the frames still to come are a list,
and `0` (`NULL`) once it is used up.

A loop over the holes list that runs for `2 ^ 32` steps has met an address
twice and never ends: it has no result.
-/

namespace AviKernel.Heap

open VirtualMgr (getPageDirectoryIndex getPageTableIndex)

def heapStartAddr : ℕ := 0xC0C00000

/-- The directory entries that have a page table after `VirtualMgr::initialize`. -/
def initialTables : List ℕ := [0, 768]

/-- More steps than there are addresses. -/
def stepLimit : ℕ := 2 ^ 32

structure State where
  memory : Memory
  holesListHead : ℕ
  holesListTail : ℕ
  lastPage : ℕ
  /-- The results of the coming calls of `PhysicalMgr::allocate_block`. -/
  frames : List ℕ
  /-- The directory index and the frame of each page table made since, newest first. -/
  tables : List (ℕ × ℕ)
  /-- The page and frame of each call of `VirtualMgr::map`, newest first. -/
  mapped : List (ℕ × ℕ)

namespace State

/-! ## Header fields -/

def size (s : State) (h : ℕ) : ℕ := s.memory.load h

def next (s : State) (h : ℕ) : ℕ := s.memory.load (h + 4)

def prev (s : State) (h : ℕ) : ℕ := s.memory.load (h + 8)

def setSize (s : State) (h w : ℕ) : State := { s with memory := s.memory.store h w }

def setNext (s : State) (h w : ℕ) : State := { s with memory := s.memory.store (h + 4) w }

def setPrev (s : State) (h w : ℕ) : State := { s with memory := s.memory.store (h + 8) w }

def setHead (s : State) (h : ℕ) : State := { s with holesListHead := h }

def setTail (s : State) (h : ℕ) : State := { s with holesListTail := h }

/-! ## The holes list -/

def removeFromHolesList (s : State) (hole : ℕ) : State :=
  -- Case 1: the only hole.
  if s.prev hole = 0 ∧ s.next hole = 0 then
    (s.setTail 0).setHead 0
  -- Case 2: the first hole.
  else if hole = s.holesListHead then
    let s := s.setHead (s.next s.holesListHead)
    s.setPrev s.holesListHead 0
  -- Case 3: the last hole.
  else if hole = s.holesListTail then
    let s := s.setTail (s.prev s.holesListTail)
    s.setNext s.holesListTail 0
  -- Case 4: a hole with a hole on both sides.
  else
    let s := s.setNext (s.prev hole) (s.next hole)
    s.setPrev (s.next hole) (s.prev hole)

/-- The loop of `insert_to_holes_list`: the first listed hole above `hole`. -/
def findNodeAfter (s : State) (hole : ℕ) : ℕ → ℕ → Option ℕ
  | 0, _ => none
  | steps + 1, node =>
      if node = 0 then some 0
      else if hole < node then some node
      else s.findNodeAfter hole steps (s.next node)

def insertToHolesList (s : State) (hole : ℕ) : Option State :=
  if s.holesListTail = 0 then
    let s := (s.setTail hole).setHead hole
    some ((s.setNext hole 0).setPrev hole 0)
  else do
    let node ← s.findNodeAfter hole stepLimit s.holesListHead
    -- Case 1: that should be the first.
    if node = s.holesListHead then
      let s := (s.setHead hole).setPrev hole 0
      some ((s.setNext hole node).setPrev node hole)
    -- Case 2: that should be the last.
    else if node = 0 then
      let s := s.setNext s.holesListTail hole
      let s := s.setPrev hole s.holesListTail
      some ((s.setTail hole).setNext hole 0)
    -- Case 3: that should be put in the middle.
    else
      let prev := s.prev node
      let s := (s.setNext prev hole).setPrev hole prev
      some ((s.setPrev node hole).setNext hole node)

/-! ## Growing the heap -/

def allocateBlock (s : State) : ℕ × State :=
  match s.frames with
  | [] => (0, s)
  | frame :: frames => (frame, { s with frames := frames })

/-- The entry of `page_etable` is present. -/
def HasTable (s : State) (index : ℕ) : Prop :=
  index ∈ initialTables ∨ index ∈ s.tables.map Prod.fst

instance (s : State) (index : ℕ) : Decidable (s.HasTable index) :=
  inferInstanceAs (Decidable (_ ∨ _))

/-- A new page table in `VirtualMgr::map`, which does not ask whether it got a frame.  Frame
zero is the page at address zero. -/
def createTable (s : State) (index : ℕ) : State :=
  let (table, s) := s.allocateBlock
  let s := { s with tables := (index, table) :: s.tables }
  if table = 0 then { s with memory := s.memory.clear 0 4096 } else s

/-- `VirtualMgr::map`, as the heap sees it.  What becomes of the translation once a page table
is at address zero, or a page is outside the region of the heap, is left out. -/
def map (s : State) (page frame : ℕ) : State :=
  let index := getPageDirectoryIndex page
  let s := if s.HasTable index then s else s.createTable index
  let entry := PageTableEntry.create true true true frame
  let s := if (index, 0) ∈ s.tables then
    { s with memory := s.memory.store (4 * getPageTableIndex page) entry } else s
  { s with mapped := (page, frame) :: s.mapped }

/-- The loop of `extend_heap` with the pages still to do; the results are
`status`, `header` and `number_of_pages_done`. -/
def extendLoop : ℕ → State → ℕ → ℕ → Bool × ℕ × ℕ × State
  | 0, s, header, done => (true, header, done, s)
  | todo + 1, s, header, done =>
      let (frame, s) := s.allocateBlock
      if frame = 0 then (false, header, done, s)
      else
        let s := s.map s.lastPage frame
        let header := if header = 0 then s.lastPage else header
        extendLoop todo { s with lastPage := add32 s.lastPage 4096 } header (done + 1)

def extendHeap (s : State) (size : ℕ) : Option (Bool × State) := do
  let desiredSize := add32 size 12
  let desiredPages := desiredSize / 4096 + 1
  let s := { s with lastPage := add32 s.lastPage 4096 }
  let (status, header, done, s) := extendLoop desiredPages s 0 0
  let s := s.setSize header (done * 4096 % 2 ^ 32)
  let s ← s.insertToHolesList header
  some (status, s)

/-! ## Allocation -/

/-- The loop of `malloc`: the first listed hole that is big enough, `0` if
there is none. -/
def findHole (s : State) (requiredSize : ℕ) : ℕ → ℕ → Option ℕ
  | 0, _ => none
  | steps + 1, node =>
      if node = 0 then some 0
      else if requiredSize ≤ s.size node then some node
      else s.findHole requiredSize steps (s.next node)

def split (s : State) (hole size : ℕ) : Option (ℕ × State) :=
  if 12 < sub32 (s.size hole) size then do
    let offset := if 12 < size then size else 12
    let newHole := add32 hole offset
    let s := s.setSize newHole (sub32 (s.size hole) offset)
    let s ← s.insertToHolesList newHole
    some (offset, s.removeFromHolesList hole)
  else some (0, s)

/-- `malloc` that may call itself the given number of times.  It does so only
after `extend_heap` has used up a frame, so the frames bound the calls. -/
def mallocWithin : ℕ → State → ℕ → Option (ℕ × State)
  | 0, _, _ => none
  | calls + 1, s, size =>
      if size = 0 then some (0, s)
      else do
        let requiredSize := add32 size 4
        let hole ← s.findHole requiredSize stepLimit s.holesListHead
        if hole = 0 then
          let (status, s) ← s.extendHeap requiredSize
          if status then mallocWithin calls s size else some (0, s)
        else
          let (splitSize, s) ← s.split hole requiredSize
          let (allocatedSize, s) :=
            if splitSize = 0 then (s.size hole, s.removeFromHolesList hole) else (splitSize, s)
          some (add32 hole 4, s.setSize hole allocatedSize)

def malloc (s : State) (size : ℕ) : Option (ℕ × State) :=
  mallocWithin (s.frames.length + 1) s size

/-! ## Release -/

def mergeNext (s : State) (header : ℕ) : State :=
  let s := s.setSize header (add32 (s.size header) (s.size (s.next header)))
  s.removeFromHolesList (s.next header)

def mergePrevious (s : State) (header : ℕ) : State :=
  let s := s.setSize (s.prev header) (add32 (s.size (s.prev header)) (s.size header))
  s.removeFromHolesList header

/-- With no hole before it `header->prev` is `NULL`, and its size the word at
address zero; after `merge_previous` the header is still the argument. -/
def merge (s : State) (header : ℕ) : State :=
  let s := if add32 (s.prev header) (s.size (s.prev header)) = header then
    s.mergePrevious header else s
  if add32 header (s.size header) = s.next header then s.mergeNext header else s

def free (s : State) (addr : ℕ) : Option State := do
  let header := sub32 addr 4
  let howManyBytes := s.size header
  let s := s.setSize header howManyBytes
  let s ← s.insertToHolesList header
  some (s.merge header)

def memcpy (s : State) (dest src n : ℕ) : State :=
  { s with memory := s.memory.copy dest src n }

def realloc (s : State) (ptr newSize : ℕ) : Option (ℕ × State) :=
  if ptr = 0 then s.malloc newSize
  else if newSize = 0 then do
    let s ← s.free ptr
    some (0, s)
  else do
    let oldSize := sub32 (s.size (sub32 ptr 4)) 4
    let (newPlace, s) ← s.malloc newSize
    if newPlace = 0 then some (0, s)
    else
      let bytesToCopy := if oldSize < newSize then oldSize else newSize
      let s ← (s.memcpy newPlace ptr bytesToCopy).free ptr
      some (newPlace, s)

/-! ## What the list says -/

/-- The holes met by following `next` from a node. -/
def holesFrom (s : State) : ℕ → ℕ → List Extent
  | 0, _ => []
  | steps + 1, node => if node = 0 then [] else ⟨node, s.size node⟩ :: s.holesFrom steps (s.next node)

/-- The holes reachable from `holes_list_head`. -/
def holes (s : State) : List Extent := s.holesFrom stepLimit s.holesListHead

/-- The mapped pages. -/
def pages (s : State) : List Extent := s.mapped.map fun page => ⟨page.1, 4096⟩

end State

/-- `Heap::initialize`; no result when it panics for want of a first frame. -/
def initializeHeap (memory : Memory) (frames : List ℕ) : Option State :=
  let s : State := ⟨memory, heapStartAddr, heapStartAddr, 0, frames, [], []⟩
  let (firstFrame, s) := s.allocateBlock
  if firstFrame = 0 then none
  else
    let s := s.map s.holesListHead firstFrame
    let s := { s with lastPage := s.holesListHead }
    let s := s.setSize s.holesListHead 4096
    let s := s.setPrev s.holesListHead 0
    some (s.setNext s.holesListHead 0)

end AviKernel.Heap
