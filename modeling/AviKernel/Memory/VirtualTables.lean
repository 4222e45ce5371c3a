import AviKernel.Memory.VirtualMgr

/-!
# The page tables of the manager

The directory and the table of page tables name the same tables, no two indexes
share one, and the frames to come are others.  Through the directory in use the
kernel reaches both arrays, and each table in the window.
-/

namespace AviKernel.VirtualMgr

open Paging

variable {image : Image} {s t u : State} {m m' : Frames} {i j k l n f g v p w e : ℕ} {b : Bool}

/-! ## Addresses -/

theorem getPageDirectoryIndex_eq (v : ℕ) : getPageDirectoryIndex v = v / 2 ^ 22 % 1024 := by
  have hmask : 0x3FF = 2 ^ 10 - 1 := by decide
  rw [getPageDirectoryIndex, hmask, Nat.and_two_pow_sub_one_eq_mod, Nat.shiftRight_eq_div_pow]

theorem getPageTableIndex_eq (v : ℕ) : getPageTableIndex v = v / 2 ^ 12 % 1024 := by
  have hmask : 0x3FF = 2 ^ 10 - 1 := by decide
  rw [getPageTableIndex, hmask, Nat.and_two_pow_sub_one_eq_mod, Nat.shiftRight_eq_div_pow]

theorem getPageDirectoryIndex_lt (v : ℕ) : getPageDirectoryIndex v < 1024 := by
  rw [getPageDirectoryIndex_eq]
  exact Nat.mod_lt _ (by decide)

theorem getPageTableIndex_lt (v : ℕ) : getPageTableIndex v < 1024 := by
  rw [getPageTableIndex_eq]
  exact Nat.mod_lt _ (by decide)

theorem pageEtable_add (image : Image) (k : ℕ) :
    pageEtable image + 4 * k = address 768 image.etableFrame k := by
  unfold pageEtable kernelVirtualBaseAddr pageSize address
  omega

theorem pageDirectory_add (image : Image) (k : ℕ) :
    pageDirectory image + 4 * k = address 768 image.directoryFrame k := by
  unfold pageDirectory kernelVirtualBaseAddr pageSize address
  omega

theorem getPageTableVirtualAddress_eq (hi : i < 1024) :
    getPageTableVirtualAddress i = address 1023 i 0 := by
  have hlt : i <<< 12 < 2 ^ 22 := by
    rw [Nat.shiftLeft_eq]
    omega
  have hadd : 1023 <<< 22 + i <<< 12 = 1023 <<< 22 ||| i <<< 12 :=
    Nat.shiftLeft_add_eq_or_of_lt hlt 1023
  have htable : setPageTableIndex 0 i = i <<< 12 := Nat.zero_or _
  unfold getPageTableVirtualAddress
  dsimp only
  rw [htable, setPageDirectoryIndex, Nat.or_comm, pageEtableDirectoryIndex, ← hadd, Nat.shiftLeft_eq,
    Nat.shiftLeft_eq]
  unfold address
  omega

theorem add32_address (hi : i < 1024) (hj : j < 1024) (hk : k < 1024) :
    add32 (address i j 0) (4 * k) = address i j k := by
  unfold add32 address
  omega

/-! ## Accesses -/

namespace State

def memory (s : State) : Frames := s.cpu.memory

/-- The frame of the directory in use. -/
def root (s : State) : ℕ := s.cpu.cr3 / 4096

def withMemory (s : State) (m : Frames) : State := { s with cpu := { s.cpu with memory := m } }

@[simp] theorem memory_withMemory : (s.withMemory m).memory = m := rfl

@[simp] theorem root_withMemory : (s.withMemory m).root = s.root := rfl

@[simp] theorem blocks_withMemory : (s.withMemory m).blocks = s.blocks := rfl

@[simp] theorem withMemory_memory : s.withMemory s.memory = s := rfl

theorem load_address (hi : i < 1024) (hj : j < 1024) (hk : k < 1024)
    (h : walk s.memory s.root i j = some f) : s.load (address i j k) = some (s.memory f k) :=
  Cpu.load_address hi hj hk h

theorem store_address (hi : i < 1024) (hj : j < 1024) (hk : k < 1024)
    (h : walk s.memory s.root i j = some f) (w : ℕ) :
    s.store (address i j k) w = some (s.withMemory (Paging.store s.memory f k w)) := by
  rw [store, Cpu.store_address hi hj hk h]
  rfl

/-- A page stays where it is while it is filled with zeros. -/
theorem clearWords_address (hi : i < 1024) (hj : j < 1024) (hn : n ≤ 1024)
    (h : ∀ k ≤ n, walk (clearFirst s.memory f k) s.root i j = some f) :
    s.clearWords (address i j 0) n = some (s.withMemory (clearFirst s.memory f n)) := by
  induction n with
  | zero =>
      rw [clearWords, clearFirst_zero, withMemory_memory]
  | succ n ih =>
      have hfilled := ih (by omega) fun k hk => h k (by omega)
      have hnext : walk (s.withMemory (clearFirst s.memory f n)).memory
          (s.withMemory (clearFirst s.memory f n)).root i j = some f := h n (by omega)
      rw [clearWords, hfilled, Option.bind_eq_bind, Option.bind_some,
        add32_address hi hj (by omega), store_address hi hj (by omega) hnext, memory_withMemory,
        store_clearFirst]
      rfl

end State

/-! ## The tables -/

/-- What `PhysicalMgr::allocate_block` promises of the blocks that are not
null. -/
structure FreshBlocks (image : Image) (blocks : ℕ → ℕ) : Prop where
  lt : ∀ k, blocks k < 2 ^ 32
  aligned : ∀ k, blocks k % 4096 = 0
  distinct : ∀ k l, blocks k ≠ 0 → blocks k = blocks l → k = l
  apart : ∀ k, blocks k ≠ 0 →
    blocks k / 4096 ∉ [image.directoryFrame, image.etableFrame, image.bootFrame]

/-- The frame of no block, not even of the null block, is one of the arrays. -/
theorem FreshBlocks.frame_notMem {blocks : ℕ → ℕ} (h : FreshBlocks image blocks) (k : ℕ) :
    blocks k / 4096 ∉ [image.directoryFrame, image.etableFrame, image.bootFrame] := by
  by_cases hk : blocks k = 0
  · intro hmem
    have hlinked := image.linked _ hmem
    omega
  · exact h.apart k hk

/-- The table of a directory index. -/
def tableOf (image : Image) (m : Frames) (i : ℕ) : ℕ := frameOf (m image.etableFrame i)

def HasTable (image : Image) (m : Frames) (i : ℕ) : Prop :=
  isPresent (m image.etableFrame i) = true

/-- The entry that the tables give for page `j` of directory index `i`. -/
def lookup (image : Image) (m : Frames) (i j : ℕ) : Option ℕ :=
  if isPresent (m image.etableFrame i) then entryIn m (tableOf image m i) j else none

structure Tables (image : Image) (s : State) : Prop where
  agree : ∀ i < 1023, isPresent (s.memory image.directoryFrame i) =
    isPresent (s.memory image.etableFrame i)
  same : ∀ i < 1023, HasTable image s.memory i →
    isLarge (s.memory image.directoryFrame i) = false ∧
      isUser (s.memory image.directoryFrame i) = true ∧
      frameOf (s.memory image.directoryFrame i) = tableOf image s.memory i
  distinct : ∀ i < 1023, ∀ k < 1023, HasTable image s.memory i → HasTable image s.memory k →
    tableOf image s.memory i = tableOf image s.memory k → i = k
  apart : ∀ i < 1023, HasTable image s.memory i → tableOf image s.memory i ∉
    [image.directoryFrame, image.etableFrame, image.bootFrame]
  nonNull : ∀ i < 1023, HasTable image s.memory i → tableOf image s.memory i ≠ 0
  fresh : ∀ i < 1023, HasTable image s.memory i → ∀ k, s.blocks k ≠ 0 →
    s.blocks k / 4096 ≠ tableOf image s.memory i
  noWindow : ¬HasTable image s.memory 1023
  blocks : FreshBlocks image s.blocks

/-- The directory in use reaches the two arrays, and has the window. -/
structure Reach (image : Image) (s : State) : Prop where
  root : s.root = image.bootFrame ∧ isLarge (s.memory image.bootFrame 768) = true ∨
    s.root = image.directoryFrame
  kernel : ∀ k ∈ [image.directoryFrame, image.etableFrame],
    walk s.memory s.root 768 k = some k
  window : isPresent (s.memory s.root 1023) = true ∧ isLarge (s.memory s.root 1023) = false ∧
    frameOf (s.memory s.root 1023) = image.etableFrame

theorem directory_ne_etable (image : Image) : image.directoryFrame ≠ image.etableFrame := by
  have hdistinct := image.distinct
  simp only [List.nodup_cons, List.mem_cons, not_or] at hdistinct
  exact hdistinct.1.1

theorem directory_ne_boot (image : Image) : image.directoryFrame ≠ image.bootFrame := by
  have hdistinct := image.distinct
  simp only [List.nodup_cons, List.mem_cons, not_or] at hdistinct
  exact hdistinct.1.2.1

theorem etable_ne_boot (image : Image) : image.etableFrame ≠ image.bootFrame := by
  have hdistinct := image.distinct
  simp only [List.nodup_cons, List.mem_cons, not_or] at hdistinct
  exact hdistinct.2.1.1

theorem Reach.root_ne_etable (h : Reach image s) : s.root ≠ image.etableFrame := by
  rcases h.root with ⟨hroot, -⟩ | hroot
  · rw [hroot]
    exact (etable_ne_boot image).symm
  · rw [hroot]
    exact directory_ne_etable image

theorem Reach.root_mem (h : Reach image s) :
    s.root ∈ [image.directoryFrame, image.etableFrame, image.bootFrame] := by
  rcases h.root with ⟨hroot, -⟩ | hroot <;> simp [hroot]

/-- The window gives the tables. -/
theorem Reach.walk_window (h : Reach image s) (i : ℕ) :
    walk s.memory s.root 1023 i = pageIn s.memory image.etableFrame i := by
  obtain ⟨hpresent, hsmall, hframe⟩ := h.window
  rw [walk_of_table hpresent hsmall, hframe]

theorem Reach.walk_etable (h : Reach image s) :
    walk s.memory s.root 768 image.etableFrame = some image.etableFrame :=
  h.kernel _ (by simp)

/-! ## A new table -/

section NewTable

/-- Both arrays name a new table. -/
def named (image : Image) (m : Frames) (i block : ℕ) : Frames :=
  store (store m image.etableFrame i (PageTableEntry.create true true true block))
    image.directoryFrame i (PageDirectoryEntry.create true true true false block)

def withTable (image : Image) (s : State) (i : ℕ) : State :=
  { (s.withMemory (clearFirst (named image s.memory i (s.blocks 0)) (s.blocks 0 / 4096) 1024)) with
    blocks := fun k => s.blocks (k + 1) }

theorem named_etable (block : ℕ) : named image m i block image.etableFrame i =
    PageTableEntry.create true true true block := by
  rw [named, store_of_ne (directory_ne_etable image).symm, store_self]

theorem named_directory (block : ℕ) : named image m i block image.directoryFrame i =
    PageDirectoryEntry.create true true true false block := store_self

theorem named_of_ne (h : l ≠ i) (block g : ℕ) : named image m i block g l = m g l := by
  rw [named, store_of_ne_word h, store_of_ne_word h]

theorem named_of_ne_frame (block : ℕ) (hdirectory : g ≠ image.directoryFrame)
    (hetable : g ≠ image.etableFrame) : named image m i block g l = m g l := by
  rw [named, store_of_ne hdirectory, store_of_ne hetable]

variable (hblocks : FreshBlocks image s.blocks)

include hblocks

theorem block_ne_directory : s.blocks 0 / 4096 ≠ image.directoryFrame := by
  have hapart := hblocks.frame_notMem 0
  simp only [List.mem_cons, not_or] at hapart
  exact hapart.1

theorem block_ne_etable : s.blocks 0 / 4096 ≠ image.etableFrame := by
  have hapart := hblocks.frame_notMem 0
  simp only [List.mem_cons, not_or] at hapart
  exact hapart.2.1

theorem withTable_etable (l : ℕ) : (withTable image s i).memory image.etableFrame l =
    if l = i then PageTableEntry.create true true true (s.blocks 0)
    else s.memory image.etableFrame l := by
  have hne := block_ne_etable hblocks
  have hclear : (withTable image s i).memory image.etableFrame l =
      named image s.memory i (s.blocks 0) image.etableFrame l := clearFirst_of_ne hne.symm
  rw [hclear]
  split_ifs with hl
  · rw [hl, named_etable]
  · exact named_of_ne hl _ _

theorem withTable_directory (l : ℕ) : (withTable image s i).memory image.directoryFrame l =
    if l = i then PageDirectoryEntry.create true true true false (s.blocks 0)
    else s.memory image.directoryFrame l := by
  have hne := block_ne_directory hblocks
  have hclear : (withTable image s i).memory image.directoryFrame l =
      named image s.memory i (s.blocks 0) image.directoryFrame l := clearFirst_of_ne hne.symm
  rw [hclear]
  split_ifs with hl
  · rw [hl, named_directory]
  · exact named_of_ne hl _ _

omit hblocks in
/-- Frames other than the arrays and the new table keep their words. -/
theorem withTable_of_ne (hblock : g ≠ s.blocks 0 / 4096) (hdirectory : g ≠ image.directoryFrame)
    (hetable : g ≠ image.etableFrame) : (withTable image s i).memory g l = s.memory g l := by
  have hclear : (withTable image s i).memory g l = named image s.memory i (s.blocks 0) g l :=
    clearFirst_of_ne hblock
  rw [hclear, named_of_ne_frame _ hdirectory hetable]

omit hblocks in
theorem withTable_new (hl : l < 1024) :
    (withTable image s i).memory (s.blocks 0 / 4096) l = 0 := clearFirst_self hl

theorem hasTable_withTable (k : ℕ) : HasTable image (withTable image s i).memory k ↔
    k = i ∨ HasTable image s.memory k := by
  unfold HasTable
  rw [withTable_etable hblocks]
  by_cases hk : k = i
  · rw [if_pos hk]
    exact iff_of_true PagingEntry.isPresent_create (Or.inl hk)
  · rw [if_neg hk]
    exact ⟨Or.inr, fun h => h.resolve_left hk⟩

theorem tableOf_withTable_self : tableOf image (withTable image s i).memory i =
    s.blocks 0 / 4096 := by
  rw [tableOf, withTable_etable hblocks, if_pos rfl]
  exact PagingEntry.frameOf_create (hblocks.lt 0)

theorem tableOf_withTable_of_ne (h : k ≠ i) : tableOf image (withTable image s i).memory k =
    tableOf image s.memory k := by
  rw [tableOf, withTable_etable hblocks, if_neg h, tableOf]

end NewTable

theorem FreshBlocks.tail (h : FreshBlocks image s.blocks) :
    FreshBlocks image fun k => s.blocks (k + 1) where
  lt k := h.lt (k + 1)
  aligned k := h.aligned (k + 1)
  distinct k l hk heq := Nat.succ.inj (h.distinct (k + 1) (l + 1) hk heq)
  apart k := h.apart (k + 1)

theorem FreshBlocks.frame_ne (h : FreshBlocks image s.blocks) (hne : k ≠ l) (hk : s.blocks k ≠ 0) :
    s.blocks k / 4096 ≠ s.blocks l / 4096 := by
  intro heq
  have halignedk := h.aligned k
  have halignedl := h.aligned l
  exact hne (h.distinct k l hk (by omega))

/-- The next block is no table, even if it is null. -/
theorem Tables.block_ne_table (h : Tables image s) (hi : i < 1023)
    (htable : HasTable image s.memory i) : s.blocks 0 / 4096 ≠ tableOf image s.memory i := by
  by_cases hblock : s.blocks 0 = 0
  · rw [hblock]
    exact (h.nonNull i hi htable).symm
  · exact h.fresh i hi htable 0 hblock

theorem tables_withTable (h : Tables image s) (hi : i < 1023) (hblock : s.blocks 0 ≠ 0) :
    Tables image (withTable image s i) where
  agree k hk := by
    rw [withTable_directory h.blocks, withTable_etable h.blocks]
    split_ifs with hki
    · exact PagingEntry.isPresent_directory_create.trans PagingEntry.isPresent_create.symm
    · exact h.agree k hk
  same k hk htable := by
    rw [withTable_directory h.blocks]
    by_cases hki : k = i
    · rw [if_pos hki, hki, tableOf_withTable_self h.blocks]
      exact ⟨PagingEntry.isLarge_directory_create, PagingEntry.isUser_directory_create,
        PagingEntry.frameOf_directory_create (h.blocks.lt 0)⟩
    · rw [if_neg hki, tableOf_withTable_of_ne h.blocks hki]
      exact h.same k hk (((hasTable_withTable h.blocks k).mp htable).resolve_left hki)
  distinct k hk l hl hkt hlt heq := by
    have hnew : ∀ n < 1023, n ≠ i → HasTable image (withTable image s i).memory n →
        tableOf image (withTable image s i).memory n ≠ s.blocks 0 / 4096 := by
      intro n hn hni hnt
      rw [tableOf_withTable_of_ne h.blocks hni]
      exact (h.block_ne_table hn (((hasTable_withTable h.blocks n).mp hnt).resolve_left hni)).symm
    by_cases hki : k = i
    · by_cases hli : l = i
      · rw [hki, hli]
      · rw [hki, tableOf_withTable_self h.blocks] at heq
        exact absurd heq.symm (hnew l hl hli hlt)
    · by_cases hli : l = i
      · rw [hli, tableOf_withTable_self h.blocks] at heq
        exact absurd heq (hnew k hk hki hkt)
      · rw [tableOf_withTable_of_ne h.blocks hki,
          tableOf_withTable_of_ne h.blocks hli] at heq
        exact h.distinct k hk l hl (((hasTable_withTable h.blocks k).mp hkt).resolve_left hki)
          (((hasTable_withTable h.blocks l).mp hlt).resolve_left hli) heq
  apart k hk htable := by
    by_cases hki : k = i
    · rw [hki, tableOf_withTable_self h.blocks]
      exact h.blocks.frame_notMem 0
    · rw [tableOf_withTable_of_ne h.blocks hki]
      exact h.apart k hk (((hasTable_withTable h.blocks k).mp htable).resolve_left hki)
  nonNull k hk htable := by
    by_cases hki : k = i
    · have haligned := h.blocks.aligned 0
      rw [hki, tableOf_withTable_self h.blocks]
      omega
    · rw [tableOf_withTable_of_ne h.blocks hki]
      exact h.nonNull k hk (((hasTable_withTable h.blocks k).mp htable).resolve_left hki)
  fresh k hk htable n hn := by
    have hlater : s.blocks (n + 1) ≠ 0 := hn
    by_cases hki : k = i
    · rw [hki, tableOf_withTable_self h.blocks]
      exact h.blocks.frame_ne (Nat.succ_ne_zero n) hlater
    · rw [tableOf_withTable_of_ne h.blocks hki]
      exact h.fresh k hk (((hasTable_withTable h.blocks k).mp htable).resolve_left hki)
        (n + 1) hlater
  noWindow := by
    rw [hasTable_withTable h.blocks]
    exact not_or.mpr ⟨hi.ne', h.noWindow⟩
  blocks := h.blocks.tail

/-- The table of the kernel itself, if there is one, is apart. -/
theorem Reach.kernel_table (hr : Reach image s) (h : Tables image s) :
    s.root = image.bootFrame ∧ isLarge (s.memory s.root 768) = true ∨
      s.root = image.directoryFrame ∧ HasTable image s.memory 768 ∧
        frameOf (s.memory s.root 768) = tableOf image s.memory 768 := by
  rcases hr.root with ⟨hroot, hlarge⟩ | hroot
  · left
    rw [hroot]
    exact ⟨rfl, hlarge⟩
  · right
    have hpresent : isPresent (s.memory s.root 768) = true := by
      by_contra hnot
      have hnone : walk s.memory s.root 768 image.etableFrame = none :=
        walk_of_not_present (by simpa using hnot)
      rw [hr.walk_etable] at hnone
      exact Option.some_ne_none _ hnone
    have htable : HasTable image s.memory 768 := by
      rw [hroot, h.agree 768 (by decide)] at hpresent
      exact hpresent
    refine ⟨hroot, htable, ?_⟩
    rw [hroot]
    exact (h.same 768 (by decide) htable).2.2

theorem ne_of_mem_of_notMem {l : List ℕ} (hf : f ∈ l) (hg : g ∉ l) : f ≠ g := by
  rintro rfl
  exact hg hf

/-- A change elsewhere keeps what the kernel reaches. -/
theorem Reach.of_frames (hr : Reach image s) (hroot : t.root = s.root)
    (hdir : t.memory s.root 768 = s.memory s.root 768)
    (hwindow : t.memory s.root 1023 = s.memory s.root 1023)
    (htable : isLarge (s.memory s.root 768) = true ∨
      ∀ k ∈ [image.directoryFrame, image.etableFrame],
        t.memory (frameOf (s.memory s.root 768)) k =
          s.memory (frameOf (s.memory s.root 768)) k) : Reach image t where
  root := by
    rw [hroot]
    rcases hr.root with ⟨hboot, hlarge⟩ | hdirectory
    · rw [hboot] at hdir
      exact Or.inl ⟨hboot, by rwa [hdir]⟩
    · exact Or.inr hdirectory
  kernel k hk := by
    rw [hroot, walk_congr hdir (htable.imp_right fun h => h k hk)]
    exact hr.kernel k hk
  window := by
    rw [hroot, hwindow]
    exact hr.window

/-- A change that keeps the table of the kernel keeps what is reached. -/
theorem Reach.of_kernel_table (hr : Reach image s) (h : Tables image s) (hroot : t.root = s.root)
    (hdir : t.memory s.root 768 = s.memory s.root 768)
    (hwindow : t.memory s.root 1023 = s.memory s.root 1023)
    (hkept : HasTable image s.memory 768 → tableOf image s.memory 768 ≠ image.directoryFrame →
      tableOf image s.memory 768 ≠ image.etableFrame → ∀ k,
        t.memory (tableOf image s.memory 768) k = s.memory (tableOf image s.memory 768) k) :
    Reach image t := by
  apply hr.of_frames hroot hdir hwindow
  rcases hr.kernel_table h with ⟨-, hlarge⟩ | ⟨-, htable, hframe⟩
  · exact Or.inl hlarge
  · have hapart := h.apart 768 (by decide) htable
    simp only [List.mem_cons, not_or] at hapart
    rw [hframe]
    exact Or.inr fun k _ => hkept htable hapart.1 hapart.2.1 k

theorem reach_withTable (hr : Reach image s) (h : Tables image s) (hi : i < 1023)
    (hfree : ¬HasTable image s.memory i) :
    Reach image (withTable image s i) := by
  have hrootblock : s.root ≠ s.blocks 0 / 4096 :=
    ne_of_mem_of_notMem hr.root_mem (h.blocks.frame_notMem 0)
  have hword : ∀ k, k ≠ i ∨ s.root ≠ image.directoryFrame →
      (withTable image s i).memory s.root k = s.memory s.root k := by
    intro k hk
    by_cases hroot : s.root = image.directoryFrame
    · rw [hroot, withTable_directory h.blocks,
        if_neg (hk.resolve_right (not_not.mpr hroot))]
    · exact withTable_of_ne hrootblock hroot hr.root_ne_etable
  have hkernel : 768 ≠ i ∨ s.root ≠ image.directoryFrame := by
    rcases hr.kernel_table h with ⟨hboot, -⟩ | ⟨-, htable, -⟩
    · right
      rw [hboot]
      exact (directory_ne_boot image).symm
    · left
      rintro rfl
      exact hfree htable
  refine hr.of_kernel_table h rfl (hword 768 hkernel) (hword 1023 (Or.inl hi.ne')) ?_
  intro htable hdirectory hetable k
  exact withTable_of_ne (h.block_ne_table (by decide) htable).symm hdirectory hetable

/-! ## A new page -/

def withPage (image : Image) (s : State) (i j e : ℕ) : State :=
  s.withMemory (store s.memory (tableOf image s.memory i) j e)

theorem withPage_of_ne (h : g ≠ tableOf image s.memory i) :
    (withPage image s i j e).memory g l = s.memory g l := store_of_ne h

section NewPage

variable (h : Tables image s) (hi : i < 1023) (htable : HasTable image s.memory i)

include h hi htable

theorem withPage_reserved (hg : g ∈ [image.directoryFrame, image.etableFrame, image.bootFrame]) :
    (withPage image s i j e).memory g l = s.memory g l :=
  withPage_of_ne (ne_of_mem_of_notMem hg (h.apart i hi htable))

theorem withPage_etable : (withPage image s i j e).memory image.etableFrame l =
    s.memory image.etableFrame l := withPage_reserved h hi htable (by simp)

theorem withPage_directory : (withPage image s i j e).memory image.directoryFrame l =
    s.memory image.directoryFrame l := withPage_reserved h hi htable (by simp)

theorem tableOf_withPage (k : ℕ) :
    tableOf image (withPage image s i j e).memory k = tableOf image s.memory k := by
  rw [tableOf, withPage_etable h hi htable, tableOf]

theorem hasTable_withPage (k : ℕ) :
    HasTable image (withPage image s i j e).memory k ↔ HasTable image s.memory k := by
  rw [HasTable, withPage_etable h hi htable, HasTable]

theorem tables_withPage : Tables image (withPage image s i j e) where
  agree k hk := by
    rw [withPage_etable h hi htable, withPage_directory h hi htable]
    exact h.agree k hk
  same k hk hkt := by
    rw [withPage_directory h hi htable, tableOf_withPage h hi htable]
    exact h.same k hk ((hasTable_withPage h hi htable k).mp hkt)
  distinct k hk l hl hkt hlt heq := by
    rw [tableOf_withPage h hi htable, tableOf_withPage h hi htable] at heq
    exact h.distinct k hk l hl ((hasTable_withPage h hi htable k).mp hkt)
      ((hasTable_withPage h hi htable l).mp hlt) heq
  apart k hk hkt := by
    rw [tableOf_withPage h hi htable]
    exact h.apart k hk ((hasTable_withPage h hi htable k).mp hkt)
  nonNull k hk hkt := by
    rw [tableOf_withPage h hi htable]
    exact h.nonNull k hk ((hasTable_withPage h hi htable k).mp hkt)
  fresh k hk hkt := by
    rw [tableOf_withPage h hi htable]
    exact h.fresh k hk ((hasTable_withPage h hi htable k).mp hkt)
  noWindow := by
    rw [hasTable_withPage h hi htable]
    exact h.noWindow
  blocks := h.blocks

/-- Through the directory of the boot the kernel keeps its arrays whatever is
mapped; through its own it keeps them unless one of them is moved. -/
theorem reach_withPage (hr : Reach image s) (he : isPresent e = true)
    (hkernel : s.root = image.bootFrame ∨ i ≠ 768 ∨
      j ∉ [image.directoryFrame, image.etableFrame] ∨ frameOf e = j) :
    Reach image (withPage image s i j e) := by
  have hdir : ∀ k, (withPage image s i j e).memory s.root k = s.memory s.root k := fun k =>
    withPage_reserved h hi htable hr.root_mem
  by_cases hmoved : s.root = image.directoryFrame ∧ i = 768 ∧ frameOf e = j
  · obtain ⟨hroot, hi768, hframe⟩ := hmoved
    rcases hr.kernel_table h with ⟨hboot, -⟩ | ⟨-, hkt, hentry⟩
    · exact absurd (hroot.symm.trans hboot) (directory_ne_boot image)
    · have hroot' : (withPage image s i j e).root = s.root := rfl
      have htable768 : frameOf (s.memory s.root 768) = tableOf image s.memory i := by
        rw [hentry, hi768]
      have hsmall : isLarge (s.memory s.root 768) = false := by
        rw [hroot]
        exact (h.same 768 (by decide) hkt).1
      have hpresent : isPresent (s.memory s.root 768) = true := by
        rw [hroot, h.agree 768 (by decide)]
        exact hkt
      refine ⟨Or.inr hroot, fun k hk => ?_, by rw [hroot', hdir]; exact hr.window⟩
      by_cases hkj : k = j
      · have hself : (withPage image s i j e).memory (tableOf image s.memory i) j = e := store_self
        rw [hroot', walk_of_table (by rwa [hdir]) (by rwa [hdir]), hdir, htable768, hkj, pageIn,
          entryIn, hself, if_pos he, Option.map_some, hframe]
      · have hkeep : (withPage image s i j e).memory (tableOf image s.memory i) k =
            s.memory (tableOf image s.memory i) k := store_of_ne_word hkj
        rw [hroot', walk_congr (hdir 768) (Or.inr (by rw [htable768, hkeep]))]
        exact hr.kernel k hk
  · refine hr.of_frames rfl (hdir 768) (hdir 1023) ?_
    rcases hr.kernel_table h with ⟨-, hlarge⟩ | ⟨hroot, hkt, hframe⟩
    · exact Or.inl hlarge
    · right
      intro k hk
      rw [hframe]
      by_cases hne : i = 768
      · rcases hkernel with hboot | hi768 | hj | hentry
        · exact absurd (hroot.symm.trans hboot) (directory_ne_boot image)
        · exact absurd hne hi768
        · exact store_of_ne_word (ne_of_mem_of_notMem hk hj)
        · exact absurd ⟨hroot, hne, hentry⟩ hmoved
      · apply withPage_of_ne
        intro heq
        exact hne (h.distinct 768 (by decide) i hi hkt htable heq).symm

end NewPage

/-! ## What the tables give -/

/-- A new table gives no page. -/
theorem lookup_withTable (h : Tables image s) (hfree : ¬HasTable image s.memory i)
    (hk : k < 1023) (hl : l < 1024) :
    lookup image (withTable image s i).memory k l = lookup image s.memory k l := by
  by_cases hki : k = i
  · have hnew : isPresent ((withTable image s i).memory image.etableFrame i) = true :=
      (hasTable_withTable h.blocks i).mpr (Or.inl rfl)
    have hfree' : isPresent (s.memory image.etableFrame i) = false := by
      simpa [HasTable] using hfree
    have hzero : isPresent ((withTable image s i).memory (s.blocks 0 / 4096) l) = false := by
      rw [withTable_new hl]
      rfl
    rw [lookup, lookup, hki, hnew, hfree', tableOf_withTable_self h.blocks, if_pos rfl,
      entryIn_of_not_present hzero]
    rfl
  · by_cases hkt : HasTable image s.memory k
    · have hapart := h.apart k hk hkt
      simp only [List.mem_cons, not_or] at hapart
      have hword : (withTable image s i).memory (tableOf image s.memory k) l =
          s.memory (tableOf image s.memory k) l :=
        withTable_of_ne (h.block_ne_table hk hkt).symm hapart.1 hapart.2.1
      rw [lookup, lookup, withTable_etable h.blocks, if_neg hki,
        tableOf_withTable_of_ne h.blocks hki, entryIn_congr hword]
    · have hnone : isPresent (s.memory image.etableFrame k) = false := by
        simpa [HasTable] using hkt
      rw [lookup, lookup, withTable_etable h.blocks, if_neg hki, hnone]
      rfl

/-- A new page gives its frame, and the others give what they gave. -/
theorem lookup_withPage (h : Tables image s) (hi : i < 1023) (htable : HasTable image s.memory i)
    (he : isPresent e = true) (hk : k < 1023) :
    lookup image (withPage image s i j e).memory k l =
      if k = i ∧ l = j then some e else lookup image s.memory k l := by
  rw [lookup, withPage_etable h hi htable, tableOf_withPage h hi htable]
  by_cases hki : k = i
  · have hpresent : isPresent (s.memory image.etableFrame i) = true := htable
    by_cases hlj : l = j
    · have hself : (withPage image s i j e).memory (tableOf image s.memory i) j = e := store_self
      have hboth : k = i ∧ l = j := ⟨hki, hlj⟩
      rw [if_pos hboth, hki, hlj, hpresent, if_pos rfl, entryIn, hself, if_pos he]
    · have hkeep : (withPage image s i j e).memory (tableOf image s.memory i) l =
          s.memory (tableOf image s.memory i) l := store_of_ne_word hlj
      have hnot : ¬(k = i ∧ l = j) := fun hboth => hlj hboth.2
      rw [if_neg hnot, hki, entryIn_congr hkeep, lookup]
  · have hnot : ¬(k = i ∧ l = j) := fun hboth => hki hboth.1
    rw [if_neg hnot, lookup]
    by_cases hkt : HasTable image s.memory k
    · have hne : tableOf image s.memory k ≠ tableOf image s.memory i := fun heq =>
        hki (h.distinct k hk i hi hkt htable heq)
      rw [entryIn_congr (withPage_of_ne hne)]
    · have hnone : isPresent (s.memory image.etableFrame k) = false := by
        simpa [HasTable] using hkt
      rw [hnone]
      rfl

/-! ## One mapping -/

/-- What a mapping does. -/
def mapped (image : Image) (s : State) (i j e : ℕ) : State :=
  if isPresent (s.memory image.etableFrame i) then withPage image s i j e
  else withPage image (withTable image s i) i j e

/-- Naming the table in the first array keeps what the kernel reaches. -/
theorem reach_etable (hr : Reach image s) (h : Tables image s) (w : ℕ) :
    Reach image (s.withMemory (store s.memory image.etableFrame i w)) := by
  have hne := hr.root_ne_etable
  refine hr.of_kernel_table h rfl (store_of_ne hne) (store_of_ne hne) ?_
  intro _ _ hetable k
  exact store_of_ne hetable

/-- A table that both arrays name is in the window while it is filled. -/
theorem walk_named (hr : Reach image s) (hi : i < 1023) (hblocks : FreshBlocks image s.blocks)
    (n : ℕ) :
    walk (clearFirst (named image s.memory i (s.blocks 0)) (s.blocks 0 / 4096) n) s.root 1023 i =
      some (s.blocks 0 / 4096) := by
  have hrootblock : s.root ≠ s.blocks 0 / 4096 :=
    ne_of_mem_of_notMem hr.root_mem (hblocks.frame_notMem 0)
  have hetable : image.etableFrame ≠ s.blocks 0 / 4096 := (block_ne_etable hblocks).symm
  obtain ⟨hpresent, hsmall, hframe⟩ := hr.window
  have hdir : clearFirst (named image s.memory i (s.blocks 0)) (s.blocks 0 / 4096) n s.root 1023 =
      s.memory s.root 1023 := by
    rw [clearFirst_of_ne hrootblock, named_of_ne hi.ne']
  have hentry : clearFirst (named image s.memory i (s.blocks 0)) (s.blocks 0 / 4096) n
      image.etableFrame i = PageTableEntry.create true true true (s.blocks 0) := by
    rw [clearFirst_of_ne hetable, named_etable]
  have hpresent' : isPresent (PageTableEntry.create true true true (s.blocks 0)) = true :=
    PagingEntry.isPresent_create
  rw [walk_of_table (by rwa [hdir]) (by rwa [hdir]), hdir, hframe, pageIn, entryIn, hentry,
    if_pos hpresent', Option.map_some]
  exact congrArg some (PagingEntry.frameOf_create (hblocks.lt 0))

/-- The state in which the words of the new table are not yet cleared. -/
def withNamed (image : Image) (s : State) (i : ℕ) : State :=
  { (s.withMemory (named image s.memory i (s.blocks 0))) with blocks := fun k => s.blocks (k + 1) }

/-- A new table is named by both arrays, and then filled with zeros. -/
theorem createTable_eq_clear (hr : Reach image s) (h : Tables image s) (hi : i < 1024) :
    createTable image s i = (withNamed image s i).clearWords (address 1023 i 0) 1024 := by
  obtain ⟨s₀, hs₀⟩ : ∃ s₀ : State, s₀ = { s with blocks := fun k => s.blocks (k + 1) } := ⟨_, rfl⟩
  have hmemory : s₀.memory = s.memory := by rw [hs₀]; rfl
  have hroot : s₀.root = s.root := by rw [hs₀]; rfl
  have hetable : walk s₀.memory s₀.root 768 image.etableFrame = some image.etableFrame := by
    rw [hmemory, hroot]
    exact hr.walk_etable
  have hdirectory : walk (s₀.withMemory (store s₀.memory image.etableFrame i
      (PageTableEntry.create true true true (s.blocks 0)))).memory s₀.root 768
        image.directoryFrame = some image.directoryFrame := by
    rw [hmemory, hroot]
    exact (reach_etable hr h _).kernel _ (by simp)
  have hallocate : s.allocateBlock = (s.blocks 0, s₀) := by rw [hs₀]; rfl
  unfold createTable
  rw [hallocate]
  dsimp only
  rw [pageEtable_add, pageDirectory_add, getPageTableVirtualAddress_eq hi,
    State.store_address (by decide) image.etable_lt hi hetable, Option.bind_eq_bind,
    Option.bind_some, State.store_address (by decide) image.directory_lt hi hdirectory,
    Option.bind_some, hs₀]
  rfl

theorem createTable_eq (hr : Reach image s) (h : Tables image s) (hi : i < 1023) :
    createTable image s i = some (withTable image s i) := by
  have hi' : i < 1024 := by omega
  have hwindow : ∀ n ≤ 1024, walk (clearFirst (withNamed image s i).memory (s.blocks 0 / 4096) n)
      (withNamed image s i).root 1023 i = some (s.blocks 0 / 4096) := fun n _ =>
    walk_named hr hi h.blocks n
  rw [createTable_eq_clear hr h hi', State.clearWords_address (by decide) hi' le_rfl hwindow]
  rfl

theorem storePage_eq (hr : Reach image s) (hi : i < 1023) (hj : j < 1024)
    (htable : HasTable image s.memory i) (e : ℕ) :
    s.store (getPageTableVirtualAddress i + 4 * j) e = some (withPage image s i j e) := by
  have hi' : i < 1024 := by omega
  have hwalk : walk s.memory s.root 1023 i = some (tableOf image s.memory i) := by
    rw [hr.walk_window, pageIn_of_present htable, tableOf]
  have haddress : getPageTableVirtualAddress i + 4 * j = address 1023 i j := by
    rw [getPageTableVirtualAddress_eq hi']
    rfl
  rw [haddress, State.store_address (by decide) hi' hj hwalk, withPage]

theorem map_eq_bind (hr : Reach image s) (hv : v % pageSize = 0) (hp : p % pageSize = 0) :
    map image s v p b =
      (if isPresent (s.memory image.etableFrame (getPageDirectoryIndex v)) then some s
        else createTable image s (getPageDirectoryIndex v)).bind fun s =>
          s.store (getPageTableVirtualAddress (getPageDirectoryIndex v) + 4 * getPageTableIndex v)
            (PageTableEntry.create true true b p) := by
  have hi := getPageDirectoryIndex_lt v
  have hetable : s.load (pageEtable image + 4 * getPageDirectoryIndex v) =
      some (s.memory image.etableFrame (getPageDirectoryIndex v)) := by
    rw [pageEtable_add, State.load_address (by decide) image.etable_lt hi hr.walk_etable]
  have hpresent : PagingEntry.getPresent (s.memory image.etableFrame (getPageDirectoryIndex v)) =
      isPresent (s.memory image.etableFrame (getPageDirectoryIndex v)) :=
    PagingEntry.test_eq (by decide)
  unfold map
  rw [if_neg (not_not.mpr hv), if_neg (not_not.mpr hp)]
  dsimp only
  rw [hetable]
  simp only [Option.bind_eq_bind, Option.bind_some, hpresent]
  split_ifs <;> rfl

theorem map_eq (hr : Reach image s) (h : Tables image s) (hv : v % pageSize = 0)
    (hp : p % pageSize = 0) (hi : getPageDirectoryIndex v < 1023) :
    map image s v p b = some (mapped image s (getPageDirectoryIndex v) (getPageTableIndex v)
      (PageTableEntry.create true true b p)) := by
  have hj : getPageTableIndex v < 1024 := getPageTableIndex_lt v
  rw [map_eq_bind hr hv hp, mapped]
  by_cases htable : isPresent (s.memory image.etableFrame (getPageDirectoryIndex v)) = true
  · rw [if_pos htable, if_pos htable, Option.bind_some, storePage_eq hr hi hj htable]
  · have hcreated : HasTable image (withTable image s (getPageDirectoryIndex v)).memory
        (getPageDirectoryIndex v) := (hasTable_withTable h.blocks _).mpr (Or.inl rfl)
    rw [if_neg htable, if_neg htable, createTable_eq hr h hi, Option.bind_some,
      storePage_eq (reach_withTable hr h hi htable) hi hj hcreated]

/-- Tables stay where they are, and frames that are not tables keep their words. -/
structure Extends (image : Image) (s t : State) : Prop where
  hasTable : ∀ k, HasTable image s.memory k → HasTable image t.memory k
  tableOf : ∀ k, HasTable image s.memory k →
    VirtualMgr.tableOf image t.memory k = VirtualMgr.tableOf image s.memory k
  others : ∀ g ∉ [image.directoryFrame, image.etableFrame],
    (∀ k < 1023, HasTable image t.memory k → VirtualMgr.tableOf image t.memory k ≠ g) →
      ∀ l, t.memory g l = s.memory g l

theorem Extends.refl (image : Image) (s : State) : Extends image s s :=
  ⟨fun _ hk => hk, fun _ _ => rfl, fun _ _ _ _ => rfl⟩

theorem Extends.trans (hst : Extends image s t) (htu : Extends image t u) : Extends image s u where
  hasTable k hk := htu.hasTable k (hst.hasTable k hk)
  tableOf k hk := (htu.tableOf k (hst.hasTable k hk)).trans (hst.tableOf k hk)
  others g hg hfree l := by
    refine (htu.others g hg hfree l).trans (hst.others g hg (fun k hk htable => ?_) l)
    rw [← htu.tableOf k htable]
    exact hfree k hk (htu.hasTable k htable)

/-- What a mapping keeps, and what the tables give after it. -/
structure MapSpec (image : Image) (s t : State) (i j e : ℕ) : Prop where
  tables : Tables image t
  reach : s.root = image.bootFrame ∨ i ≠ 768 ∨
    j ∉ [image.directoryFrame, image.etableFrame] ∨ frameOf e = j → Reach image t
  root : t.root = s.root
  blocksKept : HasTable image s.memory i → t.blocks = s.blocks
  blocksTaken : ¬HasTable image s.memory i → t.blocks = fun k => s.blocks (k + 1)
  hasTable : ∀ k, HasTable image t.memory k ↔ k = i ∨ HasTable image s.memory k
  lookup : ∀ k < 1023, ∀ l < 1024, VirtualMgr.lookup image t.memory k l =
    if k = i ∧ l = j then some e else VirtualMgr.lookup image s.memory k l
  keeps : Extends image s t

theorem mapSpec_mapped (hr : Reach image s) (h : Tables image s) (hi : i < 1023)
    (he : isPresent e = true) (hblock : HasTable image s.memory i ∨ s.blocks 0 ≠ 0) :
    MapSpec image s (mapped image s i j e) i j e := by
  unfold mapped
  by_cases htable : isPresent (s.memory image.etableFrame i) = true
  · rw [if_pos htable]
    exact {
      tables := tables_withPage h hi htable
      reach := reach_withPage h hi htable hr he
      root := rfl
      blocksKept := fun _ => rfl
      blocksTaken := fun hnot => absurd htable hnot
      hasTable := fun k => by
        rw [hasTable_withPage h hi htable]
        refine ⟨Or.inr, ?_⟩
        rintro (rfl | hk)
        · exact htable
        · exact hk
      lookup := fun k hk l _ => lookup_withPage h hi htable he hk
      keeps := {
        hasTable := fun k hk => (hasTable_withPage h hi htable k).mpr hk
        tableOf := fun k _ => tableOf_withPage h hi htable k
        others := fun g _ hfree l => by
          apply withPage_of_ne
          rw [← tableOf_withPage h hi htable]
          exact (hfree i hi ((hasTable_withPage h hi htable i).mpr htable)).symm } }
  · have hnull : s.blocks 0 ≠ 0 := hblock.resolve_left htable
    have hcreated : HasTable image (withTable image s i).memory i :=
      (hasTable_withTable h.blocks i).mpr (Or.inl rfl)
    have hnext := tables_withTable h hi hnull
    have hreach := reach_withTable hr h hi htable
    rw [if_neg htable]
    exact {
      tables := tables_withPage hnext hi hcreated
      reach := reach_withPage hnext hi hcreated hreach he
      root := rfl
      blocksKept := fun hsome => absurd hsome htable
      blocksTaken := fun _ => rfl
      hasTable := fun k => by
        rw [hasTable_withPage hnext hi hcreated, hasTable_withTable h.blocks]
      lookup := fun k hk l hl => by
        rw [lookup_withPage hnext hi hcreated he hk, lookup_withTable h htable hk hl]
      keeps := {
        hasTable := fun k hk => (hasTable_withPage hnext hi hcreated k).mpr
          ((hasTable_withTable h.blocks k).mpr (Or.inr hk))
        tableOf := fun k hk => by
          have hki : k ≠ i := by
            rintro rfl
            exact htable hk
          rw [tableOf_withPage hnext hi hcreated, tableOf_withTable_of_ne h.blocks hki]
        others := fun g hg hfree l => by
          have hne := hfree i hi ((hasTable_withPage hnext hi hcreated i).mpr hcreated)
          rw [tableOf_withPage hnext hi hcreated] at hne
          simp only [List.mem_cons, List.not_mem_nil, or_false, not_or] at hg
          rw [withPage_of_ne hne.symm]
          rw [tableOf_withTable_self h.blocks] at hne
          exact withTable_of_ne hne.symm hg.1 hg.2 } }

/-- A mapping. -/
theorem map_spec (hr : Reach image s) (h : Tables image s) (hv : v % pageSize = 0)
    (hp : p % pageSize = 0) (hi : getPageDirectoryIndex v < 1023)
    (hblock : HasTable image s.memory (getPageDirectoryIndex v) ∨ s.blocks 0 ≠ 0) (b : Bool) :
    ∃ t, map image s v p b = some t ∧ MapSpec image s t (getPageDirectoryIndex v)
      (getPageTableIndex v) (PageTableEntry.create true true b p) :=
  ⟨_, map_eq hr h hv hp hi, mapSpec_mapped hr h hi PagingEntry.isPresent_create hblock⟩

end AviKernel.VirtualMgr
