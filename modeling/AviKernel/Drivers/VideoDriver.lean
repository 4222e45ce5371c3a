import AviKernel.Memory.Heap
import AviKernel.Memory.VirtualProtection

/-!
# The video driver

The framebuffer of the bootloader is mapped below the heap, in eight megabytes
that nothing else uses.  Its size is a product of two words of 32 bits, which is
widened after it has wrapped.
-/

namespace AviKernel.VideoDriver

open Paging VirtualMgr

def framebufAvail : UInt32 := (1 : UInt32) <<< 12

def videoMemoryAddr : UInt32 := 0xC0400000

/-- What the driver reads of the information of the bootloader. -/
structure MultibootInfo where
  flags : UInt32
  framebufferAddr : UInt64
  framebufferPitch : UInt32
  framebufferWidth : UInt32
  framebufferHeight : UInt32
  framebufferBpp : UInt8
  framebufferType : UInt8
  framebufferRedFieldPosition : UInt8
  framebufferGreenFieldPosition : UInt8
  framebufferBlueFieldPosition : UInt8

namespace MultibootInfo

variable (info : MultibootInfo)

def exist : Bool :=
  if info.flags &&& framebufAvail = 0 then false
  else if info.framebufferType ≠ 1 then false
  else if info.framebufferBpp ≠ 32 then false
  else true

/-- The product has 32 bits. -/
def framebufferSize : ℕ := (info.framebufferPitch * info.framebufferHeight).toNat

def framebufferFrames : ℕ := (info.framebufferSize + pageSize - 1) / pageSize

def setupDriverAndDevice (image : Image) (s : State) : Option State :=
  mapRange image s videoMemoryAddr.toNat info.framebufferAddr.toUInt32.toNat
    info.framebufferFrames true

def pixel (r g b : UInt8) : UInt32 :=
  let pixel := 0
  let pixel := pixel ||| r.toUInt32 <<< info.framebufferRedFieldPosition.toUInt32
  let pixel := pixel ||| g.toUInt32 <<< info.framebufferGreenFieldPosition.toUInt32
  pixel ||| b.toUInt32 <<< info.framebufferBlueFieldPosition.toUInt32

/-- The word of a pixel in the framebuffer. -/
def pixelIndex (x y : UInt32) : UInt32 := y * (info.framebufferPitch / 4) + x

def putPixel (s : State) (x y : UInt32) (r g b : UInt8) : Option State :=
  s.store (videoMemoryAddr + 4 * info.pixelIndex x y).toNat (info.pixel r g b).toNat

/-! ## The pages -/

/-- The bytes of the framebuffer. -/
def bytes : ℕ := info.framebufferPitch.toNat * info.framebufferHeight.toNat

/-- The pages that are mapped. -/
def pages : List Single :=
  range videoMemoryAddr info.framebufferAddr.toUInt32 true info.framebufferFrames

/-- The first page of the video memory. -/
def firstPage : ℕ := videoMemoryAddr.toNat / pageSize

/-- The first page of the heap. -/
def heapPage : ℕ := Heap.heapStartAddr / pageSize

/-- The pages are in the video memory, and there are enough of them. -/
structure Fits : Prop where
  inside : ∀ c ∈ info.pages, firstPage ≤ c.page ∧ c.page < heapPage
  enough : ∀ n < info.bytes, ∃ c ∈ info.pages, c.page = firstPage + n / pageSize

variable {info} {image : Image} {s s₀ t : State} {allPages : Pages} {n page : ℕ}

theorem framebufferSize_eq (h : info.bytes ≤ 0x800000) : info.framebufferSize = info.bytes := by
  have hmul : (info.framebufferPitch * info.framebufferHeight).toNat = info.bytes % 2 ^ 32 :=
    UInt32.toNat_mul _ _
  rw [framebufferSize, hmul]
  omega

theorem framebufferFrames_le (h : info.bytes ≤ 0x800000) : info.framebufferFrames ≤ 2048 := by
  rw [framebufferFrames, framebufferSize_eq h]
  unfold pageSize
  omega

theorem lt_framebufferFrames (h : info.bytes ≤ 0x800000) (hn : n < info.bytes) :
    n / pageSize < info.framebufferFrames := by
  rw [framebufferFrames, framebufferSize_eq h]
  unfold pageSize
  omega

theorem firstPage_add : firstPage + 2048 = heapPage := by decide

theorem range_le (h : info.bytes ≤ 0x800000) :
    videoMemoryAddr.toNat + pageSize * info.framebufferFrames ≤ 2 ^ 32 := by
  have hle := framebufferFrames_le h
  have haddr : videoMemoryAddr.toNat = 0xC0400000 := by decide
  rw [haddr]
  unfold pageSize
  omega

theorem toUInt32_aligned (haligned : info.framebufferAddr.toNat % pageSize = 0) :
    info.framebufferAddr.toUInt32.toNat % pageSize = 0 := by
  have hlow : info.framebufferAddr.toUInt32.toNat = info.framebufferAddr.toNat % 2 ^ 32 :=
    UInt64.toNat_toUInt32 _
  rw [hlow]
  unfold pageSize at *
  omega

theorem fits_of_bytes_le (haligned : info.framebufferAddr.toNat % pageSize = 0)
    (h : info.bytes ≤ 0x800000) : info.Fits where
  inside c hc := by
    obtain ⟨-, hfirst, hlast⟩ := mem_range (by decide) (toUInt32_aligned haligned) (range_le h) hc
    have hle := framebufferFrames_le h
    have hheap := firstPage_add
    unfold firstPage at hheap ⊢
    omega
  enough n hn := exists_mem_range (by decide) (range_le h) (lt_framebufferFrames h hn)

/-- The byte after the video memory is in the first page of the heap. -/
theorem bytes_le_of_fits (h : info.Fits) : info.bytes ≤ 0x800000 := by
  by_contra hlarge
  obtain ⟨c, hc, hpage⟩ := h.enough 0x800000 (by omega)
  obtain ⟨-, hlt⟩ := h.inside c hc
  have hheap : firstPage + 0x800000 / pageSize = heapPage := by decide
  omega

/-! ## The heap and the pixels -/

variable (info) in
/-- The pages outside the video memory are where they were, and each pixel is put into the
frames from the low 32 bits of `framebuffer_addr` on. -/
structure Undisturbed (s t : State) : Prop where
  others : ∀ page < 1024 * 1023, page < firstPage ∨ heapPage ≤ page →
    t.walkPage page = s.walkPage page
  pixel : ∀ x y r g b, x < info.framebufferWidth →
    info.framebufferWidth ≤ info.framebufferPitch / 4 → y < info.framebufferHeight →
      ∃ n < info.bytes, info.putPixel t x y r g b = some (t.withMemory (store t.memory
        ((info.framebufferAddr.toUInt32.toNat / pageSize + n / pageSize) % 2 ^ 20)
        (n % pageSize / 4) (info.pixel r g b).toNat))

theorem allowed_pages (haligned : info.framebufferAddr.toNat % pageSize = 0)
    (h : info.bytes ≤ 0x800000) {c : Single} (hc : c ∈ info.pages) : Allowed c := by
  have hpages := (fits_of_bytes_le haligned h).inside c hc
  have hfirst : firstPage = 0xC0400 := by decide
  have hheap : heapPage = 0xC0C00 := by decide
  have hindex := index_eq c
  refine ⟨(mem_range (by decide) (toUInt32_aligned haligned) (range_le h) hc).1, ?_, ?_⟩ <;> omega

/-- The pages after the driver is set up. -/
theorem foldl_pages (haligned : info.framebufferAddr.toNat % pageSize = 0)
    (h : info.bytes ≤ 0x800000) (k : ℕ) : info.pages.foldl Pages.put allPages k =
      if firstPage ≤ k ∧ k < firstPage + info.framebufferFrames then
        some ⟨Fin.ofNat (2 ^ 20) (info.framebufferAddr.toUInt32.toNat / pageSize +
          (k - firstPage)), true⟩
      else allPages k :=
  foldl_range _ (by decide) (toUInt32_aligned haligned) (range_le h) k

/-- The pixels of a line are before the next line. -/
theorem pixelIndex_lt {p w y x height : ℕ} (hx : x < w) (hw : w ≤ p / 4) (hy : y < height) :
    4 * (y * (p / 4) + x) < p * height := by
  have hline : y * (p / 4) + x < (y + 1) * (p / 4) := by
    rw [Nat.succ_mul]
    omega
  have hlines : (y + 1) * (p / 4) ≤ height * (p / 4) := Nat.mul_le_mul_right _ hy
  have hbytes : height * (4 * (p / 4)) ≤ height * p := Nat.mul_le_mul_left _ (Nat.mul_div_le p 4)
  have hcomm : height * p = p * height := Nat.mul_comm _ _
  have hassoc : height * (4 * (p / 4)) = 4 * (height * (p / 4)) := by ring
  omega

theorem toNat_pixelIndex {x y : UInt32} (h : info.bytes ≤ 0x800000)
    (hx : x < info.framebufferWidth) (hw : info.framebufferWidth ≤ info.framebufferPitch / 4)
    (hy : y < info.framebufferHeight) : 4 * (info.pixelIndex x y).toNat < info.bytes ∧
      (videoMemoryAddr + 4 * info.pixelIndex x y).toNat =
        videoMemoryAddr.toNat + 4 * (info.pixelIndex x y).toNat := by
  have hdiv : (info.framebufferPitch / 4).toNat = info.framebufferPitch.toNat / 4 :=
    UInt32.toNat_div _ _
  have hwidth : info.framebufferWidth.toNat ≤ info.framebufferPitch.toNat / 4 := by
    rw [← hdiv]
    exact UInt32.le_iff_toNat_le.mp hw
  have hlt : 4 * (y.toNat * (info.framebufferPitch.toNat / 4) + x.toNat) < info.bytes :=
    pixelIndex_lt (UInt32.lt_iff_toNat_lt.mp hx) hwidth (UInt32.lt_iff_toNat_lt.mp hy)
  have hindex : (info.pixelIndex x y).toNat =
      y.toNat * (info.framebufferPitch.toNat / 4) + x.toNat := by
    rw [pixelIndex, UInt32.toNat_add, UInt32.toNat_mul, hdiv]
    rw [Nat.mod_eq_of_lt (by omega), Nat.mod_eq_of_lt (by omega)]
  have haddr : videoMemoryAddr.toNat = 0xC0400000 := by decide
  refine ⟨by omega, ?_⟩
  have hfour : (4 : UInt32).toNat = 4 := by decide
  rw [UInt32.toNat_add, UInt32.toNat_mul, hfour, haddr]
  omega

theorem setup_eq_run (s : State) :
    info.setupDriverAndDevice image s = run (mapSingle image) s info.pages :=
  mapRange_eq_run s _ _ _ _

/-- The word at an address. -/
theorem address_eq {a : ℕ} (h : a % 4 = 0) :
    address (a / 2 ^ 22) (a / 2 ^ 12 % 1024) (a % 4096 / 4) = a := by
  unfold address
  omega

theorem putPixel_eq {x y : UInt32} {r g b : UInt8} (h : info.bytes ≤ 0x800000)
    (hx : x < info.framebufferWidth) (hw : info.framebufferWidth ≤ info.framebufferPitch / 4)
    (hy : y < info.framebufferHeight) {f : ℕ}
    (hwalk : s.walkPage (firstPage + 4 * (info.pixelIndex x y).toNat / pageSize) = some f) :
    info.putPixel s x y r g b = some (s.withMemory (store s.memory f
      (4 * (info.pixelIndex x y).toNat % pageSize / 4) (info.pixel r g b).toNat)) := by
  obtain ⟨hlt, haddr⟩ := toNat_pixelIndex h hx hw hy
  have hstart : videoMemoryAddr.toNat = 0xC0400000 := by decide
  have hfirst : firstPage = 0xC0400 := by decide
  have hsplit := address_eq (a := videoMemoryAddr.toNat + 4 * (info.pixelIndex x y).toNat)
    (by rw [hstart]; omega)
  have hpage : (firstPage + 4 * (info.pixelIndex x y).toNat / pageSize) / 1024 =
      (videoMemoryAddr.toNat + 4 * (info.pixelIndex x y).toNat) / 2 ^ 22 ∧
      (firstPage + 4 * (info.pixelIndex x y).toNat / pageSize) % 1024 =
        (videoMemoryAddr.toNat + 4 * (info.pixelIndex x y).toNat) / 2 ^ 12 % 1024 ∧
      4 * (info.pixelIndex x y).toNat % pageSize / 4 =
        (videoMemoryAddr.toNat + 4 * (info.pixelIndex x y).toNat) % 4096 / 4 := by
    rw [hstart, hfirst]
    unfold pageSize
    omega
  rw [State.walkPage, hpage.1, hpage.2.1] at hwalk
  rw [putPixel, haddr, hpage.2.2, ← hsplit, State.store_address (by rw [hstart]; omega)
    (Nat.mod_lt _ (by decide)) (by omega) hwalk, hsplit]

theorem setup_spec (haligned : info.framebufferAddr.toNat % pageSize = 0)
    (h : info.bytes ≤ 0x800000) (hreached : Reached image s allPages)
    (hanswered : RunAll (mapSingle image) (Answered image) s info.pages) :
    ∃ t, info.setupDriverAndDevice image s = some t ∧ Undisturbed info s t := by
  obtain ⟨hrefines, hroot⟩ := hreached.refines
  obtain ⟨t, ht, hafter, hkeep⟩ := refines_run info.pages hrefines
    (fun c hc => (allowed_pages haligned h hc).1)
    (fun c hc => (allowed_pages haligned h hc).index_lt)
    (Or.inr fun c hc => (allowed_pages haligned h hc).keepsArrays image) hanswered
  have hbefore := gives_of_refines hrefines hroot
  have hgives := gives_of_refines hafter (hkeep.trans hroot)
  have hle := framebufferFrames_le h
  have hfirst : firstPage = 0xC0400 := by decide
  have hheap : heapPage = 0xC0C00 := by decide
  refine ⟨t, (setup_eq_run s).trans ht, ?_, ?_⟩
  · intro page hpage houtside
    rw [hgives.pages page hpage, hbefore.pages page hpage, foldl_pages haligned h, if_neg (by omega)]
  · intro x y r g b hx hw hy
    obtain ⟨hlt, -⟩ := toNat_pixelIndex h hx hw hy
    have hframe := lt_framebufferFrames h hlt
    refine ⟨_, hlt, putPixel_eq h hx hw hy ?_⟩
    have hin := And.intro (Nat.le_add_right firstPage (4 * (info.pixelIndex x y).toNat / pageSize))
      (Nat.add_lt_add_left hframe firstPage)
    rw [hgives.pages _ (by omega), foldl_pages haligned h, if_pos hin, Nat.add_sub_cancel_left]
    rfl

/-- The framebuffer is mapped beside the heap exactly if it has at most eight
megabytes. -/
theorem fits_iff (info : MultibootInfo) (_hexist : info.exist = true)
    (haligned : info.framebufferAddr.toNat % pageSize = 0) :
    (info.Fits ∧ ∀ image s allPages, Reached image s allPages →
      RunAll (mapSingle image) (Answered image) s info.pages →
        ∃ t, info.setupDriverAndDevice image s = some t ∧ Undisturbed info s t) ↔
      info.framebufferPitch.toNat * info.framebufferHeight.toNat ≤ 0x800000 := by
  constructor
  · intro hfits
    exact bytes_le_of_fits hfits.1
  · intro h
    exact ⟨fits_of_bytes_le haligned h, fun _ _ _ hreached hanswered =>
      setup_spec haligned h hreached hanswered⟩

/-! ## Two screens -/

/-- The first page of the heap. -/
def heapCalls : List Call := [.map 0xC0C00000 0x5000 true]

theorem bootWith_blocks {n k : ℕ} (hk : k < n) : (bootWith n).blocks k ≠ 0 := by
  have hblock : (bootWith n).blocks k = 4096 * (0x400 + k) := if_pos hk
  omega

theorem reached_heapCalls : ∃ s, Reached someImage s (pagesAfter heapCalls) ∧
    ∀ k < 4000, s.blocks k ≠ 0 := by
  have hbooted : Booted someImage (bootWith 4096) := booted_bootWith (by decide)
  obtain ⟨s, hs, hrefines, hroot, hblocks, -⟩ :=
    initialize_spec hbooted (bootWith_blocks (by decide)) (bootWith_blocks (by decide))
  have hallowed : ∀ c ∈ heapCalls.flatMap Call.singles, Allowed c := by decide
  have hanswered : Answered someImage s ⟨0xC0C00000, 0x5000, true⟩ := by
    right
    rw [hblocks]
    exact bootWith_blocks (by decide)
  obtain ⟨t, ht, -, hspec⟩ := refines_step hrefines (by decide) (by decide) hanswered
    (Or.inr ((hallowed _ (by decide)).keepsArrays someImage))
  refine ⟨t, ⟨_, s, heapCalls, hbooted, bootWith_blocks (by decide), bootWith_blocks (by decide),
    hs, fun c hc => ⟨(hallowed c hc).1, (hallowed c hc).index_lt, (hallowed c hc).keepsArrays _⟩,
    ⟨hanswered, fun _ _ => trivial⟩, ?_, rfl⟩, fun k hk => ?_⟩
  · rw [run_calls]
    exact (congrArg (Option.bind · _) ht).trans rfl
  · by_cases htable : HasTable someImage s.memory (Single.index ⟨0xC0C00000, 0x5000, true⟩)
    · rw [hspec.blocksKept htable, hblocks]
      exact bootWith_blocks (by omega)
    · rw [hspec.blocksTaken htable, hblocks]
      exact bootWith_blocks (by omega)

/-- A screen of 1024 by 768 pixels. -/
def smallScreen : MultibootInfo := ⟨0x1000, 0xE0000000, 4096, 1024, 768, 32, 1, 16, 8, 0⟩

/-- A screen of 2560 by 1440 pixels. -/
def largeScreen : MultibootInfo := ⟨0x1000, 0xE0000000, 10240, 2560, 1440, 32, 1, 16, 8, 0⟩

theorem length_range (v p : UInt32) (b : Bool) (n : ℕ) : (range v p b n).length = n := by
  induction n generalizing v p with
  | zero => rfl
  | succ n ih => rw [range, List.length_cons, ih]

theorem fits_iff_smallScreen : ∃ s t allPages, Reached someImage s allPages ∧
    smallScreen.Fits ∧ smallScreen.setupDriverAndDevice someImage s = some t ∧
    Undisturbed smallScreen s t := by
  obtain ⟨s, hreached, hblocks⟩ := reached_heapCalls
  obtain ⟨hfits, hsetup⟩ := (fits_iff smallScreen (by decide) (by decide)).mpr (by decide)
  obtain ⟨hrefines, -⟩ := hreached.refines
  have hallowed : ∀ c ∈ smallScreen.pages, Allowed c := fun c hc =>
    allowed_pages (by decide) (by decide) hc
  have hlength : smallScreen.pages.length = 768 := length_range _ _ _ _
  obtain ⟨t, ht, hundisturbed⟩ := hsetup _ _ _ hreached (answered_of_blocks _ hrefines
    (fun c hc => (hallowed c hc).1) (fun c hc => (hallowed c hc).index_lt)
    (Or.inr fun c hc => (hallowed c hc).keepsArrays _) fun k hk => hblocks k (by omega))
  exact ⟨s, t, _, hreached, hfits, ht, hundisturbed⟩

/-- The large screen takes the first page of the heap. -/
theorem heapPage_largeScreen : largeScreen.exist = true ∧ ∃ s t allPages,
    Reached someImage s allPages ∧ largeScreen.setupDriverAndDevice someImage s = some t ∧
    s.walkPage heapPage = some 0x5 ∧ t.walkPage heapPage = some 0xE0800 := by
  obtain ⟨s, hreached, hblocks⟩ := reached_heapCalls
  obtain ⟨hrefines, hroot⟩ := hreached.refines
  have hallowed : ∀ c ∈ largeScreen.pages, Allowed c := by
    intro c hc
    obtain ⟨haligned, hfirst, hlast⟩ := mem_range (by decide) (by decide) (by decide) hc
    have hindex := index_eq c
    have hstart : videoMemoryAddr.toNat / pageSize = 0xC0400 := by decide
    have hcount : largeScreen.framebufferFrames = 3600 := by decide
    rw [hstart] at hfirst hlast
    rw [hcount] at hlast
    refine ⟨haligned, ?_, ?_⟩ <;> omega
  have hlength : largeScreen.pages.length = 3600 := length_range _ _ _ _
  obtain ⟨t, ht, hafter, hkeep⟩ := refines_run largeScreen.pages hrefines
    (fun c hc => (hallowed c hc).1) (fun c hc => (hallowed c hc).index_lt)
    (Or.inr fun c hc => (hallowed c hc).keepsArrays _) (answered_of_blocks _ hrefines
      (fun c hc => (hallowed c hc).1) (fun c hc => (hallowed c hc).index_lt)
      (Or.inr fun c hc => (hallowed c hc).keepsArrays _) fun k hk => hblocks k (by omega))
  refine ⟨by decide, s, t, _, hreached, (setup_eq_run s).trans ht, ?_, ?_⟩
  · rw [(gives_of_refines hrefines hroot).pages _ (by decide)]
    decide
  · rw [(gives_of_refines hafter (hkeep.trans hroot)).pages _ (by decide), pages,
      foldl_range _ (by decide) (by decide) (by decide), if_pos (by decide)]
    decide

end MultibootInfo

end AviKernel.VideoDriver
