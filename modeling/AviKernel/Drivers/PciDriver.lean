import AviKernel.Library.Words

/-!
# The PCI bus

A register of a function is read through two ports: one keeps an address, the other shows
the register that is there.  The driver lists the functions that answer.
-/

namespace AviKernel

structure PCIDevice where
  busNumber : UInt8
  deviceNumber : UInt8
  functionNumber : UInt8
deriving DecidableEq

/-- What each function holds in the register at an offset. -/
abbrev PCIConfiguration := PCIDevice → UInt8 → UInt32

namespace PCIConfigAddress

/-- The function that an address selects. -/
def device (address : UInt32) : PCIDevice where
  busNumber := (address >>> 16).toUInt8
  deviceNumber := (address >>> 11).toUInt8 &&& 31
  functionNumber := (address >>> 8).toUInt8 &&& 7

/-- The two lowest bits are not looked at. -/
def offset (address : UInt32) : UInt8 := address.toUInt8 &&& 0xFC

/-- The highest bit is set. -/
def enabled (address : UInt32) : Bool := 0x80000000 ≤ address

end PCIConfigAddress

/-- The driver, with what the address port keeps. -/
structure PCIDriver where
  address : UInt32
  devices : List PCIDevice

namespace PCIDriver

variable (config : PCIConfiguration) (s : PCIDriver) (d : PCIDevice)

def outl (port : UInt16) (val : UInt32) : PCIDriver :=
  if port = 0xCF8 then { s with address := val } else s

def inl (port : UInt16) : UInt32 :=
  if port = 0xCFC ∧ PCIConfigAddress.enabled s.address then
    config (PCIConfigAddress.device s.address) (PCIConfigAddress.offset s.address)
  else 0xFFFFFFFF

def generatePciConfigAddress (d : PCIDevice) (offset : UInt8) : UInt32 :=
  (0x80000000 : UInt32) ||| d.busNumber.toUInt32 <<< 16 ||| d.deviceNumber.toUInt32 <<< 11 |||
    d.functionNumber.toUInt32 <<< 8 ||| offset.toUInt32

def pciConfigRead32Bits (offset : UInt8) : UInt32 × PCIDriver :=
  let s := s.outl 0xCF8 (generatePciConfigAddress d offset)
  (s.inl config 0xCFC, s)

def getVendorId : UInt16 × PCIDriver :=
  let (bundle, s) := s.pciConfigRead32Bits config d 0x0
  (((bundle &&& 0x0000FFFF) >>> 0).toUInt16, s)

def getHeaderType : UInt8 × PCIDriver :=
  let (bundle, s) := s.pciConfigRead32Bits config d 0xC
  (((bundle &&& 0x00FF0000) >>> 16).toUInt8, s)

def deviceExists : Bool × PCIDriver :=
  let (vendorId, s) := s.getVendorId config d
  (vendorId ≠ 0xFFFF, s)

/-- The body of the loop over the functions of a device. -/
def addFunction (function : ℕ) : PCIDriver :=
  let d := ⟨d.busNumber, d.deviceNumber, UInt8.ofNat function⟩
  let (answers, s) := s.deviceExists config d
  if answers then { s with devices := s.devices ++ [d] } else s

def addDevice : PCIDriver :=
  let (headerType, s) := s.getHeaderType config d
  if headerType &&& 0x80 ≠ 0 then
    (List.range 8).foldl (fun s function => s.addFunction config d function) s
  else { s with devices := s.devices ++ [d] }

/-- The body of the loops over the buses and their devices. -/
def enumerateDevice (bus deviceNumber : ℕ) : PCIDriver :=
  let device := ⟨UInt8.ofNat bus, UInt8.ofNat deviceNumber, 0⟩
  let (answers, s) := s.deviceExists config device
  if answers then s.addDevice config device else s

def enumerateBus (bus : ℕ) : PCIDriver :=
  (List.range 32).foldl (fun s deviceNumber => s.enumerateDevice config bus deviceNumber) s

def enumerateDevices : PCIDriver :=
  (List.range 256).foldl (fun s bus => s.enumerateBus config bus) s

end PCIDriver

/-! ## What is there to list -/

namespace PCIDevice

/-- An address has five bits for the number of a device and three for that of a function. -/
structure InRange (x : PCIDevice) : Prop where
  device : x.deviceNumber.toNat < 32
  function : x.functionNumber.toNat < 8

/-- The function `0` of the same device. -/
def first (x : PCIDevice) : PCIDevice := { x with functionNumber := 0 }

/-- The order of the numbers of bus, device and function. -/
def Precedes (x y : PCIDevice) : Prop :=
  x.busNumber < y.busNumber ∨ x.busNumber = y.busNumber ∧
    (x.deviceNumber < y.deviceNumber ∨ x.deviceNumber = y.deviceNumber ∧
      x.functionNumber < y.functionNumber)

end PCIDevice

namespace PCIConfiguration

variable (config : PCIConfiguration)

/-- The low half of the first register. -/
def vendorId (x : PCIDevice) : UInt16 := (config x 0).toUInt16

/-- The third byte of the register at `0xC`. -/
def headerType (x : PCIDevice) : UInt8 := (config x 0xC >>> 16).toUInt8

/-- A device answers as its function `0`, and only one that says so has others. -/
def Present (x : PCIDevice) : Prop :=
  config.vendorId x.first ≠ 0xFFFF ∧
    (x.functionNumber = 0 ∧ config.headerType x.first &&& 0x80 = 0 ∨
      config.headerType x.first &&& 0x80 ≠ 0 ∧ config.vendorId x ≠ 0xFFFF)

instance (x : PCIDevice) : Decidable (config.Present x) := inferInstanceAs (Decidable (_ ∧ _))

/-- The list has every function that is there once and nothing else, in order. -/
structure Enumerated (l : List PCIDevice) : Prop where
  complete : ∀ x : PCIDevice, x ∈ l ↔ x.InRange ∧ config.Present x
  nodup : l.Nodup
  sorted : l.Pairwise PCIDevice.Precedes

end PCIConfiguration

namespace PCIDriver

/-- The functions of a device. -/
def functions (bus deviceNumber : ℕ) : List PCIDevice :=
  (List.range 8).map fun f => ⟨UInt8.ofNat bus, UInt8.ofNat deviceNumber, UInt8.ofNat f⟩

/-- All functions that an address can select, in order. -/
def allFunctions : List PCIDevice :=
  (List.range 256).flatMap fun b => (List.range 32).flatMap fun n => functions b n

/-- Different registers have different addresses. -/
def DistinctAddresses : Prop :=
  ∀ (x y : PCIDevice) (offset o : UInt8), x.InRange → y.InRange →
    generatePciConfigAddress x offset = generatePciConfigAddress y o → x = y ∧ offset = o

variable {config : PCIConfiguration} {s : PCIDriver} {x y : PCIDevice} {offset o : UInt8}
  {b n : ℕ}

/-! ## Addresses -/

/-- The fields do not overlap, so that they add up. -/
theorem toNat_generatePciConfigAddress (h : x.InRange) :
    (generatePciConfigAddress x offset).toNat = 2 ^ 31 + 2 ^ 16 * x.busNumber.toNat +
      2 ^ 11 * x.deviceNumber.toNat + 2 ^ 8 * x.functionNumber.toNat + offset.toNat := by
  have hdevice := h.device
  have hfunction := h.function
  have hbus : x.busNumber.toNat < 2 ^ 8 := x.busNumber.toNat_lt
  have hoffset : offset.toNat < 2 ^ 8 := offset.toNat_lt
  have hor : ∀ i a b, b < 2 ^ i → 2 ^ i * a ||| b = 2 ^ i * a + b := fun i a b hb =>
    (Nat.two_pow_add_eq_or_of_lt hb a).symm
  have hbusField : 2 ^ 31 ||| x.busNumber.toNat * 2 ^ 16 =
      2 ^ 16 * (2 ^ 15 + x.busNumber.toNat) := by
    have h := hor 31 1 (x.busNumber.toNat * 2 ^ 16) (by omega)
    rw [Nat.mul_one] at h
    rw [h]
    ring
  have hdeviceField : 2 ^ 16 * (2 ^ 15 + x.busNumber.toNat) ||| x.deviceNumber.toNat * 2 ^ 11 =
      2 ^ 11 * (2 ^ 5 * (2 ^ 15 + x.busNumber.toNat) + x.deviceNumber.toNat) := by
    rw [hor _ _ _ (by omega)]
    ring
  have hfunctionField : 2 ^ 11 * (2 ^ 5 * (2 ^ 15 + x.busNumber.toNat) + x.deviceNumber.toNat) |||
      x.functionNumber.toNat * 2 ^ 8 = 2 ^ 8 * (2 ^ 3 * (2 ^ 5 * (2 ^ 15 + x.busNumber.toNat) +
        x.deviceNumber.toNat) + x.functionNumber.toNat) := by
    rw [hor _ _ _ (by omega)]
    ring
  have hmod : ∀ a, a < 2 ^ 32 → a % 2 ^ 32 = a := fun a ha => Nat.mod_eq_of_lt ha
  have hnat : (generatePciConfigAddress x offset).toNat = 2 ^ 31 |||
      x.busNumber.toNat * 2 ^ 16 % 2 ^ 32 ||| x.deviceNumber.toNat * 2 ^ 11 % 2 ^ 32 |||
      x.functionNumber.toNat * 2 ^ 8 % 2 ^ 32 ||| offset.toNat := by
    simp only [generatePciConfigAddress, UInt32.toNat_or, UInt32.toNat_shiftLeft,
      UInt8.toNat_toUInt32, Nat.shiftLeft_eq]
    rfl
  rw [hnat, hmod _ (by omega), hmod _ (by omega), hmod _ (by omega), hbusField, hdeviceField,
    hfunctionField, hor _ _ _ hoffset]
  ring

theorem distinctAddresses : DistinctAddresses := by
  intro x y offset o hx hy heq
  have hnat := congrArg UInt32.toNat heq
  rw [toNat_generatePciConfigAddress hx, toNat_generatePciConfigAddress hy] at hnat
  have hoffset : offset.toNat < 2 ^ 8 := offset.toNat_lt
  have ho : o.toNat < 2 ^ 8 := o.toNat_lt
  have hxd := hx.device
  have hyd := hy.device
  have hxf := hx.function
  have hyf := hy.function
  have hbus : x.busNumber = y.busNumber := UInt8.toNat_inj.mp (by omega)
  have hdevice : x.deviceNumber = y.deviceNumber := UInt8.toNat_inj.mp (by omega)
  have hfunction : x.functionNumber = y.functionNumber := UInt8.toNat_inj.mp (by omega)
  refine ⟨?_, UInt8.toNat_inj.mp (by omega)⟩
  cases x
  cases y
  cases hbus
  cases hdevice
  cases hfunction
  rfl

theorem and_ones (i a : ℕ) : a &&& (2 ^ i - 1) = a % 2 ^ i := Nat.and_two_pow_sub_one_eq_mod a i

theorem device_generatePciConfigAddress (h : x.InRange) :
    PCIConfigAddress.device (generatePciConfigAddress x offset) = x := by
  have hdevice := h.device
  have hfunction := h.function
  have hbus : x.busNumber.toNat < 2 ^ 8 := x.busNumber.toNat_lt
  have hoffset : offset.toNat < 2 ^ 8 := offset.toNat_lt
  have hnat := @toNat_generatePciConfigAddress x offset h
  have hfive := and_ones 5
  have hthree := and_ones 3
  cases x with
  | mk b n f =>
      simp only at hdevice hfunction hbus hnat
      simp only [PCIConfigAddress.device, PCIDevice.mk.injEq, ← UInt8.toNat_inj,
        UInt8.toNat_and, UInt32.toNat_toUInt8, UInt32.toNat_shiftRight, Nat.shiftRight_eq_div_pow]
      refine ⟨?_, ?_, ?_⟩
      · have hshift : (16 : UInt32).toNat % 32 = 16 := rfl
        rw [hshift, hnat]
        omega
      · have hshift : (11 : UInt32).toNat % 32 = 11 := rfl
        have hmask : (31 : UInt8).toNat = 2 ^ 5 - 1 := rfl
        rw [hshift, hmask, hfive, hnat]
        omega
      · have hshift : (8 : UInt32).toNat % 32 = 8 := rfl
        have hmask : (7 : UInt8).toNat = 2 ^ 3 - 1 := rfl
        rw [hshift, hmask, hthree, hnat]
        omega

theorem offset_generatePciConfigAddress (h : x.InRange) :
    PCIConfigAddress.offset (generatePciConfigAddress x offset) = offset &&& 0xFC := by
  have hlow : (generatePciConfigAddress x offset).toUInt8 = offset := by
    rw [← UInt8.toNat_inj, UInt32.toNat_toUInt8, toNat_generatePciConfigAddress h]
    have hoffset : offset.toNat < 2 ^ 8 := offset.toNat_lt
    omega
  rw [PCIConfigAddress.offset, hlow]

theorem enabled_generatePciConfigAddress (h : x.InRange) :
    PCIConfigAddress.enabled (generatePciConfigAddress x offset) = true := by
  have hnat := @toNat_generatePciConfigAddress x offset h
  rw [PCIConfigAddress.enabled, decide_eq_true_eq, UInt32.le_iff_toNat_le, hnat]
  have hbit : (0x80000000 : UInt32).toNat = 2 ^ 31 := rfl
  omega

/-! ## Reading a register -/

/-- A read shows the register and changes the address port only. -/
theorem pciConfigRead32Bits_eq (h : x.InRange) (halign : offset &&& 0xFC = offset) :
    s.pciConfigRead32Bits config x offset =
      (config x offset, ⟨generatePciConfigAddress x offset, s.devices⟩) := by
  have houtl : s.outl 0xCF8 (generatePciConfigAddress x offset) =
      ⟨generatePciConfigAddress x offset, s.devices⟩ := if_pos rfl
  have hinl : inl config ⟨generatePciConfigAddress x offset, s.devices⟩ 0xCFC =
      config x offset := by
    rw [inl, if_pos ⟨rfl, enabled_generatePciConfigAddress h⟩, device_generatePciConfigAddress h,
      offset_generatePciConfigAddress h, halign]
  simp only [pciConfigRead32Bits, houtl, hinl]

theorem getVendorId_eq (h : x.InRange) : s.getVendorId config x =
    (config.vendorId x, ⟨generatePciConfigAddress x 0, s.devices⟩) := by
  have hmask : ((config x 0 &&& 0x0000FFFF) >>> 0).toUInt16 = (config x 0).toUInt16 := by
    rw [← UInt16.toNat_inj]
    simp only [UInt32.toNat_toUInt16, UInt32.toNat_shiftRight, UInt32.toNat_and]
    have hones : (0x0000FFFF : UInt32).toNat = 2 ^ 16 - 1 := rfl
    have hshift : (0 : UInt32).toNat % 32 = 0 := rfl
    rw [hones, hshift, and_ones, Nat.shiftRight_zero, Nat.mod_mod]
  simp only [getVendorId, @pciConfigRead32Bits_eq config s x 0 h rfl, hmask,
    PCIConfiguration.vendorId]

theorem getHeaderType_eq (h : x.InRange) : s.getHeaderType config x =
    (config.headerType x, ⟨generatePciConfigAddress x 0xC, s.devices⟩) := by
  have hmask : ((config x 0xC &&& 0x00FF0000) >>> 16).toUInt8 = (config x 0xC >>> 16).toUInt8 := by
    rw [← UInt8.toNat_inj]
    simp only [UInt32.toNat_toUInt8, UInt32.toNat_shiftRight, UInt32.toNat_and,
      Nat.shiftRight_and_distrib]
    have hones : (0x00FF0000 : UInt32).toNat >>> ((16 : UInt32).toNat % 32) = 2 ^ 8 - 1 := rfl
    rw [hones, and_ones, Nat.mod_mod]
  simp only [getHeaderType, @pciConfigRead32Bits_eq config s x 0xC h rfl, hmask,
    PCIConfiguration.headerType]

theorem deviceExists_eq (h : x.InRange) : s.deviceExists config x =
    (decide (config.vendorId x ≠ 0xFFFF), ⟨generatePciConfigAddress x 0, s.devices⟩) := by
  simp only [deviceExists, getVendorId_eq h]

/-! ## The loops -/

/-- A loop whose turns add lists to the devices. -/
theorem foldl_devices {f : PCIDriver → ℕ → PCIDriver} {g : ℕ → List PCIDevice} {l : List ℕ}
    (h : ∀ s, ∀ a ∈ l, (f s a).devices = s.devices ++ g a) (s : PCIDriver) :
    (l.foldl f s).devices = s.devices ++ l.flatMap g := by
  induction l generalizing s with
  | nil => simp
  | cons a l ih =>
      have hfirst := h s a List.mem_cons_self
      have hrest := ih (fun s b hb => h s b (List.mem_cons_of_mem a hb)) (f s a)
      rw [List.foldl_cons, hrest, hfirst, List.append_assoc, List.flatMap_cons]

theorem toNat_ofNat {k a : ℕ} (hk : k ≤ 256) (ha : a < k) : (UInt8.ofNat a).toNat = a :=
  UInt8.toNat_ofNat_of_lt' (ha.trans_le hk)

theorem inRange_mk {f : ℕ} (hn : n < 32) (hf : f < 8) :
    PCIDevice.InRange ⟨UInt8.ofNat b, UInt8.ofNat n, UInt8.ofNat f⟩ where
  device := by
    rw [toNat_ofNat (by decide) hn]
    exact hn
  function := by
    rw [toNat_ofNat (by decide) hf]
    exact hf

theorem mem_functions : x ∈ functions b n → x.first = ⟨UInt8.ofNat b, UInt8.ofNat n, 0⟩ := by
  intro hx
  obtain ⟨f, -, rfl⟩ := List.mem_map.mp hx
  rfl

theorem addFunction_devices {f : ℕ} (hn : n < 32) (hf : f < 8) :
    (s.addFunction config ⟨UInt8.ofNat b, UInt8.ofNat n, 0⟩ f).devices =
      s.devices ++ [⟨UInt8.ofNat b, UInt8.ofNat n, UInt8.ofNat f⟩].filter
        fun y => config.vendorId y ≠ 0xFFFF := by
  have hrange := @inRange_mk b n f hn hf
  simp only [addFunction, deviceExists_eq hrange, List.filter_singleton]
  split <;> simp_all

theorem addDevice_devices (hn : n < 32)
    (hfirst : config.vendorId ⟨UInt8.ofNat b, UInt8.ofNat n, 0⟩ ≠ 0xFFFF) :
    (s.addDevice config ⟨UInt8.ofNat b, UInt8.ofNat n, 0⟩).devices =
      s.devices ++ (functions b n).filter config.Present := by
  have hrange : PCIDevice.InRange ⟨UInt8.ofNat b, UInt8.ofNat n, 0⟩ :=
    inRange_mk hn (f := 0) (by decide)
  simp only [addDevice, getHeaderType_eq hrange]
  by_cases hmany : config.headerType ⟨UInt8.ofNat b, UInt8.ofNat n, 0⟩ &&& 0x80 = 0
  · have hpresent : ∀ y ∈ functions b n,
        decide (config.Present y) = decide (y.functionNumber = 0) := by
      intro y hy
      simp [PCIConfiguration.Present, mem_functions hy, hmany, hfirst]
    rw [if_neg (not_not_intro hmany), List.filter_congr hpresent]
    rfl
  · have hpresent : ∀ y ∈ functions b n,
        decide (config.Present y) = decide (config.vendorId y ≠ 0xFFFF) := by
      intro y hy
      simp [PCIConfiguration.Present, mem_functions hy, hmany, hfirst]
    rw [if_pos hmany, List.filter_congr hpresent, functions, List.map_eq_flatMap,
      List.filter_flatMap]
    have hturn : ∀ s : PCIDriver, ∀ f ∈ List.range 8,
        (s.addFunction config ⟨UInt8.ofNat b, UInt8.ofNat n, 0⟩ f).devices = s.devices ++
          [⟨UInt8.ofNat b, UInt8.ofNat n, UInt8.ofNat f⟩].filter
            fun y => config.vendorId y ≠ 0xFFFF :=
      fun s f hf => addFunction_devices hn (List.mem_range.mp hf)
    rw [foldl_devices hturn]

theorem enumerateDevice_devices (hn : n < 32) : (s.enumerateDevice config b n).devices =
    s.devices ++ (functions b n).filter config.Present := by
  have hrange : PCIDevice.InRange ⟨UInt8.ofNat b, UInt8.ofNat n, 0⟩ :=
    inRange_mk hn (f := 0) (by decide)
  simp only [enumerateDevice, deviceExists_eq hrange, decide_eq_true_eq]
  by_cases hfirst : config.vendorId ⟨UInt8.ofNat b, UInt8.ofNat n, 0⟩ = 0xFFFF
  · have hnone : (functions b n).filter config.Present = [] := by
      apply List.filter_eq_nil_iff.mpr
      intro y hy
      simp [PCIConfiguration.Present, mem_functions hy, hfirst]
    rw [if_neg (not_not_intro hfirst), hnone, List.append_nil]
  · rw [if_pos hfirst, addDevice_devices hn hfirst]

/-- The list is what there is of all functions. -/
theorem enumerateDevices_devices : (s.enumerateDevices config).devices =
    s.devices ++ allFunctions.filter config.Present := by
  have hdevice : ∀ b, ∀ s : PCIDriver, ∀ n ∈ List.range 32,
      (s.enumerateDevice config b n).devices =
        s.devices ++ (functions b n).filter config.Present :=
    fun b s n hn => enumerateDevice_devices (List.mem_range.mp hn)
  have hbus : ∀ s : PCIDriver, ∀ b ∈ List.range 256, (s.enumerateBus config b).devices =
      s.devices ++ ((List.range 32).flatMap (functions b)).filter config.Present := by
    intro s b _
    rw [enumerateBus, foldl_devices (hdevice b), List.filter_flatMap]
  rw [enumerateDevices, foldl_devices hbus, allFunctions, List.filter_flatMap]

/-! ## All functions -/

theorem mem_allFunctions : x ∈ allFunctions ↔ x.InRange := by
  simp only [allFunctions, functions, List.mem_flatMap, List.mem_map, List.mem_range]
  constructor
  · rintro ⟨b, -, n, hn, f, hf, rfl⟩
    exact inRange_mk hn hf
  · intro h
    exact ⟨x.busNumber.toNat, x.busNumber.toNat_lt, x.deviceNumber.toNat, h.device,
      x.functionNumber.toNat, h.function, by simp⟩

theorem ofNat_lt {k i j : ℕ} (hk : k ≤ 256) (hj : j < k) (hij : i < j) :
    UInt8.ofNat i < UInt8.ofNat j := by
  rw [UInt8.lt_iff_toNat_lt, toNat_ofNat hk hj, toNat_ofNat hk (hij.trans hj)]
  exact hij

theorem pairwise_range {k : ℕ} {P : ℕ → ℕ → Prop} (h : ∀ i j, i < j → j < k → P i j) :
    (List.range k).Pairwise P := by
  apply List.pairwise_lt_range.imp_of_mem
  intro i j _ hj hij
  exact h i j hij (List.mem_range.mp hj)

theorem functions_sorted : (functions b n).Pairwise PCIDevice.Precedes := by
  rw [functions, List.pairwise_map]
  apply pairwise_range
  intro i j hij hj
  exact Or.inr ⟨rfl, Or.inr ⟨rfl, ofNat_lt (by decide) hj hij⟩⟩

theorem allFunctions_sorted : allFunctions.Pairwise PCIDevice.Precedes := by
  rw [allFunctions, List.pairwise_flatMap]
  constructor
  · intro b _
    rw [List.pairwise_flatMap]
    refine ⟨fun n _ => functions_sorted, pairwise_range fun i j hij hj x hx y hy => ?_⟩
    obtain ⟨f, -, rfl⟩ := List.mem_map.mp hx
    obtain ⟨g, -, rfl⟩ := List.mem_map.mp hy
    exact Or.inr ⟨rfl, Or.inl (ofNat_lt (by decide) hj hij)⟩
  · refine pairwise_range fun i j hij hj x hx y hy => ?_
    obtain ⟨n, -, hx⟩ := List.mem_flatMap.mp hx
    obtain ⟨m, -, hy⟩ := List.mem_flatMap.mp hy
    obtain ⟨f, -, rfl⟩ := List.mem_map.mp hx
    obtain ⟨g, -, rfl⟩ := List.mem_map.mp hy
    exact Or.inl (ofNat_lt (by decide) hj hij)

theorem not_precedes_self : ¬ x.Precedes x := by
  simp [PCIDevice.Precedes]

/-- Whatever the configuration space holds, the driver lists the functions that are there,
and it never mixes up two registers. -/
theorem enumerateDevices_enumerated (config : PCIConfiguration) (address : UInt32) :
    config.Enumerated (enumerateDevices config ⟨address, []⟩).devices ∧ DistinctAddresses := by
  have hdevices : (enumerateDevices config ⟨address, []⟩).devices =
      allFunctions.filter config.Present := enumerateDevices_devices
  have hsorted := allFunctions_sorted.filter config.Present
  rw [hdevices]
  refine ⟨⟨fun x => ?_, ?_, hsorted⟩, distinctAddresses⟩
  · rw [List.mem_filter, mem_allFunctions, decide_eq_true_eq]
  · apply hsorted.imp
    rintro x y hxy rfl
    exact not_precedes_self hxy

end PCIDriver

end AviKernel
