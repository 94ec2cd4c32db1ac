/-
PCI devices for the ACPI library (`kernel/acpi/kernel_apis.c`): a handle is an
address on the heap, and the six accessors hand its fields and the low byte
of a 64-bit offset to `pci_config.c`, whatever they are.

`pci_shim_sound_iff`: two accesses that name different words access different
words, and each the word it names or none, where the configuration mechanism
can express both names, and only there. An address in another segment, a
device or a function number out of range, or an offset of 256 or more is
answered `UACPI_STATUS_OK` at some other word.
-/
import Tinos.AcpiHandles
import Tinos.PciSpace

namespace Tinos

open Bytes Lanes

structure UacpiPciAddress where
  segment : UInt16
  bus : UInt8
  device : UInt8
  function : UInt8
deriving DecidableEq

/-- `sizeof(tinos_pci_handle_t)`: `segment` is 2 bytes and aligned. -/
def sizeofPciHandle : UInt64 := 6

def pciHandleAddress (m : Mem) (pci : UInt64) : UacpiPciAddress where
  segment := UInt16.ofNat (load m pci.toNat 2)
  bus := m (pci.toNat + 2)
  device := m (pci.toNat + 3)
  function := m (pci.toNat + 4)

def setPciHandleAddress (m : Mem) (pci : UInt64) (address : UacpiPciAddress) : Mem :=
  let m := store m pci.toNat 2 address.segment.toNat
  let m := store m (pci.toNat + 2) 1 address.bus.toNat
  let m := store m (pci.toNat + 3) 1 address.device.toNat
  store m (pci.toNat + 4) 1 address.function.toNat

def uacpiKernelPciDeviceOpen (pool : MemoryPool) (h : Heap) (address : UacpiPciAddress) (outHandle : Option UInt64) :
    Option (UacpiStatus × Option UInt64 × Heap) :=
  if outHandle.isNone then some (.invalidArgument, outHandle, h)
  else do
    let (handle, h) ← uacpiKernelAlloc pool h sizeofPciHandle
    if handle == 0 then
      return (.outOfMemory, outHandle, h)
    else
      return (.ok, some handle, { h with mem := setPciHandleAddress h.mem handle address })

/-! ## The accessors -/

def pciRead {α : Type} (read : ConfigPorts → UInt8 → UInt8 → UInt8 → UInt8 → α × ConfigPorts) (m : Mem)
    (io : ConfigPorts) (device offset : UInt64) (value : Option α) : UacpiStatus × Option α × ConfigPorts :=
  if device == 0 || value.isNone then (.invalidArgument, value, io)
  else
    let address := pciHandleAddress m device
    let (v, io) := read io address.bus address.device address.function offset.toUInt8
    (.ok, some v, io)

def pciWrite {α : Type} (write : ConfigPorts → UInt8 → UInt8 → UInt8 → UInt8 → α → ConfigPorts) (m : Mem)
    (io : ConfigPorts) (device offset : UInt64) (value : α) : UacpiStatus × ConfigPorts :=
  if device == 0 then (.invalidArgument, io)
  else
    let address := pciHandleAddress m device
    (.ok, write io address.bus address.device address.function offset.toUInt8 value)

def uacpiKernelPciRead8 := pciRead pciConfigRead8
def uacpiKernelPciRead16 := pciRead pciConfigRead16
def uacpiKernelPciRead32 := pciRead pciConfigRead32

def uacpiKernelPciWrite8 := pciWrite pciConfigWrite8
def uacpiKernelPciWrite16 := pciWrite pciConfigWrite16
def uacpiKernelPciWrite32 := pciWrite pciConfigWrite32

/-- A read is into a variable with the value given. -/
inductive PciCall
  | read8 (value : UInt8)
  | read16 (value : UInt16)
  | read32 (value : UInt32)
  | write8 (value : UInt8)
  | write16 (value : UInt16)
  | write32 (value : UInt32)

def PciCall.run (m : Mem) (io : ConfigPorts) (device offset : UInt64) : PciCall → UacpiStatus × ConfigPorts
  | .read8 value =>
    let (status, _, io) := uacpiKernelPciRead8 m io device offset (some value)
    (status, io)
  | .read16 value =>
    let (status, _, io) := uacpiKernelPciRead16 m io device offset (some value)
    (status, io)
  | .read32 value =>
    let (status, _, io) := uacpiKernelPciRead32 m io device offset (some value)
    (status, io)
  | .write8 value => uacpiKernelPciWrite8 m io device offset value
  | .write16 value => uacpiKernelPciWrite16 m io device offset value
  | .write32 value => uacpiKernelPciWrite32 m io device offset value

/-! ## Names and words -/

/-- The handle was opened for the address, and is as it was. -/
structure PciHandle (m : Mem) (handle : UInt64) (a : UacpiPciAddress) : Prop where
  ne_zero : handle ≠ 0
  address : pciHandleAddress m handle = a

/-- The word that an address and an offset name. -/
structure UacpiPciAddress.Names (a : UacpiPciAddress) (offset : UInt64) (w : ConfigAddress) : Prop where
  segment : a.segment = 0
  bus : w.bus.val = a.bus.toNat
  device : w.device.val = a.device.toNat
  function : w.function.val = a.function.toNat
  register : w.register.val = offset.toNat / 4

/-- The configuration mechanism has a word of this name. -/
structure UacpiPciAddress.Expressible (a : UacpiPciAddress) (offset : UInt64) : Prop where
  segment : a.segment = 0
  device : a.device.toNat < 32
  function : a.function.toNat < 8
  offset : offset.toNat < 256

/-- The words accessed on the way from `io` to `io'`. -/
def ConfigPorts.accessed (io io' : ConfigPorts) : List ConfigAddress := io'.touched.drop io.touched.length

/-- The call answers an error, or accesses the word that is named and no other. -/
def PciCall.Faithful (c : PciCall) (m : Mem) (handle : UInt64) (a : UacpiPciAddress) (offset : UInt64) : Prop :=
  ∀ io, (c.run m io handle offset).1 ≠ .ok ∨
    ∀ w ∈ io.accessed (c.run m io handle offset).2, a.Names offset w

/-- One of the calls answers an error, or they access different words. -/
def Apart (m : Mem) (p q : UInt64) (o o' : UInt64) (c d : PciCall) : Prop :=
  ∀ io io', (c.run m io p o).1 ≠ .ok ∨ (d.run m io' q o').1 ≠ .ok ∨
    ∀ w ∈ io.accessed (c.run m io p o).2, w ∉ io'.accessed (d.run m io' q o').2

/-- Different names are different words, and no name is another's word. -/
structure ShimSound (m : Mem) (p q : UInt64) (a b : UacpiPciAddress) (o o' : UInt64) : Prop where
  apart : (a, o.toNat / 4) ≠ (b, o'.toNat / 4) → ∀ c d, Apart m p q o o' c d
  first : ∀ c : PciCall, c.Faithful m p a o
  second : ∀ c : PciCall, c.Faithful m q b o'

section Shim

variable {pool : MemoryPool} {h h' : Heap} {m : Mem} {io : ConfigPorts} {p q o o' : UInt64} {a b : UacpiPciAddress}
  {t : ConfigAddress}

/-- What `uacpi_kernel_pci_device_open` returns is a handle for the address. -/
theorem pciHandle_open {out : Option UInt64} (hopen : uacpiKernelPciDeviceOpen pool h a out = some (.ok, some p, h')) :
    PciHandle h'.mem p a := by
  unfold uacpiKernelPciDeviceOpen at hopen
  split at hopen
  · cases hopen
  simp only [Option.bind_eq_bind, Option.bind_eq_some_iff] at hopen
  obtain ⟨⟨r, h₁⟩, -, hopen⟩ := hopen
  split at hopen
  · cases hopen
  rename_i hr
  simp only [Option.pure_def, Option.some.injEq, Prod.mk.injEq, true_and] at hopen
  obtain ⟨rfl, rfl⟩ := hopen
  refine ⟨fun h0 => hr (beq_iff_eq.mpr h0), ?_⟩
  have hseg : a.segment.toNat < 256 ^ 2 := a.segment.toNat_lt
  obtain ⟨segment, bus, device, function⟩ := a
  simp only [pciHandleAddress, setPciHandleAddress, UacpiPciAddress.mk.injEq]
  refine ⟨?_, ?_, ?_, ?_⟩
  · rw [load_store_disjoint (by omega), load_store_disjoint (by omega), load_store_disjoint (by omega), load_store,
      Nat.mod_eq_of_lt hseg, UInt16.ofNat_toNat]
  · rw [store_of_outside (by omega), store_of_outside (by omega), store_byte]
  · rw [store_of_outside (by omega), store_byte]
  · rw [store_byte]

/-- Whatever the arguments, some word is selected. -/
theorem exists_selected (io : ConfigPorts) (bus device function offset : UInt8) :
    ∃ t, ({ io with address := pciConfigAddress bus device function offset }).selected = some t := by
  have henabled : (pciConfigAddress bus device function offset).toNat.testBit 31 = true := by
    have hen : (UInt32.toNat 0x80000000).testBit 31 = true := by decide
    simp only [pciConfigAddress, UInt32.toNat_or, Nat.testBit_or, hen, Bool.true_or]
  exact ⟨_, if_pos henabled⟩

/-- A call on a handle is answered OK, and accesses the word selected. -/
theorem PciCall.run_accessed (hp : PciHandle m p a)
    (hsel : ({ io with address := pciConfigAddress a.bus a.device a.function o.toUInt8 }).selected = some t)
    (c : PciCall) : (c.run m io p o).1 = .ok ∧ ∀ w, w ∈ io.accessed (c.run m io p o).2 ↔ w = t := by
  have h0 : (p == 0) = false := beq_eq_false_iff_ne.mpr hp.ne_zero
  have hone : ∀ io' : ConfigPorts, io'.touched = io.touched ++ [t] → ∀ w, w ∈ io.accessed io' ↔ w = t := by
    intro io' htouched w
    rw [ConfigPorts.accessed, htouched, List.drop_left, List.mem_singleton]
  have htwo : ∀ io' : ConfigPorts, io'.touched = io.touched ++ [t] ++ [t] → ∀ w, w ∈ io.accessed io' ↔ w = t := by
    intro io' htouched w
    rw [ConfigPorts.accessed, htouched, List.append_assoc, List.drop_left]
    simp
  cases c with
  | read8 v =>
    simp only [PciCall.run, uacpiKernelPciRead8, pciRead, h0, Option.isNone_some, Bool.or_self, Bool.false_eq_true,
      if_false, hp.address, pciConfigRead8, read32_eq hsel, true_and]
    exact hone _ rfl
  | read16 v =>
    simp only [PciCall.run, uacpiKernelPciRead16, pciRead, h0, Option.isNone_some, Bool.or_self, Bool.false_eq_true,
      if_false, hp.address, pciConfigRead16, read32_eq hsel, true_and]
    exact hone _ rfl
  | read32 v =>
    simp only [PciCall.run, uacpiKernelPciRead32, pciRead, h0, Option.isNone_some, Bool.or_self, Bool.false_eq_true,
      if_false, hp.address, read32_eq hsel, true_and]
    exact hone _ rfl
  | write8 v =>
    simp only [PciCall.run, uacpiKernelPciWrite8, pciWrite, h0, Bool.false_eq_true, if_false, hp.address,
      pciConfigWrite8, writeUnder_eq hsel, true_and]
    exact htwo _ rfl
  | write16 v =>
    simp only [PciCall.run, uacpiKernelPciWrite16, pciWrite, h0, Bool.false_eq_true, if_false, hp.address,
      pciConfigWrite16, writeUnder_eq hsel, true_and]
    exact htwo _ rfl
  | write32 v =>
    simp only [PciCall.run, uacpiKernelPciWrite32, pciWrite, h0, Bool.false_eq_true, if_false, hp.address,
      write32_eq hsel, true_and]
    exact hone _ rfl

/-- A name that can be expressed is that of the word selected. -/
theorem UacpiPciAddress.Expressible.names (he : a.Expressible o) :
    a.Names o (configTarget a.bus a.device a.function o.toUInt8 he.device he.function) where
  segment := he.segment
  bus := rfl
  device := rfl
  function := rfl
  register := by
    have ho : o.toUInt8.toNat = o.toNat := by
      rw [UInt64.toNat_toUInt8, Nat.mod_eq_of_lt he.offset]
    change o.toUInt8.toNat / 4 = o.toNat / 4
    rw [ho]

theorem UacpiPciAddress.Names.expressible (hn : a.Names o t) : a.Expressible o where
  segment := hn.segment
  device := hn.device ▸ t.device.isLt
  function := hn.function ▸ t.function.isLt
  offset := by
    have hlt := t.register.isLt
    rw [hn.register] at hlt
    omega

/-- A word has one name. -/
theorem UacpiPciAddress.Names.unique (ha : a.Names o t) (hb : b.Names o' t) :
    (a, o.toNat / 4) = (b, o'.toNat / 4) := by
  obtain ⟨segment, bus, device, function⟩ := a
  obtain ⟨segment', bus', device', function'⟩ := b
  obtain ⟨hs, hbus, hdevice, hfunction, hregister⟩ := ha
  obtain ⟨hs', hbus', hdevice', hfunction', hregister'⟩ := hb
  have h1 : segment = segment' := hs.trans hs'.symm
  have h2 : bus = bus' := UInt8.toNat.inj (hbus.symm.trans hbus')
  have h3 : device = device' := UInt8.toNat.inj (hdevice.symm.trans hdevice')
  have h4 : function = function' := UInt8.toNat.inj (hfunction.symm.trans hfunction')
  rw [h1, h2, h3, h4, ← hregister, ← hregister']

theorem PciCall.faithful_iff (hp : PciHandle m p a) (c : PciCall) :
    c.Faithful m p a o ↔ a.Expressible o := by
  constructor
  · intro hc
    obtain ⟨t, hsel⟩ := exists_selected (uniformSpace 0 0) a.bus a.device a.function o.toUInt8
    obtain ⟨hok, haccessed⟩ := c.run_accessed hp hsel
    have hnames := (hc (uniformSpace 0 0)).resolve_left fun hne => hne hok
    exact (hnames t ((haccessed t).mpr rfl)).expressible
  · intro he io
    obtain ⟨-, haccessed⟩ := c.run_accessed hp (selected_pciConfigAddress io a.bus o.toUInt8 he.device he.function)
    right
    intro w hw
    rw [(haccessed w).mp hw]
    exact he.names

/-- **The PCI shim.** Two accesses keep apart and to the words they name if and
only if the configuration mechanism can express both names. -/
theorem pci_shim_sound_iff (hp : PciHandle m p a) (hq : PciHandle m q b) (o o' : UInt64) :
    ShimSound m p q a b o o' ↔ a.Expressible o ∧ b.Expressible o' := by
  constructor
  · intro hs
    exact ⟨(PciCall.faithful_iff hp _).mp (hs.first (.read8 0)), (PciCall.faithful_iff hq _).mp (hs.second (.read8 0))⟩
  · rintro ⟨ha, hb⟩
    refine ⟨fun hne c d io io' => .inr (.inr fun w hw hw' => hne ?_), fun c => (c.faithful_iff hp).mpr ha,
      fun c => (c.faithful_iff hq).mpr hb⟩
    obtain ⟨-, hc⟩ := c.run_accessed hp (selected_pciConfigAddress io a.bus o.toUInt8 ha.device ha.function)
    obtain ⟨-, hd⟩ := d.run_accessed hq (selected_pciConfigAddress io' b.bus o'.toUInt8 hb.device hb.function)
    have hw₁ := ha.names
    have hw₂ := hb.names
    rw [← (hc w).mp hw] at hw₁
    rw [← (hd w).mp hw'] at hw₂
    exact hw₁.unique hw₂

end Shim

/-- The memory after two devices are opened: function 1 of device 3 of bus 0,
and function 0 of device 32, which bus 1 would have as device 0. -/
def twoOpened : Option (UInt64 × UInt64 × Mem) := do
  let (_, p, h) ← uacpiKernelPciDeviceOpen poolAt4096 ⟨fun _ => 0, 0, false⟩ ⟨0, 0, 3, 1⟩ (some 0)
  let (_, q, h) ← uacpiKernelPciDeviceOpen poolAt4096 h ⟨0, 0, 32, 0⟩ (some 0)
  return (← p, ← q, h.mem)

theorem pci_shim_sound_iff_two_devices : ∃ m, twoOpened = some (4120, 4152, m) ∧
    (ShimSound m 4120 4152 ⟨0, 0, 3, 1⟩ ⟨0, 0, 32, 0⟩ 4 0 ↔
      UacpiPciAddress.Expressible ⟨0, 0, 3, 1⟩ 4 ∧ UacpiPciAddress.Expressible ⟨0, 0, 32, 0⟩ 0) := by
  have hrun : twoOpened.map (fun r => (r.1, r.2.1, pciHandleAddress r.2.2 4120, pciHandleAddress r.2.2 4152)) =
      some (4120, 4152, ⟨0, 0, 3, 1⟩, ⟨0, 0, 32, 0⟩) := by decide +kernel
  obtain ⟨⟨p, q, m⟩, hopen, he⟩ := Option.map_eq_some_iff.mp hrun
  simp only [Prod.mk.injEq] at he
  obtain ⟨rfl, rfl, hp, hq⟩ := he
  exact ⟨m, hopen, pci_shim_sound_iff ⟨by decide, hp⟩ ⟨by decide, hq⟩ 4 0⟩

/-- Offsets 4 and 260 of one device: both writes are answered OK, at one word. -/
theorem offset_truncated : ∃ p h', uacpiKernelPciDeviceOpen poolAt4096 ⟨fun _ => 0, 0, false⟩ ⟨0, 0, 3, 1⟩ (some 0) =
    some (.ok, some p, h') ∧
    ((PciCall.write32 7).run h'.mem (uniformSpace 0 0) p 4).1 = .ok ∧
    configWord 0x1904 ∈ (uniformSpace 0 0).accessed ((PciCall.write32 7).run h'.mem (uniformSpace 0 0) p 4).2 ∧
    ((PciCall.write32 7).run h'.mem (uniformSpace 0 0) p 260).1 = .ok ∧
    configWord 0x1904 ∈ (uniformSpace 0 0).accessed ((PciCall.write32 7).run h'.mem (uniformSpace 0 0) p 260).2 ∧
    ¬ ShimSound h'.mem p p ⟨0, 0, 3, 1⟩ ⟨0, 0, 3, 1⟩ 4 260 := by
  have hrun : (uacpiKernelPciDeviceOpen poolAt4096 ⟨fun _ => 0, 0, false⟩ ⟨0, 0, 3, 1⟩ (some 0)).any (fun r =>
      r.1 == .ok && r.2.1 == some 4120 && pciHandleAddress r.2.2.mem 4120 == ⟨0, 0, 3, 1⟩) = true := by decide +kernel
  simp only [Option.any_eq_true, Bool.and_eq_true, beq_iff_eq] at hrun
  obtain ⟨⟨status, p, h'⟩, hopen, ⟨rfl, rfl⟩, hp⟩ := hrun
  have hhandle : PciHandle h'.mem 4120 ⟨0, 0, 3, 1⟩ := ⟨by decide, hp⟩
  have hsel : ({ uniformSpace 0 0 with address := pciConfigAddress 0 3 1 (4 : UInt64).toUInt8 }).selected =
      some (configWord 0x1904) := by decide +kernel
  have hsel' : ({ uniformSpace 0 0 with address := pciConfigAddress 0 3 1 (260 : UInt64).toUInt8 }).selected =
      some (configWord 0x1904) := by decide +kernel
  obtain ⟨hok, hword⟩ := (PciCall.write32 7).run_accessed hhandle hsel
  obtain ⟨hok', hword'⟩ := (PciCall.write32 7).run_accessed hhandle hsel'
  refine ⟨4120, h', hopen, hok, (hword _).mpr rfl, hok', (hword' _).mpr rfl, ?_⟩
  intro hs
  rcases hs.apart (by decide) (.write32 7) (.write32 7) (uniformSpace 0 0) (uniformSpace 0 0) with h | h | h
  · exact h hok
  · exact h hok'
  · exact h _ ((hword _).mpr rfl) ((hword' _).mpr rfl)

end Tinos
