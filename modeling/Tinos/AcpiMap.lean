/-
uACPI's memory mapping (`kernel/acpi/kernel_apis.c`): a window of 16384 pages
of virtual memory, one bit a page for what is taken (`map_slots`), and 256
records of what was mapped where (`mappings`). Memory below 1 GiB is not
mapped: its own address is answered.

`none` is an access to `map_slots` outside its 2048 bytes. A slot number is
a `Nat`: every sum of two that the code forms stays below 2^15.
-/
import Tinos.Vmm

namespace Tinos

open Bits

def acpiPageSize : UInt64 := 0x1000
def acpiMapWindowBase : UInt64 := 0xFFFF800000000000
def acpiMapWindowPages : Nat := 16384
def acpiMapRecords : Nat := 256
def acpiPageFlagWritable : UInt64 := 0x002
def acpiIdentityMapLimit : UInt64 := 1024 * 1024 * 1024

/-- `(void *)-1`. -/
def uacpiMapFailed : UInt64 := 0xFFFFFFFFFFFFFFFF

structure AcpiMapping where
  virtualBase : UInt64
  pageCount : UInt64
deriving DecidableEq

abbrev Slots := Cells (acpiMapWindowPages / 8)

abbrev Mappings := Fin acpiMapRecords → AcpiMapping

/-- The static data, with the page tables it maps into. -/
structure AcpiMap where
  vmm : Vmm
  mapSlots : Slots
  mappings : Mappings

/-! ## Slots -/

def slotIsUsed (slots : Slots) (slot : Nat) : Option Bool := slots.test slot
def setSlot (slots : Slots) (slot : Nat) : Option Slots := slots.set slot
def clearSlot (slots : Slots) (slot : Nat) : Option Slots := slots.clear slot

/-- Where the search for a used slot from `start + index` stops, with `n`
slots to go. -/
def firstUsed (slots : Slots) (start : Nat) : Nat → Nat → Option Nat
  | 0, index => some index
  | n + 1, index => do
    if ← slotIsUsed slots (start + index) then
      return index
    else
      firstUsed slots start n (index + 1)

/-- `body` for each of the `n` slots from `slot`. -/
def eachSlot (body : Slots → Nat → Option Slots) (slots : Slots) : Nat → Nat → Option Slots
  | 0, _ => some slots
  | n + 1, slot => do
    let slots ← body slots slot
    eachSlot body slots n (slot + 1)

/-- The loop of `reserve_slots`, with `n` starts to go from `start`. -/
def reserveFrom (slots : Slots) (pageCount : Nat) : Nat → Nat → Option (Option (Nat × Slots))
  | 0, _ => some none
  | n + 1, start => do
    let index ← firstUsed slots start pageCount 0
    if index == pageCount then
      let slots ← eachSlot setSlot slots pageCount start
      return some (start, slots)
    else
      reserveFrom slots pageCount n (start + 1)

/-- The slot `*out_start`, with the slots taken; `none` for a 0 answered. -/
def reserveSlots (slots : Slots) (pageCount : Nat) : Option (Option (Nat × Slots)) :=
  if pageCount == 0 || acpiMapWindowPages < pageCount then some none
  else reserveFrom slots pageCount (acpiMapWindowPages - pageCount + 1) 0

def releaseSlots (slots : Slots) (start pageCount : Nat) : Option Slots :=
  if acpiMapWindowPages ≤ start || acpiMapWindowPages - start < pageCount then some slots
  else eachSlot clearSlot slots pageCount start

/-! ## Records -/

/-- The first free record. -/
def reserveMappingRecord (mappings : Mappings) : Option (Fin acpiMapRecords) :=
  (List.finRange acpiMapRecords).find? fun index => (mappings index).pageCount == 0

def findMapping (mappings : Mappings) (virtualBase pageCount : UInt64) : Option (Fin acpiMapRecords) :=
  (List.finRange acpiMapRecords).find? fun index =>
    (mappings index).virtualBase == virtualBase && (mappings index).pageCount == pageCount

/-! ## Mapping and unmapping -/

/-- The bytes of the pages that `len` bytes at page offset `offset` touch, or
`none` where the sum wraps. -/
def mappedLength (offset len : UInt64) : Option UInt64 :=
  if ~~~0 - offset < len then none
  else if ~~~0 - (acpiPageSize - 1) < len + offset then none
  else some ((len + offset + acpiPageSize - 1) &&& ~~~(acpiPageSize - 1))

section Image

variable (img : Image)

def mappingWasInstalled (s : Vmm) (virtualAddress physicalAddress : UInt64) : Bool :=
  let pageTable := getPageTable img s virtualAddress
  if pageTable == 0 then false
  else s.mem pageTable (ptIndex virtualAddress) &&& 0x000FFFFFFFFFF000 == physicalAddress

/-- The page of a slot. -/
def slotAddress (slot : Nat) : UInt64 := acpiMapWindowBase + UInt64.ofNat slot * acpiPageSize

/-- `while (index != 0) { --index; unmap_page(..); }` -/
def unmapBack (s : Vmm) (slotStart : Nat) : Nat → Vmm
  | 0 => s
  | index + 1 => unmapBack (unmapPage img s (slotAddress (slotStart + index))) slotStart index

/-- The loop of `uacpi_kernel_map`, with `n` pages to go from `index`: whether
every page was installed. Those that were are taken back when one was not. -/
def mapPages (s : Vmm) (slotStart : Nat) (physicalBase : UInt64) : Nat → Nat → Option (Bool × Vmm)
  | 0, _ => some (true, s)
  | n + 1, index => do
    let virtualPage := slotAddress (slotStart + index)
    let physicalPage := physicalBase + UInt64.ofNat index * acpiPageSize
    let s ← mapPage img s virtualPage physicalPage acpiPageFlagWritable
    if mappingWasInstalled img s virtualPage physicalPage then
      mapPages s slotStart physicalBase n (index + 1)
    else
      return (false, unmapBack img s slotStart index)

def uacpiKernelMap (s : AcpiMap) (addr len : UInt64) : Option (UInt64 × AcpiMap) :=
  if len == 0 then some (uacpiMapFailed, s)
  else if addr < acpiIdentityMapLimit && len ≤ acpiIdentityMapLimit - addr then some (addr, s)
  else
    let offset := addr &&& (acpiPageSize - 1)
    match mappedLength offset len with
    | none => some (uacpiMapFailed, s)
    | some mappedLength =>
      let pageCount := mappedLength / acpiPageSize
      if pageCount == 0 || UInt64.ofNat acpiMapWindowPages < pageCount then some (uacpiMapFailed, s)
      else
        match reserveMappingRecord s.mappings with
        | none => some (uacpiMapFailed, s)
        | some record => do
          match ← reserveSlots s.mapSlots pageCount.toUInt32.toNat with
          | none => return (uacpiMapFailed, s)
          | some (slotStart, mapSlots) =>
            let (installed, vmm) ← mapPages img s.vmm slotStart (addr - offset) pageCount.toNat 0
            if installed then
              let mapping := { virtualBase := slotAddress slotStart, pageCount := pageCount }
              return (mapping.virtualBase + offset,
                { vmm, mapSlots, mappings := Function.update s.mappings record mapping })
            else
              let mapSlots ← releaseSlots mapSlots slotStart pageCount.toUInt32.toNat
              return (uacpiMapFailed, { s with vmm, mapSlots })

/-- The loop of `uacpi_kernel_unmap`, with `n` pages to go from `index`. -/
def unmapPages (s : Vmm) (virtualBase : UInt64) : Nat → Nat → Vmm
  | 0, _ => s
  | n + 1, index =>
    unmapPages (unmapPage img s (virtualBase + UInt64.ofNat index * acpiPageSize)) virtualBase n (index + 1)

def uacpiKernelUnmap (s : AcpiMap) (addr len : UInt64) : Option AcpiMap :=
  if addr == 0 || addr == uacpiMapFailed || len == 0 then some s
  else
    let offset := addr &&& (acpiPageSize - 1)
    match mappedLength offset len with
    | none => some s
    | some mappedLength =>
      let pageCount := mappedLength / acpiPageSize
      let virtualBase := addr - offset
      if virtualBase < acpiMapWindowBase || pageCount == 0 || UInt64.ofNat acpiMapWindowPages < pageCount ||
          acpiMapWindowBase + (UInt64.ofNat acpiMapWindowPages - pageCount) * acpiPageSize < virtualBase then
        some s
      else
        match findMapping s.mappings virtualBase pageCount with
        | none => some s
        | some record => do
          let slotStart := (virtualBase - acpiMapWindowBase) / acpiPageSize
          let vmm := unmapPages img s.vmm virtualBase pageCount.toNat 0
          let mapSlots ← releaseSlots s.mapSlots slotStart.toUInt32.toNat pageCount.toUInt32.toNat
          return { vmm, mapSlots, mappings := Function.update s.mappings record ⟨0, 0⟩ }

end Image

end Tinos
