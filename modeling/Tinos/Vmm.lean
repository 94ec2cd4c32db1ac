/-
The virtual memory manager (`kernel/mm/vmm.c`): the four-level page tables
under `initial_pml4`, and the frames they are allocated from.

A `uint64_t *` to a table is its address, 0 for NULL. Tables are reached
through the identity map of the first GiB, so the address is physical and
the word `table[index]` is entry `index` of the page at `table`; every such
pointer is page aligned and every index below 512.

`Vmm.trace` records what the code does that is not in the state: each table
word it stores, each `invlpg` and each load of `cr3`, in order. No function
reads it.
-/
import Tinos.Lib.Radix
import Tinos.Pmm

namespace Tinos

open Radix

def pageSize : UInt64 := 0x1000
def pageAddressMask : UInt64 := 0x000FFFFFFFFFF000
def pageFlagPresent : UInt64 := 0x001
def pageFlagWritable : UInt64 := 0x002
def pageFlagMask : UInt64 := 0xFFF
def bootstrapIdentityLimit : UInt64 := 1024 * 1024 * 1024

/-- Where the linker puts the three static tables: in the kernel image, page
aligned, apart from each other and below the end of the identity map. -/
structure Image where
  initialPml4 : UInt64
  initialPdpt : UInt64
  initialPd : UInt64
  aligned : ∀ t ∈ [initialPml4, initialPdpt, initialPd], t &&& (pageSize - 1) = 0
  low : ∀ t ∈ [initialPml4, initialPdpt, initialPd], 0 < t ∧ t < bootstrapIdentityLimit
  nodup : [initialPml4, initialPdpt, initialPd].Nodup

/-- What the code does to the machine. -/
inductive Effect where
  | store (table : UInt64) (index : Fin 512) (value : UInt64)
  | invlpg (address : UInt64)
  | loadCr3 (address : UInt64)
deriving DecidableEq

structure Vmm where
  mem : Store UInt64 (Fin 512) UInt64
  pmm : Pmm
  pagingEnabled : Bool
  trace : List Effect

/-- `table[index] = value`. -/
def Vmm.write (s : Vmm) (table : UInt64) (index : Fin 512) (value : UInt64) : Vmm :=
  { s with mem := s.mem.set table index value, trace := s.trace ++ [.store table index value] }

def pageAlignedAddress (address : UInt64) : Bool := address &&& (pageSize - 1) == 0

def canonicalAddress (address : UInt64) : Bool :=
  let upper := address >>> 48
  upper == 0 || upper == 0xFFFF

/-- `for (index = 0; index < PAGE_ENTRIES; ++index) table[index] = value`. -/
def Vmm.writeEach (s : Vmm) (table : UInt64) (value : Fin 512 → UInt64) : Vmm :=
  { s with
    mem := fun t i => if t = table then value i else s.mem t i
    trace := s.trace ++ (List.finRange 512).map fun i => .store table i (value i) }

def zeroPage (s : Vmm) (page : UInt64) : Vmm := s.writeEach page fun _ => 0

def physicalToBootstrapVirtual (physicalAddress : UInt64) : UInt64 :=
  if bootstrapIdentityLimit ≤ physicalAddress || !pageAlignedAddress physicalAddress then 0
  else physicalAddress

def entryTable (entry : UInt64) : UInt64 :=
  if entry &&& pageFlagPresent == 0 then 0
  else physicalToBootstrapVirtual (entry &&& pageAddressMask)

def tableEntry (physicalAddress : UInt64) : UInt64 :=
  (physicalAddress &&& pageAddressMask) ||| pageFlagPresent ||| pageFlagWritable

def allocateTable (s : Vmm) : Option (UInt64 × Vmm) := do
  let (physicalAddress, pmm) ← pmmAllocPageLow s.pmm
  let s := { s with pmm }
  if physicalAddress == 0 then
    return (0, s)
  else
    let table := physicalToBootstrapVirtual physicalAddress
    if table == 0 then
      let pmm ← pmmFreePage s.pmm physicalAddress
      return (0, { s with pmm })
    else
      return (table, zeroPage s table)

def nextTable (s : Vmm) (table : UInt64) (index : Fin 512) : Option (UInt64 × Vmm) := do
  let next := entryTable (s.mem table index)
  if next != 0 then
    return (next, s)
  else
    let (next, s) ← allocateTable s
    if next == 0 then
      return (0, s)
    else
      return (next, s.write table index (tableEntry next))

def flushTlbPage (s : Vmm) (virtualAddress : UInt64) : Vmm :=
  { s with trace := s.trace ++ [.invlpg virtualAddress] }

/-- `(virtual_address >> shift) & 0x1FF`. -/
def tableIndex (virtualAddress shift : UInt64) : Fin 512 :=
  ⟨((virtualAddress >>> shift) &&& 0x1FF).toNat, by
    rw [UInt64.toNat_and]
    exact Nat.lt_of_le_of_lt Nat.and_le_right (by decide)⟩

def pml4Index (virtualAddress : UInt64) : Fin 512 := tableIndex virtualAddress 39
def pdptIndex (virtualAddress : UInt64) : Fin 512 := tableIndex virtualAddress 30
def pdIndex (virtualAddress : UInt64) : Fin 512 := tableIndex virtualAddress 21
def ptIndex (virtualAddress : UInt64) : Fin 512 := tableIndex virtualAddress 12

/-- `index * 2 MiB`, present, writable and large. -/
def largePageEntry (index : Fin 512) : UInt64 := (UInt64.ofNat index * 2 * 1024 * 1024) ||| 0x083

section Image

variable (img : Image)

def reloadPageDirectory (s : Vmm) : Vmm :=
  { s with trace := s.trace ++ [.loadCr3 img.initialPml4] }

/-- The identity map of the first GiB, in 2 MiB pages. -/
def pagingInit (s : Vmm) : Vmm :=
  if s.pagingEnabled then s
  else
    let s := zeroPage s img.initialPml4
    let s := zeroPage s img.initialPdpt
    let s := zeroPage s img.initialPd
    let s := s.write img.initialPml4 0 (img.initialPdpt ||| 0x003)
    let s := s.write img.initialPdpt 0 (img.initialPd ||| 0x003)
    let s := s.writeEach img.initialPd largePageEntry
    let s := reloadPageDirectory img s
    { s with pagingEnabled := true }

def vmmInit (s : Vmm) : Vmm := pagingInit img s

/-- What `map_page` refuses before it looks at a table. -/
def mapRefused (s : Vmm) (virtualAddress physicalAddress flags : UInt64) : Bool :=
  !s.pagingEnabled || !canonicalAddress virtualAddress ||
    !pageAlignedAddress virtualAddress ||
    !pageAlignedAddress physicalAddress ||
    physicalAddress &&& ~~~pageAddressMask != 0 ||
    flags &&& ~~~pageFlagMask != 0

def mapPage (s : Vmm) (virtualAddress physicalAddress flags : UInt64) : Option Vmm :=
  if mapRefused s virtualAddress physicalAddress flags then some s
  else do
    let (pdpt, s) ← nextTable s img.initialPml4 (pml4Index virtualAddress)
    let (pd, s) ← if pdpt == 0 then some (0, s) else nextTable s pdpt (pdptIndex virtualAddress)
    let (pt, s) ← if pd == 0 then some (0, s) else nextTable s pd (pdIndex virtualAddress)
    if pt == 0 then
      return s
    else
      let s := s.write pt (ptIndex virtualAddress)
        ((physicalAddress &&& pageAddressMask) ||| (flags &&& pageFlagMask) ||| pageFlagPresent)
      return flushTlbPage s virtualAddress

/-- The last-level table of the software walk. -/
def findTable (s : Vmm) (virtualAddress : UInt64) : UInt64 :=
  let pdpt := entryTable (s.mem img.initialPml4 (pml4Index virtualAddress))
  let pd := if pdpt == 0 then 0 else entryTable (s.mem pdpt (pdptIndex virtualAddress))
  if pd == 0 then 0 else entryTable (s.mem pd (pdIndex virtualAddress))

def unmapPage (s : Vmm) (virtualAddress : UInt64) : Vmm :=
  if !s.pagingEnabled || !canonicalAddress virtualAddress || !pageAlignedAddress virtualAddress then s
  else
    let pt := findTable img s virtualAddress
    if pt == 0 then s
    else flushTlbPage (s.write pt (ptIndex virtualAddress) 0) virtualAddress

def getPageTable (s : Vmm) (virtualAddress : UInt64) : UInt64 :=
  if !s.pagingEnabled || !canonicalAddress virtualAddress then 0
  else findTable img s virtualAddress

end Image

/-! ## The processor's walk -/

/-- Bits 63 to 47 all equal: other addresses fault before any table is read. -/
def hardwareCanonical (address : UInt64) : Bool :=
  let upper := address >>> 47
  upper == 0 || upper == 0x1FFFF

def present (entry : UInt64) : Bool := entry &&& 0x001 != 0

/-- The page-size bit of a directory entry. -/
def large (entry : UInt64) : Bool := entry &&& 0x080 != 0

/-- How the processor reads an entry with `k` levels below it. The last level
has no page-size bit; a page-directory entry with it maps 2 MiB, a
page-directory-pointer entry 1 GiB, and in the top level it is reserved. -/
def pageFormat : Format UInt64 UInt64 where
  next entry := if present entry && !large entry then some (entry &&& pageAddressMask) else none
  leaf k entry := present entry && (k == 0 || (large entry && k ≤ 2))
  next_of_leaf k entry h := by simp_all

/-- The table indices of an address, from the top. -/
def path (address : UInt64) : List (Fin 512) :=
  [pml4Index address, pdptIndex address, pdIndex address, ptIndex address]

/-- The tables of an address are not those of the identity map. -/
def OffIdentity (address : UInt64) : Prop := [pml4Index address, pdptIndex address] ≠ [0, 0]

/-- The walk of the processor for `address`, with `cr3` at `initial_pml4`. -/
def hardwareWalk (img : Image) (s : Vmm) (address : UInt64) : Option (Leaf UInt64 (Fin 512) UInt64) :=
  if hardwareCanonical address then walk pageFormat s.mem img.initialPml4 (path address) else none

/-- The physical address a walk that ends at `l` gives. -/
def physicalAddress (l : Leaf UInt64 (Fin 512) UInt64) (address : UInt64) : UInt64 :=
  let offset : UInt64 := (1 <<< (12 + 9 * UInt64.ofNat l.left)) - 1
  ((l.entry &&& pageAddressMask) &&& ~~~offset) ||| (address &&& offset)

def translate (img : Image) (s : Vmm) (address : UInt64) : Option UInt64 :=
  (hardwareWalk img s address).map (physicalAddress · address)

end Tinos
