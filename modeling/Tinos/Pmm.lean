/-
The physical memory manager (`kernel/mm/pmm.c`): one bit a 4 KiB frame for
the first 64 GiB, set when the frame is used, and a count of the free ones.

A function returns `none` when it indexes `bitmap` outside its
`bitmapSize` bytes, which C leaves undefined. What is printed is left out.
-/
import Tinos.Lib.Bits

namespace Tinos

open Bits

def pmmPageSize : UInt64 := 4096
def maxPhysicalMemory : UInt64 := 64 * 1024 * 1024 * 1024
def maxPages : UInt64 := maxPhysicalMemory / pmmPageSize
def bitmapSize : Nat := ((maxPages + 7) / 8).toNat

@[simp] theorem pmmPageSize_toNat : pmmPageSize.toNat = 4096 := rfl
@[simp] theorem maxPages_toNat : maxPages.toNat = 16777216 := rfl

/-- The static data of `pmm.c`. -/
structure Pmm where
  bitmap : Cells bitmapSize
  totalPages : UInt64
  freePages : UInt64

def setPage (s : Pmm) (page : UInt64) : Option Pmm := do
  let bitmap ← s.bitmap.set page.toNat
  return { s with bitmap }

def clearPage (s : Pmm) (page : UInt64) : Option Pmm := do
  let bitmap ← s.bitmap.clear page.toNat
  return { s with bitmap }

def pageUsed (s : Pmm) (page : UInt64) : Option Bool :=
  s.bitmap.test page.toNat

/-- Everything starts used. -/
def pmmInit : Pmm where
  bitmap := fun _ => 0xFF
  totalPages := maxPages
  freePages := 0

/-- The body of the loop of `pmm_add_region`. -/
def addPage (s : Pmm) (page : UInt64) : Option Pmm := do
  if ← pageUsed s page then
    let s ← clearPage s page
    return { s with freePages := s.freePages + 1 }
  else
    return s

/-- The body of the loop of `pmm_reserve_region`. -/
def reservePage (s : Pmm) (page : UInt64) : Option Pmm := do
  if ← pageUsed s page then
    return s
  else
    let s ← setPage s page
    return { s with freePages := s.freePages - 1 }

/-- `for (address = start; address < end; address += PMM_PAGE_SIZE)`, left at
the first page the bitmap does not track. -/
def eachPage (body : Pmm → UInt64 → Option Pmm) (s : Pmm) (address stop : UInt64) : Option Pmm :=
  if address < stop then
    if maxPages ≤ address / pmmPageSize then some s
    else do
      let s ← body s (address / pmmPageSize)
      eachPage body s (address + pmmPageSize) stop
  else some s
termination_by maxPages.toNat - (address / pmmPageSize).toNat
decreasing_by
  rename_i h
  rw [UInt64.le_iff_toNat_le] at h
  simp only [UInt64.toNat_div, UInt64.toNat_add, pmmPageSize_toNat, maxPages_toNat] at h ⊢
  omega

/-- The base is rounded up and the end down. -/
def pmmAddRegion (s : Pmm) (base length : UInt64) : Option Pmm :=
  let start := (base + pmmPageSize - 1) &&& ~~~(pmmPageSize - 1)
  let stop := (base + length) &&& ~~~(pmmPageSize - 1)
  if stop ≤ start then some s
  else eachPage addPage s start stop

/-- The base is rounded down and the end up. -/
def pmmReserveRegion (s : Pmm) (base length : UInt64) : Option Pmm :=
  let start := base &&& ~~~(pmmPageSize - 1)
  let stop := (base + length + pmmPageSize - 1) &&& ~~~(pmmPageSize - 1)
  if stop ≤ start then some s
  else eachPage reservePage s start stop

/-- The scan of both allocators: the first clear bit from `page` up to
`limit` is set, and its address returned; 0 when there is none. -/
def allocFrom (s : Pmm) (limit page : UInt64) : Option (UInt64 × Pmm) :=
  if page < limit then do
    if ← pageUsed s page then
      allocFrom s limit (page + 1)
    else
      let s ← setPage s page
      return (page * pmmPageSize, { s with freePages := s.freePages - 1 })
  else some (0, s)
termination_by limit.toNat - page.toNat
decreasing_by
  rename_i h
  have hl := limit.toNat_lt
  rw [UInt64.lt_iff_toNat_lt] at h
  simp only [UInt64.toNat_add, UInt64.reduceToNat]
  omega

def pmmAllocPage (s : Pmm) : Option (UInt64 × Pmm) :=
  allocFrom s maxPages 1

/-- Only the first 8 MiB. -/
def pmmAllocPageLow (s : Pmm) : Option (UInt64 × Pmm) :=
  allocFrom s 2048 1

def pmmFreePage (s : Pmm) (address : UInt64) : Option Pmm :=
  if address % pmmPageSize ≠ 0 then some s
  else if maxPages ≤ address / pmmPageSize then some s
  else do
    if ← pageUsed s (address / pmmPageSize) then
      let s ← clearPage s (address / pmmPageSize)
      return { s with freePages := s.freePages + 1 }
    else
      return s

def pmmGetFreePages (s : Pmm) : UInt64 := s.freePages

def pmmGetTotalPages (s : Pmm) : UInt64 := s.totalPages

end Tinos
