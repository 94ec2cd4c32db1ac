/-
The kernel heap (`kernel/lib/std/stdlib.c`): a 1 MiB pool tiled by blocks, each
a 24-byte header and its payload, linked in the order of their addresses.

Memory is bytes by address and a header is three fields in it, so what a
client writes past its allocation would be seen. A pointer is its address, 0
for NULL, and `block + 1` is 24 bytes on. The loops over the list take the
number of steps they may take; `none` is a loop that takes more.
-/
import Tinos.Lib.Bytes

namespace Tinos

open Bytes

def poolSize : UInt64 := 1024 * 1024
def sizeofBlock : UInt64 := 24
def allocationAlignment : UInt64 := 8
def sizeMax : UInt64 := ~~~0

/-- Where the linker puts `memory_pool`: aligned for a `Block`, not at NULL. -/
structure MemoryPool where
  bytes : UInt64
  aligned : bytes.toNat % 8 = 0
  pos : 0 < bytes.toNat
  fits : bytes.toNat + poolSize.toNat < 2 ^ 64

/-- A pool at 4096. -/
def poolAt4096 : MemoryPool := ⟨4096, by decide, by decide, by decide⟩

/-- Memory, and the static data of `stdlib.c` outside the pool. -/
structure Heap where
  mem : Mem
  freeList : UInt64
  allocatorInitialized : Bool

/-! ## The fields of a `Block` -/

def blockSize (m : Mem) (block : UInt64) : UInt64 := load64 m block.toNat
def blockFree (m : Mem) (block : UInt64) : UInt32 := load32 m (block.toNat + 8)
def blockNext (m : Mem) (block : UInt64) : UInt64 := load64 m (block.toNat + 16)

def setBlockSize (m : Mem) (block size : UInt64) : Mem := store64 m block.toNat size
def setBlockFree (m : Mem) (block : UInt64) (free : UInt32) : Mem := store32 m (block.toNat + 8) free
def setBlockNext (m : Mem) (block next : UInt64) : Mem := store64 m (block.toNat + 16) next

/-! ## The list -/

/-- 0 where rounding up would wrap. -/
def alignSize (size : UInt64) : UInt64 :=
  let padding := allocationAlignment - 1
  if sizeMax - padding < size then 0 else (size + padding) &&& ~~~padding

def splitBlock (m : Mem) (block size : UInt64) : Mem :=
  if blockSize m block < size + sizeofBlock + allocationAlignment then m
  else
    let remainder := block + sizeofBlock + size
    let m := setBlockSize m remainder (blockSize m block - size - sizeofBlock)
    let m := setBlockFree m remainder 1
    let m := setBlockNext m remainder (blockNext m block)
    let m := setBlockSize m block size
    setBlockNext m block remainder

/-- The body of the inner loop of `coalesce_all`. -/
def absorbOne (m : Mem) (current : UInt64) : Mem :=
  let m := setBlockSize m current (blockSize m current + (sizeofBlock + blockSize m (blockNext m current)))
  setBlockNext m current (blockNext m (blockNext m current))

/-- `while (current->next != NULL && current->next->free)`. -/
def absorbNext (m : Mem) (current : UInt64) : Nat → Option Mem
  | 0 => none
  | steps + 1 =>
    if blockNext m current != 0 && blockFree m (blockNext m current) != 0 then
      absorbNext (absorbOne m current) current steps
    else some m

/-- `while (current != NULL)`. -/
def coalesceFrom (m : Mem) (current : UInt64) : Nat → Option Mem
  | 0 => none
  | steps + 1 =>
    if current == 0 then some m
    else do
      let m ← if blockFree m current != 0 then absorbNext m current (steps + 1) else some m
      coalesceFrom m (blockNext m current) steps

/-- More steps than the pool has room for blocks. -/
def listSteps : Nat := poolSize.toNat

def coalesceAll (h : Heap) : Option Heap := do
  let mem ← coalesceFrom h.mem h.freeList listSteps
  return { h with mem }

/-- The loop of `malloc`: the first free block of the size, or NULL. -/
def firstFit (m : Mem) (size block : UInt64) : Nat → Option UInt64
  | 0 => none
  | steps + 1 =>
    if block == 0 then some 0
    else if blockFree m block != 0 && size ≤ blockSize m block then some block
    else firstFit m size (blockNext m block) steps

/-! ## The calls -/

section Pool

variable (pool : MemoryPool)

def allocatorInit (h : Heap) : Heap :=
  if h.allocatorInitialized then h
  else
    let freeList := pool.bytes
    let m := setBlockSize h.mem freeList (poolSize - sizeofBlock)
    let m := setBlockFree m freeList 1
    let m := setBlockNext m freeList 0
    { mem := m, freeList, allocatorInitialized := true }

def malloc (h : Heap) (size : UInt64) : Option (UInt64 × Heap) :=
  if size == 0 then some (0, h)
  else
    let size := alignSize size
    if size == 0 then some (0, h)
    else do
      let h := allocatorInit pool h
      let block ← firstFit h.mem size h.freeList listSteps
      if block == 0 then
        return (0, h)
      else
        let mem := splitBlock h.mem block size
        let mem := setBlockFree mem block 0
        return (block + sizeofBlock, { h with mem })

def free (h : Heap) (ptr : UInt64) : Option Heap :=
  if ptr == 0 || !h.allocatorInitialized then some h
  else
    let block := ptr - sizeofBlock
    if blockFree h.mem block != 0 then some h
    else coalesceAll { h with mem := setBlockFree h.mem block 1 }

/-- `while (copy_size-- != 0) *destination++ = *source++`. -/
def copyBytes (m : Mem) (destination source : UInt64) : Nat → Mem
  | 0 => m
  | copySize + 1 =>
    copyBytes (store m destination.toNat 1 (m source.toNat).toNat) (destination + 1) (source + 1) copySize

def realloc (h : Heap) (ptr newSize : UInt64) : Option (UInt64 × Heap) :=
  if ptr == 0 then malloc pool h newSize
  else if newSize == 0 then do
    let h ← free h ptr
    return (0, h)
  else
    let newSize := alignSize newSize
    if newSize == 0 then some (0, h)
    else
      let block := ptr - sizeofBlock
      if blockFree h.mem block != 0 then some (0, h)
      else
        let oldSize := blockSize h.mem block
        if newSize ≤ oldSize then some (ptr, { h with mem := splitBlock h.mem block newSize })
        else
          let next := blockNext h.mem block
          if next != 0 && blockFree h.mem next != 0 && newSize ≤ oldSize + sizeofBlock + blockSize h.mem next then
            let m := setBlockSize h.mem block (oldSize + sizeofBlock + blockSize h.mem next)
            let m := setBlockNext m block (blockNext m next)
            some (ptr, { h with mem := splitBlock m block newSize })
          else do
            let (newPtr, h) ← malloc pool h newSize
            if newPtr == 0 then
              return (0, h)
            else
              let copySize := if oldSize < newSize then oldSize else newSize
              let h := { h with mem := copyBytes h.mem newPtr ptr copySize.toNat }
              let h ← free h ptr
              return (newPtr, h)

/-- `for (index = 0; index < total_size; ++index) memory[index] = 0`, with `n`
bytes to go from `index`. -/
def zeroBytes (m : Mem) (memory : UInt64) : Nat → Nat → Mem
  | 0, _ => m
  | n + 1, index => zeroBytes (store m (memory + UInt64.ofNat index).toNat 1 0) memory n (index + 1)

def calloc (h : Heap) (num size : UInt64) : Option (UInt64 × Heap) :=
  if num == 0 || size == 0 then some (0, h)
  else if sizeMax / size < num then some (0, h)
  else do
    let totalSize := num * size
    let (memory, h) ← malloc pool h totalSize
    if memory == 0 then
      return (0, h)
    else
      return (memory, { h with mem := zeroBytes h.mem memory totalSize.toNat 0 })

end Pool

end Tinos
