/-
The kernel heap and its clients: the calls and the accesses a client makes,
what the clients hold, and the store of byte arrays the heap is to them.

A client passes NULL or what it holds, and reads and writes inside the bytes
it asked for (`HeapCall.Allowed`).
-/
import Mathlib.Logic.Function.Basic
import Tinos.Heap
import Tinos.Lib.Runs

namespace Tinos

open Bytes Runs

inductive HeapCall
  | malloc (size : UInt64)
  | calloc (num size : UInt64)
  | realloc (ptr newSize : UInt64)
  | free (ptr : UInt64)
  | write (ptr : UInt64) (i : Nat) (v : UInt8)
  | read (ptr : UInt64) (i : Nat)

/-- What a call returns, 0 for a call that returns nothing. -/
def HeapCall.run (pool : MemoryPool) (h : Heap) : HeapCall → Option (UInt64 × Heap)
  | .malloc size => Tinos.malloc pool h size
  | .calloc num size => Tinos.calloc pool h num size
  | .realloc ptr newSize => Tinos.realloc pool h ptr newSize
  | .free ptr => (Tinos.free h ptr).map fun h => (0, h)
  | .write ptr i v => some (0, { h with mem := store h.mem (ptr.toNat + i) 1 v.toNat })
  | .read ptr i => some (UInt64.ofNat (h.mem (ptr.toNat + i)).toNat, h)

/-- The pointers the clients hold, each with the size last asked for. -/
abbrev Live := UInt64 → Option Nat

/-- A pointer returned, which a client holds unless it is NULL. -/
def Live.grant (live : Live) (p : UInt64) (n : Nat) : Live :=
  if p = 0 then live else Function.update live p (some n)

def Live.drop (live : Live) (p : UInt64) : Live := Function.update live p none

def HeapCall.Allowed (live : Live) : HeapCall → Prop
  | .malloc _ => True
  | .calloc _ _ => True
  | .realloc ptr _ => ptr = 0 ∨ ∃ n, live ptr = some n
  | .free ptr => ptr = 0 ∨ ∃ n, live ptr = some n
  | .write ptr i _ => ∃ n, live ptr = some n ∧ i < n
  | .read ptr i => ∃ n, live ptr = some n ∧ i < n

/-- What the clients hold after a call that returned `r`. A `realloc` that
returns NULL for a size other than 0 has not taken the block. -/
def HeapCall.record (live : Live) (r : UInt64) : HeapCall → Live
  | .malloc size => live.grant r size.toNat
  | .calloc num size => live.grant r (num.toNat * size.toNat)
  | .realloc ptr newSize =>
    if newSize = 0 then live.drop ptr
    else if r = 0 then live
    else (live.drop ptr).grant r newSize.toNat
  | .free ptr => live.drop ptr
  | .write _ _ _ => live
  | .read _ _ => live

/-- `realloc` cuts the block, and the block after it is free. -/
def splitsBeforeFree (h : Heap) (ptr newSize : UInt64) : Bool :=
  let block := ptr - sizeofBlock
  let size := alignSize newSize
  let next := blockNext h.mem block
  ptr != 0 && size != 0 && size ≤ blockSize h.mem block &&
    sizeofBlock + allocationAlignment ≤ blockSize h.mem block - size && (next != 0 && blockFree h.mem next != 0)

def HeapCall.splitsBeforeFree (h : Heap) : HeapCall → Bool
  | .realloc ptr newSize => Tinos.splitsBeforeFree h ptr newSize
  | _ => false

/-- The bytes of the block of `ptr`. -/
def payload (h : Heap) (ptr : UInt64) : Nat := (blockSize h.mem (ptr - sizeofBlock)).toNat

structure World where
  heap : Heap
  live : Live

/-- The static initial state, whatever is in memory. -/
def World.atBoot (mem : Mem) : World := ⟨⟨mem, 0, false⟩, fun _ => none⟩

/-- `l` bytes of the pool, from `x` on, are in no header and no block of a live
pointer. -/
structure Vacant (pool : MemoryPool) (w : World) (x l : Nat) : Prop where
  inside : pool.bytes.toNat ≤ x ∧ x + l ≤ pool.bytes.toNat + poolSize.toNat
  apart : ∀ p n, w.live p = some n → p.toNat + payload w.heap p ≤ x ∨ x + l ≤ p.toNat - sizeofBlock.toNat

/-- A call that the clients may make, with what it returns. -/
inductive HeapStep (pool : MemoryPool) : World → HeapCall × UInt64 → World → Prop
  | call {w : World} {c : HeapCall} {r : UInt64} {h' : Heap} : c.Allowed w.live → c.run pool w.heap = some (r, h') →
      HeapStep pool w (c, r) ⟨h', c.record w.live r⟩

/-! ## Running calls -/

instance (live : Live) (c : HeapCall) : Decidable (c.Allowed live) :=
  match c with
  | .malloc _ => isTrue trivial
  | .calloc _ _ => isTrue trivial
  | .realloc ptr _ => decidable_of_iff (ptr = 0 ∨ (live ptr).isSome = true) (by
      simp only [HeapCall.Allowed, Option.isSome_iff_exists])
  | .free ptr => decidable_of_iff (ptr = 0 ∨ (live ptr).isSome = true) (by
      simp only [HeapCall.Allowed, Option.isSome_iff_exists])
  | .write ptr i _ => decidable_of_iff ((live ptr).any (i < ·) = true) (by
      simp only [HeapCall.Allowed, Option.any_eq_true, decide_eq_true_eq])
  | .read ptr i => decidable_of_iff ((live ptr).any (i < ·) = true) (by
      simp only [HeapCall.Allowed, Option.any_eq_true, decide_eq_true_eq])

/-- The world after a call, if the clients may make it and it returns what is
given. -/
def World.next (pool : MemoryPool) (w : World) (e : HeapCall × UInt64) : Option World :=
  if e.1.Allowed w.live then
    (e.1.run pool w.heap).bind fun r => if r.1 = e.2 then some ⟨r.2, e.1.record w.live e.2⟩ else none
  else none

/-- What the clients hold after the calls. -/
def Live.after (live : Live) (es : List (HeapCall × UInt64)) : Live :=
  es.foldl (fun live e => e.1.record live e.2) live

theorem World.next_spec {pool : MemoryPool} {w w' : World} {e : HeapCall × UInt64} (h : w.next pool e = some w') :
    HeapStep pool w e w' ∧ w'.live = e.1.record w.live e.2 := by
  unfold World.next at h
  split at h
  · rename_i hc
    obtain ⟨⟨r, h'⟩, hrun, h⟩ := Option.bind_eq_some_iff.mp h
    split at h
    · rename_i hr
      obtain rfl : r = e.2 := hr
      rw [← Option.some.inj h]
      exact ⟨.call hc hrun, rfl⟩
    · cases h
  · cases h

theorem World.steps_of_next {pool : MemoryPool} {w w' : World} {es : List (HeapCall × UInt64)}
    (h : es.foldlM (World.next pool) w = some w') : Steps (HeapStep pool) w es w' :=
  foldlM_steps (fun _ _ _ hn => (World.next_spec hn).1) h

theorem World.live_of_next {pool : MemoryPool} {w w' : World} {es : List (HeapCall × UInt64)}
    (h : es.foldlM (World.next pool) w = some w') : w'.live = w.live.after es := by
  induction es generalizing w with
  | nil => rw [← Option.some.inj h]; rfl
  | cons e es ih =>
    rw [List.foldlM_cons, Option.bind_eq_bind, Option.bind_eq_some_iff] at h
    obtain ⟨t, ht, h⟩ := h
    rw [ih h, (World.next_spec ht).2]
    rfl

/-- Calls that can be made one after the other, each returning what is given,
are a run. -/
theorem World.exists_run (pool : MemoryPool) (w : World) (es : List (HeapCall × UInt64))
    (h : (es.foldlM (World.next pool) w).isSome = true) :
    ∃ w', Steps (HeapStep pool) w es w' ∧ w'.live = w.live.after es := by
  obtain ⟨w', hw'⟩ := Option.isSome_iff_exists.mp h
  exact ⟨w', World.steps_of_next hw', World.live_of_next hw'⟩

/-! ## The store -/

/-- Byte arrays, by pointer. -/
abbrev Arrays := UInt64 → Option (List UInt8)

/-- What a store of byte arrays does. An array new or grown has some bytes or
other where the call does not say which. -/
inductive StoreStep : Arrays → HeapCall × UInt64 → Arrays → Prop
  | mallocFails {s : Arrays} {size : UInt64} : StoreStep s (.malloc size, 0) s
  | callocFails {s : Arrays} {num size : UInt64} : StoreStep s (.calloc num size, 0) s
  | reallocFails {s : Arrays} {p newSize : UInt64} : newSize ≠ 0 → StoreStep s (.realloc p newSize, 0) s
  | malloc {s : Arrays} {p size : UInt64} {bytes : List UInt8} : p ≠ 0 → s p = none → bytes.length = size.toNat →
      StoreStep s (.malloc size, p) (Function.update s p (some bytes))
  | calloc {s : Arrays} {p num size : UInt64} : p ≠ 0 → s p = none → StoreStep s (.calloc num size, p)
      (Function.update s p (some (List.replicate (num.toNat * size.toNat) 0)))
  | reallocNull {s : Arrays} {p newSize : UInt64} {bytes : List UInt8} : p ≠ 0 → s p = none →
      bytes.length = newSize.toNat → StoreStep s (.realloc 0 newSize, p) (Function.update s p (some bytes))
  | realloc {s : Arrays} {p q newSize : UInt64} {old bytes : List UInt8} : s p = some old → newSize ≠ 0 → q ≠ 0 →
      (q = p ∨ s q = none) → bytes.length = newSize.toNat →
      (∀ i, i < min old.length newSize.toNat → bytes[i]? = old[i]?) →
      StoreStep s (.realloc p newSize, q) (Function.update (Function.update s p none) q (some bytes))
  | reallocZero {s : Arrays} {p : UInt64} : StoreStep s (.realloc p 0, 0) (Function.update s p none)
  | free {s : Arrays} {p : UInt64} : StoreStep s (.free p, 0) (Function.update s p none)
  | write {s : Arrays} {p : UInt64} {i : Nat} {v : UInt8} {old : List UInt8} : s p = some old → i < old.length →
      StoreStep s (.write p i v, 0) (Function.update s p (some (old.set i v)))
  | read {s : Arrays} {p : UInt64} {i : Nat} {v : UInt8} {old : List UInt8} : s p = some old → old[i]? = some v →
      StoreStep s (.read p i, UInt64.ofNat v.toNat) s

/-- The arrays the clients hold, as they are in memory. -/
def World.contents (w : World) : Arrays := fun p => (w.live p).map (bytesAt w.heap.mem p.toNat)

end Tinos
