/-
Calls that return NULL, and the sizes the calls compute.

`heap_failures_atomic`: `malloc`, `calloc` and `realloc` that return NULL for
a size have written nothing, but for the first block of a heap that had none;
and the sums and products of sizes on the way are never reduced modulo 2^64,
so what is returned has the bytes asked for.
-/
import Tinos.HeapRuns

namespace Tinos

open Bytes Runs Tiling

/-- The bytes a call asks for, if it asks for any. -/
def HeapCall.request : HeapCall → Option Nat
  | .malloc size => some size.toNat
  | .calloc num size => some (num.toNat * size.toNat)
  | .realloc _ newSize => if newSize = 0 then none else some newSize.toNat
  | .free _ => none
  | .write _ _ _ => none
  | .read _ _ => none

/-- Nothing is written, or only the first block, where there was none. -/
def Untouched (pool : MemoryPool) (h h' : Heap) : Prop :=
  h' = h ∨ h.allocatorInitialized = false ∧ h' = allocatorInit pool h

/-- `malloc(size)` computes a size as `x`, which stands for `k`. -/
inductive MallocSum (pool : MemoryPool) (h : Heap) (size : UInt64) : UInt64 → Nat → Prop
  /-- `size + padding` in `align_size`. -/
  | round : ¬ sizeMax - (allocationAlignment - 1) < size →
      MallocSum pool h size (size + (allocationAlignment - 1)) (size.toNat + 7)
  /-- `size + sizeof(Block) + ALLOCATION_ALIGNMENT` in `split_block`. -/
  | split : alignSize size ≠ 0 → firstFit (allocatorInit pool h).mem (alignSize size) (allocatorInit pool h).freeList
        listSteps = some block → block ≠ 0 →
      MallocSum pool h size (alignSize size + sizeofBlock + allocationAlignment) ((alignSize size).toNat + 24 + 8)

/-- A call computes a size as `x`, which stands for `k`. -/
inductive HeapSum (pool : MemoryPool) (h : Heap) : HeapCall → UInt64 → Nat → Prop
  | malloc : MallocSum pool h size x k → HeapSum pool h (.malloc size) x k
  /-- `num * size` in `calloc`. -/
  | product : size ≠ 0 → ¬ sizeMax / size < num →
      HeapSum pool h (.calloc num size) (num * size) (num.toNat * size.toNat)
  | calloc : size ≠ 0 → ¬ sizeMax / size < num → MallocSum pool h (num * size) x k → HeapSum pool h (.calloc num size) x k
  | reallocNull : MallocSum pool h newSize x k → HeapSum pool h (.realloc 0 newSize) x k
  | round : ptr ≠ 0 → ¬ sizeMax - (allocationAlignment - 1) < newSize →
      HeapSum pool h (.realloc ptr newSize) (newSize + (allocationAlignment - 1)) (newSize.toNat + 7)
  /-- `split_block` of the block itself. -/
  | shrink : ptr ≠ 0 → alignSize newSize ≤ blockSize h.mem (ptr - sizeofBlock) →
      HeapSum pool h (.realloc ptr newSize) (alignSize newSize + sizeofBlock + allocationAlignment)
        ((alignSize newSize).toNat + 24 + 8)
  /-- `old_size + sizeof(Block) + next->size`. -/
  | grown : ptr ≠ 0 → next = blockNext h.mem (ptr - sizeofBlock) → next ≠ 0 →
      HeapSum pool h (.realloc ptr newSize) (blockSize h.mem (ptr - sizeofBlock) + sizeofBlock + blockSize h.mem next)
        ((blockSize h.mem (ptr - sizeofBlock)).toNat + 24 + (blockSize h.mem next).toNat)
  /-- `split_block` of the block and the one after it. -/
  | grow : ptr ≠ 0 → next = blockNext h.mem (ptr - sizeofBlock) → next ≠ 0 →
      alignSize newSize ≤ blockSize h.mem (ptr - sizeofBlock) + sizeofBlock + blockSize h.mem next →
      HeapSum pool h (.realloc ptr newSize) (alignSize newSize + sizeofBlock + allocationAlignment)
        ((alignSize newSize).toNat + 24 + 8)
  | move : ptr ≠ 0 → MallocSum pool h (alignSize newSize) x k → HeapSum pool h (.realloc ptr newSize) x k

section Failures

variable {pool : MemoryPool} {w : World} {h' : Heap} {bs : List Block}
variable {p r size num newSize x ptr next : UInt64} {n k : Nat} {c : HeapCall}

/-! ## NULL -/

theorem untouched_init (pool : MemoryPool) (h : Heap) : Untouched pool h (allocatorInit pool h) := by
  cases hi : h.allocatorInitialized with
  | true => exact .inl (allocatorInit_of_init hi)
  | false => exact .inr ⟨hi, rfl⟩

theorem malloc_null (hi : HeapInv pool w bs) (hm : malloc pool w.heap size = some (0, h')) :
    Untouched pool w.heap h' := by
  by_cases hs : size = 0
  · rw [hs] at hm
    exact .inl (Prod.mk.inj (Option.some.inj hm)).2.symm
  · by_cases hbig : 2 ^ 64 ≤ alignUp size.toNat
    · rw [malloc_refused hbig] at hm
      exact .inl (Prod.mk.inj (Option.some.inj hm)).2.symm
    · rcases malloc_spec hi.ready hs (by omega) with ⟨hm', -⟩ | ⟨y, pre, b, post, h₁, hm', -, -, -, hset⟩
      · rw [hm'] at hm
        rw [← (Prod.mk.inj (Option.some.inj hm)).2]
        exact untouched_init pool w.heap
      · obtain ⟨s, -, hgrants⟩ := hset.grants
        rw [hm'] at hm
        exact absurd (Prod.mk.inj (Option.some.inj hm)).1
          (hset.ready.pointer_ne_zero ((hgrants y s).mpr (.inl ⟨rfl, rfl⟩)))

theorem calloc_null (hi : HeapInv pool w bs) (hm : calloc pool w.heap num size = some (0, h')) :
    Untouched pool w.heap h' := by
  unfold calloc at hm
  split at hm
  · exact .inl (Prod.mk.inj (Option.some.inj hm)).2.symm
  · split at hm
    · exact .inl (Prod.mk.inj (Option.some.inj hm)).2.symm
    · simp only [Option.bind_eq_bind, Option.bind_eq_some_iff] at hm
      obtain ⟨⟨q, h₁⟩, hq, hm⟩ := hm
      split at hm
      · rename_i hq0
        obtain rfl : q = 0 := beq_iff_eq.mp hq0
        obtain ⟨-, rfl⟩ := Prod.mk.inj (Option.some.inj hm)
        exact malloc_null hi hq
      · rename_i hq0
        exact absurd (beq_iff_eq.mpr (Prod.mk.inj (Option.some.inj hm)).1) hq0

theorem realloc_null (hi : HeapInv pool w bs) (hc : (HeapCall.realloc ptr newSize).Allowed w.live) (hs : newSize ≠ 0)
    (hm : realloc pool w.heap ptr newSize = some (0, h')) : Untouched pool w.heap h' := by
  rcases hc with rfl | ⟨n, hp⟩
  · exact malloc_null hi hm
  · obtain ⟨q, h₁, bs', hcall, hres, -⟩ := realloc_ledger hi hp hs
    rw [hcall, Option.some.injEq, Prod.mk.injEq] at hm
    obtain ⟨rfl, rfl⟩ := hm
    rcases hres with ⟨-, rfl, -⟩ | hre
    · exact .inl rfl
    · exact absurd rfl hre.ne

theorem HeapCall.null (hi : HeapInv pool w bs) (hc : c.Allowed w.live) (hn : c.request = some n)
    (hrun : c.run pool w.heap = some (0, h')) : Untouched pool w.heap h' ∧ c.record w.live 0 = w.live := by
  cases c with
  | malloc size => exact ⟨malloc_null hi hrun, Live.grant_zero⟩
  | calloc num size => exact ⟨calloc_null hi hrun, Live.grant_zero⟩
  | realloc ptr newSize =>
    by_cases hs : newSize = 0
    · simp [HeapCall.request, hs] at hn
    · exact ⟨realloc_null hi hc hs hrun, by simp only [HeapCall.record, if_neg hs, if_true]⟩
  | free _ => cases hn
  | write _ _ _ => cases hn
  | read _ _ => cases hn

theorem Untouched.contents (h : Untouched pool w.heap h') (hi : HeapInv pool w bs) :
    World.contents ⟨h', w.live⟩ = w.contents := by
  rcases h with rfl | ⟨hinit, rfl⟩
  · rfl
  · funext p
    simp only [World.contents, hi.idle hinit p, Option.map_none]

/-- What a client holds after a call that gave it something. -/
theorem HeapCall.record_request (hn : c.request = some n) (hr : r ≠ 0) : c.record w.live r r = some n := by
  cases c with
  | malloc size =>
    rw [← hn, HeapCall.record, Live.grant_of_ne hr, Function.update_self]
    rfl
  | calloc num size =>
    rw [← hn, HeapCall.record, Live.grant_of_ne hr, Function.update_self]
    rfl
  | realloc ptr newSize =>
    by_cases hs : newSize = 0
    · simp [HeapCall.request, hs] at hn
    · simp only [HeapCall.request, if_neg hs] at hn
      simp only [HeapCall.record, if_neg hs, if_neg hr]
      rw [Live.grant_of_ne hr, Function.update_self, hn]
  | free _ => cases hn
  | write _ _ _ => cases hn
  | read _ _ => cases hn

/-! ## Sums -/

theorem toNat_grown {a b : UInt64} (h : a.toNat + 24 + b.toNat < 2 ^ 64) :
    (a + sizeofBlock + b).toNat = a.toNat + 24 + b.toNat := by
  have h24 : sizeofBlock.toNat = 24 := rfl
  rw [Word.toNat_add_of_lt, Word.toNat_add_of_lt (by omega), h24]
  rw [Word.toNat_add_of_lt (by omega), h24]
  exact h

theorem toNat_need {a : UInt64} (h : a.toNat + 32 < 2 ^ 64) :
    (a + sizeofBlock + allocationAlignment).toNat = a.toNat + 24 + 8 :=
  toNat_grown (by rw [show allocationAlignment.toNat = 8 from rfl]; omega)

theorem toNat_round (h : ¬ sizeMax - (allocationAlignment - 1) < size) :
    (size + (allocationAlignment - 1)).toNat = size.toNat + 7 := by
  have hmax : (sizeMax - (allocationAlignment - 1)).toNat = 2 ^ 64 - 8 := by decide
  have h7 : (allocationAlignment - 1).toNat = 7 := by decide
  rw [UInt64.lt_iff_toNat_lt, hmax] at h
  rw [Word.toNat_add_of_lt (by omega), h7]

theorem alignSize_toNat (h : alignSize size ≠ 0) : alignUp size.toNat < 2 ^ 64 ∧ (alignSize size).toNat = alignUp size.toNat := by
  have hlt : alignUp size.toNat < 2 ^ 64 := by
    by_contra hbig
    exact h (alignSize_of_ge (by omega))
  rw [alignSize_of_lt hlt, toNat_ofNat hlt]
  exact ⟨hlt, rfl⟩

theorem Ready.size_le {h : Heap} {b : Block} {pre post : List Block} (hr : Ready pool h (pre ++ b :: post)) :
    b.size + span 24 post + 24 ≤ 1048576 := by
  have hcovers := hr.covers
  simp only [span_append, span] at hcovers
  omega

theorem MallocSum.exact (hs : MallocSum pool w.heap size x k) (hi : HeapInv pool w bs) : x.toNat = k := by
  cases hs with
  | round h => exact toNat_round h
  | split h0 hfind hne =>
    obtain ⟨hlt, hal⟩ := alignSize_toNat h0
    have hfit := firstFit_spec hi.ready.chain pool.pos hi.ready.fits hlt hi.ready.length
    rw [hi.ready.first_eq, ← alignSize_of_lt hlt, hfind] at hfit
    rcases hfit with ⟨hnull, -⟩ | ⟨pre, b, post, rfl, -, hle, -⟩
    · exact absurd (Option.some.inj hnull) hne
    · have := hi.ready.size_le
      exact toNat_need (by omega)

/-- The block of a live pointer and the one after it, if there is one. -/
theorem HeapInv.sizes (hi : HeapInv pool w bs) (hp : w.live ptr = some n) :
    (blockSize w.heap.mem (ptr - sizeofBlock)).toNat ≤ 1048552 ∧
      (blockNext w.heap.mem (ptr - sizeofBlock) ≠ 0 → (blockSize w.heap.mem (ptr - sizeofBlock)).toNat + 24 +
        (blockSize w.heap.mem (blockNext w.heap.mem (ptr - sizeofBlock))).toNat ≤ 1048552) := by
  have hr := hi.ready_of_live hp
  obtain ⟨pre, b, post, y, rfl, -, hy, rfl, -⟩ := hi.split hp
  obtain ⟨-, -, hend⟩ := hr.pointer hy
  have hle := hr.size_le
  have hchain := hy ▸ hr.suffix
  rw [ofNat_sub_header, hchain.1.blockSize (by omega), hchain.1.blockNext (by omega), toNat_ofNat (by omega)]
  refine ⟨by omega, ?_⟩
  intro hnext
  cases post with
  | nil => exact absurd rfl hnext
  | cons c post =>
    have hc := hr.fits
    simp only [span_append, span] at hc hle
    rw [first_cons, hchain.2.1.blockSize hend, toNat_ofNat (by omega)]
    omega

theorem HeapSum.exact (hs : HeapSum pool w.heap c x k) (hi : HeapInv pool w bs) (hc : c.Allowed w.live) :
    x.toNat = k := by
  have hlive : ∀ {ptr newSize : UInt64}, (HeapCall.realloc ptr newSize).Allowed w.live → ptr ≠ 0 →
      ∃ n, w.live ptr = some n := fun h h0 => h.resolve_left h0
  have hle : ∀ {a b : UInt64} {n : Nat}, a ≤ b → b.toNat ≤ n → a.toNat ≤ n := fun hab hb =>
    (UInt64.le_iff_toNat_le.mp hab).trans hb
  cases hs with
  | malloc h => exact h.exact hi
  | product h0 h => exact toNat_total h0 h
  | calloc _ _ h => exact h.exact hi
  | reallocNull h => exact h.exact hi
  | round _ h => exact toNat_round h
  | shrink h0 h =>
    obtain ⟨n, hp⟩ := hlive hc h0
    have := hle h (hi.sizes hp).1
    exact toNat_need (by omega)
  | grown h0 hn hn0 =>
    obtain ⟨n, hp⟩ := hlive hc h0
    subst hn
    have hsum := (hi.sizes hp).2 hn0
    exact toNat_grown (by omega)
  | grow h0 hn hn0 h =>
    obtain ⟨n, hp⟩ := hlive hc h0
    subst hn
    have hsum := (hi.sizes hp).2 hn0
    have := hle h (toNat_grown (by omega)).le
    exact toNat_need (by omega)
  | move _ h => exact h.exact hi

end Failures

/-- **A failed allocation is atomic, and no size wraps.** In every run a call
that asks for `n` bytes and returns NULL leaves the heap as it was, but for
the first block of one not initialised, and the clients with what they held;
one that returns a block has `n` bytes there; and each size it computes is
the number it stands for. -/
theorem heap_failures_atomic {pool : MemoryPool} {mem : Mem} {es : List (HeapCall × UInt64)} {w : World}
    (h : Steps (HeapStep pool) (World.atBoot mem) es w) {c : HeapCall} {n : Nat} (hc : c.Allowed w.live)
    (hn : c.request = some n) :
    ∃ r h', c.run pool w.heap = some (r, h') ∧
      (r = 0 → Untouched pool w.heap h' ∧ c.record w.live r = w.live ∧ World.contents ⟨h', w.live⟩ = w.contents) ∧
      (r ≠ 0 → n ≤ payload h' r) ∧
      ∀ x k, HeapSum pool w.heap c x k → x.toNat = k := by
  obtain ⟨bs, hi⟩ := exists_heapInv h
  obtain ⟨r, h', bs', hrun, hserved⟩ := HeapCall.serves hi hc
  refine ⟨r, h', hrun, ?_, ?_, fun x k hs => hs.exact hi hc⟩
  · intro hr
    subst hr
    obtain ⟨hsame, hrec⟩ := HeapCall.null hi hc hn hrun
    exact ⟨hsame, hrec, hsame.contents hi⟩
  · intro hr
    exact hserved.inv.allocations.enough r n (HeapCall.record_request hn hr)

/-- Growing to all of the address space. -/
theorem heap_failures_atomic_one_call : ∃ w,
    Steps (HeapStep poolAt4096) (World.atBoot fun _ => 0) [(.malloc 100, 4120)] w ∧
    ∃ r h', (HeapCall.realloc 4120 0xFFFFFFFFFFFFFFFF).run poolAt4096 w.heap = some (r, h') ∧
      (r = 0 → Untouched poolAt4096 w.heap h' ∧
        (HeapCall.realloc 4120 0xFFFFFFFFFFFFFFFF).record w.live r = w.live ∧ World.contents ⟨h', w.live⟩ = w.contents) ∧
      (r ≠ 0 → 18446744073709551615 ≤ payload h' r) ∧
      ∀ x k, HeapSum poolAt4096 w.heap (.realloc 4120 0xFFFFFFFFFFFFFFFF) x k → x.toNat = k := by
  obtain ⟨w, hsteps, hlive⟩ := World.exists_run poolAt4096 (World.atBoot fun _ => 0) [(.malloc 100, 4120)]
    (by decide +kernel)
  exact ⟨w, hsteps, heap_failures_atomic hsteps (.inr ⟨100, by rw [hlive]; rfl⟩) rfl⟩

end Tinos
