/-
A heap whose every allocation was freed.

Only `free`, and a `realloc` to no bytes, leave a client without its last
allocation, and they sweep the list: two free blocks that a `realloc` left
side by side are joined then at the latest (`all_recovered`).
-/
import Tinos.HeapFailures

namespace Tinos

open Bytes Runs Tiling

/-- The clients hold nothing. -/
def Live.Empty (live : Live) : Prop := ∀ p, live p = none

section Recovery

variable {pool : MemoryPool} {w : World} {h' : Heap} {bs : List Block} {p : UInt64} {n : Nat} {c : HeapCall}

theorem Live.not_empty {live : Live} (hp : live p = some n) : ¬ live.Empty := by
  intro hempty
  rw [hempty p] at hp
  cases hp

theorem Untouched.inv (h : Untouched pool w.heap h') (hi : HeapInv pool w bs) : HeapInv pool ⟨h', w.live⟩ bs := by
  rcases h with rfl | ⟨-, rfl⟩
  · exact hi
  · exact .of_ready hi.ready hi.owned

/-- A call that asks for bytes leaves the clients with something, or as they
were. -/
theorem HeapCall.recovers_request (hi : HeapInv pool w bs) (hc : c.Allowed w.live) (hn : c.request = some n)
    (hpairs : w.live.Empty → NoFreePair bs) : ∃ r h' bs', c.run pool w.heap = some (r, h') ∧
      HeapInv pool ⟨h', c.record w.live r⟩ bs' ∧ ((c.record w.live r).Empty → NoFreePair bs') := by
  obtain ⟨r, h', bs', hrun, hserved⟩ := HeapCall.serves hi hc
  by_cases hr : r = 0
  · subst hr
    obtain ⟨hsame, hrec⟩ := HeapCall.null hi hc hn hrun
    refine ⟨0, h', bs, hrun, ?_⟩
    rw [hrec]
    exact ⟨hsame.inv hi, hpairs⟩
  · refine ⟨r, h', bs', hrun, hserved.inv, ?_⟩
    intro hempty
    exact absurd hempty (Live.not_empty (HeapCall.record_request hn hr))

/-- `free` sweeps the list. -/
theorem free_recovers (hi : HeapInv pool w bs) (hp : p = 0 ∨ ∃ n, w.live p = some n)
    (hpairs : w.live.Empty → NoFreePair bs) : ∃ h' bs', free w.heap p = some h' ∧
      HeapInv pool ⟨h', w.live.drop p⟩ bs' ∧ ((w.live.drop p).Empty → NoFreePair bs') := by
  rcases hp with rfl | ⟨n, hp⟩
  · rw [Live.drop_null hi.null]
    exact ⟨w.heap, bs, rfl, hi, hpairs⟩
  · obtain ⟨h', bs', hf, hinv, -, hsweep⟩ := free_ledger hi hp
    exact ⟨h', bs', hf, hinv, fun _ => hsweep⟩

/-- No call leaves the clients with nothing and two free blocks side by side. -/
theorem HeapCall.recovers (hi : HeapInv pool w bs) (hc : c.Allowed w.live) (hpairs : w.live.Empty → NoFreePair bs) :
    ∃ r h' bs', c.run pool w.heap = some (r, h') ∧ HeapInv pool ⟨h', c.record w.live r⟩ bs' ∧
      ((c.record w.live r).Empty → NoFreePair bs') := by
  cases c with
  | malloc size => exact HeapCall.recovers_request hi hc rfl hpairs
  | calloc num size => exact HeapCall.recovers_request hi hc rfl hpairs
  | realloc ptr newSize =>
    by_cases hs : newSize = 0
    · obtain ⟨h', bs', hf, hinv, hsweep⟩ := free_recovers hi hc hpairs
      refine ⟨0, h', bs', ?_, ?_⟩
      · rw [HeapCall.run, hs, realloc_zero, hf]
        rfl
      · simp only [HeapCall.record, if_pos hs]
        exact ⟨hinv, hsweep⟩
    · exact HeapCall.recovers_request (n := newSize.toNat) hi hc (if_neg hs) hpairs
  | free ptr =>
    obtain ⟨h', bs', hf, hinv, hsweep⟩ := free_recovers hi hc hpairs
    exact ⟨0, h', bs', by rw [HeapCall.run, hf]; rfl, hinv, hsweep⟩
  | write ptr i v =>
    obtain ⟨n, hp, hlt⟩ := hc
    exact ⟨0, _, bs, rfl, (serves_write hi hp hlt v).inv, fun hempty => absurd hempty (Live.not_empty hp)⟩
  | read ptr i =>
    obtain ⟨n, hp, hlt⟩ := hc
    exact ⟨_, _, bs, rfl, hi, fun hempty => absurd hempty (Live.not_empty hp)⟩

/-- Without a live allocation, one free block is the pool. -/
theorem HeapInv.one_block (hi : HeapInv pool w bs) (hpairs : NoFreePair bs) (hempty : w.live.Empty) :
    bs = [⟨(poolSize - sizeofBlock).toNat, true⟩] := by
  have hused : used 24 pool.bytes.toNat bs = [] := by
    rw [List.eq_nil_iff_forall_not_mem]
    intro e he
    obtain ⟨n, hn⟩ := hi.owned.owner e.1 e.2 he
    exact absurd hempty (Live.not_empty hn)
  have hcovers := hi.ready.covers
  obtain ⟨s, rfl⟩ := hpairs.single hused fun hnil => by
    rw [hnil] at hcovers
    cases hcovers
  have hsize : (poolSize - sizeofBlock).toNat = 1048552 := by decide
  simp only [span] at hcovers
  rw [hsize, show s = 1048552 by omega]

end Recovery

/-- **Everything freed is everything recovered.** After any run that leaves no
live allocation the heap, initialised if it was not, is one free block of all
the pool but a header, and `malloc` gives out all of it. -/
theorem all_recovered {pool : MemoryPool} {mem : Mem} {es : List (HeapCall × UInt64)} {w : World}
    (h : Steps (HeapStep pool) (World.atBoot mem) es w) (hempty : w.live.Empty) :
    Ready pool (allocatorInit pool w.heap) [⟨(poolSize - sizeofBlock).toNat, true⟩] ∧
      ∃ p h', malloc pool w.heap (poolSize - sizeofBlock) = some (p, h') ∧ p ≠ 0 := by
  have hinv : ∃ bs, HeapInv pool w bs ∧ (w.live.Empty → NoFreePair bs) :=
    h.invariant (fun w => ∃ bs, HeapInv pool w bs ∧ (w.live.Empty → NoFreePair bs))
      ⟨_, atBoot_inv pool mem, fun _ => List.isChain_singleton _⟩ fun v e v' hv he => by
        obtain ⟨bs, hi, hpairs⟩ := hv
        cases he with
        | call hc hrun =>
          obtain ⟨r, h', bs', hrun', hinv, hpairs'⟩ := HeapCall.recovers hi hc hpairs
          rw [hrun', Option.some.injEq, Prod.mk.injEq] at hrun
          obtain ⟨rfl, rfl⟩ := hrun
          exact ⟨bs', hinv, hpairs'⟩
  obtain ⟨bs, hi, hpairs⟩ := hinv
  obtain rfl := hi.one_block (hpairs hempty) hempty
  have hsize : alignUp (poolSize - sizeofBlock).toNat = (poolSize - sizeofBlock).toNat := by decide
  refine ⟨hi.ready, ?_⟩
  rcases malloc_spec hi.ready (show poolSize - sizeofBlock ≠ 0 by decide) (by decide) with
    ⟨-, hno⟩ | ⟨y, pre, b, post, h', hm, -, -, -, hset⟩
  · have := hno _ (List.mem_singleton.mpr rfl) rfl
    rw [hsize] at this
    exact absurd this (Nat.lt_irrefl _)
  · obtain ⟨s, -, hgrants⟩ := hset.grants
    exact ⟨_, h', hm, hset.ready.pointer_ne_zero ((hgrants y s).mpr (.inl ⟨rfl, rfl⟩))⟩

/-- After two free blocks side by side. -/
theorem all_recovered_after_realloc : ∃ w, Steps (HeapStep poolAt4096) (World.atBoot fun _ => 0)
    [(.malloc 100, 4120), (.realloc 4120 8, 4120), (.free 4120, 0)] w ∧ w.live.Empty ∧
    Ready poolAt4096 (allocatorInit poolAt4096 w.heap) [⟨(poolSize - sizeofBlock).toNat, true⟩] ∧
      ∃ p h', malloc poolAt4096 w.heap (poolSize - sizeofBlock) = some (p, h') ∧ p ≠ 0 := by
  obtain ⟨w, hsteps, hlive⟩ := World.exists_run poolAt4096 (World.atBoot fun _ => 0)
    [(.malloc 100, 4120), (.realloc 4120 8, 4120), (.free 4120, 0)] (by decide +kernel)
  have hempty : w.live.Empty := by
    intro p
    rw [hlive]
    simp [Live.after, HeapCall.record, Live.grant, Live.drop, World.atBoot]
  exact ⟨w, hsteps, hempty, all_recovered hsteps hempty⟩

end Tinos
