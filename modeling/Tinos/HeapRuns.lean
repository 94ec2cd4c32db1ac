/-
Runs of the kernel heap and its clients: the pool stays tiled by the live
blocks and free ones (`heap_tiled`), the heap is a store of byte arrays
(`heap_refines_store`), and as long as `realloc` does not cut a block before
a free one no two free blocks are neighbours, so that `malloc` fails only for
want of room (`malloc_finds_room`).
-/
import Tinos.HeapLedger

namespace Tinos

open Bytes Runs Tiling

/-- A call returns `r`, keeps the invariant, is a step of the store, and
leaves two free neighbours only where `realloc` cuts before a free block. -/
structure Served (pool : MemoryPool) (w : World) (bs : List Block) (c : HeapCall) (r : UInt64) (w' : World)
    (bs' : List Block) : Prop where
  inv : HeapInv pool w' bs'
  store : StoreStep w.contents (c, r) w'.contents
  pairs : NoFreePair bs → (NoFreePair bs' ↔ ¬ c.splitsBeforeFree w.heap = true)

/-- The used blocks are the live allocations, apart from each other and from
every header. -/
structure Allocations (pool : MemoryPool) (w : World) (bs : List Block) : Prop where
  owners : ∀ p, (∃ n, w.live p = some n) ↔
    ∃ y s, (y, s) ∈ used 24 pool.bytes.toNat bs ∧ p = UInt64.ofNat (y + 24)
  enough : ∀ p n, w.live p = some n → n ≤ payload w.heap p
  aligned : ∀ p n, w.live p = some n → p.toNat % 8 = 0
  apart : ∀ p n q m, w.live p = some n → w.live q = some m → p ≠ q →
    p.toNat + payload w.heap p ≤ q.toNat ∨ q.toNat + payload w.heap q ≤ p.toNat
  headers : ∀ p n, w.live p = some n → ∀ y b, (y, b) ∈ placed 24 pool.bytes.toNat bs →
    p.toNat + payload w.heap p ≤ y ∨ y + 24 ≤ p.toNat

section Served

variable {pool : MemoryPool} {w : World} {h' : Heap} {live : Live} {bs bs' : List Block}
variable {p q r num size newSize : UInt64} {n i : Nat} {c : HeapCall}

/-! ## The calls -/

theorem Live.grant_zero : live.grant 0 n = live := if_pos rfl

theorem Live.grant_of_ne (hp : p ≠ 0) : live.grant p n = Function.update live p (some n) := if_neg hp

theorem Live.drop_null (h0 : live 0 = none) : live.drop 0 = live := by
  rw [Live.drop, ← h0, Function.update_eq_self]

theorem contents_of_none (hp : w.live p = none) : w.contents p = none := by
  rw [World.contents, hp]
  rfl

theorem contents_of_some (hp : w.live p = some n) : w.contents p = some (bytesAt w.heap.mem p.toNat n) := by
  rw [World.contents, hp]
  rfl

theorem Allocated.contents (ha : Allocated pool w bs p n h' bs') :
    World.contents ⟨h', Function.update w.live p (some n)⟩ =
      Function.update w.contents p (some (bytesAt h'.mem p.toNat n)) :=
  contents_update ha.same (some n)

theorem Reallocated.contents {old : Nat} (hre : Reallocated pool w p q old n h' bs') :
    World.contents ⟨h', Function.update (w.live.drop p) q (some n)⟩ =
      Function.update (Function.update w.contents p none) q (some (bytesAt h'.mem q.toNat n)) := by
  have hdrop : World.contents ⟨h', w.live.drop p⟩ = Function.update w.contents p none := contents_update hre.same none
  rw [contents_update (h := h') fun _ _ _ _ _ _ => rfl, hdrop]
  rfl

theorem splitsBeforeFree_zero (h : Heap) (ptr : UInt64) : splitsBeforeFree h ptr 0 = false := by
  have h0 : alignSize 0 = 0 := by decide
  simp [splitsBeforeFree, h0]

theorem splitsBeforeFree_null (h : Heap) (newSize : UInt64) : splitsBeforeFree h 0 newSize = false := by
  simp [splitsBeforeFree]

theorem pairs_kept (hc : c.splitsBeforeFree w.heap = false) (h : NoFreePair bs → NoFreePair bs') (hpairs : NoFreePair bs) :
    NoFreePair bs' ↔ ¬ c.splitsBeforeFree w.heap = true :=
  iff_of_true (h hpairs) (by simp [hc])

/-- A call that only answers NULL. -/
theorem served_failed (hi : HeapInv pool w bs) (hinv : HeapInv pool ⟨h', w.live⟩ bs) (hsame : SameBytes w.live w.heap h' 0)
    (hc : c.splitsBeforeFree w.heap = false) (hstep : StoreStep w.contents (c, 0) w.contents) :
    Served pool w bs c 0 ⟨h', w.live⟩ bs := by
  refine ⟨hinv, ?_, pairs_kept hc id⟩
  rw [contents_congr hsame hi.null]
  exact hstep

/-- A call that allocates. -/
theorem Allocated.served (ha : Allocated pool w bs p n h' bs') (hc : c.splitsBeforeFree w.heap = false)
    (hstep : StoreStep w.contents (c, p) (Function.update w.contents p (some (bytesAt h'.mem p.toNat n)))) :
    Served pool w bs c p ⟨h', w.live.grant p n⟩ bs' := by
  rw [Live.grant_of_ne ha.ne]
  refine ⟨ha.inv, ?_, pairs_kept hc ha.pairs⟩
  rw [ha.contents]
  exact hstep

theorem serves_malloc (hi : HeapInv pool w bs) (size : UInt64) : ∃ r h' bs', malloc pool w.heap size = some (r, h') ∧
    Served pool w bs (.malloc size) r ⟨h', HeapCall.record w.live r (.malloc size)⟩ bs' := by
  simp only [HeapCall.record]
  rcases malloc_ledger hi size with ⟨h', hm, hinv, hsame⟩ | ⟨p, h', bs', hm, ha⟩
  · refine ⟨0, h', bs, hm, ?_⟩
    rw [Live.grant_zero]
    exact served_failed hi hinv hsame rfl .mallocFails
  · refine ⟨p, h', bs', hm, ha.served rfl ?_⟩
    exact .malloc ha.ne (contents_of_none ha.fresh) length_bytesAt

theorem serves_calloc (hi : HeapInv pool w bs) (num size : UInt64) :
    ∃ r h' bs', calloc pool w.heap num size = some (r, h') ∧
      Served pool w bs (.calloc num size) r ⟨h', HeapCall.record w.live r (.calloc num size)⟩ bs' := by
  simp only [HeapCall.record]
  rcases calloc_ledger hi num size with ⟨h', hm, hinv, hsame⟩ | ⟨p, h', bs', hm, ha, hzero⟩
  · refine ⟨0, h', bs, hm, ?_⟩
    rw [Live.grant_zero]
    exact served_failed hi hinv hsame rfl .callocFails
  · refine ⟨p, h', bs', hm, ha.served rfl ?_⟩
    rw [bytesAt_eq_replicate hzero]
    exact .calloc ha.ne (contents_of_none ha.fresh)

theorem serves_free (hi : HeapInv pool w bs) (hp : p = 0 ∨ ∃ n, w.live p = some n) :
    ∃ h' bs', free w.heap p = some h' ∧ Served pool w bs (.free p) 0 ⟨h', w.live.drop p⟩ bs' := by
  rcases hp with rfl | ⟨n, hp⟩
  · refine ⟨w.heap, bs, rfl, ?_, ?_, pairs_kept rfl id⟩
    · rw [Live.drop_null hi.null]
      exact hi
    · rw [Live.drop, contents_update fun _ _ _ _ _ _ => rfl]
      exact .free
  · obtain ⟨h', bs', hf, hinv, hsame, hpairs⟩ := free_ledger hi hp
    refine ⟨h', bs', hf, hinv, ?_, pairs_kept rfl fun _ => hpairs⟩
    rw [Live.drop, contents_update hsame]
    exact .free

theorem serves_realloc_null (hi : HeapInv pool w bs) (newSize : UInt64) :
    ∃ r h' bs', realloc pool w.heap 0 newSize = some (r, h') ∧
      Served pool w bs (.realloc 0 newSize) r ⟨h', HeapCall.record w.live r (.realloc 0 newSize)⟩ bs' := by
  have hcall : realloc pool w.heap 0 newSize = malloc pool w.heap newSize := rfl
  have hsplit : (HeapCall.realloc 0 newSize).splitsBeforeFree w.heap = false := splitsBeforeFree_null w.heap newSize
  simp only [HeapCall.record, Live.drop_null hi.null, hcall]
  by_cases hs : newSize = 0
  · subst hs
    refine ⟨0, w.heap, bs, rfl, hi, ?_, pairs_kept hsplit id⟩
    have hstep := StoreStep.reallocZero (s := w.contents) (p := 0)
    rw [← contents_of_none hi.null, Function.update_eq_self] at hstep
    exact hstep
  · simp only [if_neg hs]
    rcases malloc_ledger hi newSize with ⟨h', hm, hinv, hsame⟩ | ⟨p, h', bs', hm, ha⟩
    · refine ⟨0, h', bs, hm, ?_⟩
      rw [if_pos rfl]
      exact served_failed hi hinv hsame hsplit (.reallocFails hs)
    · refine ⟨p, h', bs', hm, ?_⟩
      rw [if_neg ha.ne]
      exact ha.served hsplit (.reallocNull ha.ne (contents_of_none ha.fresh) length_bytesAt)

theorem serves_realloc (hi : HeapInv pool w bs) (hp : w.live p = some n) (newSize : UInt64) :
    ∃ r h' bs', realloc pool w.heap p newSize = some (r, h') ∧
      Served pool w bs (.realloc p newSize) r ⟨h', HeapCall.record w.live r (.realloc p newSize)⟩ bs' := by
  simp only [HeapCall.record]
  by_cases hs : newSize = 0
  · obtain ⟨h', bs', hf, hinv, hsame, hpairs⟩ := free_ledger hi hp
    have hcall : realloc pool w.heap p newSize = some (0, h') := by
      rw [hs, realloc_zero, hf]
      rfl
    have hsplit : (HeapCall.realloc p newSize).splitsBeforeFree w.heap = false := by
      rw [hs]
      exact splitsBeforeFree_zero w.heap p
    refine ⟨0, h', bs', hcall, ?_⟩
    rw [if_pos hs]
    refine ⟨hinv, ?_, pairs_kept hsplit fun _ => hpairs⟩
    rw [Live.drop, contents_update hsame, hs]
    exact .reallocZero
  · obtain ⟨q, h', bs', hcall, hres, hpairs⟩ := realloc_ledger hi hp hs
    refine ⟨q, h', bs', hcall, ?_⟩
    rw [if_neg hs]
    rcases hres with ⟨rfl, rfl, rfl⟩ | hre
    · rw [if_pos rfl]
      exact ⟨hi, .reallocFails hs, hpairs⟩
    · rw [if_neg hre.ne, Live.grant_of_ne hre.ne]
      refine ⟨hre.inv, ?_, hpairs⟩
      rw [hre.contents]
      refine .realloc (contents_of_some hp) hs hre.ne (hre.fresh.imp id contents_of_none) length_bytesAt ?_
      intro i hi'
      rw [length_bytesAt] at hi'
      rw [getElem?_bytesAt (by omega), getElem?_bytesAt (by omega), hre.kept i hi']

theorem serves_write (hi : HeapInv pool w bs) (hp : w.live p = some n) (hlt : i < n) (v : UInt8) :
    Served pool w bs (.write p i v) 0 ⟨{ w.heap with mem := store w.heap.mem (p.toNat + i) 1 v.toNat }, w.live⟩ bs := by
  obtain ⟨hinv, hsame⟩ := hi.write hp (store w.heap.mem (p.toNat + i) 1 v.toNat) fun x hx => store_of_outside (by omega)
  refine ⟨hinv, ?_, pairs_kept rfl id⟩
  have hcontents := contents_update hsame (w.live p)
  rw [Function.update_eq_self, hp, Option.map_some, bytesAt_store] at hcontents
  rw [hcontents]
  exact .write (contents_of_some hp) (by rwa [length_bytesAt])

theorem serves_read (hi : HeapInv pool w bs) (hp : w.live p = some n) (hlt : i < n) :
    Served pool w bs (.read p i) (UInt64.ofNat (w.heap.mem (p.toNat + i)).toNat) w bs :=
  ⟨hi, .read (contents_of_some hp) (getElem?_bytesAt hlt), pairs_kept rfl id⟩

/-- Every call a client may make. -/
theorem HeapCall.serves (hi : HeapInv pool w bs) (hc : c.Allowed w.live) :
    ∃ r h' bs', c.run pool w.heap = some (r, h') ∧ Served pool w bs c r ⟨h', c.record w.live r⟩ bs' := by
  cases c with
  | malloc size => exact serves_malloc hi size
  | calloc num size => exact serves_calloc hi num size
  | realloc ptr newSize =>
    rcases hc with rfl | ⟨n, hp⟩
    · exact serves_realloc_null hi newSize
    · exact serves_realloc hi hp newSize
  | free ptr =>
    obtain ⟨h', bs', hf, hserved⟩ := serves_free hi hc
    exact ⟨0, h', bs', by rw [HeapCall.run, hf]; rfl, hserved⟩
  | write ptr i v =>
    obtain ⟨n, hp, hlt⟩ := hc
    exact ⟨0, _, bs, rfl, serves_write hi hp hlt v⟩
  | read ptr i =>
    obtain ⟨n, hp, hlt⟩ := hc
    exact ⟨_, _, bs, rfl, serves_read hi hp hlt⟩

theorem HeapStep.served {w' : World} {e : HeapCall × UInt64} (h : HeapStep pool w e w') (hi : HeapInv pool w bs) :
    ∃ bs', Served pool w bs e.1 e.2 w' bs' := by
  cases h with
  | call hc hrun =>
    obtain ⟨r, h', bs', hrun', hserved⟩ := HeapCall.serves hi hc
    rw [hrun', Option.some.injEq, Prod.mk.injEq] at hrun
    obtain ⟨rfl, rfl⟩ := hrun
    exact ⟨bs', hserved⟩

theorem atBoot_inv (pool : MemoryPool) (mem : Mem) : HeapInv pool (World.atBoot mem) [⟨1048552, true⟩] where
  ready := allocatorInit_fresh rfl
  owned := ⟨nofun, nofun⟩
  idle := fun _ _ => rfl

/-- The invariant holds at the end of every run. -/
theorem exists_heapInv {mem : Mem} {es : List (HeapCall × UInt64)}
    (h : Steps (HeapStep pool) (World.atBoot mem) es w) : ∃ bs, HeapInv pool w bs :=
  h.invariant (fun w => ∃ bs, HeapInv pool w bs) ⟨_, atBoot_inv pool mem⟩ fun v e v' hv he => by
    obtain ⟨bs, hi⟩ := hv
    obtain ⟨bs', hserved⟩ := he.served hi
    exact ⟨bs', hserved.inv⟩

/-! ## The allocations -/

theorem Ready.payload_eq {h : Heap} {y s : Nat} (hr : Ready pool h bs) (hy : (y, s) ∈ used 24 pool.bytes.toNat bs) :
    Tinos.payload h (UInt64.ofNat (y + 24)) = s := by
  have hbounds := hr.used_bounds hy
  obtain ⟨pre, post, rfl, hpre⟩ := exists_split (mem_used.mp hy)
  have hhead := (hpre ▸ hr.suffix).1
  rw [Tinos.payload, ofNat_sub_header, hhead.blockSize (by omega)]
  exact toNat_ofNat (show s < 2 ^ 64 by omega)

/-- The block of a live pointer, and its address and size. -/
theorem HeapInv.block_of_live (hi : HeapInv pool w bs) (hp : w.live p = some n) :
    ∃ y, (y, payload w.heap p) ∈ used 24 pool.bytes.toNat bs ∧ p = UInt64.ofNat (y + 24) ∧ p.toNat = y + 24 ∧
      n ≤ payload w.heap p := by
  have hr := hi.ready_of_live hp
  obtain ⟨y, s, hy, rfl, hn⟩ := hi.owned.block p n hp
  rw [hr.payload_eq hy]
  exact ⟨y, hy, rfl, hr.pointer_toNat hy, hn⟩

theorem HeapInv.allocations (hi : HeapInv pool w bs) : Allocations pool w bs where
  owners := by
    intro p
    constructor
    · intro hlive
      obtain ⟨n, hp⟩ := hlive
      obtain ⟨y, s, hy, heq, -⟩ := hi.owned.block p n hp
      exact ⟨y, s, hy, heq⟩
    · rintro ⟨y, s, hy, rfl⟩
      exact hi.owned.owner y s hy
  enough := by
    intro p n hp
    obtain ⟨-, -, -, -, hn⟩ := hi.block_of_live hp
    exact hn
  aligned := by
    intro p n hp
    obtain ⟨y, hy, -, hnat, -⟩ := hi.block_of_live hp
    have hmod := placed_mod (U := 8) hi.ready.sizes (by decide) pool.aligned (mem_used.mp hy)
    omega
  apart := by
    intro p n q m hp hq hne
    obtain ⟨y, hy, hpy, hpnat, -⟩ := hi.block_of_live hp
    obtain ⟨z, hz, hqz, hqnat, -⟩ := hi.block_of_live hq
    rcases used_apart hy hz with h | h | h
    · exact absurd (by rw [hpy, hqz, h]) hne
    · omega
    · omega
  headers := by
    intro p n hp z c hz
    obtain ⟨y, hy, -, hnat, -⟩ := hi.block_of_live hp
    rcases used_placed_apart hy hz with ⟨h, -⟩ | h | h
    · omega
    · omega
    · omega

/-! ## The pool -/

/-- **The pool is tiled.** In every run every call a client may make returns,
and once the heap is initialised its list covers the pool block by block,
with the live allocations for its used blocks. -/
theorem heap_tiled {mem : Mem} {es : List (HeapCall × UInt64)} (h : Steps (HeapStep pool) (World.atBoot mem) es w) :
    (∀ c : HeapCall, c.Allowed w.live → ∃ r w', HeapStep pool w (c, r) w') ∧
      (w.heap.allocatorInitialized = true → ∃ bs, Ready pool w.heap bs ∧ Allocations pool w bs) := by
  obtain ⟨bs, hi⟩ := exists_heapInv h
  refine ⟨?_, fun hinit => ⟨bs, ?_, hi.allocations⟩⟩
  · intro c hc
    obtain ⟨r, h', bs', hrun, -⟩ := HeapCall.serves hi hc
    exact ⟨r, _, .call hc hrun⟩
  · have hr := hi.ready
    rwa [allocatorInit_of_init hinit] at hr

/-- Three blocks, of which the first is given back, the second cut before the
third and then given back, which joins it to the free ones around it; the last
call has room where they were. -/
def joiningRun : List (HeapCall × UInt64) :=
  [(.malloc 100, 4120), (.calloc 5 16, 4248), (.malloc 40, 4352), (.write 4248 3 7, 0), (.free 4120, 0),
    (.realloc 4248 8, 4248), (.read 4248 3, 7), (.free 4248, 0), (.malloc 150, 4120)]

/-- No `realloc` of it cuts a block before a free one. -/
theorem exists_joiningRun : ∃ w, Steps (fun w e w' => ¬ e.1.splitsBeforeFree w.heap = true ∧ HeapStep poolAt4096 w e w')
    (World.atBoot fun _ => 0) joiningRun w ∧ w.heap.allocatorInitialized = true := by
  let next : World → HeapCall × UInt64 → Option World := fun w e =>
    if e.1.splitsBeforeFree w.heap then none else w.next poolAt4096 e
  have hcalc : (joiningRun.foldlM next (World.atBoot fun _ => 0)).any (fun w : World => w.heap.allocatorInitialized) =
      true := by decide +kernel
  rw [Option.any_eq_true] at hcalc
  obtain ⟨w, hrun, hinit⟩ := hcalc
  refine ⟨w, foldlM_steps (fun w e w' hn => ?_) hrun, hinit⟩
  simp only [next] at hn
  split at hn
  · cases hn
  · rename_i hkept
    exact ⟨hkept, (World.next_spec hn).1⟩

theorem heap_tiled_joiningRun : ∃ w, Steps (HeapStep poolAt4096) (World.atBoot fun _ => 0) joiningRun w ∧
    (∀ c : HeapCall, c.Allowed w.live → ∃ r w', HeapStep poolAt4096 w (c, r) w') ∧
      ∃ bs, Ready poolAt4096 w.heap bs ∧ Allocations poolAt4096 w bs := by
  obtain ⟨w, hrun, hinit⟩ := exists_joiningRun
  have hsteps : Steps (HeapStep poolAt4096) (World.atBoot fun _ => 0) joiningRun w := hrun.mono fun _ _ _ h => h.2
  obtain ⟨hserves, htiled⟩ := heap_tiled hsteps
  exact ⟨w, hsteps, hserves, htiled hinit⟩

/-! ## The store -/

/-- **The heap is a store of byte arrays.** Every run of the heap is a run of
the store, with the arrays the clients hold. -/
theorem heap_refines_store {mem : Mem} {es : List (HeapCall × UInt64)}
    (h : Steps (HeapStep pool) (World.atBoot mem) es w) : Steps StoreStep (fun _ => none) es w.contents := by
  have hsim : ∃ s, Steps StoreStep (fun _ => none) (es.map id) s ∧ s = w.contents ∧ ∃ bs, HeapInv pool w bs :=
    h.simulate (fun w s => s = w.contents ∧ ∃ bs, HeapInv pool w bs) id
      ⟨rfl, _, atBoot_inv pool mem⟩ fun v s e v' hv he => by
        obtain ⟨rfl, bs, hi⟩ := hv
        obtain ⟨bs', hserved⟩ := he.served hi
        exact ⟨v'.contents, hserved.store, rfl, bs', hserved.inv⟩
  obtain ⟨s, hrun, rfl, -⟩ := hsim
  rw [List.map_id] at hrun
  exact hrun

theorem heap_refines_store_joiningRun : ∃ w : World, Steps (HeapStep poolAt4096) (World.atBoot fun _ => 0) joiningRun w ∧
    Steps StoreStep (fun _ => none) joiningRun w.contents := by
  obtain ⟨w, hrun, -⟩ := exists_joiningRun
  have hsteps : Steps (HeapStep poolAt4096) (World.atBoot fun _ => 0) joiningRun w := hrun.mono fun _ _ _ h => h.2
  exact ⟨w, hsteps, heap_refines_store hsteps⟩

/-! ## Starvation -/

/-- Where no two free blocks are neighbours, NULL means that no run of vacant
bytes has room for a header and the bytes asked for. -/
theorem HeapInv.vacant_lt {x l : Nat} (hi : HeapInv pool w bs) (hpairs : NoFreePair bs) (hs : size ≠ 0)
    (hm : malloc pool w.heap size = some (0, h')) (hv : Vacant pool w x l) : l < 24 + alignUp size.toNat := by
  obtain ⟨hx, hl⟩ := hv.inside
  rw [poolSize_toNat] at hl
  by_cases hbig : 2 ^ 64 ≤ alignUp size.toNat
  · omega
  · rcases malloc_spec hi.ready hs (by omega) with ⟨-, hno⟩ | ⟨y, pre, b, post, h₁, hm₁, -, -, -, hset⟩
    · rcases Nat.eq_zero_or_pos l with rfl | hpos
      · omega
      · have hgap : Gap 24 pool.bytes.toNat bs x l := by
          refine ⟨by rw [hi.ready.covers]; exact ⟨hx, hl⟩, ?_⟩
          intro y s hy
          obtain ⟨n, hp⟩ := hi.owned.owner y s hy
          have hr := hi.ready_of_live hp
          have hapart := hv.apart _ n hp
          rw [hr.payload_eq hy, hr.pointer_toNat hy] at hapart
          have h24 : sizeofBlock.toNat = 24 := rfl
          omega
        obtain ⟨y, b, hb, hfree, hy, hend⟩ := hpairs.gap (by decide) hpos hgap
        have hlt := hno b (placed_mem hb) hfree
        omega
    · obtain ⟨s, -, hgrants⟩ := hset.grants
      rw [hm₁, Option.some.injEq, Prod.mk.injEq] at hm
      exact absurd hm.1 (hset.ready.pointer_ne_zero ((hgrants y s).mpr (.inl ⟨rfl, rfl⟩)))

/-- **No starvation by fragmentation**, where no `realloc` cuts a block before
a free one: no two free blocks are neighbours, and `malloc` returns NULL only
where no run of vacant bytes has room. A call that does cut before a free
block leaves two free neighbours. -/
theorem malloc_finds_room {mem : Mem} {es : List (HeapCall × UInt64)}
    (h : Steps (fun w e w' => ¬ e.1.splitsBeforeFree w.heap = true ∧ HeapStep pool w e w') (World.atBoot mem) es w) :
    (w.heap.allocatorInitialized = true → ∃ bs, Ready pool w.heap bs ∧ NoFreePair bs) ∧
      (∀ size h', size ≠ 0 → malloc pool w.heap size = some (0, h') →
        ∀ x l, Vacant pool w x l → l < 24 + alignUp size.toNat) ∧
      ∀ c r w', HeapStep pool w (c, r) w' → c.splitsBeforeFree w.heap = true →
        ¬ ∃ bs, Ready pool w'.heap bs ∧ NoFreePair bs := by
  have hinv : ∃ bs, HeapInv pool w bs ∧ NoFreePair bs :=
    h.invariant_of (fun w => ∃ bs, HeapInv pool w bs ∧ NoFreePair bs)
      ⟨_, atBoot_inv pool mem, List.isChain_singleton _⟩ fun v e v' hv hc he => by
        obtain ⟨bs, hi, hpairs⟩ := hv
        obtain ⟨bs', hserved⟩ := he.served hi
        exact ⟨bs', hserved.inv, (hserved.pairs hpairs).mpr hc⟩
  obtain ⟨bs, hi, hpairs⟩ := hinv
  refine ⟨fun hinit => ⟨bs, ?_, hpairs⟩, fun size h' hs hm x l hv => hi.vacant_lt hpairs hs hm hv, ?_⟩
  · have hr := hi.ready
    rwa [allocatorInit_of_init hinit] at hr
  · intro c r w' hstep hc hlist
    obtain ⟨cs, hready, hcs⟩ := hlist
    obtain ⟨bs', hserved⟩ := hstep.served hi
    have hr := hserved.inv.ready
    rw [allocatorInit_of_init hready.init] at hr
    rw [hready.unique hr] at hcs
    exact (hserved.pairs hpairs).mp hcs hc

theorem malloc_finds_room_joiningRun : ∃ w, Steps
    (fun w e w' => ¬ e.1.splitsBeforeFree w.heap = true ∧ HeapStep poolAt4096 w e w')
    (World.atBoot fun _ => 0) joiningRun w ∧
      (∃ bs, Ready poolAt4096 w.heap bs ∧ NoFreePair bs) ∧
      (∀ size h', size ≠ 0 → malloc poolAt4096 w.heap size = some (0, h') →
        ∀ x l, Vacant poolAt4096 w x l → l < 24 + alignUp size.toNat) ∧
      ∀ c r w', HeapStep poolAt4096 w (c, r) w' → c.splitsBeforeFree w.heap = true →
        ¬ ∃ bs, Ready poolAt4096 w'.heap bs ∧ NoFreePair bs := by
  obtain ⟨w, hrun, hinit⟩ := exists_joiningRun
  obtain ⟨hpairs, hroom, hcut⟩ := malloc_finds_room hrun
  exact ⟨w, hrun, hpairs hinit, hroom, hcut⟩

/-- Half of the pool cut down to 8 bytes: the rest of it and the other half
are two free blocks, and neither has room for what both have room for. -/
theorem free_neighbours_after_realloc : ∃ w, Steps (HeapStep poolAt4096) (World.atBoot fun _ => 0)
    [(.malloc 524288, 4120), (.realloc 4120 8, 4120)] w ∧
      w.heap.allocatorInitialized = true ∧ ¬ (∃ bs, Ready poolAt4096 w.heap bs ∧ NoFreePair bs) ∧
      (∃ h', malloc poolAt4096 w.heap 600000 = some (0, h')) ∧
      Vacant poolAt4096 w 4128 1048544 ∧ 24 + alignUp 600000 ≤ 1048544 := by
  have hrun : ((World.atBoot fun _ => 0).next poolAt4096 (.malloc 524288, 4120)).any (fun w₁ =>
      splitsBeforeFree w₁.heap 4120 8 && (w₁.next poolAt4096 (.realloc 4120 8, 4120)).any fun w₂ =>
        w₂.heap.allocatorInitialized && payload w₂.heap 4120 == 8 &&
          (malloc poolAt4096 w₂.heap 600000).any fun t => t.1 == 0) = true := by decide +kernel
  simp only [Option.any_eq_true, Bool.and_eq_true, beq_iff_eq] at hrun
  obtain ⟨w₁, hw₁, hsplit, w₂, hw₂, ⟨hinit, hpayload⟩, ⟨t, h₃⟩, hnull, rfl⟩ := hrun
  obtain ⟨hstep₁, hlive₁⟩ := World.next_spec hw₁
  obtain ⟨hstep₂, hlive₂⟩ := World.next_spec hw₂
  obtain ⟨bs₁, hserved₁⟩ := hstep₁.served (atBoot_inv poolAt4096 _)
  obtain ⟨bs₂, hserved₂⟩ := hstep₂.served hserved₁.inv
  have hpairs₁ := (hserved₁.pairs (List.isChain_singleton _)).mpr Bool.false_ne_true
  refine ⟨w₂, .snoc (.snoc .nil hstep₁) hstep₂, hinit, ?_, ⟨h₃, hnull⟩, ⟨by decide, ?_⟩, by decide⟩
  · intro hlist
    obtain ⟨cs, hready, hcs⟩ := hlist
    have hr := hserved₂.inv.ready
    rw [allocatorInit_of_init hinit] at hr
    rw [hready.unique hr] at hcs
    exact (hserved₂.pairs hpairs₁).mp hcs hsplit
  · intro p n hp
    by_cases h4120 : p = 4120
    · rw [h4120, hpayload]
      exact .inl (by decide)
    · -- No other pointer was returned.
      rw [hlive₂, hlive₁] at hp
      simp [HeapCall.record, Live.grant, Live.drop, World.atBoot, Function.update_of_ne h4120] at hp

end Served

end Tinos
