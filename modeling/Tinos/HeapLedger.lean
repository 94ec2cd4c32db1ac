/-
What the clients hold and the blocks of the heap are the same thing
(`HeapInv`): every live pointer is the payload of a used block of that many
bytes, and every used block is held.

`HeapCall.serves` says that every call a client may make returns, keeps this,
and is a step of the store of byte arrays; and of the calls, which can leave
two free blocks side by side.
-/
import Tinos.HeapClients
import Tinos.HeapResize

namespace Tinos

open Bytes Tiling

/-- The live pointers are those of the used blocks. -/
structure Owned (live : Live) (base : Nat) (bs : List Block) : Prop where
  block : ∀ p n, live p = some n → ∃ y s, (y, s) ∈ used 24 base bs ∧ p = UInt64.ofNat (y + 24) ∧ n ≤ s
  owner : ∀ y s, (y, s) ∈ used 24 base bs → ∃ n, live (UInt64.ofNat (y + 24)) = some n

/-- The heap holds the blocks `bs`, or will when it is initialised, and the
clients hold the used ones. -/
structure HeapInv (pool : MemoryPool) (w : World) (bs : List Block) : Prop where
  ready : Ready pool (allocatorInit pool w.heap) bs
  owned : Owned w.live pool.bytes.toNat bs
  idle : w.heap.allocatorInitialized = false → ∀ p, w.live p = none

/-- What the clients hold, but at `p`, is as it was. -/
def SameBytes (live : Live) (h h' : Heap) (p : UInt64) : Prop :=
  ∀ q n, live q = some n → q ≠ p → ∀ i, i < n → h'.mem (q.toNat + i) = h.mem (q.toNat + i)

section Ledger

variable {pool : MemoryPool} {w : World} {h h' : Heap} {live : Live} {bs bs' : List Block}
variable {p q : UInt64} {n s t y z : Nat}

/-! ## The ledger -/

theorem Owned.not_live (ho : Owned live pool.bytes.toNat bs) (hr' : Ready pool h' bs')
    (hy : (y, s) ∈ used 24 pool.bytes.toNat bs') (hkeep : ∀ z t, (z, t) ∈ used 24 pool.bytes.toNat bs →
      (z, t) ∈ used 24 pool.bytes.toNat bs') (hfresh : ∀ t, (y, t) ∉ used 24 pool.bytes.toNat bs) :
    live (UInt64.ofNat (y + 24)) = none := by
  cases hp : live (UInt64.ofNat (y + 24)) with
  | none => rfl
  | some n =>
    obtain ⟨z, t, hz, heq, -⟩ := ho.block _ n hp
    have hzy := hr'.pointer_inj hy (hkeep z t hz) heq.symm
    exact absurd (hzy ▸ hz) (hfresh t)

/-- A used block is put at `y`, or takes the place of the one there. -/
theorem Owned.grants (ho : Owned live pool.bytes.toNat bs) (hg : Grants 24 pool.bytes.toNat bs bs' y s)
    (hr' : Ready pool h' bs') (hn : n ≤ s) :
    Owned (Function.update live (UInt64.ofNat (y + 24)) (some n)) pool.bytes.toNat bs' where
  block := by
    intro q m hq
    by_cases hp : q = UInt64.ofNat (y + 24)
    · rw [hp, Function.update_self, Option.some.injEq] at hq
      exact ⟨y, s, (hg y s).mpr (.inl ⟨rfl, rfl⟩), hp, hq ▸ hn⟩
    · rw [Function.update_of_ne hp] at hq
      obtain ⟨z, t, hz, heq, hm⟩ := ho.block q m hq
      have hzy : z ≠ y := fun h => hp (by rw [heq, h])
      exact ⟨z, t, (hg z t).mpr (.inr ⟨hz, hzy⟩), heq, hm⟩
  owner := by
    intro z t hz
    by_cases hzy : z = y
    · rw [hzy]
      exact ⟨n, Function.update_self _ _ _⟩
    · have hne : UInt64.ofNat (z + 24) ≠ UInt64.ofNat (y + 24) := fun h =>
        hzy (hr'.pointer_inj ((hg y s).mpr (.inl ⟨rfl, rfl⟩)) hz h)
      rw [Function.update_of_ne hne]
      rcases (hg z t).mp hz with ⟨h, -⟩ | ⟨hz, -⟩
      · exact absurd h hzy
      · exact ho.owner z t hz

/-- The used block at `y` is gone. -/
theorem Owned.drops (ho : Owned live pool.bytes.toNat bs) (hd : Drops 24 pool.bytes.toNat bs bs' y)
    (hr : Ready pool h bs) (hy : (y, s) ∈ used 24 pool.bytes.toNat bs) :
    Owned (live.drop (UInt64.ofNat (y + 24))) pool.bytes.toNat bs' where
  block := by
    intro q m hq
    by_cases hp : q = UInt64.ofNat (y + 24)
    · rw [hp, Live.drop, Function.update_self] at hq
      cases hq
    · rw [Live.drop, Function.update_of_ne hp] at hq
      obtain ⟨z, t, hz, heq, hm⟩ := ho.block q m hq
      have hzy : z ≠ y := fun h => hp (by rw [heq, h])
      exact ⟨z, t, (hd z t).mpr ⟨hz, hzy⟩, heq, hm⟩
  owner := by
    intro z t hz
    obtain ⟨hz, hzy⟩ := (hd z t).mp hz
    rw [Live.drop, Function.update_of_ne fun h => hzy (hr.pointer_inj hy hz h)]
    exact ho.owner z t hz

/-- No other used block is touched, so nothing that others hold. -/
theorem OthersKept.same (hk : OthersKept pool h h' bs y) (ho : Owned live pool.bytes.toNat bs) (hr : Ready pool h bs) :
    SameBytes live h h' (UInt64.ofNat (y + 24)) := by
  intro q n hq hne i hi
  obtain ⟨z, t, hz, heq, hn⟩ := ho.block q n hq
  have hzy : z ≠ y := fun h => hne (by rw [heq, h])
  rw [heq, hr.pointer_toNat hz]
  exact hk z t hz hzy _ (by omega) (by omega)

/-! ## Contents -/

/-- One entry of the contents changes with one entry of what is held. -/
theorem contents_update (hs : SameBytes live h h' p) (v : Option Nat) :
    World.contents ⟨h', Function.update live p v⟩ =
      Function.update (World.contents ⟨h, live⟩) p (v.map (bytesAt h'.mem p.toNat)) := by
  funext q
  by_cases hq : q = p
  · simp only [hq, World.contents, Function.update_self]
  · simp only [World.contents, Function.update_of_ne hq]
    cases hn : live q with
    | none => rfl
    | some n => exact congrArg some (bytesAt_congr (hs q n hn hq))

theorem contents_congr (hs : SameBytes live h h' 0) (h0 : live 0 = none) :
    World.contents ⟨h', live⟩ = World.contents ⟨h, live⟩ := by
  have hu := contents_update hs none
  have h0' : World.contents ⟨h, live⟩ 0 = none := by simp [World.contents, h0]
  rw [← h0, Function.update_eq_self, h0, Option.map_none, ← h0', Function.update_eq_self] at hu
  exact hu

/-! ## The invariant -/

theorem HeapInv.of_ready (hr : Ready pool h bs) (ho : Owned live pool.bytes.toNat bs) : HeapInv pool ⟨h, live⟩ bs where
  ready := by
    rw [allocatorInit_of_init hr.init]
    exact hr
  owned := ho
  idle := fun hi => absurd (hr.init.symm.trans hi) Bool.noConfusion

theorem HeapInv.init (hi : HeapInv pool w bs) (hp : w.live p = some n) : w.heap.allocatorInitialized = true := by
  cases hinit : w.heap.allocatorInitialized with
  | true => rfl
  | false =>
    rw [hi.idle hinit p] at hp
    cases hp

theorem HeapInv.ready_of_live (hi : HeapInv pool w bs) (hp : w.live p = some n) : Ready pool w.heap bs := by
  have hr := hi.ready
  rwa [allocatorInit_of_init (hi.init hp)] at hr

/-- The block of a live pointer, among the others. -/
theorem HeapInv.split (hi : HeapInv pool w bs) (hp : w.live p = some n) :
    ∃ pre b post y, bs = pre ++ b :: post ∧ b.free = false ∧ y = pool.bytes.toNat + span 24 pre ∧
      p = UInt64.ofNat (y + 24) ∧ n ≤ b.size := by
  obtain ⟨y, s, hy, heq, hn⟩ := hi.owned.block p n hp
  obtain ⟨pre, post, hbs, hpre⟩ := exists_split (mem_used.mp hy)
  exact ⟨pre, ⟨s, false⟩, post, y, hbs, rfl, hpre, heq, hn⟩

theorem HeapInv.null (hi : HeapInv pool w bs) : w.live 0 = none := by
  cases h0 : w.live 0 with
  | none => rfl
  | some n =>
    obtain ⟨y, s, hy, heq, -⟩ := hi.owned.block 0 n h0
    exact absurd heq.symm (hi.ready.pointer_ne_zero hy)

/-- A client writes inside what it holds. -/
theorem HeapInv.write (hi : HeapInv pool w bs) (hp : w.live p = some n) (m' : Mem)
    (hm : ∀ x, ¬ (p.toNat ≤ x ∧ x < p.toNat + n) → m' x = w.heap.mem x) :
    HeapInv pool ⟨{ w.heap with mem := m' }, w.live⟩ bs ∧ SameBytes w.live w.heap { w.heap with mem := m' } p := by
  have hr := hi.ready_of_live hp
  obtain ⟨y, s, hy, heq, hn⟩ := hi.owned.block p n hp
  have hp' : p.toNat = y + 24 := by rw [heq, hr.pointer_toNat hy]
  refine ⟨.of_ready (hr.payload hy fun x hx => hm x (by omega)) hi.owned, fun q k hq hne i hi' => hm _ ?_⟩
  obtain ⟨z, t, hz, hqz, hk⟩ := hi.owned.block q k hq
  have hq' : q.toNat = z + 24 := by rw [hqz, hr.pointer_toNat hz]
  rcases used_apart hz hy with h | h | h
  · exact absurd (by rw [hqz, heq, h]) hne
  · omega
  · omega

theorem SameBytes.trans {h₁ h₂ : Heap} (h12 : SameBytes live h h₁ p) (h23 : SameBytes live h₁ h₂ p) :
    SameBytes live h h₂ p :=
  fun q n hq hne i hi => (h23 q n hq hne i hi).trans (h12 q n hq hne i hi)

theorem HeapInv.same_init (hi : HeapInv pool w bs) (p : UInt64) :
    SameBytes w.live w.heap (allocatorInit pool w.heap) p := by
  intro q n hq _ i _
  rw [allocatorInit_of_init (hi.init hq)]

/-! ## malloc and calloc -/

/-- The clients hold one more array, at `p`. -/
structure Allocated (pool : MemoryPool) (w : World) (bs : List Block) (p : UInt64) (n : Nat) (h' : Heap)
    (bs' : List Block) : Prop where
  ne : p ≠ 0
  fresh : w.live p = none
  inv : HeapInv pool ⟨h', Function.update w.live p (some n)⟩ bs'
  same : SameBytes w.live w.heap h' p
  pairs : NoFreePair bs → NoFreePair bs'

theorem malloc_ledger (hi : HeapInv pool w bs) (size : UInt64) :
    (∃ h', malloc pool w.heap size = some (0, h') ∧ HeapInv pool ⟨h', w.live⟩ bs ∧
        SameBytes w.live w.heap h' 0) ∨
      ∃ p h' bs', malloc pool w.heap size = some (p, h') ∧ Allocated pool w bs p size.toNat h' bs' := by
  have hsame : SameBytes w.live w.heap w.heap 0 := fun _ _ _ _ _ _ => rfl
  by_cases hs : size = 0
  · exact .inl ⟨w.heap, by rw [hs]; rfl, hi, hsame⟩
  · by_cases hbig : 2 ^ 64 ≤ alignUp size.toNat
    · exact .inl ⟨w.heap, malloc_refused hbig, hi, hsame⟩
    · rcases malloc_spec hi.ready hs (by omega) with ⟨hm, -⟩ | ⟨y, pre, b, post, h', hm, rfl, hb, hy, hset⟩
      · exact .inl ⟨_, hm, .of_ready hi.ready hi.owned, hi.same_init 0⟩
      · obtain ⟨s, hns, hgrants⟩ := hset.grants
        have hused := (hgrants y s).mpr (.inl ⟨rfl, rfl⟩)
        have hfresh : ∀ t, (y, t) ∉ used 24 pool.bytes.toNat (pre ++ b :: post) :=
          fun t ht => not_used_of_free (by decide) hb (hy ▸ ht)
        refine .inr ⟨_, h', pre ++ carve 24 8 (alignUp size.toNat) false b ++ post, hm,
          hset.ready.pointer_ne_zero hused, ?_, ?_, ?_, fun hpairs => ?_⟩
        · refine hi.owned.not_live hset.ready hused (fun z t hz => ?_) hfresh
          exact (hgrants z t).mpr (.inr ⟨hz, fun h => hfresh t (h ▸ hz)⟩)
        · have hle := le_alignUp size.toNat
          exact .of_ready hset.ready (hi.owned.grants hgrants hset.ready (by omega))
        · exact (hi.same_init _).trans (hset.others.same hi.owned hi.ready)
        · exact noFreePair_carve hpairs fun _ => hpairs.next hb

/-- Zeroing the new array. -/
theorem Allocated.zero (ha : Allocated pool w bs p n h' bs') :
    Allocated pool w bs p n { h' with mem := zeroBytes h'.mem p n 0 } bs' ∧
      ∀ i, i < n → zeroBytes h'.mem p n 0 (p.toNat + i) = 0 := by
  have hlive : Function.update w.live p (some n) p = some n := Function.update_self _ _ _
  have hr := ha.inv.ready_of_live hlive
  obtain ⟨y, s, hy, heq, hn⟩ := ha.inv.owned.block p n hlive
  have hbounds := hr.used_bounds hy
  have hpy : p.toNat = y + 24 := by rw [heq, hr.pointer_toNat hy]
  have hp := UInt64.ofNat_toNat (x := p)
  obtain ⟨hinv, hsame⟩ := ha.inv.write hlive (zeroBytes h'.mem p n 0) fun x hx => by
    rw [← hp]
    exact zeroBytes_outside (by omega) (by omega)
  refine ⟨⟨ha.ne, ha.fresh, hinv, ?_, ha.pairs⟩, ?_⟩
  · intro q k hq hne i hi
    exact (hsame q k ((Function.update_of_ne hne _ _).trans hq) hne i hi).trans (ha.same q k hq hne i hi)
  · intro i hi
    rw [← hp]
    exact zeroBytes_spec (by omega) (by rw [hp]; omega) (by rw [hp]; omega)

/-- The check of `calloc` leaves no product that wraps. -/
theorem toNat_total {num size : UInt64} (hsize : size ≠ 0) (hnum : ¬ sizeMax / size < num) :
    (num * size).toNat = num.toNat * size.toNat := by
  have hpos : 0 < size.toNat := Nat.pos_of_ne_zero fun h => hsize (UInt64.toNat.inj h)
  have hmax : sizeMax.toNat < 2 ^ 64 := sizeMax.toNat_lt
  rw [UInt64.lt_iff_toNat_lt, UInt64.toNat_div, Nat.not_lt, Nat.le_div_iff_mul_le hpos] at hnum
  exact Word.toNat_mul_of_lt (by omega)

theorem calloc_ledger (hi : HeapInv pool w bs) (num size : UInt64) :
    (∃ h', calloc pool w.heap num size = some (0, h') ∧ HeapInv pool ⟨h', w.live⟩ bs ∧
        SameBytes w.live w.heap h' 0) ∨
      ∃ p h' bs', calloc pool w.heap num size = some (p, h') ∧
        Allocated pool w bs p (num.toNat * size.toNat) h' bs' ∧
        ∀ i, i < num.toNat * size.toNat → h'.mem (p.toNat + i) = 0 := by
  have hsame : SameBytes w.live w.heap w.heap 0 := fun _ _ _ _ _ _ => rfl
  unfold calloc
  by_cases h0 : (num == 0 || size == 0) = true
  · exact .inl ⟨w.heap, by rw [if_pos h0], hi, hsame⟩
  · rw [if_neg h0]
    rw [Bool.or_eq_true, not_or, beq_iff_eq, beq_iff_eq] at h0
    by_cases hbig : sizeMax / size < num
    · exact .inl ⟨w.heap, by rw [if_pos hbig], hi, hsame⟩
    · rw [if_neg hbig]
      rcases malloc_ledger hi (num * size) with ⟨h', hm, hinv, hsame'⟩ | ⟨p, h', bs', hm, ha⟩
      · exact .inl ⟨h', by simp only [hm]; rfl, hinv, hsame'⟩
      · have hp0 : (p == 0) = false := beq_eq_false_iff_ne.mpr ha.ne
        rw [← toNat_total h0.2 hbig]
        obtain ⟨hz, hzero⟩ := ha.zero
        refine .inr ⟨p, _, bs', ?_, hz, hzero⟩
        simp only [hm, hp0, Option.bind_eq_bind, Option.bind_some, Bool.false_eq_true, if_false]
        rfl

/-! ## free and realloc -/

theorem free_ledger (hi : HeapInv pool w bs) (hp : w.live p = some n) :
    ∃ h' bs', free w.heap p = some h' ∧ HeapInv pool ⟨h', w.live.drop p⟩ bs' ∧ SameBytes w.live w.heap h' p ∧
      NoFreePair bs' := by
  have hr := hi.ready_of_live hp
  obtain ⟨pre, b, post, y, rfl, hb, hy, rfl, -⟩ := hi.split hp
  obtain ⟨h', hf, hr', hothers⟩ := free_spec hr hb hy
  have hused : (y, b.size) ∈ used 24 pool.bytes.toNat (pre ++ b :: post) := hy ▸ used_of_split hb
  refine ⟨h', _, hf, .of_ready hr' ?_, hothers.same hi.owned hr, noFreePair_coalesce⟩
  exact hi.owned.drops (hy ▸ drops_free (by decide)) hr hused

/-- The array at `p` is at `q`, with `n` bytes, as far as it had them. -/
structure Reallocated (pool : MemoryPool) (w : World) (p q : UInt64) (old n : Nat) (h' : Heap) (bs' : List Block) :
    Prop where
  ne : q ≠ 0
  fresh : q = p ∨ w.live q = none
  inv : HeapInv pool ⟨h', Function.update (w.live.drop p) q (some n)⟩ bs'
  same : SameBytes w.live w.heap h' p
  kept : ∀ i, i < min old n → h'.mem (q.toNat + i) = w.heap.mem (p.toNat + i)

theorem Settled.reallocated {k old : Nat} (hset : Settled pool w.heap bs y t k h' bs') (hi : HeapInv pool w bs)
    (hr : Ready pool w.heap bs) (hn : n ≤ t) (hk : min old n ≤ k) :
    Reallocated pool w (UInt64.ofNat (y + 24)) (UInt64.ofNat (y + 24)) old n h' bs' := by
  obtain ⟨s, hts, hgrants⟩ := hset.grants
  have hused := (hgrants y s).mpr (.inl ⟨rfl, rfl⟩)
  refine ⟨hset.ready.pointer_ne_zero hused, .inl rfl, .of_ready hset.ready ?_, hset.others.same hi.owned hr, ?_⟩
  · rw [Live.drop, Function.update_idem]
    exact hi.owned.grants hgrants hset.ready (by omega)
  · intro i h
    rw [hset.ready.pointer_toNat hused]
    exact hset.kept _ (by omega) (by omega)

theorem Moved.reallocated {k old : Nat} (hmov : Moved pool w.heap bs y z t k h' bs') (hi : HeapInv pool w bs)
    (hr : Ready pool w.heap bs) (hy : (y, s) ∈ used 24 pool.bytes.toNat bs) (hn : n ≤ t) (hk : min old n ≤ k) :
    Reallocated pool w (UInt64.ofNat (y + 24)) (UInt64.ofNat (z + 24)) old n h' bs' := by
  obtain ⟨u, mid, h₁, hmid, htu, hgrants, hdrops⟩ := hmov.moves
  have hzy : z ≠ y := fun h => hmov.fresh s (h ▸ hy)
  have hkeep : ∀ x t, (x, t) ∈ used 24 pool.bytes.toNat bs → (x, t) ∈ used 24 pool.bytes.toNat mid := fun x t hx =>
    (hgrants x t).mpr (.inr ⟨hx, fun h => hmov.fresh t (h ▸ hx)⟩)
  have hz := (hgrants z u).mpr (.inl ⟨rfl, rfl⟩)
  have hused := (hdrops z u).mpr ⟨hz, hzy⟩
  have hne : UInt64.ofNat (z + 24) ≠ UInt64.ofNat (y + 24) := fun h =>
    hzy (hmid.pointer_inj (hkeep y s hy) hz h)
  refine ⟨hmov.ready.pointer_ne_zero hused, .inr (hi.owned.not_live hmid hz hkeep hmov.fresh), .of_ready hmov.ready ?_,
    hmov.others.same hi.owned hr, fun i h => ?_⟩
  · rw [Live.drop, Function.update_comm hne.symm]
    exact (hi.owned.grants hgrants hmid (htu.trans' hn)).drops hdrops hmid (hkeep y s hy)
  · rw [hmov.ready.pointer_toNat hused, hr.pointer_toNat hy]
    exact hmov.copied i (by omega)

/-- A free block follows `b`, and `b` has 32 bytes or more to spare. -/
theorem splitsBeforeFree_iff {pre post : List Block} {b : Block} {newSize : UInt64}
    (hr : Ready pool h (pre ++ b :: post)) (hy : y = pool.bytes.toNat + span 24 pre) (hs : newSize ≠ 0) :
    splitsBeforeFree h (UInt64.ofNat (y + 24)) newSize = true ↔
      alignUp newSize.toNat + 24 + 8 ≤ b.size ∧ ∃ c ∈ post.head?, c.free = true := by
  obtain ⟨hpos, hptr, hend⟩ := hr.pointer hy
  have hchain := hy ▸ hr.suffix
  have hsize : blockSize h.mem (UInt64.ofNat y) = UInt64.ofNat b.size := hchain.1.blockSize (by omega)
  have hptr0 : (UInt64.ofNat (y + 24) != 0) = true := bne_iff_ne.mpr (ofNat_ne_zero (by omega) hptr)
  have hfits := hr.fits
  simp only [span_append] at hfits
  have hnext := hchain.nextFree hpos (by omega)
  unfold splitsBeforeFree
  simp only [hptr0, ofNat_sub_header, hsize, hnext, Bool.true_and]
  by_cases hbig : 2 ^ 64 ≤ alignUp newSize.toNat
  · rw [alignSize_of_ge hbig]
    simp only [bne_self_eq_false, Bool.false_and, Bool.false_eq_true, false_iff]
    omega
  · have hnat : newSize.toNat ≠ 0 := fun h0 => hs (UInt64.toNat.inj h0)
    have hn0 : (UInt64.ofNat (alignUp newSize.toNat) != 0) = true :=
      bne_iff_ne.mpr (ofNat_ne_zero (alignUp_pos (by omega)) (by omega))
    rw [alignSize_of_lt (by omega)]
    simp only [hn0, Bool.true_and, Bool.and_eq_true, decide_eq_true_eq, Option.any_eq_true, Option.mem_def,
      ofNat_le (show alignUp newSize.toNat < 2 ^ 64 by omega) (show b.size < 2 ^ 64 by omega)]
    by_cases hle : alignUp newSize.toNat ≤ b.size
    · have hspare : sizeofBlock + allocationAlignment ≤ UInt64.ofNat b.size - UInt64.ofNat (alignUp newSize.toNat) ↔
          alignUp newSize.toNat + 24 + 8 ≤ b.size := by
        have h32 : (sizeofBlock + allocationAlignment).toNat = 32 := rfl
        rw [← UInt64.ofNat_sub hle, UInt64.le_iff_toNat_le, h32, toNat_ofNat (by omega)]
        omega
      simp only [hle, true_and, hspare]
    · simp only [hle, false_and, false_iff]
      omega

theorem realloc_ledger {newSize : UInt64} (hi : HeapInv pool w bs) (hp : w.live p = some n) (hs : newSize ≠ 0) :
    ∃ q h' bs', realloc pool w.heap p newSize = some (q, h') ∧
      (q = 0 ∧ h' = w.heap ∧ bs' = bs ∨ Reallocated pool w p q n newSize.toNat h' bs') ∧
      (NoFreePair bs → (NoFreePair bs' ↔ ¬ splitsBeforeFree w.heap p newSize = true)) := by
  have hr := hi.ready_of_live hp
  obtain ⟨pre, b, post, y, rfl, hb, hy, rfl, hn⟩ := hi.split hp
  obtain ⟨-, -, hend⟩ := hr.pointer hy
  have hused : (y, b.size) ∈ used 24 pool.bytes.toNat (pre ++ b :: post) := hy ▸ used_of_split hb
  have hle := le_alignUp newSize.toNat
  rw [splitsBeforeFree_iff hr hy hs]
  by_cases hfits : alignUp newSize.toNat ≤ b.size
  · obtain ⟨h', hcall, hset⟩ := realloc_shrink hr hb hy hs rfl hfits
    exact ⟨_, h', _, hcall, .inr (hset.reallocated hi hr hle (by omega)), noFreePair_carve_iff⟩
  · have hno : ¬ (alignUp newSize.toNat + 24 + 8 ≤ b.size ∧ ∃ c ∈ post.head?, c.free = true) := fun h => by omega
    simp only [hno, not_false_eq_true, iff_true]
    by_cases hbig : 2 ^ 64 ≤ alignUp newSize.toNat
    · exact ⟨0, _, _, realloc_refused hr hy hs hbig, .inl ⟨rfl, rfl, rfl⟩, id⟩
    · cases hroom : roomAfter (alignUp newSize.toNat) b post with
      | true =>
        cases post with
        | nil => cases hroom
        | cons c post =>
          simp only [roomAfter, Bool.and_eq_true, decide_eq_true_eq] at hroom
          obtain ⟨h', hcall, hset⟩ := realloc_grow hr hb hroom.1 hy hs rfl (by omega) hroom.2
          refine ⟨_, h', _, hcall, .inr (hset.reallocated hi hr hle (by omega)), ?_⟩
          intro hpairs
          have hnext : ∀ d ∈ post.head?, d.free = false := by
            rw [List.append_cons] at hpairs
            exact hpairs.next hroom.1
          exact noFreePair_carve hpairs.absorb fun _ => hnext
      | false =>
        rcases realloc_move hr hb hy hs rfl (by omega) (by omega) hroom with hcall | ⟨z, h', bs', hcall, hmov⟩
        · exact ⟨0, _, _, hcall, .inl ⟨rfl, rfl, rfl⟩, id⟩
        · exact ⟨_, h', bs', hcall, .inr (hmov.reallocated hi hr hused hle (by omega)), fun _ => hmov.coalesced⟩

end Ledger

end Tinos
