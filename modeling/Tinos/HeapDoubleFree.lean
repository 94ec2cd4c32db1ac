/-
The guard of `free` against a pointer that was freed before.

`free` looks at the flag of the header the pointer had. Where blocks were
joined since, that header is list no more, and its bytes are in the payload
of another block or in the link of another header. `double_free_harmless`
says what of the pool a second `free` leaves alone then;
`double_free_writes_live_byte` is a run after which it does not.
-/
import Tinos.HeapFailures

namespace Tinos

open Bytes Runs Tiling

/-- A call, or a write anywhere in the block of a live pointer. -/
inductive PayloadStep (pool : MemoryPool) : World → HeapCall × UInt64 → World → Prop
  | call {w w' : World} {e : HeapCall × UInt64} : HeapStep pool w e w' → PayloadStep pool w e w'
  | write {w : World} {p : UInt64} {n i : Nat} {v : UInt8} : w.live p = some n → i < payload w.heap p →
      PayloadStep pool w (.write p i v, 0) ⟨{ w.heap with mem := store w.heap.mem (p.toNat + i) 1 v.toNat }, w.live⟩

/-- `p` was returned and freed, and not returned since. -/
structure Freed (pool : MemoryPool) (mem : Mem) (p : UInt64) (w : World) : Prop where
  history : ∃ es w₁ n es', Steps (PayloadStep pool) (World.atBoot mem) es w₁ ∧ w₁.live p = some n ∧
    Steps (PayloadStep pool) w₁ es' w
  gone : w.live p = none

/-- Every header of the list, and every byte of a live block, is as it was. -/
structure Unharmed (pool : MemoryPool) (w : World) (bs : List Block) (h' : Heap) : Prop where
  headers : ∀ y b, (y, b) ∈ placed 24 pool.bytes.toNat bs → ∀ x, y ≤ x → x < y + 24 → h'.mem x = w.heap.mem x
  live : ∀ q n, w.live q = some n → ∀ i < payload w.heap q, h'.mem (q.toNat + i) = w.heap.mem (q.toNat + i)

/-- The flag in the old header of `p` is set, or it is in the payload of a free
block and no two free blocks are neighbours. -/
def Guarded (pool : MemoryPool) (w : World) (bs : List Block) (p : UInt64) : Prop :=
  blockFree w.heap.mem (p - sizeofBlock) ≠ 0 ∨
    (∃ y b, (y, b) ∈ placed 24 pool.bytes.toNat bs ∧ b.free = true ∧ y + 24 ≤ p.toNat - 16 ∧
      p.toNat - 16 < y + 24 + b.size) ∧ NoFreePair bs

section Histories

variable {pool : MemoryPool} {w w' : World} {h h' : Heap} {bs : List Block} {r p : UInt64} {n : Nat} {c : HeapCall}

/-! ## Histories -/

theorem free_init (hf : free h p = some h') : h'.allocatorInitialized = h.allocatorInitialized := by
  unfold free at hf
  split at hf
  · rw [Option.some.inj hf]
  · dsimp only at hf
    split at hf
    · rw [Option.some.inj hf]
    · simp only [coalesceAll, Option.bind_eq_bind, Option.bind_eq_some_iff] at hf
      obtain ⟨m, -, hm⟩ := hf
      rw [← Option.some.inj hm]

theorem Untouched.init (h : Untouched pool w.heap h') (hinit : w.heap.allocatorInitialized = true) :
    h'.allocatorInitialized = true := by
  rcases h with rfl | ⟨hno, -⟩
  · exact hinit
  · rw [hinit] at hno
    cases hno

/-- No call takes the list away. -/
theorem HeapCall.init (hi : HeapInv pool w bs) (hc : c.Allowed w.live) (hrun : c.run pool w.heap = some (r, h'))
    (hinit : w.heap.allocatorInitialized = true) : h'.allocatorInitialized = true := by
  have hask : ∀ {n : Nat}, c.request = some n → h'.allocatorInitialized = true := by
    intro n hn
    by_cases hr : r = 0
    · subst hr
      exact (HeapCall.null hi hc hn hrun).1.init hinit
    · obtain ⟨q, h₁, bs', hrun', hserved⟩ := HeapCall.serves hi hc
      rw [hrun', Option.some.injEq, Prod.mk.injEq] at hrun
      obtain ⟨rfl, rfl⟩ := hrun
      exact hserved.inv.init (HeapCall.record_request hn hr)
  cases c with
  | malloc size => exact hask rfl
  | calloc num size => exact hask rfl
  | realloc ptr newSize =>
    by_cases hs : newSize = 0
    · rw [HeapCall.run, hs, realloc_zero] at hrun
      obtain ⟨h₁, hf, he⟩ := Option.map_eq_some_iff.mp hrun
      rw [← (Prod.mk.inj he).2, free_init hf, hinit]
    · exact hask (if_neg hs)
  | free ptr =>
    obtain ⟨h₁, hf, he⟩ := Option.map_eq_some_iff.mp hrun
    rw [← (Prod.mk.inj he).2, free_init hf, hinit]
  | write ptr i v => rwa [← (Prod.mk.inj (Option.some.inj hrun)).2]
  | read ptr i => rwa [← (Prod.mk.inj (Option.some.inj hrun)).2]

theorem PayloadStep.inv {e : HeapCall × UInt64} (h : PayloadStep pool w e w') (hi : HeapInv pool w bs) :
    (∃ bs', HeapInv pool w' bs') ∧ (w.heap.allocatorInitialized = true → w'.heap.allocatorInitialized = true) := by
  cases h with
  | call hcall =>
    obtain ⟨bs', hserved⟩ := hcall.served hi
    refine ⟨⟨bs', hserved.inv⟩, ?_⟩
    intro hinit
    cases hcall with
    | call hc hrun => exact HeapCall.init hi hc hrun hinit
  | @write q n i v hq hlt =>
    obtain ⟨y, hy, -, hqy, -⟩ := hi.block_of_live hq
    have hr : Ready pool { w.heap with mem := store w.heap.mem (q.toNat + i) 1 v.toNat } bs :=
      (hi.ready_of_live hq).payload hy fun x hx => store_of_outside (by omega)
    exact ⟨⟨bs, .of_ready hr hi.owned⟩, id⟩

/-- A pointer freed is one past a header of the pool. -/
theorem Freed.ready {mem : Mem} (h : Freed pool mem p w) : ∃ bs, HeapInv pool w bs ∧ Ready pool w.heap bs ∧
    pool.bytes.toNat + 24 ≤ p.toNat ∧ p.toNat < pool.bytes.toNat + 1048576 ∧ p.toNat % 8 = 0 := by
  obtain ⟨es, w₁, n, es', hrun₁, hp, hrun⟩ := h.history
  have hinv₁ : ∃ bs, HeapInv pool w₁ bs :=
    hrun₁.invariant (fun w => ∃ bs, HeapInv pool w bs) ⟨_, atBoot_inv pool mem⟩ fun v e v' hv he => by
      obtain ⟨bs, hi⟩ := hv
      exact (he.inv hi).1
  obtain ⟨bs₁, hi₁⟩ := hinv₁
  have hinv : (∃ bs, HeapInv pool w bs) ∧ w.heap.allocatorInitialized = true :=
    hrun.invariant (fun w => (∃ bs, HeapInv pool w bs) ∧ w.heap.allocatorInitialized = true)
      ⟨⟨bs₁, hi₁⟩, hi₁.init hp⟩ fun v e v' hv he => by
        obtain ⟨⟨bs, hi⟩, hinit⟩ := hv
        exact ⟨(he.inv hi).1, (he.inv hi).2 hinit⟩
  obtain ⟨⟨bs, hi⟩, hinit⟩ := hinv
  have hr := hi.ready
  rw [allocatorInit_of_init hinit] at hr
  obtain ⟨y, hy, -, hpy, -⟩ := hi₁.block_of_live hp
  have hbounds := (hi₁.ready_of_live hp).used_bounds hy
  have hpos : 0 < payload w₁.heap p := (hi₁.ready.sizes _ (placed_mem (mem_used.mp hy))).1
  exact ⟨bs, hi, hr, by omega, by omega, hi₁.allocations.aligned p n hp⟩

end Histories

/-! ## The second free -/

section Again

variable {pool : MemoryPool} {w : World} {h h' : Heap} {bs : List Block} {p : UInt64} {a y : Nat} {b : Block}

/-- The flag is 16 bytes before the pointer. -/
theorem oldFlag_toNat (hp : 24 ≤ p.toNat) : (p - sizeofBlock).toNat + 8 = p.toNat - 16 := by
  have h24 : sizeofBlock.toNat = 24 := rfl
  rw [UInt64.toNat_sub_of_le _ _ (by rw [UInt64.le_iff_toNat_le]; omega), h24]
  omega

theorem free_guarded (hflag : blockFree h.mem (p - sizeofBlock) ≠ 0) : free h p = some h := by
  unfold free
  split
  · rfl
  · exact if_pos (bne_iff_ne.mpr hflag)

/-- What the guard lets through. -/
theorem free_unguarded (hp : 24 ≤ p.toNat) (hinit : h.allocatorInitialized = true)
    (hflag : blockFree h.mem (p - sizeofBlock) = 0) :
    free h p = coalesceAll { h with mem := store32 h.mem (p.toNat - 16) 1 } := by
  have hp0 : (p == 0) = false := beq_eq_false_iff_ne.mpr fun h0 => by
    rw [h0] at hp
    exact absurd hp (by decide)
  unfold free
  simp only [hp0, hinit, hflag, bne_self_eq_false, Bool.not_true, Bool.or_self, Bool.false_eq_true, if_false,
    setBlockFree, oldFlag_toNat hp]

/-- A word of a block's payload is in no header. -/
theorem Ready.word_apart (hr : Ready pool h bs) (hy : (y, b) ∈ placed 24 pool.bytes.toNat bs) (ha : a % 8 = 0)
    (h1 : y + 24 ≤ a) (h2 : a < y + 24 + b.size) : a + 8 ≤ y + 24 + b.size ∧
      ∀ z c, (z, c) ∈ placed 24 pool.bytes.toNat bs → ∀ x, z ≤ x → x < z + 24 → x < a ∨ a + 8 ≤ x := by
  have hmod := placed_mod (U := 8) hr.sizes (by decide) pool.aligned hy
  have hsize := (hr.sizes b (placed_mem hy)).2
  refine ⟨by omega, fun z c hz x h3 h4 => ?_⟩
  rcases placed_apart hy hz with ⟨rfl, -⟩ | h5 | h5
  · omega
  · omega
  · omega

/-- Writing such a word keeps the list. -/
theorem Ready.write_word (hr : Ready pool h bs) (hy : (y, b) ∈ placed 24 pool.bytes.toNat bs) (ha : a % 8 = 0)
    (h1 : y + 24 ≤ a) (h2 : a < y + 24 + b.size) : Ready pool { h with mem := store32 h.mem a 1 } bs := by
  obtain ⟨hend, -⟩ := hr.word_apart hy ha h1 h2
  exact hr.inside hy fun x hx => store_of_outside (by omega)

/-- Without two free neighbours, a flag set in a free block is all. -/
theorem Guarded.unharmed (hg : Guarded pool w bs p) (hi : HeapInv pool w bs) (hr : Ready pool w.heap bs)
    (hp : 24 ≤ p.toNat) (hmod : p.toNat % 8 = 0) : ∃ h', free w.heap p = some h' ∧ Unharmed pool w bs h' := by
  by_cases hflag : blockFree w.heap.mem (p - sizeofBlock) = 0
  · rcases hg with hne | ⟨⟨y, b, hy, hb, h1, h2⟩, hpairs⟩
    · exact absurd hflag hne
    have ha : (p.toNat - 16) % 8 = 0 := by omega
    obtain ⟨hend, hapart⟩ := hr.word_apart hy ha h1 h2
    refine ⟨{ w.heap with mem := store32 w.heap.mem (p.toNat - 16) 1 }, ?_, ?_, ?_⟩
    · rw [free_unguarded hp hr.init hflag]
      exact coalesceAll_same (hr.write_word hy ha h1 h2) hpairs
    · intro z c hz x h3 h4
      have := hapart z c hz x h3 h4
      exact store_of_outside (by omega)
    · -- The block of a live pointer is used, so it is another.
      intro q n hq i hlt
      obtain ⟨z, hz, -, hqz, -⟩ := hi.block_of_live hq
      apply store_of_outside
      rcases used_placed_apart hz hy with ⟨-, rfl⟩ | h3 | h3
      · cases hb
      · omega
      · omega
  · exact ⟨w.heap, free_guarded hflag, fun _ _ _ _ _ _ => rfl, fun _ _ _ _ _ => rfl⟩

/-- The size of a block is not 0, nor so large that its low half is. -/
theorem Ready.size_word (hr : Ready pool h bs) (hy : (y, b) ∈ placed 24 pool.bytes.toNat bs) : load32 h.mem y ≠ 0 := by
  intro hzero
  obtain ⟨pre, post, rfl, hpre⟩ := exists_split hy
  have hhead := (hpre ▸ hr.suffix).1
  have hsize := (hr.sizes b (by simp)).1
  obtain ⟨-, -, hend⟩ := hr.pointer hpre
  have hle := hr.size_le
  have hlow := load64_low h.mem y
  rw [hzero, hhead.size, toNat_ofNat (by omega)] at hlow
  have : b.size % 2 ^ 32 = 0 := hlow
  omega

/-- The flag of a block whose pointer is not live is set. -/
theorem HeapInv.flag_set (hi : HeapInv pool w bs) (hr : Ready pool w.heap bs) (hgone : w.live p = none)
    (hy : (y, b) ∈ placed 24 pool.bytes.toNat bs) (hyp : y + 24 = p.toNat) : load32 w.heap.mem (y + 8) ≠ 0 := by
  intro hzero
  obtain ⟨pre, post, rfl, hpre⟩ := exists_split hy
  have hhead := (hpre ▸ hr.suffix).1
  rw [hhead.free] at hzero
  cases hb : b.free with
  | true =>
    rw [hb] at hzero
    cases hzero
  | false =>
    obtain ⟨n, hn⟩ := hi.owned.owner y b.size (hpre ▸ used_of_split hb)
    rw [hyp, UInt64.ofNat_toNat, hgone] at hn
    cases hn

/-- A flag that is not set is in a payload, or in the link of the header 32
bytes before the pointer. -/
theorem HeapInv.oldFlag_inside (hi : HeapInv pool w bs) (hr : Ready pool w.heap bs) (hgone : w.live p = none)
    (hp : pool.bytes.toNat + 24 ≤ p.toNat ∧ p.toNat < pool.bytes.toNat + 1048576) (hmod : p.toNat % 8 = 0)
    (hflag : blockFree w.heap.mem (p - sizeofBlock) = 0)
    (hlink : ∀ b, (p.toNat - 32, b) ∉ placed 24 pool.bytes.toNat bs) :
    ∃ y b, (y, b) ∈ placed 24 pool.bytes.toNat bs ∧ y + 24 ≤ p.toNat - 16 ∧ p.toNat - 16 < y + 24 + b.size := by
  have hcovers := hr.covers
  have hfits := hr.fits
  obtain ⟨y, b, hy, h1, h2⟩ := exists_placed (show pool.bytes.toNat ≤ p.toNat - 16 by omega)
    (show p.toNat - 16 < pool.bytes.toNat + span 24 bs by omega)
  refine ⟨y, b, hy, ?_, h2⟩
  have hymod := placed_mod (U := 8) hr.sizes (by decide) pool.aligned hy
  have hword : load32 w.heap.mem (p.toNat - 16) = 0 := by
    rw [← oldFlag_toNat (by omega)]
    exact hflag
  -- The three words of the header: size, flag, link.
  by_contra hlt
  have hcase : y = p.toNat - 16 ∨ y + 8 = p.toNat - 16 ∨ y = p.toNat - 32 := by omega
  rcases hcase with rfl | h8 | rfl
  · exact hr.size_word hy hword
  · exact hi.flag_set hr hgone hy (by omega) (h8 ▸ hword)
  · exact hlink b hy

/-- What is unharmed was guarded. -/
theorem Unharmed.guarded (hu : Unharmed pool w bs h') (hf : free w.heap p = some h') (hi : HeapInv pool w bs)
    (hr : Ready pool w.heap bs) (hgone : w.live p = none)
    (hp : pool.bytes.toNat + 24 ≤ p.toNat ∧ p.toNat < pool.bytes.toNat + 1048576) (hmod : p.toNat % 8 = 0)
    (hlink : ∀ b, (p.toNat - 32, b) ∉ placed 24 pool.bytes.toNat bs) : Guarded pool w bs p := by
  by_cases hflag : blockFree w.heap.mem (p - sizeofBlock) = 0
  · right
    obtain ⟨y, b, hy, h1, h2⟩ := hi.oldFlag_inside hr hgone hp hmod hflag hlink
    have ha : (p.toNat - 16) % 8 = 0 := by omega
    obtain ⟨hend, hapart⟩ := hr.word_apart hy ha h1 h2
    obtain ⟨h₁, hh₁, hr₁, hout⟩ := coalesceAll_spec (hr.write_word hy ha h1 h2)
    rw [free_unguarded (by omega) hr.init hflag, hh₁, Option.some.injEq] at hf
    subst hf
    -- The byte of the flag is 1 now, and the sweep does not change it.
    have hwas : w.heap.mem (p.toNat - 16) = 0 := by
      have hlow := load32_low w.heap.mem (p.toNat - 16)
      rw [blockFree, oldFlag_toNat (by omega)] at hflag
      rw [hflag] at hlow
      exact UInt8.toNat.inj hlow.symm
    have hnow : h₁.mem (p.toNat - 16) = 1 := by
      have hlow := load32_low (store32 w.heap.mem (p.toNat - 16) 1) (p.toNat - 16)
      rw [load32_store32] at hlow
      refine (hout _ fun z c hz _ hin => ?_).trans (UInt8.toNat.inj hlow.symm)
      have := hapart z c hz _ hin.1 hin.2
      omega
    refine ⟨⟨y, b, hy, ?_, h1, h2⟩, ?_⟩
    · cases hb : b.free with
      | true => rfl
      | false =>
        have hused : (y, b.size) ∈ used 24 pool.bytes.toNat bs := mem_used.mpr (by rw [← hb]; exact hy)
        obtain ⟨n, hn⟩ := hi.owned.owner y b.size hused
        have hsame := hu.live _ n hn (p.toNat - 16 - (y + 24)) (by rw [hr.payload_eq hused]; omega)
        rw [hr.pointer_toNat hused, Nat.add_sub_cancel' h1, hwas, hnow] at hsame
        cases hsame
    · have hkept : Ready pool h₁ bs := ⟨hr₁.init, hr₁.freeList, hr.chain.congr hu.headers, hr.covers, hr.sizes⟩
      rw [hkept.unique hr₁]
      exact noFreePair_coalesce
  · exact .inl hflag

end Again

/-- **When the guard against a second `free` is enough.** After any history in
which `p` was returned, freed and not returned since, a `free` of `p` leaves
every header of the list and every live byte as it was if the flag in the old
header of `p` is set, or is in a free block's payload and no two free blocks
are neighbours; and only then, unless it is where the link of a header is now. -/
theorem double_free_harmless {pool : MemoryPool} {mem : Mem} {p : UInt64} {w : World} (h : Freed pool mem p w) :
    ∃ bs, Ready pool w.heap bs ∧
      (Guarded pool w bs p → ∃ h', free w.heap p = some h' ∧ Unharmed pool w bs h') ∧
      ((∀ b, (p.toNat - 32, b) ∉ placed 24 pool.bytes.toNat bs) →
        (∃ h', free w.heap p = some h' ∧ Unharmed pool w bs h') → Guarded pool w bs p) := by
  obtain ⟨bs, hi, hr, hp, hend, hmod⟩ := h.ready
  refine ⟨bs, hr, fun hg => hg.unharmed hi hr (by omega) hmod, ?_⟩
  intro hlink hu
  obtain ⟨h', hf, hu⟩ := hu
  exact hu.guarded hf hi hr h.gone ⟨hp, hend⟩ hmod hlink

theorem double_free_harmless_one_block : ∃ w, Freed poolAt4096 (fun _ => 0) 4120 w ∧
    ∃ bs, Ready poolAt4096 w.heap bs ∧
      (Guarded poolAt4096 w bs 4120 → ∃ h', free w.heap 4120 = some h' ∧ Unharmed poolAt4096 w bs h') ∧
      ((∀ b, ((4120 : UInt64).toNat - 32, b) ∉ placed 24 poolAt4096.bytes.toNat bs) →
        (∃ h', free w.heap 4120 = some h' ∧ Unharmed poolAt4096 w bs h') → Guarded poolAt4096 w bs 4120) := by
  have hrun : ((World.atBoot fun _ => 0).next poolAt4096 (.malloc 100, 4120)).any (fun w₁ =>
      (w₁.next poolAt4096 (.free 4120, 0)).isSome) = true := by decide +kernel
  simp only [Option.any_eq_true, Option.isSome_iff_exists] at hrun
  obtain ⟨w₁, hw₁, w, hw⟩ := hrun
  obtain ⟨hstep₁, hlive₁⟩ := World.next_spec hw₁
  obtain ⟨hstep, hlive⟩ := World.next_spec hw
  have hfreed : Freed poolAt4096 (fun _ => 0) 4120 w :=
    ⟨⟨_, w₁, 100, _, .snoc .nil (.call hstep₁), by rw [hlive₁]; rfl, .snoc .nil (.call hstep)⟩, by rw [hlive]; rfl⟩
  exact ⟨w, hfreed, double_free_harmless hfreed⟩

/-- Two arrays freed, and the bytes of both in a new one: where the second had
its flag there is a 0 now, and a second `free` makes it 1. -/
theorem double_free_writes_live_byte : ∃ w, Freed poolAt4096 (fun _ => 0) 4248 w ∧ w.live 4120 = some 200 ∧
    ∃ h', free w.heap 4248 = some h' ∧ w.heap.mem (4120 + 112) = 0 ∧ h'.mem (4120 + 112) = 1 := by
  have hrun : ([(.malloc 100, 4120), (.malloc 100, 4248)].foldlM (World.next poolAt4096) (World.atBoot fun _ => 0)).any
      (fun w₁ => ([(.free 4248, 0), (.free 4120, 0), (.calloc 1 200, 4120)].foldlM (World.next poolAt4096) w₁).any fun w =>
        (free w.heap 4248).any fun h' => w.heap.mem (4120 + 112) == 0 && h'.mem (4120 + 112) == 1) = true := by
    decide +kernel
  simp only [Option.any_eq_true, Bool.and_eq_true, beq_iff_eq] at hrun
  obtain ⟨w₁, hw₁, w, hw, h', hf, hwas, hnow⟩ := hrun
  have hsteps₁ := (World.steps_of_next hw₁).mono fun _ _ _ => PayloadStep.call
  have hsteps := (World.steps_of_next hw).mono fun _ _ _ => PayloadStep.call
  have hlive₁ := World.live_of_next hw₁
  have hlive := World.live_of_next hw
  rw [hlive₁] at hlive
  exact ⟨w, ⟨⟨_, w₁, 100, _, hsteps₁, by rw [hlive₁]; rfl, hsteps⟩, by rw [hlive]; rfl⟩, by rw [hlive]; rfl,
    h', hf, hwas, hnow⟩

end Tinos
