/-
Where the memory manager does exactly what it is asked for, and where the
64-bit sums of its regions' ends and the first frame of its scan get in the
way.

`add_region_exact`, `reserve_region_exact`: from any state and for any region
a call changes the frames it was given and no other if and only if no end of
the region wraps, or the frames concerned are already as asked for.

`free_pages_allocatable`: the count of free frames is the number of
allocations that succeed if and only if frame 0, which the count includes and
the scan leaves out, is not free.
-/
import Tinos.PmmRuns

namespace Tinos

open Runs

/-! ## Regions -/

/-- The frames inside the region are free and the others as they were, and
the counter has gone up by the frames that changed. -/
structure AddsInside (s s' : Pmm) (base length : UInt64) : Prop where
  frames : ∀ p < 16777216, s'.bitmap.bit p = false ↔ s.bitmap.bit p = false ∨ Inside p base length
  counter : s'.freePages = s.freePages + UInt64.ofNat (s'.free \ s.free).card

/-- The frames the region touches are used and the others as they were, and
the counter has gone down by the frames that changed. -/
structure ReservesTouched (s s' : Pmm) (base length : UInt64) : Prop where
  frames : ∀ p < 16777216, s'.bitmap.bit p = true ↔ s.bitmap.bit p = true ∨ Touches p base length
  counter : s'.freePages = s.freePages - UInt64.ofNat (s.free \ s'.free).card

/-- Neither end of the region wraps when it is rounded inwards, or what the
wrapped region leaves out or takes in is free already: with a wrapped end it
is empty, and with a wrapped base it starts at 0. -/
def AddExact (s : Pmm) (base length : UInt64) : Prop :=
  if base.toNat ≤ 2 ^ 64 - 4096 then
    base.toNat + length.toNat < 2 ^ 64 ∨ ∀ p < 16777216, base.toNat ≤ 4096 * p → s.bitmap.bit p = false
  else
    ∀ p < 16777216, 4096 * p + 4096 ≤ (base.toNat + length.toNat) % 2 ^ 64 → s.bitmap.bit p = false

/-- The end of the region does not wrap when it is rounded outwards, or the
frames it leaves out are used already: all from the base on, but for the
base's own where the wrapped end is still in the frame after. A region of no
bytes must not cut into a free frame. -/
def ReserveExact (s : Pmm) (base length : UInt64) : Prop :=
  if base.toNat + length.toNat ≤ 2 ^ 64 - 4096 then
    0 < length.toNat ∨ base.toNat % 4096 = 0 ∨ frameOf base ∉ s.free
  else
    ∀ p ∈ s.free, base.toNat < 4096 * p + 4096 →
      p = frameOf base ∧ 2 ^ 64 < base.toNat % 4096 + length.toNat

section Regions

variable {s s' : Pmm} {F : Finset ℕ} {base length : UInt64} {p : ℕ}

theorem Pmm.bit_eq_false (hp : p < 16777216) : s.bitmap.bit p = false ↔ p ∈ s.free := by
  rw [Pmm.mem_free]
  exact ⟨fun h => ⟨hp, h⟩, fun h => h.2⟩

theorem Pmm.bit_eq_true (hp : p < 16777216) : s.bitmap.bit p = true ↔ p ∉ s.free := by
  rw [← Pmm.bit_eq_false hp, Bool.not_eq_false]

/-- The counter goes up by the frames that became free. -/
theorem Becomes.counts_up (h : Becomes s s' F) (hsub : s.free ⊆ s'.free) :
    s'.freePages = s.freePages + UInt64.ofNat (s'.free \ s.free).card := by
  have hcard : s'.free.card = (s'.free \ s.free).card + s.free.card := (Finset.card_sdiff_add_card_eq_card hsub).symm
  have hdrift := h.drift
  simp only [Pmm.drift, hcard, UInt64.ofNat_add] at hdrift
  grind

/-- The counter goes down by the frames that became used. -/
theorem Becomes.counts_down (h : Becomes s s' F) (hsub : s'.free ⊆ s.free) :
    s'.freePages = s.freePages - UInt64.ofNat (s.free \ s'.free).card := by
  have hcard : s.free.card = (s.free \ s'.free).card + s'.free.card := (Finset.card_sdiff_add_card_eq_card hsub).symm
  have hdrift := h.drift
  simp only [Pmm.drift, hcard, UInt64.ofNat_add] at hdrift
  grind

theorem toNat_add_4095 (a : UInt64) : (a + pmmPageSize - 1).toNat = (a.toNat + 4095) % 2 ^ 64 := by
  have h : a + pmmPageSize - 1 = a + 4095 := by simp only [pmmPageSize]; grind
  rw [h, UInt64.toNat_add]
  rfl

/-- What `pmm_add_region` adds, whatever its arguments. -/
theorem mem_pages_add_wrapped : p ∈ pages (addStart base) (addStop base length) ↔
    p < 16777216 ∧ (base.toNat ≤ 2 ^ 64 - 4096 → base.toNat ≤ 4096 * p) ∧
      4096 * p + 4096 ≤ (base.toNat + length.toNat) % 2 ^ 64 := by
  have hb := base.toNat_lt
  rw [mem_pages, addStart, addStop, roundDown_toNat, roundDown_toNat, toNat_add_4095, UInt64.toNat_add]
  omega

/-- What `pmm_reserve_region` takes away, whatever its arguments. -/
theorem mem_pages_reserve_wrapped : p ∈ pages (reserveStart base) (reserveStop base length) ↔
    p < 16777216 ∧ base.toNat < 4096 * p + 4096 ∧ 4096 * p < (base.toNat + length.toNat + 4095) % 2 ^ 64 / 4096 * 4096 := by
  rw [mem_pages, reserveStart, reserveStop, roundDown_toNat, roundDown_toNat, toNat_add_4095, UInt64.toNat_add]
  omega

/-- Only the frames used before tell the region added from the region asked for. -/
theorem addsInside_iff (h : Becomes s s' (s.free ∪ pages (addStart base) (addStop base length))) :
    AddsInside s s' base length ↔ ∀ p < 16777216, s.bitmap.bit p = true →
      (p ∈ pages (addStart base) (addStop base length) ↔ Inside p base length) := by
  have hframe : ∀ p < 16777216, s'.bitmap.bit p = false ↔
      s.bitmap.bit p = false ∨ p ∈ pages (addStart base) (addStop base length) := by
    intro p hp
    rw [Pmm.bit_eq_false hp, h.free, Finset.mem_union, Pmm.bit_eq_false hp]
  constructor
  · intro hadds p hp hused
    have hp' := (hframe p hp).symm.trans (hadds.frames p hp)
    simpa only [hused, Bool.true_eq_false, false_or] using hp'
  · intro hsame
    refine ⟨?_, h.counts_up (by rw [h.free]; exact Finset.subset_union_left)⟩
    intro p hp
    rw [hframe p hp]
    cases hbit : s.bitmap.bit p with
    | false => simp only [true_or]
    | true => simp only [Bool.true_eq_false, false_or, hsame p hp hbit]

/-- Only the frames free before tell the region reserved from the region asked for. -/
theorem reservesTouched_iff (h : Becomes s s' (s.free \ pages (reserveStart base) (reserveStop base length))) :
    ReservesTouched s s' base length ↔ ∀ p ∈ s.free,
      (p ∈ pages (reserveStart base) (reserveStop base length) ↔ Touches p base length) := by
  have hframe : ∀ p < 16777216, s'.bitmap.bit p = true ↔
      s.bitmap.bit p = true ∨ p ∈ pages (reserveStart base) (reserveStop base length) := by
    intro p hp
    rw [Pmm.bit_eq_true hp, h.free, Finset.mem_sdiff, Pmm.bit_eq_true hp, not_and_or, not_not]
  constructor
  · intro hres p hfree
    obtain ⟨hp, hbit⟩ := Pmm.mem_free.mp hfree
    have hp' := (hframe p hp).symm.trans (hres.frames p hp)
    simpa only [hbit, Bool.false_eq_true, false_or] using hp'
  · intro hsame
    refine ⟨?_, h.counts_down (by rw [h.free]; exact Finset.sdiff_subset)⟩
    intro p hp
    rw [hframe p hp]
    cases hbit : s.bitmap.bit p with
    | true => simp only [true_or]
    | false => simp only [Bool.false_eq_true, false_or, hsame p (Pmm.mem_free.mpr ⟨hp, hbit⟩)]

/-- **An added region is exact** where its ends do not wrap, or the frames
that then differ are free before the call, and nowhere else. -/
theorem add_region_exact (s : Pmm) (base length : UInt64) :
    ∃ s', pmmAddRegion s base length = some s' ∧ (AddsInside s s' base length ↔ AddExact s base length) := by
  obtain ⟨s', hs', hb⟩ := pmmAddRegion_spec s base length
  refine ⟨s', hs', ?_⟩
  have hbase := base.toNat_lt
  have hlen := length.toNat_lt
  rw [addsInside_iff hb, AddExact]
  simp only [mem_pages_add_wrapped, Inside]
  split
  · by_cases hsum : base.toNat + length.toNat < 2 ^ 64
    · simp only [hsum, true_or, iff_true]
      intro p hp _
      omega
    · -- The end wraps below the base: nothing is added, and every frame from the base on was asked for.
      simp only [hsum, false_or]
      refine forall₂_congr ?_
      intro p hp
      cases hbit : s.bitmap.bit p with
      | true =>
        simp only [Bool.true_eq_false, imp_false, forall_const]
        omega
      | false => simp
  · -- The base wraps to 0: nothing was asked for, and what is below the end is added.
    refine forall₂_congr ?_
    intro p hp
    cases hbit : s.bitmap.bit p with
    | true =>
      simp only [Bool.true_eq_false, imp_false, forall_const]
      omega
    | false => simp

/-- The base in the last page: frames 0 and 1 become free. -/
theorem wrapped_base_frees_low_memory : ∃ s', pmmAddRegion pmmInit 0xFFFFFFFFFFFFFFFF 0x2001 = some s' ∧
    ¬ AddsInside pmmInit s' 0xFFFFFFFFFFFFFFFF 0x2001 := by
  obtain ⟨s', hs', hb⟩ := pmmAddRegion_spec pmmInit 0xFFFFFFFFFFFFFFFF 0x2001
  refine ⟨s', hs', ?_⟩
  intro hadds
  have hmem : 0 ∈ pages (addStart 0xFFFFFFFFFFFFFFFF) (addStop 0xFFFFFFFFFFFFFFFF 0x2001) :=
    mem_pages_add_wrapped.mpr (by decide)
  have hused : pmmInit.bitmap.bit 0 = true := by
    rw [Pmm.bit_eq_true (by decide), pmmInit_free]
    exact Finset.notMem_empty 0
  have hin := ((addsInside_iff hb).mp hadds 0 (by decide) hused).mp hmem
  exact absurd hin (by unfold Inside; decide)

/-- **A reserved region is exact** where its end does not wrap and it is not
an empty one inside a free frame, or where the frames that then differ are
used before the call, and nowhere else. -/
theorem reserve_region_exact (s : Pmm) (base length : UInt64) :
    ∃ s', pmmReserveRegion s base length = some s' ∧
      (ReservesTouched s s' base length ↔ ReserveExact s base length) := by
  obtain ⟨s', hs', hb⟩ := pmmReserveRegion_spec s base length
  refine ⟨s', hs', ?_⟩
  have hbase := base.toNat_lt
  have hlen := length.toNat_lt
  rw [reservesTouched_iff hb, ReserveExact]
  simp only [mem_pages_reserve_wrapped, touches_iff]
  split
  · by_cases hfit : 0 < length.toNat ∨ base.toNat % 4096 = 0
    · simp only [← or_assoc, hfit, true_or, iff_true]
      intro p hp
      have hlt := (Pmm.mem_free.mp hp).1
      omega
    · -- No bytes, but the base is inside a frame.
      simp only [← or_assoc, hfit, false_or]
      constructor
      · intro hsame hfree
        have hlt := (Pmm.mem_free.mp hfree).1
        have hbad := hsame _ hfree
        unfold frameOf at hlt hbad
        omega
      · intro hnot p hp
        have hne : p ≠ base.toNat / 4096 := fun he => hnot (by rwa [frameOf, ← he])
        omega
  · refine forall₂_congr ?_
    intro p hp
    have hlt := (Pmm.mem_free.mp hp).1
    unfold frameOf
    rw [imp_iff_not_or]
    omega

/-- The end wraps to 0: nothing is reserved. -/
theorem wrapped_end_reserves_nothing : ∃ s s', pmmAddRegion pmmInit 0x1000 0x1000 = some s ∧
    pmmReserveRegion s 0x1000 0xFFFFFFFFFFFFF000 = some s' ∧ ¬ ReservesTouched s s' 0x1000 0xFFFFFFFFFFFFF000 := by
  obtain ⟨s, hs, hb⟩ := pmmAddRegion_spec pmmInit 0x1000 0x1000
  obtain ⟨s', hs', hb'⟩ := pmmReserveRegion_spec s 0x1000 0xFFFFFFFFFFFFF000
  refine ⟨s, s', hs, hs', ?_⟩
  intro hres
  have hfree : 1 ∈ s.free := by
    rw [hb.free, Finset.mem_union, mem_pages_add_wrapped]
    exact .inr (by decide)
  have htouched : Touches 1 0x1000 0xFFFFFFFFFFFFF000 := touches_iff.mpr (by decide)
  have hmem := ((reservesTouched_iff hb').mp hres 1 hfree).mpr htouched
  rw [mem_pages_reserve_wrapped] at hmem
  exact absurd hmem (by decide)

end Regions

/-! ## The two allocators -/

/-- Frame `p` is the lowest free one, frame 0 left out. -/
structure LowestFree (s : Pmm) (p : ℕ) : Prop where
  free : p ∈ s.free
  pos : 1 ≤ p
  least : ∀ q ∈ s.free, 1 ≤ q → p ≤ q

section Allocators

variable {s t u : Pmm} {a b : UInt64} {limit limit' p q : ℕ}

theorem LowestFree.unique (h : LowestFree s p) (h' : LowestFree s q) : p = q :=
  Nat.le_antisymm (h.least q h'.free h'.pos) (h'.least p h.free h.pos)

/-- An allocation answers 0 and changes nothing, or takes the lowest free
frame, which is below its limit. -/
theorem Allocs.cases_zero (h : Allocs s limit a t) :
    (a = 0 ∧ t = s ∧ ∀ q ∈ s.free, 1 ≤ q → limit ≤ q) ∨
      ∃ p, LowestFree s p ∧ p < limit ∧ a ≠ 0 ∧ a.toNat = 4096 * p ∧ Becomes s t (s.free.erase p) := by
  cases h with
  | frame p hp h1 hlt hleast ha hb =>
    exact .inr ⟨p, ⟨hp, h1, hleast⟩, hlt, ne_zero_of_frame ha h1, ha, hb⟩
  | none hnone => exact .inl ⟨rfl, rfl, hnone⟩

theorem Allocs.ne_zero_iff (h : Allocs s limit a t) : a ≠ 0 ↔ ∃ p ∈ s.free, 1 ≤ p ∧ p < limit := by
  rcases h.cases_zero with ⟨rfl, -, hnone⟩ | ⟨p, hp, hlt, hne, -, -⟩
  · simp only [ne_eq, not_true, false_iff]
    intro hex
    obtain ⟨q, hq, h1, hlt⟩ := hex
    have := hnone q hq h1
    omega
  · simp only [hne, ne_eq, not_false_eq_true, true_iff]
    exact ⟨p, hp.free, hp.pos, hlt⟩

/-- Whatever their limits, two allocations from one state that succeed do the
same. -/
theorem Allocs.agree (h : Allocs s limit a t) (h' : Allocs s limit' b u) (ha : a ≠ 0) (hb : b ≠ 0) :
    b = a ∧ u = t := by
  rcases h.cases_zero with ⟨h0, -, -⟩ | ⟨p, hp, -, -, hap, ht⟩
  · exact absurd h0 ha
  rcases h'.cases_zero with ⟨h0, -, -⟩ | ⟨q, hq, -, -, hbq, hu⟩
  · exact absurd h0 hb
  obtain rfl := hp.unique hq
  exact ⟨UInt64.toNat.inj (hbq.trans hap.symm), hu.eq ht⟩

/-- An allocation marks its frame used and counts it off. -/
theorem Becomes.frame_used (h : Becomes s t (s.free.erase p)) (hp : p ∈ s.free) : t.freePages = s.freePages - 1 := by
  have hdown := h.counts_down (by rw [h.free]; exact Finset.erase_subset p s.free)
  rwa [h.free, Finset.sdiff_erase_self hp, Finset.card_singleton] at hdown

/-- Giving back the frame just handed out gives back the state. -/
theorem Allocs.undo (h : Allocs s limit a t) (ha : a ≠ 0) : pmmFreePage t a = some s := by
  rcases h.cases_zero with ⟨h0, -, -⟩ | ⟨p, hp, -, -, hap, ht⟩
  · exact absurd h0 ha
  have hlt := (Pmm.mem_free.mp hp.free).1
  obtain ⟨s', hs', hb⟩ := pmmFreePage_spec t a
  have hdiv : a.toNat / 4096 = p := by omega
  rw [hdiv, if_pos ⟨by omega, hlt⟩, ht.free, Finset.insert_erase hp.free] at hb
  rw [hs', (ht.trans hb).eq (.refl s)]

end Allocators

/-- **The allocators agree, and a free undoes an allocation.** From any state
`pmm_alloc_page` hands out the lowest free frame, frame 0 left out, which is
then used and no longer counted;
`pmm_alloc_page_low` does the same just where a free frame is below 8 MiB;
a call that answers 0 changes nothing; and giving back what was handed out
restores the bitmap and the counter. -/
theorem allocators_agree (s : Pmm) : ∃ a t b u, pmmAllocPage s = some (a, t) ∧ pmmAllocPageLow s = some (b, u) ∧
    ((a = 0 ∧ t = s ∧ ∀ p ∈ s.free, p = 0) ∨
      ∃ p, LowestFree s p ∧ a ≠ 0 ∧ a.toNat = 4096 * p ∧ t.free = s.free.erase p ∧ t.freePages = s.freePages - 1 ∧
        pmmFreePage t a = some s) ∧
    (b ≠ 0 ↔ ∃ p ∈ s.free, 1 ≤ p ∧ p ≤ 2047) ∧ (b = 0 → u = s) ∧
    (b ≠ 0 → b = a ∧ u = t ∧ pmmFreePage u b = some s) := by
  obtain ⟨a, t, ht, ha⟩ := pmmAllocPage_spec s
  obtain ⟨b, u, hu, hb⟩ := pmmAllocPageLow_spec s
  refine ⟨a, t, b, u, ht, hu, ?_, ?_, ?_, ?_⟩
  · rcases ha.cases_zero with ⟨h0, hts, hnone⟩ | ⟨p, hp, -, hne, hap, hbecomes⟩
    · refine .inl ⟨h0, hts, ?_⟩
      intro p hp
      have hlt := (Pmm.mem_free.mp hp).1
      by_contra hp0
      have := hnone p hp (by omega)
      omega
    · exact .inr ⟨p, hp, hne, hap, hbecomes.free, hbecomes.frame_used hp.free, ha.undo hne⟩
  · rw [hb.ne_zero_iff]
    refine exists_congr ?_
    intro p
    rw [Nat.lt_succ_iff]
  · intro h0
    rcases hb.cases_zero with ⟨-, hus, -⟩ | ⟨-, -, -, hne, -, -⟩
    · exact hus
    · exact absurd h0 hne
  · intro hne
    obtain ⟨p, hp, h1, hlt⟩ := hb.ne_zero_iff.mp hne
    have hane : a ≠ 0 := ha.ne_zero_iff.mpr ⟨p, hp, h1, by omega⟩
    obtain ⟨hba, hut⟩ := ha.agree hb hane hne
    exact ⟨hba, hut, hb.undo hne⟩

/-! ## Running out -/

/-- `n` calls of `pmm_alloc_page`, with their answers. -/
def allocPages : Nat → Pmm → Option (List UInt64 × Pmm)
  | 0, s => some ([], s)
  | n + 1, s => do
    let (address, s) ← pmmAllocPage s
    let (addresses, s) ← allocPages n s
    return (address :: addresses, s)

/-- As many allocations succeed as frames are counted, and no more. -/
structure FreePagesAllocatable (s : Pmm) : Prop where
  exact : ∃ as t u, allocPages (pmmGetFreePages s).toNat s = some (as, t) ∧ (∀ a ∈ as, a ≠ 0) ∧
    pmmAllocPage t = some (0, u)
  empty : ∀ u, pmmAllocPage s = some (0, u) → pmmGetFreePages s = 0

section Allocatable

variable {s s' : Pmm} {a : UInt64}

/-- An allocation takes one of the free frames but frame 0, or there is none. -/
theorem Allocs.card (h : Allocs s 16777216 a s') :
    (a ≠ 0 ∧ (s.free.erase 0).card = (s'.free.erase 0).card + 1) ∨ (a = 0 ∧ (s.free.erase 0).card = 0) := by
  cases h with
  | frame p hp h1 _ _ ha hb =>
    left
    have hmem : p ∈ s.free.erase 0 := Finset.mem_erase.mpr ⟨by omega, hp⟩
    refine ⟨?_, ?_⟩
    · rintro rfl
      rw [UInt64.toNat_zero] at ha
      omega
    · rw [hb.free, Finset.erase_right_comm, Finset.card_erase_add_one hmem]
  | none hnone =>
    right
    refine ⟨rfl, Finset.card_eq_zero.mpr (Finset.eq_empty_of_forall_notMem ?_)⟩
    intro q hq
    obtain ⟨hq0, hq⟩ := Finset.mem_erase.mp hq
    have hlt := (Pmm.mem_free.mp hq).1
    have hge := hnone q hq (by omega)
    omega

/-- All of `n` allocations succeed, or one of them fails, by the number of free
frames but frame 0. -/
theorem allocPages_spec (n : Nat) (s : Pmm) : ∃ as t, allocPages n s = some (as, t) ∧
    (((∀ a ∈ as, a ≠ 0) ∧ (s.free.erase 0).card = (t.free.erase 0).card + n) ∨
      (0 ∈ as ∧ (s.free.erase 0).card < n)) := by
  induction n generalizing s with
  | zero => exact ⟨[], s, rfl, .inl ⟨by simp, by simp⟩⟩
  | succ n ih =>
    obtain ⟨a, s', hs', halloc⟩ := pmmAllocPage_spec s
    obtain ⟨as, t, hrun, hcase⟩ := ih s'
    refine ⟨a :: as, t, by simp only [allocPages, hs', hrun, Option.bind_eq_bind, Option.bind_some]; rfl, ?_⟩
    rcases halloc.card with ⟨hne, hcard⟩ | ⟨rfl, hcard⟩
    · rcases hcase with ⟨hall, hleft⟩ | ⟨hzero, hlt⟩
      · refine .inl ⟨fun b hb => ?_, by omega⟩
        rcases List.mem_cons.mp hb with rfl | hb
        · exact hne
        · exact hall b hb
      · exact .inr ⟨List.mem_cons_of_mem a hzero, by omega⟩
    · exact .inr ⟨List.mem_cons_self, by omega⟩

/-- With a true counter, the count is what can be allocated if and only if
frame 0 is used. -/
theorem Counted.allocatable_iff (h : Counted s) : FreePagesAllocatable s ↔ pageUsed s 0 = some true := by
  have hused : pageUsed s 0 = some true ↔ 0 ∉ s.free := by
    rw [pageUsed_eq (by decide), Option.some.injEq]
    exact Pmm.bit_eq_true (by decide)
  obtain ⟨as, t, hrun, hcase⟩ := allocPages_spec (pmmGetFreePages s).toNat s
  have hcount : (pmmGetFreePages s).toNat = s.free.card := h.free
  rw [hused]
  constructor
  · intro hexact hmem
    have hcard := Finset.card_erase_add_one hmem
    obtain ⟨bs, u, -, hrun', hall, -⟩ := hexact.exact
    obtain ⟨rfl, rfl⟩ := Prod.mk.inj (Option.some.inj (hrun.symm.trans hrun'))
    rcases hcase with ⟨-, hleft⟩ | ⟨hzero, -⟩
    · omega
    · exact hall 0 hzero rfl
  · intro hnot
    rw [Finset.erase_eq_of_notMem hnot] at hcase
    rcases hcase with ⟨hall, hleft⟩ | ⟨-, hlt⟩
    · refine ⟨?_, ?_⟩
      · obtain ⟨a, u, hu, halloc⟩ := pmmAllocPage_spec t
        rcases halloc.card with ⟨-, hcard⟩ | ⟨rfl, -⟩
        · omega
        · exact ⟨as, t, u, hrun, hall, hu⟩
      · intro u hu
        obtain ⟨a, u', hu', halloc⟩ := pmmAllocPage_spec s
        obtain ⟨rfl, rfl⟩ := Prod.mk.inj (Option.some.inj (hu.symm.trans hu'))
        rcases halloc.card with ⟨hne, -⟩ | ⟨-, hcard⟩
        · exact absurd rfl hne
        · rw [Finset.erase_eq_of_notMem hnot] at hcard
          exact UInt64.toNat.inj (hcount.trans hcard)
    · omega

end Allocatable

/-- **The free count is what can be allocated** in just those states, of all
that any calls with any arguments lead to, in which frame 0 is used: the
count includes it, and no allocation returns it. -/
theorem free_pages_allocatable (calls : List PmmCall) : ∃ s, calls.foldlM pmmCall pmmInit = some s ∧
    (FreePagesAllocatable s ↔ pageUsed s 0 = some true) := by
  obtain ⟨s, hs, hc⟩ := foldlM_total Counted pmmInit_counted fun c (_ : c ∈ calls) s h => by
    obtain ⟨s', F, hs', hb⟩ := pmmCall_becomes s c
    exact ⟨s', hs', h.becomes hb⟩
  exact ⟨s, hs, hc.allocatable_iff⟩

/-- Memory that starts at address 0: one frame is counted, and none can be
allocated. -/
theorem frame_zero_counted : ∃ s u, [PmmCall.addRegion 0 0x1000].foldlM pmmCall pmmInit = some s ∧
    pmmGetFreePages s = 1 ∧ pmmAllocPage s = some (0, u) ∧ ¬ FreePagesAllocatable s := by
  obtain ⟨s, hs, hb⟩ := pmmAddRegion_spec pmmInit 0 0x1000
  have hfree : ∀ p, p ∈ s.free ↔ p = 0 := by
    intro p
    rw [hb.free, pmmInit_free, Finset.empty_union, mem_pages_add_wrapped]
    simp only [UInt64.reduceToNat]
    omega
  have hcount : s.free = {0} := Finset.ext fun p => by rw [hfree, Finset.mem_singleton]
  have hc := pmmInit_counted.becomes hb
  have hone : pmmGetFreePages s = 1 := UInt64.toNat.inj (hc.free.trans (by rw [hcount]; rfl))
  obtain ⟨a, u, hu, halloc⟩ := pmmAllocPage_spec s
  have ha : a = 0 := by
    cases halloc with
    | frame p hp h1 _ _ _ _ =>
      rw [hfree] at hp
      omega
    | none => rfl
  subst ha
  refine ⟨s, u, by simp only [List.foldlM_cons, pmmCall, hs]; rfl, hone, hu, ?_⟩
  intro hexact
  have h0 := hexact.empty u hu
  rw [hone] at h0
  exact absurd h0 (by decide)

end Tinos
