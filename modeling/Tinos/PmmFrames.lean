/-
What the memory manager's calls do to the set of free frames: `Pmm.free`, the
clear bits of the bitmap.

Each call of `Tinos.Pmm` is a change of that set (`pmmAddRegion_spec`,
`pmmReserveRegion_spec`, `allocFrom_spec`, `pmmFreePage_spec`) that moves the
counter by as much as the set grows or shrinks (`Becomes`: the difference of
the two, `Pmm.drift`, stays). None of them indexes `bitmap` out of range,
whatever its arguments. The rounding of a region's ends is in the frames a
call touches (`pages`); `mem_pages_add` and `mem_pages_reserve` say which
frames those are for a region whose end does not wrap.
-/
import Mathlib.Data.Finset.Card
import Tinos.Lib.Word
import Tinos.Lib.Runs
import Tinos.Pmm

namespace Tinos

open Bits

/-- The frames the bitmap tracks. -/
def frames : Finset ℕ := Finset.range maxPages.toNat

theorem mem_frames {p : ℕ} : p ∈ frames ↔ p < 16777216 := by simp [frames]

/-- The frame an address is in. -/
def frameOf (a : UInt64) : ℕ := a.toNat / 4096

theorem frameOf_eq {a : UInt64} {p : ℕ} (h : a.toNat = 4096 * p) : frameOf a = p := by
  unfold frameOf
  omega

theorem ne_zero_of_frame {a : UInt64} {p : ℕ} (h : a.toNat = 4096 * p) (hp : 1 ≤ p) : a ≠ 0 := by
  rintro rfl
  rw [UInt64.toNat_zero] at h
  omega

/-- The free frames. -/
def Pmm.free (s : Pmm) : Finset ℕ := frames.filter fun p => s.bitmap.bit p = false

/-- How far the counter is from the number of free frames. -/
def Pmm.drift (s : Pmm) : UInt64 := s.freePages - UInt64.ofNat s.free.card

theorem Pmm.mem_free {s : Pmm} {p : ℕ} : p ∈ s.free ↔ p < 16777216 ∧ s.bitmap.bit p = false := by
  simp [Pmm.free, mem_frames]

theorem Pmm.free_subset (s : Pmm) : s.free ⊆ frames := Finset.filter_subset _ _

theorem Pmm.card_free_le (s : Pmm) : s.free.card ≤ 16777216 := by
  have h := Finset.card_le_card s.free_subset
  simpa [frames] using h

/-- Every frame has its bit in `bitmap`. -/
theorem bitmapSize_eq : bitmapSize = 2097152 := rfl

theorem index_lt {p : ℕ} (h : p < 16777216) : p / 8 < bitmapSize := by
  rw [bitmapSize_eq]; omega

/-- `s'` is `s` with the free frames `F`, the counter moved along. -/
structure Becomes (s s' : Pmm) (F : Finset ℕ) : Prop where
  free : s'.free = F
  drift : s'.drift = s.drift
  total : s'.totalPages = s.totalPages

theorem Becomes.refl (s : Pmm) : Becomes s s s.free := ⟨rfl, rfl, rfl⟩

theorem Becomes.trans {s s' s'' : Pmm} {F G} (h : Becomes s s' F) (h' : Becomes s' s'' G) :
    Becomes s s'' G :=
  ⟨h'.free, h'.drift.trans h.drift, h'.total.trans h.total⟩

/-- The free frames, the counter and the total determine the state. -/
theorem Pmm.ext_free {s s' : Pmm} (hf : s.free = s'.free) (hp : s.freePages = s'.freePages)
    (ht : s.totalPages = s'.totalPages) : s = s' := by
  have hb : s.bitmap = s'.bitmap := by
    apply ext_bit
    intro k hk
    have hk' : k < 16777216 := by rw [bitmapSize_eq] at hk; omega
    have hiff : k ∈ s.free ↔ k ∈ s'.free := by rw [hf]
    simp only [Pmm.mem_free, hk', true_and] at hiff
    cases h : s.bitmap.bit k <;> cases h' : s'.bitmap.bit k <;> simp_all
  cases s; cases s'
  simp only at hb hp ht
  subst hb hp ht
  rfl

theorem Becomes.eq {s t s' : Pmm} {F} (h : Becomes s s' F) (h' : Becomes s t F) : s' = t := by
  have hfree : s'.free = t.free := h.free.trans h'.free.symm
  have hdrift : s'.drift = t.drift := h.drift.trans h'.drift.symm
  refine Pmm.ext_free hfree ?_ (h.total.trans h'.total.symm)
  unfold Pmm.drift at hdrift
  rw [hfree] at hdrift
  grind

/-! ## One frame -/

theorem pageUsed_eq {s : Pmm} {page : UInt64} (h : page.toNat < 16777216) :
    pageUsed s page = some (s.bitmap.bit page.toNat) := test_eq (index_lt h)

/-- Clearing a set bit and counting up. -/
theorem clearPage_becomes {s : Pmm} {page : UInt64} (h : page.toNat < 16777216)
    (hu : s.bitmap.bit page.toNat = true) : ∃ s', clearPage s page = some s' ∧
      Becomes s { s' with freePages := s'.freePages + 1 } (insert page.toNat s.free) := by
  refine ⟨{ s with bitmap := s.bitmap.put page.toNat false }, by simp [clearPage, clear_eq (index_lt h)], ?_⟩
  have hfree : Pmm.free { s with bitmap := s.bitmap.put page.toNat false, freePages := s.freePages + 1 } =
      insert page.toNat s.free := by
    ext p
    simp only [Pmm.mem_free, Finset.mem_insert, put_bit (index_lt h)]
    by_cases hp : p = page.toNat <;> simp [hp, h]
  refine ⟨hfree, ?_, rfl⟩
  have hnot : page.toNat ∉ s.free := by simp [Pmm.mem_free, hu]
  simp only [Pmm.drift, hfree, Finset.card_insert_of_notMem hnot, UInt64.ofNat_add]
  grind

/-- Setting a clear bit and counting down. -/
theorem setPage_becomes {s : Pmm} {page : UInt64} (hf : page.toNat ∈ s.free) : ∃ s', setPage s page = some s' ∧
      Becomes s { s' with freePages := s'.freePages - 1 } (s.free.erase page.toNat) := by
  have h : page.toNat < 16777216 := (Pmm.mem_free.mp hf).1
  refine ⟨{ s with bitmap := s.bitmap.put page.toNat true }, by simp [setPage, set_eq (index_lt h)], ?_⟩
  have hfree : Pmm.free { s with bitmap := s.bitmap.put page.toNat true, freePages := s.freePages - 1 } =
      s.free.erase page.toNat := by
    ext p
    simp only [Pmm.mem_free, Finset.mem_erase, put_bit (index_lt h)]
    by_cases hp : p = page.toNat <;> simp [hp]
  refine ⟨hfree, ?_, rfl⟩
  have hcard : s.free.card = (s.free.erase page.toNat).card + 1 := (Finset.card_erase_add_one hf).symm
  simp only [Pmm.drift, hfree, hcard, UInt64.ofNat_add]
  grind

theorem addPage_spec (s : Pmm) {page : UInt64} (h : page.toNat < 16777216) :
    ∃ s', addPage s page = some s' ∧ Becomes s s' (s.free ∪ {page.toNat}) := by
  rw [Finset.union_singleton]
  cases hu : s.bitmap.bit page.toNat with
  | true =>
    obtain ⟨s', hs', hb⟩ := clearPage_becomes h hu
    exact ⟨_, by simp [addPage, pageUsed_eq h, hu, hs'], hb⟩
  | false =>
    have hmem : page.toNat ∈ s.free := Pmm.mem_free.mpr ⟨h, hu⟩
    refine ⟨s, by simp [addPage, pageUsed_eq h, hu], ?_⟩
    rw [Finset.insert_eq_of_mem hmem]
    exact .refl s

theorem reservePage_spec (s : Pmm) {page : UInt64} (h : page.toNat < 16777216) :
    ∃ s', reservePage s page = some s' ∧ Becomes s s' (s.free \ {page.toNat}) := by
  rw [Finset.sdiff_singleton_eq_erase]
  cases hu : s.bitmap.bit page.toNat with
  | true =>
    have hnot : page.toNat ∉ s.free := by simp [Pmm.mem_free, hu]
    refine ⟨s, by simp [reservePage, pageUsed_eq h, hu], ?_⟩
    rw [Finset.erase_eq_of_notMem hnot]
    exact .refl s
  | false =>
    obtain ⟨s', hs', hb⟩ := setPage_becomes (Pmm.mem_free.mpr ⟨h, hu⟩)
    exact ⟨_, by simp [reservePage, pageUsed_eq h, hu, hs'], hb⟩

/-! ## Regions -/

/-- The tracked frames that start in `[a, b)`. -/
def pages (a b : ℕ) : Finset ℕ := frames.filter fun p => a ≤ 4096 * p ∧ 4096 * p < b

theorem mem_pages {a b p : ℕ} : p ∈ pages a b ↔ p < 16777216 ∧ a ≤ 4096 * p ∧ 4096 * p < b := by
  simp [pages, mem_frames]

theorem pages_eq_empty {a b : ℕ} (h : b ≤ a ∨ 16777216 ≤ a / 4096) : pages a b = ∅ := by
  ext p
  simp only [mem_pages, Finset.notMem_empty, iff_false]
  omega

theorem pages_cons {a b : ℕ} (ha : 4096 ∣ a) (hab : a < b) (hlt : a / 4096 < 16777216) :
    pages a b = {a / 4096} ∪ pages (a + 4096) b := by
  ext p
  simp only [mem_pages, Finset.mem_union, Finset.mem_singleton]
  omega

/-- A loop over a region applies `op` to the frames of the region, when its
body applies it to one. -/
theorem eachPage_spec {body : Pmm → UInt64 → Option Pmm} (op : Finset ℕ → Finset ℕ → Finset ℕ)
    (hnil : ∀ F, op F ∅ = F) (hcons : ∀ F A B, op F (A ∪ B) = op (op F A) B)
    (hbody : ∀ s page, page.toNat < 16777216 →
      ∃ s', body s page = some s' ∧ Becomes s s' (op s.free {page.toNat}))
    (s : Pmm) (address stop : UInt64) (ha : 4096 ∣ address.toNat) :
    ∃ s', eachPage body s address stop = some s' ∧
      Becomes s s' (op s.free (pages address.toNat stop.toNat)) := by
  -- On the number of pages left to the end of the bitmap.
  induction hn : 16777216 - address.toNat / 4096 using Nat.strong_induction_on generalizing s address with
  | _ n ih =>
  rw [eachPage]
  split
  · next hlt =>
    rw [UInt64.lt_iff_toNat_lt] at hlt
    split
    · next hmax =>
      rw [UInt64.le_iff_toNat_le, UInt64.toNat_div, maxPages_toNat, pmmPageSize_toNat] at hmax
      refine ⟨s, rfl, ?_⟩
      rw [pages_eq_empty (.inr hmax), hnil]
      exact .refl s
    · next hmax =>
      rw [UInt64.le_iff_toNat_le, UInt64.toNat_div, maxPages_toNat, pmmPageSize_toNat, not_le] at hmax
      have hpage : (address / pmmPageSize).toNat = address.toNat / 4096 := by
        rw [UInt64.toNat_div, pmmPageSize_toNat]
      have hnext : (address + pmmPageSize).toNat = address.toNat + 4096 := by
        rw [Word.toNat_add_of_lt] <;> simp only [pmmPageSize_toNat]; omega
      obtain ⟨t, ht, hb⟩ := hbody s (address / pmmPageSize) (by rwa [hpage])
      obtain ⟨u, hu, hb'⟩ := ih _ (by rw [hnext]; omega) t (address + pmmPageSize)
        (by rw [hnext]; omega) rfl
      refine ⟨u, by rw [ht]; exact hu, ?_⟩
      rw [pages_cons ha hlt hmax, hcons, ← hpage, ← hb.free, ← hnext]
      exact hb.trans hb'
  · next hlt =>
    rw [UInt64.lt_iff_toNat_lt, not_lt] at hlt
    refine ⟨s, rfl, ?_⟩
    rw [pages_eq_empty (.inl hlt), hnil]
    exact .refl s

theorem eachPage_add (s : Pmm) (address stop : UInt64) (ha : 4096 ∣ address.toNat) :
    ∃ s', eachPage addPage s address stop = some s' ∧
      Becomes s s' (s.free ∪ pages address.toNat stop.toNat) :=
  eachPage_spec (· ∪ ·) (fun F => Finset.union_empty F)
    (fun F A B => (Finset.union_assoc F A B).symm) (fun s _ h => addPage_spec s h) s address stop ha

theorem eachPage_reserve (s : Pmm) (address stop : UInt64) (ha : 4096 ∣ address.toNat) :
    ∃ s', eachPage reservePage s address stop = some s' ∧
      Becomes s s' (s.free \ pages address.toNat stop.toNat) :=
  eachPage_spec (· \ ·) (fun _ => Finset.sdiff_empty)
    (fun _ _ _ => sdiff_sdiff_left.symm) (fun s _ h => reservePage_spec s h) s address stop ha

theorem roundDown_toNat (a : UInt64) : (a &&& ~~~(pmmPageSize - 1)).toNat = 4096 * (a.toNat / 4096) :=
  Word.toNat_and_not_low (k := 12) rfl

/-- Where the loop of `pmm_add_region` starts and stops. -/
def addStart (base : UInt64) : ℕ := ((base + pmmPageSize - 1) &&& ~~~(pmmPageSize - 1)).toNat
def addStop (base length : UInt64) : ℕ := ((base + length) &&& ~~~(pmmPageSize - 1)).toNat

/-- Where the loop of `pmm_reserve_region` starts and stops. -/
def reserveStart (base : UInt64) : ℕ := (base &&& ~~~(pmmPageSize - 1)).toNat
def reserveStop (base length : UInt64) : ℕ :=
  ((base + length + pmmPageSize - 1) &&& ~~~(pmmPageSize - 1)).toNat

theorem pmmAddRegion_spec (s : Pmm) (base length : UInt64) :
    ∃ s', pmmAddRegion s base length = some s' ∧
      Becomes s s' (s.free ∪ pages (addStart base) (addStop base length)) := by
  simp only [pmmAddRegion]
  split
  · next h =>
    have hle : addStop base length ≤ addStart base := UInt64.le_iff_toNat_le.mp h
    refine ⟨s, rfl, ?_⟩
    rw [pages_eq_empty (.inl hle), Finset.union_empty]
    exact .refl s
  · exact eachPage_add s _ _ (by rw [roundDown_toNat]; exact Nat.dvd_mul_right ..)

theorem pmmReserveRegion_spec (s : Pmm) (base length : UInt64) :
    ∃ s', pmmReserveRegion s base length = some s' ∧
      Becomes s s' (s.free \ pages (reserveStart base) (reserveStop base length)) := by
  simp only [pmmReserveRegion]
  split
  · next h =>
    have hle : reserveStop base length ≤ reserveStart base := UInt64.le_iff_toNat_le.mp h
    refine ⟨s, rfl, ?_⟩
    rw [pages_eq_empty (.inl hle), Finset.sdiff_empty]
    exact .refl s
  · exact eachPage_reserve s _ _ (by rw [roundDown_toNat]; exact Nat.dvd_mul_right ..)

/-- A range of addresses whose end, rounded up, is below `2^64`. -/
def Fits (base length : UInt64) : Prop := base.toNat + length.toNat ≤ 2 ^ 64 - 4096

instance (base length : UInt64) : Decidable (Fits base length) := inferInstanceAs (Decidable (_ ≤ _))

/-- Frame `p` lies wholly in `[base, base + length)`. -/
def Inside (p : ℕ) (base length : UInt64) : Prop :=
  base.toNat ≤ 4096 * p ∧ 4096 * p + 4096 ≤ base.toNat + length.toNat

/-- Frame `p` shares a byte with `[base, base + length)`. -/
def Touches (p : ℕ) (base length : UInt64) : Prop :=
  ∃ a, base.toNat ≤ a ∧ a < base.toNat + length.toNat ∧ 4096 * p ≤ a ∧ a < 4096 * p + 4096

/-- An addition adds the frames wholly inside the region. -/
theorem mem_pages_add {base length : UInt64} (h : Fits base length) {p : ℕ} :
    p ∈ pages (addStart base) (addStop base length) ↔ p < 16777216 ∧ Inside p base length := by
  unfold Fits at h
  have hstart : (base + pmmPageSize - 1).toNat = base.toNat + 4095 := by
    have : base + pmmPageSize - 1 = base + 4095 := by simp only [pmmPageSize]; grind
    rw [this, Word.toNat_add_of_lt] <;> simp only [UInt64.reduceToNat]; omega
  have hstop : (base + length).toNat = base.toNat + length.toNat := Word.toNat_add_of_lt (by omega)
  rw [mem_pages, addStart, addStop, roundDown_toNat, roundDown_toNat, hstart, hstop, Inside]
  omega

/-- A reservation takes away every frame the region touches, and no frame
outside the region rounded outwards. -/
theorem mem_pages_reserve {base length : UInt64} (h : Fits base length) {p : ℕ} :
    p ∈ pages (reserveStart base) (reserveStop base length) ↔
      p < 16777216 ∧ base.toNat < 4096 * p + 4096 ∧ 4096 * p < base.toNat + length.toNat := by
  unfold Fits at h
  have hsum : (base + length).toNat = base.toNat + length.toNat := Word.toNat_add_of_lt (by omega)
  have hstop : (base + length + pmmPageSize - 1).toNat = base.toNat + length.toNat + 4095 := by
    have : base + length + pmmPageSize - 1 = base + length + 4095 := by simp only [pmmPageSize]; grind
    rw [this, Word.toNat_add_of_lt] <;> simp only [UInt64.reduceToNat, hsum]; omega
  rw [mem_pages, reserveStart, reserveStop, roundDown_toNat, roundDown_toNat, hstop]
  omega

theorem touches_iff {base length : UInt64} {p : ℕ} :
    Touches p base length ↔
      0 < length.toNat ∧ base.toNat < 4096 * p + 4096 ∧ 4096 * p < base.toNat + length.toNat := by
  constructor
  · intro hbyte
    obtain ⟨a, h⟩ := hbyte
    omega
  · intro h
    exact ⟨max base.toNat (4096 * p), by omega⟩

/-! ## Single frames handed out and taken back -/

/-- What an allocation from the frames below `limit` may answer: the lowest
free frame after frame 0, now used, or 0 when there is none. -/
inductive Allocs (s : Pmm) (limit : ℕ) : UInt64 → Pmm → Prop
  | frame (p : ℕ) : p ∈ s.free → 1 ≤ p → p < limit → (∀ q ∈ s.free, 1 ≤ q → p ≤ q) →
      a.toNat = 4096 * p → Becomes s s' (s.free.erase p) → Allocs s limit a s'
  | none : (∀ q ∈ s.free, 1 ≤ q → limit ≤ q) → Allocs s limit 0 s

theorem allocFrom_spec (s : Pmm) (limit page : UInt64) (hlimit : limit.toNat ≤ 16777216)
    (hpage : 1 ≤ page.toNat) (hbelow : ∀ q ∈ s.free, 1 ≤ q → page.toNat ≤ q) :
    ∃ a s', allocFrom s limit page = some (a, s') ∧ Allocs s limit.toNat a s' := by
  -- On the pages left to scan; every free frame is among them (`hbelow`).
  induction hn : limit.toNat - page.toNat using Nat.strong_induction_on generalizing page with
  | _ n ih =>
  rw [allocFrom]
  split
  · next hlt =>
    rw [UInt64.lt_iff_toNat_lt] at hlt
    have hmax : page.toNat < 16777216 := by omega
    rw [pageUsed_eq hmax]
    cases hu : s.bitmap.bit page.toNat with
    | true =>
      have hnext : (page + 1).toNat = page.toNat + 1 := by
        rw [Word.toNat_add_of_lt] <;> simp only [UInt64.reduceToNat]; omega
      refine ih _ (by rw [hnext]; omega) (page + 1) (by rw [hnext]; omega) (fun q hq h1 => ?_) rfl
      have hne : q ≠ page.toNat := by
        rintro rfl
        simp [Pmm.mem_free, hu] at hq
      have := hbelow q hq h1
      omega
    | false =>
      have hfree : page.toNat ∈ s.free := Pmm.mem_free.mpr ⟨hmax, hu⟩
      obtain ⟨s', hs', hb⟩ := setPage_becomes hfree
      refine ⟨page * pmmPageSize, _, by simp [hs']; rfl, ?_⟩
      refine .frame page.toNat hfree hpage hlt hbelow ?_ hb
      rw [Word.toNat_mul_of_lt] <;> simp only [pmmPageSize_toNat] <;> omega
  · next hlt =>
    rw [UInt64.lt_iff_toNat_lt, not_lt] at hlt
    exact ⟨0, s, rfl, .none fun q hq h1 => hlt.trans (hbelow q hq h1)⟩

theorem pmmAllocPage_spec (s : Pmm) :
    ∃ a s', pmmAllocPage s = some (a, s') ∧ Allocs s 16777216 a s' :=
  allocFrom_spec s maxPages 1 (by simp) (by simp) fun q _ h => by simpa using h

theorem pmmAllocPageLow_spec (s : Pmm) :
    ∃ a s', pmmAllocPageLow s = some (a, s') ∧ Allocs s 2048 a s' :=
  allocFrom_spec s 2048 1 (by simp) (by simp) fun q _ h => by simpa using h

/-- A freed address is a frame's, or the call changes nothing. -/
theorem pmmFreePage_spec (s : Pmm) (address : UInt64) :
    ∃ s', pmmFreePage s address = some s' ∧
      Becomes s s' (if address.toNat % 4096 = 0 ∧ address.toNat / 4096 < 16777216 then
        insert (address.toNat / 4096) s.free else s.free) := by
  have hmod : address % pmmPageSize = 0 ↔ address.toNat % 4096 = 0 := by
    rw [← UInt64.toNat_inj, UInt64.toNat_mod, pmmPageSize_toNat]; rfl
  have hdiv : (address / pmmPageSize).toNat = address.toNat / 4096 := by
    rw [UInt64.toNat_div, pmmPageSize_toNat]
  have hmax : maxPages ≤ address / pmmPageSize ↔ 16777216 ≤ address.toNat / 4096 := by
    rw [UInt64.le_iff_toNat_le, hdiv, maxPages_toNat]
  simp only [pmmFreePage, ne_eq, hmod, hmax]
  by_cases h0 : address.toNat % 4096 = 0
  · by_cases h1 : 16777216 ≤ address.toNat / 4096
    · simp only [h0, h1, not_true, if_false, if_true, not_lt.mpr h1, and_false]
      exact ⟨s, rfl, .refl s⟩
    · simp only [h0, h1, not_true, if_false, not_le.mp h1, and_true, if_true]
      have hlt : (address / pmmPageSize).toNat < 16777216 := by rw [hdiv]; exact not_le.mp h1
      obtain ⟨s', hs', hb⟩ := addPage_spec s hlt
      rw [hdiv, Finset.union_singleton] at hb
      exact ⟨s', hs', hb⟩
  · simp only [h0, not_false_eq_true, if_true, false_and, if_false]
    exact ⟨s, rfl, .refl s⟩

end Tinos
