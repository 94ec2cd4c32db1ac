/-
Whole runs of the memory manager.

`free_counter_exact`: from `pmm_init` on, whatever is called with whatever
arguments, the counter is the number of clear bits and no bitmap index is
out of range.

`frame_ownership`: with the regions added and reserved first, and clients
that give back only what they hold, a frame handed out is in an added
region, in no reserved one, and held by nobody. The run is a run of a pool
(`Tinos.Lib.Pool`) whose stock is the set of frames free at the start.
-/
import Tinos.Lib.Pool
import Tinos.PmmFrames

namespace Tinos

open Runs

/-! ## The counter -/

/-- A call of the manager, its arguments unchecked. -/
inductive PmmCall where
  | addRegion (base length : UInt64)
  | reserveRegion (base length : UInt64)
  | allocPage
  | allocPageLow
  | freePage (address : UInt64)

def pmmCall (s : Pmm) : PmmCall → Option Pmm
  | .addRegion base length => pmmAddRegion s base length
  | .reserveRegion base length => pmmReserveRegion s base length
  | .allocPage => (pmmAllocPage s).map (·.2)
  | .allocPageLow => (pmmAllocPageLow s).map (·.2)
  | .freePage address => pmmFreePage s address

/-- The counter counts the clear bits. -/
structure Counted (s : Pmm) : Prop where
  free : s.freePages.toNat = s.free.card
  total : s.totalPages = maxPages

theorem Counted.iff_drift {s : Pmm} : s.freePages.toNat = s.free.card ↔ s.drift = 0 := by
  have hlt : s.free.card < 2 ^ 64 := by have := s.card_free_le; omega
  have hsub : s.drift = 0 ↔ s.freePages = UInt64.ofNat s.free.card := by
    unfold Pmm.drift
    constructor <;> intro h <;> grind
  rw [hsub, ← UInt64.toNat_inj, Word.toNat_ofNat_of_lt hlt]

theorem Counted.becomes {s s' : Pmm} {F} (h : Counted s) (hb : Becomes s s' F) : Counted s' where
  free := Counted.iff_drift.mpr (hb.drift.trans (Counted.iff_drift.mp h.free))
  total := hb.total.trans h.total

theorem pmmInit_free : pmmInit.free = ∅ := by
  ext p
  simp only [Pmm.mem_free, Finset.notMem_empty, iff_false, not_and]
  intro hp
  have h1 : pmmInit.bitmap.bit p = true := Bits.ones_bit (index_lt hp)
  rw [h1]
  exact Bool.noConfusion

theorem pmmInit_counted : Counted pmmInit := ⟨by rw [pmmInit_free]; rfl, rfl⟩

theorem Allocs.becomes {s s' : Pmm} {limit a} (h : Allocs s limit a s') : ∃ F, Becomes s s' F := by
  cases h with
  | frame p _ _ _ _ _ hb => exact ⟨_, hb⟩
  | none => exact ⟨_, .refl s⟩

/-- Every call returns, and is a change of the free set with the counter. -/
theorem pmmCall_becomes (s : Pmm) (c : PmmCall) : ∃ s' F, pmmCall s c = some s' ∧ Becomes s s' F := by
  cases c with
  | addRegion base length =>
    obtain ⟨s', hs', hb⟩ := pmmAddRegion_spec s base length
    exact ⟨s', _, hs', hb⟩
  | reserveRegion base length =>
    obtain ⟨s', hs', hb⟩ := pmmReserveRegion_spec s base length
    exact ⟨s', _, hs', hb⟩
  | allocPage =>
    obtain ⟨a, s', hs', ha⟩ := pmmAllocPage_spec s
    obtain ⟨F, hb⟩ := ha.becomes
    exact ⟨s', F, by simp [pmmCall, hs'], hb⟩
  | allocPageLow =>
    obtain ⟨a, s', hs', ha⟩ := pmmAllocPageLow_spec s
    obtain ⟨F, hb⟩ := ha.becomes
    exact ⟨s', F, by simp [pmmCall, hs'], hb⟩
  | freePage address =>
    obtain ⟨s', hs', hb⟩ := pmmFreePage_spec s address
    exact ⟨s', _, hs', hb⟩

/-- **The free counter never drifts.** After any calls with any arguments the
counter is the number of clear bits: it is not above the total, and it is
positive wherever a frame is free to be taken. No call indexes the bitmap
out of range (it would have no outcome). -/
theorem free_counter_exact (calls : List PmmCall) : ∃ s, calls.foldlM pmmCall pmmInit = some s ∧
    (pmmGetFreePages s).toNat = s.free.card ∧ pmmGetFreePages s ≤ pmmGetTotalPages s ∧
    (s.free.Nonempty → 0 < pmmGetFreePages s) := by
  have hstep : ∀ c ∈ calls, ∀ s, Counted s → ∃ s', pmmCall s c = some s' ∧ Counted s' := by
    intro c _ s h
    obtain ⟨s', F, hs', hb⟩ := pmmCall_becomes s c
    exact ⟨s', hs', h.becomes hb⟩
  obtain ⟨s, hs, hc⟩ := foldlM_total Counted pmmInit_counted hstep
  refine ⟨s, hs, hc.free, ?_, ?_⟩
  · rw [UInt64.le_iff_toNat_le]
    simp only [pmmGetFreePages, pmmGetTotalPages, hc.free, hc.total]
    exact s.card_free_le
  · intro hne
    rw [UInt64.lt_iff_toNat_lt]
    simp only [pmmGetFreePages, hc.free]
    exact Finset.card_pos.mpr hne

example : ((pmmAddRegion pmmInit 0x1000 0x3000).bind pmmAllocPage).map (fun r => (r.1, r.2.freePages)) =
    some (0x1000, 2) := by decide +kernel

/-! ## Ownership -/

/-- A region as its base and length. -/
abbrev Region := UInt64 × UInt64

def addRegions (s : Pmm) (rs : List Region) : Option Pmm := rs.foldlM (fun s r => pmmAddRegion s r.1 r.2) s

def reserveRegions (s : Pmm) (rs : List Region) : Option Pmm :=
  rs.foldlM (fun s r => pmmReserveRegion s r.1 r.2) s

/-- The manager as boot leaves it. -/
def pmmSetup (adds reserves : List Region) : Option Pmm :=
  (addRegions pmmInit adds).bind (reserveRegions · reserves)

theorem addRegions_spec : ∀ {adds : List Region} (s : Pmm), (∀ r ∈ adds, Fits r.1 r.2) →
    ∃ s', addRegions s adds = some s' ∧ s'.drift = s.drift ∧ s'.totalPages = s.totalPages ∧
      ∀ p, p ∈ s'.free ↔ p ∈ s.free ∨ (p < 16777216 ∧ ∃ r ∈ adds, Inside p r.1 r.2)
  | [], s, _ => ⟨s, rfl, rfl, rfl, by simp⟩
  | r :: adds, s, hf => by
    obtain ⟨t, ht, hb⟩ := pmmAddRegion_spec s r.1 r.2
    obtain ⟨u, hu, hd, htot, hfree⟩ := addRegions_spec t fun r' h' => hf r' (List.mem_cons_of_mem r h')
    refine ⟨u, ?_, hd.trans hb.drift, htot.trans hb.total, ?_⟩
    · simp only [addRegions, List.foldlM_cons, ht]
      exact hu
    · intro p
      rw [hfree, hb.free, Finset.mem_union, mem_pages_add (hf r (by simp)), List.exists_mem_cons_iff, or_assoc,
        ← and_or_left]

theorem reserveRegions_spec : ∀ {reserves : List Region} (s : Pmm), (∀ r ∈ reserves, Fits r.1 r.2) →
    ∃ s', reserveRegions s reserves = some s' ∧ s'.drift = s.drift ∧ s'.totalPages = s.totalPages ∧
      s'.free ⊆ s.free ∧ ∀ p ∈ s'.free, ∀ r ∈ reserves, ¬ Touches p r.1 r.2
  | [], s, _ => ⟨s, rfl, rfl, rfl, Finset.Subset.refl _, by simp⟩
  | r :: reserves, s, hf => by
    obtain ⟨t, ht, hb⟩ := pmmReserveRegion_spec s r.1 r.2
    obtain ⟨u, hu, hd, htot, hsub, hfree⟩ :=
      reserveRegions_spec t fun r' h' => hf r' (List.mem_cons_of_mem r h')
    rw [hb.free] at hsub
    refine ⟨u, ?_, hd.trans hb.drift, htot.trans hb.total, hsub.trans Finset.sdiff_subset, ?_⟩
    · simp only [reserveRegions, List.foldlM_cons, ht]
      exact hu
    · intro p hp r' hr'
      rcases List.mem_cons.mp hr' with rfl | hr'
      · have hnot := (Finset.mem_sdiff.mp (hsub hp)).2
        have hlt : p < 16777216 := mem_frames.mp (u.free_subset hp)
        rw [mem_pages_reserve (hf r' (by simp))] at hnot
        rw [touches_iff]
        exact fun h => hnot ⟨hlt, h.2⟩
      · exact hfree p hp r' hr'

/-- The manager and the addresses its clients hold. -/
structure Clients where
  pmm : Pmm
  held : Finset UInt64

inductive ClientEvent where
  | alloc (address : UInt64)
  | allocLow (address : UInt64)
  | free (address : UInt64)

/-- A client's step: an allocation with its answer, or giving back an address
that is held. -/
inductive ClientStep : Clients → ClientEvent → Clients → Prop
  | alloc : pmmAllocPage w.pmm = some (a, s) →
      ClientStep w (.alloc a) ⟨s, if a = 0 then w.held else insert a w.held⟩
  | allocLow : pmmAllocPageLow w.pmm = some (a, s) →
      ClientStep w (.allocLow a) ⟨s, if a = 0 then w.held else insert a w.held⟩
  | free : a ∈ w.held → pmmFreePage w.pmm a = some s → ClientStep w (.free a) ⟨s, w.held.erase a⟩

/-- What a client's step is to the pool of frames. -/
def ClientEvent.pool : ClientEvent → Pool.Event ℕ
  | .alloc a | .allocLow a => if a = 0 then .idle else .take (frameOf a)
  | .free a => .give (frameOf a)

/-- The pool's free frames are the manager's, its held frames those of the
addresses held. -/
structure Pooled (w : Clients) (p : Pool.State ℕ) : Prop where
  free : p.free = w.pmm.free
  held : p.held = w.held.image frameOf
  frame : ∀ a ∈ w.held, a.toNat % 4096 = 0 ∧ frameOf a < 16777216

theorem Allocs.pooled {w : Clients} {p : Pool.State ℕ} {limit a s} (hR : Pooled w p)
    (hl : limit ≤ 16777216) (h : Allocs w.pmm limit a s) :
    ∃ q, Pool.Step p (if a = 0 then .idle else .take (frameOf a)) q ∧
      Pooled ⟨s, if a = 0 then w.held else insert a w.held⟩ q := by
  cases h with
  | frame x hx h1 hlt _ ha hb =>
    have hne : a ≠ 0 := ne_zero_of_frame ha h1
    have hfr : frameOf a = x := frameOf_eq ha
    simp only [hne, if_false, hfr]
    refine ⟨_, .take (by rwa [hR.free]), by rw [hb.free, hR.free], ?_, ?_⟩
    · rw [Finset.image_insert, hR.held, hfr]
    · intro b hm
      rcases Finset.mem_insert.mp hm with rfl | hm
      · exact ⟨by omega, by omega⟩
      · exact hR.frame b hm
  | none => exact ⟨p, by simpa using .idle, by simpa using hR⟩

theorem ClientStep.pooled {w w' : Clients} {e} {p : Pool.State ℕ} (hR : Pooled w p) (h : ClientStep w e w') :
    ∃ q, Pool.Step p e.pool q ∧ Pooled w' q := by
  cases h with
  | alloc hs =>
    obtain ⟨a', s', hs', ha⟩ := pmmAllocPage_spec w.pmm
    obtain ⟨rfl, rfl⟩ := Prod.mk.inj (Option.some.inj (hs.symm.trans hs'))
    exact ha.pooled hR (le_refl _)
  | allocLow hs =>
    obtain ⟨a', s', hs', ha⟩ := pmmAllocPageLow_spec w.pmm
    obtain ⟨rfl, rfl⟩ := Prod.mk.inj (Option.some.inj (hs.symm.trans hs'))
    exact ha.pooled hR (by omega)
  | @free a _ s hheld hs =>
    obtain ⟨s', hs', hb⟩ := pmmFreePage_spec w.pmm a
    obtain rfl := Option.some.inj (hs.symm.trans hs')
    obtain ⟨h0, hlt⟩ := hR.frame a hheld
    have hmem : frameOf a ∈ p.held := by rw [hR.held]; exact Finset.mem_image_of_mem _ hheld
    rw [if_pos ⟨h0, hlt⟩] at hb
    refine ⟨_, .give hmem, by rw [hb.free, hR.free]; rfl, ?_, fun b hb => hR.frame b (Finset.mem_of_mem_erase hb)⟩
    rw [hR.held]
    ext x
    simp only [Finset.mem_erase, Finset.mem_image, ne_eq]
    constructor
    · rintro ⟨hne, b, hb, rfl⟩
      exact ⟨b, ⟨fun he => hne (he ▸ rfl), hb⟩, rfl⟩
    · rintro ⟨b, ⟨hne, hb⟩, rfl⟩
      refine ⟨fun he => hne (UInt64.toNat.inj ?_), b, hb, rfl⟩
      have hb0 := (hR.frame b hb).1
      simp only [frameOf] at he
      omega

/-- What a client may rely on about an address it is given. -/
structure Granted (adds reserves : List Region) (limit : ℕ) (held : Finset UInt64) (a : UInt64) : Prop where
  aligned : a.toNat % 4096 = 0
  below : a.toNat < limit
  notFrameZero : frameOf a ≠ 0
  added : ∃ r ∈ adds, Inside (frameOf a) r.1 r.2
  notReserved : ∀ r ∈ reserves, ¬ Touches (frameOf a) r.1 r.2
  fresh : a ∉ held

theorem Allocs.granted {adds reserves} {w : Clients} {evs limit a s} {s₀ : Pmm}
    (hadd : ∀ p ∈ s₀.free, ∃ r ∈ adds, Inside p r.1 r.2)
    (hres : ∀ p ∈ s₀.free, ∀ r ∈ reserves, ¬ Touches p r.1 r.2)
    (hrun : Steps ClientStep ⟨s₀, ∅⟩ evs w) (hl : limit ≤ 16777216) (h : Allocs w.pmm limit a s) (hne : a ≠ 0) :
    Granted adds reserves (4096 * limit) w.held a := by
  obtain ⟨p, hp, hR⟩ := hrun.simulate Pooled ClientEvent.pool (t := ⟨s₀.free, ∅⟩) ⟨rfl, rfl, by simp⟩
    fun x y e x' hxy hx => ClientStep.pooled hxy hx
  obtain ⟨q, hq, -⟩ := h.pooled hR hl
  rw [if_neg hne] at hq
  obtain ⟨hstock, hfresh⟩ := Pool.Steps.takes hp hq
  cases h with
  | none => exact absurd rfl hne
  | frame x _ h1 hlt _ ha _ =>
    refine ⟨by omega, by omega, by simp only [frameOf]; omega, hadd _ hstock, hres _ hstock, fun hheld => hfresh ?_⟩
    rw [hR.held]
    exact Finset.mem_image_of_mem _ hheld

/-- **Frame ownership.** Boot's additions and reservations succeed, and after
any run of clients from there both allocators answer, with 0 or with a
whole frame of an added region that no reservation touches and nobody
holds. -/
theorem frame_ownership (adds reserves : List Region) (hadds : ∀ r ∈ adds, Fits r.1 r.2)
    (hreserves : ∀ r ∈ reserves, Fits r.1 r.2) :
    ∃ s₀, pmmSetup adds reserves = some s₀ ∧ ∀ evs w, Steps ClientStep ⟨s₀, ∅⟩ evs w →
      (∃ a s, pmmAllocPage w.pmm = some (a, s) ∧
        (a ≠ 0 → Granted adds reserves (64 * 1024 * 1024 * 1024) w.held a)) ∧
      (∃ a s, pmmAllocPageLow w.pmm = some (a, s) ∧
        (a ≠ 0 → Granted adds reserves (8 * 1024 * 1024) w.held a)) := by
  obtain ⟨s₁, hs₁, -, -, hfree₁⟩ := addRegions_spec pmmInit hadds
  obtain ⟨s₀, hs₀, -, -, hsub, hres⟩ := reserveRegions_spec s₁ hreserves
  have hadd : ∀ p ∈ s₀.free, ∃ r ∈ adds, Inside p r.1 r.2 := by
    intro p hp
    have h := (hfree₁ p).mp (hsub hp)
    rw [pmmInit_free] at h
    simp only [Finset.notMem_empty, false_or] at h
    exact h.2
  refine ⟨s₀, by simp [pmmSetup, hs₁, hs₀], fun evs w hrun => ⟨?_, ?_⟩⟩
  · obtain ⟨a, s, hs, ha⟩ := pmmAllocPage_spec w.pmm
    exact ⟨a, s, hs, fun hne => ha.granted hadd hres hrun (le_refl _) hne⟩
  · obtain ⟨a, s, hs, ha⟩ := pmmAllocPageLow_spec w.pmm
    exact ⟨a, s, hs, fun hne => ha.granted hadd hres hrun (by omega) hne⟩

/-- Regions that overlap, and reservations too, all with ends inside frames. -/
def overlappingAdds : List Region := [(0x100800, 0x5000), (0x103400, 0x9A00)]
def overlappingReserves : List Region := [(0x104C00, 0x1200), (0x105800, 0x900)]

theorem frame_ownership_overlapping :
    ∃ s₀, pmmSetup overlappingAdds overlappingReserves = some s₀ ∧
      ∀ evs w, Steps ClientStep ⟨s₀, ∅⟩ evs w →
        (∃ a s, pmmAllocPage w.pmm = some (a, s) ∧ (a ≠ 0 →
          Granted overlappingAdds overlappingReserves (64 * 1024 * 1024 * 1024) w.held a)) ∧
        (∃ a s, pmmAllocPageLow w.pmm = some (a, s) ∧ (a ≠ 0 →
          Granted overlappingAdds overlappingReserves (8 * 1024 * 1024) w.held a)) :=
  frame_ownership _ _ (by simp [overlappingAdds, Fits]) (by simp [overlappingReserves, Fits])

end Tinos
