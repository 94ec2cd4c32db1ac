/-
The slot array and the pages of the mapping window.

`reserveSlots_spec`: `reserve_slots` takes the first long enough run of clear
slots, and `releaseSlots_spec` what gives it back; together they are
`reserve_slots_first_fit`. `mapPages_spec`: the pages of the slots taken are
all mapped, or, where one cannot be, none of them is and no walk changes;
`unmapPages_spec` unmaps them. Every page of the window is a high page, so
these rest on `Tinos.VmmMaps` alone.
-/
import Tinos.AcpiMap
import Tinos.VmmMaps

namespace Tinos

open Bits Radix

/-! ## Runs of slots -/

/-- Slot `k` is one of the `count` from `start`. -/
def InRun (start count k : Nat) : Prop := start ≤ k ∧ k < start + count

instance (start count k : Nat) : Decidable (InRun start count k) := inferInstanceAs (Decidable (_ ∧ _))

/-- The slots of the run have the bit `v`, the others what they had. -/
def RunIs (slots slots' : Slots) (start count : Nat) (v : Bool) : Prop :=
  ∀ k, slots'.bit k = if InRun start count k then v else slots.bit k

/-- No slot of the run is taken. -/
def ClearRun (slots : Slots) (start count : Nat) : Prop := ∀ k, InRun start count k → slots.bit k = false

/-- What `reserve_slots` answers: the first clear run, taken, if there is one. -/
inductive Reserves (slots : Slots) (count : Nat) : Option (Nat × Slots) → Prop
  | taken : 0 < count → start + count ≤ 16384 → ClearRun slots start count →
      (∀ b < start, ¬ ClearRun slots b count) → RunIs slots slots' start count true →
      Reserves slots count (some (start, slots'))
  | full : (∀ b, 0 < count → b + count ≤ 16384 → ¬ ClearRun slots b count) → Reserves slots count none

section Slots

variable {slots slots' : Slots} {start count k n index : Nat}

theorem slot_index_lt (h : k < 16384) : k / 8 < acpiMapWindowPages / 8 := by
  unfold acpiMapWindowPages
  omega

theorem setSlot_eq (slots : Slots) (k : Nat) (h : k < 16384) : setSlot slots k = some (slots.put k true) :=
  set_eq (slot_index_lt h)

theorem clearSlot_eq (slots : Slots) (k : Nat) (h : k < 16384) : clearSlot slots k = some (slots.put k false) :=
  clear_eq (slot_index_lt h)

theorem eachSlot_spec {body : Slots → Nat → Option Slots} {v : Bool}
    (hbody : ∀ slots k, k < 16384 → body slots k = some (slots.put k v)) :
    ∀ (n start : Nat) (slots : Slots), start + n ≤ 16384 →
      ∃ slots', eachSlot body slots n start = some slots' ∧ RunIs slots slots' start n v
  | 0, start, slots, _ => ⟨slots, rfl, fun k => by
      rw [if_neg]
      unfold InRun
      omega⟩
  | n + 1, start, slots, h => by
    obtain ⟨slots', hs, hrun⟩ := eachSlot_spec hbody n (start + 1) (slots.put start v) (by omega)
    refine ⟨slots', by simp only [eachSlot, hbody slots start (by omega), Option.bind_eq_bind, Option.bind_some, hs], ?_⟩
    intro k
    rw [hrun k]
    by_cases hk : k = start
    · subst hk
      rw [if_neg (by unfold InRun; omega), if_pos (by unfold InRun; omega), put_bit_self (slot_index_lt (by omega))]
    · rw [put_bit_ne (slot_index_lt (by omega)) _ hk]
      by_cases hin : InRun (start + 1) n k
      · rw [if_pos hin, if_pos (by unfold InRun at *; omega)]
      · rw [if_neg hin, if_neg (by unfold InRun at *; omega)]

theorem firstUsed_spec (slots : Slots) (start : Nat) : ∀ (n index : Nat), start + index + n ≤ 16384 →
    ∃ i, firstUsed slots start n index = some i ∧ index ≤ i ∧ i ≤ index + n ∧
      (∀ j, index ≤ j → j < i → slots.bit (start + j) = false) ∧ (i < index + n → slots.bit (start + i) = true)
  | 0, index, _ => ⟨index, rfl, by omega, by omega, fun j _ _ => by omega, fun h => by omega⟩
  | n + 1, index, h => by
    have htest : slotIsUsed slots (start + index) = some (slots.bit (start + index)) :=
      test_eq (slot_index_lt (by omega))
    simp only [firstUsed, htest, Option.bind_eq_bind, Option.bind_some]
    cases hb : slots.bit (start + index) with
    | true => exact ⟨index, by simp, by omega, by omega, fun j _ _ => by omega, fun _ => hb⟩
    | false =>
      obtain ⟨i, hi, h1, h2, hclear, hused⟩ := firstUsed_spec slots start n (index + 1) (by omega)
      refine ⟨i, by simpa using hi, by omega, by omega, ?_, fun hlt => hused (by omega)⟩
      intro j hj hji
      by_cases hj' : j = index
      · rw [hj', hb]
      · exact hclear j (by omega) hji

theorem reserveFrom_spec (hpos : 0 < count) (slots : Slots) : ∀ {n start : Nat}, start + n + count = 16384 + 1 →
    (∀ b < start, ¬ ClearRun slots b count) →
    ∃ r, reserveFrom slots count n start = some r ∧ Reserves slots count r
  | 0, start, hn, hbefore => ⟨none, rfl, .full fun b _ hb => hbefore b (by omega)⟩
  | n + 1, start, hn, hbefore => by
    obtain ⟨i, hi, -, hle, hclear, hused⟩ := firstUsed_spec slots start count 0 (by omega)
    simp only [reserveFrom, hi, Option.bind_eq_bind, Option.bind_some, beq_iff_eq]
    by_cases hic : i = count
    · obtain ⟨slots', hs, hrun⟩ := eachSlot_spec setSlot_eq count start slots (by omega)
      refine ⟨some (start, slots'), by simp only [hic, if_true, hs]; rfl, .taken hpos (by omega) ?_ hbefore hrun⟩
      intro k hk
      obtain ⟨j, rfl⟩ := Nat.exists_eq_add_of_le hk.1
      exact hclear j (by omega) (by have := hk.2; omega)
    · rw [if_neg hic]
      refine reserveFrom_spec hpos slots (by omega) ?_
      intro b hb
      by_cases hbs : b = start
      · subst hbs
        intro hrun
        have hset := hused (by omega)
        rw [hrun (b + i) ⟨by omega, by omega⟩] at hset
        cases hset
      · exact hbefore b (by omega)

theorem reserveSlots_spec (slots : Slots) (count : Nat) :
    ∃ r, reserveSlots slots count = some r ∧ Reserves slots count r := by
  unfold reserveSlots acpiMapWindowPages
  split
  · rename_i h
    simp only [Bool.or_eq_true, beq_iff_eq, decide_eq_true_eq] at h
    exact ⟨none, rfl, .full fun b _ _ => by omega⟩
  · rename_i h
    simp only [Bool.or_eq_true, beq_iff_eq, decide_eq_true_eq] at h
    exact reserveFrom_spec (by omega) slots (by omega) fun b hb => by omega

theorem releaseSlots_spec (slots : Slots) (h : start + count ≤ 16384) (hpos : 0 < count) :
    ∃ slots', releaseSlots slots start count = some slots' ∧ RunIs slots slots' start count false := by
  unfold releaseSlots acpiMapWindowPages
  rw [if_neg (by simp only [Bool.or_eq_true, decide_eq_true_eq]; omega)]
  exact eachSlot_spec clearSlot_eq count start slots h

/-- Giving back a run that was clear gives back the array. -/
theorem RunIs.undo {slots'' : Slots} (hclear : ClearRun slots start count) (h : RunIs slots slots' start count true)
    (h' : RunIs slots' slots'' start count false) : slots'' = slots := by
  refine ext_bit ?_
  intro k _
  rw [h' k]
  by_cases hk : InRun start count k
  · rw [if_pos hk, hclear k hk]
  · rw [if_neg hk, h k, if_neg hk]

/-- `*out_start`, or nothing for a 0 answered, and `map_slots` after the call:
nothing is stored where 0 is answered. -/
def reserveCall (slots : Slots) (pageCount : Nat) : Option (Option Nat × Slots) :=
  (reserveSlots slots pageCount).map fun
    | none => (none, slots)
    | some (start, slots') => (some start, slots')

/-- **First fit, and back.** For any slots and any page count no access is
outside the window, a run is reserved if and only if there is a clear one,
and then it is the lowest, its slots alone are set, and giving it back leaves
the slots as they were. -/
theorem reserve_slots_first_fit (slots : Slots) (count : Nat) :
    ∃ answer slots', reserveCall slots count = some (answer, slots') ∧
      (answer.isSome ↔ 1 ≤ count ∧ count ≤ 16384 ∧ ∃ b, b + count ≤ 16384 ∧ ClearRun slots b count) ∧
      (answer = none → slots' = slots) ∧
      ∀ start, answer = some start →
        start + count ≤ 16384 ∧ ClearRun slots start count ∧ (∀ b < start, ¬ ClearRun slots b count) ∧
        RunIs slots slots' start count true ∧ releaseSlots slots' start count = some slots := by
  obtain ⟨r, hr, hspec⟩ := reserveSlots_spec slots count
  cases hspec with
  | @taken start slots' hpos hle hclear hfirst hrun =>
    refine ⟨some start, slots', by simp [reserveCall, hr], ?_, nofun, ?_⟩
    · simp only [Option.isSome_some, true_iff]
      exact ⟨hpos, by omega, start, hle, hclear⟩
    · intro b hb
      obtain rfl := Option.some.inj hb
      obtain ⟨slots'', hrel, hback⟩ := releaseSlots_spec slots' hle hpos
      exact ⟨hle, hclear, hfirst, hrun, by rw [hrel, RunIs.undo hclear hrun hback]⟩
  | full hnone =>
    refine ⟨none, slots, by simp [reserveCall, hr], ?_, fun _ => rfl, nofun⟩
    simp only [Option.isSome_none, Bool.false_eq_true, false_iff, not_and, not_exists]
    intro hpos _ b hb
    exact hnone b hpos hb

example : (reserveCall (fun i => if i.val = 0 then 0xFB else 0) 2).map (·.1) = some (some 8) := by decide +kernel

end Slots

/-! ## Pages of the window -/

/-- The first page of the window. -/
def windowPage : Nat := 2 ^ 52 - 2 ^ 35

/-- The page of the slot is the 4 KiB page `pa`, writable. -/
def Installed (img : Image) (s : Vmm) (slot : Nat) (pa : UInt64) : Prop :=
  PageAt pa ∧ ∃ t i, hardwareWalk img s (slotAddress slot) = some ⟨t, i, 0, pa ||| acpiPageFlagWritable ||| pageFlagPresent⟩

/-- No walk changes but those of the `n` slots from `start`. -/
def OtherSlots (img : Image) (s s' : Vmm) (start n : Nat) : Prop :=
  ∀ v, ¬ InRun (windowPage + start) n (pageOf v) → hardwareWalk img s' v = hardwareWalk img s v

section Address

variable {k : Nat} {v v' : UInt64} {img : Image} {s s' s'' : Vmm} {start n m : Nat}

theorem slotAddress_toNat (h : k < 16384) : (slotAddress k).toNat = 4096 * (windowPage + k) := by
  have hbase : acpiMapWindowBase.toNat = 2 ^ 64 - 2 ^ 47 := by decide
  have hslot : (UInt64.ofNat k).toNat = k := Word.toNat_ofNat_of_lt (by omega)
  have hmul : (UInt64.ofNat k * acpiPageSize).toNat = k * 4096 := by
    rw [Word.toNat_mul_of_lt, hslot]
    · rfl
    · rw [hslot]
      simp only [acpiPageSize, UInt64.reduceToNat]
      omega
  unfold slotAddress windowPage
  rw [Word.toNat_add_of_lt (by omega), hmul, hbase]
  omega

theorem pageOf_slotAddress (h : k < 16384) : pageOf (slotAddress k) = windowPage + k := by
  unfold pageOf
  rw [slotAddress_toNat h]
  omega

/-- Every page of the window is a high page. -/
theorem highPage_slotAddress (h : k < 16384) : HighPage (slotAddress k) := by
  have hv := slotAddress_toNat h
  unfold windowPage at hv
  refine ⟨hardwareCanonical_iff.mpr (.inr (by omega)), aligned_iff.mpr (by omega), ?_⟩
  rw [UInt64.le_iff_toNat_le, limit_toNat]
  omega

/-- A walk is one of the page. -/
theorem hardwareWalk_page (h : pageOf v = pageOf v') : hardwareWalk img s v = hardwareWalk img s v' := by
  unfold hardwareWalk
  rw [hardwareCanonical_page h, path_page h]

theorem OtherSlots.refl : OtherSlots img s s start n := fun _ _ => rfl

theorem OtherSlots.trans {b a c l : Nat} (h : OtherSlots img s s' start n) (h' : OtherSlots img s' s'' b a)
    (hc : ∀ k, InRun start n k ∨ InRun b a k → InRun c l k) : OtherSlots img s s'' c l := by
  intro v hv
  refine (h' v fun hin => hv ?_).trans (h v fun hin => hv ?_)
  · have := hc (pageOf v - windowPage) (.inr (by unfold InRun at *; omega))
    unfold InRun at *
    omega
  · have := hc (pageOf v - windowPage) (.inl (by unfold InRun at *; omega))
    unfold InRun at *
    omega

theorem OtherSlots.walk_eq (h : OtherSlots img s s' start n) (hk : k < 16384) (hout : ¬ InRun start n k) :
    hardwareWalk img s' (slotAddress k) = hardwareWalk img s (slotAddress k) := by
  apply h
  rw [pageOf_slotAddress hk]
  unfold InRun at *
  omega

/-- Where the walks of the slots are the same too, all are. -/
theorem OtherSlots.same (h : OtherSlots img s s' start n) (hin : start + n ≤ 16384)
    (hrun : ∀ k, InRun start n k → hardwareWalk img s' (slotAddress k) = hardwareWalk img s (slotAddress k)) (v : UInt64) :
    hardwareWalk img s' v = hardwareWalk img s v := by
  by_cases hv : InRun (windowPage + start) n (pageOf v)
  · obtain ⟨j, hj⟩ := Nat.exists_eq_add_of_le hv.1
    have hk : InRun start n (start + j) := by
      unfold InRun at *
      omega
    have hpage : pageOf v = pageOf (slotAddress (start + j)) := by
      rw [pageOf_slotAddress (by unfold InRun at hk; omega)]
      omega
    rw [hardwareWalk_page hpage, hardwareWalk_page hpage]
    exact hrun (start + j) hk
  · exact h v hv

theorem OtherPages.slots (hk : k < 16384) (h : OtherPages img (slotAddress k) s s') : OtherSlots img s s' k 1 :=
  fun v hv => by
    refine h v fun he => hv ?_
    rw [pageOf_slotAddress hk] at he
    unfold InRun
    omega

theorem Installed.of_walk {pa : UInt64} (h : Installed img s k pa)
    (hw : hardwareWalk img s' (slotAddress k) = hardwareWalk img s (slotAddress k)) : Installed img s' k pa := by
  unfold Installed
  rw [hw]
  exact h

end Address

/-! ## Mapping and unmapping slots -/

/-- What the loop of `uacpi_kernel_map` may come to: its pages are mapped, or no
page of the whole run is. -/
inductive MapPages (img : Image) (s : Vmm) (start : Nat) (base : UInt64) (n index : Nat) : Bool → Vmm → Prop
  | installed : Tables img s' → OtherSlots img s s' (start + index) n →
      (∀ j, InRun index n j → Installed img s' (start + j) (base + UInt64.ofNat j * acpiPageSize)) →
      MapPages img s start base n index true s'
  | undone : Tables img s' → OtherSlots img s s' start (index + n) →
      (∀ j < index + n, hardwareWalk img s' (slotAddress (start + j)) = none) →
      MapPages img s start base n index false s'

section Pages

variable {img : Image} {s s' : Vmm} {k start n index : Nat} {va pa base : UInt64}

theorem acpiPageFlag_mappable (ha : pageAlignedAddress pa = true) (hin : pa &&& ~~~pageAddressMask = 0) :
    Mappable pa acpiPageFlagWritable := ⟨ha, hin, by decide⟩

/-- What `map_page` installs is in the range it takes. -/
theorem mappingWasInstalled_inside (h : mappingWasInstalled img s va pa = true) :
    pageAlignedAddress pa = true ∧ pa &&& ~~~pageAddressMask = 0 := by
  unfold mappingWasInstalled at h
  dsimp only at h
  split at h
  · cases h
  · rw [beq_iff_eq] at h
    have hmask : pa &&& pageAddressMask = pa := by
      rw [← h, UInt64.and_assoc]
      rfl
    exact ⟨by rw [pageAlignedAddress, Word.and_off hmask (by decide)]; rfl, Word.and_off hmask (by decide)⟩

theorem refused_of_not_mappable (h : ¬ Mappable pa acpiPageFlagWritable) :
    mapRefused s va pa acpiPageFlagWritable = true := by
  unfold mapRefused
  by_contra hr
  simp only [Bool.not_eq_true, Bool.or_eq_false_iff, Bool.not_eq_false', bne_eq_false_iff_eq] at hr
  exact h ⟨hr.1.1.2, hr.1.2, hr.2⟩

/-- Mapping one clear slot. -/
theorem mapSlot_spec (h : Tables img s) (hk : k < 16384) (hclear : hardwareWalk img s (slotAddress k) = none)
    (pa : UInt64) :
    ∃ s', mapPage img s (slotAddress k) pa acpiPageFlagWritable = some s' ∧ Tables img s' ∧ OtherSlots img s s' k 1 ∧
      ((mappingWasInstalled img s' (slotAddress k) pa = true ∧ Installed img s' k pa) ∨
        (mappingWasInstalled img s' (slotAddress k) pa = false ∧ hardwareWalk img s' (slotAddress k) = none)) := by
  have hva := highPage_slotAddress hk
  by_cases hm : Mappable pa acpiPageFlagWritable
  · obtain ⟨s', hs', ht, ho, hw⟩ := mapPage_spec h hva hm
    refine ⟨s', hs', ht, ho.slots hk, ?_⟩
    rcases hw with hw | ⟨-, hw, hnone⟩
    · left
      have hpage : PageAt pa := Word.and_of_and_not hm.inside
      have hne : getPageTable img s' (slotAddress k) ≠ 0 := ht.getPageTable_ne_zero hva (by rw [hw]; simp)
      have hentry : (pa ||| acpiPageFlagWritable ||| pageFlagPresent) &&& 0x000FFFFFFFFFF000 = pa := by
        rw [UInt64.or_assoc]
        exact Word.or_and_high hpage (by decide)
      refine ⟨?_, hpage, _, _, hw⟩
      unfold mappingWasInstalled
      simp only [beq_iff_eq, hne, if_false, hardwareWalk_entry hw, hentry]
    · right
      rw [hw]
      exact ⟨by simp [mappingWasInstalled, hnone], hclear⟩
  · refine ⟨s, by simp [mapPage, refused_of_not_mappable hm], h, .refl, .inr ⟨?_, hclear⟩⟩
    by_contra hinst
    obtain ⟨ha, hin⟩ := mappingWasInstalled_inside (Bool.not_eq_false _ ▸ hinst)
    exact hm (acpiPageFlag_mappable ha hin)

theorem unmapSlot_spec (h : Tables img s) (hk : k < 16384) :
    Tables img (unmapPage img s (slotAddress k)) ∧ OtherSlots img s (unmapPage img s (slotAddress k)) k 1 ∧
      hardwareWalk img (unmapPage img s (slotAddress k)) (slotAddress k) = none := by
  obtain ⟨ht, ho, hw⟩ := unmapPage_spec h (highPage_slotAddress hk)
  exact ⟨ht, ho.slots hk, hw⟩

theorem unmapBack_spec (h : Tables img s) (start index : Nat) (hle : start + index ≤ 16384) :
    Tables img (unmapBack img s start index) ∧ OtherSlots img s (unmapBack img s start index) start index ∧
      ∀ j < index, hardwareWalk img (unmapBack img s start index) (slotAddress (start + j)) = none := by
  induction index generalizing s with
  | zero => exact ⟨h, .refl, fun j hj => by omega⟩
  | succ index ih =>
    obtain ⟨ht, ho, hw⟩ := unmapSlot_spec (k := start + index) h (by omega)
    obtain ⟨ht', ho', hw'⟩ := ih ht (by omega)
    refine ⟨ht', ho.trans ho' fun k hk => by unfold InRun at *; omega, ?_⟩
    intro j hj
    by_cases hji : j = index
    · subst hji
      exact (ho'.walk_eq (by omega) (by unfold InRun; omega)).trans hw
    · exact hw' j (by omega)

theorem mapPages_spec (h : Tables img s) (start : Nat) (base : UInt64) (n index : Nat) (hle : start + index + n ≤ 16384)
    (hclear : ∀ j, InRun index n j → hardwareWalk img s (slotAddress (start + j)) = none) :
    ∃ ok s', mapPages img s start base n index = some (ok, s') ∧ MapPages img s start base n index ok s' := by
  induction n generalizing s index with
  | zero => exact ⟨true, s, rfl, .installed h .refl fun j hj => by unfold InRun at hj; omega⟩
  | succ n ih =>
    obtain ⟨s₁, hs₁, ht, ho, hcase⟩ := mapSlot_spec h (k := start + index) (by omega) (hclear index (by unfold InRun; omega))
      (base + UInt64.ofNat index * acpiPageSize)
    simp only [mapPages, hs₁, Option.bind_eq_bind, Option.bind_some]
    rcases hcase with ⟨hinst, hin⟩ | ⟨hinst, hnone⟩
    · -- The page is there: the pages after it are clear still, and go the same way.
      have hclear' : ∀ j, InRun (index + 1) n j → hardwareWalk img s₁ (slotAddress (start + j)) = none := by
        intro j hj
        rw [ho.walk_eq (by unfold InRun at hj; omega) (by unfold InRun at *; omega)]
        exact hclear j (by unfold InRun at *; omega)
      obtain ⟨ok, s', hs', hrest⟩ := ih ht (index + 1) (by omega) hclear'
      refine ⟨ok, s', by rw [hinst, if_pos rfl]; exact hs', ?_⟩
      cases hrest with
      | installed ht' ho' hin' =>
        refine .installed ht' (ho.trans ho' fun k hk => by unfold InRun at *; omega) ?_
        intro j hj
        by_cases hji : j = index
        · subst hji
          exact hin.of_walk (ho'.walk_eq (by omega) (by unfold InRun; omega))
        · exact hin' j (by unfold InRun at *; omega)
      | undone ht' ho' hnone' =>
        exact .undone ht' (ho.trans ho' fun k hk => by unfold InRun at *; omega) fun j hj => hnone' j (by omega)
    · -- The page is not: those before it are taken back, those after it were clear.
      obtain ⟨ht', ho', hw'⟩ := unmapBack_spec ht start index (by omega)
      refine ⟨false, _, by rw [hinst]; rfl, .undone ht' (ho.trans ho' fun k hk => by unfold InRun at *; omega)
        fun j hj => ?_⟩
      by_cases hj1 : j < index
      · exact hw' j hj1
      · rw [ho'.walk_eq (by omega) (by unfold InRun; omega)]
        by_cases hji : j = index
        · rw [hji, hnone]
        · rw [ho.walk_eq (by omega) (by unfold InRun; omega)]
          exact hclear j (by unfold InRun; omega)

theorem slotAddress_add (start index : Nat) :
    slotAddress start + UInt64.ofNat index * acpiPageSize = slotAddress (start + index) := by
  unfold slotAddress
  rw [UInt64.ofNat_add, UInt64.add_mul, UInt64.add_assoc]

theorem unmapPages_spec (h : Tables img s) (start n index : Nat) (hle : start + index + n ≤ 16384) :
    Tables img (unmapPages img s (slotAddress start) n index) ∧
      OtherSlots img s (unmapPages img s (slotAddress start) n index) (start + index) n ∧
      ∀ j, InRun index n j → hardwareWalk img (unmapPages img s (slotAddress start) n index)
        (slotAddress (start + j)) = none := by
  induction n generalizing s index with
  | zero => exact ⟨h, .refl, fun j hj => by unfold InRun at hj; omega⟩
  | succ n ih =>
    obtain ⟨ht, ho, hw⟩ := unmapSlot_spec (k := start + index) h (by omega)
    obtain ⟨ht', ho', hw'⟩ := ih ht (index + 1) (by omega)
    simp only [unmapPages, slotAddress_add]
    refine ⟨ht', ho.trans ho' fun k hk => by unfold InRun at *; omega, ?_⟩
    intro j hj
    by_cases hji : j = index
    · subst hji
      exact (ho'.walk_eq (by omega) (by unfold InRun; omega)).trans hw
    · exact hw' j (by unfold InRun at *; omega)

end Pages

end Tinos
