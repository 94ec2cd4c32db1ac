/-
What the walk over the boot memory map reads (`kernel/main.c`), for any map.

The stride is the entry's own `size` and 4 bytes for the field itself, so
every pass goes on by 4 bytes at least and the loop ends, whatever the sizes
are. The test of the loop looks at the start of the entry alone:
`walk_safe_iff` says that all bytes read are bytes of the map if and only if
each entry that starts in the map has its 24 bytes there.
-/
import Tinos.BootMap

namespace Tinos

open Bytes

/-! ## The walk -/

/-- The entries the loop comes to. -/
def mmapVisited (m : Mem) (entry stop : Nat) : List Nat :=
  if entry < stop then entry :: mmapVisited m (entry + (mmapEntry m entry).size.toNat + 4) stop else []
termination_by stop - entry

/-- The bytes that a pass reads of the entry at `a`, field by field: the type,
the region of an available entry, the size. -/
def entryReads (m : Mem) (a : Nat) : List Nat :=
  List.range' (a + 20) 4 ++
    (if (mmapEntry m a).type = multibootMemoryAvailable then
      List.range' (a + 8) 4 ++ List.range' (a + 4) 4 ++ List.range' (a + 16) 4 ++ List.range' (a + 12) 4
    else []) ++
    List.range' a 4

/-- The bytes that the loop reads. -/
def mmapReads (m : Mem) (entry stop : Nat) : List Nat := (mmapVisited m entry stop).flatMap (entryReads m)

/-- A pass of the loop. -/
def mmapPass (m : Mem) (r : Pmm × UInt64) (a : Nat) : Option (Pmm × UInt64) :=
  let e := mmapEntry m a
  if e.type = multibootMemoryAvailable then do
    let s ← pmmAddRegion r.1 e.base e.length
    return (s, r.2 + e.length)
  else some r

/-- Each entry from `a` on, `size + 4` bytes after the one before it, that
starts before `stop` ends by then. -/
inductive WholeEntries (m : Mem) (stop : Nat) : Nat → Prop
  | past : stop ≤ a → WholeEntries m stop a
  | entry : a + 24 ≤ stop → WholeEntries m stop (a + (mmapEntry m a).size.toNat + 4) → WholeEntries m stop a

/-- The loop of `_main` comes to an end, after a pass for every 4 bytes at
most, with no pointer past the end of memory. -/
structure WalkEnds (m : Mem) (info : MultibootInfo) : Prop where
  returns : ∀ s total, ∃ r, mmapLoop m info.mmapAddr.toNat (info.mmapAddr.toNat + info.mmapLength.toNat) s total = some r
  passes : 4 * (mmapVisited m info.mmapAddr.toNat (info.mmapAddr.toNat + info.mmapLength.toNat)).length <
    info.mmapLength.toNat + 4
  noWrap : ∀ a ∈ mmapVisited m info.mmapAddr.toNat (info.mmapAddr.toNat + info.mmapLength.toNat),
    a + (mmapEntry m a).size.toNat + 4 < 2 ^ 64

/-- And it reads the map alone. -/
structure WalkSafe (m : Mem) (info : MultibootInfo) : Prop extends WalkEnds m info where
  inside : ∀ b ∈ mmapReads m info.mmapAddr.toNat (info.mmapAddr.toNat + info.mmapLength.toNat),
    info.mmapAddr.toNat ≤ b ∧ b < info.mmapAddr.toNat + info.mmapLength.toNat

section Walk

variable {m m' : Mem} {entry stop a b : Nat} {s : Pmm} {total : UInt64}

theorem mmapVisited_of_lt (h : entry < stop) : mmapVisited m entry stop =
    entry :: mmapVisited m (entry + (mmapEntry m entry).size.toNat + 4) stop := by
  rw [mmapVisited, if_pos h]

theorem mmapVisited_of_le (h : stop ≤ entry) : mmapVisited m entry stop = [] := by
  rw [mmapVisited, if_neg (not_lt.mpr h)]

/-- The loop is a pass for each entry visited. -/
theorem mmapLoop_eq_foldlM (m : Mem) (entry stop : Nat) : ∀ (s : Pmm) (total : UInt64),
    mmapLoop m entry stop s total = (mmapVisited m entry stop).foldlM (mmapPass m) (s, total) := by
  induction entry using mmapVisited.induct m stop with
  | case1 entry hlt ih =>
    intro s total
    rw [mmapLoop, if_pos hlt, mmapVisited_of_lt hlt, List.foldlM_cons]
    by_cases hty : (mmapEntry m entry).type = multibootMemoryAvailable
    · simp only [mmapPass, hty, if_true, Option.bind_eq_bind, Option.bind_assoc]
      congr 1
      funext t
      exact ih t _
    · simp only [mmapPass, hty, if_false]
      exact ih s total
  | case2 entry hle =>
    intro s total
    rw [mmapLoop, if_neg hle, mmapVisited_of_le (not_lt.mp hle)]
    rfl

theorem mmapPass_returns (m : Mem) (r : Pmm × UInt64) (a : Nat) : ∃ r', mmapPass m r a = some r' := by
  unfold mmapPass
  by_cases hty : (mmapEntry m a).type = multibootMemoryAvailable
  · obtain ⟨t, ht, -⟩ := pmmAddRegion_spec r.1 (mmapEntry m a).base (mmapEntry m a).length
    exact ⟨_, by simp only [hty, if_true, ht]; rfl⟩
  · exact ⟨r, by simp only [hty, if_false]⟩

theorem mmapLoop_returns (m : Mem) (entry stop : Nat) (s : Pmm) (total : UInt64) :
    ∃ r, mmapLoop m entry stop s total = some r := by
  have hpass : ∀ a ∈ mmapVisited m entry stop, ∀ r, True → ∃ r', mmapPass m r a = some r' ∧ True := by
    intro a _ r _
    obtain ⟨r', hr'⟩ := mmapPass_returns m r a
    exact ⟨r', hr', trivial⟩
  obtain ⟨r, hr, -⟩ := Runs.foldlM_total (fun _ => True) (s := (s, total)) trivial hpass
  exact ⟨r, by rw [mmapLoop_eq_foldlM, hr]⟩

/-- What a pass does is settled by the bytes it reads. -/
theorem mmapEntry_congr (h : ∀ b ∈ entryReads m a, m' b = m b) :
    (mmapEntry m' a).size = (mmapEntry m a).size ∧ (mmapEntry m' a).type = (mmapEntry m a).type ∧
      ((mmapEntry m a).type = multibootMemoryAvailable → mmapEntry m' a = mmapEntry m a) := by
  have hload : ∀ k, (∀ b ∈ List.range' k 4, m' b = m b) → load32 m' k = load32 m k := by
    intro k hb
    unfold load32
    rw [load_congr fun x h1 h2 => hb x (List.mem_range'_1.mpr ⟨h1, h2⟩)]
  unfold entryReads at h
  simp only [List.mem_append] at h
  have hsize : load32 m' a = load32 m a := hload a fun b hb => h b (.inr hb)
  have htype : load32 m' (a + 20) = load32 m (a + 20) := hload _ fun b hb => h b (.inl (.inl hb))
  refine ⟨hsize, htype, ?_⟩
  intro hty
  simp only [hty, if_true, List.mem_append] at h
  have hregion : ∀ b, b ∈ List.range' (a + 4) 16 → m' b = m b := by
    intro b hb
    simp only [List.mem_range'_1] at hb h
    exact h b (by omega)
  have hfield : ∀ k, a + 4 ≤ k → k + 4 ≤ a + 20 → load32 m' k = load32 m k := by
    intro k h1 h2
    refine hload k fun b hb => hregion b ?_
    simp only [List.mem_range'_1] at hb ⊢
    omega
  simp only [mmapEntry, hsize, htype, hfield (a + 4) (by omega) (by omega), hfield (a + 8) (by omega) (by omega),
    hfield (a + 12) (by omega) (by omega), hfield (a + 16) (by omega) (by omega)]

/-- What the loop does is settled by the bytes it reads. -/
theorem mmapLoop_congr (h : ∀ b ∈ mmapReads m entry stop, m' b = m b) : ∀ (s : Pmm) (total : UInt64),
    mmapLoop m' entry stop s total = mmapLoop m entry stop s total := by
  induction entry using mmapVisited.induct m stop with
  | case1 entry hlt ih =>
    intro s total
    simp only [mmapReads, mmapVisited_of_lt hlt, List.flatMap_cons, List.mem_append] at h
    obtain ⟨hsize, htype, hentry⟩ := mmapEntry_congr fun b hb => h b (.inl hb)
    have hrest := ih fun b hb => h b (.inr hb)
    rw [mmapLoop, mmapLoop, if_pos hlt, if_pos hlt]
    dsimp only
    rw [htype, hsize]
    by_cases hty : (mmapEntry m entry).type = multibootMemoryAvailable
    · simp only [hty, if_true, hentry hty, hrest]
    · simp only [hty, if_false]
      exact hrest s total
  | case2 entry hle =>
    intro s total
    rw [mmapLoop, mmapLoop, if_neg hle, if_neg hle]

theorem mem_mmapVisited (h : a ∈ mmapVisited m entry stop) : entry ≤ a ∧ a < stop := by
  induction entry using mmapVisited.induct m stop with
  | case1 entry hlt ih =>
    rw [mmapVisited_of_lt hlt] at h
    rcases List.mem_cons.mp h with rfl | h
    · exact ⟨le_refl a, hlt⟩
    · have := ih h
      omega
  | case2 entry hle =>
    rw [mmapVisited_of_le (not_lt.mp hle)] at h
    cases h

theorem mmapVisited_length (m : Mem) (entry stop : Nat) :
    4 * (mmapVisited m entry stop).length < stop - entry + 4 := by
  induction entry using mmapVisited.induct m stop with
  | case1 entry hlt ih =>
    rw [mmapVisited_of_lt hlt, List.length_cons]
    omega
  | case2 entry hle =>
    rw [mmapVisited_of_le (not_lt.mp hle), List.length_nil]
    omega

theorem wholeEntries_iff : WholeEntries m stop entry ↔ ∀ a ∈ mmapVisited m entry stop, a + 24 ≤ stop := by
  induction entry using mmapVisited.induct m stop with
  | case1 entry hlt ih =>
    rw [mmapVisited_of_lt hlt, List.forall_mem_cons, ← ih]
    constructor
    · intro h
      cases h with
      | past hle => omega
      | entry hin hrest => exact ⟨hin, hrest⟩
    · intro h
      exact .entry h.1 h.2
  | case2 entry hle =>
    rw [mmapVisited_of_le (not_lt.mp hle)]
    simp only [List.not_mem_nil, false_imp_iff, implies_true, iff_true]
    exact .past (not_lt.mp hle)

theorem entryReads_mem (h : b ∈ entryReads m a) : a ≤ b ∧ b < a + 24 := by
  unfold entryReads at h
  split at h <;> simp only [List.mem_append, List.mem_range'_1, List.not_mem_nil, or_false] at h <;> omega

/-- The last byte of an entry is read, whatever its type. -/
theorem last_mem_entryReads : a + 23 ∈ entryReads m a := by
  unfold entryReads
  simp only [List.mem_append, List.mem_range'_1]
  exact .inl (.inl ⟨by omega, by omega⟩)

theorem mmapReads_inside_iff : (∀ b ∈ mmapReads m entry stop, entry ≤ b ∧ b < stop) ↔ WholeEntries m stop entry := by
  rw [wholeEntries_iff]
  constructor
  · intro h a ha
    have := h (a + 23) (List.mem_flatMap.mpr ⟨a, ha, last_mem_entryReads⟩)
    omega
  · intro h b hb
    obtain ⟨a, ha, hread⟩ := List.mem_flatMap.mp hb
    have hstart := (mem_mmapVisited ha).1
    have hend := h a ha
    have := entryReads_mem hread
    omega

/-- The walk of whole entries depends on the bytes of the map alone. -/
theorem WholeEntries.mmapLoop_congr (h : WholeEntries m stop entry)
    (hmap : ∀ b, entry ≤ b → b < stop → m' b = m b) (s : Pmm) (total : UInt64) :
    mmapLoop m' entry stop s total = mmapLoop m entry stop s total := by
  refine Tinos.mmapLoop_congr ?_ s total
  intro b hb
  obtain ⟨h1, h2⟩ := mmapReads_inside_iff.mpr h b hb
  exact hmap b h1 h2

theorem walkEnds (m : Mem) (info : MultibootInfo) : WalkEnds m info where
  returns := mmapLoop_returns m _ _
  passes := by
    have := mmapVisited_length m info.mmapAddr.toNat (info.mmapAddr.toNat + info.mmapLength.toNat)
    omega
  noWrap a ha := by
    have hlt := (mem_mmapVisited ha).2
    have haddr := info.mmapAddr.toNat_lt
    have hlength := info.mmapLength.toNat_lt
    have hsize := (mmapEntry m a).size.toNat_lt
    omega

theorem WholeEntries.walkSafe {info : MultibootInfo}
    (h : WholeEntries m (info.mmapAddr.toNat + info.mmapLength.toNat) info.mmapAddr.toNat) : WalkSafe m info :=
  ⟨walkEnds m info, mmapReads_inside_iff.mpr h⟩

/-- A map laid out as the multiboot header says is walked safely. -/
theorem MapAt.walkSafe {info : MultibootInfo} {es : List MmapEntry}
    (h : MapAt m info.mmapAddr.toNat es (info.mmapAddr.toNat + info.mmapLength.toNat)) : WalkSafe m info := by
  have hwhole : ∀ {a es stop}, MapAt m a es stop → WholeEntries m stop a := by
    intro a es stop h
    induction h with
    | nil => exact .past (le_refl _)
    | cons hsize hes ih =>
      have := hes.le
      exact .entry (by omega) ih
  exact (hwhole h).walkSafe

end Walk

/-- **The walk ends on any map**, and reads nothing outside it if and only if
each entry that starts in the map has its 24 bytes there. -/
theorem walk_safe_iff (m : Mem) (info : MultibootInfo) : WalkEnds m info ∧
    (WalkSafe m info ↔ WholeEntries m (info.mmapAddr.toNat + info.mmapLength.toNat) info.mmapAddr.toNat) := by
  refine ⟨walkEnds m info, ?_, WholeEntries.walkSafe⟩
  intro hsafe
  exact mmapReads_inside_iff.mp hsafe.inside

/-- One available entry of 1 MiB at 1 MiB, laid out at `0x9000`. -/
def oneEntryMap : Mem := fun a =>
  [20, 0, 0, 0, 0, 0, 0x10, 0, 0, 0, 0, 0, 0, 0, 0x10, 0, 0, 0, 0, 0, 1, 0, 0, 0].getD (a - 0x9000) 0

/-- A second entry of which 4 bytes are left: its type is read past the end. -/
theorem truncated_entry_read_past : 0x902F ∈ mmapReads oneEntryMap 0x9000 (0x9000 + 28) ∧
    ¬ WalkSafe oneEntryMap ⟨28, 0x9000⟩ := by
  have hsize : (mmapEntry oneEntryMap 0x9000).size.toNat = 20 := by decide
  have hread : 0x902F ∈ mmapReads oneEntryMap 0x9000 (0x9000 + 28) := by
    unfold mmapReads
    rw [mmapVisited_of_lt (by decide), hsize, mmapVisited_of_lt (by decide), List.flatMap_cons, List.flatMap_cons]
    exact List.mem_append_right _ (List.mem_append_left _ last_mem_entryReads)
  refine ⟨hread, ?_⟩
  intro hsafe
  have hin := (hsafe.inside 0x902F hread).2
  exact absurd hin (by decide)

end Tinos
