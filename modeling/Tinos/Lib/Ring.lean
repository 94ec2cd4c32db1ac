/-
A ring of `cap` slots between two indices: `tail` is the next slot to take
from, `head` the next to fill, and the ring is empty where they meet. One slot
stays free, so a full ring holds `cap - 1`.

`contents_push` and `contents_pop`: what lies from `tail` to `head` is a queue.
-/
import Mathlib.Data.List.Basic
import Mathlib.Logic.Function.Basic

namespace Ring

variable {α : Type} {cap tail head i : Nat} {slots : Nat → α} {v : α}

/-- How many slots lie from `tail` up to `head`. -/
def used (cap tail head : Nat) : Nat :=
  if tail ≤ head then head - tail else head + cap - tail

/-- What lies from `tail` up to `head`, oldest first. -/
def contents (slots : Nat → α) (cap tail head : Nat) : List α :=
  (List.range (used cap tail head)).map fun i => slots ((tail + i) % cap)

/-! ## Indices -/

theorem next_eq (hi : i < cap) : (i + 1) % cap = if i + 1 = cap then 0 else i + 1 := by
  split
  · next h => rw [h, Nat.mod_self]
  · next h => exact Nat.mod_eq_of_lt (by omega)

theorem next_lt (hi : i < cap) : (i + 1) % cap < cap :=
  Nat.mod_lt _ (by omega)

theorem used_eq_zero_iff (ht : tail < cap) : used cap tail head = 0 ↔ head = tail := by
  unfold used
  split
  · omega
  · omega

theorem used_push (ht : tail < cap) (hh : head < cap) (hroom : (head + 1) % cap ≠ tail) :
    used cap tail ((head + 1) % cap) = used cap tail head + 1 := by
  rw [next_eq hh] at hroom ⊢
  by_cases hwrap : head + 1 = cap
  · rw [if_pos hwrap] at hroom ⊢
    rw [used, used, if_neg (by omega), if_pos (by omega)]
    omega
  · rw [if_neg hwrap] at hroom ⊢
    unfold used
    split
    · rw [if_pos (by omega)]
      omega
    · rw [if_neg (by omega)]
      omega

theorem used_pop (ht : tail < cap) (hh : head < cap) (hne : head ≠ tail) :
    used cap tail head = used cap ((tail + 1) % cap) head + 1 := by
  rw [next_eq ht]
  by_cases hwrap : tail + 1 = cap
  · rw [if_pos hwrap, used, used, if_neg (by omega), if_pos (by omega)]
    omega
  · rw [if_neg hwrap]
    unfold used
    split
    · rw [if_pos (by omega)]
      omega
    · rw [if_neg (by omega)]
      omega

/-- The head closes in on the tail only when all slots but one are used. -/
theorem used_full (hh : head < cap) (hfull : (head + 1) % cap = tail) : used cap tail head = cap - 1 := by
  rw [next_eq hh] at hfull
  by_cases hwrap : head + 1 = cap
  · rw [if_pos hwrap] at hfull
    rw [used, if_pos (by omega)]
    omega
  · rw [if_neg hwrap] at hfull
    rw [used, if_neg (by omega)]
    omega

/-- `used` slots on from the tail is the head. -/
theorem tail_add_used (ht : tail < cap) (hh : head < cap) : (tail + used cap tail head) % cap = head := by
  unfold used
  split
  · rw [Nat.add_sub_cancel' ‹_›, Nat.mod_eq_of_lt hh]
  · rw [show tail + (head + cap - tail) = head + cap by omega, Nat.add_mod_right, Nat.mod_eq_of_lt hh]

theorem slot_ne_head (ht : tail < cap) (hh : head < cap) (hi : i < used cap tail head) : (tail + i) % cap ≠ head := by
  unfold used at hi
  split at hi
  · rw [Nat.mod_eq_of_lt (by omega)]
    omega
  · by_cases hwrap : tail + i < cap
    · rw [Nat.mod_eq_of_lt hwrap]
      omega
    · rw [Nat.mod_eq_sub_mod (by omega), Nat.mod_eq_of_lt (by omega)]
      omega

/-! ## The queue -/

theorem contents_length : (contents slots cap tail head).length = used cap tail head := by
  rw [contents, List.length_map, List.length_range]

theorem contents_eq_nil_iff (ht : tail < cap) : contents slots cap tail head = [] ↔ head = tail := by
  rw [← List.length_eq_zero_iff, contents_length, used_eq_zero_iff ht]

/-- Filling the head's slot and moving on appends. -/
theorem contents_push (ht : tail < cap) (hh : head < cap) (hroom : (head + 1) % cap ≠ tail) :
    contents (Function.update slots head v) cap tail ((head + 1) % cap) = contents slots cap tail head ++ [v] := by
  have hsame : ∀ i ∈ List.range (used cap tail head),
      Function.update slots head v ((tail + i) % cap) = slots ((tail + i) % cap) := fun i hi =>
    Function.update_of_ne (slot_ne_head ht hh (List.mem_range.mp hi)) v slots
  rw [contents, used_push ht hh hroom, List.range_succ, List.map_append, List.map_congr_left hsame, List.map_singleton,
    tail_add_used ht hh, Function.update_self, contents]

/-- The tail's slot is the oldest, and moving on drops it. -/
theorem contents_pop (ht : tail < cap) (hh : head < cap) (hne : head ≠ tail) :
    contents slots cap tail head = slots tail :: contents slots cap ((tail + 1) % cap) head := by
  rw [contents, used_pop ht hh hne, List.range_succ_eq_map, List.map_cons, List.map_map, Nat.add_zero,
    Nat.mod_eq_of_lt ht, contents]
  refine congrArg (slots tail :: ·) (List.map_congr_left fun i _ => ?_)
  show slots ((tail + (i + 1)) % cap) = slots (((tail + 1) % cap + i) % cap)
  rw [Nat.mod_add_mod, Nat.add_right_comm, Nat.add_assoc]

end Ring
