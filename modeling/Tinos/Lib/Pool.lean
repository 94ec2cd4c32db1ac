/-
A pool of resources handed out one at a time: the ownership discipline of an
allocator, whatever the resource and however the allocator picks one.

`Step.takes`: in every run from a stock with nothing held, what is handed
out is of the stock and not held by anybody.
-/
import Mathlib.Data.Finset.Basic
import Tinos.Lib.Runs

namespace Pool

open Runs

variable {α : Type}

/-- What may be handed out, and what has been and is not back yet. -/
structure State (α : Type) where
  free : Finset α
  held : Finset α

inductive Event (α : Type) where
  | take (x : α)
  | give (x : α)
  /-- A refused request, or a call that changes nothing. -/
  | idle

inductive Step [DecidableEq α] : State α → Event α → State α → Prop
  | take : x ∈ p.free → Step p (.take x) ⟨p.free.erase x, insert x p.held⟩
  | give : x ∈ p.held → Step p (.give x) ⟨insert x p.free, p.held.erase x⟩
  | idle : Step p .idle p

/-- Every resource of the stock is either free or held. -/
structure Accounted (stock : Finset α) (p : State α) : Prop where
  disjoint : ∀ x ∈ p.free, x ∉ p.held
  all : ∀ x, x ∈ stock ↔ x ∈ p.free ∨ x ∈ p.held

variable {stock : Finset α} {p q : State α} {e : Event α} {es : List (Event α)} {x : α}

theorem Accounted.start : Accounted stock ⟨stock, ∅⟩ := ⟨by simp, by simp⟩

variable [DecidableEq α]

theorem Accounted.step (h : Accounted stock p) (hs : Step p e q) : Accounted stock q := by
  obtain ⟨hd, ha⟩ := h
  cases hs with
  | @take x _ hx =>
    refine ⟨?_, ?_⟩
    · intro y hy
      simp only [Finset.mem_erase, Finset.mem_insert, not_or] at hy ⊢
      exact ⟨hy.1, hd y hy.2⟩
    · intro y
      rw [ha y]
      by_cases hyx : y = x <;> simp [hyx, hx]
  | @give x _ hx =>
    refine ⟨?_, ?_⟩
    · intro y hy
      simp only [Finset.mem_erase, Finset.mem_insert, not_and] at hy ⊢
      rcases hy with rfl | hy
      · simp
      · exact fun _ => hd y hy
    · intro y
      rw [ha y]
      by_cases hyx : y = x <;> simp [hyx, hx]
  | idle => exact ⟨hd, ha⟩

theorem Steps.accounted (h : Steps Step ⟨stock, ∅⟩ es p) : Accounted stock p :=
  h.invariant (Accounted stock) .start fun _ _ _ ht hs => ht.step hs

/-- **No resource is handed out twice.** What a run hands out next is of the
stock, and nobody holds it. -/
theorem Steps.takes (h : Steps Step ⟨stock, ∅⟩ es p) (hs : Step p (.take x) q) :
    x ∈ stock ∧ x ∉ p.held := by
  have hacc := Steps.accounted h
  cases hs with
  | take hx => exact ⟨(hacc.all x).mpr (.inl hx), hacc.disjoint x hx⟩

end Pool
