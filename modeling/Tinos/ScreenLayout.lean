/-
What the text screen is for: text laid out in rows of 80 columns without end,
of which the screen shows the last 60 (`screen_shows_tail`).
-/
import Tinos.Screen

namespace Tinos

open Runs

/-! ## The layout -/

/-- Rows of 80 columns, and the row and column of the next character. -/
structure Layout where
  cell : Nat → Nat → UInt8
  row : Nat
  col : Nat

def Layout.empty : Layout := ⟨fun _ _ => space, 0, 0⟩

def Layout.setCell (l : Layout) (row col : Nat) (c : UInt8) : Nat → Nat → UInt8 :=
  fun i j => if i = row ∧ j = col then c else l.cell i j

/-- A newline starts a row, a backspace blanks the cell before the cursor and
steps back onto it unless it starts a row, and any other character fills a
cell. -/
def Layout.put (l : Layout) (c : UInt8) : Layout :=
  if c == newline then ⟨l.cell, l.row + 1, 0⟩
  else if c == backspace then
    if l.col = 0 then l else ⟨l.setCell l.row (l.col - 1) space, l.row, l.col - 1⟩
  else if l.col + 1 < 80 then ⟨l.setCell l.row l.col c, l.row, l.col + 1⟩
  else ⟨l.setCell l.row l.col c, l.row + 1, 0⟩

/-- The first of the last 60 rows. -/
def Layout.top (l : Layout) : Nat := l.row + 1 - 60

/-- The layout's rows are the tape's from row `base` on. -/
structure Layout.OnTape (base : Nat) (l : Layout) (t : Tape) : Prop where
  col_lt : l.col < 80
  pos : t.pos = (base + l.row) * 80 + l.col
  cells : ∀ i, ∀ j < 80, t.entries ((base + i) * 80 + j) = vgaEntry (l.cell i j) defaultColor

section Layout

variable {base : Nat} {l : Layout} {t : Tape} {s : Screen} {c : UInt8} {i j : Nat}

theorem Layout.OnTape.setCell (h : l.OnTape base t) (hj : j < 80) {row col : Nat} (hcol : col < 80) :
    Layout.OnTape base ⟨l.setCell i j c, row, col⟩
      ⟨Function.update t.entries ((base + i) * 80 + j) (vgaEntry c defaultColor), (base + row) * 80 + col⟩ where
  col_lt := hcol
  pos := rfl
  cells := by
    intro i' j' hj'
    show Function.update t.entries _ _ _ = vgaEntry (if i' = i ∧ j' = j then c else l.cell i' j') defaultColor
    by_cases heq : i' = i ∧ j' = j
    · rw [if_pos heq, heq.1, heq.2, Function.update_self]
    · rw [if_neg heq, Function.update_of_ne (by omega), h.cells i' j' hj']

/-- A character put on the layout is put on the tape. -/
theorem Layout.OnTape.put (h : l.OnTape base t) (c : UInt8) : (l.put c).OnTape base (t.put c) := by
  have hcol := h.col_lt
  have hpos := h.pos
  unfold Layout.put Tape.put
  split
  · have hrow : (t.pos / 80 + 1) * 80 = (base + (l.row + 1)) * 80 + 0 := by omega
    exact ⟨Nat.zero_lt_succ _, hrow, h.cells⟩
  split
  · by_cases h0 : l.col = 0
    · rw [if_pos h0, if_pos (beq_iff_eq.mpr (by omega))]
      exact h
    · have hprev : t.pos - 1 = (base + l.row) * 80 + (l.col - 1) := by omega
      have hcol' : l.col - 1 < 80 := by omega
      rw [if_neg h0, if_neg (by rw [beq_iff_eq]; omega), hprev]
      exact h.setCell hcol' hcol'
  · by_cases hwrap : l.col + 1 < 80
    · have hnext : t.pos + 1 = (base + l.row) * 80 + (l.col + 1) := by omega
      rw [if_pos hwrap, hnext, hpos]
      exact h.setCell hcol hwrap
    · have hnext : t.pos + 1 = (base + (l.row + 1)) * 80 + 0 := by omega
      rw [if_neg hwrap, hnext, hpos]
      exact h.setCell hcol (by decide)

theorem Layout.row_le_put : l.row ≤ (l.put c).row := by
  unfold Layout.put
  split
  · exact Nat.le_succ l.row
  split
  · split
    · exact Nat.le_refl l.row
    · exact Nat.le_refl l.row
  · split
    · exact Nat.le_refl l.row
    · exact Nat.le_succ l.row

/-- The screen after `clear_screen`. -/
theorem clearScreen_shows (s : Screen) : ∃ s', clearScreen s = some s' ∧ s'.scrolled = s.scrolled ∧
    s'.crtc.cursor = s'.cursorY * 80 + s'.cursorX ∧ Shows s' ⟨fun _ => blank, s.scrolled * 80⟩ := by
  refine ⟨_, clearScreen_eq s, rfl, updateCursor_cursor (by decide) (by decide),
    ⟨Nat.zero_lt_succ _, rfl, ?_, fun _ _ => rfl⟩, Nat.zero_lt_succ _⟩
  intro i hi
  exact if_pos ⟨Nat.zero_le i, hi⟩

/-- The screen shows the last 60 rows of the layout whose rows begin at `base`. -/
structure ShowsTail (base : Nat) (s : Screen) (l : Layout) : Prop where
  tape : ∃ t, Shows s t ∧ l.OnTape base t
  scrolled : s.scrolled = base + l.top
  cursor : s.crtc.cursor = s.cursorY * 80 + s.cursorX

theorem ShowsTail.put (h : ShowsTail base s l) (c : UInt8) :
    ∃ s', putchar s c = some s' ∧ ShowsTail base s' (l.put c) := by
  obtain ⟨⟨t, hshows, hl⟩, hscrolled, -⟩ := h
  obtain ⟨s', hput, hshows', hcursor, hscrolled'⟩ := putchar_shows hshows c
  have hl' := hl.put c
  refine ⟨s', hput, ⟨t.put c, hshows', hl'⟩, ?_, hcursor⟩
  have hrow : (t.put c).pos / 80 = base + (l.put c).row := by
    rw [hl'.pos, Nat.add_comm, Nat.add_mul_div_right _ _ (by decide), Nat.div_eq_of_lt hl'.col_lt, Nat.zero_add]
  have hle := Layout.row_le_put (l := l) (c := c)
  rw [hscrolled', hrow, hscrolled, Layout.top, Layout.top]
  omega

theorem ShowsTail.run (h : ShowsTail base s l) (bytes : List UInt8) :
    ∃ s', bytes.foldlM putchar s = some s' ∧ ShowsTail base s' (bytes.foldl Layout.put l) := by
  induction bytes generalizing s l with
  | nil => exact ⟨s, rfl, h⟩
  | cons c bytes ih =>
    obtain ⟨s₁, hput, h₁⟩ := h.put c
    obtain ⟨s₂, hrest, h₂⟩ := ih h₁
    refine ⟨s₂, ?_, h₂⟩
    rw [List.foldlM_cons, hput]
    exact hrest

/-- **The screen shows the tail of what was printed.** After `clear_screen` and
`putchar` of each byte, no access was outside the buffer, its cells are the last
60 rows of the layout, and both cursors are the layout's. -/
theorem screen_shows_tail (s : Screen) (bytes : List UInt8) :
    ∃ s', (clearScreen s).bind (fun s => bytes.foldlM putchar s) = some s' ∧
      (let l := bytes.foldl Layout.put .empty
       (∀ i < 60, ∀ j < 80, s'.cells (i * 80 + j) = vgaEntry (l.cell (l.top + i) j) 0x07) ∧
       s'.cursorX = l.col ∧ l.top + s'.cursorY = l.row ∧ s'.cursorX < 80 ∧ s'.cursorY < 60 ∧
       s'.crtc.cursor = s'.cursorY * 80 + s'.cursorX) := by
  obtain ⟨s₀, hclear, hscrolled, hcursor, hshows⟩ := clearScreen_shows s
  have hempty : Layout.OnTape s.scrolled .empty ⟨fun _ => blank, s.scrolled * 80⟩ :=
    ⟨Nat.zero_lt_succ _, rfl, fun _ _ _ => rfl⟩
  obtain ⟨s', hrun, ⟨t, hshows', hl⟩, hscrolled', hcursor'⟩ :=
    ShowsTail.run (l := .empty) ⟨⟨_, hshows, hempty⟩, hscrolled, hcursor⟩ bytes
  refine ⟨s', by rw [hclear]; exact hrun, ?_, ?_, ?_, hshows'.x_lt, hshows'.y_lt, hcursor'⟩
  · intro i hi j hj
    rw [hshows'.shown _ (by omega), hscrolled', ← Nat.add_assoc, ← Nat.add_mul, Nat.add_assoc, hl.cells _ j hj]
    rfl
  · have hx := hshows'.x_lt
    have hcol := hl.col_lt
    have hpos := hl.pos.symm.trans hshows'.pos
    omega
  · have hx := hshows'.x_lt
    have hcol := hl.col_lt
    have hpos := hl.pos.symm.trans hshows'.pos
    omega

end Layout

end Tinos
