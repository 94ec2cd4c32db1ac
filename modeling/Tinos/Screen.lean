/-
The text screen of `lib/std/stdio.c`: 60 rows of 80 cells at `vga_buffer`, the
cursor, and the cursor of the CRT controller behind ports 0x3D4 and 0x3D5.

What the screen shows is a window of 60 rows onto a tape (`Shows`): `putchar`
writes at the tape's position, and the window moves down a row where the cursor
leaves it (`putchar_shows`).
-/
import Mathlib.Logic.Function.Basic
import Tinos.Lib.Runs

namespace Tinos

open Runs

def newline : UInt8 := 10
def backspace : UInt8 := 8
def space : UInt8 := 32

def vgaWidth : Nat := 80
def vgaHeight : Nat := 60
def defaultColor : UInt8 := 0x07

/-! ## The CRT controller -/

structure Crtc where
  index : UInt8
  registers : UInt8 → UInt8

def Crtc.outb (io : Crtc) (port : UInt16) (value : UInt8) : Crtc :=
  if port == 0x3D4 then { io with index := value }
  else if port == 0x3D5 then { io with registers := Function.update io.registers io.index value }
  else io

/-- The cursor location: register 0x0E is its high byte, 0x0F its low byte. -/
def Crtc.cursor (io : Crtc) : Nat := 256 * (io.registers 0x0E).toNat + (io.registers 0x0F).toNat

/-! ## The screen -/

/-- The statics of `stdio.c`. `scrolled` counts the calls of `scroll_screen`
and is read by nothing. -/
structure Screen where
  cells : Nat → UInt16
  cursorX : Nat
  cursorY : Nat
  crtc : Crtc
  scrolled : Nat

/-- A cell outside the buffer is not loaded or stored. -/
def vgaLoad (s : Screen) (i : Nat) : Option UInt16 :=
  if i < vgaHeight * vgaWidth then some (s.cells i) else none

def vgaStore (s : Screen) (i : Nat) (entry : UInt16) : Option Screen :=
  if i < vgaHeight * vgaWidth then some { s with cells := Function.update s.cells i entry } else none

def vgaEntry (c color : UInt8) : UInt16 := (color.toUInt16 <<< 8) ||| c.toUInt16

def updateCursor (s : Screen) (x y : Nat) : Screen :=
  let pos := UInt16.ofNat (y * vgaWidth + x)
  let crtc := s.crtc.outb 0x3D4 0x0F
  let crtc := crtc.outb 0x3D5 (pos &&& 0xFF).toUInt8
  let crtc := crtc.outb 0x3D4 0x0E
  let crtc := crtc.outb 0x3D5 ((pos >>> 8) &&& 0xFF).toUInt8
  { s with crtc }

def clearScreen (s : Screen) : Option Screen := do
  let s ← (List.range vgaHeight).foldlM (fun s y =>
    (List.range vgaWidth).foldlM (fun s x => vgaStore s (y * vgaWidth + x) (vgaEntry space defaultColor)) s) s
  let s := { s with cursorX := 0, cursorY := 0 }
  return updateCursor s s.cursorX s.cursorY

def scrollScreen (s : Screen) : Option Screen := do
  let s ← (List.range' 1 (vgaHeight - 1)).foldlM (fun s y =>
    (List.range vgaWidth).foldlM (fun s x => do
      let entry ← vgaLoad s (y * vgaWidth + x)
      vgaStore s ((y - 1) * vgaWidth + x) entry) s) s
  let s ← (List.range vgaWidth).foldlM (fun s x =>
    vgaStore s ((vgaHeight - 1) * vgaWidth + x) (vgaEntry space 0x07)) s
  let s := { s with scrolled := s.scrolled + 1 }
  return if s.cursorY > 0 then { s with cursorY := s.cursorY - 1 } else s

/-- The cell that `putchar` writes, and its move of the cursor. -/
def drawChar (s : Screen) (c : UInt8) : Option Screen :=
  if c == newline then some { s with cursorX := 0, cursorY := s.cursorY + 1 }
  else if c == backspace then
    if s.cursorX > 0 then
      let s := { s with cursorX := s.cursorX - 1 }
      vgaStore s (s.cursorY * vgaWidth + s.cursorX) (vgaEntry space defaultColor)
    else some s
  else do
    let s ← vgaStore s (s.cursorY * vgaWidth + s.cursorX) (vgaEntry c defaultColor)
    let s := { s with cursorX := s.cursorX + 1 }
    return if s.cursorX ≥ vgaWidth then { s with cursorX := 0, cursorY := s.cursorY + 1 } else s

/-- The end of `putchar`: a cursor below the last row scrolls. -/
def keepInside (s : Screen) : Option Screen :=
  if s.cursorY ≥ vgaHeight then do
    let s ← scrollScreen s
    return { s with cursorY := vgaHeight - 1 }
  else some s

def putchar (s : Screen) (c : UInt8) : Option Screen := do
  let s ← drawChar s c
  let s ← keepInside s
  return updateCursor s s.cursorX s.cursorY

def blank : UInt16 := vgaEntry space defaultColor

/-! ## The tape -/

/-- The cells of all rows one after another, without end, and the next to be
written. -/
structure Tape where
  entries : Nat → UInt16
  pos : Nat

def Tape.put (t : Tape) (c : UInt8) : Tape :=
  if c == newline then { t with pos := (t.pos / 80 + 1) * 80 }
  else if c == backspace then
    if t.pos % 80 == 0 then t else ⟨Function.update t.entries (t.pos - 1) blank, t.pos - 1⟩
  else ⟨Function.update t.entries t.pos (vgaEntry c defaultColor), t.pos + 1⟩

/-- The buffer is the tape from the first row not scrolled away, and nothing
has been written past it. The cursor may be below the last row. -/
structure Tracks (s : Screen) (t : Tape) : Prop where
  x_lt : s.cursorX < 80
  pos : t.pos = (s.scrolled + s.cursorY) * 80 + s.cursorX
  shown : ∀ i < 4800, s.cells i = t.entries (s.scrolled * 80 + i)
  ahead : ∀ i, (s.scrolled + 60) * 80 ≤ i → t.entries i = blank

/-- A window of 60 rows onto the tape, which the cursor is in. -/
structure Shows (s : Screen) (t : Tape) : Prop extends Tracks s t where
  y_lt : s.cursorY < 60

/-! ## Loops over the cells -/

/-- The screen with the cells from `lo` up to `hi` set to what `f` gives. -/
def Screen.paint (s : Screen) (lo hi : Nat) (f : Nat → UInt16) : Screen :=
  { s with cells := fun i => if lo ≤ i ∧ i < hi then f i else s.cells i }

section Loops

variable {s : Screen} {lo hi y : Nat} {f : Nat → UInt16}

theorem vgaLoad_eq {i : Nat} (hi : i < 4800) : vgaLoad s i = some (s.cells i) :=
  if_pos hi

theorem vgaStore_eq {i : Nat} {entry : UInt16} (hi : i < 4800) :
    vgaStore s i entry = some { s with cells := Function.update s.cells i entry } :=
  if_pos hi

theorem paint_empty (s : Screen) (lo : Nat) (f : Nat → UInt16) : s.paint lo lo f = s := by
  have hcells : (s.paint lo lo f).cells = s.cells := funext fun i => if_neg (by omega)
  exact congrArg (fun cells => { s with cells }) hcells

/-- One more store. -/
theorem vgaStore_paint (hlo : lo ≤ hi) (hhi : hi < 4800) :
    vgaStore (s.paint lo hi f) hi (f hi) = some (s.paint lo (hi + 1) f) := by
  have hcells : Function.update (s.paint lo hi f).cells hi (f hi) = (s.paint lo (hi + 1) f).cells := by
    funext i
    by_cases hi' : i = hi
    · subst hi'
      rw [Function.update_self]
      exact (if_pos ⟨hlo, Nat.lt_succ_self i⟩).symm
    · rw [Function.update_of_ne hi']
      simp only [Screen.paint]
      exact if_congr (by omega) rfl rfl
  rw [vgaStore_eq hhi, hcells]
  rfl

/-- A row of stores, cell by cell. -/
theorem row_paint {g : Screen → Nat → Option Screen} (hy : y < 60) (hlo : lo ≤ y * 80)
    (hg : ∀ x < 80, g (s.paint lo (y * 80 + x) f) x = vgaStore (s.paint lo (y * 80 + x) f) (y * 80 + x) (f (y * 80 + x))) :
    (List.range vgaWidth).foldlM g (s.paint lo (y * 80) f) = some (s.paint lo ((y + 1) * 80) f) := by
  rw [Nat.add_one_mul]
  exact foldlM_range (fun x => s.paint lo (y * 80 + x) f) fun x hx => by
    have hx : x < 80 := hx
    rw [hg x hx, vgaStore_paint (by omega) (by omega)]
    rfl

/-- `clear_screen` returns, with every cell blank and the cursors at the top left. -/
theorem clearScreen_eq (s : Screen) : clearScreen s =
    some (updateCursor { s.paint 0 4800 (fun _ => blank) with cursorX := 0, cursorY := 0 } 0 0) := by
  have hrows : (List.range vgaHeight).foldlM (fun s y =>
      (List.range vgaWidth).foldlM (fun s x => vgaStore s (y * vgaWidth + x) (vgaEntry space defaultColor)) s) s =
      some (s.paint 0 4800 fun _ => blank) := by
    conv_lhs => rw [← paint_empty s 0 fun _ => blank]
    refine foldlM_range (fun y => s.paint 0 (y * 80) fun _ => blank) ?_
    intro y hy
    exact row_paint hy (Nat.zero_le _) fun x _ => rfl
  rw [clearScreen, hrows]
  rfl

/-- Every cell of the scrolled screen: the one a row below, and blanks in the last row. -/
def scrolledCells (s : Screen) (i : Nat) : UInt16 :=
  if i < 4720 then s.cells (i + 80) else blank

theorem scrollScreen_eq (s : Screen) : scrollScreen s =
    some { s.paint 0 4800 (scrolledCells s) with cursorY := s.cursorY - 1, scrolled := s.scrolled + 1 } := by
  have hcopy : (List.range' 1 (vgaHeight - 1)).foldlM (fun s y =>
      (List.range vgaWidth).foldlM (fun s x => do
        let entry ← vgaLoad s (y * vgaWidth + x)
        vgaStore s ((y - 1) * vgaWidth + x) entry) s) s = some (s.paint 0 4720 (scrolledCells s)) := by
    conv_lhs => rw [← paint_empty s 0 (scrolledCells s)]
    refine foldlM_range' (fun y => s.paint 0 ((y - 1) * 80) (scrolledCells s)) (a := 1) (n := 59) ?_
    intro y hy hy'
    obtain ⟨y, rfl⟩ := Nat.exists_eq_add_of_le' hy
    refine row_paint (by omega) (Nat.zero_le _) ?_
    intro x hx
    rw [Nat.add_sub_cancel]
    have hload : vgaLoad (s.paint 0 (y * 80 + x) (scrolledCells s)) ((y + 1) * vgaWidth + x) =
        some (scrolledCells s (y * 80 + x)) := by
      have hbelow : (y + 1) * vgaWidth + x = y * 80 + x + 80 := by
        rw [vgaWidth]
        omega
      rw [hbelow, vgaLoad_eq (by omega), scrolledCells, if_pos (by omega)]
      exact congrArg some (if_neg (by omega))
    rw [hload]
    rfl
  have hlast : (List.range vgaWidth).foldlM (fun s x =>
      vgaStore s ((vgaHeight - 1) * vgaWidth + x) (vgaEntry space 0x07))
      (s.paint 0 4720 (scrolledCells s)) = some (s.paint 0 4800 (scrolledCells s)) := by
    refine row_paint (y := 59) (by decide) (Nat.zero_le _) ?_
    intro x hx
    rw [scrolledCells, if_neg (show ¬ 59 * 80 + x < 4720 by omega)]
    rfl
  rw [scrollScreen, hcopy, Option.bind_eq_bind, Option.bind_some, hlast, Option.bind_some]
  by_cases hy : s.cursorY > 0
  · exact congrArg some (if_pos hy)
  · have hy' : s.cursorY = s.cursorY - 1 := by omega
    refine congrArg some ((if_neg hy).trans ?_)
    exact congrArg (fun y => { s.paint 0 4800 (scrolledCells s) with cursorY := y, scrolled := s.scrolled + 1 }) hy'

end Loops

section Tape

variable {s : Screen} {t : Tape} {i x y : Nat}

/-! ## The cursor -/

theorem updateCursor_cursor (hx : x < 80) (hy : y < 60) : (updateCursor s x y).crtc.cursor = y * 80 + x := by
  have hpos : (UInt16.ofNat (y * vgaWidth + x)).toNat = y * 80 + x :=
    UInt16.toNat_ofNat_of_lt (show y * 80 + x < 65536 by omega)
  have hlow : ((UInt16.ofNat (y * vgaWidth + x) &&& 0xFF).toUInt8).toNat = (y * 80 + x) % 256 := by
    rw [UInt16.toNat_toUInt8, UInt16.toNat_and, hpos, show (0xFF : UInt16).toNat = 2 ^ 8 - 1 from rfl,
      Nat.and_two_pow_sub_one_eq_mod]
    omega
  have hhigh : (((UInt16.ofNat (y * vgaWidth + x) >>> 8) &&& 0xFF).toUInt8).toNat = (y * 80 + x) / 256 := by
    rw [UInt16.toNat_toUInt8, UInt16.toNat_and, UInt16.toNat_shiftRight, hpos,
      show (0xFF : UInt16).toNat = 2 ^ 8 - 1 from rfl, show (8 : UInt16).toNat % 16 = 8 from rfl,
      Nat.and_two_pow_sub_one_eq_mod, Nat.shiftRight_eq_div_pow]
    omega
  have hregisters : (updateCursor s x y).crtc.cursor =
      256 * (((UInt16.ofNat (y * vgaWidth + x) >>> 8) &&& 0xFF).toUInt8).toNat +
        ((UInt16.ofNat (y * vgaWidth + x) &&& 0xFF).toUInt8).toNat := rfl
  rw [hregisters, hlow, hhigh]
  omega

/-! ## Steps -/

/-- A store inside the window writes the tape, and the cursor moves. -/
theorem Tracks.draw (h : Tracks s t) (entry : UInt16) (y : Nat) (hi : i < 4800) (hx : x < 80) :
    Tracks { s with cells := Function.update s.cells i entry, cursorX := x, cursorY := y }
      ⟨Function.update t.entries (s.scrolled * 80 + i) entry, (s.scrolled + y) * 80 + x⟩ where
  x_lt := hx
  pos := rfl
  shown := by
    intro j hj
    show Function.update s.cells i entry j =
      Function.update t.entries (s.scrolled * 80 + i) entry (s.scrolled * 80 + j)
    by_cases hij : j = i
    · subst hij
      rw [Function.update_self, Function.update_self]
    · rw [Function.update_of_ne hij, Function.update_of_ne (by omega), h.shown j hj]
  ahead := by
    intro j hj
    have hne : j ≠ s.scrolled * 80 + i := by
      have hj : (s.scrolled + 60) * 80 ≤ j := hj
      omega
    exact (Function.update_of_ne hne entry t.entries).trans (h.ahead j hj)

theorem drawChar_tracks (h : Tracks s t) (hy : s.cursorY < 60) (c : UInt8) :
    ∃ s', drawChar s c = some s' ∧ Tracks s' (t.put c) ∧ s'.cursorY ≤ 60 ∧ s'.scrolled = s.scrolled := by
  have hx := h.x_lt
  have hpos := h.pos
  unfold drawChar Tape.put
  split
  · have hrow : (t.pos / 80 + 1) * 80 = (s.scrolled + (s.cursorY + 1)) * 80 + 0 := by omega
    rw [hrow]
    exact ⟨_, rfl, ⟨Nat.zero_lt_succ _, rfl, h.shown, h.ahead⟩, hy, rfl⟩
  split
  · by_cases h0 : s.cursorX > 0
    · have hcol : (t.pos % 80 == 0) = false := beq_eq_false_iff_ne.mpr (by omega)
      have hcell : s.cursorY * 80 + (s.cursorX - 1) < 4800 := by omega
      have hprev : t.pos - 1 = s.scrolled * 80 + (s.cursorY * 80 + (s.cursorX - 1)) := by omega
      have hprev' : t.pos - 1 = (s.scrolled + s.cursorY) * 80 + (s.cursorX - 1) := by omega
      have hdraw := h.draw blank s.cursorY hcell (show s.cursorX - 1 < 80 by omega)
      rw [← hprev, ← hprev'] at hdraw
      rw [if_pos h0, hcol, if_neg Bool.false_ne_true]
      exact ⟨_, vgaStore_eq hcell, hdraw, Nat.le_of_lt hy, rfl⟩
    · have hcol : (t.pos % 80 == 0) = true := beq_iff_eq.mpr (by omega)
      rw [if_neg h0, hcol, if_pos rfl]
      exact ⟨s, rfl, h, Nat.le_of_lt hy, rfl⟩
  · have hcell : s.cursorY * 80 + s.cursorX < 4800 := by omega
    have hcur : t.pos = s.scrolled * 80 + (s.cursorY * 80 + s.cursorX) := by omega
    rw [show s.cursorY * vgaWidth + s.cursorX = s.cursorY * 80 + s.cursorX from rfl, vgaStore_eq hcell]
    by_cases hwrap : s.cursorX + 1 ≥ 80
    · have hnext : t.pos + 1 = (s.scrolled + (s.cursorY + 1)) * 80 + 0 := by omega
      have hdraw := h.draw (vgaEntry c defaultColor) (s.cursorY + 1) hcell (show 0 < 80 by decide)
      rw [← hcur, ← hnext] at hdraw
      exact ⟨_, congrArg some (if_pos hwrap), hdraw, hy, rfl⟩
    · have hnext : t.pos + 1 = (s.scrolled + s.cursorY) * 80 + (s.cursorX + 1) := by omega
      have hdraw := h.draw (vgaEntry c defaultColor) s.cursorY hcell (show s.cursorX + 1 < 80 by omega)
      rw [← hcur, ← hnext] at hdraw
      exact ⟨_, congrArg some (if_neg hwrap), hdraw, Nat.le_of_lt hy, rfl⟩

/-- Scrolling moves the window down one row of the tape. -/
theorem keepInside_shows (h : Tracks s t) (hy : s.cursorY ≤ 60) :
    ∃ s', keepInside s = some s' ∧ Shows s' t ∧ s'.scrolled = s.scrolled + s.cursorY / 60 := by
  have hpos := h.pos
  by_cases hlast : s.cursorY ≥ 60
  · have hshown : ∀ i < 4800, scrolledCells s i = t.entries ((s.scrolled + 1) * 80 + i) := by
      intro i hi
      rw [scrolledCells]
      split
      · rw [h.shown (i + 80) (by omega), show s.scrolled * 80 + (i + 80) = (s.scrolled + 1) * 80 + i by omega]
      · rw [h.ahead _ (by omega)]
    have hahead : ∀ i, (s.scrolled + 1 + 60) * 80 ≤ i → t.entries i = blank := fun i hi =>
      h.ahead i (Nat.le_trans (Nat.mul_le_mul_right 80 (by omega)) hi)
    have hpos' : t.pos = (s.scrolled + 1 + 59) * 80 + s.cursorX := by omega
    have hscrolled : s.scrolled + 1 = s.scrolled + s.cursorY / 60 := by omega
    refine ⟨{ s.paint 0 4800 (scrolledCells s) with cursorY := 59, scrolled := s.scrolled + 1 }, ?_,
      ⟨⟨h.x_lt, hpos', fun i hi => ?_, hahead⟩, Nat.lt_succ_self 59⟩, hscrolled⟩
    · rw [keepInside, if_pos (show s.cursorY ≥ vgaHeight from hlast), scrollScreen_eq]
      rfl
    · exact (if_pos ⟨Nat.zero_le i, hi⟩).trans (hshown i hi)
  · exact ⟨s, if_neg hlast, ⟨h, Nat.lt_of_not_ge hlast⟩, by omega⟩

/-- **`putchar` writes the tape,** in the buffer's 4800 cells, and moves the
window where the next row is past it. -/
theorem putchar_shows (h : Shows s t) (c : UInt8) :
    ∃ s', putchar s c = some s' ∧ Shows s' (t.put c) ∧ s'.crtc.cursor = s'.cursorY * 80 + s'.cursorX ∧
      s'.scrolled = max s.scrolled ((t.put c).pos / 80 - 59) := by
  obtain ⟨s₁, hdraw, htracks, hy, hscrolled₁⟩ := drawChar_tracks h.toTracks h.y_lt c
  obtain ⟨s₂, hkeep, hshows, hscrolled₂⟩ := keepInside_shows htracks hy
  have hpos := htracks.pos
  have hx := htracks.x_lt
  refine ⟨updateCursor s₂ s₂.cursorX s₂.cursorY, ?_,
    ⟨⟨hshows.x_lt, hshows.pos, hshows.shown, hshows.ahead⟩, hshows.y_lt⟩,
    updateCursor_cursor hshows.x_lt hshows.y_lt, ?_⟩
  · rw [putchar, hdraw, Option.bind_eq_bind, Option.bind_some, hkeep]
    rfl
  · show s₂.scrolled = _
    omega

end Tape

end Tinos
