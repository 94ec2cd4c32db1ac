/-
The debug console (`console/console.c`): characters from the keyboard go into a
line buffer of 128 bytes and onto the screen, and a newline runs the line.

`console_spells_iff`: the screen spells the buffer after each character, as
long as no backspace is typed with 79 characters held. The cursor is then in
the first column, where the `'\b'` that would erase the last character does
nothing, and from there on the screen is ahead of the buffer.
-/
import Mathlib.Data.List.TakeWhile
import Tinos.Printf

namespace Tinos

open Runs

/-! ## The console -/

def consoleBufferSize : Nat := 128

/-- The locals of `console`, and the screen. -/
structure Console where
  buffer : Nat → UInt8
  pos : Nat
  screen : Screen

def bufferStore (buffer : Nat → UInt8) (i : Nat) (c : UInt8) : Option (Nat → UInt8) :=
  if i < consoleBufferSize then some (Function.update buffer i c) else none

/-- A pass of the loop, for a character other than a newline. -/
def consoleKey (s : Console) (c : UInt8) : Option Console :=
  if c == 0 then some s
  else if c == backspace then
    if s.pos > 0 then do
      let screen ← putchar s.screen backspace
      let screen ← putchar screen space
      let screen ← putchar screen backspace
      return { s with pos := s.pos - 1, screen }
    else some s
  else if s.pos < consoleBufferSize - 1 then do
    let buffer ← bufferStore s.buffer s.pos c
    let screen ← putchar s.screen c
    return ⟨buffer, s.pos + 1, screen⟩
  else some s

/-! ## The newline -/

/-- The string that bytes begin with. -/
def untilNul (bytes : List UInt8) : CString where
  bytes := bytes.takeWhile (· != 0)
  nonzero := fun h => absurd (List.mem_takeWhile_imp h) (by decide)

def cstring (cs : List Char) : CString := untilNul (cs.map Char.toUInt8)

/-- The string in a buffer of `n` bytes, if it ends there. -/
def bufferString (buffer : Nat → UInt8) (n : Nat) : Option CString :=
  let bytes := (List.range n).map buffer
  if 0 ∈ bytes then some (untilNul bytes) else none

def strcmp : List UInt8 → List UInt8 → Int
  | [], [] => 0
  | [], d :: _ => 0 - (d.toNat : Int)
  | c :: _, [] => (c.toNat : Int) - 0
  | c :: s1, d :: s2 => if c == d then strcmp s1 s2 else (c.toNat : Int) - (d.toNat : Int)

def printOn (s : Screen) (fmt : CString) (args : List PrintfArg) : Option Screen :=
  let r := printf fmt args
  if r.ended then r.chars.foldlM putchar s else none

/-- What the console does next: it reads on, or the machine has stopped. -/
inductive ConsoleNext
  | reading (s : Console)
  | halted
  | off

/-- The end of a line: the screen moves up and a prompt is printed. -/
def consolePrompt (buffer : Nat → UInt8) (screen : Screen) : Option ConsoleNext := do
  let screen ← scrollScreen screen
  let screen ← printOn screen (cstring ['>']) []
  return .reading ⟨buffer, 0, screen⟩

/-- The line is ended with a NUL, and read back. -/
def enteredLine (s : Console) : Option ((Nat → UInt8) × CString) := do
  let buffer ← bufferStore s.buffer s.pos 0
  let line ← bufferString buffer consoleBufferSize
  return (buffer, line)

/-- The command that a line names. `systemShutdown` is the screen that
`system_shutdown` leaves, where it returns. -/
def runLine (systemShutdown : Screen → Option Screen) (buffer : Nat → UInt8) (line : CString) (screen : Screen) :
    Option ConsoleNext :=
  if strcmp line.bytes (cstring ['v', 'e', 'r']).bytes == 0 then do
    let screen ← printOn screen
      (cstring ['T', 'i', 'n', 'o', 's', '3', ' ', 'C', ' ', 'e', 'd', 'i', 't', 'i', 'o', 'n', '\n']) []
    consolePrompt buffer screen
  else if strcmp line.bytes (cstring ['h', 'a', 'l', 't']).bytes == 0 then some .halted
  else if strcmp line.bytes (cstring ['p', 'o', 'w', 'e', 'r', 'o', 'f', 'f']).bytes == 0 then
    match systemShutdown screen with
    | none => some .off
    | some screen => consolePrompt buffer screen
  else do
    let screen ← printOn screen
      (cstring ['U', 'n', 'k', 'n', 'o', 'w', 'n', ' ', 'c', 'o', 'm', 'm', 'a', 'n', 'd', ':', ' ', '%', 's', '\n'])
      [.str line]
    consolePrompt buffer screen

/-- A pass of the loop for a newline. -/
def consoleLine (systemShutdown : Screen → Option Screen) (s : Console) : Option ConsoleNext := do
  let (buffer, line) ← enteredLine s
  let screen ← printOn s.screen (cstring ['\n']) []
  runLine systemShutdown buffer line screen

/-! ## The line on the screen -/

/-- The cells from just after the prompt, in row `r`, up to the cursor are the
line. Rows are counted with those scrolled away. -/
structure Spells (r : Nat) (s : Console) : Prop where
  pos_le : s.pos ≤ 127
  cursor : (s.screen.scrolled + s.screen.cursorY) * 80 + s.screen.cursorX = r * 80 + 1 + s.pos
  line : ∀ i < s.pos, s.screen.scrolled * 80 ≤ r * 80 + 1 + i ∧
    s.screen.cells (r * 80 + 1 + i - s.screen.scrolled * 80) = vgaEntry (s.buffer i) defaultColor

/-- Nothing is typed, and the cursor is just after a prompt of one character. -/
structure AtPrompt (s : Console) : Prop where
  pos : s.pos = 0
  x : s.screen.cursorX = 1
  y_lt : s.screen.cursorY < 60

/-- The same of the tape that the screen shows. -/
structure LineOnTape (r : Nat) (s : Console) (t : Tape) : Prop where
  shows : Shows s.screen t
  scrolled_le : s.screen.scrolled ≤ r
  pos_le : s.pos ≤ 127
  tape_pos : t.pos = r * 80 + 1 + s.pos
  line : ∀ i < s.pos, t.entries (r * 80 + 1 + i) = vgaEntry (s.buffer i) defaultColor
  nonzero : ∀ i < s.pos, s.buffer i ≠ 0

/-- What the console writes to erase a character. -/
def Tape.erase (t : Tape) : Tape := ((t.put backspace).put space).put backspace

section Line

variable {r : Nat} {s s' : Console} {t : Tape} {c : UInt8}

/-! ## Keys -/

theorem LineOnTape.spells (h : LineOnTape r s t) : Spells r s where
  pos_le := h.pos_le
  cursor := h.shows.pos.symm.trans h.tape_pos
  line := by
    intro i hi
    have hscrolled := h.scrolled_le
    have hpos := h.tape_pos
    have htape := h.shows.pos
    have hx := h.shows.x_lt
    have hy := h.shows.y_lt
    refine ⟨by omega, ?_⟩
    rw [h.shows.shown _ (by omega), Nat.add_sub_cancel' (by omega), h.line i hi]

theorem put_space (t : Tape) : t.put space = ⟨Function.update t.entries t.pos blank, t.pos + 1⟩ := rfl

theorem put_backspace (t : Tape) : t.put backspace =
    if t.pos % 80 = 0 then t else ⟨Function.update t.entries (t.pos - 1) blank, t.pos - 1⟩ := by
  rw [Tape.put, if_neg (by decide), if_pos (by decide)]
  exact if_congr beq_iff_eq rfl rfl

/-- In the first column the cursor stays where it is, otherwise it steps back. -/
theorem erase_eq (t : Tape) : t.erase =
    if t.pos % 80 = 0 then { t with entries := Function.update t.entries t.pos blank }
    else ⟨Function.update t.entries (t.pos - 1) blank, t.pos - 1⟩ := by
  rw [Tape.erase, put_backspace t]
  by_cases hcol : t.pos % 80 = 0
  · rw [if_pos hcol, if_pos hcol, put_space, put_backspace, if_neg (show ¬ (t.pos + 1) % 80 = 0 by omega)]
    simp only [Nat.add_sub_cancel, Function.update_idem]
  · rw [if_neg hcol, if_neg hcol, put_space, put_backspace, if_neg (show ¬ (t.pos - 1 + 1) % 80 = 0 by omega)]
    simp only [Nat.add_sub_cancel, Function.update_idem]

/-- `putchar` keeps the prompt's row on the screen while the text is not 59
rows longer. -/
theorem putchar_keeps_row {sc : Screen} (h : Shows sc t) (hr : sc.scrolled ≤ r) (c : UInt8)
    (hpos : (t.put c).pos < (r + 60) * 80) :
    ∃ sc', putchar sc c = some sc' ∧ Shows sc' (t.put c) ∧ sc'.scrolled ≤ r := by
  obtain ⟨sc', hput, hshows, -, hscrolled⟩ := putchar_shows h c
  exact ⟨sc', hput, hshows, by omega⟩

/-- A character other than those that do something goes into the buffer and on
the screen. -/
theorem consoleKey_type (h : Shows s.screen t) (hr : s.screen.scrolled ≤ r) (hpos : t.pos + 1 < (r + 60) * 80)
    (h0 : c ≠ 0) (hb : c ≠ backspace) (hn : c ≠ newline) (hroom : s.pos < 127) :
    ∃ screen, consoleKey s c = some ⟨Function.update s.buffer s.pos c, s.pos + 1, screen⟩ ∧
      Shows screen ⟨Function.update t.entries t.pos (vgaEntry c defaultColor), t.pos + 1⟩ ∧ screen.scrolled ≤ r := by
  have htape : t.put c = ⟨Function.update t.entries t.pos (vgaEntry c defaultColor), t.pos + 1⟩ := by
    rw [Tape.put, if_neg (by rwa [beq_iff_eq]), if_neg (by rwa [beq_iff_eq])]
  obtain ⟨screen, hput, hshows, hscrolled⟩ := putchar_keeps_row h hr c (by rw [htape]; exact hpos)
  rw [htape] at hshows
  refine ⟨screen, ?_, hshows, hscrolled⟩
  have hstore : bufferStore s.buffer s.pos c = some (Function.update s.buffer s.pos c) :=
    if_pos (Nat.lt_succ_of_lt hroom)
  rw [consoleKey, if_neg (by rwa [beq_iff_eq]), if_neg (by rwa [beq_iff_eq]),
    if_pos (show s.pos < consoleBufferSize - 1 from hroom), hstore, hput]
  rfl

theorem consoleKey_erase (h : Shows s.screen t) (hr : s.screen.scrolled ≤ r) (hpos : t.pos + 1 < (r + 60) * 80)
    (hchars : s.pos > 0) : ∃ screen, consoleKey s backspace = some { s with pos := s.pos - 1, screen } ∧
      Shows screen t.erase ∧ screen.scrolled ≤ r := by
  have hback : (t.put backspace).pos ≤ t.pos := by
    rw [put_backspace]
    split
    · exact Nat.le_refl _
    · exact Nat.sub_le _ _
  obtain ⟨sc₁, hput₁, hshows₁, hr₁⟩ := putchar_keeps_row h hr backspace (by omega)
  obtain ⟨sc₂, hput₂, hshows₂, hr₂⟩ := putchar_keeps_row hshows₁ hr₁ space (by rw [put_space]; show _ + 1 < _; omega)
  have herase : t.erase.pos ≤ t.pos := by
    rw [erase_eq]
    split
    · exact Nat.le_refl _
    · exact Nat.sub_le _ _
  obtain ⟨sc₃, hput₃, hshows₃, hr₃⟩ := putchar_keeps_row hshows₂ hr₂ backspace (by
    show t.erase.pos < _
    omega)
  refine ⟨sc₃, ?_, hshows₃, hr₃⟩
  rw [consoleKey, if_neg (by decide), if_pos (by decide), if_pos hchars, hput₁, Option.bind_eq_bind, Option.bind_some,
    hput₂, Option.bind_some, hput₃]
  rfl

/-- A key that is neither typed nor erases changes nothing. -/
theorem consoleKey_ignored (h : c = 0 ∨ (c = backspace ∧ s.pos = 0) ∨ (c ≠ backspace ∧ ¬ s.pos < 127)) :
    consoleKey s c = some s := by
  rcases h with rfl | ⟨rfl, hpos⟩ | ⟨hb, hpos⟩
  · rfl
  · rw [consoleKey, if_neg (by decide), if_pos (by decide), if_neg (by omega)]
  · have hfull : ¬ s.pos < consoleBufferSize - 1 := hpos
    rw [consoleKey, if_neg (show ¬ (c == backspace) = true by rwa [beq_iff_eq]), if_neg hfull]
    exact ite_self _

/-- What a key other than a newline does: nothing, or it erases, or it is typed. -/
theorem consoleKey_cases (h : Shows s.screen t) (hr : s.screen.scrolled ≤ r) (hpos : t.pos + 1 < (r + 60) * 80)
    (hn : c ≠ newline) :
    consoleKey s c = some s ∨
    (c = backspace ∧ 0 < s.pos ∧ ∃ screen, consoleKey s c = some { s with pos := s.pos - 1, screen } ∧
      Shows screen t.erase ∧ screen.scrolled ≤ r) ∨
    (c ≠ 0 ∧ s.pos < 127 ∧ ∃ screen, consoleKey s c = some ⟨Function.update s.buffer s.pos c, s.pos + 1, screen⟩ ∧
      Shows screen ⟨Function.update t.entries t.pos (vgaEntry c defaultColor), t.pos + 1⟩ ∧ screen.scrolled ≤ r) := by
  by_cases h0 : c = 0
  · exact .inl (consoleKey_ignored (.inl h0))
  by_cases hb : c = backspace
  · subst hb
    by_cases hempty : s.pos = 0
    · exact .inl (consoleKey_ignored (.inr (.inl ⟨rfl, hempty⟩)))
    · have hchars := Nat.pos_of_ne_zero hempty
      exact .inr (.inl ⟨rfl, hchars, consoleKey_erase h hr hpos hchars⟩)
  · by_cases hroom : s.pos < 127
    · exact .inr (.inr ⟨h0, hroom, consoleKey_type h hr hpos h0 hb hn hroom⟩)
    · exact .inl (consoleKey_ignored (.inr (.inr ⟨hb, hroom⟩)))

/-! ## Runs -/

/-- A key never fails: its stores are inside the buffer and the screen. -/
theorem consoleKey_total (h : Shows s.screen t) (hpos : s.pos ≤ 127) (hn : c ≠ newline) :
    ∃ s' t', consoleKey s c = some s' ∧ Shows s'.screen t' ∧ s'.pos ≤ 127 := by
  have hfar : t.pos + 1 < (s.screen.scrolled + t.pos + 60) * 80 := by omega
  rcases consoleKey_cases h (Nat.le_add_right _ t.pos) hfar hn with hkey | ⟨-, -, screen, hkey, hshows, -⟩ |
    ⟨-, hroom, screen, hkey, hshows, -⟩
  · exact ⟨s, t, hkey, h, hpos⟩
  · exact ⟨_, _, hkey, hshows, Nat.le_trans (Nat.sub_le _ _) hpos⟩
  · exact ⟨_, _, hkey, hshows, hroom⟩

/-- Every run returns, with `pos` in range. -/
theorem console_total (h : Shows s.screen t) (hpos : s.pos ≤ 127) {keys : List UInt8} (hkeys : newline ∉ keys) :
    ∃ s' t', keys.foldlM consoleKey s = some s' ∧ Shows s'.screen t' ∧ s'.pos ≤ 127 := by
  induction keys generalizing s t with
  | nil => exact ⟨s, t, rfl, h, hpos⟩
  | cons c keys ih =>
    obtain ⟨hc, hkeys⟩ := not_or.mp (List.mem_cons.not.mp hkeys)
    obtain ⟨s₁, t₁, hkey, h₁, hpos₁⟩ := consoleKey_total h hpos (Ne.symm hc)
    obtain ⟨s₂, t₂, hrest, h₂⟩ := ih h₁ hpos₁ hkeys
    refine ⟨s₂, t₂, ?_, h₂⟩
    rw [List.foldlM_cons, hkey]
    exact hrest

/-- The line without its last character. -/
theorem LineOnTape.erase {screen : Screen} (h : LineOnTape r s t) (hchars : 0 < s.pos) (h79 : s.pos ≠ 79)
    (hshows : Shows screen t.erase) (hscrolled : screen.scrolled ≤ r) :
    LineOnTape r { s with pos := s.pos - 1, screen } t.erase := by
  have hpos := h.tape_pos
  have hle := h.pos_le
  rw [erase_eq, if_neg (show ¬ t.pos % 80 = 0 by omega)] at hshows ⊢
  refine ⟨hshows, hscrolled, Nat.le_trans (Nat.sub_le _ _) hle, ?_, ?_, ?_⟩
  · show t.pos - 1 = r * 80 + 1 + (s.pos - 1)
    omega
  · intro i hi
    have hi : i < s.pos - 1 := hi
    show Function.update t.entries (t.pos - 1) blank (r * 80 + 1 + i) = _
    rw [Function.update_of_ne (by omega)]
    exact h.line i (by omega)
  · intro i hi
    exact h.nonzero i (Nat.lt_of_lt_of_le hi (Nat.sub_le _ _))

/-- The line with one more character. -/
theorem LineOnTape.type {screen : Screen} (h : LineOnTape r s t) (h0 : c ≠ 0) (hroom : s.pos < 127)
    (hshows : Shows screen ⟨Function.update t.entries t.pos (vgaEntry c defaultColor), t.pos + 1⟩)
    (hscrolled : screen.scrolled ≤ r) :
    LineOnTape r ⟨Function.update s.buffer s.pos c, s.pos + 1, screen⟩
      ⟨Function.update t.entries t.pos (vgaEntry c defaultColor), t.pos + 1⟩ := by
  have hpos := h.tape_pos
  refine ⟨hshows, hscrolled, hroom, ?_, ?_, ?_⟩
  · show t.pos + 1 = r * 80 + 1 + (s.pos + 1)
    omega
  · intro i hi
    have hi : i < s.pos + 1 := hi
    show Function.update t.entries t.pos _ (r * 80 + 1 + i) = vgaEntry (Function.update s.buffer s.pos c i) defaultColor
    by_cases hlast : i = s.pos
    · rw [hlast, ← hpos, Function.update_self, Function.update_self]
    · rw [Function.update_of_ne (by omega), Function.update_of_ne hlast]
      exact h.line i (by omega)
  · intro i hi
    have hi : i < s.pos + 1 := hi
    show Function.update s.buffer s.pos c i ≠ 0
    by_cases hlast : i = s.pos
    · rwa [hlast, Function.update_self]
    · rw [Function.update_of_ne hlast]
      exact h.nonzero i (by omega)

/-- A key keeps the line on the tape, unless it erases the last character of
the prompt's row. -/
theorem LineOnTape.key (h : LineOnTape r s t) (hn : c ≠ newline) (hkey : c = backspace → s.pos ≠ 79) :
    ∃ s' t', consoleKey s c = some s' ∧ LineOnTape r s' t' := by
  have hpos := h.tape_pos
  have hle := h.pos_le
  rcases consoleKey_cases h.shows h.scrolled_le (by omega) hn with hrun | ⟨hb, hchars, screen, hrun, hshows, hscrolled⟩ |
    ⟨h0, hroom, screen, hrun, hshows, hscrolled⟩
  · exact ⟨s, t, hrun, h⟩
  · exact ⟨_, _, hrun, h.erase hchars (hkey hb) hshows hscrolled⟩
  · exact ⟨_, _, hrun, h.type h0 hroom hshows hscrolled⟩

/-- A backspace with 79 characters held leaves the cursor where it is. -/
theorem not_spells_of_erase (h : Spells r s) (hshows : Shows s.screen t) (h79 : s.pos = 79)
    (hkey : consoleKey s backspace = some s') : ¬ Spells r s' := by
  have hpos : t.pos = r * 80 + 80 := by
    rw [hshows.pos, h.cursor, h79]
  obtain ⟨screen, hrun, hshows', -⟩ := consoleKey_erase hshows (Nat.le_add_right _ t.pos) (by omega) (by omega)
  obtain rfl := Option.some.inj (hkey.symm.trans hrun)
  rw [erase_eq, if_pos (by omega)] at hshows'
  intro h'
  have hcursor : t.pos = r * 80 + 1 + (s.pos - 1) := hshows'.pos.trans h'.cursor
  omega

/-- What is on any screen is a tape. -/
theorem shows_any {sc : Screen} (hx : sc.cursorX < 80) (hy : sc.cursorY < 60) : Shows sc
    ⟨fun i => if i < sc.scrolled * 80 + 4800 then sc.cells (i - sc.scrolled * 80) else blank,
      (sc.scrolled + sc.cursorY) * 80 + sc.cursorX⟩ := by
  refine ⟨⟨hx, rfl, ?_, ?_⟩, hy⟩
  · intro i hi
    exact ((if_pos (by omega)).trans (by rw [Nat.add_sub_cancel_left])).symm
  · intro i hi
    exact if_neg (by omega)

/-- Without such an erasure every run keeps the line on the tape. -/
theorem LineOnTape.run (h : LineOnTape r s t) {keys : List UInt8} (hkeys : newline ∉ keys)
    (hheld : ∀ ks, ks ++ [backspace] <+: keys → ∀ s', ks.foldlM consoleKey s = some s' → s'.pos ≠ 79) :
    ∃ s' t', keys.foldlM consoleKey s = some s' ∧ LineOnTape r s' t' := by
  induction keys using List.reverseRecOn with
  | nil => exact ⟨s, t, rfl, h⟩
  | append_singleton keys c ih =>
    rw [List.mem_append, not_or, List.mem_singleton] at hkeys
    obtain ⟨s₁, t₁, hrun, h₁⟩ := ih hkeys.1 fun ks hks => hheld ks (hks.trans (List.prefix_append keys [c]))
    obtain ⟨s₂, t₂, hkey, h₂⟩ := h₁.key (Ne.symm hkeys.2) fun hc => hheld keys (by rw [hc]) s₁ hrun
    refine ⟨s₂, t₂, ?_, h₂⟩
    rw [List.foldlM_append, hrun, Option.bind_eq_bind, Option.bind_some, List.foldlM_cons, hkey]
    rfl

/-- The string in a buffer is what comes before the first NUL. -/
theorem bufferString_eq {buffer : Nat → UInt8} {n k : Nat} (hk : k < n) (hnul : buffer k = 0)
    (hnonzero : ∀ i < k, buffer i ≠ 0) :
    (bufferString buffer n).map CString.bytes = some ((List.range k).map buffer) := by
  obtain ⟨m, rfl⟩ := Nat.exists_eq_add_of_lt hk
  have hmem : 0 ∈ (List.range (k + m + 1)).map buffer :=
    List.mem_map.mpr ⟨k, List.mem_range.mpr (by omega), hnul⟩
  have hbefore : ∀ c ∈ (List.range k).map buffer, (c != 0) = true := by
    intro c hc
    obtain ⟨i, hi, rfl⟩ := List.mem_map.mp hc
    exact bne_iff_ne.mpr (hnonzero i (List.mem_range.mp hi))
  have hbytes : ((List.range (k + m + 1)).map buffer).takeWhile (· != 0) = (List.range k).map buffer := by
    rw [Nat.add_assoc, List.range_add, List.map_append, List.takeWhile_append_of_pos hbefore, List.range_succ_eq_map,
      List.map_cons, List.map_cons, Nat.add_zero, List.takeWhile_cons_of_neg (by rw [hnul]; decide), List.append_nil]
  rw [bufferString, if_pos hmem]
  exact congrArg some hbytes

/-- What a newline runs is the line. -/
theorem enteredLine_eq (hpos : s.pos ≤ 127) (hnonzero : ∀ i < s.pos, s.buffer i ≠ 0) :
    (enteredLine s).map (fun r => r.2.bytes) = some ((List.range s.pos).map s.buffer) := by
  have hlt : s.pos < consoleBufferSize := Nat.lt_succ_of_le hpos
  have hsame : ∀ i < s.pos, Function.update s.buffer s.pos 0 i = s.buffer i := fun i hi =>
    Function.update_of_ne (Nat.ne_of_lt hi) 0 s.buffer
  have hstring := bufferString_eq hlt (Function.update_self s.pos 0 s.buffer) fun i hi => by
    rw [hsame i hi]
    exact hnonzero i hi
  rw [List.map_congr_left fun i hi => hsame i (List.mem_range.mp hi)] at hstring
  obtain ⟨line, hline, hbytes⟩ := Option.map_eq_some_iff.mp hstring
  rw [enteredLine, bufferStore, if_pos hlt, Option.bind_eq_bind, Option.bind_some, hline]
  exact congrArg some hbytes

/-- **The screen spells the line buffer** after each of a run of characters
typed at a prompt, and a newline would run that text, if and only if no
backspace comes with 79 characters held. -/
theorem console_spells_iff (h : AtPrompt s) {keys : List UInt8} (hkeys : newline ∉ keys) :
    (∀ ks, ks <+: keys → ∃ s', ks.foldlM consoleKey s = some s' ∧
      Spells (s.screen.scrolled + s.screen.cursorY) s' ∧
      (enteredLine s').map (fun r => r.2.bytes) = some ((List.range s'.pos).map s'.buffer)) ↔
    ∀ ks, ks ++ [backspace] <+: keys → ∀ s', ks.foldlM consoleKey s = some s' → s'.pos ≠ 79 := by
  have hpos := h.pos
  have hx := h.x
  have hshows := shows_any (show s.screen.cursorX < 80 by omega) h.y_lt
  constructor
  · intro hspells ks hks s₁ hrun h79
    obtain ⟨s₁', hrun', h₁, -⟩ := hspells ks ((List.prefix_append ks [backspace]).trans hks)
    obtain rfl := Option.some.inj (hrun.symm.trans hrun')
    obtain ⟨s₂, hrun₂, h₂, -⟩ := hspells _ hks
    have hks' : newline ∉ ks := fun hmem => hkeys (hks.subset (List.mem_append_left _ hmem))
    obtain ⟨s₁', t₁, hrun', hshows₁, -⟩ := console_total hshows (by omega) hks'
    obtain rfl := Option.some.inj (hrun.symm.trans hrun')
    rw [List.foldlM_append, hrun, Option.bind_eq_bind, Option.bind_some, List.foldlM_cons] at hrun₂
    obtain ⟨s₃, hkey, he⟩ := Option.bind_eq_some_iff.mp hrun₂
    obtain rfl := Option.some.inj he
    exact not_spells_of_erase h₁ hshows₁ h79 hkey h₂
  · intro hheld ks hks
    have hline : LineOnTape (s.screen.scrolled + s.screen.cursorY) s _ :=
      ⟨hshows, Nat.le_add_right _ _, by omega, by rw [hx, hpos], fun i hi => absurd hi (by omega),
        fun i hi => absurd hi (by omega)⟩
    have hks' : newline ∉ ks := fun hmem => hkeys (hks.subset hmem)
    obtain ⟨s', t', hrun, h'⟩ := hline.run hks' fun ks' hpre => hheld ks' (hpre.trans hks)
    exact ⟨s', hrun, h'.spells, enteredLine_eq h'.pos_le h'.nonzero⟩

end Line

/-- A prompt in the first row of a blank screen. -/
def consoleAtPrompt : Console := ⟨fun _ => 0, 0, ⟨fun _ => blank, 1, 0, ⟨0, fun _ => 0⟩, 0⟩⟩

theorem console_spells_iff_two_keys :
    (∀ ks, ks <+: [97, backspace] → ∃ s', ks.foldlM consoleKey consoleAtPrompt = some s' ∧ Spells 0 s' ∧
      (enteredLine s').map (fun r => r.2.bytes) = some ((List.range s'.pos).map s'.buffer)) ↔
    ∀ ks, ks ++ [backspace] <+: [97, backspace] → ∀ s', ks.foldlM consoleKey consoleAtPrompt = some s' →
      s'.pos ≠ 79 :=
  console_spells_iff ⟨rfl, rfl, Nat.zero_lt_succ _⟩ (by decide)

/-- 79 letters fill the prompt's row. A backspace then leaves 78 in the buffer
and 79 on the screen. -/
theorem erase_at_row_end : ∃ s s', AtPrompt s ∧
    (List.replicate 79 97 ++ [backspace]).foldlM consoleKey s = some s' ∧ s'.pos = 78 ∧
    s'.screen.cursorX = 0 ∧ s'.screen.cursorY = 1 ∧ ¬ Spells (s.screen.scrolled + s.screen.cursorY) s' := by
  have hrun : ((List.replicate 79 97 ++ [backspace]).foldlM consoleKey consoleAtPrompt).map
      (fun s' : Console => (s'.pos, s'.screen.cursorX, s'.screen.cursorY, s'.screen.scrolled)) = some (78, 0, 1, 0) := by
    decide +kernel
  obtain ⟨s', hs', he⟩ := Option.map_eq_some_iff.mp hrun
  simp only [Prod.mk.injEq] at he
  obtain ⟨hpos, hx, hy, hscrolled⟩ := he
  refine ⟨_, s', ⟨rfl, rfl, Nat.zero_lt_succ _⟩, hs', hpos, hx, hy, ?_⟩
  intro h
  have hcursor := h.cursor
  rw [hscrolled, hy, hx, hpos] at hcursor
  cases hcursor

section Prompt

variable {s : Console} {t : Tape}

/-! ## The next prompt -/

/-- Text that ends in a newline leaves the cursor in the first column. -/
theorem text_newline {sc : Screen} (h : Shows sc t) (cs : List UInt8) :
    ∃ sc' t', (cs ++ [newline]).foldlM putchar sc = some sc' ∧ Shows sc' t' ∧ sc'.cursorX = 0 := by
  induction cs generalizing sc t with
  | nil =>
    obtain ⟨sc', hput, hshows, -⟩ := putchar_shows h newline
    have hpos : (t.pos / 80 + 1) * 80 = (sc'.scrolled + sc'.cursorY) * 80 + sc'.cursorX := hshows.pos
    have hx := hshows.x_lt
    refine ⟨sc', _, ?_, hshows, by omega⟩
    rw [List.nil_append, List.foldlM_cons, hput]
    rfl
  | cons c cs ih =>
    obtain ⟨sc₁, hput, h₁, -⟩ := putchar_shows h c
    obtain ⟨sc', t', hrest, h'⟩ := ih h₁
    refine ⟨sc', t', ?_, h'⟩
    rw [List.cons_append, List.foldlM_cons, hput]
    exact hrest

theorem printOn_line {sc : Screen} (h : Shows sc t) {fmt : CString} {args : List PrintfArg} {cs : List UInt8}
    (hfmt : printf fmt args = ⟨cs ++ [newline], true⟩) :
    ∃ sc' t', printOn sc fmt args = some sc' ∧ Shows sc' t' ∧ sc'.cursorX = 0 := by
  obtain ⟨sc', t', hrun, h'⟩ := text_newline h cs
  refine ⟨sc', t', ?_, h'⟩
  rw [printOn, hfmt]
  exact hrun

theorem consolePrompt_atPrompt {sc : Screen} (hx : sc.cursorX = 0) (hy : sc.cursorY < 60) (buffer : Nat → UInt8) :
    ∃ s, consolePrompt buffer sc = some (.reading s) ∧ AtPrompt s := by
  have hscroll := scrollScreen_eq sc
  generalize hsc₁ : ({ sc.paint 0 4800 (scrolledCells sc) with cursorY := sc.cursorY - 1, scrolled := sc.scrolled + 1 } :
    Screen) = sc₁ at hscroll
  have hx₁ : sc₁.cursorX = 0 := by
    rw [← hsc₁]
    exact hx
  have hy₁ : sc₁.cursorY < 60 := by
    rw [← hsc₁]
    exact Nat.lt_of_le_of_lt (Nat.sub_le _ _) hy
  obtain ⟨sc₂, hput, hshows, -⟩ := putchar_shows (shows_any (by omega) hy₁) '>'.toUInt8
  have hpos : (sc₁.scrolled + sc₁.cursorY) * 80 + sc₁.cursorX + 1 = (sc₂.scrolled + sc₂.cursorY) * 80 + sc₂.cursorX :=
    hshows.pos
  have hx₂ := hshows.x_lt
  refine ⟨⟨buffer, 0, sc₂⟩, ?_, rfl, show sc₂.cursorX = 1 by omega, hshows.y_lt⟩
  have hprint : printOn sc₁ (cstring ['>']) [] = some sc₂ := by
    show (['>'.toUInt8] : List UInt8).foldlM putchar sc₁ = some sc₂
    rw [List.foldlM_cons, hput]
    rfl
  rw [consolePrompt, hscroll, Option.bind_eq_bind, Option.bind_some, hprint]
  rfl

theorem strcmp_eq_zero_iff : ∀ {s1 s2 : List UInt8}, 0 ∉ s1 → 0 ∉ s2 → (strcmp s1 s2 = 0 ↔ s1 = s2)
  | [], [], _, _ => ⟨fun _ => rfl, fun _ => rfl⟩
  | [], d :: s2, _, hd => by
    have hd' : d.toNat ≠ 0 := fun h => hd (List.mem_cons.mpr (.inl (UInt8.toNat_inj.mp h).symm))
    rw [strcmp]
    exact ⟨fun h => absurd h (by omega), fun h => nomatch h⟩
  | c :: s1, [], hc, _ => by
    have hc' : c.toNat ≠ 0 := fun h => hc (List.mem_cons.mpr (.inl (UInt8.toNat_inj.mp h).symm))
    rw [strcmp]
    exact ⟨fun h => absurd h (by omega), fun h => nomatch h⟩
  | c :: s1, d :: s2, hc, hd => by
    have ih := strcmp_eq_zero_iff (fun h => hc (List.mem_cons_of_mem c h)) (fun h => hd (List.mem_cons_of_mem d h))
    rw [strcmp, List.cons_eq_cons]
    by_cases hcd : c = d
    · rw [if_pos (beq_iff_eq.mpr hcd), ih]
      exact ⟨fun h => ⟨hcd, h⟩, fun h => h.2⟩
    · have hne : c.toNat ≠ d.toNat := fun h => hcd (UInt8.toNat_inj.mp h)
      rw [if_neg (by rwa [beq_iff_eq])]
      exact ⟨fun h => absurd h (by omega), fun h => absurd h.1 hcd⟩

theorem printf_ver :
    printf (cstring ['T', 'i', 'n', 'o', 's', '3', ' ', 'C', ' ', 'e', 'd', 'i', 't', 'i', 'o', 'n', '\n']) [] =
      ⟨['T', 'i', 'n', 'o', 's', '3', ' ', 'C', ' ', 'e', 'd', 'i', 't', 'i', 'o', 'n'].map Char.toUInt8 ++ [newline],
        true⟩ := by
  decide

theorem printf_unknown (line : CString) :
    printf (cstring
        ['U', 'n', 'k', 'n', 'o', 'w', 'n', ' ', 'c', 'o', 'm', 'm', 'a', 'n', 'd', ':', ' ', '%', 's', '\n'])
      [.str line] =
      ⟨['U', 'n', 'k', 'n', 'o', 'w', 'n', ' ', 'c', 'o', 'm', 'm', 'a', 'n', 'd', ':', ' '].map Char.toUInt8 ++
        line.bytes ++ [newline], true⟩ := by
  have hfmt : (cstring ['U', 'n', 'k', 'n', 'o', 'w', 'n', ' ', 'c', 'o', 'm', 'm', 'a', 'n', 'd', ':', ' ', '%', 's',
      '\n']).bytes = ['U', 'n', 'k', 'n', 'o', 'w', 'n', ' ', 'c', 'o', 'm', 'm', 'a', 'n', 'd', ':', ' '].map
        Char.toUInt8 ++ [percent, 's'.toUInt8, newline] := by
    decide
  rw [printf, hfmt, printfFrom_text (by decide) (by decide), List.append_assoc]
  rfl

theorem runLine_next (systemShutdown : Screen → Option Screen) (buffer : Nat → UInt8) (line : CString) {sc : Screen}
    (h : Shows sc t) (hoff : line.bytes ≠ (cstring ['p', 'o', 'w', 'e', 'r', 'o', 'f', 'f']).bytes) :
    (line.bytes = (cstring ['h', 'a', 'l', 't']).bytes ∧ runLine systemShutdown buffer line sc = some .halted) ∨
    (line.bytes ≠ (cstring ['h', 'a', 'l', 't']).bytes ∧
      ∃ s, runLine systemShutdown buffer line sc = some (.reading s) ∧ AtPrompt s) := by
  have hcmp (word : CString) : (strcmp line.bytes word.bytes == 0) = true ↔ line.bytes = word.bytes := by
    rw [beq_iff_eq, strcmp_eq_zero_iff line.nonzero word.nonzero]
  have hprompt {fmt : CString} {args : List PrintfArg} {cs : List UInt8}
      (hfmt : printf fmt args = ⟨cs ++ [newline], true⟩) :
      ∃ s, (printOn sc fmt args).bind (consolePrompt buffer) = some (.reading s) ∧ AtPrompt s := by
    obtain ⟨sc', t', hprint, hshows, hx'⟩ := printOn_line h hfmt
    rw [hprint, Option.bind_some]
    exact consolePrompt_atPrompt hx' hshows.y_lt buffer
  simp only [runLine, hcmp, if_neg hoff]
  by_cases hver : line.bytes = (cstring ['v', 'e', 'r']).bytes
  · refine .inr ⟨by rw [hver]; decide, ?_⟩
    rw [if_pos hver]
    exact hprompt printf_ver
  · rw [if_neg hver]
    by_cases hhalt : line.bytes = (cstring ['h', 'a', 'l', 't']).bytes
    · exact .inl ⟨hhalt, if_pos hhalt⟩
    · refine .inr ⟨hhalt, ?_⟩
      rw [if_neg hhalt]
      exact hprompt (printf_unknown line)

/-- A line runs a command by its text: it halts the machine or a prompt
follows, where it does not power the machine off. -/
theorem consoleLine_next (systemShutdown : Screen → Option Screen) (h : Shows s.screen t) (hpos : s.pos ≤ 127)
    (hnonzero : ∀ i < s.pos, s.buffer i ≠ 0)
    (hoff : (List.range s.pos).map s.buffer ≠ (cstring ['p', 'o', 'w', 'e', 'r', 'o', 'f', 'f']).bytes) :
    ((List.range s.pos).map s.buffer = (cstring ['h', 'a', 'l', 't']).bytes ∧
      consoleLine systemShutdown s = some .halted) ∨
    ((List.range s.pos).map s.buffer ≠ (cstring ['h', 'a', 'l', 't']).bytes ∧
      ∃ s', consoleLine systemShutdown s = some (.reading s') ∧ AtPrompt s') := by
  obtain ⟨⟨buffer, line⟩, hline, hbytes⟩ := Option.map_eq_some_iff.mp (enteredLine_eq hpos hnonzero)
  have hbytes : line.bytes = (List.range s.pos).map s.buffer := hbytes
  obtain ⟨sc₁, t₁, hprint₁, h₁, -⟩ := printOn_line h (show printf (cstring ['\n']) [] = ⟨[] ++ [newline], true⟩ from rfl)
  rw [← hbytes] at hoff ⊢
  have hrun : consoleLine systemShutdown s = runLine systemShutdown buffer line sc₁ := by
    rw [consoleLine, hline, Option.bind_eq_bind, Option.bind_some, hprint₁]
    rfl
  rw [hrun]
  exact runLine_next systemShutdown buffer line h₁ hoff

end Prompt

end Tinos
