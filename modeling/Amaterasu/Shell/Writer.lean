/-
The framebuffer's text writer, on a grid of character cells.

A cell is what a glyph blit leaves: a character and its two colours, swapped where the
cursor is shown.  The writer keeps its position inside the grid as a field, so every
operation below that moves it says why it stays there.  Printing erases the cursor
before each character by drawing the remembered `cursor_char` over the cell, which is
right only when that is the character the cell shows; what is proved here is therefore
in terms of both the cells and the remembered character.
-/
import Amaterasu.Lib.Text

namespace Amaterasu

abbrev Color := UInt8 × UInt8 × UInt8

def COLOR_FG : Color := (0xFF, 0xFF, 0xFF)
def COLOR_BG : Color := (0x00, 0x00, 0x00)
def COLOR_PROMPT : Color := (0x4E, 0xC9, 0xB0)

/-- What one glyph cell shows. -/
structure Cell where
  ch : Char
  fg : Color
  bg : Color
  deriving DecidableEq, Repr

structure Writer where
  cols : Nat
  rows : Nat
  /-- By row and column. -/
  cells : Nat → Nat → Cell
  col : Nat
  row : Nat
  fg : Color
  bg : Color
  blinkOn : Bool
  cursorChar : Char
  col_lt : col < cols
  row_lt : row < rows

namespace Writer

theorem cols_pos (w : Writer) : 0 < w.cols := Nat.zero_lt_of_lt w.col_lt

theorem rows_pos (w : Writer) : 0 < w.rows := Nat.zero_lt_of_lt w.row_lt

/-- A writer for a buffer with some cells, before it is cleared. -/
def new (cols rows : Nat) (cells : Nat → Nat → Cell) (hcols : 0 < cols) (hrows : 0 < rows) :
    Writer where
  cols := cols
  rows := rows
  cells := cells
  col := 0
  row := 0
  fg := COLOR_FG
  bg := COLOR_BG
  blinkOn := false
  cursorChar := ' '
  col_lt := hcols
  row_lt := hrows

/-! ### Operations -/

/-- `write_glyph` at the writer's position. -/
def writeGlyph (w : Writer) (ch : Char) (fg bg : Color) : Writer :=
  { w with cells := fun r c => if r = w.row ∧ c = w.col then ⟨ch, fg, bg⟩ else w.cells r c }

def setCol (w : Writer) (col : Nat) : Writer :=
  { w with col := min col (w.cols - 1), col_lt := by have := w.cols_pos; omega }

def drawCursorCell (w : Writer) (visible : Bool) : Writer :=
  if visible then w.writeGlyph w.cursorChar w.bg w.fg else w.writeGlyph w.cursorChar w.fg w.bg

def cursorShow (w : Writer) (ch : Char) : Writer :=
  { w with cursorChar := ch, blinkOn := true }.drawCursorCell true

def cursorHide (w : Writer) : Writer := { w with blinkOn := false }.drawCursorCell false

/-- The timer's blink. -/
def tickCursor (w : Writer) : Writer :=
  { w with blinkOn := !w.blinkOn }.drawCursorCell (!w.blinkOn)

def scrollUp (w : Writer) : Writer :=
  { w with cells := fun r c => if r + 1 < w.rows then w.cells (r + 1) c else ⟨' ', w.fg, w.bg⟩ }

def setColors (w : Writer) (fg bg : Color) : Writer := { w with fg := fg, bg := bg }

def clear (w : Writer) : Writer :=
  { w with
    cells := fun _ _ => ⟨' ', w.fg, w.bg⟩, col := 0, row := 0, blinkOn := false,
    cursorChar := ' ', col_lt := w.cols_pos, row_lt := w.rows_pos }

def backspace (w : Writer) : Writer :=
  let w := { w.drawCursorCell false with blinkOn := false }
  if w.col > 0 then
    { w with col := w.col - 1, col_lt := by have := w.col_lt; omega }.writeGlyph ' ' w.fg w.bg
  else if w.row > 0 then
    { w with
      row := w.row - 1, col := w.cols - 1, col_lt := by have := w.cols_pos; omega,
      row_lt := by have := w.row_lt; omega }.writeGlyph ' ' w.fg w.bg
  else w

/-- Column 0 of the next row, scrolling when there is none. -/
def nextRow (w : Writer) : Writer :=
  if h : w.row + 1 < w.rows then
    { w with col := 0, row := w.row + 1, col_lt := w.cols_pos, row_lt := h }
  else { w.scrollUp with col := 0, col_lt := w.cols_pos }

/-- The next column, or the next row at the end of a row. -/
def advance (w : Writer) : Writer :=
  if h : w.col + 1 < w.cols then { w with col := w.col + 1, col_lt := h } else w.nextRow

def writeChar (w : Writer) (ch : Char) : Writer :=
  let w := { w.drawCursorCell false with blinkOn := false }
  if ch = '\n' then w.nextRow
  else if ch = '\x08' then w.backspace
  else (w.writeGlyph ch w.fg w.bg).advance

/-- `print!`, and `println!` with a line feed at the end. -/
def print (w : Writer) (s : Text) : Writer := s.foldl writeChar w

/-- What is printed during a command: text, colour changes, and the one command that
clears the screen. -/
inductive Op
  | print (s : Text)
  | setFg (color : Color)
  | resetColors
  | clear

def perform (w : Writer) : Op → Writer
  | .print s => w.print s
  | .setFg color => w.setColors color COLOR_BG
  | .resetColors => w.setColors COLOR_FG COLOR_BG
  | .clear => w.clear

@[simp] theorem print_nil (w : Writer) : w.print [] = w := rfl

@[simp] theorem print_cons (w : Writer) (ch : Char) (s : Text) :
    w.print (ch :: s) = (w.writeChar ch).print s := rfl

theorem print_append (w : Writer) (s t : Text) : w.print (s ++ t) = (w.print s).print t :=
  List.foldl_append

/-! ### Cells -/

/-- The character a cell shows. -/
def shown (w : Writer) (r c : Nat) : Char := (w.cells r c).ch

theorem writeGlyph_shown (w : Writer) (ch : Char) (fg bg : Color) (r c : Nat) :
    (w.writeGlyph ch fg bg).shown r c = if r = w.row ∧ c = w.col then ch else w.shown r c := by
  unfold shown writeGlyph
  dsimp only
  split <;> rfl

theorem drawCursorCell_shown (w : Writer) (v : Bool) (r c : Nat) :
    (w.drawCursorCell v).shown r c
      = if r = w.row ∧ c = w.col then w.cursorChar else w.shown r c := by
  unfold drawCursorCell
  split
  · exact writeGlyph_shown ..
  · exact writeGlyph_shown ..

@[simp] theorem drawCursorCell_row (w : Writer) (v : Bool) : (w.drawCursorCell v).row = w.row := by
  cases v <;> rfl

@[simp] theorem drawCursorCell_col (w : Writer) (v : Bool) : (w.drawCursorCell v).col = w.col := by
  cases v <;> rfl

@[simp] theorem drawCursorCell_rows (w : Writer) (v : Bool) :
    (w.drawCursorCell v).rows = w.rows := by
  cases v <;> rfl

@[simp] theorem drawCursorCell_cols (w : Writer) (v : Bool) :
    (w.drawCursorCell v).cols = w.cols := by
  cases v <;> rfl

@[simp] theorem drawCursorCell_cursorChar (w : Writer) (v : Bool) :
    (w.drawCursorCell v).cursorChar = w.cursorChar := by
  cases v <;> rfl

theorem cursorHide_shown (w : Writer) (r c : Nat) :
    w.cursorHide.shown r c = if r = w.row ∧ c = w.col then w.cursorChar else w.shown r c :=
  drawCursorCell_shown _ _ r c

theorem cursorShow_shown (w : Writer) (ch : Char) (r c : Nat) :
    (w.cursorShow ch).shown r c = if r = w.row ∧ c = w.col then ch else w.shown r c :=
  drawCursorCell_shown _ _ r c

@[simp] theorem cursorHide_row (w : Writer) : w.cursorHide.row = w.row := rfl
@[simp] theorem cursorHide_col (w : Writer) : w.cursorHide.col = w.col := rfl
@[simp] theorem cursorHide_rows (w : Writer) : w.cursorHide.rows = w.rows := rfl
@[simp] theorem cursorHide_cols (w : Writer) : w.cursorHide.cols = w.cols := rfl
@[simp] theorem cursorHide_cursorChar (w : Writer) : w.cursorHide.cursorChar = w.cursorChar := rfl

@[simp] theorem cursorShow_row (w : Writer) (ch : Char) : (w.cursorShow ch).row = w.row := rfl
@[simp] theorem cursorShow_col (w : Writer) (ch : Char) : (w.cursorShow ch).col = w.col := rfl
@[simp] theorem cursorShow_rows (w : Writer) (ch : Char) : (w.cursorShow ch).rows = w.rows := rfl
@[simp] theorem cursorShow_cols (w : Writer) (ch : Char) : (w.cursorShow ch).cols = w.cols := rfl
@[simp] theorem cursorShow_cursorChar (w : Writer) (ch : Char) :
    (w.cursorShow ch).cursorChar = ch := rfl

/-- Printing a character hides the cursor first, whatever the character. -/
theorem writeChar_eq (w : Writer) (ch : Char) :
    w.writeChar ch = if ch = '\n' then w.cursorHide.nextRow
      else if ch = '\x08' then w.cursorHide.backspace
      else (w.cursorHide.writeGlyph ch w.fg w.bg).advance := rfl

/-- Within its row, an ordinary character changes its own cell. -/
theorem writeChar_within {w : Writer} {ch : Char} (hline : ch ≠ '\n') (hback : ch ≠ '\x08')
    (hfit : w.col + 1 < w.cols) :
    (w.writeChar ch).row = w.row ∧ (w.writeChar ch).col = w.col + 1 ∧
      (w.writeChar ch).cols = w.cols ∧ (w.writeChar ch).rows = w.rows ∧
      (w.writeChar ch).cursorChar = w.cursorChar ∧
      ∀ r c, (w.writeChar ch).shown r c
        = if r = w.row ∧ c = w.col then ch else w.shown r c := by
  have heq : w.writeChar ch
      = { w.cursorHide.writeGlyph ch w.fg w.bg with col := w.col + 1, col_lt := hfit } := by
    rw [writeChar_eq, if_neg hline, if_neg hback, advance]
    exact dif_pos hfit
  rw [heq]
  refine ⟨rfl, rfl, rfl, rfl, rfl, ?_⟩
  intro r c
  show (w.cursorHide.writeGlyph ch w.fg w.bg).shown r c = _
  rw [writeGlyph_shown, cursorHide_shown]
  simp only [cursorHide_row, cursorHide_col]
  split <;> rfl

/-- What a row shows is one character each, until a character moves the cursor. -/
def Plain (ch : Char) : Prop := ch ≠ '\n' ∧ ch ≠ '\x08'

instance (ch : Char) : Decidable (Plain ch) := inferInstanceAs (Decidable (_ ∧ _))

/-- Within its row, text changes the cells it covers. -/
theorem print_within (t : Text) : ∀ (w : Writer), (∀ ch ∈ t, Plain ch) →
    w.col + t.length < w.cols →
    (w.print t).row = w.row ∧ (w.print t).col = w.col + t.length ∧
      (w.print t).cols = w.cols ∧ (w.print t).rows = w.rows ∧
      (w.print t).cursorChar = w.cursorChar ∧
      ∀ r c, (w.print t).shown r c = if r = w.row ∧ w.col ≤ c ∧ c < w.col + t.length
        then (t[c - w.col]?).getD ' ' else w.shown r c := by
  induction t with
  | nil =>
      intro w _ _
      refine ⟨rfl, rfl, rfl, rfl, rfl, ?_⟩
      intro r c
      rw [if_neg (by simp only [List.length_nil]; omega), print_nil]
  | cons ch t ih =>
      intro w hplain hfit
      rw [List.length_cons] at hfit
      obtain ⟨hline, hback⟩ := hplain ch List.mem_cons_self
      obtain ⟨h₁, h₂, h₃, h₄, h₅, h₆⟩ := writeChar_within hline hback (w := w) (by omega)
      obtain ⟨g₁, g₂, g₃, g₄, g₅, g₆⟩ := ih (w.writeChar ch)
        (fun d hd => hplain d (List.mem_cons_of_mem _ hd)) (by omega)
      rw [print_cons, List.length_cons]
      refine ⟨by rw [g₁, h₁], by rw [g₂, h₂]; omega, by rw [g₃, h₃], by rw [g₄, h₄],
        by rw [g₅, h₅], ?_⟩
      intro r c
      rw [g₆, h₁, h₂, h₆]
      by_cases hr : r = w.row
      · rcases Nat.lt_trichotomy c w.col with hlt | heq | hgt
        · rw [if_neg (by omega), if_neg (by omega), if_neg (by omega)]
        · rw [if_neg (by omega), if_pos ⟨hr, heq⟩, if_pos (by omega), heq, Nat.sub_self]
          rfl
        · by_cases hin : c < w.col + (t.length + 1)
          · rw [if_pos (by omega), if_pos (by omega),
              show c - w.col = (c - (w.col + 1)) + 1 by omega, List.getElem?_cons_succ]
          · rw [if_neg (by omega), if_neg (by omega), if_neg (by omega)]
      · rw [if_neg (fun h => hr h.1), if_neg (fun h => hr h.1), if_neg (fun h => hr h.1)]

/-! ### Blank screens -/

/-- Every cell below the cursor's row is blank. -/
def BlankBelow (w : Writer) : Prop :=
  ∀ r c, w.row < r → r < w.rows → c < w.cols → w.shown r c = ' '

/-- So is the rest of the cursor's row, its own cell included. -/
structure BlankFrom (w : Writer) : Prop where
  below : w.BlankBelow
  right : ∀ c, w.col ≤ c → c < w.cols → w.shown w.row c = ' '

theorem nextRow_cursorChar (w : Writer) : w.nextRow.cursorChar = w.cursorChar := by
  unfold nextRow
  split <;> rfl

/-- The next row is blank, wherever it comes from. -/
theorem BlankBelow.nextRow {w : Writer} (h : w.BlankBelow) : w.nextRow.BlankFrom := by
  unfold Writer.nextRow
  split
  · rename_i hrow
    refine ⟨?_, ?_⟩
    · intro r c hr
      exact h r c (Nat.lt_of_succ_lt hr)
    · intro c _ hc
      exact h (w.row + 1) c (Nat.lt_succ_self _) hrow hc
  · rename_i hrow
    refine ⟨?_, ?_⟩
    · intro r c hr hr'
      have hlt : w.row < r := hr
      have hlt' : r < w.rows := hr'
      omega
    · intro c _ _
      show (if w.row + 1 < w.rows then w.cells (w.row + 1) c else ⟨' ', w.fg, w.bg⟩).ch = ' '
      rw [if_neg hrow]

theorem BlankBelow.cursorHide {w : Writer} (h : w.BlankBelow) : w.cursorHide.BlankBelow := by
  intro r c hr hr' hc
  rw [cursorHide_shown, if_neg]
  · exact h r c hr hr' hc
  · rintro ⟨rfl, -⟩
    exact Nat.lt_irrefl _ hr

/-- A line feed leaves a blank row, and so does any text that begins with one. -/
theorem BlankBelow.lineFeed {w : Writer} (h : w.BlankBelow) : (w.writeChar '\n').BlankFrom :=
  h.cursorHide.nextRow

theorem BlankFrom.advance {w : Writer} (hbelow : w.BlankBelow)
    (hright : ∀ c, w.col < c → c < w.cols → w.shown w.row c = ' ') : w.advance.BlankFrom := by
  unfold Writer.advance
  split
  · exact ⟨hbelow, fun c hc => hright c hc⟩
  · exact hbelow.nextRow

theorem advance_cursorChar (w : Writer) : w.advance.cursorChar = w.cursorChar := by
  unfold advance
  split
  · rfl
  · exact nextRow_cursorChar w

/-- A backspace inside a row. -/
theorem backspace_inside {w : Writer} (hcol : w.col > 0) :
    w.backspace = { w.cursorHide with
      col := w.col - 1, col_lt := Nat.lt_of_le_of_lt (Nat.sub_le _ _) w.col_lt }.writeGlyph
        ' ' w.fg w.bg := by
  unfold backspace
  exact if_pos hcol

/-- A backspace at the start of a row goes to the end of the row above. -/
theorem backspace_wraps {w : Writer} (hcol : ¬ w.col > 0) (hrow : w.row > 0) :
    w.backspace = { w.cursorHide with
      row := w.row - 1, col := w.cols - 1, col_lt := Nat.sub_lt w.cols_pos Nat.one_pos,
      row_lt := Nat.lt_of_le_of_lt (Nat.sub_le _ _) w.row_lt }.writeGlyph ' ' w.fg w.bg := by
  unfold backspace
  exact (if_neg hcol).trans (if_pos hrow)

/-- A backspace in the first cell stays there. -/
theorem backspace_origin {w : Writer} (hcol : ¬ w.col > 0) (hrow : ¬ w.row > 0) :
    w.backspace = w.cursorHide := by
  unfold backspace
  exact (if_neg hcol).trans (if_neg hrow)

theorem backspace_cursorChar (w : Writer) : w.backspace.cursorChar = w.cursorChar := by
  unfold backspace
  dsimp only
  split
  · exact drawCursorCell_cursorChar w false
  · split
    · exact drawCursorCell_cursorChar w false
    · exact drawCursorCell_cursorChar w false

theorem writeChar_cursorChar (w : Writer) (ch : Char) :
    (w.writeChar ch).cursorChar = w.cursorChar := by
  rw [writeChar_eq]
  split
  · exact nextRow_cursorChar _
  · split
    · exact backspace_cursorChar _
    · exact advance_cursorChar _

/-- Within its row, a backspace blanks the cell before the cursor, and leaves the
remembered character in the one it came from. -/
theorem backspace_within {w : Writer} (hcol : 0 < w.col) :
    w.backspace.row = w.row ∧ w.backspace.col = w.col - 1 ∧ w.backspace.cols = w.cols ∧
      w.backspace.rows = w.rows ∧
      ∀ r c, w.backspace.shown r c = if r = w.row ∧ c = w.col - 1 then ' '
        else if r = w.row ∧ c = w.col then w.cursorChar else w.shown r c := by
  rw [backspace_inside hcol]
  refine ⟨rfl, rfl, rfl, rfl, ?_⟩
  intro r c
  rw [writeGlyph_shown]
  show (if r = w.row ∧ c = w.col - 1 then ' ' else w.cursorHide.shown r c) = _
  rw [cursorHide_shown]

/-- With a space remembered, a backspace leaves everything from the cursor on blank,
also when it goes back to the row above. -/
theorem BlankFrom.backspace {w : Writer} (h : w.BlankFrom) (hspace : w.cursorChar = ' ') :
    w.backspace.BlankFrom := by
  rcases Nat.eq_zero_or_pos w.col with hzero | hcol
  · have hhide : ∀ r c, w.cursorHide.shown r c = if r = w.row ∧ c = w.col then ' '
        else w.shown r c := by
      intro r c
      rw [cursorHide_shown, hspace]
    rcases Nat.eq_zero_or_pos w.row with hrow | hrow
    · rw [backspace_origin (by omega) (by omega)]
      refine ⟨h.below.cursorHide, ?_⟩
      intro c hc hc'
      rw [hhide]
      split
      · rfl
      · exact h.right c hc hc'
    · have heq := backspace_wraps (Nat.not_lt.mpr (Nat.le_of_eq hzero)) hrow
      have hshown : ∀ r c, w.backspace.shown r c = if r = w.row - 1 ∧ c = w.cols - 1 then ' '
          else if r = w.row ∧ c = w.col then ' ' else w.shown r c := by
        intro r c
        rw [heq, writeGlyph_shown]
        show (if r = w.row - 1 ∧ c = w.cols - 1 then ' ' else w.cursorHide.shown r c) = _
        rw [hhide]
      have hrow' : w.backspace.row = w.row - 1 := by rw [heq]; rfl
      have hcol' : w.backspace.col = w.cols - 1 := by rw [heq]; rfl
      have hrows' : w.backspace.rows = w.rows := by rw [heq]; rfl
      have hcols' : w.backspace.cols = w.cols := by rw [heq]; rfl
      refine ⟨?_, ?_⟩
      · intro r c hr hr' hc
        rw [hrow'] at hr
        rw [hrows'] at hr'
        rw [hcols'] at hc
        rw [hshown, if_neg (fun h => by omega)]
        split
        · rfl
        · rcases Nat.eq_or_lt_of_le (show w.row ≤ r by omega) with rfl | hlow
          · exact h.right c (by omega) hc
          · exact h.below r c hlow hr' hc
      · intro c hc hc'
        rw [hcol'] at hc
        rw [hcols'] at hc'
        rw [hrow', hshown, if_pos ⟨rfl, by omega⟩]
  · obtain ⟨h₁, h₂, h₃, h₄, h₅⟩ := backspace_within hcol
    refine ⟨?_, ?_⟩
    · intro r c hr hr' hc
      rw [h₁] at hr
      rw [h₄] at hr'
      rw [h₃] at hc
      rw [h₅, if_neg (fun h => by omega), if_neg (fun h => by omega)]
      exact h.below r c hr hr' hc
    · intro c hc hc'
      rw [h₂] at hc
      rw [h₃] at hc'
      rw [h₁, h₅, hspace]
      split
      · rfl
      · rename_i hne
        split
        · rfl
        · exact h.right c (by omega) hc'

/-- Any character leaves what follows the cursor blank, except a backspace that leaves
a remembered character behind. -/
theorem BlankFrom.writeChar {w : Writer} (h : w.BlankFrom) {ch : Char}
    (hquiet : w.cursorChar = ' ' ∨ ch ≠ '\x08') : (w.writeChar ch).BlankFrom := by
  by_cases hline : ch = '\n'
  · rw [hline]
    exact h.below.lineFeed
  · by_cases hback : ch = '\x08'
    · have hspace : w.cursorChar = ' ' := by
        rcases hquiet with hspace | hne
        · exact hspace
        · exact absurd hback hne
      rw [writeChar_eq, if_neg hline, if_pos hback]
      refine BlankFrom.backspace (w := w.cursorHide) ⟨h.below.cursorHide, ?_⟩ hspace
      intro c hc hc'
      rw [cursorHide_row, cursorHide_shown, hspace]
      split
      · rfl
      · exact h.right c hc hc'
    · rw [writeChar_eq, if_neg hline, if_neg hback]
      apply BlankFrom.advance
      · intro r c hr hr' hc
        rw [writeGlyph_shown, if_neg (fun hrc => Nat.ne_of_gt hr hrc.1)]
        exact h.below.cursorHide r c hr hr' hc
      · intro c hc hc'
        rw [writeGlyph_shown, if_neg (fun hrc => Nat.ne_of_gt hc hrc.2), cursorHide_shown,
          if_neg (fun hrc => Nat.ne_of_gt hc hrc.2)]
        exact h.right c (Nat.le_of_lt hc) hc'

/-- What stands on the cursor's row does not matter to the rows below it. -/
theorem BlankBelow.writeChar {w : Writer} (h : w.BlankBelow) {ch : Char} (hback : ch ≠ '\x08') :
    (w.writeChar ch).BlankBelow := by
  by_cases hline : ch = '\n'
  · rw [hline]
    exact h.lineFeed.below
  · have hglyph : (w.cursorHide.writeGlyph ch w.fg w.bg).BlankBelow := by
      intro r c hr hr' hc
      rw [writeGlyph_shown, if_neg (fun hrc => Nat.ne_of_gt hr hrc.1)]
      exact h.cursorHide r c hr hr' hc
    rw [writeChar_eq, if_neg hline, if_neg hback, Writer.advance]
    split
    · exact hglyph
    · exact hglyph.nextRow.below

/-- Text without a backspace in it, or after a remembered space. -/
theorem BlankFrom.print (t : Text) : ∀ (w : Writer), w.BlankFrom →
    (w.cursorChar = ' ' ∨ '\x08' ∉ t) →
    (w.print t).BlankFrom ∧ (w.print t).cursorChar = w.cursorChar := by
  induction t with
  | nil =>
      intro w h _
      exact ⟨h, rfl⟩
  | cons ch t ih =>
      intro w h hquiet
      have hchar := writeChar_cursorChar w ch
      have hhere : w.cursorChar = ' ' ∨ ch ≠ '\x08' := by
        apply hquiet.imp id
        rintro hno rfl
        exact hno List.mem_cons_self
      have hrest : (w.writeChar ch).cursorChar = ' ' ∨ '\x08' ∉ t := by
        rw [hchar]
        apply hquiet.imp id
        intro hno hmem
        exact hno (List.mem_cons_of_mem _ hmem)
      obtain ⟨h₁, h₂⟩ := ih (w.writeChar ch) (h.writeChar hhere) hrest
      exact ⟨h₁, h₂.trans hchar⟩

/-- The same of a text that begins with a line feed, wherever on the row it begins. -/
theorem BlankBelow.print {w : Writer} (h : w.BlankBelow) {t : Text}
    (hquiet : w.cursorChar = ' ' ∨ '\x08' ∉ t) :
    (w.print ('\n' :: t)).BlankFrom ∧ (w.print ('\n' :: t)).cursorChar = w.cursorChar := by
  have hchar := writeChar_cursorChar w '\n'
  obtain ⟨h₁, h₂⟩ := BlankFrom.print t _ h.lineFeed (by rwa [hchar])
  exact ⟨h₁, h₂.trans hchar⟩

theorem BlankFrom.setColors {w : Writer} (h : w.BlankFrom) (fg bg : Color) :
    (w.setColors fg bg).BlankFrom := ⟨h.below, h.right⟩

theorem clear_blankFrom (w : Writer) : w.clear.BlankFrom := ⟨fun _ _ _ _ _ => rfl, fun _ _ _ => rfl⟩

/-- No text among some printing operations has a backspace in it. -/
def Quiet (ops : List Op) : Prop := ∀ t, Op.print t ∈ ops → '\x08' ∉ t

/-- A command's output leaves what follows the cursor blank. -/
theorem BlankFrom.perform (ops : List Op) : ∀ (w : Writer), w.BlankFrom →
    (w.cursorChar = ' ' ∨ Quiet ops) →
    (ops.foldl Writer.perform w).BlankFrom ∧
      ((ops.foldl Writer.perform w).cursorChar = w.cursorChar ∨
        (ops.foldl Writer.perform w).cursorChar = ' ') := by
  induction ops with
  | nil =>
      intro w h _
      exact ⟨h, Or.inl rfl⟩
  | cons op ops ih =>
      intro w h hquiet
      have hop : (w.perform op).BlankFrom ∧
          ((w.perform op).cursorChar = w.cursorChar ∨ (w.perform op).cursorChar = ' ') := by
        rcases op with t | color | - | -
        · obtain ⟨h₁, h₂⟩ := BlankFrom.print t w h (hquiet.imp id fun hq => hq t List.mem_cons_self)
          exact ⟨h₁, Or.inl h₂⟩
        · exact ⟨h.setColors _ _, Or.inl rfl⟩
        · exact ⟨h.setColors _ _, Or.inl rfl⟩
        · exact ⟨clear_blankFrom w, Or.inr rfl⟩
      have hrest : (w.perform op).cursorChar = ' ' ∨ Quiet ops := by
        rcases hquiet with hspace | hq
        · left
          rcases hop.2 with heq | heq
          · exact heq.trans hspace
          · exact heq
        · exact Or.inr fun t ht => hq t (List.mem_cons_of_mem _ ht)
      obtain ⟨h₁, h₂⟩ := ih (w.perform op) hop.1 hrest
      refine ⟨h₁, ?_⟩
      rcases h₂ with h₂ | h₂
      · rw [List.foldl_cons, h₂]
        exact hop.2
      · exact Or.inr h₂

/-- Output that clears the screen leaves what follows the cursor blank, whatever was there. -/
theorem perform_cleared {ops : List Op} (h : .clear ∈ ops) (w : Writer) :
    (ops.foldl Writer.perform w).BlankFrom ∧ (ops.foldl Writer.perform w).cursorChar = ' ' := by
  obtain ⟨before, after, rfl⟩ := List.append_of_mem h
  rw [List.foldl_append, List.foldl_cons]
  obtain ⟨hblank, hchar⟩ := BlankFrom.perform after (before.foldl Writer.perform w).clear
    (clear_blankFrom _) (Or.inl rfl)
  refine ⟨hblank, ?_⟩
  rcases hchar with hchar | hchar
  · exact hchar
  · exact hchar

end Writer

end Amaterasu
