/-
Which cells an operation of the writer changes.

A `Page` is what a screen is meant to show: the last character written to each cell,
moved up by a scroll and blank after a clear.  The writer keeps no such thing.  It
remembers one character, draws it over the cursor's cell before anything else happens
there, and learns a new one only from `cursor_show` and `clear`.  So an operation that
draws and then leaves does to the page what it should exactly when the cursor's cell
shows the remembered character; printing a character is right in any case, since it
draws over the same cell once more.
-/
import Amaterasu.Lib.Run
import Amaterasu.Shell.Writer

namespace Amaterasu

/-- What a screen is meant to show, by row and column. -/
abbrev Page := Nat → Nat → Char

namespace Page

def put (p : Page) (r c : Nat) (ch : Char) : Page :=
  fun r' c' => if r' = r ∧ c' = c then ch else p r' c'

/-- A screen of `rows` rows scrolled up by one. -/
def scroll (p : Page) (rows : Nat) : Page := fun r c => if r + 1 < rows then p (r + 1) c else ' '

def blank : Page := fun _ _ => ' '

@[simp] theorem put_self (p : Page) (r c : Nat) : p.put r c (p r c) = p := by
  funext r' c'
  unfold put
  split
  · rename_i h
    rw [h.1, h.2]
  · rfl

theorem put_put (p : Page) (r c : Nat) (a b : Char) : (p.put r c a).put r c b = p.put r c b := by
  funext r' c'
  unfold put
  split
  · rfl
  · rfl

theorem put_eq_iff {p : Page} {r c : Nat} {ch : Char} : p.put r c ch = p ↔ p r c = ch := by
  constructor
  · intro h
    rw [← h]
    exact if_pos ⟨rfl, rfl⟩
  · rintro rfl
    exact put_self p r c

end Page

namespace Writer

/-! ### Operations as steps -/

inductive Event
  | writeChar (ch : Char)
  | backspace
  | setCol (col : Nat)
  | cursorShow (ch : Char)
  | cursorHide
  | tickCursor
  | setColors (fg bg : Color)
  | clear

def step (w : Writer) : Event → Writer
  | .writeChar ch => w.writeChar ch
  | .backspace => w.backspace
  | .setCol col => w.setCol col
  | .cursorShow ch => w.cursorShow ch
  | .cursorHide => w.cursorHide
  | .tickCursor => w.tickCursor
  | .setColors fg bg => w.setColors fg bg
  | .clear => w.clear

/-- Where a backspace goes, unless the cursor is in the first cell. -/
def backCell (w : Writer) : Option (Nat × Nat) :=
  if w.col > 0 then some (w.row, w.col - 1)
  else if w.row > 0 then some (w.row - 1, w.cols - 1)
  else none

/-- What becomes of the page when the cursor goes to the next row. -/
def feed (w : Writer) (p : Page) : Page := if w.row + 1 < w.rows then p else p.scroll w.rows

/-- A backspace blanks the cell it moves back onto and no other. -/
def rubOut (w : Writer) (p : Page) : Page :=
  match w.backCell with
  | some (r, c) => p.put r c ' '
  | none => p

/-- What an operation is to do to a page. -/
def intended (w : Writer) (p : Page) : Event → Page
  | .writeChar ch =>
      if ch = '\n' then w.feed p
      else if ch = '\x08' then w.rubOut p
      else if w.col + 1 < w.cols then p.put w.row w.col ch
      else w.feed (p.put w.row w.col ch)
  | .backspace => w.rubOut p
  | .clear => Page.blank
  | _ => p

/-- An operation touches the cells it is to touch and no others. -/
def TouchesOnly (w : Writer) (e : Event) : Prop := (w.step e).shown = w.intended w.shown e

/-- The cursor is shown over the character that is there. -/
def Honest (w : Writer) : Event → Prop
  | .cursorShow ch => ch = w.shown w.row w.col
  | _ => True

instance (w : Writer) : (e : Event) → Decidable (w.Honest e)
  | .cursorShow ch => inferInstanceAs (Decidable (ch = w.shown w.row w.col))
  | .writeChar _ => isTrue trivial
  | .backspace => isTrue trivial
  | .setCol _ => isTrue trivial
  | .cursorHide => isTrue trivial
  | .tickCursor => isTrue trivial
  | .setColors _ _ => isTrue trivial
  | .clear => isTrue trivial

/-- The remembered character is the one in the cursor's cell. -/
def Remembers (w : Writer) : Prop := w.shown w.row w.col = w.cursorChar

/-- What an operation relies on.  A line feed that scrolls the only row away leaves nothing
of what it drew. -/
def InStep (w : Writer) : Event → Prop
  | .writeChar ch =>
      if ch = '\n' then w.rows = 1 ∨ w.Remembers else if ch = '\x08' then w.Remembers else True
  | .backspace => w.Remembers
  | .cursorHide => w.Remembers
  | .tickCursor => w.Remembers
  | _ => True

instance (w : Writer) : Decidable w.Remembers := inferInstanceAs (Decidable (_ = _))

instance (w : Writer) : (e : Event) → Decidable (w.InStep e)
  | .writeChar ch =>
      inferInstanceAs (Decidable (if ch = '\n' then w.rows = 1 ∨ w.Remembers
        else if ch = '\x08' then w.Remembers else True))
  | .backspace => inferInstanceAs (Decidable w.Remembers)
  | .cursorHide => inferInstanceAs (Decidable w.Remembers)
  | .tickCursor => inferInstanceAs (Decidable w.Remembers)
  | .setCol _ => isTrue trivial
  | .cursorShow _ => isTrue trivial
  | .setColors _ _ => isTrue trivial
  | .clear => isTrue trivial

/-- The last character written to each cell, from a page on. -/
def written (p : Page) (trace : List (Writer × Event)) : Page :=
  trace.foldl (fun p e => e.1.intended p e.2) p

/-! ### What each operation draws -/

theorem drawCursorCell_page (w : Writer) (v : Bool) :
    (w.drawCursorCell v).shown = Page.put w.shown w.row w.col w.cursorChar := by
  funext r c
  exact drawCursorCell_shown w v r c

theorem cursorHide_page (w : Writer) :
    w.cursorHide.shown = Page.put w.shown w.row w.col w.cursorChar := by
  funext r c
  exact cursorHide_shown w r c

theorem cursorShow_page (w : Writer) (ch : Char) :
    (w.cursorShow ch).shown = Page.put w.shown w.row w.col ch := by
  funext r c
  exact cursorShow_shown w ch r c

theorem nextRow_page (w : Writer) : w.nextRow.shown = w.feed w.shown := by
  unfold nextRow feed
  split
  · rfl
  · funext r c
    show (if r + 1 < w.rows then w.cells (r + 1) c else ⟨' ', w.fg, w.bg⟩).ch
      = if r + 1 < w.rows then (w.cells (r + 1) c).ch else ' '
    split
    · rfl
    · rfl

theorem advance_page (w : Writer) :
    w.advance.shown = if w.col + 1 < w.cols then w.shown else w.feed w.shown := by
  unfold advance
  split
  · rfl
  · exact nextRow_page w

theorem writeGlyph_page (w : Writer) (ch : Char) (fg bg : Color) :
    (w.writeGlyph ch fg bg).shown = Page.put w.shown w.row w.col ch := by
  funext r c
  exact writeGlyph_shown w ch fg bg r c

theorem backspace_page (w : Writer) :
    w.backspace.shown = w.rubOut (Page.put w.shown w.row w.col w.cursorChar) := by
  rw [← cursorHide_page]
  unfold rubOut backCell
  by_cases hcol : w.col > 0
  · rw [if_pos hcol, backspace_inside hcol, writeGlyph_page]
    rfl
  · by_cases hrow : w.row > 0
    · rw [if_neg hcol, if_pos hrow, backspace_wraps hcol hrow, writeGlyph_page]
      rfl
    · rw [if_neg hcol, if_neg hrow, backspace_origin hcol hrow]

theorem writeChar_page (w : Writer) (ch : Char) :
    (w.writeChar ch).shown = w.intended (Page.put w.shown w.row w.col w.cursorChar)
      (.writeChar ch) := by
  rw [writeChar_eq, intended]
  by_cases hline : ch = '\n'
  · rw [if_pos hline, if_pos hline, nextRow_page, cursorHide_page]
    rfl
  · rw [if_neg hline, if_neg hline]
    by_cases hback : ch = '\x08'
    · -- `write_char` draws the cursor's cell once more than `backspace` alone.
      rw [if_pos hback, if_pos hback, backspace_page, cursorHide_page]
      exact congrArg w.rubOut (Page.put_put w.shown w.row w.col w.cursorChar w.cursorChar)
    · rw [if_neg hback, if_neg hback, advance_page, writeGlyph_page, cursorHide_page]
      rfl

/-- Printing a character draws over whatever was drawn there. -/
theorem writeChar_glyph (w : Writer) {ch : Char} (hplain : Plain ch) :
    (w.writeChar ch).shown = w.intended w.shown (.writeChar ch) := by
  rw [writeChar_page, intended, intended, if_neg hplain.1, if_neg hplain.1, if_neg hplain.2,
    if_neg hplain.2, Page.put_put]

/-! ### When an operation touches only its own cells -/

/-- On more than one row, a line feed shows what was drawn in the cell it leaves. -/
theorem feed_put_iff (w : Writer) (p : Page) (ch : Char) :
    w.feed (p.put w.row w.col ch) = w.feed p ↔ w.rows = 1 ∨ p w.row w.col = ch := by
  unfold feed
  by_cases hrow : w.row + 1 < w.rows
  · rw [if_pos hrow, if_pos hrow, Page.put_eq_iff]
    constructor
    · exact Or.inr
    · rintro (hone | h)
      · omega
      · exact h
  · have hlast : w.row + 1 = w.rows := Nat.le_antisymm w.row_lt (Nat.not_lt.mp hrow)
    rw [if_neg hrow, if_neg hrow]
    constructor
    · intro h
      rcases Nat.eq_zero_or_pos w.row with hzero | hpos
      · left
        omega
      · right
        have hcell := congrFun (congrFun h (w.row - 1)) w.col
        unfold Page.scroll at hcell
        rw [if_pos (by omega), if_pos (by omega), Nat.sub_add_cancel hpos] at hcell
        rw [← hcell]
        exact if_pos ⟨rfl, rfl⟩
    · rintro (hone | h)
      · funext r c
        unfold Page.scroll
        rw [if_neg (by omega), if_neg (by omega)]
      · rw [Page.put_eq_iff.mpr h]

/-- The cell a backspace goes to is not the one it comes from. -/
theorem rubOut_put_iff (w : Writer) (p : Page) (ch : Char) :
    w.rubOut (p.put w.row w.col ch) = w.rubOut p ↔ p w.row w.col = ch := by
  constructor
  · intro h
    have hcell := congrFun (congrFun h w.row) w.col
    have hother : ∀ q : Page, w.rubOut q w.row w.col = q w.row w.col := by
      intro q
      unfold rubOut backCell
      by_cases hcol : w.col > 0
      · rw [if_pos hcol]
        exact if_neg fun hc => by omega
      · rw [if_neg hcol]
        by_cases hrow : w.row > 0
        · rw [if_pos hrow]
          exact if_neg fun hc => by omega
        · rw [if_neg hrow]
    rw [hother, hother] at hcell
    rw [← hcell]
    exact if_pos ⟨rfl, rfl⟩
  · intro h
    rw [Page.put_eq_iff.mpr h]

/-- An operation that only draws the cursor's cell changes nothing if it is remembered. -/
theorem draw_iff (w : Writer) :
    Page.put w.shown w.row w.col w.cursorChar = w.shown ↔ w.Remembers := Page.put_eq_iff

theorem tickCursor_page (w : Writer) :
    w.tickCursor.shown = Page.put w.shown w.row w.col w.cursorChar :=
  drawCursorCell_page _ _

theorem touchesOnly_iff (w : Writer) (e : Event) (hshow : w.Honest e) :
    w.TouchesOnly e ↔ w.InStep e := by
  unfold TouchesOnly
  rcases e with ch | - | col | ch | - | - | ⟨fg, bg⟩ | -
  · show (w.writeChar ch).shown = _ ↔ _
    by_cases hline : ch = '\n'
    · rw [writeChar_page, intended, intended, InStep, if_pos hline, if_pos hline, if_pos hline]
      exact feed_put_iff w w.shown w.cursorChar
    · by_cases hback : ch = '\x08'
      · rw [writeChar_page, intended, intended, InStep, if_neg hline, if_neg hline, if_neg hline,
          if_pos hback, if_pos hback, if_pos hback]
        exact rubOut_put_iff w w.shown w.cursorChar
      · rw [writeChar_glyph w ⟨hline, hback⟩, InStep, if_neg hline, if_neg hback]
        exact iff_of_true rfl trivial
  · show w.backspace.shown = _ ↔ _
    rw [backspace_page]
    exact rubOut_put_iff w w.shown w.cursorChar
  · exact iff_of_true rfl trivial
  · refine iff_of_true ?_ trivial
    show (w.cursorShow ch).shown = w.shown
    rw [cursorShow_page, show ch = w.shown w.row w.col from hshow, Page.put_self]
  · show w.cursorHide.shown = w.shown ↔ _
    rw [cursorHide_page]
    exact w.draw_iff
  · show w.tickCursor.shown = w.shown ↔ _
    rw [tickCursor_page]
    exact w.draw_iff
  · exact iff_of_true rfl trivial
  · exact iff_of_true rfl trivial

/-! ### Runs -/

variable {cols rows : Nat} {cells : Nat → Nat → Cell} {w : Writer} {trace : List (Writer × Event)}

/-- Operations that touch only their own cells leave the last characters written. -/
theorem shown_eq_written {start : Writer} (hrun : Run (Next step) start trace w)
    (htouch : ∀ e ∈ trace, e.1.TouchesOnly e.2) : w.shown = written start.shown trace := by
  induction hrun with
  | nil => rfl
  | @snoc trace t t' e h hs ih =>
      have hlast : t.TouchesOnly e := htouch (t, e) (by simp)
      have hprev := ih fun e' he' => htouch e' (List.mem_append_left _ he')
      rw [← show t.step e = t' from hs, hlast, hprev, written, written, List.foldl_append]
      rfl

/--
**Printing touches only its own cells** in a run exactly when every line feed, backspace
and redraw of the cursor finds the remembered character in the cursor's cell; and then
every cell shows the last character written to it.
-/
theorem printing_touches_iff (hcols : 0 < cols) (hrows : 0 < rows)
    (hrun : Run (Next step) (Writer.new cols rows cells hcols hrows) trace w)
    (hshow : ∀ e ∈ trace, e.1.Honest e.2) :
    ((∀ e ∈ trace, e.1.TouchesOnly e.2) ↔ ∀ e ∈ trace, e.1.InStep e.2) ∧
      ((∀ e ∈ trace, e.1.InStep e.2) →
        w.shown = written (fun r c => (cells r c).ch) trace) := by
  have hiff : (∀ e ∈ trace, e.1.TouchesOnly e.2) ↔ ∀ e ∈ trace, e.1.InStep e.2 := by
    constructor
    · intro h e he
      exact (touchesOnly_iff e.1 e.2 (hshow e he)).mp (h e he)
    · intro h e he
      exact (touchesOnly_iff e.1 e.2 (hshow e he)).mpr (h e he)
  refine ⟨hiff, ?_⟩
  intro h
  exact shown_eq_written hrun (hiff.mpr h)

/-- A character over the cursor, and a line feed where the cursor is on a blank. -/
theorem printing_touches_overwrite :
    ∃ (trace : List (Writer × Event)) (w : Writer),
      Run (Next step) (Writer.new 80 25 (fun _ _ => ⟨'#', COLOR_FG, COLOR_BG⟩) (by decide)
        (by decide)) trace w ∧ trace.length = 8 ∧ w.shown 0 0 = 'b' ∧ w.shown 1 0 = 'c' ∧
      w.shown = written (fun _ _ => '#') trace := by
  refine ⟨_, _, Run.ofActions step _
    [.clear, .writeChar 'a', .setCol 0, .cursorShow 'a', .writeChar 'b', .cursorShow ' ',
      .writeChar '\n', .writeChar 'c'], rfl, rfl, rfl, ?_⟩
  exact (printing_touches_iff (by decide) (by decide) (Run.ofActions step _ _)
    (by decide +kernel)).2 (by decide +kernel)

/-- The cursor is put back over a character, and two line feeds are printed: the second one
shows the character in a cell it was never written to. -/
theorem printing_ghost :
    ∃ (trace : List (Writer × Event)) (w : Writer),
      Run (Next step) (Writer.new 80 25 (fun _ _ => ⟨'#', COLOR_FG, COLOR_BG⟩) (by decide)
        (by decide)) trace w ∧ (∀ e ∈ trace, e.1.Honest e.2) ∧
      (∃ e ∈ trace, e.2 = .writeChar '\n' ∧ e.1.row + 1 < e.1.rows ∧
        (e.1.step e.2).shown 1 0 ≠ e.1.shown 1 0) ∧
      w.blinkOn = false ∧ w.shown 1 0 = 'a' ∧ written (fun _ _ => '#') trace 1 0 = ' ' :=
  ⟨_, _, Run.ofActions step _ [.clear, .writeChar 'a', .setCol 0, .cursorShow 'a',
    .writeChar '\n', .writeChar '\n'], by decide +kernel,
    ⟨_, List.mem_of_getElem? (i := 5) rfl, rfl, by decide +kernel, by decide +kernel⟩,
    by decide +kernel⟩

end Writer

end Amaterasu
