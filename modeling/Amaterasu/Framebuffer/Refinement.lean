/-
The writer on bytes and the writer on cells.

The writer of the shell's model moves on a grid and leaves a cell wherever it draws; this is
the proof that the writer on bytes shows what it does.  Each operation succeeds and keeps the
two in step, so the position is on the grid between operations because it is a field of the
other writer that it is.  The one state that is not on the grid is inside `write_char`,
between the character and the scroll; what is said of it is that the scroll repairs it.
-/
import Amaterasu.Framebuffer.Picture
import Amaterasu.Framebuffer.Writer

namespace Amaterasu

open Ramfs.Checked (usizeAdd_eq usizeSub_eq usizeMul_eq)
open FrameBufferInfo (cell_le height_lt stride_lt scroll_le bytesPerPixel_ge len_lt)

namespace FramebufferWriter

variable {info : FrameBufferInfo} {w w' : FramebufferWriter info} {v : Writer}

/-- The buffer shows what the cells are, and the rest of the two is the same. -/
structure Shows (w : FramebufferWriter info) (v : Writer) : Prop where
  cols : v.cols = info.cols
  rows : v.rows = info.rows
  col : w.col = v.col
  row : w.row = v.row
  fg : w.fg = v.fg
  bg : w.bg = v.bg
  black : v.bg = COLOR_BG
  blinkOn : w.blinkOn = v.blinkOn
  cursorChar : w.cursorChar = v.cursorChar
  picture : info.Pictures w.buffer v.cells
  /-- Glyphs are drawn in cells. -/
  drawn : ∀ p ∈ w.drawn, ∃ r < info.rows, ∃ c < info.cols, p = (c * GLYPH_W, r * GLYPH_H)

namespace Shows

theorem col_lt (h : Shows w v) : w.col < info.cols := by
  rw [h.col, ← h.cols]
  exact v.col_lt

theorem row_lt (h : Shows w v) : w.row < info.rows := by
  rw [h.row, ← h.rows]
  exact v.row_lt

/-! ### Drawing -/

theorem putGlyph (h : Shows w v) (ch : Char) (fg bg : Color) :
    ∃ w', w.putGlyph ch fg bg = some w' ∧ Shows w' (v.writeGlyph ch fg bg) := by
  obtain ⟨hheight, hwidth⟩ := cell_le h.row_lt h.col_lt
  have hstride := info.width_le
  have hheight' : info.height < 2 ^ 63 := height_lt
  have hstride' : info.stride < 2 ^ 63 := stride_lt
  have hpx : w.col * GLYPH_W = w.col * 8 := rfl
  have hpy : w.row * GLYPH_H = w.row * 8 := rfl
  obtain ⟨buffer, heq, hpaint⟩ :=
    FrameBufferInfo.writeGlyph_spec w.buffer ch h.row_lt h.col_lt fg bg
  refine ⟨{ w with buffer := buffer, drawn := (w.col * GLYPH_W, w.row * GLYPH_H) :: w.drawn },
    ?_, { h with picture := ?_, drawn := ?_ }⟩
  · unfold FramebufferWriter.putGlyph
    rw [usizeMul_eq (by omega), Option.bind_eq_bind, Option.bind_some, usizeMul_eq (by omega),
      Option.bind_some, heq]
    rfl
  · have hpic := h.picture.glyph h.row_lt h.col_lt hpaint
    rw [h.row, h.col] at hpic
    exact hpic
  · intro p hp
    rcases List.mem_cons.mp hp with rfl | hp
    · exact ⟨w.row, h.row_lt, w.col, h.col_lt, rfl⟩
    · exact h.drawn p hp

theorem drawCursorCell (h : Shows w v) (visible : Bool) :
    ∃ w', w.drawCursorCell visible = some w' ∧ Shows w' (v.drawCursorCell visible) := by
  unfold FramebufferWriter.drawCursorCell Writer.drawCursorCell
  rw [h.cursorChar, h.fg, h.bg]
  cases visible with
  | true => exact h.putGlyph v.cursorChar v.bg v.fg
  | false => exact h.putGlyph v.cursorChar v.fg v.bg

/-- The cursor is hidden before a character is printed. -/
theorem hide (h : Shows w v) : ∃ w', w.drawCursorCell false = some w' ∧
    Shows ({ w' with blinkOn := false } : FramebufferWriter info) v.cursorHide := by
  obtain ⟨w', heq, hw'⟩ := h.drawCursorCell false
  exact ⟨w', heq, { hw' with blinkOn := rfl }⟩

theorem cursorShow (h : Shows w v) (ch : Char) :
    ∃ w', w.cursorShow ch = some w' ∧ Shows w' (v.cursorShow ch) :=
  drawCursorCell (w := { w with cursorChar := ch, blinkOn := true })
    (v := { v with cursorChar := ch, blinkOn := true })
    { h with blinkOn := rfl, cursorChar := rfl } true

theorem cursorHide (h : Shows w v) : ∃ w', w.cursorHide = some w' ∧ Shows w' v.cursorHide :=
  drawCursorCell (w := { w with blinkOn := false }) (v := { v with blinkOn := false })
    { h with blinkOn := rfl } false

theorem tickCursor (h : Shows w v) : ∃ w', w.tickCursor = some w' ∧ Shows w' v.tickCursor := by
  unfold FramebufferWriter.tickCursor Writer.tickCursor
  rw [h.blinkOn]
  exact drawCursorCell (w := { w with blinkOn := !v.blinkOn })
    (v := { v with blinkOn := !v.blinkOn }) { h with blinkOn := rfl } (!v.blinkOn)

theorem setCol (h : Shows w v) (col : ℕ) : Shows (w.setCol col) (v.setCol col) := by
  refine { h with col := ?_ }
  show min col (info.cols - 1) = min col (v.cols - 1)
  rw [h.cols]

theorem setFg (h : Shows w v) (color : Color) :
    Shows (w.setColors color COLOR_BG) (v.setColors color COLOR_BG) :=
  { h with fg := rfl, bg := rfl, black := rfl }

theorem clear (h : Shows w v) : ∃ w', w.clear = some w' ∧ Shows w' v.clear := by
  obtain ⟨buffer, heq, hpaint⟩ := FrameBufferInfo.fill_spec w.buffer (Nat.zero_le info.total) w.bg
  rw [Nat.zero_mul] at heq
  refine ⟨{ w with buffer := buffer, col := 0, row := 0, blinkOn := false, cursorChar := ' ' },
    ?_, { h with
      col := rfl, row := rfl, blinkOn := rfl, cursorChar := rfl, picture := ?_ }⟩
  · unfold FramebufferWriter.clear
    rw [heq]
    rfl
  · have hblack : w.bg = COLOR_BG := h.bg.trans h.black
    have hpic := FrameBufferInfo.pictures_blank
      (fun n hn => (hpaint.inside n hn (Nat.zero_le n)).trans hblack) v.fg
    rw [← h.black] at hpic
    exact hpic

theorem backspace (h : Shows w v) : ∃ w', w.backspace = some w' ∧ Shows w' v.backspace := by
  obtain ⟨u, heq, hu⟩ := h.hide
  have hcol : u.col = v.col := hu.col
  have hrow : u.row = v.row := hu.row
  have hfg : u.fg = v.fg := hu.fg
  have hbg : u.bg = v.bg := hu.bg
  have hcols := h.cols
  have hpos := v.cols_pos
  unfold FramebufferWriter.backspace
  rw [heq, Option.bind_eq_bind, Option.bind_some]
  dsimp only
  by_cases hinside : v.col > 0
  · rw [if_pos (by omega), Writer.backspace_inside hinside, ← hfg, ← hbg]
    refine putGlyph ?_ ' ' u.fg u.bg
    exact { hu with col := congrArg (· - 1) hcol }
  · by_cases hwraps : v.row > 0
    · rw [if_neg (by omega), if_pos (by omega), usizeSub_eq (by omega),
        Writer.backspace_wraps hinside hwraps, ← hfg, ← hbg]
      refine putGlyph ?_ ' ' u.fg u.bg
      exact { hu with col := congrArg (· - 1) hcols.symm, row := congrArg (· - 1) hrow }
    · rw [if_neg (by omega), if_neg (by omega), Writer.backspace_origin hinside hwraps]
      exact ⟨_, rfl, hu⟩

end Shows

/-! ### Printing -/

theorem scrollUp_spec (w : FramebufferWriter info) :
    ∃ buffer, w.scrollUp = some { w with buffer := buffer } ∧
      info.Scrolled w.bg w.buffer buffer := by
  obtain ⟨moved, buffer, hcopy, hfill, hscrolled⟩ := FrameBufferInfo.scroll_spec w.buffer w.bg
  have hbytes : info.stride * info.bytesPerPixel * GLYPH_H
      = 8 * info.stride * info.bytesPerPixel := by
    rw [Nat.mul_comm, Nat.mul_assoc]
    rfl
  have hle : 8 * info.stride * info.bytesPerPixel ≤ info.len :=
    Nat.mul_le_mul_right _ scroll_le
  have hmax : info.len < 2 ^ 63 := len_lt
  have hrow : info.stride * info.bytesPerPixel ≤ 8 * info.stride * info.bytesPerPixel := by
    rw [Nat.mul_assoc]
    exact Nat.le_mul_of_pos_left _ (by omega)
  have hstart : info.len - 8 * info.stride * info.bytesPerPixel
      = (info.total - 8 * info.stride) * info.bytesPerPixel := (Nat.sub_mul _ _ _).symm
  refine ⟨buffer, ?_, hscrolled⟩
  unfold scrollUp
  rw [usizeMul_eq (by omega), Option.bind_eq_bind, Option.bind_some, usizeMul_eq (by omega),
    Option.bind_some, hbytes, hcopy, Option.bind_eq_bind, Option.bind_some, usizeSub_eq hle,
    hstart, Option.bind_some, hfill]
  rfl

namespace Shows

/-- The next row, after the overflow if there is one. -/
theorem nextRow (h : Shows w v) :
    ∃ d w', w.nextRow = some d ∧ d.overflow = some w' ∧ Shows w' v.nextRow ∧
      (d.row ≥ info.rows → info.RowsUp COLOR_BG d.buffer w'.buffer) := by
  have hheight : info.height < 2 ^ 63 := height_lt
  have hrows : info.rows = info.height / 8 := rfl
  have hrows' := h.rows
  have hrow := h.row
  have hlt := h.row_lt
  have heq : w.nextRow = some { w with col := 0, row := w.row + 1 } := by
    unfold FramebufferWriter.nextRow
    rw [usizeAdd_eq (by omega)]
    rfl
  unfold overflow Writer.nextRow
  by_cases hfull : v.row + 1 < v.rows
  · refine ⟨_, _, heq, if_neg (by dsimp only; omega), ?_, fun hge => ?_⟩
    · rw [dif_pos hfull]
      exact { h with col := rfl, row := congrArg (· + 1) hrow }
    · dsimp only at hge
      omega
  · obtain ⟨buffer, hup, hscrolled⟩ :=
      scrollUp_spec ({ w with col := 0, row := w.row + 1 } : FramebufferWriter info)
    have hblack : w.bg = COLOR_BG := h.bg.trans h.black
    dsimp only at hscrolled
    rw [hblack] at hscrolled
    refine ⟨_, { w with buffer := buffer, col := 0, row := info.rows - 1 }, heq, ?_, ?_,
      fun _ => hscrolled.rowsUp h.picture⟩
    · rw [if_pos (by dsimp only; omega), hup, Option.bind_eq_bind, Option.bind_some,
        usizeSub_eq (by omega)]
      rfl
    · rw [dif_neg hfull]
      have hpic := hscrolled.pictures h.picture v.fg
      rw [← h.black, ← h.rows] at hpic
      exact { h with col := rfl, row := by show info.rows - 1 = v.row; omega, picture := hpic }

/-- A character and the position after it. -/
theorem place (h : Shows w v) (ch : Char) :
    ∃ d w', w.place ch = some d ∧ d.overflow = some w' ∧
      Shows w' (if ch = '\n' then v.nextRow else (v.writeGlyph ch v.fg v.bg).advance) ∧
      (d.row ≥ info.rows → info.RowsUp COLOR_BG d.buffer w'.buffer) := by
  unfold FramebufferWriter.place
  by_cases hline : ch = '\n'
  · rw [if_pos hline, if_pos hline]
    exact h.nextRow
  · obtain ⟨u, heq, hu⟩ := h.putGlyph ch w.fg w.bg
    have hstride : info.stride < 2 ^ 63 := stride_lt
    have hwidth := info.width_le
    have hcols : info.cols = info.width / 8 := rfl
    have hcol : u.col = v.col := hu.col
    have hlt := hu.col_lt
    have hrow := hu.row_lt
    rw [h.fg, h.bg] at heq hu
    rw [if_neg hline, if_neg hline, h.fg, h.bg, heq, Option.bind_eq_bind, Option.bind_some,
      usizeAdd_eq (by omega), Option.bind_eq_bind, Option.bind_some]
    unfold Writer.advance
    by_cases hfit : v.col + 1 < v.cols
    · have hfit' : u.col + 1 < info.cols := by
        rw [hcol, ← h.cols]
        exact hfit
      rw [if_neg (by omega)]
      refine ⟨_, _, rfl, if_neg (by dsimp only; omega), ?_, fun hge => ?_⟩
      · rw [dif_pos (show (v.writeGlyph ch v.fg v.bg).col + 1
          < (v.writeGlyph ch v.fg v.bg).cols from hfit)]
        exact { hu with col := congrArg (· + 1) hcol }
      · dsimp only at hge
        omega
    · have hfit' : ¬ u.col + 1 < info.cols := by
        rw [hcol, ← h.cols]
        exact hfit
      rw [if_pos (by omega), dif_neg (show ¬ (v.writeGlyph ch v.fg v.bg).col + 1
        < (v.writeGlyph ch v.fg v.bg).cols from hfit)]
      exact hu.nextRow

/-- Every character but a backspace goes on to look for an overflow. -/
theorem writeChar_of_ne (h : Shows w v) {ch : Char} (hback : ch ≠ '\x08') :
    ∃ g d w', w.drawCursorCell false = some g ∧
      ({ g with blinkOn := false } : FramebufferWriter info).place ch = some d ∧
      w.writeChar ch = some w' ∧ Shows w' (v.writeChar ch) ∧
      (d.row ≥ info.rows → info.RowsUp COLOR_BG d.buffer w'.buffer) := by
  obtain ⟨g, hhide, hg⟩ := h.hide
  obtain ⟨d, w', hplace, hover, hw', hup⟩ := hg.place ch
  refine ⟨g, d, w', hhide, hplace, ?_, ?_, hup⟩
  · unfold FramebufferWriter.writeChar
    rw [hhide, Option.bind_eq_bind, Option.bind_some, if_neg hback, hplace, Option.bind_some]
    exact hover
  · rw [Writer.writeChar_eq, if_neg hback]
    exact hw'

theorem writeChar (h : Shows w v) (ch : Char) :
    ∃ w', w.writeChar ch = some w' ∧ Shows w' (v.writeChar ch) := by
  by_cases hback : ch = '\x08'
  · obtain ⟨g, hhide, hg⟩ := h.hide
    unfold FramebufferWriter.writeChar
    rw [hhide, Option.bind_eq_bind, Option.bind_some, if_pos hback, Writer.writeChar_eq,
      if_neg (by rw [hback]; decide), if_pos hback]
    exact hg.backspace
  · obtain ⟨-, -, w', -, -, heq, hw', -⟩ := h.writeChar_of_ne hback
    exact ⟨w', heq, hw'⟩

end Shows

/-! ### Runs -/

/-- The operations on cells. -/
def act (v : Writer) : Op → Writer
  | .writeChar ch => v.writeChar ch
  | .backspace => v.backspace
  | .setCol col => v.setCol col
  | .cursorShow ch => v.cursorShow ch
  | .cursorHide => v.cursorHide
  | .tickCursor => v.tickCursor
  | .clear => v.clear
  | .setFg color => v.setColors color COLOR_BG

theorem Shows.perform (h : Shows w v) (op : Op) :
    ∃ w', w.perform op = some w' ∧ Shows w' (act v op) := by
  cases op with
  | writeChar ch => exact h.writeChar ch
  | backspace => exact h.backspace
  | setCol col => exact ⟨_, rfl, h.setCol col⟩
  | cursorShow ch => exact h.cursorShow ch
  | cursorHide => exact h.cursorHide
  | tickCursor => exact h.tickCursor
  | clear => exact h.clear
  | setFg color => exact ⟨_, rfl, h.setFg color⟩

theorem cols_pos (info : FrameBufferInfo) : 0 < info.cols :=
  Nat.div_pos info.width_ge (by decide)

theorem rows_pos (info : FrameBufferInfo) : 0 < info.rows :=
  Nat.div_pos info.height_ge (by decide)

/-- The cells of a zeroed buffer. -/
def blank (info : FrameBufferInfo) : Writer :=
  Writer.new info.cols info.rows (fun _ _ => ⟨' ', COLOR_FG, COLOR_BG⟩) (cols_pos info)
    (rows_pos info)

theorem shows_new (info : FrameBufferInfo) : Shows (new info) (blank info) where
  cols := rfl
  rows := rfl
  col := rfl
  row := rfl
  fg := rfl
  bg := rfl
  black := rfl
  blinkOn := rfl
  cursorChar := rfl
  picture := FrameBufferInfo.pictures_blank (fun _ _ => rfl) COLOR_FG
  drawn := by
    intro p hp
    exact absurd hp List.not_mem_nil

theorem Shows.foldlM (ops : List Op) : ∀ {w : FramebufferWriter info} {v : Writer}, Shows w v →
    ∃ w', ops.foldlM FramebufferWriter.perform w = some w' ∧ Shows w' (ops.foldl act v) := by
  induction ops with
  | nil =>
      intro w v h
      exact ⟨w, rfl, h⟩
  | cons op ops ih =>
      intro w v h
      obtain ⟨u, heq, hu⟩ := h.perform op
      rw [List.foldlM_cons, List.foldl_cons, heq]
      exact ih hu

/-- The writer on bytes never fails, and shows what the writer on cells has. -/
theorem run_shows (info : FrameBufferInfo) (ops : List Op) :
    ∃ w, run info ops = some w ∧ Shows w (ops.foldl act (blank info)) :=
  Shows.foldlM ops (shows_new info)

end FramebufferWriter

open FramebufferWriter

/-- Whatever is done to the writer, nothing panics, the buffer shows the cells that it should,
the position is on the grid, glyphs are drawn in cells and only there, and an overflow moves the
rows of text up by one. -/
theorem text_stays_on_screen (info : FrameBufferInfo) (ops : List Op) :
    ∃ w, run info ops = some w ∧ Shows w (ops.foldl act (blank info)) ∧
      w.col < info.cols ∧ w.row < info.rows ∧
      (∀ p ∈ w.drawn, ∃ r < info.rows, ∃ c < info.cols,
        p = (c * GLYPH_W, r * GLYPH_H) ∧ info.FillsCell p.1 p.2 r c) ∧
      (∀ r < info.rows, ∀ c < info.cols, ∀ ch fg bg, ∃ buffer,
        info.writeGlyph w.buffer ch (c * GLYPH_W) (r * GLYPH_H) fg bg = some buffer ∧
          info.Painted w.buffer buffer (info.InCell r c) (info.cellColor ch fg bg r c)) ∧
      ∀ ch, ch ≠ '\x08' → ∃ g d w', w.drawCursorCell false = some g ∧
        ({ g with blinkOn := false } : FramebufferWriter info).place ch = some d ∧
        w.writeChar ch = some w' ∧
        (d.row ≥ info.rows → info.RowsUp COLOR_BG d.buffer w'.buffer) := by
  obtain ⟨w, heq, hw⟩ := run_shows info ops
  refine ⟨w, heq, hw, hw.col_lt, hw.row_lt, ?_, ?_, ?_⟩
  · intro p hp
    obtain ⟨r, hr, c, hc, rfl⟩ := hw.drawn p hp
    exact ⟨r, hr, c, hc, rfl, FrameBufferInfo.fillsCell hr hc⟩
  · intro r hr c hc ch fg bg
    exact FrameBufferInfo.writeGlyph_spec w.buffer ch hr hc fg bg
  · intro ch hback
    obtain ⟨g, d, w', hhide, hplace, hwrite, -, hup⟩ := hw.writeChar_of_ne hback
    exact ⟨g, d, w', hhide, hplace, hwrite, hup⟩

end Amaterasu
