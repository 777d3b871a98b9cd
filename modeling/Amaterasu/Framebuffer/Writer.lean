/-
The framebuffer's text writer, on the bytes of the screen.

Every operation that draws is here as the source has it, with its products and sums checked
and its slices bounded, so a panic is a `none`.  `write_char` moves the position past the last
row before it scrolls, so a position is two numbers here and not a place on the grid; that it
is one again after each operation is the business of the refinement.  Where glyphs have been
drawn is written down beside the bytes, and only the statements read it.
-/
import Amaterasu.Framebuffer.Pixels

namespace Amaterasu

open Ramfs.Checked (usizeAdd usizeMul)

/-- The writer, for a screen. -/
structure FramebufferWriter (info : FrameBufferInfo) where
  buffer : Mem
  col : ℕ
  row : ℕ
  fg : Color
  bg : Color
  blinkOn : Bool
  cursorChar : Char
  /-- The upper left pixel of each glyph drawn, the last one first. -/
  drawn : List (ℕ × ℕ)

namespace FramebufferWriter

variable {info : FrameBufferInfo}

/-- A writer for a buffer that the boot loader has zeroed. -/
def new (info : FrameBufferInfo) : FramebufferWriter info where
  buffer := fun _ => 0
  col := 0
  row := 0
  fg := COLOR_FG
  bg := COLOR_BG
  blinkOn := false
  cursorChar := ' '
  drawn := []

/-- `write_glyph` at the writer's position. -/
def putGlyph (w : FramebufferWriter info) (ch : Char) (fg bg : Color) :
    Option (FramebufferWriter info) := do
  let px ← usizeMul w.col GLYPH_W
  let py ← usizeMul w.row GLYPH_H
  let buffer ← info.writeGlyph w.buffer ch px py fg bg
  some { w with buffer := buffer, drawn := (px, py) :: w.drawn }

def setCol (w : FramebufferWriter info) (col : ℕ) : FramebufferWriter info :=
  { w with col := min col (info.cols - 1) }

def drawCursorCell (w : FramebufferWriter info) (visible : Bool) :
    Option (FramebufferWriter info) :=
  if visible then w.putGlyph w.cursorChar w.bg w.fg else w.putGlyph w.cursorChar w.fg w.bg

def cursorShow (w : FramebufferWriter info) (ch : Char) : Option (FramebufferWriter info) :=
  { w with cursorChar := ch, blinkOn := true }.drawCursorCell true

def cursorHide (w : FramebufferWriter info) : Option (FramebufferWriter info) :=
  { w with blinkOn := false }.drawCursorCell false

def tickCursor (w : FramebufferWriter info) : Option (FramebufferWriter info) :=
  { w with blinkOn := !w.blinkOn }.drawCursorCell (!w.blinkOn)

def scrollUp (w : FramebufferWriter info) : Option (FramebufferWriter info) := do
  let pixelRow ← usizeMul info.stride info.bytesPerPixel
  let rowBytes ← usizeMul pixelRow GLYPH_H
  let buffer ← info.copyWithin w.buffer rowBytes
  let blankStart ← Ramfs.Checked.usizeSub info.len rowBytes
  let buffer ← info.fill buffer blankStart w.bg
  some { w with buffer := buffer }

def setColors (w : FramebufferWriter info) (fg bg : Color) : FramebufferWriter info :=
  { w with fg := fg, bg := bg }

def clear (w : FramebufferWriter info) : Option (FramebufferWriter info) := do
  let buffer ← info.fill w.buffer 0 w.bg
  some { w with buffer := buffer, col := 0, row := 0, blinkOn := false, cursorChar := ' ' }

def backspace (w : FramebufferWriter info) : Option (FramebufferWriter info) := do
  let w ← w.drawCursorCell false
  let w := { w with blinkOn := false }
  if w.col > 0 then
    ({ w with col := w.col - 1 }).putGlyph ' ' w.fg w.bg
  else if w.row > 0 then do
    let col ← Ramfs.Checked.usizeSub info.cols 1
    ({ w with row := w.row - 1, col := col }).putGlyph ' ' w.fg w.bg
  else some w

/-- Column 0 of the next row, which need not be on the screen. -/
def nextRow (w : FramebufferWriter info) : Option (FramebufferWriter info) := do
  let row ← usizeAdd w.row 1
  some { w with col := 0, row := row }

/-- The arms of `write_char` that do not return. -/
def place (w : FramebufferWriter info) (ch : Char) : Option (FramebufferWriter info) :=
  if ch = '\n' then w.nextRow
  else do
    let w ← w.putGlyph ch w.fg w.bg
    let col ← usizeAdd w.col 1
    if col ≥ info.cols then w.nextRow else some { w with col := col }

/-- Scroll once per overflow, and go back to the last row. -/
def overflow (w : FramebufferWriter info) : Option (FramebufferWriter info) :=
  if w.row ≥ info.rows then do
    let w ← w.scrollUp
    let row ← Ramfs.Checked.usizeSub info.rows 1
    some { w with row := row }
  else some w

def writeChar (w : FramebufferWriter info) (ch : Char) : Option (FramebufferWriter info) := do
  let w ← w.drawCursorCell false
  let w := { w with blinkOn := false }
  if ch = '\x08' then w.backspace
  else do
    let w ← w.place ch
    w.overflow

/-- What the kernel does to the writer.  It sets colours on a black background only. -/
inductive Op
  | writeChar (ch : Char)
  | backspace
  | setCol (col : ℕ)
  | cursorShow (ch : Char)
  | cursorHide
  | tickCursor
  | clear
  | setFg (color : Color)

def perform (w : FramebufferWriter info) : Op → Option (FramebufferWriter info)
  | .writeChar ch => w.writeChar ch
  | .backspace => w.backspace
  | .setCol col => some (w.setCol col)
  | .cursorShow ch => w.cursorShow ch
  | .cursorHide => w.cursorHide
  | .tickCursor => w.tickCursor
  | .clear => w.clear
  | .setFg color => some (w.setColors color COLOR_BG)

/-- Operations one after the other, from a new writer. -/
def run (info : FrameBufferInfo) (ops : List Op) : Option (FramebufferWriter info) :=
  ops.foldlM perform (new info)

end FramebufferWriter

end Amaterasu
