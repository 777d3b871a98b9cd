/-
The bitmap font.

One glyph for each code from 32 to 127, eight rows of eight pixels, the most significant bit
of a row leftmost.
-/
import Mathlib.Data.Nat.Notation

namespace Amaterasu

def GLYPH_W : ℕ := 8
def GLYPH_H : ℕ := 8

def FONT : List (List UInt8) :=
  [[0x00, 0x00, 0x00, 0x00, 0x00, 0x00, 0x00, 0x00],
   [0x18, 0x3C, 0x3C, 0x18, 0x18, 0x00, 0x18, 0x00],
   [0x66, 0x66, 0x24, 0x00, 0x00, 0x00, 0x00, 0x00],
   [0x6C, 0x6C, 0xFE, 0x6C, 0xFE, 0x6C, 0x6C, 0x00],
   [0x18, 0x3E, 0x60, 0x3C, 0x06, 0x7C, 0x18, 0x00],
   [0x00, 0xC6, 0xCC, 0x18, 0x30, 0x66, 0xC6, 0x00],
   [0x38, 0x6C, 0x38, 0x76, 0xDC, 0xCC, 0x76, 0x00],
   [0x18, 0x18, 0x30, 0x00, 0x00, 0x00, 0x00, 0x00],
   [0x0C, 0x18, 0x30, 0x30, 0x30, 0x18, 0x0C, 0x00],
   [0x30, 0x18, 0x0C, 0x0C, 0x0C, 0x18, 0x30, 0x00],
   [0x00, 0x66, 0x3C, 0xFF, 0x3C, 0x66, 0x00, 0x00],
   [0x00, 0x18, 0x18, 0x7E, 0x18, 0x18, 0x00, 0x00],
   [0x00, 0x00, 0x00, 0x00, 0x00, 0x18, 0x18, 0x30],
   [0x00, 0x00, 0x00, 0x7E, 0x00, 0x00, 0x00, 0x00],
   [0x00, 0x00, 0x00, 0x00, 0x00, 0x18, 0x18, 0x00],
   [0x06, 0x0C, 0x18, 0x30, 0x60, 0xC0, 0x80, 0x00],
   [0x7C, 0xC6, 0xCE, 0xDE, 0xF6, 0xE6, 0x7C, 0x00],
   [0x18, 0x38, 0x18, 0x18, 0x18, 0x18, 0x7E, 0x00],
   [0x7C, 0xC6, 0x06, 0x1C, 0x30, 0x66, 0xFE, 0x00],
   [0x7C, 0xC6, 0x06, 0x3C, 0x06, 0xC6, 0x7C, 0x00],
   [0x1C, 0x3C, 0x6C, 0xCC, 0xFE, 0x0C, 0x1E, 0x00],
   [0xFE, 0xC0, 0xC0, 0xFC, 0x06, 0xC6, 0x7C, 0x00],
   [0x38, 0x60, 0xC0, 0xFC, 0xC6, 0xC6, 0x7C, 0x00],
   [0xFE, 0xC6, 0x0C, 0x18, 0x30, 0x30, 0x30, 0x00],
   [0x7C, 0xC6, 0xC6, 0x7C, 0xC6, 0xC6, 0x7C, 0x00],
   [0x7C, 0xC6, 0xC6, 0x7E, 0x06, 0x0C, 0x78, 0x00],
   [0x00, 0x18, 0x18, 0x00, 0x00, 0x18, 0x18, 0x00],
   [0x00, 0x18, 0x18, 0x00, 0x00, 0x18, 0x18, 0x30],
   [0x06, 0x0C, 0x18, 0x30, 0x18, 0x0C, 0x06, 0x00],
   [0x00, 0x00, 0x7E, 0x00, 0x7E, 0x00, 0x00, 0x00],
   [0x60, 0x30, 0x18, 0x0C, 0x18, 0x30, 0x60, 0x00],
   [0x7C, 0xC6, 0x0C, 0x18, 0x18, 0x00, 0x18, 0x00],
   [0x7C, 0xC6, 0xDE, 0xDE, 0xDE, 0xC0, 0x7C, 0x00],
   [0x10, 0x38, 0x6C, 0xC6, 0xFE, 0xC6, 0xC6, 0x00],
   [0xFC, 0x66, 0x66, 0x7C, 0x66, 0x66, 0xFC, 0x00],
   [0x3C, 0x66, 0xC0, 0xC0, 0xC0, 0x66, 0x3C, 0x00],
   [0xF8, 0x6C, 0x66, 0x66, 0x66, 0x6C, 0xF8, 0x00],
   [0xFE, 0x62, 0x68, 0x78, 0x68, 0x62, 0xFE, 0x00],
   [0xFE, 0x62, 0x68, 0x78, 0x68, 0x60, 0xF0, 0x00],
   [0x3C, 0x66, 0xC0, 0xC0, 0xCE, 0x66, 0x3E, 0x00],
   [0xC6, 0xC6, 0xC6, 0xFE, 0xC6, 0xC6, 0xC6, 0x00],
   [0x3C, 0x18, 0x18, 0x18, 0x18, 0x18, 0x3C, 0x00],
   [0x1E, 0x0C, 0x0C, 0x0C, 0xCC, 0xCC, 0x78, 0x00],
   [0xE6, 0x66, 0x6C, 0x78, 0x6C, 0x66, 0xE6, 0x00],
   [0xF0, 0x60, 0x60, 0x60, 0x62, 0x66, 0xFE, 0x00],
   [0xC6, 0xEE, 0xFE, 0xFE, 0xD6, 0xC6, 0xC6, 0x00],
   [0xC6, 0xE6, 0xF6, 0xDE, 0xCE, 0xC6, 0xC6, 0x00],
   [0x7C, 0xC6, 0xC6, 0xC6, 0xC6, 0xC6, 0x7C, 0x00],
   [0xFC, 0x66, 0x66, 0x7C, 0x60, 0x60, 0xF0, 0x00],
   [0x7C, 0xC6, 0xC6, 0xC6, 0xC6, 0xCE, 0x7C, 0x0E],
   [0xFC, 0x66, 0x66, 0x7C, 0x6C, 0x66, 0xE6, 0x00],
   [0x3C, 0x66, 0x30, 0x18, 0x0C, 0x66, 0x3C, 0x00],
   [0x7E, 0x7E, 0x5A, 0x18, 0x18, 0x18, 0x3C, 0x00],
   [0xC6, 0xC6, 0xC6, 0xC6, 0xC6, 0xC6, 0x7C, 0x00],
   [0xC6, 0xC6, 0xC6, 0xC6, 0xC6, 0x6C, 0x38, 0x00],
   [0xC6, 0xC6, 0xC6, 0xD6, 0xFE, 0xEE, 0xC6, 0x00],
   [0xC6, 0xC6, 0x6C, 0x38, 0x6C, 0xC6, 0xC6, 0x00],
   [0x66, 0x66, 0x66, 0x3C, 0x18, 0x18, 0x3C, 0x00],
   [0xFE, 0xC6, 0x8C, 0x18, 0x32, 0x66, 0xFE, 0x00],
   [0x3C, 0x30, 0x30, 0x30, 0x30, 0x30, 0x3C, 0x00],
   [0xC0, 0x60, 0x30, 0x18, 0x0C, 0x06, 0x02, 0x00],
   [0x3C, 0x0C, 0x0C, 0x0C, 0x0C, 0x0C, 0x3C, 0x00],
   [0x10, 0x38, 0x6C, 0xC6, 0x00, 0x00, 0x00, 0x00],
   [0x00, 0x00, 0x00, 0x00, 0x00, 0x00, 0x00, 0xFF],
   [0x30, 0x18, 0x0C, 0x00, 0x00, 0x00, 0x00, 0x00],
   [0x00, 0x00, 0x78, 0x0C, 0x7C, 0xCC, 0x76, 0x00],
   [0xE0, 0x60, 0x7C, 0x66, 0x66, 0x66, 0xDC, 0x00],
   [0x00, 0x00, 0x7C, 0xC6, 0xC0, 0xC6, 0x7C, 0x00],
   [0x1C, 0x0C, 0x7C, 0xCC, 0xCC, 0xCC, 0x76, 0x00],
   [0x00, 0x00, 0x7C, 0xC6, 0xFE, 0xC0, 0x7C, 0x00],
   [0x1C, 0x36, 0x30, 0x78, 0x30, 0x30, 0x78, 0x00],
   [0x00, 0x00, 0x76, 0xCC, 0xCC, 0x7C, 0x0C, 0xF8],
   [0xE0, 0x60, 0x6C, 0x76, 0x66, 0x66, 0xE6, 0x00],
   [0x18, 0x00, 0x38, 0x18, 0x18, 0x18, 0x3C, 0x00],
   [0x06, 0x00, 0x06, 0x06, 0x06, 0x66, 0x66, 0x3C],
   [0xE0, 0x60, 0x66, 0x6C, 0x78, 0x6C, 0xE6, 0x00],
   [0x38, 0x18, 0x18, 0x18, 0x18, 0x18, 0x3C, 0x00],
   [0x00, 0x00, 0xCC, 0xFE, 0xFE, 0xD6, 0xC6, 0x00],
   [0x00, 0x00, 0xDC, 0x66, 0x66, 0x66, 0x66, 0x00],
   [0x00, 0x00, 0x7C, 0xC6, 0xC6, 0xC6, 0x7C, 0x00],
   [0x00, 0x00, 0xDC, 0x66, 0x66, 0x7C, 0x60, 0xF0],
   [0x00, 0x00, 0x76, 0xCC, 0xCC, 0x7C, 0x0C, 0x1E],
   [0x00, 0x00, 0xDC, 0x76, 0x60, 0x60, 0xF0, 0x00],
   [0x00, 0x00, 0x7C, 0xC0, 0x7C, 0x06, 0xFC, 0x00],
   [0x10, 0x30, 0xFC, 0x30, 0x30, 0x36, 0x1C, 0x00],
   [0x00, 0x00, 0xCC, 0xCC, 0xCC, 0xCC, 0x76, 0x00],
   [0x00, 0x00, 0xC6, 0xC6, 0xC6, 0x6C, 0x38, 0x00],
   [0x00, 0x00, 0xC6, 0xD6, 0xFE, 0xFE, 0x6C, 0x00],
   [0x00, 0x00, 0xC6, 0x6C, 0x38, 0x6C, 0xC6, 0x00],
   [0x00, 0x00, 0xCC, 0xCC, 0xCC, 0x7C, 0x0C, 0xF8],
   [0x00, 0x00, 0xFE, 0x4C, 0x18, 0x32, 0xFE, 0x00],
   [0x0E, 0x18, 0x18, 0x70, 0x18, 0x18, 0x0E, 0x00],
   [0x18, 0x18, 0x18, 0x00, 0x18, 0x18, 0x18, 0x00],
   [0x70, 0x18, 0x18, 0x0E, 0x18, 0x18, 0x70, 0x00],
   [0x76, 0xDC, 0x00, 0x00, 0x00, 0x00, 0x00, 0x00],
   [0xFF, 0xFF, 0xFF, 0xFF, 0xFF, 0xFF, 0xFF, 0xFF]]

/-- Where the glyph of a character is in `FONT`: a space outside the range. -/
def glyphIndex (ch : Char) : ℕ :=
  let idx := ch.toNat
  if idx ≥ 0x20 ∧ idx ≤ 0x7F then idx - 0x20 else 0

theorem FONT_length : FONT.length = 96 := rfl

theorem FONT_rows : ∀ glyph ∈ FONT, glyph.length = GLYPH_H := by decide

theorem glyphIndex_lt (ch : Char) : glyphIndex ch < FONT.length := by
  rw [FONT_length]
  unfold glyphIndex
  dsimp only
  split
  · omega
  · omega

/-- The glyph of a character. -/
def glyph (ch : Char) : List UInt8 := FONT.get ⟨glyphIndex ch, glyphIndex_lt ch⟩

/-- Every row that `write_glyph` reads is there. -/
theorem glyph_length (ch : Char) : (glyph ch).length = GLYPH_H :=
  FONT_rows _ (List.get_mem _ _)

/-- `on`, for the pixel in a row and a column of the glyph. -/
def glyphBit (ch : Char) (row col : ℕ) : Bool :=
  ((glyph ch).getD row 0 >>> (7 - col).toUInt8) &&& 1 != 0

end Amaterasu
