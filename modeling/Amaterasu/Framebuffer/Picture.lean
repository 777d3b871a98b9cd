/-
What a buffer shows of a screen of cells.

A pixel of the text grid has the colour its cell's glyph gives it; a pixel off the grid, to
the right of the last column or below the last row, is black.  The pixels off the grid are
what makes scrolling exact: the scroll moves all of the buffer, so what is below the last row
of text moves into it, and the row is blank only because that was black.
-/
import Amaterasu.Framebuffer.Pixels
import Mathlib.Data.List.GetD
import Mathlib.Tactic.Ring

namespace Amaterasu

/-- The colour a cell has at one of its pixels. -/
def Cell.color (cell : Cell) (row col : ℕ) : Color :=
  if glyphBit cell.ch row col then cell.fg else cell.bg

namespace FrameBufferInfo

/-- The colour a screen of cells has at pixel `n`. -/
def image (info : FrameBufferInfo) (cells : ℕ → ℕ → Cell) (n : ℕ) : Color :=
  if n / info.stride / 8 < info.rows ∧ n % info.stride / 8 < info.cols then
    (cells (n / info.stride / 8) (n % info.stride / 8)).color
      (n / info.stride % 8) (n % info.stride % 8)
  else COLOR_BG

/-- The buffer shows a screen of cells. -/
def Pictures (info : FrameBufferInfo) (bytes : Mem) (cells : ℕ → ℕ → Cell) : Prop :=
  ∀ n < info.total, info.pixel bytes n = info.image cells n

variable {info : FrameBufferInfo} {bytes bytes' : Mem} {cells : ℕ → ℕ → Cell} {r c n : ℕ}

/-! ### Glyphs -/

theorem inCell_iff : info.InCell r c n ↔ n / info.stride / 8 = r ∧ n % info.stride / 8 = c := by
  unfold InCell
  omega

/-- A pixel belongs to one cell at most. -/
theorem inCell_unique {r' c' : ℕ} (h : info.InCell r c n) :
    info.InCell r' c' n ↔ r' = r ∧ c' = c := by
  obtain ⟨rfl, rfl⟩ := inCell_iff.mp h
  rw [inCell_iff]
  exact and_congr eq_comm eq_comm

theorem cellColor_eq (ch : Char) (fg bg : Color) (h : info.InCell r c n) :
    info.cellColor ch fg bg r c n
      = Cell.color ⟨ch, fg, bg⟩ (n / info.stride % 8) (n % info.stride % 8) := by
  have hrow : n / info.stride - 8 * r = n / info.stride % 8 := by
    unfold InCell at h
    omega
  have hcol : n % info.stride - 8 * c = n % info.stride % 8 := by
    unfold InCell at h
    omega
  unfold cellColor Cell.color
  rw [hrow, hcol]

/-- A glyph over one cell of a screen. -/
theorem Pictures.glyph (h : info.Pictures bytes cells) (hr : r < info.rows) (hc : c < info.cols)
    {ch : Char} {fg bg : Color}
    (hpaint : info.Painted bytes bytes' (info.InCell r c) (info.cellColor ch fg bg r c)) :
    info.Pictures bytes' fun r' c' => if r' = r ∧ c' = c then ⟨ch, fg, bg⟩ else cells r' c' := by
  intro n hn
  by_cases hin : info.InCell r c n
  · rw [hpaint.inside n hn hin, cellColor_eq ch fg bg hin]
    obtain ⟨rfl, rfl⟩ := inCell_iff.mp hin
    unfold image
    rw [if_pos ⟨hr, hc⟩]
    dsimp only
    rw [if_pos ⟨rfl, rfl⟩]
  · rw [hpaint.other hin, h n hn]
    unfold image
    dsimp only
    rw [if_neg fun hrc => hin (inCell_iff.mpr hrc)]

/-! ### Blank rows -/

theorem glyphBit_space (row col : ℕ) : glyphBit ' ' row col = false := by
  have hrow : (glyph ' ').getD row 0 = 0 := by
    rw [show glyph ' ' = List.replicate 8 0 from by decide, List.getD_eq_getElem?_getD]
    exact List.getElem?_getD_replicate_default_eq 0 8 row
  unfold glyphBit
  rw [hrow, UInt8.zero_shiftRight, UInt8.zero_and]
  rfl

theorem color_blank (fg bg : Color) (row col : ℕ) : Cell.color ⟨' ', fg, bg⟩ row col = bg := by
  unfold Cell.color
  rw [glyphBit_space]
  rfl

/-- A pixel is black where its cell is blank. -/
theorem image_of_blank {fg : Color}
    (h : cells (n / info.stride / 8) (n % info.stride / 8) = ⟨' ', fg, COLOR_BG⟩) :
    info.image cells n = COLOR_BG := by
  unfold image
  rw [h, color_blank]
  exact ite_self COLOR_BG

/-- A black buffer shows a blank screen. -/
theorem pictures_blank (h : ∀ n < info.total, info.pixel bytes n = COLOR_BG) (fg : Color) :
    info.Pictures bytes fun _ _ => ⟨' ', fg, COLOR_BG⟩ := by
  intro n hn
  rw [h n hn, image_of_blank rfl]

/-! ### Scrolling -/

/-- From `bytes` to `bytes'` the pixels have gone up by eight rows of them. -/
structure Scrolled (info : FrameBufferInfo) (bg : Color) (bytes bytes' : Mem) : Prop where
  moved : ∀ n, n + 8 * info.stride < info.total →
    info.pixel bytes' n = info.pixel bytes (n + 8 * info.stride)
  blank : ∀ n < info.total, info.total ≤ n + 8 * info.stride → info.pixel bytes' n = bg

theorem scroll_le : 8 * info.stride ≤ info.total := by
  unfold total
  rw [Nat.mul_comm]
  exact Nat.mul_le_mul_left _ info.height_ge

/-- The two halves of a scroll. -/
theorem scroll_spec (bytes : Mem) (bg : Color) :
    ∃ moved bytes', info.copyWithin bytes (8 * info.stride * info.bytesPerPixel) = some moved ∧
      info.fill moved ((info.total - 8 * info.stride) * info.bytesPerPixel) bg = some bytes' ∧
      info.Scrolled bg bytes bytes' := by
  have hle : 8 * info.stride ≤ info.total := scroll_le
  obtain ⟨moved, hcopy, hmoved⟩ := copyWithin_spec bytes hle
  obtain ⟨bytes', hfill, hpaint⟩ := fill_spec moved (Nat.sub_le info.total (8 * info.stride)) bg
  refine ⟨moved, bytes', hcopy, hfill, ?_, ?_⟩
  · intro n hn
    rw [hpaint.other (by omega)]
    exact hmoved n hn
  · intro n hn hn'
    exact hpaint.inside n hn (by omega)

theorem row_of_add : (n + 8 * info.stride) / info.stride = n / info.stride + 8 :=
  Nat.add_mul_div_right n 8 stride_pos

theorem col_of_add : (n + 8 * info.stride) % info.stride = n % info.stride :=
  Nat.add_mul_mod_self_right n 8 info.stride

/-- A pixel that nothing moves into is in the last row of text, or below it. -/
theorem last_of_le (h : info.total ≤ n + 8 * info.stride) :
    info.rows ≤ n / info.stride / 8 + 1 := by
  have hheight : info.height ≤ n / info.stride + 8 := by
    rw [← row_of_add, Nat.le_div_iff_mul_le stride_pos, Nat.mul_comm]
    exact h
  have hrows : info.rows = info.height / 8 := rfl
  omega

/-- A scrolled buffer shows the rows of text one up, and a blank row below them. -/
theorem Scrolled.pictures (h : info.Scrolled COLOR_BG bytes bytes')
    (hpic : info.Pictures bytes cells) (fg : Color) :
    info.Pictures bytes' fun r c =>
      if r + 1 < info.rows then cells (r + 1) c else ⟨' ', fg, COLOR_BG⟩ := by
  intro n hn
  by_cases hrow : n / info.stride / 8 + 1 < info.rows
  · have hin : n + 8 * info.stride < info.total := by
      by_contra hout
      have := last_of_le (Nat.le_of_not_lt hout)
      omega
    have hdiv : (n / info.stride + 8) / 8 = n / info.stride / 8 + 1 := by omega
    have hmod : (n / info.stride + 8) % 8 = n / info.stride % 8 := by omega
    rw [h.moved n hin, hpic _ hin]
    unfold image
    dsimp only
    rw [row_of_add, col_of_add, hdiv, hmod, if_pos hrow]
    exact if_congr (and_congr_left fun _ => iff_of_true hrow (by omega)) rfl rfl
  · rw [image_of_blank (if_neg hrow)]
    by_cases hin : n + 8 * info.stride < info.total
    · -- what moves into the last row comes from below the grid
      rw [h.moved n hin, hpic _ hin]
      unfold image
      rw [if_neg]
      rw [row_of_add]
      omega
    · exact h.blank n hn (Nat.le_of_not_lt hin)

/-! ### What is visible -/

/-- A glyph at a pixel fills a cell: none of its pixels is skipped, and all are that cell's. -/
def FillsCell (info : FrameBufferInfo) (px py r c : ℕ) : Prop :=
  ∀ x < 8, ∀ y < 8,
    ((py + y) * info.stride + (px + x)) * info.bytesPerPixel + info.bytesPerPixel ≤ info.len ∧
      ∀ r' c', info.InCell r' c' ((py + y) * info.stride + (px + x)) ↔ r' = r ∧ c' = c

theorem fillsCell (hr : r < info.rows) (hc : c < info.cols) :
    info.FillsCell (c * GLYPH_W) (r * GLYPH_H) r c := by
  intro x hx y hy
  have hpx : c * GLYPH_W = c * 8 := rfl
  have hpy : r * GLYPH_H = r * 8 := rfl
  obtain ⟨hheight, hwidth⟩ := cell_le hr hc
  have hstride := info.width_le
  have hx' : c * GLYPH_W + x < info.stride := by omega
  have hy' : r * GLYPH_H + y < info.height := by omega
  obtain ⟨hdiv, hmod⟩ := (eq_index_iff (y := r * GLYPH_H + y) hx').mp rfl
  refine ⟨pixel_le (index_lt hx' hy'), fun r' c' => inCell_unique ?_⟩
  rw [inCell_iff, hdiv, hmod]
  omega

/-- Each row of text is where the next one was, and the last one is background. -/
structure RowsUp (info : FrameBufferInfo) (bg : Color) (bytes bytes' : Mem) : Prop where
  moved : ∀ r, r + 1 < info.rows → ∀ x < info.width, ∀ y < 8,
    info.rgb bytes' x (8 * r + y) = info.rgb bytes x (8 * (r + 1) + y)
  blank : ∀ x < info.width, ∀ y < 8, info.rgb bytes' x (8 * (info.rows - 1) + y) = bg

theorem Scrolled.rowsUp (h : info.Scrolled COLOR_BG bytes bytes')
    (hpic : info.Pictures bytes cells) : info.RowsUp COLOR_BG bytes bytes' := by
  have hrows : info.rows = info.height / 8 := rfl
  have hheight := info.height_ge
  have hstride := info.width_le
  constructor
  · intro r hr x hx y hy
    have hindex : (8 * r + y) * info.stride + x + 8 * info.stride
        = (8 * (r + 1) + y) * info.stride + x := by ring
    have hlt : (8 * (r + 1) + y) * info.stride + x < info.total :=
      index_lt (by omega) (by omega)
    unfold rgb
    rw [← hindex] at hlt ⊢
    exact h.moved _ hlt
  · intro x hx y hy
    have hx' : x < info.stride := by omega
    obtain ⟨hdiv, -⟩ := (eq_index_iff (y := 8 * (info.rows - 1) + y) hx').mp rfl
    unfold rgb
    rw [h.pictures hpic COLOR_FG _ (index_lt hx' (by omega)), image_of_blank]
    rw [hdiv]
    exact if_neg (by omega)

end FrameBufferInfo

end Amaterasu
