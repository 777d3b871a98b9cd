/-
One row of the screen that shows a prompt and a line of text.

`LineShown` says what a writer in the middle of editing has to look like: the prompt,
the text and nothing behind it on the cursor's row, nothing below, the cursor at an
index of the text, the character under it remembered, and the text in the ordinary
colours (`Inked`), except where the cursor may be drawn.  Each way the shell paints keeps
it, provided the text with one cell to spare fits the row: printing at the end, backspacing
at the end, moving the cursor, and repainting from an index on.
-/
import Mathlib.Logic.Function.Iterate
import Amaterasu.Shell.Writer

namespace Amaterasu

namespace Writer

/-! ### Widths -/

@[simp] theorem setCol_cols (w : Writer) (k : Nat) : (w.setCol k).cols = w.cols := rfl
@[simp] theorem setCol_row (w : Writer) (k : Nat) : (w.setCol k).row = w.row := rfl
@[simp] theorem setCol_cursorChar (w : Writer) (k : Nat) :
    (w.setCol k).cursorChar = w.cursorChar := rfl

theorem setCol_shown (w : Writer) (k r c : Nat) : (w.setCol k).shown r c = w.shown r c := rfl

theorem setCol_col {w : Writer} {k : Nat} (h : k < w.cols) : (w.setCol k).col = k := by
  show min k (w.cols - 1) = k
  omega

theorem nextRow_cols (w : Writer) : w.nextRow.cols = w.cols := by
  unfold nextRow
  split <;> rfl

theorem advance_cols (w : Writer) : w.advance.cols = w.cols := by
  unfold advance
  split
  · rfl
  · exact nextRow_cols w

@[simp] theorem backspace_cols (w : Writer) : w.backspace.cols = w.cols := by
  unfold backspace
  dsimp only
  split
  · exact drawCursorCell_cols w false
  · split
    · exact drawCursorCell_cols w false
    · exact drawCursorCell_cols w false

@[simp] theorem writeChar_cols (w : Writer) (ch : Char) : (w.writeChar ch).cols = w.cols := by
  rw [writeChar_eq]
  split
  · exact nextRow_cols _
  · split
    · exact backspace_cols _
    · exact advance_cols _

@[simp] theorem print_cols (t : Text) : ∀ w : Writer, (w.print t).cols = w.cols := by
  induction t with
  | nil => intro w; rfl
  | cons ch t ih => intro w; rw [print_cons, ih, writeChar_cols]

@[simp] theorem iterate_backspace_cols (n : Nat) : ∀ w : Writer,
    (backspace^[n] w).cols = w.cols := by
  induction n with
  | zero => intro w; rfl
  | succ n ih => intro w; rw [Function.iterate_succ_apply, ih, backspace_cols]

/-! ### Colours -/

/-- The colours of a cell: of its glyph, and of the ground. -/
def tint (w : Writer) (r c : Nat) : Color × Color := ((w.cells r c).fg, (w.cells r c).bg)

theorem writeGlyph_tint (w : Writer) (ch : Char) (fg bg : Color) (r c : Nat) :
    (w.writeGlyph ch fg bg).tint r c
      = if r = w.row ∧ c = w.col then (fg, bg) else w.tint r c := by
  unfold tint writeGlyph
  dsimp only
  split <;> rfl

theorem cursorHide_tint (w : Writer) (r c : Nat) :
    w.cursorHide.tint r c = if r = w.row ∧ c = w.col then (w.fg, w.bg) else w.tint r c :=
  writeGlyph_tint _ _ _ _ r c

theorem cursorShow_tint (w : Writer) (ch : Char) (r c : Nat) :
    (w.cursorShow ch).tint r c = if r = w.row ∧ c = w.col then (w.bg, w.fg) else w.tint r c :=
  writeGlyph_tint _ _ _ _ r c

theorem setCol_tint (w : Writer) (k r c : Nat) : (w.setCol k).tint r c = w.tint r c := rfl

theorem backspace_tint {w : Writer} (hcol : 0 < w.col) (r c : Nat) : w.backspace.tint r c
    = if r = w.row ∧ (c = w.col - 1 ∨ c = w.col) then (w.fg, w.bg) else w.tint r c := by
  rw [backspace_inside hcol, writeGlyph_tint]
  show (if r = w.row ∧ c = w.col - 1 then (w.fg, w.bg) else w.cursorHide.tint r c) = _
  rw [cursorHide_tint]
  by_cases hr : r = w.row
  · by_cases hleft : c = w.col - 1
    · rw [if_pos ⟨hr, hleft⟩, if_pos ⟨hr, Or.inl hleft⟩]
    · rw [if_neg (fun h => hleft h.2)]
      by_cases hhere : c = w.col
      · rw [if_pos ⟨hr, hhere⟩, if_pos ⟨hr, Or.inr hhere⟩]
      · rw [if_neg (fun h => hhere h.2), if_neg (fun h => h.2.elim hleft hhere)]
  · rw [if_neg (fun h => hr h.1), if_neg (fun h => hr h.1), if_neg (fun h => hr h.1)]

/-- The colours that are drawn with. -/
def colors (w : Writer) : Color × Color := (w.fg, w.bg)

theorem drawCursorCell_colors (w : Writer) (v : Bool) : (w.drawCursorCell v).colors = w.colors := by
  cases v <;> rfl

theorem nextRow_colors (w : Writer) : w.nextRow.colors = w.colors := by
  unfold nextRow
  split <;> rfl

theorem backspace_colors (w : Writer) : w.backspace.colors = w.colors := by
  unfold backspace
  dsimp only
  split
  · exact drawCursorCell_colors w false
  · split
    · exact drawCursorCell_colors w false
    · exact drawCursorCell_colors w false

theorem writeChar_colors (w : Writer) (ch : Char) : (w.writeChar ch).colors = w.colors := by
  rw [writeChar_eq]
  split
  · exact nextRow_colors _
  · split
    · exact backspace_colors _
    · unfold advance
      split
      · rfl
      · exact nextRow_colors _

/-- Text changes no colours. -/
theorem print_colors (t : Text) : ∀ w : Writer, (w.print t).colors = w.colors := by
  induction t with
  | nil => intro w; rfl
  | cons ch t ih => intro w; rw [print_cons, ih, writeChar_colors]

/-- Within its row, text is drawn in the colours of the writer. -/
theorem print_tint (t : Text) : ∀ w : Writer, (∀ ch ∈ t, Plain ch) → w.col + t.length < w.cols →
    ∀ r c, (w.print t).tint r c = if r = w.row ∧ w.col ≤ c ∧ c < w.col + t.length
      then w.colors else w.tint r c := by
  induction t with
  | nil =>
      intro w _ _ r c
      rw [if_neg (by simp only [List.length_nil]; omega), print_nil]
  | cons ch t ih =>
      intro w hplain hfit r c
      rw [List.length_cons] at hfit ⊢
      obtain ⟨hline, hback⟩ := hplain ch List.mem_cons_self
      obtain ⟨hrow, hcol, hcols, -⟩ := writeChar_within hline hback (w := w) (by omega)
      have hone : (w.writeChar ch).tint r c
          = if r = w.row ∧ c = w.col then w.colors else w.tint r c := by
        have hnext : (w.cursorHide.writeGlyph ch w.fg w.bg).col + 1
            < (w.cursorHide.writeGlyph ch w.fg w.bg).cols := by
          show w.col + 1 < w.cols
          omega
        rw [writeChar_eq, if_neg hline, if_neg hback, advance, dif_pos hnext]
        show (w.cursorHide.writeGlyph ch w.fg w.bg).tint r c = _
        rw [writeGlyph_tint, cursorHide_tint]
        simp only [cursorHide_row, cursorHide_col]
        split <;> rfl
      rw [print_cons, ih (w.writeChar ch) (fun d hd => hplain d (List.mem_cons_of_mem _ hd))
        (by omega), hrow, hcol, hone, writeChar_colors]
      by_cases hhere : r = w.row ∧ c = w.col
      · have hlater : ¬ (r = w.row ∧ w.col + 1 ≤ c ∧ c < w.col + 1 + t.length) := by omega
        have hin : r = w.row ∧ w.col ≤ c ∧ c < w.col + (t.length + 1) := by omega
        rw [if_neg hlater, if_pos hhere, if_pos hin]
      · rw [if_neg hhere]
        by_cases hin : r = w.row ∧ w.col + 1 ≤ c ∧ c < w.col + 1 + t.length
        · rw [if_pos hin, if_pos (by omega)]
        · rw [if_neg hin, if_neg (by omega)]

/-- Text of some length behind a prompt is in the ordinary colours, but for the cursor's cell. -/
structure Inked (w : Writer) (pc n : Nat) : Prop where
  colors : w.colors = (COLOR_FG, COLOR_BG)
  cells : ∀ c, pc ≤ c → c < pc + n → c ≠ w.col → w.tint w.row c = (COLOR_FG, COLOR_BG)

namespace Inked

variable {w : Writer} {pc n : Nat}

/-- Hiding the cursor inks its cell. -/
theorem hide (h : w.Inked pc n) {c : Nat} (hlo : pc ≤ c) (hhi : c < pc + n) :
    w.cursorHide.tint w.row c = (COLOR_FG, COLOR_BG) := by
  rw [cursorHide_tint]
  by_cases hhere : c = w.col
  · rw [if_pos ⟨rfl, hhere⟩]
    exact h.colors
  · rw [if_neg (fun h => hhere h.2)]
    exact h.cells c hlo hhi hhere

theorem cursorShow (h : w.Inked pc n) (ch : Char) : (w.cursorShow ch).Inked pc n := by
  refine ⟨h.colors, fun c hlo hhi hne => ?_⟩
  have hother : c ≠ w.col := hne
  show (w.cursorShow ch).tint w.row c = _
  rw [cursorShow_tint, if_neg (fun h => hother h.2)]
  exact h.cells c hlo hhi hother

/-- The cursor is hidden and goes to a column. -/
theorem leave (h : w.Inked pc n) (k : Nat) : (w.cursorHide.setCol k).Inked pc n :=
  ⟨h.colors, fun _ hlo hhi _ => h.hide hlo hhi⟩

/-- The cursor leaves for a column up to which the text stays, and text is printed there. -/
theorem reprint (h : w.Inked pc n) {k : Nat} (hk : k ≤ n) {u : Text} (hplain : ∀ ch ∈ u, Plain ch)
    (hfit : pc + k + u.length < w.cols) :
    ∀ c, pc ≤ c → c < pc + k + u.length →
      ((w.cursorHide.setCol (pc + k)).print u).tint w.row c = (COLOR_FG, COLOR_BG) := by
  intro c hlo hhi
  have hcol : (w.cursorHide.setCol (pc + k)).col = pc + k :=
    setCol_col (by rw [cursorHide_cols]; omega)
  rw [print_tint u _ hplain (by rw [hcol]; exact hfit), hcol]
  split
  · exact h.colors
  · rename_i hout
    refine h.hide hlo ?_
    by_contra hmid
    exact hout ⟨rfl, by omega, hhi⟩

/-- Text behind the text, where the cursor is. -/
theorem print (h : w.Inked pc n) (hcol : w.col = pc + n) {u : Text} (hplain : ∀ ch ∈ u, Plain ch)
    (hfit : w.col + u.length < w.cols) : (w.print u).Inked pc (n + u.length) := by
  obtain ⟨hrow, -⟩ := print_within u w hplain hfit
  refine ⟨(print_colors u w).trans h.colors, fun c hlo hhi _ => ?_⟩
  rw [hrow, print_tint u w hplain hfit]
  split
  · exact h.colors
  · rename_i hout
    have hleft : c < w.col := by
      by_contra hright
      exact hout ⟨rfl, by omega, by omega⟩
    exact h.cells c hlo (by omega) (Nat.ne_of_lt hleft)

theorem backspace (h : w.Inked pc (n + 1)) (hcol : w.col = pc + (n + 1)) :
    w.backspace.Inked pc n := by
  obtain ⟨hrow, -⟩ := backspace_within (w := w) (by omega)
  refine ⟨(backspace_colors w).trans h.colors, fun c hlo hhi _ => ?_⟩
  rw [hrow, backspace_tint (by omega), if_neg (by omega)]
  exact h.cells c hlo (by omega) (by omega)

end Inked

/-! ### A line on its row -/

/-- The row of a prompt `pc` columns wide with a text behind it. -/
def rowOf (prompt : Nat → Char) (pc : Nat) (t : Text) (c : Nat) : Char :=
  if c < pc then prompt c else (t[c - pc]?).getD ' '

/-- A writer that shows a prompt and a text, with the cursor at an index of the text. -/
structure LineShown (w : Writer) (prompt : Nat → Char) (pc : Nat) (t : Text) (i : Nat) : Prop where
  col : w.col = pc + i
  cells : ∀ c, c < w.cols → w.shown w.row c = rowOf prompt pc t c
  below : w.BlankBelow
  cursor : w.cursorChar = (t[i]?).getD ' '
  inked : w.Inked pc t.length

/-- After a prompt, the row is the prompt and an empty text. -/
theorem BlankFrom.lineShown {w : Writer} (h : w.BlankFrom)
    (hcolors : w.colors = (COLOR_FG, COLOR_BG)) :
    (w.cursorShow ' ').LineShown (fun c => (w.cursorShow ' ').shown (w.cursorShow ' ').row c)
      w.col [] 0 := by
  refine ⟨rfl, ?_, ?_, rfl, ⟨hcolors, fun c hlo hhi => absurd hhi (Nat.not_lt.mpr hlo)⟩⟩
  · intro c hc
    unfold rowOf
    by_cases hlt : c < w.col
    · rw [if_pos hlt]
    · rw [if_neg hlt, cursorShow_shown]
      split
      · rfl
      · exact h.right c (by omega) hc
  · intro r c hr hr' hc
    rw [cursorShow_shown, if_neg (fun hrc => Nat.ne_of_gt hr hrc.1)]
    exact h.below r c hr hr' hc

namespace LineShown

variable {w : Writer} {prompt : Nat → Char} {pc i : Nat} {t : Text}

theorem under (h : w.LineShown prompt pc t i) : w.shown w.row w.col = w.cursorChar := by
  rw [h.cells w.col w.col_lt, h.cursor, h.col, rowOf, if_neg (by omega), Nat.add_sub_cancel_left]

/-- Hiding the cursor puts back the character that is there. -/
theorem hide (h : w.LineShown prompt pc t i) (r c : Nat) :
    w.cursorHide.shown r c = w.shown r c := by
  rw [cursorHide_shown]
  split
  · rename_i hrc
    rw [hrc.1, hrc.2, h.under]
  · rfl

/-- A cursor shown where the text is. -/
theorem show_at {w' : Writer} {k : Nat} (hcol : w'.col = pc + k)
    (hcells : ∀ c, c < w'.cols → w'.shown w'.row c = rowOf prompt pc t c)
    (hbelow : w'.BlankBelow) (hinked : w'.Inked pc t.length) :
    (w'.cursorShow ((t[k]?).getD ' ')).LineShown prompt pc t k := by
  refine ⟨hcol, ?_, ?_, rfl, hinked.cursorShow _⟩
  · intro c hc
    rw [cursorShow_shown, cursorShow_row]
    split
    · rename_i hrc
      rw [hrc.2, hcol, rowOf, if_neg (by omega), Nat.add_sub_cancel_left]
    · exact hcells c hc
  · intro r c hr hr' hc
    rw [cursorShow_shown, if_neg (fun hrc => Nat.ne_of_gt hr hrc.1)]
    exact hbelow r c hr hr' hc

theorem cursorShow (h : w.LineShown prompt pc t i) :
    (w.cursorShow ((t[i]?).getD ' ')).LineShown prompt pc t i :=
  show_at h.col h.cells h.below h.inked

theorem move (h : w.LineShown prompt pc t i) {k : Nat} (hk : pc + k < w.cols) :
    ((w.cursorHide.setCol (pc + k)).cursorShow ((t[k]?).getD ' ')).LineShown prompt pc t k := by
  apply show_at
  · exact setCol_col hk
  · intro c hc
    rw [setCol_shown, setCol_row, cursorHide_row, h.hide]
    exact h.cells c hc
  · intro r c hr hr' hc
    rw [setCol_shown, h.hide]
    exact h.below r c hr hr' hc
  · exact h.inked.leave (pc + k)

/-- Printing at the end of the text. -/
theorem print (h : w.LineShown prompt pc t t.length) {u : Text} (hplain : ∀ ch ∈ u, Plain ch)
    (hfit : pc + (t ++ u).length < w.cols) :
    (w.print u).LineShown prompt pc (t ++ u) (t ++ u).length := by
  rw [List.length_append] at hfit
  have hcol := h.col
  have hinked := h.inked.print hcol hplain (by omega)
  rw [← List.length_append] at hinked
  obtain ⟨h₁, h₂, h₃, h₄, h₅, h₆⟩ := print_within u w hplain (by omega)
  refine ⟨?_, ?_, ?_, ?_, hinked⟩
  · rw [h₂, hcol, List.length_append, Nat.add_assoc]
  · intro c hc
    rw [h₃] at hc
    rw [h₁, h₆]
    by_cases hin : w.col ≤ c ∧ c < w.col + u.length
    · rw [if_pos ⟨rfl, hin⟩, rowOf, if_neg (by omega), List.getElem?_append_right (by omega),
        show c - pc - t.length = c - w.col by omega]
    · rw [if_neg (fun hrc => hin hrc.2), h.cells c hc, rowOf, rowOf]
      by_cases hlt : c < pc
      · rw [if_pos hlt, if_pos hlt]
      · rw [if_neg hlt, if_neg hlt]
        rcases Nat.lt_or_ge (c - pc) t.length with hmid | hend
        · rw [List.getElem?_append_left hmid]
        · rw [List.getElem?_eq_none hend, List.getElem?_eq_none]
          rw [List.length_append]
          omega
  · intro r c hr hr' hc
    rw [h₁] at hr
    rw [h₄] at hr'
    rw [h₃] at hc
    rw [h₆, if_neg (fun hrc => Nat.ne_of_gt hr hrc.1)]
    exact h.below r c hr hr' hc
  · rw [h₅, h.cursor, List.getElem?_eq_none (Nat.le_refl _), List.getElem?_eq_none (Nat.le_refl _)]

/-- A backspace at the end of the text. -/
theorem backspace {x : Char} (h : w.LineShown prompt pc (t ++ [x]) (t.length + 1)) :
    w.backspace.LineShown prompt pc t t.length := by
  have hcol := h.col
  have hspace : w.cursorChar = ' ' := by
    rw [h.cursor, List.getElem?_eq_none]
    · rfl
    · rw [List.length_append]
      exact Nat.le_refl _
  have hinked := h.inked
  rw [List.length_append, List.length_singleton] at hinked
  obtain ⟨h₁, h₂, h₃, h₄, h₅⟩ := backspace_within (w := w) (by omega)
  refine ⟨?_, ?_, ?_, ?_, hinked.backspace hcol⟩
  · rw [h₂]
    omega
  · intro c hc
    rw [h₃] at hc
    rw [h₁, h₅, h.cells c hc, hspace]
    unfold rowOf
    by_cases hlt : c < pc
    · rw [if_neg (by omega), if_neg (by omega), if_pos hlt, if_pos hlt]
    · rw [if_neg hlt, if_neg hlt]
      rcases Nat.lt_or_ge (c - pc) t.length with hmid | hend
      · rw [if_neg (by omega), if_neg (by omega), List.getElem?_append_left hmid]
      · rw [List.getElem?_eq_none hend]
        split
        · rfl
        · split
          · rfl
          · rw [List.getElem?_eq_none (by rw [List.length_append, List.length_singleton]; omega)]
  · intro r c hr hr' hc
    rw [h₁] at hr
    rw [h₄] at hr'
    rw [h₃] at hc
    rw [h₅, if_neg (fun hrc => Nat.ne_of_gt hr hrc.1), if_neg (fun hrc => Nat.ne_of_gt hr hrc.1)]
    exact h.below r c hr hr' hc
  · rw [backspace_cursorChar, hspace, List.getElem?_eq_none (Nat.le_refl _)]
    rfl

/-- As many backspaces as there are characters to delete at the end. -/
theorem erase (u : Text) : ∀ {w : Writer}, w.LineShown prompt pc (t ++ u) (t ++ u).length →
    (Writer.backspace^[u.length] w).LineShown prompt pc t t.length := by
  induction u using List.reverseRecOn with
  | nil =>
      intro w h
      rwa [List.append_nil] at h
  | append_singleton u x ih =>
      intro w h
      have hlast : w.LineShown prompt pc ((t ++ u) ++ [x]) ((t ++ u).length + 1) := by
        rw [← List.append_assoc] at h
        have hlen : ((t ++ u) ++ [x]).length = (t ++ u).length + 1 := by
          rw [List.length_append, List.length_singleton]
        rwa [hlen] at h
      rw [List.length_append, List.length_singleton, Function.iterate_succ_apply]
      exact ih hlast.backspace

/-- A repaint from an index up to which the two texts agree, with one blank cell after
the new text: it covers what was there of the old one, also when a character is gone. -/
theorem redraw (h : w.LineShown prompt pc t i) (t' : Text) (start k : Nat)
    (hsame : t'.take start = t.take start) (hstart' : start ≤ t'.length)
    (hlen : t.length ≤ t'.length + 1) (hplain : ∀ ch ∈ t', Plain ch)
    (hfit : pc + t'.length + 1 < w.cols) (hk : k ≤ t'.length) :
    ((((w.cursorHide.setCol (pc + start)).print (t'.drop start)).print [' ']).setCol
      (pc + k)).cursorShow ((t'[k]?).getD ' ') |>.LineShown prompt pc t' k := by
  have hcol : (w.cursorHide.setCol (pc + start)).col = pc + start :=
    setCol_col (by rw [cursorHide_cols]; omega)
  have hdrop : (t'.drop start ++ [' ']).length = t'.length - start + 1 := by
    rw [List.length_append, List.length_drop, List.length_singleton]
  have hplain' : ∀ ch ∈ t'.drop start ++ [' '], Plain ch := by
    intro ch hch
    rcases List.mem_append.mp hch with hch | hch
    · exact hplain ch (List.mem_of_mem_drop hch)
    · rw [List.mem_singleton.mp hch]
      decide
  obtain ⟨h₁, -, h₃, h₄, -, h₆⟩ := print_within (t'.drop start ++ [' '])
    (w.cursorHide.setCol (pc + start)) hplain' (by
      rw [hcol, hdrop, setCol_cols, cursorHide_cols]
      omega)
  rw [hcol, hdrop] at h₆
  rw [← print_append]
  apply show_at
  · apply setCol_col
    rw [h₃, setCol_cols, cursorHide_cols]
    omega
  · intro c hc
    rw [setCol_cols, h₃] at hc
    rw [setCol_shown, setCol_row, h₁, h₆, setCol_row, cursorHide_row, setCol_shown, h.hide,
      h.cells c hc]
    unfold rowOf
    by_cases hin : pc + start ≤ c ∧ c < pc + start + (t'.length - start + 1)
    · rw [if_pos ⟨rfl, hin⟩, if_neg (by omega)]
      rcases Nat.lt_or_ge (c - pc) t'.length with hmid | hend
      · rw [List.getElem?_append_left (by rw [List.length_drop]; omega), List.getElem?_drop,
          show start + (c - (pc + start)) = c - pc by omega]
      · rw [List.getElem?_append_right (by rw [List.length_drop]; omega),
          List.getElem?_eq_none hend, List.length_drop,
          show c - (pc + start) - (t'.length - start) = 0 by omega]
        rfl
    · rw [if_neg (fun hrc => hin hrc.2)]
      by_cases hlt : c < pc
      · rw [if_pos hlt, if_pos hlt]
      · rw [if_neg hlt, if_neg hlt]
        rcases Nat.lt_or_ge (c - pc) start with hmid | hend
        · rw [← List.getElem?_take_of_lt hmid, ← hsame, List.getElem?_take_of_lt hmid]
        · rw [List.getElem?_eq_none (by omega), List.getElem?_eq_none (by omega)]
  · intro r c hr hr' hc
    rw [setCol_row, h₁] at hr
    rw [setCol_cols, h₃] at hc
    rw [setCol_shown, h₆, if_neg (fun hrc => Nat.ne_of_gt hr hrc.1), setCol_shown, h.hide]
    exact h.below r c hr (Nat.lt_of_lt_of_eq hr' h₄) hc
  · have hmin : start ≤ t.length := by
      have hlens := congrArg List.length hsame
      rw [List.length_take, List.length_take] at hlens
      omega
    have htint := h.inked.reprint hmin hplain' (by rw [hdrop]; omega)
    refine ⟨(print_colors _ _).trans h.inked.colors, fun c hlo hhi _ => ?_⟩
    rw [setCol_tint, setCol_row, h₁]
    exact htint c hlo (by rw [hdrop]; omega)

end LineShown

end Writer

end Amaterasu
