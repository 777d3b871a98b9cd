/-
A line that goes on over several rows.

Typing at the end of the line runs on from row to row, and the screen scrolls when there
is no row left.  A `Trail` follows where the characters have gone: the cell each was
printed in, moved up with the screen.  The motions of the cursor know nothing of rows:
they go to a column of the row that the writer is in, and `set_col` clamps it to the last
one.  So a motion finds the cell of its character when the line and the cell behind it
are on one row; on a wrapped line only by chance, at the end of the line in the last
column.
-/
import Amaterasu.Lib.RingIndex
import Amaterasu.Shell.Screen

namespace Amaterasu

namespace Writer

/-! ### Cells -/

/-- A cell moved up by one row, or off the screen. -/
def lift : Option (Nat × Nat) → Option (Nat × Nat)
  | some (r + 1, c) => some (r, c)
  | _ => none

/-- The cell `d` rows above a row. -/
def cellAbove (row d c : Nat) : Option (Nat × Nat) := if d ≤ row then some (row - d, c) else none

theorem lift_cellAbove (row d c : Nat) : lift (cellAbove row d c) = cellAbove row (d + 1) c := by
  unfold cellAbove
  rcases Nat.lt_trichotomy d row with hlt | rfl | hgt
  · rw [if_pos (Nat.le_of_lt hlt), if_pos (by omega), show row - d = row - (d + 1) + 1 by omega]
    rfl
  · rw [if_pos (Nat.le_refl d), if_neg (by omega), Nat.sub_self]
    rfl
  · rw [if_neg (by omega), if_neg (by omega)]
    rfl

theorem cellAbove_succ (row d c : Nat) : cellAbove (row + 1) (d + 1) c = cellAbove row d c := by
  unfold cellAbove
  rw [Nat.add_sub_add_right]
  by_cases h : d ≤ row
  · rw [if_pos h, if_pos (by omega)]
  · rw [if_neg h, if_neg (by omega)]

/-- A cell of a row is not above it. -/
theorem cellAbove_eq_iff {row d c col : Nat} :
    cellAbove row d c = some (row, col) ↔ d = 0 ∧ c = col := by
  unfold cellAbove
  split
  · rw [Option.some.injEq, Prod.mk.injEq]
    omega
  · constructor
    · intro h
      exact absurd h (by simp)
    · rintro ⟨rfl, -⟩
      omega

/-- Where position `k` of a text is, when the cursor is at position `n` of it: the text
begins `pc` columns into a row of `cols`. -/
def cellOf (cols pc row n k : Nat) : Option (Nat × Nat) :=
  cellAbove row ((pc + n) / cols - (pc + k) / cols) ((pc + k) % cols)

theorem cellOf_self (cols pc row n : Nat) :
    cellOf cols pc row n n = some (row, (pc + n) % cols) := by
  rw [cellOf, cellAbove_eq_iff, Nat.sub_self]
  exact ⟨rfl, rfl⟩

/-- Different positions are in different cells. -/
theorem cellOf_eq_iff {cols pc row n k : Nat} (hk : k ≤ n) :
    cellOf cols pc row n k = some (row, (pc + n) % cols) ↔ k = n := by
  rw [cellOf, cellAbove_eq_iff]
  constructor
  · rintro ⟨hrow, hcol⟩
    have hdiv := Nat.div_le_div_right (c := cols) (show pc + k ≤ pc + n by omega)
    have hsame : (pc + n) / cols = (pc + k) / cols := by omega
    have hn := Nat.div_add_mod (pc + n) cols
    have hk' := Nat.div_add_mod (pc + k) cols
    rw [hsame, ← hcol] at hn
    omega
  · rintro rfl
    exact ⟨Nat.sub_self _, rfl⟩

theorem div_le_div (cols pc : Nat) {n k : Nat} (hk : k ≤ n) :
    (pc + k) / cols ≤ (pc + n) / cols := Nat.div_le_div_right (by omega)

/-- Within a row, the next position leaves the others where they are. -/
theorem cellOf_inside {cols pc n : Nat} (h : (pc + n) % cols + 1 < cols) (row k : Nat) :
    cellOf cols pc row (n + 1) k = cellOf cols pc row n k := by
  unfold cellOf
  rw [← Nat.add_assoc, (succ_of_mod_lt h).2]

/-- So does going on to the next row, -/
theorem cellOf_wraps {cols pc n k : Nat} (h : (pc + n) % cols + 1 = cols) (hk : k ≤ n) (row : Nat) :
    cellOf cols pc (row + 1) (n + 1) k = cellOf cols pc row n k := by
  unfold cellOf
  rw [← Nat.add_assoc, (succ_of_mod_eq h).2, Nat.succ_sub (div_le_div cols pc hk),
    cellAbove_succ]

/-- unless the screen scrolls. -/
theorem cellOf_scrolls {cols pc n k : Nat} (h : (pc + n) % cols + 1 = cols) (hk : k ≤ n)
    (row : Nat) : cellOf cols pc row (n + 1) k = lift (cellOf cols pc row n k) := by
  unfold cellOf
  rw [← Nat.add_assoc, (succ_of_mod_eq h).2, Nat.succ_sub (div_le_div cols pc hk),
    lift_cellAbove]

/-! ### Typing -/

/-- A writer, and where the characters typed so far are. -/
structure Trail where
  writer : Writer
  cells : List (Option (Nat × Nat))

/-- The next character fills the last cell of the screen. -/
def Scrolls (w : Writer) : Prop := w.cols ≤ w.col + 1 ∧ w.rows ≤ w.row + 1

instance (w : Writer) : Decidable w.Scrolls := inferInstanceAs (Decidable (_ ∧ _))

/-- A character typed at the end of the line, with the cursor shown behind it. -/
def Trail.type (t : Trail) (ch : Char) : Trail where
  writer := (t.writer.print [ch]).cursorShow ' '
  cells :=
    let cells := t.cells ++ [some (t.writer.row, t.writer.col)]
    if t.writer.Scrolls then cells.map lift else cells

/-- A text typed at the end of the line. -/
def trail (w : Writer) (text : Text) : Trail := text.foldl Trail.type ⟨w, []⟩

theorem trail_concat (w : Writer) (text : Text) (ch : Char) :
    w.trail (text ++ [ch]) = (w.trail text).type ch := List.foldl_concat _ _ _ _

/-- At the end of a row, a character is followed by the next row. -/
theorem writeChar_wraps {w : Writer} {ch : Char} (hplain : Plain ch) (hend : w.cols ≤ w.col + 1) :
    w.writeChar ch = (w.cursorHide.writeGlyph ch w.fg w.bg).nextRow := by
  rw [writeChar_eq, if_neg hplain.1, if_neg hplain.2]
  exact dif_neg (Nat.not_lt.mpr hend)

/-- What a character typed does to the position: the next column, the next row, or the
first column of a row that has scrolled up. -/
theorem type_position {t : Trail} {ch : Char} (hplain : Plain ch) :
    (t.type ch).writer.cols = t.writer.cols ∧ (t.type ch).writer.rows = t.writer.rows ∧
      ((t.writer.col + 1 < t.writer.cols ∧ (t.type ch).writer.col = t.writer.col + 1 ∧
          (t.type ch).writer.row = t.writer.row ∧
          (t.type ch).cells = t.cells ++ [some (t.writer.row, t.writer.col)]) ∨
        (t.writer.col + 1 = t.writer.cols ∧ (t.type ch).writer.col = 0 ∧
          (t.type ch).writer.row = t.writer.row + 1 ∧
          (t.type ch).cells = t.cells ++ [some (t.writer.row, t.writer.col)]) ∨
        (t.writer.col + 1 = t.writer.cols ∧ (t.type ch).writer.col = 0 ∧
          (t.type ch).writer.row = t.writer.row ∧
          (t.type ch).cells = (t.cells ++ [some (t.writer.row, t.writer.col)]).map lift)) := by
  have hcol := t.writer.col_lt
  have hrow := t.writer.row_lt
  rcases Nat.lt_or_ge (t.writer.col + 1) t.writer.cols with hfit | hend
  · obtain ⟨h₁, h₂, h₃, h₄, -, -⟩ := writeChar_within hplain.1 hplain.2 hfit
    refine ⟨h₃, h₄, Or.inl ⟨hfit, h₂, h₁, if_neg fun h => ?_⟩⟩
    have := h.1
    omega
  · have hwrap := writeChar_wraps hplain hend
    unfold nextRow at hwrap
    by_cases hroom : t.writer.row + 1 < t.writer.rows
    · have htype : (t.type ch).writer = _ :=
        congrArg (cursorShow · ' ') (hwrap.trans (dif_pos hroom))
      rw [htype]
      refine ⟨rfl, rfl, Or.inr (Or.inl ⟨by omega, rfl, rfl, if_neg fun h => ?_⟩)⟩
      have := h.2
      omega
    · have htype : (t.type ch).writer = _ :=
        congrArg (cursorShow · ' ') (hwrap.trans (dif_neg hroom))
      rw [htype]
      exact ⟨rfl, rfl, Or.inr (Or.inr ⟨by omega, rfl, rfl, if_pos ⟨hend, by omega⟩⟩)⟩

/-- Where the characters of a line are when `n` of them have been typed. -/
structure Typed (w : Writer) (n : Nat) (t : Trail) : Prop where
  cols : t.writer.cols = w.cols
  rows : t.writer.rows = w.rows
  col : t.writer.col = (w.col + n) % w.cols
  cells : t.cells = (List.range n).map fun k => cellOf w.cols w.col t.writer.row n k

theorem typed_nil (w : Writer) : w.Typed 0 (w.trail []) :=
  ⟨rfl, rfl, (Nat.mod_eq_of_lt w.col_lt).symm, rfl⟩

theorem Typed.type {w : Writer} {n : Nat} {t : Trail} (h : w.Typed n t) {ch : Char}
    (hplain : Plain ch) : w.Typed (n + 1) (t.type ch) := by
  obtain ⟨hcols, hrows, hcases⟩ := type_position (t := t) hplain
  have hcells : t.cells ++ [some (t.writer.row, t.writer.col)]
      = (List.range (n + 1)).map fun k => cellOf w.cols w.col t.writer.row n k := by
    rw [List.range_succ, List.map_append, List.map_singleton, cellOf_self, ← h.col, ← h.cells]
  rw [h.cols] at hcols hcases
  rw [hcells] at hcases
  refine ⟨hcols, hrows.trans h.rows, ?_, ?_⟩
  · rcases hcases with ⟨hfit, hcol, -⟩ | ⟨hend, hcol, -⟩ | ⟨hend, hcol, -⟩
    · rw [h.col] at hfit hcol
      rw [hcol, ← Nat.add_assoc, (succ_of_mod_lt hfit).1]
    · rw [h.col] at hend
      rw [hcol, ← Nat.add_assoc, (succ_of_mod_eq hend).1]
    · rw [h.col] at hend
      rw [hcol, ← Nat.add_assoc, (succ_of_mod_eq hend).1]
  · have hle : ∀ k ∈ List.range (n + 1), k ≤ n := by
      intro k hk
      exact Nat.le_of_lt_succ (List.mem_range.mp hk)
    rcases hcases with ⟨hfit, -, hrow, hnow⟩ | ⟨hend, -, hrow, hnow⟩ | ⟨hend, -, hrow, hnow⟩
    · rw [h.col] at hfit
      rw [hnow, hrow]
      exact List.map_congr_left fun k _ => (cellOf_inside hfit _ k).symm
    · rw [h.col] at hend
      rw [hnow, hrow]
      exact List.map_congr_left fun k hk => (cellOf_wraps hend (hle k hk) _).symm
    · rw [h.col] at hend
      rw [hnow, hrow, List.map_map]
      exact List.map_congr_left fun k hk => (cellOf_scrolls hend (hle k hk) _).symm

theorem typed_trail (w : Writer) {text : Text} (hplain : ∀ ch ∈ text, Plain ch) :
    w.Typed text.length (w.trail text) := by
  induction text using List.reverseRecOn with
  | nil => exact typed_nil w
  | append_singleton text ch ih =>
      rw [trail_concat, List.length_append, List.length_singleton]
      exact (ih fun c hc => hplain c (List.mem_append_left _ hc)).type
        (hplain ch (List.mem_append_right _ List.mem_cons_self))

/-! ### What is in the cells -/

/-- A character printed changes its own cell. -/
theorem glyph_shown (w : Writer) (ch : Char) (r c : Nat) :
    (w.cursorHide.writeGlyph ch w.fg w.bg).shown r c
      = if r = w.row ∧ c = w.col then ch else w.shown r c := by
  rw [writeGlyph_shown, cursorHide_shown, cursorHide_row, cursorHide_col]
  by_cases h : r = w.row ∧ c = w.col
  · rw [if_pos h, if_pos h]
  · rw [if_neg h, if_neg h, if_neg h]

/-- Away from the cursor, the screen before a scroll shows what it showed with the
character printed; and the screen after one the same, a row higher. -/
theorem type_shown {t : Trail} {ch : Char} (hplain : Plain ch) {r c : Nat}
    (haway : ¬ (r = (t.type ch).writer.row ∧ c = (t.type ch).writer.col)) :
    (t.writer.Scrolls → r + 1 < t.writer.rows →
      (t.type ch).writer.shown r c
        = if r + 1 = t.writer.row ∧ c = t.writer.col then ch else t.writer.shown (r + 1) c) ∧
    (¬ t.writer.Scrolls →
      (t.type ch).writer.shown r c
        = if r = t.writer.row ∧ c = t.writer.col then ch else t.writer.shown r c) := by
  have hshow : (t.type ch).writer.shown r c = (t.writer.print [ch]).shown r c := by
    show ((t.writer.print [ch]).cursorShow ' ').shown r c = _
    rw [cursorShow_shown]
    exact if_neg haway
  rw [hshow]
  rcases Nat.lt_or_ge (t.writer.col + 1) t.writer.cols with hfit | hend
  · refine ⟨fun hscroll => ?_, fun _ => ?_⟩
    · have := hscroll.1
      omega
    · exact (writeChar_within hplain.1 hplain.2 hfit).2.2.2.2.2 r c
  · have hwrap := writeChar_wraps hplain hend
    unfold nextRow at hwrap
    refine ⟨fun hscroll hr => ?_, fun hroom => ?_⟩
    · have hprint : t.writer.print [ch] = _ :=
        hwrap.trans (dif_neg (Nat.not_lt.mpr hscroll.2))
      rw [hprint, ← glyph_shown]
      exact congrArg Cell.ch (if_pos hr)
    · have hprint : t.writer.print [ch] = _ := hwrap.trans (dif_pos (by
        by_contra hlast
        exact hroom ⟨hend, Nat.not_lt.mp hlast⟩))
      rw [hprint, ← glyph_shown]
      rfl

/-- The cells of a trail show a line. -/
def Trail.Shows (t : Trail) (text : Text) : Prop :=
  ∀ k r c : Nat, t.cells[k]? = some (some (r, c)) →
    text[k]? = some (t.writer.shown r c)

/-- A character that is in a cell is not in the cursor's, and not below it. -/
theorem Typed.apart {w : Writer} {n k r c : Nat} {t : Trail} (h : w.Typed n t)
    (hcell : t.cells[k]? = some (some (r, c))) :
    k < n ∧ r ≤ t.writer.row ∧ ¬ (r = t.writer.row ∧ c = t.writer.col) := by
  rw [h.cells, List.getElem?_map, Option.map_eq_some_iff] at hcell
  obtain ⟨k', hk', hcell⟩ := hcell
  obtain ⟨hk, rfl⟩ := List.getElem?_eq_some_iff.mp hk'
  rw [List.getElem_range] at hcell
  rw [List.length_range] at hk
  refine ⟨hk, ?_, ?_⟩
  · unfold cellOf cellAbove at hcell
    split at hcell
    · have := congrArg Prod.fst (Option.some.inj hcell)
      simp only at this
      omega
    · exact absurd hcell (by simp)
  · rintro ⟨rfl, rfl⟩
    rw [h.col, cellOf_eq_iff (Nat.le_of_lt hk)] at hcell
    omega

/-- The cell of a character, with the next one drawn and before the screen scrolls. -/
theorem Typed.shows_drawn {w : Writer} {t : Trail} {text : Text} (h : w.Typed text.length t)
    (hshows : t.Shows text) (ch : Char) {k r c : Nat}
    (hcell : (t.cells ++ [some (t.writer.row, t.writer.col)])[k]? = some (some (r, c))) :
    r ≤ t.writer.row ∧ (text ++ [ch])[k]? = some
      (if r = t.writer.row ∧ c = t.writer.col then ch else t.writer.shown r c) := by
  have hlen : t.cells.length = text.length := by
    rw [h.cells, List.length_map, List.length_range]
  rcases Nat.lt_trichotomy k text.length with hlt | rfl | hgt
  · rw [List.getElem?_append_left (by omega)] at hcell ⊢
    obtain ⟨-, hrow, haway⟩ := h.apart hcell
    rw [if_neg haway]
    exact ⟨hrow, hshows k r c hcell⟩
  · rw [← hlen, List.getElem?_concat_length, Option.some.injEq, Option.some.injEq,
      Prod.mk.injEq] at hcell
    rw [List.getElem?_concat_length, if_pos ⟨hcell.1.symm, hcell.2.symm⟩]
    exact ⟨Nat.le_of_eq hcell.1.symm, rfl⟩
  · rw [List.getElem?_eq_none (by rw [List.length_append, List.length_singleton]; omega)] at hcell
    exact absurd hcell (by simp)

theorem lift_eq_some {cell : Option (Nat × Nat)} {r c : Nat} (h : lift cell = some (r, c)) :
    cell = some (r + 1, c) := by
  unfold lift at h
  split at h
  · rename_i r' c'
    rw [Option.some.injEq, Prod.mk.injEq] at h
    rw [h.1, h.2]
  · exact absurd h (by simp)

theorem Typed.shows {w : Writer} {t : Trail} {text : Text} (h : w.Typed text.length t)
    (hshows : t.Shows text) {ch : Char} (hplain : Plain ch) : (t.type ch).Shows (text ++ [ch]) := by
  intro k r c hcell
  have haway := ((h.type hplain).apart hcell).2.2
  obtain ⟨hscrolled, hstill⟩ := type_shown (t := t) hplain haway
  by_cases hscroll : t.writer.Scrolls
  · have hcells : (t.type ch).cells
        = (t.cells ++ [some (t.writer.row, t.writer.col)]).map lift := if_pos hscroll
    rw [hcells, List.getElem?_map, Option.map_eq_some_iff] at hcell
    obtain ⟨cell, hcell, hlift⟩ := hcell
    rw [lift_eq_some hlift] at hcell
    obtain ⟨hrow, hshown⟩ := h.shows_drawn hshows ch hcell
    rw [hscrolled hscroll (Nat.lt_of_le_of_lt hrow t.writer.row_lt)]
    exact hshown
  · have hcells : (t.type ch).cells = t.cells ++ [some (t.writer.row, t.writer.col)] :=
      if_neg hscroll
    rw [hcells] at hcell
    rw [hstill hscroll]
    exact (h.shows_drawn hshows ch hcell).2

/-- **The trail is where the line is.**  Each character typed is shown in the cell the
trail has for it, unless it has scrolled off. -/
theorem trail_shows (w : Writer) {text : Text} (hplain : ∀ ch ∈ text, Plain ch) :
    (w.trail text).Shows text := by
  induction text using List.reverseRecOn with
  | nil =>
      intro k r c hcell
      exact absurd hcell (by simp [trail])
  | append_singleton text ch ih =>
      have hfront : ∀ c ∈ text, Plain c := fun c hc => hplain c (List.mem_append_left _ hc)
      rw [trail_concat]
      exact (typed_trail w hfront).shows (ih hfront)
        (hplain ch (List.mem_append_right _ List.mem_cons_self))

/-- Where each position of the line is, the one behind it included. -/
def Trail.places (t : Trail) : List (Option (Nat × Nat)) :=
  t.cells ++ [some (t.writer.row, t.writer.col)]

theorem Typed.places {w : Writer} {n k : Nat} {t : Trail} (h : w.Typed n t) (hk : k ≤ n) :
    t.places[k]? = some (cellOf w.cols w.col t.writer.row n k) := by
  have hplaces : t.places
      = (List.range (n + 1)).map fun k => cellOf w.cols w.col t.writer.row n k := by
    rw [Trail.places, h.cells, List.range_succ, List.map_append, List.map_singleton, cellOf_self,
      h.col]
  rw [hplaces, List.getElem?_map, List.getElem?_range (Nat.lt_succ_of_le hk)]
  rfl

/-- The column that `set_col` goes to is that of the position when the text ends on the row
it begins on, and at the end of a text that ends in the last column. -/
theorem cellOf_setCol_iff {cols pc row n k : Nat} (hpos : 0 < cols) (hk : k ≤ n) :
    cellOf cols pc row n k = some (row, min (pc + k) (cols - 1)) ↔
      pc + n < cols ∨ (k = n ∧ (pc + n) % cols = cols - 1) := by
  rw [cellOf, cellAbove_eq_iff]
  have hdiv := Nat.div_le_div_right (c := cols) (show pc + k ≤ pc + n by omega)
  have hn := Nat.div_add_mod (pc + n) cols
  have hk' := Nat.div_add_mod (pc + k) cols
  have hmod := Nat.mod_lt (pc + n) hpos
  constructor
  · rintro ⟨hrow, hcol⟩
    have hsame : (pc + n) / cols = (pc + k) / cols := by omega
    rcases Nat.lt_or_ge (pc + n) cols with hfit | hwrap
    · exact Or.inl hfit
    · -- Both are on a row behind the first, so the column is the last one.
      have hpast : cols ≤ pc + k := by
        by_contra hlt
        rw [Nat.div_eq_of_lt (show pc + k < cols by omega)] at hsame
        have := Nat.div_pos hwrap hpos
        omega
      have hclamp : min (pc + k) (cols - 1) = cols - 1 := Nat.min_eq_right (by omega)
      rw [hclamp] at hcol
      rw [hsame] at hn
      omega
  · rintro (hfit | ⟨rfl, hlast⟩)
    · have hk : pc + k < cols := by omega
      rw [Nat.div_eq_of_lt hfit, Nat.div_eq_of_lt hk, Nat.mod_eq_of_lt hk]
      omega
    · refine ⟨Nat.sub_self _, ?_⟩
      have := Nat.mod_le (pc + k) cols
      omega

end Writer

namespace Session

variable {s t u : Session} {w w' : Writer}

/-! ### A line typed behind a prompt -/

/-- A character without a handler of its own. -/
def Ordinary (ch : Char) : Prop :=
  ch ∉ ['\x08', '\n', '\t', '\x01', '\x02', '\x03', '\x05', '\x06', '\x0c', '\x0e', '\x10',
    '\x15', '\x17']

theorem Ordinary.plain {ch : Char} (h : Ordinary ch) : Writer.Plain ch := by
  refine ⟨?_, ?_⟩
  · rintro rfl
    exact h (by decide)
  · rintro rfl
    exact h (by decide)

theorem pushChar_ordinary (commands : List Cmd) {ch : Char} (h : Ordinary ch) :
    s.pushChar commands ch = s.insertChar ch := by
  unfold pushChar
  split
  case h_14 => rfl
  all_goals exact absurd (by decide) h

/-- A prompt with nothing typed behind it. -/
structure AtPrompt (s : Session) (w : Writer) : Prop where
  writer : s.writer = some w
  len : s.shell.len = 0
  cursorPos : s.shell.cursorPos = 0
  promptCol : s.shell.promptCol = w.col

/-- Every prompt for a new line is one. -/
theorem printPrompt_atPrompt (hw : s.writer = some w) (hlen : s.shell.len = 0) :
    ∃ s' w', s.printPrompt = some s' ∧ s'.AtPrompt w' := by
  obtain ⟨promptCol, promptLine, heq, hcol⟩ := printPrompt_eq (s := s) (by omega)
  obtain ⟨hprompt, -⟩ := hcol w hw
  rw [hw] at heq
  exact ⟨_, _, heq, rfl, hlen, hlen, hprompt⟩

/-- A line behind a prompt that began in column `pc`, on a screen `cols` wide. -/
structure Behind (pc cols n row : Nat) (s : Session) (w : Writer) : Prop where
  writer : s.writer = some w
  cols : w.cols = cols
  row : w.row = row
  len : s.shell.len = n
  promptCol : s.shell.promptCol = pc

/-- Typing is one trail. -/
theorem AtPrompt.typed (h : s.AtPrompt w) (commands : List Cmd) {text : Text}
    (htext : ∀ ch ∈ text, Ordinary ch) (hlen : text.length ≤ BUF_CAP) :
    ∃ t, text.foldlM (pushChar commands) s = some t ∧ t.shell.line = text ∧
      t.shell.cursorPos = text.length ∧
      t.Behind w.col w.cols text.length (w.trail text).writer.row (w.trail text).writer := by
  induction text using List.reverseRecOn with
  | nil =>
      have hline : s.shell.line = [] := by rw [Shell.line, h.len, FixedBuffer.text_zero]
      exact ⟨s, rfl, hline, h.cursorPos, h.writer, rfl, rfl, h.len, h.promptCol⟩
  | append_singleton text ch ih =>
      rw [List.length_append, List.length_singleton] at hlen
      have hfront : ∀ c ∈ text, Ordinary c := fun c hc => htext c (List.mem_append_left _ hc)
      have hch : Ordinary ch := htext ch (List.mem_append_right _ List.mem_cons_self)
      obtain ⟨t, htyped, hline, hcursor, hbehind⟩ := ih hfront (by omega)
      have hroom : t.shell.len < BUF_CAP := by rw [hbehind.len]; omega
      obtain ⟨buf, hbuf, hinsert⟩ := insertChar_end hroom (hcursor.trans hbehind.len.symm) ch
      have hcols : (w.trail (text ++ [ch])).writer.cols = w.cols :=
        (Writer.typed_trail w fun c hc => (htext c hc).plain).cols
      refine ⟨(t.withShell (t.shell.edit buf (t.shell.len + 1) (t.shell.len + 1))).onWriter
        fun w => (w.print [ch]).cursorShow ' ', ?_, ?_, ?_, ?_, hcols, rfl, ?_, hbehind.promptCol⟩
      · rw [List.foldlM_append, htyped, Option.bind_eq_bind, Option.bind_some, List.foldlM_cons,
          pushChar_ordinary commands hch, hinsert]
        rfl
      · rw [← hline]
        exact hbuf
      · rw [List.length_append, ← hbehind.len]
        rfl
      · rw [Writer.trail_concat, onWriter_writer, withShell_writer, hbehind.writer]
        rfl
      · rw [List.length_append, ← hbehind.len]
        rfl

/-! ### Motions -/

/-- A motion of the cursor along the line. -/
inductive Motion
  | left
  | right
  | toStart
  | toEnd
  deriving DecidableEq

/-- The key of a motion. -/
def move (s : Session) : Motion → Option Session
  | .left => s.cursorLeft
  | .right => s.cursorRight
  | .toStart => s.cursorToStart
  | .toEnd => s.cursorToEnd

/-- Where a motion goes from position `k` of a line of `n` characters. -/
def Motion.go (n k : Nat) : Motion → Nat
  | .left => k - 1
  | .right => if k = n then n else k + 1
  | .toStart => 0
  | .toEnd => n

theorem Motion.go_le {n k : Nat} (hk : k ≤ n) (m : Motion) : m.go n k ≤ n := by
  cases m with
  | left => exact Nat.le_trans (Nat.sub_le k 1) hk
  | right =>
      show (if k = n then n else k + 1) ≤ n
      split <;> omega
  | toStart => exact Nat.zero_le n
  | toEnd => exact Nat.le_refl n

variable {pc cols n row : Nat}

/-- A motion that goes somewhere goes to a column of the row it starts on. -/
theorem Behind.moveCursor (h : Behind pc cols n row s w) (hn : n ≤ BUF_CAP) {k : Nat}
    (hk : k ≤ n) :
    ∃ s' w', s.moveCursor k = some s' ∧ Behind pc cols n row s' w' ∧ s'.shell.cursorPos = k ∧
      w'.col = min (pc + k) (cols - 1) := by
  rw [← h.len] at hn hk
  refine ⟨_, (w.cursorHide.setCol (s.shell.promptCol + k)).cursorShow
    (s.shell.edit s.shell.buf s.shell.len k).cursorCell, moveCursor_eq hn hk, ?_, rfl, ?_⟩
  · refine ⟨?_, h.cols, h.row, h.len, h.promptCol⟩
    rw [onWriter_writer, withShell_writer, h.writer]
    rfl
  · rw [← h.promptCol, ← h.cols]
    rfl

/-- A motion: it goes on to its position, or it has nowhere to go. -/
theorem Behind.move (h : Behind pc cols n row s w) (hn : n ≤ BUF_CAP)
    (hk : s.shell.cursorPos ≤ n) (m : Motion) :
    (∃ s' w', s.move m = some s' ∧ Behind pc cols n row s' w' ∧
      s'.shell.cursorPos = m.go n s.shell.cursorPos ∧
      w'.col = min (pc + s'.shell.cursorPos) (cols - 1) ∧
      ¬ (m = .right ∧ s.shell.cursorPos = n)) ∨
    (s.move m = some s ∧ m.go n s.shell.cursorPos = s.shell.cursorPos ∧
      (m = .right ∨ s.shell.cursorPos = 0)) := by
  have hgoes : ∀ k, k ≤ n → ∃ s' w', s.moveCursor k = some s' ∧ Behind pc cols n row s' w' ∧
      s'.shell.cursorPos = k ∧ w'.col = min (pc + s'.shell.cursorPos) (cols - 1) := by
    intro k hk
    obtain ⟨s', w', heq, hbehind, hcursor, hcol⟩ := h.moveCursor hn hk
    exact ⟨s', w', heq, hbehind, hcursor, by rw [hcursor, hcol]⟩
  cases m with
  | left =>
      by_cases hzero : s.shell.cursorPos = 0
      · refine Or.inr ⟨cursorLeft_eq.trans (if_pos hzero), ?_, Or.inr hzero⟩
        rw [Motion.go, hzero]
      · obtain ⟨s', w', heq, hbehind, hcursor, hcol⟩ := hgoes (s.shell.cursorPos - 1) (by omega)
        exact Or.inl ⟨s', w', (cursorLeft_eq.trans (if_neg hzero)).trans heq, hbehind, hcursor,
          hcol, fun hright => absurd hright.1 (by decide)⟩
  | right =>
      by_cases hend : s.shell.cursorPos = n
      · refine Or.inr ⟨if_pos (hend.trans h.len.symm), ?_, Or.inl rfl⟩
        rw [Motion.go, if_pos hend, hend]
      · obtain ⟨s', w', heq, hbehind, hcursor, hcol⟩ := hgoes (s.shell.cursorPos + 1) (by omega)
        refine Or.inl ⟨s', w', (if_neg fun hlen => hend ?_).trans heq, hbehind, ?_, hcol,
          fun hright => hend hright.2⟩
        · rw [hlen, h.len]
        · rw [Motion.go, if_neg hend, hcursor]
  | toStart =>
      obtain ⟨s', w', heq, hbehind, hcursor, hcol⟩ := hgoes 0 (Nat.zero_le n)
      exact Or.inl ⟨s', w', heq, hbehind, hcursor, hcol, fun hright => absurd hright.1 (by decide)⟩
  | toEnd =>
      obtain ⟨s', w', heq, hbehind, hcursor, hcol⟩ := hgoes n (Nat.le_refl n)
      refine Or.inl ⟨s', w', ?_, hbehind, hcursor, hcol, fun hright => absurd hright.1 (by decide)⟩
      rw [← h.len] at heq
      exact heq

/-- The position that motions from the end of a line lead to. -/
def Motion.goAll (n : Nat) (moves : List Motion) : Nat := moves.foldl (Motion.go n) n

theorem Motion.goAll_concat (n : Nat) (moves : List Motion) (m : Motion) :
    goAll n (moves ++ [m]) = m.go n (goAll n moves) := List.foldl_concat _ _ _ _

/-- Motions to the right at the end of a line go nowhere. -/
theorem Motion.goAll_right {n : Nat} {moves : List Motion} (h : ∀ m ∈ moves, m = .right) :
    goAll n moves = n := by
  induction moves using List.reverseRecOn with
  | nil => rfl
  | append_singleton moves m ih =>
      rw [goAll_concat, ih fun m' hm' => h m' (List.mem_append_left _ hm'),
        h m (List.mem_append_right _ List.mem_cons_self)]
      exact if_pos rfl

/-- Where the cursor is shown after motions from the end of the line, which is in column
`col`: unless they went nowhere, in a column counted from the prompt and clamped. -/
theorem Behind.moves (h : Behind pc cols n row s w) (hn : n ≤ BUF_CAP)
    (hcursor : s.shell.cursorPos = n) (hpc : pc < cols) (hcol : w.col = (pc + n) % cols)
    (moves : List Motion) :
    ∃ s' w', moves.foldlM Session.move s = some s' ∧ Behind pc cols n row s' w' ∧
      s'.shell.cursorPos = Motion.goAll n moves ∧ s'.shell.cursorPos ≤ n ∧
      ((∀ m ∈ moves, m = .right) → w'.col = (pc + n) % cols) ∧
      (¬ (∀ m ∈ moves, m = .right) → w'.col = min (pc + s'.shell.cursorPos) (cols - 1)) := by
  induction moves using List.reverseRecOn with
  | nil =>
      refine ⟨s, w, rfl, h, hcursor, Nat.le_of_eq hcursor, fun _ => hcol, fun hne => ?_⟩
      exact absurd (fun m hm => absurd hm List.not_mem_nil) hne
  | append_singleton moves m ih =>
      obtain ⟨s', w', heq, hbehind, hpos, hle, hright, hmoved⟩ := ih
      have hrun : ∀ r, s'.move m = r → (moves ++ [m]).foldlM Session.move s = r := by
        rintro r rfl
        rw [List.foldlM_append, heq, Option.bind_eq_bind, Option.bind_some, List.foldlM_cons]
        cases s'.move m <;> rfl
      have hall : (∀ m' ∈ moves ++ [m], m' = .right) ↔
          (∀ m' ∈ moves, m' = .right) ∧ m = .right := by
        simp only [List.mem_append, List.mem_singleton, or_imp, forall_and, forall_eq]
      rw [Motion.goAll_concat, ← hpos]
      rcases hbehind.move hn hle m with ⟨s'', w'', heq', hbehind', hpos', hcol', hgone⟩
        | ⟨heq', hstay, hwhy⟩
      · refine ⟨s'', w'', hrun _ heq', hbehind', hpos', ?_, fun hr => ?_, fun _ => hcol'⟩
        · rw [hpos']
          exact Motion.go_le hle m
        · obtain ⟨hr, hm⟩ := hall.mp hr
          exact absurd ⟨hm, hpos.trans (Motion.goAll_right hr)⟩ hgone
      · refine ⟨s', w', hrun _ heq', hbehind, hstay.symm, hle, fun hr => hright (hall.mp hr).1,
          fun hne => ?_⟩
        by_cases hr : ∀ m' ∈ moves, m' = .right
        · rcases hwhy with rfl | hzero
          · exact absurd (hall.mpr ⟨hr, rfl⟩) hne
          · have hend : s'.shell.cursorPos = n := hpos.trans (Motion.goAll_right hr)
            rw [hright hr, ← hend, hzero, Nat.add_zero, Nat.mod_eq_of_lt hpc]
            omega
        · exact hmoved hr

/-! ### The cell of the cursor -/

/-- The cursor is shown where its position of the line is: in the cell of its character,
or in the one behind the last. -/
def InPlace (w : Writer) (text : Text) (u : Session) : Prop :=
  ∃ w', u.writer = some w' ∧
    (w.trail text).places[u.shell.cursorPos]? = some (some (w'.row, w'.col))

theorem Behind.inPlace_iff {text : Text} (h : Behind pc cols n row u w') :
    InPlace w text u ↔ (w.trail text).places[u.shell.cursorPos]? = some (some (row, w'.col)) := by
  unfold InPlace
  rw [← h.row]
  constructor
  · rintro ⟨w'', hw'', hplace⟩
    obtain rfl := Option.some.inj (h.writer.symm.trans hw'')
    exact hplace
  · exact fun hplace => ⟨w', h.writer, hplace⟩

/-- **A cursor moved along a wrapped line.**  After a line typed at a prompt and motions
along it, the cursor is in place exactly when the line and the cell behind it are on the
prompt's row, when no motion went anywhere, or when the motions end behind the line and
that is in the last column.
-/
theorem cursor_in_place_iff (h : s.AtPrompt w) (commands : List Cmd) {text : Text}
    (htext : ∀ ch ∈ text, Ordinary ch) (hlen : text.length ≤ BUF_CAP) (moves : List Motion) :
    ∃ t u, text.foldlM (pushChar commands) s = some t ∧
      t.writer = some (w.trail text).writer ∧ (w.trail text).Shows text ∧
      moves.foldlM move t = some u ∧ u.shell.cursorPos = Motion.goAll text.length moves ∧
      (InPlace w text u ↔
        w.col + text.length < w.cols ∨ (∀ m ∈ moves, m = .right) ∨
          (Motion.goAll text.length moves = text.length ∧
            (w.col + text.length) % w.cols = w.cols - 1)) := by
  have hplain : ∀ ch ∈ text, Writer.Plain ch := fun ch hch => (htext ch hch).plain
  have htyped := Writer.typed_trail w hplain
  obtain ⟨t, hrun, -, hcursor, hbehind⟩ := h.typed commands htext hlen
  obtain ⟨u, w', hmoves, hbehind', hpos, hle, hright, hmoved⟩ :=
    hbehind.moves hlen hcursor w.col_lt htyped.col moves
  refine ⟨t, u, hrun, hbehind.writer, Writer.trail_shows w hplain, hmoves, hpos, ?_⟩
  rw [hbehind'.inPlace_iff, htyped.places hle, Option.some.injEq]
  by_cases hr : ∀ m ∈ moves, m = .right
  · rw [hright hr, Writer.cellOf_eq_iff hle, hpos]
    exact iff_of_true (Motion.goAll_right hr) (Or.inr (Or.inl hr))
  · rw [hmoved hr, Writer.cellOf_setCol_iff (Nat.zero_lt_of_lt w.col_lt) hle, hpos, or_iff_right hr]

/-- A short line, moved along and back. -/
theorem cursor_in_place_short :
    ∃ s w t u, firstPrompt = some s ∧ s.AtPrompt w ∧
      ['l', 's'].foldlM (pushChar []) s = some t ∧ [Motion.toStart, .right].foldlM move t = some u ∧
      (InPlace w ['l', 's'] u ↔
        w.col + 2 < w.cols ∨ (∀ m ∈ [Motion.toStart, .right], m = .right) ∨
          (Motion.goAll 2 [Motion.toStart, .right] = 2 ∧ (w.col + 2) % w.cols = w.cols - 1)) := by
  obtain ⟨s, w, hs, hat⟩ := printPrompt_atPrompt (s := new (some (Writer.clear _)) _) rfl rfl
  have htext : ∀ ch ∈ ['l', 's'], Ordinary ch := by simp [Ordinary]
  obtain ⟨t, u, ht, -, -, hu, -, hiff⟩ :=
    cursor_in_place_iff hat [] htext (by decide) [.toStart, .right]
  exact ⟨s, w, t, u, hs, hat, ht, hu, hiff⟩

/-- A line that fills the row of the prompt, with the cursor moved back onto its last
character: it is shown on the row below. -/
theorem cursor_below_wrapped_line :
    ∃ s w t u, firstPrompt = some s ∧ s.AtPrompt w ∧
      (List.replicate 67 'a').foldlM (pushChar []) s = some t ∧
      [Motion.left].foldlM move t = some u ∧ ¬ InPlace w (List.replicate 67 'a') u := by
  have hrun : (firstPrompt.any fun s => s.writer.any fun w =>
      ((List.replicate 67 'a').foldlM (pushChar []) s).any fun t =>
        ([Motion.left].foldlM move t).any fun u => u.writer.any fun w' =>
          decide ((w.trail (List.replicate 67 'a')).places[u.shell.cursorPos]?
            ≠ some (some (w'.row, w'.col)))) = true := by
    decide +kernel
  obtain ⟨s, w, hs, hat⟩ := printPrompt_atPrompt (s := new (some (Writer.clear _)) _) rfl rfl
  have hprompt : firstPrompt = some s := hs
  rw [hprompt, Option.any_some, hat.writer, Option.any_some] at hrun
  obtain ⟨t, ht, hrun⟩ := (Option.any_eq_true _ _).mp hrun
  obtain ⟨u, hu, hrun⟩ := (Option.any_eq_true _ _).mp hrun
  obtain ⟨w', hw', hne⟩ := (Option.any_eq_true _ _).mp hrun
  refine ⟨s, w, t, u, hprompt, hat, ht, hu, ?_⟩
  rintro ⟨w'', hw'', hplace⟩
  obtain rfl := Option.some.inj (hw'.symm.trans hw'')
  exact of_decide_eq_true hne hplace

end Session

end Amaterasu
