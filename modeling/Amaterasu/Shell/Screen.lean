/-
The screen and the edited line.

`OnScreen` is the simulation between the two: the writer shows the prompt and the line
with the cursor where the shell has it.  A repaint is right wherever the cursor is, and
so are the motions.  What paints at the screen's cursor as if it were at the end of the
line is right only there: the kills, the recalls and what a completion types.  What ends
the line instead leaves the cursor's row as it is, and is right unless a character is
remembered under the cursor and a backspace is printed on its way to the next prompt, with
no clearing of the screen that forgets it.
`InStep` says exactly that of the state before a key.
-/
import Amaterasu.Lib.Run
import Amaterasu.Shell.Row
import Amaterasu.Shell.Steps

namespace Amaterasu

open FixedBuffer

/-- Nothing in the line or in a line it can become moves the cursor when it is printed. -/
structure Shell.Printable (s : Shell) : Prop where
  line : ∀ ch ∈ s.line, Writer.Plain ch
  live : ∀ ch ∈ text s.liveBuf s.liveLen, Writer.Plain ch
  entries : ∀ k, ∀ ch ∈ s.entry k, Writer.Plain ch

/-- A recorded line is one that was printed. -/
theorem Shell.Printable.record {s shell : Shell} (h : s.Printable) (hb : s.Bounded)
    (hrecord : s.record = some shell) :
    ({ shell with histCursor := 0, len := 0, cursorPos := 0 } : Shell).Bounded ∧
      ({ shell with histCursor := 0, len := 0, cursorPos := 0 } : Shell).Printable := by
  obtain ⟨history, histLen, histCount, heq, hlens, hcases⟩ := Shell.record_eq hb
  obtain rfl : _ = shell := Option.some.inj (heq.symm.trans hrecord)
  refine ⟨⟨Nat.le_refl 0, Nat.zero_le _, hb.live, hlens, Nat.zero_le _⟩, ?_, h.live, ?_⟩
  · intro c hc
    exact absurd hc List.not_mem_nil
  · intro k
    show ∀ c ∈ text history[k] histLen[k], Writer.Plain c
    rcases hcases with ⟨-, -, hentries⟩ | ⟨-, -, hentries⟩
    · rw [hentries]
      exact h.entries k
    · rw [hentries]
      split
      · exact h.line
      · exact h.entries k

namespace Session

/-- The row of the cursor shows the line. -/
structure Shows (s : Session) (w : Writer) : Prop where
  writer : s.writer = some w
  prompt : ∀ c, c < s.shell.promptCol → w.shown w.row c = s.promptLine c
  line : ∀ i, i < s.shell.len → s.shell.buf[i]? = some (w.shown w.row (s.shell.promptCol + i))
  blank : ∀ c, s.shell.promptCol + s.shell.len ≤ c → c < w.cols → w.shown w.row c = ' '
  col : w.col = s.shell.promptCol + s.shell.cursorPos

/-- The row has room for the line and one more character. -/
def Fits (s : Session) : Prop :=
  ∀ w, w ∈ s.writer → s.shell.promptCol + s.shell.len + 1 < w.cols

instance (s : Session) : Decidable s.Fits := inferInstanceAs (Decidable (∀ w, w ∈ s.writer → _))

/-! ### The condition on a key -/

/-- The cursor is at the end of the line. -/
def AtEnd (s : Session) : Prop := s.shell.cursorPos = s.shell.len

/-- Printing does not go back over a remembered character, or forgets it and clears the
screen. -/
def Harmless (s : Session) (ops : List Writer.Op) : Prop :=
  s.shell.cursorCell = ' ' ∨ Writer.Quiet ops ∨ .clear ∈ ops

variable (commands : List Cmd)

/-- What the line does when it is entered. -/
def entered (s : Session) : Globals × List Writer.Op :=
  dispatchLine commands { s.shell.record.getD s.shell with histCursor := 0 } s.globals s.shell.line

/-- What a key relies on. -/
def InStep (s : Session) (ch : Char) : Prop :=
  match ch with
  | '\n' => s.Harmless ((s.entered commands).2 ++ promptOps (s.entered commands).1)
  | '\t' =>
      match completion commands s.globals s.shell.line with
      | some (.append rest) =>
          s.AtEnd ∧ ∀ ch ∈ rest.take (BUF_CAP - s.shell.len), Writer.Plain ch
      | some (.list names) => s.Harmless (.print (listing names) :: promptOps s.globals)
      | _ => True
  | '\x03' => s.Harmless (promptOps s.globals)
  | '\x0e' => s.AtEnd ∨ s.shell.histCursor = 0
  | '\x10' => s.AtEnd ∨ s.shell.available ≤ s.shell.histCursor
  | '\x15' => s.AtEnd
  | '\x17' => s.AtEnd
  | _ => True

/-! ### The simulation -/

/-- What a session and its writer are between keys. -/
structure OnScreen (s : Session) (w : Writer) : Prop where
  writer : s.writer = some w
  bounded : s.shell.Bounded
  printable : s.shell.Printable
  shown : s.shell.promptCol + s.shell.len + 1 < w.cols →
    w.LineShown s.promptLine s.shell.promptCol s.shell.line s.shell.cursorPos

/-- Where a handler ends, if it does. -/
def Paints (r : Option Session) : Prop := ∀ s, r = some s → ∃ w, s.OnScreen w

namespace OnScreen

variable {commands} {s : Session} {w : Writer}

theorem paints (h : s.OnScreen w) : Paints (some s) := by
  intro s' hs'
  obtain rfl := Option.some.inj hs'
  exact ⟨w, h⟩

theorem lineShown (h : s.OnScreen w) (hfit : s.Fits) :
    w.LineShown s.promptLine s.shell.promptCol s.shell.line s.shell.cursorPos :=
  h.shown (hfit w h.writer)

/-- **The screen is what the user is editing.** -/
theorem shows (h : s.OnScreen w) (hfit : s.Fits) : s.Shows w := by
  have hrow := h.lineShown hfit
  have hroom := hfit w h.writer
  have hlen := Shell.length_line h.bounded
  refine ⟨h.writer, ?_, ?_, ?_, hrow.col⟩
  · intro c hc
    rw [hrow.cells c (by omega), Writer.rowOf, if_pos hc]
  · intro i hi
    rw [hrow.cells _ (by omega), Writer.rowOf, if_neg (by omega), Nat.add_sub_cancel_left,
      getElem?_eq_text hi]
    show s.shell.line[i]? = _
    rw [List.getElem?_eq_getElem (by omega)]
    rfl
  · intro c hc hc'
    rw [hrow.cells c hc', Writer.rowOf, if_neg (by omega), List.getElem?_eq_none (by omega)]
    rfl

/-! ### Painting -/

/-- Another line and another painting of it. -/
theorem edit (h : s.OnScreen w) {buf : Vector Char BUF_CAP} {n k : Nat} {f : Writer → Writer}
    (hk : k ≤ n) (hn : n ≤ BUF_CAP) (hplain : ∀ ch ∈ text buf n, Writer.Plain ch)
    (hshown : s.shell.promptCol + n + 1 < (f w).cols →
      (f w).LineShown s.promptLine s.shell.promptCol (text buf n) k) :
    ((s.withShell (s.shell.edit buf n k)).onWriter f).OnScreen (f w) := by
  refine ⟨?_, ⟨hk, hn, h.bounded.live, h.bounded.hist, h.bounded.browse⟩,
    ⟨hplain, h.printable.live, h.printable.entries⟩, hshown⟩
  rw [onWriter_writer, withShell_writer, h.writer, Option.map_some]

/-- The cursor is shown again at the end of most keys. -/
theorem cursorShow (h : s.OnScreen w) : Paints s.cursorShow := by
  rw [cursorShow_eq h.bounded.cursor h.bounded.len]
  apply paints (w := w.cursorShow s.shell.cursorCell)
  refine ⟨?_, h.bounded, h.printable, ?_⟩
  · rw [onWriter_writer, h.writer, Option.map_some]
  · intro hfit
    exact (h.shown hfit).cursorShow

/-- A repaint is right wherever the cursor was. -/
theorem redraw (h : s.OnScreen w) (hfit : s.Fits) {buf : Vector Char BUF_CAP} {start n k : Nat}
    (hk : k ≤ n) (hn : n ≤ BUF_CAP) (hplain : ∀ ch ∈ text buf n, Writer.Plain ch)
    (hstart : start ≤ n) (hlen : s.shell.len ≤ n + 1)
    (hsame : text buf start = text s.shell.buf start) (hstart' : start ≤ s.shell.len) :
    ((s.withShell (s.shell.edit buf n k)).onWriter ((s.shell.edit buf n k).redraw start)).OnScreen
      ((s.shell.edit buf n k).redraw start w) := by
  have htext : (text buf n).length = n := length_text hn
  have hline := Shell.length_line h.bounded
  apply h.edit hk hn hplain
  intro hroom
  have hcols : ((s.shell.edit buf n k).redraw start w).cols = w.cols := by
    unfold Shell.redraw
    simp
  have hdrawn := (h.lineShown hfit).redraw (text buf n) start k
    (by rw [take_text hstart, Shell.line, take_text hstart', hsame]) (by omega) (by omega) hplain
    (by omega) (by omega)
  rw [drop_text] at hdrawn
  exact hdrawn

/-! ### Editing -/

theorem insertChar (h : s.OnScreen w) (hfit : s.Fits) {ch : Char} (hplain : Writer.Plain ch) :
    Paints (s.insertChar ch) := by
  have hline := Shell.length_line h.bounded
  rcases Nat.lt_or_ge s.shell.len BUF_CAP with hroom | hfull
  · rcases Nat.lt_or_eq_of_le h.bounded.cursor with hmid | hend
    · obtain ⟨buf, htext, heq⟩ := insertChar_middle hmid hroom ch
      rw [heq]
      have hlen : (text s.shell.buf s.shell.cursorPos).length = s.shell.cursorPos :=
        length_text (Nat.le_trans h.bounded.cursor h.bounded.len)
      have hsame := (split_of_text htext hlen (by omega)).1
      refine (h.redraw hfit (by omega) hroom ?_ (by omega) (by omega) hsame (by omega)).paints
      intro c hc
      rw [htext] at hc
      rcases List.mem_append.mp hc with hc | hc
      · apply h.printable.line
        rw [Shell.line, text_split h.bounded.cursor]
        exact List.mem_append_left _ hc
      · rcases List.mem_cons.mp hc with rfl | hc
        · exact hplain
        · apply h.printable.line
          rw [Shell.line, text_split h.bounded.cursor]
          exact List.mem_append_right _ hc
    · obtain ⟨buf, htext, heq⟩ := insertChar_end hroom hend ch
      rw [heq]
      refine (h.edit (Nat.le_refl _) hroom ?_ ?_).paints
      · intro c hc
        rw [htext] at hc
        rcases List.mem_append.mp hc with hc | hc
        · exact h.printable.line c hc
        · rw [List.mem_singleton.mp hc]
          exact hplain
      · intro hroom'
        rw [Writer.cursorShow_cols, Writer.print_cols] at hroom'
        have hrow := h.lineShown hfit
        rw [hend, ← hline] at hrow
        have hnew := hrow.print (u := [ch]) (by simpa using hplain)
          (by rw [List.length_append, hline, List.length_singleton]; omega)
        have hshow := hnew.cursorShow
        rw [List.getElem?_eq_none (Nat.le_refl _)] at hshow
        rw [htext]
        rwa [List.length_append, hline] at hshow
  · rw [insertChar_full h.bounded (Nat.le_antisymm h.bounded.len hfull)]
    have hshow := h.cursorShow
    rwa [cursorShow_eq h.bounded.cursor h.bounded.len] at hshow

/-- Deleting from the end of the line, with the cursor there. -/
theorem erase (h : s.OnScreen w) (hfit : s.Fits) (hend : s.AtEnd) {n : Nat}
    (hn : n ≤ s.shell.len) :
    ((s.withShell (s.shell.edit s.shell.buf n n)).onWriter
      Writer.backspace^[s.shell.len - n]).OnScreen (Writer.backspace^[s.shell.len - n] w) := by
  have hlen := h.bounded.len
  have hsplit : s.shell.line = text s.shell.buf n ++ between s.shell.buf n s.shell.len :=
    text_split hn
  apply h.edit (Nat.le_refl n) (Nat.le_trans hn hlen)
  · intro c hc
    apply h.printable.line
    rw [hsplit]
    exact List.mem_append_left _ hc
  · intro _
    have hrow := h.lineShown hfit
    rw [hend, ← Shell.length_line h.bounded, hsplit] at hrow
    have herased := hrow.erase
    rwa [length_between _ hn hlen, length_text (Nat.le_trans hn hlen)] at herased

theorem erase_fits (h : s.OnScreen w) (hfit : s.Fits) {n : Nat} (hn : n ≤ s.shell.len) (j : Nat) :
    ((s.withShell (s.shell.edit s.shell.buf n n)).onWriter Writer.backspace^[j]).Fits := by
  intro w' hw'
  rw [onWriter_writer, withShell_writer, h.writer, Option.map_some] at hw'
  obtain rfl := Option.some.inj hw'
  have hroom := hfit w h.writer
  rw [Writer.iterate_backspace_cols]
  show s.shell.promptCol + n + 1 < w.cols
  omega

theorem backspace (h : s.OnScreen w) (hfit : s.Fits) : Paints s.backspace := by
  have hlen := h.bounded.len
  rcases Nat.eq_zero_or_pos s.shell.cursorPos with hzero | hpos
  · rw [backspace_start hzero]
    exact h.paints
  · rcases Nat.lt_or_eq_of_le h.bounded.cursor with hmid | hend
    · obtain ⟨buf, htext, heq⟩ := backspace_middle hpos hmid hlen
      have hfront : (text s.shell.buf (s.shell.cursorPos - 1)).length = s.shell.cursorPos - 1 :=
        length_text (by omega)
      have hsame := (split_of_text htext hfront (by omega)).1
      rw [heq]
      refine (h.redraw hfit (by omega) (by omega) ?_ (by omega) (by omega) hsame (by omega)).paints
      intro c hc
      apply h.printable.line
      rw [htext] at hc
      rcases List.mem_append.mp hc with hc | hc
      · rw [Shell.line, text_split (i := s.shell.cursorPos - 1) (by omega)]
        exact List.mem_append_left _ hc
      · rw [Shell.line, text_split h.bounded.cursor]
        exact List.mem_append_right _ hc
    · have herased := h.erase hfit hend (n := s.shell.len - 1) (Nat.sub_le _ 1)
      rw [show s.shell.len - (s.shell.len - 1) = 1 by omega, Function.iterate_one] at herased
      rw [backspace_end (by omega) hend]
      exact herased.paints

/-- Any of the four motions. -/
theorem moveCursor (h : s.OnScreen w) (hfit : s.Fits) {k : Nat} (hk : k ≤ s.shell.len) :
    Paints (s.moveCursor k) := by
  have hroom := hfit w h.writer
  rw [moveCursor_eq h.bounded.len hk]
  refine (h.edit hk h.bounded.len h.printable.line ?_).paints
  intro _
  exact (h.lineShown hfit).move (by omega)

theorem cursorLeft (h : s.OnScreen w) (hfit : s.Fits) : Paints s.cursorLeft := by
  rw [cursorLeft_eq]
  split
  · exact h.paints
  · exact h.moveCursor hfit (Nat.le_trans (Nat.sub_le _ 1) h.bounded.cursor)

theorem cursorRight (h : s.OnScreen w) (hfit : s.Fits) : Paints s.cursorRight := by
  have hcursor := h.bounded.cursor
  unfold Session.cursorRight
  split
  · exact h.paints
  · exact h.moveCursor hfit (by omega)

/-! ### Kills and recalls -/

theorem ctrlU (h : s.OnScreen w) (hfit : s.Fits) (hend : s.AtEnd) : Paints (some s.ctrlU) :=
  (h.erase hfit hend (Nat.zero_le _)).paints

theorem eraseBack (h : s.OnScreen w) (hfit : s.Fits) (hend : s.AtEnd) (p : Char → Bool) :
    ∃ s' w', s.eraseBack p s.shell.len = some s' ∧ s'.OnScreen w' ∧ s'.Fits ∧ s'.AtEnd := by
  have hkept : keptLength p s.shell.line ≤ s.shell.len := by
    rw [← Shell.length_line h.bounded]
    exact keptLength_le p s.shell.line
  exact ⟨_, _, eraseBack_eq p _ s rfl h.bounded.len hend, h.erase hfit hend hkept,
    h.erase_fits hfit hkept _, rfl⟩

theorem ctrlW (h : s.OnScreen w) (hfit : s.Fits) (hend : s.AtEnd) : Paints s.ctrlW := by
  obtain ⟨s₁, w₁, heq₁, h₁, hfit₁, hend₁⟩ := h.eraseBack hfit hend (· == ' ')
  obtain ⟨s₂, w₂, heq₂, h₂, -, -⟩ := h₁.eraseBack hfit₁ hend₁ (· != ' ')
  unfold Session.ctrlW
  rw [heq₁, Option.bind_eq_bind, Option.bind_some, heq₂]
  exact h₂.paints

/-- A recalled line replaces one that the cursor is at the end of. -/
theorem restore (h : s.OnScreen w) (hfit : s.Fits) (hend : s.AtEnd) {t : Text}
    {r : Option Session} (hload : s.Loads t r) (hplain : ∀ ch ∈ t, Writer.Plain ch) :
    Paints r := by
  obtain ⟨hlen, buf, htext, rfl⟩ := hload
  refine (h.edit (Nat.le_refl _) hlen (by rwa [htext]) ?_).paints
  intro hroom
  rw [Writer.print_cols] at hroom
  have hempty := (h.erase hfit hend (Nat.zero_le _)).lineShown
    (h.erase_fits hfit (Nat.zero_le _) _)
  have hprinted := Writer.LineShown.print (t := []) (u := t) hempty hplain
    (by rw [List.nil_append]; exact Nat.lt_of_succ_lt hroom)
  rw [htext]
  exact hprinted

/-- What is not on the screen may change. -/
theorem browse (h : s.OnScreen w) {liveBuf : Vector Char BUF_CAP} {liveLen histCursor : Nat}
    (hlive : liveLen ≤ BUF_CAP) (hplain : ∀ ch ∈ text liveBuf liveLen, Writer.Plain ch)
    (hbrowse : histCursor ≤ s.shell.available) :
    (s.withShell { s.shell with
      liveBuf := liveBuf, liveLen := liveLen, histCursor := histCursor }).OnScreen w :=
  ⟨h.writer, ⟨h.bounded.cursor, h.bounded.len, hlive, h.bounded.hist, hbrowse⟩,
    ⟨h.printable.line, hplain, h.printable.entries⟩, h.shown⟩

end OnScreen

/-- The end of a handler shows the cursor. -/
theorem Paints.cursorShow {r : Option Session} (h : Paints r) :
    Paints (r >>= Session.cursorShow) := by
  rcases r with - | s
  · exact h
  · obtain ⟨w, hw⟩ := h s rfl
    exact hw.cursorShow

namespace OnScreen

variable {commands} {s : Session} {w : Writer}

theorem historyUp (h : s.OnScreen w) (hfit : s.Fits)
    (hstep : s.AtEnd ∨ s.shell.available ≤ s.shell.histCursor) : Paints s.historyUp := by
  rcases Nat.lt_or_ge s.shell.histCursor s.shell.available with hmore | hdone
  · have hend : s.AtEnd := by
      rcases hstep with hend | hle
      · exact hend
      · omega
    obtain ⟨liveBuf, liveLen, hlive, htext, r, heq, hload⟩ := historyUp_eq h.bounded hmore
    have hplain : ∀ ch ∈ text liveBuf liveLen, Writer.Plain ch := by
      rw [htext]
      split
      · exact h.printable.line
      · exact h.printable.live
    rw [heq]
    exact ((h.browse hlive hplain hmore).restore hfit hend hload (h.printable.entries _)).cursorShow
  · have heq : s.historyUp = some s := if_pos hdone
    rw [heq]
    exact h.paints

theorem historyDown (h : s.OnScreen w) (hfit : s.Fits)
    (hstep : s.AtEnd ∨ s.shell.histCursor = 0) : Paints s.historyDown := by
  rcases Nat.eq_zero_or_pos s.shell.histCursor with hzero | hback
  · have heq : s.historyDown = some s := if_pos hzero
    rw [heq]
    exact h.paints
  · have hend : s.AtEnd := by
      rcases hstep with hend | hzero
      · exact hend
      · omega
    obtain ⟨r, heq, hload⟩ := historyDown_eq h.bounded hback
    have hstart := h.browse h.bounded.live h.printable.live
      (Nat.le_trans (Nat.sub_le _ 1) h.bounded.browse)
    rw [heq]
    refine (hstart.restore hfit hend hload ?_).cursorShow
    split
    · exact h.printable.live
    · exact h.printable.entries _

end OnScreen

/-! ### Prompts -/

/-- What a prompt is printed on. -/
structure Ready (s : Session) (w : Writer) : Prop where
  writer : s.writer = some w
  bounded : s.shell.Bounded
  printable : s.shell.Printable
  blank : w.BlankFrom
  quiet : w.cursorChar = ' ' ∨ Writer.Quiet (promptOps s.globals)

/-- A session after a prompt: the line is to be printed, the cursor is at its end. -/
structure Prompted (s : Session) (w : Writer) : Prop where
  writer : s.writer = some w
  bounded : s.shell.Bounded
  printable : s.shell.Printable
  cursor : s.AtEnd
  shown : w.LineShown s.promptLine s.shell.promptCol [] 0

theorem promptOps_clear (g : Globals) : Writer.Op.clear ∉ promptOps g := by
  simp [promptOps]

/-- The prompt ends in the ordinary colours. -/
theorem promptOps_colors (g : Globals) (w : Writer) :
    ((promptOps g).foldl Writer.perform w).colors = (COLOR_FG, COLOR_BG) :=
  Writer.print_colors "> ".toList _

/-- Output on a blank row leaves one for the prompt. -/
theorem ready_perform {s : Session} {w : Writer} {ops : List Writer.Op}
    (hwriter : s.writer = some w) (hbounded : s.shell.Bounded)
    (hprintable : s.shell.Printable) (hblank : w.BlankFrom)
    (hquiet : w.cursorChar = ' ' ∨ Writer.Quiet (ops ++ promptOps s.globals) ∨
      .clear ∈ ops ++ promptOps s.globals) :
    (s.perform ops).Ready (ops.foldl Writer.perform w) := by
  have hend : (ops.foldl Writer.perform w).BlankFrom ∧
      ((ops.foldl Writer.perform w).cursorChar = ' ' ∨ Writer.Quiet (promptOps s.globals)) := by
    rcases hquiet with hspace | hq | hclear
    · obtain ⟨hblank', hchar⟩ := hblank.perform ops w (Or.inl hspace)
      refine ⟨hblank', Or.inl ?_⟩
      rcases hchar with hchar | hchar
      · exact hchar.trans hspace
      · exact hchar
    · obtain ⟨hblank', -⟩ := hblank.perform ops w
        (Or.inr fun t ht => hq t (List.mem_append_left _ ht))
      exact ⟨hblank', Or.inr fun t ht => hq t (List.mem_append_right _ ht)⟩
    · have hops : Writer.Op.clear ∈ ops :=
        (List.mem_append.mp hclear).resolve_right (promptOps_clear s.globals)
      obtain ⟨hblank', hchar⟩ := Writer.perform_cleared hops w
      exact ⟨hblank', Or.inl hchar⟩
  refine ⟨?_, hbounded, hprintable, hend.1, hend.2⟩
  rw [perform, onWriter_writer, hwriter, Option.map_some]

theorem Ready.prompt {s : Session} {w : Writer} (h : s.Ready w) :
    ∃ s' w', s.printPrompt = some s' ∧ s'.Prompted w' ∧ s'.shell.len = s.shell.len := by
  obtain ⟨promptCol, promptLine, heq, hval⟩ := printPrompt_eq h.bounded.len
  obtain ⟨rfl, rfl⟩ := hval w h.writer
  refine ⟨_, ((promptOps s.globals).foldl Writer.perform w).cursorShow ' ', heq,
    ⟨?_, ?_, ?_, rfl, ?_⟩, rfl⟩
  · rw [h.writer, Option.map_some, Option.map_some]
  · exact ⟨Nat.le_refl _, h.bounded.len, h.bounded.live, h.bounded.hist, h.bounded.browse⟩
  · exact ⟨h.printable.line, h.printable.live, h.printable.entries⟩
  · exact (h.blank.perform _ w h.quiet).1.lineShown (promptOps_colors s.globals w)

/-- With nothing in the line, it is on the screen. -/
theorem Prompted.onScreen {s : Session} {w : Writer} (h : s.Prompted w) (hnil : s.shell.len = 0) :
    s.OnScreen w := by
  refine ⟨h.writer, h.bounded, h.printable, ?_⟩
  intro _
  have hline : s.shell.line = [] := by rw [Shell.line, hnil, text_zero]
  rw [hline, show s.shell.cursorPos = 0 from h.cursor.trans hnil]
  exact h.shown

/-- The line is printed again behind a prompt. -/
theorem Prompted.reprint {s : Session} {w : Writer} (h : s.Prompted w) :
    Paints (s.printFrom 0) := by
  have hline : between s.shell.buf 0 s.shell.len = s.shell.line := rfl
  rw [printFrom_eq h.bounded.len, hline]
  apply OnScreen.paints (w := w.print s.shell.line)
  refine ⟨?_, h.bounded, h.printable, ?_⟩
  · rw [print, onWriter_writer, h.writer, Option.map_some]
  · intro hfit
    rw [Writer.print_cols] at hfit
    have hlen := Shell.length_line h.bounded
    have hprinted := h.shown.print (t := []) h.printable.line (by
      rw [List.nil_append, hlen]
      exact Nat.lt_of_succ_lt hfit)
    rw [List.nil_append, hlen] at hprinted
    show (w.print s.shell.line).LineShown _ _ _ s.shell.cursorPos
    rwa [show s.shell.cursorPos = s.shell.len from h.cursor]

theorem Ready.paints {s : Session} {w : Writer} (h : s.Ready w) (hnil : s.shell.len = 0) :
    Paints s.printPrompt := by
  obtain ⟨s', w', heq, hprompted, hlen⟩ := h.prompt
  rw [heq]
  exact (hprompted.onScreen (hlen.trans hnil)).paints

theorem Ready.reprint {s : Session} {w : Writer} (h : s.Ready w) :
    Paints (s.printPrompt >>= fun s => s.printFrom 0 >>= Session.cursorShow) := by
  obtain ⟨s', w', heq, hprompted, -⟩ := h.prompt
  rw [heq, Option.bind_eq_bind, Option.bind_some]
  exact hprompted.reprint.cursorShow

namespace OnScreen

variable {commands} {s : Session} {w : Writer}

/-- The character under the cursor is the one the writer remembers. -/
theorem under (h : s.OnScreen w) (hfit : s.Fits) : w.cursorChar = s.shell.cursorCell :=
  (h.lineShown hfit).cursor

theorem submit (h : s.OnScreen w) (hfit : s.Fits)
    (hstep : s.Harmless ((s.entered commands).2 ++ promptOps (s.entered commands).1)) :
    Paints (s.submit commands) := by
  obtain ⟨shell, hrecord, heq⟩ := submit_eq commands h.bounded
  obtain ⟨hbounded, hprintable⟩ := h.printable.record h.bounded hrecord
  have hentered : s.entered commands
      = dispatchLine commands { shell with histCursor := 0 } s.globals s.shell.line := by
    rw [entered, hrecord]
    rfl
  rw [hentered, Harmless, ← h.under hfit] at hstep
  obtain ⟨hblank, hchar⟩ := (h.lineShown hfit).below.print (t := []) (Or.inr (by simp))
  rw [← hchar] at hstep
  rw [heq]
  refine (ready_perform (w := w.print ['\n']) ?_ hbounded hprintable hblank hstep).paints rfl
  rw [print, onWriter_writer, h.writer, Option.map_some]

theorem ctrlC (h : s.OnScreen w) (hfit : s.Fits) (hstep : s.Harmless (promptOps s.globals)) :
    Paints s.ctrlC := by
  rw [Harmless, ← h.under hfit, or_iff_left (promptOps_clear s.globals)] at hstep
  have hbelow := ((h.lineShown hfit).below.writeChar (by decide : '^' ≠ '\x08')).writeChar
    (by decide : 'C' ≠ '\x08')
  obtain ⟨hblank, hchar⟩ := hbelow.print (t := []) (Or.inr (by simp))
  rw [Writer.writeChar_cursorChar, Writer.writeChar_cursorChar] at hchar
  rw [← hchar] at hstep
  refine Ready.paints (s := { s.print ['^', 'C', '\n'] with
      shell := { s.shell with len := 0, cursorPos := 0, histCursor := 0 } })
    (w := w.print ['^', 'C', '\n'])
    ⟨?_, ⟨Nat.le_refl 0, Nat.zero_le _, h.bounded.live, h.bounded.hist, Nat.zero_le _⟩,
      ⟨?_, h.printable.live, h.printable.entries⟩, hblank, hstep⟩ rfl
  · rw [print, onWriter_writer, h.writer, Option.map_some]
  · intro c hc
    exact absurd hc (List.not_mem_nil)

theorem ctrlL (h : s.OnScreen w) : Paints s.ctrlL := by
  refine Ready.reprint (w := w.clear)
    ⟨?_, h.bounded, h.printable, Writer.clear_blankFrom w, Or.inl rfl⟩
  rw [onWriter_writer, h.writer, Option.map_some]

/-! ### Completion -/

theorem typeRest (h : s.OnScreen w) (hfit : s.Fits) (hend : s.AtEnd) {rest : Text}
    (hplain : ∀ ch ∈ rest.take (BUF_CAP - s.shell.len), Writer.Plain ch) :
    Paints (s.typeRest rest) := by
  have hlen := Shell.length_line h.bounded
  have hroom := h.bounded.len
  obtain ⟨buf, n, hn, htext, heq⟩ := typeRest_eq hroom rest
  have hcap : n ≤ BUF_CAP := by
    rw [hn, List.length_take]
    omega
  rw [heq]
  refine (h.edit (Nat.le_refl n) hcap ?_ ?_).paints
  · intro c hc
    rw [htext] at hc
    rcases List.mem_append.mp hc with hc | hc
    · exact h.printable.line c hc
    · exact hplain c hc
  · intro hfit'
    rw [Writer.print_cols] at hfit'
    have hrow := h.lineShown hfit
    rw [hend, ← hlen] at hrow
    have hprinted := hrow.print hplain (by rw [List.length_append, hlen, ← hn]; omega)
    rw [htext]
    rwa [List.length_append, hlen, ← hn] at hprinted

theorem list (h : s.OnScreen w) (hfit : s.Fits) {names : List Text}
    (hstep : s.Harmless (.print (listing names) :: promptOps s.globals)) :
    Paints ((s.print (listing names)).printPrompt >>= fun s =>
      s.printFrom 0 >>= Session.cursorShow) := by
  have hclear : Writer.Op.clear ∉ .print (listing names) :: promptOps s.globals := by
    simp [promptOps]
  rw [Harmless, ← h.under hfit, or_iff_left hclear] at hstep
  obtain ⟨hblank, hchar⟩ := (h.lineShown hfit).below.print
    (t := names.flatMap (· ++ [' ', ' ']) ++ ['\n'])
    (hstep.imp id fun hq hmem => hq _ List.mem_cons_self (List.mem_cons_of_mem _ hmem))
  refine Ready.reprint (w := w.print (listing names))
    ⟨?_, h.bounded, h.printable, hblank, ?_⟩
  · rw [print, onWriter_writer, h.writer, Option.map_some]
  · rw [show listing names = '\n' :: (names.flatMap (· ++ [' ', ' ']) ++ ['\n']) from rfl, hchar]
    exact hstep.imp id fun hq t ht => hq t (List.mem_cons_of_mem _ ht)

theorem complete (h : s.OnScreen w) (hfit : s.Fits) (hstep : s.InStep commands '\t') :
    Paints (s.complete commands) := by
  have hline : upTo s.shell.buf s.shell.len = some s.shell.line := upTo_eq h.bounded.len
  unfold Session.complete
  rw [hline, Option.bind_eq_bind, Option.bind_some]
  unfold InStep at hstep
  rcases hcompletion : completion commands s.globals s.shell.line with - | c
  · intro s' hs'
    exact absurd hs' (by simp)
  · rw [Option.bind_eq_bind, Option.bind_some]
    rcases c with - | rest | names
    · exact h.paints
    · rw [hcompletion] at hstep
      exact h.typeRest hfit hstep.1 hstep.2
    · rw [hcompletion] at hstep
      exact h.list hfit hstep

/-! ### Keys -/

/-- **One key.**  Whatever is typed where `InStep` holds, the screen follows. -/
theorem key (h : s.OnScreen w) (hfit : s.Fits) {ch : Char} (hstep : s.InStep commands ch) :
    Paints (s.pushChar commands ch) := by
  unfold pushChar
  split
  · exact (h.backspace hfit).cursorShow
  · exact (h.submit hfit hstep).cursorShow
  · exact (h.complete hfit hstep).cursorShow
  · exact (h.moveCursor hfit (Nat.zero_le _)).cursorShow
  · exact (h.cursorLeft hfit).cursorShow
  · exact (h.ctrlC hfit hstep).cursorShow
  · exact (h.moveCursor hfit (Nat.le_refl _)).cursorShow
  · exact (h.cursorRight hfit).cursorShow
  · exact h.ctrlL.cursorShow
  · exact (h.historyDown hfit hstep).cursorShow
  · exact (h.historyUp hfit hstep).cursorShow
  · exact (h.ctrlU hfit hstep).cursorShow
  · exact (h.ctrlW hfit hstep).cursorShow
  · rename_i hback hline _ _ _ _ _ _ _ _ _ _ _
    exact h.insertChar hfit ⟨hline, hback⟩

end OnScreen

/-! ### Runs -/

/--
**The screen shows the edited line.**  From a fresh prompt, as long as the line fits its
row and no key goes through what `InStep` excludes, the row of the cursor is the prompt
and the line after every key, and the cursor is where the shell has it.
-/
theorem screen_shows_line (commands : List Cmd) {s s₀ t : Session} {w : Writer}
    {trace : List (Session × Char)} (hready : s.Ready w) (hnil : s.shell.len = 0)
    (hprompt : s.printPrompt = some s₀) (hrun : Run (Accepts (pushChar commands)) s₀ trace t)
    (hfit : ∀ u ∈ visited trace t, u.Fits) (hstep : ∀ e ∈ trace, e.1.InStep commands e.2) :
    ∀ u ∈ visited trace t, ∃ w, u.Shows w := by
  have hstart : ∃ w, s₀.OnScreen w := hready.paints hnil s₀ hprompt
  intro u hu
  obtain ⟨w', hw'⟩ := Run.invariant_visited (I := fun u => ∃ w, u.OnScreen w)
    (K := fun u ch => u.Fits ∧ u.InStep commands ch) hstart
    (fun u ch u' ⟨_, hu⟩ ⟨hroom, hkey⟩ hnext => hu.key hroom hkey u' hnext) hrun
    (fun e he => ⟨hfit e.1 (mem_visited.mpr (Or.inl ⟨e, he, rfl⟩)), hstep e he⟩) u hu
  exact ⟨w', hw'.shows (hfit u hu)⟩

/-- A shell that has not been used yet is ready on a cleared screen. -/
theorem new_ready (w : Writer) (g : Globals) : (new (some w.clear) g).Ready w.clear where
  writer := rfl
  bounded := Shell.new_bounded
  printable := by
    refine ⟨?_, ?_, ?_⟩
    · intro c hc
      exact absurd hc List.not_mem_nil
    · intro c hc
      exact absurd hc List.not_mem_nil
    · intro k c hc
      have hlen : (Vector.replicate HIST_CAP 0)[k] = 0 := by
        rw [Fin.getElem_fin, Vector.getElem_replicate]
      have hnil : (new (some w.clear) g).shell.entry k = [] := by
        show text _ (Vector.replicate HIST_CAP 0)[k] = []
        rw [hlen, text_zero]
      rw [hnil] at hc
      exact absurd hc List.not_mem_nil
  blank := Writer.clear_blankFrom w
  quiet := Or.inl rfl

/-- The first prompt of a shell with an 80 by 25 screen. -/
def firstPrompt : Option Session :=
  printPrompt (new (some (Writer.new 80 25 (fun _ _ => ⟨' ', COLOR_FG, COLOR_BG⟩) (by decide)
    (by decide)).clear) ⟨[], [], [], none⟩)

theorem firstPrompt_isSome : firstPrompt.isSome := by decide +kernel

/-- A character put in front of another. -/
theorem screen_shows_line_insert :
    ∃ s₀ trace t, firstPrompt = some s₀ ∧ Run (Accepts (pushChar [])) s₀ trace t ∧
      trace.map Prod.snd = ['s', '\x02', 'l'] ∧ ∀ u ∈ visited trace t, ∃ w, u.Shows w := by
  obtain ⟨trace, t, hrun, hkeys, hfit⟩ := exists_run (pushChar [])
    (firstPrompt.get firstPrompt_isSome) ['s', '\x02', 'l']
    (fun trace t => ∀ u ∈ visited trace t, u.Fits) (by decide +kernel)
  refine ⟨_, trace, t, (Option.some_get firstPrompt_isSome).symm, hrun, hkeys,
    screen_shows_line [] (new_ready _ _) rfl (Option.some_get firstPrompt_isSome).symm hrun hfit ?_⟩
  intro e he
  have hkey : e.2 ∈ ['s', '\x02', 'l'] := by
    rw [← hkeys]
    exact List.mem_map_of_mem he
  obtain ⟨u, ch⟩ := e
  simp only [List.mem_cons, List.not_mem_nil, or_false] at hkey
  rcases hkey with rfl | rfl | rfl
  · exact trivial
  · exact trivial
  · exact trivial

/-- A kill in the middle of a line takes the screen's cursor into the prompt. -/
theorem screen_drifts_after_kill :
    ∃ s₀ trace t, firstPrompt = some s₀ ∧ Run (Accepts (pushChar [])) s₀ trace t ∧
      trace.map Prod.snd = ['a', 'b', 'c', '\x02', '\x15'] ∧ (∀ u ∈ visited trace t, u.Fits) ∧
      ∀ w, ¬ t.Shows w := by
  obtain ⟨trace, t, hrun, hkeys, hfit, hcol⟩ := exists_run (pushChar [])
    (firstPrompt.get firstPrompt_isSome) ['a', 'b', 'c', '\x02', '\x15']
    (fun trace t => (∀ u ∈ visited trace t, u.Fits) ∧
      ∀ w, w ∈ t.writer → w.col ≠ t.shell.promptCol + t.shell.cursorPos) (by decide +kernel)
  refine ⟨_, trace, t, (Option.some_get firstPrompt_isSome).symm, hrun, hkeys, hfit, ?_⟩
  intro w hw
  exact hcol w hw.writer hw.col

end Session

end Amaterasu
