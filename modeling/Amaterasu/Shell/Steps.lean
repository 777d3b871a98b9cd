/-
What each handler of the line editor does, on a line within bounds.

`Bounded` is what the handlers rely on: the cursor inside the line, the line and every
stored line inside their buffers.  Under it no handler fails, and each result is the
session before with a new line, cursor and history, and a painting of the writer that
is written out.  Everything that is proved about the editor and about the screen uses
these equations and not the handlers.
-/
import Amaterasu.Shell.Shell

namespace Amaterasu

open FixedBuffer

namespace Shell

/-- The indices and lengths of a shell are inside its buffers. -/
structure Bounded (s : Shell) : Prop where
  cursor : s.cursorPos ≤ s.len
  len : s.len ≤ BUF_CAP
  live : s.liveLen ≤ BUF_CAP
  hist : ∀ k : Fin HIST_CAP, s.histLen[k] ≤ BUF_CAP
  browse : s.histCursor ≤ s.available

/-- The stored line in a slot of the history. -/
def entry (s : Shell) (k : Fin HIST_CAP) : Text := text s.history[k] s.histLen[k]

/-- The slot of the `i`-th line submitted. -/
def slot (i : Nat) : Fin HIST_CAP := ⟨i % HIST_CAP, Nat.mod_lt _ (by decide)⟩

/-- The character under the cursor, a space at the end of the line. -/
def cursorCell (s : Shell) : Char := (s.line[s.cursorPos]?).getD ' '

/-- A shell with another line. -/
def edit (s : Shell) (buf : Vector Char BUF_CAP) (len cursorPos : Nat) : Shell :=
  { s with buf := buf, len := len, cursorPos := cursorPos }

variable {s : Shell}

theorem new_bounded : new.Bounded where
  cursor := Nat.le_refl 0
  len := Nat.zero_le _
  live := Nat.zero_le _
  hist := by
    intro k
    show (Vector.replicate HIST_CAP 0)[k] ≤ BUF_CAP
    rw [Fin.getElem_fin, Vector.getElem_replicate]
    exact Nat.zero_le _
  browse := Nat.le_refl 0

theorem cursorChar_eq (hcursor : s.cursorPos ≤ s.len) (hlen : s.len ≤ BUF_CAP) :
    s.cursorChar = some s.cursorCell := by
  unfold cursorChar cursorCell
  by_cases h : s.cursorPos < s.len
  · obtain ⟨c, hc, -⟩ := exists_cell (b := s.buf) h hlen
    rw [if_pos h, hc, line, ← getElem?_eq_text h, hc]
    rfl
  · have hlength : s.line.length = s.len := length_text hlen
    rw [if_neg h, List.getElem?_eq_none (by omega)]
    rfl

/-- At the end of the line the cursor stands on a space. -/
theorem cursorCell_end (hlen : s.len ≤ BUF_CAP) (h : s.cursorPos = s.len) :
    s.cursorCell = ' ' := by
  have hlength : s.line.length = s.len := length_text hlen
  rw [cursorCell, List.getElem?_eq_none (by omega)]
  rfl

/-! ### The history -/

theorem histLen_slot (s : Shell) (k : Fin HIST_CAP) : s.histLen[k.val]? = some s.histLen[k] :=
  Vector.getElem?_eq_getElem k.isLt

theorem history_slot (s : Shell) (k : Fin HIST_CAP) : s.history[k.val]? = some s.history[k] :=
  Vector.getElem?_eq_getElem k.isLt

theorem length_entry (h : s.Bounded) (k : Fin HIST_CAP) : (s.entry k).length = s.histLen[k] :=
  length_text (h.hist k)

theorem length_line (h : s.Bounded) : s.line.length = s.len := length_text h.len

/-- `submit` compares the line with the one submitted last. -/
theorem isDup_eq (h : s.Bounded) (hpos : 0 < s.histCount) :
    s.isDup = some (decide (s.entry (slot (s.histCount - 1)) = s.line)) := by
  have hslot : (s.histCount + (2 ^ 64 - 1)) % 2 ^ 64 % HIST_CAP = (slot (s.histCount - 1)).val := by
    show (s.histCount + (2 ^ 64 - 1)) % 2 ^ 64 % 16 = (s.histCount - 1) % 16
    omega
  unfold isDup
  simp only [hslot, histLen_slot, Option.some.injEq]
  by_cases hlen : s.histLen[slot (s.histCount - 1)] = s.len
  · have hold : upTo s.history[slot (s.histCount - 1)] s.len
        = some (s.entry (slot (s.histCount - 1))) := by
      rw [entry, hlen]
      exact upTo_eq h.len
    rw [if_pos ⟨hpos, hlen⟩, history_slot, Option.bind_eq_bind, Option.bind_some, hold,
      upTo_eq h.len]
    rfl
  · rw [if_neg (fun hc => hlen hc.2), decide_eq_false]
    intro heq
    have := congrArg List.length heq
    rw [length_entry h, length_line h] at this
    exact hlen this

/-- A line is recorded unless it is empty or the same as the one before. -/
def Repeats (s : Shell) : Prop :=
  s.line = [] ∨ (0 < s.histCount ∧ s.entry (slot (s.histCount - 1)) = s.line)

theorem record_repeats (h : s.Bounded) (hrep : s.Repeats) : s.record = some s := by
  unfold record
  rcases hrep with hnil | ⟨hpos, hsame⟩
  · rw [if_neg]
    rw [← length_line h, hnil]
    exact Nat.lt_irrefl 0
  · rw [isDup_eq h hpos, decide_eq_true hsame]
    split <;> rfl

theorem record_new (h : s.Bounded) (hnew : ¬ s.Repeats) :
    ∃ history histLen,
      s.record = some
        { s with history := history, histLen := histLen, histCount := s.histCount + 1 } ∧
      (∀ k : Fin HIST_CAP, histLen[k] ≤ BUF_CAP) ∧
      ∀ k : Fin HIST_CAP, text history[k] histLen[k]
        = if k = slot s.histCount then s.line else s.entry k := by
  have hpos : s.len > 0 := by
    by_contra hz
    apply hnew
    left
    apply List.eq_nil_of_length_eq_zero
    rw [length_line h]
    omega
  have hdup : s.isDup = some false := by
    by_cases hcount : 0 < s.histCount
    · rw [isDup_eq h hcount, decide_eq_false]
      intro heq
      exact hnew (Or.inr ⟨hcount, heq⟩)
    · exact if_neg fun hc => hcount hc.1
  have hlt : s.histCount % HIST_CAP < HIST_CAP := (slot s.histCount).isLt
  obtain ⟨copy, hcopy, htext⟩ := overwrite_spec (s.history[slot s.histCount])
    (show s.line.length ≤ BUF_CAP by rw [length_line h]; exact h.len)
  obtain ⟨history, hhistory, hhist⟩ := store_spec s.history hlt copy
  obtain ⟨histLen, hhistLen, hlens⟩ := store_spec s.histLen hlt s.len
  have hslot : s.history[s.histCount % HIST_CAP]? = some s.history[slot s.histCount] :=
    history_slot s (slot s.histCount)
  have hline : upTo s.buf s.len = some s.line := upTo_eq h.len
  have hval : ∀ k : Fin HIST_CAP, k.val = s.histCount % HIST_CAP ↔ k = slot s.histCount := by
    intro k
    exact ⟨fun h => Fin.ext h, fun h => congrArg Fin.val h⟩
  refine ⟨history, histLen, ?_, ?_, ?_⟩
  · unfold record
    rw [if_pos hpos, hdup]
    simp only [Option.bind_eq_bind, Option.bind_some, hslot, hline, hcopy, hhistory, hhistLen,
      Bool.false_eq_true, if_false]
  · intro k
    rw [Fin.getElem_fin, hlens]
    split
    · exact h.len
    · exact h.hist k
  · intro k
    simp only [Fin.getElem_fin, hhist, hlens, hval]
    by_cases hk : k = slot s.histCount
    · simp only [if_pos hk]
      rw [← length_line h]
      exact htext
    · simp only [if_neg hk]
      rfl

/-- What `submit` does to the history, in both cases. -/
theorem record_eq (h : s.Bounded) :
    ∃ history histLen histCount,
      s.record = some
        { s with history := history, histLen := histLen, histCount := histCount } ∧
      (∀ k : Fin HIST_CAP, histLen[k] ≤ BUF_CAP) ∧
      ((s.Repeats ∧ histCount = s.histCount ∧
          ∀ k : Fin HIST_CAP, text history[k] histLen[k] = s.entry k) ∨
        (¬ s.Repeats ∧ histCount = s.histCount + 1 ∧
          ∀ k : Fin HIST_CAP, text history[k] histLen[k]
            = if k = slot s.histCount then s.line else s.entry k)) := by
  by_cases hrep : s.Repeats
  · exact ⟨s.history, s.histLen, s.histCount, record_repeats h hrep, h.hist,
      Or.inl ⟨hrep, rfl, fun k => rfl⟩⟩
  · obtain ⟨history, histLen, heq, hlens, hentries⟩ := record_new h hrep
    exact ⟨history, histLen, _, heq, hlens, Or.inr ⟨hrep, rfl, hentries⟩⟩

/-- `history_up` saves the line when it leaves it. -/
theorem saveLive_eq (h : s.Bounded) :
    ∃ liveBuf liveLen, s.saveLive = some { s with liveBuf := liveBuf, liveLen := liveLen } ∧
      liveLen ≤ BUF_CAP ∧
      text liveBuf liveLen = if s.histCursor = 0 then s.line else text s.liveBuf s.liveLen := by
  unfold saveLive
  by_cases hzero : s.histCursor = 0
  · obtain ⟨liveBuf, hcopy, htext⟩ := overwrite_spec s.liveBuf
      (show s.line.length ≤ BUF_CAP by rw [length_line h]; exact h.len)
    have hline : upTo s.buf s.len = some s.line := upTo_eq h.len
    refine ⟨liveBuf, s.len, ?_, h.len, ?_⟩
    · rw [if_pos hzero, hline, Option.bind_eq_bind, Option.bind_some, hcopy]
      rfl
    · rw [if_pos hzero, ← length_line h]
      exact htext
  · refine ⟨s.liveBuf, s.liveLen, ?_, h.live, ?_⟩
    · rw [if_neg hzero]
    · rw [if_neg hzero]

end Shell

theorem checkedSub_one {a : Nat} (h : 0 < a) : checkedSub a 1 = some (a - 1) := if_pos h

namespace Session

variable {s : Session}

/-- A session with another shell. -/
def withShell (s : Session) (shell : Shell) : Session := { s with shell := shell }

@[simp] theorem withShell_shell (s : Session) (sh : Shell) : (s.withShell sh).shell = sh := rfl
@[simp] theorem withShell_writer (s : Session) (sh : Shell) :
    (s.withShell sh).writer = s.writer := rfl
@[simp] theorem onWriter_shell (s : Session) (f) : (s.onWriter f).shell = s.shell := rfl
@[simp] theorem onWriter_globals (s : Session) (f) : (s.onWriter f).globals = s.globals := rfl
@[simp] theorem onWriter_dispatched (s : Session) (f) :
    (s.onWriter f).dispatched = s.dispatched := rfl
@[simp] theorem onWriter_writer (s : Session) (f) : (s.onWriter f).writer = s.writer.map f := rfl
@[simp] theorem print_shell (s : Session) (t : Text) : (s.print t).shell = s.shell := rfl

@[simp] theorem onWriter_onWriter (s : Session) (f g : Writer → Writer) :
    (s.onWriter f).onWriter g = s.onWriter (fun w => g (f w)) := by
  simp [onWriter, Function.comp_def]

@[simp] theorem withShell_withShell (s : Session) (sh sh' : Shell) :
    (s.withShell sh).withShell sh' = s.withShell sh' := rfl

theorem onWriter_withShell (s : Session) (f : Writer → Writer) (sh : Shell) :
    (s.onWriter f).withShell sh = (s.withShell sh).onWriter f := rfl

theorem print_print (s : Session) (t u : Text) : (s.print t).print u = s.print (t ++ u) := by
  simp [print, Writer.print_append]

theorem print_nil (s : Session) : s.print [] = s := by
  simp [print, onWriter]

/-! ### Painting -/

theorem cursorShow_eq (hcursor : s.shell.cursorPos ≤ s.shell.len) (hlen : s.shell.len ≤ BUF_CAP) :
    s.cursorShow = some (s.onWriter fun w => w.cursorShow s.shell.cursorCell) := by
  rw [cursorShow, Shell.cursorChar_eq hcursor hlen]
  rfl

theorem printCells (n : Nat) : ∀ (s : Session) (i : Nat), i + n ≤ BUF_CAP →
    (List.range' i n).foldlM
      (fun (s : Session) i => do
        let ch ← s.shell.buf[i]?
        some (s.print [ch])) s = some (s.print (between s.shell.buf i (i + n))) := by
  induction n with
  | zero =>
      intro s i _
      rw [between, Nat.add_zero, Nat.sub_self, List.take_zero, print_nil]
      rfl
  | succ n ih =>
      intro s i hi
      obtain ⟨c, hc, -, hcons⟩ := exists_cell (b := s.shell.buf) (show i < i + (n + 1) by omega) hi
      rw [List.range'_succ, List.foldlM_cons, hc, hcons]
      show (List.range' (i + 1) n).foldlM _ (s.print [c]) = _
      rw [ih (s.print [c]) (i + 1) (by omega), print_print,
        show i + 1 + n = i + (n + 1) by omega]
      rfl

/-- The loop over the rest of the line prints the rest of the line. -/
theorem printFrom_eq (hlen : s.shell.len ≤ BUF_CAP) (start : Nat) :
    s.printFrom start = some (s.print (between s.shell.buf start s.shell.len)) := by
  unfold printFrom
  rcases Nat.le_total start s.shell.len with h | h
  · rw [printCells _ _ _ (by omega), show start + (s.shell.len - start) = s.shell.len by omega]
  · have hnil : between s.shell.buf start s.shell.len = [] := by
      rw [between, Nat.sub_eq_zero_of_le h, List.take_zero]
    rw [Nat.sub_eq_zero_of_le h, hnil, print_nil]
    rfl

end Session

/-- What `redraw_from` paints. -/
def Shell.redraw (s : Shell) (start : Nat) (w : Writer) : Writer :=
  ((((w.cursorHide.setCol (s.promptCol + start)).print (between s.buf start s.len)).print
    [' ']).setCol (s.promptCol + s.cursorPos)).cursorShow s.cursorCell

namespace Session

variable {s : Session}

theorem redrawFrom_eq (hcursor : s.shell.cursorPos ≤ s.shell.len) (hlen : s.shell.len ≤ BUF_CAP)
    (start : Nat) : s.redrawFrom start = some (s.onWriter (s.shell.redraw start)) := by
  unfold redrawFrom
  simp only [printFrom_eq (s := s.onWriter _) hlen, Option.bind_eq_bind, Option.bind_some]
  rw [cursorShow_eq]
  · simp only [print, onWriter_onWriter, onWriter_shell]
    rfl
  · exact hcursor
  · exact hlen

/-- The prompt: the shell learns its column and puts the cursor at the end. -/
theorem printPrompt_eq (hlen : s.shell.len ≤ BUF_CAP) :
    ∃ promptCol promptLine,
      s.printPrompt = some
        { s with
          shell := { s.shell with promptCol := promptCol, cursorPos := s.shell.len }
          writer := (s.writer.map fun w => (promptOps s.globals).foldl Writer.perform w).map
            fun w => w.cursorShow ' '
          promptLine := promptLine } ∧
      ∀ w, s.writer = some w →
        promptCol = ((promptOps s.globals).foldl Writer.perform w).col ∧
        promptLine = fun c =>
          let w' := ((promptOps s.globals).foldl Writer.perform w).cursorShow ' '
          (w'.cells w'.row c).ch := by
  unfold printPrompt
  simp only []
  rw [cursorShow_eq, Shell.cursorCell_end]
  · refine ⟨_, _, rfl, ?_⟩
    intro w hw
    simp only [perform, onWriter, hw, Option.map_some, Option.getD_some, and_self]
  · exact hlen
  · rfl
  · exact Nat.le_refl _
  · exact hlen

/-! ### Editing -/

theorem insertChar_full (h : s.shell.Bounded) (hfull : s.shell.len = BUF_CAP) (ch : Char) :
    s.insertChar ch = some (s.onWriter fun w => w.cursorShow s.shell.cursorCell) := by
  unfold insertChar
  rw [if_neg (by omega), cursorShow_eq h.cursor h.len]

theorem insertChar_end (hroom : s.shell.len < BUF_CAP) (hend : s.shell.cursorPos = s.shell.len)
    (ch : Char) :
    ∃ buf, text buf (s.shell.len + 1) = s.shell.line ++ [ch] ∧
      s.insertChar ch = some ((s.withShell
        (s.shell.edit buf (s.shell.len + 1) (s.shell.len + 1))).onWriter
          fun w => (w.print [ch]).cursorShow ' ') := by
  obtain ⟨buf, hstore, htext⟩ := store_end hroom ch (b := s.shell.buf)
  refine ⟨buf, htext, ?_⟩
  unfold insertChar
  rw [if_pos hroom, if_pos hend, hstore, Option.bind_eq_bind, Option.bind_some]
  rw [cursorShow_eq, Shell.cursorCell_end, print, onWriter_onWriter]
  · rfl
  · exact hroom
  · rfl
  · exact Nat.le_refl _
  · exact hroom

theorem insertChar_middle (hcursor : s.shell.cursorPos < s.shell.len)
    (hroom : s.shell.len < BUF_CAP) (ch : Char) :
    ∃ buf, text buf (s.shell.len + 1) = text s.shell.buf s.shell.cursorPos ++
        ch :: between s.shell.buf s.shell.cursorPos s.shell.len ∧
      s.insertChar ch = some ((s.withShell
        (s.shell.edit buf (s.shell.len + 1) (s.shell.cursorPos + 1))).onWriter
          ((s.shell.edit buf (s.shell.len + 1) (s.shell.cursorPos + 1)).redraw
            s.shell.cursorPos)) := by
  obtain ⟨buf₁, buf₂, hcopy, hstore, htext⟩ :=
    copyWithin_up_store (b := s.shell.buf) (Nat.le_of_lt hcursor) hroom ch
  refine ⟨buf₂, htext, ?_⟩
  unfold insertChar
  rw [if_pos hroom, if_neg (Nat.ne_of_lt hcursor), hcopy, Option.bind_eq_bind, Option.bind_some,
    hstore, Option.bind_some]
  have hcur : s.shell.cursorPos + 1 ≤ s.shell.len + 1 := by omega
  exact redrawFrom_eq (s := s.withShell (s.shell.edit buf₂ _ _)) hcur hroom _

theorem backspace_start (h : s.shell.cursorPos = 0) : s.backspace = some s := if_pos h

theorem backspace_end (hpos : 0 < s.shell.len) (hend : s.shell.cursorPos = s.shell.len) :
    s.backspace = some ((s.withShell
      (s.shell.edit s.shell.buf (s.shell.len - 1) (s.shell.len - 1))).onWriter
        Writer.backspace) := by
  unfold backspace
  rw [if_neg (by omega), if_pos hend, hend, checkedSub_one hpos]
  rfl

theorem backspace_middle (hpos : 0 < s.shell.cursorPos) (hcursor : s.shell.cursorPos < s.shell.len)
    (hlen : s.shell.len ≤ BUF_CAP) :
    ∃ buf, text buf (s.shell.len - 1) = text s.shell.buf (s.shell.cursorPos - 1) ++
        between s.shell.buf s.shell.cursorPos s.shell.len ∧
      s.backspace = some ((s.withShell
        (s.shell.edit buf (s.shell.len - 1) (s.shell.cursorPos - 1))).onWriter
          ((s.shell.edit buf (s.shell.len - 1) (s.shell.cursorPos - 1)).redraw
            (s.shell.cursorPos - 1))) := by
  obtain ⟨buf, hcopy, htext⟩ := copyWithin_down (b := s.shell.buf) hpos (Nat.le_of_lt hcursor) hlen
  refine ⟨buf, htext, ?_⟩
  unfold backspace
  rw [if_neg (by omega), if_neg (by omega)]
  simp only [checkedSub_one hpos, checkedSub_one (Nat.zero_lt_of_lt hcursor), hcopy,
    Option.bind_eq_bind, Option.bind_some]
  have hcur : s.shell.cursorPos - 1 ≤ s.shell.len - 1 := by omega
  have hlen' : s.shell.len - 1 ≤ BUF_CAP := by omega
  exact redrawFrom_eq (s := s.withShell (s.shell.edit buf _ _)) hcur hlen' _

/-- Any of the four motions: the cursor goes to an index of the line. -/
theorem moveCursor_eq (hlen : s.shell.len ≤ BUF_CAP) {k : Nat} (hk : k ≤ s.shell.len) :
    s.moveCursor k = some ((s.withShell (s.shell.edit s.shell.buf s.shell.len k)).onWriter fun w =>
      (w.cursorHide.setCol (s.shell.promptCol + k)).cursorShow
        (s.shell.edit s.shell.buf s.shell.len k).cursorCell) := by
  unfold moveCursor
  simp only []
  rw [cursorShow_eq, onWriter_onWriter]
  · rfl
  · exact hk
  · exact hlen

theorem cursorLeft_eq : s.cursorLeft
    = if s.shell.cursorPos = 0 then some s else s.moveCursor (s.shell.cursorPos - 1) := by
  unfold cursorLeft
  by_cases h : s.shell.cursorPos = 0
  · rw [if_pos h, if_pos h]
  · rw [if_neg h, if_neg h, checkedSub_one (by omega)]
    rfl

/-! ### Recalling a line -/

/-- A result in which the line has become `t`: what was there is erased, and `t` is
printed. -/
def Loads (s : Session) (t : Text) (r : Option Session) : Prop :=
  t.length ≤ BUF_CAP ∧ ∃ buf, text buf t.length = t ∧
    r = some ((s.withShell (s.shell.edit buf t.length t.length)).onWriter fun w =>
      (Writer.backspace^[s.shell.len] w).print t)

theorem loadLine_loads (src : Vector Char BUF_CAP) {len : Nat} (hsrc : len ≤ BUF_CAP) :
    s.Loads (text src len) (s.loadLine src len) := by
  have hlength : (text src len).length = len := length_text hsrc
  obtain ⟨buf, hcopy, htext⟩ := overwrite_spec s.shell.buf
    (show (text src len).length ≤ BUF_CAP by rw [hlength]; exact hsrc)
  refine ⟨by rw [hlength]; exact hsrc, buf, htext, ?_⟩
  rw [hlength] at htext ⊢
  have hall : between buf 0 len = text src len := htext
  unfold loadLine
  rw [upTo_eq hsrc, Option.bind_eq_bind, Option.bind_some]
  show (overwrite s.shell.buf (text src len)).bind _ = _
  rw [hcopy, Option.bind_some, printFrom_eq hsrc]
  show some (print _ (between buf 0 len)) = _
  rw [hall, print]
  simp [eraseLine, onWriter, withShell, Shell.edit, Function.comp_def]

theorem loadLive_loads (h : s.shell.liveLen ≤ BUF_CAP) :
    s.Loads (text s.shell.liveBuf s.shell.liveLen) s.loadLive := loadLine_loads _ h

theorem loadHistoryEntry_loads (hcursor : s.shell.histCursor ≤ s.shell.histCount)
    (hhist : ∀ k : Fin HIST_CAP, s.shell.histLen[k] ≤ BUF_CAP) :
    s.Loads (s.shell.entry (Shell.slot (s.shell.histCount - s.shell.histCursor)))
      s.loadHistoryEntry := by
  have hload := loadLine_loads (s := s)
    s.shell.history[Shell.slot (s.shell.histCount - s.shell.histCursor)]
    (hhist (Shell.slot (s.shell.histCount - s.shell.histCursor)))
  have hlen := Shell.histLen_slot s.shell (Shell.slot (s.shell.histCount - s.shell.histCursor))
  have hentry := Shell.history_slot s.shell (Shell.slot (s.shell.histCount - s.shell.histCursor))
  unfold loadHistoryEntry
  rw [checkedSub, if_pos hcursor]
  simp only [Option.bind_eq_bind, Option.bind_some]
  rw [show s.shell.histLen[(s.shell.histCount - s.shell.histCursor) % HIST_CAP]? = _ from hlen,
    Option.bind_some,
    show s.shell.history[(s.shell.histCount - s.shell.histCursor) % HIST_CAP]? = _ from hentry,
    Option.bind_some]
  exact hload

/-- ^P with an entry to go to. -/
theorem historyUp_eq (h : s.shell.Bounded) (hmore : s.shell.histCursor < s.shell.available) :
    ∃ liveBuf liveLen, liveLen ≤ BUF_CAP ∧
      text liveBuf liveLen = (if s.shell.histCursor = 0 then s.shell.line
        else text s.shell.liveBuf s.shell.liveLen) ∧
      ∃ r, s.historyUp = r >>= cursorShow ∧
        (s.withShell { s.shell with
          liveBuf := liveBuf, liveLen := liveLen, histCursor := s.shell.histCursor + 1 }).Loads
            (s.shell.entry (Shell.slot (s.shell.histCount - (s.shell.histCursor + 1)))) r := by
  obtain ⟨liveBuf, liveLen, hsave, hlive, htext⟩ := Shell.saveLive_eq h
  have havail : s.shell.available ≤ s.shell.histCount := Nat.min_le_left _ _
  refine ⟨liveBuf, liveLen, hlive, htext, _, ?_, loadHistoryEntry_loads ?_ h.hist⟩
  · unfold historyUp
    rw [if_neg (by omega), hsave]
    rfl
  · show s.shell.histCursor + 1 ≤ s.shell.histCount
    omega

/-- ^N on the way back from an entry. -/
theorem historyDown_eq (h : s.shell.Bounded) (hback : 0 < s.shell.histCursor) :
    ∃ r, s.historyDown = r >>= cursorShow ∧
      (s.withShell { s.shell with histCursor := s.shell.histCursor - 1 }).Loads
        (if s.shell.histCursor = 1 then text s.shell.liveBuf s.shell.liveLen
          else s.shell.entry (Shell.slot (s.shell.histCount - (s.shell.histCursor - 1)))) r := by
  have hbrowse := h.browse
  have havail : s.shell.available ≤ s.shell.histCount := Nat.min_le_left _ _
  by_cases hone : s.shell.histCursor = 1
  · refine ⟨loadLive (s.withShell { s.shell with histCursor := s.shell.histCursor - 1 }), ?_, ?_⟩
    · unfold historyDown
      rw [if_neg (by omega), checkedSub_one hback]
      simp only [Option.bind_eq_bind, Option.bind_some]
      rw [if_pos (by omega)]
      rfl
    · rw [if_pos hone]
      exact loadLive_loads h.live
  · refine ⟨loadHistoryEntry
      (s.withShell { s.shell with histCursor := s.shell.histCursor - 1 }), ?_, ?_⟩
    · unfold historyDown
      rw [if_neg (by omega), checkedSub_one hback]
      simp only [Option.bind_eq_bind, Option.bind_some]
      rw [if_neg (by omega)]
      rfl
    · rw [if_neg hone]
      refine loadHistoryEntry_loads (s := s.withShell _) ?_ h.hist
      show s.shell.histCursor - 1 ≤ s.shell.histCount
      omega

theorem onWriter_id (s : Session) : s.onWriter id = s := by
  simp [onWriter]

theorem withShell_self (s : Session) {n k : Nat} (hlen : s.shell.len = n)
    (hcursor : s.shell.cursorPos = k) : s.withShell (s.shell.edit s.shell.buf n k) = s := by
  subst hlen hcursor
  rfl

/-- How many characters of a text are left when a run at its end is deleted. -/
def keptLength (p : Char → Bool) (line : Text) : Nat := (line.rdropWhile p).length

theorem keptLength_le (p : Char → Bool) (line : Text) : keptLength p line ≤ line.length :=
  (List.rdropWhile_prefix p line).length_le

/-- One of the loops of ^W: the line loses the run at its end, and the screen as many
cells before its cursor. -/
theorem eraseBack_eq (p : Char → Bool) (n : Nat) : ∀ s : Session, s.shell.len = n → n ≤ BUF_CAP →
    s.shell.cursorPos = n →
    s.eraseBack p n = some ((s.withShell (s.shell.edit s.shell.buf (keptLength p s.shell.line)
      (keptLength p s.shell.line))).onWriter
        Writer.backspace^[n - keptLength p s.shell.line]) := by
  induction n with
  | zero =>
      intro s hlen _ hcur
      have hline : s.shell.line = [] := by rw [Shell.line, hlen, text_zero]
      have hkept : keptLength p s.shell.line = 0 := by rw [hline]; rfl
      rw [hkept, withShell_self s hlen hcur]
      exact congrArg some (onWriter_id s).symm
  | succ n ih =>
      intro s hlen hn hcur
      obtain ⟨c, hc, -, hcons⟩ := exists_cell (b := s.shell.buf) (Nat.lt_succ_self n) hn
      have hline : s.shell.line = text s.shell.buf n ++ [c] := by
        have hnil : between s.shell.buf (n + 1) (n + 1) = [] := by
          rw [between, Nat.sub_self, List.take_zero]
        rw [Shell.line, hlen, text_split (Nat.le_succ n), hcons, hnil]
      rw [eraseBack, hc, Option.bind_eq_bind, Option.bind_some]
      by_cases hp : p c = true
      · have hkept : keptLength p s.shell.line = keptLength p (text s.shell.buf n) := by
          rw [hline, keptLength, List.rdropWhile_concat_pos _ _ _ hp, keptLength]
        have hle : keptLength p (text s.shell.buf n) ≤ n := by
          have := keptLength_le p (text s.shell.buf n)
          rwa [length_text (by omega)] at this
        rw [if_pos hp]
        show eraseBack p n ((s.withShell (s.shell.edit s.shell.buf n n)).onWriter
          Writer.backspace) = _
        rw [ih _ rfl (by omega) rfl, onWriter_withShell, onWriter_onWriter, hkept, Nat.succ_sub hle]
        rfl
      · have hkept : keptLength p s.shell.line = n + 1 := by
          rw [hline, keptLength, List.rdropWhile_concat_neg _ _ _ hp, List.length_append,
            length_text (by omega)]
          rfl
        rw [if_neg hp, hkept, withShell_self s hlen hcur, Nat.sub_self]
        exact congrArg some (onWriter_id s).symm

/-! ### Dispatch -/

theorem dispatch_eq (commands : List Cmd) (hlen : s.shell.len ≤ BUF_CAP) :
    s.dispatch commands = some
      ({ s with
        globals := (dispatchLine commands s.shell s.globals s.shell.line).1
        dispatched := s.dispatched ++ [s.shell.line] }.perform
          (dispatchLine commands s.shell s.globals s.shell.line).2) := by
  unfold dispatch
  rw [upTo_eq hlen]
  rfl

/-- Enter: the line is recorded and dispatched, and a prompt is printed for a new one. -/
theorem submit_eq (commands : List Cmd) (h : s.shell.Bounded) :
    ∃ shell : Shell, s.shell.record = some shell ∧ s.submit commands
      = (({ s with
        shell := { shell with histCursor := 0, len := 0, cursorPos := 0 }
        globals := (dispatchLine commands { shell with histCursor := 0 } s.globals s.shell.line).1
        dispatched := s.dispatched ++ [s.shell.line] }.print ['\n']).perform
          (dispatchLine commands { shell with histCursor := 0 } s.globals s.shell.line).2
        ).printPrompt := by
  obtain ⟨history, histLen, histCount, hrecord, -, -⟩ := Shell.record_eq h
  refine ⟨_, hrecord, ?_⟩
  unfold submit
  simp only [print_shell, hrecord, Option.bind_eq_bind, Option.bind_some]
  rw [dispatch_eq]
  · rfl
  · exact h.len

/-! ### Completion -/

theorem typeChars_eq (rest : Text) : ∀ s : Session, s.shell.len ≤ BUF_CAP →
    ∃ buf, text buf (s.shell.len + (rest.take (BUF_CAP - s.shell.len)).length)
        = s.shell.line ++ rest.take (BUF_CAP - s.shell.len) ∧
      rest.foldlM typeChar s = some ((s.withShell (s.shell.edit buf
        (s.shell.len + (rest.take (BUF_CAP - s.shell.len)).length) s.shell.cursorPos)).print
          (rest.take (BUF_CAP - s.shell.len))) := by
  induction rest with
  | nil =>
      intro s _
      refine ⟨s.shell.buf, ?_, ?_⟩
      · rw [List.take_nil, List.append_nil]
        rfl
      · rw [List.take_nil, print_nil]
        rfl
  | cons ch rest ih =>
      intro s hlen
      rw [List.foldlM_cons]
      rcases Nat.lt_or_ge s.shell.len BUF_CAP with hroom | hfull
      · obtain ⟨buf₁, hstore, htext₁⟩ := store_end hroom ch (b := s.shell.buf)
        have htype : s.typeChar ch = some ((s.withShell
            (s.shell.edit buf₁ (s.shell.len + 1) s.shell.cursorPos)).print [ch]) := by
          rw [typeChar, if_pos hroom, hstore]
          rfl
        obtain ⟨buf, htext, hrest⟩ := ih ((s.withShell
          (s.shell.edit buf₁ (s.shell.len + 1) s.shell.cursorPos)).print [ch]) hroom
        have htake : (ch :: rest).take (BUF_CAP - s.shell.len)
            = ch :: rest.take (BUF_CAP - (s.shell.len + 1)) := by
          rw [show BUF_CAP - s.shell.len = (BUF_CAP - (s.shell.len + 1)) + 1 by omega,
            List.take_succ_cons]
        rw [htake, List.length_cons, ← Nat.add_assoc, Nat.add_right_comm]
        refine ⟨buf, ?_, ?_⟩
        · have hline : text buf₁ (s.shell.len + 1) = s.shell.line ++ [ch] := htext₁
          refine htext.trans ?_
          show text buf₁ (s.shell.len + 1) ++ _ = _
          rw [hline, List.append_assoc]
          rfl
        · rw [htype, Option.bind_eq_bind, Option.bind_some, hrest]
          exact congrArg some (print_print (s.withShell (s.shell.edit buf _ _)) [ch] _)
      · have htype : s.typeChar ch = some s := if_neg (Nat.not_lt.mpr hfull)
        have hnone : BUF_CAP - s.shell.len = 0 := Nat.sub_eq_zero_of_le hfull
        obtain ⟨buf, htext, hrest⟩ := ih s hlen
        rw [hnone] at htext hrest ⊢
        exact ⟨buf, htext, by rw [htype]; exact hrest⟩

/-- What is typed of a completion is what there is room for. -/
theorem typeRest_eq (hlen : s.shell.len ≤ BUF_CAP) (rest : Text) :
    ∃ buf n, n = s.shell.len + (rest.take (BUF_CAP - s.shell.len)).length ∧
      text buf n = s.shell.line ++ rest.take (BUF_CAP - s.shell.len) ∧
      s.typeRest rest = some ((s.withShell (s.shell.edit buf n n)).onWriter fun w =>
        w.print (rest.take (BUF_CAP - s.shell.len))) := by
  obtain ⟨buf, htext, htype⟩ := typeChars_eq rest s hlen
  refine ⟨buf, _, rfl, htext, ?_⟩
  unfold typeRest
  rw [htype]
  rfl

end Session

end Amaterasu
