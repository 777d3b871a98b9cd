/-
The line editor, as what its user sees: the text left of the cursor, the text right of
it, and the lines typed before.

`Editor` is a list editor with no buffers, lengths or indices in it.  `Refines` ties a
session to one: the buffer holds the two lists one behind the other, the ring of
sixteen slots holds the end of the history, and everything is within bounds.  Each key
is one step on both sides (`Refines.key`), so every sequence of keys ends in a session
that the editor describes (`line_editor_refines`), and in particular ends: no index or
slice on the way is out of range.
-/
import Amaterasu.Shell.Steps

namespace Amaterasu

open FixedBuffer

/-! ### The reference editor -/

structure Editor where
  before : Text
  after : Text
  /-- The lines recorded, oldest first. -/
  history : List Text
  /-- How far back in the history the line comes from; 0 is the line being written. -/
  browse : Nat
  live : Text
  dispatched : List Text

namespace Editor

def empty : Editor := ⟨[], [], [], 0, [], []⟩

def line (e : Editor) : Text := e.before ++ e.after

def insert (e : Editor) (ch : Char) : Editor :=
  if e.line.length < BUF_CAP then { e with before := e.before ++ [ch] } else e

def backspace (e : Editor) : Editor := { e with before := e.before.dropLast }

def left (e : Editor) : Editor :=
  match e.before.getLast? with
  | none => e
  | some ch => { e with before := e.before.dropLast, after := ch :: e.after }

def right (e : Editor) : Editor :=
  match e.after with
  | [] => e
  | ch :: rest => { e with before := e.before ++ [ch], after := rest }

def toStart (e : Editor) : Editor := { e with before := [], after := e.line }

def toEnd (e : Editor) : Editor := { e with before := e.line, after := [] }

/-- Another line, with the cursor at its end. -/
def restore (e : Editor) (t : Text) : Editor := { e with before := t, after := [] }

def interrupt (e : Editor) : Editor := { e.restore [] with browse := 0 }

/-- The line recorded `k` lines ago. -/
def back (e : Editor) (k : Nat) : Text := (e.history[e.history.length - k]?).getD []

def older (e : Editor) : Editor :=
  if e.browse < min e.history.length HIST_CAP then
    { e.restore (e.back (e.browse + 1)) with
      browse := e.browse + 1, live := if e.browse = 0 then e.line else e.live }
  else e

def newer (e : Editor) : Editor :=
  if e.browse = 0 then e
  else
    { e.restore (if e.browse = 1 then e.live else e.back (e.browse - 1)) with
      browse := e.browse - 1 }

/-- The history with a line recorded, unless it is empty or was recorded last. -/
def record (history : List Text) (line : Text) : List Text :=
  if line = [] ∨ history.getLast? = some line then history else history ++ [line]

def enter (e : Editor) : Editor :=
  { e.restore [] with
    browse := 0, history := record e.history e.line, dispatched := e.dispatched ++ [e.line] }

/-- The keys of the editor; Tab and ^W are not among them. -/
def key (e : Editor) (ch : Char) : Editor :=
  match ch with
  | '\x08' => e.backspace
  | '\n' => e.enter
  | '\t' => e
  | '\x01' => e.toStart
  | '\x02' => e.left
  | '\x03' => e.interrupt
  | '\x05' => e.toEnd
  | '\x06' => e.right
  | '\x0c' => e.toEnd
  | '\x0e' => e.newer
  | '\x10' => e.older
  | '\x15' => e.restore []
  | '\x17' => e
  | ch => e.insert ch

end Editor

/-! ### The ring of recorded lines -/

namespace Shell

/-- The ring holds the lines recorded that it has not overwritten. -/
structure Recorded (s : Shell) (history : List Text) : Prop where
  count : s.histCount = history.length
  entries : ∀ i t, history[i]? = some t → history.length ≤ i + HIST_CAP → s.entry (slot i) = t

variable {s : Shell} {history : List Text}

/-- The ring recognises a repeated line. -/
theorem Recorded.repeats_iff (h : s.Recorded history) :
    s.Repeats ↔ s.line = [] ∨ history.getLast? = some s.line := by
  unfold Repeats
  rw [h.count]
  rcases eq_or_ne history [] with hnil | hne
  · rw [hnil]
    simp
  · have hpos : 0 < history.length := List.length_pos_iff.mpr hne
    have hlast : history[history.length - 1]? = some (history.getLast hne) := by
      rw [← List.getLast?_eq_getElem?, List.getLast?_eq_getLast_of_ne_nil hne]
    have hcap : HIST_CAP = 16 := rfl
    have hentry := h.entries _ _ hlast (by omega)
    rw [hentry, List.getLast?_eq_getLast_of_ne_nil hne, Option.some.injEq]
    simp only [hpos, true_and]

theorem slot_eq_iff {i n : Nat} (hi : i < n) (hn : n ≤ i + HIST_CAP) :
    slot i = slot n ↔ n = i + HIST_CAP := by
  have hmod : (slot i = slot n) ↔ i % 16 = n % 16 := Fin.ext_iff
  have hcap : HIST_CAP = 16 := rfl
  rw [hmod, hcap]
  omega

/-- Recording a line keeps the ring and the list together. -/
theorem Recorded.record (hb : s.Bounded) (h : s.Recorded history) {shell : Shell}
    (hrecord : s.record = some shell) : shell.Recorded (Editor.record history s.line) := by
  obtain ⟨hist, histLen, histCount, heq, -, hcases⟩ := record_eq hb
  obtain rfl : _ = shell := Option.some.inj (heq.symm.trans hrecord)
  unfold Editor.record
  rcases hcases with ⟨hrep, rfl, hentries⟩ | ⟨hnew, rfl, hentries⟩
  · rw [if_pos (h.repeats_iff.mp hrep)]
    refine ⟨h.count, ?_⟩
    intro i t hget hcap
    exact (hentries (slot i)).trans (h.entries i t hget hcap)
  · rw [if_neg fun hc => hnew (h.repeats_iff.mpr hc)]
    refine ⟨?_, ?_⟩
    · rw [List.length_append, List.length_singleton, ← h.count]
    · intro i t hget hcap
      rw [List.length_append, List.length_singleton] at hcap
      refine (hentries (slot i)).trans ?_
      rw [h.count]
      rcases Nat.lt_trichotomy i history.length with hlt | heq | hgt
      · rw [List.getElem?_append_left hlt] at hget
        have hslot := slot_eq_iff hlt (by omega)
        rw [if_neg fun hc => by have := hslot.mp hc; omega]
        exact h.entries i t hget (by omega)
      · rw [heq, List.getElem?_concat_length] at hget
        rw [if_pos (by rw [heq])]
        exact Option.some.inj hget
      · rw [List.getElem?_eq_none
          (by rw [List.length_append, List.length_singleton]; omega)] at hget
        exact absurd hget (by simp)

end Shell

/-! ### The relation -/

/-- A session is described by an editor. -/
structure Session.Refines (s : Session) (e : Editor) : Prop where
  bounded : s.shell.Bounded
  before : text s.shell.buf s.shell.cursorPos = e.before
  after : between s.shell.buf s.shell.cursorPos s.shell.len = e.after
  count : s.shell.histCount = e.history.length
  /-- The ring holds the lines it has not overwritten. -/
  entries : ∀ i t, e.history[i]? = some t → e.history.length ≤ i + HIST_CAP →
    s.shell.entry (Shell.slot i) = t
  browse : s.shell.histCursor = e.browse
  live : text s.shell.liveBuf s.shell.liveLen = e.live
  dispatched : s.dispatched = e.dispatched

namespace Session.Refines

variable {s : Session} {e : Editor}

theorem line (h : s.Refines e) : s.shell.line = e.line := by
  rw [Shell.line, text_split h.bounded.cursor, h.before, h.after]
  rfl

theorem length_before (h : s.Refines e) : e.before.length = s.shell.cursorPos := by
  rw [← h.before]
  exact length_text (Nat.le_trans h.bounded.cursor h.bounded.len)

theorem length_after (h : s.Refines e) : e.after.length = s.shell.len - s.shell.cursorPos := by
  rw [← h.after]
  exact length_between _ h.bounded.cursor h.bounded.len

/-- Painting does not matter. -/
theorem onWriter (h : s.Refines e) (f : Writer → Writer) : (s.onWriter f).Refines e :=
  ⟨h.bounded, h.before, h.after, h.count, h.entries, h.browse, h.live, h.dispatched⟩

/-- Nor does showing the cursor. -/
theorem cursorShow (h : s.Refines e) : ∃ s', s.cursorShow = some s' ∧ s'.Refines e :=
  ⟨_, cursorShow_eq h.bounded.cursor h.bounded.len, h.onWriter _⟩

/-- Another line: the cursor splits it as the editor's lists do. -/
theorem edit (h : s.Refines e) {buf : Vector Char BUF_CAP} {len k : Nat} {b a : Text}
    (htext : text buf len = b ++ a) (hb : b.length = k) (hk : k ≤ len) (hlen : len ≤ BUF_CAP) :
    (s.withShell (s.shell.edit buf len k)).Refines { e with before := b, after := a } := by
  obtain ⟨hbefore, hafter⟩ := split_of_text htext hb hk
  exact ⟨⟨hk, hlen, h.bounded.live, h.bounded.hist, h.bounded.browse⟩, hbefore, hafter, h.count,
    h.entries, h.browse, h.live, h.dispatched⟩

/-- The cursor elsewhere on the same line. -/
theorem move (h : s.Refines e) {b a : Text} (hline : b ++ a = e.line) :
    (s.withShell (s.shell.edit s.shell.buf s.shell.len b.length)).Refines
      { e with before := b, after := a } := by
  apply h.edit
  · rw [hline, ← h.line]
    rfl
  · rfl
  · rw [← Shell.length_line h.bounded, h.line, ← hline, List.length_append]
    exact Nat.le_add_right _ _
  · exact h.bounded.len

/-! ### Editing -/

theorem insert (h : s.Refines e) (ch : Char) :
    ∃ s', s.insertChar ch = some s' ∧ s'.Refines (e.insert ch) := by
  have hlen : e.line.length = s.shell.len := by
    rw [← h.line]
    exact Shell.length_line h.bounded
  have hcur := h.length_before
  have hle := h.bounded.cursor
  unfold Editor.insert
  rcases Nat.lt_or_ge s.shell.len BUF_CAP with hroom | hfull
  · rw [if_pos (by omega)]
    rcases Nat.lt_or_ge s.shell.cursorPos s.shell.len with hmid | hend
    · obtain ⟨buf, htext, heq⟩ := insertChar_middle hmid hroom ch
      refine ⟨_, heq, ?_⟩
      apply onWriter
      apply h.edit
      · rw [htext, h.before, h.after, List.append_assoc, List.singleton_append]
      · rw [List.length_append, hcur]
        rfl
      · omega
      · omega
    · obtain ⟨buf, htext, heq⟩ := insertChar_end hroom (by omega) ch
      refine ⟨_, heq, ?_⟩
      apply onWriter
      have hafter : e.after = [] := by
        apply List.eq_nil_of_length_eq_zero
        rw [h.length_after]
        omega
      apply h.edit
      · rw [htext, h.line, Editor.line, hafter, List.append_nil, List.append_nil]
      · rw [List.length_append, hcur]
        show s.shell.cursorPos + 1 = s.shell.len + 1
        omega
      · omega
      · omega
  · rw [if_neg (by omega)]
    have := h.bounded.len
    exact ⟨_, insertChar_full h.bounded (by omega) ch, h.onWriter _⟩

theorem backspace (h : s.Refines e) : ∃ s', s.backspace = some s' ∧ s'.Refines e.backspace := by
  have hcur := h.length_before
  have hle := h.bounded.cursor
  have hlen := h.bounded.len
  rcases Nat.eq_zero_or_pos s.shell.cursorPos with hzero | hpos
  · refine ⟨s, backspace_start hzero, ?_⟩
    have hnil : e.before = [] := List.eq_nil_of_length_eq_zero (by omega)
    have hsame : e.backspace = e := by
      rw [Editor.backspace, hnil, List.dropLast_nil, ← hnil]
    rw [hsame]
    exact h
  · rcases Nat.lt_or_ge s.shell.cursorPos s.shell.len with hmid | hend
    · obtain ⟨buf, htext, heq⟩ := backspace_middle hpos hmid hlen
      refine ⟨_, heq, ?_⟩
      apply onWriter
      apply h.edit
      · rw [htext, h.after, ← take_text (Nat.sub_le _ 1), h.before, ← hcur,
          ← List.dropLast_eq_take]
      · rw [List.length_dropLast, hcur]
      · omega
      · omega
    · obtain hend : s.shell.cursorPos = s.shell.len := by omega
      refine ⟨_, backspace_end (by omega) hend, ?_⟩
      apply onWriter
      have hafter : e.after = [] := by
        apply List.eq_nil_of_length_eq_zero
        rw [h.length_after]
        omega
      apply h.edit
      · rw [hafter, List.append_nil, ← hend, ← take_text (Nat.sub_le _ 1), h.before, ← hcur,
          ← List.dropLast_eq_take]
      · rw [List.length_dropLast, hcur, hend]
      · omega
      · omega

/-! ### Motions -/

/-- A motion to where the editor's cursor goes. -/
theorem moveCursor (h : s.Refines e) {b a : Text} (hline : b ++ a = e.line) :
    ∃ s', s.moveCursor b.length = some s' ∧ s'.Refines { e with before := b, after := a } := by
  have hk : b.length ≤ s.shell.len := by
    rw [← Shell.length_line h.bounded, h.line, ← hline, List.length_append]
    exact Nat.le_add_right _ _
  exact ⟨_, moveCursor_eq h.bounded.len hk, (h.move hline).onWriter _⟩

theorem left (h : s.Refines e) : ∃ s', s.cursorLeft = some s' ∧ s'.Refines e.left := by
  have hcur := h.length_before
  rw [cursorLeft_eq]
  unfold Editor.left
  rcases List.eq_nil_or_concat e.before with hnil | ⟨b, ch, hb⟩
  · rw [hnil, List.length_nil] at hcur
    rw [hnil, if_pos hcur.symm]
    exact ⟨s, rfl, h⟩
  · rw [List.concat_eq_append] at hb
    rw [hb, List.length_append, List.length_singleton] at hcur
    rw [if_neg (by omega), hb]
    simp only [List.getLast?_append, List.getLast?_singleton, Option.some_or,
      List.dropLast_concat]
    rw [show s.shell.cursorPos - 1 = b.length by omega]
    apply h.moveCursor
    rw [Editor.line, hb, List.append_assoc, List.singleton_append]

theorem right (h : s.Refines e) : ∃ s', s.cursorRight = some s' ∧ s'.Refines e.right := by
  have hcur := h.length_before
  have hafter := h.length_after
  have hle := h.bounded.cursor
  unfold cursorRight Editor.right
  rcases ha : e.after with - | ⟨ch, rest⟩
  · rw [ha, List.length_nil] at hafter
    rw [if_pos (by omega)]
    exact ⟨s, rfl, h⟩
  · rw [ha, List.length_cons] at hafter
    rw [if_neg (by omega)]
    have hmove := h.moveCursor (b := e.before ++ [ch]) (a := rest)
      (by rw [Editor.line, ha, List.append_assoc, List.singleton_append])
    rw [List.length_append, hcur] at hmove
    exact hmove

theorem toStart (h : s.Refines e) : ∃ s', s.cursorToStart = some s' ∧ s'.Refines e.toStart :=
  h.moveCursor (b := []) (List.nil_append _)

theorem toEnd (h : s.Refines e) : ∃ s', s.cursorToEnd = some s' ∧ s'.Refines e.toEnd := by
  have hmove := h.moveCursor (b := e.line) (a := []) (List.append_nil _)
  rw [show e.line.length = s.shell.len by rw [← h.line]; exact Shell.length_line h.bounded] at hmove
  exact hmove

/-! ### Recalling -/

theorem restore (h : s.Refines e) {t : Text} {r : Option Session} (hload : s.Loads t r) :
    ∃ s', r = some s' ∧ s'.Refines (e.restore t) := by
  obtain ⟨hlen, buf, htext, rfl⟩ := hload
  refine ⟨_, rfl, ?_⟩
  apply onWriter
  apply h.edit
  · rw [htext, List.append_nil]
  · rfl
  · exact Nat.le_refl _
  · exact hlen

/-- The slot of the ring a recall reads holds the line the editor goes back to. -/
theorem entry_back (h : s.Refines e) {k : Nat} (hpos : 0 < k)
    (hk : k ≤ min e.history.length HIST_CAP) :
    s.shell.entry (Shell.slot (s.shell.histCount - k)) = e.back k := by
  have hlen : k ≤ e.history.length := Nat.le_trans hk (Nat.min_le_left _ _)
  have hcap : k ≤ HIST_CAP := Nat.le_trans hk (Nat.min_le_right _ _)
  have hlt : e.history.length - k < e.history.length := by omega
  unfold Editor.back
  rw [h.count, List.getElem?_eq_getElem hlt]
  apply h.entries
  · exact List.getElem?_eq_getElem hlt
  · omega

theorem available (h : s.Refines e) : s.shell.available = min e.history.length HIST_CAP := by
  rw [Shell.available, h.count]

theorem older (h : s.Refines e) :
    ∃ s', s.historyUp = some s' ∧ s'.Refines e.older := by
  have havail := h.available
  have hbrowse := h.browse
  unfold Editor.older
  rcases Nat.lt_or_ge s.shell.histCursor s.shell.available with hmore | hdone
  · obtain ⟨liveBuf, liveLen, hlive, htext, r, heq, hload⟩ := historyUp_eq h.bounded hmore
    have hstart : (s.withShell { s.shell with
        liveBuf := liveBuf, liveLen := liveLen, histCursor := s.shell.histCursor + 1 }).Refines
        { e with browse := e.browse + 1, live := if e.browse = 0 then e.line else e.live } := by
      refine ⟨⟨h.bounded.cursor, h.bounded.len, hlive, h.bounded.hist, hmore⟩, h.before, h.after,
        h.count, h.entries, congrArg (· + 1) hbrowse, ?_, h.dispatched⟩
      show text liveBuf liveLen = _
      rw [htext, hbrowse, h.line, h.live]
    obtain ⟨s₁, rfl, hs₁⟩ := hstart.restore hload
    obtain ⟨s₂, hshow, hs₂⟩ := hs₁.cursorShow
    rw [if_pos (by omega)]
    refine ⟨s₂, by rw [heq]; exact hshow, ?_⟩
    rw [h.entry_back (by omega) (by omega), hbrowse] at hs₂
    exact hs₂
  · rw [if_neg (by omega)]
    exact ⟨s, if_pos hdone, h⟩

theorem newer (h : s.Refines e) :
    ∃ s', s.historyDown = some s' ∧ s'.Refines e.newer := by
  have hbrowse := h.browse
  have hle := h.bounded.browse
  rw [h.available] at hle
  unfold Editor.newer
  rcases Nat.eq_zero_or_pos s.shell.histCursor with hzero | hback
  · rw [if_pos (by omega)]
    exact ⟨s, if_pos hzero, h⟩
  · obtain ⟨r, heq, hload⟩ := historyDown_eq h.bounded hback
    have hstart : (s.withShell { s.shell with histCursor := s.shell.histCursor - 1 }).Refines
        { e with browse := e.browse - 1 } := by
      refine ⟨⟨h.bounded.cursor, h.bounded.len, h.bounded.live, h.bounded.hist, ?_⟩, h.before,
        h.after, h.count, h.entries, congrArg (· - 1) hbrowse, h.live, h.dispatched⟩
      exact Nat.le_trans (Nat.sub_le _ 1) h.bounded.browse
    obtain ⟨s₁, rfl, hs₁⟩ := hstart.restore hload
    obtain ⟨s₂, hshow, hs₂⟩ := hs₁.cursorShow
    rw [if_neg (by omega)]
    refine ⟨s₂, by rw [heq]; exact hshow, ?_⟩
    have htext : (if s.shell.histCursor = 1 then text s.shell.liveBuf s.shell.liveLen
        else s.shell.entry (Shell.slot (s.shell.histCount - (s.shell.histCursor - 1))))
        = if e.browse = 1 then e.live else e.back (e.browse - 1) := by
      rw [h.live, hbrowse]
      by_cases hone : e.browse = 1
      · rw [if_pos hone, if_pos hone]
      · rw [if_neg hone, if_neg hone, h.entry_back (by omega) (by omega)]
    rw [htext] at hs₂
    exact hs₂

/-! ### Prompts -/

/-- A prompt leaves the cursor at the end of the line. -/
theorem prompt (h : s.Refines e) : ∃ s', s.printPrompt = some s' ∧ s'.Refines e.toEnd := by
  obtain ⟨promptCol, promptLine, heq, -⟩ := printPrompt_eq h.bounded.len
  refine ⟨_, heq, ?_⟩
  have hmove := h.move (b := e.line) (a := []) (List.append_nil _)
  have hlen : e.line.length = s.shell.len := by
    rw [← h.line]
    exact Shell.length_line h.bounded
  rw [hlen] at hmove
  exact ⟨⟨Nat.le_refl _, h.bounded.len, h.bounded.live, h.bounded.hist, h.bounded.browse⟩,
    hmove.before, hmove.after, h.count, h.entries, h.browse, h.live, h.dispatched⟩

theorem kill (h : s.Refines e) : s.ctrlU.Refines (e.restore []) :=
  ⟨⟨Nat.le_refl 0, Nat.zero_le _, h.bounded.live, h.bounded.hist, h.bounded.browse⟩, rfl, rfl,
    h.count, h.entries, h.browse, h.live, h.dispatched⟩

theorem interrupt (h : s.Refines e) : ∃ s', s.ctrlC = some s' ∧ s'.Refines e.interrupt := by
  have hstart : ({ s.print ['^', 'C', '\n'] with
      shell := { s.shell with len := 0, cursorPos := 0, histCursor := 0 } } : Session).Refines
      e.interrupt :=
    ⟨⟨Nat.le_refl 0, Nat.zero_le _, h.bounded.live, h.bounded.hist, Nat.zero_le _⟩, rfl, rfl,
      h.count, h.entries, rfl, h.live, h.dispatched⟩
  exact hstart.prompt

theorem redraw (h : s.Refines e) : ∃ s', s.ctrlL = some s' ∧ s'.Refines e.toEnd := by
  obtain ⟨s₁, hprompt, hs₁⟩ := (h.onWriter Writer.clear).prompt
  obtain ⟨s₂, hshow, hs₂⟩ := (hs₁.onWriter fun w =>
    w.print (between s₁.shell.buf 0 s₁.shell.len)).cursorShow
  refine ⟨s₂, ?_, hs₂⟩
  unfold ctrlL
  rw [hprompt, Option.bind_eq_bind, Option.bind_some, printFrom_eq hs₁.bounded.len]
  exact hshow

/-- The ring after a line is recorded. -/
theorem record (h : s.Refines e) :
    ∃ shell : Shell, s.shell.record = some shell ∧
      ({ s with shell := { shell with histCursor := 0, len := 0, cursorPos := 0 }
                dispatched := s.dispatched ++ [s.shell.line] } : Session).Refines e.enter := by
  obtain ⟨history, histLen, histCount, hrecord, hlens, -⟩ := Shell.record_eq h.bounded
  have hring := Shell.Recorded.record h.bounded ⟨h.count, h.entries⟩ hrecord
  rw [h.line] at hring
  refine ⟨_, hrecord, ⟨Nat.le_refl 0, Nat.zero_le _, h.bounded.live, hlens, Nat.zero_le _⟩, rfl,
    rfl, hring.count, hring.entries, rfl, h.live, ?_⟩
  show s.dispatched ++ [s.shell.line] = e.dispatched ++ [e.line]
  rw [h.dispatched, h.line]

theorem enter (h : s.Refines e) (commands : List Cmd) :
    ∃ s', s.submit commands = some s' ∧ s'.Refines e.enter := by
  obtain ⟨shell, hrecord, hstart⟩ := h.record
  obtain ⟨shell', hrecord', hsubmit⟩ := submit_eq commands h.bounded
  obtain rfl : shell = shell' := by
    rw [hrecord] at hrecord'
    exact Option.some.inj hrecord'
  rw [hsubmit]
  have hpainted : ({ s with
      shell := { shell with histCursor := 0, len := 0, cursorPos := 0 }
      globals := (dispatchLine commands { shell with histCursor := 0 } s.globals s.shell.line).1
      dispatched := s.dispatched ++ [s.shell.line] } : Session).Refines e.enter :=
    ⟨hstart.bounded, hstart.before, hstart.after, hstart.count, hstart.entries, hstart.browse,
      hstart.live, hstart.dispatched⟩
  exact ((hpainted.onWriter _).onWriter _).prompt

/-! ### Keys -/

/-- **One key.**  A session described by an editor takes any key, and ends described by
the editor after that key. -/
theorem key (h : s.Refines e) (commands : List Cmd) {ch : Char} (htab : ch ≠ '\t')
    (hword : ch ≠ '\x17') : ∃ s', s.pushChar commands ch = some s' ∧ s'.Refines (e.key ch) := by
  -- Every handler but that of an ordinary character is followed by `cursor_show`.
  have hshow : ∀ {r : Option Session} {e' : Editor}, (∃ s', r = some s' ∧ s'.Refines e') →
      ∃ s', (r >>= Session.cursorShow) = some s' ∧ s'.Refines e' := by
    rintro r e' ⟨s', rfl, hs'⟩
    exact hs'.cursorShow
  unfold pushChar
  split
  · exact hshow h.backspace
  · exact hshow (h.enter commands)
  · exact absurd rfl htab
  · exact hshow h.toStart
  · exact hshow h.left
  · exact hshow h.interrupt
  · exact hshow h.toEnd
  · exact hshow h.right
  · exact hshow h.redraw
  · exact hshow h.newer
  · exact hshow h.older
  · exact h.kill.cursorShow
  · exact absurd rfl hword
  · rw [Editor.key]
    · exact h.insert ch
    all_goals assumption

end Session.Refines

/-- A session before anything is typed is described by the empty editor. -/
theorem new_refines (writer : Option Writer) (g : Globals) :
    (Session.new writer g).Refines Editor.empty where
  bounded := Shell.new_bounded
  before := rfl
  after := rfl
  count := rfl
  entries := by
    intro i t h
    simp [Editor.empty] at h
  browse := rfl
  live := rfl
  dispatched := rfl

/--
**Line-editor refinement.**  Whatever is typed, the shell takes it without a panic, its
buffer around the cursor is the reference editor's text, the lines dispatched are the
ones the editor was asked to enter, and every index and length is within bounds.
-/
theorem line_editor_refines (commands : List Cmd) (writer : Option Writer) (g : Globals)
    (keys : List Char) (hkeys : ∀ ch ∈ keys, ch ≠ '\t' ∧ ch ≠ '\x17') :
    ∃ s, keys.foldlM (Session.pushChar commands) (Session.new writer g) = some s ∧
      (text s.shell.buf s.shell.cursorPos, between s.shell.buf s.shell.cursorPos s.shell.len)
        = ((keys.foldl Editor.key Editor.empty).before, (keys.foldl Editor.key Editor.empty).after) ∧
      s.dispatched = (keys.foldl Editor.key Editor.empty).dispatched ∧
      s.shell.Bounded := by
  have hrun : ∀ (keys : List Char), (∀ ch ∈ keys, ch ≠ '\t' ∧ ch ≠ '\x17') →
      ∀ (s : Session) (e : Editor), s.Refines e →
        ∃ s', keys.foldlM (Session.pushChar commands) s = some s' ∧
          s'.Refines (keys.foldl Editor.key e) := by
    intro keys
    induction keys with
    | nil =>
        intro _ s e h
        exact ⟨s, rfl, h⟩
    | cons ch rest ih =>
        intro hall s e h
        obtain ⟨htab, hword⟩ := hall ch List.mem_cons_self
        obtain ⟨s₁, hstep, hs₁⟩ := h.key commands htab hword
        obtain ⟨s₂, hrest, hs₂⟩ := ih (fun c hc => hall c (List.mem_cons_of_mem _ hc)) s₁ _ hs₁
        refine ⟨s₂, ?_, hs₂⟩
        rw [List.foldlM_cons, hstep]
        exact hrest
  obtain ⟨s, hs, h⟩ := hrun keys hkeys _ _ (new_refines writer g)
  refine ⟨s, hs, ?_, h.dispatched, h.bounded⟩
  rw [h.before, h.after]

/-- A line with a character put in the middle, entered and recalled. -/
theorem line_editor_refines_recall :
    ∃ s, ['l', 's', '\x02', 'x', '\n', '\x10'].foldlM (Session.pushChar [])
        (Session.new none ⟨[], [], [], none⟩) = some s ∧
      (text s.shell.buf s.shell.cursorPos, between s.shell.buf s.shell.cursorPos s.shell.len)
        = (['l', 'x', 's'], []) ∧
      s.dispatched = [['l', 'x', 's']] ∧ s.shell.Bounded :=
  line_editor_refines [] none _ _ (by simp)

end Amaterasu
