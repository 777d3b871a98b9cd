/-
What is typed, in pixels.

The shell's model paints on a grid of cells; the writer on bytes shows what a sequence of its
own operations makes of that grid.  What joins the two is that the shell paints with those
operations and with nothing else (`Operates`), so wherever typing and the blinking cursor take
a session, there are operations of the writer that lead to what is on its screen
(`Displayed`), and the buffer they leave shows it pixel by pixel: the line in the ordinary
colours, and exchanged where the cursor is drawn (`Drawn`).
-/
import Amaterasu.Framebuffer.Refinement
import Amaterasu.Lib.Lockstep
import Amaterasu.Shell.Screen

namespace Amaterasu

open FixedBuffer FramebufferWriter

/-! ### Painting with the writer's operations -/

/-- A painting that the writer's operations can do, whatever is on the screen. -/
def Operates (f : Writer → Writer) : Prop := ∀ v, ∃ ops : List Op, f v = ops.foldl act v

namespace Operates

variable {f g : Writer → Writer}

theorem one (op : Op) : Operates fun v => act v op := fun _ => ⟨[op], rfl⟩

theorem comp (hf : Operates f) (hg : Operates g) : Operates fun v => g (f v) := by
  intro v
  obtain ⟨ops, hops⟩ := hf v
  obtain ⟨ops', hops'⟩ := hg (f v)
  refine ⟨ops ++ ops', ?_⟩
  rw [List.foldl_append, ← hops]
  exact hops'

theorem cursorShow (ch : Char) : Operates fun w => w.cursorShow ch := one (.cursorShow ch)

theorem setCol (col : ℕ) : Operates fun w => w.setCol col := one (.setCol col)

/-- The cursor is hidden and goes to a column. -/
theorem leave (col : ℕ) : Operates fun w => w.cursorHide.setCol col :=
  (one .cursorHide).comp (setCol col)

theorem iterate (hf : Operates f) (n : ℕ) : Operates f^[n] := by
  induction n with
  | zero => exact fun v => ⟨[], rfl⟩
  | succ n ih => exact hf.comp ih

theorem print (t : Text) : Operates fun w => w.print t := by
  intro v
  refine ⟨t.map .writeChar, ?_⟩
  rw [List.foldl_map]
  rfl

theorem perform (ops : List Writer.Op) : Operates fun w => ops.foldl Writer.perform w := by
  induction ops with
  | nil => exact fun v => ⟨[], rfl⟩
  | cons op ops ih =>
      refine comp (f := fun w => w.perform op) ?_ ih
      cases op with
      | print t => exact print t
      | setFg color => exact one (.setFg color)
      | resetColors => exact one (.setFg COLOR_FG)
      | clear => exact one .clear

end Operates

/-! ### The cursor blinks -/

theorem Writer.tickCursor_tint (w : Writer) (r c : ℕ) : w.tickCursor.tint r c
    = if r = w.row ∧ c = w.col then (if w.blinkOn then (w.fg, w.bg) else (w.bg, w.fg))
      else w.tint r c := by
  have hdraw : w.tickCursor = { w with blinkOn := !w.blinkOn }.drawCursorCell (!w.blinkOn) := rfl
  rw [hdraw]
  cases w.blinkOn with
  | false => exact Writer.writeGlyph_tint _ _ _ _ r c
  | true => exact Writer.writeGlyph_tint _ _ _ _ r c

/-- A blinking cursor covers the character that is under it. -/
theorem Writer.LineShown.tickCursor {w : Writer} {prompt : ℕ → Char} {pc i : ℕ} {t : Text}
    (h : w.LineShown prompt pc t i) : w.tickCursor.LineShown prompt pc t i := by
  have hshown : ∀ r c, w.tickCursor.shown r c = w.shown r c := by
    intro r c
    refine (Writer.drawCursorCell_shown _ _ r c).trans ?_
    split
    · rename_i hrc
      rw [hrc.1, hrc.2]
      exact h.under.symm
    · rfl
  have hrow : w.tickCursor.row = w.row := Writer.drawCursorCell_row _ _
  have hrows : w.tickCursor.rows = w.rows := Writer.drawCursorCell_rows _ _
  have hcols : w.tickCursor.cols = w.cols := Writer.drawCursorCell_cols _ _
  have hinked : w.tickCursor.Inked pc t.length := by
    refine ⟨(Writer.drawCursorCell_colors _ _).trans h.inked.colors, fun c hlo hhi hne => ?_⟩
    have hcol : w.tickCursor.col = w.col := Writer.drawCursorCell_col _ _
    have hother : c ≠ w.col := fun heq => hne (heq.trans hcol.symm)
    rw [hrow, Writer.tickCursor_tint, if_neg (fun h => hother h.2)]
    exact h.inked.cells c hlo hhi hother
  refine ⟨(Writer.drawCursorCell_col _ _).trans h.col, ?_, ?_,
    (Writer.drawCursorCell_cursorChar _ _).trans h.cursor, hinked⟩
  · intro c hc
    rw [hcols] at hc
    rw [hrow, hshown]
    exact h.cells c hc
  · intro r c hr hr' hc
    rw [hrow] at hr
    rw [hrows] at hr'
    rw [hcols] at hc
    rw [hshown]
    exact h.below r c hr hr' hc

theorem Session.OnScreen.blink {s : Session} {w : Writer} (h : s.OnScreen w) :
    (s.onWriter Writer.tickCursor).OnScreen w.tickCursor where
  writer := by rw [Session.onWriter_writer, h.writer, Option.map_some]
  bounded := h.bounded
  printable := h.printable
  shown := by
    have hcols : w.tickCursor.cols = w.cols := Writer.drawCursorCell_cols _ _
    rw [hcols]
    exact fun hfit => (h.shown hfit).tickCursor

/-! ### The screen of a session -/

namespace Session

/-- What is on the session's screen is what operations of the writer make of a zeroed buffer. -/
def Displayed (info : FrameBufferInfo) (s : Session) : Prop :=
  ∃ ops : List Op, s.writer = some (ops.foldl act (blank info))

namespace Displayed

variable {info : FrameBufferInfo} {s : Session} {f : Writer → Writer}

theorem onWriter (h : s.Displayed info) (hf : Operates f) : (s.onWriter f).Displayed info := by
  obtain ⟨ops, hops⟩ := h
  obtain ⟨ops', hops'⟩ := hf (ops.foldl act (blank info))
  refine ⟨ops ++ ops', ?_⟩
  rw [onWriter_writer, hops, Option.map_some, hops', List.foldl_append]

theorem cursorShow (h : s.Displayed info) : ∀ u ∈ s.cursorShow, u.Displayed info := by
  refine Lockstep.holds_bind (P := fun _ => True) (fun _ _ => trivial) fun ch _ => ?_
  exact Lockstep.holds_some (h.onWriter (.cursorShow ch))

theorem bind_cursorShow {r : Option Session} (h : ∀ u ∈ r, u.Displayed info) :
    ∀ u ∈ r >>= Session.cursorShow, u.Displayed info :=
  Lockstep.holds_bind h fun _ h => h.cursorShow

/-- After a computation that is not about the screen. -/
theorem skip {ι : Type} {r : Option ι} {k : ι → Option Session}
    (hk : ∀ i, ∀ u ∈ k i, u.Displayed info) : ∀ u ∈ r >>= k, u.Displayed info :=
  Lockstep.holds_bind (P := fun _ => True) (fun _ _ => trivial) fun i _ => hk i

theorem printFrom (h : s.Displayed info) (start : ℕ) :
    ∀ u ∈ s.printFrom start, u.Displayed info :=
  Lockstep.holds_foldlM (fun _ _ h => skip fun ch =>
    Lockstep.holds_some (h.onWriter (.print [ch]))) _ h

theorem redrawFrom (h : s.Displayed info) (start : ℕ) :
    ∀ u ∈ s.redrawFrom start, u.Displayed info := by
  refine Lockstep.holds_bind ((h.onWriter (.leave _)).printFrom start) fun u hu => ?_
  exact ((hu.onWriter (.print [' '])).onWriter (.setCol _)).cursorShow

theorem printPrompt (h : s.Displayed info) : ∀ u ∈ s.printPrompt, u.Displayed info := by
  intro u hu
  obtain ⟨v, hv, rfl⟩ := Option.map_eq_some_iff.mp hu
  refine cursorShow ?_ v hv
  exact h.onWriter (.perform _)

/-! ### Handlers -/

theorem insertChar (h : s.Displayed info) (ch : Char) :
    ∀ u ∈ s.insertChar ch, u.Displayed info := by
  unfold Session.insertChar
  split
  · split
    · exact skip fun buf => cursorShow (h.onWriter (.print [ch]))
    · refine skip fun buf => skip fun buf' => redrawFrom ?_ _
      exact h
  · exact h.cursorShow

theorem backspace (h : s.Displayed info) : ∀ u ∈ s.backspace, u.Displayed info := by
  unfold Session.backspace
  split
  · exact Lockstep.holds_some h
  · split
    · exact skip fun n => skip fun k => Lockstep.holds_some (h.onWriter (.one .backspace))
    · refine skip fun d => skip fun buf => skip fun n => redrawFrom ?_ d
      exact h

theorem moveCursor (h : s.Displayed info) (k : ℕ) : ∀ u ∈ s.moveCursor k, u.Displayed info := by
  unfold Session.moveCursor
  refine cursorShow (onWriter ?_ (.leave _))
  exact h

theorem cursorLeft (h : s.Displayed info) : ∀ u ∈ s.cursorLeft, u.Displayed info := by
  unfold Session.cursorLeft
  split
  · exact Lockstep.holds_some h
  · exact skip h.moveCursor

theorem cursorRight (h : s.Displayed info) : ∀ u ∈ s.cursorRight, u.Displayed info := by
  unfold Session.cursorRight
  split
  · exact Lockstep.holds_some h
  · exact h.moveCursor _

theorem eraseLine (h : s.Displayed info) : s.eraseLine.Displayed info :=
  h.onWriter (.iterate (.one .backspace) s.shell.len)

theorem ctrlC (h : s.Displayed info) : ∀ u ∈ s.ctrlC, u.Displayed info := by
  unfold Session.ctrlC
  refine printPrompt ?_
  exact h.onWriter (.print _)

theorem ctrlL (h : s.Displayed info) : ∀ u ∈ s.ctrlL, u.Displayed info := by
  refine Lockstep.holds_bind (h.onWriter (.one .clear)).printPrompt fun u hu => ?_
  exact bind_cursorShow (hu.printFrom 0)

theorem eraseBack (p : Char → Bool) (n : ℕ) : ∀ {s : Session}, s.Displayed info →
    ∀ u ∈ s.eraseBack p n, u.Displayed info := by
  induction n with
  | zero =>
      intro s h
      exact Lockstep.holds_some h
  | succ n ih =>
      intro s h
      refine skip fun ch => ?_
      split
      · exact ih (h.onWriter (.one .backspace))
      · exact Lockstep.holds_some h

theorem loadLine (h : s.Displayed info) (src : Vector Char BUF_CAP) (len : ℕ) :
    ∀ u ∈ s.loadLine src len, u.Displayed info := by
  refine skip fun line => skip fun buf => printFrom ?_ 0
  exact h.eraseLine

theorem loadHistoryEntry (h : s.Displayed info) :
    ∀ u ∈ s.loadHistoryEntry, u.Displayed info :=
  skip fun _ => skip fun len => skip fun entry => h.loadLine entry len

theorem historyUp (h : s.Displayed info) : ∀ u ∈ s.historyUp, u.Displayed info := by
  unfold Session.historyUp
  split
  · exact Lockstep.holds_some h
  · refine skip fun shell => bind_cursorShow (loadHistoryEntry ?_)
    exact h

theorem historyDown (h : s.Displayed info) : ∀ u ∈ s.historyDown, u.Displayed info := by
  unfold Session.historyDown
  split
  · exact Lockstep.holds_some h
  · refine skip fun histCursor => ?_
    dsimp only
    split
    · refine bind_cursorShow (loadLine ?_ _ _)
      exact h
    · refine bind_cursorShow (loadHistoryEntry ?_)
      exact h

theorem submit (h : s.Displayed info) (commands : List Cmd) :
    ∀ u ∈ s.submit commands, u.Displayed info := by
  refine skip fun shell => ?_
  refine Lockstep.holds_bind (P := fun u => u.Displayed info) ?_ fun u hu => ?_
  · exact skip fun input => Lockstep.holds_some
      ((h.onWriter (.print ['\n'])).onWriter (.perform _))
  · refine printPrompt ?_
    exact hu

theorem typeRest (h : s.Displayed info) (rest : Text) :
    ∀ u ∈ s.typeRest rest, u.Displayed info := by
  have htype : ∀ (u : Session) (ch : Char), u.Displayed info →
      ∀ v ∈ u.typeChar ch, v.Displayed info := by
    intro u ch hu
    unfold typeChar
    split
    · exact skip fun buf => Lockstep.holds_some (hu.onWriter (.print [ch]))
    · exact Lockstep.holds_some hu
  refine Lockstep.holds_bind (Lockstep.holds_foldlM htype rest h) fun u hu => ?_
  exact Lockstep.holds_some hu

theorem complete (h : s.Displayed info) (commands : List Cmd) :
    ∀ u ∈ s.complete commands, u.Displayed info := by
  refine skip fun line => skip fun c => ?_
  cases c with
  | nothing => exact Lockstep.holds_some h
  | append rest => exact h.typeRest rest
  | list names =>
      refine Lockstep.holds_bind (h.onWriter (.print _)).printPrompt fun u hu => ?_
      exact bind_cursorShow (hu.printFrom 0)

/-- **One key**: the shell paints with the writer's operations only. -/
theorem pushChar (h : s.Displayed info) (commands : List Cmd) (ch : Char) :
    ∀ u ∈ s.pushChar commands ch, u.Displayed info := by
  unfold Session.pushChar
  split
  · exact bind_cursorShow h.backspace
  · exact bind_cursorShow (h.submit commands)
  · exact bind_cursorShow (h.complete commands)
  · exact bind_cursorShow (h.moveCursor 0)
  · exact bind_cursorShow h.cursorLeft
  · exact bind_cursorShow h.ctrlC
  · exact bind_cursorShow (h.moveCursor _)
  · exact bind_cursorShow h.cursorRight
  · exact bind_cursorShow h.ctrlL
  · exact bind_cursorShow h.historyDown
  · exact bind_cursorShow h.historyUp
  · exact h.eraseLine.cursorShow
  · exact bind_cursorShow (Lockstep.holds_bind (h.eraseBack _ _) fun u hu => hu.eraseBack _ _)
  · exact h.insertChar ch

end Displayed

/-! ### The cell of the cursor -/

/-- The cursor's cell is in the colours of the cursor, shown or hidden. -/
def Drawn (s : Session) : Prop :=
  ∀ w ∈ s.writer, w.tint w.row w.col = if w.blinkOn then (w.bg, w.fg) else (w.fg, w.bg)

namespace Drawn

variable {s : Session}

theorem cursorShow (s : Session) : ∀ u ∈ s.cursorShow, u.Drawn := by
  refine Lockstep.holds_bind (P := fun _ => True) (fun _ _ => trivial) fun ch _ => ?_
  refine Lockstep.holds_some fun w hw => ?_
  obtain ⟨w₀, -, rfl⟩ := Option.map_eq_some_iff.mp hw
  show (w₀.cursorShow ch).tint w₀.row w₀.col = (w₀.bg, w₀.fg)
  rw [Writer.cursorShow_tint, if_pos ⟨rfl, rfl⟩]

/-- What ends by showing the cursor. -/
theorem last {ι : Type} {r : Option ι} {k : ι → Option Session} (hk : ∀ i, ∀ u ∈ k i, u.Drawn) :
    ∀ u ∈ r >>= k, u.Drawn :=
  Lockstep.holds_bind (P := fun _ => True) (fun _ _ => trivial) fun i _ => hk i

theorem bind_cursorShow (r : Option Session) : ∀ u ∈ r >>= Session.cursorShow, u.Drawn :=
  last cursorShow

theorem insertChar (s : Session) (ch : Char) : ∀ u ∈ s.insertChar ch, u.Drawn := by
  unfold Session.insertChar
  split
  · split
    · exact last fun buf => cursorShow _
    · exact last fun buf => last fun buf' => last fun u => cursorShow _
  · exact cursorShow s

theorem pushChar (s : Session) (commands : List Cmd) (ch : Char) :
    ∀ u ∈ s.pushChar commands ch, u.Drawn := by
  unfold Session.pushChar
  split
  all_goals first
    | exact bind_cursorShow _
    | exact cursorShow _
    | exact insertChar s _

theorem blink (s : Session) : (s.onWriter Writer.tickCursor).Drawn := by
  intro w hw
  obtain ⟨w₀, -, rfl⟩ := Option.map_eq_some_iff.mp hw
  have hrow : w₀.tickCursor.row = w₀.row := Writer.drawCursorCell_row _ _
  have hcol : w₀.tickCursor.col = w₀.col := Writer.drawCursorCell_col _ _
  have hcolors : w₀.tickCursor.colors = w₀.colors := Writer.drawCursorCell_colors _ _
  have hblink : w₀.tickCursor.blinkOn = !w₀.blinkOn := by
    have hdraw : w₀.tickCursor = { w₀ with blinkOn := !w₀.blinkOn }.drawCursorCell (!w₀.blinkOn) :=
      rfl
    rw [hdraw]
    cases w₀.blinkOn <;> rfl
  obtain ⟨hfg, hbg⟩ := Prod.mk.inj hcolors
  rw [hrow, hcol, hblink, Writer.tickCursor_tint, if_pos ⟨rfl, rfl⟩, hfg, hbg]
  cases w₀.blinkOn <;> rfl

theorem printPrompt (s : Session) : ∀ u ∈ s.printPrompt, u.Drawn := by
  intro u hu
  obtain ⟨v, hv, rfl⟩ := Option.map_eq_some_iff.mp hu
  exact cursorShow _ v hv

end Drawn

/-! ### Typing on a framebuffer -/

/-- A key, or the timer toggling the cursor. -/
def display (commands : List Cmd) (s : Session) : Option Char → Option Session
  | some ch => s.pushChar commands ch
  | none => some (s.onWriter Writer.tickCursor)

variable {info : FrameBufferInfo}

theorem Displayed.display {s : Session} (h : s.Displayed info) (commands : List Cmd)
    (e : Option Char) : ∀ u ∈ s.display commands e, u.Displayed info := by
  cases e with
  | some ch => exact h.pushChar commands ch
  | none => exact Lockstep.holds_some (h.onWriter (.one .tickCursor))

theorem Drawn.display (s : Session) (commands : List Cmd) (e : Option Char) :
    ∀ u ∈ s.display commands e, u.Drawn := by
  cases e with
  | some ch => exact pushChar s commands ch
  | none => exact Lockstep.holds_some (blink s)

theorem OnScreen.display {s : Session} {w : Writer} (h : s.OnScreen w) (hfit : s.Fits)
    {commands : List Cmd} {e : Option Char} (hstep : ∀ ch ∈ e, s.InStep commands ch) :
    Paints (s.display commands e) := by
  cases e with
  | some ch => exact h.key hfit (hstep ch rfl)
  | none => exact h.blink.paints

/-- The colours of the line: the cursor's cell has them exchanged while the cursor is shown. -/
theorem OnScreen.tint {s : Session} {v : Writer} (h : s.OnScreen v) (hfit : s.Fits)
    (hdrawn : s.Drawn) {i : ℕ} (hi : i < s.shell.len ∨ i = s.shell.cursorPos) :
    v.tint v.row (s.shell.promptCol + i) = if i = s.shell.cursorPos ∧ v.blinkOn
      then (COLOR_BG, COLOR_FG) else (COLOR_FG, COLOR_BG) := by
  have hrow := h.lineShown hfit
  have hlen := Shell.length_line h.bounded
  obtain ⟨hfg, hbg⟩ := Prod.mk.inj hrow.inked.colors
  by_cases hhere : i = s.shell.cursorPos
  · rw [hhere, ← hrow.col, hdrawn v h.writer, hfg, hbg]
    simp only [true_and]
  · rw [if_neg (fun h => hhere h.1)]
    refine hrow.inked.cells _ (Nat.le_add_right _ _) (by omega) ?_
    rw [hrow.col]
    omega

end Session

end Amaterasu
