/-
The history ring over a session.

Only Enter writes the ring: every other key leaves it as it is, whatever it does to the
line.  So the ring holds the end of the list of lines recorded since the session began,
and `history` reads that end back.
-/
import Amaterasu.Lib.Run
import Amaterasu.Shell.Commands
import Amaterasu.Shell.Editor

namespace Amaterasu

open FixedBuffer

namespace Session

/-- The lines submitted, without empty ones and without repeats of the line before. -/
def recorded (s : Session) : List Text := s.dispatched.foldl Editor.record []

/-! ### Keys that leave the history alone -/

/-- A session whose shell is within bounds and has the history of another. -/
structure Keeps (s s' : Session) : Prop where
  bounded : s'.shell.Bounded
  history : s'.shell.history = s.shell.history
  histLen : s'.shell.histLen = s.shell.histLen
  histCount : s'.shell.histCount = s.shell.histCount
  dispatched : s'.dispatched = s.dispatched

/-- Nothing but the line and the screen is another's: the place in the history is the same,
and so is the line kept for when it is left. -/
structure Edits (s s' : Session) : Prop extends s.Keeps s' where
  liveBuf : s'.shell.liveBuf = s.shell.liveBuf
  liveLen : s'.shell.liveLen = s.shell.liveLen
  histCursor : s'.shell.histCursor = s.shell.histCursor

/-- Wherever a handler ends, if it does. -/
def KeepsAll (s : Session) (r : Option Session) : Prop := ∀ s', r = some s' → s.Keeps s'

def EditsAll (s : Session) (r : Option Session) : Prop := ∀ s', r = some s' → s.Edits s'

theorem Keeps.trans {s t u : Session} (h : s.Keeps t) (h' : t.Keeps u) : s.Keeps u :=
  ⟨h'.bounded, h'.history.trans h.history, h'.histLen.trans h.histLen,
    h'.histCount.trans h.histCount, h'.dispatched.trans h.dispatched⟩

namespace Edits

variable {s s' : Session}

theorem refl (h : s.shell.Bounded) : s.Edits s := ⟨⟨h, rfl, rfl, rfl, rfl⟩, rfl, rfl, rfl⟩

theorem all (h : s.Edits s') : s.EditsAll (some s') := by
  intro t ht
  obtain rfl := Option.some.inj ht
  exact h

theorem onWriter (h : s.Edits s') (f : Writer → Writer) : s.Edits (s'.onWriter f) :=
  ⟨⟨h.bounded, h.history, h.histLen, h.histCount, h.dispatched⟩, h.liveBuf, h.liveLen,
    h.histCursor⟩

/-- Another line and another cursor. -/
theorem edit (h : s.Edits s') {n k : Nat} (buf : Vector Char BUF_CAP) (hk : k ≤ n)
    (hn : n ≤ BUF_CAP) : s.Edits (s'.withShell (s'.shell.edit buf n k)) :=
  ⟨⟨⟨hk, hn, h.bounded.live, h.bounded.hist, h.bounded.browse⟩, h.history, h.histLen, h.histCount,
    h.dispatched⟩, h.liveBuf, h.liveLen, h.histCursor⟩

theorem cursorShow (h : s.Edits s') : s.EditsAll s'.cursorShow := by
  rw [cursorShow_eq h.bounded.cursor h.bounded.len]
  exact (h.onWriter _).all

theorem printFrom (h : s.Edits s') (start : Nat) : s.EditsAll (s'.printFrom start) := by
  rw [printFrom_eq h.bounded.len]
  exact (h.onWriter _).all

theorem printPrompt (h : s.Edits s') : s.EditsAll s'.printPrompt := by
  obtain ⟨promptCol, promptLine, heq, -⟩ := printPrompt_eq h.bounded.len
  rw [heq]
  exact all ⟨⟨⟨Nat.le_refl _, h.bounded.len, h.bounded.live, h.bounded.hist, h.bounded.browse⟩,
    h.history, h.histLen, h.histCount, h.dispatched⟩, h.liveBuf, h.liveLen, h.histCursor⟩

theorem moveCursor (h : s.Edits s') {k : Nat} (hk : k ≤ s'.shell.len) :
    s.EditsAll (s'.moveCursor k) := by
  rw [moveCursor_eq h.bounded.len hk]
  exact ((h.edit _ hk h.bounded.len).onWriter _).all

/-- A line that was recalled. -/
theorem loads (h : s.Edits s') {t : Text} {r : Option Session} (hload : s'.Loads t r) :
    s.EditsAll r := by
  obtain ⟨hlen, buf, -, rfl⟩ := hload
  exact ((h.edit buf (Nat.le_refl _) hlen).onWriter _).all

end Edits

namespace EditsAll

variable {s : Session} {r : Option Session}

theorem bind (h : s.EditsAll r) {f : Session → Option Session}
    (hf : ∀ s', s.Edits s' → s.EditsAll (f s')) : s.EditsAll (r >>= f) := by
  rcases r with - | s'
  · exact h
  · exact hf s' (h s' rfl)

theorem cursorShow (h : s.EditsAll r) : s.EditsAll (r >>= Session.cursorShow) :=
  h.bind fun _ hs' => hs'.cursorShow

end EditsAll

variable {s : Session}

/-- Another place in the history, and another line kept for when it is left. -/
theorem browse_keeps (h : s.shell.Bounded) {liveBuf : Vector Char BUF_CAP}
    {liveLen histCursor : Nat} (hlive : liveLen ≤ BUF_CAP)
    (hcursor : histCursor ≤ s.shell.available) :
    s.Keeps (s.withShell { s.shell with
      liveBuf := liveBuf, liveLen := liveLen, histCursor := histCursor }) :=
  ⟨⟨h.cursor, h.len, hlive, h.hist, hcursor⟩, rfl, rfl, rfl, rfl⟩

theorem insertChar_edits (h : s.shell.Bounded) (ch : Char) : s.EditsAll (s.insertChar ch) := by
  rcases Nat.lt_or_ge s.shell.len BUF_CAP with hroom | hfull
  · rcases Nat.lt_or_eq_of_le h.cursor with hmid | hend
    · obtain ⟨buf, -, heq⟩ := insertChar_middle hmid hroom ch
      rw [heq]
      exact (((Edits.refl h).edit buf (Nat.le_succ_of_le hmid) hroom).onWriter _).all
    · obtain ⟨buf, -, heq⟩ := insertChar_end hroom hend ch
      rw [heq]
      exact (((Edits.refl h).edit buf (Nat.le_refl _) hroom).onWriter _).all
  · rw [insertChar_full h (Nat.le_antisymm h.len hfull)]
    exact ((Edits.refl h).onWriter _).all

theorem backspace_edits (h : s.shell.Bounded) : s.EditsAll s.backspace := by
  have hlen := h.len
  rcases Nat.eq_zero_or_pos s.shell.cursorPos with hzero | hpos
  · rw [backspace_start hzero]
    exact (Edits.refl h).all
  · rcases Nat.lt_or_eq_of_le h.cursor with hmid | hend
    · obtain ⟨buf, -, heq⟩ := backspace_middle hpos hmid h.len
      rw [heq]
      exact (((Edits.refl h).edit buf (by omega) (by omega)).onWriter _).all
    · rw [backspace_end (by omega) hend]
      exact (((Edits.refl h).edit _ (Nat.le_refl _) (by omega)).onWriter _).all

theorem cursorLeft_edits (h : s.shell.Bounded) : s.EditsAll s.cursorLeft := by
  rw [cursorLeft_eq]
  split
  · exact (Edits.refl h).all
  · exact (Edits.refl h).moveCursor (Nat.le_trans (Nat.sub_le _ 1) h.cursor)

theorem cursorRight_edits (h : s.shell.Bounded) : s.EditsAll s.cursorRight := by
  have hcursor := h.cursor
  unfold cursorRight
  split
  · exact (Edits.refl h).all
  · exact (Edits.refl h).moveCursor (by omega)

theorem ctrlU_edits (h : s.shell.Bounded) : s.Edits s.ctrlU :=
  ((Edits.refl h).edit s.shell.buf (Nat.le_refl 0) (Nat.zero_le _)).onWriter _

theorem ctrlC_keeps (h : s.shell.Bounded) : s.KeepsAll s.ctrlC := by
  have hstart : s.Keeps ({ s.print ['^', 'C', '\n'] with
      shell := { s.shell with len := 0, cursorPos := 0, histCursor := 0 } } : Session) :=
    ⟨⟨Nat.le_refl 0, Nat.zero_le _, h.live, h.hist, Nat.zero_le _⟩, rfl, rfl, rfl, rfl⟩
  intro s' hs'
  exact hstart.trans ((Edits.refl hstart.bounded).printPrompt s' hs').toKeeps

/-- A prompt with the line printed again behind it. -/
theorem reprint_edits (h : s.shell.Bounded) (f : Writer → Writer) :
    s.EditsAll ((s.onWriter f).printPrompt >>= fun s => s.printFrom 0 >>= cursorShow) := by
  apply (((Edits.refl h).onWriter f).printPrompt).bind
  intro s' hs'
  exact (hs'.printFrom 0).cursorShow

/-- One of the loops of ^W, wherever the cursor is. -/
theorem eraseBack_edits (p : Char → Bool) (n : Nat) : ∀ s' : Session, s'.shell.len = n →
    s.Edits s' → s.EditsAll (s'.eraseBack p n) := by
  induction n with
  | zero =>
      intro s' _ h
      exact h.all
  | succ n ih =>
      intro s' hlen h
      have hcap := h.bounded.len
      rw [eraseBack]
      rcases s'.shell.buf[n]? with - | ch
      · intro t ht
        exact absurd ht (by simp)
      · rw [Option.bind_eq_bind, Option.bind_some]
        split
        · apply ih
          · rfl
          · exact (h.edit s'.shell.buf (Nat.le_refl n) (by omega)).onWriter _
        · exact h.all

theorem ctrlW_edits (h : s.shell.Bounded) : s.EditsAll s.ctrlW := by
  unfold ctrlW
  apply (eraseBack_edits _ _ s rfl (Edits.refl h)).bind
  intro s' hs'
  exact eraseBack_edits _ _ s' rfl hs'

/-- A recall, once the place in the history has changed. -/
theorem Keeps.recall {s₀ : Session} (h : s.Keeps s₀) {t : Text} {r : Option Session}
    (hload : s₀.Loads t r) : s.KeepsAll (r >>= cursorShow) := by
  intro s' hs'
  exact h.trans (((Edits.refl h.bounded).loads hload).cursorShow s' hs').toKeeps

theorem historyUp_keeps (h : s.shell.Bounded) : s.KeepsAll s.historyUp := by
  rcases Nat.lt_or_ge s.shell.histCursor s.shell.available with hmore | hdone
  · obtain ⟨liveBuf, liveLen, hlive, -, r, heq, hload⟩ := historyUp_eq h hmore
    rw [heq]
    exact (browse_keeps h hlive hmore).recall hload
  · have heq : s.historyUp = some s := if_pos hdone
    rw [heq]
    exact fun s' hs' => ((Edits.refl h).all s' hs').toKeeps

theorem historyDown_keeps (h : s.shell.Bounded) : s.KeepsAll s.historyDown := by
  rcases Nat.eq_zero_or_pos s.shell.histCursor with hzero | hback
  · have heq : s.historyDown = some s := if_pos hzero
    rw [heq]
    exact fun s' hs' => ((Edits.refl h).all s' hs').toKeeps
  · obtain ⟨r, heq, hload⟩ := historyDown_eq h hback
    have hcursor : s.shell.histCursor - 1 ≤ s.shell.available :=
      Nat.le_trans (Nat.sub_le _ 1) h.browse
    rw [heq]
    exact (browse_keeps h h.live hcursor).recall hload

theorem complete_edits (commands : List Cmd) (h : s.shell.Bounded) :
    s.EditsAll (s.complete commands) := by
  unfold complete
  rw [upTo_eq h.len, Option.bind_eq_bind, Option.bind_some]
  rcases completion commands s.globals (text s.shell.buf s.shell.len) with - | c
  · intro t ht
    exact absurd ht (by simp)
  · rw [Option.bind_eq_bind, Option.bind_some]
    rcases c with - | rest | names
    · exact (Edits.refl h).all
    · obtain ⟨buf, n, hn, -, heq⟩ := typeRest_eq h.len rest
      have hlen := h.len
      have hcap : n ≤ BUF_CAP := by
        rw [hn, List.length_take]
        omega
      show s.EditsAll (s.typeRest rest)
      rw [heq]
      exact (((Edits.refl h).edit buf (Nat.le_refl n) hcap).onWriter _).all
    · exact reprint_edits h _

/-- The keys that leave the line for another one. -/
def Leaves (ch : Char) : Prop := ch = '\n' ∨ ch = '\x03' ∨ ch = '\x0e' ∨ ch = '\x10'

instance (ch : Char) : Decidable (Leaves ch) := inferInstanceAs (Decidable (_ ∨ _))

/-- **Every key that edits** changes the line and the screen only. -/
theorem pushChar_edits (commands : List Cmd) (h : s.shell.Bounded) {ch : Char}
    (hstay : ¬ Leaves ch) : s.EditsAll (s.pushChar commands ch) := by
  unfold pushChar
  split
  · exact (backspace_edits h).cursorShow
  · exact absurd (by decide) hstay
  · exact (complete_edits commands h).cursorShow
  · exact ((Edits.refl h).moveCursor (Nat.zero_le _)).cursorShow
  · exact (cursorLeft_edits h).cursorShow
  · exact absurd (by decide) hstay
  · exact ((Edits.refl h).moveCursor (Nat.le_refl _)).cursorShow
  · exact (cursorRight_edits h).cursorShow
  · exact (reprint_edits h Writer.clear).cursorShow
  · exact absurd (by decide) hstay
  · exact absurd (by decide) hstay
  · exact (ctrlU_edits h).cursorShow
  · exact (ctrlW_edits h).cursorShow
  · exact insertChar_edits h ch

/-- A handler that leaves the ring alone, with the cursor shown behind it. -/
theorem KeepsAll.cursorShow {r : Option Session} (h : s.KeepsAll r) :
    s.KeepsAll (r >>= Session.cursorShow) := by
  intro s' hs'
  obtain ⟨s₁, rfl, hshow⟩ := Option.bind_eq_some_iff.mp hs'
  have h₁ := h s₁ rfl
  exact h₁.trans ((Edits.refl h₁.bounded).cursorShow s' hshow).toKeeps

/-- **Every key but Enter** leaves the ring alone. -/
theorem pushChar_keeps (commands : List Cmd) (h : s.shell.Bounded) {ch : Char} (hline : ch ≠ '\n') :
    s.KeepsAll (s.pushChar commands ch) := by
  by_cases hleaves : Leaves ch
  · rcases hleaves with rfl | rfl | rfl | rfl
    · exact absurd rfl hline
    · exact (ctrlC_keeps h).cursorShow
    · exact (historyDown_keeps h).cursorShow
    · exact (historyUp_keeps h).cursorShow
  · exact fun s' hs' => (pushChar_edits commands h hleaves s' hs').toKeeps

/-! ### Enter -/

/-- Within bounds, the ring holds the lines recorded. -/
structure Ring (s : Session) : Prop where
  bounded : s.shell.Bounded
  recorded : s.shell.Recorded s.recorded

theorem Keeps.ring {s' : Session} (h : s.Ring) (hkeeps : s.Keeps s') : s'.Ring := by
  refine ⟨hkeeps.bounded, ?_, ?_⟩
  · rw [hkeeps.histCount, recorded, hkeeps.dispatched]
    exact h.recorded.count
  · intro i t hget hcap
    rw [recorded, hkeeps.dispatched] at hget hcap
    rw [← h.recorded.entries i t hget hcap, Shell.entry, hkeeps.history, hkeeps.histLen]
    rfl

/-- The shell that Enter hands to the commands has the line in its ring. -/
theorem Ring.record (h : s.Ring) :
    ∃ shell : Shell, s.shell.record = some shell ∧
      shell.Recorded (Editor.record s.recorded s.shell.line) ∧
      ({ shell with histCursor := 0, len := 0, cursorPos := 0 } : Shell).Bounded := by
  obtain ⟨history, histLen, histCount, hrecord, hlens, -⟩ := Shell.record_eq h.bounded
  exact ⟨_, hrecord, h.recorded.record h.bounded hrecord,
    ⟨Nat.le_refl 0, Nat.zero_le _, h.bounded.live, hlens, Nat.zero_le _⟩⟩

theorem recorded_concat (s : Session) (line : Text) :
    (s.dispatched ++ [line]).foldl Editor.record [] = Editor.record s.recorded line :=
  List.foldl_concat _ _ _ _

theorem Ring.submit (h : s.Ring) (commands : List Cmd) :
    ∀ s', s.submit commands = some s' → s'.Ring := by
  obtain ⟨shell, hrecord, hring, hbounded⟩ := h.record
  obtain ⟨shell', hrecord', heq⟩ := submit_eq commands h.bounded
  obtain rfl : shell = shell' := Option.some.inj (hrecord.symm.trans hrecord')
  rw [heq]
  intro s' hs'
  refine ((Edits.refl ?_).printPrompt s' hs').toKeeps.ring ⟨hbounded, ?_⟩
  · exact hbounded
  · show Shell.Recorded _ ((s.dispatched ++ [s.shell.line]).foldl Editor.record [])
    rw [recorded_concat]
    exact ⟨hring.count, hring.entries⟩

theorem Ring.key (h : s.Ring) (commands : List Cmd) (ch : Char) :
    ∀ s', s.pushChar commands ch = some s' → s'.Ring := by
  intro s' hs'
  by_cases hline : ch = '\n'
  · subst hline
    obtain ⟨s₁, hsubmit, hshow⟩ := Option.bind_eq_some_iff.mp
      (show (s.submit commands).bind Session.cursorShow = some s' from hs')
    have h₁ := h.submit commands s₁ hsubmit
    exact ((Edits.refl h₁.bounded).cursorShow s' hshow).toKeeps.ring h₁
  · exact (pushChar_keeps commands h.bounded hline s' hs').ring h

theorem new_ring (writer : Option Writer) (g : Globals) : (new writer g).Ring where
  bounded := Shell.new_bounded
  recorded := by
    refine ⟨rfl, ?_⟩
    intro i t hget
    exact absurd hget (by simp [recorded, new])

/-! ### `history` -/

/-- The last `count` lines of a list, oldest first, each with its position. -/
def historyRows (lines : List Text) (count : Nat) : List Writer.Op :=
  ((lines.zipIdx 1).drop (lines.length - count)).map fun e => historyRow e.2 e.1

/-- The slots `history` reads, by position. -/
theorem slot_add (start i : Nat) : Shell.slot (start % HIST_CAP + i) = Shell.slot (start + i) :=
  Fin.ext (Nat.mod_add_mod start HIST_CAP i)

theorem historyRows_eq {shell : Shell} {lines : List Text} (h : shell.Recorded lines) {count : Nat}
    (hcap : count ≤ HIST_CAP) (hcount : count ≤ lines.length) :
    ((List.range count).map fun i => historyRow (lines.length - count + 1 + i)
        (shell.entry (Shell.slot (lines.length - count + i))))
      = historyRows lines count := by
  apply List.ext_getElem
  · simp only [historyRows, List.length_map, List.length_range, List.length_drop,
      List.length_zipIdx]
    omega
  · intro i hi _
    rw [List.length_map, List.length_range] at hi
    have hlt : lines.length - count + i < lines.length := by omega
    have hentry := h.entries _ _ (List.getElem?_eq_getElem hlt) (by omega)
    simp only [historyRows, List.getElem_map, List.getElem_range, List.getElem_drop,
      List.getElem_zipIdx]
    rw [hentry, show lines.length - count + 1 + i = 1 + (lines.length - count + i) by omega]

/-- What `history n` prints off a ring. -/
theorem cmdHistory_eq {shell : Shell} {lines : List Text} (h : shell.Recorded lines) (g : Globals)
    (n : Nat) :
    cmdHistory shell g (some (Text.decimal n))
      = (g, historyRows lines (min n (min HIST_CAP lines.length))) := by
  have hcap : HIST_CAP = 16 := rfl
  have hlimit : min ((Text.usizeFromRadix 10 (Text.trim (Text.decimal n))).getD
      (min shell.histCount HIST_CAP)) (min shell.histCount HIST_CAP)
        = min n (min HIST_CAP lines.length) := by
    rw [(PlainWord.decimal n).trim, Text.usizeFromRadix_decimal, h.count]
    by_cases hfit : n < 2 ^ 64
    · rw [if_pos hfit, Option.getD_some, Nat.min_comm lines.length]
    · rw [if_neg hfit, Option.getD_none]
      omega
  unfold cmdHistory
  dsimp only
  rw [hlimit, h.count]
  by_cases hzero : min lines.length HIST_CAP = 0
  · have hnil : lines = [] := List.eq_nil_of_length_eq_zero (by omega)
    rw [if_pos hzero, hnil]
    simp [historyRows]
  · rw [if_neg hzero, ← historyRows_eq h (by omega) (by omega)]
    congr 2
    funext i
    rw [slot_add]
    congr 2
    · omega
    · congr 1
      omega

/-- The line `history n`. -/
def historyLine (n : Nat) : Text :=
  ['h', 'i', 's', 't', 'o', 'r', 'y'] ++ ' ' :: Text.decimal n

theorem history_plain : PlainWord ['h', 'i', 's', 't', 'o', 'r', 'y'] where
  ne_nil := by simp
  chars := by simp [Text.isWhitespace]

theorem dispatch_history (out : Text → Shell → Globals → Option Text → List Writer.Op)
    (shell : Shell) (g : Globals) (n : Nat) :
    dispatchLine (COMMANDS out) shell g (historyLine n)
      = cmdHistory shell g (some (Text.decimal n)) := by
  have hentry : (COMMANDS out).find? (fun e => ['h', 'i', 's', 't', 'o', 'r', 'y'] == e.name)
      = some ⟨"history".toList, "history [n]".toList, cmdHistory⟩ := rfl
  exact history_plain.dispatchLine (PlainWord.decimal n) hentry shell g

/--
**The ring is the end of the session's command list.**  After any keys, the ring has
counted the lines recorded, its slots hold the last of them, and `history n` entered in
that state prints the last `n` of them, as far as the ring goes, its own line included.
-/
theorem history_ring (out : Text → Shell → Globals → Option Text → List Writer.Op)
    {writer : Option Writer} {g : Globals} {s : Session} {trace : List (Session × Char)}
    (hrun : Run (Accepts (pushChar (COMMANDS out))) (new writer g) trace s) :
    s.shell.histCount = s.recorded.length ∧
    (∀ k, 1 ≤ k → k ≤ min s.recorded.length HIST_CAP →
      some (s.shell.entry (Shell.slot (s.shell.histCount - k)))
        = s.recorded[s.recorded.length - k]?) ∧
    (∀ n g', ∃ shell : Shell, s.shell.record = some shell ∧
      cmdHistory { shell with histCursor := 0 } g' (some (Text.decimal n))
        = (g', historyRows (Editor.record s.recorded s.shell.line)
            (min n (min HIST_CAP (Editor.record s.recorded s.shell.line).length)))) ∧
    (∀ n, s.shell.line = historyLine n → ∃ shell : Shell, s.shell.record = some shell ∧
      s.submit (COMMANDS out)
        = (({ s with
          shell := { shell with histCursor := 0, len := 0, cursorPos := 0 }
          dispatched := s.dispatched ++ [historyLine n] }.print ['\n']).perform
            (historyRows (Editor.record s.recorded (historyLine n))
              (min n (min HIST_CAP (Editor.record s.recorded (historyLine n)).length)))
          ).printPrompt) := by
  have hring : s.Ring := hrun.always (new_ring writer g) fun t ch t' ht hs => ht.key _ ch t' hs
  obtain ⟨shell, hrecord, hnext, -⟩ := hring.record
  have hprints : ∀ n g', cmdHistory { shell with histCursor := 0 } g' (some (Text.decimal n))
      = (g', historyRows (Editor.record s.recorded s.shell.line)
          (min n (min HIST_CAP (Editor.record s.recorded s.shell.line).length))) := by
    intro n g'
    exact cmdHistory_eq ⟨hnext.count, hnext.entries⟩ g' n
  refine ⟨hring.recorded.count, ?_, fun n g' => ⟨shell, hrecord, hprints n g'⟩, ?_⟩
  · intro k hk hle
    have hlt : s.recorded.length - k < s.recorded.length := by omega
    rw [hring.recorded.count, List.getElem?_eq_getElem hlt]
    exact congrArg some (hring.recorded.entries _ _ (List.getElem?_eq_getElem hlt) (by omega))
  · intro n hn
    obtain ⟨shell', hrecord', hsubmit⟩ := submit_eq (COMMANDS out) hring.bounded
    obtain rfl : shell = shell' := Option.some.inj (hrecord.symm.trans hrecord')
    refine ⟨shell, hrecord, ?_⟩
    rw [hsubmit, hn, dispatch_history, ← hn, hprints]

/-- Two lines entered in turn, and the last of them once more: eighteen lines and a repetition,
more than the ring has places. -/
def inTurn : List Char := (List.replicate 9 ['a', '\n', 'b', '\n']).flatten ++ ['b', '\n']

theorem history_ring_repeat :
    ∃ (trace : List (Session × Char)) (s : Session),
      Run (Accepts (pushChar (COMMANDS fun _ _ _ _ => []))) (new none ⟨[], [], [], none⟩) trace s ∧
      trace.map Prod.snd = inTurn ∧
      s.recorded = (List.replicate 9 [['a'], ['b']]).flatten ∧ s.shell.histCount = 18 ∧
        some (s.shell.entry (Shell.slot (s.shell.histCount - 1))) = some ['b'] ∧
        some (s.shell.entry (Shell.slot (s.shell.histCount - 16))) = some ['a'] := by
  obtain ⟨trace, s, hrun, hkeys, hlines⟩ :=
    exists_run (pushChar (COMMANDS fun _ _ _ _ => [])) (new none ⟨[], [], [], none⟩)
      inTurn (fun _ s => s.recorded = (List.replicate 9 [['a'], ['b']]).flatten)
      (by decide +kernel)
  obtain ⟨hcount, hentries, -⟩ := history_ring (fun _ _ _ _ => []) hrun
  rw [hlines] at hcount hentries
  exact ⟨trace, s, hrun, hkeys, hlines, hcount, hentries 1 (by decide) (by decide),
    hentries 16 (by decide) (by decide)⟩

end Session

end Amaterasu
