/-
The screen is written and not read.

The writer is a global that any code may paint on: the timer blinks the cursor, `drain`
announces the first USB report in the middle of a line, a command prints what it likes.
None of it comes back.  `Alike` says of two sessions that they differ at most in what is
on their screens and where on them the prompt is; keys keep it, and a session fails on a
key exactly when the other does, whatever the two commands of one name print.
-/
import Amaterasu.Lib.Lockstep
import Amaterasu.Shell.Commands

namespace Amaterasu

open FixedBuffer

/-- Two entries of the table that do the same to the globals, whatever they print. -/
structure Cmd.SameEffect (c c' : Cmd) : Prop where
  name : c.name = c'.name
  effect : ∀ s s' g arg, (c.run s g arg).1 = (c'.run s' g arg).1

namespace Session

/-- A session on another screen. -/
def elsewhere (s : Session) (writer : Option Writer) (promptCol : Nat)
    (promptLine : Nat → Char) : Session :=
  { s with
    shell := { s.shell with promptCol := promptCol }
    writer := writer
    promptLine := promptLine }

/-- Two sessions that are the same but for the screen. -/
def Alike (s t : Session) : Prop :=
  ∃ writer promptCol promptLine, t = s.elsewhere writer promptCol promptLine

/-- Two outcomes: both are a panic, or both are sessions that are the same but for the
screen. -/
abbrev AlikeResults : Option Session → Option Session → Prop := Option.Rel Alike

namespace Alike

variable {s t : Session} {commands commands' : List Cmd}

theorem refl (s : Session) : s.Alike s := ⟨s.writer, s.shell.promptCol, s.promptLine, rfl⟩

theorem globals (h : s.Alike t) : t.globals = s.globals := by
  obtain ⟨w, p, l, rfl⟩ := h
  rfl

theorem dispatched (h : s.Alike t) : t.dispatched = s.dispatched := by
  obtain ⟨w, p, l, rfl⟩ := h
  rfl

theorem line (h : s.Alike t) : t.shell.line = s.shell.line := by
  obtain ⟨w, p, l, rfl⟩ := h
  rfl

/-! ### Painting -/

theorem paint (h : s.Alike t) (f g : Writer → Writer) : (s.onWriter f).Alike (t.onWriter g) := by
  obtain ⟨w, p, l, rfl⟩ := h
  exact ⟨_, _, _, rfl⟩

theorem paint_right (h : s.Alike t) (f : Writer → Writer) : s.Alike (t.onWriter f) := by
  obtain ⟨w, p, l, rfl⟩ := h
  exact ⟨_, _, _, rfl⟩

theorem cursorShow (h : s.Alike t) : AlikeResults s.cursorShow t.cursorShow := by
  obtain ⟨w, p, l, rfl⟩ := h
  exact Lockstep.same (r := s.shell.cursorChar) fun ch _ => .some ⟨_, _, _, rfl⟩

theorem bind_cursorShow {r r' : Option Session} (h : AlikeResults r r') :
    AlikeResults (r >>= Session.cursorShow) (r' >>= Session.cursorShow) :=
  Lockstep.bind h fun _ _ h => h.cursorShow

theorem printFrom (h : s.Alike t) (start : Nat) :
    AlikeResults (s.printFrom start) (t.printFrom start) := by
  obtain ⟨w, p, l, rfl⟩ := h
  refine Lockstep.foldlM (P := Eq) ?_ (List.forall₂_refl _) ⟨w, p, l, rfl⟩
  rintro a b i _ ⟨w, p, l, rfl⟩ rfl
  exact Lockstep.same (r := a.shell.buf[i]?) fun ch _ => .some ⟨_, _, _, rfl⟩

theorem redrawFrom (h : s.Alike t) (start : Nat) :
    AlikeResults (s.redrawFrom start) (t.redrawFrom start) := by
  refine Lockstep.bind ((h.paint _ _).printFrom start) fun a b hab => ?_
  exact ((hab.paint _ _).paint _ _).cursorShow

theorem printPrompt (h : s.Alike t) : AlikeResults s.printPrompt t.printPrompt := by
  obtain ⟨w, p, l, rfl⟩ := h
  refine Lockstep.map (R := Alike) (cursorShow ⟨_, _, l, rfl⟩) fun a b hab => ?_
  obtain ⟨w, p, l, rfl⟩ := hab
  exact ⟨_, _, _, rfl⟩

/-! ### Editing -/

theorem insertChar (h : s.Alike t) (ch : Char) :
    AlikeResults (s.insertChar ch) (t.insertChar ch) := by
  obtain ⟨w, p, l, rfl⟩ := h
  unfold Session.insertChar elsewhere
  dsimp only
  split
  · split
    · refine Lockstep.same fun buf _ => ?_
      exact (paint ⟨_, _, l, rfl⟩ _ _).cursorShow
    · refine Lockstep.same fun buf _ => Lockstep.same fun buf' _ => ?_
      exact redrawFrom ⟨_, _, _, rfl⟩ _
  · exact cursorShow ⟨_, _, _, rfl⟩

theorem backspace (h : s.Alike t) : AlikeResults s.backspace t.backspace := by
  obtain ⟨w, p, l, rfl⟩ := h
  unfold Session.backspace elsewhere
  dsimp only
  split
  · exact .some ⟨_, _, _, rfl⟩
  · split
    · refine Lockstep.same fun n _ => Lockstep.same fun k _ => ?_
      exact .some ⟨_, _, _, rfl⟩
    · refine Lockstep.same fun d _ => Lockstep.same fun buf _ => Lockstep.same fun n _ => ?_
      exact redrawFrom ⟨_, _, _, rfl⟩ _

theorem moveCursor (h : s.Alike t) (k : Nat) : AlikeResults (s.moveCursor k) (t.moveCursor k) := by
  obtain ⟨w, p, l, rfl⟩ := h
  exact cursorShow ⟨_, _, _, rfl⟩

theorem cursorLeft (h : s.Alike t) : AlikeResults s.cursorLeft t.cursorLeft := by
  obtain ⟨w, p, l, rfl⟩ := h
  unfold Session.cursorLeft elsewhere
  dsimp only
  split
  · exact .some ⟨_, _, _, rfl⟩
  · exact Lockstep.same fun k _ => moveCursor ⟨_, _, _, rfl⟩ k

theorem cursorRight (h : s.Alike t) : AlikeResults s.cursorRight t.cursorRight := by
  obtain ⟨w, p, l, rfl⟩ := h
  unfold Session.cursorRight elsewhere
  dsimp only
  split
  · exact .some ⟨_, _, _, rfl⟩
  · exact moveCursor ⟨_, _, _, rfl⟩ _

theorem cursorToEnd (h : s.Alike t) : AlikeResults s.cursorToEnd t.cursorToEnd := by
  obtain ⟨w, p, l, rfl⟩ := h
  exact moveCursor ⟨w, p, l, rfl⟩ _

theorem eraseLine (h : s.Alike t) : s.eraseLine.Alike t.eraseLine := by
  obtain ⟨w, p, l, rfl⟩ := h
  exact ⟨_, _, _, rfl⟩

theorem ctrlC (h : s.Alike t) : AlikeResults s.ctrlC t.ctrlC := by
  obtain ⟨w, p, l, rfl⟩ := h
  unfold Session.ctrlC
  exact printPrompt ⟨_, p, l, rfl⟩

theorem ctrlL (h : s.Alike t) : AlikeResults s.ctrlL t.ctrlL := by
  refine Lockstep.bind (h.paint _ _).printPrompt fun a b hab => ?_
  exact bind_cursorShow (hab.printFrom 0)

theorem eraseBack (p : Char → Bool) (n : Nat) : ∀ {s t : Session}, s.Alike t →
    AlikeResults (s.eraseBack p n) (t.eraseBack p n) := by
  induction n with
  | zero =>
      intro s t h
      exact .some h
  | succ n ih =>
      rintro s t ⟨w, c, l, rfl⟩
      refine Lockstep.same (r := s.shell.buf[n]?) fun ch _ => ?_
      split
      · exact ih ⟨_, _, _, rfl⟩
      · exact .some ⟨_, _, _, rfl⟩

theorem ctrlW (h : s.Alike t) : AlikeResults s.ctrlW t.ctrlW := by
  obtain ⟨w, p, l, rfl⟩ := h
  refine Lockstep.bind (eraseBack _ _ ⟨w, p, l, rfl⟩) fun a b hab => ?_
  obtain ⟨w, p, l, rfl⟩ := hab
  exact eraseBack _ _ ⟨w, p, l, rfl⟩

/-! ### History -/

theorem loadLine (h : s.Alike t) (src : Vector Char BUF_CAP) (len : Nat) :
    AlikeResults (s.loadLine src len) (t.loadLine src len) := by
  obtain ⟨w, p, l, rfl⟩ := h
  refine Lockstep.same fun line _ => ?_
  refine Lockstep.same (r := overwrite s.shell.buf line) fun buf _ => ?_
  exact printFrom ⟨_, _, _, rfl⟩ 0

theorem loadHistoryEntry (h : s.Alike t) :
    AlikeResults s.loadHistoryEntry t.loadHistoryEntry := by
  obtain ⟨w, p, l, rfl⟩ := h
  refine Lockstep.same (r := checkedSub s.shell.histCount s.shell.histCursor) fun back _ => ?_
  refine Lockstep.same (r := s.shell.histLen[back % HIST_CAP]?) fun len _ => ?_
  refine Lockstep.same (r := s.shell.history[back % HIST_CAP]?) fun entry _ => ?_
  exact loadLine ⟨w, p, l, rfl⟩ entry len

/-- `saveLive` looks at the line and keeps it. -/
theorem saveLive_elsewhere (shell : Shell) (p : Nat) :
    ({ shell with promptCol := p } : Shell).saveLive
      = shell.saveLive.map fun shell => { shell with promptCol := p } := by
  unfold Shell.saveLive
  dsimp only
  split
  · cases upTo shell.buf shell.len with
    | none => rfl
    | some line =>
        show (overwrite shell.liveBuf line).bind _
          = Option.map _ ((overwrite shell.liveBuf line).bind _)
        cases overwrite shell.liveBuf line <;> rfl
  · rfl

theorem historyUp (h : s.Alike t) : AlikeResults s.historyUp t.historyUp := by
  obtain ⟨w, p, l, rfl⟩ := h
  unfold Session.historyUp
  by_cases hmore : s.shell.histCursor ≥ s.shell.available
  · rw [if_pos hmore, if_pos (show (s.elsewhere w p l).shell.histCursor
      ≥ (s.elsewhere w p l).shell.available from hmore)]
    exact .some ⟨_, _, _, rfl⟩
  · rw [if_neg hmore, if_neg (show ¬ (s.elsewhere w p l).shell.histCursor
      ≥ (s.elsewhere w p l).shell.available from hmore)]
    rw [show (s.elsewhere w p l).shell.saveLive = _ from saveLive_elsewhere s.shell p]
    cases s.shell.saveLive with
    | none => exact .none
    | some shell => exact bind_cursorShow (loadHistoryEntry ⟨_, _, _, rfl⟩)

theorem historyDown (h : s.Alike t) : AlikeResults s.historyDown t.historyDown := by
  obtain ⟨w, p, l, rfl⟩ := h
  unfold Session.historyDown elsewhere
  dsimp only
  split
  · exact .some ⟨_, _, _, rfl⟩
  · refine Lockstep.same fun histCursor _ => ?_
    split
    · exact bind_cursorShow (loadLine ⟨_, _, _, rfl⟩ _ _)
    · exact bind_cursorShow (loadHistoryEntry ⟨_, _, _, rfl⟩)

/-! ### Dispatch -/

/-- A table with the same names and the same effects sends a segment to the same command. -/
theorem find_sameEffect (h : List.Forall₂ Cmd.SameEffect commands commands') (cmd : Text) :
    Option.Rel Cmd.SameEffect (commands.find? fun entry => Words.nameEq cmd entry.name)
      (commands'.find? fun entry => Words.nameEq cmd entry.name) := by
  induction h with
  | nil => exact .none
  | @cons c c' commands commands' hc _ ih =>
      rw [List.find?_cons, List.find?_cons, ← hc.name]
      cases Words.nameEq cmd c.name with
      | true => exact .some hc
      | false => exact ih

theorem dispatchOne (h : List.Forall₂ Cmd.SameEffect commands commands') (shell shell' : Shell)
    (g : Globals) (seg : Text) :
    (Session.dispatchOne commands shell g seg).1
      = (Session.dispatchOne commands' shell' g seg).1 := by
  unfold Session.dispatchOne
  dsimp only
  by_cases hnil : Words.expand g (Text.trim seg) = []
  · rw [if_pos hnil, if_pos hnil]
  · rw [if_neg hnil, if_neg hnil]
    have hfind := find_sameEffect h (Words.expand g (Text.trim seg))
    generalize commands.find? _ = r at hfind
    generalize commands'.find? _ = r' at hfind
    cases hfind with
    | none => rfl
    | some hc => exact hc.effect _ _ _ _

theorem dispatchLine (h : List.Forall₂ Cmd.SameEffect commands commands') (shell shell' : Shell)
    (g : Globals) (input : Text) :
    (Session.dispatchLine commands shell g input).1
      = (Session.dispatchLine commands' shell' g input).1 := by
  unfold Session.dispatchLine
  refine List.foldl_rel (r := fun a b : Globals × List Writer.Op => a.1 = b.1) rfl ?_
  rintro seg - ⟨g, ops⟩ ⟨-, ops'⟩ rfl
  dsimp only
  split
  · rfl
  · exact dispatchOne h shell shell' g _

theorem dispatch (h : s.Alike t) (hcommands : List.Forall₂ Cmd.SameEffect commands commands') :
    AlikeResults (s.dispatch commands) (t.dispatch commands') := by
  obtain ⟨w, p, l, rfl⟩ := h
  refine Lockstep.same (r := upTo s.shell.buf s.shell.len) fun input _ => ?_
  refine .some (paint ⟨w, p, l, ?_⟩ _ _)
  have heffect := dispatchLine hcommands s.shell (s.elsewhere w p l).shell s.globals input
  unfold elsewhere at heffect ⊢
  dsimp only
  rw [heffect]

/-- `record` looks at the line and at the history. -/
theorem record_elsewhere (shell : Shell) (p : Nat) :
    ({ shell with promptCol := p } : Shell).record
      = shell.record.map fun shell => { shell with promptCol := p } := by
  unfold Shell.record
  dsimp only
  split
  · show shell.isDup.bind _ = Option.map _ (shell.isDup.bind _)
    rcases shell.isDup with _ | dup
    · rfl
    · cases dup with
      | true => rfl
      | false =>
          simp only [Option.bind_some, Option.bind_eq_bind, Bool.false_eq_true, if_false,
            Option.map_bind, Function.comp_def, Option.map_some]
  · rfl

theorem submit (h : s.Alike t) (hcommands : List.Forall₂ Cmd.SameEffect commands commands') :
    AlikeResults (s.submit commands) (t.submit commands') := by
  obtain ⟨w, p, l, rfl⟩ := h
  unfold Session.submit
  dsimp only
  rw [show ((s.elsewhere w p l).print ['\n']).shell.record = _ from
    record_elsewhere (s.print ['\n']).shell p]
  cases (s.print ['\n']).shell.record with
  | none => exact .none
  | some shell =>
      refine Lockstep.bind (dispatch ⟨_, p, l, rfl⟩ hcommands) fun a b hab => ?_
      obtain ⟨w, p, l, rfl⟩ := hab
      exact printPrompt ⟨w, p, l, rfl⟩

/-! ### Completion -/

theorem typeRest (h : s.Alike t) (rest : Text) :
    AlikeResults (s.typeRest rest) (t.typeRest rest) := by
  refine Lockstep.bind (R := Alike) (Lockstep.foldlM (P := Eq) ?_ (List.forall₂_refl _) h) ?_
  · rintro a b ch - ⟨w, p, l, rfl⟩ rfl
    unfold Session.typeChar elsewhere
    dsimp only
    split
    · exact Lockstep.same fun buf _ => .some ⟨_, _, _, rfl⟩
    · exact .some ⟨_, _, _, rfl⟩
  · rintro a b ⟨w, p, l, rfl⟩
    exact .some ⟨_, _, _, rfl⟩

theorem names_eq (h : List.Forall₂ Cmd.SameEffect commands commands') :
    commands'.map Cmd.name = commands.map Cmd.name := by
  induction h with
  | nil => rfl
  | cons hc _ ih => rw [List.map_cons, List.map_cons, hc.name, ih]

theorem complete (h : s.Alike t) (hcommands : List.Forall₂ Cmd.SameEffect commands commands') :
    AlikeResults (s.complete commands) (t.complete commands') := by
  obtain ⟨w, p, l, rfl⟩ := h
  refine Lockstep.same (r := upTo s.shell.buf s.shell.len) fun line _ => ?_
  have hcompletion : completion commands' s.globals line = completion commands s.globals line := by
    unfold completion
    rw [names_eq hcommands]
  show AlikeResults _ (completion commands' s.globals line >>= _)
  rw [hcompletion]
  refine Lockstep.same fun c _ => ?_
  cases c with
  | nothing => exact .some ⟨w, p, l, rfl⟩
  | append rest => exact typeRest ⟨w, p, l, rfl⟩ rest
  | list names =>
      refine Lockstep.bind (paint ⟨w, p, l, rfl⟩ _ _).printPrompt fun a b hab => ?_
      exact bind_cursorShow (hab.printFrom 0)

/-! ### Keys -/

/-- **One key.**  What is on the screens, and what the commands print there, makes no
difference. -/
theorem pushChar (h : s.Alike t) (hcommands : List.Forall₂ Cmd.SameEffect commands commands')
    (ch : Char) : AlikeResults (s.pushChar commands ch) (t.pushChar commands' ch) := by
  unfold Session.pushChar
  split
  · exact bind_cursorShow h.backspace
  · exact bind_cursorShow (h.submit hcommands)
  · exact bind_cursorShow (h.complete hcommands)
  · exact bind_cursorShow (h.moveCursor 0)
  · exact bind_cursorShow h.cursorLeft
  · exact bind_cursorShow h.ctrlC
  · exact bind_cursorShow h.cursorToEnd
  · exact bind_cursorShow h.cursorRight
  · exact bind_cursorShow h.ctrlL
  · exact bind_cursorShow h.historyDown
  · exact bind_cursorShow h.historyUp
  · exact h.eraseLine.cursorShow
  · exact bind_cursorShow h.ctrlW
  · exact h.insertChar ch

end Alike

/-- The table, whatever its commands print: what `history` reads of the shell it prints, and
nothing else is read. -/
theorem sameEffect_COMMANDS (out out' : Text → Shell → Globals → Option Text → List Writer.Op) :
    List.Forall₂ Cmd.SameEffect (COMMANDS out) (COMMANDS out') := by
  have hprinting : ∀ name usage,
      Cmd.SameEffect (printing out name usage) (printing out' name usage) :=
    fun name usage => ⟨rfl, fun _ _ _ _ => rfl⟩
  have hhistory : ∀ s g arg, (cmdHistory s g arg).1 = g := by
    intro s g arg
    unfold cmdHistory
    dsimp only
    split <;> rfl
  have hlast : Cmd.SameEffect ⟨"history".toList, "history [n]".toList, cmdHistory⟩
      ⟨"history".toList, "history [n]".toList, cmdHistory⟩ := by
    refine ⟨rfl, fun s s' g arg => ?_⟩
    rw [hhistory, hhistory]
  unfold COMMANDS
  repeat' first
    | exact .nil
    | exact hprinting _ _
    | exact hlast
    | exact ⟨rfl, fun _ _ _ _ => rfl⟩
    | refine .cons ?_ ?_

/--
**The screen never feeds back.**  Two sessions typed into alike, one on any screen and one on
any other or on none, with commands that print different things: a key is a panic in both or
in neither, and lines, history, directory, environment and what is dispatched are the same.
-/
theorem screen_never_feeds_back
    (out out' : Text → Shell → Globals → Option Text → List Writer.Op) {s t : Session}
    (h : s.Alike t) (keys : List Char) :
    AlikeResults (keys.foldlM (pushChar (COMMANDS out)) s)
      (keys.foldlM (pushChar (COMMANDS out')) t) := by
  refine Lockstep.foldlM (P := Eq) ?_ (List.forall₂_refl _) h
  rintro a b ch - hab rfl
  exact hab.pushChar (sameEffect_COMMANDS out out') ch

/-- A shell with a screen and one without. -/
theorem screen_never_feeds_back_headless :
    AlikeResults
      (['l', 's', '\n'].foldlM (pushChar (COMMANDS fun _ _ _ _ => [println ['x']]))
        (new (some (Writer.new 80 25 (fun _ _ => ⟨' ', COLOR_FG, COLOR_BG⟩) (by decide)
          (by decide))) ⟨[], [], [], none⟩))
      (['l', 's', '\n'].foldlM (pushChar (COMMANDS fun _ _ _ _ => []))
        (new none ⟨[], [], [], none⟩)) :=
  screen_never_feeds_back _ _ ⟨none, 0, fun _ => ' ', rfl⟩ _

end Session

end Amaterasu
