/-
What a session amounts to.

Keys edit, recall, complete and repaint; Enter hands a line to the commands.  What commands
share, the directories and the variables, is touched by nothing else, so that it is in the end
what the commands that were entered have made of it one after the other, whatever was typed
on the way, on any screen, and however the commands were put on lines.
-/
import Amaterasu.Shell.History
import Amaterasu.Shell.OneWay
import Amaterasu.Shell.Split

namespace Amaterasu

namespace Session

open Words

/-! ### Keys that leave the globals alone -/

/-- Wherever a handler ends, if it does, the globals are these. -/
def Within (g : Globals) (r : Option Session) : Prop := ∀ s, r = some s → s.globals = g

namespace Within

variable {g : Globals} {s : Session} {r : Option Session} {α : Type}

theorem some (h : s.globals = g) : Within g (some s) := by
  intro s' hs'
  rw [← Option.some.inj hs']
  exact h

theorem bind (h : Within g r) {f : Session → Option Session}
    (hf : ∀ s, s.globals = g → Within g (f s)) : Within g (r >>= f) := by
  intro s' hs'
  obtain ⟨s, hs, hf'⟩ := Option.bind_eq_some_iff.mp hs'
  exact hf s (h s hs) s' hf'

/-- What is looked up does not matter. -/
theorem any {x : Option α} {f : α → Option Session} (hf : ∀ a, Within g (f a)) :
    Within g (x >>= f) := by
  intro s' hs'
  obtain ⟨a, _, hf'⟩ := Option.bind_eq_some_iff.mp hs'
  exact hf a s' hf'

theorem cursorShow (h : s.globals = g) : Within g s.cursorShow :=
  any fun _ => some h

theorem shown (h : Within g r) : Within g (r >>= Session.cursorShow) :=
  h.bind fun _ hs => cursorShow hs

theorem printFrom (h : s.globals = g) (start : Nat) : Within g (s.printFrom start) := by
  unfold Session.printFrom
  generalize List.range' start (s.shell.len - start) = l
  induction l generalizing s with
  | nil => exact some h
  | cons i l ih =>
      rw [List.foldlM_cons]
      refine bind (any fun _ => some ?_) fun _ hs => ih hs
      exact h

theorem redrawFrom (h : s.globals = g) (start : Nat) : Within g (s.redrawFrom start) := by
  refine bind (printFrom ?_ start) fun _ hs => cursorShow hs
  exact h

theorem printPrompt (h : s.globals = g) : Within g s.printPrompt := by
  intro s' hs'
  obtain ⟨s₁, hshow, rfl⟩ := Option.map_eq_some_iff.mp hs'
  refine cursorShow ?_ s₁ hshow
  exact h

/-! ### Editing -/

theorem insertChar (h : s.globals = g) (ch : Char) : Within g (s.insertChar ch) := by
  unfold Session.insertChar
  split
  · split
    · exact any fun _ => cursorShow h
    · refine any fun _ => any fun _ => redrawFrom ?_ _
      exact h
  · exact cursorShow h

theorem backspace (h : s.globals = g) : Within g s.backspace := by
  unfold Session.backspace
  split
  · exact some h
  · split
    · exact any fun _ => any fun _ => some h
    · refine any fun _ => any fun _ => any fun _ => redrawFrom ?_ _
      exact h

theorem moveCursor (h : s.globals = g) (k : Nat) : Within g (s.moveCursor k) := by
  refine cursorShow ?_
  exact h

theorem cursorLeft (h : s.globals = g) : Within g s.cursorLeft := by
  unfold Session.cursorLeft
  split
  · exact some h
  · exact any fun _ => moveCursor h _

theorem cursorRight (h : s.globals = g) : Within g s.cursorRight := by
  unfold Session.cursorRight
  split
  · exact some h
  · exact moveCursor h _

theorem ctrlC (h : s.globals = g) : Within g s.ctrlC := by
  unfold Session.ctrlC
  refine printPrompt ?_
  exact h

theorem ctrlL (h : s.globals = g) : Within g s.ctrlL := by
  refine bind (printPrompt ?_) fun _ hs => (printFrom hs 0).shown
  exact h

theorem eraseBack (h : s.globals = g) (p : Char → Bool) (n : Nat) :
    Within g (s.eraseBack p n) := by
  induction n generalizing s with
  | zero => exact some h
  | succ n ih =>
      refine any fun _ => ?_
      split
      · refine ih ?_
        exact h
      · exact some h

theorem ctrlW (h : s.globals = g) : Within g s.ctrlW :=
  (eraseBack h _ _).bind fun _ hs => eraseBack hs _ _

/-! ### Recalling and completing -/

theorem loadLine (h : s.globals = g) (src : Vector Char BUF_CAP) (len : Nat) :
    Within g (s.loadLine src len) := by
  refine any fun _ => any fun _ => printFrom ?_ 0
  exact h

theorem loadHistoryEntry (h : s.globals = g) : Within g s.loadHistoryEntry :=
  any fun _ => any fun _ => any fun _ => loadLine h _ _

theorem historyUp (h : s.globals = g) : Within g s.historyUp := by
  unfold Session.historyUp
  split
  · exact some h
  · refine any fun _ => (loadHistoryEntry ?_).shown
    exact h

theorem historyDown (h : s.globals = g) : Within g s.historyDown := by
  unfold Session.historyDown
  split
  · exact some h
  · refine any fun _ => ?_
    split
    · refine (loadLine ?_ _ _).shown
      exact h
    · refine (loadHistoryEntry ?_).shown
      exact h

theorem typeRest (h : s.globals = g) (rest : Text) : Within g (s.typeRest rest) := by
  have htype : Within g (rest.foldlM typeChar s) := by
    induction rest generalizing s with
    | nil => exact some h
    | cons ch rest ih =>
        rw [List.foldlM_cons]
        refine bind ?_ fun _ hs => ih hs
        unfold typeChar
        split
        · exact any fun _ => some h
        · exact some h
  exact htype.bind fun _ hs => some hs

theorem complete (h : s.globals = g) (commands : List Cmd) : Within g (s.complete commands) := by
  refine any fun _ => any fun c => ?_
  cases c with
  | nothing => exact some h
  | append rest => exact typeRest h rest
  | list names =>
      refine bind (printPrompt ?_) fun _ hs => (printFrom hs 0).shown
      exact h

end Within

/-- **Every key but Enter** leaves the globals alone. -/
theorem pushChar_within {g : Globals} {s : Session} (h : s.globals = g) (commands : List Cmd)
    {ch : Char} (hline : ch ≠ '\n') : Within g (s.pushChar commands ch) := by
  unfold pushChar
  split
  · exact (Within.backspace h).shown
  · exact absurd rfl hline
  · exact (Within.complete h commands).shown
  · exact (Within.moveCursor h 0).shown
  · exact (Within.cursorLeft h).shown
  · exact (Within.ctrlC h).shown
  · exact (Within.moveCursor h _).shown
  · exact (Within.cursorRight h).shown
  · exact (Within.ctrlL h).shown
  · exact (Within.historyDown h).shown
  · exact (Within.historyUp h).shown
  · exact Within.cursorShow h
  · exact (Within.ctrlW h).shown
  · exact Within.insertChar h ch

/-! ### What a line does -/

/-- The globals after a command. -/
def effect (g : Globals) (seg : Text) : Globals :=
  (dispatchOne (COMMANDS fun _ _ _ _ => []) Shell.new g seg).1

theorem effect_blank {seg : Text} (h : Text.trim seg = []) (g : Globals) : effect g seg = g := by
  unfold effect dispatchOne
  dsimp only
  rw [h, expand, if_pos rfl]

theorem effect_trim (g : Globals) (seg : Text) : effect g (Text.trim seg) = effect g seg := by
  unfold effect dispatchOne
  rw [Text.trim_trim]

/-- Whatever its commands print, and whichever shell they are given. -/
theorem dispatchLine_effect (out : Text → Shell → Globals → Option Text → List Writer.Op)
    (shell : Shell) (g : Globals) (line : Text) :
    (dispatchLine (COMMANDS out) shell g line).1 = (splitCommands line).foldl effect g := by
  rw [Alike.dispatchLine (sameEffect_COMMANDS out fun _ _ _ _ => []) shell Shell.new g line]
  unfold dispatchLine
  generalize splitCommands line = segs
  suffices hfold : ∀ acc : Globals × List Writer.Op, (segs.foldl
      (fun (acc : Globals × List Writer.Op) seg =>
        if Text.trim seg = [] then acc
        else
          let r := dispatchOne (COMMANDS fun _ _ _ _ => []) Shell.new acc.1 (Text.trim seg)
          (r.1, acc.2 ++ r.2)) acc).1 = segs.foldl effect acc.1 from hfold (g, [])
  induction segs with
  | nil => exact fun _ => rfl
  | cons seg segs ih =>
      intro acc
      rw [List.foldl_cons, List.foldl_cons, ih]
      by_cases hblank : Text.trim seg = []
      · rw [if_pos hblank, effect_blank hblank]
      · rw [if_neg hblank, ← effect_trim acc.1 seg]
        rfl

/-! ### What a session does -/

/-- The commands that have been entered, in order. -/
def commandsEntered (s : Session) : List Text := s.dispatched.flatMap splitCommands

/-- The session is within bounds, and its globals are what the commands have made of `g`. -/
structure Accounted (g : Globals) (s : Session) : Prop where
  ring : s.Ring
  globals : s.globals = s.commandsEntered.foldl effect g

namespace Accounted

variable {g : Globals} {s s' : Session}

theorem submit (out : Text → Shell → Globals → Option Text → List Writer.Op)
    (h : s.Accounted g) (hs' : s.submit (COMMANDS out) = some s') : s'.Accounted g := by
  refine ⟨h.ring.submit _ s' hs', ?_⟩
  obtain ⟨shell, hrecord, -, hbounded⟩ := h.ring.record
  obtain ⟨shell', hrecord', heq⟩ := submit_eq (COMMANDS out) h.ring.bounded
  obtain rfl : shell = shell' := Option.some.inj (hrecord.symm.trans hrecord')
  rw [heq] at hs'
  have hglobals := Within.printPrompt rfl s' hs'
  have hdispatched : s'.dispatched = s.dispatched ++ [s.shell.line] := by
    refine ((Edits.refl ?_).printPrompt s' hs').dispatched
    exact hbounded
  rw [commandsEntered, hdispatched, List.flatMap_append, List.foldl_append]
  refine hglobals.trans ((dispatchLine_effect out _ _ _).trans ?_)
  rw [h.globals, List.flatMap_singleton]
  rfl

/-- A handler that enters nothing. -/
theorem keeps (h : s.Accounted g) (hkeeps : s.Keeps s') (hglobals : s'.globals = s.globals) :
    s'.Accounted g := by
  refine ⟨hkeeps.ring h.ring, ?_⟩
  rw [hglobals, h.globals, commandsEntered, commandsEntered, hkeeps.dispatched]

theorem key (out : Text → Shell → Globals → Option Text → List Writer.Op)
    (h : s.Accounted g) (ch : Char) (hs' : s.pushChar (COMMANDS out) ch = some s') :
    s'.Accounted g := by
  by_cases hline : ch = '\n'
  · subst hline
    obtain ⟨s₁, hsubmit, hshow⟩ := Option.bind_eq_some_iff.mp
      (show (s.submit (COMMANDS out)).bind Session.cursorShow = some s' from hs')
    have h₁ := h.submit out hsubmit
    have hedits := (Edits.refl h₁.ring.bounded).cursorShow s' hshow
    exact h₁.keeps hedits.toKeeps (Within.cursorShow rfl s' hshow)
  · have hkeeps := pushChar_keeps (COMMANDS out) h.ring.bounded hline s' hs'
    exact h.keeps hkeeps (pushChar_within rfl (COMMANDS out) hline s' hs')

theorem new (writer : Option Writer) (g : Globals) : (Session.new writer g).Accounted g :=
  ⟨new_ring writer g, rfl⟩

theorem run (out : Text → Shell → Globals → Option Text → List Writer.Op)
    {writer : Option Writer} {trace : List (Session × Char)}
    (hrun : Run (Accepts (pushChar (COMMANDS out))) (Session.new writer g) trace s) :
    s.Accounted g :=
  hrun.always (new writer g) fun _ ch _ ht hs => ht.key out ch hs

end Accounted

/--
**The commands entered decide.**  After any keys, the directories and the variables are what
the commands that were entered have made of the first ones, one after the other: neither what
else was typed, recalled or completed on the way, nor what was printed, nor the screen it was
printed on is left in them.
-/
theorem commands_decide (out : Text → Shell → Globals → Option Text → List Writer.Op)
    {writer : Option Writer} {g : Globals} {s : Session} {trace : List (Session × Char)}
    (hrun : Run (Accepts (pushChar (COMMANDS out))) (new writer g) trace s) :
    s.globals = (s.dispatched.flatMap splitCommands).foldl effect g :=
  (Accounted.run out hrun).globals

/-- Two commands on one line, with a slip rubbed out. -/
theorem commands_decide_recalled :
    ∃ (trace : List (Session × Char)) (s : Session),
      Run (Accepts (pushChar (COMMANDS fun _ _ _ _ => []))) (new none ⟨[], [], [], none⟩) trace s ∧
      s.dispatched = ["export a=1;export b=2".toList] ∧
      s.globals = ["export a=1".toList, "export b=2".toList].foldl effect ⟨[], [], [], none⟩ := by
  obtain ⟨trace, s, hrun, -, hlines⟩ :=
    exists_run (pushChar (COMMANDS fun _ _ _ _ => [])) (new none ⟨[], [], [], none⟩)
      "export a=1x\x08;export b=2\x10\x0e\n".toList
      (fun _ s => s.dispatched = ["export a=1;export b=2".toList])
      (by decide +kernel)
  have hglobals := commands_decide (fun _ _ _ _ => []) hrun
  rw [hlines] at hglobals
  exact ⟨trace, s, hrun, hlines, hglobals⟩

/-! ### One line or several -/

/-- A separator that is read as one behind a line: the line leaves no quote open, and no
ampersand for the first half of a `&&`. -/
structure Ends (line sep : Text) : Prop where
  closed : openQuote none line = none
  separates : sep ∈ separators
  amp : sep = ['&', '&'] → ∀ before, line ≠ before ++ ['&']

/-- The scanner in front of a separator, whatever it has read. -/
theorem splitFrom_separator (seg rest : Text) {sep : Text} (hsep : sep ∈ separators) :
    splitFrom none seg (sep ++ rest) = seg :: splitCommands rest := by
  unfold separators at hsep
  rcases List.mem_cons.mp hsep with rfl | hsep
  · show splitFrom none seg (';' :: rest) = _
    rw [splitFrom, if_neg (by decide), if_pos rfl]
    · rfl
    · intro _ hamp
      exact absurd hamp (by decide)
  · rw [List.mem_singleton.mp hsep]
    show splitFrom none seg ('&' :: '&' :: rest) = _
    rw [splitFrom]
    rfl

/-- What a separator ends is cut as if nothing came behind it. -/
theorem splitFrom_ended (quote : Option Char) (seg line : Text) {sep : Text} (rest : Text)
    (hclosed : openQuote quote line = none) (hsep : sep ∈ separators)
    (hamp : sep = ['&', '&'] → ∀ before, line ≠ before ++ ['&']) :
    splitFrom quote seg (line ++ (sep ++ rest))
      = splitFrom quote seg line ++ splitCommands rest := by
  have hbehind : ∀ {ch : Char} {line : Text},
      (sep = ['&', '&'] → ∀ before, ch :: line ≠ before ++ ['&']) →
      (sep = ['&', '&'] → ∀ before, line ≠ before ++ ['&']) := by
    intro ch line h hand before heq
    exact h hand (ch :: before) (by rw [heq, List.cons_append])
  -- the separator does not complete an ampersand that stands alone
  have hpair : ∀ {ch : Char} {line : Text}, (∀ more, ch = '&' → line = '&' :: more → False) →
      (sep = ['&', '&'] → ∀ before, ch :: line ≠ before ++ ['&']) →
      ∀ more, ch = '&' → line ++ (sep ++ rest) = '&' :: more → False := by
    intro ch line hno h more hch heq
    cases line with
    | cons c line => exact hno line hch (by rw [(List.cons.inj heq).1])
    | nil =>
        have hand : sep = ['&', '&'] := by
          rcases List.mem_cons.mp hsep with rfl | hmem
          · exact absurd (List.cons.inj heq).1 (by decide)
          · exact List.mem_singleton.mp hmem
        exact h hand [] (by rw [hch, List.nil_append])
  induction quote, seg, line using splitFrom.induct with
  | case1 quote seg =>
      rw [openQuote] at hclosed
      rw [hclosed, List.nil_append, splitFrom_separator seg rest hsep, splitFrom]
      rfl
  | case2 q seg ch line ih =>
      rw [List.cons_append, splitFrom, splitFrom]
      exact ih hclosed (hbehind hamp)
  | case3 seg line ih =>
      rw [List.cons_append, List.cons_append, splitFrom, splitFrom, List.cons_append]
      exact congrArg _ (ih hclosed (hbehind (hbehind hamp)))
  | case4 seg ch line hno hquote ih =>
      rw [openQuote, if_pos hquote] at hclosed
      rw [List.cons_append, splitFrom, if_pos hquote, splitFrom, if_pos hquote]
      · exact ih hclosed (hbehind hamp)
      · exact hno
      · exact hpair hno hamp
  | case5 seg line hno hquote ih =>
      rw [openQuote, if_neg hquote] at hclosed
      rw [List.cons_append, splitFrom, if_neg hquote, if_pos rfl, splitFrom, if_neg hquote,
        if_pos rfl, List.cons_append]
      · exact congrArg _ (ih hclosed (hbehind hamp))
      · exact hno
      · exact hpair hno hamp
  | case6 seg ch line hno hquote hsemi ih =>
      rw [openQuote, if_neg hquote] at hclosed
      rw [List.cons_append, splitFrom, if_neg hquote, if_neg hsemi, splitFrom, if_neg hquote,
        if_neg hsemi]
      · exact ih hclosed (hbehind hamp)
      · exact hno
      · exact hpair hno hamp

/-- Lines put behind one another, with separators between them. -/
inductive Joined : List Text → Text → Prop
  | one (line : Text) : Joined [line] line
  | cons {line sep rest : Text} {lines : List Text} (hends : Ends line sep)
      (hrest : Joined lines rest) : Joined (line :: lines) (line ++ (sep ++ rest))

theorem Joined.splitCommands {lines : List Text} {line : Text} (h : Joined lines line) :
    Words.splitCommands line = lines.flatMap Words.splitCommands := by
  induction h with
  | one line => rw [List.flatMap_singleton]
  | cons hends _ ih =>
      rw [List.flatMap_cons, ← ih]
      exact splitFrom_ended none [] _ _ hends.closed hends.separates hends.amp

/--
**One line or several.**  Two sessions whose lines are the same, but that what is one line of
the first may be several of the second, joined there by a `;` or a `&&`, have the same
directories and variables in the end.
-/
theorem one_line_or_several
    (out out' : Text → Shell → Globals → Option Text → List Writer.Op)
    {writer writer' : Option Writer} {g : Globals} {s t : Session}
    {trace trace' : List (Session × Char)} {blocks : List (List Text)}
    (hs : Run (Accepts (pushChar (COMMANDS out))) (new writer g) trace s)
    (ht : Run (Accepts (pushChar (COMMANDS out'))) (new writer' g) trace' t)
    (hlines : t.dispatched = blocks.flatten)
    (hjoined : List.Forall₂ Joined blocks s.dispatched) : s.globals = t.globals := by
  have hentered : s.commandsEntered = t.commandsEntered := by
    rw [commandsEntered, commandsEntered, hlines]
    clear hlines hs
    generalize s.dispatched = lines at hjoined
    induction hjoined with
    | nil => rfl
    | cons h _ ih =>
        rw [List.flatMap_cons, List.flatten_cons, List.flatMap_append, h.splitCommands, ih]
  rw [(Accounted.run out hs).globals, (Accounted.run out' ht).globals, hentered]

/-- Two exports on one line and on two. -/
theorem one_line_or_several_exports :
    ∃ (trace trace' : List (Session × Char)) (s t : Session),
      Run (Accepts (pushChar (COMMANDS fun _ _ _ _ => []))) (new none ⟨[], [], [], none⟩) trace s ∧
      Run (Accepts (pushChar (COMMANDS fun _ _ _ _ => []))) (new none ⟨[], [], [], none⟩) trace' t ∧
      s.dispatched = ["export a='1;2' && export b=3".toList] ∧
      t.dispatched = ["export a='1;2' ".toList, " export b=3".toList] ∧
      s.globals = t.globals := by
  obtain ⟨trace, s, hs, -, hone⟩ :=
    exists_run (pushChar (COMMANDS fun _ _ _ _ => [])) (new none ⟨[], [], [], none⟩)
      "export a='1;2' && export b=3\n".toList
      (fun _ s => s.dispatched = ["export a='1;2' && export b=3".toList]) (by decide +kernel)
  obtain ⟨trace', t, ht, -, htwo⟩ :=
    exists_run (pushChar (COMMANDS fun _ _ _ _ => [])) (new none ⟨[], [], [], none⟩)
      "export a='1;2' \n export b=3\n".toList
      (fun _ s => s.dispatched = ["export a='1;2' ".toList, " export b=3".toList])
      (by decide +kernel)
  refine ⟨trace, trace', s, t, hs, ht, hone, htwo, ?_⟩
  have hends : Ends "export a='1;2' ".toList ['&', '&'] := by
    refine ⟨rfl, by simp [separators], ?_⟩
    intro _ before heq
    have hlast := congrArg List.getLast? heq
    rw [List.getLast?_concat] at hlast
    exact absurd hlast (by decide)
  have hblock : t.dispatched = [["export a='1;2' ".toList, " export b=3".toList]].flatten := htwo
  apply one_line_or_several _ _ hs ht hblock
  rw [hone]
  exact .cons (.cons hends (.one _)) .nil

end Session

end Amaterasu
