/-
Which command a line runs.

A line is split into segments; each is trimmed, expanded with the variables as the
segments before it have left them, and looked up by its first word.  What is looked up
is what stands in front of the first white space of the expansion.  That is its first
word, unless a variable has put white space in front of it: then it is the empty word,
which is the name of no command, and an expansion that is blank is reported as a command
nobody knows.
-/
import Amaterasu.Shell.Commands
import Amaterasu.Shell.Expand

namespace Amaterasu

namespace Session

open Words

/-! ### What is done about a segment -/

/-- Nothing, an entry of the table with its argument, or a report that there is none. -/
inductive Action
  | nothing
  | run (entry : Cmd) (arg : Option Text)
  | unknown

/-- The choice `dispatch_one` makes on an expanded segment. -/
def action (commands : List Cmd) (cmd : Text) : Action :=
  if cmd = [] then .nothing
  else match commands.find? fun entry => nameEq cmd entry.name with
    | some entry => .run entry (cmdArg cmd)
    | none => .unknown

/-- The report, with a suggestion when there is one. -/
def unknownReport (commands : List Cmd) (cmd : Text) : List Writer.Op :=
  [.print ("unknown command: ".toList ++ cmd),
    .print (match suggestion (commands.map Cmd.name) cmd with
      | some name => " -- did you mean '".toList ++ name ++ "'?\n".toList
      | none => ['\n'])]

def Action.perform (commands : List Cmd) (shell : Shell) (g : Globals) (cmd : Text) :
    Action → Globals × List Writer.Op
  | .nothing => (g, [])
  | .run entry arg => entry.run shell g arg
  | .unknown => (g, unknownReport commands cmd)

/-- What a segment expands to. -/
def expansion (g : Globals) (seg : Text) : Text := expand g (Text.trim seg)

/-- The segments of a line, each with the globals when its turn comes. -/
def turns (commands : List Cmd) (shell : Shell) : Globals → List Text → List (Globals × Text)
  | _, [] => []
  | g, seg :: segs => (g, seg) :: turns commands shell (dispatchOne commands shell g seg).1 segs

/-- What one turn does. -/
def turn (commands : List Cmd) (shell : Shell) (t : Globals × Text) : Globals × List Writer.Op :=
  (action commands (expansion t.1 t.2)).perform commands shell t.1 (expansion t.1 t.2)

variable {commands : List Cmd} {shell : Shell} {g : Globals} {cmd : Text}

theorem dispatchOne_eq (commands : List Cmd) (shell : Shell) (g : Globals) (seg : Text) :
    dispatchOne commands shell g seg = turn commands shell (g, seg) := by
  unfold dispatchOne turn action expansion
  dsimp only
  by_cases hnil : expand g (Text.trim seg) = []
  · rw [if_pos hnil, if_pos hnil]
    rfl
  · rw [if_neg hnil, if_neg hnil]
    cases commands.find? fun entry => nameEq (expand g (Text.trim seg)) entry.name with
    | some entry => rfl
    | none => rfl

theorem turn_trim (commands : List Cmd) (shell : Shell) (g : Globals) (seg : Text) :
    turn commands shell (g, Text.trim seg) = turn commands shell (g, seg) := by
  unfold turn expansion
  rw [Text.trim_trim]

/-- The shell does not look at a segment that is blank; nothing would be done about it. -/
theorem turn_blank {seg : Text} (h : Text.trim seg = []) :
    turn commands shell (g, seg) = (g, []) := by
  unfold turn expansion
  rw [h, expand_nil]
  rfl

/-- A line does what its segments do when their turn comes: it prints what they print, and
leaves what the last of them leaves. -/
theorem dispatchLine_turns (commands : List Cmd) (shell : Shell) (g : Globals) (line : Text) :
    dispatchLine commands shell g line
      = ((turns commands shell g (splitCommands line)).foldl
          (fun _ t => (turn commands shell t).1) g,
        (turns commands shell g (splitCommands line)).flatMap
          fun t => (turn commands shell t).2) := by
  have hfold : ∀ (segs : List Text) (acc : Globals × List Writer.Op),
      segs.foldl (fun (acc : Globals × List Writer.Op) seg =>
        if Text.trim seg = [] then acc
        else
          let r := dispatchOne commands shell acc.1 (Text.trim seg)
          (r.1, acc.2 ++ r.2)) acc
        = ((turns commands shell acc.1 segs).foldl (fun _ t => (turn commands shell t).1) acc.1,
          acc.2 ++ (turns commands shell acc.1 segs).flatMap
            fun t => (turn commands shell t).2) := by
    intro segs
    induction segs with
    | nil =>
        intro acc
        exact Prod.ext rfl (List.append_nil _).symm
    | cons seg segs ih =>
        intro acc
        rw [List.foldl_cons, ih, turns, List.foldl_cons, List.flatMap_cons, dispatchOne_eq,
          dispatchOne_eq, turn_trim]
        by_cases hblank : Text.trim seg = []
        · rw [if_pos hblank, turn_blank hblank]
          rfl
        · rw [if_neg hblank]
          exact Prod.ext rfl (List.append_assoc _ _ _)
  exact hfold (splitCommands line) (g, [])

/-! ### What is wanted -/

/-- The first word of a text. -/
def firstWord (t : Text) : Text :=
  (t.dropWhile Text.isWhitespace).takeWhile fun c => !Text.isWhitespace c

def behindWord (t : Text) : Text :=
  (t.dropWhile Text.isWhitespace).dropWhile fun c => !Text.isWhitespace c

def Blank (t : Text) : Prop := ∀ c ∈ t, Text.isWhitespace c = true

instance (t : Text) : Decidable (Blank t) := inferInstanceAs (Decidable (∀ c ∈ t, _))

/-- The argument behind the first word. -/
def argument (t : Text) : Option Text :=
  if Blank (behindWord t) then none
  else some (tildeExpand (unquote (Text.trim (behindWord t))))

/-- The first word of an expanded segment is run, if it is the name of a command. -/
structure Wanted (commands : List Cmd) (cmd : Text) (a : Action) : Prop where
  blank : Blank cmd → a = .nothing
  named : ¬ Blank cmd → ∀ entry ∈ commands, firstWord cmd = entry.name →
    a = .run entry (argument cmd)
  unnamed : ¬ Blank cmd → (∀ entry ∈ commands, firstWord cmd ≠ entry.name) → a = .unknown

/-- White space in front of nothing, or of the name of a command. -/
def Misread (commands : List Cmd) (cmd : Text) : Prop :=
  (∃ c ∈ cmd.head?, Text.isWhitespace c = true) ∧
    (Blank cmd ∨ ∃ entry ∈ commands, firstWord cmd = entry.name)

/-- A table that names each of its commands differently, and each one somehow. -/
structure Table (commands : List Cmd) : Prop where
  nodup : (commands.map Cmd.name).Nodup
  named : ∀ entry ∈ commands, entry.name ≠ []

/-! ### What is looked up -/

theorem trim_eq_nil_iff (t : Text) : Text.trim t = [] ↔ Blank t := by
  constructor
  · intro h c hc
    obtain ⟨l, r, hsplit, hl, hr⟩ := Text.trim_split t
    rw [h, List.append_nil] at hsplit
    rw [hsplit] at hc
    rcases List.mem_append.mp hc with hc | hc
    · exact hl c hc
    · exact hr c hc
  · intro h
    unfold Text.trim Text.trimMatches
    rw [List.dropWhile_eq_nil_iff.mpr h]
    rfl

/-- Dropping white space changes nothing about what is left when it is trimmed. -/
theorem trim_tail {t : Text} (h : ∀ c ∈ t.head?, Text.isWhitespace c = true) :
    Text.trim (t.drop 1) = Text.trim t := by
  cases t with
  | nil => rfl
  | cons c t =>
      unfold Text.trim Text.trimMatches
      rw [List.dropWhile_cons_of_pos (h c rfl)]
      rfl

/-- A text that begins with a word. -/
theorem firstWord_of_head {t : Text} (h : ∀ c ∈ t.head?, Text.isWhitespace c = false) :
    firstWord t = t.takeWhile (fun c => !Text.isWhitespace c) ∧
      behindWord t = t.dropWhile fun c => !Text.isWhitespace c := by
  have hdrop : t.dropWhile Text.isWhitespace = t := by
    cases t with
    | nil => rfl
    | cons c t => exact List.dropWhile_cons_of_neg (by rw [h c rfl]; decide)
  unfold firstWord behindWord
  rw [hdrop]
  exact ⟨rfl, rfl⟩

/-- Behind a word that begins the text, the argument is what `cmd_arg` finds. -/
theorem cmdArg_eq {t : Text} (h : ∀ c ∈ t.head?, Text.isWhitespace c = false) :
    cmdArg t = argument t := by
  have hhead : ∀ c ∈ (t.dropWhile fun c => !Text.isWhitespace c).head?,
      Text.isWhitespace c = true := by
    intro c hc
    have := Text.dropWhile_head? t c hc
    simpa using this
  unfold cmdArg argument
  dsimp only
  rw [(firstWord_of_head h).2, trim_tail hhead]
  by_cases hblank : Blank (t.dropWhile fun c => !Text.isWhitespace c)
  · rw [if_pos ((trim_eq_nil_iff _).mpr hblank), if_pos hblank]
  · rw [if_neg fun hc => hblank ((trim_eq_nil_iff _).mp hc), if_neg hblank]

/-- The entry that is looked up is the one of that name. -/
theorem Table.find (h : Table commands) {entry : Cmd} (hentry : entry ∈ commands) :
    commands.find? (fun e => entry.name == e.name) = some entry := by
  have hsome : (commands.find? fun e => entry.name == e.name).isSome := by
    rw [List.find?_isSome]
    exact ⟨entry, hentry, beq_self_eq_true _⟩
  obtain ⟨found, hfound⟩ := Option.isSome_iff_exists.mp hsome
  have hname : entry.name = found.name := by simpa using List.find?_some hfound
  have hsame : found = entry :=
    List.inj_on_of_nodup_map h.nodup (List.mem_of_find?_eq_some hfound) hentry hname.symm
  rw [hfound, hsame]

theorem find_none {word : Text} (h : ∀ entry ∈ commands, word ≠ entry.name) :
    commands.find? (fun e => word == e.name) = none := by
  rw [List.find?_eq_none]
  intro entry hentry
  simpa using h entry hentry

/-- White space in front hides the word: nothing is found. -/
theorem Table.action_leading (h : Table commands)
    (hlead : ∃ c ∈ cmd.head?, Text.isWhitespace c = true) : action commands cmd = .unknown := by
  obtain ⟨c, hc, hspace⟩ := hlead
  obtain ⟨rest, rfl⟩ := List.head?_eq_some_iff.mp hc
  unfold action nameEq
  rw [if_neg (List.cons_ne_nil c rest), List.takeWhile_cons_of_neg (by rw [hspace]; decide),
    find_none fun entry hentry => Ne.symm (h.named entry hentry)]

/-- **Which command runs.**  The first word is run, unless the segment is misread. -/
theorem Table.wanted_iff (h : Table commands) (cmd : Text) :
    Wanted commands cmd (action commands cmd) ↔ ¬ Misread commands cmd := by
  constructor
  · rintro hwanted ⟨hlead, hblank | ⟨entry, hentry, hname⟩⟩
    · have := hwanted.blank hblank
      rw [h.action_leading hlead] at this
      exact absurd this (by simp)
    · by_cases hblank : Blank cmd
      · have := hwanted.blank hblank
        rw [h.action_leading hlead] at this
        exact absurd this (by simp)
      · have := hwanted.named hblank entry hentry hname
        rw [h.action_leading hlead] at this
        exact absurd this (by simp)
  · intro hread
    by_cases hlead : ∃ c ∈ cmd.head?, Text.isWhitespace c = true
    · -- Neither blank nor the name of a command: the report is right.
      have hshown : ¬ Blank cmd := fun hblank => hread ⟨hlead, Or.inl hblank⟩
      refine ⟨fun hblank => absurd hblank hshown, ?_, fun _ _ => h.action_leading hlead⟩
      intro _ entry hentry hname
      exact absurd ⟨hlead, Or.inr ⟨entry, hentry, hname⟩⟩ hread
    · have hhead : ∀ c ∈ cmd.head?, Text.isWhitespace c = false := by
        intro c hc
        by_contra hspace
        exact hlead ⟨c, hc, by simpa using hspace⟩
      rcases cmd with - | ⟨c, rest⟩
      · exact ⟨fun _ => rfl, fun hshown => absurd (by simp [Blank]) hshown,
          fun hshown => absurd (by simp [Blank]) hshown⟩
      · have hword := (firstWord_of_head hhead).1
        have hshown : ¬ Blank (c :: rest) := by
          intro hblank
          have hc := hblank c List.mem_cons_self
          rw [hhead c rfl] at hc
          exact absurd hc (by decide)
        refine ⟨fun hblank => absurd hblank hshown, ?_, ?_⟩
        · intro _ entry hentry hname
          unfold action nameEq
          rw [if_neg (List.cons_ne_nil c rest), ← hword, hname, h.find hentry, cmdArg_eq hhead]
        · intro _ hnone
          unfold action nameEq
          rw [if_neg (List.cons_ne_nil c rest), ← hword, find_none hnone]

theorem commands_names (out : Text → Shell → Globals → Option Text → List Writer.Op) :
    (COMMANDS out).map Cmd.name
      = ["echo", "uname", "hostname", "wc", "head", "tail", "grep", "clear", "ls", "cat", "stat",
        "cd", "pwd", "cpu", "uptime", "heap", "reboot", "shutdown", "export", "history",
        "help"].map String.toList := rfl

theorem commands_table (out : Text → Shell → Globals → Option Text → List Writer.Op) :
    Table (COMMANDS out) where
  nodup := by
    rw [commands_names]
    decide
  named := by
    intro entry hentry hnil
    have hname : entry.name ∈ (COMMANDS out).map Cmd.name := List.mem_map_of_mem hentry
    rw [commands_names, hnil] at hname
    exact absurd hname (by decide)

/--
**The first word of the expansion runs.**  A line does what its segments do, each when its
turn comes, on the screen and to the globals; and each does what its first word asks for
exactly when no expansion begins with white space in front of nothing, or of the name of a
command.
-/
theorem first_word_runs_iff (out : Text → Shell → Globals → Option Text → List Writer.Op)
    (shell : Shell) (g : Globals) (line : Text) :
    dispatchLine (COMMANDS out) shell g line
        = ((turns (COMMANDS out) shell g (splitCommands line)).foldl
            (fun _ t => (turn (COMMANDS out) shell t).1) g,
          (turns (COMMANDS out) shell g (splitCommands line)).flatMap
            fun t => (turn (COMMANDS out) shell t).2) ∧
      ((∀ t ∈ turns (COMMANDS out) shell g (splitCommands line),
          Wanted (COMMANDS out) (expansion t.1 t.2)
            (action (COMMANDS out) (expansion t.1 t.2))) ↔
        ∀ t ∈ turns (COMMANDS out) shell g (splitCommands line),
          ¬ Misread (COMMANDS out) (expansion t.1 t.2)) := by
  refine ⟨dispatchLine_turns _ shell g line, ?_⟩
  constructor
  · intro h t ht
    exact ((commands_table out).wanted_iff _).mp (h t ht)
  · intro h t ht
    exact ((commands_table out).wanted_iff _).mpr (h t ht)

/-- `export X= pwd;$X`: what follows the separator is no command, for the space in front. -/
theorem variable_hides_command :
    ∃ t ∈ turns (COMMANDS fun _ _ _ _ => []) Shell.new ⟨[], [], [], none⟩
        (splitCommands ['e', 'x', 'p', 'o', 'r', 't', ' ', 'X', '=', ' ', 'p', 'w', 'd', ';',
          '$', 'X']),
      ¬ Wanted (COMMANDS fun _ _ _ _ => []) (expansion t.1 t.2)
        (action (COMMANDS fun _ _ _ _ => []) (expansion t.1 t.2)) := by
  have hsplit : splitCommands ['e', 'x', 'p', 'o', 'r', 't', ' ', 'X', '=', ' ', 'p', 'w', 'd',
      ';', '$', 'X'] = [['e', 'x', 'p', 'o', 'r', 't', ' ', 'X', '=', ' ', 'p', 'w', 'd'],
        ['$', 'X']] := by decide
  have hexport : (dispatchOne (COMMANDS fun _ _ _ _ => []) Shell.new ⟨[], [], [], none⟩
      ['e', 'x', 'p', 'o', 'r', 't', ' ', 'X', '=', ' ', 'p', 'w', 'd']).1
        = ⟨[], [], [(['X'], [' ', 'p', 'w', 'd'])], none⟩ := by
    have htrim : Text.trim ['e', 'x', 'p', 'o', 'r', 't', ' ', 'X', '=', ' ', 'p', 'w', 'd']
        = ['e', 'x', 'p', 'o', 'r', 't', ' ', 'X', '=', ' ', 'p', 'w', 'd'] := by decide
    rw [dispatchOne_eq, turn, expansion, htrim, expand_plain _ (by decide)]
    rfl
  rw [hsplit, turns, turns, turns, hexport]
  refine ⟨_, List.mem_cons_of_mem _ List.mem_cons_self, ?_⟩
  have hvalue : expansion ⟨[], [], [(['X'], [' ', 'p', 'w', 'd'])], none⟩ ['$', 'X']
      = [' ', 'p', 'w', 'd'] := by
    have htrim : Text.trim ['$', 'X'] = ['$', 'X'] := by decide
    rw [expansion, htrim, expand_key (by simp [isKeyChar])]
    rw [List.dropWhile_nil, expand_nil]
    rfl
  rw [hvalue]
  intro hwanted
  have hshown : ¬ Blank [' ', 'p', 'w', 'd'] := fun hblank =>
    absurd (hblank 'p' (by simp)) (by decide)
  have hrun := hwanted.named hshown _ (show _ ∈ COMMANDS fun _ _ _ _ => [] from
    List.getElem_mem (show 12 < _ by decide)) rfl
  rw [(commands_table _).action_leading ⟨' ', rfl, by decide⟩] at hrun
  exact absurd hrun (by simp)

end Session

end Amaterasu
