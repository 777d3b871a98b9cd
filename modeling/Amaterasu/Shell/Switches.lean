/-
Flags that take no value, in front of operands.

`parse_args` is not told which flags take a value, so it goes by the token behind the
last letter of a cluster: if that begins with a digit, the letter takes it.  For the
flags of `grep`, `wc` and `echo` this loses the first operand whenever it begins with a
digit, and nothing otherwise.
-/
import Amaterasu.Shell.Flags
import Amaterasu.Shell.Lines

namespace Amaterasu

namespace Words

/-- A word that is read as it stands where an operand is due. -/
structure PlainOperand (t : Text) : Prop extends Word t where
  dash : t.head? ≠ some '-'
  tilde : t.head? ≠ some '~'

/-- All the flags of `grep`, `wc` and `echo`. -/
def SWITCHES : List Char := ['i', 'n', 'c', 'l', 'w']

/-- One token or more, each of one flag or more. -/
structure Switches (flags : List Char) (clusters : List Text) : Prop where
  ne_nil : clusters ≠ []
  letters : ∀ letters ∈ clusters, letters ≠ [] ∧ ∀ c ∈ letters, c ∈ flags

/-- A line with clusters of flags in front of the operands. -/
def switchLine (name : Text) (clusters operands : List Text) : Text :=
  unwords (name :: (clusters.map ('-' :: ·) ++ operands))

theorem switch_chars {c : Char} (hc : c ∈ SWITCHES) : c.isDigit = false ∧ c ≠ '-' ∧
    Text.isWhitespace c = false ∧ c ≠ '"' ∧ c ≠ '\'' ∧ c ≠ ';' ∧ c ≠ '&' ∧ c ≠ '$' := by
  unfold SWITCHES at hc
  simp only [List.mem_cons, List.not_mem_nil, or_false] at hc
  rcases hc with rfl | rfl | rfl | rfl | rfl <;> decide

theorem PlainOperand.tildeExpand_self {t : Text} (h : PlainOperand t) : tildeExpand t = t := by
  unfold tildeExpand
  split
  · exact absurd rfl h.tilde
  · rfl

/-- Operands are collected as they stand. -/
theorem parseTokens_operands {operands : List Text} (h : ∀ w ∈ operands, PlainOperand w) :
    ∀ args : ParsedArgs, parseTokens false operands args
      = { args with positional := args.positional ++ operands } := by
  induction operands with
  | nil =>
      intro args
      rw [parseTokens, List.append_nil]
  | cons w operands ih =>
      intro args
      have hw := h w List.mem_cons_self
      rw [parseTokens, if_pos (Or.inr (Or.inl hw.dash)),
        ih fun v hv => h v (List.mem_cons_of_mem _ hv), hw.tildeExpand_self, List.append_assoc]
      rfl

section

variable {flags : List Char} {clusters : List Text} {letters operand : Text} {rest : List Text}

/-- A cluster with something behind it that is no number. -/
theorem parseTokens_flags (hne : letters ≠ []) (hletters : ∀ c ∈ letters, c ∈ SWITCHES)
    (hnext : ∀ tok ∈ rest.head?, ¬ Numeric tok) (args : ParsedArgs) :
    parseTokens false (('-' :: letters) :: rest) args
      = parseTokens false rest { args with flags := args.flags ++ letters } := by
  have hplain : Plain letters := fun c hc => (switch_chars (hletters c (List.mem_of_mem_tail hc))).1
  have hdash : letters ≠ ['-'] := by
    rintro rfl
    exact (switch_chars (hletters '-' List.mem_cons_self)).2.1 rfl
  rw [(Reads.cluster hdash (.flags hne hplain hnext)).parseTokens_eq]
  simp [Item.add, Item.flags, Item.flagVals, Item.positional]

/-- A cluster with a number behind it: the last flag takes it. -/
theorem parseTokens_value (rest : List Text) (hne : letters ≠ [])
    (hletters : ∀ c ∈ letters, c ∈ SWITCHES) (hvalue : Numeric operand) (args : ParsedArgs) :
    ∃ args', args'.positional = args.positional ∧
      parseTokens false (('-' :: letters) :: operand :: rest) args
        = parseTokens false rest args' := by
  rcases List.eq_nil_or_concat letters with rfl | ⟨init, flag, rfl⟩
  · exact absurd rfl hne
  · rw [List.concat_eq_append] at hletters ⊢
    have hplain : Plain (init ++ [flag]) :=
      fun c hc => (switch_chars (hletters c (List.mem_of_mem_tail hc))).1
    have hdash : init ++ [flag] ≠ ['-'] := by
      intro h
      exact (switch_chars (hletters '-' (h ▸ List.mem_cons_self))).2.1 rfl
    refine ⟨(Item.nextValue init flag operand).add args, by simp [Item.add, Item.positional], ?_⟩
    have hcluster : Cluster (init ++ [flag]) (operand :: rest).head?
        (.nextValue init flag operand) true := .nextValue hplain hvalue
    exact (Reads.cluster hdash hcluster).parseTokens_eq args

theorem not_numeric_dash (letters : Text) : ¬ Numeric ('-' :: letters) := by
  simp [Numeric]

/-- All the clusters, where no number follows. -/
theorem parseTokens_clusters (hclusters : ∀ letters ∈ clusters,
      letters ≠ [] ∧ ∀ c ∈ letters, c ∈ SWITCHES) (hnext : ∀ tok ∈ rest.head?, ¬ Numeric tok) :
    ∀ args : ParsedArgs, parseTokens false (clusters.map ('-' :: ·) ++ rest) args
      = parseTokens false rest { args with flags := args.flags ++ clusters.flatten } := by
  induction clusters with
  | nil =>
      intro args
      rw [List.flatten_nil, List.append_nil]
      rfl
  | cons letters clusters ih =>
      intro args
      obtain ⟨hne, hletters⟩ := hclusters letters List.mem_cons_self
      have htail := fun l hl => hclusters l (List.mem_cons_of_mem _ hl)
      rw [List.map_cons, List.cons_append, parseTokens_flags hne hletters, ih htail,
        List.flatten_cons, List.append_assoc]
      rcases clusters with - | ⟨next, clusters⟩
      · exact hnext
      · intro tok htok
        rw [← Option.some.inj htok]
        exact not_numeric_dash next

/-- Where the first operand is no number, the handler gets the flags and the operands. -/
theorem parseTokens_switches (hclusters : Switches SWITCHES clusters)
    (hall : ∀ w ∈ operand :: rest, PlainOperand w) (hplain : ¬ Numeric operand) :
    parseTokens false (clusters.map ('-' :: ·) ++ operand :: rest) ⟨[], [], []⟩
      = ⟨clusters.flatten, [], operand :: rest⟩ := by
  rw [parseTokens_clusters hclusters.letters, parseTokens_operands hall]
  · simp
  · intro tok htok
    rw [← Option.some.inj htok]
    exact hplain

/-- Where it is one, the last flag takes it. -/
theorem parseTokens_swallow (hclusters : Switches SWITCHES clusters)
    (hall : ∀ w ∈ rest, PlainOperand w) (hvalue : Numeric operand) :
    (parseTokens false (clusters.map ('-' :: ·) ++ operand :: rest) ⟨[], [], []⟩).positional
      = rest := by
  rcases List.eq_nil_or_concat clusters with rfl | ⟨init, last, rfl⟩
  · exact absurd rfl hclusters.ne_nil
  · have hletters := hclusters.letters
    rw [List.concat_eq_append] at hletters ⊢
    obtain ⟨hne, hlast⟩ := hletters last (List.mem_append_right _ List.mem_cons_self)
    obtain ⟨args, hargs, heq⟩ := parseTokens_value rest hne hlast hvalue
      ⟨[] ++ init.flatten, [], []⟩
    rw [List.map_append, List.append_assoc, List.map_singleton, List.singleton_append,
      parseTokens_clusters fun l hl => hletters l (List.mem_append_left _ hl), heq,
      parseTokens_operands hall, hargs]
    · rfl
    · intro tok htok
      rw [← Option.some.inj htok]
      exact not_numeric_dash last

/-- The operands that reach a handler are all of them exactly when the first is no number. -/
theorem positional_iff (hclusters : Switches SWITCHES clusters)
    (hall : ∀ w ∈ operand :: rest, PlainOperand w) :
    (parseTokens false (clusters.map ('-' :: ·) ++ operand :: rest) ⟨[], [], []⟩).positional
      = operand :: rest ↔ ¬ Numeric operand := by
  constructor
  · intro heq hvalue
    rw [parseTokens_swallow hclusters (fun w hw => hall w (List.mem_cons_of_mem _ hw))
      hvalue] at heq
    exact absurd heq.symm (List.cons_ne_self operand rest)
  · intro hplain
    rw [parseTokens_switches hclusters hall hplain]

/-- The words of the line. -/
theorem Switches.words (hflags : ∀ c ∈ flags, c ∈ SWITCHES) (hclusters : Switches flags clusters)
    (hall : ∀ w ∈ rest, PlainOperand w) : ∀ w ∈ clusters.map ('-' :: ·) ++ rest, Word w := by
  intro w hw
  rcases List.mem_append.mp hw with hw | hw
  · obtain ⟨letters, hletters, rfl⟩ := List.mem_map.mp hw
    refine ⟨List.cons_ne_nil _ _, ?_⟩
    intro c hc
    rcases List.mem_cons.mp hc with rfl | hc
    · decide
    · exact (switch_chars (hflags c ((hclusters.letters letters hletters).2 c hc))).2.2
  · exact (hall w hw).toWord

theorem Switches.mono (hflags : ∀ c ∈ flags, c ∈ SWITCHES) (h : Switches flags clusters) :
    Switches SWITCHES clusters where
  ne_nil := h.ne_nil
  letters := fun letters hl =>
    ⟨(h.letters letters hl).1, fun c hc => hflags c ((h.letters letters hl).2 c hc)⟩

/-- From the line to what the handler parses. -/
theorem dispatch_switches {name : Text} (hname : Word name) (hflags : ∀ c ∈ flags, c ∈ SWITCHES)
    (hclusters : Switches flags clusters) (hall : ∀ w ∈ operand :: rest, PlainOperand w)
    {commands : List Cmd} {entry : Cmd}
    (hentry : commands.find? (fun e => name == e.name) = some entry) (s : Shell) (g : Globals) :
    ∃ arg, Session.dispatchLine commands s g (switchLine name clusters (operand :: rest))
        = entry.run s g (some arg) ∧
      parseArgs arg
        = parseTokens false (clusters.map ('-' :: ·) ++ operand :: rest) ⟨[], [], []⟩ := by
  have hwords := hclusters.words hflags hall
  exact ⟨_, dispatchLine_unwords hname (by simp) hwords hentry s g, parseArgs_unwords hwords⟩

end

/-- `echo -n` prints the operands with a space between them, or fewer. -/
theorem cmdEcho_iff {arg P F : Text} {clusters : List Text}
    (hclusters : Switches ['n'] clusters) (hP : PlainOperand P) (hF : PlainOperand F)
    (harg : parseArgs arg = parseTokens false (clusters.map ('-' :: ·) ++ [P, F]) ⟨[], [], []⟩) :
    cmdEcho (some arg) = [.print (P ++ ' ' :: F)] ↔ ¬ Numeric P := by
  have hmono : Switches SWITCHES clusters := hclusters.mono (by simp [SWITCHES])
  have hall : ∀ w ∈ [P, F], PlainOperand w := by
    intro w hw
    simp only [List.mem_cons, List.not_mem_nil, or_false] at hw
    rcases hw with rfl | rfl
    · exact hP
    · exact hF
  unfold cmdEcho
  rw [Option.getD_some, harg]
  dsimp only
  constructor
  · intro heq hvalue
    rw [parseTokens_swallow hmono (fun w hw => hall w (List.mem_cons_of_mem _ hw)) hvalue] at heq
    have hpos := List.length_pos_iff.mpr hP.ne_nil
    have hjoin : List.intercalate [' '] [F] = F := by simp
    rw [hjoin] at heq
    split at heq
    · have hlen := congrArg List.length (Writer.Op.print.inj (List.cons.inj heq).1)
      rw [List.length_append, List.length_cons] at hlen
      omega
    · have hlen := congrArg List.length (Writer.Op.print.inj (List.cons.inj heq).1)
      rw [List.length_append, List.length_append, List.length_cons, List.length_cons,
        List.length_nil] at hlen
      omega
  · intro hplain
    have hflag : 'n' ∈ clusters.flatten := by
      obtain ⟨letters, hletters⟩ := List.exists_mem_of_ne_nil _ hclusters.ne_nil
      obtain ⟨hne, hall⟩ := hclusters.letters letters hletters
      obtain ⟨c, hc⟩ := List.exists_mem_of_ne_nil _ hne
      obtain rfl := List.mem_singleton.mp (hall c hc)
      exact List.mem_flatten.mpr ⟨letters, hletters, hc⟩
    rw [parseTokens_switches hmono hall hplain, if_pos]
    · simp [List.intercalate]
    · simp [ParsedArgs.hasFlag, hflag]

/-! ### The handlers -/

section Handlers

variable (lower : Text → Text) (out : Text → Shell → Globals → Option Text → List Writer.Op)
  (s : Shell) (g : Globals)

/-- The flags of `grep`, `wc` and `echo` leave the operands alone, unless the first one
begins with a digit. -/
theorem switches_keep_operands :
    (∀ clusters P F, Switches ['i', 'n', 'c'] clusters → PlainOperand P → PlainOperand F →
      ∃ arg, Session.dispatchLine (COMMANDS (filesOut lower out)) s g
          (switchLine "grep".toList clusters [P, F]) = (g, cmdGrep lower g (some arg)) ∧
        ((parseArgs arg).positional = [P, F] ↔ ¬ Numeric P)) ∧
    (∀ clusters F, Switches ['l', 'w', 'c'] clusters → PlainOperand F →
      ∃ arg, Session.dispatchLine (COMMANDS (filesOut lower out)) s g
          (switchLine "wc".toList clusters [F]) = (g, cmdWc g (some arg)) ∧
        ((parseArgs arg).positional = [F] ↔ ¬ Numeric F)) ∧
    ∀ clusters P F, Switches ['n'] clusters → PlainOperand P → PlainOperand F →
      (Session.dispatchLine (COMMANDS (filesOut lower out)) s g
          (switchLine "echo".toList clusters [P, F]) = (g, [.print (P ++ ' ' :: F)]) ↔
        ¬ Numeric P) := by
  have hpair : ∀ {P F : Text}, PlainOperand P → PlainOperand F → ∀ w ∈ [P, F], PlainOperand w := by
    intro P F hP hF w hw
    simp only [List.mem_cons, List.not_mem_nil, or_false] at hw
    rcases hw with rfl | rfl
    · exact hP
    · exact hF
  refine ⟨?_, ?_, ?_⟩
  · intro clusters P F hclusters hP hF
    have hflags : ∀ c ∈ ['i', 'n', 'c'], c ∈ SWITCHES := by simp [SWITCHES]
    have hname : Word "grep".toList := ⟨by simp, by simp [Text.isWhitespace]⟩
    have hentry : (COMMANDS (filesOut lower out)).find? (fun e => "grep".toList == e.name)
        = some (printing (filesOut lower out) "grep" "grep [-i|-n|-c] <pat> <path>") := rfl
    obtain ⟨arg, hline, harg⟩ :=
      dispatch_switches hname hflags hclusters (hpair hP hF) hentry s g
    refine ⟨arg, hline, ?_⟩
    rw [harg]
    exact positional_iff (hclusters.mono hflags) (hpair hP hF)
  · intro clusters F hclusters hF
    have hflags : ∀ c ∈ ['l', 'w', 'c'], c ∈ SWITCHES := by simp [SWITCHES]
    have hall : ∀ w ∈ [F], PlainOperand w := by simpa using hF
    have hname : Word "wc".toList := ⟨by simp, by simp [Text.isWhitespace]⟩
    have hentry : (COMMANDS (filesOut lower out)).find? (fun e => "wc".toList == e.name)
        = some (printing (filesOut lower out) "wc" "wc [-l|-w|-c] <path>") := rfl
    obtain ⟨arg, hline, harg⟩ := dispatch_switches hname hflags hclusters hall hentry s g
    refine ⟨arg, hline, ?_⟩
    rw [harg]
    exact positional_iff (hclusters.mono hflags) hall
  · intro clusters P F hclusters hP hF
    have hflags : ∀ c ∈ ['n'], c ∈ SWITCHES := by simp [SWITCHES]
    have hname : Word "echo".toList := ⟨by simp, by simp [Text.isWhitespace]⟩
    have hentry : (COMMANDS (filesOut lower out)).find? (fun e => "echo".toList == e.name)
        = some (printing (filesOut lower out) "echo" "echo [text]") := rfl
    obtain ⟨arg, hline, harg⟩ :=
      dispatch_switches hname hflags hclusters (hpair hP hF) hentry s g
    rw [hline, ← cmdEcho_iff hclusters hP hF harg]
    exact ⟨fun h => (Prod.mk.inj h).2, fun h => Prod.ext rfl h⟩

/-- `grep -in foo log`, `wc -l log` and `echo -n foo log`. -/
theorem switches_keep_operands_foo :
    (∃ arg, Session.dispatchLine (COMMANDS (filesOut id fun _ _ _ _ => [])) Shell.new
        ⟨[], [], [], none⟩ (switchLine "grep".toList [['i', 'n']] [['f', 'o', 'o'], ['l', 'o', 'g']])
        = (⟨[], [], [], none⟩, cmdGrep id ⟨[], [], [], none⟩ (some arg)) ∧
      ((parseArgs arg).positional = [['f', 'o', 'o'], ['l', 'o', 'g']] ↔
        ¬ Numeric ['f', 'o', 'o'])) ∧
    (∃ arg, Session.dispatchLine (COMMANDS (filesOut id fun _ _ _ _ => [])) Shell.new
        ⟨[], [], [], none⟩ (switchLine "wc".toList [['l']] [['l', 'o', 'g']])
        = (⟨[], [], [], none⟩, cmdWc ⟨[], [], [], none⟩ (some arg)) ∧
      ((parseArgs arg).positional = [['l', 'o', 'g']] ↔ ¬ Numeric ['l', 'o', 'g'])) ∧
    (Session.dispatchLine (COMMANDS (filesOut id fun _ _ _ _ => [])) Shell.new ⟨[], [], [], none⟩
        (switchLine "echo".toList [['n']] [['f', 'o', 'o'], ['l', 'o', 'g']])
        = (⟨[], [], [], none⟩, [.print (['f', 'o', 'o'] ++ ' ' :: ['l', 'o', 'g'])]) ↔
      ¬ Numeric ['f', 'o', 'o']) := by
  have hfoo : PlainOperand ['f', 'o', 'o'] :=
    { ne_nil := by simp, chars := by simp [Text.isWhitespace], dash := by simp, tilde := by simp }
  have hlog : PlainOperand ['l', 'o', 'g'] :=
    { ne_nil := by simp, chars := by simp [Text.isWhitespace], dash := by simp, tilde := by simp }
  obtain ⟨hgrep, hwc, hecho⟩ := switches_keep_operands id (fun _ _ _ _ => []) Shell.new
    ⟨[], [], [], none⟩
  exact ⟨hgrep [['i', 'n']] _ _ ⟨by simp, by simp⟩ hfoo hlog, hwc [['l']] _ ⟨by simp, by simp⟩ hlog,
    hecho [['n']] _ _ ⟨by simp, by simp⟩ hfoo hlog⟩

/-- `grep -i 2024 log` loses its pattern and prints how it is used. -/
theorem grep_loses_pattern :
    Switches ['i', 'n', 'c'] [['i']] ∧ PlainOperand ['2', '0', '2', '4'] ∧
      PlainOperand ['l', 'o', 'g'] ∧
      ∀ lower out s g, Session.dispatchLine (COMMANDS (filesOut lower out)) s g
          (switchLine "grep".toList [['i']] [['2', '0', '2', '4'], ['l', 'o', 'g']])
          = (g, cmdGrep lower g (some "-i 2024 log".toList)) ∧
        (parseArgs "-i 2024 log".toList).positional = [['l', 'o', 'g']] ∧
        cmdGrep lower g (some "-i 2024 log".toList) = grepUsage := by
  have hflags : Switches ['i', 'n', 'c'] [['i']] := ⟨by simp, by simp⟩
  have hyear : PlainOperand ['2', '0', '2', '4'] :=
    { ne_nil := by simp, chars := by simp [Text.isWhitespace], dash := by simp, tilde := by simp }
  have hlog : PlainOperand ['l', 'o', 'g'] :=
    { ne_nil := by simp, chars := by simp [Text.isWhitespace], dash := by simp, tilde := by simp }
  have hwords : ∀ w ∈ [['-', 'i'], ['2', '0', '2', '4'], ['l', 'o', 'g']], Word w := by
    intro w hw
    simp only [List.mem_cons, List.not_mem_nil, or_false] at hw
    rcases hw with rfl | rfl | rfl
    · exact ⟨by simp, by simp [Text.isWhitespace]⟩
    · exact hyear.toWord
    · exact hlog.toWord
  have harg : "-i 2024 log".toList
      = tildeExpand (unwords [['-', 'i'], ['2', '0', '2', '4'], ['l', 'o', 'g']]) := rfl
  have hparse : (parseArgs "-i 2024 log".toList).positional = [['l', 'o', 'g']] := by
    rw [harg, parseArgs_unwords hwords]
    have hclusters : Switches SWITCHES [['i']] := ⟨by simp, by simp [SWITCHES]⟩
    exact parseTokens_swallow hclusters (by simpa using hlog) (by simp [Numeric])
  refine ⟨hflags, hyear, hlog, fun lower out s g => ⟨?_, hparse, ?_⟩⟩
  · have hname : Word "grep".toList := ⟨by simp, by simp [Text.isWhitespace]⟩
    have hentry : (COMMANDS (filesOut lower out)).find? (fun e => "grep".toList == e.name)
        = some (printing (filesOut lower out) "grep" "grep [-i|-n|-c] <pat> <path>") := rfl
    rw [harg]
    exact dispatchLine_unwords hname (by simp) hwords hentry s g
  · unfold cmdGrep ParsedArgs.get
    dsimp only
    rw [hparse]
    rfl

end Handlers

end Words

end Amaterasu
