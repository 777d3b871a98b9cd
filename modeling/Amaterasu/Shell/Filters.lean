/-
`head`, `tail`, `wc`, `grep` and `cat` on one file.

Each of them reads the file for itself, and they agree on what its lines are: the parts that
`head` and `tail` print make up the whole, `wc -l` counts what `cat` ends, and `grep -n` gives
the numbers `head` counts by.  The exception is a carriage return in front of a line feed,
which only `cat` prints.
-/
import Amaterasu.Shell.Reading
import Amaterasu.Shell.Switches

namespace Amaterasu

namespace Text

/-- Lines, each of them ended. -/
def unlines (ls : List Text) : Text := ls.flatMap (· ++ ['\n'])

/-- A text with its last line ended. -/
def ended (t : Text) : Text := t ++ if t = [] ∨ t.getLast? = some '\n' then [] else ['\n']

theorem unlines_cons (l : Text) (ls : List Text) : unlines (l :: ls) = l ++ '\n' :: unlines ls := by
  simp [unlines]

theorem unlines_append (ls ls' : List Text) : unlines (ls ++ ls') = unlines ls ++ unlines ls' := by
  simp [unlines]

theorem lines_line {line : Text} (h : '\n' ∉ line) (rest : Text) :
    lines (line ++ '\n' :: rest) = stripReturn line :: lines rest := by
  have hsplit : (line ++ '\n' :: rest).splitOn '\n' = line :: rest.splitOn '\n' := by
    unfold List.splitOn
    rw [List.splitOnP_append_cons line rest (by simp), List.splitOnP_eq_singleton]
    · rfl
    · intro c hc
      simpa using fun heq : c = '\n' => h (heq ▸ hc)
  have hne : rest.splitOn '\n' ≠ [] := List.splitOn_ne_nil _ _
  unfold lines
  rw [hsplit]
  simp [List.dropLast_cons_of_ne_nil hne, List.getLastD_eq_getLast?, List.getLast?_cons,
    List.getLast?_eq_some_getLast hne]

theorem lines_last {t : Text} (h : '\n' ∉ t) : lines t = if t = [] then [] else [t] := by
  have hsplit : t.splitOn '\n' = [t] := by
    unfold List.splitOn
    refine List.splitOnP_eq_singleton fun c hc => ?_
    simpa using fun heq : c = '\n' => h (heq ▸ hc)
  unfold lines
  rw [hsplit]
  simp

/-- Line by line. -/
theorem line_induction {motive : Text → Prop} (last : ∀ t, '\n' ∉ t → motive t)
    (line : ∀ l rest, '\n' ∉ l → motive rest → motive (l ++ '\n' :: rest)) : ∀ t, motive t := by
  intro t
  induction hn : t.length using Nat.strong_induction_on generalizing t with
  | _ n ih =>
      by_cases h : '\n' ∈ t
      · obtain ⟨l, rest, rfl, hl⟩ := List.eq_append_cons_of_mem h
        refine line l rest hl (ih rest.length ?_ rest rfl)
        rw [← hn, List.length_append, List.length_cons]
        omega
      · exact last t h

theorem ended_line (l rest : Text) : ended (l ++ '\n' :: rest) = l ++ '\n' :: ended rest := by
  unfold ended
  rcases eq_or_ne rest [] with rfl | hne
  · simp
  · have hlast : (l ++ '\n' :: rest).getLast? = rest.getLast? := by
      rw [List.getLast?_append, List.getLast?_cons, List.getLast?_eq_some_getLast hne]
      rfl
    simp [hlast, hne]

theorem ended_last {t : Text} (h : '\n' ∉ t) (hne : t ≠ []) : ended t = t ++ ['\n'] := by
  have hlast : t.getLast? ≠ some '\n' := fun heq => h (List.mem_of_getLast? heq)
  simp [ended, hne, hlast]

/-- A line has no line feed in it. -/
theorem newline_notMem_lines (t : Text) : ∀ l ∈ lines t, '\n' ∉ l := by
  induction t using line_induction with
  | last t h =>
      rw [lines_last h]
      split
      · simp
      · simpa using h
  | line l rest h ih =>
      rw [lines_line h]
      have hstrip : '\n' ∉ stripReturn l := by
        unfold stripReturn
        split
        · exact fun hmem => h (List.mem_of_mem_dropLast hmem)
        · exact h
      simpa using ⟨hstrip, ih⟩

theorem count_unlines {ls : List Text} (h : ∀ l ∈ ls, '\n' ∉ l) :
    (unlines ls).count '\n' = ls.length := by
  induction ls with
  | nil => rfl
  | cons l ls ih =>
      have hl : l.count '\n' = 0 := List.count_eq_zero.mpr (h l List.mem_cons_self)
      have hls := ih fun l' hl' => h l' (List.mem_cons_of_mem _ hl')
      simp [unlines_cons, hl, hls]

/-- As many lines as the text ends. -/
theorem count_ended (t : Text) : (ended t).count '\n' = (lines t).length := by
  induction t using line_induction with
  | last t h =>
      have hcount : t.count '\n' = 0 := List.count_eq_zero.mpr h
      rw [lines_last h]
      by_cases hnil : t = []
      · simp [hnil, ended]
      · simp [ended_last h hnil, hnil, hcount]
  | line l rest h ih =>
      have hcount : l.count '\n' = 0 := List.count_eq_zero.mpr h
      simp [ended_line, lines_line h, hcount, ih]

/-- Where one line ends, the other does. -/
theorem line_inj {l l' rest rest' : Text} (h : '\n' ∉ l) (h' : '\n' ∉ l') :
    l ++ '\n' :: rest = l' ++ '\n' :: rest' ↔ l = l' ∧ rest = rest' := by
  constructor
  · intro heq
    have hl := congrArg (List.takeWhile (· != '\n')) heq
    have hall : ∀ m : Text, '\n' ∉ m → ∀ c ∈ m, (c != '\n') = true := fun m hm c hc => by
      simpa using fun hce : c = '\n' => hm (hce ▸ hc)
    rw [List.takeWhile_append_of_pos (hall l h), List.takeWhile_append_of_pos (hall l' h')] at hl
    have hll : l = l' := by simpa using hl
    subst hll
    simpa using heq
  · intro ⟨hl, hrest⟩
    rw [hl, hrest]

/-- A carriage return in front of a line feed is behind a line, or further on. -/
theorem return_infix {l : Text} (h : '\n' ∉ l) (rest : Text) :
    ['\r', '\n'] <:+: l ++ '\n' :: rest ↔ l.getLast? = some '\r' ∨ ['\r', '\n'] <:+: rest := by
  induction l with
  | nil => simp [List.infix_cons_iff]
  | cons c l ih =>
      have hl : '\n' ∉ l := fun hmem => h (List.mem_cons_of_mem _ hmem)
      rw [List.cons_append, List.infix_cons_iff, ih hl]
      rcases l with - | ⟨d, l⟩
      · simp [eq_comm]
      · have hd : '\n' ≠ d := fun heq => hl (heq ▸ List.mem_cons_self)
        simp [hd]

/-- The lines of a text are the text, but for carriage returns in front of line feeds. -/
theorem unlines_lines_iff (t : Text) : unlines (lines t) = ended t ↔ ¬ ['\r', '\n'] <:+: t := by
  induction t using line_induction with
  | last t h =>
      have hno : ¬ ['\r', '\n'] <:+: t := fun hin => h (hin.subset (by simp))
      rw [lines_last h]
      by_cases hnil : t = []
      · simp [hnil, unlines, ended]
      · simp [hnil, ended_last h hnil, unlines, hno]
  | line l rest h ih =>
      have hstrip : '\n' ∉ stripReturn l := by
        have hmem := newline_notMem_lines (l ++ '\n' :: rest)
        rw [lines_line h] at hmem
        exact hmem _ List.mem_cons_self
      have hself : stripReturn l = l ↔ l.getLast? ≠ some '\r' := by
        unfold stripReturn
        split
        · rename_i hlast
          have hne : l ≠ [] := by
            intro hnil
            simp [hnil] at hlast
          have hpos := List.length_pos_iff.mpr hne
          simp only [hlast, ne_eq, not_true, iff_false]
          intro heq
          have hlen := congrArg List.length heq
          rw [List.length_dropLast] at hlen
          omega
        · simpa
      rw [lines_line h, unlines_cons, ended_line, line_inj hstrip h, hself, ih, return_infix h]
      tauto

end Text

namespace Words

variable {g : Globals} {file pattern arg t : Text}

/-! ### What the commands are given -/

theorem numeric_decimal (k : Nat) : Numeric (Text.decimal k) := by
  obtain ⟨c, rest, hcons⟩ := List.exists_cons_of_ne_nil (Text.decimal_ne_nil k)
  have hmem : c ∈ Nat.toDigits 10 k := by
    have hself : c ∈ Text.decimal k := hcons ▸ List.mem_cons_self
    exact hself
  have hdigit := Nat.isDigit_of_mem_toDigits (by decide) (by decide) hmem
  simp [Numeric, hcons, hdigit]

/-- A count behind `-n`. -/
theorem parseTokens_count (k : Nat) (hfile : PlainOperand file) :
    parseTokens false [['-', 'n'], Text.decimal k, file] ⟨[], [], []⟩
      = ⟨[], [('n', Text.decimal k)], [file]⟩ := by
  have hplain : Plain ([] ++ ['n']) := by simp [Plain]
  have hcluster : Cluster ([] ++ ['n']) [Text.decimal k, file].head?
      (.nextValue [] 'n' (Text.decimal k)) true := .nextValue hplain (numeric_decimal k)
  have hall : ∀ w ∈ [file], PlainOperand w := List.forall_mem_singleton.mpr hfile
  have hreads := (Reads.cluster (by simp) hcluster).parseTokens_eq ⟨[], [], []⟩
  refine hreads.trans ?_
  simp [parseTokens_operands hall, Item.add, Item.flags, Item.flagVals, Item.positional]

theorem words_count (k : Nat) (hfile : PlainOperand file) :
    ∀ w ∈ [['-', 'n'], Text.decimal k, file], Word w := by
  intro w hw
  simp only [List.mem_cons, List.not_mem_nil, or_false] at hw
  rcases hw with rfl | rfl | rfl
  · exact ⟨by simp, by simp [Text.isWhitespace]⟩
  · refine ⟨Text.decimal_ne_nil k, fun c hc => ?_⟩
    obtain ⟨h₁, h₂, h₃, h₄, h₅, h₆, -⟩ := (PlainWord.decimal k).chars c hc
    exact ⟨h₁, h₂, h₃, h₄, h₅, h₆⟩
  · exact hfile.toWord

/-! ### What the commands print -/

theorem printed_map_println (ls : List Text) : printed (ls.map println) = Text.unlines ls :=
  List.flatMap_map ..

/-- A file is read whole. -/
theorem length_readAll {v : VNode} (h : v.kind = .file) : (readAll v).length = v.size := by
  cases v with
  | ramfsFile data => simp [readAll, VNode.read, VNode.size, readFile_bytes]
  | ramfsDir entries => exact absurd h (by simp [VNode.kind])
  | ownedFile data => simp [readAll, VNode.read, VNode.size, readFile_bytes]
  | dirRef ptr => exact absurd h (by simp [VNode.kind])

theorem printed_catPath {path : Text} (h : readFileStr g path = some t) :
    printed (catPath g path) = Text.ended t := by
  unfold readFileStr at h
  obtain ⟨node, hnode, h⟩ := Option.bind_eq_some_iff.mp h
  unfold catPath
  rw [hnode]
  dsimp only
  split at h
  · exact absurd h (by simp)
  · rename_i hkind
    have hfileKind := not_not.mp hkind
    rw [hfileKind]
    dsimp only
    split at h
    · rename_i hsize
      obtain rfl := Option.some.inj h
      rw [if_pos hsize]
      rfl
    · rename_i hsize
      rw [if_neg hsize, h]
      have hne : t ≠ [] := by
        intro hnil
        have hbytes := Text.encode_of_fromUtf8 h
        have hlen := length_readAll hfileKind
        rw [← hbytes, hnil] at hlen
        exact hsize hlen.symm
      by_cases hlast : t.getLast? = some '\n'
      · simp [hlast, printed, Text.ended]
      · simp [hlast, hne, printed, Text.ended]

/-! ### The commands on one file -/

/-- What is printed when a line of words is entered. -/
def output (lower : Text → Text) (out : Text → Shell → Globals → Option Text → List Writer.Op)
    (s : Shell) (g : Globals) (words : List Text) : Text :=
  printed (Session.dispatchLine (COMMANDS (filesOut lower out)) s g (unwords words)).2

section Output

variable (lower : Text → Text) (out : Text → Shell → Globals → Option Text → List Writer.Op)
  (s : Shell)

theorem output_cat (hfile : PlainOperand file) (hread : readFileStr g (target g file) = some t) :
    output lower out s g ["cat".toList, file] = Text.ended t := by
  have hlook : PathCommand.cat.lookedUp g (unwords [PathCommand.cat.name, file])
      = some (target g file) := by
    rw [lookedUp_line _ g hfile.toWord, hfile.tildeExpand_self]
    rfl
  have hline := PathCommand.dispatchLine_lookedUp lower out .cat hfile.toWord s g hlook
  exact (congrArg (fun r => printed r.2) hline).trans (printed_catPath hread)

/-- A command that only prints gets its words as they are. -/
theorem output_words {name usage : String} (hname : Word name.toList)
    (hentry : (COMMANDS (filesOut lower out)).find? (fun e => name.toList == e.name)
      = some (printing (filesOut lower out) name usage)) {words : List Text} (hne : words ≠ [])
    (hwords : ∀ w ∈ words, Word w) :
    ∃ arg, parseArgs arg = parseTokens false words ⟨[], [], []⟩ ∧
      output lower out s g (name.toList :: words)
        = printed (filesOut lower out name.toList s g (some arg)) := by
  refine ⟨_, parseArgs_unwords hwords, ?_⟩
  have hline := dispatchLine_unwords hname hne hwords hentry s g
  exact congrArg (fun r => printed r.2) hline

theorem cmdLines_count (name : Text) (pick : Nat → List Text → List Text) {k : Nat}
    (harg : parseArgs arg = ⟨[], [('n', Text.decimal k)], [file]⟩)
    (hread : readFileStr g (target g file) = some t) (hk : k < 2 ^ 64) :
    cmdLines name pick g (some arg) = (pick k (Text.lines t)).map println := by
  have hcount : lineCount ⟨[], [('n', Text.decimal k)], [file]⟩ = k := by
    simp only [lineCount, ParsedArgs.flagVal, List.find?_cons_of_pos, beq_self_eq_true,
      Option.map_some, Option.bind_some, Text.usizeFromRadix_decimal, if_pos hk, Option.getD_some]
  unfold cmdLines
  dsimp only
  rw [harg, hcount]
  simp [ParsedArgs.get, hread]

theorem output_head (hfile : PlainOperand file) (hread : readFileStr g (target g file) = some t)
    {k : Nat} (hk : k < 2 ^ 64) :
    output lower out s g ["head".toList, "-n".toList, Text.decimal k, file]
      = Text.unlines ((Text.lines t).take k) := by
  have hname : Word "head".toList := ⟨by simp, by simp [Text.isWhitespace]⟩
  obtain ⟨arg, harg, hout⟩ := output_words lower out s hname rfl (List.cons_ne_nil _ _)
    (words_count k hfile)
  rw [parseTokens_count k hfile] at harg
  rw [← printed_map_println]
  have hrun := cmdLines_count "head".toList (fun count lines => lines.take count) harg hread hk
  exact hout.trans (congrArg printed hrun)

theorem output_tail (hfile : PlainOperand file) (hread : readFileStr g (target g file) = some t)
    {k : Nat} (hk : k < 2 ^ 64) :
    output lower out s g ["tail".toList, "-n".toList, Text.decimal k, file]
      = Text.unlines ((Text.lines t).drop ((Text.lines t).length - k)) := by
  have hname : Word "tail".toList := ⟨by simp, by simp [Text.isWhitespace]⟩
  obtain ⟨arg, harg, hout⟩ := output_words lower out s hname rfl (List.cons_ne_nil _ _)
    (words_count k hfile)
  rw [parseTokens_count k hfile] at harg
  rw [← printed_map_println]
  have hrun := cmdLines_count "tail".toList
    (fun count lines => lines.drop (lines.length - count)) harg hread hk
  exact hout.trans (congrArg printed hrun)

theorem output_wc (hfile : PlainOperand file) (hplain : ¬ Numeric file)
    (hread : readFileStr g (target g file) = some t) :
    output lower out s g ["wc".toList, "-l".toList, file]
      = Text.decimalPad 8 (Text.lines t).length ++ ' ' :: target g file ++ ['\n'] := by
  have hname : Word "wc".toList := ⟨by simp, by simp [Text.isWhitespace]⟩
  have hall : ∀ w ∈ [file], PlainOperand w := List.forall_mem_singleton.mpr hfile
  have hclusters : Switches SWITCHES [['l']] := ⟨by simp, by simp [SWITCHES]⟩
  obtain ⟨arg, harg, hout⟩ := output_words lower out s (g := g) hname rfl (List.cons_ne_nil _ _)
    (hclusters.words (fun _ hc => hc) hall)
  have hswitches := parseTokens_switches hclusters hall hplain
  have hargs : parseArgs arg = ⟨['l'], [], [file]⟩ := harg.trans hswitches
  refine hout.trans ?_
  have hrun : filesOut lower out "wc".toList s g (some arg) = cmdWc g (some arg) := rfl
  unfold cmdWc at hrun
  dsimp only at hrun
  rw [hrun, hargs]
  simp [ParsedArgs.get, ParsedArgs.hasFlag, hread, printed, println]

/-! ### `grep` -/

/-- The lines that `grep` finds, with their numbers from zero. -/
def found (pattern t : Text) : List (Nat × Text) :=
  ((Text.lines t).zipIdx.filter fun e => pattern <:+: e.1).map Prod.swap

theorem printed_cmdGrep {flags : List Char}
    (harg : parseArgs arg = ⟨flags, [], [pattern, file]⟩) (hi : 'i' ∉ flags)
    (hread : readFileStr g (target g file) = some t) :
    printed (cmdGrep lower g (some arg))
      = ((found pattern t).flatMap fun e =>
          printed (grepRow ⟨flags, [], [pattern, file]⟩ e.1 e.2))
        ++ if 'c' ∈ flags then Text.decimal (found pattern t).length ++ ['\n'] else [] := by
  have hfold : (ParsedArgs.mk flags [] [pattern, file]).hasFlag 'i' = false := by
    simp [ParsedArgs.hasFlag, hi]
  have hcount : (ParsedArgs.mk flags [] [pattern, file]).hasFlag 'c' = decide ('c' ∈ flags) := by
    simp [ParsedArgs.hasFlag]
  unfold cmdGrep
  dsimp only
  rw [harg]
  simp only [ParsedArgs.get, List.getElem?_cons_zero, List.getElem?_cons_succ, hread, hfold, hcount,
    Bool.false_eq_true, if_false, decide_eq_true_eq]
  rw [printed_append, printed_flatMap]
  congr 1
  · simp [found, List.flatMap_map]
  · split
    · simp [found, printed_println]
    · rfl

theorem output_grep (hpattern : PlainOperand pattern) (hfile : PlainOperand file)
    (hread : readFileStr g (target g file) = some t) :
    output lower out s g ["grep".toList, pattern, file]
      = Text.unlines ((found pattern t).map Prod.snd) := by
  have hname : Word "grep".toList := ⟨by simp, by simp [Text.isWhitespace]⟩
  have hall : ∀ w ∈ [pattern, file], PlainOperand w := by simpa using ⟨hpattern, hfile⟩
  obtain ⟨arg, harg, hout⟩ := output_words lower out s (g := g) hname rfl (List.cons_ne_nil _ _)
    fun w hw => (hall w hw).toWord
  rw [parseTokens_operands hall] at harg
  refine hout.trans ((printed_cmdGrep lower harg (by simp) hread).trans ?_)
  simp [Text.unlines, grepRow, ParsedArgs.hasFlag, printed_println, List.flatMap_map]

/-- `grep` with one flag. -/
theorem output_grep_flag (flag : Char) (hflag : flag ∈ ['n', 'c']) (hpattern : PlainOperand pattern)
    (hplain : ¬ Numeric pattern) (hfile : PlainOperand file)
    (hread : readFileStr g (target g file) = some t) :
    output lower out s g ["grep".toList, ['-', flag], pattern, file]
      = ((found pattern t).flatMap fun e =>
          printed (grepRow ⟨[flag], [], [pattern, file]⟩ e.1 e.2))
        ++ if 'c' ∈ [flag] then Text.decimal (found pattern t).length ++ ['\n'] else [] := by
  have hname : Word "grep".toList := ⟨by simp, by simp [Text.isWhitespace]⟩
  have hall : ∀ w ∈ [pattern, file], PlainOperand w := by simpa using ⟨hpattern, hfile⟩
  have hmem : flag = 'n' ∨ flag = 'c' := by simpa using hflag
  have hclusters : Switches SWITCHES [[flag]] := by
    refine ⟨by simp, ?_⟩
    rcases hmem with rfl | rfl <;> simp [SWITCHES]
  obtain ⟨arg, harg, hout⟩ := output_words lower out s (g := g) hname rfl (List.cons_ne_nil _ _)
    (hclusters.words (fun _ hc => hc) hall)
  have hargs : parseArgs arg = ⟨[flag], [], [pattern, file]⟩ :=
    harg.trans (parseTokens_switches hclusters hall hplain)
  refine hout.trans (printed_cmdGrep lower hargs ?_ hread)
  rcases hmem with rfl | rfl <;> simp

theorem mem_found {i : Nat} {line : Text} :
    (i, line) ∈ found pattern t ↔ (Text.lines t)[i]? = some line ∧ pattern <:+: line := by
  simp [found, List.mem_zipIdx_iff_getElem?]

theorem found_sorted : (found pattern t).Pairwise fun e e' => e.1 < e'.1 := by
  have hall : ((Text.lines t).zipIdx.map Prod.snd).Pairwise (· < ·) := by
    rw [List.zipIdx_map_snd]
    exact List.pairwise_lt_range'
  exact List.pairwise_map.mpr ((List.pairwise_map.mp hall).filter _)

/-- One more line of `head` is the line that it is. -/
theorem head_succ {i : Nat} (hi : i < (Text.lines t).length) (line : Text) :
    Text.unlines ((Text.lines t).take (i + 1))
        = Text.unlines ((Text.lines t).take i) ++ line ++ ['\n']
      ↔ (Text.lines t)[i]? = some line := by
  rw [List.take_add_one, List.getElem?_eq_getElem hi, Option.toList_some, Text.unlines_append,
    List.append_assoc, List.append_cancel_left_eq, Option.some_inj]
  simp [Text.unlines]

/--
**The commands on one file agree.**  For a text file of `n` lines and whatever the shell is:
what `head -n k` prints and what `tail` prints of the rest are together what `head -n n`
prints, which is what `cat` prints exactly if no carriage return stands in front of a line
feed; `wc -l` counts the lines that `cat` ends; `grep -c` counts the lines that `grep` prints;
and `grep -n` numbers them, in order, such that line `i` is the one that `head` prints last
when it is asked for `i` of them.
-/
theorem filters_agree (hfile : PlainOperand file) (hplain : ¬ Numeric file)
    (hread : readFileStr g (target g file) = some t) (hlen : (Text.lines t).length < 2 ^ 64) :
    let run := output lower out s g
    let n := (Text.lines t).length
    let head := fun k => run ["head".toList, "-n".toList, Text.decimal k, file]
    (∀ k ≤ n, head k ++ run ["tail".toList, "-n".toList, Text.decimal (n - k), file] = head n) ∧
    (head n = run ["cat".toList, file] ↔ ¬ ['\r', '\n'] <:+: t) ∧
    (run ["wc".toList, "-l".toList, file]
        = Text.decimalPad 8 n ++ ' ' :: target g file ++ ['\n'] ∧
      (run ["cat".toList, file]).count '\n' = n) ∧
    ∀ pattern, PlainOperand pattern → ¬ Numeric pattern →
      (run ["grep".toList, "-c".toList, pattern, file]
        = Text.decimal ((run ["grep".toList, pattern, file]).count '\n') ++ ['\n']) ∧
      ∃ rows : List (Nat × Text), (rows.Pairwise fun e e' => e.1 < e'.1) ∧
        run ["grep".toList, pattern, file] = rows.flatMap (fun e => e.2 ++ ['\n']) ∧
        run ["grep".toList, "-n".toList, pattern, file]
          = rows.flatMap (fun e => Text.decimal (e.1 + 1) ++ ':' :: e.2 ++ ['\n']) ∧
        ∀ i line, (i, line) ∈ rows ↔
          i < n ∧ pattern <:+: line ∧ head (i + 1) = head i ++ line ++ ['\n'] := by
  intro run n head
  have hhead : ∀ k ≤ n, head k = Text.unlines ((Text.lines t).take k) := fun k hk =>
    output_head lower out s hfile hread (Nat.lt_of_le_of_lt hk hlen)
  have hcat : run ["cat".toList, file] = Text.ended t := output_cat lower out s hfile hread
  have hwhole : head n = Text.unlines (Text.lines t) := by
    rw [hhead n (Nat.le_refl n), List.take_length]
  refine ⟨fun k hk => ?_, ?_, ⟨output_wc lower out s hfile hplain hread, ?_⟩,
    fun pattern hp hpn => ?_⟩
  · have htail := output_tail lower out s hfile hread (k := n - k) (by omega)
    have hrest : run ["tail".toList, "-n".toList, Text.decimal (n - k), file]
        = Text.unlines ((Text.lines t).drop (n - (n - k))) := htail
    rw [hhead k hk, hwhole, hrest, ← Text.unlines_append, Nat.sub_sub_self hk,
      List.take_append_drop]
  · rw [hwhole, hcat]
    exact Text.unlines_lines_iff t
  · rw [hcat]
    exact Text.count_ended t
  · have hgrep : run ["grep".toList, pattern, file]
        = Text.unlines ((found pattern t).map Prod.snd) := output_grep lower out s hp hfile hread
    have hno : ∀ line ∈ (found pattern t).map Prod.snd, '\n' ∉ line := by
      intro line hline
      obtain ⟨⟨i, line'⟩, he, rfl⟩ := List.mem_map.mp hline
      exact Text.newline_notMem_lines t _ (List.mem_of_getElem? (mem_found.mp he).1)
    refine ⟨?_, found pattern t, found_sorted, ?_, ?_, fun i line => ?_⟩
    · rw [hgrep, Text.count_unlines hno, List.length_map]
      refine (output_grep_flag lower out s 'c' (by simp) hp hpn hfile hread).trans ?_
      simp [grepRow, ParsedArgs.hasFlag, printed]
    · rw [hgrep]
      simp [Text.unlines, List.flatMap_map]
    · refine (output_grep_flag lower out s 'n' (by simp) hp hpn hfile hread).trans ?_
      simp [grepRow, ParsedArgs.hasFlag, printed_println]
    · rw [mem_found]
      constructor
      · intro h
        obtain ⟨hline, hin⟩ := h
        have hi : i < n := (List.getElem?_eq_some_iff.mp hline).1
        refine ⟨hi, hin, ?_⟩
        rw [hhead _ hi, hhead _ (Nat.le_of_lt hi)]
        exact (head_succ hi line).mpr hline
      · intro h
        obtain ⟨hi, hin, hsucc⟩ := h
        rw [hhead _ hi, hhead _ (Nat.le_of_lt hi)] at hsucc
        exact ⟨(head_succ hi line).mp hsucc, hin⟩

end Output

theorem filters_agree_two_lines :
    let g := mounted ⟨[], [], [], none⟩ [(['f'], .file (Text.encode ['a', '\n', 'b']))]
    let run := output id (fun _ _ _ _ => []) Shell.new g
    run ["head".toList, "-n".toList, "1".toList, ['f']]
        ++ run ["tail".toList, "-n".toList, "1".toList, ['f']]
      = run ["cat".toList, ['f']] ∧
    run ["wc".toList, "-l".toList, ['f']] = "       2 /f\n".toList := by
  intro g run
  have hfile : PlainOperand ['f'] :=
    ⟨⟨by simp, by simp [Text.isWhitespace]⟩, by simp, by simp⟩
  have hread : readFileStr g (target g ['f']) = some ['a', '\n', 'b'] := by
    have hsegment : ∀ p ∈ [['f']], Segment p := by simp [Segment]
    obtain ⟨v, hlook, hstands⟩ := lookup_spell (g := ⟨[], [], [], none⟩) hsegment (by simp)
      (show (Ramfs.Node.dir [(['f'], .file (Text.encode ['a', '\n', 'b']))]).find [['f']]
        = some (.file (Text.encode ['a', '\n', 'b'])) from rfl)
    have hpath : target g ['f'] = spell [['f']] := by rfl
    rw [hpath]
    unfold readFileStr
    rw [show g.root = _ from rfl, hlook]
    have hsize : v.size ≠ 0 := by
      rw [hstands.size]
      decide
    simp [hstands.kind, hsize, readAll_stands hstands, Text.fromUtf8_encode]
  obtain ⟨hparts, hcat, ⟨hwc, -⟩, -⟩ := filters_agree id (fun _ _ _ _ => []) Shell.new hfile
    (by decide) hread (by decide)
  exact ⟨(hparts 1 (by decide)).trans (hcat.mpr (by decide)), hwc⟩

end Words

end Amaterasu
