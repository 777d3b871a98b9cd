/-
The commands that change what a later command sees, and the table of all commands.

`history`, `cd` and `export` are modelled whole; so is `clear`, the one command that
paints other than by printing.  The rest only print: what they print is a parameter of
the table, which is all that the state of the shell needs to know of them.
-/
import Amaterasu.Shell.Steps

namespace Amaterasu

/-- `println!`. -/
def println (t : Text) : Writer.Op := .print (t ++ ['\n'])

namespace Globals

def PWD : Text := ['P', 'W', 'D']

/-- `env::set`. -/
def setEnv (g : Globals) (key val : Text) : Globals :=
  { g with env := (key, val) :: g.env.filter fun e => e.1 ≠ key }

/-- `cwd_prev_get`. -/
def cwdPrevGet (g : Globals) : Text := if g.prevCwd = [] then ['/'] else g.prevCwd

/-- `cwd_set`: the old value is kept as it is, empty or not. -/
def cwdSet (g : Globals) (new : Text) : Globals := { g with cwd := new, prevCwd := g.cwd }

/-- The globals after `env::init` and `vfs::mount`. -/
def init (root : VNode) : Globals where
  cwd := []
  prevCwd := []
  env := [("HOME".toList, ['/']), ("SHELL".toList, "sh".toList), (PWD, ['/'])]
  root := Vfs.mount root

@[simp] theorem getEnv_setEnv_self (g : Globals) (key val : Text) :
    (g.setEnv key val).getEnv key = some val := by
  simp [getEnv, setEnv]

theorem getEnv_setEnv_ne {g : Globals} {key key' val : Text} (h : key' ≠ key) :
    (g.setEnv key val).getEnv key' = g.getEnv key' := by
  unfold getEnv setEnv
  rw [List.find?_cons_of_neg (by simpa using Ne.symm h), List.find?_filter]
  congr 2
  funext e
  by_cases he : e.1 = key'
  · simp [he, h]
  · simp [he]

end Globals

/-! ### Command bodies -/

/-- One line of `history`. -/
def historyRow (num : Nat) (line : Text) : Writer.Op :=
  println (Text.decimalPad 4 num ++ [' ', ' '] ++ line)

def cmdHistory (s : Shell) (g : Globals) (arg : Option Text) : Globals × List Writer.Op :=
  let available := min s.histCount HIST_CAP
  if available = 0 then (g, [])
  else
    let limit := match arg with
      | some t => min ((Text.usizeFromRadix 10 (Text.trim t)).getD available) available
      | none => available
    let skip := available - limit
    let startSlot := (s.histCount - available + skip) % HIST_CAP
    let startNum := s.histCount - available + skip + 1
    (g, (List.range limit).map fun i =>
      historyRow (startNum + i) (s.entry (Shell.slot (startSlot + i))))

def cmdCd (g : Globals) (arg : Option Text) : Globals × List Writer.Op :=
  match arg with
  | none => ((g.cwdSet ['/']).setEnv Globals.PWD ['/'], [])
  | some path =>
      if path = ['-'] then
        let prev := g.cwdPrevGet
        ((g.setEnv Globals.PWD prev).cwdSet prev, [])
      else
        let resolved := Words.normalize (Words.resolve g path)
        if resolved = ['/'] then ((g.cwdSet ['/']).setEnv Globals.PWD ['/'], [])
        else match Vfs.lookup g.root resolved with
          | none => (g, [println ("cd: not found: ".toList ++ path)])
          | some node =>
              match node.kind with
              | .file => (g, [println ("cd: not a directory: ".toList ++ path)])
              | .dir => ((g.setEnv Globals.PWD resolved).cwdSet resolved, [])

/-- The order of `String`, by code points. -/
def textLe : Text → Text → Bool
  | [], _ => true
  | _ :: _, [] => false
  | a :: as, b :: bs => if a = b then textLe as bs else decide (a.toNat < b.toNat)

/-- The variables, sorted by name. -/
def exportList (g : Globals) : List Writer.Op :=
  (g.env.mergeSort fun a b => textLe a.1 b.1).map fun e => println (e.1 ++ '=' :: e.2)

def cmdExport (g : Globals) (arg : Option Text) : Globals × List Writer.Op :=
  match arg with
  | none => (g, exportList g)
  | some t =>
      let s := Text.trim t
      if '=' ∈ s then
        (g.setEnv (s.takeWhile (· != '=')) ((s.dropWhile (· != '=')).drop 1), [])
      else if s = [] then (g, exportList g)
      else match g.getEnv s with
        | some v => (g, [println (s ++ '=' :: v)])
        | none => (g, [println ("export: ".toList ++ s ++ ": not set".toList)])

/-! ### The table -/

/-- An entry for a command that only prints. -/
def printing (out : Text → Shell → Globals → Option Text → List Writer.Op) (name usage : String) :
    Cmd where
  name := name.toList
  usage := usage.toList
  run := fun s g arg => (g, out name.toList s g arg)

def COMMANDS (out : Text → Shell → Globals → Option Text → List Writer.Op) : List Cmd :=
  [printing out "echo" "echo [text]",
    printing out "uname" "uname [-a|-s|-r|-m]",
    printing out "hostname" "hostname",
    printing out "wc" "wc [-l|-w|-c] <path>",
    printing out "head" "head [-n N] <path>",
    printing out "tail" "tail [-n N] <path>",
    printing out "grep" "grep [-i|-n|-c] <pat> <path>",
    ⟨"clear".toList, "clear".toList, fun _ g _ => (g, [.clear])⟩,
    printing out "ls" "ls [path]",
    printing out "cat" "cat <path>",
    printing out "stat" "stat <path>",
    ⟨"cd".toList, "cd [path]".toList, fun _ g arg => cmdCd g arg⟩,
    printing out "pwd" "pwd",
    printing out "cpu" "cpu",
    printing out "uptime" "uptime",
    printing out "heap" "heap",
    printing out "reboot" "reboot",
    printing out "shutdown" "shutdown",
    ⟨"export".toList, "export [VAR=value | VAR | (none)]".toList, fun _ g arg => cmdExport g arg⟩,
    ⟨"history".toList, "history [n]".toList, cmdHistory⟩,
    printing out "help" "help [command]"]

/-! ### A line of two words -/

/-- A text without anything the command line gives a meaning to. -/
structure PlainWord (t : Text) : Prop where
  ne_nil : t ≠ []
  chars : ∀ c ∈ t, Text.isWhitespace c = false ∧ c ≠ '"' ∧ c ≠ '\'' ∧ c ≠ ';' ∧ c ≠ '&' ∧ c ≠ '$' ∧
    c ≠ '~'

namespace PlainWord

variable {name arg : Text}

/-- A number as it is printed. -/
theorem decimal (n : Nat) : PlainWord (Text.decimal n) where
  ne_nil := Text.decimal_ne_nil n
  chars := by
    intro c hc
    obtain ⟨hlo, hhi⟩ := Text.decimal_isDigit hc
    have hzero : '0'.toNat = 48 := rfl
    have hne : ∀ d : Char, d.toNat < 48 ∨ 57 < d.toNat → c ≠ d := by
      rintro d hd rfl
      omega
    refine ⟨?_, hne _ (by decide), hne _ (by decide), hne _ (by decide), hne _ (by decide),
      hne _ (by decide), hne _ (by decide)⟩
    unfold Text.isWhitespace
    simp only [Bool.or_eq_false_iff, Bool.and_eq_false_iff, decide_eq_false_iff_not,
      beq_eq_false_iff_ne]
    omega

theorem head (h : PlainWord arg) : ∀ c ∈ arg.head?, Text.isWhitespace c = false := by
  intro c hc
  exact (h.chars c (List.mem_of_head? hc)).1

theorem last (h : PlainWord arg) : ∀ c ∈ arg.getLast?, Text.isWhitespace c = false := by
  intro c hc
  exact (h.chars c (List.mem_of_getLast? hc)).1

theorem trim (h : PlainWord arg) : Text.trim arg = arg := Text.trim_eq_self h.ne_nil h.head h.last

/-- The characters of a line of two words. -/
theorem mem_line (hname : PlainWord name) (harg : PlainWord arg) {c : Char}
    (hc : c ∈ name ++ ' ' :: arg) : c ≠ '"' ∧ c ≠ '\'' ∧ c ≠ ';' ∧ c ≠ '&' ∧ c ≠ '$' := by
  rcases List.mem_append.mp hc with hc | hc
  · obtain ⟨-, h₁, h₂, h₃, h₄, h₅, -⟩ := hname.chars c hc
    exact ⟨h₁, h₂, h₃, h₄, h₅⟩
  · rcases List.mem_cons.mp hc with rfl | hc
    · decide
    · obtain ⟨-, h₁, h₂, h₃, h₄, h₅, -⟩ := harg.chars c hc
      exact ⟨h₁, h₂, h₃, h₄, h₅⟩

theorem trim_line (hname : PlainWord name) (harg : PlainWord arg) :
    Text.trim (name ++ ' ' :: arg) = name ++ ' ' :: arg := by
  apply Text.trim_eq_self
  · simp
  · intro c hc
    rw [List.head?_append_of_ne_nil _ hname.ne_nil] at hc
    exact hname.head c hc
  · intro c hc
    rw [List.getLast?_append, List.getLast?_cons,
      List.getLast?_eq_getLast_of_ne_nil harg.ne_nil] at hc
    exact harg.last c (by rw [List.getLast?_eq_getLast_of_ne_nil harg.ne_nil]; simpa using hc)

/-- The first word of the line. -/
theorem takeWhile_line (hname : PlainWord name) :
    (name ++ ' ' :: arg).takeWhile (fun c => !Text.isWhitespace c) = name ∧
      (name ++ ' ' :: arg).dropWhile (fun c => !Text.isWhitespace c) = ' ' :: arg := by
  have hall : ∀ c ∈ name, (!Text.isWhitespace c) = true := by
    intro c hc
    rw [(hname.chars c hc).1]
    rfl
  refine ⟨?_, ?_⟩
  · rw [List.takeWhile_append_of_pos hall, List.takeWhile_cons_of_neg (by decide), List.append_nil]
  · rw [List.dropWhile_append_of_pos hall, List.dropWhile_cons_of_neg (by decide)]

theorem unquote_self (h : PlainWord arg) : Words.unquote arg = arg := by
  unfold Words.unquote
  rw [if_neg]
  rintro ⟨-, ⟨hq, -⟩ | ⟨hq, -⟩⟩
  · exact (h.chars _ (List.mem_of_head? hq)).2.1 rfl
  · exact (h.chars _ (List.mem_of_head? hq)).2.2.1 rfl

theorem tildeExpand_self (h : PlainWord arg) : Words.tildeExpand arg = arg := by
  unfold Words.tildeExpand
  split
  · rename_i rest
    exact absurd rfl (h.chars '~' List.mem_cons_self).2.2.2.2.2.2
  · rfl

theorem cmdArg_line (hname : PlainWord name) (harg : PlainWord arg) :
    Words.cmdArg (name ++ ' ' :: arg) = some arg := by
  unfold Words.cmdArg
  rw [(takeWhile_line hname).2]
  show (if Text.trim arg = [] then none
    else some (Words.tildeExpand (Words.unquote (Text.trim arg)))) = _
  rw [harg.trim, if_neg harg.ne_nil, harg.unquote_self, harg.tildeExpand_self]

/-- A line of two words runs the command the first one names. -/
theorem dispatchLine (hname : PlainWord name) (harg : PlainWord arg) {commands : List Cmd}
    {entry : Cmd} (hentry : commands.find? (fun e => name == e.name) = some entry) (s : Shell)
    (g : Globals) :
    Session.dispatchLine commands s g (name ++ ' ' :: arg) = entry.run s g (some arg) := by
  have hsplit : Words.splitCommands (name ++ ' ' :: arg) = [name ++ ' ' :: arg] := by
    apply Words.splitCommands_plain
    intro c hc
    obtain ⟨h₁, h₂, h₃, h₄, -⟩ := hname.mem_line harg hc
    exact ⟨h₁, h₂, h₃, h₄⟩
  have hexpand : Words.expand g (name ++ ' ' :: arg) = name ++ ' ' :: arg := by
    apply Words.expand_plain
    intro hmem
    exact (hname.mem_line harg hmem).2.2.2.2 rfl
  have hne : name ++ ' ' :: arg ≠ [] := by simp
  have hfind : (commands.find? fun e => Words.nameEq (name ++ ' ' :: arg) e.name) = some entry := by
    unfold Words.nameEq
    rw [(takeWhile_line hname).1]
    exact hentry
  have hone : Session.dispatchOne commands s g (name ++ ' ' :: arg) = entry.run s g (some arg) := by
    unfold Session.dispatchOne
    simp only [hname.trim_line harg, hexpand, hne, hfind, cmdArg_line hname harg, if_false]
  unfold Session.dispatchLine
  rw [hsplit, List.foldl_cons, List.foldl_nil, hname.trim_line harg, if_neg hne, hone]
  rfl

end PlainWord

end Amaterasu
