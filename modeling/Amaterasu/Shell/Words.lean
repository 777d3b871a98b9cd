/-
The shell's functions on text: splitting a line into commands, expanding variables,
finding a command's argument, resolving paths, and completing names.

They are translated one by one.  A slice of a `str` that the source takes by byte
offsets is `Text.byteSlice` where the offset can fall inside a character, and a
function on lists where it is next to an ASCII character.
-/
import Amaterasu.Fs.Ramfs

namespace Amaterasu

/-! ### The globals a command can touch -/

/-- `CWD`, `PREV_CWD`, `ENV` and the VFS root. -/
structure Globals where
  cwd : Text
  prevCwd : Text
  env : List (Text × Text)
  root : Option VNode

namespace Globals

/-- `env::get`. -/
def getEnv (g : Globals) (key : Text) : Option Text :=
  (g.env.find? (·.1 = key)).map Prod.snd

/-- `cwd_get`. -/
def cwdGet (g : Globals) : Text := if g.cwd = [] then ['/'] else g.cwd

end Globals

namespace Words

/-! ### The command line -/

/-- The body of `split_commands`: the open quote, and the segment read so far. -/
def splitFrom : Option Char → Text → Text → List Text
  | _, seg, [] => [seg]
  | some q, seg, ch :: rest => splitFrom (if ch = q then none else some q) (seg ++ [ch]) rest
  | none, seg, '&' :: '&' :: rest => seg :: splitFrom none [] rest
  | none, seg, ch :: rest =>
      if ch = '"' ∨ ch = '\'' then splitFrom (some ch) (seg ++ [ch]) rest
      else if ch = ';' then seg :: splitFrom none [] rest
      else splitFrom none (seg ++ [ch]) rest

def splitCommands (input : Text) : List Text := splitFrom none [] input

/-- Without quotes and separators a line is one command. -/
theorem splitCommands_plain {input : Text}
    (h : ∀ c ∈ input, c ≠ '"' ∧ c ≠ '\'' ∧ c ≠ ';' ∧ c ≠ '&') : splitCommands input = [input] := by
  have hfrom : ∀ (rest seg : Text), (∀ c ∈ rest, c ≠ '"' ∧ c ≠ '\'' ∧ c ≠ ';' ∧ c ≠ '&') →
      splitFrom none seg rest = [seg ++ rest] := by
    intro rest
    induction rest with
    | nil =>
        intro seg _
        rw [splitFrom, List.append_nil]
    | cons ch rest ih =>
        intro seg hall
        obtain ⟨hd, hs, hsemi, hamp⟩ := hall ch List.mem_cons_self
        rw [splitFrom, if_neg (by simp [hd, hs]), if_neg hsemi,
          ih _ fun c hc => hall c (List.mem_cons_of_mem _ hc), List.append_assoc]
        · rfl
        · intro rest' hcons
          exact absurd hcons hamp
  exact hfrom input [] h

def isKeyChar (c : Char) : Bool := c.isAlphanum || c == '_'

/-- `env::expand`. -/
def expand (g : Globals) : Text → Text
  | [] => []
  | ch :: rest =>
      if ch ≠ '$' then ch :: expand g rest
      else match rest with
        | [] => ['$']
        | c :: rest' =>
            if c = '{' then
              (g.getEnv (rest'.takeWhile (· != '}'))).getD []
                ++ expand g ((rest'.dropWhile (· != '}')).drop 1)
            else if isKeyChar c then
              (g.getEnv (c :: rest'.takeWhile isKeyChar)).getD []
                ++ expand g (rest'.dropWhile isKeyChar)
            else '$' :: expand g (c :: rest')
termination_by s => s.length
decreasing_by
  all_goals simp only [List.length_cons, List.length_drop]
  · omega
  · have := (List.dropWhile_suffix (l := rest') (· != '}')).length_le
    omega
  · have := (List.dropWhile_suffix (l := rest') isKeyChar).length_le
    omega
  · omega

/-- Without a dollar sign there is nothing to expand. -/
theorem expand_plain (g : Globals) {s : Text} (h : '$' ∉ s) : expand g s = s := by
  induction s with
  | nil => rw [expand]
  | cons ch rest ih =>
      have hne : ch ≠ '$' := by
        rintro rfl
        exact h List.mem_cons_self
      rw [expand.eq_def]
      dsimp only
      rw [if_pos hne, ih fun hmem => h (List.mem_cons_of_mem _ hmem)]

def tildeExpand : Text → Text
  | '~' :: rest => '/' :: rest
  | s => s

/-- `name_eq`: the first word of a command is a name. -/
def nameEq (chars name : Text) : Bool := chars.takeWhile (fun c => !Text.isWhitespace c) == name

/-- The quotes that `cmd_arg` strips: one pair around the whole argument. -/
def unquote (raw : Text) : Text :=
  if 2 ≤ Text.byteLen raw ∧
      ((raw.head? = some '"' ∧ raw.getLast? = some '"') ∨
        (raw.head? = some '\'' ∧ raw.getLast? = some '\'')) then raw.tail.dropLast
  else raw

/-- `cmd_arg`: what stands behind the first word. -/
def cmdArg (chars : Text) : Option Text :=
  let rest := (chars.dropWhile fun c => !Text.isWhitespace c).drop 1
  let raw := Text.trim rest
  if raw = [] then none else some (tildeExpand (unquote raw))

/-- A row of the table of `edit_distance`, from the row before it: `prev` and `left` are
the entries above to the left and to the left. -/
def editRow (a : Char) : Text → Nat → Nat → List Nat → List Nat
  | b :: bs, prev, left, old :: row =>
      let entry := if a = b then prev else 1 + min (min prev old) left
      entry :: editRow a bs old entry row
  | _, _, _, _ => []

def editRows (b : Text) : Text → Nat → List Nat → List Nat
  | [], _, row => row
  | a :: as, i, row => editRows b as (i + 1) (i :: editRow a b (row.headD 0) i row.tail)

def editDistance (a b : Text) : Nat :=
  (editRows b a 1 (List.range (b.length + 1))).getLastD 0

/-- The name `dispatch_one` suggests for a word that is no command. -/
def suggestion (names : List Text) (typed : Text) : Option Text :=
  match names.find? fun name => typed.isPrefixOf name with
  | some name => some name
  | none =>
      let best := names.foldl
        (fun (best : Nat × Text) name =>
          let d := editDistance typed name
          if d < best.1 then (d, name) else best) (2 ^ 64 - 1, [])
      if best.1 ≤ 2 then some best.2 else none

/-! ### Paths -/

/-- `normalize`: the components that are left after `.` and `..`. -/
def normalParts (path : Text) : List Text :=
  (path.splitOn '/').foldl
    (fun parts component =>
      if component = [] ∨ component = ['.'] then parts
      else if component = ['.', '.'] then parts.dropLast
      else parts ++ [component]) []

def normalize (path : Text) : Text :=
  if normalParts path = [] then ['/'] else (normalParts path).flatMap ('/' :: ·)

def resolve (g : Globals) (path : Text) : Text :=
  if path.head? = some '/' then path
  else if g.cwdGet.getLast? = some '/' then g.cwdGet ++ path
  else g.cwdGet ++ '/' :: path

/-! ### Completion -/

/-- `complete_path`: the names that go on with the last component, with a slash behind
directories, and how many bytes of it are typed. -/
def completePath (g : Globals) (part : Text) : List Text × Nat :=
  let typed := part.rtakeWhile (· != '/')
  let dirStr := part.rdropWhile (· != '/')
  let dirAbs := if dirStr = [] then g.cwdGet else normalize (resolve g dirStr)
  let names :=
    if dirAbs = ['/'] then Vfs.withRoot g.root VNode.readdir
    else (Vfs.lookup g.root dirAbs).bind fun node =>
      if node.kind = .dir then some node.readdir else none
  let dirPrefix := dirAbs.rdropWhile (· == '/')
  let isDir := fun name =>
    (Vfs.lookup g.root (dirPrefix ++ '/' :: name)).any fun node => node.kind = .dir
  let candidates := ((names.getD []).filter typed.isPrefixOf).map fun name =>
    if isDir name then name ++ ['/'] else name
  (candidates, Text.byteLen typed)

/-- The bytes two lists begin with. -/
def commonPrefix : Bytes → Bytes → Bytes
  | a :: as, b :: bs => if a = b then a :: commonPrefix as bs else []
  | _, _ => []

/-- `longest_common_prefix`, in bytes. -/
def longestCommonPrefix : List Text → Nat
  | [] => 0
  | first :: rest =>
      (rest.foldl (fun bytes c => commonPrefix bytes (Text.encode c)) (Text.encode first)).length

/-- The candidates for a line and how many bytes of them are typed: `none` when the line
is blank.  `names` are the names of the commands. -/
def candidates (names : List Text) (g : Globals) (line : Text) : Option (List Text × Nat) :=
  let typed := line.dropWhile Text.isWhitespace
  if typed = [] then none
  else
    let cmdName := typed.takeWhile fun c => !Text.isWhitespace c
    let rest := typed.dropWhile fun c => !Text.isWhitespace c
    if rest = [] then
      -- Still typing the command name; its length is taken in characters.
      some (names.filter cmdName.isPrefixOf, cmdName.length)
    else
      let arg := rest.dropWhile Text.isWhitespace
      if cmdName = ['h', 'e', 'l', 'p'] then some (names.filter arg.isPrefixOf, Text.byteLen arg)
      else some (completePath g arg)

end Words

end Amaterasu
