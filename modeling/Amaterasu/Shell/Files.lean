/-
`echo`, and the commands that read the file system.

None of them changes anything but the screen.  Each resolves its path in the same way,
so that what it prints is a function of the path it looks up; `to_lowercase` is the one
function of the standard library that stays a parameter.
-/
import Amaterasu.Shell.Args
import Amaterasu.Shell.Commands

namespace Amaterasu

namespace Words.ParsedArgs

def hasFlag (args : ParsedArgs) (c : Char) : Bool :=
  args.flags.contains c || args.flagVals.any fun e => e.1 == c

def flagVal (args : ParsedArgs) (c : Char) : Option Text :=
  (args.flagVals.find? fun e => e.1 == c).map Prod.snd

def get (args : ParsedArgs) (i : Nat) : Option Text := args.positional[i]?

end Words.ParsedArgs

namespace Text

/-- What `lines` takes off the end of a line, besides the line feed. -/
def stripReturn (line : Text) : Text :=
  if line.getLast? = some '\r' then line.dropLast else line

/-- `str::lines`: what stands behind the last line feed is a line unless it is empty. -/
def lines (s : Text) : List Text :=
  let pieces := s.splitOn '\n'
  let last := pieces.getLastD []
  pieces.dropLast.map stripReturn ++ if last = [] then [] else [last]

/-- `split_whitespace`. -/
def words (s : Text) : List Text := (s.splitOnP isWhitespace).filter (· ≠ [])

end Text

def COLOR_DIR : Color := (0x56, 0x9C, 0xD6)
def COLOR_ERROR : Color := (0xF4, 0x47, 0x47)

namespace Words

/-- The bytes a file is read into, up to the number that was read. -/
def readAll (node : VNode) : Bytes :=
  let r := node.read (List.replicate node.size 0) 0
  r.1.take r.2

def readFileStr (g : Globals) (path : Text) : Option Text := do
  let node ← Vfs.lookup g.root path
  if node.kind ≠ .file then none
  else if node.size = 0 then some []
  else Text.fromUtf8 (readAll node)

/-- The path a command looks up for its operand. -/
def target (g : Globals) (path : Text) : Text := normalize (resolve g path)

end Words

open Words

/-! ### `echo` -/

def cmdEcho (arg : Option Text) : List Writer.Op :=
  let parsed := parseArgs (arg.getD [])
  let output := List.intercalate [' '] parsed.positional
  if parsed.hasFlag 'n' then [.print output] else [println output]

/-! ### `cat`, `stat` and `ls` -/

/-- What `cat` prints for a path. -/
def catPath (g : Globals) (path : Text) : List Writer.Op :=
  match Vfs.lookup g.root path with
  | none => [println ("cat: not found: ".toList ++ path)]
  | some node =>
      match node.kind with
      | .dir => [println ("cat: ".toList ++ path ++ ": is a directory".toList)]
      | .file =>
          if node.size = 0 then []
          else match Text.fromUtf8 (readAll node) with
            | some s => .print s :: if s.getLast? = some '\n' then [] else [.print ['\n']]
            | none => [println ("cat: ".toList ++ path ++ ": binary file (".toList
                ++ Text.decimal (readAll node).length ++ " bytes)".toList)]

def cmdCat (g : Globals) (arg : Option Text) : List Writer.Op :=
  match arg with
  | none => [println "usage: cat <path>".toList]
  | some p => catPath g (target g p)

def kindName : NodeKind → Text
  | .file => "file".toList
  | .dir => "directory".toList

/-- What `stat` prints for a path. -/
def statPath (g : Globals) (path : Text) : List Writer.Op :=
  match Vfs.lookup g.root path with
  | none => [println ("stat: not found: ".toList ++ path)]
  | some node =>
      [println ("path: ".toList ++ path), println ("type: ".toList ++ kindName node.kind),
        println ("size: ".toList ++ Text.decimal node.size ++ " bytes".toList)]

def cmdStat (g : Globals) (arg : Option Text) : List Writer.Op :=
  match arg with
  | none => [println "usage: stat <path>".toList]
  | some p => statPath g (target g p)

/-- One line of `ls`. -/
def lsRow (g : Globals) (dir name : Text) : List Writer.Op :=
  if (Vfs.lookup g.root (dir ++ '/' :: name)).any fun node => node.kind = .dir then
    [.setFg COLOR_DIR, println (name ++ ['/']), .resetColors]
  else [println name]

/-- The names of a directory, sorted. -/
def lsRows (g : Globals) (dir : Text) (names : List Text) : List Writer.Op :=
  if names = [] then [println "(empty)".toList]
  else (names.mergeSort textLe).flatMap (lsRow g dir)

def lsError (message : Text) : List Writer.Op :=
  [.setFg COLOR_ERROR, println message, .resetColors]

/-- What `ls` prints for a path. -/
def lsPath (g : Globals) (path : Text) : List Writer.Op :=
  match Text.components '/' path with
  | [] =>
      match Vfs.withRoot g.root VNode.readdir with
      | none => lsError "ls: no filesystem mounted".toList
      | some names => lsRows g [] names
  | first :: rest =>
      match Vfs.lookup g.root path with
      | none => lsError ("ls: not found: ".toList ++ path)
      | some node =>
          match node.kind with
          | .dir => lsRows g path node.readdir
          | .file => [println ((first :: rest).getLastD path)]

def cmdLs (g : Globals) (path : Option Text) : List Writer.Op :=
  lsPath g (match path with
    | some p => target g p
    | none => g.cwdGet)

def cmdPwd (g : Globals) : List Writer.Op := [println g.cwdGet]

/-! ### The commands with flags -/

def grepUsage : List Writer.Op := [println "usage: grep [-i] [-n] [-c] <pattern> <file>".toList]

/-- What `grep` prints for one line that matches. -/
def grepRow (args : ParsedArgs) (i : Nat) (line : Text) : List Writer.Op :=
  if args.hasFlag 'c' then []
  else if args.hasFlag 'n' then [println (Text.decimal (i + 1) ++ ':' :: line)]
  else [println line]

def cmdGrep (lower : Text → Text) (g : Globals) (arg : Option Text) : List Writer.Op :=
  match arg with
  | none => grepUsage
  | some s =>
      let parsed := parseArgs s
      match parsed.get 0, parsed.get 1 with
      | some pattern, some file =>
          let path := target g file
          match readFileStr g path with
          | none => [println ("grep: ".toList ++ path ++ ": not found".toList)]
          | some content =>
              let fold := fun t => if parsed.hasFlag 'i' then lower t else t
              let found := (Text.lines content).zipIdx.filter fun e => fold pattern <:+: fold e.1
              found.flatMap (fun e => grepRow parsed e.2 e.1) ++
                if parsed.hasFlag 'c' then [println (Text.decimal found.length)] else []
      | _, _ => grepUsage

/-- The number of lines `head` and `tail` are asked for. -/
def lineCount (args : ParsedArgs) : Nat :=
  ((args.flagVal 'n').bind (Text.usizeFromRadix 10)).getD 10

/-- `head` and `tail`: some of the lines of a file. -/
def cmdLines (name : Text) (pick : Nat → List Text → List Text) (g : Globals)
    (arg : Option Text) : List Writer.Op :=
  let usage := [println ("usage: ".toList ++ name ++ " [-n <count>] <file>".toList)]
  match arg with
  | none => usage
  | some s =>
      let parsed := parseArgs s
      match parsed.get 0 with
      | none => usage
      | some file =>
          match readFileStr g (target g file) with
          | none => [println (name ++ ": ".toList ++ target g file ++ ": not found".toList)]
          | some content => (pick (lineCount parsed) (Text.lines content)).map println

def cmdTail : Globals → Option Text → List Writer.Op :=
  cmdLines "tail".toList fun count lines => lines.drop (lines.length - count)

def cmdHead : Globals → Option Text → List Writer.Op :=
  cmdLines "head".toList fun count lines => lines.take count

def wcUsage : List Writer.Op := [println "usage: wc [-l] [-w] [-c] <file>".toList]

def cmdWc (g : Globals) (arg : Option Text) : List Writer.Op :=
  match arg with
  | none => wcUsage
  | some s =>
      let parsed := parseArgs s
      match parsed.get 0 with
      | none => wcUsage
      | some file =>
          let path := target g file
          match readFileStr g path with
          | none => [println ("wc: ".toList ++ path ++ ": not found".toList)]
          | some content =>
              let all := parsed.flags.isEmpty && parsed.flagVals.isEmpty
              let column : Char → Nat → List Writer.Op := fun flag count =>
                if all || parsed.hasFlag flag then [.print (Text.decimalPad 8 count)] else []
              column 'l' (Text.lines content).length ++ column 'w' (Text.words content).length
                ++ column 'c' (Text.byteLen content) ++ [println (' ' :: path)]

/-! ### In the table -/

/-- What the commands of this file print, and what is printed by the others. -/
def filesOut (lower : Text → Text) (out : Text → Shell → Globals → Option Text → List Writer.Op)
    (name : Text) (s : Shell) (g : Globals) (arg : Option Text) : List Writer.Op :=
  if name = "echo".toList then cmdEcho arg
  else if name = "wc".toList then cmdWc g arg
  else if name = "head".toList then cmdHead g arg
  else if name = "tail".toList then cmdTail g arg
  else if name = "grep".toList then cmdGrep lower g arg
  else if name = "ls".toList then cmdLs g arg
  else if name = "cat".toList then cmdCat g arg
  else if name = "stat".toList then cmdStat g arg
  else if name = "pwd".toList then cmdPwd g
  else out name s g arg

end Amaterasu
