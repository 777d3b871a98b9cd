/-
The line editor of the shell, with the screen it paints.

A `Session` is everything a key press can reach: the `Shell` record, the framebuffer
writer when there is one, and the globals that commands work on.  Every handler is a
function from sessions to sessions; `none` is a panic, by an index or a slice out of
range, a `copy_within` that does not fit, or a subtraction below zero.  Commands are a
table: none of them changes the `Shell` it is given, so what one does is what becomes of
the globals and what it prints.  `history_count` is a natural number: it would take
2^64 submitted lines to wrap it.

Two fields of a session are not in the source.  `dispatched` records the lines handed
to `dispatch`, `promptLine` what the row of the prompt showed when it was last printed.
-/
import Mathlib.Logic.Function.Iterate
import Amaterasu.Lib.FixedBuffer
import Amaterasu.Shell.Words
import Amaterasu.Shell.Writer

namespace Amaterasu

def BUF_CAP : Nat := 256
def HIST_CAP : Nat := 16

structure Shell where
  buf : Vector Char BUF_CAP
  len : Nat
  cursorPos : Nat
  promptCol : Nat
  history : Vector (Vector Char BUF_CAP) HIST_CAP
  histLen : Vector Nat HIST_CAP
  histCount : Nat
  histCursor : Nat
  liveBuf : Vector Char BUF_CAP
  liveLen : Nat

/-- One entry of `COMMANDS`. -/
structure Cmd where
  name : Text
  usage : Text
  run : Shell → Globals → Option Text → Globals × List Writer.Op

structure Session where
  shell : Shell
  writer : Option Writer
  globals : Globals
  dispatched : List Text
  promptLine : Nat → Char

/-- `usize` subtraction. -/
def checkedSub (a b : Nat) : Option Nat := if b ≤ a then some (a - b) else none

namespace Shell

open FixedBuffer

def new : Shell where
  buf := Vector.replicate BUF_CAP '\x00'
  len := 0
  cursorPos := 0
  promptCol := 0
  history := Vector.replicate HIST_CAP (Vector.replicate BUF_CAP '\x00')
  histLen := Vector.replicate HIST_CAP 0
  histCount := 0
  histCursor := 0
  liveBuf := Vector.replicate BUF_CAP '\x00'
  liveLen := 0

/-- The edited line. -/
def line (s : Shell) : Text := text s.buf s.len

def cursorChar (s : Shell) : Option Char :=
  if s.cursorPos < s.len then s.buf[s.cursorPos]? else some ' '

/-- How many entries `history_up` can reach. -/
def available (s : Shell) : Nat := min s.histCount HIST_CAP

/-- The line is the one submitted last. -/
def isDup (s : Shell) : Option Bool :=
  let lastSlot := (s.histCount + (2 ^ 64 - 1)) % 2 ^ 64 % HIST_CAP
  if s.histCount > 0 ∧ s.histLen[lastSlot]? = some s.len then do
    let entry ← s.history[lastSlot]?
    let old ← upTo entry s.len
    let line ← upTo s.buf s.len
    some (decide (old = line))
  else some false

/-- What `submit` does to the history.  The count is a `usize` there, and would overflow at the
2^64th line. -/
def record (s : Shell) : Option Shell :=
  if s.len > 0 then do
    if ← s.isDup then some s
    else
      let slot := s.histCount % HIST_CAP
      let entry ← s.history[slot]?
      let line ← upTo s.buf s.len
      let entry ← overwrite entry line
      let history ← store s.history slot entry
      let histLen ← store s.histLen slot s.len
      some { s with history := history, histLen := histLen, histCount := s.histCount + 1 }
  else some s

/-- What `history_up` keeps of the line before it leaves it. -/
def saveLive (s : Shell) : Option Shell :=
  if s.histCursor = 0 then do
    let line ← upTo s.buf s.len
    let liveBuf ← overwrite s.liveBuf line
    some { s with liveBuf := liveBuf, liveLen := s.len }
  else some s

end Shell

namespace Session

open FixedBuffer

variable (commands : List Cmd)

/-! ### Painting -/

def onWriter (s : Session) (f : Writer → Writer) : Session :=
  { s with writer := s.writer.map f }

def print (s : Session) (t : Text) : Session := s.onWriter fun w => w.print t

def perform (s : Session) (ops : List Writer.Op) : Session :=
  s.onWriter fun w => ops.foldl Writer.perform w

def cursorShow (s : Session) : Option Session := do
  let ch ← s.shell.cursorChar
  some (s.onWriter fun w => w.cursorShow ch)

/-- `for i in from..self.len { print!("{}", self.buf[i]); }` -/
def printFrom (s : Session) (start : Nat) : Option Session :=
  (List.range' start (s.shell.len - start)).foldlM
    (fun s i => do
      let ch ← s.shell.buf[i]?
      some (s.print [ch])) s

def redrawFrom (s : Session) (start : Nat) : Option Session := do
  let s := s.onWriter fun w => w.cursorHide.setCol (s.shell.promptCol + start)
  let s ← s.printFrom start
  let s := s.print [' ']
  let s := s.onWriter fun w => w.setCol (s.shell.promptCol + s.shell.cursorPos)
  s.cursorShow

/-- The prompt as it is printed: the working directory in a colour of its own. -/
def promptOps (g : Globals) : List Writer.Op :=
  [.print "amaterasu:".toList, .setFg COLOR_PROMPT, .print g.cwdGet, .resetColors,
    .print "> ".toList]

def printPrompt (s : Session) : Option Session :=
  let s := s.perform (promptOps s.globals)
  let promptCol := (s.writer.map Writer.col).getD 0
  let s := { s with shell := { s.shell with promptCol := promptCol, cursorPos := s.shell.len } }
  s.cursorShow.map fun s =>
    { s with promptLine := fun c => ((s.writer.map fun w => (w.cells w.row c).ch).getD ' ') }

/-! ### Editing -/

/-- An ordinary character. -/
def insertChar (s : Session) (ch : Char) : Option Session :=
  if s.shell.len < BUF_CAP then
    if s.shell.cursorPos = s.shell.len then do
      let buf ← store s.shell.buf s.shell.len ch
      let s := { s with shell :=
        { s.shell with buf := buf, len := s.shell.len + 1, cursorPos := s.shell.len + 1 } }
      (s.print [ch]).cursorShow
    else do
      let buf ← copyWithin s.shell.buf s.shell.cursorPos s.shell.len (s.shell.cursorPos + 1)
      let buf ← store buf s.shell.cursorPos ch
      redrawFrom { s with shell :=
        { s.shell with buf := buf, len := s.shell.len + 1, cursorPos := s.shell.cursorPos + 1 } }
        s.shell.cursorPos
  else s.cursorShow

def backspace (s : Session) : Option Session :=
  if s.shell.cursorPos = 0 then some s
  else if s.shell.cursorPos = s.shell.len then do
    let len ← checkedSub s.shell.len 1
    let cursorPos ← checkedSub s.shell.cursorPos 1
    some ({ s with shell := { s.shell with len := len, cursorPos := cursorPos } }.onWriter
      Writer.backspace)
  else do
    let dest ← checkedSub s.shell.cursorPos 1
    let buf ← copyWithin s.shell.buf s.shell.cursorPos s.shell.len dest
    let len ← checkedSub s.shell.len 1
    redrawFrom { s with shell := { s.shell with buf := buf, len := len, cursorPos := dest } } dest

/-- The end of the four cursor motions: the cursor leaves its cell and is shown at
another. -/
def moveCursor (s : Session) (cursorPos : Nat) : Option Session := do
  let s := { s with shell := { s.shell with cursorPos := cursorPos } }
  let s := s.onWriter fun w => w.cursorHide.setCol (s.shell.promptCol + cursorPos)
  s.cursorShow

def cursorLeft (s : Session) : Option Session :=
  if s.shell.cursorPos = 0 then some s
  else do
    let cursorPos ← checkedSub s.shell.cursorPos 1
    s.moveCursor cursorPos

def cursorRight (s : Session) : Option Session :=
  if s.shell.cursorPos = s.shell.len then some s else s.moveCursor (s.shell.cursorPos + 1)

def cursorToStart (s : Session) : Option Session := s.moveCursor 0

def cursorToEnd (s : Session) : Option Session := s.moveCursor s.shell.len

/-- `len` times `w.backspace()`, and an empty line. -/
def eraseLine (s : Session) : Session :=
  { s with
    shell := { s.shell with len := 0, cursorPos := 0 }
    writer := s.writer.map Writer.backspace^[s.shell.len] }

/-- `clear_line` does to the screen what `erase_line` does. -/
def clearLine (s : Session) : Session := s.eraseLine

def ctrlU (s : Session) : Session := s.clearLine

def ctrlC (s : Session) : Option Session :=
  let s := s.print ['^', 'C', '\n']
  printPrompt { s with shell := { s.shell with len := 0, cursorPos := 0, histCursor := 0 } }

def ctrlL (s : Session) : Option Session := do
  let s ← (s.onWriter Writer.clear).printPrompt
  let s ← s.printFrom 0
  s.cursorShow

/-- One of the two loops of `ctrl_w`, on a line of `n` characters: delete from the end
while the characters satisfy `p`. -/
def eraseBack (p : Char → Bool) : Nat → Session → Option Session
  | 0, s => some s
  | n + 1, s => do
      let ch ← s.shell.buf[n]?
      if p ch then
        eraseBack p n
          ({ s with shell := { s.shell with len := n, cursorPos := n } }.onWriter Writer.backspace)
      else some s

def ctrlW (s : Session) : Option Session := do
  let s ← eraseBack (· == ' ') s.shell.len s
  eraseBack (· != ' ') s.shell.len s

/-! ### History -/

/-- The end of `load_history_entry` and `load_live`: the line becomes the first `len`
characters of a buffer. -/
def loadLine (s : Session) (src : Vector Char BUF_CAP) (len : Nat) : Option Session := do
  let s := s.eraseLine
  let line ← upTo src len
  let buf ← overwrite s.shell.buf line
  printFrom { s with shell := { s.shell with buf := buf, len := len, cursorPos := len } } 0

def loadHistoryEntry (s : Session) : Option Session := do
  let back ← checkedSub s.shell.histCount s.shell.histCursor
  let idx := back % HIST_CAP
  let len ← s.shell.histLen[idx]?
  let entry ← s.shell.history[idx]?
  s.loadLine entry len

def loadLive (s : Session) : Option Session := s.loadLine s.shell.liveBuf s.shell.liveLen

def historyUp (s : Session) : Option Session :=
  if s.shell.histCursor ≥ s.shell.available then some s
  else do
    let shell ← s.shell.saveLive
    let s := { s with shell := { shell with histCursor := shell.histCursor + 1 } }
    let s ← s.loadHistoryEntry
    s.cursorShow

def historyDown (s : Session) : Option Session :=
  if s.shell.histCursor = 0 then some s
  else do
    let histCursor ← checkedSub s.shell.histCursor 1
    let s := { s with shell := { s.shell with histCursor := histCursor } }
    let s ← if histCursor = 0 then s.loadLive else s.loadHistoryEntry
    s.cursorShow

/-! ### Dispatch -/

/-- What `dispatch_one` does to the globals, and what it prints. -/
def dispatchOne (shell : Shell) (g : Globals) (seg : Text) : Globals × List Writer.Op :=
  let cmd := Words.expand g (Text.trim seg)
  if cmd = [] then (g, [])
  else match commands.find? fun entry => Words.nameEq cmd entry.name with
    | some entry => entry.run shell g (Words.cmdArg cmd)
    | none =>
        let hint := match Words.suggestion (commands.map Cmd.name) cmd with
          | some name => " -- did you mean '".toList ++ name ++ "'?\n".toList
          | none => ['\n']
        (g, [.print ("unknown command: ".toList ++ cmd), .print hint])

/-- The body of `dispatch`: the segments of a line, one after another. -/
def dispatchLine (shell : Shell) (g : Globals) (input : Text) : Globals × List Writer.Op :=
  (Words.splitCommands input).foldl
    (fun (acc : Globals × List Writer.Op) seg =>
      if Text.trim seg = [] then acc
      else
        let r := dispatchOne commands shell acc.1 (Text.trim seg)
        (r.1, acc.2 ++ r.2)) (g, [])

def dispatch (s : Session) : Option Session := do
  let input ← upTo s.shell.buf s.shell.len
  let r := dispatchLine commands s.shell s.globals input
  some ({ s with globals := r.1, dispatched := s.dispatched ++ [input] }.perform r.2)

def submit (s : Session) : Option Session := do
  let s := s.print ['\n']
  let shell ← s.shell.record
  let s := { s with shell := { shell with histCursor := 0 } }
  let s ← s.dispatch commands
  printPrompt { s with shell := { s.shell with len := 0, cursorPos := 0 } }

/-! ### Completion -/

/-- Type a character at the end of the line, while there is room. -/
def typeChar (s : Session) (ch : Char) : Option Session :=
  if s.shell.len < BUF_CAP then do
    let buf ← store s.shell.buf s.shell.len ch
    some ({ s with shell := { s.shell with buf := buf, len := s.shell.len + 1 } }.print [ch])
  else some s

/-- Type what is missing of a completion. -/
def typeRest (s : Session) (rest : Text) : Option Session := do
  let s ← rest.foldlM typeChar s
  some { s with shell := { s.shell with cursorPos := s.shell.len } }

/-- What `complete` does about its candidates: nothing, type what they have in common,
or list them. -/
inductive Completion
  | nothing
  | append (rest : Text)
  | list (names : List Text)

/-- `none` when the common part is cut inside a character. -/
def completionOf (candidates : List Text) (prefixLen : Nat) : Option Completion :=
  match candidates with
  | [] => some .nothing
  | [only] => (Text.dropBytes prefixLen only).map .append
  | first :: _ =>
      let lcp := Words.longestCommonPrefix candidates
      if lcp > prefixLen then (Text.byteSlice first prefixLen lcp).map .append
      else some (.list candidates)

/-- The decision `complete` takes on a line. -/
def completion (g : Globals) (line : Text) : Option Completion :=
  match Words.candidates (commands.map Cmd.name) g line with
  | none => some .nothing
  | some (candidates, prefixLen) => completionOf candidates prefixLen

/-- What a list of candidates prints before the prompt. -/
def listing (names : List Text) : Text := '\n' :: names.flatMap (· ++ [' ', ' ']) ++ ['\n']

def complete (s : Session) : Option Session := do
  let line ← upTo s.shell.buf s.shell.len
  match ← completion commands s.globals line with
  | .nothing => some s
  | .append rest => s.typeRest rest
  | .list names => do
      let s ← (s.print (listing names)).printPrompt
      let s ← s.printFrom 0
      s.cursorShow

/-! ### Keys -/

def pushChar (s : Session) (ch : Char) : Option Session :=
  match ch with
  | '\x08' => s.backspace >>= cursorShow
  | '\n' => s.submit commands >>= cursorShow
  | '\t' => s.complete commands >>= cursorShow
  | '\x01' => s.cursorToStart >>= cursorShow
  | '\x02' => s.cursorLeft >>= cursorShow
  | '\x03' => s.ctrlC >>= cursorShow
  | '\x05' => s.cursorToEnd >>= cursorShow
  | '\x06' => s.cursorRight >>= cursorShow
  | '\x0c' => s.ctrlL >>= cursorShow
  | '\x0e' => s.historyDown >>= cursorShow
  | '\x10' => s.historyUp >>= cursorShow
  | '\x15' => s.ctrlU.cursorShow
  | '\x17' => s.ctrlW >>= cursorShow
  | ch => s.insertChar ch

/-- A session before anything is typed. -/
def new (writer : Option Writer) (g : Globals) : Session where
  shell := Shell.new
  writer := writer
  globals := g
  dispatched := []
  promptLine := fun _ => ' '

end Session

end Amaterasu
