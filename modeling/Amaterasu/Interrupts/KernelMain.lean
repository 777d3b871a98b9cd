/-
The locks of `kernel_main` from `sti` on, in `kernel/src/main.rs` and what it calls.

Each definition is the function of its name with everything but its locks left out.  A
branch is taken either way and a loop runs any number of times, so these programs do
whatever the source does on some run, and all the source does is one of theirs.

`serial_print` holds SERIAL1, and every use of the framebuffer, printed text or cursor,
holds WRITER; neither holds anything else.  Allocations may happen wherever a `String`,
a `Vec` or a `Box` is made or dropped.
-/
import Amaterasu.Lib.LockProgram

namespace Amaterasu

/-- The kernel's spin locks. -/
inductive KernelLock where
  | serial1
  | writer
  | shell
  | cwd
  | prevCwd
  | env
  | root
  | allocator
  | modifiers
  | hidPrev
  deriving DecidableEq, Repr

/-- The one action another context waits for. -/
inductive BootAct where
  /-- `KBD_READY` is set. -/
  | publish
  deriving DecidableEq, Repr

abbrev Code := LockProgram KernelLock BootAct

namespace Code

open LockProgram

/-! ### Leaves -/

def serialPrint : Code := withLock .serial1 skip

/-- `print!`, and every other use of WRITER. -/
def print : Code := withLock .writer skip

/-- Any number of allocations and frees. -/
def heap : Code := loop (withLock .allocator skip)

/-- A message on both outputs. -/
def report : Code := seqs [serialPrint, print]

/-! ### Boot -/

def timerInit : Code := serialPrint

def findXhciBar0 : Code := serialPrint

def biosHandoff : Code := seqs [maybe serialPrint, maybe serialPrint]

def dumpSupportedProtocols : Code := loop (seqs [report, loop report])

def xhciReset : Code := maybe serialPrint

def evtWait : Code := maybe report

def waitCmd : Code := loop evtWait

def disableSlot : Code := waitCmd

def ep0WaitXfer : Code := loop evtWait

def ctrlIn : Code := seqs [ep0WaitXfer, maybe report]

def ctrlOut : Code := seqs [ep0WaitXfer, maybe report]

def findHidKbdEp : Code := loop report

def portReset : Code := loop (choice serialPrint report)

/-- A failure after Enable Slot: the slot is given back, and the next port is tried. -/
def fail : Code := seqs [loop serialPrint, loop print, disableSlot]

/-- One connected port; `keyboard` is what follows once it turns out to be ours. -/
def port (keyboard : Code) : Code :=
  seqs [report, portReset, report, waitCmd, choice report <|
    seqs [report, heap, waitCmd, report, choice fail <|
      seqs [report, ctrlIn, choice (seqs [report, report, fail]) <|
        seqs [report, waitCmd, report, choice fail <|
          seqs [waitCmd, choice fail <|
            seqs [report, ctrlIn, choice fail <|
              seqs [serialPrint, ctrlIn, choice fail <|
                seqs [ctrlIn, findHidKbdEp, choice fail <|
                  seqs [report, ctrlOut, maybe serialPrint, ctrlOut, maybe serialPrint, ctrlOut,
                    maybe serialPrint, heap, waitCmd, report, choice fail keyboard]]]]]]]]]

/-- The end of `init_unsafe` on the keyboard's port. -/
def keyboardReady : Code := seqs [act .publish, report]

def initUnsafe : Code :=
  seqs [biosHandoff, dumpSupportedProtocols, serialPrint, serialPrint, choice serialPrint <|
    seqs [xhciReset, choice skip <| seqs [heap, serialPrint, heap, choice serialPrint <|
      seqs [report, loop (port fail), choice report (port keyboardReady)]]]]

def xhciInit : Code := seqs [findXhciBar0, choice report initUnsafe]

/-! ### Shell -/

def printPrompt : Code :=
  seqs [withLock .cwd heap, print, print, print, print, print, print, print, heap]

def cwdGet : Code := withLock .cwd heap

def cwdPrevGet : Code := withLock .prevCwd heap

def cwdSet : Code := seqs [withLock .cwd skip, withLock .prevCwd heap]

/-- `resolve` and `normalize`. -/
def resolve : Code := seqs [maybe cwdGet, heap]

/-- `vfs::lookup` and `vfs::with_root`. -/
def vfs : Code := withLock .root heap

/-- `env::get`, `set`, `remove` and `list`. -/
def env : Code := seqs [withLock .env heap, heap]

def envExpand : Code := loop (choice heap env)

/-- `read_file_str` and `print_file`. -/
def readFile : Code := seqs [vfs, heap]

/-- Printed lines, with the strings they are made of. -/
def output : Code := loop (choice heap print)

def cmdLs : Code := seqs [resolve, vfs, loop (seqs [vfs, output]), output]
def cmdCat : Code := seqs [resolve, vfs, output]
def cmdStat : Code := seqs [resolve, vfs, output]
def cmdCd : Code :=
  seqs [maybe cwdPrevGet, resolve, maybe vfs, maybe env, maybe cwdSet, maybe env, output]
def cmdPwd : Code := seqs [cwdGet, output]
/-- `grep`, `head`, `tail` and `wc`. -/
def cmdText : Code := seqs [heap, maybe (seqs [resolve, readFile]), output]
/-- `echo`, `uname`, `cpu`, `uptime` and `history`. -/
def cmdPlain : Code := output
def cmdHostname : Code := seqs [vfs, output]
def cmdHelp : Code := seqs [heap, maybe readFile, output]
def cmdExport : Code := seqs [heap, maybe env, output]
def cmdClear : Code := print
def cmdHeap : Code := seqs [withLock .allocator skip, output]
/-- `reboot` and `shutdown`. -/
def cmdPower : Code := skip

def runCommand : Code :=
  [cmdLs, cmdCat, cmdStat, cmdCd, cmdPwd, cmdText, cmdPlain, cmdHostname, cmdHelp, cmdExport,
    cmdClear, cmdHeap].foldr choice cmdPower

def dispatchOne : Code := seqs [heap, envExpand, heap, choice runCommand output, heap]

def submit : Code := seqs [print, heap, loop dispatchOne, printPrompt]

def completePath : Code := seqs [resolve, vfs, loop (seqs [heap, vfs]), heap]

def complete : Code :=
  seqs [heap, maybe completePath, choice (loop print) (seqs [loop print, printPrompt, loop print]),
    heap]

/-- Every other key: text, cursor motion, deletion, recall, `^L` and `^C`. -/
def edit : Code := seqs [loop print, maybe (seqs [printPrompt, loop print]), print]

def pushChar : Code := choice submit (choice complete edit)

def prompt : Code := withLock .shell printPrompt

def drain : Code := seqs [maybe print, loop (withLock .shell (seqs [pushChar, print]))]

/-- The main loop. -/
def mainLoop : Code := loop drain

/-- `kernel_main` from `sti` on. -/
def kernelMain : Code :=
  seqs [print, print, timerInit, print, xhciInit, print, serialPrint, prompt, mainLoop]

/-- No passive code takes the two locks of the decoders. -/
theorem decoder_locks_notMem_kernelMain :
    KernelLock.modifiers ∉ kernelMain.locks ∧ KernelLock.hidPrev ∉ kernelMain.locks := by decide

/-- From the first prompt on, nothing is logged to the serial port. -/
theorem handler_locks_notMem_shell :
    ∀ l ∈ [KernelLock.serial1, .modifiers, .hidPrev], l ∉ (seqs [prompt, mainLoop]).locks := by
  decide

end Code

end Amaterasu
