/-
Handlers over `kernel_main`: `timer_handler` in `kernel/src/idt.rs`, `keyboard_handler`
in `kernel/src/keyboard.rs`, and the locks on their paths.

Between any two steps of the passive code an interrupt may be taken; interrupts are off
until the handler is done.  A handler that waits for a lock the passive code holds waits
for ever, since there is one processor.

Three of its locks a handler waits for.  MODIFIERS and HID_PREV are the decoders' own.
SERIAL1 is there for one line, which logs the first 16 reports; the passive code logs to
it too, twice after `KBD_READY` is set.
-/
import Amaterasu.Interrupts.KernelMain
import Amaterasu.Lib.Run

namespace Amaterasu

/-- What the hardware has for one run of the timer handler. -/
structure TimerInput where
  /-- The next event on the ring is one `take_hid_report` returns a report for. -/
  report : Bool
  /-- Port 0x64 bit 0, and the byte at port 0x60. -/
  obf : Bool
  scancode : UInt8
  deriving DecidableEq, Repr

/-- The locks of `process_scancode`. -/
def processScancodeOps (extended : Bool) (scancode : UInt8) : List (HandlerOp KernelLock) :=
  if scancode = 0xE0 ∨ extended = true then []
  else if scancode &&& 0x80 ≠ 0 ∧ scancode ≠ 0xAA ∧ scancode ≠ 0xB6 ∧ scancode ≠ 0x9D then []
  else [.lock .modifiers, .unlock .modifiers]

/-- The locks of `take_hid_report` on a report, `n` being `KBD_DBG_COUNT`. -/
def takeHidReportOps (n : Nat) : List (HandlerOp KernelLock) :=
  if n < 16 then [.lock .serial1, .unlock .serial1] else []

/-- The locks of `process_hid_report`. -/
def processHidReportOps : List (HandlerOp KernelLock) := [.lock .hidPrev, .unlock .hidPrev]

/-- The locks of `tick`, `b` being `BLINK_COUNTER`. -/
def tickOps (b : Nat) : List (HandlerOp KernelLock) :=
  if b % 500 = 499 then [.tryLock .writer] else []

/-- The passive code, the handler running over it, and the flags handlers look at. -/
structure Machine where
  tasks : List (LockTask KernelLock BootAct)
  handler : Option (List (HandlerOp KernelLock))
  /-- `KBD_READY`. -/
  ready : Bool
  /-- `EXTENDED`. -/
  extended : Bool
  /-- `KBD_DBG_COUNT`. -/
  dbgCount : Nat
  /-- `BLINK_COUNTER`. -/
  blinkCounter : Nat

inductive MachineStep where
  /-- The passive code takes one step. -/
  | passive (b : Bool)
  /-- The timer interrupts. -/
  | timer (inp : TimerInput)
  /-- IRQ1 interrupts, and port 0x60 reads `scancode`. -/
  | keyboard (scancode : UInt8)
  /-- The handler takes one step. -/
  | handler
  deriving DecidableEq, Repr

namespace Machine

open LockTask HandlerOp

def boot : Machine :=
  { tasks := [.run Code.kernelMain], handler := none, ready := false, extended := false
    dbgCount := 0, blinkCounter := 0 }

def passive (m : Machine) (b : Bool) : Machine :=
  match LockTask.advance b m.tasks with
  | (tasks, some .publish) => { m with tasks := tasks, ready := true }
  | (tasks, none) => { m with tasks := tasks }

/-- A report is taken and processed. -/
def takesReport (m : Machine) (inp : TimerInput) : Bool := m.ready && inp.report

/-- A PS/2 byte is polled and processed. -/
def polls (m : Machine) (inp : TimerInput) : Bool := !m.ready && inp.obf

def timerOps (m : Machine) (inp : TimerInput) : List (HandlerOp KernelLock) :=
  (if m.takesReport inp then takeHidReportOps m.dbgCount ++ processHidReportOps else []) ++
    ((if m.polls inp then processScancodeOps m.extended inp.scancode else []) ++
      tickOps m.blinkCounter)

def timer (m : Machine) (inp : TimerInput) : Machine :=
  { m with
    handler := some (m.timerOps inp)
    extended := if m.polls inp then inp.scancode == 0xE0 else m.extended
    dbgCount := if m.takesReport inp then m.dbgCount + 1 else m.dbgCount
    blinkCounter := m.blinkCounter + 1 }

def keyboard (m : Machine) (scancode : UInt8) : Machine :=
  { m with
    handler := some (processScancodeOps m.extended scancode)
    extended := scancode == 0xE0 }

/-- A handler with nothing left to do returns. -/
def handle (m : Machine) (ops : List (HandlerOp KernelLock)) : Machine :=
  match ops with
  | [] => { m with handler := none }
  | _ :: _ => { m with handler := some (HandlerOp.advance (held m.tasks) ops) }

def step (m : Machine) (a : MachineStep) : Machine :=
  match m.handler, a with
  | none, .passive b => m.passive b
  | none, .timer inp => m.timer inp
  | none, .keyboard scancode => m.keyboard scancode
  | some ops, .handler => m.handle ops
  | _, _ => m

/-- A handler waits for a lock the code it interrupted holds. -/
def Blocked (m : Machine) : Prop :=
  ∃ ops, m.handler = some ops ∧ HandlerOp.Blocked (held m.tasks) ops

instance (m : Machine) : Decidable m.Blocked :=
  match h : m.handler with
  | some ops => decidable_of_iff (HandlerOp.Blocked (held m.tasks) ops) (by simp [Blocked, h])
  | none => isFalse (by simp [Blocked, h])

/-- The timer interrupts for one of the first 16 reports, which will be logged. -/
def Logs (m : Machine) (a : MachineStep) : Bool :=
  match m.handler, a with
  | none, .timer inp => m.takesReport inp && decide (m.dbgCount < 16)
  | _, _ => false

/-- No report is logged over code that holds SERIAL1. -/
def LogsClear (m : Machine) (a : MachineStep) : Prop :=
  m.Logs a = true → KernelLock.serial1 ∉ held m.tasks

instance (m : Machine) (a : MachineStep) : Decidable (m.LogsClear a) :=
  inferInstanceAs (Decidable (_ → _))

/-! ### What the handlers wait for -/

theorem waits_append (ops ops' : List (HandlerOp KernelLock)) :
    waits (ops ++ ops') = waits ops ++ waits ops' := by
  induction ops with
  | nil => rfl
  | cons op rest ih =>
      cases op with
      | lock l => exact congrArg (l :: ·) ih
      | unlock l => exact ih
      | tryLock l => exact ih

theorem waits_processScancodeOps (extended : Bool) (scancode : UInt8) :
    ∀ l ∈ waits (processScancodeOps extended scancode), l = .modifiers := by
  unfold processScancodeOps
  split
  · simp [waits]
  · split <;> simp [waits]

theorem waits_tickOps (b : Nat) : waits (tickOps b) = [] := by
  unfold tickOps
  split <;> rfl

variable {m : Machine}

/-- The timer handler waits for a decoder's lock, or for SERIAL1 where it logs. -/
theorem waits_timerOps {inp : TimerInput} {l : KernelLock} (h : l ∈ waits (m.timerOps inp)) :
    l = .modifiers ∨ l = .hidPrev ∨
      (l = .serial1 ∧ m.takesReport inp = true ∧ m.dbgCount < 16) := by
  unfold timerOps at h
  rw [waits_append, waits_append, waits_tickOps, List.append_nil] at h
  rcases List.mem_append.mp h with h | h
  · by_cases ht : m.takesReport inp = true
    · rw [if_pos ht, waits_append] at h
      unfold takeHidReportOps processHidReportOps at h
      by_cases hn : m.dbgCount < 16
      · rw [if_pos hn] at h
        simp only [waits, List.mem_append, List.mem_singleton] at h
        rcases h with rfl | rfl
        · exact Or.inr (Or.inr ⟨rfl, ht, hn⟩)
        · exact Or.inr (Or.inl rfl)
      · rw [if_neg hn] at h
        exact Or.inr (Or.inl (by simpa [waits] using h))
    · rw [if_neg ht] at h
      exact absurd h (by simp [waits])
  · by_cases hp : m.polls inp = true
    · rw [if_pos hp] at h
      exact Or.inl (waits_processScancodeOps _ _ l h)
    · rw [if_neg hp] at h
      exact absurd h (by simp [waits])

/-! ### The invariant -/

/-- The passive code takes only the locks in `ls`, and the handler over it waits for none
it holds. -/
structure Inv (ls : List KernelLock) (m : Machine) : Prop where
  locks : LockTask.locks m.tasks ⊆ ls
  clear : ∀ ops, m.handler = some ops → ∀ l ∈ waits ops, l ∉ held m.tasks

variable {ls : List KernelLock}

theorem Inv.not_blocked (h : m.Inv ls) : ¬ m.Blocked := by
  rintro ⟨ops, hh, hb⟩
  exact not_blocked_of_disjoint (h.clear ops hh) hb

theorem Inv.notMem_held (h : m.Inv ls) {l : KernelLock} (hl : l ∉ ls) : l ∉ held m.tasks :=
  fun hc => hl (h.locks (held_subset_locks _ hc))

theorem passive_tasks (b : Bool) :
    (m.passive b).tasks = (LockTask.advance b m.tasks).1 ∧
      (m.passive b).handler = m.handler := by
  unfold passive
  split <;> simp_all

/-- One step keeps the invariant of code that never takes the decoders' locks. -/
theorem Inv.step (hls : KernelLock.modifiers ∉ ls ∧ KernelLock.hidPrev ∉ ls) (h : m.Inv ls)
    {a : MachineStep} (hok : m.LogsClear a) : (m.step a).Inv ls := by
  have hmod := h.notMem_held hls.1
  have hprev := h.notMem_held hls.2
  unfold Machine.step
  cases hh : m.handler with
  | none =>
      cases a with
      | passive b =>
          obtain ⟨htasks, hhandler⟩ := passive_tasks (m := m) b
          refine ⟨?_, ?_⟩
          · show LockTask.locks (m.passive b).tasks ⊆ ls
            rw [htasks]
            exact List.Subset.trans (locks_advance b _) h.locks
          · intro ops hops
            exact absurd (hhandler.symm.trans hops) (by simp [hh])
      | timer inp =>
          refine ⟨h.locks, ?_⟩
          intro ops hops l hl
          rw [← Option.some.inj hops] at hl
          rcases waits_timerOps hl with rfl | rfl | ⟨rfl, ht, hn⟩
          · exact hmod
          · exact hprev
          · exact hok (by unfold Logs; simp [hh, ht, hn])
      | keyboard scancode =>
          refine ⟨h.locks, ?_⟩
          intro ops hops l hl
          rw [← Option.some.inj hops] at hl
          rw [waits_processScancodeOps _ _ l hl]
          exact hmod
      | handler => exact h
  | some ops =>
      cases a with
      | passive b => exact h
      | timer inp => exact h
      | keyboard scancode => exact h
      | handler =>
          show (m.handle ops).Inv ls
          cases ops with
          | nil => exact ⟨h.locks, fun ops' hops' => absurd hops' (by simp [handle])⟩
          | cons op rest =>
              refine ⟨h.locks, ?_⟩
              intro ops' hops' l hl
              rw [← Option.some.inj hops'] at hl
              exact h.clear _ hh l (waits_advance _ _ hl)

/-- Logging a report over code that holds SERIAL1 blocks at once. -/
theorem blocked_of_logs {a : MachineStep} (hbad : ¬ m.LogsClear a) : (m.step a).Blocked := by
  unfold LogsClear at hbad
  rw [Classical.not_imp, not_not] at hbad
  obtain ⟨hlogs, hheld⟩ := hbad
  unfold Logs at hlogs
  split at hlogs
  · rename_i inp hh
    simp only [Bool.and_eq_true, decide_eq_true_eq] at hlogs
    have hops : m.timerOps inp = .lock .serial1 :: (.unlock .serial1 :: processHidReportOps ++
        ((if m.polls inp then processScancodeOps m.extended inp.scancode else []) ++
          tickOps m.blinkCounter)) := by
      unfold timerOps takeHidReportOps
      rw [if_pos hlogs.1, if_pos hlogs.2]
      rfl
    have hstep : m.step (.timer inp) = m.timer inp := by
      unfold Machine.step
      rw [hh]
    rw [hstep]
    refine ⟨m.timerOps inp, rfl, ?_⟩
    rw [hops]
    exact hheld
  · exact absurd hlogs (by simp)

/-- A blocked machine never moves again. -/
theorem Blocked.step_eq (h : m.Blocked) (a : MachineStep) : m.step a = m := by
  obtain ⟨ops, hh, hb⟩ := h
  unfold Machine.step
  rw [hh]
  cases a with
  | passive b => rfl
  | timer inp => rfl
  | keyboard scancode => rfl
  | handler =>
      show m.handle ops = m
      cases ops with
      | nil => exact absurd hb id
      | cons op rest =>
          cases op with
          | lock l =>
              have hops : HandlerOp.advance (held m.tasks) (.lock l :: rest) = .lock l :: rest :=
                if_pos hb
              show { m with handler := some (HandlerOp.advance (held m.tasks) _) } = m
              rw [hops, ← hh]
          | unlock l => exact absurd hb id
          | tryLock l => exact absurd hb id

theorem boot_inv : boot.Inv Code.kernelMain.locks :=
  ⟨by simp [boot, LockTask.locks], by simp [boot]⟩

/-- From the first prompt on, whatever is typed and run, no handler is ever blocked. -/
theorem shell_never_blocks {start : Machine} {trace : List (Machine × MachineStep)}
    (htasks : start.tasks = [.run (LockProgram.seqs [Code.prompt, Code.mainLoop])])
    (hhandler : start.handler = none) (hrun : Run (Next step) start trace m) : ¬ m.Blocked := by
  have hlocks := Code.handler_locks_notMem_shell
  have hstart : start.Inv (LockProgram.seqs [Code.prompt, Code.mainLoop]).locks :=
    ⟨by rw [htasks]; simp [LockTask.locks], by simp [hhandler]⟩
  refine (hrun.always_next hstart fun s a h => ?_).not_blocked
  exact h.step ⟨hlocks _ (by simp), hlocks _ (by simp)⟩
    fun _ => h.notMem_held (hlocks _ (by simp))

/--
**No handler waits for the code it interrupted** in a run exactly when no timer interrupt
that takes one of the first 16 reports comes while that code holds SERIAL1.
-/
theorem handler_never_blocked_iff {trace : List (Machine × MachineStep)}
    (hrun : Run (Next step) boot trace m) :
    (∀ t ∈ visited trace m, ¬ t.Blocked) ↔ ∀ e ∈ trace, e.1.LogsClear e.2 := by
  refine hrun.good_iff boot_inv (fun t h => h.not_blocked) ?_ ?_
  · intro s a s' h hok hs
    rw [← show s.step a = s' from hs]
    exact h.step Code.decoder_locks_notMem_kernelMain hok
  · intro s a s' h hbad hs
    rw [← show s.step a = s' from hs]
    exact not_not_intro (blocked_of_logs hbad)

/-- Events that end in a blocked handler end in a deadlock. -/
theorem deadlock_of_blocked (acts : List MachineStep) (h : (acts.foldl step boot).Blocked) :
    ∃ (trace : List (Machine × MachineStep)) (m : Machine), Run (Next step) boot trace m ∧
      m.Blocked ∧ ∀ a, m.step a = m :=
  ⟨_, _, Run.ofActions step boot acts, h, h.step_eq⟩

/-- The timer polls a scancode over the first message after `sti`. -/
def pollOverPrint : List MachineStep :=
  [.passive false, .passive false, .timer { report := false, obf := true, scancode := 0x1E },
    .handler, .handler, .handler, .passive false]

theorem handler_never_blocked_poll :
    ∃ (trace : List (Machine × MachineStep)) (m : Machine), Run (Next step) boot trace m ∧
      trace.length = 7 ∧ ∀ t ∈ visited trace m, ¬ t.Blocked :=
  ⟨_, _, Run.ofActions step boot pollOverPrint, rfl,
    (handler_never_blocked_iff (Run.ofActions step boot pollOverPrint)).mpr (by decide)⟩

/-- The passive code goes on by so many steps and then enters a loop, time after time. -/
def turns (steps : List Nat) : List MachineStep :=
  steps.flatMap fun n => List.replicate n (.passive false) ++ [.passive true]

/-- The first port with a device is the keyboard's, and its first report comes while
`init_unsafe` is still logging that the keyboard is ready.  On the way there every loop takes
one turn, the waits for commands and for transfers among them. -/
def reportOverReady : List MachineStep :=
  turns [32, 11, 28, 9, 31, 22, 16, 5, 27, 20, 16, 17, 15, 11, 8, 24, 12, 12, 11, 5] ++
    (List.replicate 20 (.passive false) ++
      [.timer { report := true, obf := false, scancode := 0 }])

theorem reportOverReady_blocked : (reportOverReady.foldl step boot).Blocked := by decide +kernel

theorem handler_blocks_over_ready :
    ∃ (trace : List (Machine × MachineStep)) (m : Machine), Run (Next step) boot trace m ∧
      m.Blocked ∧ ∀ a, m.step a = m :=
  deadlock_of_blocked reportOverReady reportOverReady_blocked

end Machine

end Amaterasu
