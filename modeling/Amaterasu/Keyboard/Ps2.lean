/-
The 8042 controller and its two readers, `timer_handler` in `kernel/src/idt.rs` and
`keyboard_handler` in `kernel/src/keyboard.rs`.

The controller holds one byte.  A new one is taken only into an empty buffer; it sets
OBF and latches IRQ1.  Reading port 0x60 clears OBF, and reads the last byte again if
it was clear already.  The timer handler looks at OBF before it reads; the keyboard
handler trusts the interrupt that started it.  Interrupts are off inside a handler, so
only the keyboard acts between two steps of one.

No XHCI keyboard is up: `take_hid_report` returns `None` and `kbd_ready` is false, so
the timer handler starts at its poll.
-/
import Amaterasu.Lib.Run
import Amaterasu.Keyboard.Decode

namespace Amaterasu

/-- Where the processor stands. -/
inductive HandlerPc where
  /-- Outside both handlers. -/
  | passive
  /-- `timer_handler`, about to read port 0x64. -/
  | timerPoll
  /-- `timer_handler`, about to read port 0x60. -/
  | timerRead
  /-- `timer_handler`, about to process the byte it read. -/
  | timerProcess (sc : UInt8)
  /-- `timer_handler`, about to call `tick`. -/
  | timerTick
  /-- `keyboard_handler`, about to read port 0x60. -/
  | keyboardRead
  /-- `keyboard_handler`, about to signal the end of the interrupt. -/
  | keyboardEoi (sc : UInt8)
  /-- `keyboard_handler`, about to process the byte it read. -/
  | keyboardProcess (sc : UInt8)
  deriving DecidableEq, Repr

namespace HandlerPc

/-- The byte a handler has read and not processed yet. -/
def inFlight : HandlerPc → List UInt8
  | timerProcess sc | keyboardEoi sc | keyboardProcess sc => [sc]
  | _ => []

end HandlerPc

/-- The controller, the processor, the decoder, and the history of both ends. -/
structure Ps2 where
  /-- Port 0x64, bit 0. -/
  obf : Bool
  /-- The byte port 0x60 reads. -/
  data : UInt8
  /-- IRQ1 is latched. -/
  irq1 : Bool
  pc : HandlerPc
  keyboard : Keyboard
  /-- Bytes the keyboard has delivered to the controller. -/
  delivered : List UInt8
  /-- Bytes given to `process_scancode`. -/
  processed : List UInt8
  /-- Bytes given to `rb_push`. -/
  pushed : List UInt8
  deriving DecidableEq, Repr

/-- What can happen next.  An event that cannot happen yet changes nothing. -/
inductive Ps2Event where
  /-- The keyboard has a byte for the controller. -/
  | arrive (b : UInt8)
  /-- The timer interrupts. -/
  | timer
  /-- The latched IRQ1 interrupts. -/
  | irq1
  /-- The processor takes one step of the handler it is in. -/
  | cpu
  deriving DecidableEq, Repr

namespace Ps2

def boot : Ps2 :=
  { obf := false, data := 0, irq1 := false, pc := .passive, keyboard := Keyboard.boot,
    delivered := [], processed := [], pushed := [] }

/-- `process_scancode`, with the histories kept. -/
def process (m : Ps2) (sc : UInt8) : Ps2 :=
  { m with
    keyboard := (m.keyboard.processScancode sc).1
    processed := m.processed ++ [sc]
    pushed := m.pushed ++ (m.keyboard.processScancode sc).2 }

/-- One step of the handler the processor is in. -/
def cpu (m : Ps2) : Ps2 :=
  match m.pc with
  | .passive => m
  | .timerPoll => { m with pc := if m.obf then .timerRead else .timerTick }
  | .timerRead => { m with obf := false, pc := .timerProcess m.data }
  | .timerProcess sc => { m.process sc with pc := .timerTick }
  | .timerTick => { m with pc := .passive }
  | .keyboardRead => { m with obf := false, pc := .keyboardEoi m.data }
  | .keyboardEoi sc => { m with pc := .keyboardProcess sc }
  | .keyboardProcess sc => { m.process sc with pc := .passive }

def step (m : Ps2) : Ps2Event → Ps2
  | .arrive b =>
      if m.obf then m
      else { m with obf := true, data := b, irq1 := true, delivered := m.delivered ++ [b] }
  | .timer => if m.pc = .passive then { m with pc := .timerPoll } else m
  | .irq1 =>
      if m.pc = .passive ∧ m.irq1 = true then { m with pc := .keyboardRead, irq1 := false }
      else m
  | .cpu => m.cpu

/-- The byte waiting in the controller. -/
def buffered (m : Ps2) : List UInt8 := if m.obf then [m.data] else []

/-- Every byte delivered has been processed once, in order, up to the one in a handler's
hands and the one still in the controller. -/
def InOrder (m : Ps2) : Prop := m.processed ++ m.pc.inFlight ++ m.buffered = m.delivered

/-- The keyboard handler's read finds a byte, if this step is that read. -/
def ReadsFresh (m : Ps2) (e : Ps2Event) : Prop :=
  e = .cpu → m.pc = .keyboardRead → m.obf = true

instance (m : Ps2) (e : Ps2Event) : Decidable (m.ReadsFresh e) :=
  inferInstanceAs (Decidable (_ → _ → _))

structure Inv (m : Ps2) : Prop where
  inOrder : m.InOrder
  /-- The timer's poll found OBF set, and nothing has cleared it since. -/
  polled : m.pc = .timerRead → m.obf = true

variable {m : Ps2}

theorem boot_inv : boot.Inv := ⟨rfl, by decide⟩

/-- A step of a handler moves at most one byte, from the controller to its hands or from
there to the decoder. -/
theorem Inv.cpu (h : m.Inv) (hok : m.ReadsFresh .cpu) : m.cpu.Inv := by
  obtain ⟨ho, hp⟩ := h
  unfold InOrder at ho
  unfold Ps2.cpu
  cases hpc : m.pc with
  | passive => exact ⟨ho, hp⟩
  | timerPoll =>
      rw [hpc] at ho
      unfold buffered at ho
      by_cases hobf : m.obf = true
      · exact ⟨by simpa [InOrder, buffered, HandlerPc.inFlight, hobf] using ho, fun _ => hobf⟩
      · exact ⟨by simpa [InOrder, buffered, HandlerPc.inFlight, hobf] using ho, by simp [hobf]⟩
  | timerRead =>
      rw [hpc, buffered, if_pos (hp hpc)] at ho
      exact ⟨by simpa [InOrder, buffered, HandlerPc.inFlight] using ho, by simp⟩
  | timerProcess sc =>
      rw [hpc] at ho
      refine ⟨?_, by simp⟩
      show m.processed ++ [sc] ++ [] ++ m.buffered = m.delivered
      rw [List.append_nil]
      exact ho
  | timerTick =>
      rw [hpc] at ho
      exact ⟨ho, by simp⟩
  | keyboardRead =>
      rw [hpc, buffered, if_pos (hok rfl hpc)] at ho
      exact ⟨by simpa [InOrder, buffered, HandlerPc.inFlight] using ho, by simp⟩
  | keyboardEoi sc =>
      rw [hpc] at ho
      exact ⟨ho, by simp⟩
  | keyboardProcess sc =>
      rw [hpc] at ho
      refine ⟨?_, by simp⟩
      show m.processed ++ [sc] ++ [] ++ m.buffered = m.delivered
      rw [List.append_nil]
      exact ho

theorem Inv.step (h : m.Inv) {e : Ps2Event} (hok : m.ReadsFresh e) : (m.step e).Inv := by
  cases e with
  | arrive b =>
      unfold Ps2.step
      by_cases hobf : m.obf = true
      · simp only [if_pos hobf]
        exact h
      · simp only [if_neg hobf]
        refine ⟨?_, fun _ => rfl⟩
        have ho := h.inOrder
        unfold InOrder buffered at ho
        rw [if_neg hobf, List.append_nil] at ho
        simp [InOrder, buffered, ho]
  | timer =>
      unfold Ps2.step
      by_cases hpc : m.pc = .passive
      · simp only [if_pos hpc]
        have ho := h.inOrder
        unfold InOrder at ho
        rw [hpc] at ho
        exact ⟨ho, by simp⟩
      · simp only [if_neg hpc]
        exact h
  | irq1 =>
      unfold Ps2.step
      by_cases hc : m.pc = .passive ∧ m.irq1 = true
      · simp only [if_pos hc]
        have ho := h.inOrder
        unfold InOrder at ho
        rw [hc.1] at ho
        exact ⟨ho, by simp⟩
      · simp only [if_neg hc]
        exact h
  | cpu => exact h.cpu hok

/-- Reading port 0x60 with OBF clear yields a byte that was already accounted for. -/
theorem Inv.stale_read (h : m.Inv) {e : Ps2Event} (hstale : ¬ m.ReadsFresh e) :
    ¬ (m.step e).InOrder := by
  unfold ReadsFresh at hstale
  push Not at hstale
  obtain ⟨rfl, hpc, hobf⟩ := hstale
  have ho := h.inOrder
  unfold InOrder buffered at ho
  rw [hpc, if_neg hobf] at ho
  intro hc
  have hlen := congrArg List.length hc
  simp only [buffered, Ps2.step, Ps2.cpu, hpc, HandlerPc.inFlight, ← ho] at hlen
  simp at hlen

/-- The decoder and the pushed bytes are those of the processed scancodes. -/
theorem step_decoded (h : (m.keyboard, m.pushed) = Keyboard.boot.processScancodes m.processed)
    (e : Ps2Event) :
    ((m.step e).keyboard, (m.step e).pushed)
      = Keyboard.boot.processScancodes (m.step e).processed := by
  have hprocess : ∀ sc, ((m.process sc).keyboard, (m.process sc).pushed)
      = Keyboard.boot.processScancodes (m.process sc).processed := by
    intro sc
    simp only [process, Keyboard.processScancodes_concat, ← h]
  cases e with
  | arrive b =>
      unfold step
      by_cases hc : m.obf = true
      · simpa only [if_pos hc] using h
      · simpa only [if_neg hc] using h
  | timer =>
      unfold step
      by_cases hc : m.pc = .passive
      · simpa only [if_pos hc] using h
      · simpa only [if_neg hc] using h
  | irq1 =>
      unfold step
      by_cases hc : m.pc = .passive ∧ m.irq1 = true
      · simpa only [if_pos hc] using h
      · simpa only [if_neg hc] using h
  | cpu =>
      show (m.cpu.keyboard, m.cpu.pushed) = Keyboard.boot.processScancodes m.cpu.processed
      unfold cpu
      cases m.pc with
      | timerProcess sc => exact hprocess sc
      | keyboardProcess sc => exact hprocess sc
      | passive => exact h
      | timerPoll => exact h
      | timerRead => exact h
      | timerTick => exact h
      | keyboardRead => exact h
      | keyboardEoi sc => exact h

/-- The processor runs `k` steps of its handler with nothing arriving. -/
def cpus : Nat → Ps2 → Ps2
  | 0, m => m
  | k + 1, m => cpus k m.cpu

/-- One timer interrupt empties the controller, so nothing is left out for good. -/
theorem InOrder.caught_up (h : m.InOrder) (hpc : m.pc = .passive) :
    (cpus 4 (m.step .timer)).processed = m.delivered := by
  unfold InOrder buffered at h
  rw [hpc] at h
  by_cases hobf : m.obf = true
  · simpa [cpus, cpu, step, process, hpc, hobf, HandlerPc.inFlight] using h
  · simpa [cpus, cpu, step, process, hpc, hobf, HandlerPc.inFlight] using h

/-! ### Either reader alone is right -/

/-- What holds while no timer poll finds a byte: IRQ1 is latched only for a byte that is
still there, and so the handler it starts finds it. -/
structure Latched (m : Ps2) : Prop where
  irq1 : m.irq1 = true → m.obf = true
  read : m.pc = .keyboardRead → m.obf = true ∧ m.irq1 = false
  poll : m.pc ≠ .timerRead

theorem Latched.step (h : m.Latched) {e : Ps2Event}
    (hpoll : e = .cpu → m.pc = .timerPoll → m.obf = false) : (m.step e).Latched := by
  obtain ⟨hi, hr, hp⟩ := h
  cases e with
  | arrive b =>
      unfold Ps2.step
      by_cases hobf : m.obf = true
      · simp only [if_pos hobf]
        exact ⟨hi, hr, hp⟩
      · simp only [if_neg hobf]
        exact ⟨fun _ => rfl, fun hc => absurd (hr hc).1 hobf, hp⟩
  | timer =>
      unfold Ps2.step
      by_cases hpc : m.pc = .passive
      · simp only [if_pos hpc]
        exact ⟨hi, by simp, by simp⟩
      · simp only [if_neg hpc]
        exact ⟨hi, hr, hp⟩
  | irq1 =>
      unfold Ps2.step
      by_cases hc : m.pc = .passive ∧ m.irq1 = true
      · simp only [if_pos hc]
        exact ⟨by simp, fun _ => ⟨hi hc.2, rfl⟩, by simp⟩
      · simp only [if_neg hc]
        exact ⟨hi, hr, hp⟩
  | cpu =>
      show m.cpu.Latched
      unfold Ps2.cpu
      cases hpc : m.pc with
      | passive => exact ⟨hi, hr, hp⟩
      | timerPoll =>
          simp only [hpoll rfl hpc]
          exact ⟨by simpa [hpoll rfl hpc] using hi, by simp, by simp⟩
      | timerRead => exact absurd hpc hp
      | timerProcess sc => exact ⟨hi, by simp, by simp⟩
      | timerTick => exact ⟨hi, by simp, by simp⟩
      | keyboardRead => exact ⟨by simp [(hr hpc).2], by simp, by simp⟩
      | keyboardEoi sc => exact ⟨hi, by simp, by simp⟩
      | keyboardProcess sc => exact ⟨hi, by simp, by simp⟩

/-- If no timer poll finds a byte, the keyboard handler always does. -/
theorem reads_fresh_of_no_poll {trace : List (Ps2 × Ps2Event)}
    (hrun : Run (Next step) boot trace m)
    (hpoll : ∀ e ∈ trace, e.2 = .cpu → e.1.pc = .timerPoll → e.1.obf = false) :
    ∀ e ∈ trace, e.1.ReadsFresh e.2 := by
  have hinv := hrun.invariant (I := Latched)
    (K := fun m e => e = .cpu → m.pc = .timerPoll → m.obf = false)
    ⟨by decide, by decide, by decide⟩
    (fun s e s' hl hok hs => by rw [← show s.step e = s' from hs]; exact hl.step hok) hpoll
  intro e he _ hpc
  exact ((hinv.2 e he).read hpc).1

/--
**Each byte once.**  A run processes the delivered bytes in order, without duplicates
or omissions, exactly when the keyboard handler never reads port 0x60 with OBF clear:
when no timer poll takes a byte whose IRQ1 is then served before the next byte comes.
-/
theorem ps2_exactly_once_iff {trace : List (Ps2 × Ps2Event)}
    (hrun : Run (Next step) boot trace m) :
    ((∀ t ∈ visited trace m, t.InOrder) ↔ ∀ e ∈ trace, e.1.ReadsFresh e.2) ∧
    (m.keyboard, m.pushed) = Keyboard.boot.processScancodes m.processed ∧
    ((∀ t ∈ visited trace m, t.InOrder) → m.pc = .passive →
      (cpus 4 (m.step .timer)).processed = m.delivered) := by
  refine ⟨?_, ?_, ?_⟩
  · refine hrun.good_iff boot_inv (fun t h => h.inOrder) ?_ ?_
    · intro s e s' h hok hs
      rw [← show s.step e = s' from hs]
      exact h.step hok
    · intro s e s' h hstale hs
      rw [← show s.step e = s' from hs]
      exact h.stale_read hstale
  · exact hrun.always_next
      (I := fun m => (m.keyboard, m.pushed) = Keyboard.boot.processScancodes m.processed)
      rfl fun m e h => step_decoded h e
  · intro hall hpc
    exact (hall m (by simp)).caught_up hpc

/-- The run of `ps2_doubled`. -/
def doubledEvents : List Ps2Event :=
  [.arrive 0x1E, .timer, .cpu, .cpu, .cpu, .cpu, .irq1, .cpu, .cpu, .cpu]

theorem ps2_exactly_once_one_key :
    ∃ (trace : List (Ps2 × Ps2Event)) (m : Ps2), Run (Next step) boot trace m ∧
      m.processed = [0x1E] ∧ ∀ t ∈ visited trace m, t.InOrder :=
  ⟨_, _, Run.ofActions step boot [.arrive 0x1E, .irq1, .cpu, .cpu, .cpu], by decide,
    (ps2_exactly_once_iff (Run.ofActions step boot [.arrive 0x1E, .irq1, .cpu, .cpu, .cpu])).1.mpr
      (by decide)⟩

/-- The timer takes a byte, then its IRQ1 is served: the key is processed twice. -/
theorem ps2_doubled :
    ∃ (trace : List (Ps2 × Ps2Event)) (m : Ps2), Run (Next step) boot trace m ∧
      m.pc = .passive ∧ m.delivered = [0x1E] ∧ m.processed = [0x1E, 0x1E] ∧
      m.pushed = [97, 97] :=
  ⟨_, _, Run.ofActions step boot doubledEvents, by decide⟩

end Ps2

end Amaterasu
