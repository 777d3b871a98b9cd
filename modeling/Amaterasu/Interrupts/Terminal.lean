/-
From the interrupt to the edited line.

Two decoders push into one ring, the main loop takes bytes off it, and the shell is given
them; between any two of these steps the timer may blink the cursor, and `drain` announces
the first USB report in the middle of whatever is being typed.  A `Terminal` is all of it at
once, so that what is proved of the decoders, of the ring and of the shell apart is said
here of every order in which they run.

The session carries the whole argument: it is, but for the screen, what the bytes handed
over would have made of it one after the other and undisturbed.  A main loop that has
panicked does not run again; interrupts still come.
-/
import Amaterasu.Keyboard.Decode
import Amaterasu.Keyboard.Ring
import Amaterasu.Shell.OneWay

namespace Amaterasu

namespace Console

/-- The pushes of one interrupt. -/
def pushes (c : Console) (bytes : List UInt8) : Console := bytes.foldl push c

variable {c : Console}

theorem Inv.pushes (h : c.Inv) (bytes : List UInt8) : (c.pushes bytes).Inv := by
  induction bytes generalizing c with
  | nil => exact h
  | cons b bytes ih => exact ih (h.push b)

@[simp] theorem pushes_handed (c : Console) (bytes : List UInt8) :
    (c.pushes bytes).handed = c.handed := by
  induction bytes generalizing c with
  | nil => rfl
  | cons b bytes ih => exact ih (c.push b)

/-- What is on the ring came from the decoders, in their order. -/
theorem pushes_sublist {decoded : List UInt8} (h : c.accepted.Sublist decoded)
    (bytes : List UInt8) : (c.pushes bytes).accepted.Sublist (decoded ++ bytes) := by
  induction bytes generalizing c decoded with
  | nil =>
      rw [List.append_nil]
      exact h
  | cons b bytes ih =>
      have hpush : (c.push b).accepted.Sublist (decoded ++ [b]) := by
        show (if c.ring.full then c.accepted else c.accepted ++ [b]).Sublist _
        split
        · exact h.trans (List.sublist_append_left _ _)
        · exact h.append (List.Sublist.refl _)
      have hrest := ih hpush
      rw [List.append_assoc, List.singleton_append] at hrest
      exact hrest

/-- With room for all of them, all of them are stored. -/
theorem Inv.pushes_accepted (h : c.Inv) (bytes : List UInt8)
    (hroom : c.accepted.length + bytes.length ≤ c.handed.length + 63) :
    (c.pushes bytes).accepted = c.accepted ++ bytes := by
  induction bytes generalizing c with
  | nil => exact (List.append_nil _).symm
  | cons b bytes ih =>
      have hfifo := congrArg List.length h.fifo
      rw [List.length_append, List.length_append, InputRing.length_contents] at hfifo
      rw [List.length_cons] at hroom
      have hcap : rbCap = 64 := rfl
      have hfree : ¬ c.ring.full = true := by
        rw [InputRing.full_iff h.range]
        omega
      have hpush : (c.push b).accepted = c.accepted ++ [b] := if_neg hfree
      have hrest := ih (h.push b) (by
        rw [hpush, List.length_append, List.length_singleton]
        show _ ≤ c.handed.length + 63
        omega)
      rw [hpush, List.append_assoc, List.singleton_append] at hrest
      exact hrest

end Console

/-- The decoders, the ring with the main loop, and the shell. -/
structure Terminal where
  keyboard : Keyboard
  console : Console
  /-- All the bytes the decoders have pushed, whether or not there was room for them. -/
  decoded : List UInt8
  /-- What `reports_received` returns. -/
  reports : Nat
  /-- `XHCI_REPORT_ANNOUNCED`. -/
  announced : Bool
  /-- `none` once the main loop has panicked. -/
  session : Option Session

/-- What the commands that only print are printing at the moment. -/
abbrev Printed := Text → Shell → Globals → Option Text → List Writer.Op

inductive TerminalStep where
  /-- A PS/2 byte, from its interrupt or polled by the timer. -/
  | scancode (sc : UInt8)
  /-- A report that the timer takes. -/
  | report (r : HidReport)
  /-- The timer finds the writer free, and toggles the cursor. -/
  | blink
  /-- One step of the main loop. -/
  | main (out : Printed)

/-- `b as char`. -/
def charOf (b : UInt8) : Char := Char.ofNat b.toNat

namespace Terminal

/-- As the main loop is entered, with the shell at its first prompt. -/
def boot (s : Session) : Terminal where
  keyboard := Keyboard.boot
  console := { Console.boot with pc := .halted }
  decoded := []
  reports := 0
  announced := false
  session := some s

/-- What a decoder leaves behind. -/
def input (t : Terminal) (r : Keyboard × List UInt8) : Terminal :=
  { t with keyboard := r.1, console := t.console.pushes r.2, decoded := t.decoded ++ r.2 }

/-- The line about the first report, on the way into `drain`. -/
def announce (t : Terminal) : Terminal :=
  if t.reports > 0 ∧ t.announced = false then
    { t with
      announced := true
      session := t.session.map fun s =>
        s.print "[dbg] first XHCI HID report received\n".toList }
  else t

/-- The shell is given a byte. -/
def deliver (t : Terminal) (out : Printed) (b : UInt8) : Terminal :=
  { t with session := t.session >>= fun s => s.pushChar (COMMANDS out) (charOf b) }

def main (t : Terminal) (out : Printed) : Terminal :=
  if t.session = none then t
  else
    let u := match t.console.pc with
      | .halted => t.announce
      | .call b => t.deliver out b
      | _ => t
    { u with console := t.console.main }

def step (t : Terminal) : TerminalStep → Terminal
  | .scancode sc => t.input (t.keyboard.processScancode sc)
  | .report r => { t with reports := t.reports + 1 }.input (t.keyboard.processHidReport r)
  | .blink => { t with session := t.session.map fun s => s.onWriter Writer.tickCursor }
  | .main out => t.main out

/-- The session, were the bytes handed over typed undisturbed. -/
def typed (out : Printed) (s : Session) (t : Terminal) : Option Session :=
  (t.console.handed.map charOf).foldlM (Session.pushChar (COMMANDS out)) s

/-- What every order of steps keeps. -/
structure Inv (out : Printed) (s : Session) (t : Terminal) : Prop where
  console : t.console.Inv
  kept : t.console.accepted.Sublist t.decoded
  session : Session.AlikeResults (t.typed out s) t.session

namespace Inv

variable {out : Printed} {s : Session} {t : Terminal}

theorem boot (out : Printed) (s : Session) : (Terminal.boot s).Inv out s where
  console := ⟨Console.boot_inv.range, trivial, Console.boot_inv.fifo⟩
  kept := List.Sublist.refl _
  session := .some (.refl s)

/-- Another painting of the screen. -/
theorem paint (h : t.Inv out s) (f : Writer → Writer) :
    Session.AlikeResults (t.typed out s) (t.session.map fun s => s.onWriter f) := by
  have hpaint : ∀ a b, Session.Alike a b → Session.Alike (id a) (b.onWriter f) :=
    fun _ _ hab => hab.paint_right f
  have hmap := Lockstep.map h.session hpaint
  rwa [Option.map_id] at hmap

theorem input (h : t.Inv out s) (r : Keyboard × List UInt8) : (t.input r).Inv out s where
  console := h.console.pushes r.2
  kept := Console.pushes_sublist h.kept r.2
  session := by
    have hhanded : (t.input r).console.handed = t.console.handed := Console.pushes_handed _ _
    rw [typed, hhanded]
    exact h.session

theorem blink (h : t.Inv out s) : (t.step .blink).Inv out s :=
  ⟨h.console, h.kept, h.paint Writer.tickCursor⟩

theorem announce (h : t.Inv out s) : t.announce.Inv out s := by
  unfold Terminal.announce
  split
  · exact ⟨h.console, h.kept, h.paint _⟩
  · exact h

/-- The byte handed over is one more byte typed. -/
theorem deliver (h : t.Inv out s) (out' : Printed) (b : UInt8) :
    Session.AlikeResults (((t.console.handed ++ [b]).map charOf).foldlM
      (Session.pushChar (COMMANDS out)) s) (t.deliver out' b).session := by
  rw [List.map_append, List.map_singleton, List.foldlM_append]
  refine Lockstep.bind h.session fun a a' ha => ?_
  have hkey := ha.pushChar (Session.sameEffect_COMMANDS out out') (charOf b)
  rw [List.foldlM_cons]
  simp only [List.foldlM_nil, bind_pure]
  exact hkey

/-- A step of the main loop other than the call hands nothing over. -/
theorem main_handed (c : Console) (h : ∀ b, c.pc ≠ .call b) : c.main.handed = c.handed := by
  unfold Console.main
  cases hpc : c.pc with
  | call b => exact absurd hpc (h b)
  | halted => rfl
  | load => rfl
  | compare tail => rfl
  | read tail => rfl
  | store tail b => rfl

theorem quiet (h : t.Inv out s) (hpc : ∀ b, t.console.pc ≠ .call b) :
    ({ t with console := t.console.main } : Terminal).Inv out s := by
  refine ⟨h.console.main, ?_, ?_⟩
  · rw [Console.main_accepted]
    exact h.kept
  · rw [typed, main_handed t.console hpc]
    exact h.session

theorem main (h : t.Inv out s) (out' : Printed) : (t.main out').Inv out s := by
  unfold Terminal.main
  split
  · exact h
  · cases hpc : t.console.pc with
    | halted =>
        have hconsole : t.announce.console = t.console := by
          unfold Terminal.announce
          split <;> rfl
        have hnext := h.announce.quiet (by simp [hconsole, hpc])
        rwa [hconsole] at hnext
    | call b =>
        refine ⟨h.console.main, ?_, ?_⟩
        · rw [Console.main_accepted]
          exact h.kept
        · have hhanded : t.console.main.handed = t.console.handed ++ [b] := by
            unfold Console.main
            rw [hpc]
          rw [typed, hhanded]
          exact h.deliver out' b
    | load => exact h.quiet (by simp [hpc])
    | compare tail => exact h.quiet (by simp [hpc])
    | read tail => exact h.quiet (by simp [hpc])
    | store tail b => exact h.quiet (by simp [hpc])

theorem step (h : t.Inv out s) (a : TerminalStep) : (t.step a).Inv out s := by
  cases a with
  | scancode sc => exact h.input _
  | report r =>
      exact input (t := { t with reports := t.reports + 1 }) ⟨h.console, h.kept, h.session⟩ _
  | blink => exact h.blink
  | main out' => exact h.main out'

end Inv

theorem run_inv (out : Printed) {s : Session} {t : Terminal}
    {trace : List (Terminal × TerminalStep)} (hrun : Run (Next step) (boot s) trace t) :
    t.Inv out s :=
  hrun.always_next (Inv.boot out s) fun _ a hi => hi.step a

/-! ### Nothing is lost, and nothing waits for ever -/

/-- Everything decoded has been stored. -/
structure Whole (t : Terminal) : Prop where
  console : t.console.Inv
  whole : t.console.accepted = t.decoded

variable {t : Terminal}

theorem Whole.input (h : t.Whole) {r : Keyboard × List UInt8}
    (hroom : (t.decoded ++ r.2).length ≤ t.console.handed.length + 63) : (t.input r).Whole where
  console := h.console.pushes r.2
  whole := by
    show (t.console.pushes r.2).accepted = t.decoded ++ r.2
    rw [List.length_append, ← h.whole] at hroom
    rw [h.console.pushes_accepted r.2 hroom, h.whole]

theorem main_console (t : Terminal) (out : Printed) :
    (t.main out).console = t.console ∨ (t.main out).console = t.console.main := by
  unfold main
  split
  · exact Or.inl rfl
  · exact Or.inr rfl

theorem main_decoded (t : Terminal) (out : Printed) : (t.main out).decoded = t.decoded := by
  unfold main announce deliver
  split
  · rfl
  · dsimp only
    split
    · split <;> rfl
    · rfl
    · rfl

theorem Whole.step (h : t.Whole) (a : TerminalStep)
    (hroom : (t.step a).decoded.length ≤ (t.step a).console.handed.length + 63) :
    (t.step a).Whole := by
  cases a with
  | scancode sc =>
      refine h.input ?_
      have hhanded : (t.step (.scancode sc)).console.handed = t.console.handed :=
        Console.pushes_handed _ _
      rw [hhanded] at hroom
      exact hroom
  | report r =>
      have hhanded : (t.step (.report r)).console.handed = t.console.handed :=
        Console.pushes_handed _ _
      rw [hhanded] at hroom
      exact input (t := { t with reports := t.reports + 1 }) ⟨h.console, h.whole⟩ hroom
  | blink => exact ⟨h.console, h.whole⟩
  | main out =>
      have hdecoded : (t.step (.main out)).decoded = t.decoded := main_decoded t out
      refine ⟨?_, ?_⟩
      · rcases main_console t out with hsame | hmain
        · exact hsame ▸ h.console
        · exact hmain ▸ h.console.main
      · rw [hdecoded, ← h.whole]
        rcases main_console t out with hsame | hmain
        · exact congrArg Console.accepted hsame
        · exact (congrArg Console.accepted hmain).trans (Console.main_accepted _)

/-- The main loop runs `k` steps without an interrupt. -/
def mains (out : Printed) : Nat → Terminal → Terminal
  | 0, t => t
  | k + 1, t => mains out k (t.main out)

end Terminal

end Amaterasu
