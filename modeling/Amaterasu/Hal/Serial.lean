/-
The serial port: `hal/src/serial.rs` against a 16550.

The driver writes a byte when the transmitter has taken all it had, so that nothing is
overwritten; the transmitter may take its bytes whenever it likes.  What has gone out, followed
by what is still waiting, is then what had gone out before `init` and the bytes of the printed
texts, in order.

Two registers of the 16550 share their port with the divisor, and are there while the divisor
latch is closed.  `init` does not close the latch before it disables the interrupts: where the
firmware has left it open, the zero goes to the divisor.
-/
import Amaterasu.Hal.Ports
import Amaterasu.Lib.Text

namespace Amaterasu

namespace Serial

open Dialogue Ports

structure SerialPort where
  base : UInt16
  deriving DecidableEq, Repr

namespace SerialPort

/-- `SERIAL1`. -/
def serial1 : SerialPort := ⟨0x3F8⟩

def init (sp : SerialPort) : Ports Unit := do
  outb (sp.base + 1) 0x00
  outb (sp.base + 3) 0x80
  outb (sp.base + 0) 0x03
  outb (sp.base + 1) 0x00
  outb (sp.base + 3) 0x03
  outb (sp.base + 2) 0xC7
  outb (sp.base + 4) 0x0B

/-- `write_byte`; `none` is out of fuel. -/
def writeByte (fuel : Nat) (sp : SerialPort) (byte : UInt8) : Ports (Option Unit) := do
  match ← poll (inb (sp.base + 5)) (fun lsr => lsr &&& 0x20 != 0) (return false) fuel with
  | .found _ =>
      outb sp.base byte
      return some ()
  | _ => return none

def writeBytes (fuel : Nat) (sp : SerialPort) : List UInt8 → Ports (Option Unit)
  | [] => return some ()
  | byte :: bytes => do
      match ← writeByte fuel sp byte with
      | some () => writeBytes fuel sp bytes
      | none => return none

/-- `write_str`. -/
def writeStr (fuel : Nat) (sp : SerialPort) (s : Text) : Ports (Option Unit) :=
  writeBytes fuel sp (Text.encode s)

/-- `_print`, for arguments that are formatted into these pieces. -/
def print (fuel : Nat) (sp : SerialPort) : List Text → Ports (Option Unit)
  | [] => return some ()
  | s :: pieces => do
      match ← writeStr fuel sp s with
      | some () => print fuel sp pieces
      | none => return none

def prints (fuel : Nat) (sp : SerialPort) : List (List Text) → Ports (Option Unit)
  | [] => return some ()
  | args :: rest => do
      match ← print fuel sp args with
      | some () => prints fuel sp rest
      | none => return none

/-- All of what the kernel does with the port. -/
def session (fuel : Nat) (sp : SerialPort) (args : List (List Text)) : Ports (Option Unit) := do
  init sp
  prints fuel sp args

end SerialPort

/-! ### The 16550 -/

/-- The registers that are written. -/
structure Regs where
  ier : UInt8
  fcr : UInt8
  lcr : UInt8
  mcr : UInt8
  dll : UInt8
  dlm : UInt8
  deriving DecidableEq, Repr

/-- What the line is driven with. -/
structure Settings where
  format : UInt8
  dlm : UInt8
  dll : UInt8
  deriving DecidableEq, Repr

/-- 8 bits, no parity, one stop bit; 115200 / 3 baud. -/
def Settings.n81 : Settings := ⟨3, 0, 3⟩

structure Uart where
  regs : Regs
  /-- Written and not yet taken. -/
  fifo : List UInt8
  /-- What has gone out. -/
  line : List (Settings × UInt8)

namespace Regs

/-- The divisor latch is open. -/
def dlab (r : Regs) : Bool := r.lcr &&& 0x80 != 0

def settings (r : Regs) : Settings := ⟨r.lcr &&& 0x7F, r.dlm, r.dll⟩

/-- How many bytes wait at most. -/
def depth (r : Regs) : Nat := if r.fcr &&& 1 = 0 then 1 else 16

def write (r : Regs) (reg : UInt16) (v : UInt8) : Regs :=
  if reg = 0 then if r.dlab then { r with dll := v } else r
  else if reg = 1 then if r.dlab then { r with dlm := v } else { r with ier := v }
  else if reg = 2 then { r with fcr := v }
  else if reg = 3 then { r with lcr := v }
  else if reg = 4 then { r with mcr := v }
  else r

variable (r : Regs) (v : UInt8)

theorem write_one : r.write 1 v = if r.dlab then { r with dlm := v } else { r with ier := v } := by
  simp [write]

@[simp] theorem write_two : r.write 2 v = { r with fcr := v } := by simp [write]

@[simp] theorem write_three : r.write 3 v = { r with lcr := v } := by simp [write]

@[simp] theorem write_four : r.write 4 v = { r with mcr := v } := by simp [write]

theorem dlab_write_three : (r.write 3 v).dlab = (v &&& 0x80 != 0) := by
  rw [write_three, dlab]

/-- The divisor, with the latch open. -/
theorem write_divisor (h : r.dlab = true) (lo hi : UInt8) :
    (r.write 0 lo).write 1 hi = { r with dll := lo, dlm := hi } := by
  have hlo : r.write 0 lo = { r with dll := lo } := by simp [write, h]
  have hopen : ({ r with dll := lo } : Regs).dlab = true := h
  rw [hlo, write_one, if_pos hopen]

end Regs

namespace Uart

/-- The transmitter takes a byte. -/
inductive Takes : Uart → Uart → Prop
  | byte {u : Uart} {b : UInt8} {rest : List UInt8} (h : u.fifo = b :: rest) :
      Takes u { u with fifo := rest, line := u.line ++ [(u.regs.settings, b)] }

/-- What waits after a write.  A byte for which there is no room is lost. -/
def fifoAfter (u : Uart) (reg : UInt16) (v : UInt8) : List UInt8 :=
  if reg = 0 then
    if u.regs.dlab then u.fifo
    else if u.fifo.length < u.regs.depth then u.fifo ++ [v] else u.fifo
  else if reg = 2 then
    if v &&& 4 ≠ 0 ∨ v &&& 1 ≠ u.regs.fcr &&& 1 then [] else u.fifo
  else u.fifo

def write (u : Uart) (reg : UInt16) (v : UInt8) : Uart where
  regs := u.regs.write reg v
  fifo := u.fifoAfter reg v
  line := u.line

/-- All that has been written and not been lost. -/
def bytes (u : Uart) : List UInt8 := u.line.map Prod.snd ++ u.fifo

end Uart

/-- A 16550 at `base`. -/
def uartDevice (base : UInt16) : Device Uart Pio UInt32 where
  drifts := Relation.ReflTransGen Uart.Takes
  answers u q r u' := match q with
    | .outb port v => u' = u.write (port - base) v
    | .inb port => u' = u ∧ (port - base = 5 → (r.toUInt8 &&& 0x20 ≠ 0 ↔ u.fifo = []))
    | _ => u' = u

namespace Uart

variable {base : UInt16} {u u' : Uart} {inv : Uart → Prop}

/-- What has gone out, and what will if the settings stay as they are. -/
def frames (u : Uart) : List (Settings × UInt8) :=
  u.line ++ u.fifo.map fun b => (u.regs.settings, b)

theorem frames_snd (u : Uart) : u.frames.map Prod.snd = u.bytes := by
  unfold frames bytes
  rw [List.map_append, List.map_map]
  congr 1
  exact List.map_id u.fifo

/-- The transmitter moves bytes, and does nothing else. -/
theorem takes_frames (h : Relation.ReflTransGen Takes u u') :
    u'.regs = u.regs ∧ u'.frames = u.frames ∧ (u.fifo = [] → u'.fifo = []) := by
  induction h with
  | refl => exact ⟨rfl, rfl, id⟩
  | @tail v w _ htakes ih =>
      obtain ⟨hregs, hframes, hempty⟩ := ih
      cases htakes with
      | @byte b rest hfifo =>
          refine ⟨hregs, ?_, fun h => ?_⟩
          · rw [← hframes, frames, frames, hfifo]
            simp
          · rw [hempty h] at hfifo
            exact absurd hfifo (by simp)

theorem meets_outb {post : Unit → Uart → Prop} (reg : UInt16) (v : UInt8)
    (h : ∀ u', Relation.ReflTransGen Takes u u' → post () (u'.write reg v)) :
    Meets (uartDevice base) post (outb (base + reg) v) u := by
  intro u₁ r u' hdrift hanswer
  have hreg : base + reg - base = reg := by
    rw [UInt16.add_comm, UInt16.add_sub_cancel]
  have hwritten : u' = u₁.write (base + reg - base) v := hanswer
  rw [hwritten, hreg]
  exact h u₁ hdrift

/-! ### `init` -/

/-- Nothing has been added to what was there. -/
structure At (regs : Regs) (all : List UInt8) (u : Uart) : Prop where
  regs : u.regs = regs
  bytes : u.bytes <+: all

variable {regs : Regs} {all : List UInt8}

/-- A write that is not to the transmitter. -/
theorem At.write (h : At regs all u) (hdrift : Relation.ReflTransGen Takes u u') {reg : UInt16}
    (v : UInt8) (hreg : reg ≠ 0 ∨ regs.dlab = true) :
    At (regs.write reg v) all (u'.write reg v) := by
  obtain ⟨hregs, hframes, _⟩ := takes_frames hdrift
  have hbytes : u'.bytes <+: all := by
    rw [← frames_snd, hframes, frames_snd]
    exact h.bytes
  refine ⟨by rw [Uart.write, hregs, h.regs], ?_⟩
  have hfifo : u'.fifoAfter reg v = u'.fifo ∨ u'.fifoAfter reg v = [] := by
    unfold fifoAfter
    rcases hreg with hne | hdlab
    · rw [if_neg hne]
      split_ifs <;> simp
    · rw [hregs, h.regs, if_pos hdlab]
      split_ifs <;> simp
  rcases hfifo with hsame | hnone
  · rw [Uart.bytes, Uart.write, hsame]
    exact hbytes
  · rw [Uart.bytes, Uart.write, hnone, List.append_nil]
    exact (List.prefix_append _ _).trans hbytes

theorem meets_initWrite (h : At regs all u) {reg : UInt16} (v : UInt8)
    (hreg : reg ≠ 0 ∨ regs.dlab = true) :
    Meets (uartDevice base) (fun _ => At (regs.write reg v) all) (outb (base + reg) v) u :=
  meets_outb reg v fun _ hdrift => h.write hdrift v hreg

/-- How `init` leaves the registers. -/
def initialised (ier : UInt8) : Regs where
  ier := ier
  fcr := 0xC7
  lcr := 0x03
  mcr := 0x0B
  dll := 3
  dlm := 0

theorem initialised_dlab (ier : UInt8) : (initialised ier).dlab = false := by
  have hbit : (3 : UInt8) &&& 0x80 = 0 := by decide
  simp [Regs.dlab, initialised, hbit]

theorem initialised_settings (ier : UInt8) : (initialised ier).settings = Settings.n81 := by
  have hbits : (3 : UInt8) &&& 0x7F = 3 := by decide
  simp [Regs.settings, initialised, Settings.n81, hbits]

/-- The writes of `init`, on the registers. -/
theorem initialised_eq (r : Regs) :
    ((((((r.write 1 0x00).write 3 0x80).write 0 0x03).write 1 0x00).write 3 0x03).write 2
      0xC7).write 4 0x0B = initialised (if r.dlab then r.ier else 0) := by
  have hopen : ((r.write 1 0x00).write 3 0x80).dlab = true := by
    rw [Regs.dlab_write_three]
    decide
  rw [Regs.write_divisor _ hopen, Regs.write_one]
  split_ifs <;> simp [initialised]

theorem meets_init (u : Uart) : Meets (uartDevice base)
    (fun _ => At (initialised (if u.regs.dlab then u.regs.ier else 0)) u.bytes)
    (SerialPort.init ⟨base⟩) u := by
  have h : At u.regs u.bytes u := ⟨rfl, List.prefix_rfl⟩
  have hopen : ((u.regs.write 1 0x00).write 3 0x80).dlab = true := by
    rw [Regs.dlab_write_three]
    decide
  rw [← initialised_eq]
  refine (meets_initWrite h 0x00 (Or.inl (by decide))).seq fun _ u₁ h => ?_
  refine (meets_initWrite h 0x80 (Or.inl (by decide))).seq fun _ u₂ h => ?_
  refine (meets_initWrite h 0x03 (Or.inr hopen)).seq fun _ u₃ h => ?_
  refine (meets_initWrite h 0x00 (Or.inl (by decide))).seq fun _ u₄ h => ?_
  refine (meets_initWrite h 0x03 (Or.inl (by decide))).seq fun _ u₅ h => ?_
  refine (meets_initWrite h 0xC7 (Or.inl (by decide))).seq fun _ u₆ h => ?_
  exact meets_initWrite h 0x0B (Or.inl (by decide))

/-! ### Printing -/

/-- After `init`, and these bytes. -/
structure Carrying (ier : UInt8) (before : List (Settings × UInt8)) (sent : List UInt8) (u : Uart) :
    Prop where
  regs : u.regs = initialised ier
  frames : u.frames = before ++ sent.map fun b => (Settings.n81, b)

variable {ier : UInt8} {before : List (Settings × UInt8)} {sent : List UInt8}

theorem Carrying.takes (h : Carrying ier before sent u)
    (hdrift : Relation.ReflTransGen Takes u u') :
    Carrying ier before sent u' := by
  obtain ⟨hregs, hframes, _⟩ := takes_frames hdrift
  exact ⟨hregs.trans h.regs, hframes.trans h.frames⟩

/-- A byte that is written while nothing waits. -/
theorem Carrying.write (h : Carrying ier before sent u) (hempty : u.fifo = []) (b : UInt8) :
    Carrying ier before (sent ++ [b]) (u.write 0 b) := by
  have hregs : u.regs.write 0 b = u.regs := by
    rw [h.regs, Regs.write, if_pos rfl, initialised_dlab, if_neg (by simp)]
  have hdlab : u.regs.dlab = false := by rw [h.regs, initialised_dlab]
  have hsettings : u.regs.settings = Settings.n81 := by rw [h.regs, initialised_settings]
  have hdepth : 0 < u.regs.depth := by
    unfold Regs.depth
    split_ifs <;> omega
  have hline : u.line = before ++ sent.map fun b => (Settings.n81, b) := by
    rw [← h.frames, Uart.frames, hempty, List.map_nil, List.append_nil]
  refine ⟨hregs.trans h.regs, ?_⟩
  simp [Uart.frames, Uart.write, fifoAfter, hempty, hdlab, hdepth, hregs, hsettings, hline]

theorem meets_writeByte (h : Carrying ier before sent u) (fuel : Nat) (b : UInt8) :
    Meets (uartDevice base)
      (fun r u' => Carrying ier before sent u' ∧ r = none ∨
        Carrying ier before (sent ++ [b]) u' ∧ r = some ())
      (SerialPort.writeByte fuel ⟨base⟩ b) u := by
  have hread : ∀ u : Uart, Carrying ier before sent u → Meets (uartDevice base)
      (fun (lsr : UInt8) u => if lsr &&& 0x20 != 0 then Carrying ier before sent u ∧ u.fifo = []
        else Carrying ier before sent u) (inb (base + 5)) u := by
    intro u h u₁ r u' hdrift ⟨hsame, hlsr⟩
    have hreg : base + 5 - base = 5 := by
      rw [UInt16.add_comm, UInt16.add_sub_cancel]
    have hcarry := h.takes hdrift
    rw [hsame]
    show if r.toUInt8 &&& 0x20 != 0 then _ else _
    split_ifs with hbit
    · exact ⟨hcarry, (hlsr hreg).mp (by simpa using hbit)⟩
    · exact hcarry
  have hpast : ∀ u : Uart, Carrying ier before sent u → Meets (uartDevice base)
      (fun _ u => Carrying ier before sent u) (return false) u := fun u h => Meets.pure h
  refine (meets_poll hread hpast fuel h).seq fun r u' hr => ?_
  cases r with
  | found lsr =>
      obtain ⟨⟨hcarry, hempty⟩, _⟩ := hr
      refine Meets.bind ?_
      intro u₁ _ u'' hdrift hanswer
      have hwritten : u'' = u₁.write (base - base) b := hanswer
      rw [hwritten, UInt16.sub_self]
      exact Or.inr ⟨(hcarry.takes hdrift).write ((takes_frames hdrift).2.2 hempty) b, rfl⟩
  | late => exact Meets.pure (Or.inl ⟨hr, rfl⟩)
  | stuck => exact Meets.pure (Or.inl ⟨hr, rfl⟩)

/-- What of some bytes has been sent when a program returns: all, or some of them if it is out
of fuel. -/
def Sends (ier : UInt8) (before : List (Settings × UInt8)) (sent bytes : List UInt8)
    (r : Option Unit) (u : Uart) : Prop :=
  ∃ more, Carrying ier before (sent ++ more) u ∧ more <+: bytes ∧ (r = some () → more = bytes)

variable {bytes bytes' : List UInt8} {p q : Ports (Option Unit)}

/-- One text after another. -/
theorem Sends.seq (hp : Meets (uartDevice base) (Sends ier before sent bytes) p u)
    (hq : ∀ sent u, Carrying ier before sent u →
      Meets (uartDevice base) (Sends ier before sent bytes') q u) :
    Meets (uartDevice base) (Sends ier before sent (bytes ++ bytes'))
      (do match ← p with
        | some () => q
        | none => return none) u := by
  refine Meets.seq hp fun r u' ⟨more, hcarry, hprefix, hall⟩ => ?_
  cases r with
  | none =>
      exact Meets.pure ⟨more, hcarry, hprefix.trans (List.prefix_append _ _), fun h => by simp at h⟩
  | some _ =>
      obtain rfl := hall rfl
      refine (hq _ u' hcarry).mono fun r u'' ⟨more', hcarry, hprefix, hall⟩ => ?_
      refine ⟨more ++ more', by rwa [← List.append_assoc], ?_, fun h => by rw [hall h]⟩
      exact (List.prefix_append_right_inj more).mpr hprefix

theorem Sends.nothing (h : Carrying ier before sent u) : Sends ier before sent [] (some ()) u :=
  ⟨[], by rwa [List.append_nil], List.prefix_rfl, fun _ => rfl⟩

theorem meets_writeBytes (fuel : Nat) (bytes : List UInt8) (h : Carrying ier before sent u) :
    Meets (uartDevice base) (Sends ier before sent bytes)
      (SerialPort.writeBytes fuel ⟨base⟩ bytes) u := by
  induction bytes generalizing sent u with
  | nil => exact Meets.pure (Sends.nothing h)
  | cons b bytes ih =>
      have hbyte : Meets (uartDevice base) (Sends ier before sent [b])
          (SerialPort.writeByte fuel ⟨base⟩ b) u := by
        refine (meets_writeByte h fuel b).mono fun r u' hr => ?_
        rcases hr with ⟨hcarry, rfl⟩ | ⟨hcarry, rfl⟩
        · exact ⟨[], by rwa [List.append_nil], List.nil_prefix, fun h => by simp at h⟩
        · exact ⟨[b], hcarry, List.prefix_rfl, fun _ => rfl⟩
      exact Sends.seq hbyte fun sent u h => ih h

theorem meets_print (fuel : Nat) (pieces : List Text) (h : Carrying ier before sent u) :
    Meets (uartDevice base) (Sends ier before sent (Text.encode pieces.flatten))
      (SerialPort.print fuel ⟨base⟩ pieces) u := by
  induction pieces generalizing sent u with
  | nil => exact Meets.pure (Sends.nothing h)
  | cons s pieces ih =>
      rw [List.flatten_cons, Text.encode_append]
      exact Sends.seq (meets_writeBytes fuel _ h) fun sent u h => ih h

theorem meets_prints (fuel : Nat) (args : List (List Text)) (h : Carrying ier before sent u) :
    Meets (uartDevice base) (Sends ier before sent (Text.encode args.flatten.flatten))
      (SerialPort.prints fuel ⟨base⟩ args) u := by
  induction args generalizing sent u with
  | nil => exact Meets.pure (Sends.nothing h)
  | cons pieces args ih =>
      rw [List.flatten_cons, List.flatten_append, Text.encode_append]
      exact Sends.seq (meets_print fuel pieces h) fun sent u h => ih h

end Uart

/-- From `u`, these bytes have been printed, or some of them if the driver is still waiting. -/
def Carried (u : Uart) (bytes : List UInt8) (r : Option Unit) (u' : Uart) : Prop :=
  ∃ before sent,
    u'.line ++ u'.fifo.map (fun b => (Settings.n81, b))
      = before ++ sent.map (fun b => (Settings.n81, b)) ∧
    before.map Prod.snd <+: u.bytes ∧ sent <+: bytes ∧ (r = some () → sent = bytes) ∧
    u'.regs = Uart.initialised (if u.regs.dlab then u.regs.ier else 0)

/--
**Everything that is printed goes out, in order.**  From any state of the 16550 at `base`, with a
transmitter that takes its bytes when it likes: after `init` and any sequence of prints, what has
gone out and what still waits are some of what the port had from before, and then the bytes of
the texts, one after the other, as 8N1 at 38400 baud.  Only where the driver is still waiting
for the transmitter are there texts, or the end of one, that have not been written.  The
interrupts are off if the firmware left the divisor latch closed, and else as it left them.
-/
theorem serial_carries {base : UInt16} {u u' : Uart} {fuel : Nat} {args : List (List Text)}
    {r : Option Unit}
    (hrun : Runs (uartDevice base) (SerialPort.session fuel ⟨base⟩ args) u r u') :
    Carried u (Text.encode args.flatten.flatten) r u' := by
  have hmeets : Meets (uartDevice base) (fun r u' => ∃ before, before.map Prod.snd <+: u.bytes ∧
      Uart.Sends (if u.regs.dlab then u.regs.ier else 0) before []
        (Text.encode args.flatten.flatten) r u') (SerialPort.session fuel ⟨base⟩ args) u := by
    refine (Uart.meets_init u).seq fun _ v hv => ?_
    have hcarry : Uart.Carrying (if u.regs.dlab then u.regs.ier else 0) v.frames [] v :=
      ⟨hv.regs, (List.append_nil _).symm⟩
    refine (Uart.meets_prints fuel args hcarry).mono fun r u' hr => ⟨v.frames, ?_, hr⟩
    rw [Uart.frames_snd]
    exact hv.bytes
  obtain ⟨before, hbefore, sent, hcarry, hprefix, hall⟩ := hmeets.run hrun
  have hframes := hcarry.frames
  rw [Uart.frames, hcarry.regs, Uart.initialised_settings] at hframes
  exact ⟨before, sent, hframes, hbefore, hprefix, hall, hcarry.regs⟩

namespace Uart

variable {base : UInt16}

theorem runs_outb (u : Uart) (reg : UInt16) (v : UInt8) :
    Runs (uartDevice base) (outb (base + reg) v) u () (u.write reg v) := by
  have hreg : base + reg - base = reg := by rw [UInt16.add_comm, UInt16.add_sub_cancel]
  exact .ask (r := 0) .refl (show _ = u.write (base + reg - base) v by rw [hreg]) .done

theorem runs_init (u : Uart) : Runs (uartDevice base) (SerialPort.init ⟨base⟩) u ()
    (((((((u.write 1 0x00).write 3 0x80).write 0 0x03).write 1 0x00).write 3 0x03).write
      2 0xC7).write 4 0x0B) :=
  (runs_outb _ 1 0x00).bind <| (runs_outb _ 3 0x80).bind <| (runs_outb _ 0 0x03).bind <|
    (runs_outb _ 1 0x00).bind <| (runs_outb _ 3 0x03).bind <| (runs_outb _ 2 0xC7).bind <|
      runs_outb _ 4 0x0B

/-- A byte, while nothing waits. -/
theorem runs_writeByte (u : Uart) (hempty : u.fifo = []) (fuel : Nat) (b : UInt8) :
    Runs (uartDevice base) (SerialPort.writeByte (fuel + 1) ⟨base⟩ b) u (some ())
      (u.write 0 b) := by
  have hread : Runs (uartDevice base) (inb (base + 5)) u 0x20 u :=
    .ask (r := 0x20) .refl ⟨rfl, fun _ => by simp [hempty]⟩ .done
  have hwrite : Runs (uartDevice base) (outb base b) u () (u.write 0 b) :=
    .ask (r := 0) .refl (show _ = u.write (base - base) b by rw [UInt16.sub_self]) .done
  exact (hread.poll (by decide) fuel).bind (hwrite.bind .done)

end Uart

/-- A port whose divisor latch has been left open, with an interrupt on. -/
theorem serial_carries_letter : ∃ u',
    Runs (uartDevice 0x3F8) (SerialPort.session 1 SerialPort.serial1 [[['A']]])
      ⟨⟨1, 0, 0x80, 0, 12, 0⟩, [], []⟩ (some ()) u' ∧
    Carried ⟨⟨1, 0, 0x80, 0, 12, 0⟩, [], []⟩ (Text.encode [[['A']]].flatten.flatten)
      (some ()) u' := by
  have hprints : ∀ u : Uart, u.fifo = [] → Runs (uartDevice 0x3F8)
      (SerialPort.prints 1 SerialPort.serial1 [[['A']]]) u (some ()) (u.write 0 0x41) := by
    intro u hempty
    have hstr : Runs (uartDevice 0x3F8) (SerialPort.writeStr 1 SerialPort.serial1 ['A']) u
        (some ()) (u.write 0 0x41) := by
      have hencode : Text.encode ['A'] = [0x41] := by decide
      rw [SerialPort.writeStr, hencode]
      exact (Uart.runs_writeByte u hempty 0 0x41).bind .done
    have hprint : Runs (uartDevice 0x3F8) (SerialPort.print 1 SerialPort.serial1 [['A']]) u
        (some ()) (u.write 0 0x41) := hstr.bind .done
    exact hprint.bind .done
  have hinit : Runs (uartDevice 0x3F8) (SerialPort.init ⟨0x3F8⟩)
      ⟨⟨1, 0, 0x80, 0, 12, 0⟩, [], []⟩ () _ := Uart.runs_init _
  have hrun : Runs (uartDevice 0x3F8) (SerialPort.session 1 SerialPort.serial1 [[['A']]])
      ⟨⟨1, 0, 0x80, 0, 12, 0⟩, [], []⟩ (some ()) _ := hinit.bind (hprints _ (by decide))
  exact ⟨_, hrun, serial_carries hrun⟩

end Serial

end Amaterasu
