/-
The port loop of `init_unsafe` in `hal/src/xhci.rs`, as a dialogue with the controller.

For each connected port the driver asks for a slot, addresses the device, reads its
descriptors and, if it is a boot keyboard, configures it and is done.  A command, or a
control transfer on the device's default endpoint, is one question: what is queued on
the ring, and then the completion code that `wait_cmd` or `ep0_wait_xfer` comes back
with.  Whether that code is the controller's or a timeout's is not for the program to
know.

Registers, contexts and messages do not decide where the loop goes and are left out,
apart from the connect bit of each port.
-/
import Mathlib.Data.Nat.Notation
import Amaterasu.Lib.Dialogue
import Amaterasu.Xhci.Descriptors
import Amaterasu.Xhci.Trb

namespace Amaterasu

/-- What is queued on the command ring. -/
inductive SlotCommand where
  | enableSlot
  | disableSlot (slot : UInt8)
  | addressDevice (inCtxPhys : UInt64) (bsr : Bool) (slot : UInt8)
  | evaluateContext (inCtxPhys : UInt64) (slot : UInt8)
  | configureEndpoint (inCtxPhys : UInt64) (slot : UInt8)
  deriving DecidableEq, Repr

/-- The TRB of a command on the input context at `ctx`. -/
def contextTrb (ctx : UInt64) (dw3 : UInt32) : Trb :=
  { dw0 := ctx.toUInt32, dw1 := (ctx >>> 32).toUInt32, dw2 := 0, dw3 := dw3 }

/-- The slot field of a command. -/
def slotBits (slot : UInt8) : UInt32 := slot.toUInt32 <<< 24

def SlotCommand.trb : SlotCommand → Trb
  | enableSlot => ⟨0, 0, 0, trbEnableSlot <<< 10⟩
  | disableSlot slot => ⟨0, 0, 0, (trbDisableSlot <<< 10) ||| slotBits slot⟩
  | addressDevice ctx bsr slot =>
      contextTrb ctx
        (if bsr then (trbAddrDevice <<< 10) ||| ((1 : UInt32) <<< 9) ||| slotBits slot
         else (trbAddrDevice <<< 10) ||| slotBits slot)
  | evaluateContext ctx slot => contextTrb ctx ((trbEvalCtx <<< 10) ||| slotBits slot)
  | configureEndpoint ctx slot => contextTrb ctx ((trbCfgEp <<< 10) ||| slotBits slot)

/-- The eight bytes of a control request. -/
abbrev SetupPacket := Vector UInt8 8

/-- `u32::from_le_bytes`. -/
def fromLeBytes (a b c d : UInt8) : UInt32 :=
  a.toUInt32 ||| (b.toUInt32 <<< 8) ||| (c.toUInt32 <<< 16) ||| (d.toUInt32 <<< 24)

/-- A Setup Stage TRB: immediate data, and the kind of data stage that follows. -/
def setupTrb (setup : SetupPacket) (trt : UInt32) : Trb :=
  { dw0 := fromLeBytes setup[0]! setup[1]! setup[2]! setup[3]!
    dw1 := fromLeBytes setup[4]! setup[5]! setup[6]! setup[7]!
    dw2 := 8
    dw3 := (trbSetup <<< 10) ||| ((1 : UInt32) <<< 6) ||| (trt <<< 16) }

/-- The TRBs of `ctrl_in`: setup, data, status. -/
def ctrlInTrbs (setup : SetupPacket) (bufPhys : UInt64) (len : UInt16) : List Trb :=
  [setupTrb setup 3,
   { dw0 := bufPhys.toUInt32
     dw1 := (bufPhys >>> 32).toUInt32
     dw2 := len.toUInt32
     dw3 := (trbData <<< 10) ||| ((1 : UInt32) <<< 16) },
   ⟨0, 0, 0, (trbStatus <<< 10) ||| ((1 : UInt32) <<< 5)⟩]

/-- The TRBs of `ctrl_out`: setup, status. -/
def ctrlOutTrbs (setup : SetupPacket) : List Trb :=
  [setupTrb setup 0,
    ⟨0, 0, 0, (trbStatus <<< 10) ||| ((1 : UInt32) <<< 16) ||| ((1 : UInt32) <<< 5)⟩]

/-- A question: a command, or a control transfer on the EP0 ring that was allocated for
the device on `port`. -/
inductive UsbRequest where
  | command (c : SlotCommand)
  | ctrlIn (port : ℕ) (slot : UInt8) (setup : SetupPacket) (bufPhys : UInt64) (len : UInt16)
  | ctrlOut (port : ℕ) (slot : UInt8) (setup : SetupPacket)
  deriving DecidableEq

/-- What is pushed for it. -/
def UsbRequest.trbs : UsbRequest → List Trb
  | command c => [c.trb]
  | ctrlIn _ _ setup bufPhys len => ctrlInTrbs setup bufPhys len
  | ctrlOut _ _ setup => ctrlOutTrbs setup

/-- What the wait comes back with, and the descriptor buffer by then. -/
structure UsbAnswer where
  cc : UInt8
  /-- The slot in a command completion. -/
  slot : UInt8
  buf : Vector UInt8 512
  deriving DecidableEq

/-- What `ctrl_in` and `ctrl_out` return. -/
def UsbAnswer.ok (r : UsbAnswer) : Bool := r.cc == ccSuccess || r.cc == ccShortPkt

/-- Physical addresses of what is allocated for a port's device. -/
structure DeviceMem where
  inCtxPhys : UInt64
  descPhys : UInt64

/-- The keyboard, as the statics describe it. -/
structure KbdReady where
  /-- `KBD_SLOT`. -/
  slot : UInt8
  /-- `KBD_EP_DB`. -/
  epDb : UInt8
  deriving DecidableEq, Repr

/-- How a port, or the whole loop, ends. -/
inductive Enumerated where
  /-- `continue`; at the end, "no HID boot keyboard found". -/
  | noKeyboard
  /-- `KBD_READY` is set. -/
  | ready (kbd : KbdReady)
  /-- An index out of range. -/
  | panicked
  deriving DecidableEq, Repr

/-- A program that talks to the controller. -/
abbrev UsbProgram := Dialogue UsbRequest UsbAnswer

def usbCommand (c : SlotCommand) : UsbProgram UsbAnswer := .query (.command c)

/-- `GET_DESCRIPTOR` with the given type and length. -/
def getDescriptor (type : UInt8) (len : UInt16) : SetupPacket :=
  #v[0x80, 0x06, 0x00, type, 0x00, 0x00, (len &&& 0xFF).toUInt8, (len >>> 8).toUInt8]

/-- `disable_slot`. -/
def disableSlot (slot : UInt8) : UsbProgram Unit := do
  let _ ← usbCommand (.disableSlot slot)

/-- The XHCI index of an endpoint. -/
def epCtxIdx (epAddr : UInt8) : UInt8 :=
  let epNum : UInt8 := epAddr &&& 0x0F
  let epIn : UInt8 := (epAddr >>> 7) &&& 1
  epNum * 2 + epIn

/-- One connected port. -/
def enumeratePort (mem : DeviceMem) (port : ℕ) : UsbProgram Enumerated := do
  let enabled ← usbCommand .enableSlot
  if enabled.cc ≠ ccSuccess ∨ enabled.slot = 0 then
    return .noKeyboard
  let slot := enabled.slot
  let ctrlIn (type : UInt8) (len : UInt16) : UsbProgram UsbAnswer :=
    .query (.ctrlIn port slot (getDescriptor type len) mem.descPhys len)
  let ctrlOut (setup : SetupPacket) : UsbProgram UsbAnswer := .query (.ctrlOut port slot setup)
  let addressed ← usbCommand (.addressDevice mem.inCtxPhys true slot)
  if addressed.cc ≠ ccSuccess then
    disableSlot slot
    return .noKeyboard
  let mps0 ← ctrlIn 0x01 8
  if !mps0.ok then
    disableSlot slot
    return .noKeyboard
  let evaluated ← usbCommand (.evaluateContext mem.inCtxPhys slot)
  if evaluated.cc ≠ ccSuccess then
    disableSlot slot
    return .noKeyboard
  let addressed ← usbCommand (.addressDevice mem.inCtxPhys false slot)
  if addressed.cc ≠ ccSuccess then
    disableSlot slot
    return .noKeyboard
  let devDesc ← ctrlIn 0x01 18
  if !devDesc.ok then
    disableSlot slot
    return .noKeyboard
  let cfg ← ctrlIn 0x02 9
  if !cfg.ok then
    disableSlot slot
    return .noKeyboard
  let totalLen := cfg.buf[2].toUInt16 ||| (cfg.buf[3].toUInt16 <<< 8)
  let fetchLen := min totalLen 512
  -- the result of this read, and of the three requests below, is not looked at
  let full ← ctrlIn 0x02 fetchLen
  match findHidKbdEp (full.buf.toList.take fetchLen.toNat) with
  | none => return .panicked
  | some none =>
      disableSlot slot
      return .noKeyboard
  | some (some ep) =>
      let _ ← ctrlOut #v[0x00, 0x09, ep.cfgVal, 0, 0, 0, 0, 0]
      let _ ← ctrlOut #v[0x21, 0x0B, 0x00, 0x00, ep.iface, 0, 0, 0]
      let _ ← ctrlOut #v[0x21, 0x0A, 0x00, 0x00, ep.iface, 0, 0, 0]
      let configured ← usbCommand (.configureEndpoint mem.inCtxPhys slot)
      if configured.cc ≠ ccSuccess then
        disableSlot slot
        return .noKeyboard
      return .ready { slot := slot, epDb := epCtxIdx ep.addr }

/-- `PORTSC_CCS`. -/
def portscCcs : UInt32 := (1 : UInt32) <<< 0

/-- The loop, from port `port` on: what each port's PORTSC reads when its turn comes. -/
def enumeratePorts (mem : ℕ → DeviceMem) : ℕ → List UInt32 → UsbProgram Enumerated
  | _, [] => return .noKeyboard
  | port, sc :: rest =>
      if sc &&& portscCcs = 0 then enumeratePorts mem (port + 1) rest
      else do
        match ← enumeratePort (mem port) port with
        | .noKeyboard => enumeratePorts mem (port + 1) rest
        | outcome => return outcome

/-- `init_unsafe`, from where the controller is running: ports count from 1. -/
def initUnsafe (mem : ℕ → DeviceMem) (portsc : List UInt32) : UsbProgram Enumerated :=
  enumeratePorts mem 1 portsc

end Amaterasu
