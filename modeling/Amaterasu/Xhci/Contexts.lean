/-
The input context of a device: `setup_addr_input_ctx` and `setup_cfg_input_ctx` in
`hal/src/xhci.rs`, and what `init_unsafe` does to it in between.

Three of the commands hand the controller an input context, and what the controller knows of a
device is what it has copied from there: the slot's context, and one for each endpoint.  All
three use the same input context in memory, so that what one command has left in it is there
for the next.  `initUnsafeWith` is the loop over the ports with that memory; without it, it is
`initUnsafe`.

The controller is one whose command has had its effect when the driver is told so.
-/
import Mathlib
import Amaterasu.Lib.Device
import Amaterasu.Xhci.Slots

namespace Amaterasu

open Dialogue

namespace Xhci

/-! ### What the driver writes -/

/-- `InCtx`, 33 contexts of eight words: the input control context, the slot's, and one for each
of 31 endpoints. -/
structure InCtx where
  e : ℕ → ℕ → UInt32

/-- As it is allocated. -/
def InCtx.zeroed : InCtx := ⟨fun _ _ => 0⟩

def InCtx.set (c : InCtx) (i j : ℕ) (v : UInt32) : InCtx :=
  ⟨fun i' j' => if i' = i ∧ j' = j then v else c.e i' j'⟩

@[simp] theorem InCtx.set_e (c : InCtx) (i j : ℕ) (v : UInt32) (i' j' : ℕ) :
    (c.set i j v).e i' j' = if i' = i ∧ j' = j then v else c.e i' j' := rfl

@[simp] theorem InCtx.zeroed_e (i j : ℕ) : InCtx.zeroed.e i j = 0 := rfl

/-- The packet size that is guessed before the device is asked. -/
def mpsGuess (portSpeed : UInt8) : UInt32 :=
  if portSpeed = 4 ∨ portSpeed = 5 then 512 else if portSpeed = 3 then 64 else 8

/-- The second word of a control endpoint's context. -/
def controlDw1 (mps : UInt32) : UInt32 :=
  ((3 : UInt32) <<< 1) ||| ((4 : UInt32) <<< 3) ||| (mps <<< 16)

def setupAddrInputCtx (ep0RingPhys : UInt64) (portSpeed : UInt8) (port1 : ℕ) (c : InCtx) : InCtx :=
  let c := c.set 0 0 0
  let c := c.set 0 1 0b11
  let c := c.set 1 0 (((1 : UInt32) <<< 27) ||| (portSpeed.toUInt32 <<< 20))
  let c := c.set 1 1 (UInt32.ofNat port1 <<< 16)
  let c := c.set 2 1 (controlDw1 (mpsGuess portSpeed))
  let c := c.set 2 2 ((ep0RingPhys.toUInt32 &&& ~~~0xF) ||| 1)
  let c := c.set 2 3 (ep0RingPhys >>> 32).toUInt32
  c.set 2 4 8

/-- For Evaluate Context: the packet size that the device has named. -/
def setMps0 (realMps0 : UInt8) (c : InCtx) : InCtx :=
  let c := c.set 2 1 (controlDw1 realMps0.toUInt32)
  let c := c.set 0 0 0
  c.set 0 1 0b10

/-- For Address Device, the second time. -/
def setBoth (c : InCtx) : InCtx := c.set 0 1 0b11

/-- `none` is a shift or an index out of range. -/
def setupCfgInputCtx (idx : UInt8) (intRingPhys : UInt64) (maxPkt : UInt16) (interval : UInt8)
    (c : InCtx) : Option InCtx :=
  let epOff := idx.toNat + 1
  if epOff < 33 then
    let c := c.set 0 0 0
    let c := c.set 0 1 (((1 : UInt32) <<< 0) ||| ((1 : UInt32) <<< idx.toUInt32))
    let c := c.set 1 0 ((c.e 1 0 &&& ~~~((0x1F : UInt32) <<< 27)) ||| (idx.toUInt32 <<< 27))
    let c := c.set epOff 0 (interval.toUInt32 <<< 16)
    let c := c.set epOff 1
      (((3 : UInt32) <<< 1) ||| ((7 : UInt32) <<< 3) ||| (maxPkt.toUInt32 <<< 16))
    let c := c.set epOff 2 ((intRingPhys.toUInt32 &&& ~~~0xF) ||| 1)
    let c := c.set epOff 3 (intRingPhys >>> 32).toUInt32
    some (c.set epOff 4 maxPkt.toUInt32)
  else none

/-- A question, and the input context as it is by then. -/
abbrev CtxProgram := Dialogue (UsbRequest × InCtx) UsbAnswer

/-- Where the rings of a port's device are. -/
structure DeviceRings where
  ep0RingPhys : UInt64
  intRingPhys : UInt64

def disableSlotWith (c : InCtx) (slot : UInt8) : CtxProgram Unit := do
  let _ ← Dialogue.query (.command (.disableSlot slot), c)

/-- A request without data, to a value and an index of a byte each. -/
def outRequest (type request value index : UInt8) : SetupPacket :=
  #v[type, request, value, 0, index, 0, 0, 0]

theorem two_lt_size : 2 < 512 := by decide

theorem three_lt_size : 3 < 512 := by decide

/-- One connected port, with the input context. -/
def enumeratePortWith (mem : DeviceMem) (rings : DeviceRings) (speed : UInt8) (port : ℕ) :
    CtxProgram Enumerated := do
  let enabled ← Dialogue.query (.command .enableSlot, .zeroed)
  if enabled.cc ≠ ccSuccess ∨ enabled.slot = 0 then
    return .noKeyboard
  let slot := enabled.slot
  let ctrlIn (c : InCtx) (type : UInt8) (len : UInt16) : CtxProgram UsbAnswer :=
    .query (.ctrlIn port slot (getDescriptor type len) mem.descPhys len, c)
  let ctrlOut (c : InCtx) (setup : SetupPacket) : CtxProgram UsbAnswer :=
    .query (.ctrlOut port slot setup, c)
  -- the input context is allocated when there is a slot
  let c := setupAddrInputCtx rings.ep0RingPhys speed port .zeroed
  let addressed ← Dialogue.query (.command (.addressDevice mem.inCtxPhys true slot), c)
  if addressed.cc ≠ ccSuccess then
    disableSlotWith c slot
    return .noKeyboard
  let mps0 ← ctrlIn c 0x01 8
  if !mps0.ok then
    disableSlotWith c slot
    return .noKeyboard
  let c := setMps0 mps0.buf[7] c
  let evaluated ← Dialogue.query (.command (.evaluateContext mem.inCtxPhys slot), c)
  if evaluated.cc ≠ ccSuccess then
    disableSlotWith c slot
    return .noKeyboard
  let c := setBoth c
  let addressed ← Dialogue.query (.command (.addressDevice mem.inCtxPhys false slot), c)
  if addressed.cc ≠ ccSuccess then
    disableSlotWith c slot
    return .noKeyboard
  let devDesc ← ctrlIn c 0x01 18
  if !devDesc.ok then
    disableSlotWith c slot
    return .noKeyboard
  let cfg ← ctrlIn c 0x02 9
  if !cfg.ok then
    disableSlotWith c slot
    return .noKeyboard
  let totalLen :=
    (getElem cfg.buf 2 two_lt_size).toUInt16 ||| ((getElem cfg.buf 3 three_lt_size).toUInt16 <<< 8)
  let fetchLen := min totalLen 512
  let full ← ctrlIn c 0x02 fetchLen
  match findHidKbdEp (full.buf.toList.take fetchLen.toNat) with
  | some (some ep) =>
      let _ ← ctrlOut c (outRequest 0x00 0x09 ep.cfgVal 0)
      let _ ← ctrlOut c (outRequest 0x21 0x0B 0 ep.iface)
      let _ ← ctrlOut c (outRequest 0x21 0x0A 0 ep.iface)
      match setupCfgInputCtx (epCtxIdx ep.addr) rings.intRingPhys ep.maxPkt ep.interval c with
      | none => return .panicked
      | some c =>
          let configured ← Dialogue.query (.command (.configureEndpoint mem.inCtxPhys slot), c)
          if configured.cc ≠ ccSuccess then
            disableSlotWith c slot
            return .noKeyboard
          return .ready { slot := slot, epDb := epCtxIdx ep.addr }
  | some none =>
      disableSlotWith c slot
      return .noKeyboard
  | none => return .panicked

/-- The speed that a port's PORTSC names. -/
def portSpeed (sc : UInt32) : UInt8 := ((sc >>> 10) &&& 0xF).toUInt8

/-- The loop, from port `port` on. -/
def enumeratePortsWith (mem : ℕ → DeviceMem) (rings : ℕ → DeviceRings) :
    ℕ → List UInt32 → CtxProgram Enumerated
  | _, [] => return .noKeyboard
  | port, sc :: rest =>
      if sc &&& portscCcs = 0 then enumeratePortsWith mem rings (port + 1) rest
      else do
        match ← enumeratePortWith (mem port) (rings port) (portSpeed sc) port with
        | .noKeyboard => enumeratePortsWith mem rings (port + 1) rest
        | .ready kbd => return .ready kbd
        | .panicked => return .panicked

def initUnsafeWith (mem : ℕ → DeviceMem) (rings : ℕ → DeviceRings) (portsc : List UInt32) :
    CtxProgram Enumerated :=
  enumeratePortsWith mem rings 1 portsc

/-- An endpoint has a number of four bits and a direction. -/
theorem epCtxIdx_lt (addr : UInt8) : (epCtxIdx addr).toNat < 32 := by
  have hnum : (addr &&& (0x0F : UInt8)).toNat ≤ 15 := by
    rw [UInt8.toNat_and]
    exact Nat.and_le_right
  have hin : ((addr >>> 7) &&& (1 : UInt8)).toNat ≤ 1 := by
    rw [UInt8.toNat_and]
    exact Nat.and_le_right
  show ((addr &&& (0x0F : UInt8)) * (2 : UInt8) + ((addr >>> 7) &&& (1 : UInt8))).toNat < 32
  rw [UInt8.toNat_add, UInt8.toNat_mul, show (2 : UInt8).toNat = 2 from rfl]
  omega

theorem exists_setupCfgInputCtx (addr : UInt8) (intRingPhys : UInt64) (maxPkt : UInt16)
    (interval : UInt8) (c : InCtx) :
    ∃ c', setupCfgInputCtx (epCtxIdx addr) intRingPhys maxPkt interval c = some c' := by
  have hlt := epCtxIdx_lt addr
  exact ⟨_, if_pos (by omega)⟩

/-- Without the memory, it is what the loop does. -/
theorem enumeratePortWith_rephrase (mem : DeviceMem) (rings : DeviceRings) (speed : UInt8)
    (port : ℕ) :
    (enumeratePortWith mem rings speed port).rephrase Prod.fst = enumeratePort mem port := by
  refine rephrase_query fun enabled => rephrase_ite rfl ?_
  refine rephrase_query fun addressed => rephrase_ite rfl ?_
  refine rephrase_query fun mps0 => rephrase_ite rfl ?_
  refine rephrase_query fun evaluated => rephrase_ite rfl ?_
  refine rephrase_query fun addressed => rephrase_ite rfl ?_
  refine rephrase_query fun devDesc => rephrase_ite rfl ?_
  refine rephrase_query fun cfg => rephrase_ite rfl ?_
  refine rephrase_query fun full => ?_
  generalize findHidKbdEp _ = found
  cases found with
  | none => rfl
  | some found =>
      cases found with
      | none => rfl
      | some ep =>
          refine rephrase_query fun _ => rephrase_query fun _ => rephrase_query fun _ => ?_
          obtain ⟨c, hc⟩ :=
            exists_setupCfgInputCtx ep.addr rings.intRingPhys ep.maxPkt ep.interval _
          rw [hc]
          exact rephrase_query fun configured => rephrase_ite rfl rfl

theorem enumeratePortsWith_rephrase (mem : ℕ → DeviceMem) (rings : ℕ → DeviceRings) (port : ℕ)
    (portsc : List UInt32) :
    (enumeratePortsWith mem rings port portsc).rephrase Prod.fst
      = enumeratePorts mem port portsc := by
  induction portsc generalizing port with
  | nil => rfl
  | cons sc rest ih =>
      refine rephrase_ite (ih _) ?_
      rw [rephrase_bind, enumeratePortWith_rephrase]
      congr 1
      funext outcome
      cases outcome with
      | noKeyboard => exact ih _
      | ready kbd => rfl
      | panicked => rfl

/-! ### What the controller makes of it -/

/-- The bits of a word from `lo` on. -/
def field (v : UInt32) (lo len : ℕ) : ℕ := v.toNat / 2 ^ lo % 2 ^ len

structure SlotContext where
  speed : ℕ
  entries : ℕ
  rootPort : ℕ
  deriving DecidableEq, Repr

structure EndpointContext where
  type : ℕ
  errorCount : ℕ
  maxPacketSize : ℕ
  interval : ℕ
  /-- Where its ring is, and the cycle bit to begin with. -/
  dequeue : ℕ
  cycle : ℕ
  averageTrb : ℕ
  deriving DecidableEq, Repr

def SlotContext.ofWords (dw : ℕ → UInt32) : SlotContext where
  speed := field (dw 0) 20 4
  entries := field (dw 0) 27 5
  rootPort := field (dw 1) 16 8

def EndpointContext.ofWords (dw : ℕ → UInt32) : EndpointContext where
  type := field (dw 1) 3 3
  errorCount := field (dw 1) 1 2
  maxPacketSize := field (dw 1) 16 16
  interval := field (dw 0) 16 8
  dequeue := field (dw 2) 4 28 * 16 + (dw 3).toNat * 2 ^ 32
  cycle := field (dw 2) 0 1
  averageTrb := field (dw 4) 0 16

/-- What the controller knows of a device; endpoint 1 is the default one. -/
structure DeviceContext where
  slot : SlotContext
  ep : ℕ → Option EndpointContext

def InCtx.adds (c : InCtx) (i : ℕ) : Bool := (c.e 0 1).toNat.testBit i

def InCtx.drops (c : InCtx) (i : ℕ) : Bool := (c.e 0 0).toNat.testBit i

namespace DeviceContext

/-- Address Device. -/
def address (d : DeviceContext) (c : InCtx) : DeviceContext :=
  if c.adds 0 ∧ c.adds 1 then
    { slot := .ofWords (c.e 1)
      ep := fun i => if i = 1 then some (.ofWords (c.e 2)) else d.ep i }
  else d

/-- Evaluate Context, which takes the packet size of the default endpoint and nothing else. -/
def evaluate (d : DeviceContext) (c : InCtx) : DeviceContext :=
  if c.adds 1 then
    { d with ep := fun i => if i = 1 then
        (d.ep 1).map fun e =>
          { e with maxPacketSize := (EndpointContext.ofWords (c.e 2)).maxPacketSize }
      else d.ep i }
  else d

/-- Configure Endpoint, for the endpoints behind the default one. -/
def configure (d : DeviceContext) (c : InCtx) : DeviceContext where
  slot := { d.slot with entries := (SlotContext.ofWords (c.e 1)).entries }
  ep i :=
    if 2 ≤ i ∧ i < 32 then
      if c.adds i then some (.ofWords (c.e (i + 1)))
      else if c.drops i then none else d.ep i
    else d.ep i

theorem configure_ep_one (d : DeviceContext) (c : InCtx) : (d.configure c).ep 1 = d.ep 1 := by
  simp [configure]

end DeviceContext

/-! ### Fields of words -/

theorem toNat_shl {w k : UInt32} (hk : k.toNat < 32) (h : w.toNat * 2 ^ k.toNat < 2 ^ 32) :
    (w <<< k).toNat = w.toNat * 2 ^ k.toNat := by
  rw [UInt32.toNat_shiftLeft, Nat.mod_eq_of_lt hk, Nat.shiftLeft_eq]
  exact Nat.mod_eq_of_lt h

/-- A field above another. -/
theorem toNat_or_shl {v w k : UInt32} (hk : k.toNat < 32) (h : w.toNat * 2 ^ k.toNat < 2 ^ 32)
    (hv : v.toNat < 2 ^ k.toNat) : (v ||| w <<< k).toNat = v.toNat + w.toNat * 2 ^ k.toNat := by
  rw [UInt32.toNat_or, toNat_shl hk h, Nat.lor_comm, ← Nat.shiftLeft_eq,
    ← Nat.shiftLeft_add_eq_or_of_lt hv]
  omega

theorem toNat_controlDw1 {mps : UInt32} (h : mps.toNat < 2 ^ 16) :
    (controlDw1 mps).toNat = 38 + mps.toNat * 65536 := by
  have hlt : mps.toNat * 2 ^ (16 : UInt32).toNat < 2 ^ 32 := by
    rw [show (16 : UInt32).toNat = 16 from rfl]
    omega
  exact toNat_or_shl (by decide) hlt (by decide)

/-- The low half of a ring's address, with the cycle bit. -/
theorem toNat_dequeue (v : UInt32) :
    ((v &&& ~~~0xF) ||| 1).toNat / 16 = v.toNat / 16 ∧ ((v &&& ~~~0xF) ||| 1).toNat % 2 = 1 := by
  have hmask : (~~~0xF : UInt32).toNat = 0xFFFFFFF0 := rfl
  have hlt := v.toNat_lt
  rw [UInt32.toNat_or, UInt32.toNat_and, hmask]
  constructor
  · rw [show 16 = 2 ^ 4 from rfl, ← Nat.shiftRight_eq_div_pow, ← Nat.shiftRight_eq_div_pow,
      Nat.shiftRight_or_distrib, Nat.shiftRight_and_distrib]
    show (v.toNat >>> 4 &&& 2 ^ 28 - 1) ||| 0 = _
    rw [Nat.or_zero, Nat.and_two_pow_sub_one_eq_mod, Nat.shiftRight_eq_div_pow]
    omega
  · simp

theorem dequeue_eq {phys : UInt64} (h : phys.toNat % 16 = 0) :
    field ((phys.toUInt32 &&& ~~~0xF) ||| 1) 4 28 * 16 + (phys >>> 32).toUInt32.toNat * 2 ^ 32
      = phys.toNat := by
  have hlt := phys.toNat_lt
  have hhigh : (phys >>> 32).toUInt32.toNat = phys.toNat / 2 ^ 32 := by
    rw [UInt64.toNat_toUInt32, UInt64.toNat_shiftRight, show (32 : UInt64).toNat % 64 = 32 from rfl,
      Nat.shiftRight_eq_div_pow]
    omega
  rw [field, show 2 ^ 4 = 16 from rfl, (toNat_dequeue _).1, UInt64.toNat_toUInt32, hhigh]
  omega

theorem cycle_eq (v : UInt32) : field ((v &&& ~~~0xF) ||| 1) 0 1 = 1 := by
  rw [field, pow_zero, Nat.div_one]
  exact (toNat_dequeue v).2

/-! ### What is in the contexts -/

section Words

variable {rings : DeviceRings} {speed : UInt8} {port : ℕ} {idx interval : UInt8}
  {intRingPhys : UInt64} {maxPkt : UInt16} {c c' : InCtx}

/-- The input context of the second Address Device. -/
def addressCtx (rings : DeviceRings) (speed : UInt8) (port : ℕ) (mps0 : UInt8) : InCtx :=
  setBoth (setMps0 mps0 (setupAddrInputCtx rings.ep0RingPhys speed port .zeroed))

theorem addressCtx_adds (mps0 : UInt8) :
    (addressCtx rings speed port mps0).adds 0 = true ∧
      (addressCtx rings speed port mps0).adds 1 = true := by
  have hflags : (addressCtx rings speed port mps0).e 0 1 = 0b11 := by simp [addressCtx, setBoth]
  rw [InCtx.adds, InCtx.adds, hflags]
  decide

theorem addressCtx_slot (hspeed : speed.toNat < 16) (hport : port < 256) (mps0 : UInt8) :
    SlotContext.ofWords ((addressCtx rings speed port mps0).e 1) = ⟨speed.toNat, 1, port⟩ := by
  have hdw0 : (((1 : UInt32) <<< 27) ||| (speed.toUInt32 <<< 20)).toNat
      = speed.toNat * 2 ^ 20 + 2 ^ 27 := by
    have hlow : (speed.toUInt32 <<< 20).toNat = speed.toNat * 2 ^ 20 :=
      toNat_shl (by decide) (show speed.toNat * 2 ^ 20 < 2 ^ 32 by omega)
    have hor := toNat_or_shl (v := speed.toUInt32 <<< 20) (w := 1) (k := 27) (by decide)
      (by decide) (by rw [hlow]; show _ < 2 ^ 27; omega)
    rw [UInt32.or_comm, hor, hlow]
    rfl
  have hdw1 : (UInt32.ofNat port <<< 16).toNat = port * 2 ^ 16 := by
    have hself : (UInt32.ofNat port).toNat = port := UInt32.toNat_ofNat_of_lt' (by
      show port < 2 ^ 32
      omega)
    rw [toNat_shl (by decide) (by rw [hself]; show port * 2 ^ 16 < 2 ^ 32; omega), hself]
    rfl
  have hwords : (addressCtx rings speed port mps0).e 1 0
        = ((1 : UInt32) <<< 27) ||| (speed.toUInt32 <<< 20) ∧
      (addressCtx rings speed port mps0).e 1 1 = UInt32.ofNat port <<< 16 := by
    simp [addressCtx, setBoth, setMps0, setupAddrInputCtx]
  rw [SlotContext.ofWords, hwords.1, hwords.2, field, field, field, hdw0, hdw1,
    SlotContext.mk.injEq]
  exact ⟨by omega, by omega, by omega⟩

theorem addressCtx_ep0 (hring : rings.ep0RingPhys.toNat % 16 = 0) (mps0 : UInt8) :
    EndpointContext.ofWords ((addressCtx rings speed port mps0).e 2)
      = ⟨4, 3, mps0.toNat, 0, rings.ep0RingPhys.toNat, 1, 8⟩ := by
  have hlt := mps0.toNat_lt
  have hdw1 : (controlDw1 mps0.toUInt32).toNat = 38 + mps0.toNat * 65536 :=
    toNat_controlDw1 (show mps0.toNat < 2 ^ 16 by omega)
  have hwords : (addressCtx rings speed port mps0).e 2 0 = 0 ∧
      (addressCtx rings speed port mps0).e 2 1 = controlDw1 mps0.toUInt32 ∧
      (addressCtx rings speed port mps0).e 2 2 = (rings.ep0RingPhys.toUInt32 &&& ~~~0xF) ||| 1 ∧
      (addressCtx rings speed port mps0).e 2 3 = (rings.ep0RingPhys >>> 32).toUInt32 ∧
      (addressCtx rings speed port mps0).e 2 4 = 8 := by
    simp [addressCtx, setBoth, setMps0, setupAddrInputCtx]
  obtain ⟨h0, h1, h2, h3, h4⟩ := hwords
  rw [EndpointContext.ofWords, h0, h1, h2, h3, h4, dequeue_eq hring, cycle_eq, field, field, field,
    hdw1, EndpointContext.mk.injEq]
  exact ⟨by omega, by omega, by omega, rfl, rfl, rfl, rfl⟩

/-- A keyboard's endpoint, behind the default one. -/
theorem cfgCtx_words (h : setupCfgInputCtx idx intRingPhys maxPkt interval c = some c')
    (hidx : 2 ≤ idx.toNat) (hlt : idx.toNat + 1 < 33) :
    c'.e 0 1 = ((1 : UInt32) <<< 0) ||| ((1 : UInt32) <<< idx.toUInt32) ∧
      c'.e 1 0 = (c.e 1 0 &&& ~~~((0x1F : UInt32) <<< 27)) ||| (idx.toUInt32 <<< 27) ∧
      c'.e (idx.toNat + 1) 0 = interval.toUInt32 <<< 16 ∧
      c'.e (idx.toNat + 1) 1
        = ((3 : UInt32) <<< 1) ||| ((7 : UInt32) <<< 3) ||| (maxPkt.toUInt32 <<< 16) ∧
      c'.e (idx.toNat + 1) 2 = (intRingPhys.toUInt32 &&& ~~~0xF) ||| 1 ∧
      c'.e (idx.toNat + 1) 3 = (intRingPhys >>> 32).toUInt32 ∧
      c'.e (idx.toNat + 1) 4 = maxPkt.toUInt32 := by
  have h0 : 0 ≠ idx.toNat + 1 := by omega
  have h1 : 1 ≠ idx.toNat + 1 := by omega
  unfold setupCfgInputCtx at h
  dsimp only at h
  rw [if_pos hlt] at h
  generalize idx.toNat + 1 = epOff at h h0 h1 ⊢
  obtain rfl := Option.some.inj h
  simp [h0, h1]

theorem cfgCtx_adds (h : setupCfgInputCtx idx intRingPhys maxPkt interval c = some c')
    (hidx : 2 ≤ idx.toNat) (hlt : idx.toNat < 32) : c'.adds idx.toNat = true := by
  have hflag : ((1 : UInt32) <<< idx.toUInt32).toNat = 2 ^ idx.toNat := by
    have hpow : 2 ^ idx.toNat < 2 ^ 32 := Nat.pow_lt_pow_right (by decide) hlt
    have hshl := toNat_shl (w := 1) (k := idx.toUInt32) hlt
      (show 1 * 2 ^ idx.toNat < 2 ^ 32 by omega)
    rw [hshl]
    exact Nat.one_mul _
  rw [InCtx.adds, (cfgCtx_words h hidx (by omega)).1, UInt32.toNat_or, Nat.testBit_or, hflag,
    Nat.testBit_two_pow_self, Bool.or_true]

theorem cfgCtx_entries (h : setupCfgInputCtx idx intRingPhys maxPkt interval c = some c')
    (hidx : 2 ≤ idx.toNat) (hlt : idx.toNat < 32) :
    (SlotContext.ofWords (c'.e 1)).entries = idx.toNat := by
  have hclear : (c.e 1 0 &&& ~~~((0x1F : UInt32) <<< 27)).toNat < 2 ^ 27 := by
    rw [UInt32.toNat_and]
    exact Nat.lt_of_le_of_lt Nat.and_le_right (by decide)
  have hdw0 := toNat_or_shl (w := idx.toUInt32) (k := 27) (by decide)
    (show idx.toNat * 2 ^ 27 < 2 ^ 32 by omega) hclear
  show field (c'.e 1 0) 27 5 = _
  rw [field, (cfgCtx_words h hidx (by omega)).2.1, hdw0]
  show (_ + idx.toNat * 2 ^ 27) / 2 ^ 27 % 2 ^ 5 = _
  omega

theorem cfgCtx_ep (h : setupCfgInputCtx idx intRingPhys maxPkt interval c = some c')
    (hidx : 2 ≤ idx.toNat) (hlt : idx.toNat + 1 < 33) (hring : intRingPhys.toNat % 16 = 0) :
    EndpointContext.ofWords (c'.e (idx.toNat + 1))
      = ⟨7, 3, maxPkt.toNat, interval.toNat, intRingPhys.toNat, 1, maxPkt.toNat⟩ := by
  have hpkt := maxPkt.toNat_lt
  have hival := interval.toNat_lt
  have hdw0 : (interval.toUInt32 <<< 16).toNat = interval.toNat * 2 ^ 16 :=
    toNat_shl (by decide) (show interval.toNat * 2 ^ 16 < 2 ^ 32 by omega)
  have hdw1 : (((3 : UInt32) <<< 1) ||| ((7 : UInt32) <<< 3) ||| (maxPkt.toUInt32 <<< 16)).toNat
      = 62 + maxPkt.toNat * 65536 :=
    toNat_or_shl (by decide) (show maxPkt.toNat * 2 ^ 16 < 2 ^ 32 by omega) (by decide)
  have hdw4 : maxPkt.toUInt32.toNat = maxPkt.toNat := rfl
  obtain ⟨_, _, h0, h1, h2, h3, h4⟩ := cfgCtx_words h hidx hlt
  rw [EndpointContext.ofWords, h0, h1, h2, h3, h4, dequeue_eq hring, cycle_eq, field, field, field,
    field, field, hdw0, hdw1, hdw4, EndpointContext.mk.injEq]
  exact ⟨by omega, by omega, by omega, by omega, rfl, rfl, by omega⟩

end Words

/-! ### Against the controller -/

/-- What the controller knows of the device, and the descriptor buffer. -/
structure CtxState where
  ctx : DeviceContext
  buf : Vector UInt8 512

/-- A device on each port, with the given `bMaxPacketSize0`.  What becomes of a command that fails,
and of enabling and disabling a slot, is left open. -/
def contextDevice (mps0 : ℕ → UInt8) : Device CtxState (UsbRequest × InCtx) UsbAnswer where
  drifts s s' := s' = s
  answers s q r s' := match q.1 with
    | .command (.addressDevice _ _ _) => r.cc = ccSuccess → s' = { s with ctx := s.ctx.address q.2 }
    | .command (.evaluateContext _ _) =>
        r.cc = ccSuccess → s' = { s with ctx := s.ctx.evaluate q.2 }
    | .command (.configureEndpoint _ _) =>
        r.cc = ccSuccess → s' = { s with ctx := s.ctx.configure q.2 }
    | .command _ => True
    | .ctrlIn port _ setup _ _ =>
        s'.ctx = s.ctx ∧ s'.buf = r.buf ∧
          (setup = getDescriptor 0x01 8 → r.ok = true → r.buf[7] = mps0 port)
    | .ctrlOut _ _ _ => s' = s

/-- What the controller knows of a keyboard that is ready. -/
structure Configured (rings : DeviceRings) (speed : UInt8) (port : ℕ) (mps0 : UInt8)
    (kbd : KbdReady) (s : CtxState) : Prop where
  speed : s.ctx.slot.speed = speed.toNat
  rootPort : s.ctx.slot.rootPort = port
  ep0 : s.ctx.ep 1 = some ⟨4, 3, mps0.toNat, 0, rings.ep0RingPhys.toNat, 1, 8⟩
  /-- The endpoint is one of the descriptors in the buffer, and not the default one. -/
  keyboard : ∃ n ep, findHidKbdEp (s.buf.toList.take n) = some (some ep) ∧
    kbd.epDb = epCtxIdx ep.addr ∧
    (2 ≤ kbd.epDb.toNat → s.ctx.slot.entries = kbd.epDb.toNat ∧
      s.ctx.ep kbd.epDb.toNat = some ⟨7, 3, ep.maxPkt.toNat, ep.interval.toNat,
        rings.intRingPhys.toNat, 1, ep.maxPkt.toNat⟩)

section Runs

variable {mem : DeviceMem} {rings : DeviceRings} {speed : UInt8} {mps0 : ℕ → UInt8} {port : ℕ}
  {s : CtxState}

/-- What is claimed at the exits of the loop's body. -/
def ReadyOnly (rings : DeviceRings) (speed : UInt8) (port : ℕ) (mps0 : ℕ → UInt8) :
    Enumerated → CtxState → Prop
  | .ready kbd, s => Configured rings speed port (mps0 port) kbd s
  | _, _ => True

theorem meets_disableSlotWith (c : InCtx) (slot : UInt8) :
    Meets (contextDevice mps0) (ReadyOnly rings speed port mps0)
      (do disableSlotWith c slot; return .noKeyboard) s :=
  fun _ _ _ _ _ => trivial

theorem address_addressCtx (d : DeviceContext) (mps0 : UInt8) (hspeed : speed.toNat < 16)
    (hport : port < 256) (hring : rings.ep0RingPhys.toNat % 16 = 0) :
    (d.address (addressCtx rings speed port mps0)).slot = ⟨speed.toNat, 1, port⟩ ∧
      (d.address (addressCtx rings speed port mps0)).ep 1
        = some ⟨4, 3, mps0.toNat, 0, rings.ep0RingPhys.toNat, 1, 8⟩ := by
  rw [DeviceContext.address, if_pos (addressCtx_adds mps0)]
  exact ⟨addressCtx_slot hspeed hport mps0, congrArg some (addressCtx_ep0 hring mps0)⟩

/-- Configure Endpoint, on what Address Device has left. -/
theorem configured_of {ep : HidKbdEp} {c : InCtx} {slot mps0 : UInt8} {n : ℕ}
    (hslot : s.ctx.slot = ⟨speed.toNat, 1, port⟩)
    (hep0 : s.ctx.ep 1 = some ⟨4, 3, mps0.toNat, 0, rings.ep0RingPhys.toNat, 1, 8⟩)
    (hfound : findHidKbdEp (s.buf.toList.take n) = some (some ep))
    (hctx : setupCfgInputCtx (epCtxIdx ep.addr) rings.intRingPhys ep.maxPkt ep.interval
      (addressCtx rings speed port mps0) = some c)
    (hring : rings.intRingPhys.toNat % 16 = 0) :
    Configured rings speed port mps0 ⟨slot, epCtxIdx ep.addr⟩
      { s with ctx := s.ctx.configure c } where
  speed := by
    show s.ctx.slot.speed = _
    rw [hslot]
  rootPort := by
    show s.ctx.slot.rootPort = _
    rw [hslot]
  ep0 := (DeviceContext.configure_ep_one _ _).trans hep0
  keyboard := by
    have hlt := epCtxIdx_lt ep.addr
    refine ⟨n, ep, hfound, rfl, fun hidx => ⟨cfgCtx_entries hctx hidx hlt, ?_⟩⟩
    refine (if_pos ⟨hidx, hlt⟩).trans ?_
    rw [if_pos (cfgCtx_adds hctx hidx hlt)]
    exact congrArg some (cfgCtx_ep hctx hidx (Nat.succ_lt_succ hlt) hring)

/-- As the rings are allocated, and more. -/
structure Aligned (rings : DeviceRings) : Prop where
  ep0 : rings.ep0RingPhys.toNat % 16 = 0
  int : rings.intRingPhys.toNat % 16 = 0

theorem meets_enumeratePortWith (hspeed : speed.toNat < 16) (hport : port < 256)
    (hrings : Aligned rings) :
    Meets (contextDevice mps0) (ReadyOnly rings speed port mps0)
      (enumeratePortWith mem rings speed port) s := by
  refine Meets.query fun _ enabled s _ _ => ?_
  split
  · exact Meets.pure trivial
  refine Meets.query fun _ addressed s _ _ => ?_
  split
  · exact meets_disableSlotWith _ _
  refine Meets.query fun _ sizes s _ hsizes => ?_
  split
  · exact meets_disableSlotWith _ _
  rename_i hok
  rw [hsizes.2.2 rfl (by simpa using hok)]
  refine Meets.query fun _ evaluated s _ _ => ?_
  split
  · exact meets_disableSlotWith _ _
  refine Meets.query fun s₁ addressed s _ haddressed => ?_
  split
  · exact meets_disableSlotWith _ _
  rename_i hcc
  have hctx := congrArg CtxState.ctx (haddressed (not_not.mp hcc))
  obtain ⟨hslot, hdefault⟩ := address_addressCtx s₁.ctx (mps0 port) hspeed hport
    hrings.ep0
  refine Meets.query fun s₂ devDesc s hdrift₂ hdesc => ?_
  split
  · exact meets_disableSlotWith _ _
  refine Meets.query fun s₃ cfg s hdrift₃ hcfg => ?_
  split
  · exact meets_disableSlotWith _ _
  refine Meets.query fun s₄ full s hdrift₄ hfull => ?_
  have hkept : s.ctx = s₁.ctx.address (addressCtx rings speed port (mps0 port)) := by
    rw [hfull.1, hdrift₄, hcfg.1, hdrift₃, hdesc.1, hdrift₂]
    exact hctx
  have hbuf := hfull.2.1
  split
  · rename_i ep hfound
    refine Meets.query fun s₅ _ u₅ hdrift₅ hconfiguration => ?_
    refine Meets.query fun s₆ _ u₆ hdrift₆ hprotocol => ?_
    refine Meets.query fun s₇ _ u₇ hdrift₇ hidle => ?_
    have hsame : u₇ = s := by
      rw [show u₇ = s₇ from hidle, hdrift₇, show u₆ = s₆ from hprotocol, hdrift₆,
        show u₅ = s₅ from hconfiguration, hdrift₅]
    split
    · exact Meets.pure trivial
    rename_i c hc
    refine Meets.query fun s₈ configured u₈ hdrift₈ hconfigured => ?_
    split
    · exact meets_disableSlotWith _ _
    rename_i hcc
    have hlast := hconfigured (not_not.mp hcc)
    rw [hdrift₈, hsame] at hlast
    refine Meets.pure ?_
    show Configured _ _ _ _ _ u₈
    rw [hlast]
    rw [← hbuf] at hfound
    exact configured_of (hkept ▸ hslot) (hkept ▸ hdefault) hfound hc hrings.int
  · exact meets_disableSlotWith _ _
  · exact Meets.pure trivial

theorem portSpeed_lt (sc : UInt32) : (portSpeed sc).toNat < 16 := by
  have hle : ((sc >>> 10) &&& 0xF).toNat ≤ 15 := by
    rw [UInt32.toNat_and]
    exact Nat.and_le_right
  show ((sc >>> 10) &&& 0xF).toNat % 2 ^ 8 < 16
  omega

/-- It is the keyboard on one of the connected ports. -/
def PortReady (rings : ℕ → DeviceRings) (mps0 : ℕ → UInt8) (first : ℕ) (portsc : List UInt32)
    (kbd : KbdReady) (s : CtxState) : Prop :=
  ∃ i sc, portsc[i]? = some sc ∧ sc &&& portscCcs ≠ 0 ∧
    Configured (rings (first + i)) (portSpeed sc) (first + i) (mps0 (first + i)) kbd s

theorem PortReady.cons {rings : ℕ → DeviceRings} {first : ℕ} {sc : UInt32} {portsc : List UInt32}
    {kbd : KbdReady} (h : PortReady rings mps0 (first + 1) portsc kbd s) :
    PortReady rings mps0 first (sc :: portsc) kbd s := by
  obtain ⟨i, sc', hget, hconnected, hconfigured⟩ := h
  rw [show first + 1 + i = first + (i + 1) by omega] at hconfigured
  exact ⟨i + 1, sc', hget, hconnected, hconfigured⟩

theorem meets_enumeratePortsWith {mem : ℕ → DeviceMem} {rings : ℕ → DeviceRings}
    (hrings : ∀ port, Aligned (rings port)) {portsc : List UInt32}
    (hports : port + portsc.length ≤ 256) :
    Meets (contextDevice mps0)
      (fun r s => ∀ kbd, r = .ready kbd → PortReady rings mps0 port portsc kbd s)
      (enumeratePortsWith mem rings port portsc) s := by
  induction portsc generalizing port s with
  | nil => exact Meets.pure (by simp)
  | cons sc rest ih =>
      rw [List.length_cons] at hports
      have hrest : ∀ s, Meets (contextDevice mps0)
          (fun r s => ∀ kbd, r = .ready kbd → PortReady rings mps0 port (sc :: rest) kbd s)
          (enumeratePortsWith mem rings (port + 1) rest) s := fun s =>
        (ih (by omega)).mono fun _ _ h kbd hkbd => (h kbd hkbd).cons
      rw [enumeratePortsWith]
      by_cases hempty : sc &&& portscCcs = 0
      · rw [if_pos hempty]
        exact hrest s
      · rw [if_neg hempty]
        refine (meets_enumeratePortWith (portSpeed_lt sc) (by omega) (hrings port)).seq
          fun outcome s h => ?_
        cases outcome with
        | noKeyboard => exact hrest s
        | ready kbd =>
            refine Meets.pure fun kbd' hkbd => ⟨0, sc, rfl, hempty, ?_⟩
            rw [← Enumerated.ready.inj hkbd]
            exact h
        | panicked => exact Meets.pure (by simp)

/-- A keyboard that is ready is configured as it says it is, on the rings that were allocated for
it. -/
theorem keyboard_configured (mem : ℕ → DeviceMem) (rings : ℕ → DeviceRings) (mps0 : ℕ → UInt8)
    (portsc : List UInt32) (hports : portsc.length ≤ 255) (hrings : ∀ port, Aligned (rings port)) :
    (initUnsafeWith mem rings portsc).rephrase Prod.fst = initUnsafe mem portsc ∧
      ∀ s kbd s', Runs (contextDevice mps0) (initUnsafeWith mem rings portsc) s (.ready kbd) s' →
        PortReady rings mps0 1 portsc kbd s' :=
  ⟨enumeratePortsWith_rephrase mem rings 1 portsc,
    fun _ kbd _ hrun => (meets_enumeratePortsWith hrings (by omega)).run hrun kbd rfl⟩

/-- What `bMaxPacketSize0` means: of a SuperSpeed device it is the exponent. -/
def packetSize0 (speed mps0 : UInt8) : ℕ :=
  if speed = 4 ∨ speed = 5 then 2 ^ mps0.toNat else mps0.toNat

/-- The driver takes it for the size itself, of every device. -/
theorem default_packet_size_iff (mem : DeviceMem) (rings : DeviceRings) (speed : UInt8)
    (mps0 : ℕ → UInt8) (port : ℕ) (hspeed : speed.toNat < 16) (hport : port < 256)
    (hrings : Aligned rings) (s : CtxState) (kbd : KbdReady) (s' : CtxState)
    (hrun : Runs (contextDevice mps0) (enumeratePortWith mem rings speed port) s (.ready kbd) s') :
    (∃ e, s'.ctx.ep 1 = some e ∧ e.maxPacketSize = packetSize0 speed (mps0 port)) ↔
      ¬ (speed = 4 ∨ speed = 5) := by
  have hready : Configured rings speed port (mps0 port) kbd s' :=
    (meets_enumeratePortWith hspeed hport hrings).run hrun
  rw [hready.ep0, packetSize0]
  constructor
  · rintro ⟨e, he, hsize⟩ hsuper
    obtain rfl := Option.some.inj he
    rw [if_pos hsuper] at hsize
    exact absurd hsize (Nat.ne_of_lt Nat.lt_two_pow_self)
  · intro hslow
    exact ⟨_, rfl, (if_neg hslow).symm⟩

end Runs

/-! ### A keyboard -/

/-- The answers that `contextDevice` allows, and the state after each. -/
def contextNext (mps0 : ℕ → UInt8) (s : CtxState) (q : UsbRequest × InCtx) (r : UsbAnswer) :
    Option CtxState :=
  match q.1 with
  | .command (.addressDevice _ _ _) => some { s with ctx := s.ctx.address q.2 }
  | .command (.evaluateContext _ _) => some { s with ctx := s.ctx.evaluate q.2 }
  | .command (.configureEndpoint _ _) => some { s with ctx := s.ctx.configure q.2 }
  | .command _ => some s
  | .ctrlIn port _ setup _ _ =>
      if setup = getDescriptor 0x01 8 ∧ r.buf[7] ≠ mps0 port then none else some ⟨s.ctx, r.buf⟩
  | .ctrlOut _ _ _ => some s

theorem contextNext_answers {mps0 : ℕ → UInt8} {s s' : CtxState} {q : UsbRequest × InCtx}
    {r : UsbAnswer} (h : contextNext mps0 s q r = some s') :
    (contextDevice mps0).answers s q r s' := by
  obtain ⟨q, c⟩ := q
  cases q with
  | command cmd =>
      cases cmd with
      | enableSlot => trivial
      | disableSlot slot => trivial
      | addressDevice ctx bsr slot => exact fun _ => (Option.some.inj h).symm
      | evaluateContext ctx slot => exact fun _ => (Option.some.inj h).symm
      | configureEndpoint ctx slot => exact fun _ => (Option.some.inj h).symm
  | ctrlIn port slot setup bufPhys len =>
      simp only [contextNext] at h
      split at h
      · exact absurd h (by simp)
      · rename_i hallowed
        obtain rfl := Option.some.inj h
        exact ⟨rfl, rfl, fun hsetup _ => not_not.mp fun hne => hallowed ⟨hsetup, hne⟩⟩
  | ctrlOut port slot setup => exact (Option.some.inj h).symm

def demoRings : DeviceRings := ⟨0x4000, 0x5000⟩

def demoContext : CtxState := ⟨⟨⟨0, 0, 0⟩, fun _ => none⟩, Vector.replicate 512 0⟩

/-- What a keyboard with the given `bMaxPacketSize0` answers. -/
def demoAnswers (mps0 : UInt8) : List UsbAnswer :=
  [usbAnswer 1 1 [], usbAnswer 1 1 [], usbAnswer 1 1 [18, 1, 0, 2, 0, 0, 0, mps0],
   usbAnswer 1 1 [], usbAnswer 1 1 [], usbAnswer 1 1 [], usbAnswer 1 1 (kbdConfig.take 9),
   usbAnswer 1 1 kbdConfig, usbAnswer 1 1 [], usbAnswer 1 1 [], usbAnswer 1 1 [],
   usbAnswer 1 1 []]

theorem demo_runs (p : CtxProgram Enumerated) (mps0 : ℕ → UInt8) (answers : List UsbAnswer)
    (h : (p.play (contextNext mps0) demoContext answers).any
      fun c => decide (c.1 = .ready ⟨1, 3⟩)) :
    ∃ s', Runs (contextDevice mps0) p demoContext (.ready ⟨1, 3⟩) s' := by
  obtain ⟨⟨outcome, s'⟩, hplay, houtcome⟩ := (Option.any_eq_true _ _).mp h
  obtain rfl := of_decide_eq_true houtcome
  exact ⟨s', runs_of_play (fun _ => rfl) (fun _ _ _ _ => contextNext_answers) hplay⟩

/-- A full-speed keyboard on the second port. -/
theorem keyboard_configured_full :
    ∃ s', PortReady (fun _ => demoRings) (fun _ => 8) 1 [0x2A0, 0x603] ⟨1, 3⟩ s' := by
  obtain ⟨s', hrun⟩ :=
    demo_runs (initUnsafeWith (fun _ => ⟨0x1000, 0x2000⟩) (fun _ => demoRings) [0x2A0, 0x603])
      (fun _ => 8) (demoAnswers 8) (by decide +kernel)
  exact ⟨s', (keyboard_configured (fun _ => ⟨0x1000, 0x2000⟩) (fun _ => demoRings) (fun _ => 8)
    [0x2A0, 0x603] (by decide) (fun _ => ⟨by decide, by decide⟩)).2 _ _ _ hrun⟩

/-- A SuperSpeed one: 9 in place of 512. -/
theorem default_packet_size_iff_super : ∃ s' : CtxState,
    ¬ ∃ e, s'.ctx.ep 1 = some e ∧ e.maxPacketSize = packetSize0 4 9 := by
  obtain ⟨s', hrun⟩ := demo_runs (enumeratePortWith ⟨0x1000, 0x2000⟩ demoRings 4 1) (fun _ => 9)
    (demoAnswers 9) (by decide +kernel)
  have h := default_packet_size_iff ⟨0x1000, 0x2000⟩ demoRings 4 (fun _ => 9) 1 (by decide)
    (by decide) ⟨by decide, by decide⟩ _ _ _ hrun
  exact ⟨s', fun hsize => h.mp hsize (Or.inl rfl)⟩

end Xhci

end Amaterasu
