/-
Starting the controller: `xhci_reset`, and `init_unsafe` in `hal/src/xhci.rs` from the first
capability register to "controller running".

A controller may be reset only while it is halted, and its registers may be written only while
it is halted and ready, until the write that sets it running.  The driver waits for each of
these flags, with one wait left out: a controller that it finds told to stop is not waited
for, so that firmware which has told it to must have waited itself.
-/
import Amaterasu.Xhci.Registers

namespace Amaterasu

namespace Xhci

open Dialogue

/-- `CAP_CAPLENGTH`. -/
def capCaplength : Nat := 0x00
/-- `CAP_HCSPARAMS1`. -/
def capHcsparams1 : Nat := 0x04
/-- `CAP_HCSPARAMS2`. -/
def capHcsparams2 : Nat := 0x08
/-- `CAP_HCCPARAMS1`. -/
def capHccparams1 : Nat := 0x10
/-- `CAP_DBOFF`. -/
def capDboff : Nat := 0x14
/-- `CAP_RTSOFF`. -/
def capRtsoff : Nat := 0x18

/-- `OP_USBCMD`. -/
def opUsbcmd : Nat := 0x00
/-- `OP_USBSTS`. -/
def opUsbsts : Nat := 0x04
/-- `OP_CRCR`. -/
def opCrcr : Nat := 0x18
/-- `OP_DCBAAP`. -/
def opDcbaap : Nat := 0x30
/-- `OP_CONFIG`. -/
def opConfig : Nat := 0x38

/-- `IR_IMAN`. -/
def irIman : Nat := 0x00
/-- `IR_ERSTSZ`. -/
def irErstsz : Nat := 0x08
/-- `IR_ERSTBA`. -/
def irErstba : Nat := 0x10
/-- `IR_ERDP`. -/
def irErdp : Nat := 0x18

/-- The beginning of `xhci_reset`. -/
def stopRunning (fuel : Nat) (mhz : UInt64) (op : Nat) : Driver (Option Bool) := do
  let cmd ← rd32 op opUsbcmd
  if cmd &&& 1 = 0 then return some true
  wr32 op opUsbcmd (cmd &&& ~~~1)
  waitFor fuel mhz 100000 op opUsbsts fun sts => sts &&& 1 != 0

/-- `xhci_reset`; `none` is out of fuel. -/
def xhciReset (fuel : Nat) (mhz : UInt64) (op : Nat) : Driver (Option Bool) := do
  match ← stopRunning fuel mhz op with
  | some true =>
      wr32 op opUsbcmd ((1 : UInt32) <<< 1)
      match ← spin fuel mhz 1000 with
      | none => return none
      | some () =>
          let reset := fun cmd : UInt32 => cmd &&& (1 : UInt32) <<< 1 == 0
          match ← waitFor fuel mhz 100000 op opUsbcmd reset with
          | some true =>
              waitFor fuel mhz 100000 op opUsbsts fun sts => sts &&& (1 : UInt32) <<< 11 == 0
          | r => return r
  | r => return r

/-- Physical addresses of what the controller is told of. -/
structure RingPhys where
  dcbaa : UInt64
  cmdRing : UInt64
  evtRing : UInt64
  erst : UInt64

/-- How the start goes. -/
inductive Started where
  | running
  /-- Without a keyboard, with or without a message. -/
  | givenUp
  /-- Out of fuel. -/
  | stuck
  deriving DecidableEq, Repr

/-- The registers of `init_unsafe`, from CONFIG to IMAN. -/
def configure (op rt : Nat) (maxSlots : UInt32) (mem : RingPhys) : Driver Unit := do
  wr32 op opConfig maxSlots
  wr64Lo op opDcbaap mem.dcbaa
  wr64Lo op opCrcr (mem.cmdRing ||| 1)
  let ir0 := rt + 0x20
  wr32 ir0 irErstsz 1
  wr64Lo ir0 irErdp mem.evtRing
  wr64Lo ir0 irErstba mem.erst
  wr32 ir0 irIman ((1 : UInt32) <<< 1)

/-- `init_unsafe`, from CAPLENGTH to "controller running". -/
def startController (fuel : Nat) (mhz : UInt64) (cap : Nat) (mem : RingPhys) : Driver Started := do
  let caplength ← rd8 cap capCaplength
  let op := cap + caplength.toNat
  let hcsparams1 ← rd32 cap capHcsparams1
  let _hcsparams2 ← rd32 cap capHcsparams2
  let hccparams1 ← rd32 cap capHccparams1
  let _dboff ← rd32 cap capDboff
  let rtsoff ← rd32 cap capRtsoff
  let rt := cap + rtsoff.toNat
  let maxSlots := hcsparams1 &&& 0xFF
  let csz := (hccparams1 >>> 2) &&& 1
  if csz ≠ 0 then return .givenUp
  match ← xhciReset fuel mhz op with
  | none => return .stuck
  | some false => return .givenUp
  | some true =>
      configure op rt maxSlots mem
      wr32 op opUsbcmd (((1 : UInt32) <<< 2) ||| 1)
      match ← waitFor fuel mhz 100000 op opUsbsts fun sts => sts &&& 1 == 0 with
      | none => return .stuck
      | some false => return .givenUp
      | some true => return .running

/-! ### The controller -/

/-- A write, and the state of the controller at the time. -/
structure Written where
  addr : Nat
  v : UInt32
  halted : Bool
  /-- Halted, not in a reset, and ready. -/
  settled : Bool
  deriving DecidableEq, Repr

/-- What matters of the controller, and all that has been written. -/
structure Controller where
  /-- R/S. -/
  run : Bool
  /-- HCRST. -/
  resetting : Bool
  /-- HCH. -/
  halted : Bool
  /-- CNR. -/
  notReady : Bool
  written : List Written

namespace Controller

def settled (c : Controller) : Bool := c.halted && !c.resetting && !c.notReady

/-- What the controller does on its own. -/
inductive Event : Controller → Controller → Prop
  | stops {c : Controller} (h : c.run = false) : Event c { c with halted := true }
  | starts {c : Controller} (h : c.run = true) (hreset : c.resetting = false) :
      Event c { c with halted := false }
  | resets {c : Controller} (h : c.resetting = true) (notReady : Bool) :
      Event c { c with run := false, resetting := false, halted := true, notReady := notReady }
  | readies {c : Controller} : Event c { c with notReady := false }

def write (op : Nat) (c : Controller) (addr : Nat) (v : UInt32) : Controller :=
  { c with
    run := if addr = op + opUsbcmd then bit v 0 else c.run
    resetting := if addr = op + opUsbcmd then c.resetting || bit v 1 else c.resetting
    written := c.written ++ [⟨addr, v, c.halted, c.settled⟩] }

/-- What a register reads. -/
structure Reads (op : Nat) (caps : Nat → UInt32) (c : Controller) (addr : Nat) (v : UInt32) :
    Prop where
  usbcmd : addr = op + opUsbcmd → bit v 0 = c.run ∧ bit v 1 = c.resetting
  usbsts : addr = op + opUsbsts → bit v 0 = c.halted ∧ bit v 11 = c.notReady
  caps : addr < op → v = caps addr

end Controller

/-- The capability registers, read only, and the operational registers behind them. -/
structure Capabilities where
  cap : Nat
  caplength : UInt8
  regs : Nat → UInt32

namespace Capabilities

def op (k : Capabilities) : Nat := k.cap + k.caplength.toNat

def rt (k : Capabilities) : Nat := k.cap + (k.regs (k.cap + capRtsoff)).toNat

def maxSlots (k : Capabilities) : UInt32 := k.regs (k.cap + capHcsparams1) &&& 0xFF

/-- The capability registers end before the operational ones begin, and the interrupter is
behind the two that are looked at. -/
structure Apart (k : Capabilities) : Prop where
  caps : 0x20 ≤ k.caplength.toNat
  rt : k.op < k.rt + 0x20

end Capabilities

def controllerDevice (k : Capabilities) : Device Controller Mmio UInt64 where
  drifts := Relation.ReflTransGen Controller.Event
  answers c q r c' := match q with
    | .rd8 addr => c' = c ∧ (addr = k.cap + capCaplength → r.toUInt8 = k.caplength)
    | .rd32 addr => c' = c ∧ c.Reads k.op k.regs addr r.toUInt32
    | .wr32 addr v => c' = c.write k.op addr v
    | .rdtsc => c' = c

namespace Controller

variable {k : Capabilities} {inv : Controller → Prop} {c : Controller}

theorem stable (h : ∀ c c', Event c c' → inv c → inv c') : (controllerDevice k).Stable inv := by
  intro c c' hdrift hc
  induction hdrift with
  | refl => exact hc
  | tail _ hevent ih => exact h _ _ hevent ih

theorem clock (c : Controller) (r : UInt64) (c' : Controller)
    (h : (controllerDevice k).answers c .rdtsc r c') : c' = c := h

theorem meets_read (hstable : (controllerDevice k).Stable inv) (hc : inv c) {base off : Nat}
    {post : UInt32 → Controller → Prop}
    (h : ∀ v c, inv c → c.Reads k.op k.regs (base + off) v → post v c) :
    Meets (controllerDevice k) post (rd32 base off) c := by
  intro c₁ r c' hdrift ⟨hsame, hreads⟩
  rw [hsame]
  exact h _ _ (hstable _ _ hdrift hc) hreads

theorem meets_write (hstable : (controllerDevice k).Stable inv) (hc : inv c) {base off : Nat}
    {v : UInt32} {post : Unit → Controller → Prop}
    (h : ∀ c, inv c → post () (c.write k.op (base + off) v)) :
    Meets (controllerDevice k) post (wr32 base off v) c := by
  intro c₁ r c' hdrift hwritten
  rw [show c' = c₁.write k.op (base + off) v from hwritten]
  exact h _ (hstable _ _ hdrift hc)

/-! ### The phases of the start -/

/-- Running, or halted; no reset is going on. -/
structure Found (log : List Written) (c : Controller) : Prop where
  written : c.written = log
  resetting : c.resetting = false
  stopped : c.run = true ∨ c.halted = true

/-- Told to stop. -/
structure Stopping (log : List Written) (c : Controller) : Prop where
  written : c.written = log
  resetting : c.resetting = false
  run : c.run = false

/-- Halted, and told to stop. -/
structure Halted (log : List Written) (c : Controller) : Prop where
  written : c.written = log
  run : c.run = false
  halted : c.halted = true

/-- Halted and out of reset. -/
structure Fresh (log : List Written) (c : Controller) : Prop extends c.Halted log where
  resetting : c.resetting = false

/-- Halted, out of reset and ready. -/
structure Settled (log : List Written) (c : Controller) : Prop extends c.Fresh log where
  ready : c.notReady = false

/-- Told to run. -/
structure Running (log : List Written) (c : Controller) : Prop where
  written : c.written = log
  run : c.run = true
  resetting : c.resetting = false

variable {log : List Written}

theorem stable_found : (controllerDevice k).Stable (Found log) := by
  refine stable fun c c' hevent hc => ?_
  cases hevent with
  | stops h => exact ⟨hc.written, hc.resetting, Or.inr rfl⟩
  | starts h hreset => exact ⟨hc.written, hc.resetting, Or.inl h⟩
  | resets h notReady => exact ⟨hc.written, rfl, Or.inr rfl⟩
  | readies => exact ⟨hc.written, hc.resetting, hc.stopped⟩

theorem stable_stopping : (controllerDevice k).Stable (Stopping log) := by
  refine stable fun c c' hevent hc => ?_
  cases hevent with
  | stops h => exact ⟨hc.written, hc.resetting, hc.run⟩
  | starts h hreset => exact absurd h (by simp [hc.run])
  | resets h notReady => exact ⟨hc.written, rfl, rfl⟩
  | readies => exact ⟨hc.written, hc.resetting, hc.run⟩

theorem stable_halted : (controllerDevice k).Stable (Halted log) := by
  refine stable fun c c' hevent hc => ?_
  cases hevent with
  | stops h => exact ⟨hc.written, hc.run, rfl⟩
  | starts h hreset => exact absurd h (by simp [hc.run])
  | resets h notReady => exact ⟨hc.written, rfl, rfl⟩
  | readies => exact ⟨hc.written, hc.run, hc.halted⟩

theorem stable_fresh : (controllerDevice k).Stable (Fresh log) := by
  refine stable fun c c' hevent hc => ?_
  cases hevent with
  | stops h => exact ⟨⟨hc.written, hc.run, rfl⟩, hc.resetting⟩
  | starts h hreset => exact absurd h (by simp [hc.run])
  | resets h notReady => exact ⟨⟨hc.written, rfl, rfl⟩, rfl⟩
  | readies => exact ⟨⟨hc.written, hc.run, hc.halted⟩, hc.resetting⟩

theorem stable_settled : (controllerDevice k).Stable (Settled log) := by
  refine stable fun c c' hevent hc => ?_
  cases hevent with
  | stops h => exact ⟨⟨⟨hc.written, hc.run, rfl⟩, hc.resetting⟩, hc.ready⟩
  | starts h hreset => exact absurd h (by simp [hc.run])
  | resets h notReady => exact absurd h (by simp [hc.resetting])
  | readies => exact ⟨⟨⟨hc.written, hc.run, hc.halted⟩, hc.resetting⟩, rfl⟩

theorem stable_running : (controllerDevice k).Stable (Running log) := by
  refine stable fun c c' hevent hc => ?_
  cases hevent with
  | stops h => exact absurd h (by simp [hc.run])
  | starts h hreset => exact ⟨hc.written, hc.run, hc.resetting⟩
  | resets h notReady => exact absurd h (by simp [hc.resetting])
  | readies => exact ⟨hc.written, hc.run, hc.resetting⟩

/-! ### The writes -/

/-- Nothing, or a write that tells a controller to stop. -/
def Stops (op : Nat) (l : List Written) : Prop :=
  l = [] ∨ ∃ w, l = [w] ∧ w.addr = op ∧ bit w.v 0 = false ∧ bit w.v 1 = false

/-- The write that resets a controller that is halted. -/
structure Resets (op : Nat) (w : Written) : Prop where
  addr : w.addr = op
  v : w.v = (1 : UInt32) <<< 1
  halted : w.halted = true

/-- Told to stop, and halted if this is what it is waited for. -/
theorem meets_stopRunning (hc : c.Found log) (fuel : Nat) (mhz : UInt64) :
    Meets (controllerDevice k) (fun r c => ∃ stop, Stops k.op stop ∧ c.written = log ++ stop ∧
      (r = some true → c.Fresh (log ++ stop))) (stopRunning fuel mhz k.op) c := by
  have hcmd : Meets (controllerDevice k)
      (fun cmd c => c.Found log ∧ bit cmd 0 = c.run ∧ bit cmd 1 = c.resetting)
      (rd32 k.op opUsbcmd) c :=
    meets_read stable_found hc fun v c hc hv => ⟨hc, hv.usbcmd rfl⟩
  refine hcmd.seq fun cmd c ⟨hc, hrun, hreset⟩ => ?_
  by_cases hzero : cmd &&& 1 = 0
  · rw [if_pos hzero]
    have hnot : c.run = false := hrun ▸ (and_eq_zero (i := 0) (by decide) rfl).mp hzero
    have hhalted : c.halted = true := hc.stopped.resolve_left (by simp [hnot])
    refine Meets.pure ⟨[], Or.inl rfl, by rw [hc.written, List.append_nil], fun _ => ?_⟩
    rw [List.append_nil]
    exact ⟨⟨hc.written, hnot, hhalted⟩, hc.resetting⟩
  · rw [if_neg hzero]
    have hbits : bit (cmd &&& ~~~1) 0 = false ∧ bit (cmd &&& ~~~1) 1 = false := by
      have hone : bit 1 0 = true ∧ bit 1 1 = false := ⟨rfl, rfl⟩
      simp [hone, hreset, hc.resetting]
    have hwrite : Meets (controllerDevice k)
        (fun _ c => ∃ w, Stops k.op [w] ∧ c.Stopping (log ++ [w]))
        (wr32 k.op opUsbcmd (cmd &&& ~~~1)) c := by
      refine meets_write stable_found hc fun c hc => ?_
      refine ⟨⟨k.op + opUsbcmd, cmd &&& ~~~1, c.halted, c.settled⟩,
        Or.inr ⟨_, rfl, rfl, hbits⟩, ?_, ?_, ?_⟩
      · rw [write, hc.written]
      · simp [write, hc.resetting, hbits]
      · simp [write, hbits]
    refine hwrite.seq fun _ c ⟨w, hw, hc⟩ => ?_
    have hround : ∀ c : Controller, c.Stopping (log ++ [w]) → Meets (controllerDevice k)
        (fun v c => c.Stopping (log ++ [w]) ∧ ((v &&& 1 != 0) = true → c.halted = true))
        (rd32 k.op opUsbsts) c := fun c hc =>
      meets_read stable_stopping hc fun v c hc hv => by
        refine ⟨hc, fun hgood => ?_⟩
        have hbit : bit v 0 = true := (and_ne_zero (by decide) rfl).mp (by simpa using hgood)
        rw [← (hv.usbsts rfl).1, hbit]
    refine (meets_waitFor clock stable_stopping hround fuel mhz 100000 hc).mono fun r c hr => ?_
    exact ⟨[w], hw, hr.1.written, fun htrue =>
      ⟨⟨hr.1.written, hr.1.run, hr.2 htrue⟩, hr.1.resetting⟩⟩

/-- The write that requests the reset. -/
theorem meets_reset (hc : c.Fresh log) :
    Meets (controllerDevice k) (fun _ c => ∃ w, Resets k.op w ∧ c.Halted (log ++ [w]))
      (wr32 k.op opUsbcmd ((1 : UInt32) <<< 1)) c := by
  refine meets_write stable_fresh hc fun c hc => ?_
  refine ⟨⟨k.op + opUsbcmd, (1 : UInt32) <<< 1, c.halted, c.settled⟩,
    ⟨rfl, rfl, hc.halted⟩, ?_, ?_, hc.halted⟩
  · rw [write, hc.written]
  · exact if_pos rfl

theorem meets_xhciReset (hc : c.Found log) (fuel : Nat) (mhz : UInt64) :
    Meets (controllerDevice k) (fun r c =>
      (∃ stop, Stops k.op stop ∧ c.written = log ++ stop ∧ r ≠ some true) ∨
      ∃ stop w, Stops k.op stop ∧ Resets k.op w ∧ c.written = log ++ stop ++ [w] ∧
        (r = some true → c.Settled (log ++ stop ++ [w]))) (xhciReset fuel mhz k.op) c := by
  refine (meets_stopRunning hc fuel mhz).seq fun r c ⟨stop, hstop, hwritten, hfresh⟩ => ?_
  rcases r with - | - | -
  · exact Meets.pure (Or.inl ⟨stop, hstop, hwritten, by simp⟩)
  · exact Meets.pure (Or.inl ⟨stop, hstop, hwritten, by simp⟩)
  refine (meets_reset (hfresh rfl)).seq fun _ c ⟨w, hw, hc⟩ => ?_
  refine (meets_spin clock stable_halted fuel mhz 1000 hc).seq fun r c hc => ?_
  rcases r with - | -
  · exact Meets.pure (Or.inr ⟨stop, w, hstop, hw, hc.written, by simp⟩)
  have hround : ∀ c : Controller, c.Halted (log ++ stop ++ [w]) → Meets (controllerDevice k)
      (fun v c => c.Halted (log ++ stop ++ [w]) ∧
        ((v &&& (1 : UInt32) <<< 1 == 0) = true → c.resetting = false))
      (rd32 k.op opUsbcmd) c := fun c hc =>
    meets_read stable_halted hc fun v c hc hv => by
      refine ⟨hc, fun hgood => ?_⟩
      have hbit : bit v 1 = false := (and_eq_zero (by decide) rfl).mp (beq_iff_eq.mp hgood)
      rw [← (hv.usbcmd rfl).2, hbit]
  refine (meets_waitFor clock stable_halted hround fuel mhz 100000 hc).seq fun r c hr => ?_
  rcases r with - | - | -
  · exact Meets.pure (Or.inr ⟨stop, w, hstop, hw, hr.1.written, by simp⟩)
  · exact Meets.pure (Or.inr ⟨stop, w, hstop, hw, hr.1.written, by simp⟩)
  have hround : ∀ c : Controller, c.Fresh (log ++ stop ++ [w]) → Meets (controllerDevice k)
      (fun v c => c.Fresh (log ++ stop ++ [w]) ∧
        ((v &&& (1 : UInt32) <<< 11 == 0) = true → c.notReady = false))
      (rd32 k.op opUsbsts) c := fun c hc =>
    meets_read stable_fresh hc fun v c hc hv => by
      refine ⟨hc, fun hgood => ?_⟩
      have hbit : bit v 11 = false := (and_eq_zero (by decide) rfl).mp (beq_iff_eq.mp hgood)
      rw [← (hv.usbsts rfl).2, hbit]
  refine (meets_waitFor clock stable_fresh hround fuel mhz 100000 ⟨hr.1, hr.2 rfl⟩).mono
    fun r c hr => ?_
  exact Or.inr ⟨stop, w, hstop, hw, hr.1.written, fun htrue => ⟨hr.1, hr.2 htrue⟩⟩

/-- A write to a controller that is settled. -/
theorem meets_setup (hc : c.Settled log) {base off : Nat} (haddr : base + off ≠ k.op)
    (v : UInt32) : Meets (controllerDevice k)
      (fun _ c => c.Settled (log ++ [⟨base + off, v, true, true⟩])) (wr32 base off v) c := by
  refine meets_write stable_settled hc fun c hc => ?_
  have hother : base + off ≠ k.op + opUsbcmd := haddr
  have hsettled : c.settled = true := by
    simp [settled, hc.halted, hc.resetting, hc.ready]
  refine ⟨⟨⟨?_, ?_, hc.halted⟩, ?_⟩, hc.ready⟩
  · rw [write, hc.written, hc.halted, hsettled]
  · exact (if_neg hother).trans hc.run
  · exact (if_neg hother).trans hc.resetting

/-- What is written from CONFIG to IMAN. -/
def configured (k : Capabilities) (mem : RingPhys) : List (Nat × UInt32) :=
  let ir0 := k.rt + 0x20
  [(k.op + opConfig, k.maxSlots),
    (k.op + opDcbaap, mem.dcbaa.toUInt32), (k.op + (opDcbaap + 4), (mem.dcbaa >>> 32).toUInt32),
    (k.op + opCrcr, (mem.cmdRing ||| 1).toUInt32),
    (k.op + (opCrcr + 4), ((mem.cmdRing ||| 1) >>> 32).toUInt32),
    (ir0 + irErstsz, 1),
    (ir0 + irErdp, mem.evtRing.toUInt32), (ir0 + (irErdp + 4), (mem.evtRing >>> 32).toUInt32),
    (ir0 + irErstba, mem.erst.toUInt32), (ir0 + (irErstba + 4), (mem.erst >>> 32).toUInt32),
    (ir0 + irIman, (1 : UInt32) <<< 1)]

/-- Writes to a controller that is halted and ready. -/
def settledWrites (l : List (Nat × UInt32)) : List Written :=
  l.map fun e => ⟨e.1, e.2, true, true⟩

theorem meets_configure (hapart : k.Apart) (hc : c.Settled log) (mem : RingPhys) :
    Meets (controllerDevice k) (fun _ c => c.Settled (log ++ settledWrites (configured k mem)))
      (configure k.op k.rt k.maxSlots mem) c := by
  have hop : ∀ off, 0 < off → k.op + off ≠ k.op := fun off hoff => by omega
  have hir : ∀ off, k.rt + 0x20 + off ≠ k.op := fun off => by
    have := hapart.rt
    omega
  refine (meets_setup hc (hop _ (by decide)) _).seq fun _ c hc => ?_
  refine ((meets_setup hc (hop _ (by decide)) _).seq fun _ c hc =>
    meets_setup hc (hop _ (by decide)) _).seq fun _ c hc => ?_
  refine ((meets_setup hc (hop _ (by decide)) _).seq fun _ c hc =>
    meets_setup hc (hop _ (by decide)) _).seq fun _ c hc => ?_
  refine (meets_setup hc (hir _) _).seq fun _ c hc => ?_
  refine ((meets_setup hc (hir _) _).seq fun _ c hc =>
    meets_setup hc (hir _) _).seq fun _ c hc => ?_
  refine ((meets_setup hc (hir _) _).seq fun _ c hc =>
    meets_setup hc (hir _) _).seq fun _ c hc => ?_
  refine (meets_setup hc (hir _) _).mono fun _ c hc => ?_
  simpa only [settledWrites, configured, List.map_cons, List.map_nil, List.append_assoc,
    List.cons_append, List.nil_append] using hc

/-- The write that sets the controller running. -/
theorem meets_run (hc : c.Settled log) : Meets (controllerDevice k)
    (fun _ c => c.Running (log ++ [⟨k.op, ((1 : UInt32) <<< 2) ||| 1, true, true⟩]))
    (wr32 k.op opUsbcmd (((1 : UInt32) <<< 2) ||| 1)) c := by
  refine meets_write stable_settled hc fun c hc => ?_
  have hsettled : c.settled = true := by
    simp [settled, hc.halted, hc.resetting, hc.ready]
  refine ⟨?_, if_pos rfl, ?_⟩
  · rw [write, hc.written, hc.halted, hsettled]
    rfl
  · refine (if_pos rfl).trans ?_
    rw [hc.resetting]
    rfl

theorem meets_awaitRun (hc : c.Running log) (fuel : Nat) (mhz : UInt64) :
    Meets (controllerDevice k) (fun r c => c.Running log ∧ (r = some true → c.halted = false))
      (waitFor fuel mhz 100000 k.op opUsbsts fun sts => sts &&& 1 == 0) c := by
  have hround : ∀ c : Controller, c.Running log → Meets (controllerDevice k)
      (fun v c => c.Running log ∧ ((v &&& 1 == 0) = true → c.halted = false))
      (rd32 k.op opUsbsts) c := fun c hc =>
    meets_read stable_running hc fun v c hc hv => by
      refine ⟨hc, fun hgood => ?_⟩
      have hbit : bit v 0 = false := (and_eq_zero (by decide) rfl).mp (beq_iff_eq.mp hgood)
      rw [← (hv.usbsts rfl).1, hbit]
  exact meets_waitFor clock stable_running hround fuel mhz 100000 hc

/-! ### The whole start -/

/-- A capability register. -/
theorem meets_rd32Cap (hapart : k.Apart) (hc : c.Found log) {off : Nat} (hoff : off < 0x20) :
    Meets (controllerDevice k) (fun v c => c.Found log ∧ v = k.regs (k.cap + off))
      (rd32 k.cap off) c := by
  refine meets_read stable_found hc fun v c hc hv => ⟨hc, hv.caps ?_⟩
  have hlen := hapart.caps
  unfold Capabilities.op
  omega

theorem meets_rd8Cap (hc : c.Found log) : Meets (controllerDevice k)
    (fun v c => c.Found log ∧ v = k.caplength) (rd8 k.cap capCaplength) c := by
  intro c₁ r c' hdrift ⟨hsame, hv⟩
  rw [hsame]
  exact ⟨stable_found _ _ hdrift hc, hv rfl⟩

/-- What has been written when the start is over, and what has come of it. -/
def Ends (k : Capabilities) (mem : RingPhys) (log : List Written) (r : Started) (c : Controller) :
    Prop :=
  ∃ stop, Stops k.op stop ∧
    (c.written = log ++ stop ∧ r ≠ .running ∨
      ∃ w, Resets k.op w ∧
        (c.written = log ++ stop ++ [w] ∧ r ≠ .running ∨
          c.written = log ++ stop ++ [w] ++
              settledWrites (configured k mem ++ [(k.op, ((1 : UInt32) <<< 2) ||| 1)]) ∧
            (r = .running → c.run = true ∧ c.halted = false)))

theorem meets_startController (hapart : k.Apart) (hc : c.Found log) (fuel : Nat) (mhz : UInt64)
    (mem : RingPhys) :
    Meets (controllerDevice k) (Ends k mem log) (startController fuel mhz k.cap mem) c := by
  refine (meets_rd8Cap hc).seq fun caplength c ⟨hc, hcaplength⟩ => ?_
  refine (meets_rd32Cap hapart hc (by decide)).seq fun hcsparams1 c ⟨hc, hparams⟩ => ?_
  refine (meets_rd32Cap hapart hc (by decide)).seq fun _ c ⟨hc, _⟩ => ?_
  refine (meets_rd32Cap hapart hc (by decide)).seq fun hccparams1 c ⟨hc, _⟩ => ?_
  refine (meets_rd32Cap hapart hc (by decide)).seq fun _ c ⟨hc, _⟩ => ?_
  refine (meets_rd32Cap hapart hc (by decide)).seq fun rtsoff c ⟨hc, hrtsoff⟩ => ?_
  have hop : k.cap + caplength.toNat = k.op := by rw [hcaplength, Capabilities.op]
  have hrt : k.cap + rtsoff.toNat = k.rt := by rw [hrtsoff, Capabilities.rt]
  have hslots : hcsparams1 &&& 0xFF = k.maxSlots := by rw [hparams, Capabilities.maxSlots]
  rw [hop, hrt, hslots]
  dsimp only
  split
  · exact Meets.pure ⟨[], Or.inl rfl, Or.inl ⟨by rw [hc.written, List.append_nil], by simp⟩⟩
  refine (meets_xhciReset hc fuel mhz).seq fun r c hr => ?_
  rcases hr with ⟨stop, hstop, hwritten, hne⟩ | ⟨stop, w, hstop, hw, hwritten, hsettled⟩
  · rcases r with - | - | -
    · exact Meets.pure ⟨stop, hstop, Or.inl ⟨hwritten, by simp⟩⟩
    · exact Meets.pure ⟨stop, hstop, Or.inl ⟨hwritten, by simp⟩⟩
    · exact absurd rfl hne
  rcases r with - | - | -
  · exact Meets.pure ⟨stop, hstop, Or.inr ⟨w, hw, Or.inl ⟨hwritten, by simp⟩⟩⟩
  · exact Meets.pure ⟨stop, hstop, Or.inr ⟨w, hw, Or.inl ⟨hwritten, by simp⟩⟩⟩
  refine (meets_configure hapart (hsettled rfl) mem).seq fun _ c hc => ?_
  refine (meets_run hc).seq fun _ c hc => ?_
  refine (meets_awaitRun hc fuel mhz).seq fun r c hr => ?_
  have hall : c.written = log ++ stop ++ [w] ++
      settledWrites (configured k mem ++ [(k.op, ((1 : UInt32) <<< 2) ||| 1)]) := by
    rw [hr.1.written, settledWrites, settledWrites, List.map_append, List.append_assoc]
    rfl
  rcases r with - | - | -
  · exact Meets.pure ⟨stop, hstop, Or.inr ⟨w, hw, Or.inr ⟨hall, by simp⟩⟩⟩
  · exact Meets.pure ⟨stop, hstop, Or.inr ⟨w, hw, Or.inr ⟨hall, by simp⟩⟩⟩
  · exact Meets.pure ⟨stop, hstop, Or.inr ⟨w, hw, Or.inr ⟨hall, fun _ => ⟨hr.1.run, hr.2 rfl⟩⟩⟩⟩

end Controller

/--
**The controller is started in order.**  From a controller that runs or is halted, with any
timing and any answers of the clock, the registers that have been written when the start ends
are an initial part of this: it is told to stop, if it ran; it is reset, while it is halted;
it gets its slots, its rings and its interrupter, all while it is halted and ready; it is told
to run.  It is reported as running only after all of them, and it is.
-/
theorem controller_started {k : Capabilities} {mem : RingPhys} {fuel : Nat} {mhz : UInt64}
    {c c' : Controller} {r : Started} (hapart : k.Apart) (hidle : c.resetting = false)
    (hstopped : c.run = true ∨ c.halted = true)
    (hrun : Runs (controllerDevice k) (startController fuel mhz k.cap mem) c r c') :
    Controller.Ends k mem c.written r c' :=
  (Controller.meets_startController hapart ⟨rfl, hidle, hstopped⟩ fuel mhz mem).run hrun

section Runs

variable {k : Capabilities} {c c' : Controller} {base off : Nat} {v : UInt32}

theorem runs_rd32 (hdrift : Relation.ReflTransGen Controller.Event c c')
    (h : c'.Reads k.op k.regs (base + off) v) :
    Runs (controllerDevice k) (rd32 base off) c v c' := by
  have hself : v.toUInt64.toUInt32 = v := by simp
  refine .ask (r := v.toUInt64) hdrift ⟨rfl, ?_⟩ ?_
  · rwa [hself]
  · show Runs _ (.done v.toUInt64.toUInt32) c' v c'
    rw [hself]
    exact .done

theorem runs_rd8 : Runs (controllerDevice k) (rd8 k.cap capCaplength) c k.caplength c := by
  have hself : k.caplength.toUInt64.toUInt8 = k.caplength := by simp
  refine .ask (r := k.caplength.toUInt64) .refl ⟨rfl, fun _ => hself⟩ ?_
  show Runs _ (.done k.caplength.toUInt64.toUInt8) c k.caplength c
  rw [hself]
  exact .done

theorem runs_wr32 : Runs (controllerDevice k) (wr32 base off v) c ()
    (c.write k.op (base + off) v) := .ask (r := 0) .refl rfl .done

theorem runs_wr64Lo (v : UInt64) : Runs (controllerDevice k) (wr64Lo base off v) c ()
    ((c.write k.op (base + off) v.toUInt32).write k.op (base + (off + 4)) (v >>> 32).toUInt32) :=
  runs_wr32.bind runs_wr32

theorem runs_deadline (mhz us : UInt64) :
    Runs (controllerDevice k) (deadlineCycles mhz us) c (0 + us * mhz) c :=
  .ask (r := 0) .refl rfl .done

theorem runs_waitFor (hdrift : Relation.ReflTransGen Controller.Event c c')
    (h : c'.Reads k.op k.regs (base + off) v) {good : UInt32 → Bool} (hgood : good v = true)
    (fuel : Nat) (mhz us : UInt64) :
    Runs (controllerDevice k) (waitFor (fuel + 1) mhz us base off good) c (some true) c' := by
  refine (runs_deadline mhz us).bind ?_
  exact ((runs_rd32 hdrift h).poll hgood fuel).bind .done

theorem runs_past (dl : UInt64) : Runs (controllerDevice k) (past dl) c true c := by
  have hself : decide (dl - dl < (1 : UInt64) <<< 63) = true := by
    rw [UInt64.sub_self]
    rfl
  refine .ask (r := dl) .refl rfl ?_
  show Runs _ (.done (decide (dl - dl < (1 : UInt64) <<< 63))) c true c
  rw [hself]
  exact .done

theorem runs_spin (fuel : Nat) (mhz us : UInt64) :
    Runs (controllerDevice k) (spin (fuel + 1) mhz us) c (some ()) c :=
  (runs_deadline mhz us).bind (((runs_past _).poll rfl fuel).bind .done)

end Runs

/-- A controller whose operational registers are at 0x20, and its interrupter at 0x1020. -/
def demoCapabilities : Capabilities where
  cap := 0
  caplength := 0x20
  regs addr := if addr = capRtsoff then 0x1000 else 0

theorem demoCapabilities_reads (c : Controller) {addr : Nat} (h : addr < 0x20) :
    c.Reads demoCapabilities.op demoCapabilities.regs addr (demoCapabilities.regs addr) where
  usbcmd := fun heq => absurd (heq ▸ h) (by decide)
  usbsts := fun heq => absurd (heq ▸ h) (by decide)
  caps := fun _ => rfl

theorem runs_xhciReset_halted : Runs (controllerDevice demoCapabilities)
    (xhciReset 1 1000 demoCapabilities.op) ⟨false, false, true, false, []⟩ (some true)
    ⟨false, false, true, false, [⟨0x20, 2, true, true⟩]⟩ := by
  have hstop : Runs (controllerDevice demoCapabilities) (stopRunning 1 1000 demoCapabilities.op)
      ⟨false, false, true, false, []⟩ (some true) ⟨false, false, true, false, []⟩ :=
    (runs_rd32 (v := 0) .refl ⟨fun _ => ⟨rfl, rfl⟩, fun h => absurd h (by decide),
      fun h => absurd h (by decide)⟩).bind .done
  refine hstop.bind (runs_wr32.bind ((runs_spin 0 1000 1000).bind ?_))
  have hreset : Runs (controllerDevice demoCapabilities)
      (waitFor 1 1000 100000 demoCapabilities.op opUsbcmd
        fun cmd => cmd &&& (1 : UInt32) <<< 1 == 0)
      ⟨false, true, true, false, [⟨0x20, 2, true, true⟩]⟩ (some true)
      ⟨false, false, true, false, [⟨0x20, 2, true, true⟩]⟩ :=
    runs_waitFor (v := 0) (.single (.resets rfl false)) ⟨fun _ => ⟨rfl, rfl⟩,
      fun h => absurd h (by decide), fun h => absurd h (by decide)⟩ rfl 0 1000 100000
  refine hreset.bind ?_
  exact runs_waitFor (v := 1) .refl ⟨fun h => absurd h (by decide), fun _ => ⟨rfl, rfl⟩,
    fun h => absurd h (by decide)⟩ rfl 0 1000 100000

/-- A controller that is found halted and comes up at once. -/
theorem controller_started_halted : ∃ c',
    Runs (controllerDevice demoCapabilities) (startController 1 1000 0 ⟨0, 0, 0, 0⟩)
      ⟨false, false, true, false, []⟩ .running c' ∧
    Controller.Ends demoCapabilities ⟨0, 0, 0, 0⟩ [] .running c' := by
  have hcap : ∀ (c : Controller) {off : Nat}, off < 0x20 → Runs (controllerDevice demoCapabilities)
      (rd32 0 off) c (demoCapabilities.regs (0 + off)) c := fun c off hoff =>
    runs_rd32 .refl (demoCapabilities_reads c (by omega))
  have hrun : ∃ c', Runs (controllerDevice demoCapabilities)
      (startController 1 1000 0 ⟨0, 0, 0, 0⟩) ⟨false, false, true, false, []⟩ .running c' := by
    refine runs_rd8.bind_exists ((hcap _ (by decide)).bind_exists ((hcap _ (by decide)).bind_exists
      ((hcap _ (by decide)).bind_exists ((hcap _ (by decide)).bind_exists
      ((hcap _ (by decide)).bind_exists (runs_xhciReset_halted.bind_exists ?_))))))
    have hconfigure : ∃ c, Runs (controllerDevice demoCapabilities)
        (configure demoCapabilities.op demoCapabilities.rt demoCapabilities.maxSlots ⟨0, 0, 0, 0⟩)
        ⟨false, false, true, false, [⟨0x20, 2, true, true⟩]⟩ () c :=
      runs_wr32.bind_exists ((runs_wr64Lo _).bind_exists ((runs_wr64Lo _).bind_exists
        (runs_wr32.bind_exists ((runs_wr64Lo _).bind_exists ((runs_wr64Lo _).bind_exists
          ⟨_, runs_wr32⟩)))))
    obtain ⟨c, hconfigure⟩ := hconfigure
    have hsettled := (Controller.meets_configure ⟨by decide, by decide⟩
      ⟨⟨⟨rfl, rfl, rfl⟩, rfl⟩, rfl⟩ ⟨0, 0, 0, 0⟩).run hconfigure
    have hrunning := (Controller.meets_run (k := demoCapabilities) hsettled).run runs_wr32
    refine hconfigure.bind_exists (runs_wr32.bind_exists ?_)
    exact (runs_waitFor (v := 0) (.single (.starts hrunning.run hrunning.resetting))
      ⟨fun h => absurd h (by decide), fun _ => ⟨rfl, hsettled.ready.symm⟩,
        fun h => absurd h (by decide)⟩ rfl 0 1000 100000).bind_exists ⟨_, .done⟩
  obtain ⟨c', hrun⟩ := hrun
  exact ⟨c', hrun, controller_started ⟨by decide, by decide⟩ rfl (Or.inr rfl) hrun⟩

end Xhci

end Amaterasu
