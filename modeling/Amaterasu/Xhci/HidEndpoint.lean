/-
The keyboard's interrupt endpoint after `init_unsafe` has published it:
`take_hid_report` in `hal/src/xhci.rs`.

One TRB is armed before `KBD_READY` is set, and each report taken arms the next.  All
transfers go to one 8-byte buffer, so everything rests on there being one TRB at a time.
The controller may also post events that have nothing to do with the endpoint: command
completions, port status changes, and late transfer events of EP0, which carry the same
slot.

`take_hid_report` tells a report by type, slot and completion code.  A failed interrupt
transfer does not pass, and is not armed again; an EP0 event does, and is.
-/
import Amaterasu.Xhci.TransferRing
import Amaterasu.Keyboard.Decode

namespace Amaterasu

/-- An event on the ring and, if it ends an interrupt transfer, which one and the bytes
that transfer put into the buffer: the driver sees the event only. -/
structure HidEvent where
  event : Trb
  transfer : Option (Nat × List UInt8)
  deriving DecidableEq, Repr

/-- The tests of `take_hid_report` on an event it has consumed. -/
def isReport (slot : UInt8) (dw : Trb) : Bool :=
  dw.trbType == trbEvtTransfer && dw.slotId == slot &&
    (dw.completionCode == ccSuccess || dw.completionCode == ccShortPkt)

/-- The buffer after a transfer that wrote `data` to it. -/
def overlay (data : List UInt8) (buf : HidReport) : HidReport :=
  Vector.ofFn fun i => data.getD i.val buf[i]

theorem overlay_toList {data : List UInt8} (h : data.length = 8) (buf : HidReport) :
    (overlay data buf).toList = data := by
  refine List.ext_getElem (by simp [h]) fun i h₁ h₂ => ?_
  simp [overlay, List.getElem?_eq_getElem h₂]

/-- A transfer: its number, if any, and eight bytes. -/
abbrev HidTransfer := Option Nat × List UInt8

/-- The statics of the driver, the controller's side, and the history of both. -/
structure HidDriver where
  /-- `KBD_READY`. -/
  ready : Bool
  /-- `KBD_SLOT`. -/
  slot : UInt8
  /-- `KBD_EP_DB`. -/
  epDb : UInt8
  /-- The ring at `KBD_TR_BASE`, with `KBD_TR_ENQ` and `KBD_TR_CYC`. -/
  ring : XhciRing
  /-- `KBD_BUF_PHYS`, and the bytes there. -/
  bufPhys : UInt64
  buf : HidReport
  /-- Events posted and not consumed. -/
  events : List HidEvent
  /-- `KBD_DBG_COUNT`. -/
  dbgCount : Nat
  /-- Interrupt transfers completed, well or not. -/
  completed : Nat
  /-- Reports returned, each with the transfer whose event it was returned for. -/
  returned : List HidTransfer
  /-- Transfers completed well. -/
  succeeded : List HidTransfer

namespace XhciRing

/-- `arm_kbd_ep_raw` on the ring. -/
def arm (c : XhciRing) (bufPhys : UInt64) : XhciRing :=
  let (mem, enq, cycle) := armKbdEpRaw c.mem c.st.enq c.st.cycle bufPhys
  { c with
    mem := mem
    st := { enq := enq, cycle := cycle }
    pushed := c.pushed ++ [(normalTrb bufPhys 0).payload] }

variable {c : XhciRing} {bufPhys : UInt64}

theorem arm_eq (hp : c.pending = false) : c.arm bufPhys = (c.write .int bufPhys).link .int := by
  obtain ⟨mem, st, pending, deq, ccs, pushed, executed⟩ := c
  subst hp
  rfl

/-- Arming with room on the ring keeps it a queue. -/
theorem arm_inv (bufPhys : UInt64) (hp : c.pending = false) (hwf : c.WellFormed .int)
    (hi : (c.phaseRing .int).Inv (intN - 1))
    (hlen : c.pushed.length + 1 ≤ c.executed.length + (intN - 1)) :
    (c.arm bufPhys).WellFormed .int ∧ ((c.arm bufPhys).phaseRing .int).Inv (intN - 1) := by
  rw [arm_eq hp]
  obtain ⟨hwf₁, hphase₁⟩ := hwf.write (k := .int) bufPhys
  obtain ⟨hwf₂, hphase₂⟩ := hwf₁.link
  refine ⟨hwf₂, ?_⟩
  rw [hphase₂, hphase₁]
  refine PhaseRing.Inv.finish (by decide) (hi.push _ ?_)
  have hp' : ¬ (c.phaseRing .int).pending = true := by
    show ¬ c.pending = true
    simp [hp]
  unfold PhaseRing.push PhaseRing.Few
  rw [if_neg hp']
  show (c.pushed ++ [_]).length ≤ c.executed.length + (intN - 1)
  rw [List.length_append, List.length_singleton]
  exact hlen

theorem consume_pushed (c : XhciRing) : c.consume.pushed = c.pushed := by
  unfold consume
  dsimp only
  split
  · split <;> rfl
  · rfl

theorem consume_pending (c : XhciRing) : c.consume.pending = c.pending := by
  unfold consume
  dsimp only
  split
  · split <;> rfl
  · rfl

theorem consume_executed_le (c : XhciRing) : c.executed.length ≤ c.consume.executed.length := by
  unfold consume
  dsimp only
  split
  · split
    · exact Nat.le_refl _
    · simp
  · exact Nat.le_refl _

end XhciRing

inductive HidStep where
  /-- The controller looks at the interrupt ring. -/
  | consume
  /-- The controller ends the interrupt transfer it is at, having written `data`. -/
  | complete (ptr : UInt64) (cc : UInt8) (data : List UInt8)
  /-- The controller posts any other event. -/
  | post (event : Trb)
  /-- The timer handler calls `take_hid_report`. -/
  | take
  deriving DecidableEq, Repr

namespace HidDriver

/-- As `init_unsafe` publishes it: the endpoint armed once. -/
def publish (slot epDb : UInt8) (ringPhys bufPhys : UInt64) : HidDriver :=
  { ready := true
    slot := slot
    epDb := epDb
    ring := (XhciRing.start .int ringPhys).arm bufPhys
    bufPhys := bufPhys
    buf := Vector.replicate 8 0
    events := [], dbgCount := 0, completed := 0, returned := [], succeeded := [] }

def takeHidReport (d : HidDriver) : HidDriver × Option HidReport :=
  if d.ready = false then (d, none)
  else
    match d.events with
    | [] => (d, none)
    | e :: rest =>
        let d := { d with events := rest }
        if e.event.trbType ≠ trbEvtTransfer ∨ e.event.slotId ≠ d.slot then (d, none)
        else if e.event.completionCode ≠ ccSuccess ∧ e.event.completionCode ≠ ccShortPkt then
          (d, none)
        else
          ({ d with dbgCount := d.dbgCount + 1, ring := d.ring.arm d.bufPhys }, some d.buf)

/-- A call, with what it returned kept next to the transfer it consumed. -/
def take (d : HidDriver) : HidDriver :=
  match d.takeHidReport with
  | (d', none) => d'
  | (d', some report) =>
      { d' with
        returned := d'.returned ++
          [((d.events.head?.bind (·.transfer)).map Prod.fst, report.toList)] }

/-- An end of a transfer the controller can come to: it is at one, it writes no more than
was asked for, and success means all of it. -/
def CanEnd (d : HidDriver) (cc : UInt8) (data : List UInt8) : Prop :=
  d.completed < d.ring.executed.length ∧ data.length ≤ 8 ∧ (cc = ccSuccess → data.length = 8)

instance (d : HidDriver) (cc : UInt8) (data : List UInt8) : Decidable (d.CanEnd cc data) :=
  inferInstanceAs (Decidable (_ ∧ _ ∧ (_ → _)))

/-- The event of an interrupt transfer. -/
def endEvent (d : HidDriver) (ptr : UInt64) (cc : UInt8) (data : List UInt8) : HidEvent :=
  { event := .event trbEvtTransfer ptr (UInt32.ofNat (8 - data.length)) cc d.slot d.epDb
    transfer := some (d.completed, data) }

def complete (d : HidDriver) (ptr : UInt64) (cc : UInt8) (data : List UInt8) : HidDriver :=
  if d.CanEnd cc data then
    { d with
      buf := overlay data d.buf
      events := d.events ++ [d.endEvent ptr cc data]
      completed := d.completed + 1
      succeeded :=
        if cc = ccSuccess ∨ cc = ccShortPkt then d.succeeded ++ [(some d.completed, data)]
        else d.succeeded }
  else d

def step (d : HidDriver) : HidStep → HidDriver
  | .consume => { d with ring := d.ring.consume }
  | .complete ptr cc data => d.complete ptr cc data
  | .post event => { d with events := d.events ++ [{ event := event, transfer := none }] }
  | .take => d.take

/-- `take_hid_report` is called until every posted event is consumed. -/
def drain (d : HidDriver) : HidDriver := HidDriver.take^[d.events.length] d

/-- With every event consumed, one TRB is queued and not completed, and the reports
returned are those of the successful transfers, each once. -/
def Good (d : HidDriver) : Prop :=
  d.drain.ring.pushed.length = d.drain.completed + 1 ∧ d.drain.returned = d.drain.succeeded

/-- The event this step posts is one `take_hid_report` is right about: an interrupt
transfer that succeeded with all eight bytes, or an event that is not a report. -/
def Expected (d : HidDriver) : HidStep → Prop
  | .complete _ cc data =>
      d.CanEnd cc data → (cc = ccSuccess ∨ cc = ccShortPkt) ∧ data.length = 8
  | .post event => isReport d.slot event = false
  | .consume => True
  | .take => True

instance (d : HidDriver) : (a : HidStep) → Decidable (d.Expected a)
  | .complete _ _ _ => inferInstanceAs (Decidable (_ → _ ∧ _))
  | .post _ => inferInstanceAs (Decidable (_ = _))
  | .consume => inferInstanceAs (Decidable True)
  | .take => inferInstanceAs (Decidable True)

variable {d : HidDriver}

/-! ### What draining comes to -/

/-- What a call makes of an event, `slot` and buffer being what they are. -/
def reportOf (slot : UInt8) (buf : HidReport) (e : HidEvent) : Option HidTransfer :=
  if isReport slot e.event then some (e.transfer.map Prod.fst, buf.toList) else none

/-- Number of events that count as reports. -/
def reports (d : HidDriver) : Nat := d.events.countP fun e => isReport d.slot e.event

theorem isReport_eq_true {slot : UInt8} {dw : Trb} :
    isReport slot dw = true ↔
      ¬ (dw.trbType ≠ trbEvtTransfer ∨ dw.slotId ≠ slot) ∧
      ¬ (dw.completionCode ≠ ccSuccess ∧ dw.completionCode ≠ ccShortPkt) := by
  unfold isReport
  simp only [Bool.and_eq_true, Bool.or_eq_true, beq_iff_eq]
  tauto

theorem take_nil (he : d.events = []) : d.take = d := by
  unfold take takeHidReport
  simp only [he]
  split <;> simp_all

theorem take_skip (hready : d.ready = true) {e : HidEvent} {rest : List HidEvent}
    (he : d.events = e :: rest) (hr : isReport d.slot e.event = false) :
    d.take = { d with events := rest } := by
  have hr' : ¬ isReport d.slot e.event = true := by simp [hr]
  rw [isReport_eq_true] at hr'
  unfold take takeHidReport
  simp only [hready, he]
  by_cases h₁ : e.event.trbType ≠ trbEvtTransfer ∨ e.event.slotId ≠ d.slot
  · simp [h₁]
  · by_cases h₂ : e.event.completionCode ≠ ccSuccess ∧ e.event.completionCode ≠ ccShortPkt
    · simp [h₁, h₂]
    · exact absurd ⟨h₁, h₂⟩ hr'

theorem take_report (hready : d.ready = true) {e : HidEvent} {rest : List HidEvent}
    (he : d.events = e :: rest) (hr : isReport d.slot e.event = true) :
    d.take = { d with
      events := rest, dbgCount := d.dbgCount + 1, ring := d.ring.arm d.bufPhys
      returned := d.returned ++ [(e.transfer.map Prod.fst, d.buf.toList)] } := by
  obtain ⟨h₁, h₂⟩ := isReport_eq_true.mp hr
  unfold take takeHidReport
  simp only [hready, he, if_neg h₁, if_neg h₂]
  rfl

/-- Draining arms once and returns once for each event that counts as a report, with the
buffer as it is now. -/
theorem drain_spec (hready : d.ready = true) :
    d.drain.events = [] ∧ d.drain.completed = d.completed ∧ d.drain.succeeded = d.succeeded ∧
    d.drain.ring.pushed.length = d.ring.pushed.length + d.reports ∧
    d.drain.returned = d.returned ++ d.events.filterMap (reportOf d.slot d.buf) := by
  unfold drain reports
  generalize hn : d.events.length = n
  induction n generalizing d with
  | zero =>
      have hnil := List.length_eq_zero_iff.mp hn
      simp [hnil]
  | succ n ih =>
      cases he : d.events with
      | nil => simp [he] at hn
      | cons e rest =>
          have hlen : rest.length = n := by simpa [he] using hn
          rw [Function.iterate_succ_apply]
          cases hr : isReport d.slot e.event with
          | false =>
              rw [take_skip hready he hr]
              have := ih (d := { d with events := rest }) hready hlen
              simpa [reportOf, hr] using this
          | true =>
              rw [take_report hready he hr]
              have := ih (d := { d with
                events := rest, dbgCount := d.dbgCount + 1, ring := d.ring.arm d.bufPhys
                returned := d.returned ++ [(e.transfer.map Prod.fst, d.buf.toList)] })
                hready hlen
              obtain ⟨h₁, h₂, h₃, h₄, h₅⟩ := this
              refine ⟨h₁, h₂, h₃, ?_, ?_⟩
              · rw [h₄]
                simp only [XhciRing.arm, List.length_append, List.length_singleton,
                  List.countP_cons, hr, if_true]
                omega
              · rw [h₅]
                simp [reportOf, hr]

theorem good_iff (hready : d.ready = true) :
    d.Good ↔ d.ring.pushed.length + d.reports = d.completed + 1 ∧
      d.returned ++ d.events.filterMap (reportOf d.slot d.buf) = d.succeeded := by
  obtain ⟨-, h₂, h₃, h₄, h₅⟩ := drain_spec hready
  unfold Good
  rw [h₂, h₃, h₄, h₅]

/-! ### The invariant -/

/-- The transfer an event stands for. -/
def finished (e : HidEvent) : Option HidTransfer := e.transfer.map fun t => (some t.1, t.2)

structure Inv (d : HidDriver) : Prop where
  ready : d.ready = true
  idle : d.ring.pending = false
  wellFormed : d.ring.WellFormed .int
  queue : (d.ring.phaseRing .int).Inv (intN - 1)
  started : d.completed ≤ d.ring.executed.length
  /-- One TRB is on its way round: queued, or completed with its event still to be read. -/
  armed : d.ring.pushed.length + d.reports = d.completed + 1
  /-- The events that count as reports are those of interrupt transfers, -/
  events : ∀ e ∈ d.events, isReport d.slot e.event = e.transfer.isSome
  /-- and the buffer still holds what such a transfer wrote. -/
  buffer : ∀ e ∈ d.events, ∀ n data, e.transfer = some (n, data) → d.buf.toList = data
  history : d.returned ++ d.events.filterMap finished = d.succeeded

theorem publish_inv (slot epDb : UInt8) (ringPhys bufPhys : UInt64) :
    (publish slot epDb ringPhys bufPhys).Inv := by
  have hstart : ((XhciRing.start .int ringPhys).phaseRing .int).Inv (intN - 1) := by
    rw [XhciRing.start_phaseRing]
    exact PhaseRing.start_inv _
  obtain ⟨hwf, hq⟩ := XhciRing.arm_inv (c := XhciRing.start .int ringPhys) bufPhys
    rfl (XhciRing.start_wellFormed ringPhys) hstart
    (by show 0 + 1 ≤ 0 + (intN - 1); decide)
  exact ⟨rfl, rfl, hwf, hq, Nat.zero_le _, rfl, by simp [publish], by simp [publish], rfl⟩

/-- An event that counts as a report is read the way it was meant. -/
theorem Inv.reportOf_eq (h : d.Inv) :
    d.events.filterMap (reportOf d.slot d.buf) = d.events.filterMap finished := by
  refine List.filterMap_congr fun e he => ?_
  unfold reportOf finished
  rw [h.events e he]
  cases ht : e.transfer with
  | none => rfl
  | some t =>
      obtain ⟨n, data⟩ := t
      rw [h.buffer e he n data ht]
      rfl

theorem Inv.good (h : d.Inv) : d.Good :=
  (good_iff h.ready).mpr ⟨h.armed, by rw [h.reportOf_eq]; exact h.history⟩

theorem Inv.consume (h : d.Inv) : (d.step .consume).Inv := by
  obtain ⟨hwf, hphase⟩ := h.wellFormed.consume
  refine ⟨h.ready, ?_, hwf, ?_, ?_, ?_, h.events, h.buffer, h.history⟩
  · show d.ring.consume.pending = false
    rw [XhciRing.consume_pending]
    exact h.idle
  · show (d.ring.consume.phaseRing .int).Inv (intN - 1)
    rw [hphase]
    exact h.queue.consume (by decide)
  · exact Nat.le_trans h.started d.ring.consume_executed_le
  · show d.ring.consume.pushed.length + d.reports = d.completed + 1
    rw [XhciRing.consume_pushed]
    exact h.armed

/-- At the end of a transfer, no report is waiting to be read. -/
theorem Inv.reports_eq_zero (h : d.Inv) (hlt : d.completed < d.ring.executed.length) :
    d.reports = 0 ∧ d.ring.pushed.length = d.completed + 1 := by
  have hle : d.ring.executed.length ≤ d.ring.pushed.length := h.queue.length_le
  have harmed := h.armed
  omega

theorem Inv.not_isReport (h : d.Inv) (hlt : d.completed < d.ring.executed.length) :
    ∀ e ∈ d.events, isReport d.slot e.event = false := by
  intro e he
  have hzero := (h.reports_eq_zero hlt).1
  unfold reports at hzero
  rw [List.countP_eq_zero] at hzero
  simpa using hzero e he

theorem endEvent_isReport (ptr : UInt64) (cc : UInt8) (data : List UInt8) :
    isReport d.slot (d.endEvent ptr cc data).event = (cc == ccSuccess || cc == ccShortPkt) := by
  unfold isReport endEvent
  simp [Trb.event_trbType _ _ _ _ _ (by decide : trbEvtTransfer.toNat < 64),
    Trb.event_slotId _ _ _ _ _ (by decide : trbEvtTransfer.toNat < 64)]

theorem Inv.complete (h : d.Inv) {ptr : UInt64} {cc : UInt8} {data : List UInt8}
    (hok : d.Expected (.complete ptr cc data)) : (d.step (.complete ptr cc data)).Inv := by
  show (d.complete ptr cc data).Inv
  unfold HidDriver.complete
  by_cases hend : d.CanEnd cc data
  swap
  · rw [if_neg hend]
    exact h
  obtain ⟨hcc, hlen⟩ := hok hend
  obtain ⟨hzero, hpushed⟩ := h.reports_eq_zero hend.1
  have hnone := h.not_isReport hend.1
  have hrep : isReport d.slot (d.endEvent ptr cc data).event = true := by
    rw [endEvent_isReport]
    simpa using hcc
  rw [if_pos hend, if_pos hcc]
  refine ⟨h.ready, h.idle, h.wellFormed, h.queue, hend.1, ?_, ?_, ?_, ?_⟩
  · show d.ring.pushed.length
      + (d.events ++ [d.endEvent ptr cc data]).countP (fun e => isReport d.slot e.event)
      = d.completed + 1 + 1
    rw [List.countP_append, List.countP_singleton, if_pos hrep, hpushed]
    unfold reports at hzero
    omega
  · intro e he
    rcases List.mem_append.mp he with he' | he'
    · exact h.events e he'
    · rw [List.mem_singleton.mp he']
      exact hrep
  · intro e he n data' ht
    rcases List.mem_append.mp he with he' | he'
    · have := h.events e he'
      rw [hnone e he', ht] at this
      exact absurd this (by simp)
    · rw [List.mem_singleton.mp he'] at ht
      have heq : data = data' := (Prod.mk.inj (Option.some.inj ht)).2
      show (overlay data d.buf).toList = data'
      rw [overlay_toList hlen, heq]
  · show d.returned ++ (d.events ++ [d.endEvent ptr cc data]).filterMap finished
      = d.succeeded ++ [(some d.completed, data)]
    rw [List.filterMap_append, ← List.append_assoc, h.history]
    rfl

theorem Inv.post (h : d.Inv) {event : Trb} (hok : isReport d.slot event = false) :
    (d.step (.post event)).Inv := by
  refine ⟨h.ready, h.idle, h.wellFormed, h.queue, h.started, ?_, ?_, ?_, ?_⟩
  · have harmed := h.armed
    unfold reports at harmed
    show d.ring.pushed.length
      + (d.events ++ [({ event := event, transfer := none } : HidEvent)]).countP
        (fun e => isReport d.slot e.event) = d.completed + 1
    rw [List.countP_append, List.countP_singleton, if_neg (by simp [hok])]
    exact harmed
  · intro e he
    rcases List.mem_append.mp he with he' | he'
    · exact h.events e he'
    · rw [List.mem_singleton.mp he']
      exact hok
  · intro e he n data ht
    rcases List.mem_append.mp he with he' | he'
    · exact h.buffer e he' n data ht
    · rw [List.mem_singleton.mp he'] at ht
      exact absurd ht (by simp)
  · show d.returned ++ (d.events ++ [_]).filterMap finished = d.succeeded
    rw [List.filterMap_append, ← List.append_assoc, h.history]
    exact List.append_nil _

theorem Inv.take (h : d.Inv) : (d.step .take).Inv := by
  show d.take.Inv
  cases he : d.events with
  | nil =>
      rw [take_nil he]
      exact h
  | cons e rest =>
      have hmem : e ∈ d.events := by simp [he]
      have hrest : ∀ e' ∈ rest, e' ∈ d.events := fun e' he' => by simp [he, he']
      have harmed := h.armed
      have hhist := h.history
      unfold reports at harmed
      rw [he, List.countP_cons] at harmed
      rw [he] at hhist
      cases hr : isReport d.slot e.event with
      | false =>
          rw [take_skip h.ready he hr]
          refine ⟨h.ready, h.idle, h.wellFormed, h.queue, h.started, ?_,
            fun e' he' => h.events e' (hrest e' he'),
            fun e' he' => h.buffer e' (hrest e' he'), ?_⟩
          · show d.ring.pushed.length + rest.countP (fun e => isReport d.slot e.event)
              = d.completed + 1
            simpa [hr] using harmed
          · have hnone : finished e = none := by
              have := h.events e hmem
              rw [hr] at this
              unfold finished
              rw [Option.isSome_eq_false_iff.mp this.symm |> Option.isNone_iff_eq_none.mp]
              rfl
            rwa [List.filterMap_cons, hnone] at hhist
      | true =>
          rw [take_report h.ready he hr]
          rw [hr, if_pos rfl] at harmed
          obtain ⟨⟨n, data⟩, ht⟩ : ∃ t, e.transfer = some t := by
            have := h.events e hmem
            rw [hr] at this
            exact Option.isSome_iff_exists.mp this.symm
          have hstarted := h.started
          obtain ⟨hwf, hq⟩ := XhciRing.arm_inv d.bufPhys h.idle h.wellFormed h.queue
            (by unfold intN; omega)
          refine ⟨h.ready, h.idle, hwf, hq, h.started, ?_,
            fun e' he' => h.events e' (hrest e' he'),
            fun e' he' => h.buffer e' (hrest e' he'), ?_⟩
          · show (d.ring.pushed ++ [_]).length + rest.countP (fun e => isReport d.slot e.event)
              = d.completed + 1
            rw [List.length_append, List.length_singleton]
            omega
          · rw [← hhist]
            have hfin : finished e = some (some n, data) := by
              unfold finished
              rw [ht]
              rfl
            rw [List.filterMap_cons, hfin, ht, h.buffer e hmem n data ht]
            simp

theorem Inv.step (h : d.Inv) {a : HidStep} (hok : d.Expected a) : (d.step a).Inv := by
  cases a with
  | consume => exact h.consume
  | complete ptr cc data => exact h.complete hok
  | post event => exact h.post hok
  | take => exact h.take

/-! ### The three events it is wrong about -/

/-- A failed transfer is never armed again. -/
theorem Inv.failed (h : d.Inv) {ptr : UInt64} {cc : UInt8} {data : List UInt8}
    (hend : d.CanEnd cc data) (hcc : ¬ (cc = ccSuccess ∨ cc = ccShortPkt)) :
    ¬ (d.step (.complete ptr cc data)).Good := by
  obtain ⟨hzero, hpushed⟩ := h.reports_eq_zero hend.1
  have hrep : isReport d.slot (d.endEvent ptr cc data).event = false := by
    rw [endEvent_isReport]
    simpa using hcc
  show ¬ (d.complete ptr cc data).Good
  unfold HidDriver.complete
  rw [if_pos hend, if_neg hcc]
  intro hgood
  have hbad := ((good_iff (by exact h.ready)).mp hgood).1
  have hbad' : d.ring.pushed.length
      + (d.events ++ [d.endEvent ptr cc data]).countP (fun e => isReport d.slot e.event)
      = d.completed + 1 + 1 := hbad
  rw [List.countP_append, List.countP_singleton, if_neg (by simp [hrep]), hpushed] at hbad'
  unfold reports at hzero
  omega

/-- A short transfer returns bytes it did not write. -/
theorem Inv.short (h : d.Inv) {ptr : UInt64} {cc : UInt8} {data : List UInt8}
    (hend : d.CanEnd cc data) (hcc : cc = ccSuccess ∨ cc = ccShortPkt)
    (hlen : data.length ≠ 8) : ¬ (d.step (.complete ptr cc data)).Good := by
  have hnone := h.not_isReport hend.1
  have hrep : isReport d.slot (d.endEvent ptr cc data).event = true := by
    rw [endEvent_isReport]
    simpa using hcc
  show ¬ (d.complete ptr cc data).Good
  unfold HidDriver.complete
  rw [if_pos hend, if_pos hcc]
  intro hgood
  have hbad := ((good_iff (by exact h.ready)).mp hgood).2
  have hbad' : d.returned ++ (d.events ++ [d.endEvent ptr cc data]).filterMap
      (reportOf d.slot (overlay data d.buf)) = d.succeeded ++ [(some d.completed, data)] := hbad
  have hold : d.events.filterMap (reportOf d.slot (overlay data d.buf)) = [] := by
    rw [List.filterMap_eq_nil_iff]
    intro e he
    unfold reportOf
    rw [if_neg (by simp [hnone e he])]
  have hnew : reportOf d.slot (overlay data d.buf) (d.endEvent ptr cc data)
      = some (some d.completed, (overlay data d.buf).toList) := if_pos hrep
  rw [List.filterMap_append, hold, List.nil_append, List.filterMap_cons, hnew,
    List.filterMap_nil] at hbad'
  have hlast := congrArg (fun l => l.getLast?.map fun t => t.2.length) hbad'
  simp only [List.getLast?_concat, Option.map_some, Option.some_inj, Vector.length_toList] at hlast
  exact hlen hlast.symm

/-- An event of EP0 arms the endpoint a second time. -/
theorem Inv.stray (h : d.Inv) {event : Trb} (hrep : isReport d.slot event = true) :
    ¬ (d.step (.post event)).Good := by
  intro hgood
  have hbad := ((good_iff (by exact h.ready)).mp hgood).1
  have harmed := h.armed
  have hbad' : d.ring.pushed.length
      + (d.events ++ [({ event := event, transfer := none } : HidEvent)]).countP
        (fun e => isReport d.slot e.event) = d.completed + 1 := hbad
  rw [List.countP_append, List.countP_singleton, if_pos hrep] at hbad'
  unfold reports at harmed
  omega

theorem Inv.unexpected (h : d.Inv) {a : HidStep} (hbad : ¬ d.Expected a) : ¬ (d.step a).Good := by
  cases a with
  | consume => exact absurd trivial hbad
  | take => exact absurd trivial hbad
  | post event =>
      refine h.stray ?_
      have : ¬ isReport d.slot event = false := hbad
      simpa using this
  | complete ptr cc data =>
      have hbad' : ¬ (d.CanEnd cc data → (cc = ccSuccess ∨ cc = ccShortPkt) ∧ data.length = 8) :=
        hbad
      rw [Classical.not_imp] at hbad'
      obtain ⟨hend, hn⟩ := hbad'
      by_cases hcc : cc = ccSuccess ∨ cc = ccShortPkt
      · exact h.short hend hcc fun hlen => hn ⟨hcc, hlen⟩
      · exact h.failed hend hcc

/--
**One TRB armed, each report returned once.**  A run of the published keyboard is right
in every state it visits exactly when each event the controller posts is an interrupt
transfer that succeeded with all its bytes, or no report at all: not a failed interrupt
transfer, not a shorter one, and not a successful event of EP0.
-/
theorem one_armed_iff {slot epDb : UInt8} {ringPhys bufPhys : UInt64}
    {trace : List (HidDriver × HidStep)}
    (hrun : Run (Next step) (publish slot epDb ringPhys bufPhys) trace d) :
    (∀ t ∈ visited trace d, t.Good) ↔ ∀ e ∈ trace, e.1.Expected e.2 := by
  refine hrun.good_iff (publish_inv slot epDb ringPhys bufPhys) (fun t h => h.good) ?_ ?_
  · intro s a s' h hok hs
    rw [← show s.step a = s' from hs]
    exact h.step hok
  · intro s a s' h hbad hs
    rw [← show s.step a = s' from hs]
    exact h.unexpected hbad

/-- The key A pressed and released, with an event of a port in between. -/
def pressed : List HidStep :=
  [.consume, .consume, .complete 0x2000 ccSuccess [0, 0, 4, 0, 0, 0, 0, 0],
    .post (.event 34 0x01000000 0 1 0 0), .take, .consume, .consume,
    .complete 0x2010 ccSuccess [0, 0, 0, 0, 0, 0, 0, 0], .take, .take]

/-- Five times over: ten reports, and so more than a lap of the ring of seven. -/
def pressedOften : List HidStep := (List.replicate 5 pressed).flatten

theorem one_armed_one_report :
    ∃ (trace : List (HidDriver × HidStep)) (d : HidDriver),
      Run (Next step) (publish 1 3 0x2000 0x3000) trace d ∧ d.completed = 10 ∧
      d.ring.pushed.length = 11 ∧ ∀ t ∈ visited trace d, t.Good :=
  ⟨_, _, Run.ofActions step (publish 1 3 0x2000 0x3000) pressedOften, by decide +kernel,
    by decide +kernel,
    (one_armed_iff (Run.ofActions step (publish 1 3 0x2000 0x3000) pressedOften)).mpr
      (by decide +kernel)⟩

/-- The controller ends the armed transfer with a USB transaction error. -/
def failedReport : List HidStep := [.consume, .complete 0x2000 4 [], .take]

/-- After one failed transfer every event is consumed and nothing is armed. -/
theorem none_armed_after_failure :
    ∃ (trace : List (HidDriver × HidStep)) (d : HidDriver),
      Run (Next step) (publish 1 3 0x2000 0x3000) trace d ∧
      d.events = [] ∧ d.ring.pushed.length = 1 ∧ d.completed = 1 :=
  ⟨_, _, Run.ofActions step (publish 1 3 0x2000 0x3000) failedReport, by decide⟩

end HidDriver

end Amaterasu
