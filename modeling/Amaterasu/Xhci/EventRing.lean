/-
The event ring and its two consumers: `evt_wait` while `init_unsafe` runs, and
`take_hid_report` afterwards.

The controller writes events with its cycle bit and keeps off the slot at the dequeue
pointer when the ring is full, going by what the driver last wrote to ERDP.  The first
consumer keeps its index and cycle in a local `EvtState`, the second in two statics;
`init_unsafe` copies the one to the other before it sets `KBD_READY`.  Both test the
cycle bit of the slot they are at, move on, and write ERDP.

Read through cycle bits, this is a `PostedRing`, across the hand-over.
-/
import Amaterasu.Lib.PostedRing
import Amaterasu.Xhci.TransferRing

namespace Amaterasu

def evtN : Nat := 64

/-- `EvtState`; also `KBD_EVT_DEQ` and `KBD_EVT_CYC`. -/
structure EvtState where
  deq : Nat
  cycle : UInt32
  deriving DecidableEq, Repr

/-- One look of `evt_wait` at the ring: the event, and the state behind it. -/
def evtWaitLook (r : RingMem) (st : EvtState) : Option (Trb × EvtState) :=
  let dw := r st.deq
  if dw.cycle = st.cycle then
    let deq := st.deq + 1
    some (dw, if deq ≥ evtN then { deq := 0, cycle := st.cycle ^^^ 1 } else { st with deq := deq })
  else none

/-- The look of `take_hid_report`. -/
def takeHidReportLook (r : RingMem) (deq : Nat) (cycle : UInt32) : Option (Trb × Nat × UInt32) :=
  let dw := r deq
  if dw.cycle ≠ cycle then none
  else
    let newDeq := if deq + 1 ≥ evtN then 0 else deq + 1
    let newCyc := if deq + 1 ≥ evtN then cycle ^^^ 1 else cycle
    some (dw, newDeq, newCyc)

/-- What both write to ERDP: the new position, with EHB set. -/
def erdpValue (evtPhys deq : Nat) : Nat := (evtPhys + deq * 16) ||| (1 <<< 3)

/-- The ring, the controller, both consumers, and the history. -/
structure EventRing where
  mem : RingMem
  evtPhys : Nat
  /-- The controller's index and producer cycle state. -/
  enq : Nat
  pcs : UInt32
  /-- The local state of `init_unsafe`. -/
  es : EvtState
  /-- `KBD_READY`. -/
  ready : Bool
  /-- `KBD_EVT_DEQ` and `KBD_EVT_CYC`. -/
  kbd : EvtState
  /-- An event is taken and ERDP not written yet. -/
  unposted : Bool
  /-- Events consumed when ERDP was last written. -/
  posted : Nat
  /-- Values written to ERDP. -/
  erdps : List Nat
  written : List Trb
  consumed : List Trb

inductive EventRingStep where
  /-- The controller has an event to write. -/
  | write (event : Trb)
  | evtWait
  | takeHidReport
  /-- The consumer writes ERDP. -/
  | post
  /-- `init_unsafe` stores its state and sets `KBD_READY`. -/
  | handOver
  deriving DecidableEq, Repr

namespace EventRing

/-- As `init_unsafe` sets it up. -/
def start (evtPhys : Nat) : EventRing :=
  { mem := fun _ => Trb.zero
    evtPhys := evtPhys
    enq := 0, pcs := 1
    es := { deq := 0, cycle := 1 }
    ready := false
    kbd := { deq := 0, cycle := 1 }
    unposted := false, posted := 0, erdps := [], written := [], consumed := [] }

/-- The state of the consumer whose turn it is. -/
def consumer (s : EventRing) : EvtState := if s.ready then s.kbd else s.es

/-- The controller writes an event, unless the ring is full. -/
def write (s : EventRing) (event : Trb) : EventRing :=
  if s.written.length = s.posted + evtN then s
  else
    { s with
      mem := Function.update s.mem s.enq (event.withCycle s.pcs)
      enq := if s.enq + 1 = evtN then 0 else s.enq + 1
      pcs := if s.enq + 1 = evtN then s.pcs ^^^ 1 else s.pcs
      written := s.written ++ [event.withCycle s.pcs] }

def evtWait (s : EventRing) : EventRing :=
  if s.ready ∨ s.unposted then s
  else
    match evtWaitLook s.mem s.es with
    | none => s
    | some (dw, es) => { s with es := es, unposted := true, consumed := s.consumed ++ [dw] }

def takeHidReport (s : EventRing) : EventRing :=
  if s.ready = false ∨ s.unposted then s
  else
    match takeHidReportLook s.mem s.kbd.deq s.kbd.cycle with
    | none => s
    | some (dw, deq, cycle) =>
        { s with
          kbd := { deq := deq, cycle := cycle }
          unposted := true
          consumed := s.consumed ++ [dw] }

def post (s : EventRing) : EventRing :=
  if s.unposted then
    { s with
      unposted := false
      posted := s.consumed.length
      erdps := s.erdps ++ [erdpValue s.evtPhys s.consumer.deq] }
  else s

def handOver (s : EventRing) : EventRing :=
  if s.ready ∨ s.unposted then s else { s with ready := true, kbd := s.es }

def step (s : EventRing) : EventRingStep → EventRing
  | .write event => s.write event
  | .evtWait => s.evtWait
  | .takeHidReport => s.takeHidReport
  | .post => s.post
  | .handOver => s.handOver

/-! ### Both consumers are the same -/

/-- One look of either consumer: the event and the state behind it. -/
def look (s : EventRing) : Option (Trb × EvtState) := evtWaitLook s.mem s.consumer

theorem takeHidReportLook_eq (r : RingMem) (st : EvtState) :
    (takeHidReportLook r st.deq st.cycle).map (fun t => (t.1, { deq := t.2.1, cycle := t.2.2 }))
      = evtWaitLook r st := by
  unfold takeHidReportLook evtWaitLook
  by_cases hcycle : (r st.deq).cycle = st.cycle
  · by_cases hwrap : st.deq + 1 ≥ evtN
    · simp [hcycle, hwrap]
    · simp [hcycle, hwrap]
  · simp [hcycle]

/-- The consumer takes what it looks at. -/
def consume (s : EventRing) : EventRing :=
  if s.unposted then s
  else
    match s.look with
    | none => s
    | some (dw, st) =>
        { s with
          es := if s.ready then s.es else st
          kbd := if s.ready then st else s.kbd
          unposted := true
          consumed := s.consumed ++ [dw] }

variable {s : EventRing}

/-- Whichever consumer it is, its state is the one behind the event. -/
theorem consumer_taken (s : EventRing) (st : EvtState) (consumed : List Trb) :
    ({ s with
        es := if s.ready then s.es else st
        kbd := if s.ready then st else s.kbd
        unposted := true
        consumed := consumed } : EventRing).consumer = st := by
  unfold consumer
  dsimp only
  split
  · rfl
  · rfl

theorem evtWait_eq (hready : s.ready = false) : s.evtWait = s.consume := by
  unfold evtWait consume look consumer
  rw [hready]
  by_cases hunposted : s.unposted = true
  · simp [hunposted]
  · simp only [hunposted, Bool.false_eq_true, or_self, if_false]

theorem takeHidReport_eq (hready : s.ready = true) : s.takeHidReport = s.consume := by
  unfold takeHidReport consume look consumer
  rw [hready, ← takeHidReportLook_eq]
  by_cases hunposted : s.unposted = true
  · simp [hunposted]
  · simp only [hunposted, Bool.true_eq_false, Bool.false_eq_true, or_self, if_false, if_true]
    rcases takeHidReportLook s.mem s.kbd.deq s.kbd.cycle with - | ⟨dw, deq, cycle⟩
    · rfl
    · rfl

/-! ### The ring read through its cycle bits -/

/-- The ring as both ends see it. -/
def postedRing (s : EventRing) : PostedRing Trb :=
  { slot := fun i => (s.mem i, XhciRing.phase (s.mem i).cycle)
    enq := s.enq
    phase := XhciRing.phase s.pcs
    deq := s.consumer.deq
    expects := XhciRing.phase s.consumer.cycle
    unposted := s.unposted
    posted := s.posted
    written := s.written
    taken := s.consumed }

structure Inv (s : EventRing) : Prop where
  pcs : s.pcs = 0 ∨ s.pcs = 1
  cycle : s.consumer.cycle = 0 ∨ s.consumer.cycle = 1
  ring : s.postedRing.Inv evtN
  /-- Every value of ERDP so far was the position behind the event taken before it. -/
  erdps : s.erdps = (List.range s.posted).map fun i => erdpValue s.evtPhys ((i + 1) % evtN)

theorem start_postedRing (evtPhys : Nat) :
    (start evtPhys).postedRing = PostedRing.start Trb.zero := by
  have hblank : XhciRing.phase Trb.zero.cycle = false := by decide
  unfold postedRing PostedRing.start start
  simp only [hblank]
  rfl

theorem start_inv (evtPhys : Nat) : (start evtPhys).Inv :=
  ⟨Or.inr rfl, Or.inr rfl, by rw [start_postedRing]; exact PostedRing.start_inv _, rfl⟩

/-- The next position of either end. -/
theorem advance_phase (pos : Nat) {c : UInt32} (hc : c = 0 ∨ c = 1) :
    PostedRing.advance evtN pos (XhciRing.phase c)
      = (if pos + 1 = evtN then 0 else pos + 1,
          XhciRing.phase (if pos + 1 = evtN then c ^^^ 1 else c)) := by
  unfold PostedRing.advance
  split
  · rw [XhciRing.phase_toggle hc]
  · rfl

theorem Inv.write (h : s.Inv) (event : Trb) : (s.write event).Inv := by
  have hring := h.ring.write (by decide) (event.withCycle s.pcs)
  unfold EventRing.write
  unfold PostedRing.write at hring
  by_cases hfull : s.written.length = s.posted + evtN
  · rw [if_pos hfull]
    exact h
  · have hfull' : ¬ s.postedRing.written.length = s.postedRing.posted + evtN := hfull
    rw [if_neg hfull]
    rw [if_neg hfull'] at hring
    refine ⟨?_, h.cycle, ?_, h.erdps⟩
    · dsimp only
      split
      · exact XhciRing.toggle_zero_or_one h.pcs
      · exact h.pcs
    · convert hring using 1
      have hadvance := advance_phase s.enq h.pcs
      unfold postedRing consumer
      dsimp only
      rw [hadvance]
      congr 1
      funext i
      by_cases hi : i = s.enq
      · rw [hi, Function.update_self, Function.update_self, Trb.withCycle_cycle _ h.pcs]
      · rw [Function.update_of_ne hi, Function.update_of_ne hi]

/-- What a look finds is what the abstract consumer would take. -/
theorem Inv.look (h : s.Inv) :
    s.look = if (s.postedRing.slot s.postedRing.deq).2 = s.postedRing.expects then
        some (s.mem s.consumer.deq,
          { deq := if s.consumer.deq + 1 = evtN then 0 else s.consumer.deq + 1
            cycle := if s.consumer.deq + 1 = evtN then s.consumer.cycle ^^^ 1
              else s.consumer.cycle })
      else none := by
  have hdeq : s.consumer.deq < evtN := by
    rw [show s.consumer.deq = s.consumed.length % evtN from h.ring.deq]
    exact Nat.mod_lt _ (by decide)
  have hvalid : (s.postedRing.slot s.postedRing.deq).2 = s.postedRing.expects ↔
      (s.mem s.consumer.deq).cycle = s.consumer.cycle :=
    XhciRing.phase_inj (XhciRing.cycle_zero_or_one _) h.cycle
  have hwrap : s.consumer.deq + 1 ≥ evtN ↔ s.consumer.deq + 1 = evtN := by omega
  unfold EventRing.look evtWaitLook
  simp only [hvalid, hwrap]
  split
  · split
    · rfl
    · rfl
  · rfl

theorem Inv.consume (h : s.Inv) : s.consume.Inv := by
  have hring := h.ring.take (by decide)
  unfold EventRing.consume
  unfold PostedRing.take at hring
  by_cases hunposted : s.unposted = true
  · rw [if_pos hunposted]
    exact h
  · have hfalse : s.unposted = false := by simpa using hunposted
    rw [if_neg hunposted, h.look]
    by_cases hvalid : (s.postedRing.slot s.postedRing.deq).2 = s.postedRing.expects
    · rw [if_pos ⟨hfalse, hvalid⟩] at hring
      simp only [if_pos hvalid]
      refine ⟨h.pcs, ?_, ?_, h.erdps⟩
      · rw [consumer_taken]
        dsimp only
        split
        · exact XhciRing.toggle_zero_or_one h.cycle
        · exact h.cycle
      · convert hring using 1
        have hadvance := advance_phase s.consumer.deq h.cycle
        unfold postedRing
        rw [consumer_taken]
        dsimp only
        rw [hadvance]
    · simp only [if_neg hvalid]
      exact h

theorem Inv.post (h : s.Inv) : s.post.Inv := by
  unfold EventRing.post
  split
  · rename_i hunposted
    refine ⟨h.pcs, h.cycle, h.ring.post, ?_⟩
    have hposted : s.posted + 1 = s.consumed.length := by
      have := h.ring.posted
      simpa only [postedRing, hunposted, if_true] using this
    have hdeq : s.consumer.deq = s.consumed.length % evtN := h.ring.deq
    show s.erdps ++ [erdpValue s.evtPhys s.consumer.deq] = _
    rw [← hposted, List.range_succ, List.map_append, ← h.erdps, hdeq, ← hposted]
    rfl
  · exact h

theorem Inv.handOver (h : s.Inv) : s.handOver.Inv := by
  unfold EventRing.handOver
  split
  · exact h
  · rename_i hready
    have hfalse : s.ready = false := by
      rcases hr : s.ready with - | -
      · rfl
      · exact absurd (Or.inl hr) hready
    have hcycle := h.cycle
    have hring := h.ring
    unfold postedRing consumer at hring
    unfold consumer at hcycle
    rw [hfalse] at hring hcycle
    exact ⟨h.pcs, hcycle, hring, h.erdps⟩

theorem Inv.step (h : s.Inv) (e : EventRingStep) : (s.step e).Inv := by
  rcases e with event | - | - | - | -
  · exact h.write event
  · show s.evtWait.Inv
    rcases hready : s.ready with - | -
    · rw [evtWait_eq hready]
      exact h.consume
    · unfold evtWait
      rw [if_pos (Or.inl hready)]
      exact h
  · show s.takeHidReport.Inv
    rcases hready : s.ready with - | -
    · unfold takeHidReport
      rw [if_pos (Or.inl hready)]
      exact h
    · rw [takeHidReport_eq hready]
      exact h.consume
  · exact h.post
  · exact h.handOver

theorem step_evtPhys (s : EventRing) (e : EventRingStep) : (s.step e).evtPhys = s.evtPhys := by
  rcases e with event | - | - | - | -
  · show (s.write event).evtPhys = s.evtPhys
    unfold write
    split
    · rfl
    · rfl
  · show s.evtWait.evtPhys = s.evtPhys
    unfold evtWait
    split
    · rfl
    · split
      · rfl
      · rfl
  · show s.takeHidReport.evtPhys = s.evtPhys
    unfold takeHidReport
    split
    · rfl
    · split
      · rfl
      · rfl
  · show s.post.evtPhys = s.evtPhys
    unfold post
    split
    · rfl
    · rfl
  · show s.handOver.evtPhys = s.evtPhys
    unfold handOver
    split
    · rfl
    · rfl

theorem run_evtPhys {evtPhys : Nat} {trace : List (EventRing × EventRingStep)}
    (hrun : Run (Next step) (start evtPhys) trace s) : s.evtPhys = evtPhys :=
  hrun.always_next (I := fun s => s.evtPhys = evtPhys) rfl
    fun s e h => (step_evtPhys s e).trans h

/--
**One queue for two consumers.**  Whatever the controller writes and whenever the driver
looks, before and after the hand-over: what has been consumed is what was written first,
in order; the next look finds the next event, if one has been written; no more than a
lap is outstanding; and ERDP was written once for each event consumed, with the position
behind it.
-/
theorem event_ring_fifo {evtPhys : Nat} {trace : List (EventRing × EventRingStep)}
    (hrun : Run (Next step) (start evtPhys) trace s) :
    s.consumed <+: s.written ∧
    s.look.map Prod.fst = s.written[s.consumed.length]? ∧
    s.written.length ≤ s.consumed.length + evtN ∧
    s.erdps = ((List.range s.posted).map fun i => (evtPhys + (i + 1) % evtN * 16) ||| (1 <<< 3)) ∧
    s.posted + (if s.unposted then 1 else 0) = s.consumed.length := by
  have h : s.Inv := hrun.always_next (start_inv evtPhys) fun s e hs => hs.step e
  refine ⟨h.ring.isPrefix, ?_, h.ring.outstanding, ?_, h.ring.posted⟩
  · have hvalid := h.ring.valid_iff (by decide)
    rw [h.look]
    split
    · rename_i hphase
      have hlt : s.consumed.length < s.written.length := hvalid.mp hphase
      have hnext : s.mem s.consumer.deq = s.written[s.consumed.length] := h.ring.next_eq hlt
      rw [List.getElem?_eq_getElem hlt, ← hnext]
      rfl
    · rename_i hphase
      have hge : s.written.length ≤ s.consumed.length :=
        Nat.not_lt.mp fun hlt => hphase (hvalid.mpr hlt)
      rw [List.getElem?_eq_none hge]
      rfl
  · rw [h.erdps, run_evtPhys hrun]
    rfl

/-- Two events, one before the hand-over and one after it. -/
theorem event_ring_fifo_two : ∃ (trace : List (EventRing × EventRingStep)) (s : EventRing),
    Run (Next step) (start 4096) trace s ∧
    trace.map Prod.snd = [.write (.event trbEvtCmd 0 0 ccSuccess 1 0), .evtWait, .post, .handOver,
      .write (.event trbEvtTransfer 0 0 ccSuccess 1 3), .takeHidReport, .post] ∧
    s.ready = true ∧ s.consumed.length = 2 ∧ s.erdps = [4096 + 16 + 8, 4096 + 32 + 8] ∧
    s.consumed <+: s.written := by
  have hrun := Run.ofActions step (start 4096) [.write (.event trbEvtCmd 0 0 ccSuccess 1 0),
    .evtWait, .post, .handOver, .write (.event trbEvtTransfer 0 0 ccSuccess 1 3),
    .takeHidReport, .post]
  exact ⟨_, _, hrun, rfl, by decide +kernel, by decide +kernel, by decide +kernel,
    (event_ring_fifo hrun).1⟩

end EventRing

end Amaterasu
