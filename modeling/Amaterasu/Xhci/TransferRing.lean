/-
The rings the driver fills: `cmd_push`, `ep0_push` and `arm_kbd_ep_raw` in
`hal/src/xhci.rs`.

All three write a TRB with the producer's cycle bit and, behind the last usable slot,
re-stamp the Link TRB and wrap.  The two writes are two steps here, and the controller
may look at the ring between them.  It follows the xHCI rule: the TRB at its dequeue
index is valid when its cycle bit is the consumer cycle state, and a valid Link TRB
sends it back to index 0, toggling that state.

Read through cycle bits, this is a `PhaseRing` with one slot less than the ring has.
-/
import Amaterasu.Lib.PhaseRing
import Amaterasu.Xhci.Trb

namespace Amaterasu

def cmdN : Nat := 16
def ep0N : Nat := 8
def intN : Nat := 8

/-- The TRBs of a ring. -/
abbrev RingMem := Nat → Trb

/-- `CmdState` and `Ep0State`; the keyboard's `KBD_TR_ENQ` and `KBD_TR_CYC`. -/
structure ProducerState where
  enq : Nat
  cycle : UInt32
  deriving DecidableEq, Repr

/-- The first write of a push. -/
def writeTrb (r : RingMem) (st : ProducerState) (dw : Trb) : RingMem :=
  Function.update r st.enq (dw.withCycle st.cycle)

/-- The rest of a push. -/
def updateLink (n : Nat) (r : RingMem) (st : ProducerState) : RingMem × ProducerState :=
  if st.enq + 1 = n - 1 then
    (Function.update r (n - 1) ((r (n - 1)).withCycle st.cycle),
      { enq := 0, cycle := st.cycle ^^^ 1 })
  else (r, { st with enq := st.enq + 1 })

def ringPush (n : Nat) (r : RingMem) (st : ProducerState) (dw : Trb) : RingMem × ProducerState :=
  updateLink n (writeTrb r st dw) st

def cmdPush (r : RingMem) (st : ProducerState) (dw : Trb) : RingMem × ProducerState :=
  ringPush cmdN r st dw

def ep0Push (r : RingMem) (st : ProducerState) (dw : Trb) : RingMem × ProducerState :=
  ringPush ep0N r st dw

/-- The Normal TRB of `arm_kbd_ep_raw`: 8 bytes, interrupt on completion. -/
def normalTrb (bufPhys : UInt64) (cycle : UInt32) : Trb :=
  { dw0 := bufPhys.toUInt32
    dw1 := (bufPhys >>> 32).toUInt32
    dw2 := 8
    dw3 := (trbNormal <<< 10) ||| ((1 : UInt32) <<< 5) ||| cycle }

/-- The first write of `arm_kbd_ep_raw`. -/
def armTrb (tr : RingMem) (enq : Nat) (cycle : UInt32) (bufPhys : UInt64) : RingMem :=
  Function.update tr enq (normalTrb bufPhys cycle)

/-- The rest of `arm_kbd_ep_raw`; the new index and cycle are returned. -/
def armLink (tr : RingMem) (enq : Nat) (cycle : UInt32) : RingMem × Nat × UInt32 :=
  let linkIdx := intN - 1
  let newEnq := enq + 1
  if newEnq = linkIdx then
    (Function.update tr linkIdx ((tr linkIdx).withCycle cycle), 0, cycle ^^^ 1)
  else (tr, newEnq, cycle)

def armKbdEpRaw (tr : RingMem) (enq : Nat) (cycle : UInt32) (bufPhys : UInt64) :
    RingMem × Nat × UInt32 :=
  armLink (armTrb tr enq cycle bufPhys) enq cycle

theorem normalTrb_eq (bufPhys : UInt64) (cycle : UInt32) :
    normalTrb bufPhys cycle = (normalTrb bufPhys 0).withCycle cycle := by
  have hbits : (trbNormal <<< 10 ||| (1 : UInt32) <<< 5 ||| (0 : UInt32)) &&& ~~~(1 : UInt32)
      = trbNormal <<< 10 ||| (1 : UInt32) <<< 5 := by decide
  unfold normalTrb Trb.withCycle
  simp only [hbits]

theorem armTrb_eq (tr : RingMem) (st : ProducerState) (bufPhys : UInt64) :
    armTrb tr st.enq st.cycle bufPhys = writeTrb tr st (normalTrb bufPhys 0) := by
  unfold armTrb writeTrb
  rw [normalTrb_eq]

theorem armLink_eq (tr : RingMem) (st : ProducerState) :
    (let r := armLink tr st.enq st.cycle
     (r.1, { enq := r.2.1, cycle := r.2.2 : ProducerState })) = updateLink intN tr st := by
  unfold armLink updateLink
  by_cases h : st.enq + 1 = intN - 1
  · simp only [if_pos h]
  · simp only [if_neg h]

/-- The Link TRB: back to the ring's start, toggle cycle, cycle bit 1. -/
def linkTrb (ringPhys : UInt64) : Trb :=
  { dw0 := ringPhys.toUInt32
    dw1 := (ringPhys >>> 32).toUInt32
    dw2 := 0
    dw3 := (trbLink <<< 10) ||| ((1 : UInt32) <<< 1) ||| 1 }

/-- The ring as `init_unsafe` leaves it: zeroed, and a Link TRB in the last slot. -/
def initRing (n : Nat) (ringPhys : UInt64) : RingMem :=
  Function.update (fun _ => Trb.zero) (n - 1) (linkTrb ringPhys)

theorem initRing_last (n : Nat) (ringPhys : UInt64) :
    initRing n ringPhys (n - 1) = linkTrb ringPhys := Function.update_self ..

theorem initRing_of_lt {n i : Nat} (h : i < n - 1) (ringPhys : UInt64) :
    initRing n ringPhys i = Trb.zero := Function.update_of_ne (Nat.ne_of_lt h) _ _

theorem linkTrb_trbType (ringPhys : UInt64) : (linkTrb ringPhys).trbType = trbLink := by
  show ((trbLink <<< 10 ||| (1 : UInt32) <<< 1 ||| 1) >>> (10 : UInt32)) &&& (0x3F : UInt32)
    = trbLink
  decide

theorem linkTrb_togglesCycle (ringPhys : UInt64) : (linkTrb ringPhys).togglesCycle = true := by
  show ((trbLink <<< 10 ||| (1 : UInt32) <<< 1 ||| 1) &&& 2 != 0) = true
  decide

theorem linkTrb_cycle (ringPhys : UInt64) : (linkTrb ringPhys).cycle = 1 := by
  show (trbLink <<< 10 ||| (1 : UInt32) <<< 1 ||| 1) &&& 1 = 1
  decide

/-! ### One model for the three producers -/

/-- A TRB a caller hands to a ring: never a Link TRB. -/
abbrev Command := { dw : Trb // dw.trbType ≠ trbLink }

inductive RingKind where
  | cmd
  | ep0
  | int
  deriving DecidableEq, Repr

namespace RingKind

def slots : RingKind → Nat
  | cmd => cmdN
  | ep0 => ep0N
  | int => intN

/-- What the caller passes: the TRB, or the buffer the keyboard's report goes to. -/
abbrev Request : RingKind → Type
  | cmd => Command
  | ep0 => Command
  | int => UInt64

/-- The TRB a request puts on the ring. -/
def trb : (k : RingKind) → k.Request → Trb
  | cmd, dw => dw.1
  | ep0, dw => dw.1
  | int, bufPhys => normalTrb bufPhys 0

/-- The first step of a push, -/
def write : (k : RingKind) → RingMem → ProducerState → k.Request → RingMem
  | cmd, r, st, dw => writeTrb r st dw.1
  | ep0, r, st, dw => writeTrb r st dw.1
  | int, r, st, bufPhys => armTrb r st.enq st.cycle bufPhys

/-- and the second. -/
def link : RingKind → RingMem → ProducerState → RingMem × ProducerState
  | cmd, r, st => updateLink cmdN r st
  | ep0, r, st => updateLink ep0N r st
  | int, r, st =>
      let (r', enq, cycle) := armLink r st.enq st.cycle
      (r', { enq := enq, cycle := cycle })

/-- The source's function as a whole. -/
def push : (k : RingKind) → RingMem → ProducerState → k.Request → RingMem × ProducerState
  | cmd, r, st, dw => cmdPush r st dw.1
  | ep0, r, st, dw => ep0Push r st dw.1
  | int, r, st, bufPhys =>
      let (r', enq, cycle) := armKbdEpRaw r st.enq st.cycle bufPhys
      (r', { enq := enq, cycle := cycle })

variable {k : RingKind}

/-- A push is its two steps. -/
theorem push_eq (r : RingMem) (st : ProducerState) (q : k.Request) :
    k.push r st q = k.link (k.write r st q) st := by
  cases k with
  | cmd => rfl
  | ep0 => rfl
  | int => rfl

theorem write_eq (r : RingMem) (st : ProducerState) (q : k.Request) :
    k.write r st q = writeTrb r st (k.trb q) := by
  cases k with
  | cmd => rfl
  | ep0 => rfl
  | int => exact armTrb_eq r st q

theorem link_eq (r : RingMem) (st : ProducerState) : k.link r st = updateLink k.slots r st := by
  cases k with
  | cmd => rfl
  | ep0 => rfl
  | int => exact armLink_eq r st

theorem trb_not_link (q : k.Request) : (k.trb q).trbType ≠ trbLink := by
  cases k with
  | cmd => exact q.2
  | ep0 => exact q.2
  | int =>
      show (normalTrb q 0).trbType ≠ trbLink
      show ((trbNormal <<< 10 ||| (1 : UInt32) <<< 5 ||| 0) >>> (10 : UInt32)) &&& (0x3F : UInt32)
        ≠ trbLink
      decide

theorem one_lt_slots : 1 < k.slots := by cases k <;> decide

end RingKind

/-! ### Driver and controller -/

/-- The ring, its producer and its consumer, and the history of both.  TRBs are recorded
without their cycle bit. -/
structure XhciRing where
  mem : RingMem
  st : ProducerState
  /-- The producer is between its two writes. -/
  pending : Bool
  deq : Nat
  /-- Consumer cycle state. -/
  ccs : UInt32
  pushed : List Trb
  executed : List Trb

inductive XhciRingStep (k : RingKind) where
  | write (q : k.Request)
  | link
  | consume

namespace XhciRing

variable {k : RingKind}

def start (k : RingKind) (ringPhys : UInt64) : XhciRing :=
  { mem := initRing k.slots ringPhys
    st := { enq := 0, cycle := 1 }
    pending := false, deq := 0, ccs := 1, pushed := [], executed := [] }

def write (c : XhciRing) (k : RingKind) (q : k.Request) : XhciRing :=
  if c.pending then c
  else
    { c with
      mem := k.write c.mem c.st q
      pending := true
      pushed := c.pushed ++ [(k.trb q).payload] }

def link (c : XhciRing) (k : RingKind) : XhciRing :=
  if c.pending then
    { c with mem := (k.link c.mem c.st).1, st := (k.link c.mem c.st).2, pending := false }
  else c

/-- The controller looks at the TRB at its dequeue index. -/
def consume (c : XhciRing) : XhciRing :=
  let trb := c.mem c.deq
  if trb.cycle = c.ccs then
    if trb.trbType = trbLink then
      { c with deq := 0, ccs := if trb.togglesCycle then c.ccs ^^^ 1 else c.ccs }
    else { c with deq := c.deq + 1, executed := c.executed ++ [trb.payload] }
  else c

def step (k : RingKind) (c : XhciRing) : XhciRingStep k → XhciRing
  | .write q => c.write k q
  | .link => c.link k
  | .consume => c.consume

/-- What the rules of the controller rely on. -/
structure WellFormed (k : RingKind) (c : XhciRing) : Prop where
  cycle : c.st.cycle = 0 ∨ c.st.cycle = 1
  ccs : c.ccs = 0 ∨ c.ccs = 1
  enq : c.st.enq < k.slots - 1
  deq : c.deq ≤ k.slots - 1
  /-- The last slot holds a Link TRB that toggles, and no other slot holds one. -/
  isLink : (c.mem (k.slots - 1)).trbType = trbLink
  toggles : (c.mem (k.slots - 1)).togglesCycle = true
  entry : ∀ i < k.slots - 1, (c.mem i).trbType ≠ trbLink

/-- The cycle bit as a phase. -/
def phase (c : UInt32) : Bool := c == 1

/-- The ring read through its cycle bits. -/
def phaseRing (k : RingKind) (c : XhciRing) : PhaseRing Trb :=
  { slot := fun i =>
      if i < k.slots - 1 then ((c.mem i).payload, phase (c.mem i).cycle) else (Trb.zero, false)
    link := phase (c.mem (k.slots - 1)).cycle
    enq := c.st.enq
    phase := phase c.st.cycle
    pending := c.pending
    deq := c.deq
    expects := phase c.ccs
    pushed := c.pushed
    executed := c.executed }

def phaseStep : XhciRingStep k → PhaseRingStep Trb
  | .write q => .push (k.trb q).payload
  | .link => .finish
  | .consume => .consume

theorem cycle_zero_or_one (t : Trb) : t.cycle = 0 ∨ t.cycle = 1 := by
  have h : t.cycle.toNat = t.dw3.toNat % 2 := by
    unfold Trb.cycle
    rw [UInt32.toNat_and]
    exact Nat.and_one_is_mod _
  rcases Nat.mod_two_eq_zero_or_one t.dw3.toNat with h0 | h1
  · exact Or.inl (UInt32.toNat_inj.mp (h.trans h0))
  · exact Or.inr (UInt32.toNat_inj.mp (h.trans h1))

theorem phase_inj {a b : UInt32} (ha : a = 0 ∨ a = 1) (hb : b = 0 ∨ b = 1) :
    phase a = phase b ↔ a = b := by
  rcases ha with rfl | rfl <;> rcases hb with rfl | rfl <;> decide

theorem phase_toggle {a : UInt32} (ha : a = 0 ∨ a = 1) : phase (a ^^^ 1) = !phase a := by
  rcases ha with rfl | rfl <;> rfl

theorem toggle_zero_or_one {a : UInt32} (ha : a = 0 ∨ a = 1) : a ^^^ 1 = 0 ∨ a ^^^ 1 = 1 := by
  rcases ha with rfl | rfl
  · exact Or.inr rfl
  · exact Or.inl rfl

variable {c : XhciRing}

theorem start_wellFormed (ringPhys : UInt64) : (start k ringPhys).WellFormed k where
  cycle := Or.inr rfl
  ccs := Or.inr rfl
  enq := Nat.sub_pos_of_lt k.one_lt_slots
  deq := Nat.zero_le _
  isLink := (congrArg Trb.trbType (initRing_last _ _)).trans (linkTrb_trbType ringPhys)
  toggles := (congrArg Trb.togglesCycle (initRing_last _ _)).trans (linkTrb_togglesCycle ringPhys)
  entry := fun i hi => by
    show (initRing k.slots ringPhys i).trbType ≠ trbLink
    rw [initRing_of_lt hi]
    decide

theorem start_phaseRing (ringPhys : UInt64) :
    (start k ringPhys).phaseRing k = PhaseRing.start Trb.zero := by
  unfold phaseRing PhaseRing.start start
  simp only [initRing_last, linkTrb_cycle]
  congr 1
  funext i
  by_cases hi : i < k.slots - 1
  · simp only [if_pos hi, initRing_of_lt hi]
    decide
  · simp only [if_neg hi]

theorem WellFormed.write (h : c.WellFormed k) (q : k.Request) :
    (c.write k q).WellFormed k ∧
      (c.write k q).phaseRing k = (c.phaseRing k).push (k.trb q).payload := by
  unfold XhciRing.write PhaseRing.push
  by_cases hp : c.pending = true
  · have hp' : (c.phaseRing k).pending = true := hp
    simp only [if_pos hp, if_pos hp']
    exact ⟨h, trivial⟩
  have hp' : ¬ (c.phaseRing k).pending = true := hp
  simp only [if_neg hp, if_neg hp', RingKind.write_eq, writeTrb]
  have hlast : k.slots - 1 ≠ c.st.enq := (Nat.ne_of_lt h.enq).symm
  constructor
  · refine ⟨h.cycle, h.ccs, h.enq, h.deq, ?_, ?_, ?_⟩
    · simpa only [Function.update_of_ne hlast] using h.isLink
    · simpa only [Function.update_of_ne hlast] using h.toggles
    · intro i hi
      by_cases he : i = c.st.enq
      · subst he
        simp only [Function.update_self, Trb.withCycle_trbType _ h.cycle]
        exact k.trb_not_link q
      · simpa only [Function.update_of_ne he] using h.entry i hi
  · unfold phaseRing
    simp only [Function.update_of_ne hlast]
    congr 1
    funext i
    by_cases he : i = c.st.enq
    · subst he
      simp only [Function.update_self, if_pos h.enq, Trb.withCycle_payload _ h.cycle,
        Trb.withCycle_cycle _ h.cycle]
    · simp only [Function.update_of_ne he]

theorem WellFormed.link (h : c.WellFormed k) :
    (c.link k).WellFormed k ∧ (c.link k).phaseRing k = (c.phaseRing k).finish (k.slots - 1) := by
  unfold XhciRing.link PhaseRing.finish
  by_cases hp : c.pending = true
  swap
  · have hp' : ¬ (c.phaseRing k).pending = true := hp
    simp only [if_neg hp, if_neg hp']
    exact ⟨h, trivial⟩
  have hp' : (c.phaseRing k).pending = true := hp
  simp only [if_pos hp, if_pos hp', RingKind.link_eq, updateLink]
  by_cases hw : c.st.enq + 1 = k.slots - 1
  · have hw' : (c.phaseRing k).enq + 1 = k.slots - 1 := hw
    simp only [if_pos hw, if_pos hw']
    constructor
    · refine ⟨toggle_zero_or_one h.cycle, h.ccs, ?_, h.deq, ?_, ?_, ?_⟩
      · exact Nat.sub_pos_of_lt k.one_lt_slots
      · simpa only [Function.update_self, Trb.withCycle_trbType _ h.cycle] using h.isLink
      · simpa only [Function.update_self, Trb.withCycle_togglesCycle _ h.cycle] using h.toggles
      · intro i hi
        simpa only [Function.update_of_ne (Nat.ne_of_lt hi)] using h.entry i hi
    · unfold phaseRing
      simp only [Function.update_self, Trb.withCycle_cycle _ h.cycle, phase_toggle h.cycle]
      congr 1
      funext i
      by_cases hi : i < k.slots - 1
      · simp only [if_pos hi, Function.update_of_ne (Nat.ne_of_lt hi)]
      · simp only [if_neg hi]
  · have hw' : ¬ (c.phaseRing k).enq + 1 = k.slots - 1 := hw
    simp only [if_neg hw, if_neg hw']
    have := h.enq
    exact ⟨⟨h.cycle, h.ccs, by show c.st.enq + 1 < _; omega, h.deq, h.isLink, h.toggles,
      h.entry⟩, rfl⟩

theorem WellFormed.consume (h : c.WellFormed k) :
    c.consume.WellFormed k ∧ c.consume.phaseRing k = (c.phaseRing k).consume (k.slots - 1) := by
  have hdeq := h.deq
  unfold XhciRing.consume PhaseRing.consume
  rcases Nat.lt_or_eq_of_le hdeq with hlt | heq
  · have hne : ¬ (c.phaseRing k).deq = k.slots - 1 := Nat.ne_of_lt hlt
    have hslot : (c.phaseRing k).slot c.deq
        = ((c.mem c.deq).payload, phase (c.mem c.deq).cycle) := if_pos hlt
    by_cases hv : (c.mem c.deq).cycle = c.ccs
    · have hv' : ((c.phaseRing k).slot (c.phaseRing k).deq).2 = (c.phaseRing k).expects := by
        show ((c.phaseRing k).slot c.deq).2 = phase c.ccs
        rw [hslot, hv]
      simp only [if_pos hv, if_neg (h.entry c.deq hlt), if_neg hne, if_pos hv']
      refine ⟨⟨h.cycle, h.ccs, h.enq, hlt, h.isLink, h.toggles, h.entry⟩, ?_⟩
      show _ = { c.phaseRing k with
        deq := c.deq + 1, executed := c.executed ++ [((c.phaseRing k).slot c.deq).1] }
      rw [hslot]
      rfl
    · have hv' : ¬ ((c.phaseRing k).slot (c.phaseRing k).deq).2 = (c.phaseRing k).expects := by
        show ¬ ((c.phaseRing k).slot c.deq).2 = phase c.ccs
        rw [hslot, phase_inj (cycle_zero_or_one _) h.ccs]
        exact hv
      simp only [if_neg hv, if_neg hne, if_neg hv']
      exact ⟨h, trivial⟩
  · have he : (c.phaseRing k).deq = k.slots - 1 := heq
    have hiff : (c.phaseRing k).link = (c.phaseRing k).expects ↔
        (c.mem (k.slots - 1)).cycle = c.ccs :=
      phase_inj (cycle_zero_or_one _) h.ccs
    simp only [heq, if_pos he, h.isLink, h.toggles, if_true]
    by_cases hv : (c.mem (k.slots - 1)).cycle = c.ccs
    · simp only [if_pos hv, if_pos (hiff.mpr hv)]
      refine ⟨⟨h.cycle, toggle_zero_or_one h.ccs, h.enq, Nat.zero_le _, h.isLink, h.toggles,
        h.entry⟩, ?_⟩
      unfold phaseRing
      simp only [phase_toggle h.ccs]
    · simp only [if_neg hv, if_neg (fun hc => hv (hiff.mp hc))]
      exact ⟨h, trivial⟩

theorem WellFormed.step (h : c.WellFormed k) (e : XhciRingStep k) :
    (c.step k e).WellFormed k ∧
      (c.step k e).phaseRing k = (c.phaseRing k).step (k.slots - 1) (phaseStep e) := by
  cases e with
  | write q => exact h.write q
  | link => exact h.link
  | consume => exact h.consume

/-- The controller's own steps are the consumer's. -/
theorem WellFormed.iterate_consume (h : c.WellFormed k) (j : Nat) :
    (XhciRing.consume^[j] c).phaseRing k
      = (PhaseRing.consume (k.slots - 1))^[j] (c.phaseRing k) := by
  induction j generalizing c with
  | zero => rfl
  | succ j ih =>
      rw [Function.iterate_succ_apply, Function.iterate_succ_apply, ih h.consume.1, h.consume.2]

/-- Number of TRBs pushed and not executed yet. -/
def unconsumed (c : XhciRing) : Nat := c.pushed.length - c.executed.length

/-- The controller still stands on the Link TRB behind a lap it has executed, and the
driver, with all slots taken again, has stamped it for the next lap. -/
def Stuck (k : RingKind) (c : XhciRing) : Prop :=
  c.deq = k.slots - 1 ∧ c.pending = false ∧
    c.pushed.length = c.executed.length + (k.slots - 1)

instance : Decidable (c.Stuck k) := inferInstanceAs (Decidable (_ ∧ _ ∧ _))

/-- With no more TRBs outstanding than a ring has usable slots, it is a phase ring. -/
theorem run_phaseRing {ringPhys : UInt64} {trace : List (XhciRing × XhciRingStep k)}
    (hrun : Run (Next (step k)) (start k ringPhys) trace c)
    (hfew : ∀ t ∈ visited trace c, t.pushed.length ≤ t.executed.length + (k.slots - 1)) :
    c.WellFormed k ∧ (c.phaseRing k).Inv (k.slots - 1) := by
  obtain ⟨hwf, habs⟩ := hrun.map (phaseRing k) phaseStep (start_wellFormed ringPhys)
    fun s e h => h.step e
  rw [start_phaseRing] at habs
  refine ⟨hwf, PhaseRing.run_inv (Nat.sub_pos_of_lt k.one_lt_slots) habs ?_⟩
  rw [visited_map]
  intro r hr
  obtain ⟨t, ht, rfl⟩ := List.mem_map.mp hr
  exact hfew t ht

/--
**The producers fill a queue.**  While at most all usable slots are taken, what the
controller has executed is a prefix of what was pushed, TRB for TRB.  Left alone it
executes the rest, unless it is stuck on a Link TRB stamped too early; one slot fewer
taken rules that out.
-/
theorem producer_ring_fifo {ringPhys : UInt64} {trace : List (XhciRing × XhciRingStep k)}
    (hrun : Run (Next (step k)) (start k ringPhys) trace c)
    (hfew : ∀ t ∈ visited trace c, t.pushed.length ≤ t.executed.length + (k.slots - 1)) :
    c.executed <+: c.pushed ∧
    ((∃ j, (consume^[j] c).executed = c.pushed) ↔ ¬ c.Stuck k) ∧
    (c.pushed.length ≤ c.executed.length + (k.slots - 2) →
      ∃ j, (consume^[j] c).executed = c.pushed) := by
  obtain ⟨hwf, hinv⟩ := run_phaseRing hrun hfew
  have hiff : (∃ j, (consume^[j] c).executed = c.pushed) ↔ ¬ c.Stuck k := by
    rw [show c.Stuck k ↔ (c.phaseRing k).Stuck (k.slots - 1) from Iff.rfl,
      ← hinv.drains_iff (Nat.sub_pos_of_lt k.one_lt_slots)]
    refine exists_congr fun j => ?_
    rw [← hwf.iterate_consume j]
    rfl
  refine ⟨hinv.isPrefix, hiff, ?_⟩
  intro hlen
  refine hiff.mpr fun hs => ?_
  have := hs.2.2
  have := k.one_lt_slots
  omega

/-- Pushes in pairs with the controller looking in between, over two laps and a half. -/
def overLaps : List (XhciRingStep .int) :=
  (List.replicate 9
    [.write 0x1000, .consume, .link, .write 0x2000, .consume, .link, .consume]).flatten

theorem producer_ring_fifo_one_push :
    (overLaps.foldl (step .int) (start .int 0x2000)).pushed.length = 18 ∧
    (overLaps.foldl (step .int) (start .int 0x2000)).executed
      <+: (overLaps.foldl (step .int) (start .int 0x2000)).pushed ∧
    ∃ j, (consume^[j] (overLaps.foldl (step .int) (start .int 0x2000))).executed
      = (overLaps.foldl (step .int) (start .int 0x2000)).pushed := by
  obtain ⟨hfront, -, hrest⟩ :=
    producer_ring_fifo (Run.ofActions (step .int) (start .int 0x2000) overLaps) (by decide +kernel)
  exact ⟨by decide +kernel, hfront, hrest (by decide +kernel)⟩

/-- A lap pushed, the controller through its entries but not past the Link TRB, and
another lap pushed. -/
def lapAhead : List (XhciRingStep .int) :=
  (List.replicate 7 [.write 0x1000, .link]).flatten ++ List.replicate 7 .consume ++
    (List.replicate 7 [.write 0x1000, .link]).flatten

/-- Never more than seven TRBs outstanding, and yet the last seven are never executed. -/
theorem producer_ring_stuck :
    ∃ (trace : List (XhciRing × XhciRingStep .int)) (c : XhciRing),
      Run (Next (step .int)) (start .int 0x2000) trace c ∧
      (∀ t ∈ visited trace c, t.unconsumed ≤ intN - 1) ∧
      c.pushed.length = 14 ∧ ∀ j, (consume^[j] c).executed.length = 7 := by
  refine ⟨_, _, Run.ofActions (step .int) (start .int 0x2000) lapAhead, by decide, by decide, ?_⟩
  intro j
  have hfix : consume (lapAhead.foldl (step .int) (start .int 0x2000))
      = lapAhead.foldl (step .int) (start .int 0x2000) := by
    unfold consume
    rw [if_neg (by decide)]
  rw [Function.iterate_fixed hfix]
  decide

end XhciRing

end Amaterasu
