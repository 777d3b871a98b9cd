/-
Requests and their completions: `wait_cmd` and `ep0_wait_xfer` in `hal/src/xhci.rs`,
and the calls of `init_unsafe` that end in one of them.

The driver makes one call at a time: it queues a command, or the TRBs of a control
transfer, and waits.  The controller completes what is queued in order, commands among
themselves and the transfers of a slot among themselves, whenever it likes, and posts
one event for each.  The driver takes events off the ring one by one until one has the
type it waits for (and, for a transfer, the slot), or gives up.

Giving up is where it goes wrong: the request stays queued, its event comes later, and
neither waiter looks at the TRB pointer that would tell it apart.
-/
import Amaterasu.Lib.Run
import Amaterasu.Xhci.Trb

namespace Amaterasu

/-- What the driver waits for. -/
inductive Wait where
  /-- In `wait_cmd`. -/
  | command
  /-- In `ep0_wait_xfer`. -/
  | control (slot : UInt8)
  deriving DecidableEq, Repr

/-- What a wait returns when it does not give up. -/
inductive WaitResult where
  | command (cc slot : UInt8)
  | control (cc : UInt8) (residual : UInt32) (ptr : UInt64)
  deriving DecidableEq, Repr

def WaitResult.code : WaitResult → UInt8
  | command cc _ => cc
  | control cc _ _ => cc

/-- The code of a wait that gave up. -/
def timeoutCode : UInt8 := 0xFF

/-- The test of `wait_cmd`. -/
def waitCmdTakes (dw : Trb) : Option WaitResult :=
  if dw.trbType = trbEvtCmd then some (.command dw.completionCode dw.slotId) else none

/-- The tests of `ep0_wait_xfer`. -/
def ep0WaitXferTakes (slot : UInt8) (dw : Trb) : Option WaitResult :=
  if dw.trbType = trbEvtTransfer then
    if dw.slotId = slot then some (.control dw.completionCode dw.residual dw.pointer) else none
  else none

/-- What a wait makes of an event; `none` drops it. -/
def Wait.takes : Wait → Trb → Option WaitResult
  | command, dw => waitCmdTakes dw
  | control slot, dw => ep0WaitXferTakes slot dw

/-- The calls of `init_unsafe`. -/
inductive Call where
  /-- `cmd_push`, then `wait_cmd`. -/
  | command (dw : Trb)
  | ctrlIn (slot : UInt8)
  | ctrlOut (slot : UInt8)
  | disableSlot (slot : UInt8)
  deriving DecidableEq, Repr

def Call.wait : Call → Wait
  | command _ => .command
  | ctrlIn slot => .control slot
  | ctrlOut slot => .control slot
  | disableSlot _ => .command

/-- An event on the ring, with the request it completes: the driver sees the event only. -/
structure Completion where
  event : Trb
  request : Option (Wait × Nat)
  deriving DecidableEq, Repr

/-- A wait that returned: the call it was for, and what it took. -/
structure Returned where
  wait : Wait
  call : Nat
  result : WaitResult
  completion : Completion
  deriving DecidableEq, Repr

/-- Unless it looks like a timeout, the wait returned its own call's completion. -/
def Returned.Own (r : Returned) : Prop :=
  r.result.code ≠ timeoutCode → r.completion.request = some (r.wait, r.call)

/-- Driver and controller. -/
structure Host where
  /-- Calls made; a call is known by its place here. -/
  calls : List Call
  /-- Requests the controller has not completed. -/
  pending : Wait → List Nat
  /-- Events posted and not taken off the ring. -/
  events : List Completion
  waiting : Option (Wait × Nat)
  returned : List Returned

inductive HostStep where
  | call (c : Call)
  /-- The controller completes its next command. -/
  | completeCommand (ptr : UInt64) (cc slot : UInt8)
  /-- The controller completes the slot's next control transfer. -/
  | completeControl (slot : UInt8) (ptr : UInt64) (residual : UInt32) (cc : UInt8)
  /-- The controller posts an event of another kind. -/
  | other (event : Trb)
  /-- The driver finds an event in `evt_wait`. -/
  | look
  /-- The driver gives up. -/
  | timeout
  deriving DecidableEq, Repr

namespace Host

def boot : Host :=
  { calls := [], pending := fun _ => [], events := [], waiting := none, returned := [] }

def call (h : Host) (c : Call) : Host :=
  match h.waiting with
  | some _ => h
  | none =>
      { h with
        calls := h.calls ++ [c]
        pending := Function.update h.pending c.wait (h.pending c.wait ++ [h.calls.length])
        waiting := some (c.wait, h.calls.length) }

def complete (h : Host) (w : Wait) (event : Trb) : Host :=
  match h.pending w with
  | [] => h
  | id :: rest =>
      { h with
        pending := Function.update h.pending w rest
        events := h.events ++ [{ event := event, request := some (w, id) }] }

def other (h : Host) (event : Trb) : Host :=
  if event.trbType = trbEvtCmd ∨ event.trbType = trbEvtTransfer then h
  else { h with events := h.events ++ [{ event := event, request := none }] }

def look (h : Host) : Host :=
  match h.waiting, h.events with
  | some (w, id), e :: rest =>
      match w.takes e.event with
      | some r =>
          { h with
            events := rest, waiting := none
            returned := h.returned ++
              [{ wait := w, call := id, result := r, completion := e }] }
      | none => { h with events := rest }
  | _, _ => h

def step (h : Host) : HostStep → Host
  | .call c => h.call c
  | .completeCommand ptr cc slot => h.complete .command (.event trbEvtCmd ptr 0 cc slot 0)
  | .completeControl slot ptr residual cc =>
      h.complete (.control slot) (.event trbEvtTransfer ptr residual cc slot 1)
  | .other event => h.other event
  | .look => h.look
  | .timeout => { h with waiting := none }

/-- The call an event completes, if it is of the given kind. -/
def Completion.callOf (w : Wait) (e : Completion) : Option Nat :=
  match e.request with
  | some (w', id) => if w' = w then some id else none
  | none => none

/-- Calls of a kind whose completion the driver has not taken, oldest first. -/
def unconsumed (h : Host) (w : Wait) : List Nat :=
  h.events.filterMap (Completion.callOf w) ++ h.pending w

/-- The next event ends the wait, while an older call of its kind is unconsumed. -/
def stale (h : Host) : Bool :=
  match h.waiting, h.events with
  | some (w, id), e :: _ =>
      (w.takes e.event).any (fun r => r.code != timeoutCode) && h.unconsumed w != [id]
  | _, _ => false

/-- No wait ends on an event while an older call of its kind is unconsumed. -/
def Prompt (h : Host) (a : HostStep) : Prop := a = .look → h.stale = false

instance (h : Host) (a : HostStep) : Decidable (h.Prompt a) :=
  inferInstanceAs (Decidable (_ → _))

/-! ### What the waiters make of the controller's events -/

theorem command_takes_event (ptr : UInt64) (residual : UInt32) (cc slot ep : UInt8) :
    Wait.command.takes (.event trbEvtCmd ptr residual cc slot ep) = some (.command cc slot) := by
  simp only [Wait.takes, waitCmdTakes, Trb.event_trbType ptr residual cc slot ep
    (by decide : trbEvtCmd.toNat < 64), Trb.event_slotId ptr residual cc slot ep
    (by decide : trbEvtCmd.toNat < 64), Trb.event_completionCode, if_true]

theorem control_takes_event (ptr : UInt64) (residual : UInt32) (cc slot ep : UInt8) :
    ∃ residual' ptr', (Wait.control slot).takes
      (.event trbEvtTransfer ptr residual cc slot ep) = some (.control cc residual' ptr') := by
  simp only [Wait.takes, ep0WaitXferTakes, Trb.event_trbType ptr residual cc slot ep
    (by decide : trbEvtTransfer.toNat < 64), Trb.event_slotId ptr residual cc slot ep
    (by decide : trbEvtTransfer.toNat < 64), Trb.event_completionCode, if_true]
  exact ⟨_, _, rfl⟩

/-- A wait takes the events of its own kind and no others. -/
def WellTyped (e : Completion) : Prop :=
  ∀ w, (∃ r, w.takes e.event = some r) ↔ ∃ id, e.request = some (w, id)

theorem wellTyped_command (ptr : UInt64) (cc slot : UInt8) (id : Nat) :
    WellTyped { event := .event trbEvtCmd ptr 0 cc slot 0, request := some (.command, id) } := by
  intro w
  cases w with
  | command =>
      exact ⟨fun _ => ⟨id, rfl⟩, fun _ => ⟨_, command_takes_event ptr 0 cc slot 0⟩⟩
  | control s =>
      constructor
      · rintro ⟨r, hr⟩
        simp only [Wait.takes, ep0WaitXferTakes, Trb.event_trbType ptr 0 cc slot 0
          (by decide : trbEvtCmd.toNat < 64)] at hr
        rw [if_neg (by decide)] at hr
        exact absurd hr (by simp)
      · rintro ⟨_, h⟩
        exact absurd h (by simp)

theorem wellTyped_control (ptr : UInt64) (residual : UInt32) (cc slot : UInt8) (id : Nat) :
    WellTyped { event := .event trbEvtTransfer ptr residual cc slot 1
                request := some (.control slot, id) } := by
  intro w
  cases w with
  | command =>
      constructor
      · rintro ⟨r, hr⟩
        simp only [Wait.takes, waitCmdTakes, Trb.event_trbType ptr residual cc slot 1
          (by decide : trbEvtTransfer.toNat < 64)] at hr
        rw [if_neg (by decide)] at hr
        exact absurd hr (by simp)
      · rintro ⟨_, h⟩
        exact absurd h (by simp)
  | control s =>
      by_cases hs : slot = s
      · subst hs
        obtain ⟨residual', ptr', hr⟩ := control_takes_event ptr residual cc slot 1
        exact ⟨fun _ => ⟨id, rfl⟩, fun _ => ⟨_, hr⟩⟩
      · constructor
        · rintro ⟨r, hr⟩
          simp only [Wait.takes, ep0WaitXferTakes, Trb.event_slotId ptr residual cc slot 1
            (by decide : trbEvtTransfer.toNat < 64), if_neg hs] at hr
          split at hr <;> exact absurd hr (by simp)
        · rintro ⟨_, h⟩
          exact absurd h (by simp [hs])

theorem wellTyped_other {event : Trb}
    (h : ¬ (event.trbType = trbEvtCmd ∨ event.trbType = trbEvtTransfer)) :
    WellTyped { event := event, request := none } := by
  intro w
  have hnone : w.takes event = none := by
    cases w with
    | command => exact if_neg fun hc => h (Or.inl hc)
    | control slot => exact if_neg fun hc => h (Or.inr hc)
  simp [hnone]

/-! ### The invariant -/

structure Inv (h : Host) : Prop where
  wellTyped : ∀ e ∈ h.events, WellTyped e
  /-- The controller completes in order, so older calls come first, -/
  sorted : ∀ w, (h.unconsumed w).Pairwise (· < ·)
  known : ∀ w, ∀ id ∈ h.unconsumed w, id < h.calls.length
  /-- and the call being waited for comes last. -/
  last : ∀ w id, h.waiting = some (w, id) → ∃ older, h.unconsumed w = older ++ [id]
  own : ∀ r ∈ h.returned, r.Own

variable {h : Host}

theorem boot_inv : boot.Inv :=
  ⟨by simp [boot], by simp [boot, unconsumed], by simp [boot, unconsumed], by simp [boot],
    by simp [boot]⟩

/-- What is unconsumed after a call. -/
theorem unconsumed_call {c : Call} (hidle : h.waiting = none) (w : Wait) :
    (h.call c).unconsumed w
      = if w = c.wait then h.unconsumed w ++ [h.calls.length] else h.unconsumed w := by
  unfold call unconsumed
  simp only [hidle]
  by_cases hw : w = c.wait
  · subst hw
    simp
  · simp only [if_neg hw, Function.update_of_ne hw]

/-- Completing a request moves it from one list to the other. -/
theorem unconsumed_complete (w' : Wait) (event : Trb) (w : Wait) :
    (h.complete w' event).unconsumed w = h.unconsumed w := by
  unfold complete
  cases hp : h.pending w' with
  | nil => rfl
  | cons id rest =>
      unfold unconsumed
      simp only [List.filterMap_append, List.filterMap_cons, List.filterMap_nil,
        Completion.callOf]
      by_cases hw : w' = w
      · subst hw
        simp [hp]
      · simp [hw, Function.update_of_ne (Ne.symm hw)]

theorem complete_waiting (w : Wait) (event : Trb) : (h.complete w event).waiting = h.waiting := by
  unfold complete
  split
  · rfl
  · rfl

theorem unconsumed_other (event : Trb) (w : Wait) :
    (h.other event).unconsumed w = h.unconsumed w := by
  unfold other
  by_cases he : event.trbType = trbEvtCmd ∨ event.trbType = trbEvtTransfer
  · rw [if_pos he]
  · rw [if_neg he]
    simp [unconsumed, Completion.callOf]

theorem other_waiting (event : Trb) : (h.other event).waiting = h.waiting := by
  unfold other
  split
  · rfl
  · rfl

theorem Inv.call (hi : h.Inv) (c : Call) : (h.call c).Inv := by
  cases hw : h.waiting with
  | some w =>
      have : h.call c = h := by unfold Host.call; rw [hw]
      rw [this]
      exact hi
  | none =>
      have hcalls : (h.call c).calls = h.calls ++ [c] := by unfold Host.call; rw [hw]
      have hwait : (h.call c).waiting = some (c.wait, h.calls.length) := by
        unfold Host.call; rw [hw]
      have hevents : (h.call c).events = h.events := by unfold Host.call; rw [hw]
      have hret : (h.call c).returned = h.returned := by unfold Host.call; rw [hw]
      refine ⟨by rw [hevents]; exact hi.wellTyped, ?_, ?_, ?_, by rw [hret]; exact hi.own⟩
      · intro w
        rw [unconsumed_call hw]
        by_cases he : w = c.wait
        · rw [if_pos he, List.pairwise_append]
          refine ⟨hi.sorted w, List.pairwise_singleton _ _, ?_⟩
          intro a ha b hb
          rw [List.mem_singleton.mp hb]
          exact hi.known w a ha
        · rw [if_neg he]
          exact hi.sorted w
      · intro w id hid
        rw [hcalls, List.length_append, List.length_singleton]
        rw [unconsumed_call hw] at hid
        by_cases he : w = c.wait
        · rw [if_pos he] at hid
          rcases List.mem_append.mp hid with hid' | hid'
          · have := hi.known w id hid'
            omega
          · rw [List.mem_singleton.mp hid']
            omega
        · rw [if_neg he] at hid
          have := hi.known w id hid
          omega
      · intro w id hid
        rw [hwait] at hid
        obtain ⟨rfl, rfl⟩ : c.wait = w ∧ h.calls.length = id := by simpa using hid
        exact ⟨h.unconsumed c.wait, by rw [unconsumed_call hw, if_pos rfl]⟩

theorem Inv.complete (hi : h.Inv) {w : Wait} {event : Trb}
    (ht : ∀ id, WellTyped { event := event, request := some (w, id) }) :
    (h.complete w event).Inv := by
  have hu := fun w' => unconsumed_complete (h := h) w event w'
  have hcalls : (h.complete w event).calls = h.calls := by unfold Host.complete; split <;> rfl
  have hret : (h.complete w event).returned = h.returned := by
    unfold Host.complete; split <;> rfl
  refine ⟨?_, fun w' => by rw [hu]; exact hi.sorted w', ?_, ?_, by rw [hret]; exact hi.own⟩
  · intro e he
    unfold Host.complete at he
    cases hp : h.pending w with
    | nil =>
        rw [hp] at he
        exact hi.wellTyped e he
    | cons id rest =>
        rw [hp] at he
        rcases List.mem_append.mp he with he' | he'
        · exact hi.wellTyped e he'
        · rw [List.mem_singleton.mp he']
          exact ht id
  · intro w' id hid
    rw [hu] at hid
    rw [hcalls]
    exact hi.known w' id hid
  · intro w' id hid
    rw [complete_waiting] at hid
    rw [hu]
    exact hi.last w' id hid

theorem Inv.other (hi : h.Inv) (event : Trb) : (h.other event).Inv := by
  by_cases he : event.trbType = trbEvtCmd ∨ event.trbType = trbEvtTransfer
  · have : h.other event = h := if_pos he
    rw [this]
    exact hi
  · have hu := fun w => unconsumed_other (h := h) event w
    have hnext : h.other event
        = { h with events := h.events ++ [{ event := event, request := none }] } := if_neg he
    refine ⟨?_, fun w => by rw [hu]; exact hi.sorted w, ?_, ?_, ?_⟩
    · intro e he'
      rw [hnext] at he'
      rcases List.mem_append.mp he' with he' | he'
      · exact hi.wellTyped e he'
      · rw [List.mem_singleton.mp he']
        exact wellTyped_other he
    · intro w id hid
      rw [hu] at hid
      rw [hnext]
      exact hi.known w id hid
    · intro w id hid
      rw [hnext] at hid
      rw [hu]
      exact hi.last w id hid
    · rw [hnext]
      exact hi.own

/-- An event at the front leaves with the oldest unconsumed call of its kind. -/
theorem unconsumed_cons {e : Completion} {rest : List Completion} (he : h.events = e :: rest)
    (w : Wait) :
    h.unconsumed w = (Completion.callOf w e).toList ++ { h with events := rest }.unconsumed w := by
  unfold unconsumed
  rw [he, List.filterMap_cons]
  cases Completion.callOf w e with
  | none => rfl
  | some id => rfl

/-- What the driver may do with the event at the front of the ring. -/
theorem look_cases :
    h.look = h ∨
    ∃ w id e rest, h.waiting = some (w, id) ∧ h.events = e :: rest ∧
      ((w.takes e.event = none ∧ h.look = { h with events := rest }) ∨
        ∃ r, w.takes e.event = some r ∧
          h.look = { h with
            events := rest, waiting := none
            returned := h.returned ++
              [{ wait := w, call := id, result := r, completion := e }] }) := by
  cases hw : h.waiting with
  | none => exact Or.inl (by simp only [look, hw])
  | some p =>
      obtain ⟨w, id⟩ := p
      cases he : h.events with
      | nil => exact Or.inl (by simp only [look, hw, he])
      | cons e rest =>
          refine Or.inr ⟨w, id, e, rest, rfl, rfl, ?_⟩
          cases ht : w.takes e.event with
          | none => exact Or.inl ⟨rfl, by simp only [look, hw, he, ht]⟩
          | some r => exact Or.inr ⟨r, rfl, by simp only [look, hw, he, ht]⟩

theorem callOf_eq {w : Wait} {e : Completion} {id : Nat} (h : e.request = some (w, id)) :
    Completion.callOf w e = some id := by
  unfold Completion.callOf
  simp [h]

theorem callOf_eq_none {w : Wait} {e : Completion} (ht : WellTyped e)
    (h : w.takes e.event = none) : Completion.callOf w e = none := by
  unfold Completion.callOf
  cases hr : e.request with
  | none => rfl
  | some p =>
      obtain ⟨w', id⟩ := p
      by_cases hw : w' = w
      · subst hw
        obtain ⟨r, hr'⟩ := (ht w').mpr ⟨id, hr⟩
        rw [h] at hr'
        exact absurd hr' (by simp)
      · simp [hw]

theorem Inv.look (hi : h.Inv) (hok : h.stale = false) : h.look.Inv := by
  rcases look_cases (h := h) with heq | ⟨w, id, e, rest, hw, he, hcase⟩
  · rw [heq]
    exact hi
  have htyped : ∀ e' ∈ rest, WellTyped e' := fun e' he' =>
    hi.wellTyped e' (by rw [he]; exact List.mem_cons_of_mem _ he')
  have hsub : ∀ w', List.Sublist ({ h with events := rest }.unconsumed w') (h.unconsumed w') := by
    intro w'
    rw [unconsumed_cons he]
    exact List.sublist_append_right _ _
  have hsorted : ∀ w', ({ h with events := rest }.unconsumed w').Pairwise (· < ·) :=
    fun w' => (hi.sorted w').sublist (hsub w')
  have hknown : ∀ w', ∀ id ∈ { h with events := rest }.unconsumed w', id < h.calls.length :=
    fun w' id hid => hi.known w' id ((hsub w').subset hid)
  rcases hcase with ⟨hnone, heq⟩ | ⟨r, hr, heq⟩
  · rw [heq]
    refine ⟨htyped, hsorted, hknown, ?_, hi.own⟩
    intro w' id' hid'
    have hwait : some (w, id) = some (w', id') := by rw [← hw]; exact hid'
    obtain ⟨rfl, rfl⟩ : w = w' ∧ id = id' := by simpa using hwait
    obtain ⟨older, hold⟩ := hi.last w id hw
    refine ⟨older, ?_⟩
    rw [unconsumed_cons he, callOf_eq_none (hi.wellTyped e (by simp [he])) hnone] at hold
    exact hold
  · rw [heq]
    refine ⟨htyped, hsorted, hknown, by simp, ?_⟩
    intro r' hr'
    rcases List.mem_append.mp hr' with hr' | hr'
    · exact hi.own r' hr'
    · rw [List.mem_singleton.mp hr']
      intro hcode
      -- The event is the oldest of its kind, and nothing is older than the call itself.
      have hone : h.unconsumed w = [id] := by
        unfold stale at hok
        simp only [hw, he, hr, Option.any_some] at hok
        have hcode' : (r.code != timeoutCode) = true := by simpa using hcode
        rw [hcode', Bool.true_and] at hok
        simpa using hok
      obtain ⟨id', hid'⟩ := (hi.wellTyped e (by simp [he]) w).mp ⟨r, hr⟩
      rw [unconsumed_cons he, callOf_eq hid'] at hone
      have hfirst : id' = id := (List.cons.inj hone).1
      show e.request = some (w, id)
      rw [hid', hfirst]

theorem Inv.step (hi : h.Inv) {a : HostStep} (hok : h.Prompt a) : (h.step a).Inv := by
  cases a with
  | call c => exact hi.call c
  | completeCommand ptr cc slot => exact hi.complete fun id => wellTyped_command ptr cc slot id
  | completeControl slot ptr residual cc =>
      exact hi.complete fun id => wellTyped_control ptr residual cc slot id
  | other event => exact hi.other event
  | look => exact hi.look (hok rfl)
  | timeout => exact ⟨hi.wellTyped, hi.sorted, hi.known, by simp [Host.step], hi.own⟩

/-- With an older call unconsumed, the event at the front is that call's. -/
theorem Inv.takes_older (hi : h.Inv) {a : HostStep} (hstale : ¬ h.Prompt a) :
    ¬ ∀ r ∈ (h.step a).returned, r.Own := by
  unfold Prompt at hstale
  push Not at hstale
  obtain ⟨rfl, hs⟩ := hstale
  have hs' : h.stale = true := by simpa using hs
  intro hown
  unfold stale at hs'
  cases hw : h.waiting with
  | none => simp [hw] at hs'
  | some p =>
      obtain ⟨w, id⟩ := p
      cases he : h.events with
      | nil => simp [hw, he] at hs'
      | cons e rest =>
          simp only [hw, he, Bool.and_eq_true] at hs'
          cases hr : w.takes e.event with
          | none => simp [hr] at hs'
          | some r =>
              have hret : (h.step .look).returned = h.returned ++
                  [{ wait := w, call := id, result := r, completion := e }] := by
                simp only [Host.step, Host.look, hw, he, hr]
              have hcode : r.code ≠ timeoutCode := by simpa [hr] using hs'.1
              have hne : h.unconsumed w ≠ [id] := by simpa using hs'.2
              have hreq : e.request = some (w, id) :=
                hown { wait := w, call := id, result := r, completion := e }
                  (by rw [hret]; simp) hcode
              obtain ⟨older, hold⟩ := hi.last w id hw
              have hfirst := unconsumed_cons he w
              rw [callOf_eq hreq, hold] at hfirst
              have hsorted := hi.sorted w
              rw [hold] at hsorted hne
              cases older with
              | nil => exact hne rfl
              | cons o older' =>
                  have ho : o = id := (List.cons.inj hfirst).1
                  have hlt : o < id := (List.pairwise_cons.mp hsorted).1 id (by simp)
                  omega

/-! ### Without timeouts -/

/-- Nothing is unconsumed but the call being waited for. -/
def Settled (h : Host) : Prop :=
  ∀ w, h.unconsumed w = match h.waiting with
    | some (w', id) => if w = w' then [id] else []
    | none => []

theorem Settled.not_stale (hs : h.Settled) : h.stale = false := by
  unfold stale
  cases hw : h.waiting with
  | none => rfl
  | some p =>
      obtain ⟨w, id⟩ := p
      cases he : h.events with
      | nil => rfl
      | cons e rest =>
          have := hs w
          rw [hw] at this
          simp only [if_true] at this
          simp [this]

theorem Settled.call (hs : h.Settled) (c : Call) : (h.call c).Settled := by
  cases hw : h.waiting with
  | some p =>
      have hsame : h.call c = h := by simp only [Host.call, hw]
      rw [hsame]
      exact hs
  | none =>
      intro w
      have hwait : (h.call c).waiting = some (c.wait, h.calls.length) := by
        simp only [Host.call, hw]
      have hempty : h.unconsumed w = [] := by
        have := hs w
        rwa [hw] at this
      rw [hwait, unconsumed_call hw, hempty]
      rfl

/-- The controller's steps leave alone what is unconsumed and what is waited for. -/
theorem Settled.of_same {h' : Host} (hs : h.Settled) (hwait : h'.waiting = h.waiting)
    (hsame : ∀ w, h'.unconsumed w = h.unconsumed w) : h'.Settled := by
  intro w
  rw [hwait, hsame]
  exact hs w

theorem Settled.look (hi : h.Inv) (hs : h.Settled) : h.look.Settled := by
  rcases look_cases (h := h) with heq | ⟨w, id, e, rest, hw, he, hcase⟩
  · rw [heq]
    exact hs
  have htyped : WellTyped e := hi.wellTyped e (by rw [he]; exact List.mem_cons_self)
  have hall : ∀ w', (Completion.callOf w' e).toList ++ { h with events := rest }.unconsumed w'
      = if w' = w then [id] else [] := by
    intro w'
    rw [← unconsumed_cons he, hs w', hw]
  have hothers : ∀ w', w' ≠ w →
      Completion.callOf w' e = none ∧ { h with events := rest }.unconsumed w' = [] := by
    intro w' hne
    have hnil := hall w'
    rw [if_neg hne] at hnil
    obtain ⟨hcall, hrest⟩ := List.append_eq_nil_iff.mp hnil
    exact ⟨by simpa using hcall, hrest⟩
  rcases hcase with ⟨hnone, heq⟩ | ⟨r, hr, heq⟩
  · rw [heq]
    refine hs.of_same rfl ?_
    intro w'
    have hcall : Completion.callOf w' e = none := by
      by_cases hc : w' = w
      · rw [hc] at *
        exact callOf_eq_none htyped hnone
      · exact (hothers w' hc).1
    rw [unconsumed_cons he w', hcall]
    rfl
  · rw [heq]
    intro w'
    show { h with events := rest }.unconsumed w' = []
    by_cases hc : w' = w
    · subst hc
      obtain ⟨id', hid'⟩ := (htyped w').mp ⟨r, hr⟩
      have hown := hall w'
      rw [callOf_eq hid', if_pos rfl] at hown
      exact (List.cons.inj hown).2
    · exact (hothers w' hc).2

theorem Settled.step (hi : h.Inv) (hs : h.Settled) {a : HostStep} (hno : a ≠ .timeout) :
    (h.step a).Settled := by
  cases a with
  | call c => exact hs.call c
  | completeCommand ptr cc slot =>
      exact hs.of_same (complete_waiting _ _) (unconsumed_complete _ _)
  | completeControl slot ptr residual cc =>
      exact hs.of_same (complete_waiting _ _) (unconsumed_complete _ _)
  | other event => exact hs.of_same (other_waiting _) (unconsumed_other _)
  | look => exact hs.look hi
  | timeout => exact absurd rfl hno

/-- A run in which no wait gives up is prompt throughout. -/
theorem prompt_of_no_timeout {trace : List (Host × HostStep)}
    (hrun : Run (Next step) boot trace h) (hno : ∀ e ∈ trace, e.2 ≠ .timeout) :
    ∀ e ∈ trace, e.1.Prompt e.2 := by
  have hinv := hrun.invariant (I := fun h => h.Inv ∧ h.Settled)
    (K := fun _ a => a ≠ .timeout) ⟨boot_inv, fun _ => rfl⟩
    (fun s a s' hs hok hstep => by
      rw [← show s.step a = s' from hstep]
      exact ⟨hs.1.step fun _ => hs.2.not_stale, hs.2.step hs.1 hok⟩) hno
  exact fun e he _ => (hinv.2 e he).2.not_stale

/--
**Every waiter gets its own completion** in a run exactly when no wait ends on an event
while an older call of its kind, one that gave up, still has its completion to come.
-/
theorem waits_own_iff {trace : List (Host × HostStep)}
    (hrun : Run (Next step) boot trace h) :
    (∀ t ∈ visited trace h, ∀ r ∈ t.returned, r.Own) ↔ ∀ e ∈ trace, e.1.Prompt e.2 := by
  refine hrun.good_iff boot_inv (fun t hi => hi.own) ?_ ?_
  · intro s a s' hi hok hs
    rw [← show s.step a = s' from hs]
    exact hi.step hok
  · intro s a s' hi hstale hs
    rw [← show s.step a = s' from hs]
    exact hi.takes_older hstale

/-- A command is answered behind another event; a request gives up, and its completion comes
while the next command waits, which drops it; a request for the same slot is answered. -/
def answered : List HostStep :=
  [.call (.command ⟨0, 0, 0, trbEnableSlot <<< 10⟩), .other (.event 34 0x01000000 0 1 0 0), .look,
    .completeCommand 0x1000 1 3, .look, .call (.ctrlIn 3), .timeout,
    .call (.command ⟨0, 0, 0, trbEnableSlot <<< 10⟩), .completeControl 3 0x2000 0 1, .look,
    .completeCommand 0x1010 1 4, .look, .call (.ctrlIn 3), .completeControl 3 0x2030 0 13, .look]

theorem waits_own_answered :
    ∃ (trace : List (Host × HostStep)) (h : Host), Run (Next step) boot trace h ∧
      h.returned.map Returned.call = [0, 2, 3] ∧ ∀ t ∈ visited trace h, ∀ r ∈ t.returned, r.Own :=
  ⟨_, _, Run.ofActions step boot answered, by decide,
    (waits_own_iff (Run.ofActions step boot answered)).mpr (by decide)⟩

/-- An Enable Slot gives up; the next one, for another port, gets its slot. -/
def lateAnswer : List HostStep :=
  [.call (.command ⟨0, 0, 0, trbEnableSlot <<< 10⟩), .timeout,
    .call (.command ⟨0, 0, 0, trbEnableSlot <<< 10⟩),
    .completeCommand 0x1000 1 3, .look, .completeCommand 0x1010 9 0]

/-- The second call returns success and slot 3; its own completion, still on the ring, says
code 9 and slot 0. -/
theorem waits_take_late_answer :
    ∃ (trace : List (Host × HostStep)) (h : Host), Run (Next step) boot trace h ∧
      h.returned = [{ wait := .command, call := 1, result := .command 1 3
                      completion := { event := .event trbEvtCmd 0x1000 0 1 3 0
                                      request := some (.command, 0) } }] ∧
      h.events = [{ event := .event trbEvtCmd 0x1010 0 9 0 0, request := some (.command, 1) }] :=
  ⟨_, _, Run.ofActions step boot lateAnswer, by decide⟩

end Host

end Amaterasu
