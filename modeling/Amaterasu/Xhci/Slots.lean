/-
Device slots over the port loop of `init_unsafe`.

A slot is enabled by an Enable Slot command that succeeds and given back by Disable
Slot.  A controller has few of them, and a slot that is never given back is lost to
every port enumerated later.  Eight exits of the loop's body lie between the two
commands, and each has its own call of `disable_slot`.

What is shown is read off the log of a conversation, with no assumption about the
answers but that Disable Slot succeeds: the loop holds no slot at the start of each
port and at most the one it asked for within it, so even a controller that hands out
the same slot again hands out a free one.
-/
import Mathlib
import Amaterasu.Xhci.Enumerate

namespace Amaterasu

/-- A command or a transfer, and what came of it. -/
abbrev UsbExchange := UsbRequest × UsbAnswer

/-- The exchange enables the slot.  Slot 0 is no device slot. -/
def UsbExchange.Enables (e : UsbExchange) (slot : UInt8) : Prop :=
  e.1 = .command .enableSlot ∧ e.2.cc = ccSuccess ∧ e.2.slot = slot ∧ slot ≠ 0

/-- The exchange is a Disable Slot command for the slot. -/
def UsbExchange.Disables (e : UsbExchange) (slot : UInt8) : Prop :=
  e.1 = .command (.disableSlot slot)

instance (e : UsbExchange) (slot : UInt8) : Decidable (e.Enables slot) :=
  inferInstanceAs (Decidable (_ ∧ _))

instance (e : UsbExchange) (slot : UInt8) : Decidable (e.Disables slot) :=
  inferInstanceAs (Decidable (_ = _))

/-- The slots enabled after an exchange. -/
def UsbExchange.record (slots : Finset UInt8) (e : UsbExchange) : Finset UInt8 :=
  match e.1 with
  | .command .enableSlot => if e.Enables e.2.slot then insert e.2.slot slots else slots
  | .command (.disableSlot slot) => if e.2.cc = ccSuccess then slots.erase slot else slots
  | _ => slots

/-- The slots successfully enabled and not disabled. -/
def enabledSlots (log : List UsbExchange) : Finset UInt8 :=
  log.foldl UsbExchange.record ∅

/-- The request has nothing to do with who holds which slot. -/
def UsbRequest.Neutral : UsbRequest → Prop
  | .command .enableSlot => False
  | .command (.disableSlot _) => False
  | _ => True

/-- Disable Slot always succeeds. -/
def DisableSucceeds (q : UsbRequest) (r : UsbAnswer) : Prop :=
  match q with
  | .command (.disableSlot _) => r.cc = ccSuccess
  | _ => True

instance (q : UsbRequest) (r : UsbAnswer) : Decidable (DisableSucceeds q r) := by
  unfold DisableSucceeds
  split <;> infer_instance

/-- Disable Slot is issued for enabled slots only, and at most as often as the slot has
been enabled. -/
structure DisablesPaired (log : List UsbExchange) : Prop where
  enabled : ∀ before e after slot, log = before ++ e :: after → e.Disables slot →
    slot ∈ enabledSlots before
  atMostOnce : ∀ slot, log.countP (·.Disables slot) ≤ log.countP (·.Enables slot)

/-- The slot the driver keeps. -/
def Enumerated.slots : Enumerated → Finset UInt8
  | ready kbd => {kbd.slot}
  | _ => ∅

/-! ### One exchange -/

/-- The log of a driver that holds `slots`: every slot has been disabled as often as it
has been enabled, but for the ones held. -/
structure Holding (slots : Finset UInt8) (log : List UsbExchange) : Prop where
  holds : enabledSlots log = slots
  enabled : ∀ before e after slot, log = before ++ e :: after → e.Disables slot →
    slot ∈ enabledSlots before
  balance : ∀ slot, log.countP (·.Enables slot)
    = log.countP (·.Disables slot) + if slot ∈ slots then 1 else 0

theorem enabledSlots_append (log : List UsbExchange) (e : UsbExchange) :
    enabledSlots (log ++ [e]) = e.record (enabledSlots log) := by
  simp [enabledSlots, List.foldl_append]

theorem Holding.nil : Holding ∅ [] := by
  refine ⟨rfl, ?_, by simp⟩
  intro before e after slot h
  exact absurd h (by simp)

namespace Holding

variable {slots : Finset UInt8} {log : List UsbExchange} {r : UsbAnswer} {slot : UInt8}

theorem disablesPaired (h : Holding slots log) : DisablesPaired log := by
  refine ⟨h.enabled, fun slot => ?_⟩
  rw [h.balance slot]
  exact Nat.le_add_right _ _

/-- Where the last exchange of a log stands. -/
theorem enabled_append (h : Holding slots log) {e : UsbExchange}
    (hlast : ∀ slot, e.Disables slot → slot ∈ slots) :
    ∀ before e' after slot, log ++ [e] = before ++ e' :: after → e'.Disables slot →
      slot ∈ enabledSlots before := by
  intro before e' after slot heq hdis
  rcases List.eq_nil_or_concat after with rfl | ⟨after', last, rfl⟩
  · obtain ⟨rfl, he⟩ := List.append_inj' heq rfl
    obtain rfl := List.singleton_inj.mp he
    rw [h.holds]
    exact hlast slot hdis
  · have heq' : log ++ [e] = (before ++ e' :: after') ++ [last] := by simpa using heq
    obtain ⟨hlog, -⟩ := List.append_inj' heq' rfl
    exact h.enabled before e' after' slot hlog hdis

/-- An exchange that neither enables nor disables. -/
theorem other (h : Holding slots log) {e : UsbExchange} (hrec : e.record slots = slots)
    (hen : ∀ slot, ¬ e.Enables slot) (hdis : ∀ slot, ¬ e.Disables slot) :
    Holding slots (log ++ [e]) := by
  refine ⟨?_, h.enabled_append fun slot hs => absurd hs (hdis slot), fun slot => ?_⟩
  · rw [enabledSlots_append, h.holds, hrec]
  · rw [List.countP_append, List.countP_append, h.balance slot]
    simp [hen slot, hdis slot]

theorem neutral (h : Holding slots log) {q : UsbRequest} (hq : q.Neutral) (r : UsbAnswer) :
    Holding slots (log ++ [(q, r)]) := by
  refine h.other ?_ ?_ ?_
  · cases q with
    | command c =>
        cases c with
        | enableSlot => exact hq.elim
        | disableSlot slot => exact hq.elim
        | addressDevice => rfl
        | evaluateContext => rfl
        | configureEndpoint => rfl
    | ctrlIn => rfl
    | ctrlOut => rfl
  · rintro slot ⟨rfl, -⟩
    exact hq
  · intro slot hs
    obtain rfl : q = .command (.disableSlot slot) := hs
    exact hq

/-- Enable Slot, from a driver that holds nothing. -/
theorem enable (h : Holding ∅ log) (hcc : r.cc = ccSuccess) (hslot : r.slot ≠ 0) :
    Holding {r.slot} (log ++ [(.command .enableSlot, r)]) := by
  have hen : UsbExchange.Enables (.command .enableSlot, r) r.slot := ⟨rfl, hcc, rfl, hslot⟩
  have hdis : ∀ slot, ¬ UsbExchange.Disables (.command .enableSlot, r) slot := by
    intro slot hs
    exact absurd hs (by simp [UsbExchange.Disables])
  refine ⟨?_, h.enabled_append fun slot hs => absurd hs (hdis slot), fun slot => ?_⟩
  · rw [enabledSlots_append, h.holds]
    exact if_pos hen
  · rw [List.countP_append, List.countP_append, h.balance slot]
    by_cases hs : slot = r.slot
    · subst hs
      simp [hen, hdis]
    · have hne : ¬ UsbExchange.Enables (.command .enableSlot, r) slot := fun he => hs he.2.2.1.symm
      simp [hne, hdis, hs]

/-- Enable Slot that fails, or comes back with slot 0. -/
theorem enable_fail (h : Holding slots log) (hfail : r.cc ≠ ccSuccess ∨ r.slot = 0) :
    Holding slots (log ++ [(.command .enableSlot, r)]) := by
  have hen : ∀ slot, ¬ UsbExchange.Enables (.command .enableSlot, r) slot := by
    rintro slot ⟨-, hcc, hslot, h0⟩
    rcases hfail with hf | hf
    · exact hf hcc
    · exact h0 (hslot.symm.trans hf)
  exact h.other (if_neg (hen _)) hen fun slot hs => absurd hs (by simp [UsbExchange.Disables])

/-- Disable Slot for the slot held. -/
theorem disable (h : Holding {slot} log) (hcc : r.cc = ccSuccess) :
    Holding ∅ (log ++ [(.command (.disableSlot slot), r)]) := by
  have hen : ∀ slot', ¬ UsbExchange.Enables (.command (.disableSlot slot), r) slot' := by
    rintro slot' ⟨he, -⟩
    exact absurd he (by simp)
  have hdis : ∀ slot', UsbExchange.Disables (.command (.disableSlot slot), r) slot'
      ↔ slot = slot' := by
    intro slot'
    simp [UsbExchange.Disables]
  refine ⟨?_, h.enabled_append fun slot' hs => ?_, fun slot' => ?_⟩
  · rw [enabledSlots_append, h.holds]
    refine (if_pos hcc).trans ?_
    simp
  · rw [Finset.mem_singleton]
    exact ((hdis slot').mp hs).symm
  · rw [List.countP_append, List.countP_append, h.balance slot']
    by_cases hs : slot = slot'
    · subst hs
      simp [hen, hdis]
    · have hs' : slot' ≠ slot := fun he => hs he.symm
      simp [hen, hdis, hs, hs']

end Holding

/-! ### One port -/

/-- How a port is left: with the slot of a keyboard, or with none. -/
def LeavesPort (outcome : Enumerated) (log : List UsbExchange) : Prop :=
  outcome ≠ .panicked ∧ Holding outcome.slots log

open Dialogue (Ensures)

variable {log : List UsbExchange} {slot : UInt8}

/-- A neutral request, and what comes after it. -/
theorem ensures_neutral {slots : Finset UInt8} {q : UsbRequest}
    {f : UsbAnswer → UsbProgram Enumerated} (h : Holding slots log) (hq : q.Neutral)
    (hrest : ∀ r log, Holding slots log → Ensures DisableSucceeds LeavesPort (f r) log) :
    Ensures DisableSucceeds LeavesPort (Dialogue.query q >>= f) log :=
  Ensures.query fun r _ => hrest r _ (h.neutral hq r)

/-- Each of the eight exits. -/
theorem ensures_disableSlot (h : Holding {slot} log) :
    Ensures DisableSucceeds LeavesPort
      (do disableSlot slot; return .noKeyboard) log := by
  refine Ensures.query fun r hr => Ensures.pure ?_
  exact ⟨by simp, h.disable hr⟩

theorem ensures_enumeratePort (mem : DeviceMem) (port : ℕ) (h : Holding ∅ log) :
    Ensures DisableSucceeds LeavesPort (enumeratePort mem port) log := by
  unfold enumeratePort
  refine Ensures.query fun enabled _ => ?_
  split
  · rename_i hfail
    exact Ensures.pure ⟨by simp, h.enable_fail hfail⟩
  rename_i hok
  push Not at hok
  refine ensures_neutral (h.enable hok.1 hok.2) trivial fun addressed log h => ?_
  split
  · exact ensures_disableSlot h
  refine ensures_neutral h trivial fun mps0 log h => ?_
  split
  · exact ensures_disableSlot h
  refine ensures_neutral h trivial fun evaluated log h => ?_
  split
  · exact ensures_disableSlot h
  refine ensures_neutral h trivial fun addressed log h => ?_
  split
  · exact ensures_disableSlot h
  refine ensures_neutral h trivial fun devDesc log h => ?_
  split
  · exact ensures_disableSlot h
  refine ensures_neutral h trivial fun cfg log h => ?_
  split
  · exact ensures_disableSlot h
  refine ensures_neutral h trivial fun full log h => ?_
  split
  · -- every index is in range, so the walk comes to an end
    rename_i hpanic
    obtain ⟨r, hr⟩ := findHidKbdEp_isSome _
    exact absurd (hpanic.symm.trans hr) (by simp)
  · exact ensures_disableSlot h
  · refine ensures_neutral h trivial fun configuration log h => ?_
    refine ensures_neutral h trivial fun protocol log h => ?_
    refine ensures_neutral h trivial fun idle log h => ?_
    refine ensures_neutral h trivial fun configured log h => ?_
    split
    · exact ensures_disableSlot h
    · exact Ensures.pure ⟨by simp, h⟩

/-! ### The loop -/

theorem ensures_enumeratePorts (mem : ℕ → DeviceMem) (portsc : List UInt32) :
    ∀ (port : ℕ) {log : List UsbExchange}, Holding ∅ log →
      Ensures DisableSucceeds LeavesPort (enumeratePorts mem port portsc) log := by
  induction portsc with
  | nil => exact fun port log h => Ensures.pure ⟨by simp, h⟩
  | cons sc rest ih =>
      intro port log h
      unfold enumeratePorts
      by_cases hccs : sc &&& portscCcs = 0
      · rw [if_pos hccs]
        exact ih (port + 1) h
      · rw [if_neg hccs]
        refine Ensures.bind (Ensures.mono ?_ (ensures_enumeratePort (mem port) port h))
        intro outcome log hleaves
        cases outcome with
        | noKeyboard => exact ih (port + 1) hleaves.2
        | ready kbd => exact Ensures.pure hleaves
        | panicked => exact absurd rfl hleaves.1

/--
**No slot leaks.**  However the controller and the devices answer, as long as Disable
Slot succeeds: when the loop returns, the slots enabled and not disabled are the
keyboard's if there is one and none otherwise, and Disable Slot has been issued only
for a slot that was enabled, once for each time it was.
-/
theorem initUnsafe_slots (mem : ℕ → DeviceMem) (portsc : List UInt32)
    {log : List UsbExchange} {outcome : Enumerated}
    (hreturns : (initUnsafe mem portsc).Reaches log (.done outcome))
    (hdisable : ∀ e ∈ log, DisableSucceeds e.1 e.2) :
    outcome ≠ .panicked ∧ enabledSlots log = outcome.slots ∧ DisablesPaired log := by
  have hleaves : LeavesPort outcome log :=
    (ensures_enumeratePorts mem portsc 1 Holding.nil).returns hreturns hdisable
  exact ⟨hleaves.1, hleaves.2.holds, hleaves.2.disablesPaired⟩

/-- An answer with completion code `cc`, and `bytes` at the start of the buffer. -/
def usbAnswer (cc slot : UInt8) (bytes : List UInt8) : UsbAnswer :=
  { cc := cc, slot := slot, buf := Vector.ofFn fun i => bytes.getD i 0 }

/-- The configuration of a keyboard: one boot interface, one interrupt IN endpoint. -/
def kbdConfig : List UInt8 :=
  [9, 2, 34, 0, 1, 1, 0, 0xA0, 50,
   9, 4, 0, 0, 1, 3, 1, 1, 0,
   9, 0x21, 0x11, 1, 0, 1, 0x22, 63, 0,
   7, 5, 0x81, 3, 8, 0, 10]

/-- A device that cannot be addressed, and then a keyboard that refuses SET_IDLE and is
given the same slot. -/
def kbdAnswers : List UsbAnswer :=
  [usbAnswer 1 1 [], usbAnswer 4 1 [], usbAnswer 1 1 [],
   usbAnswer 1 1 [], usbAnswer 1 1 [], usbAnswer 1 1 [18, 1, 0, 2, 0, 0, 0, 8],
   usbAnswer 1 1 [], usbAnswer 1 1 [], usbAnswer 1 1 [], usbAnswer 1 1 (kbdConfig.take 9),
   usbAnswer 1 1 kbdConfig, usbAnswer 1 1 [], usbAnswer 1 1 [], usbAnswer 6 1 [],
   usbAnswer 1 1 []]

/-- Two connected ports of three, the keyboard on the last. -/
theorem initUnsafe_slots_kbd :
    ∃ log, (initUnsafe (fun _ => ⟨0x1000, 0x2000⟩) [0x203, 0x2A0, 0x603]).Reaches log
        (.done (.ready { slot := 1, epDb := 3 })) ∧
      enabledSlots log = {1} ∧ DisablesPaired log := by
  obtain ⟨log, outcome, hreturns, rfl, hdisable⟩ :=
    Dialogue.exists_reaches (initUnsafe (fun _ => ⟨0x1000, 0x2000⟩) [0x203, 0x2A0, 0x603])
      kbdAnswers
      (fun log outcome => outcome = .ready { slot := 1, epDb := 3 } ∧
        ∀ e ∈ log, DisableSucceeds e.1 e.2) (by decide +kernel)
  obtain ⟨-, hslots, hpaired⟩ := initUnsafe_slots _ _ hreturns hdisable
  exact ⟨log, hreturns, hslots, hpaired⟩

end Amaterasu
