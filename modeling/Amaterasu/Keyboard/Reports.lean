/-
What one boot report does.

`process_hid_report` looks at six slots, one after the other, and each on its own: what a
slot pushes depends on the report before, the modifiers of this one and the Caps Lock
state from before the loop, never on the other slots.  So a report does what its slots
do, in order, and one with a single key that was not held does what that key does.
-/
import Mathlib
import Amaterasu.Keyboard.Decode

namespace Amaterasu

namespace Keyboard

variable {k : Keyboard} {report : HidReport} {usage : UInt8}

/-! ### The slots of a report -/

/-- `report[2..8]`. -/
def slots (report : HidReport) : List UInt8 := report.toList.drop 2

def reportShift (report : HidReport) : Bool := report.get 0 &&& 0x22 != 0

def reportCtrl (report : HidReport) : Bool := report.get 0 &&& 0x11 != 0

theorem length_slots (report : HidReport) : (slots report).length = 6 := by
  simp [slots]

/-- A report whose slots hold the given usages, in any order, and zeros. -/
def Lists (usages : List UInt8) (report : HidReport) : Prop :=
  (slots report).Perm (usages ++ List.replicate (6 - usages.length) 0)

theorem Lists.mem_iff {usages : List UInt8} (h : Lists usages report) (hne : usage ≠ 0) :
    usage ∈ slots report ↔ usage ∈ usages := by
  rw [List.Perm.mem_iff h, List.mem_append, List.mem_replicate]
  simp [hne]

theorem Lists.length_le {usages : List UInt8} (h : Lists usages report) : usages.length ≤ 6 := by
  have hlen := List.Perm.length_eq h
  rw [length_slots, List.length_append, List.length_replicate] at hlen
  omega

/-! ### One slot -/

/-- What a usage does that was not held before: the Caps Lock state and the bytes. -/
def hidKey (shift ctrl caps : Bool) (usage : UInt8) : Bool × List UInt8 :=
  processHidUsage [] shift ctrl caps usage (caps, [])

/-- What a slot does. -/
def hidRound (k : Keyboard) (report : HidReport) (usage : UInt8) : Bool × List UInt8 :=
  processHidUsage k.hidPrev (reportShift report) (reportCtrl report) k.hidCapsLock usage
    (k.hidCapsLock, [])

theorem hidRound_eq (k : Keyboard) (report : HidReport) (usage : UInt8) :
    hidRound k report usage = if usage ∈ k.hidPrev then (k.hidCapsLock, [])
      else hidKey (reportShift report) (reportCtrl report) k.hidCapsLock usage := by
  unfold hidRound hidKey processHidUsage
  by_cases hskip : usage = 0 ∨ usage = 0x01
  · simp [hskip]
  · by_cases hprev : usage ∈ k.hidPrev
    · simp [hskip, hprev]
    · simp [hskip, hprev]

theorem hidKey_zero (shift ctrl caps : Bool) : hidKey shift ctrl caps 0 = (caps, []) := by
  unfold hidKey processHidUsage
  exact if_pos (Or.inl rfl)

/-- A slot does the same whatever the slots before it did. -/
theorem processHidUsage_eq (prev : List UInt8) (shift ctrl caps : Bool) (usage : UInt8)
    (lock : Bool) (pushed : List UInt8) :
    processHidUsage prev shift ctrl caps usage (lock, pushed) =
      (if (processHidUsage prev shift ctrl caps usage (caps, [])).1 = caps then lock else !caps,
        pushed ++ (processHidUsage prev shift ctrl caps usage (caps, [])).2) := by
  unfold processHidUsage
  dsimp only
  by_cases hskip : usage = 0 ∨ usage = 0x01
  · simp [hskip]
  · by_cases hprev : prev.contains usage = true
    · simp only [if_neg hskip, if_pos hprev]
      simp
    · simp only [if_neg hskip, if_neg hprev]
      by_cases hcaps : usage = 0x39
      · simp [hcaps]
      · simp only [if_neg hcaps]
        rcases hidNavigation usage with - | b
        · dsimp only
          split
          · simp
          · simp
        · simp

/-! ### The loop -/

theorem foldl_processHidUsage (prev : List UInt8) (shift ctrl caps : Bool) (l : List UInt8) :
    ∀ (lock : Bool) (pushed : List UInt8),
      l.foldl (fun acc usage => processHidUsage prev shift ctrl caps usage acc) (lock, pushed) =
        (if ∀ u ∈ l, (processHidUsage prev shift ctrl caps u (caps, [])).1 = caps then lock
          else !caps,
          pushed ++ l.flatMap fun u => (processHidUsage prev shift ctrl caps u (caps, [])).2) := by
  induction l with
  | nil =>
      intro lock pushed
      simp
  | cons u rest ih =>
      intro lock pushed
      rw [List.foldl_cons, processHidUsage_eq, ih, List.flatMap_cons, List.append_assoc]
      by_cases hhead : (processHidUsage prev shift ctrl caps u (caps, [])).1 = caps
      · simp only [hhead, if_true, List.forall_mem_cons, true_and]
      · simp only [hhead, if_false, List.forall_mem_cons, false_and, ite_self]

/-- **A report does what its slots do.** -/
theorem processHidReport_eq (k : Keyboard) (report : HidReport) :
    k.processHidReport report =
      ({ k with
          hidCapsLock := if ∀ u ∈ slots report, (hidRound k report u).1 = k.hidCapsLock
            then k.hidCapsLock else !k.hidCapsLock
          hidPrev := slots report },
        (slots report).flatMap fun u => (hidRound k report u).2) := by
  unfold processHidReport
  dsimp only
  rw [foldl_processHidUsage]
  rfl

/-- A report in which nothing is new. -/
theorem processHidReport_quiet
    (hquiet : ∀ u ∈ slots report, hidRound k report u = (k.hidCapsLock, [])) :
    k.processHidReport report = ({ k with hidPrev := slots report }, []) := by
  rw [processHidReport_eq, if_pos fun u hu => by rw [hquiet u hu]]
  have hpushed : (slots report).flatMap (fun u => (hidRound k report u).2) = [] := by
    rw [List.flatMap_eq_nil_iff]
    intro u hu
    rw [hquiet u hu]
  rw [hpushed]

/-- A report in which one usage is new. -/
theorem processHidReport_single {others : List UInt8}
    (hslots : (slots report).Perm (usage :: others))
    (hquiet : ∀ u ∈ others, hidRound k report u = (k.hidCapsLock, [])) :
    k.processHidReport report =
      ({ k with hidCapsLock := (hidRound k report usage).1, hidPrev := slots report },
        (hidRound k report usage).2) := by
  obtain ⟨before, after, hsplit⟩ := List.append_of_mem (hslots.mem_iff.mpr List.mem_cons_self)
  have hrest : ∀ u ∈ before ++ after, hidRound k report u = (k.hidCapsLock, []) := by
    intro u hu
    apply hquiet
    rw [hsplit] at hslots
    exact ((List.perm_middle.symm.trans hslots).cons_inv.mem_iff).mp hu
  have hnil : ∀ part : List UInt8, (∀ u ∈ part, u ∈ before ++ after) →
      part.flatMap (fun u => (hidRound k report u).2) = [] := by
    intro part hpart
    rw [List.flatMap_eq_nil_iff]
    intro u hu
    rw [hrest u (hpart u hu)]
  have hlock : (∀ u ∈ slots report, (hidRound k report u).1 = k.hidCapsLock) ↔
      (hidRound k report usage).1 = k.hidCapsLock := by
    constructor
    · intro h
      exact h usage (hslots.mem_iff.mpr List.mem_cons_self)
    · intro h u hu
      rcases List.mem_cons.mp (hslots.mem_iff.mp hu) with rfl | hu
      · exact h
      · rw [hquiet u hu]
  have hbool : (if (hidRound k report usage).1 = k.hidCapsLock then k.hidCapsLock
      else !k.hidCapsLock) = (hidRound k report usage).1 := by
    rcases (hidRound k report usage).1 with - | -
    · rcases k.hidCapsLock with - | -
      · rfl
      · rfl
    · rcases k.hidCapsLock with - | -
      · rfl
      · rfl
  have hpushed : (slots report).flatMap (fun u => (hidRound k report u).2)
      = (hidRound k report usage).2 := by
    rw [hsplit, List.flatMap_append, List.flatMap_cons,
      hnil before fun u hu => List.mem_append_left _ hu,
      hnil after fun u hu => List.mem_append_right _ hu, List.nil_append, List.append_nil]
  rw [processHidReport_eq, hpushed]
  simp only [hlock, hbool]

end Keyboard

end Amaterasu
