/-
The controller's registers, as the driver in `hal/src/xhci.rs` gets at them: reads and writes
of 32 bits, and the time stamp counter that its waits go by.

The words a read gives are the device's; what a wait is worth does not depend on the clock
being right, so the counter's answers are left open until something is said about time.
-/
import Amaterasu.Lib.Device
import Mathlib.Data.BitVec

namespace Amaterasu

/-- An access of the driver. -/
inductive Mmio where
  | rd8 (addr : Nat)
  | rd32 (addr : Nat)
  | wr32 (addr : Nat) (v : UInt32)
  | rdtsc
  deriving DecidableEq, Repr

/-- A program of accesses; what is read comes back in the low half. -/
abbrev Driver := Dialogue Mmio UInt64

namespace Xhci

def rd8 (base off : Nat) : Driver UInt8 := do
  let r ← Dialogue.query (.rd8 (base + off))
  return r.toUInt8

def rd32 (base off : Nat) : Driver UInt32 := do
  let r ← Dialogue.query (.rd32 (base + off))
  return r.toUInt32

def wr32 (base off : Nat) (v : UInt32) : Driver Unit := do
  let _ ← Dialogue.query (.wr32 (base + off) v)

/-- `wr64_lo`. -/
def wr64Lo (base off : Nat) (v : UInt64) : Driver Unit := do
  wr32 base off v.toUInt32
  wr32 base (off + 4) (v >>> 32).toUInt32

def rdtsc : Driver UInt64 := Dialogue.query .rdtsc

/-- `deadline_cycles`; `mhz` is `tsc_mhz()`. -/
def deadlineCycles (mhz us : UInt64) : Driver UInt64 := do
  let now ← rdtsc
  return now + us * mhz

def past (deadline : UInt64) : Driver Bool := do
  let now ← rdtsc
  return decide (now - deadline < (1 : UInt64) <<< 63)

/-- Whether a wait has found what it waits for; `none` is out of fuel. -/
def waitFor (fuel : Nat) (mhz us : UInt64) (base off : Nat) (good : UInt32 → Bool) :
    Driver (Option Bool) := do
  let dl ← deadlineCycles mhz us
  match ← Dialogue.poll (rd32 base off) good (past dl) fuel with
  | .found _ => return some true
  | .late => return some false
  | .stuck => return none

/-- `while !past(dl) { }`; `none` is out of fuel. -/
def spin (fuel : Nat) (mhz us : UInt64) : Driver (Option Unit) := do
  let dl ← deadlineCycles mhz us
  match ← Dialogue.poll (past dl) id (return false) fuel with
  | .stuck => return none
  | _ => return some ()

/-! ### What the clock leaves alone -/

section Clock

open Dialogue

variable {σ : Type} {d : Device σ Mmio UInt64} {inv : σ → Prop} {s : σ}
  (hclock : ∀ s r s', d.answers s .rdtsc r s' → s' = s) (hstable : d.Stable inv)

include hclock hstable

theorem meets_deadline (hs : inv s) (mhz us : UInt64) :
    Meets d (fun _ s => inv s) (deadlineCycles mhz us) s := by
  intro s₁ r s' hdrift hanswer
  rw [hclock _ _ _ hanswer]
  exact hstable _ _ hdrift hs

theorem meets_past (hs : inv s) (dl : UInt64) : Meets d (fun _ s => inv s) (past dl) s := by
  intro s₁ r s' hdrift hanswer
  rw [hclock _ _ _ hanswer]
  exact hstable _ _ hdrift hs

theorem meets_waitFor {found : σ → Prop} {base off : Nat} {good : UInt32 → Bool}
    (hround : ∀ s, inv s →
      Meets d (fun v s => inv s ∧ (good v = true → found s)) (rd32 base off) s)
    (fuel : Nat) (mhz us : UInt64) (hs : inv s) :
    Meets d (fun r s => inv s ∧ (r = some true → found s))
      (waitFor fuel mhz us base off good) s := by
  refine (meets_deadline hclock hstable hs mhz us).seq fun dl s hs => ?_
  have hread : ∀ s, inv s →
      Meets d (fun v s => if good v then inv s ∧ found s else inv s) (rd32 base off) s := by
    intro s hs
    refine (hround s hs).mono fun v s hv => ?_
    split
    · rename_i hgood
      exact ⟨hv.1, hv.2 hgood⟩
    · exact hv.1
  have hpoll := meets_poll hread (fun s hs => meets_past hclock hstable hs dl) fuel hs
  refine hpoll.seq fun r s hr => ?_
  cases r with
  | found v => exact Meets.pure ⟨hr.1.1, fun _ => hr.1.2⟩
  | late => exact Meets.pure ⟨hr, by simp⟩
  | stuck => exact Meets.pure ⟨hr, by simp⟩

theorem meets_spin (fuel : Nat) (mhz us : UInt64) (hs : inv s) :
    Meets d (fun _ s => inv s) (spin fuel mhz us) s := by
  refine (meets_deadline hclock hstable hs mhz us).seq fun dl s hs => ?_
  have hread : ∀ s, inv s →
      Meets d (fun late s => if id late then inv s else inv s) (past dl) s := fun s hs =>
    (meets_past hclock hstable hs dl).mono fun late s hs => by
      rwa [ite_self]
  have hpast : ∀ s, inv s → Meets d (fun _ s => inv s) (return false) s := fun s hs =>
    Meets.pure hs
  refine (meets_poll hread hpast fuel hs).seq fun r s hr => ?_
  cases r with
  | found v => exact Meets.pure hr.1
  | late => exact Meets.pure hr
  | stuck => exact Meets.pure hr

end Clock

/-! ### Bits of a register -/

def bit (v : UInt32) (i : Nat) : Bool := v.toBitVec.getLsbD i

@[simp] theorem bit_and (v w : UInt32) (i : Nat) : bit (v &&& w) i = (bit v i && bit w i) := by
  simp [bit]

@[simp] theorem bit_or (v w : UInt32) (i : Nat) : bit (v ||| w) i = (bit v i || bit w i) := by
  simp [bit]

@[simp] theorem bit_not (v : UInt32) (i : Nat) : bit (~~~v) i = (decide (i < 32) && !bit v i) := by
  simp [bit]

/-- A test of one bit. -/
theorem and_eq_zero {v mask : UInt32} {i : Nat} (hi : i < 32)
    (hmask : mask.toBitVec = BitVec.twoPow 32 i) : v &&& mask = 0 ↔ bit v i = false := by
  have hne : BitVec.twoPow 32 i ≠ 0#32 := by
    intro h
    have hget := congrArg (fun b => b.getLsbD i) h
    simp [hi] at hget
  rw [← UInt32.toBitVec_inj, UInt32.toBitVec_and, hmask, BitVec.and_twoPow]
  unfold bit
  cases v.toBitVec.getLsbD i
  · simp
  · simpa using hne

theorem and_ne_zero {v mask : UInt32} {i : Nat} (hi : i < 32)
    (hmask : mask.toBitVec = BitVec.twoPow 32 i) : v &&& mask ≠ 0 ↔ bit v i = true := by
  rw [ne_eq, and_eq_zero hi hmask, Bool.not_eq_false]

end Xhci

end Amaterasu
