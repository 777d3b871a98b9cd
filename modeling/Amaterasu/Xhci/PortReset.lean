/-
`port_reset` in `hal/src/xhci.rs`, against a port.

The enable bit of a port is among those that are cleared by writing a one.  The write that
requests the reset masks it; the one that acknowledges its completion writes it back as it was
read.  A USB 2 port is enabled by its reset, so the acknowledgement finds it enabled and
disables it, and the wait that follows is for the link of a disabled port.  What is left is a
completion that was already on record when the reset was requested, which is acknowledged
before the reset has enabled anything.
-/
import Amaterasu.Xhci.Registers

namespace Amaterasu

namespace Xhci

open Dialogue

/-- `PORTSC_PED`: enabled. -/
def portscPed : UInt32 := (1 : UInt32) <<< 1
/-- `PORTSC_PR`: reset. -/
def portscPr : UInt32 := (1 : UInt32) <<< 4
/-- `PORTSC_PP`: power. -/
def portscPp : UInt32 := (1 : UInt32) <<< 9
/-- `PORTSC_CSC`. -/
def portscCsc : UInt32 := (1 : UInt32) <<< 17
/-- `PORTSC_PEC`. -/
def portscPec : UInt32 := (1 : UInt32) <<< 18
/-- `PORTSC_PRC`: a reset has been completed. -/
def portscPrc : UInt32 := (1 : UInt32) <<< 21

/-- `PORTSC_CHANGE_BITS`. -/
def portscChangeBits : UInt32 :=
  portscCsc ||| portscPec ||| portscPrc ||| (1 : UInt32) <<< 19 ||| (1 : UInt32) <<< 20
    ||| (1 : UInt32) <<< 22 ||| (1 : UInt32) <<< 23

/-- How an attempt ends: with what the function returns, with the next attempt, or out of
fuel. -/
inductive Attempt where
  | returns (enabled : Bool)
  | again
  | stuck

/-- The body of the loop, up to the acknowledgement. -/
def requestReset (base : Nat) : Driver Unit := do
  let sc ← rd32 base 0
  if sc &&& portscPp = 0 then wr32 base 0 portscPp
  let sc := (← rd32 base 0) &&& ~~~portscChangeBits
  wr32 base 0 ((sc ||| portscPr) &&& ~~~portscPed)

/-- The wait for the link. -/
def awaitLink (fuel : Nat) (mhz : UInt64) (base : Nat) : Driver Attempt := do
  let dl2 ← deadlineCycles mhz 100000
  match ← poll (rd32 base 0) (fun sc => (sc >>> 5) &&& 0xF == 0) (past dl2) fuel with
  | .found sc => return .returns (sc &&& portscPed != 0)
  | .late => return .again
  | .stuck => return .stuck

/-- The body of the loop. -/
def resetAttempt (fuel : Nat) (mhz : UInt64) (base : Nat) : Driver Attempt := do
  requestReset base
  let dl ← deadlineCycles mhz 500000
  match ← poll (rd32 base 0) (fun sc => sc &&& portscPrc != 0) (past dl) fuel with
  | .found sc =>
      wr32 base 0 ((sc &&& ~~~portscChangeBits) ||| portscPrc)
      awaitLink fuel mhz base
  | .late => return .again
  | .stuck => return .stuck

def resetAttempts (fuel : Nat) (mhz : UInt64) (base : Nat) : Nat → Driver (Option Bool)
  | 0 => return some false
  | n + 1 => do
      match ← resetAttempt fuel mhz base with
      | .returns enabled => return some enabled
      | .again => resetAttempts fuel mhz base n
      | .stuck => return none

/-- `port_reset`, on the port whose register is at `base`; `none` is out of fuel. -/
def portReset (fuel : Nat) (mhz : UInt64) (base : Nat) : Driver (Option Bool) :=
  resetAttempts fuel mhz base 3

/-! ### The port -/

/-- What matters of a port. -/
structure Port where
  /-- Enabled. -/
  ped : Bool
  /-- A reset is going on. -/
  pr : Bool
  /-- A reset has been completed and not been acknowledged. -/
  prc : Bool
  /-- A reset has been requested while an earlier completion was still on record. -/
  overlapped : Bool
  deriving DecidableEq, Repr

namespace Port

/-- What a port that is enabled by its reset does on its own. -/
inductive Event : Port → Port → Prop
  | completes {p : Port} (h : p.pr = true) (enabled : Bool) :
      Event p { p with pr := false, prc := true, ped := enabled }
  | drops {p : Port} : Event p { p with ped := false }

/-- A write to the register; `clears` tells whether a one disables the port. -/
def write (clears : Bool) (p : Port) (v : UInt32) : Port where
  ped := p.ped && !(clears && bit v 1)
  pr := p.pr || bit v 4
  prc := p.prc && !bit v 21
  overlapped := p.overlapped || (bit v 4 && p.prc)

/-- The register reads as the port is; its other bits are anything. -/
structure Reads (p : Port) (sc : UInt32) : Prop where
  ped : bit sc 1 = p.ped
  pr : bit sc 4 = p.pr
  prc : bit sc 21 = p.prc

end Port

/-- The port whose register is at `base`, and a time stamp counter that says anything. -/
def portDevice (clears : Bool) (base : Nat) : Device Port Mmio UInt64 where
  drifts := Relation.ReflTransGen Port.Event
  answers p q r p' := match q with
    | .rd8 _ => p' = p
    | .rd32 addr => p' = p ∧ (addr = base → p.Reads r.toUInt32)
    | .wr32 addr v => p' = if addr = base then p.write clears v else p
    | .rdtsc => p' = p

namespace Port

variable {clears : Bool} {base : Nat} {inv : Port → Prop} {p : Port}

theorem stable (h : ∀ p p', Event p p' → inv p → inv p') : (portDevice clears base).Stable inv := by
  intro p p' hdrift hp
  induction hdrift with
  | refl => exact hp
  | tail _ hevent ih => exact h _ _ hevent ih

section Accesses

variable (hstable : (portDevice clears base).Stable inv)

include hstable

theorem meets_read (hp : inv p) {post : UInt32 → Port → Prop}
    (h : ∀ sc p, inv p → p.Reads sc → post sc p) :
    Meets (portDevice clears base) post (rd32 base 0) p := by
  intro p₁ r p' hdrift ⟨hsame, hreads⟩
  rw [hsame]
  exact h _ _ (hstable _ _ hdrift hp) (hreads rfl)

theorem meets_write (hp : inv p) {v : UInt32} {post : Unit → Port → Prop}
    (h : ∀ p, inv p → post () (p.write clears v)) :
    Meets (portDevice clears base) post (wr32 base 0 v) p := by
  intro p₁ r p' hdrift hanswer
  have hwritten : p' = p₁.write clears v := hanswer.trans (if_pos rfl)
  rw [hwritten]
  exact h _ (hstable _ _ hdrift hp)

end Accesses

theorem clock (p : Port) (r : UInt64) (p' : Port)
    (h : (portDevice clears base).answers p .rdtsc r p') : p' = p := h

/-! ### Through one attempt -/

/-- A reset has been requested, and its completion, if there is one, is its own. -/
def Requested (p : Port) : Prop := p.overlapped = true ∨ (p.prc = true → p.pr = false)

/-- The completion has been read, with `sc` for the register. -/
def Completed (sc : UInt32) (p : Port) : Prop :=
  p.overlapped = true ∨
    p.pr = false ∧ bit sc 4 = false ∧ (p.ped = true → bit sc 1 = true)

/-- The port is disabled, and nothing will enable it. -/
def Disabled (p : Port) : Prop := p.overlapped = true ∨ p.pr = false ∧ p.ped = false

theorem stable_true : (portDevice clears base).Stable fun _ => True := fun _ _ _ _ => trivial

theorem stable_requested : (portDevice clears base).Stable Requested := by
  refine stable fun p p' hevent hp => ?_
  cases hevent with
  | completes h enabled => exact hp.imp_right fun _ _ => rfl
  | drops => exact hp

theorem stable_completed (sc : UInt32) : (portDevice clears base).Stable (Completed sc) := by
  refine stable fun p p' hevent hp => ?_
  cases hevent with
  | completes h enabled => exact hp.imp_right fun hp => absurd h (by simp [hp.1])
  | drops => exact hp.imp_right fun hp => ⟨hp.1, hp.2.1, fun hped => absurd hped (by simp)⟩

theorem stable_disabled : (portDevice clears base).Stable Disabled := by
  refine stable fun p p' hevent hp => ?_
  cases hevent with
  | completes h enabled => exact hp.imp_right fun hp => absurd h (by simp [hp.1])
  | drops => exact hp.imp_right fun hp => ⟨hp.1, rfl⟩

/-- The write that requests the reset. -/
theorem requested_write (p : Port) (sc : UInt32) :
    (p.write clears ((sc ||| portscPr) &&& ~~~portscPed)).Requested := by
  have hpr : bit ((sc ||| portscPr) &&& ~~~portscPed) 4 = true := by
    have hmask : bit portscPr 4 = true := rfl
    have hped : bit portscPed 4 = false := rfl
    simp [hmask, hped]
  unfold Requested write
  dsimp only
  rw [hpr]
  cases p.prc
  · exact Or.inr fun h => absurd h (by simp)
  · exact Or.inl (by simp)

/-- The read that finds the completion. -/
theorem completed_read {sc : UInt32} (hp : p.Requested) (hsc : p.Reads sc)
    (hgood : sc &&& portscPrc ≠ 0) : p.Completed sc := by
  have hprc : p.prc = true := hsc.prc ▸ (and_ne_zero (i := 21) (by decide) rfl).mp hgood
  exact hp.imp_right fun hp =>
    ⟨hp hprc, hsc.pr.trans (hp hprc), fun hped => hsc.ped.trans hped⟩

/-- The write that acknowledges the completion disables the port. -/
theorem disabled_write {sc : UInt32} (hp : p.Completed sc) :
    (p.write true ((sc &&& ~~~portscChangeBits) ||| portscPrc)).Disabled := by
  rcases hp with hover | ⟨hpr, hsc, hped⟩
  · exact Or.inl (by simp [write, hover])
  · have hmask : bit portscChangeBits 1 = false ∧ bit portscChangeBits 4 = false ∧
        bit portscPrc 1 = false ∧ bit portscPrc 4 = false := ⟨rfl, rfl, rfl, rfl⟩
    refine Or.inr ⟨?_, ?_⟩
    · simp [write, hpr, hsc, hmask]
    · cases hcase : p.ped
      · simp [write, hcase]
      · simp [write, hcase, hped hcase, hmask]

theorem meets_requestReset (p : Port) :
    Meets (portDevice clears base) (fun _ p => p.Requested) (requestReset base) p := by
  refine (Meets.anything (rd32 base 0) p).seq fun sc p _ => ?_
  have hrest : ∀ p, Meets (portDevice clears base) (fun _ p => p.Requested)
      (rd32 base 0 >>= fun sc => wr32 base 0
        ((sc &&& ~~~portscChangeBits ||| portscPr) &&& ~~~portscPed)) p := fun p =>
    (Meets.anything (rd32 base 0) p).seq fun sc p _ =>
      meets_write stable_true trivial fun p _ => requested_write p _
  split
  · exact (Meets.anything (wr32 base 0 _) p).seq fun _ p _ => hrest p
  · exact hrest p

/-- The wait for the link of a disabled port. -/
theorem meets_awaitLink (hp : p.Disabled) (fuel : Nat) (mhz : UInt64) :
    Meets (portDevice clears base) (fun r p => r = .returns true → p.overlapped = true)
      (awaitLink fuel mhz base) p := by
  refine (meets_deadline clock stable_disabled hp mhz _).seq fun dl p hp => ?_
  have hround : ∀ p : Port, p.Disabled → Meets (portDevice clears base)
      (fun (sc : UInt32) p =>
        if (sc >>> 5) &&& 0xF == 0 then p.Disabled ∧ p.Reads sc else p.Disabled)
      (rd32 base 0) p := fun p hp => meets_read stable_disabled hp fun sc p hp hsc => by
    split
    · exact ⟨hp, hsc⟩
    · exact hp
  have hpoll := meets_poll hround (fun p hp => meets_past clock stable_disabled hp dl) fuel hp
  refine hpoll.seq fun r p hr => ?_
  cases r with
  | found sc =>
      refine Meets.pure fun htrue => ?_
      obtain ⟨⟨hp, hsc⟩, -⟩ := hr
      refine hp.resolve_right fun hdis => ?_
      have hzero : sc &&& portscPed = 0 :=
        (and_eq_zero (i := 1) (by decide) rfl).mpr (hsc.ped.trans hdis.2)
      simp [hzero] at htrue
  | late => exact Meets.pure (by simp)
  | stuck => exact Meets.pure (by simp)

theorem meets_resetAttempt (fuel : Nat) (mhz : UInt64) (p : Port) :
    Meets (portDevice true base) (fun r p => r = .returns true → p.overlapped = true)
      (resetAttempt fuel mhz base) p := by
  refine (meets_requestReset p).seq fun _ p hp => ?_
  refine (meets_deadline clock stable_requested hp mhz _).seq fun dl p hp => ?_
  have hround : ∀ p : Port, p.Requested → Meets (portDevice true base)
      (fun (sc : UInt32) p => if sc &&& portscPrc != 0 then p.Completed sc else p.Requested)
      (rd32 base 0) p := fun p hp => meets_read stable_requested hp fun sc p hp hsc => by
    split
    · rename_i hgood
      exact completed_read hp hsc (by simpa using hgood)
    · exact hp
  have hpoll := meets_poll hround (fun p hp => meets_past clock stable_requested hp dl) fuel hp
  refine hpoll.seq fun r p hr => ?_
  cases r with
  | found sc =>
      have hwrite : Meets (portDevice true base) (fun _ p => p.Disabled)
          (wr32 base 0 ((sc &&& ~~~portscChangeBits) ||| portscPrc)) p :=
        meets_write (stable_completed sc) hr.1 fun p hp => disabled_write hp
      exact hwrite.seq fun _ p hp => meets_awaitLink hp fuel mhz
  | late => exact Meets.pure (by simp)
  | stuck => exact Meets.pure (by simp)

theorem meets_resetAttempts (fuel : Nat) (mhz : UInt64) (n : Nat) : ∀ p : Port,
    Meets (portDevice true base) (fun r p => r = some true → p.overlapped = true)
      (resetAttempts fuel mhz base n) p := by
  induction n with
  | zero => exact fun p => Meets.pure (by simp)
  | succ n ih =>
      intro p
      refine (meets_resetAttempt fuel mhz p).seq fun r p hr => ?_
      cases r with
      | returns enabled =>
          refine Meets.pure fun heq => hr ?_
          rw [Option.some.inj heq]
      | again => exact ih p
      | stuck => exact Meets.pure (by simp)

end Port

/--
**`port_reset` disables what it has reset.**  On a port that its reset enables and that a one
in its enable bit disables: from any state, with any answers of the clock and whatever happens
on the port, a `port_reset` that reports an enabled port has requested a reset while an
earlier completion was still on record.
-/
theorem port_reset_disables {fuel : Nat} {mhz : UInt64} {base : Nat} {ped pr prc : Bool}
    {p' : Port} (hrun : Runs (portDevice true base) (portReset fuel mhz base)
      ⟨ped, pr, prc, false⟩ (some true) p') : p'.overlapped = true :=
  (Port.meets_resetAttempts fuel mhz 3 _).run hrun rfl

namespace Port

variable {clears : Bool} {base : Nat} {p p' p'' : Port}

theorem runs_read (hdrift : Relation.ReflTransGen Port.Event p p') {sc : UInt32}
    (h : p'.Reads sc) : Runs (portDevice clears base) (rd32 base 0) p sc p' := by
  have hself : sc.toUInt64.toUInt32 = sc := by simp
  refine .ask (r := sc.toUInt64) hdrift ⟨rfl, fun _ => ?_⟩ ?_
  · rwa [hself]
  · show Runs _ (.done sc.toUInt64.toUInt32) p' sc p'
    rw [hself]
    exact .done

theorem runs_write (v : UInt32) :
    Runs (portDevice clears base) (wr32 base 0 v) p () (p.write clears v) :=
  .ask (r := 0) .refl (if_pos rfl).symm .done

theorem runs_deadline (mhz us : UInt64) :
    Runs (portDevice clears base) (deadlineCycles mhz us) p (0 + us * mhz) p :=
  .ask (r := 0) .refl rfl .done

/-- One attempt that finds what it waits for at once. -/
theorem runs_resetAttempt (sc₀ sc₁ sc₂ : UInt32) (hpower : sc₀ &&& portscPp ≠ 0)
    (h₀ : p.Reads sc₀)
    (hdrift : Relation.ReflTransGen Port.Event
      (p.write clears ((sc₀ &&& ~~~portscChangeBits ||| portscPr) &&& ~~~portscPed)) p')
    (h₁ : p'.Reads sc₁) (hprc : sc₁ &&& portscPrc ≠ 0)
    (hdrift' : Relation.ReflTransGen Port.Event
      (p'.write clears (sc₁ &&& ~~~portscChangeBits ||| portscPrc)) p'')
    (h₂ : p''.Reads sc₂) (hlink : (sc₂ >>> 5) &&& 0xF = 0) (fuel : Nat) (mhz : UInt64) :
    Runs (portDevice clears base) (resetAttempt (fuel + 1) mhz base) p
      (.returns (sc₂ &&& portscPed != 0)) p'' := by
  have hrequest : Runs (portDevice clears base) (requestReset base) p ()
      (p.write clears ((sc₀ &&& ~~~portscChangeBits ||| portscPr) &&& ~~~portscPed)) := by
    refine (runs_read .refl h₀).bind ?_
    rw [if_neg hpower]
    exact (runs_read .refl h₀).bind (runs_write _)
  refine hrequest.bind ((runs_deadline mhz _).bind ?_)
  refine ((runs_read hdrift h₁).poll (by simpa using hprc) fuel).bind ?_
  refine (runs_write _).bind ((runs_deadline mhz _).bind ?_)
  exact ((runs_read hdrift' h₂).poll (by simpa using hlink) fuel).bind .done

end Port

/-- The completion of an earlier reset is still on record, and the new one completes between
the acknowledgement and the wait for the link. -/
theorem port_reset_disables_overlapped : ∃ p',
    Runs (portDevice true 0) (portReset 1 1000 0) ⟨false, false, true, false⟩ (some true) p' ∧
      p'.overlapped = true := by
  have hattempt : Runs (portDevice true 0) (resetAttempt 1 1000 0) ⟨false, false, true, false⟩
      (.returns true) ⟨true, false, true, true⟩ :=
    Port.runs_resetAttempt (portscPp ||| portscPrc) (portscPp ||| portscPr ||| portscPrc)
      (portscPp ||| portscPrc ||| portscPed) (by decide) ⟨rfl, rfl, rfl⟩ .refl ⟨rfl, rfl, rfl⟩
      (by decide) (.single (.completes rfl true)) ⟨rfl, rfl, rfl⟩ (by decide) 0 1000
  have hrun : Runs (portDevice true 0) (portReset 1 1000 0) ⟨false, false, true, false⟩
      (some true) ⟨true, false, true, true⟩ := hattempt.bind .done
  exact ⟨_, hrun, port_reset_disables hrun⟩

/-- Where the write of a one is ignored, the same acknowledgement leaves the port enabled. -/
theorem port_reset_enables (fuel : Nat) (mhz : UInt64) (base : Nat) :
    Runs (portDevice false base) (portReset (fuel + 1) mhz base) ⟨false, false, false, false⟩
      (some true) ⟨true, false, false, false⟩ := by
  have hattempt : Runs (portDevice false base) (resetAttempt (fuel + 1) mhz base)
      ⟨false, false, false, false⟩ (.returns true) ⟨true, false, false, false⟩ :=
    Port.runs_resetAttempt portscPp (portscPp ||| portscPrc ||| portscPed) (portscPp ||| portscPed)
      (by decide) ⟨rfl, rfl, rfl⟩ (.single (.completes rfl true)) ⟨rfl, rfl, rfl⟩ (by decide) .refl
      ⟨rfl, rfl, rfl⟩ (by decide) fuel mhz
  exact hattempt.bind .done

end Xhci

end Amaterasu
