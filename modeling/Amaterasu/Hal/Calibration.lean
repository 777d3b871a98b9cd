/-
`calibrate` in `hal/src/time.rs` and `init` in `hal/src/timer.rs`: two clocks measured against
the PIT.

What is measured is off by the edges of the clocks and by the pauses between the accesses.
How long the pauses may be is told in ticks of the PIT, of which 10 ms have 11931: each adds
three ten-thousandths to the rate of the time stamp counter.  A pause in the wrong place that is
longer than the 10 ms leaves the kernel waiting for an output to be low that is high.
-/
import Amaterasu.Hal.Pit
import Mathlib.Tactic.Ring

namespace Amaterasu

/-! ### What the kernel does -/

/-- How a calibration comes to its end. -/
inductive Calibration (α : Type) where
  | measured (a : α)
  /-- Out of fuel. -/
  | waits
  /-- A difference that is negative. -/
  | panics

def TIMER_VECTOR : UInt8 := 0x20
def DIVIDE_BY_16 : UInt32 := 0x3
def LVT_MASKED : UInt32 := 0x00010000
def LVT_PERIODIC : UInt32 := 0x00020000

namespace Clocks

open Dialogue

/-- `calibrate`, with what it stores in `TSC_KHZ`. -/
def calibrate (fuel : Nat) : Clocks (Calibration UInt64) := do
  let p61 ← armPit
  let tscStart ← rdtsc
  startPit p61
  match ← awaitPit fuel with
  | none => return .waits
  | some () =>
      let tscEnd ← rdtsc
      outb 0x61 p61
      if tscEnd < tscStart then return .panics
      return .measured (max ((tscEnd - tscStart) / 10) 1)

/-- The second half of `calibrate_with_pit`; `none` is out of fuel. -/
def countTicks (p61 : UInt8) (fuel : Nat) : Clocks (Option UInt32) := do
  startPit p61
  match ← awaitPit fuel with
  | none => return none
  | some () =>
      outb 0x61 p61
      let remaining ← lapicRead LAPIC_TIMER_CURRENT
      return some (max ((0xFFFFFFFF - remaining) / 10) 1)

/-- `calibrate_with_pit`. -/
def calibrateWithPit (fuel : Nat) : Clocks (Option UInt32) := do
  let p61 ← armPit
  lapicWrite LAPIC_TIMER_DIVIDE DIVIDE_BY_16
  lapicWrite LAPIC_LVT_TIMER (LVT_MASKED ||| TIMER_VECTOR.toUInt32)
  lapicWrite LAPIC_TIMER_INITIAL 0xFFFFFFFF
  countTicks p61 fuel

/-- `timer::init`, with what it stores in `TICKS_PER_MS`. -/
def timerInit (fuel : Nat) : Clocks (Option UInt32) := do
  match ← calibrateWithPit fuel with
  | none => return none
  | some ticksPerMs =>
      lapicWrite LAPIC_LVT_TIMER (LVT_PERIODIC ||| TIMER_VECTOR.toUInt32)
      lapicWrite LAPIC_TIMER_INITIAL ticksPerMs
      return some ticksPerMs

variable {rates : Rates} {s : ClockState} {k : Nat}

/-- Pauses that are short of the 10 ms. -/
def Rates.Prompt (rates : Rates) : Prop := rates.pause * PIT_HZ < 11930 * rates.tsc

/-! ### The time stamp counter -/

/-- What lies between two accesses around the 10 ms, with `n` pauses in it. -/
structure Measured (rates : Rates) (n start stop : Nat) : Prop where
  least : 11930 * rates.tsc ≤ (stop - start) * PIT_HZ
  most : (stop - start) * PIT_HZ ≤ 11933 * rates.tsc + n * (rates.pause * PIT_HZ)
  order : start ≤ stop

/-- A count of 11931, and what the write that starts it and the accesses behind it add. -/
theorem Measured.of_counts {n start begun done stop : Nat}
    (hcounts : Channel.Counts rates 11931 begun done) (hbegun : start ≤ begun)
    (hbegun' : begun ≤ start + rates.pause) (hdone : done ≤ stop)
    (hstop : stop ≤ done + n * rates.pause) : Measured rates (n + 1) start stop := by
  obtain ⟨hafter, hleast, hmost⟩ := hcounts
  refine ⟨Nat.le_trans hleast (Nat.mul_le_mul_right _ ?_), ?_, by omega⟩
  · omega
  · have hspan : stop - start ≤ (done - begun) + (n + 1) * rates.pause := by
      rw [Nat.succ_mul]
      omega
    calc (stop - start) * PIT_HZ
      _ ≤ ((done - begun) + (n + 1) * rates.pause) * PIT_HZ := Nat.mul_le_mul_right _ hspan
      _ = (done - begun) * PIT_HZ + (n + 1) * (rates.pause * PIT_HZ) := by
          rw [Nat.add_mul, Nat.mul_assoc (n + 1)]
      _ ≤ 11933 * rates.tsc + (n + 1) * (rates.pause * PIT_HZ) := Nat.add_le_add_right hmost _

theorem toNat_max (a b : UInt64) : (max a b).toNat = max a.toNat b.toNat := by
  show (if a ≤ b then b else a).toNat = _
  by_cases hle : a ≤ b
  · rw [if_pos hle, Nat.max_eq_right (UInt64.le_iff_toNat_le.mp hle)]
  · rw [if_neg hle]
    rw [UInt64.le_iff_toNat_le] at hle
    omega

theorem measured_khz {start stop : Nat} (hle : start ≤ stop) (hfit : stop < 2 ^ 64) :
    ¬ UInt64.ofNat stop < UInt64.ofNat start ∧
      (max ((UInt64.ofNat stop - UInt64.ofNat start) / 10) 1).toNat
        = max ((stop - start) / 10) 1 := by
  have hstart : (UInt64.ofNat start).toNat = start :=
    UInt64.toNat_ofNat_of_lt' (Nat.lt_of_le_of_lt hle hfit)
  have hstop : (UInt64.ofNat stop).toNat = stop := UInt64.toNat_ofNat_of_lt' hfit
  have hdiff : (UInt64.ofNat stop - UInt64.ofNat start).toNat = stop - start := by
    rw [UInt64.toNat_sub, hstart, hstop]
    omega
  constructor
  · rw [UInt64.lt_iff_toNat_lt, hstart, hstop]
    omega
  · rw [toNat_max, UInt64.toNat_div, hdiff]
    rfl

/-- The counter does not run over while it is measured. -/
def Fits (rates : Rates) (s : ClockState) : Prop :=
  s.now + rates.tsc + 10 * rates.pause < 2 ^ 64

/-- Prompt, the kernel looks before the channel has finished, and not for long. -/
theorem Rates.Prompt.looks (h : Rates.Prompt rates) {begun done : Nat}
    (hcounts : Channel.Counts rates 11931 begun done) : begun + rates.pause < done := by
  have hleast : 11930 * rates.tsc ≤ (done - begun) * PIT_HZ := hcounts.least
  have hpause : rates.pause < done - begun :=
    Nat.lt_of_mul_lt_mul_right (Nat.lt_of_lt_of_le h hleast)
  omega

theorem counts_short {begun done : Nat} (hcounts : Channel.Counts rates 11931 begun done) :
    done - begun ≤ rates.tsc := by
  have hmost : (done - begun) * PIT_HZ ≤ 11933 * rates.tsc := hcounts.most
  have hpit : 11933 * rates.tsc ≤ rates.tsc * PIT_HZ := by
    rw [Nat.mul_comm]
    exact Nat.mul_le_mul_left _ (by decide)
  exact Nat.le_of_mul_le_mul_right (Nat.le_trans hmost hpit) (by decide)

theorem meets_calibrate (s : ClockState) (fuel : Nat) :
    Meets (clocks rates) (fun r _ =>
      (Fits rates s → r ≠ .panics ∧ ∀ khz, r = .measured khz → ∃ start stop,
        Measured rates 3 start stop ∧ khz.toNat = max ((stop - start) / 10) 1) ∧
      (Rates.Prompt rates → rates.tsc < fuel → r ≠ .waits)) (calibrate fuel) s := by
  refine (meets_armPit s).seq fun p61 s₁ harmed => ?_
  refine Meets.bind (meets_rdtsc fun start hlo hhi => ?_)
  have hchannel : (s₁.at start).channel = .loading [0x9B, 0x2E] := harmed.channel
  refine (meets_startPit hchannel p61).seq fun _ s₂ h₂ => ?_
  obtain ⟨hlo₂, hhi₂, -, done, hcounts, hcounting⟩ := h₂
  have hshort := counts_short hcounts
  refine (meets_awaitPit hcounting fuel).seq fun r s₃ hr => ?_
  cases r with
  | none =>
      refine Meets.pure ⟨fun _ => ⟨by simp, by simp⟩, fun hprompt hfuel => ?_⟩
      exact absurd rfl (hr.2 (hprompt.looks hcounts) (by omega))
  | some _ =>
      obtain ⟨-, hdone, hsoon⟩ := hr.1 rfl
      refine Meets.bind (meets_rdtsc fun stop hlo₄ hhi₄ => ?_)
      refine (Meets.anything (outb 0x61 p61) _).seq fun _ s₅ _ => ?_
      have hstart : start < s₂.now := hlo₂
      have hstart' : s₂.now ≤ start + rates.pause := hhi₂
      have hafter := hcounts.after
      have hstop : stop ≤ done + 2 * rates.pause := by omega
      have hmeasured : Measured rates 3 start stop :=
        .of_counts hcounts (Nat.le_of_lt hstart) hstart' (by omega) hstop
      by_cases hfits : Fits rates s
      · have hsoon₁ := harmed.soon
        have hroom : stop < 2 ^ 64 := by
          unfold Fits at hfits
          omega
        obtain ⟨hno, hkhz⟩ := measured_khz hmeasured.order hroom
        rw [if_neg hno]
        refine Meets.pure ⟨fun _ => ⟨by simp, ?_⟩, by simp⟩
        intro khz hr
        cases hr
        exact ⟨start, stop, hmeasured, hkhz⟩
      · split
        · exact Meets.pure ⟨fun h => absurd h hfits, by simp⟩
        · exact Meets.pure ⟨fun h => absurd h hfits, by simp⟩

/--
**The calibration measures.**  With pauses of at most `k` ticks of the PIT, what is stored
differs from the rate of the counter, in kHz, by two parts in ten thousand and three more for
each of the `k`, besides what is lost to the division; it is not 0, so that nothing is divided
by 0 later.  With pauses that are short of the 10 ms, the kernel does not wait for ever.
-/
theorem calibrate_measures (hpause : rates.pause * PIT_HZ ≤ k * rates.tsc) (hfits : Fits rates s)
    {fuel : Nat} {r : Calibration UInt64} {s' : ClockState}
    (hrun : Runs (clocks rates) (calibrate fuel) s r s') :
    r ≠ .panics ∧ (Rates.Prompt rates → rates.tsc < fuel → r ≠ .waits) ∧
      ∀ khz, r = .measured khz → 1 ≤ khz.toNat ∧
        9998 * rates.tsc ≤ 10000 * (1000 * (khz.toNat + 1)) ∧
        (khz.toNat = 1 ∨ 10000 * (1000 * khz.toNat) ≤ (10001 + 3 * k) * rates.tsc) := by
  obtain ⟨hmeasures, hends⟩ := (meets_calibrate s fuel).run hrun
  obtain ⟨hpanics, hkhz⟩ := hmeasures hfits
  refine ⟨hpanics, hends, ?_⟩
  intro khz hr
  obtain ⟨start, stop, ⟨hleast, hmost, -⟩, heq⟩ := hkhz khz hr
  rw [Nat.add_mul, Nat.mul_assoc 3]
  rw [show PIT_HZ = 1193182 from rfl] at hleast hmost hpause
  generalize k * rates.tsc = extra at *
  refine ⟨by omega, ?_, ?_⟩
  · omega
  · omega

/-! ### Runs -/

/-- How many cycles 10 ms are at least. -/
theorem exists_span (htsc : PIT_HZ ≤ 3 * rates.tsc) : ∃ span,
    11930 * rates.tsc ≤ span * PIT_HZ ∧ span * PIT_HZ ≤ 11933 * rates.tsc ∧
      ∀ n, 11930 * rates.tsc ≤ n * PIT_HZ → span ≤ n := by
  rw [show PIT_HZ = 1193182 from rfl] at *
  refine ⟨(11930 * rates.tsc + 1193181) / 1193182, ?_, ?_, ?_⟩
  · omega
  · omega
  · intro n hn
    omega

/-- From the start of the channel to its end, by a kernel that looks without a pause. -/
theorem runs_pit (hpause : 0 < rates.pause) (htsc : PIT_HZ ≤ 3 * rates.tsc) {fuel : Nat}
    (hfuel : rates.tsc < fuel) (hchannel : s.channel = .loading [0x9B, 0x2E]) (p61 : UInt8) :
    ∃ s₁ s₂ done, Runs (clocks rates) (startPit p61) s () s₁ ∧
      Runs (clocks rates) (awaitPit fuel) s₁ (some ()) s₂ ∧ s₂.channel = .counting done := by
  obtain ⟨span, hleast, hmost, -⟩ := exists_span htsc
  obtain ⟨hlong, hshort⟩ : 1 < span ∧ span ≤ rates.tsc := by
    rw [show PIT_HZ = 1193182 from rfl] at *
    omega
  obtain ⟨s₁, h₁, hchannel₁⟩ : ∃ s', Runs (clocks rates) (startPit p61) s () s' ∧
      s'.channel = .counting (s'.now + span) := runs_startPit hpause hchannel hleast hmost
  obtain ⟨s₂, h₂, hchannel₂⟩ := runs_awaitPit hpause hchannel₁ hlong (by omega : span ≤ fuel)
  exact ⟨s₁, s₂, _, h₁, h₂, hchannel₂⟩

theorem runs_calibrate_measured (hpause : 0 < rates.pause) (htsc : PIT_HZ ≤ 3 * rates.tsc)
    (hfits : Fits rates s) {fuel : Nat} (hfuel : rates.tsc < fuel) :
    ∃ khz s', Runs (clocks rates) (calibrate fuel) s (.measured khz) s' := by
  obtain ⟨p61, s₁, h₁, hchannel₁⟩ := runs_armPit hpause s
  have hstart := runs_rdtsc (Nat.lt_succ_self s₁.now) (Nat.add_le_add_left hpause s₁.now)
  have hchannel : (s₁.at (s₁.now + 1)).channel = .loading [0x9B, 0x2E] := hchannel₁
  obtain ⟨s₂, s₄, done, h₂, hpit, hchannel₄⟩ := runs_pit hpause htsc hfuel hchannel p61
  have hstop := runs_rdtsc (Nat.lt_succ_self s₄.now) (Nat.add_le_add_left hpause s₄.now)
  obtain ⟨s₆, hrestore, -⟩ := runs_restore (s := s₄.at (s₄.now + 1)) hpause hchannel₄ p61
  have hall : ∀ r, Runs (clocks rates) (if UInt64.ofNat (s₄.now + 1) < UInt64.ofNat (s₁.now + 1)
      then return .panics
      else return .measured (max ((UInt64.ofNat (s₄.now + 1) - UInt64.ofNat (s₁.now + 1)) / 10) 1))
      s₆ r s₆ → Runs (clocks rates) (calibrate fuel) s r s₆ := fun r hend =>
    h₁.bind (hstart.bind (h₂.bind (hpit.bind (hstop.bind (hrestore.bind hend)))))
  by_cases hneg : UInt64.ofNat (s₄.now + 1) < UInt64.ofNat (s₁.now + 1)
  · rw [if_pos hneg] at hall
    have hrun := hall _ .done
    exact absurd rfl (((meets_calibrate s fuel).run hrun).1 hfits).1
  · rw [if_neg hneg] at hall
    exact ⟨_, s₆, hall _ .done⟩

/-- A machine at 3 GHz, with a microsecond at most between two accesses. -/
def fastMachine : Rates := ⟨3000000000, 100000000, 3000⟩

/-- Its clocks when it is switched on. -/
def coldClocks : ClockState := ⟨0, true, .other, ⟨0, 0, 0, 0⟩⟩

theorem calibrate_measures_fast : ∃ khz s',
    Runs (clocks fastMachine) (calibrate 3000000001) coldClocks (.measured khz) s' ∧
      9998 * fastMachine.tsc ≤ 10000 * (1000 * (khz.toNat + 1)) := by
  have hfits : Fits fastMachine coldClocks := by
    unfold Fits
    decide
  have hfuel : fastMachine.tsc < 3000000001 := by decide
  obtain ⟨khz, s', hrun⟩ := runs_calibrate_measured (by decide) (by decide) hfits hfuel
  have hk : fastMachine.pause * PIT_HZ ≤ 2 * fastMachine.tsc := by decide
  have hmeasures := calibrate_measures hk hfits hrun
  exact ⟨khz, s', hrun, (hmeasures.2.2 khz rfl).2.1⟩

/-- The first loop is reached in a state from which it can look for ever at an output that
is high. -/
def FirstLoopWaits (rates : Rates) (s : ClockState) : Prop :=
  ∃ p61 s₁ tscStart s₂ s₃, Runs (clocks rates) armPit s p61 s₁ ∧
    Runs (clocks rates) rdtsc s₁ tscStart s₂ ∧ Runs (clocks rates) (startPit p61) s₂ () s₃ ∧
      ∀ fuel, ∃ s', Runs (clocks rates) (awaitOutput false fuel) s₃ none s'

theorem FirstLoopWaits.calibrate (h : FirstLoopWaits rates s) (fuel : Nat) :
    ∃ s', Runs (clocks rates) (calibrate fuel) s .waits s' := by
  obtain ⟨p61, s₁, tscStart, s₂, s₃, h₁, hclock, h₂, hloop⟩ := h
  obtain ⟨s', h₃⟩ := hloop fuel
  have hpit : Runs (clocks rates) (awaitPit fuel) s₃ none s' := h₃.bind .done
  exact ⟨s', h₁.bind (hclock.bind (h₂.bind (hpit.bind .done)))⟩

/-- The kernel is kept from its first look until the channel has finished. -/
theorem firstLoopWaits (hpause : 0 < rates.pause) (htsc : PIT_HZ ≤ 3 * rates.tsc)
    (hlate : ¬ Rates.Prompt rates) (s : ClockState) : FirstLoopWaits rates s := by
  obtain ⟨span, hleast, hmost, hspan⟩ := exists_span htsc
  obtain ⟨p61, s₁, h₁, hchannel₁⟩ := runs_armPit hpause s
  obtain ⟨s₃, h₂, hchannel₂⟩ : ∃ s', Runs (clocks rates) (startPit p61) (s₁.at (s₁.now + 1)) () s' ∧
      s'.channel = .counting (s'.now + span) := runs_startPit hpause hchannel₁ hleast hmost
  have hclock := runs_rdtsc (Nat.lt_succ_self s₁.now) (Nat.add_le_add_left hpause s₁.now)
  have hpast : s₃.now + span ≤ s₃.now + rates.pause :=
    Nat.add_le_add_left (hspan _ (Nat.le_of_not_lt hlate)) _
  exact ⟨p61, s₁, _, _, s₃, h₁, hclock, h₂,
    fun fuel => runs_awaitLow_late hpause fuel hchannel₂ hpast⟩

/--
**When the boot can hang.**  The calibration is sure to end if and only if no pause between two
accesses can be as long as the 10 ms it measures: the kernel may look at the output for the
first time when it is high again, and then waits for it to be low.
-/
theorem calibrate_ends_iff (hpause : 0 < rates.pause) (htsc : PIT_HZ ≤ 3 * rates.tsc)
    (s : ClockState) :
    ((∃ n, ∀ fuel, n ≤ fuel → ∀ r s',
      Runs (clocks rates) (calibrate fuel) s r s' → r ≠ .waits) ↔ Rates.Prompt rates) ∧
    (¬ Rates.Prompt rates → FirstLoopWaits rates s) := by
  refine ⟨⟨?_, ?_⟩, fun hlate => firstLoopWaits hpause htsc hlate s⟩
  · rintro ⟨n, hends⟩
    by_contra hlate
    obtain ⟨s', hrun⟩ := (firstLoopWaits hpause htsc hlate s).calibrate n
    exact hends n (Nat.le_refl n) _ _ hrun rfl
  · intro hprompt
    exact ⟨rates.tsc + 1, fun fuel hfuel r s' hrun =>
      ((meets_calibrate s fuel).run hrun).2 hprompt hfuel⟩

/-- The same machine, with a firmware that can keep the kernel for 10 ms. -/
def heldMachine : Rates := ⟨3000000000, 100000000, 30000000⟩

/-- The one machine is sure to end it, and the other one can wait for ever. -/
theorem calibrate_ends_iff_fast :
    (∃ n, ∀ fuel, n ≤ fuel → ∀ r s',
      Runs (clocks fastMachine) (calibrate fuel) coldClocks r s' → r ≠ .waits) ∧
    FirstLoopWaits heldMachine coldClocks := by
  have hprompt : Rates.Prompt fastMachine := by
    unfold Rates.Prompt
    decide
  have hlate : ¬ Rates.Prompt heldMachine := by
    unfold Rates.Prompt
    decide
  exact ⟨(calibrate_ends_iff (by decide) (by decide) coldClocks).1.mpr hprompt,
    (calibrate_ends_iff (by decide) (by decide) coldClocks).2 hlate⟩

/-! ### The timer of the local APIC -/

/-- The timer has run since it was written at `began`, and counts down from all ones. -/
structure Running (began : Nat) (t : LapicTimer) : Prop where
  divide : t.divide = DIVIDE_BY_16
  initial : t.initial = 0xFFFFFFFF
  since : t.since = began

/-- The ticks between the writing of the timer and the reading of it. -/
structure Ticked (rates : Rates) (span ticks : Nat) : Prop where
  most : ticks * (16 * rates.tsc) ≤ span * rates.bus + 16 * rates.tsc
  least : span * rates.bus ≤ (ticks + 1) * (16 * rates.tsc)

theorem meets_lapicRead {began : Nat} (h : Running began s.lapic) :
    Meets (clocks rates) (fun v s' => s.now < s'.now ∧ s'.now ≤ s.now + rates.pause ∧
      s'.lapic = s.lapic ∧ ∃ ticks, Ticked rates (s'.now - began) ticks ∧
        v = UInt32.ofNat (2 ^ 32 - 1 - ticks)) (lapicRead LAPIC_TIMER_CURRENT) s := by
  intro s₁ r s' ⟨t, hlo, hhi, hs₁⟩ ⟨hs', hreads⟩
  subst hs₁ hs'
  obtain ⟨ticks, ⟨hmost, hleast⟩, hr⟩ := hreads rfl
  have hdivisor : LapicTimer.divisor s.lapic.divide = 16 := by
    rw [h.divide]
    rfl
  refine ⟨hlo, hhi, rfl, ticks, ⟨?_, ?_⟩, ?_⟩
  · rw [← hdivisor, ← h.since]
    exact hmost
  · rw [← hdivisor, ← h.since]
    exact hleast
  · have hones : s.lapic.initial.toNat = 2 ^ 32 - 1 := by
      rw [h.initial]
      rfl
    rw [← hones]
    exact hr

theorem write_divide (t : LapicTimer) (v : UInt32) (now : Nat) :
    t.write LAPIC_TIMER_DIVIDE v now = { t with divide := v } := rfl

theorem write_lvt (t : LapicTimer) (v : UInt32) (now : Nat) :
    t.write LAPIC_LVT_TIMER v now = { t with lvt := v } := rfl

theorem write_initial (t : LapicTimer) (v : UInt32) (now : Nat) :
    t.write LAPIC_TIMER_INITIAL v now = { t with initial := v, since := now } := rfl

theorem toNat_max32 (a b : UInt32) : (max a b).toNat = max a.toNat b.toNat := by
  show (if a ≤ b then b else a).toNat = _
  by_cases hle : a ≤ b
  · rw [if_pos hle, Nat.max_eq_right (UInt32.le_iff_toNat_le.mp hle)]
  · rw [if_neg hle]
    rw [UInt32.le_iff_toNat_le] at hle
    omega

/-- What the counter has lost, in whole tens. -/
theorem toNat_ticksPerMs {ticks : Nat} (hfit : ticks < 2 ^ 32) :
    (max ((0xFFFFFFFF - UInt32.ofNat (2 ^ 32 - 1 - ticks)) / 10) 1).toNat
      = max (ticks / 10) 1 := by
  have hleft : (UInt32.ofNat (2 ^ 32 - 1 - ticks)).toNat = 2 ^ 32 - 1 - ticks :=
    UInt32.toNat_ofNat_of_lt' (by rw [show UInt32.size = 2 ^ 32 from rfl]; omega)
  have hlost : (0xFFFFFFFF - UInt32.ofNat (2 ^ 32 - 1 - ticks)).toNat = ticks := by
    rw [UInt32.toNat_sub, hleft, show (0xFFFFFFFF : UInt32).toNat = 2 ^ 32 - 1 from rfl]
    omega
  rw [toNat_max32, UInt32.toNat_div, hlost]
  rfl

/-- What is known of a result. -/
def Counted (rates : Rates) (tpm : UInt32) : Prop :=
  ∃ start stop ticks, Measured rates 4 start stop ∧ Ticked rates (stop - start) ticks ∧
    (ticks < 2 ^ 32 → tpm.toNat = max (ticks / 10) 1)

theorem meets_countTicks (hchannel : s.channel = .loading [0x9B, 0x2E])
    (hrunning : Running s.now s.lapic) (p61 : UInt8) (fuel : Nat) :
    Meets (clocks rates) (fun r s' =>
      (∀ tpm, r = some tpm → s'.lapic.divide = DIVIDE_BY_16 ∧ Counted rates tpm) ∧
      (Rates.Prompt rates → rates.tsc < fuel → r ≠ none)) (countTicks p61 fuel) s := by
  refine (meets_startPit hchannel p61).seq fun _ s₂ h₂ => ?_
  obtain ⟨hlo₂, hhi₂, hlapic₂, done, hcounts, hcounting⟩ := h₂
  have hshort := counts_short hcounts
  refine (meets_awaitPit hcounting fuel).seq fun r s₃ hr => ?_
  cases r with
  | none =>
      refine Meets.pure ⟨by simp, fun hprompt hfuel => ?_⟩
      exact absurd rfl (hr.2 (hprompt.looks hcounts) (by omega))
  | some _ =>
      obtain ⟨hcounting₃, hdone, hsoon⟩ := hr.1 rfl
      refine Meets.bind (meets_gate _ fun t₄ c hlo₄ hhi₄ _ => ?_)
      have hrunning₃ : Running s.now s₃.lapic := by
        rw [hcounting₃.lapic, hlapic₂]
        exact hrunning
      have hrunning₄ : Running s.now
          { s₃.at t₄ with gate := decide (p61 &&& 0x01 ≠ 0), channel := c }.lapic := hrunning₃
      refine (meets_lapicRead hrunning₄).seq fun v s₅ h₅ => ?_
      obtain ⟨hlo₅, hhi₅, hlapic₅, ticks, hticked, hv⟩ := h₅
      have hlo₅' : t₄ < s₅.now := hlo₅
      have hhi₅' : s₅.now ≤ t₄ + rates.pause := hhi₅
      have hstop : s₅.now ≤ done + 3 * rates.pause := by omega
      have hmeasured : Measured rates 4 s.now s₅.now :=
        .of_counts hcounts (Nat.le_of_lt hlo₂) hhi₂ (by omega) hstop
      refine Meets.pure ⟨fun tpm heq => ?_, by simp⟩
      obtain rfl := Option.some.inj heq
      refine ⟨?_, s.now, s₅.now, ticks, hmeasured, hticked, fun hfit => ?_⟩
      · rw [hlapic₅]
        exact hrunning₃.divide
      · rw [hv]
        exact toNat_ticksPerMs hfit

theorem meets_calibrateWithPit (s : ClockState) (fuel : Nat) :
    Meets (clocks rates) (fun r s' =>
      (∀ tpm, r = some tpm → s'.lapic.divide = DIVIDE_BY_16 ∧ Counted rates tpm) ∧
      (Rates.Prompt rates → rates.tsc < fuel → r ≠ none)) (calibrateWithPit fuel) s := by
  refine (meets_armPit s).seq fun p61 s₁ harmed => ?_
  refine Meets.bind (meets_lapicWrite _ _ fun t₂ hlo₂ hhi₂ => ?_)
  refine Meets.bind (meets_lapicWrite _ _ fun t₃ hlo₃ hhi₃ => ?_)
  refine Meets.bind (meets_lapicWrite _ _ fun start hlo₄ hhi₄ => ?_)
  rw [write_divide, write_lvt, write_initial]
  refine meets_countTicks ?_ ?_ p61 fuel
  · exact harmed.channel
  · exact ⟨rfl, rfl, rfl⟩

/-- The interrupts of the timer come every `ticksPerMs` ticks of 16 cycles of the bus. -/
structure Periodic (ticksPerMs : UInt32) (t : LapicTimer) : Prop where
  divide : t.divide = DIVIDE_BY_16
  lvt : t.lvt = LVT_PERIODIC ||| TIMER_VECTOR.toUInt32
  initial : t.initial = ticksPerMs

theorem meets_timerInit (s : ClockState) (fuel : Nat) :
    Meets (clocks rates) (fun r s' =>
      (∀ tpm, r = some tpm → Periodic tpm s'.lapic ∧ Counted rates tpm) ∧
      (Rates.Prompt rates → rates.tsc < fuel → r ≠ none)) (timerInit fuel) s := by
  refine (meets_calibrateWithPit s fuel).seq fun r s₁ hr => ?_
  cases r with
  | none => exact Meets.pure ⟨by simp, hr.2⟩
  | some tpm =>
      obtain ⟨hdivide, hcounted⟩ := hr.1 tpm rfl
      refine Meets.bind (meets_lapicWrite _ _ fun t₂ _ _ => ?_)
      refine Meets.bind (meets_lapicWrite _ _ fun t₃ _ _ => ?_)
      rw [write_lvt, write_initial]
      refine Meets.pure ⟨fun tpm' heq => ?_, by simp⟩
      obtain rfl := Option.some.inj heq
      exact ⟨⟨hdivide, rfl, rfl⟩, hcounted⟩

/-- The ticks there are in 10 ms and four pauses. -/
theorem Ticked.bounds {start stop ticks : Nat} (htsc : 0 < rates.tsc)
    (hpause : rates.pause * PIT_HZ ≤ k * rates.tsc) (hmeasured : Measured rates 4 start stop)
    (h : Ticked rates (stop - start) ticks) :
    11930 * rates.bus ≤ (ticks + 1) * (16 * PIT_HZ) ∧
      ticks * (16 * PIT_HZ) ≤ (11933 + 4 * k) * rates.bus + 16 * PIT_HZ := by
  obtain ⟨hleast, hmost, -⟩ := hmeasured
  have hspan : (stop - start) * PIT_HZ ≤ (11933 + 4 * k) * rates.tsc := by
    rw [Nat.add_mul, Nat.mul_assoc 4]
    omega
  constructor
  · refine Nat.le_of_mul_le_mul_right ?_ htsc
    calc 11930 * rates.bus * rates.tsc
      _ = 11930 * rates.tsc * rates.bus := by ring
      _ ≤ (stop - start) * PIT_HZ * rates.bus := Nat.mul_le_mul_right _ hleast
      _ = (stop - start) * rates.bus * PIT_HZ := by ring
      _ ≤ (ticks + 1) * (16 * rates.tsc) * PIT_HZ := Nat.mul_le_mul_right _ h.least
      _ = (ticks + 1) * (16 * PIT_HZ) * rates.tsc := by ring
  · refine Nat.le_of_mul_le_mul_right ?_ htsc
    calc ticks * (16 * PIT_HZ) * rates.tsc
      _ = ticks * (16 * rates.tsc) * PIT_HZ := by ring
      _ ≤ ((stop - start) * rates.bus + 16 * rates.tsc) * PIT_HZ :=
          Nat.mul_le_mul_right _ h.most
      _ = (stop - start) * PIT_HZ * rates.bus + 16 * rates.tsc * PIT_HZ := by ring
      _ ≤ (11933 + 4 * k) * rates.tsc * rates.bus + 16 * rates.tsc * PIT_HZ :=
          Nat.add_le_add_right (Nat.mul_le_mul_right _ hspan) _
      _ = ((11933 + 4 * k) * rates.bus + 16 * PIT_HZ) * rates.tsc := by ring

/--
**The timer interrupts every millisecond.**  With pauses of at most `k` ticks of the PIT, and a
bus on which the timer does not run down in the time, the timer is left periodic, with a period
that differs from the 1000th part of a second by two parts in ten thousand and four more for
each of the `k`, besides one tick of the timer that is lost to the division.
-/
theorem timer_period (htsc : 0 < rates.tsc) (hpause : rates.pause * PIT_HZ ≤ k * rates.tsc)
    (hbus : (11933 + 4 * k) * rates.bus + 16 * PIT_HZ < 2 ^ 32 * (16 * PIT_HZ))
    {fuel : Nat} {r : Option UInt32} {s' : ClockState}
    (hrun : Runs (clocks rates) (timerInit fuel) s r s') :
    (Rates.Prompt rates → rates.tsc < fuel → r ≠ none) ∧
      ∀ tpm, r = some tpm → Periodic tpm s'.lapic ∧ 1 ≤ tpm.toNat ∧
        9998 * rates.bus ≤ 10000 * (1000 * (16 * (tpm.toNat + 1))) ∧
        (tpm.toNat = 1 ∨
          10000 * (1000 * (16 * tpm.toNat)) ≤ (10001 + 4 * k) * rates.bus + 16000000) := by
  obtain ⟨hperiodic, hends⟩ := (meets_timerInit s fuel).run hrun
  refine ⟨hends, ?_⟩
  intro tpm hr
  obtain ⟨hleft, start, stop, ticks, hmeasured, hticked, heq⟩ := hperiodic tpm hr
  obtain ⟨hlower, hupper⟩ := hticked.bounds htsc hpause hmeasured
  have hfit : ticks < 2 ^ 32 :=
    Nat.lt_of_mul_lt_mul_right (Nat.lt_of_le_of_lt hupper hbus)
  have htpm := heq hfit
  rw [show PIT_HZ = 1193182 from rfl] at hlower hupper
  rw [Nat.add_mul, Nat.mul_assoc 4] at hupper ⊢
  generalize k * rates.bus = extra at *
  refine ⟨hleft, by omega, ?_, ?_⟩
  · omega
  · omega

theorem runs_timerInit (hpause : 0 < rates.pause) (htsc : PIT_HZ ≤ 3 * rates.tsc) {fuel : Nat}
    (hfuel : rates.tsc < fuel) (s : ClockState) :
    ∃ tpm s', Runs (clocks rates) (timerInit fuel) s (some tpm) s' := by
  have hpos : 0 < rates.tsc := by
    rw [show PIT_HZ = 1193182 from rfl] at htsc
    omega
  have hwrite : ∀ (s : ClockState) (reg v : UInt32), ∃ s', Runs (clocks rates)
      (lapicWrite reg v) s () s' ∧ s'.channel = s.channel := fun s reg v =>
    ⟨_, runs_lapicWrite (Nat.lt_succ_self _) (Nat.add_le_add_left hpause _) reg v, rfl⟩
  obtain ⟨p61, s₁, h₁, hchannel₁⟩ := runs_armPit hpause s
  obtain ⟨s₂, h₂, hchannel₂⟩ := hwrite s₁ LAPIC_TIMER_DIVIDE DIVIDE_BY_16
  obtain ⟨s₃, h₃, hchannel₃⟩ := hwrite s₂ LAPIC_LVT_TIMER (LVT_MASKED ||| TIMER_VECTOR.toUInt32)
  obtain ⟨s₄, h₄, hchannel₄⟩ := hwrite s₃ LAPIC_TIMER_INITIAL 0xFFFFFFFF
  have hchannel : s₄.channel = .loading [0x9B, 0x2E] := by
    rw [hchannel₄, hchannel₃, hchannel₂, hchannel₁]
  obtain ⟨s₅, s₆, done, h₅, hpit, hchannel₆⟩ := runs_pit hpause htsc hfuel hchannel p61
  obtain ⟨s₇, h₇, -⟩ := runs_restore hpause hchannel₆ p61
  obtain ⟨v, s₈, h₈⟩ := runs_lapicRead hpause hpos LAPIC_TIMER_CURRENT
  have hcount : Runs (clocks rates) (countTicks p61 fuel) s₄
      (some (max ((0xFFFFFFFF - v) / 10) 1)) s₈ :=
    h₅.bind (hpit.bind (h₇.bind (h₈.bind .done)))
  have hcalibrate : Runs (clocks rates) (calibrateWithPit fuel) s
      (some (max ((0xFFFFFFFF - v) / 10) 1)) s₈ :=
    h₁.bind (h₂.bind (h₃.bind (h₄.bind hcount)))
  obtain ⟨s₉, h₉, -⟩ := hwrite s₈ LAPIC_LVT_TIMER (LVT_PERIODIC ||| TIMER_VECTOR.toUInt32)
  obtain ⟨s', h', -⟩ := hwrite s₉ LAPIC_TIMER_INITIAL (max ((0xFFFFFFFF - v) / 10) 1)
  exact ⟨_, s', hcalibrate.bind (h₉.bind (h'.bind .done))⟩

/-- The machine at 3 GHz, with a bus of 100 MHz on which a millisecond has 6250 ticks. -/
theorem timer_period_fast : ∃ tpm s',
    Runs (clocks fastMachine) (timerInit 3000000001) coldClocks (some tpm) s' ∧
      Periodic tpm s'.lapic ∧ 6248 ≤ tpm.toNat ∧ tpm.toNat ≤ 6255 := by
  have hfuel : fastMachine.tsc < 3000000001 := by decide
  obtain ⟨tpm, s', hrun⟩ := runs_timerInit (by decide) (by decide) hfuel coldClocks
  have hk : fastMachine.pause * PIT_HZ ≤ 2 * fastMachine.tsc := by decide
  have hperiod := timer_period (by decide) hk (by decide) hrun
  obtain ⟨hperiodic, -, hleast, hmost⟩ := hperiod.2 tpm rfl
  have hbus : fastMachine.bus = 100000000 := rfl
  exact ⟨tpm, s', hrun, hperiodic, by omega, by omega⟩

end Clocks

end Amaterasu
