/-
Channel 2 of the PIT as a reference: what `calibrate` in `hal/src/time.rs` and
`calibrate_with_pit` in `hal/src/timer.rs` have in common.

The channel counts down at a known rate, 11931 ticks in 10 ms, and shows at port 0x61 when it
has finished.  The kernel starts it and reads the port in a loop, first until the output is low
and then until it is high.  The first loop has something to find only if the kernel looks
before the channel has finished.
-/
import Amaterasu.Hal.Ports

namespace Amaterasu

/-! ### What the kernel does -/

/-- An access to a port, to the time stamp counter or to a register of the local APIC. -/
inductive ClockAccess where
  | inb (port : UInt16)
  | outb (port : UInt16) (v : UInt8)
  | rdtsc
  | lapicRead (reg : UInt32)
  | lapicWrite (reg v : UInt32)
  deriving DecidableEq, Repr

/-- A program of accesses; what is read comes back in the low bits. -/
abbrev Clocks := Dialogue ClockAccess UInt64

namespace Clocks

open Dialogue

def inb (port : UInt16) : Clocks UInt8 := do
  let r ← query (.inb port)
  return r.toUInt8

def outb (port : UInt16) (v : UInt8) : Clocks Unit := do
  let _ ← query (.outb port v)

def rdtsc : Clocks UInt64 := query .rdtsc

def lapicRead (reg : UInt32) : Clocks UInt32 := do
  let r ← query (.lapicRead reg)
  return r.toUInt32

def lapicWrite (reg v : UInt32) : Clocks Unit := do
  let _ ← query (.lapicWrite reg v)

/-- `PIT_COUNT`: 10 ms at 1.193182 MHz. -/
def PIT_COUNT : UInt16 := 11931

/-- The gate held low, and channel 2 set up: lo/hi byte, mode 0, binary. -/
def armPit : Clocks UInt8 := do
  let p61 ← inb 0x61
  outb 0x61 (p61 &&& 0xFE)
  outb 0x43 0xB0
  outb 0x42 (PIT_COUNT &&& 0xFF).toUInt8
  outb 0x42 (PIT_COUNT >>> 8).toUInt8
  return p61

/-- The gate high, the speaker off. -/
def startPit (p61 : UInt8) : Clocks Unit := outb 0x61 ((p61 &&& 0xFD) ||| 0x01)

/-- `while inb(0x61) & 0x20 != 0 {}`, or `== 0`; `none` is out of fuel. -/
def awaitOutput (high : Bool) : Nat → Clocks (Option Unit)
  | 0 => return none
  | n + 1 => do
      if decide ((← inb 0x61) &&& 0x20 ≠ 0) = high then return some ()
      awaitOutput high n

/-- Wait for LOW (counting), then for HIGH (done). -/
def awaitPit (fuel : Nat) : Clocks (Option Unit) := do
  match ← awaitOutput false fuel with
  | none => return none
  | some () => awaitOutput true fuel

end Clocks

/-! ### The clocks -/

/-- The rate of the PIT, in Hz. -/
def PIT_HZ : Nat := 1193182

/-- The rates of a machine in Hz, and how many cycles pass between two accesses at most. -/
structure Rates where
  tsc : Nat
  bus : Nat
  pause : Nat

/-- Channel 2 of the PIT. -/
inductive Channel where
  /-- As somebody else has left it. -/
  | other
  /-- In mode 0, with the bytes of the count that have been written. -/
  | loading (bytes : List UInt8)
  /-- Its output is high from then on. -/
  | counting (done : Nat)

namespace Channel

/-- What the output is like. -/
def Shows : Channel → Nat → Bool → Prop
  | other, _, _ => True
  | loading _, _, high => high = false
  | counting done, now, high => high = decide (done ≤ now)

/-- A byte of the count. -/
def load : Channel → UInt8 → Channel
  | loading bytes, v => loading (bytes ++ [v])
  | _, _ => other

/-- A count of `n` that begins at `now` and ends at `done`, the edges of the clock of the PIT
lying anywhere. -/
structure Counts (rates : Rates) (n now done : Nat) : Prop where
  after : now ≤ done
  least : (n - 1) * rates.tsc ≤ (done - now) * PIT_HZ
  most : (done - now) * PIT_HZ ≤ (n + 2) * rates.tsc

/-- What the gate makes of the channel. -/
def Gated (rates : Rates) (gate : Bool) (now : Nat) : Channel → Channel → Prop
  | loading [lo, hi], c' =>
      if gate then ∃ done, Counts rates (lo.toNat + 256 * hi.toNat) now done ∧ c' = counting done
      else c' = loading [lo, hi]
  | counting done, c' => c' = if gate then counting done else other
  | c, c' => c' = c

end Channel

/-- The timer of the local APIC. -/
structure LapicTimer where
  divide : UInt32
  lvt : UInt32
  initial : UInt32
  /-- When `initial` was written. -/
  since : Nat

def LAPIC_LVT_TIMER : UInt32 := 0x320
def LAPIC_TIMER_INITIAL : UInt32 := 0x380
def LAPIC_TIMER_CURRENT : UInt32 := 0x390
def LAPIC_TIMER_DIVIDE : UInt32 := 0x3E0

namespace LapicTimer

def write (t : LapicTimer) (reg v : UInt32) (now : Nat) : LapicTimer :=
  if reg = LAPIC_LVT_TIMER then { t with lvt := v }
  else if reg = LAPIC_TIMER_INITIAL then { t with initial := v, since := now }
  else if reg = LAPIC_TIMER_DIVIDE then { t with divide := v }
  else t

/-- Cycles of the bus to a tick, in bits 3, 1 and 0. -/
def divisor (v : UInt32) : Nat :=
  if v &&& 0xB = 0x0 then 2
  else if v &&& 0xB = 0x1 then 4
  else if v &&& 0xB = 0x2 then 8
  else if v &&& 0xB = 0x3 then 16
  else if v &&& 0xB = 0x8 then 32
  else if v &&& 0xB = 0x9 then 64
  else if v &&& 0xB = 0xA then 128
  else 1

/-- How many ticks have passed, the edges of the clock lying anywhere. -/
structure Passed (rates : Rates) (t : LapicTimer) (now ticks : Nat) : Prop where
  most : ticks * (divisor t.divide * rates.tsc)
    ≤ (now - t.since) * rates.bus + divisor t.divide * rates.tsc
  least : (now - t.since) * rates.bus ≤ (ticks + 1) * (divisor t.divide * rates.tsc)

end LapicTimer

structure ClockState where
  /-- The cycles of the time stamp counter, and none of them lost. -/
  now : Nat
  gate : Bool
  channel : Channel
  lapic : LapicTimer

/-- Later. -/
def ClockState.at (s : ClockState) (t : Nat) : ClockState := { s with now := t }

/-- The clocks.  An access takes effect when it is its turn, a cycle or more after the last. -/
def clocks (rates : Rates) : Device ClockState ClockAccess UInt64 where
  drifts s s' := ∃ t, s.now < t ∧ t ≤ s.now + rates.pause ∧ s' = s.at t
  answers s q r s' := match q with
    | .inb port => s' = s ∧ (port = 0x61 →
        s.channel.Shows s.now (decide (r.toUInt8 &&& 0x20 ≠ 0)))
    | .outb port v =>
        if port = 0x61 then ∃ c, s.channel.Gated rates (decide (v &&& 0x01 ≠ 0)) s.now c ∧
          s' = { s with gate := decide (v &&& 0x01 ≠ 0), channel := c }
        else if port = 0x43 then
          s' = { s with channel := if v = 0xB0 then .loading [] else .other }
        else if port = 0x42 then ∃ c, (s.channel.load v).Gated rates s.gate s.now c ∧
          s' = { s with channel := c }
        else s' = s
    | .rdtsc => s' = s ∧ r = UInt64.ofNat s.now
    | .lapicRead reg => s' = s ∧ (reg = LAPIC_TIMER_CURRENT → ∃ ticks,
        s.lapic.Passed rates s.now ticks ∧
          r.toUInt32 = UInt32.ofNat (s.lapic.initial.toNat - ticks))
    | .lapicWrite reg v => s' = { s with lapic := s.lapic.write reg v s.now }

namespace Clocks

open Dialogue

variable {rates : Rates} {s : ClockState}

/-! ### One access -/

theorem meets_inb {post : UInt8 → ClockState → Prop} (port : UInt16)
    (h : ∀ t v, s.now < t → t ≤ s.now + rates.pause →
      (port = 0x61 → s.channel.Shows t (decide (v &&& 0x20 ≠ 0))) → post v (s.at t)) :
    Meets (clocks rates) post (inb port) s := by
  intro s₁ r s' ⟨t, hlo, hhi, hs₁⟩ ⟨hs', hshows⟩
  subst hs₁ hs'
  exact h t r.toUInt8 hlo hhi hshows

/-- The gate. -/
theorem meets_gate {post : Unit → ClockState → Prop} (v : UInt8)
    (h : ∀ t c, s.now < t → t ≤ s.now + rates.pause →
      s.channel.Gated rates (decide (v &&& 0x01 ≠ 0)) t c →
      post () { s.at t with gate := decide (v &&& 0x01 ≠ 0), channel := c }) :
    Meets (clocks rates) post (outb 0x61 v) s := by
  intro s₁ r s' ⟨t, hlo, hhi, hs₁⟩ ⟨c, hgated, hs'⟩
  subst hs₁ hs'
  exact h t c hlo hhi hgated

/-- A control word. -/
theorem meets_control {post : Unit → ClockState → Prop} (v : UInt8)
    (h : ∀ t, s.now < t → t ≤ s.now + rates.pause →
      post () { s.at t with channel := if v = 0xB0 then .loading [] else .other }) :
    Meets (clocks rates) post (outb 0x43 v) s := by
  intro s₁ r s' ⟨t, hlo, hhi, hs₁⟩ hs'
  subst hs₁
  exact hs' ▸ h t hlo hhi

/-- A byte of the count. -/
theorem meets_count {post : Unit → ClockState → Prop} (v : UInt8)
    (h : ∀ t c, s.now < t → t ≤ s.now + rates.pause →
      (s.channel.load v).Gated rates s.gate t c → post () { s.at t with channel := c }) :
    Meets (clocks rates) post (outb 0x42 v) s := by
  intro s₁ r s' ⟨t, hlo, hhi, hs₁⟩ ⟨c, hgated, hs'⟩
  subst hs₁ hs'
  exact h t c hlo hhi hgated

theorem meets_rdtsc {post : UInt64 → ClockState → Prop}
    (h : ∀ t, s.now < t → t ≤ s.now + rates.pause → post (UInt64.ofNat t) (s.at t)) :
    Meets (clocks rates) post rdtsc s := by
  intro s₁ r s' ⟨t, hlo, hhi, hs₁⟩ ⟨hs', hr⟩
  subst hs₁ hs' hr
  exact h t hlo hhi

theorem meets_lapicWrite {post : Unit → ClockState → Prop} (reg v : UInt32)
    (h : ∀ t, s.now < t → t ≤ s.now + rates.pause →
      post () { s.at t with lapic := s.lapic.write reg v t }) :
    Meets (clocks rates) post (lapicWrite reg v) s := by
  intro s₁ r s' ⟨t, hlo, hhi, hs₁⟩ hs'
  subst hs₁ hs'
  exact h t hlo hhi

/-! ### Started -/

/-- Channel 2 is to count 11931 and is held. -/
structure Armed (rates : Rates) (s₀ s : ClockState) : Prop where
  channel : s.channel = .loading [0x9B, 0x2E]
  gate : s.gate = false
  lapic : s.lapic = s₀.lapic
  after : s₀.now ≤ s.now
  soon : s.now ≤ s₀.now + 5 * rates.pause

theorem low_gate (p61 : UInt8) : (p61 &&& 0xFE) &&& 0x01 = 0 := by
  rw [UInt8.and_assoc, show (0xFE : UInt8) &&& 0x01 = 0 from rfl, UInt8.and_zero]

theorem high_gate (p61 : UInt8) : ((p61 &&& 0xFD) ||| 0x01) &&& 0x01 ≠ 0 := by
  rw [Ports.mask_or, ne_eq, UInt8.or_eq_zero_iff]
  exact fun h => absurd h.2 (by decide)

/-- The channel as the control word left it, and the first byte of the count. -/
theorem meets_armPit (s : ClockState) :
    Meets (clocks rates) (fun _ s' => Armed rates s s') armPit s := by
  refine Meets.bind (meets_inb 0x61 fun t₁ p61 hlo₁ hhi₁ _ => ?_)
  refine Meets.bind (meets_gate _ fun t₂ c₂ hlo₂ hhi₂ _ => ?_)
  rw [low_gate]
  refine Meets.bind (meets_control _ fun t₃ hlo₃ hhi₃ => ?_)
  refine Meets.bind (meets_count _ fun t₄ c₄ hlo₄ hhi₄ hc₄ => ?_)
  refine Meets.bind (meets_count _ fun t₅ c₅ hlo₅ hhi₅ hc₅ => ?_)
  obtain rfl : c₄ = .loading [0x9B] := hc₄
  obtain rfl : c₅ = .loading [0x9B, 0x2E] := hc₅
  refine Meets.pure ⟨rfl, rfl, rfl, ?_, ?_⟩
  · show s.now ≤ t₅
    have hlo₂' : t₁ < t₂ := hlo₂
    have hlo₃' : t₂ < t₃ := hlo₃
    have hlo₄' : t₃ < t₄ := hlo₄
    have hlo₅' : t₄ < t₅ := hlo₅
    omega
  · show t₅ ≤ s.now + 5 * rates.pause
    have hhi₂' : t₂ ≤ t₁ + rates.pause := hhi₂
    have hhi₃' : t₃ ≤ t₂ + rates.pause := hhi₃
    have hhi₄' : t₄ ≤ t₃ + rates.pause := hhi₄
    have hhi₅' : t₅ ≤ t₄ + rates.pause := hhi₅
    omega

/-- Channel 2 counts, since no later than `s₀`. -/
structure Counting (s₀ : ClockState) (done : Nat) (s : ClockState) : Prop where
  channel : s.channel = .counting done
  after : s₀.now ≤ s.now
  lapic : s.lapic = s₀.lapic

theorem meets_startPit (h : s.channel = .loading [0x9B, 0x2E]) (p61 : UInt8) :
    Meets (clocks rates) (fun _ s' => s.now < s'.now ∧ s'.now ≤ s.now + rates.pause ∧
      s'.lapic = s.lapic ∧ ∃ done, Channel.Counts rates 11931 s'.now done ∧ Counting s' done s')
      (startPit p61) s := by
  refine meets_gate _ fun t c hlo hhi hgated => ?_
  rw [h, decide_eq_true (high_gate p61)] at hgated
  obtain ⟨done, hcounts, rfl⟩ := hgated
  exact ⟨hlo, hhi, rfl, done, hcounts, rfl, Nat.le_refl _, rfl⟩

/-! ### Looked at -/

variable {s₀ : ClockState} {done : Nat}

/-- One look at the output. -/
theorem meets_look (h : Counting s₀ done s) :
    Meets (clocks rates) (fun v s' => (Counting s₀ done s' ∧ s.now < s'.now ∧
      s'.now ≤ s.now + rates.pause) ∧ decide (v &&& 0x20 ≠ 0) = decide (done ≤ s'.now))
      (inb 0x61) s := by
  refine meets_inb 0x61 fun t v hlo hhi hshows => ?_
  have hout := hshows rfl
  rw [h.channel] at hout
  exact ⟨⟨⟨h.channel, Nat.le_trans h.after (Nat.le_of_lt hlo), h.lapic⟩, hlo, hhi⟩, hout⟩

/-- A loop, which finds what it waits for and, where it is sure to, has fuel enough. -/
theorem meets_awaitOutput {inv found : ClockState → Prop} {high : Bool} {sure : Prop}
    (left : ClockState → Nat) (hlook : ∀ s, inv s → Meets (clocks rates) (fun v s' =>
      if decide (v &&& 0x20 ≠ 0) = high then found s' else inv s' ∧ (sure → left s' < left s))
      (inb 0x61) s) (fuel : Nat) (h : inv s) :
    Meets (clocks rates) (fun r s' => (r = some () → found s') ∧ (sure → left s < fuel → r ≠ none))
      (awaitOutput high fuel) s := by
  induction fuel generalizing s with
  | zero => exact Meets.pure ⟨fun hnone => absurd hnone (by simp), by simp⟩
  | succ n ih =>
      refine (hlook s h).seq fun v s' hv => ?_
      by_cases hout : decide (v &&& 0x20 ≠ 0) = high
      · rw [if_pos hout] at hv ⊢
        exact Meets.pure ⟨fun _ => hv, by simp⟩
      · rw [if_neg hout] at hv ⊢
        refine (ih hv.1).mono fun r s'' hr => ⟨hr.1, fun hsure hfuel => ?_⟩
        have hleft := hv.2 hsure
        exact hr.2 hsure (by omega)

/-- The first loop looks before the channel has finished, or for ever. -/
theorem meets_awaitLow (h : Counting s₀ done s) (fuel : Nat) :
    Meets (clocks rates) (fun r s' => (r = some () → Counting s₀ done s' ∧ s'.now < done) ∧
      (s.now + rates.pause < done → 0 < fuel → r ≠ none)) (awaitOutput false fuel) s := by
  have hlook : ∀ t, (Counting s₀ done t ∧ (s.now + rates.pause < done →
      t.now + rates.pause < done)) → Meets (clocks rates) (fun v s' =>
        if decide (v &&& 0x20 ≠ 0) = false then Counting s₀ done s' ∧ s'.now < done
        else (Counting s₀ done s' ∧ (s.now + rates.pause < done → s'.now + rates.pause < done)) ∧
          (s.now + rates.pause < done → 0 < 0)) (inb 0x61) t := by
    intro t ht
    refine (meets_look ht.1).mono fun v s' hv => ?_
    rw [hv.2]
    by_cases hdone : done ≤ s'.now
    · rw [if_neg (by simp [hdone])]
      have hnext := hv.1.2.2
      have hlate : ¬ s.now + rates.pause < done := fun hsoon => by
        have hlast := ht.2 hsoon
        omega
      exact ⟨⟨hv.1.1, fun hsoon => absurd hsoon hlate⟩, fun hsoon => absurd hsoon hlate⟩
    · rw [if_pos (by simp [hdone])]
      exact ⟨hv.1.1, Nat.lt_of_not_le hdone⟩
  exact meets_awaitOutput (fun _ => 0) hlook fuel ⟨h, id⟩

/-- The second sees soon that it has. -/
theorem meets_awaitHigh (h : Counting s₀ done s) (hnow : s.now < done) (fuel : Nat) :
    Meets (clocks rates) (fun r s' => (r = some () → Counting s₀ done s' ∧ done ≤ s'.now ∧
      s'.now ≤ done + rates.pause) ∧ (done - s.now < fuel → r ≠ none))
      (awaitOutput true fuel) s := by
  have hlook : ∀ t, (Counting s₀ done t ∧ t.now < done) → Meets (clocks rates) (fun v s' =>
      if decide (v &&& 0x20 ≠ 0) = true then
        Counting s₀ done s' ∧ done ≤ s'.now ∧ s'.now ≤ done + rates.pause
      else (Counting s₀ done s' ∧ s'.now < done) ∧ (True → done - s'.now < done - t.now))
      (inb 0x61) t := by
    intro t ht
    refine (meets_look ht.1).mono fun v s' hv => ?_
    have hlast := ht.2
    obtain ⟨⟨hcounting, hafter, hsoon⟩, hout⟩ := hv
    rw [hout]
    by_cases hdone : done ≤ s'.now
    · rw [if_pos (by simp [hdone])]
      exact ⟨hcounting, hdone, by omega⟩
    · rw [if_neg (by simp [hdone])]
      exact ⟨⟨hcounting, Nat.lt_of_not_le hdone⟩, fun _ => by omega⟩
  exact (meets_awaitOutput (fun s => done - s.now) hlook fuel ⟨h, hnow⟩).mono
    fun r s' hr => ⟨hr.1, hr.2 trivial⟩

/-- Both loops: what is known when they are through, and when they are sure to be. -/
theorem meets_awaitPit (h : Counting s₀ done s) (fuel : Nat) :
    Meets (clocks rates) (fun r s' =>
      (r = some () → Counting s₀ done s' ∧ done ≤ s'.now ∧ s'.now ≤ done + rates.pause) ∧
      (s.now + rates.pause < done → done - s₀.now < fuel → r ≠ none)) (awaitPit fuel) s := by
  refine (meets_awaitLow h fuel).seq fun r s₁ hr => ?_
  cases r with
  | none =>
      refine Meets.pure ⟨fun hnone => absurd hnone (by simp), fun hsoon hfuel => ?_⟩
      exact absurd rfl (hr.2 hsoon (Nat.zero_lt_of_lt hfuel))
  | some _ =>
      obtain ⟨hcounting, hnow⟩ := hr.1 rfl
      refine (meets_awaitHigh hcounting hnow fuel).mono fun r s' hr => ⟨hr.1, fun _ hfuel => ?_⟩
      have hafter := hcounting.after
      exact hr.2 (by omega)

/-! ### Runs -/

section Runs

variable {t : Nat} (hlo : s.now < t) (hhi : t ≤ s.now + rates.pause)
include hlo hhi

theorem runs_inb (port : UInt16) {high : Bool} (hshows : s.channel.Shows t high) :
    ∃ v, decide (v &&& 0x20 ≠ 0) = high ∧ Runs (clocks rates) (inb port) s v (s.at t) := by
  cases high with
  | true =>
      refine ⟨(0x20 : UInt64).toUInt8, by decide, .ask ⟨t, hlo, hhi, rfl⟩ ⟨rfl, ?_⟩ .done⟩
      exact fun _ => hshows
  | false =>
      refine ⟨(0 : UInt64).toUInt8, by decide, .ask ⟨t, hlo, hhi, rfl⟩ ⟨rfl, ?_⟩ .done⟩
      exact fun _ => hshows

theorem runs_gate (v : UInt8) {c : Channel}
    (hgated : s.channel.Gated rates (decide (v &&& 0x01 ≠ 0)) t c) :
    Runs (clocks rates) (outb 0x61 v) s ()
      { s.at t with gate := decide (v &&& 0x01 ≠ 0), channel := c } :=
  .ask (r := 0) ⟨t, hlo, hhi, rfl⟩ ⟨c, hgated, rfl⟩ .done

theorem runs_control : Runs (clocks rates) (outb 0x43 0xB0) s ()
    { s.at t with channel := .loading [] } :=
  .ask (r := 0) ⟨t, hlo, hhi, rfl⟩ rfl .done

theorem runs_count (v : UInt8) {c : Channel} (hgated : (s.channel.load v).Gated rates s.gate t c) :
    Runs (clocks rates) (outb 0x42 v) s () { s.at t with channel := c } :=
  .ask (r := 0) ⟨t, hlo, hhi, rfl⟩ ⟨c, hgated, rfl⟩ .done

theorem runs_rdtsc : Runs (clocks rates) rdtsc s (UInt64.ofNat t) (s.at t) :=
  .ask ⟨t, hlo, hhi, rfl⟩ ⟨rfl, rfl⟩ .done

theorem runs_lapicWrite (reg v : UInt32) : Runs (clocks rates) (lapicWrite reg v) s ()
    { s.at t with lapic := s.lapic.write reg v t } :=
  .ask (r := 0) ⟨t, hlo, hhi, rfl⟩ rfl .done

end Runs

theorem exists_shows (c : Channel) (t : Nat) : ∃ high, c.Shows t high := by
  cases c with
  | other => exact ⟨true, trivial⟩
  | loading bytes => exact ⟨false, rfl⟩
  | counting done => exact ⟨_, rfl⟩

/-- A channel without its gate. -/
theorem exists_gated (c : Channel) (t : Nat) : ∃ c', c.Gated rates false t c' := by
  cases c with
  | other => exact ⟨.other, rfl⟩
  | counting done => exact ⟨.other, rfl⟩
  | loading bytes =>
      rcases bytes with - | ⟨lo, - | ⟨hi, - | ⟨v, bytes⟩⟩⟩
      · exact ⟨_, rfl⟩
      · exact ⟨_, rfl⟩
      · exact ⟨_, rfl⟩
      · exact ⟨_, rfl⟩

/-- A count that is held. -/
theorem gated_loading (bytes : List UInt8) (t : Nat) :
    (Channel.loading bytes).Gated rates false t (.loading bytes) := by
  rcases bytes with - | ⟨lo, - | ⟨hi, - | ⟨v, bytes⟩⟩⟩
  · rfl
  · rfl
  · rfl
  · rfl

theorem divisor_pos (v : UInt32) : 0 < LapicTimer.divisor v := by
  unfold LapicTimer.divisor
  repeat' split
  all_goals omega

section Pause

variable (hpause : 0 < rates.pause)
include hpause

theorem runs_armPit (s : ClockState) : ∃ p61 s', Runs (clocks rates) armPit s p61 s' ∧
    s'.channel = .loading [0x9B, 0x2E] := by
  have hlt : ∀ n, n < n + 1 := Nat.lt_succ_self
  have hle : ∀ n, n + 1 ≤ n + rates.pause := fun n => Nat.add_le_add_left hpause n
  obtain ⟨high, hshows⟩ := exists_shows s.channel (s.now + 1)
  obtain ⟨p61, -, hin⟩ := runs_inb (hlt _) (hle _) 0x61 hshows
  obtain ⟨c, hc⟩ : ∃ c, s.channel.Gated rates (decide ((p61 &&& 0xFE) &&& 0x01 ≠ 0))
      (s.now + 1 + 1) c := by
    rw [low_gate]
    exact exists_gated s.channel _
  obtain ⟨s₂, h₂, hgate₂⟩ : ∃ s', Runs (clocks rates) (outb 0x61 (p61 &&& 0xFE))
      (s.at (s.now + 1)) () s' ∧ s'.gate = decide ((p61 &&& 0xFE) &&& 0x01 ≠ 0) :=
    ⟨_, runs_gate (s := s.at (s.now + 1)) (hlt _) (hle _) (p61 &&& 0xFE) hc, rfl⟩
  rw [low_gate] at hgate₂
  obtain ⟨s₃, h₃, hchannel₃, hgate₃⟩ : ∃ s', Runs (clocks rates) (outb 0x43 0xB0) s₂ () s' ∧
      s'.channel = .loading [] ∧ s'.gate = s₂.gate :=
    ⟨_, runs_control (hlt _) (hle _), rfl, rfl⟩
  have hbyte : ∀ {s : ClockState} {bytes : List UInt8} (v : UInt8), s.channel = .loading bytes →
      s.gate = false → ∃ s', Runs (clocks rates) (outb 0x42 v) s () s' ∧
        s'.channel = .loading (bytes ++ [v]) ∧ s'.gate = false := by
    intro s bytes v hchannel hgate
    have hgated : (s.channel.load v).Gated rates s.gate (s.now + 1)
        (.loading (bytes ++ [v])) := by
      rw [hchannel, hgate]
      exact gated_loading _ _
    exact ⟨_, runs_count (hlt _) (hle _) v hgated, rfl, hgate⟩
  obtain ⟨s₄, h₄, hchannel₄, hgate₄⟩ := hbyte (PIT_COUNT &&& 0xFF).toUInt8 hchannel₃
    (hgate₃.trans hgate₂)
  obtain ⟨s₅, h₅, hchannel₅, -⟩ := hbyte (PIT_COUNT >>> 8).toUInt8 hchannel₄ hgate₄
  exact ⟨p61, s₅, hin.bind (h₂.bind (h₃.bind (h₄.bind (h₅.bind .done)))), hchannel₅⟩

theorem runs_startPit {p61 : UInt8} {span : Nat} (hchannel : s.channel = .loading [0x9B, 0x2E])
    (hleast : 11930 * rates.tsc ≤ span * PIT_HZ) (hmost : span * PIT_HZ ≤ 11933 * rates.tsc) :
    ∃ s', Runs (clocks rates) (startPit p61) s () s' ∧
      s'.channel = .counting (s'.now + span) := by
  have hnext : s.now < s.now + 1 := Nat.lt_succ_self _
  have hgated : s.channel.Gated rates (decide (((p61 &&& 0xFD) ||| 0x01) &&& 0x01 ≠ 0))
      (s.now + 1) (.counting (s.now + 1 + span)) := by
    rw [hchannel, decide_eq_true (high_gate p61)]
    refine ⟨_, ⟨Nat.le_add_right _ _, ?_, ?_⟩, rfl⟩
    · rw [Nat.add_sub_cancel_left]
      exact hleast
    · rw [Nat.add_sub_cancel_left]
      exact hmost
  exact ⟨_, runs_gate hnext (Nat.add_le_add_left hpause _) _ hgated, rfl⟩

/-- A look that comes too late, and all those after it. -/
theorem runs_awaitLow_late {done : Nat} (fuel : Nat) (hchannel : s.channel = .counting done)
    (hlate : done ≤ s.now + rates.pause) :
    ∃ s', Runs (clocks rates) (awaitOutput false fuel) s none s' := by
  induction fuel generalizing s with
  | zero => exact ⟨s, .done⟩
  | succ n ih =>
      have hshows : s.channel.Shows (s.now + rates.pause) true := by
        rw [hchannel]
        exact (decide_eq_true hlate).symm
      obtain ⟨v, hv, hin⟩ := runs_inb (Nat.lt_add_of_pos_right hpause) (Nat.le_refl _) 0x61 hshows
      refine hin.bind_exists ?_
      rw [if_neg (by simp [hv])]
      exact ih hchannel (Nat.le_trans hlate (Nat.le_add_right _ _))

theorem runs_awaitLow {done : Nat} {n : Nat} (hchannel : s.channel = .counting done)
    (hsoon : s.now + 1 < done) :
    Runs (clocks rates) (awaitOutput false (n + 1)) s (some ()) (s.at (s.now + 1)) := by
  have hshows : s.channel.Shows (s.now + 1) false := by
    rw [hchannel]
    exact (decide_eq_false (by omega)).symm
  obtain ⟨v, hv, hin⟩ := runs_inb (Nat.lt_succ_self _) (Nat.add_le_add_left hpause _) 0x61 hshows
  refine hin.bind ?_
  rw [if_pos hv]
  exact .done

/-- Looks one after the other, until the channel has finished. -/
theorem runs_awaitHigh {done : Nat} (fuel : Nat) (hchannel : s.channel = .counting done)
    (hfuel : done ≤ s.now + fuel) (hpos : 0 < fuel) :
    ∃ s', Runs (clocks rates) (awaitOutput true fuel) s (some ()) s' ∧
      s'.channel = .counting done := by
  induction fuel generalizing s with
  | zero => exact absurd hpos (Nat.lt_irrefl 0)
  | succ n ih =>
      have hshows : s.channel.Shows (s.now + 1) (decide (done ≤ s.now + 1)) := by
        rw [hchannel]
        rfl
      obtain ⟨v, hv, hin⟩ :=
        runs_inb (Nat.lt_succ_self _) (Nat.add_le_add_left hpause _) 0x61 hshows
      by_cases hdone : done ≤ s.now + 1
      · refine ⟨s.at (s.now + 1), hin.bind ?_, hchannel⟩
        rw [if_pos (by rw [hv, decide_eq_true hdone])]
        exact .done
      · have hmore : done ≤ (s.at (s.now + 1)).now + n := by
          show done ≤ s.now + 1 + n
          omega
        obtain ⟨s', hrest, hchannel'⟩ := ih (s := s.at (s.now + 1)) hchannel hmore (by omega)
        refine ⟨s', hin.bind ?_, hchannel'⟩
        rw [if_neg (by rw [hv]; simpa using hdone)]
        exact hrest

/-- Both loops, by a kernel that looks without a pause. -/
theorem runs_awaitPit {span fuel : Nat} (hchannel : s.channel = .counting (s.now + span))
    (hlong : 1 < span) (hfuel : span ≤ fuel) :
    ∃ s', Runs (clocks rates) (awaitPit fuel) s (some ()) s' ∧
      s'.channel = .counting (s.now + span) := by
  obtain ⟨n, rfl⟩ : ∃ n, fuel = n + 1 := ⟨fuel - 1, by omega⟩
  have hlow := runs_awaitLow (n := n) hpause hchannel (Nat.add_lt_add_left hlong _)
  have hchannel' : (s.at (s.now + 1)).channel = .counting (s.now + span) := hchannel
  have hmore : s.now + span ≤ (s.at (s.now + 1)).now + (n + 1) := by
    show s.now + span ≤ s.now + 1 + (n + 1)
    omega
  obtain ⟨s', hhigh, hdone⟩ := runs_awaitHigh hpause (n + 1) hchannel' hmore (Nat.succ_pos n)
  exact ⟨s', hlow.bind hhigh, hdone⟩

/-- What port 0x61 was like. -/
theorem runs_restore {done : Nat} (hchannel : s.channel = .counting done) (p61 : UInt8) :
    ∃ s', Runs (clocks rates) (outb 0x61 p61) s () s' ∧ s'.lapic = s.lapic := by
  obtain ⟨c, hgated⟩ : ∃ c, s.channel.Gated rates (decide (p61 &&& 0x01 ≠ 0)) (s.now + 1) c := by
    rw [hchannel]
    exact ⟨_, rfl⟩
  exact ⟨_, runs_gate (Nat.lt_succ_self _) (Nat.add_le_add_left hpause _) p61 hgated, rfl⟩

theorem runs_lapicRead (htsc : 0 < rates.tsc) (reg : UInt32) :
    ∃ v s', Runs (clocks rates) (lapicRead reg) s v s' := by
  have hpos := Nat.mul_pos (divisor_pos s.lapic.divide) htsc
  obtain ⟨ticks, hpassed⟩ : ∃ ticks, s.lapic.Passed rates (s.now + 1) ticks := by
    refine ⟨(s.now + 1 - s.lapic.since) * rates.bus
      / (LapicTimer.divisor s.lapic.divide * rates.tsc), ?_, ?_⟩
    · exact Nat.le_trans (Nat.div_mul_le_self _ _) (Nat.le_add_right _ _)
    · rw [Nat.mul_comm (_ + 1)]
      exact Nat.le_of_lt (Nat.lt_mul_div_succ _ hpos)
  exact ⟨_, _, .ask (r := (UInt32.ofNat (s.lapic.initial.toNat - ticks)).toUInt64)
    ⟨s.now + 1, Nat.lt_succ_self _, Nat.add_le_add_left hpause _, rfl⟩
    ⟨rfl, fun _ => ⟨ticks, hpassed, UInt32.toUInt32_toUInt64 _⟩⟩ .done⟩

end Pause

end Clocks

end Amaterasu
