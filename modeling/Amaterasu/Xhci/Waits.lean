/-
The waits of the driver end.

Each of them goes by the time stamp counter and gives up at its deadline, so that it ends
whatever the device does, as long as the counter counts.  The counter is read modulo 2^64, and
`past` compares by the sign of a difference: it is right about a deadline as long as the
accesses do not take so long that the counter is half-way round before it is read again.
-/
import Amaterasu.Xhci.PortReset
import Amaterasu.Xhci.StartUp

namespace Amaterasu

namespace Xhci

open Dialogue

/-- How many cycles an access, or what happens between two, takes at most. -/
def PAUSE : Nat := 2 ^ 32

/-- A device, and a counter that counts. -/
def timed {σ : Type} (d : Device σ Mmio UInt64) : Device (σ × Nat) Mmio UInt64 where
  drifts s s' := d.drifts s.1 s'.1 ∧ s.2 ≤ s'.2 ∧ s'.2 ≤ s.2 + PAUSE
  answers s q r s' := d.answers s.1 q r s'.1 ∧ s.2 ≤ s'.2 ∧ s'.2 ≤ s.2 + PAUSE ∧
    (q = .rdtsc → r = UInt64.ofNat s.2 ∧ s.2 < s'.2)

variable {σ : Type} {d : Device σ Mmio UInt64} {s : σ × Nat}

/-- `past` tells whether the deadline has come, short of half a turn of the counter. -/
theorem past_iff {t₀ t : Nat} {wait : UInt64} (hwait : wait.toNat < 2 ^ 62) (hle : t₀ ≤ t)
    (hlt : t < t₀ + wait.toNat + 2 ^ 62) :
    UInt64.ofNat t - (UInt64.ofNat t₀ + wait) < (1 : UInt64) <<< 63 ↔ t₀ + wait.toNat ≤ t := by
  have hhalf : ((1 : UInt64) <<< 63).toNat = 2 ^ 63 := rfl
  rw [UInt64.lt_iff_toNat_lt, UInt64.toNat_sub, UInt64.toNat_add, UInt64.toNat_ofNat',
    UInt64.toNat_ofNat', hhalf]
  omega

/-- Within the wait that began at `t₀`. -/
structure Within (t₀ : Nat) (wait : UInt64) (s : σ × Nat) : Prop where
  began : t₀ ≤ s.2
  ends : s.2 ≤ t₀ + wait.toNat + PAUSE

theorem meets_deadline_timed (mhz us : UInt64) (s : σ × Nat) : Meets (timed d)
    (fun dl s => ∃ t₀, dl = UInt64.ofNat t₀ + us * mhz ∧ Within t₀ (us * mhz) s)
    (deadlineCycles mhz us) s := by
  intro s₁ r s' hdrift ⟨_, hle, hpause, hclock⟩
  obtain ⟨rfl, _⟩ := hclock rfl
  exact ⟨s₁.2, rfl, hle, by omega⟩

/-- A look at the clock, not long after the wait has begun or the clock has been looked at. -/
theorem meets_past_timed {t₀ : Nat} {wait : UInt64} (hwait : wait.toNat < 2 ^ 62)
    (hbegan : t₀ ≤ s.2) (hends : s.2 ≤ t₀ + wait.toNat + 3 * PAUSE) :
    Meets (timed d) (fun late s' => late = true ∨ Within t₀ wait s' ∧
      t₀ + wait.toNat - s'.2 < t₀ + wait.toNat - s.2) (past (UInt64.ofNat t₀ + wait)) s := by
  intro s₁ r s' ⟨_, hle, hpause⟩ ⟨_, hle', hpause', hclock⟩
  obtain ⟨rfl, hlt⟩ := hclock rfl
  have hafter : t₀ ≤ s₁.2 := Nat.le_trans hbegan hle
  have hiff := past_iff hwait hafter (by unfold PAUSE at *; omega)
  by_cases hlate : t₀ + wait.toNat ≤ s₁.2
  · exact Or.inl (decide_eq_true (hiff.mpr hlate))
  · exact Or.inr ⟨⟨by omega, by omega⟩, by omega⟩

theorem meets_poll_timed {t₀ fuel : Nat} {wait : UInt64} (hwait : wait.toNat < 2 ^ 62)
    (hfuel : wait.toNat < fuel) (hs : Within t₀ wait s) (base off : Nat) (good : UInt32 → Bool) :
    Meets (timed d) (fun r _ => r ≠ .stuck)
      (poll (rd32 base off) good (past (UInt64.ofNat t₀ + wait)) fuel) s := by
  refine meets_poll_ends (fun s => t₀ + wait.toNat - s.2) (fun s (hs : Within t₀ wait s) => ?_)
    fuel hs ?_
  · intro s₁ r s' ⟨_, hle, hpause⟩ ⟨_, hle', hpause', _⟩
    refine Or.inr ((meets_past_timed hwait ?_ ?_).mono fun late s'' h => ?_)
    · exact Nat.le_trans hs.began (Nat.le_trans hle hle')
    · have hends := hs.ends
      omega
    · refine h.imp_right fun ⟨hin, hleft⟩ => ⟨hin, ?_⟩
      omega
  · have hbegan := hs.began
    omega

/-! ### No wait is left -/

/-- Enough fuel for the longest wait, which the counter can tell. -/
structure Enough (fuel : Nat) (mhz : UInt64) : Prop where
  fits : 500000 * mhz.toNat < 2 ^ 62
  fuel : 500000 * mhz.toNat < fuel

variable {fuel : Nat} {mhz : UInt64}

theorem Enough.wait (h : Enough fuel mhz) {us : UInt64} (hus : us.toNat ≤ 500000) :
    (us * mhz).toNat < 2 ^ 62 ∧ (us * mhz).toNat < fuel := by
  have hle : (us * mhz).toNat ≤ 500000 * mhz.toNat := by
    rw [UInt64.toNat_mul]
    exact Nat.le_trans (Nat.mod_le _ _) (Nat.mul_le_mul_right _ hus)
  exact ⟨Nat.lt_of_le_of_lt hle h.fits, Nat.lt_of_le_of_lt hle h.fuel⟩

/-- A wait, and what is done after it. -/
theorem meets_await_timed (h : Enough fuel mhz) {us : UInt64} (hus : us.toNat ≤ 500000)
    {α : Type} {post : α → σ × Nat → Prop} {f : Polled UInt32 → Driver α} (base off : Nat)
    (good : UInt32 → Bool) (hf : ∀ r s, r ≠ .stuck → Meets (timed d) post (f r) s) (s : σ × Nat) :
    Meets (timed d) post (do
      let dl ← deadlineCycles mhz us
      let r ← poll (rd32 base off) good (past dl) fuel
      f r) s := by
  obtain ⟨hwait, hfuel⟩ := h.wait hus
  refine (meets_deadline_timed mhz us s).seq fun dl s' ⟨t₀, hdl, hs⟩ => ?_
  rw [hdl]
  exact (meets_poll_timed hwait hfuel hs base off good).seq hf

theorem meets_waitFor_timed (h : Enough fuel mhz) {us : UInt64} (hus : us.toNat ≤ 500000)
    (base off : Nat) (good : UInt32 → Bool) (s : σ × Nat) :
    Meets (timed d) (fun r _ => r ≠ none) (waitFor fuel mhz us base off good) s := by
  refine meets_await_timed h hus base off good (fun r s' hr => ?_) s
  cases r with
  | found v => exact Meets.pure (by simp)
  | late => exact Meets.pure (by simp)
  | stuck => exact absurd rfl hr

theorem meets_spin_timed (h : Enough fuel mhz) {us : UInt64} (hus : us.toNat ≤ 500000)
    (s : σ × Nat) : Meets (timed d) (fun r _ => r ≠ none) (spin fuel mhz us) s := by
  obtain ⟨hwait, hfuel⟩ := h.wait hus
  refine (meets_deadline_timed mhz us s).seq fun dl s' ⟨t₀, hdl, hs⟩ => ?_
  rw [hdl]
  have hround : ∀ s : σ × Nat, Within t₀ (us * mhz) s → Meets (timed d)
      (fun late s' => id late = true ∨ Meets (timed d) (fun last s'' => last = true ∨
        Within t₀ (us * mhz) s'' ∧ t₀ + (us * mhz).toNat - s''.2 < t₀ + (us * mhz).toNat - s.2)
        (return false) s') (past (UInt64.ofNat t₀ + us * mhz)) s := fun s hs => by
    have hends := hs.ends
    exact (meets_past_timed hwait hs.began (by omega)).mono fun late s' h =>
      h.imp_right fun hin => Meets.pure (Or.inr hin)
  have hbegan := hs.began
  refine (meets_poll_ends _ hround fuel hs (by omega)).seq fun r s'' hr => ?_
  cases r with
  | found v => exact Meets.pure (by simp)
  | late => exact Meets.pure (by simp)
  | stuck => exact absurd rfl hr

/-! ### `port_reset` -/

theorem meets_awaitLink_timed (h : Enough fuel mhz) (base : Nat) (s : σ × Nat) :
    Meets (timed d) (fun r _ => r ≠ .stuck) (awaitLink fuel mhz base) s := by
  refine meets_await_timed h (by decide) base 0 _ (fun r s' hr => ?_) s
  cases r with
  | found sc => exact Meets.pure (by simp)
  | late => exact Meets.pure (by simp)
  | stuck => exact absurd rfl hr

theorem meets_resetAttempt_timed (h : Enough fuel mhz) (base : Nat) (s : σ × Nat) :
    Meets (timed d) (fun r _ => r ≠ .stuck) (resetAttempt fuel mhz base) s := by
  refine (Meets.anything (requestReset base) s).seq fun _ s' _ => ?_
  refine meets_await_timed h (by decide) base 0 _ (fun r s' hr => ?_) s'
  cases r with
  | found sc =>
      exact (Meets.anything (wr32 base 0 _) s').seq fun _ s'' _ => meets_awaitLink_timed h base s''
  | late => exact Meets.pure (by simp)
  | stuck => exact absurd rfl hr

theorem meets_resetAttempts_timed (h : Enough fuel mhz) (base n : Nat) (s : σ × Nat) :
    Meets (timed d) (fun r _ => r ≠ none) (resetAttempts fuel mhz base n) s := by
  induction n generalizing s with
  | zero => exact Meets.pure (by simp)
  | succ n ih =>
      refine (meets_resetAttempt_timed h base s).seq fun r s' hr => ?_
      cases r with
      | returns enabled => exact Meets.pure (by simp)
      | again => exact ih s'
      | stuck => exact absurd rfl hr

/-! ### The start -/

theorem meets_stopRunning_timed (h : Enough fuel mhz) (op : Nat) (s : σ × Nat) :
    Meets (timed d) (fun r _ => r ≠ none) (stopRunning fuel mhz op) s := by
  refine (Meets.anything (rd32 op opUsbcmd) s).seq fun cmd s' _ => ?_
  split
  · exact Meets.pure (by simp)
  · exact (Meets.anything (wr32 op opUsbcmd _) s').seq fun _ s'' _ =>
      meets_waitFor_timed h (by decide) op opUsbsts _ s''

theorem meets_xhciReset_timed (h : Enough fuel mhz) (op : Nat) (s : σ × Nat) :
    Meets (timed d) (fun r _ => r ≠ none) (xhciReset fuel mhz op) s := by
  refine (meets_stopRunning_timed h op s).seq fun r s₁ hr => ?_
  cases r with
  | none => exact absurd rfl hr
  | some stopped =>
      cases stopped with
      | false => exact Meets.pure (by simp)
      | true =>
          refine (Meets.anything (wr32 op opUsbcmd _) s₁).seq fun _ s₂ _ => ?_
          refine (meets_spin_timed h (by decide) s₂).seq fun r s₃ hr => ?_
          cases r with
          | none => exact absurd rfl hr
          | some _ =>
              refine (meets_waitFor_timed h (by decide) op opUsbcmd _ s₃).seq fun r s₄ hr => ?_
              cases r with
              | none => exact absurd rfl hr
              | some reset =>
                  cases reset with
                  | false => exact Meets.pure (by simp)
                  | true => exact meets_waitFor_timed h (by decide) op opUsbsts _ s₄

theorem meets_startController_timed (h : Enough fuel mhz) (cap : Nat) (mem : RingPhys)
    (s : σ × Nat) :
    Meets (timed d) (fun r _ => r ≠ .stuck) (startController fuel mhz cap mem) s := by
  refine (Meets.anything (rd8 cap capCaplength) s).seq fun caplength s _ => ?_
  refine (Meets.anything (rd32 cap capHcsparams1) s).seq fun hcsparams1 s _ => ?_
  refine (Meets.anything (rd32 cap capHcsparams2) s).seq fun _ s _ => ?_
  refine (Meets.anything (rd32 cap capHccparams1) s).seq fun hccparams1 s _ => ?_
  refine (Meets.anything (rd32 cap capDboff) s).seq fun _ s _ => ?_
  refine (Meets.anything (rd32 cap capRtsoff) s).seq fun rtsoff s _ => ?_
  dsimp only
  split
  · exact Meets.pure (by simp)
  refine (meets_xhciReset_timed h _ s).seq fun r s hr => ?_
  cases r with
  | none => exact absurd rfl hr
  | some reset =>
      cases reset with
      | false => exact Meets.pure (by simp)
      | true =>
          refine (Meets.anything (configure _ _ _ mem) s).seq fun _ s _ => ?_
          refine (Meets.anything (wr32 _ opUsbcmd _) s).seq fun _ s _ => ?_
          refine (meets_waitFor_timed h (by decide) _ opUsbsts _ s).seq fun r s hr => ?_
          cases r with
          | none => exact absurd rfl hr
          | some running =>
              cases running with
              | false => exact Meets.pure (by simp)
              | true => exact Meets.pure (by simp)

/--
**The start of the controller ends.**  Whatever the controller and its ports do, with a counter
that counts, neither the start nor the reset of a port waits for ever: half a million rounds of
a loop for every MHz of the counter are enough.
-/
theorem start_ends (h : Enough fuel mhz) :
    (∀ cap mem r s', Runs (timed d) (startController fuel mhz cap mem) s r s' → r ≠ .stuck) ∧
      ∀ base r s', Runs (timed d) (portReset fuel mhz base) s r s' → r ≠ none :=
  ⟨fun cap mem _ _ hrun => (meets_startController_timed h cap mem s).run hrun,
    fun base _ _ hrun => (meets_resetAttempts_timed h base 3 s).run hrun⟩

/-- Against a port, at 3 GHz. -/
theorem start_ends_port :
    (∀ cap mem r s', Runs (timed (portDevice true 0)) (startController 1500000001 3000 cap mem)
        (⟨false, false, false, false⟩, 0) r s' → r ≠ .stuck) ∧
      ∀ base r s', Runs (timed (portDevice true 0)) (portReset 1500000001 3000 base)
        (⟨false, false, false, false⟩, 0) r s' → r ≠ none :=
  start_ends ⟨by decide, by decide⟩

end Xhci

end Amaterasu
