/-
A ring whose entries carry their own validity.

Producer and consumer share no count.  Each slot has a phase bit, the producer writes
its current phase into it, and the consumer takes a slot when the bit is the one it
expects; both flip at the end of a lap.  Behind the last slot sits a link: the
producer sets its phase when it wraps, and the consumer follows it under the same
rule.  Writing an entry and updating the link are two steps, and the consumer may act
in between.

With at most one lap outstanding the consumer takes exactly what was pushed, in order.
It may still get stuck: when it has emptied a lap but not yet followed the link, a
producer one whole lap ahead has already set the link to the next phase.
-/
import Amaterasu.Lib.Run
import Amaterasu.Lib.Laps
import Mathlib.Logic.Function.Iterate

namespace Amaterasu

/-- The ring, both ends, and the history of both. -/
structure PhaseRing (α : Type*) where
  slot : Nat → α × Bool
  link : Bool
  enq : Nat
  phase : Bool
  /-- An entry is written and the link, if it is due, is not. -/
  pending : Bool
  deq : Nat
  expects : Bool
  pushed : List α
  executed : List α

/-- What either end can do. -/
inductive PhaseRingStep (α : Type*) where
  | push (a : α)
  | finish
  | consume

namespace PhaseRing

variable {α : Type*} {m : Nat}

/-- No entry is valid yet, and the link is set for the first lap. -/
def start (blank : α) : PhaseRing α :=
  { slot := fun _ => (blank, false), link := true, enq := 0, phase := true, pending := false,
    deq := 0, expects := true, pushed := [], executed := [] }

/-- The producer writes an entry. -/
def push (r : PhaseRing α) (a : α) : PhaseRing α :=
  if r.pending then r
  else
    { r with
      slot := Function.update r.slot r.enq (a, r.phase)
      pending := true
      pushed := r.pushed ++ [a] }

/-- The producer moves on, at the end of a lap past the link. -/
def finish (m : Nat) (r : PhaseRing α) : PhaseRing α :=
  if r.pending then
    if r.enq + 1 = m then
      { r with link := r.phase, enq := 0, phase := !r.phase, pending := false }
    else { r with enq := r.enq + 1, pending := false }
  else r

/-- The consumer takes the entry or follows the link, if it is valid. -/
def consume (m : Nat) (r : PhaseRing α) : PhaseRing α :=
  if r.deq = m then
    if r.link = r.expects then { r with deq := 0, expects := !r.expects } else r
  else if (r.slot r.deq).2 = r.expects then
    { r with deq := r.deq + 1, executed := r.executed ++ [(r.slot r.deq).1] }
  else r

def step (m : Nat) (r : PhaseRing α) : PhaseRingStep α → PhaseRing α
  | .push a => r.push a
  | .finish => r.finish m
  | .consume => r.consume m

/-- At most one lap is outstanding. -/
def Few (m : Nat) (r : PhaseRing α) : Prop := r.pushed.length ≤ r.executed.length + m

/-- Number of entries the producer is past. -/
def passed (r : PhaseRing α) : Nat := if r.pending then r.pushed.length - 1 else r.pushed.length

structure Inv (m : Nat) (r : PhaseRing α) : Prop where
  few : r.Few m
  isPrefix : r.executed <+: r.pushed
  /-- The last lap's worth of entries is on the ring, each with its lap's phase, -/
  written : ∀ p a, r.pushed[p]? = some a → r.pushed.length ≤ p + m →
    r.slot (p % m) = (a, lapPhase (p / m))
  /-- and a slot not reached yet has the phase no consumer expects there. -/
  fresh : ∀ i < m, r.pushed.length ≤ i → (r.slot i).2 = false
  nonempty : r.pending = true → 0 < r.pushed.length
  enq : r.enq = r.passed % m
  phase : r.phase = lapPhase (r.passed / m)
  link : r.link = lapPhase (r.passed / m - 1)
  /-- The consumer is at its next slot, or behind the last one of a lap it has emptied. -/
  consumer : (r.deq = r.executed.length % m ∧ r.expects = lapPhase (r.executed.length / m)) ∨
    (r.deq = m ∧ 0 < r.executed.length ∧ r.executed.length % m = 0 ∧
      r.expects = lapPhase (r.executed.length / m - 1))

variable {r : PhaseRing α}

theorem start_inv (blank : α) : (start blank).Inv m where
  few := Nat.zero_le _
  isPrefix := List.prefix_refl _
  written := by simp [start]
  fresh := fun _ _ _ => rfl
  nonempty := by simp [start]
  enq := by simp [start, passed]
  phase := by simp [start, passed]
  link := by simp [start, passed]
  consumer := Or.inl (by simp [start])

theorem Inv.length_le (h : r.Inv m) : r.executed.length ≤ r.pushed.length :=
  h.isPrefix.length_le

theorem Inv.laps (h : r.Inv m) : Laps m r.slot r.pushed := ⟨h.written, h.fresh⟩

theorem Inv.push (h : r.Inv m) (a : α) (hfew : (r.push a).Few m) :
    (r.push a).Inv m := by
  unfold PhaseRing.push at hfew ⊢
  by_cases hp : r.pending = true
  · simpa only [if_pos hp] using h
  simp only [if_neg hp] at hfew ⊢
  have hpassed : r.passed = r.pushed.length := if_neg hp
  have henq := h.enq
  have hphase := h.phase
  rw [hpassed] at henq hphase
  have hpassed' : ({ r with
      slot := Function.update r.slot r.enq (a, r.phase), pending := true,
      pushed := r.pushed ++ [a] } : PhaseRing α).passed = r.pushed.length := by
    simp [passed]
  have hlaps := h.laps.push a
  rw [← henq, ← hphase] at hlaps
  refine ⟨hfew, h.isPrefix.trans (List.prefix_append _ _), hlaps.written, hlaps.fresh, ?_, ?_, ?_,
    ?_, h.consumer⟩
  · intro _
    simp
  · rw [hpassed']; exact henq
  · rw [hpassed']; exact hphase
  · rw [hpassed', ← hpassed]; exact h.link

theorem Inv.finish (hm : 0 < m) (h : r.Inv m) : (r.finish m).Inv m := by
  unfold PhaseRing.finish
  by_cases hp : r.pending = true
  · have hpos := h.nonempty hp
    have hpassed : r.passed + 1 = r.pushed.length := by
      unfold passed
      rw [if_pos hp]
      omega
    have hlt : r.passed % m < m := Nat.mod_lt _ hm
    have henq := h.enq
    simp only [if_pos hp]
    by_cases hwrap : r.enq + 1 = m
    · obtain ⟨hmod, hdiv⟩ := succ_of_mod_eq (a := r.passed) (n := m) (by omega)
      rw [hpassed] at hmod hdiv
      simp only [if_pos hwrap]
      refine ⟨h.few, h.isPrefix, h.written, h.fresh, by simp, hmod.symm, ?_, ?_, h.consumer⟩
      · show (!r.phase) = lapPhase (r.pushed.length / m)
        rw [hdiv, lapPhase_succ, h.phase]
      · show r.phase = lapPhase (r.pushed.length / m - 1)
        rw [hdiv, Nat.add_sub_cancel, h.phase]
    · obtain ⟨hmod, hdiv⟩ := succ_of_mod_lt (a := r.passed) (n := m) (by omega)
      rw [hpassed] at hmod hdiv
      simp only [if_neg hwrap]
      refine ⟨h.few, h.isPrefix, h.written, h.fresh, by simp, ?_, ?_, ?_, h.consumer⟩
      · show r.enq + 1 = r.pushed.length % m
        rw [hmod, henq]
      · show r.phase = lapPhase (r.pushed.length / m)
        rw [hdiv, h.phase]
      · show r.link = lapPhase (r.pushed.length / m - 1)
        rw [hdiv, h.link]
  · simpa only [if_neg hp] using h

/-- The slot the consumer is at is valid exactly when its entry has been pushed. -/
theorem Inv.valid_iff (hm : 0 < m) (h : r.Inv m) :
    (r.slot (r.executed.length % m)).2 = lapPhase (r.executed.length / m) ↔
      r.executed.length < r.pushed.length :=
  h.laps.valid_iff hm h.length_le h.few

/-- Taking the next entry. -/
theorem Inv.consume_take (hm : 0 < m) (h : r.Inv m) (hdeq : r.deq ≠ m)
    (hlt : r.executed.length < r.pushed.length) :
    (r.consume m).executed = r.executed ++ [r.pushed[r.executed.length]] ∧
      (r.consume m).Inv m := by
  rcases h.consumer with ⟨hd, he⟩ | ⟨hd, _⟩
  swap
  · exact absurd hd hdeq
  have hv := (h.valid_iff hm).mpr hlt
  have hslot := h.laps.get hlt h.few
  have hnext : r.consume m
      = { r with deq := r.deq + 1, executed := r.executed ++ [r.pushed[r.executed.length]] } := by
    unfold PhaseRing.consume
    rw [if_neg hdeq, hd, he, if_pos hv, hslot]
  rw [hnext]
  refine ⟨rfl, ?_, ?_, h.written, h.fresh, h.nonempty, h.enq, h.phase, h.link, ?_⟩
  · have := h.few
    unfold Few at this ⊢
    simp only [List.length_append, List.length_singleton]
    omega
  · obtain ⟨rest, hrest⟩ := h.isPrefix
    refine ⟨rest.drop 1, ?_⟩
    cases rest with
    | nil =>
        have := congrArg List.length hrest
        simp at this
        omega
    | cons b rest' =>
        have hb : r.pushed[r.executed.length] = b := by
          simp only [← hrest]
          simp
        rw [hb, ← hrest]
        simp
  · have hlt' : r.executed.length % m < m := Nat.mod_lt _ hm
    simp only [List.length_append, List.length_singleton]
    by_cases hwrap : r.executed.length % m + 1 = m
    · obtain ⟨hmod, hdiv⟩ := succ_of_mod_eq hwrap
      refine Or.inr ⟨by omega, Nat.succ_pos _, hmod, ?_⟩
      rw [hdiv, Nat.add_sub_cancel, he]
    · obtain ⟨hmod, hdiv⟩ := succ_of_mod_lt (a := r.executed.length) (n := m) (by omega)
      refine Or.inl ⟨by rw [hmod, hd], ?_⟩
      rw [hdiv, he]

/-- Following the link. -/
theorem Inv.consume_follow (hm : 0 < m) (h : r.Inv m) (hdeq : r.deq = m)
    (hlink : r.link = r.expects) :
    r.consume m = { r with deq := 0, expects := !r.expects } ∧ (r.consume m).Inv m := by
  have hnext : r.consume m = { r with deq := 0, expects := !r.expects } := by
    unfold PhaseRing.consume
    rw [if_pos hdeq, if_pos hlink]
  rw [hnext]
  refine ⟨rfl, h.few, h.isPrefix, h.written, h.fresh, h.nonempty, h.enq, h.phase, h.link, ?_⟩
  rcases h.consumer with ⟨hd, _⟩ | ⟨_, hpos, hmod, he⟩
  · have := Nat.mod_lt r.executed.length hm
    omega
  · refine Or.inl ⟨hmod.symm, ?_⟩
    have hlap : r.executed.length / m = r.executed.length / m - 1 + 1 := by
      have := Nat.div_pos (Nat.le_of_dvd hpos (Nat.dvd_of_mod_eq_zero hmod)) hm
      omega
    rw [hlap, lapPhase_succ, ← he]

theorem Inv.consume (hm : 0 < m) (h : r.Inv m) : (r.consume m).Inv m := by
  by_cases hdeq : r.deq = m
  · by_cases hlink : r.link = r.expects
    · exact (h.consume_follow hm hdeq hlink).2
    · have : r.consume m = r := by
        unfold PhaseRing.consume
        rw [if_pos hdeq, if_neg hlink]
      rw [this]
      exact h
  · by_cases hlt : r.executed.length < r.pushed.length
    · exact (h.consume_take hm hdeq hlt).2
    · rcases h.consumer with ⟨hd, he⟩ | ⟨hd, _⟩
      · have : r.consume m = r := by
          unfold PhaseRing.consume
          rw [if_neg hdeq, if_neg]
          rw [hd, he]
          exact fun hc => hlt ((h.valid_iff hm).mp hc)
        rw [this]
        exact h
      · exact absurd hd hdeq

theorem Inv.step (hm : 0 < m) (h : r.Inv m) (e : PhaseRingStep α) (hfew : (r.step m e).Few m) :
    (r.step m e).Inv m := by
  cases e with
  | push a => exact h.push a hfew
  | finish => exact h.finish hm
  | consume => exact h.consume hm

theorem run_inv (hm : 0 < m) {blank : α} {trace : List (PhaseRing α × PhaseRingStep α)}
    (hrun : Run (Next (step m)) (start blank) trace r)
    (hfew : ∀ t ∈ visited trace r, t.Few m) : r.Inv m :=
  hrun.invariant_of_visited (start_inv blank)
    (fun s e s' h hf hs => by
      rw [← show s.step m e = s' from hs] at hf ⊢
      exact h.step hm e hf) hfew

/-! ### The consumer left alone -/

/-- The consumer stands on the link of a lap it has emptied, and the producer, a whole
lap ahead, has set that link for the lap after. -/
def Stuck (m : Nat) (r : PhaseRing α) : Prop :=
  r.deq = m ∧ r.pending = false ∧ r.pushed.length = r.executed.length + m

/-- Behind an emptied lap of which more has been pushed, the link is valid unless the
producer has set it twice. -/
theorem Inv.link_valid (hm : 0 < m) (h : r.Inv m) (hdeq : r.deq = m) (hns : ¬ r.Stuck m)
    (hlt : r.executed.length < r.pushed.length) : r.link = r.expects := by
  rcases h.consumer with ⟨hd, _⟩ | ⟨_, hpos, hmod, he⟩
  · have := Nat.mod_lt r.executed.length hm
    omega
  · have hE := Nat.div_add_mod r.executed.length m
    have hfew := h.few
    unfold Few at hfew
    have hpassed : r.executed.length ≤ r.passed ∧ r.passed < r.executed.length + m := by
      unfold passed
      by_cases hp : r.pending = true
      · rw [if_pos hp]
        omega
      · rw [if_neg hp]
        refine ⟨by omega, Nat.lt_of_le_of_ne hfew fun hc => hns ⟨hdeq, by simpa using hp, hc⟩⟩
    have hlap : r.passed / m = r.executed.length / m := by
      refine Nat.div_eq_of_lt_le ?_ ?_
      · rw [Nat.mul_comm]
        omega
      · rw [Nat.succ_mul, Nat.mul_comm]
        omega
    rw [h.link, hlap, he]

theorem Inv.stuck_consume (hm : 0 < m) (h : r.Inv m) (hs : r.Stuck m) : r.consume m = r := by
  obtain ⟨hdeq, hp, hlen⟩ := hs
  rcases h.consumer with ⟨hd, _⟩ | ⟨_, hpos, hmod, he⟩
  · have := Nat.mod_lt r.executed.length hm
    omega
  · have hlink := h.link
    have hpassed : r.passed = r.executed.length + m := by
      unfold passed
      rw [if_neg (by simp [hp]), hlen]
    have hlap : r.executed.length / m = r.executed.length / m - 1 + 1 := by
      have := Nat.div_pos (Nat.le_of_dvd hpos (Nat.dvd_of_mod_eq_zero hmod)) hm
      omega
    rw [hpassed, Nat.add_div_right _ hm, Nat.succ_sub_one, hlap, lapPhase_succ, ← he] at hlink
    unfold PhaseRing.consume
    rw [if_pos hdeq, if_neg]
    rw [hlink]
    simp

@[simp] theorem consume_pushed (r : PhaseRing α) : (r.consume m).pushed = r.pushed := by
  unfold PhaseRing.consume
  split
  · split <;> rfl
  · split <;> rfl

/-- Having just taken an entry, it is not stuck. -/
theorem Inv.not_stuck_take (hm : 0 < m) (h : r.Inv m) (hdeq : r.deq ≠ m)
    (hlt : r.executed.length < r.pushed.length) : ¬ (r.consume m).Stuck m := by
  rintro ⟨-, -, hlen⟩
  have := h.few
  unfold Few at this
  rw [consume_pushed, (h.consume_take hm hdeq hlt).1, List.length_append,
    List.length_singleton] at hlen
  omega

/-- One or two of its steps take the next entry. -/
theorem Inv.takes_one (hm : 0 < m) (h : r.Inv m) (hns : ¬ r.Stuck m)
    (hlt : r.executed.length < r.pushed.length) :
    ∃ j, ((PhaseRing.consume m)^[j] r).Inv m ∧ ¬ ((PhaseRing.consume m)^[j] r).Stuck m ∧
      ((PhaseRing.consume m)^[j] r).pushed = r.pushed ∧
      ((PhaseRing.consume m)^[j] r).executed.length = r.executed.length + 1 := by
  by_cases hdeq : r.deq = m
  · obtain ⟨hnext, hinv⟩ := h.consume_follow hm hdeq (h.link_valid hm hdeq hns hlt)
    have hdeq' : (r.consume m).deq ≠ m := by rw [hnext]; exact Nat.ne_of_lt hm
    have hlt' : (r.consume m).executed.length < (r.consume m).pushed.length := by
      rw [hnext]; exact hlt
    refine ⟨2, ((hinv.consume_take hm hdeq' hlt').2), hinv.not_stuck_take hm hdeq' hlt', ?_, ?_⟩
    · show ((r.consume m).consume m).pushed = r.pushed
      rw [consume_pushed, consume_pushed]
    · show ((r.consume m).consume m).executed.length = r.executed.length + 1
      have hex : (r.consume m).executed = r.executed := by rw [hnext]
      rw [(hinv.consume_take hm hdeq' hlt').1, List.length_append, List.length_singleton, hex]
  · refine ⟨1, (h.consume_take hm hdeq hlt).2, h.not_stuck_take hm hdeq hlt,
      consume_pushed r, ?_⟩
    show (r.consume m).executed.length = r.executed.length + 1
    rw [(h.consume_take hm hdeq hlt).1, List.length_append]
    rfl

/-- Left alone, the consumer takes everything, unless it is stuck. -/
theorem Inv.drains_iff (hm : 0 < m) (h : r.Inv m) :
    (∃ j, ((PhaseRing.consume m)^[j] r).executed = r.pushed) ↔ ¬ r.Stuck m := by
  constructor
  · rintro ⟨j, hj⟩ hs
    have hfix : (PhaseRing.consume m)^[j] r = r :=
      Function.iterate_fixed (h.stuck_consume hm hs) j
    rw [hfix] at hj
    have := hs.2.2
    rw [hj] at this
    omega
  · intro hns
    generalize hk : r.pushed.length - r.executed.length = k
    induction k generalizing r with
    | zero =>
        refine ⟨0, h.isPrefix.eq_of_length ?_⟩
        have := h.length_le
        omega
    | succ k ih =>
        obtain ⟨j, hi, hs, hp, hl⟩ := h.takes_one hm hns (by omega)
        obtain ⟨i, hi'⟩ := ih hi hs (by rw [hp, hl]; omega)
        refine ⟨i + j, ?_⟩
        rw [Function.iterate_add_apply, hi', hp]

end PhaseRing

end Amaterasu
