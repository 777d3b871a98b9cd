/-
A ring whose consumer posts its position.

The slots carry the phase of their lap, and there is no link: both ends go from the last
slot to the first and flip what they write or expect.  The producer knows of the consumer
only what the consumer has posted, and stops when a lap is outstanding as far as it
knows.  Taking an entry and posting the new position are two steps, and the producer may
act in between.

What has been posted is never ahead of what has been taken, so a producer that stops in
time never writes over an entry, and the consumer takes what was written, in order.
-/
import Amaterasu.Lib.Laps

namespace Amaterasu

/-- The ring, both ends, and the history of both. -/
structure PostedRing (α : Type*) where
  slot : Nat → α × Bool
  enq : Nat
  phase : Bool
  deq : Nat
  expects : Bool
  /-- An entry is taken and the position behind it is not posted. -/
  unposted : Bool
  /-- Entries the producer knows to be taken. -/
  posted : Nat
  written : List α
  taken : List α

namespace PostedRing

variable {α : Type*} {m : Nat}

def start (blank : α) : PostedRing α :=
  { slot := fun _ => (blank, false), enq := 0, phase := true, deq := 0, expects := true,
    unposted := false, posted := 0, written := [], taken := [] }

/-- The next position on the ring, and the phase there. -/
def advance (m : Nat) (pos : Nat) (phase : Bool) : Nat × Bool :=
  if pos + 1 = m then (0, !phase) else (pos + 1, phase)

/-- The producer writes an entry, unless the ring is full. -/
def write (m : Nat) (r : PostedRing α) (a : α) : PostedRing α :=
  if r.written.length = r.posted + m then r
  else
    { r with
      slot := Function.update r.slot r.enq (a, r.phase)
      enq := (advance m r.enq r.phase).1
      phase := (advance m r.enq r.phase).2
      written := r.written ++ [a] }

/-- The consumer takes the entry it is at, if it is valid. -/
def take (m : Nat) (r : PostedRing α) : PostedRing α :=
  if r.unposted = false ∧ (r.slot r.deq).2 = r.expects then
    { r with
      deq := (advance m r.deq r.expects).1
      expects := (advance m r.deq r.expects).2
      unposted := true
      taken := r.taken ++ [(r.slot r.deq).1] }
  else r

/-- The consumer posts where it is. -/
def post (r : PostedRing α) : PostedRing α := { r with unposted := false, posted := r.taken.length }

structure Inv (m : Nat) (r : PostedRing α) : Prop where
  laps : Laps m r.slot r.written
  isPrefix : r.taken <+: r.written
  few : r.written.length ≤ r.posted + m
  posted : r.posted + (if r.unposted then 1 else 0) = r.taken.length
  enq : r.enq = r.written.length % m
  phase : r.phase = lapPhase (r.written.length / m)
  deq : r.deq = r.taken.length % m
  expects : r.expects = lapPhase (r.taken.length / m)

variable {r : PostedRing α}

theorem start_inv (blank : α) : (start blank).Inv m where
  laps := Laps.start blank
  isPrefix := List.prefix_refl _
  few := Nat.zero_le _
  posted := rfl
  enq := by simp [start]
  phase := by simp [start]
  deq := by simp [start]
  expects := by simp [start]

/-- Counting on by one moves to the next position. -/
theorem advance_eq (hm : 0 < m) (n : Nat) :
    advance m (n % m) (lapPhase (n / m)) = ((n + 1) % m, lapPhase ((n + 1) / m)) := by
  have hlt : n % m < m := Nat.mod_lt _ hm
  unfold advance
  by_cases hwrap : n % m + 1 = m
  · obtain ⟨hmod, hdiv⟩ := succ_of_mod_eq hwrap
    rw [if_pos hwrap, hmod, hdiv, lapPhase_succ]
  · obtain ⟨hmod, hdiv⟩ := succ_of_mod_lt (a := n) (n := m) (by omega)
    rw [if_neg hwrap, hmod, hdiv]

theorem Inv.length_le (h : r.Inv m) : r.taken.length ≤ r.written.length := h.isPrefix.length_le

theorem Inv.outstanding (h : r.Inv m) : r.written.length ≤ r.taken.length + m := by
  have hposted := h.posted
  have hfew := h.few
  omega

theorem Inv.write (hm : 0 < m) (h : r.Inv m) (a : α) : (r.write m a).Inv m := by
  unfold PostedRing.write
  by_cases hfull : r.written.length = r.posted + m
  · rw [if_pos hfull]
    exact h
  · rw [if_neg hfull]
    have hnext := advance_eq hm r.written.length
    rw [← h.enq, ← h.phase] at hnext
    have hlen : (r.written ++ [a]).length = r.written.length + 1 := by simp
    have hlaps := h.laps.push a
    rw [← h.enq, ← h.phase] at hlaps
    refine ⟨hlaps, h.isPrefix.trans (List.prefix_append _ _), ?_, h.posted, ?_, ?_, h.deq,
      h.expects⟩
    · have hfew := h.few
      show (r.written ++ [a]).length ≤ r.posted + m
      omega
    · show (advance m r.enq r.phase).1 = (r.written ++ [a]).length % m
      rw [hnext, hlen]
    · show (advance m r.enq r.phase).2 = lapPhase ((r.written ++ [a]).length / m)
      rw [hnext, hlen]

/-- The slot the consumer is at is valid exactly when an entry waits. -/
theorem Inv.valid_iff (hm : 0 < m) (h : r.Inv m) :
    (r.slot r.deq).2 = r.expects ↔ r.taken.length < r.written.length := by
  rw [h.deq, h.expects]
  exact h.laps.valid_iff hm h.length_le h.outstanding

/-- and holds that entry. -/
theorem Inv.next_eq (h : r.Inv m) (hlt : r.taken.length < r.written.length) :
    (r.slot r.deq).1 = r.written[r.taken.length] := by
  rw [h.deq, h.laps.get hlt h.outstanding]

theorem Inv.take (hm : 0 < m) (h : r.Inv m) : (r.take m).Inv m := by
  unfold PostedRing.take
  by_cases hready : r.unposted = false ∧ (r.slot r.deq).2 = r.expects
  · rw [if_pos hready]
    have hlt := (h.valid_iff hm).mp hready.2
    have hnext := advance_eq hm r.taken.length
    rw [← h.deq, ← h.expects] at hnext
    have hlen : (r.taken ++ [(r.slot r.deq).1]).length = r.taken.length + 1 := by simp
    refine ⟨h.laps, ?_, h.few, ?_, h.enq, h.phase, ?_, ?_⟩
    · show r.taken ++ [(r.slot r.deq).1] <+: r.written
      rw [h.next_eq hlt]
      have htake : r.taken = r.written.take r.taken.length := List.prefix_iff_eq_take.mp h.isPrefix
      rw [List.prefix_iff_eq_take, List.length_append, List.length_singleton,
        ← List.take_append_getElem hlt, ← htake]
    · have hposted := h.posted
      rw [hready.1] at hposted
      show r.posted + 1 = (r.taken ++ [(r.slot r.deq).1]).length
      rw [hlen]
      exact congrArg (· + 1) hposted
    · show (advance m r.deq r.expects).1 = (r.taken ++ [(r.slot r.deq).1]).length % m
      rw [hnext, hlen]
    · show (advance m r.deq r.expects).2 = lapPhase ((r.taken ++ [(r.slot r.deq).1]).length / m)
      rw [hnext, hlen]
  · rw [if_neg hready]
    exact h

theorem Inv.post (h : r.Inv m) : r.post.Inv m where
  laps := h.laps
  isPrefix := h.isPrefix
  few := h.outstanding
  posted := Nat.add_zero _
  enq := h.enq
  phase := h.phase
  deq := h.deq
  expects := h.expects

end PostedRing

end Amaterasu
