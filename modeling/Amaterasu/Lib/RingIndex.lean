/-
Positions on a ring.

A ring of `n` slots is filled and emptied at positions that only ever grow; the
slot of a position is its remainder.  Two positions less than `n` apart that share
a slot are the same position, which is all that keeps a producer off the slots its
consumer has yet to read.
-/
import Mathlib.Data.List.Basic
import Mathlib.Logic.Function.Basic

namespace Amaterasu

variable {n a b : Nat}

/-- Positions in one window of `n` do not share a slot. -/
theorem eq_of_mod_eq_of_window (h : a % n = b % n) (hle : a ≤ b) (hlt : b < a + n) : a = b := by
  have ha := Nat.div_add_mod a n
  have hb := Nat.div_add_mod b n
  rw [h] at ha
  rcases Nat.lt_trichotomy (a / n) (b / n) with hd | hd | hd
  · have : n * (a / n + 1) ≤ n * (b / n) := Nat.mul_le_mul_left n hd
    rw [Nat.mul_succ] at this
    omega
  · rw [hd] at ha
    omega
  · have : n * (b / n + 1) ≤ n * (a / n) := Nat.mul_le_mul_left n hd
    rw [Nat.mul_succ] at this
    omega

/-- The next position is in the next slot of the same lap, -/
theorem succ_of_mod_lt (h : a % n + 1 < n) : (a + 1) % n = a % n + 1 ∧ (a + 1) / n = a / n := by
  have hdiv := Nat.div_add_mod a n
  have heq : a + 1 = a % n + 1 + n * (a / n) := by omega
  refine ⟨?_, ?_⟩
  · rw [heq, Nat.add_mul_mod_self_left, Nat.mod_eq_of_lt h]
  · conv_lhs => rw [heq]
    rw [Nat.add_mul_div_left _ _ (by omega), Nat.div_eq_of_lt h, Nat.zero_add]

/-- or in the first slot of the next. -/
theorem succ_of_mod_eq (h : a % n + 1 = n) : (a + 1) % n = 0 ∧ (a + 1) / n = a / n + 1 := by
  have hdiv := Nat.div_add_mod a n
  have heq : a + 1 = n * (a / n + 1) := by rw [Nat.mul_succ]; omega
  refine ⟨?_, ?_⟩
  · rw [heq, Nat.mul_mod_right]
  · conv_lhs => rw [heq]
    rw [Nat.mul_div_cancel_left _ (by omega)]

/-- The contents of a ring: the slots of the `k` positions from `first` on. -/
def ringSlots {α : Type*} (slots : Nat → α) (n first k : Nat) : List α :=
  (List.range k).map fun i => slots ((first + i) % n)

variable {α : Type*} {slots : Nat → α} {first k : Nat}

@[simp] theorem ringSlots_length : (ringSlots slots n first k).length = k := by
  simp [ringSlots]

/-- The first position's slot is in front. -/
theorem ringSlots_succ_left :
    ringSlots slots n first (k + 1) = slots (first % n) :: ringSlots slots n (first + 1) k := by
  simp only [ringSlots, List.range_succ_eq_map, List.map_cons, Nat.add_zero, List.map_map]
  congr 1
  refine List.map_congr_left fun i _ => ?_
  show slots ((first + (i + 1)) % n) = slots ((first + 1 + i) % n)
  rw [show first + (i + 1) = first + 1 + i by omega]

/-- Filling the next free slot appends to the contents. -/
theorem ringSlots_update (hk : k < n) (x : α) :
    ringSlots (Function.update slots ((first + k) % n) x) n first (k + 1)
      = ringSlots slots n first k ++ [x] := by
  simp only [ringSlots, List.range_succ, List.map_append, List.map_cons, List.map_nil,
    Function.update_self]
  congr 1
  refine List.map_congr_left fun i hi => ?_
  have hik : i < k := List.mem_range.mp hi
  refine Function.update_of_ne (fun hc => ?_) _ _
  have := eq_of_mod_eq_of_window hc (by omega) (by omega)
  omega

/-- Only the remainder of the first position matters. -/
theorem ringSlots_mod : ringSlots slots n (first % n) k = ringSlots slots n first k := by
  refine List.map_congr_left fun i _ => ?_
  rw [Nat.mod_add_mod]

end Amaterasu
