/-
Slots that carry the phase of their lap.

A producer that goes round a ring writes, next to each entry, a bit that flips at the end
of a lap.  A slot with the bit of the lap a consumer is on has been written in that lap,
as long as the producer is no more than one lap ahead.  Nothing else about either end is
assumed here: whether there is a link behind the last slot, and how the producer learns
that there is room, is up to the ring.
-/
import Amaterasu.Lib.RingIndex
import Mathlib.Data.Bool.Basic

namespace Amaterasu

/-- Phase of the entries of a lap: the first lap's is `true`. -/
def lapPhase (lap : Nat) : Bool := lap % 2 == 0

@[simp] theorem lapPhase_zero : lapPhase 0 = true := rfl

@[simp] theorem lapPhase_succ (lap : Nat) : lapPhase (lap + 1) = !lapPhase lap := by
  unfold lapPhase
  rcases Nat.mod_two_eq_zero_or_one lap with h | h
  · rw [Nat.add_mod, h]; rfl
  · rw [Nat.add_mod, h]; rfl

/-- What the slots of a ring hold after some entries. -/
structure Laps {α : Type*} (m : Nat) (slot : Nat → α × Bool) (pushed : List α) : Prop where
  /-- The last lap's worth of entries is on the ring, each with its lap's phase, -/
  written : ∀ p a, pushed[p]? = some a → pushed.length ≤ p + m →
    slot (p % m) = (a, lapPhase (p / m))
  /-- and a slot not reached yet has the phase no consumer expects there. -/
  fresh : ∀ i < m, pushed.length ≤ i → (slot i).2 = false

namespace Laps

variable {α : Type*} {m n : Nat} {slot : Nat → α × Bool} {pushed : List α}

theorem start (blank : α) : Laps m (fun _ => (blank, false)) [] :=
  ⟨by simp, fun _ _ _ => rfl⟩

/-- The next entry, in its slot and with its phase. -/
theorem push (h : Laps m slot pushed) (a : α) :
    Laps m (Function.update slot (pushed.length % m) (a, lapPhase (pushed.length / m)))
      (pushed ++ [a]) := by
  refine ⟨?_, ?_⟩
  · intro p b hb hlen
    rw [List.length_append, List.length_singleton] at hlen
    have hlt : p < pushed.length + 1 := by
      simpa using (List.getElem?_eq_some_iff.mp hb).1
    rcases Nat.lt_or_eq_of_le (Nat.le_of_lt_succ hlt) with hlt' | heq
    · -- An older entry: the new one is less than a lap ahead, so not in its slot.
      rw [List.getElem?_append_left hlt'] at hb
      rw [Function.update_of_ne]
      · exact h.written p b hb (by omega)
      · intro hc
        have := eq_of_mod_eq_of_window hc (by omega) (by omega)
        omega
    · subst heq
      rw [List.getElem?_concat_length, Option.some_inj] at hb
      rw [Function.update_self, hb]
  · intro i hi hlen
    rw [List.length_append, List.length_singleton] at hlen
    rw [Function.update_of_ne]
    · exact h.fresh i hi (by omega)
    · rw [Nat.mod_eq_of_lt (by omega)]
      omega

/-- The slot of an entry that is on the ring. -/
theorem get (h : Laps m slot pushed) (hn : n < pushed.length) (hfew : pushed.length ≤ n + m) :
    slot (n % m) = (pushed[n], lapPhase (n / m)) :=
  h.written _ _ (List.getElem?_eq_getElem hn) hfew

/-- A consumer's next slot has the phase it expects exactly when its entry was pushed. -/
theorem valid_iff (hm : 0 < m) (h : Laps m slot pushed) (hle : n ≤ pushed.length)
    (hfew : pushed.length ≤ n + m) :
    (slot (n % m)).2 = lapPhase (n / m) ↔ n < pushed.length := by
  constructor
  · intro hv
    by_contra hge
    by_cases hlap : n < m
    · rw [Nat.mod_eq_of_lt hlap, h.fresh _ hlap (by omega), Nat.div_eq_of_lt hlap] at hv
      simp at hv
    · -- The slot still holds the entry of the lap before, with the other phase.
      have hold := h.get (n := n - m) (by omega) (by omega)
      have hmod : (n - m) % m = n % m := by
        conv_rhs => rw [← Nat.sub_add_cancel (Nat.not_lt.mp hlap), Nat.add_mod_right]
      have hdiv : n / m = (n - m) / m + 1 := by
        conv_lhs => rw [← Nat.sub_add_cancel (Nat.not_lt.mp hlap), Nat.add_div_right _ hm]
      rw [hmod] at hold
      rw [hold, hdiv] at hv
      simp at hv
  · intro hlt
    rw [h.get hlt hfew]

end Laps

end Amaterasu
