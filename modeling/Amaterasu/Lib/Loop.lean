/-
Loops whose body can fail.

A turn of the loop fails, or is the last one and yields a result, or goes on with new
variables.  When every turn that goes on leaves less to do, the loop ends, and what it does
is what its turns do.  A counted loop has an invariant that the count is a part of.
-/
import Mathlib.Data.List.Range

namespace Amaterasu

variable {σ β : Type*}

/-- A loop whose every turn leaves less to do. -/
def loop (turn : σ → Option (σ ⊕ β)) (left : σ → ℕ)
    (hleft : ∀ s s', turn s = some (.inl s') → left s' < left s) (s : σ) : Option β :=
  match _h : turn s with
  | none => none
  | some (.inr b) => some b
  | some (.inl s') => loop turn left hleft s'
termination_by left s
decreasing_by exact hleft s s' _h

variable {turn : σ → Option (σ ⊕ β)} {left : σ → ℕ}
  {hleft : ∀ s s', turn s = some (.inl s') → left s' < left s} {s s' : σ} {b : β}

theorem loop_none (h : turn s = none) : loop turn left hleft s = none := by
  rw [loop]
  split
  · rfl
  · rename_i heq
    rw [h] at heq
    exact absurd heq (by simp)
  · rename_i heq
    rw [h] at heq
    exact absurd heq (by simp)

theorem loop_done (h : turn s = some (.inr b)) : loop turn left hleft s = some b := by
  rw [loop]
  split
  · rename_i heq
    rw [h] at heq
    exact absurd heq (by simp)
  · rename_i heq
    rw [h] at heq
    exact congrArg some (Sum.inr.inj (Option.some.inj heq)).symm
  · rename_i heq
    rw [h] at heq
    exact absurd heq (by simp)

theorem loop_turn (h : turn s = some (.inl s')) :
    loop turn left hleft s = loop turn left hleft s' := by
  rw [loop]
  split
  · rename_i heq
    rw [h] at heq
    exact absurd heq (by simp)
  · rename_i heq
    rw [h] at heq
    exact absurd heq (by simp)
  · rename_i heq
    rw [h] at heq
    rw [Sum.inl.inj (Option.some.inj heq)]

/-! ### Counted loops -/

section Counted

variable {body : σ → ℕ → Option σ} {I : ℕ → σ → Prop} {n : ℕ}

/-- What a turn keeps, if it ends, holds behind the loop, if that ends. -/
theorem counted_spec (hstep : ∀ i s s', i < n → I i s → body s i = some s' → I (i + 1) s')
    (hstart : I 0 s) (heq : (List.range n).foldlM body s = some s') : I n s' := by
  induction n generalizing s' with
  | zero =>
      obtain rfl : s = s' := Option.some.inj heq
      exact hstart
  | succ n ih =>
      rw [List.range_succ, List.foldlM_append] at heq
      obtain ⟨t, hfirst, hlast⟩ := Option.bind_eq_some_iff.mp heq
      rw [List.foldlM_cons] at hlast
      obtain ⟨t', hturn, hnil⟩ := Option.bind_eq_some_iff.mp hlast
      obtain rfl : t' = s' := Option.some.inj hnil
      have ht : I n t := ih (fun i u u' hi => hstep i u u' (by omega)) hfirst
      exact hstep n t t' (Nat.lt_succ_self n) ht hturn

/-- When no turn fails, the loop ends. -/
theorem counted_ends (hstep : ∀ i s, i < n → I i s → ∃ s', body s i = some s' ∧ I (i + 1) s')
    (hstart : I 0 s) : ∃ s', (List.range n).foldlM body s = some s' ∧ I n s' := by
  induction n with
  | zero => exact ⟨s, rfl, hstart⟩
  | succ n ih =>
      obtain ⟨t, hfirst, ht⟩ := ih fun i u hi => hstep i u (by omega)
      obtain ⟨t', hturn, ht'⟩ := hstep n t (Nat.lt_succ_self n) ht
      refine ⟨t', ?_, ht'⟩
      rw [List.range_succ, List.foldlM_append, hfirst]
      show ([n].foldlM body t) = _
      rw [List.foldlM_cons, hturn]
      rfl

end Counted

end Amaterasu
