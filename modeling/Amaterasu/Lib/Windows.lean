/-
Windows of memory.

Cut at the multiples of a bound, memory falls into windows of one size, and an object stays
inside one of them when its first and its last byte lie in the same.  Alignment alone keeps an
object inside only if it is no larger than its alignment; an object put at the least aligned
address from a position on stays inside or not depending on where in a window that position is.
-/
import Mathlib.Data.Nat.ModEq

namespace Amaterasu

/-- The object of `size` bytes at `addr` does not span a multiple of `bound`. -/
def InWindow (bound addr size : Nat) : Prop := addr / bound = (addr + size - 1) / bound

instance (bound addr size : Nat) : Decidable (InWindow bound addr size) :=
  inferInstanceAs (Decidable (_ = _))

namespace InWindow

variable {bound addr size base align cur start : Nat}

/-- What is left of the window is enough. -/
theorem iff_mod (hsize : 0 < size) (hbound : 0 < bound) :
    InWindow bound addr size ↔ addr % bound + size ≤ bound := by
  have hdiv := Nat.div_add_mod addr bound
  have hlast : addr + size - 1 = addr % bound + size - 1 + bound * (addr / bound) := by omega
  unfold InWindow
  rw [hlast, Nat.add_mul_div_left _ _ hbound]
  have hzero : (addr % bound + size - 1) / bound = 0 ↔ addr % bound + size - 1 < bound :=
    Nat.div_eq_zero_iff_lt hbound
  omega

/-- A change of origin by whole windows. -/
theorem sub_iff (hsize : 0 < size) (hbound : 0 < bound) (hdvd : bound ∣ base)
    (hle : base ≤ addr) : InWindow bound (addr - base) size ↔ InWindow bound addr size := by
  obtain ⟨k, rfl⟩ := hdvd
  rw [iff_mod hsize hbound, iff_mod hsize hbound]
  conv_rhs => rw [← Nat.sub_add_cancel hle, Nat.add_mul_mod_self_left]

/-- An object no larger than its alignment. -/
theorem of_dvd (hsize : 0 < size) (hbound : 0 < bound) (halign : align ∣ bound)
    (haddr : align ∣ addr) (hle : size ≤ align) : InWindow bound addr size := by
  rw [iff_mod hsize hbound]
  have hmod := Nat.mod_lt addr hbound
  obtain ⟨r, hr⟩ := (Nat.dvd_mod_iff halign).mpr haddr
  obtain ⟨b, rfl⟩ := halign
  have hlt : r < b := by
    by_contra hge
    have := Nat.mul_le_mul_left align (Nat.le_of_not_lt hge)
    omega
  have hstep := Nat.mul_le_mul_left align (Nat.succ_le_of_lt hlt)
  rw [Nat.mul_succ] at hstep
  omega

/-- An object at the least aligned address from a position on. -/
theorem least_iff (hsize : 0 < size) (hle : size ≤ bound) (halign : align ∣ bound)
    (hdvd : align ∣ size) (hstart : align ∣ start) (hge : cur ≤ start)
    (hleast : ∀ x, align ∣ x → cur ≤ x → start ≤ x) :
    InWindow bound start size ↔ cur % bound + size ≤ bound ∨ bound < cur % bound + align := by
  have hbound : 0 < bound := by omega
  have hmod := Nat.mod_lt cur hbound
  have hdiv := Nat.div_add_mod cur bound
  -- The window that the position is in starts at `bound * (cur / bound)`.
  have hwindow : align ∣ bound * (cur / bound) := halign.trans (Nat.dvd_mul_right _ _)
  have hinside : start < bound * (cur / bound) + bound →
      start % bound = start - bound * (cur / bound) := by
    intro hlt
    have hsum : start = start - bound * (cur / bound) + bound * (cur / bound) := by omega
    conv_lhs => rw [hsum, Nat.add_mul_mod_self_left]
    exact Nat.mod_eq_of_lt (by omega)
  rw [iff_mod hsize hbound]
  by_cases hroom : cur % bound + size ≤ bound
  · have hlast : start ≤ bound * (cur / bound) + (bound - size) :=
      hleast _ (Nat.dvd_add hwindow (Nat.dvd_sub halign hdvd)) (by omega)
    rw [hinside (by omega)]
    exact iff_of_true (by omega) (Or.inl hroom)
  · by_cases hnext : bound < cur % bound + align
    · have hupper : start ≤ bound * (cur / bound) + bound :=
        hleast _ (Nat.dvd_add hwindow halign) (by omega)
      -- No multiple of the alignment lies between the position and the next window.
      have hlower : bound * (cur / bound) + bound ≤ start := by
        obtain ⟨k, hk⟩ := hstart
        obtain ⟨j, hj⟩ := Nat.dvd_add hwindow halign
        have hlt : j ≤ k := by
          by_contra hgt
          have := Nat.mul_le_mul_left align (Nat.succ_le_of_lt (Nat.lt_of_not_le hgt))
          rw [Nat.mul_succ] at this
          omega
        have := Nat.mul_le_mul_left align hlt
        omega
      have heq : start = bound * (cur / bound + 1) := by
        rw [Nat.mul_succ]
        omega
      rw [heq, Nat.mul_mod_right]
      exact iff_of_true (by omega) (Or.inr hnext)
    · have hupper : start ≤ bound * (cur / bound) + (bound - align) :=
        hleast _ (Nat.dvd_add hwindow (Nat.dvd_sub halign (dvd_refl align))) (by omega)
      have hpos : 0 < align := by
        rcases Nat.eq_zero_or_pos align with rfl | hpos
        · have := Nat.eq_zero_of_zero_dvd halign
          omega
        · exact hpos
      rw [hinside (by omega)]
      exact iff_of_false (by omega) (by omega)

end InWindow

end Amaterasu
