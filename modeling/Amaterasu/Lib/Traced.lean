/-
Computations that read memory.

A `Traced` computation keeps the reads it makes, in order, next to its result, so that what
it returns and where it looks can be spoken of apart.  It fails where a machine word
overflows; the reads made up to there remain.
-/
import Mathlib.Data.Nat.Digits.Lemmas
import Amaterasu.Lib.Memory

namespace Amaterasu

/-- The number that bytes encode, least significant first. -/
def littleEndian (bytes : List UInt8) : Nat := Nat.ofDigits 256 (bytes.map UInt8.toNat)

theorem littleEndian_lt (bytes : List UInt8) : littleEndian bytes < 256 ^ bytes.length := by
  have h := Nat.ofDigits_lt_base_pow_length (b := 256) (l := bytes.map UInt8.toNat) (by omega) ?_
  · rw [List.length_map] at h
    exact h
  · intro d hd
    obtain ⟨b, -, rfl⟩ := List.mem_map.mp hd
    exact b.toNat_lt

namespace Mem

variable {m : Mem} {a i n : Nat} {l l' : List UInt8}

/-- The `n` bytes from an address on. -/
def bytes (m : Mem) (a n : Nat) : List UInt8 := (List.range n).map fun i => m (a + i)

/-- A list of bytes is in memory. -/
def Holds (m : Mem) (a : Nat) (l : List UInt8) : Prop := ∀ i (h : i < l.length), m (a + i) = l[i]

instance : Decidable (m.Holds a l) :=
  inferInstanceAs (Decidable (∀ i (h : i < l.length), m (a + i) = l[i]))

theorem holds_append : m.Holds a (l ++ l') ↔ m.Holds a l ∧ m.Holds (a + l.length) l' := by
  constructor
  · intro h
    refine ⟨fun i hi => ?_, fun i hi => ?_⟩
    · rw [h i (by rw [List.length_append]; omega), List.getElem_append_left hi]
    · rw [Nat.add_assoc, h (l.length + i) (by rw [List.length_append]; omega),
        List.getElem_append_right (Nat.le_add_right _ _)]
      congr 1
      omega
  · rintro ⟨hl, hl'⟩ i hi
    by_cases hlt : i < l.length
    · rw [hl i hlt, List.getElem_append_left hlt]
    · rw [List.length_append] at hi
      rw [List.getElem_append_right (by omega), ← hl' (i - l.length) (by omega)]
      congr 1
      omega

/-- A part of a list that is in memory. -/
theorem Holds.bytes (h : m.Holds a l) (hn : i + n ≤ l.length) :
    m.bytes (a + i) n = (l.drop i).take n := by
  apply List.ext_getElem
  · rw [Mem.bytes, List.length_map, List.length_range, List.length_take, List.length_drop]
    omega
  · intro k hk _
    rw [Mem.bytes, List.length_map, List.length_range] at hk
    rw [List.getElem_take, List.getElem_drop, ← h (i + k) (by omega)]
    simp only [Mem.bytes, List.getElem_map, List.getElem_range, Nat.add_assoc]

end Mem

/-- A computation with the reads it makes, each with its size. -/
structure Traced (α : Type) where
  reads : List (Nat × Nat)
  result : Option α

namespace Traced

variable {α β : Type}

protected def pure (a : α) : Traced α := ⟨[], some a⟩

/-- What comes after a failure makes no reads. -/
protected def bind (x : Traced α) (f : α → Traced β) : Traced β where
  reads := x.reads ++ (x.result.map fun a => (f a).reads).getD []
  result := x.result.bind fun a => (f a).result

instance : Monad Traced where
  pure := Traced.pure
  bind := Traced.bind

/-- A read of `n` bytes. -/
def reading (a n : Nat) (v : α) : Traced α := ⟨[(a, n)], some v⟩

/-- A sum that has to fit a machine word. -/
def fits (a : Nat) : Traced Unit := ⟨[], if a < 2 ^ 64 then some () else none⟩

/-- Every read is of bytes between `lo` and `hi`. -/
def Within (lo hi : Nat) (x : Traced α) : Prop := ∀ r ∈ x.reads, lo ≤ r.1 ∧ r.1 + r.2 ≤ hi

variable {lo hi a n : Nat} {v : α} {x : Traced α} {f : α → Traced β} {g : Unit → Traced β}

theorem result_pure : (pure v : Traced α).result = some v := rfl

theorem result_bind : (x >>= f).result = x.result.bind fun a => (f a).result := rfl

theorem result_reading : (reading a n v >>= f).result = (f v).result := rfl

theorem result_fits (h : a < 2 ^ 64) : (fits a >>= g).result = (g ()).result := by
  rw [result_bind, fits, if_pos h, Option.bind_some]

theorem result_fits_eq_some {b : β} :
    (fits a >>= g).result = some b ↔ a < 2 ^ 64 ∧ (g ()).result = some b := by
  by_cases h : a < 2 ^ 64
  · rw [result_fits h]
    exact (and_iff_right h).symm
  · rw [result_bind, fits, if_neg h, Option.bind_none]
    exact iff_of_false (by simp) fun hlt => h hlt.1

theorem within_pure : (pure v : Traced α).Within lo hi :=
  fun _ hr => absurd hr List.not_mem_nil

theorem within_bind : (x >>= f).Within lo hi ↔
    x.Within lo hi ∧ ∀ a, x.result = some a → (f a).Within lo hi := by
  show (∀ r ∈ x.reads ++ (x.result.map fun a => (f a).reads).getD [], _) ↔ _
  rw [List.forall_mem_append]
  refine and_congr_right fun _ => ?_
  cases x.result with
  | none =>
      refine iff_of_true (fun r hr => absurd hr List.not_mem_nil) fun a ha => ?_
      exact absurd ha (by simp)
  | some v =>
      rw [Option.map_some, Option.getD_some]
      exact ⟨fun h a ha => Option.some.inj ha ▸ h, fun h => h v rfl⟩

theorem within_reading :
    (reading a n v >>= f).Within lo hi ↔ (lo ≤ a ∧ a + n ≤ hi) ∧ (f v).Within lo hi := by
  rw [within_bind]
  refine and_congr ?_ ⟨fun h => h v rfl, fun h a ha => Option.some.inj ha ▸ h⟩
  show (∀ r ∈ [(a, n)], _) ↔ _
  rw [List.forall_mem_singleton]

theorem within_fits : (fits a >>= g).Within lo hi ↔ (a < 2 ^ 64 → (g ()).Within lo hi) := by
  rw [within_bind, fits]
  refine ⟨fun h ha => h.2 () (if_pos ha), fun h => ⟨fun r hr => absurd hr List.not_mem_nil, ?_⟩⟩
  intro u hu
  by_cases ha : a < 2 ^ 64
  · exact h ha
  · rw [if_neg ha] at hu
    exact absurd hu (by simp)

end Traced

end Amaterasu
