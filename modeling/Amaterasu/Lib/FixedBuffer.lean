/-
A buffer of fixed capacity whose first `k` cells are in use.

The operations are the checked ones on slices: each is `none` where the bounds check
would panic.  `text b k` is what the first `k` cells hold, and the lemmas say how the
text changes when something is stored at its end, moved up to make room, moved down to
close a gap, or replaced.
-/
import Mathlib.Data.List.Basic

namespace Amaterasu

namespace FixedBuffer

variable {C : Type*} {n : Nat}

/-- The cells in use. -/
def text (b : Vector C n) (k : Nat) : List C := b.toList.take k

/-- The buffer with some cells replaced, from an index on. -/
def patch (b : Vector C n) (i : Nat) (xs : List C) (h : i + xs.length ≤ n) : Vector C n :=
  ⟨(b.toList.take i ++ (xs ++ b.toList.drop (i + xs.length))).toArray, by
    simp only [List.size_toArray, List.length_append, List.length_take, List.length_drop,
      Vector.length_toList]
    omega⟩

/-- `&b[..k]`. -/
def upTo (b : Vector C n) (k : Nat) : Option (List C) := if k ≤ n then some (text b k) else none

/-- `b[i] = x`. -/
def store (b : Vector C n) (i : Nat) (x : C) : Option (Vector C n) :=
  if h : i < n then some (patch b i [x] h) else none

/-- `b[..xs.len()].copy_from_slice(xs)`. -/
def overwrite (b : Vector C n) (xs : List C) : Option (Vector C n) :=
  if h : xs.length ≤ n then some (patch b 0 xs (by omega)) else none

/-- The cells from `i` up to `j`. -/
def between (b : Vector C n) (i j : Nat) : List C := (b.toList.drop i).take (j - i)

theorem length_between_le (b : Vector C n) (i j : Nat) : (between b i j).length ≤ j - i :=
  List.length_take_le _ _

/-- `b.copy_within(i..j, dest)`. -/
def copyWithin (b : Vector C n) (i j dest : Nat) : Option (Vector C n) :=
  if h : i ≤ j ∧ j ≤ n ∧ dest + (j - i) ≤ n then
    some (patch b dest (between b i j) (by have := length_between_le b i j; omega))
  else none

/-! ### Texts -/

theorem length_text {b : Vector C n} {k : Nat} (hk : k ≤ n) : (text b k).length = k := by
  simp [text, hk]

@[simp] theorem text_zero (b : Vector C n) : text b 0 = [] := rfl

theorem upTo_eq {b : Vector C n} {k : Nat} (hk : k ≤ n) : upTo b k = some (text b k) := if_pos hk

theorem take_text {b : Vector C n} {i k : Nat} (h : i ≤ k) : (text b k).take i = text b i := by
  rw [text, List.take_take, Nat.min_eq_left h, text]

theorem drop_text (b : Vector C n) (i k : Nat) : (text b k).drop i = between b i k := by
  rw [text, List.drop_take, between]

/-- A text is what comes before an index and what comes from it on. -/
theorem text_split {b : Vector C n} {i k : Nat} (h : i ≤ k) :
    text b k = text b i ++ between b i k := by
  rw [← take_text h, ← drop_text, List.take_append_drop]

/-- A text known in two parts is split where the first one ends. -/
theorem split_of_text {b : Vector C n} {i k : Nat} {front back : List C}
    (h : text b k = front ++ back) (hi : front.length = i) (hik : i ≤ k) :
    text b i = front ∧ between b i k = back := by
  subst hi
  refine ⟨?_, ?_⟩
  · rw [← take_text hik, h, List.take_left]
  · rw [← drop_text, h, List.drop_left]

theorem length_between (b : Vector C n) {i j : Nat} (hij : i ≤ j) (hj : j ≤ n) :
    (between b i j).length = j - i := by
  simp only [between, List.length_take, List.length_drop, Vector.length_toList]
  omega

theorem getElem?_eq_text {b : Vector C n} {i k : Nat} (h : i < k) : b[i]? = (text b k)[i]? := by
  rw [text, List.getElem?_take_of_lt h, Vector.getElem?_toList]

/-- A cell in use. -/
theorem exists_cell {b : Vector C n} {i k : Nat} (h : i < k) (hk : k ≤ n) :
    ∃ x, b[i]? = some x ∧ x ∈ text b k ∧ between b i k = x :: between b (i + 1) k := by
  have hlen : i < (text b k).length := by
    rw [length_text hk]
    exact h
  refine ⟨(text b k)[i], ?_, List.getElem_mem hlen, ?_⟩
  · rw [getElem?_eq_text h, List.getElem?_eq_getElem hlen]
  · rw [← drop_text, ← drop_text, List.drop_eq_getElem_cons hlen]

/-! ### What the operations do to texts -/

theorem text_patch_end (b : Vector C n) {i k : Nat} (xs : List C) (h : i + xs.length ≤ n)
    (hk : k = i + xs.length) : text (patch b i xs h) k = text b i ++ xs := by
  have hlen : (b.toList.take i ++ xs).length = i + xs.length := by
    simp only [List.length_append, List.length_take, Vector.length_toList]
    omega
  show (b.toList.take i ++ (xs ++ b.toList.drop (i + xs.length))).take k = _
  rw [← List.append_assoc, hk, ← hlen, List.take_left]
  rfl

/-- Storing behind the text makes it longer. -/
theorem store_end {b : Vector C n} {k : Nat} (hk : k < n) (x : C) :
    ∃ b', store b k x = some b' ∧ text b' (k + 1) = text b k ++ [x] :=
  ⟨_, dif_pos hk, text_patch_end b [x] hk rfl⟩

/-- Storing changes one cell. -/
theorem store_spec (b : Vector C n) {i : Nat} (hi : i < n) (x : C) :
    ∃ b', store b i x = some b' ∧ ∀ k (hk : k < n), b'[k] = if k = i then x else b[k] := by
  refine ⟨_, dif_pos hi, ?_⟩
  intro k hk
  have hlist : (patch b i [x] hi).toList = b.toList.set i x := by
    rw [List.set_eq_take_append_cons_drop, if_pos (by simpa using hi)]
    rfl
  have hcell : (patch b i [x] hi)[k]? = some (if k = i then x else b[k]) := by
    rw [← Vector.getElem?_toList, hlist, List.getElem?_set]
    by_cases h : k = i
    · rw [if_pos h.symm, if_pos h, if_pos (by rw [Vector.length_toList]; exact hi)]
    · rw [if_neg (Ne.symm h), if_neg h, Vector.getElem?_toList, Vector.getElem?_eq_getElem hk]
  rw [Vector.getElem?_eq_getElem hk] at hcell
  exact Option.some.inj hcell

/-- A text can be replaced by any that fits. -/
theorem overwrite_spec (b : Vector C n) {xs : List C} (h : xs.length ≤ n) :
    ∃ b', overwrite b xs = some b' ∧ text b' xs.length = xs := by
  refine ⟨_, dif_pos h, ?_⟩
  rw [text_patch_end b xs _ (by omega), text_zero, List.nil_append]

/-- Moving the rest of the text down closes the gap in front of it. -/
theorem copyWithin_down {b : Vector C n} {i k : Nat} (hi : 0 < i) (hik : i ≤ k) (hk : k ≤ n) :
    ∃ b', copyWithin b i k (i - 1) = some b' ∧
      text b' (k - 1) = text b (i - 1) ++ between b i k := by
  refine ⟨_, dif_pos ⟨hik, hk, by omega⟩, ?_⟩
  have hlen := length_between b hik hk
  exact text_patch_end b (between b i k) _ (by omega)

/-- Moving the rest of the text up makes room for one more. -/
theorem copyWithin_up_store {b : Vector C n} {i k : Nat} (hik : i ≤ k) (hk : k < n) (x : C) :
    ∃ b' b'', copyWithin b i k (i + 1) = some b' ∧ store b' i x = some b'' ∧
      text b'' (k + 1) = text b i ++ x :: between b i k := by
  have hlen := length_between b hik (Nat.le_of_lt hk)
  have hcond : i ≤ k ∧ k ≤ n ∧ i + 1 + (k - i) ≤ n := by omega
  have hmoved := text_patch_end (i := i + 1) (k := k + 1) b (between b i k) (by omega) (by omega)
  refine ⟨_, _, dif_pos hcond, dif_pos (by omega), ?_⟩
  generalize patch b (i + 1) (between b i k) _ = b' at *
  have hbefore : text b' i = text b i := by
    rw [← take_text (show i ≤ k + 1 by omega), hmoved, List.take_append_of_le_length,
      take_text (by omega)]
    rw [length_text (by omega)]
    omega
  have hafter : between b' (i + 1) (k + 1) = between b i k := by
    rw [← drop_text, hmoved]
    have h : (text b (i + 1)).length = i + 1 := length_text (by omega)
    rw [List.drop_append, h, Nat.sub_self, List.drop_eq_nil_of_le (by omega)]
    rfl
  show (b'.toList.take i ++ ([x] ++ b'.toList.drop (i + [x].length))).take (k + 1) = _
  have htake : (b'.toList.take i).length = i := by
    rw [List.length_take, Vector.length_toList]
    omega
  rw [List.take_append, htake, List.take_of_length_le (by omega)]
  rw [show k + 1 - i = (k - i) + 1 by omega, List.singleton_append, List.take_succ_cons]
  rw [between, show k + 1 - (i + 1) = k - i by omega] at hafter
  rw [List.length_singleton, hafter]
  exact congrArg (· ++ x :: between b i k) hbefore

end FixedBuffer

end Amaterasu
