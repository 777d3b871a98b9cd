/-
Edit distance.

`EditPath n a b` says that `n` edits of one element each turn `a` into `b`.  `editDist` is the
usual recursion on the first elements, with the shortcut that elements that agree are
passed over for nothing, and `editDist_isLeast` is that no sequence of edits is shorter.

What makes the shortcut right is that an element more or less at the front of either list
is worth at most one (`editDist_cons_le`, `le_editDist_cons`).  The two bounds need each
other with the lists exchanged, so they are proved together, by induction on the lengths.
-/
import Mathlib.Order.Bounds.Basic

namespace Amaterasu

variable {α : Type*}

/-- One element inserted, deleted or substituted. -/
inductive Edit : List α → List α → Prop
  | insert (front back : List α) (c : α) : Edit (front ++ back) (front ++ c :: back)
  | delete (front back : List α) (c : α) : Edit (front ++ c :: back) (front ++ back)
  | substitute (front back : List α) (c d : α) : Edit (front ++ c :: back) (front ++ d :: back)

inductive EditPath : Nat → List α → List α → Prop
  | refl (a : List α) : EditPath 0 a a
  | step {n : Nat} {a b c : List α} (h : Edit a b) (hrest : EditPath n b c) : EditPath (n + 1) a c

namespace Edit

variable {a b : List α}

theorem symm (h : Edit a b) : Edit b a := by
  cases h with
  | insert front back c => exact delete front back c
  | delete front back c => exact insert front back c
  | substitute front back c d => exact substitute front back d c

theorem cons (x : α) (h : Edit a b) : Edit (x :: a) (x :: b) := by
  cases h with
  | insert front back c => exact insert (x :: front) back c
  | delete front back c => exact delete (x :: front) back c
  | substitute front back c d => exact substitute (x :: front) back c d

theorem reverse (h : Edit a b) : Edit a.reverse b.reverse := by
  cases h with
  | insert front back c => simpa using insert back.reverse front.reverse c
  | delete front back c => simpa using delete back.reverse front.reverse c
  | substitute front back c d => simpa using substitute back.reverse front.reverse c d

end Edit

namespace EditPath

variable {n m : Nat} {a b c : List α}

theorem trans (h : EditPath n a b) (h' : EditPath m b c) : EditPath (n + m) a c := by
  induction h with
  | refl a => rwa [Nat.zero_add]
  | @step n a b c hedit hrest ih =>
      rw [Nat.add_right_comm]
      exact .step hedit (ih h')

theorem symm (h : EditPath n a b) : EditPath n b a := by
  induction h with
  | refl a => exact .refl a
  | step hedit hrest ih => exact ih.trans (.step hedit.symm (.refl _))

theorem cons (x : α) (h : EditPath n a b) : EditPath n (x :: a) (x :: b) := by
  induction h with
  | refl a => exact .refl _
  | step hedit hrest ih => exact .step (hedit.cons x) ih

theorem reverse (h : EditPath n a b) : EditPath n a.reverse b.reverse := by
  induction h with
  | refl a => exact .refl _
  | step hedit hrest ih => exact .step hedit.reverse ih

theorem reverse_iff : EditPath n a.reverse b.reverse ↔ EditPath n a b := by
  refine ⟨fun h => ?_, reverse⟩
  simpa using h.reverse

theorem insert_all (b : List α) : EditPath b.length [] b := by
  induction b with
  | nil => exact .refl []
  | cons y ys ih => exact .step (.insert [] [] y) (ih.cons y)

end EditPath

/-! ### The recursion -/

variable [DecidableEq α]

def editDist : List α → List α → Nat
  | [], b => b.length
  | a, [] => a.length
  | x :: a, y :: b =>
      if x = y then editDist a b
      else 1 + min (min (editDist a b) (editDist a (y :: b))) (editDist (x :: a) b)
  termination_by a b => a.length + b.length

theorem editDist_nil_left (b : List α) : editDist [] b = b.length := by rw [editDist]

theorem editDist_nil_right (a : List α) : editDist a [] = a.length := by
  cases a with
  | nil => rw [editDist]
  | cons x a =>
      rw [editDist]
      exact List.cons_ne_nil x a

theorem editDist_cons (x y : α) (a b : List α) : editDist (x :: a) (y :: b)
    = if x = y then editDist a b
      else 1 + min (min (editDist a b) (editDist a (y :: b))) (editDist (x :: a) b) := by
  rw [editDist]

theorem editDist_comm (a b : List α) : editDist a b = editDist b a := by
  induction a, b using editDist.induct with
  | case1 b => rw [editDist_nil_left, editDist_nil_right]
  | case2 a ha => rw [editDist_nil_left, editDist_nil_right]
  | case3 a x b ih => rw [editDist_cons, editDist_cons, if_pos rfl, if_pos rfl, ih]
  | case4 x a y b hne ih₁ ih₂ ih₃ =>
      rw [editDist_cons, editDist_cons, if_neg hne, if_neg (Ne.symm hne), ih₁, ih₂, ih₃,
        Nat.min_right_comm]

/-- One element more or less is worth at most one edit. -/
theorem editDist_cons_bounds (n : Nat) : ∀ (x : α) (a b : List α), a.length + b.length ≤ n →
    editDist a b ≤ 1 + editDist (x :: a) b ∧ editDist (x :: a) b ≤ 1 + editDist a b := by
  induction n with
  | zero =>
      intro x a b hn
      obtain rfl := List.length_eq_zero_iff.mp (show b.length = 0 by omega)
      simp only [editDist_nil_right, List.length_cons]
      omega
  | succ n ih =>
      intro x a b hn
      rcases b with - | ⟨y, b⟩
      · simp only [editDist_nil_right, List.length_cons]
        omega
      rw [List.length_cons] at hn
      obtain ⟨hless, hmore⟩ := ih y b a (by omega)
      rw [editDist_comm b a, editDist_comm (y :: b) a] at hless hmore
      obtain ⟨hfront, -⟩ := ih x a b (by omega)
      rw [editDist_cons]
      split
      · omega
      · omega

theorem le_editDist_cons (x : α) (a b : List α) : editDist a b ≤ 1 + editDist (x :: a) b :=
  (editDist_cons_bounds _ x a b (Nat.le_refl _)).1

theorem editDist_cons_le (x : α) (a b : List α) : editDist (x :: a) b ≤ 1 + editDist a b :=
  (editDist_cons_bounds _ x a b (Nat.le_refl _)).2

/-- What is true of two lists with any target is true with an element in front of both. -/
theorem editDist_front {a a' : List α} (h : ∀ b, editDist a b ≤ 1 + editDist a' b) (x : α)
    (b : List α) : editDist (x :: a) b ≤ 1 + editDist (x :: a') b := by
  induction b with
  | nil =>
      have hnil := h []
      simp only [editDist_nil_right, List.length_cons] at hnil ⊢
      omega
  | cons y b ih =>
      have hrest := h b
      have hwhole := h (y :: b)
      rw [editDist_cons, editDist_cons]
      split
      · exact hrest
      · omega

theorem editDist_substitute (c d : α) (a b : List α) :
    editDist (c :: a) b ≤ 1 + editDist (d :: a) b := by
  induction b with
  | nil => simp only [editDist_nil_right, List.length_cons, Nat.le_add_left]
  | cons y b ih =>
      have hless := le_editDist_cons y b a
      rw [editDist_comm b a, editDist_comm (y :: b) a] at hless
      have hfront := le_editDist_cons d a b
      rw [editDist_cons, editDist_cons]
      split
      · split
        · omega
        · omega
      · split
        · omega
        · omega

/-- An edit brings a list nearer to another by at most one. -/
theorem Edit.editDist_le {a a' : List α} (h : Edit a a') (b : List α) :
    editDist a b ≤ 1 + editDist a' b := by
  have hfront : ∀ (front : List α) {u u' : List α}, (∀ b, editDist u b ≤ 1 + editDist u' b) →
      ∀ b, editDist (front ++ u) b ≤ 1 + editDist (front ++ u') b := by
    intro front u u' hu
    induction front with
    | nil => exact hu
    | cons x front ih => exact editDist_front ih x
  cases h with
  | insert front back c => exact hfront front (le_editDist_cons c back) b
  | delete front back c => exact hfront front (editDist_cons_le c back) b
  | substitute front back c d => exact hfront front (editDist_substitute c d back) b

theorem EditPath.editDist_le {n : Nat} {a b : List α} (h : EditPath n a b) : editDist a b ≤ n := by
  induction h with
  | refl a =>
      induction a with
      | nil => exact Nat.le_of_eq (editDist_nil_left [])
      | cons x a ih => rwa [editDist_cons, if_pos rfl]
  | @step n a b c hedit hrest ih =>
      have hone := hedit.editDist_le c
      omega

/-- The distance is the length of a sequence of edits. -/
theorem editPath_editDist (a b : List α) : EditPath (editDist a b) a b := by
  induction a, b using editDist.induct with
  | case1 b =>
      rw [editDist_nil_left]
      exact .insert_all b
  | case2 a ha =>
      rw [editDist_nil_right]
      exact (EditPath.insert_all a).symm
  | case3 a x b ih =>
      rw [editDist_cons, if_pos rfl]
      exact ih.cons x
  | case4 x a y b hne ih₁ ih₂ ih₃ =>
      rw [editDist_cons, if_neg hne, Nat.add_comm]
      -- The way that is shortest: substitute, delete, or insert.
      rcases Nat.le_total (min (editDist a b) (editDist a (y :: b))) (editDist (x :: a) b) with
        hle | hle
      · rw [Nat.min_eq_left hle]
        rcases Nat.le_total (editDist a b) (editDist a (y :: b)) with hle | hle
        · rw [Nat.min_eq_left hle]
          exact .step (.substitute [] a x y) (ih₁.cons y)
        · rw [Nat.min_eq_right hle]
          exact .step (.delete [] a x) ih₂
      · rw [Nat.min_eq_right hle]
        exact .step (.insert [] (x :: a) y) (ih₃.cons y)

/-- **No sequence of edits is shorter.** -/
theorem editDist_isLeast (a b : List α) : IsLeast {n | EditPath n a b} (editDist a b) :=
  ⟨editPath_editDist a b, fun _ h => EditPath.editDist_le h⟩

theorem editDist_reverse (a b : List α) : editDist a.reverse b.reverse = editDist a b := by
  have hleast := editDist_isLeast a.reverse b.reverse
  simp only [EditPath.reverse_iff] at hleast
  exact hleast.unique (editDist_isLeast a b)

theorem editDist_eq_zero (a b : List α) : editDist a b = 0 ↔ a = b := by
  constructor
  · intro h
    have hedits := editPath_editDist a b
    rw [h] at hedits
    cases hedits
    rfl
  · rintro rfl
    exact Nat.le_zero.mp (EditPath.refl a).editDist_le

theorem editDist_triangle (a b c : List α) : editDist a c ≤ editDist a b + editDist b c :=
  ((editPath_editDist a b).trans (editPath_editDist b c)).editDist_le

end Amaterasu
