/-
Byte-addressed memory, little-endian words, and lists threaded through it.

A memory is a total function from addresses to bytes.  A machine word occupies
eight bytes, least significant first, so a word read after client writes is
whatever the client left in those eight bytes — the reason a free list that keeps
its links inside the managed blocks needs a frame argument at all.

`Threaded m head l` says that `l` is the singly linked list starting at `head`
whose links are the first words of its nodes, with address 0 as the end.  The
frame rule `Threaded.frame` is the one fact the allocator proofs use about writes:
a write that misses the first word of every node leaves the list alone.
-/
import Mathlib.Data.List.Basic
import Mathlib.Data.List.Nodup
import Mathlib.Tactic.IntervalCases

namespace Amaterasu

/-- A byte memory. -/
abbrev Mem := Nat → UInt8

namespace Mem

/-- The little-endian word of the eight bytes from `a`. -/
def readWord (m : Mem) (a : Nat) : Nat :=
  (m a).toNat + 256 * ((m (a + 1)).toNat + 256 * ((m (a + 2)).toNat + 256 * ((m (a + 3)).toNat
    + 256 * ((m (a + 4)).toNat + 256 * ((m (a + 5)).toNat + 256 * ((m (a + 6)).toNat
    + 256 * (m (a + 7)).toNat))))))

/-- Store the eight bytes of `w` from `a` on. -/
def writeWord (m : Mem) (a w : Nat) : Mem := fun x =>
  if a ≤ x ∧ x < a + 8 then UInt8.ofNat (w / 256 ^ (x - a)) else m x

/-- Store zeroes in `n` bytes. -/
def clear (m : Mem) (a n : Nat) : Mem := fun x => if a ≤ x ∧ x < a + n then 0 else m x

/-- Store one byte. -/
def writeByte (m : Mem) (a : Nat) (b : UInt8) : Mem := fun x => if x = a then b else m x

/-- A word read depends on its eight bytes only. -/
theorem readWord_congr {m m' : Mem} {a : Nat} (h : ∀ x, a ≤ x → x < a + 8 → m' x = m x) :
    m'.readWord a = m.readWord a := by
  unfold readWord
  rw [h a (by omega) (by omega), h (a + 1) (by omega) (by omega), h (a + 2) (by omega) (by omega),
    h (a + 3) (by omega) (by omega), h (a + 4) (by omega) (by omega),
    h (a + 5) (by omega) (by omega), h (a + 6) (by omega) (by omega),
    h (a + 7) (by omega) (by omega)]

theorem readWord_writeWord_self (m : Mem) (a : Nat) {w : Nat} (hw : w < 2 ^ 64) :
    (m.writeWord a w).readWord a = w := by
  have hbyte : ∀ i, i < 8 → (m.writeWord a w (a + i)).toNat = w / 256 ^ i % 256 := by
    intro i hi
    unfold writeWord
    rw [if_pos (by omega)]
    simp
  have h0 := hbyte 0 (by omega)
  have h1 := hbyte 1 (by omega)
  have h2 := hbyte 2 (by omega)
  have h3 := hbyte 3 (by omega)
  have h4 := hbyte 4 (by omega)
  have h5 := hbyte 5 (by omega)
  have h6 := hbyte 6 (by omega)
  have h7 := hbyte 7 (by omega)
  simp only [Nat.add_zero] at h0
  unfold readWord
  rw [h0, h1, h2, h3, h4, h5, h6, h7]
  omega

theorem readWord_writeWord_ne (m : Mem) {a b w : Nat} (h : b + 8 ≤ a ∨ a + 8 ≤ b) :
    (m.writeWord a w).readWord b = m.readWord b := by
  refine readWord_congr fun x hlo hhi => ?_
  unfold writeWord
  rw [if_neg (by omega)]

/-- A word is stored byte by byte. -/
theorem writeWord_eq (m : Mem) (a w : Nat) : m.writeWord a w
    = (List.range 8).foldl (fun m i => m.writeByte (a + i) (UInt8.ofNat (w / 256 ^ i))) m := by
  have hbytes : ∀ n x, (List.range n).foldl
      (fun m i => Mem.writeByte m (a + i) (UInt8.ofNat (w / 256 ^ i))) m x
        = if a ≤ x ∧ x < a + n then UInt8.ofNat (w / 256 ^ (x - a)) else m x := by
    intro n
    induction n with
    | zero => exact fun x => (if_neg (by omega)).symm
    | succ n ih =>
        intro x
        rw [List.range_succ, List.foldl_append, List.foldl_cons, List.foldl_nil]
        show (if x = a + n then _ else _) = _
        by_cases hx : x = a + n
        · rw [if_pos hx, if_pos (by omega), hx, Nat.add_sub_cancel_left]
        · rw [if_neg hx, ih x]
          exact if_congr (by omega) rfl rfl
  funext x
  exact (hbytes 8 x).symm

end Mem

/-- `l` is the list linked from `head` through the first words of its nodes. -/
def Threaded (m : Mem) : Nat → List Nat → Prop
  | head, [] => head = 0
  | head, a :: rest => head = a ∧ a ≠ 0 ∧ Threaded m (m.readWord a) rest

namespace Threaded

variable {m m' : Mem} {head : Nat} {l : List Nat}

/-- Only the first word of each node matters. -/
theorem frame (h : Threaded m head l) (hl : ∀ a ∈ l, m'.readWord a = m.readWord a) :
    Threaded m' head l := by
  induction l generalizing head with
  | nil => exact h
  | cons a rest ih =>
      obtain ⟨rfl, hne, hrest⟩ := h
      refine ⟨rfl, hne, ?_⟩
      rw [hl head (by simp)]
      exact ih hrest fun b hb => hl b (List.mem_cons_of_mem _ hb)

/-- A head is the end of exactly one list. -/
theorem unique {l' : List Nat} (h : Threaded m head l) (h' : Threaded m head l') : l = l' := by
  induction l generalizing head l' with
  | nil =>
      cases l' with
      | nil => rfl
      | cons b rest =>
          obtain ⟨rfl, hne, -⟩ := h'
          exact absurd h hne
  | cons a rest ih =>
      obtain ⟨rfl, hne, hrest⟩ := h
      cases l' with
      | nil => exact absurd h' hne
      | cons b rest' =>
          obtain ⟨rfl, -, hrest'⟩ := h'
          rw [ih hrest hrest']

theorem head_eq_zero (h : Threaded m head l) : head = 0 ↔ l = [] := by
  cases l with
  | nil => exact ⟨fun _ => rfl, fun _ => h⟩
  | cons a rest =>
      obtain ⟨rfl, hne, -⟩ := h
      simp [hne]

end Threaded

end Amaterasu
