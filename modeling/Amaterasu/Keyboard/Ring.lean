/-
The input ring of `kernel/src/keyboard.rs`, and the main loop that drains it.

Interrupt handlers push bytes at `RB_HEAD`; `drain` in the main loop takes them off
at `RB_TAIL` and hands each to the shell.  A push runs with interrupts off, so it
is one step here; `drain` can be interrupted between any two of its own, so it is a
program counter and a step for each load and store, in the source's order: the slot
is read before the new tail is stored, and the shell is called after.

One slot is always left empty.  That is what tells a full ring from an empty one,
and what makes the refusal test agree with the number of bytes still to be taken.
-/
import Amaterasu.Lib.Run
import Amaterasu.Lib.RingIndex
import Mathlib.Data.List.Infix

namespace Amaterasu

/-- `RB_CAP`. -/
def rbCap : Nat := 64

/-- `RB_MASK`. -/
def rbMask : Nat := rbCap - 1

/-- `RB`, `RB_HEAD` and `RB_TAIL`. -/
structure InputRing where
  buf : Nat → UInt8
  head : Nat
  tail : Nat

namespace InputRing

/-- All three statics as the kernel starts with them. -/
def empty : InputRing := { buf := fun _ => 0, head := 0, tail := 0 }

/-- The test of `rb_push`: the next head would be the tail. -/
def full (r : InputRing) : Bool := ((r.head + 1) &&& rbMask) == r.tail

def rbPush (r : InputRing) (b : UInt8) : InputRing :=
  if r.full then r
  else { r with buf := Function.update r.buf r.head b, head := (r.head + 1) &&& rbMask }

/-- Number of bytes between tail and head. -/
def used (r : InputRing) : Nat := (r.head + rbCap - r.tail) % rbCap

/-- The bytes between tail and head, oldest first. -/
def contents (r : InputRing) : List UInt8 := ringSlots r.buf rbCap r.tail r.used

/-- Both indices are slots. -/
structure InRange (r : InputRing) : Prop where
  head : r.head < rbCap
  tail : r.tail < rbCap

variable {r : InputRing}

theorem and_rbMask (x : Nat) : x &&& rbMask = x % rbCap := Nat.and_two_pow_sub_one_eq_mod x 6

theorem head_eq (h : r.InRange) : r.head = (r.tail + r.used) % rbCap := by
  obtain ⟨hh, ht⟩ := h
  unfold used rbCap at *
  omega

@[simp] theorem length_contents : r.contents.length = r.used := ringSlots_length

theorem used_lt : r.used < rbCap := Nat.mod_lt _ (by decide)

/-- The ring refuses exactly when all its slots but one are taken. -/
theorem full_iff (h : r.InRange) : r.full = true ↔ r.used = rbCap - 1 := by
  obtain ⟨hh, ht⟩ := h
  unfold full used
  rw [and_rbMask, beq_iff_eq]
  unfold rbCap at *
  omega

theorem rbPush_full {b : UInt8} (hfull : r.full = true) : r.rbPush b = r := if_pos hfull

theorem rbPush_inRange (h : r.InRange) (b : UInt8) : (r.rbPush b).InRange := by
  unfold rbPush
  split
  · exact h
  · refine ⟨?_, h.tail⟩
    show (r.head + 1) &&& rbMask < rbCap
    rw [and_rbMask]
    exact Nat.mod_lt _ (by decide)

/-- An accepted byte joins the queue at its end. -/
theorem contents_rbPush (h : r.InRange) {b : UInt8} (hfull : r.full = false) :
    (r.rbPush b).contents = r.contents ++ [b] := by
  have hne : r.used ≠ rbCap - 1 := fun hc => by
    rw [(full_iff h).mpr hc] at hfull
    exact absurd hfull (by simp)
  have hlt := r.used_lt
  have hpush : r.rbPush b
      = { r with buf := Function.update r.buf r.head b, head := (r.head + 1) % rbCap } := by
    unfold rbPush
    rw [if_neg (by simp [hfull]), and_rbMask]
  have hused : (r.rbPush b).used = r.used + 1 := by
    rw [hpush]
    obtain ⟨hh, ht⟩ := h
    unfold used rbCap at *
    simp only
    omega
  unfold contents
  rw [hused, hpush]
  simp only
  rw [head_eq h]
  exact ringSlots_update hlt b

/-- Storing the new tail takes the oldest byte off the queue. -/
theorem contents_advance (h : r.InRange) (hne : r.tail ≠ r.head) :
    r.contents = r.buf r.tail :: { r with tail := (r.tail + 1) &&& rbMask }.contents := by
  obtain ⟨hh, ht⟩ := h
  have hused : r.used = { r with tail := (r.tail + 1) &&& rbMask }.used + 1 := by
    unfold used
    simp only [and_rbMask]
    unfold rbCap at *
    omega
  unfold contents
  rw [hused, ringSlots_succ_left, Nat.mod_eq_of_lt ht]
  simp only [and_rbMask, ringSlots_mod]

theorem contents_eq_nil (h : r.InRange) : r.contents = [] ↔ r.tail = r.head := by
  rw [← List.length_eq_zero_iff, length_contents]
  obtain ⟨hh, ht⟩ := h
  unfold used rbCap at *
  omega

end InputRing

/-! ### The main loop under interrupts -/

/-- Where the main loop stands in `drain`. -/
inductive DrainPc where
  /-- In `hlt`, or on the way into `drain`. -/
  | halted
  /-- About to load `RB_TAIL`. -/
  | load
  /-- About to compare the loaded tail with `RB_HEAD`. -/
  | compare (tail : Nat)
  /-- About to read the slot. -/
  | read (tail : Nat)
  /-- About to store the new tail. -/
  | store (tail : Nat) (b : UInt8)
  /-- About to call `push_char`. -/
  | call (b : UInt8)

namespace DrainPc

/-- The byte taken off the ring that the shell has not been given yet. -/
def inFlight : DrainPc → List UInt8
  | call b => [b]
  | _ => []

end DrainPc

/-- The ring, the main loop, and the history of both ends. -/
structure Console where
  ring : InputRing
  pc : DrainPc
  /-- Bytes `rb_push` has stored, in order. -/
  accepted : List UInt8
  /-- Bytes given to `push_char`, in order. -/
  handed : List UInt8

inductive ConsoleStep where
  /-- One whole `rb_push` in an interrupt handler. -/
  | push (b : UInt8)
  /-- One step of the main loop. -/
  | main

namespace Console

def boot : Console := { ring := InputRing.empty, pc := .load, accepted := [], handed := [] }

def push (c : Console) (b : UInt8) : Console :=
  { c with
    ring := c.ring.rbPush b
    accepted := if c.ring.full then c.accepted else c.accepted ++ [b] }

/-- One step of `drain`; a `break` leaves it for `hlt`, and a wakeup re-enters it. -/
def main (c : Console) : Console :=
  match c.pc with
  | .halted => { c with pc := .load }
  | .load => { c with pc := .compare c.ring.tail }
  | .compare tail => { c with pc := if tail = c.ring.head then .halted else .read tail }
  | .read tail => { c with pc := .store tail (c.ring.buf tail) }
  | .store tail b =>
      { c with ring := { c.ring with tail := (tail + 1) &&& rbMask }, pc := .call b }
  | .call b => { c with handed := c.handed ++ [b], pc := .load }

def step (c : Console) : ConsoleStep → Console
  | .push b => c.push b
  | .main => c.main

/-- What the main loop knows at each of its steps: the tail it loaded is still the
tail, and past the comparison there is a byte there, the one it has read. -/
def Knows (r : InputRing) : DrainPc → Prop
  | .halted | .load | .call _ => True
  | .compare tail => tail = r.tail
  | .read tail => tail = r.tail ∧ r.tail ≠ r.head
  | .store tail b => tail = r.tail ∧ r.tail ≠ r.head ∧ b = r.buf r.tail

/-- The ring holds exactly what was accepted and not yet taken. -/
structure Inv (c : Console) : Prop where
  range : c.ring.InRange
  knows : Knows c.ring c.pc
  fifo : c.accepted = c.handed ++ c.pc.inFlight ++ c.ring.contents

variable {c : Console}

theorem boot_inv : boot.Inv := ⟨⟨by decide, by decide⟩, trivial, rfl⟩

/-- A push leaves the tail and the byte there alone, so what the loop knows stays. -/
theorem knows_rbPush (h : c.ring.InRange) {pc : DrainPc} (hk : Knows c.ring pc) (b : UInt8) :
    Knows (c.ring.rbPush b) pc := by
  by_cases hfull : c.ring.full = true
  · rw [InputRing.rbPush_full hfull]
    exact hk
  · have hfull' : c.ring.full = false := by simpa using hfull
    have htail : (c.ring.rbPush b).tail = c.ring.tail := by
      unfold InputRing.rbPush
      rw [if_neg hfull]
    have hbuf : c.ring.tail ≠ c.ring.head → (c.ring.rbPush b).buf c.ring.tail
        = c.ring.buf c.ring.tail := by
      intro hne
      unfold InputRing.rbPush
      rw [if_neg hfull]
      exact Function.update_of_ne hne _ _
    have hne : (c.ring.rbPush b).tail ≠ (c.ring.rbPush b).head := by
      intro hc
      have := (InputRing.contents_eq_nil (InputRing.rbPush_inRange h b)).mpr hc
      rw [InputRing.contents_rbPush h hfull'] at this
      simp at this
    cases pc with
    | halted => trivial
    | load => trivial
    | call b' => trivial
    | compare tail => exact hk.trans htail.symm
    | read tail => exact ⟨hk.1.trans htail.symm, hne⟩
    | store tail b' =>
        refine ⟨hk.1.trans htail.symm, hne, ?_⟩
        rw [htail, hbuf hk.2.1]
        exact hk.2.2

theorem Inv.push (h : c.Inv) (b : UInt8) : (c.push b).Inv := by
  obtain ⟨hr, hk, hf⟩ := h
  refine ⟨InputRing.rbPush_inRange hr b, knows_rbPush hr hk b, ?_⟩
  show (if c.ring.full then c.accepted else c.accepted ++ [b])
    = c.handed ++ c.pc.inFlight ++ (c.ring.rbPush b).contents
  by_cases hfull : c.ring.full = true
  · rw [if_pos hfull, InputRing.rbPush_full hfull, hf]
  · rw [if_neg hfull, InputRing.contents_rbPush hr (by simpa using hfull), hf]
    simp only [List.append_assoc]

/-- One step of the main loop keeps the invariant; only storing the tail and calling
the shell move a byte. -/
theorem Inv.main (h : c.Inv) : c.main.Inv := by
  obtain ⟨hr, hk, hf⟩ := h
  unfold Console.main
  cases hpc : c.pc with
  | halted =>
      rw [hpc] at hf
      exact ⟨hr, trivial, hf⟩
  | load =>
      rw [hpc] at hf
      exact ⟨hr, rfl, hf⟩
  | compare tail =>
      rw [hpc] at hf hk
      have hk' : tail = c.ring.tail := hk
      by_cases he : tail = c.ring.head
      · simp only [if_pos he]
        exact ⟨hr, trivial, hf⟩
      · simp only [if_neg he]
        exact ⟨hr, ⟨hk', fun hc => he (hk'.trans hc)⟩, hf⟩
  | read tail =>
      rw [hpc] at hf hk
      obtain ⟨htail, hne⟩ := hk
      exact ⟨hr, ⟨htail, hne, by rw [htail]⟩, hf⟩
  | store tail b =>
      rw [hpc] at hf hk
      obtain ⟨rfl, hne, rfl⟩ := hk
      refine ⟨⟨hr.head, ?_⟩, trivial, ?_⟩
      · show (c.ring.tail + 1) &&& rbMask < rbCap
        rw [InputRing.and_rbMask]
        exact Nat.mod_lt _ (by decide)
      · rw [hf, InputRing.contents_advance hr hne]
        simp [DrainPc.inFlight]
  | call b =>
      rw [hpc] at hf
      refine ⟨hr, trivial, ?_⟩
      rw [hf]
      simp [DrainPc.inFlight]

theorem Inv.step (h : c.Inv) (a : ConsoleStep) : (c.step a).Inv := by
  cases a with
  | push b => exact h.push b
  | main => exact h.main

theorem run_inv {trace : List (Console × ConsoleStep)}
    (hrun : Run (Next step) boot trace c) : c.Inv :=
  hrun.always_next boot_inv fun _ a hi => hi.step a

/-! ### Left alone, the main loop hands everything over -/

/-- The main loop runs `k` steps without an interrupt. -/
def mains : Nat → Console → Console
  | 0, c => c
  | k + 1, c => mains k c.main

theorem mains_add (j k : Nat) (c : Console) : mains (j + k) c = mains k (mains j c) := by
  induction j generalizing c with
  | zero => rw [Nat.zero_add]; rfl
  | succ j ih => rw [Nat.succ_add]; exact ih c.main

@[simp] theorem main_accepted (c : Console) : c.main.accepted = c.accepted := by
  unfold Console.main
  cases c.pc <;> rfl

@[simp] theorem mains_accepted (k : Nat) (c : Console) : (mains k c).accepted = c.accepted := by
  induction k generalizing c with
  | zero => rfl
  | succ k ih => exact (ih c.main).trans (main_accepted c)

theorem Inv.mains (h : c.Inv) (k : Nat) : (mains k c).Inv := by
  induction k generalizing c with
  | zero => exact h
  | succ k ih => exact ih h.main

/-- From the top of the loop, what is on the ring is handed over and the loop halts. -/
theorem Inv.drains (h : c.Inv) :
    ∀ n, c.pc = .load → c.ring.contents.length = n →
      ∃ k, (Console.mains k c).pc = .halted ∧ (Console.mains k c).ring.contents = [] := by
  intro n
  induction n generalizing c with
  | zero =>
      intro hpc hlen
      have hnil := List.length_eq_zero_iff.mp hlen
      have heq := (InputRing.contents_eq_nil h.range).mp hnil
      refine ⟨2, ?_, ?_⟩ <;> simp [Console.mains, Console.main, hpc, heq, hnil]
  | succ n ih =>
      intro hpc hlen
      have hne : c.ring.tail ≠ c.ring.head := fun hc => by
        rw [(InputRing.contents_eq_nil h.range).mpr hc] at hlen
        simp at hlen
      have hafter : Console.mains 5 c
          = { c with
              ring := { c.ring with tail := (c.ring.tail + 1) &&& rbMask }
              handed := c.handed ++ [c.ring.buf c.ring.tail], pc := .load } := by
        simp [Console.mains, Console.main, hpc, hne]
      have hlen' : (Console.mains 5 c).ring.contents.length = n := by
        rw [InputRing.contents_advance h.range hne, List.length_cons] at hlen
        rw [hafter]
        exact Nat.succ.inj hlen
      obtain ⟨k, hk, hnil⟩ := ih (h.mains 5) (by rw [hafter]) hlen'
      exact ⟨5 + k, by rw [mains_add]; exact hk, by rw [mains_add]; exact hnil⟩

/-- Wherever the loop stands, a few steps bring it back to its top. -/
theorem exists_load (c : Console) : ∃ k, (mains k c).pc = .load := by
  cases hpc : c.pc with
  | halted => exact ⟨1, by simp [mains, main, hpc]⟩
  | load => exact ⟨0, hpc⟩
  | compare tail =>
      by_cases he : tail = c.ring.head
      · exact ⟨2, by simp [mains, main, hpc, he]⟩
      · exact ⟨4, by simp [mains, main, hpc, he]⟩
  | read tail => exact ⟨3, by simp [mains, main, hpc]⟩
  | store tail b => exact ⟨2, by simp [mains, main, hpc]⟩
  | call b => exact ⟨1, by simp [mains, main, hpc]⟩

theorem Inv.eventually_handed (h : c.Inv) : ∃ k, (Console.mains k c).handed = c.accepted := by
  obtain ⟨j, hj⟩ := exists_load c
  obtain ⟨k, hk, hnil⟩ := (h.mains j).drains _ hj rfl
  refine ⟨j + k, ?_⟩
  have hf := (h.mains (j + k)).fifo
  rw [mains_accepted, mains_add, hk, hnil] at hf
  rw [mains_add, hf]
  simp [DrainPc.inFlight]

/--
**The input ring is a bounded queue.**  Whatever pushes are interleaved with the
steps of the main loop: the accepted bytes are, in order, those given to the shell,
then the one on its way there, then those on the ring; the slot about to be read
holds the next of them; a push is refused exactly when 63 accepted bytes are still
on the ring, and then changes nothing; and left alone the loop hands over the rest.
-/
theorem ring_refines_fifo {trace : List (Console × ConsoleStep)}
    (hrun : Run (Next step) boot trace c) :
    c.accepted = c.handed ++ c.pc.inFlight ++ c.ring.contents ∧
    (∀ tail, c.pc = .read tail → c.accepted[c.handed.length]? = some (c.ring.buf tail)) ∧
    (c.ring.full = true ↔
      c.accepted.length - (c.handed.length + c.pc.inFlight.length) = 63) ∧
    (∀ b, c.ring.full = true → c.push b = c) ∧
    (∀ b, c.ring.full = false → (c.push b).accepted = c.accepted ++ [b]) ∧
    ∃ k, (mains k c).handed = c.accepted := by
  have h := run_inv hrun
  refine ⟨h.fifo, ?_, ?_, ?_, ?_, h.eventually_handed⟩
  · intro tail hpc
    have hk := h.knows
    rw [hpc] at hk
    obtain ⟨rfl, hne⟩ := hk
    rw [h.fifo, hpc, InputRing.contents_advance h.range hne]
    simp [DrainPc.inFlight]
  · rw [InputRing.full_iff h.range, h.fifo]
    simp only [List.length_append, InputRing.length_contents]
    unfold rbCap
    omega
  · intro b hfull
    unfold Console.push
    rw [InputRing.rbPush_full hfull, if_pos hfull]
  · intro b hfull
    exact if_neg (by simp [hfull])

/-- Keys that come while the loop takes the first off the ring, until the ring is full. -/
def rush : List ConsoleStep :=
  [.push 97, .main, .push 98, .main, .main] ++ List.replicate 61 (.push 99)

/-- One key more, which is refused; then the loop goes on, and there is room for another. -/
def rushOn : List ConsoleStep := rush ++ [.push 100, .main, .push 101, .main]

/-- All the keys of the rush but the one refused come to the shell. -/
theorem ring_refines_fifo_one_key :
    (rush.foldl step boot).ring.full = true ∧
      (rush.foldl step boot).push 100 = rush.foldl step boot ∧
      ∃ k, (mains k (rushOn.foldl step boot)).handed
        = 97 :: 98 :: (List.replicate 61 99 ++ [101]) := by
  have hfull : (rush.foldl step boot).ring.full = true := by decide +kernel
  obtain ⟨-, -, -, hrefused, -, -⟩ := ring_refines_fifo (Run.ofActions step boot rush)
  obtain ⟨-, -, -, -, -, k, hk⟩ := ring_refines_fifo (Run.ofActions step boot rushOn)
  have haccepted : (rushOn.foldl step boot).accepted
      = 97 :: 98 :: (List.replicate 61 99 ++ [101]) := by decide +kernel
  exact ⟨hfull, hrefused 100 hfull, k, hk.trans haccepted⟩

end Console

end Amaterasu
