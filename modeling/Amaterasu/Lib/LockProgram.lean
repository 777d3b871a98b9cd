/-
What a program does with locks.

A `LockProgram` keeps of a program only its locks: they are taken for the length of a
block, so their structure is the program's, and what decides a branch or ends a loop is
left open.  Atomic actions mark the points something else depends on.  Run as a stack of
tasks, it is stepped by a function that is told which way to go.

An interrupt handler on the same processor runs to its end before the program moves
again.  It is straight-line code here, and it is blocked for good when the next thing it
does is take a lock the program holds.
-/
import Mathlib.Data.List.Basic
import Mathlib.Tactic.Basic

namespace Amaterasu

inductive LockProgram (L A : Type*) where
  | skip
  | act (a : A)
  /-- The block `p`, with `l` held. -/
  | withLock (l : L) (p : LockProgram L A)
  | seq (p q : LockProgram L A)
  | choice (p q : LockProgram L A)
  /-- `p`, any number of times. -/
  | loop (p : LockProgram L A)

/-- What is left to do, innermost first. -/
inductive LockTask (L A : Type*) where
  | run (p : LockProgram L A)
  /-- The end of a block. -/
  | release (l : L)

namespace LockProgram

variable {L A : Type*}

/-- One program after the other. -/
def seqs : List (LockProgram L A) → LockProgram L A
  | [] => skip
  | p :: rest => seq p (seqs rest)

/-- `p`, or nothing. -/
def maybe (p : LockProgram L A) : LockProgram L A := choice p skip

/-- Every lock that occurs in a program. -/
def locks : LockProgram L A → List L
  | skip => []
  | act _ => []
  | withLock l p => l :: p.locks
  | seq p q => p.locks ++ q.locks
  | choice p q => p.locks ++ q.locks
  | loop p => p.locks

end LockProgram

namespace LockTask

variable {L A : Type*}

/-- The locks held with these tasks left. -/
def held : List (LockTask L A) → List L
  | [] => []
  | release l :: k => l :: held k
  | run _ :: k => held k

/-- Every lock these tasks hold or may still take. -/
def locks : List (LockTask L A) → List L
  | [] => []
  | release l :: k => l :: locks k
  | run p :: k => p.locks ++ locks k

/-- One step; `b` takes the first branch of a choice, or enters a loop.  A lock that is
already held is waited for. -/
def advance [DecidableEq L] (b : Bool) : List (LockTask L A) → List (LockTask L A) × Option A
  | [] => ([], none)
  | release _ :: k => (k, none)
  | run .skip :: k => (k, none)
  | run (.act a) :: k => (k, some a)
  | run (.withLock l p) :: k =>
      if l ∈ held k then (run (.withLock l p) :: k, none) else (run p :: release l :: k, none)
  | run (.seq p q) :: k => (run p :: run q :: k, none)
  | run (.choice p q) :: k => (run (if b then p else q) :: k, none)
  | run (.loop p) :: k => (if b then run p :: run (.loop p) :: k else k, none)

theorem held_subset_locks (k : List (LockTask L A)) : held k ⊆ locks k := by
  induction k with
  | nil => exact List.Subset.refl _
  | cons t k ih =>
      cases t with
      | release l => exact List.cons_subset_cons l ih
      | run p => exact List.subset_append_of_subset_right _ ih

/-- A step brings in no new locks. -/
theorem locks_advance [DecidableEq L] (b : Bool) (k : List (LockTask L A)) :
    locks (advance b k).1 ⊆ locks k := by
  cases k with
  | nil => exact List.Subset.refl _
  | cons t k =>
      cases t with
      | release l => exact List.subset_cons_self l _
      | run p =>
          cases p with
          | skip => exact List.Subset.refl _
          | act a => exact List.Subset.refl _
          | withLock l p =>
              by_cases hl : l ∈ held k
              · simp only [advance, if_pos hl]
                exact List.Subset.refl _
              · intro x hx
                simp only [advance, if_neg hl, locks, LockProgram.locks, List.mem_append,
                  List.mem_cons] at hx ⊢
                tauto
          | seq p q =>
              intro x hx
              simp only [advance, locks, LockProgram.locks, List.mem_append] at hx ⊢
              tauto
          | choice p q =>
              intro x hx
              cases b
              all_goals
                simp only [advance, locks, LockProgram.locks, List.mem_append, if_true,
                  Bool.false_eq_true, if_false] at hx ⊢
                tauto
          | loop p =>
              intro x hx
              cases b
              all_goals
                simp only [advance, locks, LockProgram.locks, List.mem_append, if_true,
                  Bool.false_eq_true, if_false] at hx ⊢
                tauto

end LockTask

/-! ### Handlers -/

/-- What a handler does with locks.  A lock it only tries is given up at once. -/
inductive HandlerOp (L : Type*) where
  | lock (l : L)
  | unlock (l : L)
  | tryLock (l : L)
  deriving DecidableEq, Repr

namespace HandlerOp

variable {L : Type*}

/-- The locks a handler waits for. -/
def waits : List (HandlerOp L) → List L
  | [] => []
  | lock l :: rest => l :: waits rest
  | _ :: rest => waits rest

/-- The handler is about to take a lock the interrupted code holds. -/
def Blocked (held : List L) : List (HandlerOp L) → Prop
  | lock l :: _ => l ∈ held
  | _ => False

/-- One step of a handler; it stays where it is while it waits. -/
def advance [DecidableEq L] (held : List L) : List (HandlerOp L) → List (HandlerOp L)
  | [] => []
  | lock l :: rest => if l ∈ held then lock l :: rest else rest
  | unlock _ :: rest => rest
  | tryLock _ :: rest => rest

instance [DecidableEq L] (held : List L) : (ops : List (HandlerOp L)) → Decidable (Blocked held ops)
  | [] => inferInstanceAs (Decidable False)
  | lock l :: _ => inferInstanceAs (Decidable (l ∈ held))
  | unlock _ :: _ => inferInstanceAs (Decidable False)
  | tryLock _ :: _ => inferInstanceAs (Decidable False)

theorem not_blocked_of_disjoint {held : List L} {ops : List (HandlerOp L)}
    (h : ∀ l ∈ waits ops, l ∉ held) : ¬ Blocked held ops := by
  cases ops with
  | nil => exact id
  | cons op rest =>
      cases op with
      | lock l => exact h l (by simp [waits])
      | unlock l => exact id
      | tryLock l => exact id

theorem waits_advance [DecidableEq L] (held : List L) (ops : List (HandlerOp L)) :
    waits (advance held ops) ⊆ waits ops := by
  cases ops with
  | nil => exact List.Subset.refl _
  | cons op rest =>
      cases op with
      | lock l =>
          by_cases hl : l ∈ held
          · simp only [advance, if_pos hl]
            exact List.Subset.refl _
          · simp only [advance, if_neg hl]
            exact List.subset_cons_self l _
      | unlock l => exact List.Subset.refl _
      | tryLock l => exact List.Subset.refl _

end HandlerOp

end Amaterasu
