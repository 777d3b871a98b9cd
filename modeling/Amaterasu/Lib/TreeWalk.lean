/-
Walks through a tree of names.

A move stays, goes up, or goes down to a name; going up from the root stays there.  A
position is the names from the root to it.  A walk that has ended at some position can be
replaced by the direct one, down the names of that position (`walk_direct`), and that is
why a path can be simplified before it is gone on from.
-/
import Mathlib.Data.List.Infix

namespace Amaterasu

inductive Move (N : Type*)
  | stay
  | up
  | down (name : N)

namespace Move

variable {N : Type*}

/-- Where a move leads. -/
def apply (pos : List N) : Move N → List N
  | stay => pos
  | up => pos.dropLast
  | down name => pos ++ [name]

/-- Where the moves lead, one after another. -/
def walk (pos : List N) (moves : List (Move N)) : List N := moves.foldl apply pos

@[simp] theorem walk_nil (pos : List N) : walk pos [] = pos := rfl

@[simp] theorem walk_cons (pos : List N) (move : Move N) (moves : List (Move N)) :
    walk pos (move :: moves) = walk (apply pos move) moves := rfl

theorem walk_append (pos : List N) (first second : List (Move N)) :
    walk pos (first ++ second) = walk (walk pos first) second := by
  unfold walk
  rw [List.foldl_append]

/-- Straight down. -/
theorem walk_down (pos names : List N) : walk pos (names.map down) = pos ++ names := by
  induction names generalizing pos with
  | nil => simp
  | cons name names ih =>
      rw [List.map_cons, walk_cons, ih, apply, List.append_assoc]
      rfl

/-- From the root, a walk is as good as the direct one to where it leads. -/
theorem walk_direct (first second : List (Move N)) :
    walk [] ((walk [] first).map down ++ second) = walk [] (first ++ second) := by
  rw [walk_append, walk_append, walk_down, List.nil_append]

/-- What holds of every name gone down to holds along the position. -/
theorem walk_forall {p : N → Prop} {moves : List (Move N)}
    (hmoves : ∀ name, down name ∈ moves → p name) :
    ∀ pos : List N, (∀ name ∈ pos, p name) → ∀ name ∈ walk pos moves, p name := by
  induction moves with
  | nil =>
      intro pos hpos
      exact hpos
  | cons move moves ih =>
      intro pos hpos
      rw [walk_cons]
      apply ih fun name hname => hmoves name (List.mem_cons_of_mem _ hname)
      cases move with
      | stay => exact hpos
      | up => exact fun name hname => hpos name (List.mem_of_mem_dropLast hname)
      | down name =>
          intro n hn
          rcases List.mem_append.mp hn with hn | hn
          · exact hpos n hn
          · rw [List.mem_singleton.mp hn]
            exact hmoves name List.mem_cons_self

end Move

end Amaterasu
