/-
Paths, and the one way `normalize` leaves to spell them.

Read component by component a path is a walk through the tree: an empty component and `.`
stay, `..` goes up, anything else goes down.  `normalize` spells the position where that
walk ends, so going on from a normalized path is going on from the path itself.
-/
import Amaterasu.Lib.TreeWalk
import Amaterasu.Shell.Words

namespace Amaterasu

namespace Words

open Move

/-- A component that stands for itself. -/
structure Component (p : Text) : Prop where
  ne_nil : p ≠ []
  ne_dot : p ≠ ['.']
  ne_dots : p ≠ ['.', '.']
  noSlash : '/' ∉ p

/-- An absolute path below the root that is spelled in the one way `normalize` leaves. -/
def Canonical (path : Text) : Prop :=
  ∃ parts : List Text, parts ≠ [] ∧ (∀ p ∈ parts, Component p) ∧ path = parts.flatMap ('/' :: ·)

/-! ### A path as a walk -/

/-- What one component of a path does. -/
def move (component : Text) : Move Text :=
  if component = [] ∨ component = ['.'] then .stay
  else if component = ['.', '.'] then .up
  else .down component

def moves (path : Text) : List (Move Text) := (path.splitOn '/').map move

theorem normalParts_eq (path : Text) : normalParts path = walk [] (moves path) := by
  unfold normalParts moves walk
  rw [List.foldl_map]
  congr 1
  funext parts component
  unfold move
  split
  · rfl
  · split
    · rfl
    · rfl

/-- A slash separates the moves on its two sides. -/
theorem moves_append (a b : Text) : moves (a ++ '/' :: b) = moves a ++ moves b := by
  unfold moves List.splitOn
  rw [List.splitOnP_append_cons a b (by simp), List.map_append]

theorem moves_nil : moves [] = [.stay] := by
  simp [moves, move]

theorem moves_slash (b : Text) : moves ('/' :: b) = .stay :: moves b := by
  have h := moves_append [] b
  rwa [moves_nil] at h

theorem Component.move_eq {p : Text} (h : Component p) : move p = .down p := by
  unfold move
  rw [if_neg, if_neg h.ne_dots]
  rintro (hc | hc)
  · exact h.ne_nil hc
  · exact h.ne_dot hc

theorem Component.moves_eq {p : Text} (h : Component p) : moves p = [.down p] := by
  unfold moves List.splitOn
  rw [List.splitOnP_eq_singleton, List.map_singleton, h.move_eq]
  rintro c hc
  rw [beq_eq_false_iff_ne]
  rintro rfl
  exact h.noSlash hc

/-- The components a canonical path is made of are its moves. -/
theorem moves_flatMap {parts : List Text} (hparts : ∀ p ∈ parts, Component p) (hne : parts ≠ []) :
    moves (parts.flatMap ('/' :: ·)) = .stay :: parts.map .down := by
  induction parts with
  | nil => exact absurd rfl hne
  | cons p rest ih =>
      have hp := hparts p List.mem_cons_self
      rw [List.flatMap_cons, List.cons_append, moves_slash]
      rcases eq_or_ne rest [] with rfl | hrest
      · rw [List.flatMap_nil, List.append_nil, hp.moves_eq]
        rfl
      · have hih := ih (fun q hq => hparts q (List.mem_cons_of_mem _ hq)) hrest
        obtain ⟨q, rest, rfl⟩ := List.exists_cons_of_ne_nil hrest
        rw [List.flatMap_cons, List.cons_append, moves_slash] at hih
        rw [List.flatMap_cons, List.cons_append, moves_append, hp.moves_eq,
          (List.cons.inj hih).2]
        rfl

/-- No other component is gone down to. -/
theorem component_of_down {path name : Text} (h : .down name ∈ moves path) : Component name := by
  obtain ⟨piece, hpiece, heq⟩ := List.mem_map.mp h
  unfold move at heq
  split at heq
  · exact absurd heq (by simp)
  · rename_i hne
    split at heq
    · exact absurd heq (by simp)
    · rename_i hdots
      obtain rfl : piece = name := by simpa using heq
      exact ⟨fun hc => hne (Or.inl hc), fun hc => hne (Or.inr hc), hdots,
        Text.notMem_of_mem_splitOn path piece hpiece⟩

theorem normalParts_component (path : Text) : ∀ p ∈ normalParts path, Component p := by
  rw [normalParts_eq]
  exact walk_forall (fun name => component_of_down) [] (by simp)

/-! ### The spelling `normalize` leaves -/

theorem normalize_canonical (path : Text) :
    normalize path = ['/'] ∨ Canonical (normalize path) := by
  unfold normalize
  split
  · exact Or.inl rfl
  · rename_i hne
    exact Or.inr ⟨normalParts path, hne, normalParts_component path, rfl⟩

theorem normalize_congr {a b : Text} (h : normalParts a = normalParts b) :
    normalize a = normalize b := by
  unfold normalize
  rw [h]

/-- The names on the way to the place that a canonical path, or the root's, is for. -/
theorem moves_normalize (path : Text) :
    ∃ first, moves (normalize path) = .stay :: first ∧
      ∀ rest : List (Move Text), walk [] (first ++ rest) = walk [] (moves path ++ rest) := by
  unfold normalize
  split
  · rename_i hnil
    rw [normalParts_eq] at hnil
    refine ⟨[.stay], by rw [moves_slash, moves_nil], ?_⟩
    intro rest
    rw [walk_append _ (moves path), hnil]
    rfl
  · rename_i hne
    refine ⟨(normalParts path).map .down, moves_flatMap (normalParts_component path) hne, ?_⟩
    intro rest
    rw [normalParts_eq]
    exact walk_direct _ _

/-- Going on from a normalized path is going on from the path. -/
theorem normalParts_append (a b : Text) :
    normalParts (normalize a ++ '/' :: b) = normalParts (a ++ '/' :: b) := by
  obtain ⟨first, hmoves, hwalk⟩ := moves_normalize a
  rw [normalParts_eq, normalParts_eq, moves_append, moves_append, hmoves, List.cons_append,
    walk_cons]
  exact hwalk _

theorem normalParts_normalize (a : Text) : normalParts (normalize a) = normalParts a := by
  obtain ⟨first, hmoves, hwalk⟩ := moves_normalize a
  have h := hwalk []
  rw [List.append_nil, List.append_nil] at h
  rw [normalParts_eq, normalParts_eq, hmoves, walk_cons]
  exact h

theorem normalParts_flatMap {parts : List Text} (hparts : ∀ p ∈ parts, Component p) :
    normalParts (parts.flatMap ('/' :: ·)) = parts := by
  rcases eq_or_ne parts [] with rfl | hne
  · rfl
  · rw [normalParts_eq, moves_flatMap hparts hne, walk_cons]
    exact walk_down [] parts

theorem Canonical.normalize_eq {path : Text} (h : Canonical path) : normalize path = path := by
  obtain ⟨parts, hne, hparts, rfl⟩ := h
  unfold normalize
  rw [normalParts_flatMap hparts, if_neg hne]

theorem normalize_root : normalize ['/'] = ['/'] := rfl

/-- What `normalize` leaves alone. -/
theorem normalize_eq_self_iff (path : Text) :
    normalize path = path ↔ path = ['/'] ∨ Canonical path := by
  constructor
  · intro h
    rw [← h]
    exact normalize_canonical path
  · rintro (rfl | h)
    · exact normalize_root
    · exact h.normalize_eq

/-! ### Paths from a directory on -/

/-- Where a command's path leads: what every command that takes a path does with it. -/
def resolved (g : Globals) (path : Text) : Text := normalize (resolve g path)

/-- A path that is not absolute. -/
def Relative (path : Text) : Prop := path.head? ≠ some '/'

instance (path : Text) : Decidable (Relative path) := inferInstanceAs (Decidable (_ ≠ _))

/-- A relative path leads on from the working directory. -/
theorem normalParts_resolve {g : Globals} {path : Text} (h : Relative path) :
    normalParts (resolve g path) = normalParts (g.cwdGet ++ '/' :: path) := by
  unfold resolve
  rw [if_neg h]
  split
  · rename_i hlast
    obtain ⟨base, hbase⟩ := List.getLast?_eq_some_iff.mp hlast
    -- The slash at the end of the working directory is one more component, an empty one.
    rw [hbase, List.append_assoc, List.append_assoc, normalParts_eq, normalParts_eq,
      List.singleton_append, List.singleton_append, moves_append, moves_append, moves_slash,
      walk_append, walk_append, walk_cons]
    rfl
  · rfl

/-- Two steps from one directory to another. -/
theorem resolved_trans {g : Globals} {a b : Text} (ha : Relative a) (hne : a ≠ [])
    (hb : Relative b) :
    resolved { g with cwd := resolved g a } b = resolved g (a ++ '/' :: b) := by
  have hab : Relative (a ++ '/' :: b) := by
    unfold Relative
    rw [List.head?_append_of_ne_nil _ hne]
    exact ha
  have hcwd : ({ g with cwd := resolved g a } : Globals).cwdGet = normalize (resolve g a) := by
    refine if_neg ?_
    show normalize (resolve g a) ≠ []
    rcases normalize_canonical (resolve g a) with h | ⟨parts, hparts, -, h⟩
    · rw [h]
      simp
    · rw [h]
      obtain ⟨p, rest, rfl⟩ := List.exists_cons_of_ne_nil hparts
      simp
  apply normalize_congr
  rw [normalParts_resolve hb, normalParts_resolve hab, hcwd, normalParts_append]
  rw [normalParts_eq, normalParts_eq, moves_append, ← List.cons_append, ← List.append_assoc,
    moves_append, walk_append, walk_append, ← normalParts_eq, ← normalParts_eq,
    normalParts_resolve ha]

/--
**Normal paths.**  `normalize` leaves the root or a canonical path, leaves these alone and
only these, and loses nothing of where a path leads on; so a relative path can be taken in
two steps, through any directory on the way.
-/
theorem normalize_canonicalises :
    (∀ a, normalize a = ['/'] ∨ Canonical (normalize a)) ∧
    (∀ a, normalize (normalize a) = normalize a) ∧
    (∀ a, normalize a = a ↔ a = ['/'] ∨ Canonical a) ∧
    (∀ a b, normalize (a ++ '/' :: b) = normalize (normalize a ++ '/' :: b)) ∧
    ∀ (g : Globals) (a b : Text), Relative a → a ≠ [] → Relative b →
      resolved { g with cwd := resolved g a } b = resolved g (a ++ '/' :: b) :=
  ⟨normalize_canonical,
    fun a => normalize_congr (normalParts_normalize a),
    normalize_eq_self_iff,
    fun a b => (normalize_congr (normalParts_append a b)).symm,
    fun _ _ _ ha hne hb => resolved_trans ha hne hb⟩

/-- From `/usr`, up and down again. -/
theorem normalize_canonicalises_up (root : Option VNode) :
    resolved { cwd := ['/'], prevCwd := [], env := [], root := root } ['x']
      = resolved { cwd := "/usr".toList, prevCwd := [], env := [], root := root }
          "../x".toList := by
  have h := normalize_canonicalises.2.2.2.2
    { cwd := "/usr".toList, prevCwd := [], env := [], root := root } ['.', '.'] ['x']
    (by decide) (by decide) (by decide)
  exact h

/-- An empty path leads to the working directory, but with a slash behind it to the root. -/
theorem normalize_empty_step : ∃ (g : Globals) (b : Text), Canonical g.cwdGet ∧
    Relative [] ∧ Relative b ∧
    resolved { g with cwd := resolved g [] } b ≠ resolved g ([] ++ '/' :: b) := by
  refine ⟨{ cwd := "/usr".toList, prevCwd := [], env := [], root := none }, ['x'],
    ⟨["usr".toList], by decide, ?_, by decide⟩, by decide, by decide, by decide⟩
  intro p hp
  rw [List.mem_singleton.mp hp]
  exact ⟨by decide, by decide, by decide, by decide⟩

end Words

end Amaterasu
