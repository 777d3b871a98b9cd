/-
What is suggested for a command nobody knows.

`edit_distance` fills a table a row at a time, in place.  The entries of a row are the
distances of what has been read of one text, last character first, to the beginnings of
the other (`distRow`), and a row is made from the one before it as the recursion of
`editDist` says.
-/
import Amaterasu.Lib.EditDistance
import Amaterasu.Shell.Dispatch

namespace Amaterasu

namespace Words

/-! ### The table -/

/-- The distances of `ra` to `rb`, with more and more of a text in front of it. -/
def distRow (ra : Text) : Text → Text → List Nat
  | _, [] => []
  | rb, b :: bs => editDist ra (b :: rb) :: distRow ra (b :: rb) bs

theorem editRow_distRow (a : Char) (ra bs : Text) : ∀ rb : Text,
    editRow a bs (editDist ra rb) (editDist (a :: ra) rb) (distRow ra rb bs)
      = distRow (a :: ra) rb bs := by
  induction bs with
  | nil =>
      intro rb
      rfl
  | cons b bs ih =>
      intro rb
      have hentry : (if a = b then editDist ra rb
          else 1 + min (min (editDist ra rb) (editDist ra (b :: rb))) (editDist (a :: ra) rb))
          = editDist (a :: ra) (b :: rb) := (editDist_cons a b ra rb).symm
      rw [distRow, distRow, editRow, hentry, ih (b :: rb)]

/-- One row after another. -/
theorem editRows_distRow (b as : Text) : ∀ ra : Text,
    editRows b as (ra.length + 1) (editDist ra [] :: distRow ra [] b)
      = editDist (as.reverse ++ ra) [] :: distRow (as.reverse ++ ra) [] b := by
  induction as with
  | nil =>
      intro ra
      rfl
  | cons a as ih =>
      intro ra
      have hfirst : ra.length + 1 = editDist (a :: ra) [] := (editDist_nil_right (a :: ra)).symm
      have hrest := ih (a :: ra)
      rw [List.length_cons] at hrest
      rw [editRows, List.headD_cons, List.tail_cons, List.reverse_cons, List.append_assoc,
        List.singleton_append, ← hrest, hfirst, editRow_distRow]

theorem distRow_first (bs : Text) : ∀ rb : Text,
    distRow [] rb bs = (List.range bs.length).map fun j => j + (rb.length + 1) := by
  induction bs with
  | nil =>
      intro rb
      rfl
  | cons b bs ih =>
      intro rb
      have hrange : List.range (b :: bs).length = 0 :: (List.range bs.length).map Nat.succ := by
        rw [List.length_cons, List.range_succ_eq_map]
      rw [distRow, ih, hrange, List.map_cons, List.map_map, editDist_nil_left, List.length_cons,
        Nat.zero_add]
      congr 1
      apply List.map_congr_left
      intro j _
      show j + (rb.length + 1 + 1) = j + 1 + (rb.length + 1)
      omega

theorem distRow_last (ra bs : Text) : ∀ rb : Text,
    (editDist ra rb :: distRow ra rb bs).getLastD 0 = editDist ra (bs.reverse ++ rb) := by
  induction bs with
  | nil =>
      intro rb
      rfl
  | cons b bs ih =>
      intro rb
      rw [List.reverse_cons, List.append_assoc, List.singleton_append, ← ih (b :: rb)]
      rfl

theorem editDistance_eq (a b : Text) : editDistance a b = editDist a b := by
  have hfirst : List.range (b.length + 1) = editDist ([] : Text) [] :: distRow [] [] b := by
    rw [distRow_first, List.range_succ_eq_map, editDist_nil_left]
    rfl
  have hrows := editRows_distRow b a []
  rw [List.length_nil, Nat.zero_add] at hrows
  unfold editDistance
  rw [hfirst, hrows, distRow_last, List.append_nil, List.append_nil, editDist_reverse]

/-! ### The nearest name -/

/-- What the search for the nearest name ends with: a name there is, or what it began
with. -/
theorem nearest_spec (typed : Text) (names : List Text) : ∀ best : Nat × Text,
    ∃ r, names.foldl (fun (best : Nat × Text) name =>
        let d := editDistance typed name
        if d < best.1 then (d, name) else best) best = r ∧
      r.1 ≤ best.1 ∧ (∀ name ∈ names, r.1 ≤ editDistance typed name) ∧
      (r = best ∨ r.2 ∈ names ∧ r.1 = editDistance typed r.2) := by
  induction names with
  | nil =>
      intro best
      exact ⟨best, rfl, Nat.le_refl _, by simp, Or.inl rfl⟩
  | cons name names ih =>
      intro best
      rw [List.foldl_cons]
      by_cases hnear : editDistance typed name < best.1
      · obtain ⟨r, hfold, hle, hall, hr⟩ := ih (editDistance typed name, name)
        refine ⟨r, by rw [← hfold]; simp only [if_pos hnear], by omega, ?_, Or.inr ?_⟩
        · exact List.forall_mem_cons.mpr ⟨hle, hall⟩
        · rcases hr with rfl | ⟨hmem, heq⟩
          · exact ⟨List.mem_cons_self, rfl⟩
          · exact ⟨List.mem_cons_of_mem _ hmem, heq⟩
      · obtain ⟨r, hfold, hle, hall, hr⟩ := ih best
        refine ⟨r, by rw [← hfold]; simp only [if_neg hnear], hle, ?_, ?_⟩
        · exact List.forall_mem_cons.mpr ⟨by omega, hall⟩
        · rcases hr with rfl | ⟨hmem, heq⟩
          · exact Or.inl rfl
          · exact Or.inr ⟨List.mem_cons_of_mem _ hmem, heq⟩

variable {names : List Text} {typed name : Text}

/-- With no name that goes on from what is typed, the suggestion is a nearest one, if that
is within two edits. -/
theorem suggestion_spec (hnone : ∀ name ∈ names, ¬ typed <+: name) :
    ((∃ name, suggestion names typed = some name) ↔
        ∃ name ∈ names, editDistance typed name ≤ 2) ∧
      ∀ name, suggestion names typed = some name →
        name ∈ names ∧ ∀ other ∈ names, editDistance typed name ≤ editDistance typed other := by
  have hfind : names.find? (fun name => typed.isPrefixOf name) = none := by
    rw [List.find?_eq_none]
    intro name hname hprefix
    exact hnone name hname (List.isPrefixOf_iff_prefix.mp hprefix)
  obtain ⟨r, hfold, -, hall, hr⟩ := nearest_spec typed names (2 ^ 64 - 1, [])
  have heq : suggestion names typed = if r.1 ≤ 2 then some r.2 else none := by
    unfold suggestion
    rw [hfind]
    dsimp only at hfold ⊢
    rw [hfold]
  -- A distance of at most two is less than what the search begins with.
  have hfound : r.1 ≤ 2 → r.2 ∈ names ∧ r.1 = editDistance typed r.2 := by
    intro hle
    rcases hr with rfl | hmem
    · exact absurd hle (by decide)
    · exact hmem
  rw [heq]
  refine ⟨⟨?_, ?_⟩, ?_⟩
  · rintro ⟨name, hname⟩
    split at hname
    · rename_i hle
      obtain ⟨hmem, hdist⟩ := hfound hle
      exact ⟨r.2, hmem, by omega⟩
    · exact absurd hname (by simp)
  · rintro ⟨name, hname, hle⟩
    have hnear := hall name hname
    exact ⟨r.2, if_pos (by omega)⟩
  · intro name hname
    split at hname
    · rename_i hle
      obtain rfl := Option.some.inj hname
      obtain ⟨hmem, hdist⟩ := hfound hle
      refine ⟨hmem, ?_⟩
      intro other hother
      rw [← hdist]
      exact hall other hother
    · exact absurd hname (by simp)

end Words

namespace Session

open Words

variable {commands : List Cmd} {shell : Shell} {g : Globals} {seg : Text}

/-- The report with a suggestion. -/
def suggestionReport (typed name : Text) : List Writer.Op :=
  [.print ("unknown command: ".toList ++ typed),
    .print (" -- did you mean '".toList ++ name ++ "'?\n".toList)]

theorem unknownReport_eq_iff {typed name : Text} :
    unknownReport commands typed = suggestionReport typed name ↔
      suggestion (commands.map Cmd.name) typed = some name := by
  unfold unknownReport suggestionReport
  rw [List.cons.injEq, and_iff_right rfl, List.cons.injEq, and_iff_left rfl, Writer.Op.print.injEq]
  cases suggestion (commands.map Cmd.name) typed with
  | none => exact iff_of_false (by simp) (by simp)
  | some other => simp

/-- What is said of a segment that is no command. -/
theorem dispatchOne_unknown (h : action commands (expansion g seg) = .unknown) :
    dispatchOne commands shell g seg = (g, unknownReport commands (expansion g seg)) := by
  rw [dispatchOne_eq, turn, h]
  rfl

/--
**The edit distance, and the suggestion.**  `edit_distance` is the least number of
insertions, deletions and substitutions, and so a distance.  For a text that is no command
and the beginning of none, `dispatch_one` suggests a command exactly when one is within
two edits, and then a nearest one.
-/
theorem edit_distance_least :
    (∀ a b : Text, IsLeast {n | EditPath n a b} (editDistance a b)) ∧
      (∀ a b : Text, editDistance a b = 0 ↔ a = b) ∧
      (∀ a b : Text, editDistance a b = editDistance b a) ∧
      (∀ a b c : Text, editDistance a c ≤ editDistance a b + editDistance b c) ∧
      ∀ (commands : List Cmd) (shell : Shell) (g : Globals) (seg : Text),
        action commands (expansion g seg) = .unknown →
        (∀ entry ∈ commands, ¬ expansion g seg <+: entry.name) →
        ((∃ name, dispatchOne commands shell g seg
              = (g, suggestionReport (expansion g seg) name)) ↔
            ∃ entry ∈ commands, editDistance (expansion g seg) entry.name ≤ 2) ∧
          ∀ name, dispatchOne commands shell g seg
              = (g, suggestionReport (expansion g seg) name) →
            ∃ entry ∈ commands, entry.name = name ∧ ∀ other ∈ commands,
              editDistance (expansion g seg) name ≤ editDistance (expansion g seg) other.name := by
  simp only [editDistance_eq]
  refine ⟨editDist_isLeast, editDist_eq_zero, editDist_comm, editDist_triangle, ?_⟩
  intro commands shell g seg hunknown hnone
  have hnone' : ∀ name ∈ commands.map Cmd.name, ¬ expansion g seg <+: name := by
    rw [List.forall_mem_map]
    exact hnone
  have hreport : ∀ name, dispatchOne commands shell g seg
      = (g, suggestionReport (expansion g seg) name) ↔
        suggestion (commands.map Cmd.name) (expansion g seg) = some name := by
    intro name
    rw [dispatchOne_unknown hunknown, Prod.mk.injEq, and_iff_right rfl, unknownReport_eq_iff]
  obtain ⟨hsome, hnearest⟩ := suggestion_spec hnone'
  simp only [editDistance_eq, List.mem_map, exists_exists_and_eq_and] at hsome hnearest
  refine ⟨?_, ?_⟩
  · simp only [hreport]
    exact hsome
  · intro name hname
    obtain ⟨hmem, hall⟩ := hnearest name ((hreport name).mp hname)
    obtain ⟨entry, hentry, heq⟩ := hmem
    exact ⟨entry, hentry, heq, fun other hother => hall other.name ⟨other, hother, rfl⟩⟩

end Session

end Amaterasu
