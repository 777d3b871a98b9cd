/-
Places in the tree, as the shell spells them.

`normalize` spells the names on the way to a place.  Looked up, the spelling leads along
these names, so what `complete_path` reads off a directory is read off the tree: the names
there, and which of them are directories.
-/
import Amaterasu.Fs.Archives
import Amaterasu.Shell.Paths
import Amaterasu.Shell.Tab

namespace Amaterasu

open Ramfs

namespace Words

/-- The path of a place. -/
def spell (parts : List Text) : Text :=
  if parts = [] then ['/'] else parts.flatMap ('/' :: ·)

/-- What can stand between slashes. -/
def Segment (p : Text) : Prop := p ≠ [] ∧ '/' ∉ p

theorem normalize_eq (path : Text) : normalize path = spell (normalParts path) := rfl

theorem Component.segment {p : Text} (h : Component p) : Segment p := ⟨h.ne_nil, h.noSlash⟩

theorem normalParts_segment (path : Text) : ∀ p ∈ normalParts path, Segment p :=
  fun p hp => (normalParts_component path p hp).segment

section

variable {parts : List Text}

theorem flatMap_slash (hne : parts ≠ []) :
    parts.flatMap ('/' :: ·) = '/' :: List.intercalate ['/'] parts := by
  induction parts with
  | nil => exact absurd rfl hne
  | cons p rest ih =>
      rcases rest with - | ⟨q, rest⟩
      · simp
      · rw [List.flatMap_cons, ih (by simp)]
        simp [List.intercalate]

theorem components_flatMap (h : ∀ p ∈ parts, Segment p) :
    Text.components '/' (parts.flatMap ('/' :: ·)) = parts := by
  rcases eq_or_ne parts [] with rfl | hne
  · rfl
  · have hslash : ∀ s : Text, Text.components '/' ('/' :: s) = Text.components '/' s := by
      intro s
      simp [Text.components, List.splitOn, List.splitOnP_cons_eq_if_modifyHead]
    rw [flatMap_slash hne, hslash]
    exact Text.components_join hne h

theorem components_spell (h : ∀ p ∈ parts, Segment p) :
    Text.components '/' (spell parts) = parts := by
  unfold spell
  split
  · rename_i hnil
    rw [hnil]
    rfl
  · exact components_flatMap h

/-- A place has one spelling. -/
theorem spell_injective {other : List Text} (h : ∀ p ∈ parts, Segment p)
    (hother : ∀ p ∈ other, Segment p) (heq : spell parts = spell other) : parts = other := by
  rw [← components_spell h, heq, components_spell hother]

theorem spell_ne_root (h : ∀ p ∈ parts, Segment p) (hne : parts ≠ []) : spell parts ≠ ['/'] := by
  intro heq
  have hparts := components_spell h
  rw [heq] at hparts
  exact hne hparts.symm

/-- The slash that joins a name to the path of its directory. -/
theorem rdropWhile_spell (h : ∀ p ∈ parts, Segment p) (name : Text) :
    (spell parts).rdropWhile (· == '/') ++ '/' :: name = (parts ++ [name]).flatMap ('/' :: ·) := by
  rw [List.flatMap_append, List.flatMap_singleton]
  congr 1
  unfold spell
  split
  · rename_i hnil
    rw [hnil]
    rfl
  · rename_i hne
    obtain ⟨front, last, rfl⟩ := List.eq_nil_or_concat parts |>.resolve_left hne
    obtain ⟨hlast, hslash⟩ := h last (by simp)
    obtain ⟨start, c, rfl⟩ := List.eq_nil_or_concat last |>.resolve_left hlast
    have hc : c ≠ '/' := by
      rintro rfl
      exact hslash (by simp)
    rw [List.concat_eq_append, List.concat_eq_append, List.flatMap_append, List.flatMap_singleton,
      ← List.cons_append, ← List.append_assoc, List.rdropWhile_concat_neg]
    simpa using hc

end

/-! ### The tree behind the globals -/

/-- Names that are not empty and have no slashes, as `insert` leaves them. -/
def Named (tree : Entries) : Prop := ∀ path n, entryAt tree (path ++ [n]) ≠ none → Segment n

/-- The tree of any archive is named so. -/
theorem named_of_parse {data : Bytes} {tree : Entries} (h : parseUncounted data = some tree) :
    Named tree := by
  intro path n hentry
  have hbare : entryAt [] (path ++ [n]) = none := by
    rw [entryAt_empty]
    cases path <;> rfl
  rw [(insertAll_spec _ _ _ (insertAll_of_parse h)).1, planted, hbare, Option.none_or,
    PathTree.firstNeed_ne_none] at hentry
  obtain ⟨m, hm, hpre⟩ := hentry
  obtain ⟨header, -, hpath⟩ := exists_header m hm
  have hmem : n ∈ Text.components '/' (memberName header) := by
    rw [← hpath]
    exact hpre.subset (by simp)
  obtain ⟨hsplit, hne⟩ := List.mem_filter.mp hmem
  exact ⟨by simpa using hne, Text.notMem_of_mem_splitOn _ n hsplit⟩

/-- The names in a directory of the tree. -/
def childNames (tree : Entries) (parts : List Text) : List Text :=
  match (Node.dir tree).find parts with
  | some (.dir sub) => sub.map Prod.fst
  | _ => []

/-- A name as it is completed: with a slash behind it if it is a directory. -/
def marked (tree : Entries) (parts : List Text) (name : Text) : Text :=
  if entryAt tree (parts ++ [name]) = some .dir then name ++ ['/'] else name

/-- The globals with a tree mounted. -/
def mounted (g : Globals) (tree : Entries) : Globals :=
  { g with root := Vfs.mount (Node.dir tree).toVNode }

section Tree

variable {tree : Entries} {parts : List Text} {g : Globals}

theorem mem_childNames {n : Text} :
    n ∈ childNames tree parts ↔ entryAt tree (parts ++ [n]) ≠ none := by
  have hat : entryAt tree (parts ++ [n])
      = ((Node.dir tree).find parts).bind fun node => (node.find [n]).map Node.entry := by
    rw [entryAt, find_append]
    exact Option.map_bind
  rw [hat]
  unfold childNames
  rcases (Node.dir tree).find parts with - | data | sub
  · simp
  · simp
  · rw [Option.bind_some, find_dir_cons]
    have hchild : child sub n = none ↔ n ∉ sub.map Prod.fst := child_eq_none
    rcases hc : child sub n with - | c
    · rw [hc] at hchild
      simpa using hchild.mp rfl
    · rw [hc] at hchild
      simp only [reduceCtorEq, false_iff, not_not] at hchild
      simpa using hchild

/-- A lookup leads along the names. -/
theorem lookup_flatMap (g : Globals) (tree : Entries) (h : ∀ p ∈ parts, Segment p)
    (hne : parts ≠ []) :
    match (Node.dir tree).find parts with
    | none => Vfs.lookup (mounted g tree).root (parts.flatMap ('/' :: ·)) = none
    | some node => ∃ v, Vfs.lookup (mounted g tree).root (parts.flatMap ('/' :: ·)) = some v ∧
        Stands v node := by
  have hparts := components_flatMap h
  have hlookup : Vfs.lookup (mounted g tree).root (parts.flatMap ('/' :: ·))
      = parts.foldlM VNode.lookup (Node.dir tree).toVNode := by
    show Vfs.lookup (some _) _ = _
    rw [Vfs.lookup_eq _ _ (by rw [hparts]; exact hne), hparts]
  rw [hlookup]
  exact (Stands.toVNode (Node.dir tree)).walk parts

theorem namesIn_spell (h : ∀ p ∈ parts, Segment p) :
    namesIn (mounted g tree) (spell parts) = childNames tree parts := by
  unfold namesIn childNames
  rcases eq_or_ne parts [] with rfl | hne
  · rw [find_nil]
    exact (Stands.toVNode (Node.dir tree)).readdir
  · have hwalk := lookup_flatMap g tree h hne
    rw [if_neg (spell_ne_root h hne), show spell parts = parts.flatMap ('/' :: ·) from if_neg hne]
    rcases hfind : (Node.dir tree).find parts with - | node
    · rw [hfind] at hwalk
      rw [hwalk]
      rfl
    · rw [hfind] at hwalk
      obtain ⟨v, hv, hstands⟩ := hwalk
      rw [hv, Option.bind_some, hstands.kind]
      rcases node with data | sub
      · rfl
      · exact hstands.readdir

theorem shown_spell (h : ∀ p ∈ parts, Segment p) {name : Text} (hname : Segment name) :
    shown (mounted g tree) (spell parts) name = marked tree parts name := by
  have hall : ∀ p ∈ parts ++ [name], Segment p :=
    List.forall_mem_append.mpr ⟨h, List.forall_mem_singleton.mpr hname⟩
  have hwalk := lookup_flatMap g tree hall (by simp)
  unfold shown marked entryAt
  rw [rdropWhile_spell h]
  rcases hfind : (Node.dir tree).find (parts ++ [name]) with - | node
  · rw [hfind] at hwalk
    rw [hwalk]
    rfl
  · rw [hfind] at hwalk
    obtain ⟨v, hv, hstands⟩ := hwalk
    rw [hv, Option.any_some, hstands.kind]
    rcases node with data | sub
    · rfl
    · rfl

/-- What `complete_path` offers for a place: its names that begin with what is typed. -/
def offered (tree : Entries) (parts : List Text) (typed : Text) : List Text :=
  ((childNames tree parts).filter typed.isPrefixOf).map (marked tree parts)

theorem completePath_spell (hnamed : Named tree) (h : ∀ p ∈ parts, Segment p) {part : Text}
    (hdir : dirOf g part = spell parts) : completePath (mounted g tree) part
      = (offered tree parts (part.rtakeWhile (· != '/')),
        Text.byteLen (part.rtakeWhile (· != '/'))) := by
  have hdir' : dirOf (mounted g tree) part = spell parts := hdir
  rw [completePath_eq, continuing, hdir', namesIn_spell h, offered]
  congr 1
  refine List.map_congr_left ?_
  intro n hn
  exact shown_spell h (hnamed parts n (mem_childNames.mp (List.mem_filter.mp hn).1))

theorem mem_offered {typed c : Text} : c ∈ offered tree parts typed ↔
    ∃ n, typed <+: n ∧ entryAt tree (parts ++ [n]) ≠ none ∧ c = marked tree parts n := by
  unfold offered
  rw [List.mem_map]
  refine exists_congr fun n => ?_
  rw [List.mem_filter, mem_childNames, List.isPrefixOf_iff_prefix]
  constructor
  · rintro ⟨⟨hentry, hpre⟩, rfl⟩
    exact ⟨hpre, hentry, rfl⟩
  · rintro ⟨hpre, hentry, rfl⟩
    exact ⟨⟨hentry, hpre⟩, rfl⟩

end Tree

end Words

end Amaterasu
