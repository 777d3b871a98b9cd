/-
Trees of named entries, as partial maps from paths.

A tree is a set of paths in which every node with a child is a directory.  A listing
names nodes of a tree one by one, in any order, and leaves out what its other members
imply: the directories on the way to them.  `grow` puts one member into a map; doing so
for every member of a listing gives the tree back, whatever the order
(`Grown.eq_node`).

Members that do not come from one tree can be at odds.  `plant` never replaces what is
there, so that of any sequence of members the first that needs a path decides what stands
at it (`foldl_plant`).
-/
import Mathlib.Data.List.Infix
import Mathlib.Data.List.Nodup

namespace Amaterasu

/-- What stands at a path. -/
inductive Entry (D : Type*)
  | dir
  | file (data : D)
  deriving DecidableEq

/-- A partial map from paths whose nodes with children are directories. -/
structure PathTree (N D : Type*) where
  node : List N → Option (Entry D)
  root : node [] = some .dir
  closed : ∀ p n, node (p ++ [n]) ≠ none → node p = some .dir

namespace PathTree

variable {N D : Type*} {T : PathTree N D}

/-- What has anything below it is a directory. -/
theorem dir_of_append (p q : List N) (hq : q ≠ []) (h : T.node (p ++ q) ≠ none) :
    T.node p = some .dir := by
  induction q using List.reverseRecOn with
  | nil => exact absurd rfl hq
  | append_singleton q n ih =>
      rw [← List.append_assoc] at h
      have hdir := T.closed _ n h
      rcases eq_or_ne q [] with rfl | hne
      · simpa using hdir
      · apply ih hne
        rw [hdir]
        exact Option.some_ne_none _

theorem dir_above {p q : List N} (hpre : p <+: q) (hne : p ≠ q) (h : T.node q ≠ none) :
    T.node p = some .dir := by
  obtain ⟨r, rfl⟩ := hpre
  apply dir_of_append p r _ h
  rintro rfl
  exact hne (List.append_nil p).symm

/-- A list names the nodes of a tree: each at most once, and each that is not on the
way to another. -/
structure Lists (T : PathTree N D) (ms : List (List N × Entry D)) : Prop where
  node : ∀ m ∈ ms, T.node m.1 = some m.2
  once : (ms.map Prod.fst).Nodup
  all : ∀ p, p ≠ [] → T.node p ≠ none → ∃ m ∈ ms, p <+: m.1

/-- A map with one member put in, and the directories on the way to it. -/
def grow [DecidableEq N] (f : List N → Option (Entry D)) (path : List N) (e : Entry D) :
    List N → Option (Entry D) :=
  fun q => if q = path then some e else if q <+: path then some .dir else f q

/-- The map that has nothing but the root. -/
def bare : List N → Option (Entry D)
  | [] => some .dir
  | _ :: _ => none

/-- A member can be put in: nothing on the way to it is a file, and if its path is
taken then by a directory, as the member is. -/
structure Admits (f : List N → Option (Entry D)) (path : List N) (e : Entry D) : Prop where
  way : ∀ p, p <+: path → p ≠ path → f p = none ∨ f p = some .dir
  place : f path = none ∨ (e = .dir ∧ f path = some .dir)

/-- A map that agrees with a tree on what some members cover, and has no more. -/
structure Grown (T : PathTree N D) (ms : List (List N × Entry D))
    (f : List N → Option (Entry D)) : Prop where
  covered : ∀ p, (p = [] ∨ ∃ m ∈ ms, p <+: m.1) → f p = T.node p
  rest : ∀ p, ¬ (p = [] ∨ ∃ m ∈ ms, p <+: m.1) → f p = none

theorem bare_grown (T : PathTree N D) : Grown T [] bare := by
  refine ⟨?_, ?_⟩
  · rintro p (rfl | ⟨m, hm, -⟩)
    · exact T.root.symm
    · exact absurd hm List.not_mem_nil
  · intro p hp
    rcases p with - | ⟨n, p⟩
    · exact absurd (Or.inl rfl) hp
    · rfl

variable {ms : List (List N × Entry D)} {f : List N → Option (Entry D)}

/-- A node of the tree that is not yet named can be put in. -/
theorem Grown.admits (h : Grown T ms f) {path : List N} {e : Entry D}
    (hnode : T.node path = some e) (hnew : path ∉ ms.map Prod.fst)
    (hms : ∀ m ∈ ms, T.node m.1 = some m.2) : Admits f path e := by
  have hsome : T.node path ≠ none := by
    rw [hnode]
    exact Option.some_ne_none _
  refine ⟨?_, ?_⟩
  · intro p hpre hne
    by_cases hp : p = [] ∨ ∃ m ∈ ms, p <+: m.1
    · exact Or.inr ((h.covered p hp).trans (dir_above hpre hne hsome))
    · exact Or.inl (h.rest p hp)
  · by_cases hp : path = [] ∨ ∃ m ∈ ms, path <+: m.1
    · have hdir : T.node path = some .dir := by
        rcases hp with rfl | ⟨m, hm, hpre⟩
        · exact T.root
        · apply dir_above hpre
          · rintro rfl
            exact hnew (List.mem_map_of_mem hm)
          · rw [hms m hm]
            exact Option.some_ne_none _
      refine Or.inr ⟨?_, (h.covered path hp).trans hdir⟩
      rw [hnode] at hdir
      exact Option.some.inj hdir
    · exact Or.inl (h.rest path hp)

theorem Grown.grow [DecidableEq N] (h : Grown T ms f) {path : List N} {e : Entry D}
    (hnode : T.node path = some e) : Grown T (ms ++ [(path, e)]) (grow f path e) := by
  have hsome : T.node path ≠ none := by
    rw [hnode]
    exact Option.some_ne_none _
  refine ⟨?_, ?_⟩
  · intro p hp
    unfold PathTree.grow
    by_cases heq : p = path
    · rw [if_pos heq, heq, hnode]
    by_cases hpre : p <+: path
    · rw [if_neg heq, if_pos hpre, dir_above hpre heq hsome]
    · rw [if_neg heq, if_neg hpre]
      apply h.covered
      rcases hp with rfl | ⟨m, hm, hpm⟩
      · exact Or.inl rfl
      · rcases List.mem_append.mp hm with hm | hm
        · exact Or.inr ⟨m, hm, hpm⟩
        · rw [List.mem_singleton.mp hm] at hpm
          exact absurd hpm hpre
  · intro p hp
    have hpre : ¬ p <+: path := by
      intro hpre
      exact hp (Or.inr ⟨(path, e), by simp, hpre⟩)
    unfold PathTree.grow
    rw [if_neg (fun heq => hpre (by rw [heq])), if_neg hpre]
    apply h.rest
    rintro (rfl | ⟨m, hm, hpm⟩)
    · exact hp (Or.inl rfl)
    · exact hp (Or.inr ⟨m, List.mem_append_left _ hm, hpm⟩)

/-- Once a whole listing is in, the map is the tree. -/
theorem Grown.eq_node (h : Grown T ms f) (hlists : Lists T ms) : f = T.node := by
  funext p
  by_cases hp : p = [] ∨ ∃ m ∈ ms, p <+: m.1
  · exact h.covered p hp
  · rw [h.rest p hp]
    by_contra hne
    apply hp
    rcases eq_or_ne p [] with rfl | hp'
    · exact Or.inl rfl
    · exact Or.inr (hlists.all p hp' (Ne.symm hne))

/-! ### Members at odds with each other -/

section Plant

variable [DecidableEq N] {f : List N → Option (Entry D)} {path : List N} {e : Entry D}

/-- What a member makes of the paths it needs: its own, and those on the way to it. -/
def needs (path : List N) (e : Entry D) (q : List N) : Option (Entry D) :=
  if q = path then some e else if q <+: path then some .dir else none

/-- A map with a member put in wherever nothing stands yet. -/
def plant (f : List N → Option (Entry D)) (path : List N) (e : Entry D) :
    List N → Option (Entry D) :=
  fun q => (f q).or (needs path e q)

/-- A file on the way to a path. -/
def Blocked (f : List N → Option (Entry D)) (path : List N) : Prop :=
  ∃ q data, q <+: path ∧ q ≠ path ∧ f q = some (.file data)

/-- What the first member that needs a path makes of it. -/
def firstNeed (ms : List (List N × Entry D)) (q : List N) : Option (Entry D) :=
  (ms.find? fun m => decide (q <+: m.1)).bind fun m => needs m.1 m.2 q

@[simp] theorem needs_self : needs path e path = some e := if_pos rfl

theorem needs_eq_none {q : List N} : needs path e q = none ↔ ¬ q <+: path := by
  unfold needs
  by_cases hq : q = path
  · rw [if_pos hq, hq]
    simp
  · rw [if_neg hq]
    by_cases hpre : q <+: path
    · simp [hpre]
    · simp [hpre]

/-- A member that is admitted is put in where nothing stands, with nothing in its way. -/
theorem Admits.grow_eq (h : Admits f path e) : grow f path e = plant f path e := by
  funext q
  unfold grow plant needs
  by_cases hq : q = path
  · rw [if_pos hq, if_pos hq, hq]
    rcases h.place with hnone | ⟨rfl, hdir⟩
    · rw [hnone, Option.none_or]
    · rw [hdir, Option.some_or]
  · rw [if_neg hq, if_neg hq]
    by_cases hpre : q <+: path
    · rw [if_pos hpre, if_pos hpre]
      rcases h.way q hpre hq with hnone | hdir
      · rw [hnone, Option.none_or]
      · rw [hdir, Option.some_or]
    · rw [if_neg hpre, if_neg hpre, Option.or_none]

theorem firstNeed_cons (m : List N × Entry D) (ms : List (List N × Entry D)) (q : List N) :
    firstNeed (m :: ms) q = (needs m.1 m.2 q).or (firstNeed ms q) := by
  unfold firstNeed
  by_cases hpre : q <+: m.1
  · rw [List.find?_cons_of_pos (by simpa using hpre), Option.bind_some]
    obtain ⟨d, hd⟩ : ∃ d, needs m.1 m.2 q = some d := by
      rw [← Option.ne_none_iff_exists']
      exact fun h => needs_eq_none.mp h hpre
    rw [hd]
    rfl
  · rw [List.find?_cons_of_neg (by simpa using hpre), needs_eq_none.mpr hpre]
    rfl

/-- **The first member decides.** -/
theorem foldl_plant (ms : List (List N × Entry D)) : ∀ (f : List N → Option (Entry D)) (q : List N),
    ms.foldl (fun f m => plant f m.1 m.2) f q = (f q).or (firstNeed ms q) := by
  induction ms with
  | nil =>
      intro f q
      exact Option.or_none.symm
  | cons m ms ih =>
      intro f q
      rw [List.foldl_cons, ih, firstNeed_cons, plant, Option.or_assoc]

/-- A path is a file when the first member that needs it is that file. -/
theorem firstNeed_eq_file {ms : List (List N × Entry D)} {q : List N} {data : D} :
    firstNeed ms q = some (.file data) ↔
      ms.find? (fun m => q <+: m.1) = some (q, .file data) := by
  unfold firstNeed
  constructor
  · intro h
    obtain ⟨⟨path, e⟩, hfind, hneeds⟩ := Option.bind_eq_some_iff.mp h
    have hpre : q <+: path := by simpa using List.find?_some hfind
    unfold needs at hneeds
    by_cases hq : q = path
    · rw [if_pos hq] at hneeds
      obtain rfl : e = .file data := Option.some.inj hneeds
      rw [hfind, hq]
    · rw [if_neg hq, if_pos hpre] at hneeds
      exact absurd (Option.some.inj hneeds) (by simp)
  · intro h
    rw [h, Option.bind_some, needs, if_pos rfl]

/-- Some member needs every path that anything stands at. -/
theorem firstNeed_ne_none {ms : List (List N × Entry D)} {q : List N} :
    firstNeed ms q ≠ none ↔ ∃ m ∈ ms, q <+: m.1 := by
  induction ms with
  | nil => simp [firstNeed]
  | cons m ms ih =>
      rw [firstNeed_cons, ne_eq, Option.or_eq_none_iff, not_and_or, ← ne_eq (firstNeed ms q), ih,
        needs_eq_none, not_not]
      simp

end Plant

theorem Admits.not_blocked {path : List N} {e : Entry D} (h : Admits f path e) :
    ¬ Blocked f path := by
  rintro ⟨q, data, hpre, hne, hq⟩
  rcases h.way q hpre hne with hnone | hdir
  · rw [hnone] at hq
    exact absurd hq (by simp)
  · rw [hdir] at hq
    exact absurd hq (by simp)

end PathTree

end Amaterasu
