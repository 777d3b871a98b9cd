/-
What `insert` does with the members of an archive.

Nothing makes the members of an archive come from one tree.  `insert` never replaces
what it finds: a member whose way leads through a file panics, a directory where anything
stands is dropped, and a file where anything stands is put behind it, where no lookup
ever finds it.  So the first member that needs a path decides what stands there, and the
names of a directory are distinct exactly when no file came to a path that was taken.
A member that the tree admits is put in as it is (`insertParts_spec`).
-/
import Amaterasu.Fs.Tree

namespace Amaterasu

namespace Ramfs

open PathTree

/-! ### One member -/

/-- A file where something stands already. -/
def Shadowed (f : List Text → Option (Entry Bytes)) (path : List Text) (e : Entry Bytes) : Prop :=
  path ≠ [] ∧ (∃ data, e = .file data) ∧ f path ≠ none

theorem getOrInsertDir_skip {f : Entries → Option Entries} {name n : Text} (hn : n ≠ name)
    (c : Node) (rest : Entries) : getOrInsertDir name f ((n, c) :: rest)
      = (getOrInsertDir name f rest).map ((n, c) :: ·) := by
  simp [getOrInsertDir, hn]

theorem getOrInsertDir_here (f : Entries → Option Entries) (name : Text) (c : Node)
    (rest : Entries) : getOrInsertDir name f ((name, c) :: rest)
      = match c with
        | .dir sub => (f sub).map fun sub' => (name, .dir sub') :: rest
        | .file _ => none := by
  rcases c with data | sub
  · simp [getOrInsertDir]
  · simp [getOrInsertDir]

/-- A panic below is a panic. -/
theorem getOrInsertDir_none {f : Entries → Option Entries} {name : Text} (entries : Entries)
    (h : ∀ sub, subdir entries name = some sub → f sub = none) :
    getOrInsertDir name f entries = none := by
  induction entries with
  | nil => rw [getOrInsertDir, h [] rfl, Option.map_none]
  | cons e rest ih =>
      obtain ⟨n, c⟩ := e
      by_cases hn : n = name
      · subst hn
        rw [getOrInsertDir_here]
        rcases c with data | sub
        · rfl
        · show (f sub).map _ = none
          rw [h sub (by simp [subdir, child_cons]), Option.map_none]
      · rw [getOrInsertDir_skip hn, ih, Option.map_none]
        intro sub hsub
        apply h sub
        rw [subdir, child_cons, if_neg hn]
        exact hsub

/-- The names stay, in their order. -/
theorem getOrInsertDir_names {f : Entries → Option Entries} {name : Text} (entries : Entries) :
    ∀ entries', getOrInsertDir name f entries = some entries' →
      entries.map Prod.fst <+: entries'.map Prod.fst := by
  induction entries with
  | nil =>
      intro entries' _
      exact List.nil_prefix
  | cons e rest ih =>
      obtain ⟨n, c⟩ := e
      intro entries' h
      by_cases hn : n = name
      · subst hn
        rw [getOrInsertDir_here] at h
        rcases c with data | sub
        · exact absurd h (by simp)
        · obtain ⟨sub', -, rfl⟩ := Option.map_eq_some_iff.mp h
          exact List.prefix_rfl
      · rw [getOrInsertDir_skip hn] at h
        obtain ⟨rest', hrest, rfl⟩ := Option.map_eq_some_iff.mp h
        exact List.cons_prefix_cons.mpr ⟨rfl, ih rest' hrest⟩

/-- A directory and what became of it: it still is one, with the names it had. -/
def Grows (dir dir' : Entries) : Prop :=
  ∀ path sub, (Node.dir dir).find path = some (.dir sub) →
    ∃ sub', (Node.dir dir').find path = some (.dir sub') ∧ sub.map Prod.fst <+: sub'.map Prod.fst

theorem Grows.refl (dir : Entries) : Grows dir dir := fun _ sub h => ⟨sub, h, List.prefix_rfl⟩

/-- Names that are distinct afterwards were distinct before. -/
theorem Grows.distinct {dir dir' : Entries} (h : Grows dir dir') (hd : Distinct dir') :
    Distinct dir := by
  intro path sub hsub
  obtain ⟨sub', hsub', hnames⟩ := h path sub hsub
  exact (hd path sub' hsub').sublist hnames.sublist

section OneName

variable {dir dir' : Entries} {part : Text} {node : Node}

theorem grows_one (hchild : ∀ n, child dir' n = if part = n then some node else child dir n)
    (hnames : dir.map Prod.fst <+: dir'.map Prod.fst)
    (hnode : ∀ path sub, (child dir part).bind (fun c => c.find path) = some (.dir sub) →
      ∃ sub', node.find path = some (.dir sub') ∧ sub.map Prod.fst <+: sub'.map Prod.fst) :
    Grows dir dir' := by
  intro path sub hsub
  rcases path with - | ⟨n, path⟩
  · obtain rfl : dir = sub := by simpa using hsub
    exact ⟨dir', find_nil _, hnames⟩
  · rw [find_dir_cons] at hsub ⊢
    rw [hchild]
    by_cases hn : part = n
    · subst hn
      rw [if_pos rfl, Option.bind_some]
      exact hnode path sub hsub
    · rw [if_neg hn]
      exact ⟨sub, hsub, List.prefix_rfl⟩

end OneName

/-- What `insert` does with one member, when nothing is in its way. -/
structure Inserted (dir : Entries) (path : List Text) (e : Entry Bytes) (dir' : Entries) :
    Prop where
  entry : entryAt dir' = plant (entryAt dir) path e
  grows : Grows dir dir'
  distinct : Distinct dir' ↔ Distinct dir ∧ ¬ Shadowed (entryAt dir) path e

/-- The map below a name. -/
theorem needs_cons (part : Text) (rest : List Text) (e : Entry Bytes) (q : List Text) :
    needs (part :: rest) e (part :: q) = needs rest e q := by
  simp [needs, List.cons_prefix_cons]

theorem needs_cons_ne {part n : Text} (hn : part ≠ n) (rest : List Text) (e : Entry Bytes)
    (q : List Text) : needs (part :: rest) e (n :: q) = none := by
  rw [needs_eq_none]
  intro h
  exact hn (List.cons_prefix_cons.mp h).1.symm

section Below

variable {dir sub : Entries} {part : Text}

/-- What stands below a directory, there or about to be made. -/
theorem subdir_below (hsub : subdir dir part = some sub) :
    (∀ q, q ≠ [] → entryAt sub q = entryAt dir (part :: q)) ∧ (Distinct dir → Distinct sub) := by
  unfold subdir at hsub
  split at hsub
  · rename_i hnone
    obtain rfl := Option.some.inj hsub
    refine ⟨?_, fun _ => distinct_empty⟩
    intro q hq
    rw [entryAt_cons, hnone, entryAt_empty]
    rcases q with - | ⟨n, q⟩
    · exact absurd rfl hq
    · rfl
  · rename_i sub' hdir
    obtain rfl := Option.some.inj hsub
    refine ⟨?_, ?_⟩
    · intro q _
      rw [entryAt_cons, hdir]
      rfl
    · intro hd q sub'' hq
      apply hd (part :: q) sub''
      rw [find_dir_cons, hdir, Option.bind_some]
      exact hq
  · exact absurd hsub (by simp)

/-- The directory on the way is missing only where a file has its name. -/
theorem subdir_eq_none :
    subdir dir part = none ↔ ∃ data, entryAt dir [part] = some (.file data) := by
  unfold subdir
  rw [entryAt_cons]
  rcases child dir part with - | data | sub
  · simp
  · simp [Node.entry]
  · simp [Node.entry]

/-- A file on the way is the first directory's place, or on the way below it. -/
theorem blocked_cons {rest : List Text} (hrest : rest ≠ []) :
    Blocked (entryAt dir) (part :: rest) ↔
      subdir dir part = none ∨ ∃ sub, subdir dir part = some sub ∧ Blocked (entryAt sub) rest := by
  constructor
  · rintro ⟨q, data, hpre, hne, hq⟩
    rcases q with - | ⟨n, q⟩
    · rw [entryAt_nil] at hq
      exact absurd hq (by simp)
    · obtain ⟨rfl, hpre'⟩ := List.cons_prefix_cons.mp hpre
      rcases hsub : subdir dir n with - | sub
      · exact Or.inl rfl
      · refine Or.inr ⟨sub, rfl, q, data, hpre', ?_, ?_⟩
        · rintro rfl
          exact hne rfl
        · have hq' : q ≠ [] := by
            rintro rfl
            have hnone := subdir_eq_none.mpr ⟨data, hq⟩
            rw [hsub] at hnone
            exact absurd hnone (by simp)
          rw [(subdir_below hsub).1 q hq']
          exact hq
  · rintro (hnone | ⟨sub, hsub, q, data, hpre, hne, hq⟩)
    · obtain ⟨data, hdata⟩ := subdir_eq_none.mp hnone
      exact ⟨[part], data, List.cons_prefix_cons.mpr ⟨rfl, List.nil_prefix⟩,
        by simpa using Ne.symm hrest, hdata⟩
    · have hq' : q ≠ [] := by
        rintro rfl
        rw [entryAt_nil] at hq
        exact absurd hq (by simp)
      refine ⟨part :: q, data, List.cons_prefix_cons.mpr ⟨rfl, hpre⟩, ?_, ?_⟩
      · intro h
        exact hne (List.cons.inj h).2
      · rw [← (subdir_below hsub).1 q hq']
        exact hq

end Below

section Leaf

variable {dir : Entries} {leaf : Text} {e : Entry Bytes}

theorem child_push (n : Text) : child (dir ++ [(leaf, nodeOf e)]) n
    = (child dir n).or (if leaf = n then some (nodeOf e) else none) := by
  rw [child_append, child_cons]
  rfl

/-- A new entry at the end changes the map only where nothing stood. -/
theorem entryAt_push : entryAt (dir ++ [(leaf, nodeOf e)]) = plant (entryAt dir) [leaf] e := by
  funext q
  rcases q with - | ⟨n, q⟩
  · rfl
  · unfold plant
    rw [entryAt_cons, entryAt_cons, child_push]
    rcases child dir n with - | c
    · by_cases hn : leaf = n
      · subst hn
        rw [if_pos rfl, needs_cons]
        rcases q with - | ⟨m, q⟩
        · simp [entry_nodeOf]
        · simp [needs, find_nodeOf_cons]
      · rw [if_neg hn, needs_cons_ne hn]
        rfl
    · rcases q with - | ⟨m, q⟩
      · simp
      · have hneeds : needs [leaf] e (n :: m :: q) = none := by
          rw [needs_eq_none]
          intro h
          have hnil := (List.cons_prefix_cons.mp h).2
          exact absurd (List.prefix_nil.mp hnil) (by simp)
        rw [hneeds, Option.or_none]
        rfl

theorem grows_push : Grows dir (dir ++ [(leaf, nodeOf e)]) := by
  intro path sub hfind
  rcases path with - | ⟨n, path⟩
  · obtain rfl : dir = sub := by simpa using hfind
    refine ⟨_, find_nil _, ?_⟩
    rw [List.map_append]
    exact List.prefix_append _ _
  · rw [find_dir_cons] at hfind ⊢
    rw [child_push]
    rcases hc : child dir n with - | c
    · rw [hc] at hfind
      exact absurd hfind (by simp)
    · rw [hc] at hfind
      exact ⟨sub, hfind, List.prefix_rfl⟩

/-- The names stay distinct exactly when the name was free. -/
theorem distinct_push :
    Distinct (dir ++ [(leaf, nodeOf e)]) ↔ Distinct dir ∧ child dir leaf = none := by
  constructor
  · intro hd
    refine ⟨grows_push.distinct hd, ?_⟩
    have hnames := hd [] _ (find_nil _)
    rw [List.map_append, List.nodup_append] at hnames
    rw [child_eq_none]
    intro hmem
    exact hnames.2.2 leaf hmem leaf (by simp) rfl
  · rintro ⟨hd, hnew⟩
    have hchild : ∀ n, child (dir ++ [(leaf, nodeOf e)]) n
        = if leaf = n then some (nodeOf e) else child dir n := by
      intro n
      rw [child_push]
      by_cases hn : leaf = n
      · subst hn
        rw [hnew, if_pos rfl]
        rfl
      · rw [if_neg hn, if_neg hn, Option.or_none]
    refine distinct_one hchild ?_ (distinct_nodeOf e) hd
    rw [List.map_append, List.nodup_append]
    refine ⟨hd [] dir (find_nil _), by simp, ?_⟩
    intro a ha b hb
    obtain rfl : b = leaf := by simpa using hb
    rintro rfl
    exact child_eq_none.mp hnew ha

/-- The last component. -/
theorem inserted_leaf (dir : Entries) (leaf : Text) (e : Entry Bytes) :
    ∃ dir', insertParts (nodeOf e) [leaf] dir = some dir' ∧ Inserted dir [leaf] e dir' := by
  have hentry : entryAt dir [leaf] = none ↔ child dir leaf = none := by
    rw [entryAt_cons]
    rcases child dir leaf with - | c
    · simp
    · simp
  by_cases hkeep : (nodeOf e).isDir = true ∧ child dir leaf ≠ none
  · -- A directory where something stands already.
    obtain ⟨hdir, htaken⟩ := hkeep
    have he : e = .dir := by
      rcases e with - | data
      · rfl
      · exact absurd hdir (by simp [nodeOf, Node.isDir])
    refine ⟨dir, ?_, ?_, Grows.refl dir, ?_⟩
    · rw [insertParts, any_name, Option.isSome_iff_ne_none.mpr htaken, hdir]
      rfl
    · funext q
      unfold plant
      rcases hq : entryAt dir q with - | d
      · have hneeds : needs [leaf] e q = none := by
          rw [needs_eq_none]
          intro hpre
          rcases q with - | ⟨n, q⟩
          · rw [entryAt_nil] at hq
            exact absurd hq (by simp)
          · obtain ⟨rfl, hnil⟩ := List.cons_prefix_cons.mp hpre
            rw [List.prefix_nil.mp hnil] at hq
            exact htaken (hentry.mp hq)
        rw [hneeds]
        rfl
      · rfl
    · rw [iff_self_and]
      rintro - ⟨-, ⟨data, hdata⟩, -⟩
      rw [he] at hdata
      exact absurd hdata (by simp)
  · refine ⟨dir ++ [(leaf, nodeOf e)], ?_, entryAt_push, grows_push, ?_⟩
    · rw [insertParts, if_neg]
      rw [Bool.and_eq_true, any_name, Option.isSome_iff_ne_none]
      exact hkeep
    · rw [distinct_push]
      refine and_congr_right fun _ => ?_
      rw [← hentry]
      constructor
      · rintro hnone ⟨-, -, hne⟩
        exact hne hnone
      · intro hnot
        by_contra hne
        rcases e with - | data
        · exact hkeep ⟨rfl, fun h => hne (hentry.mpr h)⟩
        · exact hnot ⟨by simp, ⟨data, rfl⟩, hne⟩

end Leaf

theorem not_blocked_leaf (dir : Entries) (leaf : Text) : ¬ Blocked (entryAt dir) [leaf] := by
  rintro ⟨q, data, hpre, hne, hq⟩
  rcases q with - | ⟨n, q⟩
  · rw [entryAt_nil] at hq
    exact absurd hq (by simp)
  · obtain ⟨rfl, hnil⟩ := List.cons_prefix_cons.mp hpre
    rw [List.prefix_nil.mp hnil] at hne
    exact hne rfl

/-- What stands where, once a member is put in below a directory. -/
theorem entryAt_below {dir dir' sub sub' : Entries} {part : Text} {rest : List Text}
    {e : Entry Bytes} (hrest : rest ≠ []) (hsub : subdir dir part = some sub)
    (hchild : ∀ n, child dir' n = if part = n then some (.dir sub') else child dir n)
    (hentry : entryAt sub' = plant (entryAt sub) rest e) :
    entryAt dir' = plant (entryAt dir) (part :: rest) e := by
  funext q
  rcases q with - | ⟨n, q⟩
  · rfl
  unfold plant
  rw [entryAt_cons, hchild]
  by_cases hn : part = n
  · subst hn
    rw [if_pos rfl, Option.bind_some, needs_cons]
    show entryAt sub' q = _
    rw [hentry, plant]
    rcases eq_or_ne q [] with rfl | hq
    · -- The directory itself is there now, whether it was there or not.
      have hneeds : needs rest e [] = some .dir := by
        unfold needs
        rw [if_neg (Ne.symm hrest), if_pos List.nil_prefix]
      rw [hneeds, entryAt_nil]
      unfold subdir at hsub
      rw [entryAt_cons]
      rcases hc : child dir part with - | data | sub₁
      · rfl
      · rw [hc] at hsub
        exact absurd hsub (by simp)
      · rfl
    · rw [(subdir_below hsub).1 q hq]
  · rw [if_neg hn, needs_cons_ne hn, Option.or_none, entryAt_cons]

theorem shadowed_below {dir sub : Entries} {part : Text} {rest : List Text} {e : Entry Bytes}
    (hrest : rest ≠ []) (hsub : subdir dir part = some sub) :
    Shadowed (entryAt dir) (part :: rest) e ↔ Shadowed (entryAt sub) rest e := by
  unfold Shadowed
  rw [(subdir_below hsub).1 rest hrest]
  simp [hrest]

/-- A component on the way. -/
theorem inserted_cons {dir sub sub' : Entries} {part : Text} {rest : List Text} {e : Entry Bytes}
    (hrest : rest ≠ []) (hsub : subdir dir part = some sub)
    (heq : insertParts (nodeOf e) rest sub = some sub') (h : Inserted sub rest e sub') :
    ∃ dir', getOrInsertDir part (insertParts (nodeOf e) rest) dir = some dir' ∧
      Inserted dir (part :: rest) e dir' := by
  obtain ⟨dir', hdir', hchild, hnodup⟩ := getOrInsertDir_spec heq dir hsub
  have hgrows : Grows dir dir' := by
    refine grows_one hchild (getOrInsertDir_names dir dir' hdir') ?_
    intro path sub₀ hfind
    unfold subdir at hsub
    rcases hc : child dir part with - | data | sub₁
    · rw [hc] at hfind
      exact absurd hfind (by simp)
    · rw [hc] at hsub
      exact absurd hsub (by simp)
    · rw [hc] at hfind hsub
      obtain rfl : sub₁ = sub := Option.some.inj hsub
      exact h.grows path sub₀ hfind
  refine ⟨dir', hdir', entryAt_below hrest hsub hchild h.entry, hgrows, ?_⟩
  rw [shadowed_below hrest hsub]
  constructor
  · intro hd
    have hd' : Distinct sub' := by
      intro q sub'' hq
      apply hd (part :: q) sub''
      rw [find_dir_cons, hchild, if_pos rfl, Option.bind_some]
      exact hq
    exact ⟨hgrows.distinct hd, (h.distinct.mp hd').2⟩
  · rintro ⟨hd, hnot⟩
    have hd' := h.distinct.mpr ⟨(subdir_below hsub).2 hd, hnot⟩
    exact distinct_one hchild (hnodup (hd [] dir (find_nil _))) hd' hd

/-- A file in the way is a panic. -/
theorem insertParts_blocked (e : Entry Bytes) (path : List Text) : ∀ dir : Entries,
    Blocked (entryAt dir) path → insertParts (nodeOf e) path dir = none := by
  induction path with
  | nil =>
      rintro dir ⟨q, data, hpre, hne, -⟩
      exact absurd (List.prefix_nil.mp hpre) hne
  | cons part rest ih =>
      intro dir hblocked
      rcases eq_or_ne rest [] with rfl | hrest
      · exact absurd hblocked (not_blocked_leaf dir part)
      have hwalk : insertParts (nodeOf e) (part :: rest) dir
          = getOrInsertDir part (insertParts (nodeOf e) rest) dir := by
        obtain ⟨r, rs, rfl⟩ := List.exists_cons_of_ne_nil hrest
        rfl
      rw [hwalk]
      apply getOrInsertDir_none
      intro sub hsub
      rcases (blocked_cons hrest).mp hblocked with hnone | ⟨sub', hsub', hblocked'⟩
      · rw [hnone] at hsub
        exact absurd hsub (by simp)
      · rw [hsub] at hsub'
        obtain rfl := Option.some.inj hsub'
        exact ih sub hblocked'

/-- **Insertion.**  Everything else goes in. -/
theorem insertParts_inserted (e : Entry Bytes) (path : List Text) : ∀ dir : Entries,
    ¬ Blocked (entryAt dir) path →
      ∃ dir', insertParts (nodeOf e) path dir = some dir' ∧ Inserted dir path e dir' := by
  induction path with
  | nil =>
      intro dir _
      refine ⟨dir, rfl, ?_, Grows.refl dir, ?_⟩
      · funext q
        unfold plant
        rcases q with - | ⟨n, q⟩
        · rfl
        · rw [needs_eq_none.mpr (by simp), Option.or_none]
      · rw [iff_self_and]
        rintro - ⟨hne, -, -⟩
        exact hne rfl
  | cons part rest ih =>
      intro dir hfree
      rcases eq_or_ne rest [] with rfl | hrest
      · exact inserted_leaf dir part e
      rw [blocked_cons hrest, not_or, not_exists] at hfree
      obtain ⟨hdir, hbelow⟩ := hfree
      obtain ⟨sub, hsub⟩ := Option.ne_none_iff_exists'.mp hdir
      obtain ⟨sub', heq, hins⟩ := ih sub fun hblocked => hbelow sub ⟨hsub, hblocked⟩
      obtain ⟨dir', hdir', hins'⟩ := inserted_cons hrest hsub heq hins
      refine ⟨dir', ?_, hins'⟩
      obtain ⟨r, rs, rfl⟩ := List.exists_cons_of_ne_nil hrest
      exact hdir'

theorem not_shadowed {f : List Text → Option (Entry Bytes)} {path : List Text} {e : Entry Bytes}
    (h : Admits f path e) : ¬ Shadowed f path e := by
  rintro ⟨-, ⟨data, rfl⟩, hne⟩
  rcases h.place with hnone | ⟨hdir, -⟩
  · exact hne hnone
  · exact absurd hdir (by simp)

/-- Where the tree admits a member, `insert` adds that member and the directories on the
way to it, and keeps names distinct. -/
theorem insertParts_spec {e : Entry Bytes} {path : List Text} {dir : Entries}
    (hadmits : Admits (entryAt dir) path e) :
    ∃ dir', insertParts (nodeOf e) path dir = some dir' ∧
      entryAt dir' = grow (entryAt dir) path e ∧ (Distinct dir → Distinct dir') := by
  obtain ⟨dir', heq, hins⟩ := insertParts_inserted e path dir hadmits.not_blocked
  refine ⟨dir', heq, hins.entry.trans hadmits.grow_eq.symm, ?_⟩
  exact fun hd => hins.distinct.mpr ⟨hd, not_shadowed hadmits⟩

/-! ### All of them -/

abbrev Member := List Text × Entry Bytes

/-- The members one after another. -/
def insertAll (root : Entries) (ms : List Member) : Option Entries :=
  ms.foldlM (fun root m => insertParts (nodeOf m.2) m.1 root) root

theorem insertAll_cons {root root' : Entries} {m : Member}
    (heq : insertParts (nodeOf m.2) m.1 root = some root') (ms : List Member) :
    insertAll root (m :: ms) = insertAll root' ms := by
  rw [insertAll, List.foldlM_cons, heq]
  rfl

theorem insertAll_cons_none {root : Entries} {m : Member}
    (heq : insertParts (nodeOf m.2) m.1 root = none) (ms : List Member) :
    insertAll root (m :: ms) = none := by
  rw [insertAll, List.foldlM_cons, heq]
  rfl

/-- What stands where, once some members are in. -/
def planted (f : List Text → Option (Entry Bytes)) (ms : List Member) :
    List Text → Option (Entry Bytes) :=
  fun q => (f q).or (firstNeed ms q)

theorem planted_nil (f : List Text → Option (Entry Bytes)) : planted f [] = f :=
  funext fun _ => Option.or_none

theorem planted_cons (f : List Text → Option (Entry Bytes)) (m : Member) (ms : List Member) :
    planted (plant f m.1 m.2) ms = planted f (m :: ms) := by
  funext q
  exact (foldl_plant ms (plant f m.1 m.2) q).symm.trans (foldl_plant (m :: ms) f q)

/-- For every way to split a list. -/
theorem forall_split_cons {m : Member} {ms : List Member} {P : List Member → Member → Prop} :
    (∀ pre m' post, m :: ms = pre ++ m' :: post → P pre m') ↔
      P [] m ∧ ∀ pre m' post, ms = pre ++ m' :: post → P (m :: pre) m' := by
  constructor
  · intro h
    refine ⟨h [] m ms rfl, ?_⟩
    rintro pre m' post rfl
    exact h (m :: pre) m' post rfl
  · rintro ⟨hfirst, hrest⟩ pre m' post heq
    rcases pre with - | ⟨m₀, pre⟩
    · obtain ⟨rfl, -⟩ := List.cons.inj heq
      exact hfirst
    · obtain ⟨rfl, heq'⟩ := List.cons.inj heq
      exact hrest pre m' post heq'

/-- They go in exactly when no member finds a file in its way. -/
theorem insertAll_isSome_iff (ms : List Member) : ∀ root : Entries,
    (insertAll root ms).isSome = true ↔
      ∀ pre m post, ms = pre ++ m :: post → ¬ Blocked (planted (entryAt root) pre) m.1 := by
  induction ms with
  | nil =>
      intro root
      refine iff_of_true rfl ?_
      intro pre m post h
      exact absurd h (by simp)
  | cons m ms ih =>
      intro root
      rw [forall_split_cons, planted_nil]
      by_cases hblocked : Blocked (entryAt root) m.1
      · refine iff_of_false ?_ fun h => h.1 hblocked
        rw [insertAll_cons_none (insertParts_blocked m.2 m.1 root hblocked)]
        simp
      · obtain ⟨root', heq, hins⟩ := insertParts_inserted m.2 m.1 root hblocked
        have hrest := ih root'
        rw [hins.entry] at hrest
        simp only [planted_cons] at hrest
        rw [insertAll_cons heq, hrest]
        exact (and_iff_right hblocked).symm

/-- What the tree is then. -/
theorem insertAll_spec (ms : List Member) : ∀ root root' : Entries,
    insertAll root ms = some root' →
      entryAt root' = planted (entryAt root) ms ∧
      (Distinct root' ↔ Distinct root ∧ ∀ pre m post, ms = pre ++ m :: post →
        ¬ Shadowed (planted (entryAt root) pre) m.1 m.2) := by
  induction ms with
  | nil =>
      intro root root' h
      obtain rfl : root = root' := Option.some.inj h
      refine ⟨(planted_nil _).symm, ?_⟩
      rw [iff_self_and]
      intro _ pre m post h
      exact absurd h (by simp)
  | cons m ms ih =>
      intro root final h
      rw [forall_split_cons, planted_nil]
      by_cases hblocked : Blocked (entryAt root) m.1
      · rw [insertAll_cons_none (insertParts_blocked m.2 m.1 root hblocked)] at h
        exact absurd h (by simp)
      · obtain ⟨root', heq, hins⟩ := insertParts_inserted m.2 m.1 root hblocked
        rw [insertAll_cons heq] at h
        obtain ⟨hentry, hdist⟩ := ih root' final h
        rw [hins.entry, planted_cons] at hentry
        rw [hins.entry] at hdist
        simp only [planted_cons] at hdist
        exact ⟨hentry, by rw [hdist, hins.distinct, and_assoc]⟩

end Ramfs

end Amaterasu
