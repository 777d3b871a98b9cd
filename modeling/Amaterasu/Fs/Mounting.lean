/-
Archives of trees and archives of anything, read by the parser as it runs.

`parse_archive` builds the tree of an archive with a count of files that never ends.  The
count of `parse_ustar` is an `i32`, and the files that it counts are those of the tree
(`files_members`), so the round trip holds exactly of the trees with fewer than 2^31 of them
(`archive_round_trip`): at the last one the count overflows (`crowded_archive_panics`).
-/
import Amaterasu.Fs.Checked

namespace Amaterasu

namespace Ramfs

open PathTree Checked

/-! ### The members of the archive of a tree -/

section Member

variable {path : List Text} {e : Entry Bytes} {header pre post pad : Bytes}

/-- A member of the archive is a member that is read, unless it stands for the root. -/
theorem memberOf_header (hheader : Header path e header) (hvalid : ∀ s ∈ path, ValidName s)
    (hne : path ≠ []) : memberOf (pre ++ (e.bytes ++ post)) pre.length header = some (path, e) := by
  have hentry : (if header.getD TYPE_OFF 0 = 0x35 then Entry.dir else .file e.bytes) = e := by
    have htype := hheader.typeflag
    rcases e with - | data
    · exact if_pos htype
    · rw [if_neg]
      · rfl
      · intro h
        rw [h] at htype
        rcases htype with h | h
        · exact absurd h (by decide)
        · exact absurd h (by decide)
  unfold memberOf
  simp only [hheader.parseOctal_size, data_slice, hentry]
  rw [memberName_of_ne hheader hne hvalid,
    if_pos ⟨joinPath_ne_nil hne hvalid, joinPath_ne_dot hne hvalid⟩, components_joinPath hne hvalid]

theorem memberOf_root (hheader : Header [] e header) (data : Bytes) (offset : Nat) :
    memberOf data offset header = none := by
  unfold memberOf
  dsimp only
  rw [memberName_root hheader, if_neg (by simp)]

theorem membersFrom_member (hheader : Header path e header)
    (hpad : e.bytes.length + pad.length = (e.bytes.length + BLOCK - 1) / BLOCK * BLOCK) :
    membersFrom (pre ++ (header ++ (e.bytes ++ (pad ++ post)))) pre.length
      = (memberOf ((pre ++ header) ++ (e.bytes ++ (pad ++ post))) (pre ++ header).length
          header).toList ++ membersFrom ((pre ++ (header ++ (e.bytes ++ pad))) ++ post)
            (pre ++ (header ++ (e.bytes ++ pad))).length := by
  have hblock := hheader.length
  have hread : slice (pre ++ (header ++ (e.bytes ++ (pad ++ post)))) pre.length BLOCK = header := by
    rw [← hblock]
    exact slice_append _ _ _
  have hnext : pre.length + BLOCK + (e.bytes.length + BLOCK - 1) / BLOCK * BLOCK
      = (pre ++ (header ++ (e.bytes ++ pad))).length := by
    simp only [List.length_append]
    omega
  rw [membersFrom, dif_pos (by simp only [List.length_append]; omega)]
  simp only [hread, hheader.not_zero, hheader.magic, hheader.parseOctal_size, hnext, ne_eq,
    not_true_eq_false, if_false, Bool.false_eq_true]
  simp only [List.append_assoc, List.length_append, hblock]

theorem membersFrom_end {rest : Bytes} (h : Archive [] rest) :
    membersFrom (pre ++ rest) pre.length = [] := by
  rw [membersFrom]
  by_cases hfit : pre.length + BLOCK ≤ (pre ++ rest).length
  · rw [dif_pos hfit]
    exact if_pos (archive_end h hfit)
  · rw [dif_neg hfit]

end Member

/-- The files that the parser counts are those of the listing. -/
theorem files_membersFrom {ms : List Member} {rest : Bytes} (harchive : Archive ms rest) :
    ∀ pre : Bytes, (∀ m ∈ ms, (m.1 = [] → m.2 = .dir) ∧ ∀ s ∈ m.1, ValidName s) →
      files (membersFrom (pre ++ rest) pre.length) = files ms := by
  induction harchive with
  | endOfData h =>
      intro pre _
      rw [membersFrom_end (.endOfData h)]
  | zeroBlock rest =>
      intro pre _
      rw [membersFrom_end (.zeroBlock rest)]
  | @member path e ms header pad rest hheader hpad hrest ih =>
      intro pre hms
      obtain ⟨hroot, hvalid⟩ := hms (path, e) List.mem_cons_self
      have hrest := ih (pre ++ (header ++ (e.bytes ++ pad))) fun m hm =>
        hms m (List.mem_cons_of_mem _ hm)
      rw [membersFrom_member hheader hpad, files_cons, ← hrest]
      rcases eq_or_ne path [] with rfl | hne
      · rw [memberOf_root hheader, Option.toList_none, List.nil_append, if_pos (hroot rfl),
          Nat.add_zero]
      · rw [memberOf_header hheader hvalid hne, Option.toList_some, List.singleton_append,
          files_cons]

theorem files_members {T : FileTree} {ms : List Member} {data : Bytes} (hlists : T.Lists ms)
    (harchive : Archive ms data) : files (members data) = files ms := by
  refine files_membersFrom harchive [] fun m hm => ?_
  have hnode := hlists.node m hm
  refine ⟨fun hnil => ?_, T.names m.1 (by rw [hnode]; exact Option.some_ne_none _)⟩
  rw [hnil, T.root] at hnode
  exact (Option.some.inj hnode).symm

/-- The parser returns unless there are too many files to count. -/
theorem parseUstar_archive {T : FileTree} {ms : List Member} {data : Slice} (hlists : T.Lists ms)
    (harchive : Archive ms data.bytes) : Checked.parseUstar data.bytes
      = if files ms < 2 ^ 31 then Ramfs.parseUncounted data.bytes else none := by
  rw [parseUstar_eq data.length_lt, files_members hlists harchive]

end Ramfs

open Ramfs

/--
**Archive round trip.**  Whatever the order of the members, parsing the archive of a
tree and mounting the result gives a VFS that answers as the tree, exactly when the files
are few enough to count: a path is found exactly when it names a node other than the root,
a file has its bytes, and a directory lists its children.
-/
theorem archive_round_trip {T : FileTree} {ms : List (List Text × Entry Bytes)}
    {data : Checked.Slice} (hlists : T.Lists ms) (harchive : Archive ms data.bytes) :
    (∃ tree, Checked.parseUstar data.bytes = some tree ∧
      T.Mounted (Vfs.mount (Node.dir tree).toVNode)) ↔ Checked.files ms < 2 ^ 31 := by
  rw [parseUstar_archive hlists harchive]
  constructor
  · rintro ⟨tree, hparse, -⟩
    by_contra hmany
    rw [if_neg hmany] at hparse
    exact absurd hparse (by simp)
  · intro hfew
    obtain ⟨tree, hparse, hentry, hdist⟩ := parse_archive hlists harchive
    rw [if_pos hfew]
    exact ⟨tree, hparse, mounted_of_entryAt hentry hdist⟩

def demoSlice (bytes : Bytes) (h : bytes.length < 2 ^ 40) : Checked.Slice :=
  ⟨bytes, Nat.lt_trans h (by decide)⟩

theorem demo_length : (demoHeader ++ ([0x41] ++ (List.replicate 511 0 ++ []))).length < 2 ^ 40 := by
  simp only [List.length_append, demo_header.length, List.length_replicate]
  decide

/-- The archive of one file, cut off behind its data. -/
theorem archive_round_trip_one_file :
    (∃ tree, Checked.parseUstar (demoSlice _ demo_length).bytes = some tree ∧
      demoTree.Mounted (Vfs.mount (Node.dir tree).toVNode)) ∧
        Checked.files [([['d'], ['a']], .file [0x41])] < 2 ^ 31 := by
  have hfew : Checked.files [([['d'], ['a']], .file [0x41])] < 2 ^ 31 := by decide
  have harchive : Archive [([['d'], ['a']], .file [0x41])] (demoSlice _ demo_length).bytes :=
    .member demo_header (by rw [List.length_replicate]; decide) (.endOfData (by decide))
  exact ⟨(archive_round_trip demo_lists harchive).mpr hfew, hfew⟩

namespace Ramfs

/-! ### More files than can be counted -/

/-- The words of some length over two letters. -/
def words : Nat → List Text
  | 0 => [[]]
  | k + 1 => (words k).map ('a' :: ·) ++ (words k).map ('b' :: ·)

theorem length_words (k : Nat) : (words k).length = 2 ^ k := by
  induction k with
  | zero => rfl
  | succ k ih =>
      rw [words, List.length_append, List.length_map, List.length_map, ih, Nat.pow_succ]
      omega

theorem words_nodup (k : Nat) : (words k).Nodup := by
  induction k with
  | zero => exact List.nodup_singleton _
  | succ k ih =>
      rw [words, List.nodup_append]
      refine ⟨ih.map (List.cons_injective), ih.map (List.cons_injective), ?_⟩
      rintro s hs t ht rfl
      obtain ⟨u, -, rfl⟩ := List.mem_map.mp hs
      obtain ⟨v, -, hv⟩ := List.mem_map.mp ht
      exact absurd (List.cons.inj hv).1 (by decide)

theorem mem_words {k : Nat} {s : Text} (h : s ∈ words k) :
    s.length = k ∧ ∀ c ∈ s, c = 'a' ∨ c = 'b' := by
  induction k generalizing s with
  | zero =>
      rw [List.mem_singleton.mp h]
      exact ⟨rfl, fun c hc => absurd hc List.not_mem_nil⟩
  | succ k ih =>
      have hcons : ∀ (c : Char) (t : Text), c = 'a' ∨ c = 'b' → t ∈ words k →
          (c :: t).length = k + 1 ∧ ∀ d ∈ c :: t, d = 'a' ∨ d = 'b' := by
        intro c t hc ht
        obtain ⟨hlen, hletters⟩ := ih ht
        exact ⟨by rw [List.length_cons, hlen], List.forall_mem_cons.mpr ⟨hc, hletters⟩⟩
      rw [words, List.mem_append, List.mem_map, List.mem_map] at h
      rcases h with ⟨t, ht, rfl⟩ | ⟨t, ht, rfl⟩
      · exact hcons 'a' t (Or.inl rfl) ht
      · exact hcons 'b' t (Or.inr rfl) ht

/-- A name of a few letters. -/
structure PlainName (s : Text) : Prop where
  letters : ∀ c ∈ s, c = 'a' ∨ c = 'b'
  nonempty : s ≠ []
  short : (Text.encode s).length ≤ NAME_LEN

theorem PlainName.valid {s : Text} (h : PlainName s) : ValidName s := by
  have hnot : ∀ c ∈ s, c ≠ '.' ∧ c ≠ '/' ∧ c ≠ '\x00' := by
    intro c hc
    rcases h.letters c hc with rfl | rfl
    · decide
    · decide
  refine ⟨h.nonempty, ?_, ?_, ?_, ?_⟩
  · rintro rfl
    exact (hnot '.' (by simp)).1 rfl
  · rintro rfl
    exact (hnot '.' (by simp)).1 rfl
  · intro hc
    exact (hnot _ hc).2.1 rfl
  · intro hc
    exact (hnot _ hc).2.2 rfl

/-- A root directory of empty files. -/
def flatTree (names : List Text) (h : ∀ s ∈ names, PlainName s) : FileTree where
  node p :=
    if p = [] then some .dir
    else if p ∈ names.map ([·]) then some (.file []) else none
  root := if_pos rfl
  closed := by
    intro p n hnode
    rcases p with - | ⟨m, p⟩
    · exact if_pos rfl
    · rw [if_neg (by simp), if_neg] at hnode
      · exact absurd rfl hnode
      · intro hmem
        obtain ⟨s, -, hs⟩ := List.mem_map.mp hmem
        simp at hs
  names := by
    intro p hnode s hs
    rcases eq_or_ne p [] with rfl | hne
    · exact absurd hs List.not_mem_nil
    · rw [if_neg hne] at hnode
      by_cases hmem : p ∈ names.map ([·])
      · obtain ⟨name, hname, rfl⟩ := List.mem_map.mp hmem
        rw [List.mem_singleton.mp hs]
        exact (h name hname).valid
      · rw [if_neg hmem] at hnode
        exact absurd rfl hnode

def flatMembers (names : List Text) : List Member := names.map fun s => ([s], .file [])

theorem flat_lists {names : List Text} (h : ∀ s ∈ names, PlainName s) (hnodup : names.Nodup) :
    (flatTree names h).Lists (flatMembers names) where
  node := by
    intro m hm
    obtain ⟨s, hs, rfl⟩ := List.mem_map.mp hm
    show (if [s] = [] then some Entry.dir
      else if [s] ∈ names.map ([·]) then some (.file []) else none) = _
    rw [if_neg (by simp), if_pos (List.mem_map.mpr ⟨s, hs, rfl⟩)]
  once := by
    rw [flatMembers, List.map_map]
    exact hnodup.map fun s t heq => (List.cons.inj heq).1
  all := by
    intro p hne hnode
    have hmem : p ∈ names.map ([·]) := by
      by_contra hmem
      apply hnode
      show (if p = [] then some Entry.dir
        else if p ∈ names.map ([·]) then some (.file []) else none) = _
      rw [if_neg hne, if_neg hmem]
    obtain ⟨s, hs, rfl⟩ := List.mem_map.mp hmem
    exact ⟨([s], .file []), List.mem_map.mpr ⟨s, hs, rfl⟩, List.prefix_rfl⟩

/-- What stands behind the mode of an empty file: its size first. -/
def plainFields : Bytes :=
  List.replicate 12 0x30 ++ (List.replicate 20 0 ++ (0x30 ::
    (List.replicate 100 0 ++ (MAGIC ++ List.replicate 250 0))))

/-- The header of an empty file. -/
def plainHeader (s : Text) : Bytes :=
  (Text.encode s ++ List.replicate (124 - (Text.encode s).length) 0) ++ plainFields

theorem plain_header {s : Text} (h : PlainName s) : Header [s] (.file []) (plainHeader s) := by
  have hshort : (Text.encode s).length ≤ 100 := h.short
  have hlen : (Text.encode s ++ List.replicate (124 - (Text.encode s).length) (0 : UInt8)).length
      = 124 := by
    rw [List.length_append, List.length_replicate]
    omega
  have hskip : ∀ k, (plainHeader s).drop (124 + k) = plainFields.drop k := by
    intro k
    rw [plainHeader, List.drop_append, hlen, List.drop_eq_nil_of_le, List.nil_append,
      Nat.add_sub_cancel_left]
    rw [hlen]
    exact Nat.le_add_right _ _
  refine ⟨?_, ⟨s, 100 - (Text.encode s).length, ?_, ?_⟩, ⟨List.replicate 12 '0', ?_, ?_⟩,
    ?_, ?_, ?_⟩
  · rw [plainHeader, List.length_append, hlen]
    simp only [plainFields, List.length_append, List.length_replicate, List.length_cons]
    decide
  · have hstored := @StoredName.file [s] [] [] (by simp) (by decide)
    rwa [joinPath_singleton, List.nil_append] at hstored
  · rw [slice, plainHeader]
    show List.take 100 (List.drop 0 _) = _
    rw [List.drop_zero, List.append_assoc, List.take_append, List.take_of_length_le hshort,
      List.take_append_of_le_length, List.take_replicate, Nat.min_eq_left (by omega)]
    rw [List.length_replicate]
    omega
  · refine ⟨0, List.replicate 12 '0', 0, 0, rfl, by decide, fun c hc => ?_, by decide⟩
    rw [(List.mem_replicate.mp hc).2]
    exact ⟨Nat.le_refl _, by decide⟩
  · rw [slice, show SIZE_OFF = 124 + 0 from rfl, hskip]
    decide
  · refine Or.inl ?_
    rw [List.getD_eq_getElem?_getD, ← List.head?_drop, show TYPE_OFF = 124 + 32 from rfl, hskip]
    decide
  · rw [slice, show MAGIC_OFF = 124 + 133 from rfl, hskip]
    decide
  · rw [slice, show 345 = 124 + 221 from rfl, hskip]
    decide

def flatArchive (names : List Text) : Bytes := names.flatMap plainHeader

theorem flat_archive {names : List Text} (h : ∀ s ∈ names, PlainName s) :
    Archive (flatMembers names) (flatArchive names) := by
  induction names with
  | nil => exact .endOfData (by decide)
  | cons s names ih =>
      have hrest := ih fun t ht => h t (List.mem_cons_of_mem _ ht)
      have hpad : (Entry.file []).bytes.length + ([] : Bytes).length
          = ((Entry.file []).bytes.length + BLOCK - 1) / BLOCK * BLOCK := rfl
      exact .member (plain_header (h s List.mem_cons_self)) hpad hrest

theorem length_flatArchive {names : List Text} (h : ∀ s ∈ names, PlainName s) :
    (flatArchive names).length = names.length * BLOCK := by
  induction names with
  | nil => rfl
  | cons s names ih =>
      rw [flatArchive, List.flatMap_cons, List.length_append,
        (plain_header (h s List.mem_cons_self)).length, List.length_cons, Nat.succ_mul,
        Nat.add_comm]
      exact congrArg (· + BLOCK) (ih fun t ht => h t (List.mem_cons_of_mem _ ht))

theorem files_flatMembers (names : List Text) :
    Checked.files (flatMembers names) = names.length := by
  rw [Checked.files, flatMembers, List.countP_map, List.countP_eq_length.mpr]
  intro s _
  rfl

theorem words_plain {k : Nat} (hpos : k ≠ 0) (hk : k ≤ 100) : ∀ s ∈ words k, PlainName s := by
  intro s hs
  obtain ⟨hlen, hletters⟩ := mem_words hs
  have hbytes : ∀ c ∈ s, c.utf8Size = 1 := by
    intro c hc
    rcases hletters c hc with rfl | rfl
    · rfl
    · rfl
  refine ⟨hletters, ?_, ?_⟩
  · rintro rfl
    exact hpos hlen.symm
  · rw [Text.length_encode, Text.byteLen_eq_length hbytes, hlen]
    exact hk

theorem crowded_plain : ∀ s ∈ words 31, PlainName s := words_plain (by decide) (by decide)

theorem crowded_length : (flatArchive (words 31)).length < 2 ^ 63 := by
  rw [length_flatArchive crowded_plain, length_words]
  decide

/-- A file for every word of 31 letters. -/
def crowded : Checked.Slice := ⟨flatArchive (words 31), crowded_length⟩

/-- At the last of them the count overflows. -/
theorem crowded_archive_panics :
    (flatTree (words 31) crowded_plain).Lists (flatMembers (words 31)) ∧
      Archive (flatMembers (words 31)) crowded.bytes ∧
        Checked.parseUstar crowded.bytes = none := by
  have hlists := flat_lists crowded_plain (words_nodup 31)
  have harchive : Archive (flatMembers (words 31)) crowded.bytes := flat_archive crowded_plain
  refine ⟨hlists, harchive, ?_⟩
  rw [parseUstar_archive hlists harchive, files_flatMembers, length_words, if_neg]
  exact Nat.lt_irrefl _

/-! ### Archives of anything -/

theorem parse_of_checked {data : Checked.Slice} {tree : Entries}
    (h : Checked.parseUstar data.bytes = some tree) :
    Ramfs.parseUncounted data.bytes = some tree := by
  rw [Checked.parseUstar_eq data.length_lt] at h
  split at h
  · exact h
  · exact absurd h (by simp)

/-- **The names of every directory are distinct, and later files win, exactly when no file
comes to a path that is taken.** -/
theorem directories_unique_iff {data : Checked.Slice} {tree : Entries}
    (hparse : Checked.parseUstar data.bytes = some tree) :
    ((∀ sub, DirOf tree sub → Unique sub) ∧ LaterWins (members data.bytes) tree) ↔
      FreshFiles (members data.bytes) := by
  rw [← distinct_iff, distinct_iff_freshFiles (parse_of_checked hparse)]
  refine and_iff_left_of_imp ?_
  intro h pre p d post hsplit hbefore
  obtain ⟨d', hd'⟩ := hbefore
  exact absurd List.prefix_rfl (h pre p d post hsplit _ hd')

theorem length_demoMember (b : UInt8) : (demoMember b).length = 1024 := by
  simp only [demoMember, List.length_append, demo_header.length, List.length_replicate]
  simp only [List.length_cons, List.length_nil]
  decide

/-- An archive of one file. -/
theorem directories_unique_iff_demo : ∃ data : Checked.Slice, data.bytes = demoMember 0x41 ∧
    (((∀ sub, DirOf [(['d'], .dir [(['a'], .file [0x41])])] sub → Unique sub) ∧
      LaterWins (members data.bytes) [(['d'], .dir [(['a'], .file [0x41])])]) ↔
        FreshFiles (members data.bytes)) := by
  have hlen : (demoMember 0x41).length < 2 ^ 40 := by
    rw [length_demoMember]
    decide
  refine ⟨demoSlice _ hlen, rfl, directories_unique_iff ?_⟩
  show Checked.parseUstar (demoMember 0x41) = _
  rw [Checked.parseUstar_short hlen, parseUncounted_demoMember]

/-- An archive of two files of one path: the directory lists the name twice, and a lookup
finds the first. -/
theorem directory_lists_twice : ∃ (data : Checked.Slice) (tree : Entries),
    data.bytes = demoMember 0x41 ++ demoMember 0x42 ∧
      Checked.parseUstar data.bytes = some tree ∧
      (∃ sub, DirOf tree sub ∧ sub.map Prod.fst = [['a'], ['a']] ∧ ¬ Unique sub) ∧
      Vfs.lookup (Vfs.mount (Node.dir tree).toVNode) "/d/a".toList = some (.ownedFile [0x41]) := by
  have hlen : (demoMember 0x41 ++ demoMember 0x42).length < 2 ^ 40 := by
    rw [List.length_append, length_demoMember, length_demoMember]
    decide
  have hfirst : insertParts (nodeOf (.file [0x41])) [['d'], ['a']] []
      = some [(['d'], .dir [(['a'], .file [0x41])])] := rfl
  have hsecond : insertParts (nodeOf (.file [0x42])) [['d'], ['a']]
      [(['d'], .dir [(['a'], .file [0x41])])]
      = some [(['d'], .dir [(['a'], .file [0x41]), (['a'], .file [0x42])])] := rfl
  refine ⟨demoSlice _ hlen, [(['d'], .dir [(['a'], .file [0x41]), (['a'], .file [0x42])])], rfl, ?_,
    ?_, rfl⟩
  · show Checked.parseUstar (demoMember 0x41 ++ demoMember 0x42) = _
    rw [Checked.parseUstar_short hlen]
    have hstep := parseFrom_demoMember 0x41 [] (demoMember 0x42) []
    have hstep' := parseFrom_demoMember 0x42 (demoMember 0x41) []
      [(['d'], .dir [(['a'], .file [0x41])])]
    rw [hsecond, Option.bind_some, List.append_nil, parseFrom_demoMember_end] at hstep'
    rw [hfirst, Option.bind_some, List.nil_append, List.nil_append, hstep'] at hstep
    exact hstep
  · refine ⟨[(['a'], .file [0x41]), (['a'], .file [0x42])], ?_, rfl, ?_⟩
    · have hmem : (['d'], Node.dir [(['a'], .file [0x41]), (['a'], .file [0x42])])
          ∈ [(['d'], Node.dir [(['a'], .file [0x41]), (['a'], .file [0x42])])] :=
        List.mem_cons_self
      exact .child .root hmem
    · rw [unique_iff]
      decide

end Ramfs

end Amaterasu
