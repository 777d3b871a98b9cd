/-
The members of any bytes, and the tree they become.

`membersFrom` reads the members off an archive as the parser does, and puts them nowhere:
the parser is the insertion of this list, one member after another.  So what is known of
lists of members (`insertAll_spec`) is known of archives, whatever is in their headers.
-/
import Amaterasu.Fs.Members
import Amaterasu.Fs.RoundTrip

namespace Amaterasu

namespace Ramfs

open PathTree

/-! ### The members of an archive -/

/-- What a header contributes, with its data starting at `offset`. -/
def memberOf (data : Bytes) (offset : Nat) (header : Bytes) : Option Member :=
  let name := memberName header
  let size := parseOctal (slice header SIZE_OFF SIZE_LEN)
  if name ≠ [] ∧ name ≠ ['.'] then
    let dataSlice := if size > 0 ∧ offset + size ≤ data.length then slice data offset size else []
    some (Text.components '/' name,
      if header.getD TYPE_OFF 0 = 0x35 then .dir else .file dataSlice)
  else none

/-- The members from an offset on. -/
def membersFrom (data : Bytes) (offset : Nat) : List Member :=
  if _h : offset + BLOCK ≤ data.length then
    let header := slice data offset BLOCK
    if header.all (· == 0) then []
    else if slice header MAGIC_OFF MAGIC.length ≠ MAGIC then []
    else
      let size := parseOctal (slice header SIZE_OFF SIZE_LEN)
      (memberOf data (offset + BLOCK) header).toList
        ++ membersFrom data (offset + BLOCK + (size + BLOCK - 1) / BLOCK * BLOCK)
  else []
termination_by data.length - offset
decreasing_by unfold BLOCK at *; omega

def members (data : Bytes) : List Member := membersFrom data 0

theorem insertMember_memberOf (data : Bytes) (offset : Nat) (header : Bytes) (root : Entries) :
    insertMember data offset header root
      = insertAll root (memberOf data offset header).toList := by
  unfold insertMember memberOf
  dsimp only
  split
  · rw [Ramfs.insert]
    split
    · exact (bind_pure _).symm
    · exact (bind_pure _).symm
  · rfl

theorem insertAll_append (ms ms' : List Member) (root : Entries) :
    insertAll root (ms ++ ms') = (insertAll root ms).bind fun root' => insertAll root' ms' :=
  List.foldlM_append

/-- The parser puts the members in. -/
theorem parseFrom_eq_insertAll (data : Bytes) (offset : Nat) : ∀ root : Entries,
    parseFrom data offset root = insertAll root (membersFrom data offset) := by
  induction offset using membersFrom.induct data with
  | case1 offset hfit header hzero =>
      intro root
      rw [parseFrom, membersFrom, dif_pos hfit, dif_pos hfit]
      dsimp only
      rw [if_pos hzero, if_pos hzero]
      rfl
  | case2 offset hfit header hzero hmagic =>
      intro root
      rw [parseFrom, membersFrom, dif_pos hfit, dif_pos hfit]
      dsimp only
      rw [if_neg hzero, if_neg hzero, if_pos hmagic, if_pos hmagic]
      rfl
  | case3 offset hfit header hzero hmagic size ih =>
      intro root
      rw [parseFrom, membersFrom, dif_pos hfit, dif_pos hfit]
      dsimp only
      rw [if_neg hzero, if_neg hzero, if_neg hmagic, if_neg hmagic, insertAll_append,
        insertMember_memberOf]
      congr 1
      funext root'
      exact ih root'
  | case4 offset hfit =>
      intro root
      rw [parseFrom, membersFrom, dif_neg hfit, dif_neg hfit]
      rfl

theorem insertAll_of_parse {data : Bytes} {tree : Entries} (h : parseUncounted data = some tree) :
    insertAll [] (members data) = some tree := by
  rw [members, ← parseFrom_eq_insertAll]
  exact h

/-- Every member takes a block. -/
theorem length_membersFrom (data : Bytes) (offset : Nat) :
    (membersFrom data offset).length * BLOCK ≤ data.length - offset := by
  induction offset using membersFrom.induct data with
  | case1 offset hfit header hzero =>
      rw [membersFrom, dif_pos hfit, if_pos hzero, List.length_nil, Nat.zero_mul]
      exact Nat.zero_le _
  | case2 offset hfit header hzero hmagic =>
      rw [membersFrom, dif_pos hfit, if_neg hzero, if_pos hmagic, List.length_nil, Nat.zero_mul]
      exact Nat.zero_le _
  | case3 offset hfit header hzero hmagic size ih =>
      rw [membersFrom, dif_pos hfit]
      dsimp only
      rw [if_neg hzero, if_neg hmagic, List.length_append, Nat.add_mul]
      have hone : (memberOf data (offset + BLOCK) header).toList.length ≤ 1 := by
        cases memberOf data (offset + BLOCK) header with
        | none => exact Nat.zero_le _
        | some m => exact Nat.le_refl _
      have hmember := Nat.mul_le_mul_right BLOCK hone
      have hrest : (membersFrom data (offset + BLOCK
          + (parseOctal (slice (slice data offset BLOCK) SIZE_OFF SIZE_LEN) + BLOCK - 1)
            / BLOCK * BLOCK)).length * BLOCK ≤ data.length - (offset + BLOCK) :=
        Nat.le_trans ih (Nat.sub_le_sub_left (Nat.le_add_right _ _) _)
      refine Nat.le_trans (Nat.add_le_add hmember hrest) ?_
      rw [Nat.one_mul]
      omega
  | case4 offset hfit =>
      rw [membersFrom, dif_neg hfit, List.length_nil, Nat.zero_mul]
      exact Nat.zero_le _

/-! ### Names that are not empty -/

theorem intercalate_nils {sep : Char} (pieces : List Text) (h : ∀ p ∈ pieces, p = []) :
    ∀ c ∈ List.intercalate [sep] pieces, c = sep := by
  induction pieces with
  | nil => simp [List.intercalate]
  | cons p pieces ih =>
      obtain rfl := h p List.mem_cons_self
      have ih := ih fun q hq => h q (List.mem_cons_of_mem _ hq)
      rcases pieces with - | ⟨q, pieces⟩
      · simp
      · intro c hc
        have hjoin : List.intercalate [sep] ([] :: q :: pieces)
            = sep :: List.intercalate [sep] (q :: pieces) := by simp [List.intercalate]
        rw [hjoin] at hc
        rcases List.mem_cons.mp hc with rfl | hc
        · rfl
        · exact ih c hc

/-- Only separators have no components. -/
theorem components_eq_nil {sep : Char} {s : Text} (h : Text.components sep s = []) :
    ∀ c ∈ s, c = sep := by
  intro c hc
  have hjoin : List.intercalate [sep] (s.splitOn sep) = s := List.intercalate_splitOn sep
  rw [← hjoin] at hc
  refine intercalate_nils _ ?_ c hc
  intro p hp
  by_contra hne
  have hmem : p ∈ Text.components sep s := by
    unfold Text.components
    exact List.mem_filter.mpr ⟨hp, by simpa using hne⟩
  rw [h] at hmem
  exact absurd hmem List.not_mem_nil

theorem trimStartMatches_suffix (a b : Char) (s : Text) : Text.trimStartMatches a b s <:+ s := by
  fun_induction Text.trimStartMatches a b s with
  | case1 x y rest h ih => exact ih.trans ((List.suffix_cons _ _).trans (List.suffix_cons _ _))
  | case2 x y rest h => exact List.suffix_rfl
  | case3 s h => exact List.suffix_rfl

/-- A name that is left has a component. -/
theorem components_memberName {header : Bytes} (h : memberName header ≠ []) :
    Text.components '/' (memberName header) ≠ [] := by
  intro hnil
  have hlast := components_eq_nil hnil _ (List.getLast_mem h)
  have hsuffix : memberName header <:+ Text.trimMatches (· == '/')
      ((Text.fromUtf8 (trimNul (slice header NAME_OFF NAME_LEN))).getD []) :=
    trimStartMatches_suffix _ _ _
  have hne : Text.trimMatches (· == '/')
      ((Text.fromUtf8 (trimNul (slice header NAME_OFF NAME_LEN))).getD []) ≠ [] := by
    intro h0
    rw [h0] at hsuffix
    exact h (List.suffix_nil.mp hsuffix)
  have hnot := List.rdropWhile_last_not (fun c => c == '/') _ hne
  rw [hsuffix.getLast h] at hlast
  exact hnot (beq_iff_eq.mpr hlast)

/-- Every member comes from a header. -/
theorem exists_header {data : Bytes} {offset : Nat} : ∀ m ∈ membersFrom data offset,
    ∃ header, memberName header ≠ [] ∧ m.1 = Text.components '/' (memberName header) := by
  induction offset using membersFrom.induct data with
  | case1 offset hfit header hzero =>
      rw [membersFrom, dif_pos hfit]
      dsimp only
      rw [if_pos hzero]
      simp
  | case2 offset hfit header hzero hmagic =>
      rw [membersFrom, dif_pos hfit]
      dsimp only
      rw [if_neg hzero, if_pos hmagic]
      simp
  | case3 offset hfit header hzero hmagic size ih =>
      rw [membersFrom, dif_pos hfit]
      dsimp only
      rw [if_neg hzero, if_neg hmagic]
      intro m hm
      rcases List.mem_append.mp hm with hm | hm
      · rw [Option.mem_toList, memberOf] at hm
        dsimp only at hm
        split at hm
        · rename_i hname
          exact ⟨header, hname.1, by rw [← Option.some.inj hm]⟩
        · exact absurd hm (by simp)
      · exact ih m hm
  | case4 offset hfit =>
      rw [membersFrom, dif_neg hfit]
      simp

theorem path_ne_nil_of_mem {data : Bytes} {offset : Nat} :
    ∀ m ∈ membersFrom data offset, m.1 ≠ [] := by
  intro m hm
  obtain ⟨header, hname, hpath⟩ := exists_header m hm
  rw [hpath]
  exact components_memberName hname

/-! ### Directories with distinct names -/

/-- The directories of a tree, found by a lookup or not. -/
inductive DirOf (root : Entries) : Entries → Prop
  | root : DirOf root root
  | child {dir sub : Entries} {name : Text} (h : DirOf root dir) (hmem : (name, .dir sub) ∈ dir) :
      DirOf root sub

/-- Each name that is listed denotes the node that a lookup of it returns. -/
def Unique (dir : Entries) : Prop :=
  ∀ v, Stands v (.dir dir) → v.readdir.Nodup ∧ v.readdir = dir.map Prod.fst ∧
    ∀ e ∈ dir, ∃ w, v.lookup e.1 = some w ∧ Stands w e.2

theorem child_of_mem {dir : Entries} (hnames : (dir.map Prod.fst).Nodup) {e : Text × Node}
    (he : e ∈ dir) : child dir e.1 = some e.2 := by
  induction dir with
  | nil => exact absurd he List.not_mem_nil
  | cons d dir ih =>
      obtain ⟨n, c⟩ := d
      obtain ⟨hfirst, hrest⟩ := List.nodup_cons.mp hnames
      rw [child_cons]
      rcases List.mem_cons.mp he with rfl | he'
      · rw [if_pos rfl]
      · rw [if_neg, ih hrest he']
        rintro rfl
        exact hfirst (List.mem_map.mpr ⟨e, he', rfl⟩)

theorem unique_iff {dir : Entries} : Unique dir ↔ (dir.map Prod.fst).Nodup := by
  constructor
  · intro h
    obtain ⟨hnodup, heq, -⟩ := h _ (.dir dir)
    exact heq ▸ hnodup
  · intro hnodup v hv
    refine ⟨hv.readdir ▸ hnodup, hv.readdir, ?_⟩
    intro e he
    have hlook := hv.lookup_dir e.1 dir rfl
    rw [child_of_mem hnodup he] at hlook
    exact hlook

theorem DirOf.head {root dir sub : Entries} {name : Text} (h : DirOf dir sub)
    (hmem : (name, .dir dir) ∈ root) : DirOf root sub := by
  induction h with
  | root => exact .child .root hmem
  | child h hmem' ih => exact .child ih hmem'

theorem dirOf_of_find (path : List Text) : ∀ root sub : Entries,
    (Node.dir root).find path = some (.dir sub) → DirOf root sub := by
  induction path with
  | nil =>
      intro root sub h
      obtain rfl : root = sub := by simpa using h
      exact .root
  | cons n path ih =>
      intro root sub h
      rw [find_dir_cons] at h
      rcases hc : child root n with - | data | dir
      · rw [hc] at h
        exact absurd h (by simp)
      · rw [hc] at h
        rcases path with - | ⟨m, path⟩
        · exact absurd h (by simp)
        · exact absurd h (by simp)
      · rw [hc] at h
        obtain ⟨e, he, heq⟩ := Option.map_eq_some_iff.mp hc
        have hmem := List.mem_of_find?_eq_some he
        have hname : e.1 = n := by simpa using List.find?_some he
        obtain rfl : e = (n, .dir dir) := Prod.ext hname heq
        exact (ih dir sub h).head hmem

theorem find_of_dirOf {root sub : Entries} (hd : Distinct root) (h : DirOf root sub) :
    ∃ path, (Node.dir root).find path = some (.dir sub) := by
  induction h with
  | root => exact ⟨[], find_nil _⟩
  | @child dir sub name h hmem ih =>
      obtain ⟨path, hpath⟩ := ih
      refine ⟨path ++ [name], ?_⟩
      rw [find_append, hpath, Option.bind_some, find_dir_cons,
        child_of_mem (hd path dir hpath) hmem, Option.bind_some, find_nil]

/-- It is enough to look at the directories that a lookup finds. -/
theorem distinct_iff {root : Entries} : Distinct root ↔ ∀ sub, DirOf root sub → Unique sub := by
  constructor
  · intro hd sub hsub
    obtain ⟨path, hpath⟩ := find_of_dirOf hd hsub
    exact unique_iff.mpr (hd path sub hpath)
  · intro h path sub hpath
    exact unique_iff.mp (h sub (dirOf_of_find path root sub hpath))

/-! ### The claim about archives -/

/-- Of several files with one path, a lookup finds the last. -/
def LaterWins (ms : List Member) (tree : Entries) : Prop :=
  ∀ pre p data post, ms = pre ++ (p, .file data) :: post → (∃ d, (p, .file d) ∈ pre) →
    (∀ d, (p, .file d) ∉ post) → ∀ path, Text.components '/' path = p →
      ∃ v, Vfs.lookup (Vfs.mount (Node.dir tree).toVNode) path = some v ∧ Stands v (.file data)

/-- No file comes to a path that an earlier member has or leads through. -/
def FreshFiles (ms : List Member) : Prop :=
  ∀ pre p data post, ms = pre ++ (p, .file data) :: post → ∀ m ∈ pre, ¬ p <+: m.1

theorem shadowed_iff {pre : List Member} {m : Member} (hne : m.1 ≠ []) :
    Shadowed (planted (entryAt []) pre) m.1 m.2 ↔
      (∃ data, m.2 = .file data) ∧ ∃ m' ∈ pre, m.1 <+: m'.1 := by
  have hbare : entryAt [] m.1 = none := by
    rw [entryAt_empty]
    obtain ⟨n, path, hpath⟩ := List.exists_cons_of_ne_nil hne
    rw [hpath]
    rfl
  unfold Shadowed planted
  rw [hbare, Option.none_or, firstNeed_ne_none]
  exact and_iff_right hne

theorem distinct_iff_freshFiles {data : Bytes} {tree : Entries}
    (hparse : parseUncounted data = some tree) : Distinct tree ↔ FreshFiles (members data) := by
  rw [(insertAll_spec _ _ _ (insertAll_of_parse hparse)).2, and_iff_right distinct_empty]
  have hne : ∀ m ∈ members data, m.1 ≠ [] := path_ne_nil_of_mem
  constructor
  · intro h pre p d post hsplit m' hm' hpre
    have hmem : (p, Entry.file d) ∈ members data := by
      rw [hsplit]
      exact List.mem_append_right _ List.mem_cons_self
    exact h pre (p, .file d) post hsplit
      ((shadowed_iff (hne _ hmem)).mpr ⟨⟨d, rfl⟩, m', hm', hpre⟩)
  · intro h pre m post hsplit hshadow
    have hmem : m ∈ members data := by
      rw [hsplit]
      exact List.mem_append_right _ List.mem_cons_self
    obtain ⟨⟨d, hd⟩, m', hm', hpre⟩ := (shadowed_iff (hne _ hmem)).mp hshadow
    obtain ⟨p, e⟩ := m
    obtain rfl : e = .file d := hd
    exact h pre p d post hsplit m' hm' hpre

/-! One file, and another of the same path behind it. -/

theorem demo_header_byte (b : UInt8) : Header [['d'], ['a']] (.file [b]) demoHeader where
  length := demo_header.length
  name := ⟨['d', '/', 'a'], 97, @StoredName.file _ [] [b] (by decide) (by decide), by decide⟩
  size := demo_header.size
  typeflag := Or.inl (by decide)
  magic := demo_header.magic
  noPrefix := demo_header.noPrefix

/-- A member with one byte of data. -/
def demoMember (b : UInt8) : Bytes := demoHeader ++ ([b] ++ List.replicate 511 0)

theorem parseFrom_demoMember (b : UInt8) (pre rest : Bytes) (root : Entries) :
    parseFrom (pre ++ (demoMember b ++ rest)) pre.length root
      = (insertParts (nodeOf (.file [b])) [['d'], ['a']] root).bind fun root' =>
          parseFrom (pre ++ (demoMember b ++ rest)) (pre ++ demoMember b).length root' := by
  have hvalid : ∀ s ∈ [['d'], ['a']], ValidName s := by
    intro s hs
    have hs : s = ['d'] ∨ s = ['a'] := by simpa using hs
    rcases hs with rfl | rfl
    · constructor <;> decide
    · constructor <;> decide
  have hpad : [b].length + (List.replicate 511 (0 : UInt8)).length
      = ([b].length + BLOCK - 1) / BLOCK * BLOCK := by
    rw [List.length_replicate, List.length_singleton]
    decide
  rw [demoMember, List.append_assoc, List.append_assoc]
  exact parseFrom_member (demo_header_byte b) hvalid hpad root

theorem parseFrom_demoMember_end (pre : Bytes) (root : Entries) :
    parseFrom pre pre.length root = some root := by
  have h : parseFrom (pre ++ []) pre.length root = some root :=
    parseFrom_end (.endOfData (by decide)) root
  rwa [List.append_nil] at h

theorem parseUncounted_demoMember (b : UInt8) :
    parseUncounted (demoMember b) = some [(['d'], .dir [(['a'], .file [b])])] := by
  have hins : insertParts (nodeOf (.file [b])) [['d'], ['a']] []
      = some [(['d'], .dir [(['a'], .file [b])])] := rfl
  have hstep := parseFrom_demoMember b [] [] []
  rw [hins, Option.bind_some, List.nil_append, List.append_nil, List.nil_append,
    parseFrom_demoMember_end] at hstep
  exact hstep

end Ramfs

end Amaterasu
