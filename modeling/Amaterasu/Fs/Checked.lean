/-
The ramdisk parser with everything in it that can panic.

The model in `Fs.Ramfs` computes with natural numbers and slices of any range; here every
sum, product, index and slice of `parse_ustar` is checked, and so is the count of files,
a 32-bit integer.  Offsets never come close to 64 bits, whatever the size fields say, and
no slice is out of range: what is left of the panics is the `expect` of
`get_or_insert_dir`, on a file where a directory should be, and the count.
-/
import Amaterasu.Lib.Loop
import Amaterasu.Lib.Utf8
import Amaterasu.Fs.Archives

namespace Amaterasu

namespace Ramfs

open PathTree

namespace Checked

/-! ### Arithmetic and slices -/

def usizeAdd (a b : Nat) : Option Nat := if a + b < 2 ^ 64 then some (a + b) else none

def usizeSub (a b : Nat) : Option Nat := if b ≤ a then some (a - b) else none

def usizeMul (a b : Nat) : Option Nat := if a * b < 2 ^ 64 then some (a * b) else none

/-- `file_count += 1`, on an `i32`. -/
def countUp (n : Nat) : Option Nat := if n + 1 < 2 ^ 31 then some (n + 1) else none

/-- `&bytes[start..stop]`. -/
def range (bytes : Bytes) (start stop : Nat) : Option Bytes :=
  if start ≤ stop ∧ stop ≤ bytes.length then some ((bytes.drop start).take (stop - start)) else none

/-! ### The tree -/

/-- `get_or_insert_dir`, by positions. -/
def getOrInsertDir (name : Text) (f : Entries → Option Entries) (entries : Entries) :
    Option Entries := do
  let entries :=
    if (entries.findIdx? (·.1 = name)).isNone then entries ++ [(name, .dir [])] else entries
  let idx ← entries.findIdx? (·.1 = name)
  let entry ← entries[idx]?
  match entry.2 with
  | .dir sub => (f sub).map fun sub' => entries.set idx (entry.1, .dir sub')
  | .file _ => none

def insertParts (node : Node) : List Text → Entries → Option Entries
  | [], dir => some dir
  | [leaf], dir =>
      if node.isDir && dir.any (·.1 = leaf) then some dir else some (dir ++ [(leaf, node)])
  | part :: rest, dir => getOrInsertDir part (insertParts node rest) dir

def insert (root : Entries) (path : Text) (node : Node) : Option Entries :=
  insertParts node (Text.components '/' path) root

/-! ### The parser -/

/-- The fields of a header that are read. -/
structure Fields where
  name : Text
  size : Nat
  ttype : UInt8

def trimNul (bytes : Bytes) : Option Bytes :=
  range bytes 0 ((bytes.findIdx? (· == 0)).getD bytes.length)

def readName (header : Bytes) : Option Text := do
  let field ← range header NAME_OFF (← usizeAdd NAME_OFF NAME_LEN)
  let name ← trimNul field
  some (Text.trimStartMatches '.' '/'
    (Text.trimMatches (· == '/') ((Text.fromUtf8 name).getD [])))

def readFields (header : Bytes) : Option Fields := do
  let name ← readName header
  let size := parseOctal (← range header SIZE_OFF (← usizeAdd SIZE_OFF SIZE_LEN))
  let ttype ← header[TYPE_OFF]?
  some ⟨name, size, ttype⟩

/-- The fields of the header at an offset, or nothing where the loop ends. -/
def readHeader (data : Bytes) (offset : Nat) : Option (Option Fields) := do
  let stop ← usizeAdd offset BLOCK
  if stop ≤ data.length then
    let header ← range data offset stop
    if header.all (· == 0) then some none
    else
      let magic ← range header MAGIC_OFF (← usizeAdd MAGIC_OFF MAGIC.length)
      if magic ≠ MAGIC then some none
      else (readFields header).map some
  else some none

/-- The bytes of a member, with its data starting at `offset`. -/
def dataSlice (data : Bytes) (offset size : Nat) : Option Bytes :=
  if size > 0 then do
    let stop ← usizeAdd offset size
    if stop ≤ data.length then range data offset stop else some []
  else some []

/-- The tree and the count with a member put in. -/
def addMember (data : Bytes) (offset : Nat) (fields : Fields) (root : Entries) (fileCount : Nat) :
    Option (Entries × Nat) :=
  if fields.name ≠ [] ∧ fields.name ≠ ['.'] then do
    let bytes ← dataSlice data offset fields.size
    if fields.ttype = 0x35 then
      (insert root fields.name (.dir [])).map fun root' => (root', fileCount)
    else do
      let fileCount ← countUp fileCount
      (insert root fields.name (.file bytes)).map fun root' => (root', fileCount)
  else some (root, fileCount)

/-- `offset + (size + BLOCK - 1) / BLOCK * BLOCK`. -/
def skipData (offset size : Nat) : Option Nat := do
  let padded ← usizeAdd size BLOCK
  let blocks ← usizeMul ((← usizeSub padded 1) / BLOCK) BLOCK
  usizeAdd offset blocks

/-- The variables of the loop. -/
structure Parsing where
  offset : Nat
  root : Entries
  fileCount : Nat

/-- One turn of the loop: the variables after it, or the tree where it ends. -/
def parseStep (data : Bytes) (s : Parsing) : Option (Parsing ⊕ Entries) := do
  match ← readHeader data s.offset with
  | none => some (.inr s.root)
  | some fields => do
      let offset ← usizeAdd s.offset BLOCK
      let (root, fileCount) ← addMember data offset fields s.root s.fileCount
      let offset ← skipData offset fields.size
      some (.inl ⟨offset, root, fileCount⟩)

theorem range_eq {bytes : Bytes} {start stop : Nat} (hle : start ≤ stop)
    (hstop : stop ≤ bytes.length) :
    range bytes start stop = some (slice bytes start (stop - start)) := if_pos ⟨hle, hstop⟩

theorem usizeAdd_eq {a b : Nat} (h : a + b < 2 ^ 64) : usizeAdd a b = some (a + b) := if_pos h

theorem usizeSub_eq {a b : Nat} (h : b ≤ a) : usizeSub a b = some (a - b) := if_pos h

theorem usizeMul_eq {a b : Nat} (h : a * b < 2 ^ 64) : usizeMul a b = some (a * b) := if_pos h

/-! ### The positions are those of the walk -/

/-- The second half of `get_or_insert_dir`: the entry is there. -/
def located (name : Text) (f : Entries → Option Entries) (entries : Entries) : Option Entries := do
  let idx ← entries.findIdx? (·.1 = name)
  let entry ← entries[idx]?
  match entry.2 with
  | .dir sub => (f sub).map fun sub' => entries.set idx (entry.1, .dir sub')
  | .file _ => none

theorem located_eq {name : Text} {f : Entries → Option Entries} (entries : Entries)
    (h : ∃ e ∈ entries, e.1 = name) :
    located name f entries = Ramfs.getOrInsertDir name f entries := by
  induction entries with
  | nil =>
      obtain ⟨e, he, -⟩ := h
      exact absurd he List.not_mem_nil
  | cons e rest ih =>
      obtain ⟨n, c⟩ := e
      by_cases hn : n = name
      · subst hn
        rw [getOrInsertDir_here, located, List.findIdx?_cons, if_pos (by simp)]
        rcases c with data | sub
        · rfl
        · rfl
      · have hrest : ∃ e ∈ rest, e.1 = name := by
          obtain ⟨e, he, hname⟩ := h
          rcases List.mem_cons.mp he with rfl | he'
          · exact absurd hname hn
          · exact ⟨e, he', hname⟩
        rw [getOrInsertDir_skip hn, ← ih hrest, located, located, List.findIdx?_cons,
          if_neg (by simpa using hn)]
        generalize List.findIdx? _ rest = found
        rcases found with - | idx
        · rfl
        · rw [Option.map_some]
          simp only [Option.bind_eq_bind, Option.bind_some, List.getElem?_cons_succ]
          rcases rest[idx]? with - | ⟨m, data | sub⟩
          · rfl
          · rfl
          · simp only [Option.bind_some, Option.map_map]
            rfl

/-- With the entry appended when it is missing, the walk finds what it would have made. -/
theorem getOrInsertDir_push {name : Text} {f : Entries → Option Entries} (entries : Entries)
    (h : ¬ ∃ e ∈ entries, e.1 = name) :
    Ramfs.getOrInsertDir name f (entries ++ [(name, .dir [])])
      = Ramfs.getOrInsertDir name f entries := by
  induction entries with
  | nil =>
      rw [List.nil_append, getOrInsertDir_here, Ramfs.getOrInsertDir]
  | cons e rest ih =>
      obtain ⟨n, c⟩ := e
      have hn : n ≠ name := by
        rintro rfl
        exact h ⟨(n, c), List.mem_cons_self, rfl⟩
      rw [List.cons_append, getOrInsertDir_skip hn, getOrInsertDir_skip hn, ih]
      rintro ⟨e, he, hname⟩
      exact h ⟨e, List.mem_cons_of_mem _ he, hname⟩

theorem getOrInsertDir_eq (name : Text) (f : Entries → Option Entries) :
    getOrInsertDir name f = Ramfs.getOrInsertDir name f := by
  funext entries
  show located name f (if (entries.findIdx? (·.1 = name)).isNone = true then
    entries ++ [(name, .dir [])] else entries) = _
  by_cases h : ∃ e ∈ entries, e.1 = name
  · rw [if_neg, located_eq entries h]
    rw [List.findIdx?_isNone]
    simpa using h
  · rw [if_pos, located_eq _ ⟨(name, .dir []), by simp, rfl⟩, getOrInsertDir_push entries h]
    rw [List.findIdx?_isNone, List.all_eq_true]
    intro e he
    rw [decide_eq_true_iff, decide_eq_true_iff]
    intro hname
    exact h ⟨e, he, hname⟩

theorem insertParts_eq (node : Node) (path : List Text) :
    insertParts node path = Ramfs.insertParts node path := by
  induction path with
  | nil => rfl
  | cons part rest ih =>
      rcases rest with - | ⟨next, rest⟩
      · rfl
      · funext dir
        show getOrInsertDir part (insertParts node (next :: rest)) dir = _
        rw [ih, getOrInsertDir_eq]
        rfl

theorem insert_eq (root : Entries) (path : Text) (node : Node) :
    insert root path node = Ramfs.insert root path node := by
  rw [insert, Ramfs.insert, insertParts_eq]

/-! ### Headers -/

theorem trimNul_eq (bytes : Bytes) : trimNul bytes = some (Ramfs.trimNul bytes) := by
  have hlen : (bytes.findIdx? (· == 0)).getD bytes.length ≤ bytes.length := by
    rw [← List.findIdx_eq_getD_findIdx?]
    exact List.findIdx_le_length
  rw [trimNul, range_eq (Nat.zero_le _) hlen, Ramfs.trimNul, List.takeWhile_eq_take_findIdx_not,
    ← List.findIdx_eq_getD_findIdx?, slice, List.drop_zero, Nat.sub_zero]
  congr 3
  funext b
  exact (Bool.not_not _).symm

theorem readName_eq {header : Bytes} (h : header.length = BLOCK) :
    readName header = some (memberName header) := by
  have hsum : usizeAdd NAME_OFF NAME_LEN = some NAME_LEN := rfl
  have hfield : range header NAME_OFF NAME_LEN = some (slice header NAME_OFF NAME_LEN) :=
    range_eq (by decide) (by rw [h]; decide)
  rw [readName, hsum]
  simp only [Option.bind_eq_bind, Option.bind_some, hfield, trimNul_eq]
  rfl

theorem readFields_eq {header : Bytes} (h : header.length = BLOCK) :
    readFields header = some ⟨memberName header,
      parseOctal (slice header SIZE_OFF SIZE_LEN), header.getD TYPE_OFF 0⟩ := by
  have hsum : usizeAdd SIZE_OFF SIZE_LEN = some (SIZE_OFF + SIZE_LEN) := rfl
  have hfield : range header SIZE_OFF (SIZE_OFF + SIZE_LEN)
      = some (slice header SIZE_OFF SIZE_LEN) := range_eq (by decide) (by rw [h]; decide)
  have htype : header[TYPE_OFF]? = some (header.getD TYPE_OFF 0) := by
    have hlt : TYPE_OFF < header.length := by
      rw [h]
      decide
    rw [List.getD_eq_getElem?_getD, List.getElem?_eq_getElem hlt, Option.getD_some]
  rw [readFields, readName_eq h, hsum]
  simp only [Option.bind_eq_bind, Option.bind_some, hfield, htype]

theorem length_trimMatches_le (p : Char → Bool) (s : Text) :
    (Text.trimMatches p s).length ≤ s.length :=
  Nat.le_trans (List.rdropWhile_prefix p _).length_le (List.dropWhile_suffix p).length_le

/-- A size field has twelve bytes, so it stays far below 64 bits. -/
theorem parseOctal_lt (header : Bytes) : parseOctal (slice header SIZE_OFF SIZE_LEN) < 2 ^ 36 := by
  have hlen : ((Text.fromUtf8 (slice header SIZE_OFF SIZE_LEN)).getD ['0']).length ≤ 12 := by
    rcases hs : Text.fromUtf8 (slice header SIZE_OFF SIZE_LEN) with - | s
    · exact (by decide : ['0'].length ≤ 12)
    · have hencode := Text.encode_of_fromUtf8 hs
      have hbytes : (slice header SIZE_OFF SIZE_LEN).length ≤ SIZE_LEN := List.length_take_le _ _
      have hle := Text.length_le_byteLen s
      rw [← Text.length_encode, hencode] at hle
      exact Nat.le_trans hle hbytes
  have hshort := Nat.le_trans (length_trimMatches_le Text.isWhitespace _)
    (Nat.le_trans (length_trimMatches_le (· == '\x00') _) hlen)
  unfold parseOctal
  dsimp only
  rcases hn : Text.usizeFromRadix 8 (Text.trim (Text.trimMatches (· == '\x00')
    ((Text.fromUtf8 (slice header SIZE_OFF SIZE_LEN)).getD ['0']))) with - | n
  · exact Nat.two_pow_pos 36
  · have hpow : 8 ^ _ ≤ 8 ^ 12 := Nat.pow_le_pow_right (by decide) hshort
    exact Nat.lt_of_lt_of_le (Text.usizeFromRadix_lt (by decide) hn) hpow

/-- The fields of the header at an offset, read without checks. -/
def fieldsAt (data : Bytes) (offset : Nat) : Option Fields :=
  if offset + BLOCK ≤ data.length then
    let header := slice data offset BLOCK
    if header.all (· == 0) then none
    else if slice header MAGIC_OFF MAGIC.length ≠ MAGIC then none
    else some ⟨memberName header, parseOctal (slice header SIZE_OFF SIZE_LEN),
      header.getD TYPE_OFF 0⟩
  else none

section Header

variable {data : Bytes} {offset : Nat} {fields : Fields}

/-- No header is read out of range. -/
theorem readHeader_eq (hfit : offset + BLOCK < 2 ^ 64) :
    readHeader data offset = some (fieldsAt data offset) := by
  rw [readHeader, usizeAdd_eq hfit, Option.bind_eq_bind, Option.bind_some, fieldsAt]
  by_cases hstop : offset + BLOCK ≤ data.length
  · have hlen : (slice data offset BLOCK).length = BLOCK := by
      rw [slice, List.length_take, List.length_drop]
      omega
    have hheader : range data offset (offset + BLOCK) = some (slice data offset BLOCK) := by
      rw [range_eq (by omega) hstop, Nat.add_sub_cancel_left]
    have hsum : usizeAdd MAGIC_OFF MAGIC.length = some (MAGIC_OFF + MAGIC.length) := rfl
    have hmagic : range (slice data offset BLOCK) MAGIC_OFF (MAGIC_OFF + MAGIC.length)
        = some (slice (slice data offset BLOCK) MAGIC_OFF MAGIC.length) :=
      range_eq (by decide) (by rw [hlen]; decide)
    rw [if_pos hstop, if_pos hstop, hheader, Option.bind_eq_bind, Option.bind_some]
    dsimp only
    split
    · rfl
    · rw [hsum]
      simp only [Option.bind_some, hmagic]
      split
      · rfl
      · rw [readFields_eq hlen]
        rfl
  · rw [if_neg hstop, if_neg hstop]

theorem fieldsAt_size (h : fieldsAt data offset = some fields) :
    offset + BLOCK ≤ data.length ∧ fields.size < 2 ^ 36 := by
  have hsize := parseOctal_lt (slice data offset BLOCK)
  unfold fieldsAt at h
  dsimp only at h
  generalize parseOctal (slice (slice data offset BLOCK) SIZE_OFF SIZE_LEN) = size at h hsize
  by_cases hstop : offset + BLOCK ≤ data.length
  · rw [if_pos hstop] at h
    refine ⟨hstop, ?_⟩
    split at h
    · exact absurd h (by simp)
    · split at h
      · exact absurd h (by simp)
      · rw [← Option.some.inj h]
        exact hsize
  · rw [if_neg hstop] at h
    exact absurd h (by simp)

/-- What a header contributes, from its fields. -/
def memberAt (data : Bytes) (offset : Nat) (fields : Fields) : Option Member :=
  if fields.name ≠ [] ∧ fields.name ≠ ['.'] then
    some (Text.components '/' fields.name,
      if fields.ttype = 0x35 then .dir
      else .file (if fields.size > 0 ∧ offset + fields.size ≤ data.length then
        slice data offset fields.size else []))
  else none

/-- Where the data of a member ends. -/
abbrev behind (offset size : Nat) : Nat := offset + (size + BLOCK - 1) / BLOCK * BLOCK

theorem membersFrom_none (h : fieldsAt data offset = none) : membersFrom data offset = [] := by
  unfold fieldsAt at h
  dsimp only at h
  rw [membersFrom]
  by_cases hstop : offset + BLOCK ≤ data.length
  · rw [if_pos hstop] at h
    rw [dif_pos hstop]
    dsimp only
    split
    · rfl
    · rename_i hzero
      rw [if_neg hzero] at h
      split
      · rfl
      · rename_i hmagic
        rw [if_neg hmagic] at h
        exact absurd h (by simp)
  · rw [dif_neg hstop]

theorem membersFrom_some (h : fieldsAt data offset = some fields) : membersFrom data offset
    = (memberAt data (offset + BLOCK) fields).toList
        ++ membersFrom data (behind (offset + BLOCK) fields.size) := by
  unfold fieldsAt at h
  dsimp only at h
  rw [membersFrom]
  by_cases hstop : offset + BLOCK ≤ data.length
  · rw [if_pos hstop] at h
    rw [dif_pos hstop]
    dsimp only
    by_cases hzero : (slice data offset BLOCK).all (· == 0) = true
    · rw [if_pos hzero] at h
      exact absurd h (by simp)
    · rw [if_neg hzero] at h ⊢
      by_cases hmagic : slice (slice data offset BLOCK) MAGIC_OFF MAGIC.length ≠ MAGIC
      · rw [if_pos hmagic] at h
        exact absurd h (by simp)
      · rw [if_neg hmagic] at h ⊢
        rw [← Option.some.inj h, memberOf, memberAt]
  · rw [if_neg hstop] at h
    exact absurd h (by simp)

/-! ### One turn of the loop -/

theorem dataSlice_eq {size : Nat} (hfit : offset + size < 2 ^ 64) : dataSlice data offset size
    = some (if size > 0 ∧ offset + size ≤ data.length then slice data offset size else []) := by
  unfold dataSlice
  by_cases hpos : size > 0
  · rw [if_pos hpos, usizeAdd_eq hfit, Option.bind_eq_bind, Option.bind_some]
    by_cases hstop : offset + size ≤ data.length
    · rw [if_pos hstop, if_pos ⟨hpos, hstop⟩, range_eq (by omega) hstop, Nat.add_sub_cancel_left]
    · rw [if_neg hstop, if_neg fun h => hstop h.2]
  · rw [if_neg hpos, if_neg fun h => hpos h.1]

/-- The count with a member counted, if it is a file. -/
def counted (m : Member) (fileCount : Nat) : Option Nat :=
  if m.2 = .dir then some fileCount else countUp fileCount

theorem addMember_eq (hfit : offset + fields.size < 2 ^ 64) (root : Entries) (fileCount : Nat) :
    addMember data offset fields root fileCount = match memberAt data offset fields with
      | none => some (root, fileCount)
      | some m => (counted m fileCount).bind fun count =>
          (Ramfs.insertParts (nodeOf m.2) m.1 root).map fun root' => (root', count) := by
  unfold addMember memberAt
  by_cases hname : fields.name ≠ [] ∧ fields.name ≠ ['.']
  · rw [if_pos hname, if_pos hname, dataSlice_eq hfit, Option.bind_eq_bind, Option.bind_some]
    by_cases htype : fields.ttype = 0x35
    · simp only [if_pos htype, insert_eq, Ramfs.insert, counted, Option.bind_some, nodeOf, if_true]
    · simp only [if_neg htype, insert_eq, Ramfs.insert, counted, nodeOf, reduceCtorEq, if_false]
      rfl
  · rw [if_neg hname, if_neg hname]

theorem skipData_eq {size : Nat} (hsize : size < 2 ^ 36) (hoff : offset + 2 ^ 37 < 2 ^ 64) :
    skipData offset size = some (behind offset size) := by
  have hle : (size + BLOCK - 1) / BLOCK * BLOCK ≤ size + BLOCK - 1 := Nat.div_mul_le_self _ _
  have hblock : BLOCK = 512 := rfl
  have hsum : usizeAdd size BLOCK = some (size + BLOCK) := usizeAdd_eq (by omega)
  have hsub : usizeSub (size + BLOCK) 1 = some (size + BLOCK - 1) := if_pos (by omega)
  have hmul : usizeMul ((size + BLOCK - 1) / BLOCK) BLOCK
      = some ((size + BLOCK - 1) / BLOCK * BLOCK) := if_pos (by omega)
  have hadd : usizeAdd offset ((size + BLOCK - 1) / BLOCK * BLOCK) = some (behind offset size) :=
    usizeAdd_eq (by omega)
  simp only [skipData, hsum, hsub, hmul, hadd, Option.bind_eq_bind, Option.bind_some]

/-- A turn that finds no header ends the loop. -/
theorem parseStep_none {s : Parsing} (hfit : s.offset + BLOCK < 2 ^ 64)
    (h : fieldsAt data s.offset = none) : parseStep data s = some (.inr s.root) := by
  rw [parseStep, readHeader_eq hfit, h]
  rfl

/-- A turn that finds one puts its member in and goes on behind its data. -/
theorem parseStep_some {s : Parsing} (hfit : s.offset + 2 ^ 38 < 2 ^ 64)
    (h : fieldsAt data s.offset = some fields) :
    parseStep data s = match memberAt data (s.offset + BLOCK) fields with
      | none => some (.inl ⟨behind (s.offset + BLOCK) fields.size, s.root, s.fileCount⟩)
      | some m => (counted m s.fileCount).bind fun count =>
          (Ramfs.insertParts (nodeOf m.2) m.1 s.root).map fun root =>
            .inl ⟨behind (s.offset + BLOCK) fields.size, root, count⟩ := by
  obtain ⟨-, hsize⟩ := fieldsAt_size h
  have hblock : BLOCK = 512 := rfl
  have hread : readHeader data s.offset = some (fieldsAt data s.offset) :=
    readHeader_eq (by omega)
  have hnext : usizeAdd s.offset BLOCK = some (s.offset + BLOCK) := usizeAdd_eq (by omega)
  have hskip : skipData (s.offset + BLOCK) fields.size
      = some (behind (s.offset + BLOCK) fields.size) := skipData_eq hsize (by omega)
  rw [parseStep, hread, h]
  simp only [Option.bind_eq_bind, Option.bind_some, hnext]
  rw [addMember_eq (by omega)]
  rcases memberAt data (s.offset + BLOCK) fields with - | m
  · simp only [Option.bind_some, hskip]
  · dsimp only
    rcases counted m s.fileCount with - | count
    · rfl
    · rcases Ramfs.insertParts (nodeOf m.2) m.1 s.root with - | root
      · rfl
      · simp only [Option.bind_some, Option.map_some, hskip]

theorem readHeader_stop (h : readHeader data offset = some (some fields)) :
    offset + BLOCK ≤ data.length := by
  unfold readHeader at h
  rcases hstop : usizeAdd offset BLOCK with - | stop
  · rw [hstop] at h
    exact absurd h (by simp)
  · rw [hstop, Option.bind_eq_bind, Option.bind_some] at h
    unfold usizeAdd at hstop
    split at hstop
    · obtain rfl := Option.some.inj hstop
      by_contra hnot
      rw [if_neg hnot] at h
      exact absurd h (by simp)
    · exact absurd hstop (by simp)

theorem usizeAdd_le {a b c : Nat} (h : usizeAdd a b = some c) : a ≤ c := by
  unfold usizeAdd at h
  split at h
  · rw [← Option.some.inj h]
    exact Nat.le_add_right a b
  · exact absurd h (by simp)

/-- Every turn but the last leaves fewer bytes. -/
theorem parseStep_lt {s s' : Parsing} (h : parseStep data s = some (.inl s')) :
    data.length - s'.offset < data.length - s.offset := by
  unfold parseStep at h
  rcases hread : readHeader data s.offset with - | - | fields
  · rw [hread] at h
    exact absurd h (by simp)
  · rw [hread] at h
    exact absurd h (by simp)
  · have hstop := readHeader_stop hread
    have hblock : BLOCK = 512 := rfl
    simp only [hread, Option.bind_eq_bind, Option.bind_some, Option.bind_eq_some_iff] at h
    obtain ⟨next, hnext, ⟨root, count⟩, -, last, hlast, heq⟩ := h
    obtain rfl : _ = s' := Sum.inl.inj (Option.some.inj heq)
    have hle : next ≤ last := by
      unfold skipData at hlast
      simp only [Option.bind_eq_bind, Option.bind_eq_some_iff] at hlast
      obtain ⟨padded, -, shrunk, -, blocks, -, hadd⟩ := hlast
      exact usizeAdd_le hadd
    have hnext : s.offset + BLOCK = next := by
      unfold usizeAdd at hnext
      split at hnext
      · exact Option.some.inj hnext
      · exact absurd hnext (by simp)
    show data.length - last < data.length - s.offset
    omega

end Header

/-! ### The whole loop -/

/-- The loop from some turn on. -/
def parseLoop (data : Bytes) (s : Parsing) : Option Entries :=
  loop (parseStep data) (fun s => data.length - s.offset) (fun _ _ => parseStep_lt) s

def parseUstar (data : Bytes) : Option Entries := parseLoop data ⟨0, [], 0⟩

/-- How many members are files. -/
def files (ms : List Member) : Nat := ms.countP fun m => m.2 ≠ .dir

theorem counted_eq (m : Member) (fileCount : Nat) : counted m fileCount
    = if m.2 = .dir then some fileCount
      else if fileCount + 1 < 2 ^ 31 then some (fileCount + 1) else none := rfl

@[simp] theorem files_nil : files [] = 0 := rfl

theorem files_cons (m : Member) (ms : List Member) :
    files (m :: ms) = files ms + if m.2 = .dir then 0 else 1 := by
  rw [files, List.countP_cons, files]
  by_cases h : m.2 = .dir
  · simp [h]
  · simp [h]

/-- The count of files is checked at every one of them. -/
theorem counted_some {m : Member} {n n' : Nat} (h : counted m n = some n') (hn : n < 2 ^ 31) :
    n' < 2 ^ 31 ∧ ∀ ms, n + files (m :: ms) = n' + files ms := by
  rw [counted_eq] at h
  by_cases hdir : m.2 = .dir
  · rw [if_pos hdir] at h
    obtain rfl := Option.some.inj h
    refine ⟨hn, fun ms => ?_⟩
    rw [files_cons, if_pos hdir, Nat.add_zero]
  · rw [if_neg hdir] at h
    by_cases hmore : n + 1 < 2 ^ 31
    · rw [if_pos hmore] at h
      obtain rfl := Option.some.inj h
      refine ⟨hmore, fun ms => ?_⟩
      rw [files_cons, if_neg hdir]
      omega
    · rw [if_neg hmore] at h
      exact absurd h (by simp)

theorem counted_none {m : Member} {n : Nat} (h : counted m n = none) (ms : List Member) :
    ¬ n + files (m :: ms) < 2 ^ 31 := by
  rw [counted_eq] at h
  by_cases hdir : m.2 = .dir
  · rw [if_pos hdir] at h
    exact absurd h (by simp)
  · rw [if_neg hdir] at h
    by_cases hmore : n + 1 < 2 ^ 31
    · rw [if_pos hmore] at h
      exact absurd h (by simp)
    · rw [files_cons, if_neg hdir]
      omega

/-- With the files of the rest counted, the loop is the insertion of the rest. -/
theorem parseLoop_eq {data : Bytes} (hlen : data.length < 2 ^ 63) (n : Nat) : ∀ s : Parsing,
    data.length - s.offset ≤ n → s.offset ≤ data.length + 2 ^ 37 → s.fileCount < 2 ^ 31 →
      parseLoop data s = if s.fileCount + files (membersFrom data s.offset) < 2 ^ 31
        then insertAll s.root (membersFrom data s.offset) else none := by
  have hblock : BLOCK = 512 := rfl
  have hend : ∀ s : Parsing, s.offset ≤ data.length + 2 ^ 37 → s.fileCount < 2 ^ 31 →
      fieldsAt data s.offset = none →
      parseLoop data s = if s.fileCount + files (membersFrom data s.offset) < 2 ^ 31
        then insertAll s.root (membersFrom data s.offset) else none := by
    intro s hoff hcount hfields
    rw [membersFrom_none hfields, files_nil, Nat.add_zero, if_pos hcount]
    exact loop_done (parseStep_none (by omega) hfields)
  induction n with
  | zero =>
      intro s hn hoff hcount
      refine hend s hoff hcount ?_
      rcases hfields : fieldsAt data s.offset with - | fields
      · rfl
      · have hstop := (fieldsAt_size hfields).1
        omega
  | succ n ih =>
      intro s hn hoff hcount
      rcases hfields : fieldsAt data s.offset with - | fields
      · exact hend s hoff hcount hfields
      obtain ⟨hstop, hsize⟩ := fieldsAt_size hfields
      have hstep := parseStep_some (s := s) (by omega) hfields
      have hpad : (fields.size + BLOCK - 1) / BLOCK * BLOCK ≤ fields.size + BLOCK - 1 :=
        Nat.div_mul_le_self _ _
      have hleft : data.length - behind (s.offset + BLOCK) fields.size ≤ n := by
        unfold behind
        omega
      have hnext : behind (s.offset + BLOCK) fields.size ≤ data.length + 2 ^ 37 := by
        unfold behind
        omega
      rw [membersFrom_some hfields]
      rcases hmember : memberAt data (s.offset + BLOCK) fields with - | m
      · rw [hmember] at hstep
        rw [Option.toList_none, List.nil_append]
        exact (loop_turn hstep).trans (ih _ hleft hnext hcount)
      · rw [hmember] at hstep
        rw [Option.toList_some, List.singleton_append]
        rcases hins : Ramfs.insertParts (nodeOf m.2) m.1 s.root with - | root
        · rw [insertAll_cons_none hins, ite_self]
          apply loop_none
          rw [hstep]
          simp [hins]
        · rw [insertAll_cons hins]
          rcases hcounted : counted m s.fileCount with - | count
          · rw [if_neg (counted_none hcounted _)]
            apply loop_none
            rw [hstep]
            simp [hcounted]
          · obtain ⟨hlt, hfiles⟩ := counted_some hcounted hcount
            have hturn : parseStep data s = some (.inl
                ⟨behind (s.offset + BLOCK) fields.size, root, count⟩) := by
              rw [hstep]
              dsimp only
              rw [hcounted, Option.bind_some, hins, Option.map_some]
            rw [hfiles]
            exact (loop_turn hturn).trans (ih _ hleft hnext hlt)

/-- The checks find nothing but too many files. -/
theorem parseUstar_eq {data : Bytes} (hlen : data.length < 2 ^ 63) : parseUstar data
    = if files (members data) < 2 ^ 31 then Ramfs.parseUncounted data else none := by
  have h := parseLoop_eq hlen data.length ⟨0, [], 0⟩ (Nat.sub_le _ _) (Nat.zero_le _)
    (Nat.two_pow_pos 31)
  rw [Nat.zero_add] at h
  rw [parseUstar, h, Ramfs.parseUncounted, parseFrom_eq_insertAll]
  rfl

/-- A terabyte of archive has fewer files than the counter can count. -/
theorem files_lt {data : Bytes} (h : data.length < 2 ^ 40) : files (members data) < 2 ^ 31 := by
  have hlen := length_membersFrom data 0
  have hcount : files (members data) ≤ (membersFrom data 0).length :=
    List.countP_le_length
  unfold BLOCK at hlen
  omega

theorem parseUstar_short {data : Bytes} (h : data.length < 2 ^ 40) :
    parseUstar data = Ramfs.parseUncounted data := by
  have hlen : data.length < 2 ^ 63 := Nat.lt_trans h (by decide)
  rw [parseUstar_eq hlen, if_pos (files_lt h)]

/-! ### The claim about panics -/

/-- A slice of bytes, which in Rust never has half of all addresses. -/
structure Slice where
  bytes : Bytes
  length_lt : bytes.length < 2 ^ 63

/-- `parse_ustar`, followed by `to_vnode`. -/
def parsed (data : Slice) : Option VNode :=
  (parseUstar data.bytes).map fun root => (Node.dir root).toVNode

/-- No member leads through a path whose first member is a file. -/
def OpenPaths (ms : List Member) : Prop :=
  ∀ pre m post, ms = pre ++ m :: post → ∀ q data, q <+: m.1 → q ≠ m.1 →
    pre.find? (fun m' => q <+: m'.1) ≠ some (q, .file data)

theorem blocked_iff {pre : List Member} {path : List Text} (hne : ∀ m ∈ pre, m.1 ≠ []) :
    Blocked (planted (entryAt []) pre) path ↔ ∃ q data, q <+: path ∧ q ≠ path ∧
      pre.find? (fun m => q <+: m.1) = some (q, .file data) := by
  unfold Blocked planted
  rw [entryAt_empty]
  refine exists_congr fun q => exists_congr fun data => and_congr_right fun _ =>
    and_congr_right fun _ => ?_
  rw [← firstNeed_eq_file]
  rcases q with - | ⟨n, q⟩
  · refine iff_of_false (by simp [bare]) ?_
    rw [firstNeed_eq_file]
    intro hfind
    exact hne _ (List.mem_of_find?_eq_some hfind) rfl
  · rw [bare, Option.none_or]

/-- **The parser returns a tree exactly when there are fewer than 2^31 files and no member
finds a file where it needs a directory.** -/
theorem parsed_isSome_iff (data : Slice) : (parsed data).isSome = true ↔
    files (members data.bytes) < 2 ^ 31 ∧ OpenPaths (members data.bytes) := by
  rw [parsed, Option.isSome_map, parseUstar_eq data.length_lt, Ramfs.parseUncounted,
    parseFrom_eq_insertAll]
  have hne : ∀ m ∈ membersFrom data.bytes 0, m.1 ≠ [] := path_ne_nil_of_mem
  by_cases hfiles : files (members data.bytes) < 2 ^ 31
  · rw [if_pos hfiles, and_iff_right hfiles, insertAll_isSome_iff]
    refine forall_congr' fun pre => forall_congr' fun m => forall_congr' fun post =>
      forall_congr' fun hsplit => ?_
    rw [blocked_iff fun m' hm' => hne m' (hsplit ▸ List.mem_append_left _ hm')]
    simp only [not_exists, not_and, ne_eq]
  · rw [if_neg hfiles]
    exact iff_of_false (by simp) fun h => hfiles h.1

/-! A file `d`, and a file `d/a` behind it. -/

/-- The header of a file `d`. -/
def fileHeader : Bytes :=
  Text.encode ['d'] ++ (List.replicate 123 0 ++ demoHeader.drop 124)

theorem file_header : Header [['d']] (.file [0x41]) fileHeader where
  length := by
    rw [fileHeader, List.length_append, List.length_append, List.length_replicate,
      List.length_drop, demo_header.length]
    decide
  name := ⟨['d'], 99, @StoredName.file _ [] [0x41] (by decide) (by decide), by decide⟩
  size := by
    obtain ⟨text, hfield, hslice⟩ := demo_header.size
    exact ⟨text, hfield, by rw [← hslice]; decide⟩
  typeflag := Or.inl (by decide)
  magic := by decide
  noPrefix := by decide

/-- An archive of one file. -/
def fileMember : Bytes := fileHeader ++ ([0x41] ++ List.replicate 511 0)

/-- The second finds a file where it expects a directory. -/
theorem expected_dir_node : ∃ data, data.bytes = fileMember ++ demoMember 0x41 ∧
    parsed data = none := by
  have hvalid : ∀ s ∈ [['d']], ValidName s := by
    intro s hs
    rw [List.mem_singleton.mp hs]
    constructor <;> decide
  have hpad : (Entry.file [0x41] : Entry Bytes).bytes.length
      + (List.replicate 511 (0 : UInt8)).length
      = ((Entry.file [0x41] : Entry Bytes).bytes.length + BLOCK - 1) / BLOCK * BLOCK := by
    rw [List.length_replicate]
    decide
  have hfile : insertParts (nodeOf (.file [0x41])) [['d']] [] = some [(['d'], .file [0x41])] := rfl
  have hbelow : Ramfs.insertParts (nodeOf (.file [0x41])) [['d'], ['a']] [(['d'], .file [0x41])]
      = none := rfl
  have hlen : (fileMember ++ demoMember 0x41).length < 2 ^ 63 := by
    simp only [fileMember, demoMember, List.length_append, List.length_replicate,
      file_header.length, demo_header.length]
    decide
  have hparse : Ramfs.parseUncounted (fileMember ++ demoMember 0x41) = none := by
    have hsecond := parseFrom_demoMember 0x41 fileMember [] [(['d'], .file [0x41])]
    rw [hbelow, Option.bind_none, List.append_nil] at hsecond
    have hfirst : parseFrom ([] ++ (fileHeader ++ ([0x41] ++ (List.replicate 511 0
        ++ demoMember 0x41)))) ([] : Bytes).length [] = (insertParts (nodeOf (.file [0x41])) [['d']]
          []).bind fun root => parseFrom ([] ++ (fileHeader ++ ([0x41] ++ (List.replicate 511 0
            ++ demoMember 0x41)))) ([] ++ (fileHeader ++ ([0x41] ++ List.replicate 511 0))).length
            root :=
      parseFrom_member file_header hvalid hpad []
    rw [hfile, Option.bind_some, List.nil_append, List.nil_append, ← List.append_assoc [0x41],
      ← List.append_assoc fileHeader, ← fileMember, hsecond] at hfirst
    exact hfirst
  refine ⟨⟨_, hlen⟩, rfl, ?_⟩
  rw [parsed, parseUstar_eq hlen, hparse, ite_self]
  rfl

end Checked

end Ramfs

end Amaterasu
