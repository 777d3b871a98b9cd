/-
A ustar archive, read back through the VFS.

`FileTree` is what an archive is made from: a finite tree of directories and files.
`Archive` says what encoding it means, without saying how: members in any order, each
a header block and its data padded to whole blocks, directories listed or left to be
implied.  The parser reads one member off at a time, so the tree it builds grows as the
abstract one does, and a whole listing gives the whole tree
(`parse_archive`).  What a lookup then returns is read off the tree
(`mounted_of_entryAt`).
-/
import Amaterasu.Fs.Members

namespace Amaterasu

open Ramfs

/-! ### Trees and archives -/

/-- A name a component can have. -/
structure ValidName (s : Text) : Prop where
  nonempty : s ≠ []
  dot : s ≠ ['.']
  dotdot : s ≠ ['.', '.']
  slash : '/' ∉ s
  nul : '\x00' ∉ s

/-- A tree of directories and files with names that can be stored. -/
structure FileTree extends PathTree Text Bytes where
  names : ∀ p, node p ≠ none → ∀ s ∈ p, ValidName s

def Entry.bytes : Entry Bytes → Bytes
  | .dir => []
  | .file data => data

/-- The components of a path with slashes between them. -/
def joinPath (path : List Text) : Text := List.intercalate ['/'] path

/-- What may stand before the first component. -/
def leads : List Text := [[], ['.', '/']]

/-- The names a member may be stored under. -/
inductive StoredName : List Text → Entry Bytes → Text → Prop
  | top : StoredName [] .dir ['.']
  | topSlash : StoredName [] .dir ['.', '/']
  | file {path : List Text} {lead : Text} (data : Bytes) (hne : path ≠ []) (hlead : lead ∈ leads) :
      StoredName path (.file data) (lead ++ joinPath path)
  | dir {path : List Text} {lead : Text} (hne : path ≠ []) (hlead : lead ∈ leads) :
      StoredName path .dir (lead ++ joinPath path ++ ['/'])

/-- A number as a header stores it: octal digits, with spaces before or after them and
null characters at the end. -/
structure OctalField (n : Nat) (text : Text) : Prop where
  shape : ∃ before digits after nuls, text =
    List.replicate before ' ' ++ digits ++ List.replicate after ' ' ++ List.replicate nuls '\x00' ∧
    digits ≠ [] ∧ (∀ c ∈ digits, Text.IsDigit 8 c) ∧ Text.digitsValue 8 digits = n

/-- The header block of a member.  Only the fields the parser reads are fixed, and the
prefix field, which it does not read, is empty. -/
structure Header (path : List Text) (e : Entry Bytes) (h : Bytes) : Prop where
  length : h.length = BLOCK
  name : ∃ name k, StoredName path e name ∧
    slice h NAME_OFF NAME_LEN = Text.encode name ++ List.replicate k 0
  size : ∃ text, OctalField e.bytes.length text ∧ slice h SIZE_OFF SIZE_LEN = Text.encode text
  typeflag : match e with
    | .dir => h.getD TYPE_OFF 0 = 0x35
    | .file _ => h.getD TYPE_OFF 0 = 0x30 ∨ h.getD TYPE_OFF 0 = 0
  magic : slice h MAGIC_OFF MAGIC.length = MAGIC
  noPrefix : slice h 345 155 = List.replicate 155 0

/-- An archive of some members: each with its data padded to whole blocks, up to a zero
block or the end of the data. -/
inductive Archive : List (List Text × Entry Bytes) → Bytes → Prop
  | endOfData {rest : Bytes} (h : rest.length < BLOCK) : Archive [] rest
  | zeroBlock (rest : Bytes) : Archive [] (List.replicate BLOCK 0 ++ rest)
  | member {path : List Text} {e : Entry Bytes} {ms : List (List Text × Entry Bytes)}
      {header pad rest : Bytes} (hheader : Header path e header)
      (hpad : e.bytes.length + pad.length = (e.bytes.length + BLOCK - 1) / BLOCK * BLOCK)
      (hrest : Archive ms rest) : Archive ((path, e) :: ms) (header ++ (e.bytes ++ (pad ++ rest)))

/-! ### Reading a header -/

theorem isWhitespace_digit {c : Char} (h : Text.IsDigit 8 c) : Text.isWhitespace c = false := by
  obtain ⟨hlo, hhi⟩ := h
  have h48 : '0'.toNat = 48 := rfl
  rw [h48] at hlo hhi
  simp only [Text.isWhitespace, Bool.or_eq_false_iff, Bool.and_eq_false_iff,
    decide_eq_false_iff_not, beq_eq_false_iff_ne]
  omega

theorem length_le_encode (s : Text) : s.length ≤ (Text.encode s).length := by
  induction s with
  | nil => exact Nat.le_refl 0
  | cons c s ih =>
      have hc := c.utf8Size_pos
      have hlen : (Text.encode (c :: s)).length = c.utf8Size + (Text.encode s).length := by
        simp [Text.encode]
      rw [hlen, List.length_cons]
      omega

/-- A size field is read as the number it stores. -/
theorem parseOctal_field {n : Nat} {text : Text} (h : OctalField n text)
    (hlen : (Text.encode text).length ≤ SIZE_LEN) : parseOctal (Text.encode text) = n := by
  obtain ⟨before, digits, after, nuls, rfl, hne, hdigits, hvalue⟩ := h.shape
  have hshort : digits.length ≤ 12 := by
    have := length_le_encode (List.replicate before ' ' ++ digits ++ List.replicate after ' ' ++
      List.replicate nuls '\x00')
    have hsize : SIZE_LEN = 12 := rfl
    simp only [List.length_append] at this
    omega
  have hfit : Text.digitsValue 8 digits < 2 ^ 64 := by
    have hlt := Text.digitsValue_lt hdigits
    have hpow : 8 ^ digits.length ≤ 8 ^ 12 := Nat.pow_le_pow_right (by omega) hshort
    omega
  have hnul : ∀ c ∈ List.replicate before ' ' ++ digits ++ List.replicate after ' ',
      (c == '\x00') = false := by
    intro c hc
    rw [beq_eq_false_iff_ne]
    rintro rfl
    simp only [List.mem_append, List.mem_replicate] at hc
    rcases hc with (⟨-, h⟩ | h) | ⟨-, h⟩
    · exact absurd h (by decide)
    · exact absurd (hdigits _ h).1 (by decide)
    · exact absurd h (by decide)
  have htrim : Text.trimMatches (· == '\x00') (List.replicate before ' ' ++ digits ++
      List.replicate after ' ' ++ List.replicate nuls '\x00')
      = List.replicate before ' ' ++ digits ++ List.replicate after ' ' := by
    have := Text.trimMatches_append (p := (· == '\x00')) (l := []) (by simp)
      (fun c (hc : c ∈ List.replicate nuls '\x00') => by
        rw [(List.mem_replicate.mp hc).2]
        rfl)
      (s := List.replicate before ' ' ++ digits ++ List.replicate after ' ') (by simp [hne])
      (fun c hc => hnul c (List.mem_of_mem_head? hc))
      (fun c hc => hnul c (List.mem_of_mem_getLast? hc))
    simpa using this
  have hspace : ∀ k, ∀ c ∈ List.replicate k ' ', Text.isWhitespace c = true := by
    intro k c hc
    rw [(List.mem_replicate.mp hc).2]
    rfl
  rw [parseOctal, Text.fromUtf8_encode]
  simp only [Option.getD_some]
  rw [htrim, Text.trim, Text.trimMatches_append (hspace before) (hspace after) hne
    (fun c hc => isWhitespace_digit (hdigits c (List.mem_of_mem_head? hc)))
    (fun c hc => isWhitespace_digit (hdigits c (List.mem_of_mem_getLast? hc))),
    Text.usizeFromRadix_digits (by omega) hne hdigits hfit, hvalue]
  rfl

/-! ### The name of a member -/

theorem joinPath_singleton (n : Text) : joinPath [n] = n := by
  simp [joinPath]

theorem joinPath_cons {n : Text} {rest : List Text} (h : rest ≠ []) :
    joinPath (n :: rest) = n ++ '/' :: joinPath rest := by
  obtain ⟨m, rest, rfl⟩ := List.exists_cons_of_ne_nil h
  simp [joinPath, List.intercalate]

section Path

variable {path : List Text}

theorem joinPath_ne_nil (hne : path ≠ []) (hvalid : ∀ s ∈ path, ValidName s) :
    joinPath path ≠ [] := by
  obtain ⟨n, rest, rfl⟩ := List.exists_cons_of_ne_nil hne
  have hn := (hvalid n List.mem_cons_self).nonempty
  rcases eq_or_ne rest [] with rfl | hrest
  · rw [joinPath_singleton]
    exact hn
  · rw [joinPath_cons hrest]
    simp

theorem joinPath_head (hne : path ≠ []) (hvalid : ∀ s ∈ path, ValidName s) :
    ∀ c ∈ (joinPath path).head?, c ≠ '/' := by
  obtain ⟨n, rest, rfl⟩ := List.exists_cons_of_ne_nil hne
  have hn := hvalid n List.mem_cons_self
  have hhead : (joinPath (n :: rest)).head? = n.head? := by
    rcases eq_or_ne rest [] with rfl | hrest
    · rw [joinPath_singleton]
    · rw [joinPath_cons hrest, List.head?_append_of_ne_nil _ hn.nonempty]
  rw [hhead]
  rintro c hc rfl
  exact hn.slash (List.mem_of_mem_head? hc)

theorem joinPath_last (hne : path ≠ []) (hvalid : ∀ s ∈ path, ValidName s) :
    ∀ c ∈ (joinPath path).getLast?, c ≠ '/' := by
  induction path with
  | nil => exact absurd rfl hne
  | cons n rest ih =>
      have hn := hvalid n List.mem_cons_self
      rcases eq_or_ne rest [] with rfl | hrest
      · rw [joinPath_singleton]
        rintro c hc rfl
        exact hn.slash (List.mem_of_mem_getLast? hc)
      · have hrestvalid : ∀ s ∈ rest, ValidName s := fun s hs =>
          hvalid s (List.mem_cons_of_mem _ hs)
        rw [joinPath_cons hrest, List.getLast?_append_of_ne_nil _ (by simp),
          List.getLast?_cons_of_ne_nil (joinPath_ne_nil hrest hrestvalid)]
        exact ih hrest hrestvalid

theorem components_joinPath (hne : path ≠ []) (hvalid : ∀ s ∈ path, ValidName s) :
    Text.components '/' (joinPath path) = path :=
  Text.components_join hne fun s hs => ⟨(hvalid s hs).nonempty, (hvalid s hs).slash⟩

theorem joinPath_ne_dot (hne : path ≠ []) (hvalid : ∀ s ∈ path, ValidName s) :
    joinPath path ≠ ['.'] := by
  intro h
  have hcomp := components_joinPath hne hvalid
  rw [h] at hcomp
  have hdot : Text.components '/' ['.'] = [['.']] := by decide
  have hmem : ['.'] ∈ path := by
    rw [← hcomp, hdot]
    exact List.mem_singleton.mpr rfl
  exact (hvalid _ hmem).dot rfl

/-- A name that is not "." does not begin with "./". -/
theorem trimStart_joinPath (hne : path ≠ []) (hvalid : ∀ s ∈ path, ValidName s) :
    Text.trimStartMatches '.' '/' (joinPath path) = joinPath path := by
  obtain ⟨n, rest, rfl⟩ := List.exists_cons_of_ne_nil hne
  have hn := hvalid n List.mem_cons_self
  obtain ⟨tail, htail⟩ : ∃ tail, joinPath (n :: rest) = n ++ tail := by
    rcases eq_or_ne rest [] with rfl | hrest
    · exact ⟨[], by rw [joinPath_singleton, List.append_nil]⟩
    · exact ⟨_, joinPath_cons hrest⟩
  rw [htail]
  rcases n with - | ⟨c, - | ⟨d, n⟩⟩
  · exact absurd rfl hn.nonempty
  · -- One character, so not the dot.
    rcases tail with - | ⟨d, tail⟩
    · rfl
    · rw [List.cons_append, List.nil_append, Text.trimStartMatches, if_neg]
      rintro ⟨rfl, -⟩
      exact hn.dot rfl
  · rw [List.cons_append, List.cons_append, Text.trimStartMatches, if_neg]
    rintro ⟨-, rfl⟩
    exact hn.slash (by simp)

theorem nul_notMem_joinPath (hvalid : ∀ s ∈ path, ValidName s) : '\x00' ∉ joinPath path := by
  induction path with
  | nil => exact List.not_mem_nil
  | cons n rest ih =>
      have hn := (hvalid n List.mem_cons_self).nul
      have hrestnul := ih fun s hs => hvalid s (List.mem_cons_of_mem _ hs)
      rcases eq_or_ne rest [] with rfl | hrest
      · rw [joinPath_singleton]
        exact hn
      · rw [joinPath_cons hrest]
        simp [hn, hrestnul]

theorem lead_append_trim {lead r : Text} (hlead : lead ∈ leads) (hr : ∀ c ∈ r, c = '/')
    (hne : path ≠ []) (hvalid : ∀ s ∈ path, ValidName s) :
    Text.trimStartMatches '.' '/' (Text.trimMatches (· == '/') (lead ++ joinPath path ++ r))
      = joinPath path := by
  have hjoin := joinPath_ne_nil hne hvalid
  have htrim :
      Text.trimMatches (· == '/') (lead ++ joinPath path ++ r) = lead ++ joinPath path := by
    have := Text.trimMatches_append (p := (· == '/')) (l := []) (s := lead ++ joinPath path)
      (r := r)
      (by simp) (fun c hc => by rw [hr c hc]; rfl) (by simp [hjoin]) ?_ ?_
    · simpa using this
    · intro c hc
      rw [beq_eq_false_iff_ne]
      rcases (by simpa [leads] using hlead : lead = [] ∨ lead = ['.', '/']) with rfl | rfl
      · exact joinPath_head hne hvalid c hc
      · obtain rfl : '.' = c := by simpa using hc
        decide
    · intro c hc
      rw [beq_eq_false_iff_ne]
      rw [List.getLast?_append_of_ne_nil _ hjoin] at hc
      exact joinPath_last hne hvalid c hc
  rw [htrim]
  rcases (by simpa [leads] using hlead : lead = [] ∨ lead = ['.', '/']) with rfl | rfl
  · exact trimStart_joinPath hne hvalid
  · show Text.trimStartMatches '.' '/' ('.' :: '/' :: joinPath path) = _
    rw [Text.trimStartMatches, if_pos ⟨rfl, rfl⟩]
    exact trimStart_joinPath hne hvalid

end Path

theorem trimNul_encode {name : Text} (k : Nat) (h : '\x00' ∉ name) :
    trimNul (Text.encode name ++ List.replicate k 0) = Text.encode name := by
  unfold trimNul
  have hzero := Text.zero_notMem_encode h
  rw [List.takeWhile_append_of_pos]
  · have hk : (List.replicate k (0 : UInt8)).takeWhile (· != 0) = [] := by
      cases k <;> rfl
    rw [hk, List.append_nil]
  · intro b hb
    rw [bne_iff_ne]
    rintro rfl
    exact hzero hb

/-- A member below the root is known by the components of its path. -/
theorem memberName_of_ne {path : List Text} {e : Entry Bytes} {h : Bytes}
    (hheader : Header path e h) (hne : path ≠ []) (hvalid : ∀ s ∈ path, ValidName s) :
    memberName h = joinPath path := by
  obtain ⟨name, k, hstored, hslice⟩ := hheader.name
  have hnul := nul_notMem_joinPath hvalid
  have hleadnul : ∀ lead ∈ leads, '\x00' ∉ lead := by decide
  unfold memberName
  cases hstored with
  | top => exact absurd rfl hne
  | topSlash => exact absurd rfl hne
  | @file _ lead data _ hlead =>
      rw [hslice, trimNul_encode, Text.fromUtf8_encode, Option.getD_some]
      · have := lead_append_trim (r := []) hlead (by simp) hne hvalid
        rwa [List.append_nil] at this
      · simp [hnul, hleadnul lead hlead]
  | @dir _ lead _ hlead =>
      rw [hslice, trimNul_encode, Text.fromUtf8_encode, Option.getD_some]
      · exact lead_append_trim hlead (by simp) hne hvalid
      · simp [hnul, hleadnul lead hlead]

/-- A member that stands for the root is known as ".". -/
theorem memberName_root {e : Entry Bytes} {h : Bytes} (hheader : Header [] e h) :
    memberName h = ['.'] := by
  obtain ⟨name, k, hstored, hslice⟩ := hheader.name
  unfold memberName
  cases hstored with
  | top =>
      rw [hslice, trimNul_encode _ (by decide), Text.fromUtf8_encode]
      rfl
  | topSlash =>
      rw [hslice, trimNul_encode _ (by decide), Text.fromUtf8_encode]
      rfl
  | file data hne => exact absurd rfl hne
  | dir hne => exact absurd rfl hne

/-! ### Reading members off an archive -/

theorem slice_append (pre mid post : Bytes) :
    slice (pre ++ (mid ++ post)) pre.length mid.length = mid := by
  rw [slice, List.drop_left, List.take_left]

section Member

variable {path : List Text} {e : Entry Bytes} {header : Bytes} {pre post : Bytes}

theorem Header.parseOctal_size (hheader : Header path e header) :
    parseOctal (slice header SIZE_OFF SIZE_LEN) = e.bytes.length := by
  obtain ⟨text, hfield, hslice⟩ := hheader.size
  rw [hslice]
  apply parseOctal_field hfield
  rw [← hslice, slice]
  exact List.length_take_le _ _

/-- A header is no zero block: it has the magic. -/
theorem Header.not_zero (hheader : Header path e header) : header.all (· == 0) = false := by
  by_contra hall
  rw [Bool.not_eq_false, List.all_eq_true] at hall
  have hmem : (0x75 : UInt8) ∈ slice header MAGIC_OFF MAGIC.length := by
    rw [hheader.magic]
    decide
  have := hall _ (List.mem_of_mem_drop (List.mem_of_mem_take hmem))
  exact absurd this (by decide)

/-- The data that is read behind a header is the data of the member. -/
theorem data_slice (pre post data : Bytes) :
    (if data.length > 0 ∧ pre.length + data.length ≤ (pre ++ (data ++ post)).length then
      slice (pre ++ (data ++ post)) pre.length data.length else []) = data := by
  by_cases hpos : data.length > 0
  · rw [if_pos ⟨hpos, by simp only [List.length_append]; omega⟩, slice_append]
  · rw [if_neg (fun h => hpos h.1)]
    exact (List.eq_nil_of_length_eq_zero (by omega)).symm

/-- What a member adds: an entry below the root, and nothing for the root itself. -/
theorem insertMember_eq (pre post : Bytes) (hheader : Header path e header)
    (hvalid : ∀ s ∈ path, ValidName s) (root : Entries) :
    insertMember (pre ++ (e.bytes ++ post)) pre.length header root
      = insertParts (nodeOf e) path root := by
  have hnode : (if header.getD TYPE_OFF 0 = 0x35 then Node.dir [] else Node.file e.bytes)
      = nodeOf e := by
    have htype := hheader.typeflag
    rcases e with - | data
    · rw [if_pos htype]
      rfl
    · rw [if_neg]
      · rfl
      · intro h
        rw [h] at htype
        rcases htype with h | h
        · exact absurd h (by decide)
        · exact absurd h (by decide)
  unfold insertMember
  simp only [hheader.parseOctal_size, data_slice, hnode]
  rcases eq_or_ne path [] with rfl | hne
  · rw [memberName_root hheader, if_neg (by simp)]
    rfl
  · rw [memberName_of_ne hheader hne hvalid,
      if_pos ⟨joinPath_ne_nil hne hvalid, joinPath_ne_dot hne hvalid⟩, Ramfs.insert,
      components_joinPath hne hvalid]

/-- The parser reads one member and goes on behind it. -/
theorem parseFrom_member {pad : Bytes} (hheader : Header path e header)
    (hvalid : ∀ s ∈ path, ValidName s)
    (hpad : e.bytes.length + pad.length = (e.bytes.length + BLOCK - 1) / BLOCK * BLOCK)
    (root : Entries) :
    parseFrom (pre ++ (header ++ (e.bytes ++ (pad ++ post)))) pre.length root
      = (insertParts (nodeOf e) path root).bind fun root' =>
          parseFrom (pre ++ (header ++ (e.bytes ++ (pad ++ post))))
            (pre ++ (header ++ (e.bytes ++ pad))).length root' := by
  have hblock := hheader.length
  have hread : slice (pre ++ (header ++ (e.bytes ++ (pad ++ post)))) pre.length BLOCK = header := by
    rw [← hblock]
    exact slice_append _ _ _
  have hinsert : insertMember (pre ++ (header ++ (e.bytes ++ (pad ++ post)))) (pre.length + BLOCK)
      header root = insertParts (nodeOf e) path root := by
    have := insertMember_eq (pre ++ header) (pad ++ post) hheader hvalid root
    rwa [List.append_assoc, List.length_append, hblock] at this
  have hnext : pre.length + BLOCK + (e.bytes.length + BLOCK - 1) / BLOCK * BLOCK
      = (pre ++ (header ++ (e.bytes ++ pad))).length := by
    simp only [List.length_append]
    omega
  rw [parseFrom, dif_pos (by simp only [List.length_append]; omega)]
  simp only [hread, hheader.not_zero, hheader.magic, hheader.parseOctal_size, hinsert, hnext,
    ne_eq, not_true_eq_false, if_false, Bool.false_eq_true]

end Member

/-- An archive of no members has no block at its place, or a zero block. -/
theorem archive_end {pre rest : Bytes} (h : Archive [] rest)
    (hfit : pre.length + BLOCK ≤ (pre ++ rest).length) :
    (slice (pre ++ rest) pre.length BLOCK).all (· == 0) = true := by
  cases h with
  | endOfData h =>
      rw [List.length_append] at hfit
      omega
  | zeroBlock rest =>
      have hread : slice (pre ++ (List.replicate BLOCK 0 ++ rest)) pre.length BLOCK
          = List.replicate BLOCK 0 := by
        have := slice_append pre (List.replicate BLOCK (0 : UInt8)) rest
        rwa [List.length_replicate] at this
      rw [hread, List.all_eq_true]
      intro b hb
      rw [(List.mem_replicate.mp hb).2]
      rfl

/-- The parser stops at a zero block and at the end of the data. -/
theorem parseFrom_end {pre rest : Bytes} (h : Archive [] rest) (root : Entries) :
    parseFrom (pre ++ rest) pre.length root = some root := by
  rw [parseFrom]
  by_cases hfit : pre.length + BLOCK ≤ (pre ++ rest).length
  · rw [dif_pos hfit]
    exact if_pos (archive_end h hfit)
  · rw [dif_neg hfit]

/-- **The loop.**  From a tree grown from some members, reading the rest of a listing
gives the whole tree. -/
theorem parseFrom_archive {T : FileTree} {ms₂ : List (List Text × Entry Bytes)} {rest : Bytes}
    (harchive : Archive ms₂ rest) :
    ∀ (ms₁ : List (List Text × Entry Bytes)) (pre : Bytes) (root : Entries),
      T.Lists (ms₁ ++ ms₂) → PathTree.Grown T.toPathTree ms₁ (entryAt root) → Distinct root →
      ∃ root', parseFrom (pre ++ rest) pre.length root = some root' ∧
        entryAt root' = T.node ∧ Distinct root' := by
  induction harchive with
  | endOfData h =>
      intro ms₁ pre root hlists hgrown hdist
      rw [List.append_nil] at hlists
      exact ⟨root, parseFrom_end (.endOfData h) root, hgrown.eq_node hlists, hdist⟩
  | zeroBlock rest =>
      intro ms₁ pre root hlists hgrown hdist
      rw [List.append_nil] at hlists
      exact ⟨root, parseFrom_end (.zeroBlock rest) root, hgrown.eq_node hlists, hdist⟩
  | @member path e ms header pad rest hheader hpad hrest ih =>
      intro ms₁ pre root hlists hgrown hdist
      have hmem : (path, e) ∈ ms₁ ++ (path, e) :: ms := by simp
      have hnode : T.node path = some e := hlists.node _ hmem
      have hvalid : ∀ s ∈ path, ValidName s := by
        apply T.names path
        rw [hnode]
        exact Option.some_ne_none e
      have hnew : path ∉ ms₁.map Prod.fst := by
        have honce := hlists.once
        rw [List.map_append, List.nodup_append] at honce
        intro hin
        exact honce.2.2 path hin path (by simp) rfl
      have hlists' : T.Lists ((ms₁ ++ [(path, e)]) ++ ms) := by
        rwa [List.append_assoc, List.singleton_append]
      have hgrown' : PathTree.Grown T.toPathTree (ms₁ ++ [(path, e)])
          (PathTree.grow (entryAt root) path e) := hgrown.grow hnode
      have hadmits := hgrown.admits hnode hnew fun m hm =>
        hlists.node m (List.mem_append_left _ hm)
      obtain ⟨root', hinsert, hentry, hdist'⟩ := insertParts_spec hadmits
      rw [← hentry] at hgrown'
      obtain ⟨final, hparse, hfinal⟩ := ih (ms₁ ++ [(path, e)])
        (pre ++ (header ++ (e.bytes ++ pad))) root' hlists' hgrown' (hdist' hdist)
      refine ⟨final, ?_, hfinal⟩
      rw [parseFrom_member hheader hvalid hpad, hinsert, Option.bind_some, ← hparse]
      simp only [List.append_assoc]

/-! ### The round trip -/

/-- The bytes that consecutive reads return, from an offset on. -/
def VNode.readSeq (v : VNode) (offset : Nat) : List Bytes → Bytes
  | [] => []
  | buf :: bufs =>
      (v.read buf offset).1.take (v.read buf offset).2 ++
        v.readSeq (offset + (v.read buf offset).2) bufs

theorem readFile_count (data buf : Bytes) (offset : Nat) :
    (VNode.readFile data buf offset).2 = min buf.length (data.drop offset).length := by
  unfold VNode.readFile
  split
  · rw [List.length_drop]
    simp only []
    omega
  · rfl

theorem readFile_bytes (data buf : Bytes) (offset : Nat) :
    (VNode.readFile data buf offset).1.take (VNode.readFile data buf offset).2
      = (data.drop offset).take buf.length := by
  unfold VNode.readFile
  split
  · rename_i hge
    rw [List.drop_eq_nil_of_le hge]
    simp
  · have hlen : (List.take (min buf.length (data.drop offset).length) (data.drop offset)).length
        = min buf.length (data.drop offset).length := by
      rw [List.length_take]
      omega
    simp only []
    rw [List.take_append_of_le_length (by omega), List.take_take, min_self, ← List.take_eq_take_min]

/-- Consecutive reads return consecutive bytes, as many as the buffers hold. -/
theorem Stands.readSeq {v : VNode} {data : Bytes} (h : Stands v (.file data)) (bufs : List Bytes) :
    ∀ offset, v.readSeq offset bufs = (data.drop offset).take (bufs.map List.length).sum := by
  induction bufs with
  | nil =>
      intro offset
      simp [VNode.readSeq]
  | cons buf bufs ih =>
      intro offset
      have hdrop : data.drop (offset + min buf.length (data.drop offset).length)
          = (data.drop offset).drop buf.length := by
        rw [List.drop_drop, List.length_drop]
        rcases Nat.le_total buf.length (data.length - offset) with hle | hle
        · rw [Nat.min_eq_left hle]
        · rw [Nat.min_eq_right hle, List.drop_eq_nil_of_le (by omega),
            List.drop_eq_nil_of_le (by omega)]
      rw [VNode.readSeq, h.read, readFile_bytes, readFile_count, ih, hdrop, List.map_cons,
        List.sum_cons, List.take_add]

/-- A node is what the tree has at a path: a file with its bytes, or a directory that
lists its children, each once. -/
def FileTree.Shows (T : FileTree) (path : List Text) (v : VNode) : Prop :=
  match T.node path with
  | none => False
  | some (.file data) => v.kind = .file ∧ v.size = data.length ∧
      ∀ bufs offset, v.readSeq offset bufs = (data.drop offset).take (bufs.map List.length).sum
  | some .dir => v.kind = .dir ∧ v.readdir.Nodup ∧
      ∀ name, name ∈ v.readdir ↔ T.node (path ++ [name]) ≠ none

/-- The VFS answers as the tree does. -/
structure FileTree.Mounted (T : FileTree) (root : Option VNode) : Prop where
  found : ∀ path, (Vfs.lookup root path).isSome ↔
    Text.components '/' path ≠ [] ∧ T.node (Text.components '/' path) ≠ none
  shows : ∀ path v, Vfs.lookup root path = some v → T.Shows (Text.components '/' path) v
  top : ∃ v, T.Shows [] v ∧ ∀ f : VNode → List Text, Vfs.withRoot root f = some (f v)

theorem Stands.shows {T : FileTree} {root : Entries} {path : List Text} {v : VNode} {node : Node}
    (hentry : entryAt root = T.node) (hdist : Distinct root)
    (hfind : (Node.dir root).find path = some node) (h : Stands v node) : T.Shows path v := by
  have hnode : T.node path = some node.entry := by
    rw [← hentry, entryAt, hfind, Option.map_some]
  unfold FileTree.Shows
  rw [hnode]
  rcases node with data | entries
  · exact ⟨h.kind, h.size, fun bufs offset => h.readSeq bufs offset⟩
  · refine ⟨h.kind, ?_, ?_⟩
    · rw [h.readdir]
      exact hdist path entries hfind
    · intro name
      have hchild : T.node (path ++ [name]) = (child entries name).map Node.entry := by
        rw [← hentry, entryAt, find_append, hfind, Option.bind_some, find_dir_cons]
        cases child entries name <;> simp
      rw [h.readdir, hchild, ne_eq, Option.map_eq_none_iff, child_eq_none, not_not]

/-- **The parser builds the tree of an archive**, whatever the order of the members. -/
theorem parse_archive {T : FileTree} {ms : List (List Text × Entry Bytes)} {data : Bytes}
    (hlists : T.Lists ms) (harchive : Archive ms data) :
    ∃ tree, parseUncounted data = some tree ∧ entryAt tree = T.node ∧ Distinct tree := by
  have hstart : PathTree.Grown T.toPathTree [] (entryAt []) := by
    rw [entryAt_empty]
    exact PathTree.bare_grown _
  exact parseFrom_archive harchive [] [] [] hlists hstart distinct_empty

/-- A tree of entries that stands for another answers as it does. -/
theorem mounted_of_entryAt {T : FileTree} {tree : Entries} (hentry : entryAt tree = T.node)
    (hdist : Distinct tree) : T.Mounted (Vfs.mount (Node.dir tree).toVNode) := by
  have hroot := Stands.toVNode (Node.dir tree)
  refine ⟨?_, ?_, ?_⟩
  · intro path
    rcases eq_or_ne (Text.components '/' path) [] with hnil | hne
    · rw [Vfs.mount, Vfs.lookup_root _ _ hnil]
      simp [hnil]
    · have hwalk := hroot.walk (Text.components '/' path)
      rw [Vfs.mount, Vfs.lookup_eq _ _ hne, ← hentry, entryAt]
      rcases hfind : (Node.dir tree).find (Text.components '/' path) with - | node
      · rw [hfind] at hwalk
        rw [show List.foldlM _ _ _ = none from hwalk]
        simp
      · rw [hfind] at hwalk
        obtain ⟨w, hw, -⟩ := hwalk
        simp [hw, hne]
  · intro path v hv
    rcases eq_or_ne (Text.components '/' path) [] with hnil | hne
    · rw [Vfs.mount, Vfs.lookup_root _ _ hnil] at hv
      exact absurd hv (by simp)
    · have hwalk := hroot.walk (Text.components '/' path)
      rw [Vfs.mount, Vfs.lookup_eq _ _ hne] at hv
      rcases hfind : (Node.dir tree).find (Text.components '/' path) with - | node
      · rw [hfind] at hwalk
        rw [show List.foldlM _ _ _ = none from hwalk] at hv
        exact absurd hv (by simp)
      · rw [hfind] at hwalk
        obtain ⟨w, hw, hstands⟩ := hwalk
        rw [hw] at hv
        obtain rfl : w = v := Option.some.inj hv
        exact hstands.shows hentry hdist hfind
  · exact ⟨_, hroot.shows hentry hdist (find_nil _), fun f => rfl⟩

/-! One file in a directory that the archive does not list. -/

def demoTree : FileTree where
  node p :=
    if p = [] ∨ p = [['d']] then some .dir
    else if p = [['d'], ['a']] then some (.file [0x41]) else none
  root := by decide
  closed := by
    intro p n h
    rcases p with - | ⟨m, - | ⟨k, p⟩⟩
    · rfl
    · by_cases hm : m = ['d']
      · simp [hm]
      · simp [hm] at h
    · simp at h
  names := by
    intro p h s hs
    have hp : s = ['d'] ∨ s = ['a'] := by
      by_cases h₁ : p = [] ∨ p = [['d']]
      · rcases h₁ with rfl | rfl
        · exact absurd hs List.not_mem_nil
        · exact Or.inl (List.mem_singleton.mp hs)
      · by_cases h₂ : p = [['d'], ['a']]
        · simpa [h₂] using hs
        · simp [h₁, h₂] at h
    rcases hp with rfl | rfl
    · constructor <;> decide
    · constructor <;> decide

/-- The header of that file, its size written with eleven digits and a space. -/
def demoHeader : Bytes :=
  Text.encode ['d', '/', 'a'] ++ (List.replicate 121 0 ++ (List.replicate 10 0x30 ++ (0x31 ::
    0x20 :: (List.replicate 20 0 ++ (0x30 ::
      (List.replicate 100 0 ++ (MAGIC ++ List.replicate 250 0)))))))

theorem demo_header : Header [['d'], ['a']] (.file [0x41]) demoHeader where
  length := by
    simp only [demoHeader, List.length_append, List.length_replicate, List.length_cons]
    decide
  name := ⟨['d', '/', 'a'], 97, @StoredName.file _ [] [0x41] (by decide) (by decide), by decide⟩
  size := by
    refine ⟨List.replicate 10 '0' ++ ['1', ' '], ⟨0, List.replicate 10 '0' ++ ['1'], 1, 0, ?_⟩, ?_⟩
    · refine ⟨rfl, by decide, ?_, by decide⟩
      intro c hc
      rcases List.mem_append.mp hc with hc | hc
      · rw [(List.mem_replicate.mp hc).2]
        exact ⟨Nat.le_refl _, by decide⟩
      · rw [List.mem_singleton.mp hc]
        exact ⟨by decide, by decide⟩
    · decide
  typeflag := Or.inl (by decide)
  magic := by decide
  noPrefix := by decide

theorem demo_lists : demoTree.Lists [([['d'], ['a']], .file [0x41])] where
  node := by decide
  once := by decide
  all := by
    intro p hne h
    refine ⟨_, List.mem_singleton.mpr rfl, ?_⟩
    by_cases h₁ : p = [] ∨ p = [['d']]
    · rcases h₁ with rfl | rfl
      · exact absurd rfl hne
      · decide
    · by_cases h₂ : p = [['d'], ['a']]
      · rw [h₂]
      · simp [demoTree, h₁, h₂] at h

end Amaterasu
