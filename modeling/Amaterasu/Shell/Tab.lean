/-
The Tab key.

`complete` cuts its first candidate at two byte offsets: the length of what is typed, and
the length of the bytes that all candidates begin with.  The first is always the end of a
character.  The second is one unless the names part inside a character, and then the slice
panics.
-/
import Amaterasu.Lib.Utf8
import Amaterasu.Shell.History

namespace Amaterasu

open FixedBuffer

namespace Words

/-! ### What is completed -/

/-- The argument that `complete` hands to `complete_path`, if it is not a name of a command
that is completed. -/
def pathArg (line : Text) : Option Text :=
  let typed := line.dropWhile Text.isWhitespace
  let cmdName := typed.takeWhile fun c => !Text.isWhitespace c
  let rest := typed.dropWhile fun c => !Text.isWhitespace c
  if rest = [] ∨ cmdName = ['h', 'e', 'l', 'p'] then none
  else some (rest.dropWhile Text.isWhitespace)

/-- The directory that `complete_path` lists. -/
def dirOf (g : Globals) (part : Text) : Text :=
  if part.rdropWhile (· != '/') = [] then g.cwdGet
  else normalize (resolve g (part.rdropWhile (· != '/')))

/-- The names in a directory, none if there is no such directory. -/
def namesIn (g : Globals) (dir : Text) : List Text :=
  ((if dir = ['/'] then Vfs.withRoot g.root VNode.readdir
    else (Vfs.lookup g.root dir).bind fun node =>
      if node.kind = .dir then some node.readdir else none) : Option (List Text)).getD []

/-- What `complete_path` makes of a name. -/
def shown (g : Globals) (dir name : Text) : Text :=
  if (Vfs.lookup g.root (dir.rdropWhile (· == '/') ++ '/' :: name)).any fun node => node.kind = .dir
  then name ++ ['/'] else name

/-- The names that begin with what is typed of the last component. -/
def continuing (g : Globals) (part : Text) : List Text :=
  (namesIn g (dirOf g part)).filter (part.rtakeWhile (· != '/')).isPrefixOf

theorem completePath_eq (g : Globals) (part : Text) : completePath g part
    = ((continuing g part).map (shown g (dirOf g part)),
      Text.byteLen (part.rtakeWhile (· != '/'))) := rfl

theorem shown_eq (g : Globals) (dir name : Text) :
    shown g dir name = name ∨ shown g dir name = name ++ ['/'] := by
  unfold shown
  split
  · exact Or.inr rfl
  · exact Or.inl rfl

variable {names : List Text} {g : Globals} {line part : Text}

theorem candidates_path (h : pathArg line = some part) :
    candidates names g line = some (completePath g part) := by
  unfold pathArg at h
  dsimp only at h
  split at h
  · exact absurd h (by simp)
  · rename_i hpath
    obtain ⟨hrest, hname⟩ := not_or.mp hpath
    have htyped : line.dropWhile Text.isWhitespace ≠ [] := by
      intro hnil
      rw [hnil] at hrest
      exact hrest rfl
    unfold candidates
    dsimp only
    rw [if_neg htyped, if_neg hrest, if_neg hname, Option.some.inj h]

/-- Otherwise the candidates are names of commands. -/
theorem candidates_names (h : pathArg line = none) : candidates names g line = none ∨
    ∃ typed n, candidates names g line = some (names.filter typed.isPrefixOf, n) ∧
      (n = typed.length ∨ n = Text.byteLen typed) := by
  unfold candidates
  dsimp only
  split
  · exact Or.inl rfl
  · split
    · exact Or.inr ⟨_, _, rfl, Or.inl rfl⟩
    · rename_i hrest
      split
      · exact Or.inr ⟨_, _, rfl, Or.inr rfl⟩
      · rename_i hname
        unfold pathArg at h
        dsimp only at h
        rw [if_neg (not_or.mpr ⟨hrest, hname⟩)] at h
        exact absurd h (by simp)

/-! ### What the candidates have in common -/

theorem prefix_commonPrefix {x a b : Bytes} : x <+: commonPrefix a b ↔ x <+: a ∧ x <+: b := by
  induction a generalizing b x with
  | nil =>
      rw [commonPrefix, List.prefix_nil, iff_self_and]
      · rintro rfl
        exact List.nil_prefix
      · simp
  | cons c a ih =>
      rcases b with - | ⟨d, b⟩
      · rw [commonPrefix, List.prefix_nil, iff_and_self]
        · rintro rfl
          exact List.nil_prefix
        · simp
      · rcases x with - | ⟨e, x⟩
        · simp
        · rw [commonPrefix, List.cons_prefix_cons, List.cons_prefix_cons]
          split
          · rename_i hcd
            rw [List.cons_prefix_cons, ih, hcd]
            tauto
          · rename_i hcd
            simp only [List.prefix_nil, reduceCtorEq, false_iff]
            rintro ⟨⟨rfl, -⟩, rfl, -⟩
            exact hcd rfl

/-- The bytes that all candidates begin with. -/
def common : List Text → Bytes
  | [] => []
  | first :: rest =>
      rest.foldl (fun bytes c => commonPrefix bytes (Text.encode c)) (Text.encode first)

theorem longestCommonPrefix_eq (cands : List Text) :
    longestCommonPrefix cands = (common cands).length := by
  cases cands <;> rfl

theorem prefix_common {cands : List Text} (hne : cands ≠ []) (x : Bytes) :
    x <+: common cands ↔ ∀ n ∈ cands, x <+: Text.encode n := by
  obtain ⟨first, rest, rfl⟩ := List.exists_cons_of_ne_nil hne
  have hfold : ∀ (rest : List Text) (bytes : Bytes),
      x <+: rest.foldl (fun bytes c => commonPrefix bytes (Text.encode c)) bytes ↔
        x <+: bytes ∧ ∀ n ∈ rest, x <+: Text.encode n := by
    intro rest
    induction rest with
    | nil => simp
    | cons c rest ih =>
        intro bytes
        rw [List.foldl_cons, ih, prefix_commonPrefix, List.forall_mem_cons, and_assoc]
  rw [common, hfold, List.forall_mem_cons]

/-- The slices of the first candidate: where what is typed ends, and where what the
candidates have in common does, in this order and both at the end of a character. -/
def SlicesAtChars (cands : List Text) (prefixLen : Nat) : Prop :=
  ∀ first rest, cands = first :: rest → (Text.dropBytes prefixLen first).isSome = true ∧
    (rest ≠ [] → prefixLen ≤ longestCommonPrefix cands ∧
      (Text.dropBytes (longestCommonPrefix cands) first).isSome = true)

section Typed

variable {cands : List Text} {typed : Text}

theorem byteLen_le_common (hne : cands ≠ []) (h : ∀ c ∈ cands, typed <+: c) :
    Text.byteLen typed ≤ longestCommonPrefix cands := by
  rw [longestCommonPrefix_eq, ← Text.length_encode]
  apply List.IsPrefix.length_le
  rw [prefix_common hne]
  intro n hn
  exact Text.encode_prefix_iff.mpr (h n hn)

theorem dropBytes_common_iff {first : Text} {rest : List Text} :
    (Text.dropBytes (longestCommonPrefix (first :: rest)) first).isSome = true ↔
      ¬ Text.Cut (first :: rest) := by
  rw [longestCommonPrefix_eq]
  exact Text.dropBytes_common (prefix_common (by simp)) List.mem_cons_self

theorem dropBytes_typed {first : Text} (h : typed <+: first) :
    (Text.dropBytes (Text.byteLen typed) first).isSome = true := by
  obtain ⟨rest, rfl⟩ := h
  rw [Text.dropBytes_append]
  rfl

theorem not_cut_singleton (only : Text) : ¬ Text.Cut [only] := by
  apply Text.not_cut_of_same
  intro m hm n hn
  rw [List.mem_singleton.mp hm, List.mem_singleton.mp hn]

theorem slicesAtChars_iff (h : ∀ c ∈ cands, typed <+: c) :
    SlicesAtChars cands (Text.byteLen typed) ↔ ¬ Text.Cut cands := by
  constructor
  · intro hslices
    rcases cands with - | ⟨first, rest⟩
    · exact Text.not_cut_nil
    · rcases eq_or_ne rest [] with rfl | hrest
      · exact not_cut_singleton first
      · exact dropBytes_common_iff.mp ((hslices first rest rfl).2 hrest).2
  · rintro hcut first rest rfl
    refine ⟨dropBytes_typed (h first List.mem_cons_self), fun _ => ?_⟩
    exact ⟨byteLen_le_common (by simp) h, dropBytes_common_iff.mpr hcut⟩

/-- What `complete` decides: it panics exactly when the candidates part inside a character. -/
theorem completionOf_isSome_iff (h : ∀ c ∈ cands, typed <+: c) :
    (Session.completionOf cands (Text.byteLen typed)).isSome = true ↔ ¬ Text.Cut cands := by
  rcases cands with - | ⟨first, rest⟩
  · exact iff_of_true rfl Text.not_cut_nil
  · have hfirst := h first List.mem_cons_self
    rcases rest with - | ⟨second, rest⟩
    · refine iff_of_true ?_ (not_cut_singleton first)
      unfold Session.completionOf
      rw [Option.isSome_map]
      exact dropBytes_typed hfirst
    · rw [← dropBytes_common_iff]
      unfold Session.completionOf
      dsimp only
      have hle := byteLen_le_common (by simp) h
      have htyped := dropBytes_typed hfirst
      split
      · rw [Option.isSome_map]
        exact Text.byteSlice_isSome hle htyped
      · rename_i hnot
        rw [show longestCommonPrefix (first :: second :: rest) = Text.byteLen typed by omega]
        exact iff_of_true rfl htyped

end Typed

/-- Candidates all begin with what is typed, and its length is the number of bytes it has. -/
theorem exists_typed (hascii : ∀ name ∈ names, ∀ c ∈ name, c.utf8Size = 1) {cands : List Text}
    {n : Nat} (h : candidates names g line = some (cands, n)) :
    cands = [] ∨ ∃ typed, n = Text.byteLen typed ∧ ∀ c ∈ cands, typed <+: c := by
  rcases hpath : pathArg line with - | part
  · rcases candidates_names hpath with hnone | ⟨typed, k, heq, hlen⟩
    · rw [hnone] at h
      exact absurd h (by simp)
    · rw [heq] at h
      obtain ⟨rfl, rfl⟩ := Prod.mk.inj (Option.some.inj h)
      have hall : ∀ c ∈ names.filter typed.isPrefixOf, typed <+: c := by
        intro c hc
        exact List.isPrefixOf_iff_prefix.mp (List.mem_filter.mp hc).2
      rcases hcands : names.filter typed.isPrefixOf with - | ⟨first, rest⟩
      · exact Or.inl rfl
      · refine Or.inr ⟨typed, ?_, hcands ▸ hall⟩
        rcases hlen with rfl | rfl
        · -- Typed characters are characters of a name, so each has one byte.
          have hfirst : first ∈ names.filter typed.isPrefixOf := by
            rw [hcands]
            exact List.mem_cons_self
          refine (Text.byteLen_eq_length ?_).symm
          intro c hc
          exact hascii first (List.mem_filter.mp hfirst).1 c ((hall first hfirst).subset hc)
        · rfl
  · rw [candidates_path hpath, completePath_eq] at h
    obtain ⟨rfl, rfl⟩ := Prod.mk.inj (Option.some.inj h)
    refine Or.inr ⟨_, rfl, ?_⟩
    intro c hc
    obtain ⟨name, hname, rfl⟩ := List.mem_map.mp hc
    have hpre : part.rtakeWhile (· != '/') <+: name :=
      List.isPrefixOf_iff_prefix.mp (List.mem_filter.mp hname).2
    rcases shown_eq g (dirOf g part) name with heq | heq
    · rw [heq]
      exact hpre
    · rw [heq]
      exact hpre.trans (List.prefix_append _ _)

/-- The candidates part inside a character when the names on disk do. -/
theorem cut_candidates_iff (hascii : ∀ name ∈ names, ∀ c ∈ name, c.utf8Size = 1)
    {cands : List Text} {n : Nat} (h : candidates names g line = some (cands, n)) :
    Text.Cut cands ↔ ∃ part, pathArg line = some part ∧ Text.Cut (continuing g part) := by
  rcases hpath : pathArg line with - | part
  · refine iff_of_false ?_ (by simp)
    rcases candidates_names hpath with hnone | ⟨typed, k, heq, -⟩
    · rw [hnone] at h
      exact absurd h (by simp)
    · rw [heq] at h
      obtain ⟨rfl, -⟩ := Prod.mk.inj (Option.some.inj h)
      exact Text.not_cut_of_ascii fun name hname => hascii name (List.mem_filter.mp hname).1
  · rw [candidates_path hpath, completePath_eq] at h
    obtain ⟨rfl, -⟩ := Prod.mk.inj (Option.some.inj h)
    rw [Text.cut_map_iff (d := '/') (by decide) fun name _ => shown_eq g (dirOf g part) name]
    simp

end Words

open Words

namespace Session

variable {s : Session}

/-- What `complete` does once it has decided. -/
def carryOut (s : Session) : Completion → Option Session
  | .nothing => some s
  | .append rest => s.typeRest rest
  | .list names => do
      let s ← (s.print (listing names)).printPrompt
      let s ← s.printFrom 0
      s.cursorShow

theorem complete_eq (commands : List Cmd) (hlen : s.shell.len ≤ BUF_CAP) :
    s.complete commands
      = (completion commands s.globals s.shell.line).bind s.carryOut := by
  unfold complete
  rw [upTo_eq hlen]
  rfl

/-- What is completed is typed, if there is room. -/
theorem complete_append (commands : List Cmd) (h : s.shell.Bounded) {rest : Text}
    (hrest : completion commands s.globals s.shell.line = some (.append rest))
    (hfit : (s.shell.line ++ rest).length ≤ BUF_CAP) :
    ∃ s', s.complete commands = some s' ∧ s'.shell.line = s.shell.line ++ rest ∧
      s'.globals = s.globals := by
  have hall : rest.take (BUF_CAP - s.shell.len) = rest := by
    rw [List.length_append, Shell.length_line h] at hfit
    rw [List.take_of_length_le]
    omega
  obtain ⟨buf, n, -, hbuf, htype⟩ := typeRest_eq h.len rest
  rw [hall] at hbuf htype
  rw [complete_eq commands h.len, hrest]
  exact ⟨_, htype, hbuf, rfl⟩

/-- `complete` ends where its decision is taken, with the line no longer than the buffer. -/
theorem complete_isSome_iff (commands : List Cmd) (h : s.shell.Bounded) :
    (∃ s', s.complete commands = some s' ∧ s'.shell.len ≤ BUF_CAP) ↔
      (completion commands s.globals s.shell.line).isSome = true := by
  have hkeeps := complete_edits commands h
  have heq := complete_eq commands h.len
  constructor
  · rintro ⟨s', hs', -⟩
    rw [heq] at hs'
    obtain ⟨c, hc, -⟩ := Option.bind_eq_some_iff.mp hs'
    rw [hc]
    rfl
  · intro hsome
    obtain ⟨c, hc⟩ := Option.isSome_iff_exists.mp hsome
    have hends : (s.complete commands).isSome = true := by
      rw [heq, hc, Option.bind_some]
      rcases c with - | rest | names
      · rfl
      · obtain ⟨buf, n, -, -, htype⟩ := typeRest_eq h.len rest
        exact Option.isSome_of_eq_some htype
      · obtain ⟨promptCol, promptLine, hprompt, -⟩ :=
          printPrompt_eq (s := s.print (listing names)) h.len
        show ((s.print (listing names)).printPrompt.bind _).isSome = true
        rw [hprompt, Option.bind_some, Option.bind_eq_bind, printFrom_eq, Option.bind_some,
          cursorShow_eq]
        · rfl
        · exact Nat.le_refl _
        · exact h.len
        · exact h.len
    obtain ⟨s', hs'⟩ := Option.isSome_iff_exists.mp hends
    exact ⟨s', hs', (hkeeps s' hs').bounded.len⟩

end Session

theorem ascii_names (out : Text → Shell → Globals → Option Text → List Writer.Op) :
    ∀ name ∈ (COMMANDS out).map Cmd.name, ∀ c ∈ name, c.utf8Size = 1 := by
  have hall : (((COMMANDS out).map Cmd.name).all fun name =>
      name.all fun c => c.utf8Size == 1) = true := rfl
  intro name hname c hc
  exact beq_iff_eq.mp (List.all_eq_true.mp (List.all_eq_true.mp hall name hname) c hc)

namespace Session

/-- **Tab is safe exactly when the names it could go on with do not part inside a
character.** -/
theorem tab_safe_iff (out : Text → Shell → Globals → Option Text → List Writer.Op) {s : Session}
    (h : s.shell.Bounded) :
    ((∀ cands n, candidates ((COMMANDS out).map Cmd.name) s.globals s.shell.line = some (cands, n) →
        SlicesAtChars cands n) ∧
      ∃ s', s.complete (COMMANDS out) = some s' ∧ s'.shell.len ≤ BUF_CAP) ↔
    ∀ part, pathArg s.shell.line = some part → ¬ Text.Cut (continuing s.globals part) := by
  have hcut : (∀ part, pathArg s.shell.line = some part →
      ¬ Text.Cut (continuing s.globals part)) ↔ ¬ ∃ part, pathArg s.shell.line = some part ∧
        Text.Cut (continuing s.globals part) := by
    simp only [not_exists, not_and]
  rw [hcut, complete_isSome_iff (COMMANDS out) h, completion]
  rcases hcands : candidates ((COMMANDS out).map Cmd.name) s.globals s.shell.line with
    - | ⟨cands, n⟩
  · refine iff_of_true ⟨by simp, rfl⟩ ?_
    rintro ⟨part, hpart, -⟩
    rw [candidates_path hpart] at hcands
    exact absurd hcands (by simp)
  · rw [← cut_candidates_iff (ascii_names out) hcands]
    have hslices : (∀ cands' n', some (cands, n) = some (cands', n') → SlicesAtChars cands' n') ↔
        SlicesAtChars cands n := by
      simp
    rw [hslices]
    dsimp only
    rcases exists_typed (ascii_names out) hcands with rfl | ⟨typed, rfl, hall⟩
    · exact iff_of_true ⟨by simp [SlicesAtChars], rfl⟩ Text.not_cut_nil
    · rw [slicesAtChars_iff hall, completionOf_isSome_iff hall, and_self]

/-! A line typed at a prompt, and a directory whose two names part inside a character. -/

/-- A session with the cursor at the end of a line. -/
def typed (g : Globals) (line : Text) (h : line.length ≤ BUF_CAP) : Session :=
  { Session.new none g with
    shell := { Shell.new with
      buf := patch Shell.new.buf 0 line (by rwa [Nat.zero_add])
      len := line.length
      cursorPos := line.length } }

theorem typed_bounded (g : Globals) (line : Text) (h : line.length ≤ BUF_CAP) :
    (typed g line h).shell.Bounded where
  cursor := Nat.le_refl _
  len := h
  live := Shell.new_bounded.live
  hist := Shell.new_bounded.hist
  browse := Shell.new_bounded.browse

theorem typed_line (g : Globals) (line : Text) (h : line.length ≤ BUF_CAP) :
    (typed g line h).shell.line = line :=
  text_patch_end Shell.new.buf line (by rwa [Nat.zero_add]) (Nat.zero_add _).symm

/-- Two names that part behind their second character, which is whole in both. -/
def seasons : Globals where
  cwd := ['/']
  prevCwd := []
  env := []
  root := some (.ramfsDir [("été".toList, .ramfsFile []), ("étang".toList, .ramfsFile [])])

theorem tab_safe_iff_seasons :
    (∀ cands n, candidates ((COMMANDS fun _ _ _ _ => []).map Cmd.name) seasons
        (typed seasons ['c', 'a', 't', ' '] (by decide)).shell.line = some (cands, n) →
        SlicesAtChars cands n) ∧
      ∃ s', (typed seasons ['c', 'a', 't', ' '] (by decide)).complete (COMMANDS fun _ _ _ _ => [])
        = some s' ∧ s'.shell.len ≤ BUF_CAP := by
  apply (tab_safe_iff (fun _ _ _ _ => [])
    (typed_bounded seasons ['c', 'a', 't', ' '] (by decide))).mpr
  intro part hpart
  rw [typed_line] at hpart
  have hnames : continuing seasons part = ["été".toList, "étang".toList] := by
    rw [← Option.some.inj hpart]
    rfl
  rw [show (typed seasons ['c', 'a', 't', ' '] (by decide)).globals = seasons from rfl, hnames]
  exact Text.not_cut_pair ['é', 't'] [] ['n', 'g'] (by decide)

def accents : Globals where
  cwd := ['/']
  prevCwd := []
  env := []
  root := some (.ramfsDir [(['é'], .ramfsFile []), (['è'], .ramfsFile [])])

/-- The two characters share their first byte, and the slice ends behind it. -/
theorem tab_panics : (typed accents ['c', 'a', 't', ' '] (by decide)).complete
    (COMMANDS fun _ _ _ _ => []) = none := by
  have hcut : completion (COMMANDS fun _ _ _ _ => []) accents ['c', 'a', 't', ' '] = none := rfl
  rw [complete_eq, typed_line]
  · exact congrArg (Option.bind · (carryOut _)) hcut
  · exact (typed_bounded accents ['c', 'a', 't', ' '] (by decide)).len

end Session

end Amaterasu
