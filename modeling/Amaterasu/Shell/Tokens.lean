/-
The token that Tab completes.

`complete` takes everything behind the command for one path, so what it types for the last
word can depend on the words in front of it.  What is typed depends on the candidates only
through which there are (`completionOf_congr`); one more file in the directory of the last
word is then enough to tell two places apart.
-/
import Mathlib.Tactic.TFAE
import Amaterasu.Shell.Lookups

namespace Amaterasu

open Ramfs PathTree

/-! ### What is typed -/

/-- What is typed of a completion. -/
def Session.Completion.text : Session.Completion → Text
  | .nothing => []
  | .append rest => rest
  | .list _ => []

/-- The characters that Tab appends to a line, as far as there is room for them. -/
def Session.appended (commands : List Cmd) (g : Globals) (line : Text) : Option Text :=
  (Session.completion commands g line).map Session.Completion.text

namespace Session

variable {s s' : Session}

/-- A key press on a session appends them. -/
theorem complete_line (commands : List Cmd) (h : s.shell.Bounded)
    (hs : s.complete commands = some s') : ∃ t, appended commands s.globals s.shell.line = some t ∧
      s'.shell.line = s.shell.line ++ t.take (BUF_CAP - s.shell.len) := by
  rw [complete_eq commands h.len] at hs
  obtain ⟨c, hc, hs⟩ := Option.bind_eq_some_iff.mp hs
  refine ⟨c.text, by rw [appended, hc]; rfl, ?_⟩
  rcases c with - | rest | names
  · obtain rfl : s = s' := Option.some.inj hs
    rw [Completion.text, List.take_nil, List.append_nil]
  · obtain ⟨buf, n, -, hbuf, htype⟩ := typeRest_eq h.len rest
    obtain rfl := Option.some.inj (htype.symm.trans hs)
    exact hbuf
  · obtain ⟨promptCol, promptLine, hprompt, -⟩ :=
      printPrompt_eq (s := s.print (listing names)) h.len
    change (s.print (listing names)).printPrompt.bind _ = some s' at hs
    rw [hprompt, Option.bind_some, Option.bind_eq_bind, printFrom_eq, Option.bind_some,
      cursorShow_eq] at hs
    · obtain rfl := Option.some.inj hs
      rw [Completion.text, List.take_nil, List.append_nil]
      rfl
    · exact Nat.le_refl _
    · exact h.len
    · exact h.len

end Session

namespace Words

variable {cands : List Text} {typed : Text}

/-- What was typed and what is typed make up what the candidates have in common. -/
theorem encode_text (hne : cands ≠ []) (h : ∀ c ∈ cands, typed <+: c) {t : Text}
    (ht : (Session.completionOf cands (Text.byteLen typed)).map Session.Completion.text = some t) :
    Text.encode (typed ++ t) = common cands := by
  have hpre : Text.encode typed <+: common cands :=
    (prefix_common hne _).mpr fun n hn => Text.encode_prefix_iff.mpr (h n hn)
  obtain ⟨first, rest, rfl⟩ := List.exists_cons_of_ne_nil hne
  obtain ⟨r, rfl⟩ := h first List.mem_cons_self
  rcases rest with - | ⟨second, rest⟩
  · unfold Session.completionOf at ht
    dsimp only at ht
    rw [Text.dropBytes_append, Option.map_some, Option.map_some] at ht
    obtain rfl : r = t := Option.some.inj ht
    rfl
  · have hfirst : common ((typed ++ r) :: second :: rest) <+: Text.encode (typed ++ r) :=
      (prefix_common hne _).mp List.prefix_rfl _ List.mem_cons_self
    unfold Session.completionOf at ht
    dsimp only at ht
    rw [longestCommonPrefix_eq] at ht
    generalize common ((typed ++ r) :: second :: rest) = bytes at ht hpre hfirst
    split at ht
    · rename_i hlt
      rw [Text.byteSlice, if_pos (Nat.le_of_lt hlt), Text.dropBytes_append, Option.bind_some,
        Option.map_map] at ht
      obtain ⟨a, ha, rfl⟩ := Option.map_eq_some_iff.mp ht
      obtain ⟨b, rfl, hlen⟩ := Text.takeBytes_eq_some_iff.mp ha
      have hbeg : Text.encode (typed ++ a) <+: Text.encode (typed ++ (a ++ b)) := by
        rw [← List.append_assoc, Text.encode_append (typed ++ a)]
        exact List.prefix_append _ _
      have hsize : (Text.encode (typed ++ a)).length = bytes.length := by
        rw [Text.length_encode, Text.byteLen_append, hlen]
        omega
      exact (List.prefix_of_prefix_length_le hbeg hfirst (Nat.le_of_eq hsize)).eq_of_length hsize
    · rename_i hnot
      obtain rfl : [] = t := Option.some.inj ht
      rw [List.append_nil]
      refine hpre.eq_of_length (Nat.le_antisymm hpre.length_le ?_)
      rw [Text.length_encode]
      omega

/-- What is typed depends only on which candidates there are. -/
theorem completionOf_congr {cands' : List Text} (hset : ∀ c, c ∈ cands ↔ c ∈ cands')
    (h : ∀ c ∈ cands, typed <+: c) :
    (Session.completionOf cands (Text.byteLen typed)).map Session.Completion.text
      = (Session.completionOf cands' (Text.byteLen typed)).map Session.Completion.text := by
  have h' : ∀ c ∈ cands', typed <+: c := fun c hc => h c ((hset c).mpr hc)
  rcases eq_or_ne cands [] with rfl | hne
  · have hnil : cands' = [] := by
      rw [List.eq_nil_iff_forall_not_mem]
      intro c hc
      exact absurd ((hset c).mpr hc) List.not_mem_nil
    rw [hnil]
  · have hne' : cands' ≠ [] := by
      obtain ⟨c, hc⟩ := List.exists_mem_of_ne_nil cands hne
      exact List.ne_nil_of_mem ((hset c).mp hc)
    have hcut : Text.Cut cands ↔ Text.Cut cands' := by
      unfold Text.Cut
      simp only [hset]
    have hsome := (completionOf_isSome_iff h).trans ((not_congr hcut).trans
      (completionOf_isSome_iff h').symm)
    rw [← Option.isSome_map (f := Session.Completion.text), ← Option.isSome_map
      (f := Session.Completion.text) (x := Session.completionOf cands' _)] at hsome
    rcases hx : (Session.completionOf cands (Text.byteLen typed)).map Session.Completion.text
      with - | t
    · rw [hx] at hsome
      exact (Option.not_isSome_iff_eq_none.mp fun hc => absurd (hsome.mpr hc) (by simp)).symm
    · rw [hx] at hsome
      obtain ⟨t', hx'⟩ := Option.isSome_iff_exists.mp (hsome.mp rfl)
      rw [hx']
      have henc := encode_text hne h hx
      have henc' := encode_text hne' h' hx'
      have hcommon : ∀ x, x <+: common cands ↔ x <+: common cands' := by
        intro x
        rw [prefix_common hne, prefix_common hne']
        simp only [hset]
      have hle := (hcommon _).mp List.prefix_rfl
      have hge := (hcommon _).mpr List.prefix_rfl
      rw [← henc, ← henc', Text.encode_prefix_iff, List.prefix_append_right_inj] at hle hge
      rw [hle.eq_of_length (Nat.le_antisymm hle.length_le hge.length_le)]

/-! ### Trees of directories, and a file in one of them -/

theorem exists_directory {tree : Entries} (hdirs : ∀ q e, entryAt tree q = some e → e = .dir)
    (path : List Text) :
    ∃ tree', ∀ q, entryAt tree' q = if q <+: path then some .dir else entryAt tree q := by
  have hfree : ¬ Blocked (entryAt tree) path := by
    rintro ⟨q, data, -, -, hq⟩
    exact absurd (hdirs q _ hq) (by simp)
  obtain ⟨tree', -, hins⟩ := insertParts_inserted .dir path tree hfree
  refine ⟨tree', fun q => ?_⟩
  have hneeds : needs path (.dir : Entry Bytes) q = if q <+: path then some .dir else none := by
    unfold needs
    by_cases hq : q = path
    · rw [if_pos hq, if_pos (hq ▸ List.prefix_rfl)]
    · rw [if_neg hq]
  rw [hins.entry, plant, hneeds]
  rcases hq : entryAt tree q with - | e
  · rw [Option.none_or]
  · obtain rfl := hdirs q e hq
    rw [Option.some_or, ite_self]

/-- The directories on the way to two places, and no more. -/
theorem exists_directories (a b : List Text) :
    ∃ tree, ∀ q, entryAt tree q = if q <+: a ∨ q <+: b then some .dir else none := by
  have hnone : ∀ q e, entryAt [] q = some e → e = .dir := by
    intro q e hq
    rw [entryAt_empty] at hq
    rcases q with - | ⟨n, q⟩
    · exact (Option.some.inj hq).symm
    · exact absurd hq (by simp [bare])
  obtain ⟨tree, htree⟩ := exists_directory hnone a
  have hdirs : ∀ q e, entryAt tree q = some e → e = .dir := by
    intro q e hq
    rw [htree] at hq
    split at hq
    · exact (Option.some.inj hq).symm
    · exact hnone q e hq
  obtain ⟨tree', htree'⟩ := exists_directory hdirs b
  refine ⟨tree', fun q => ?_⟩
  rw [htree', htree]
  by_cases hb : q <+: b
  · rw [if_pos hb, if_pos (Or.inr hb)]
  · rw [if_neg hb]
    by_cases ha : q <+: a
    · rw [if_pos ha, if_pos (Or.inl ha)]
    · rw [if_neg ha, if_neg (by simp [ha, hb]), entryAt_empty]
      rcases q with - | ⟨n, q⟩
      · exact absurd List.nil_prefix ha
      · rfl

theorem exists_file {tree : Entries} {pos : List Text} {f : Text}
    (hpos : ∀ q, q <+: pos → entryAt tree q = some .dir)
    (hfree : entryAt tree (pos ++ [f]) = none) :
    ∃ tree', ∀ q, entryAt tree' q
      = if q = pos ++ [f] then some (.file []) else entryAt tree q := by
  have hway : ∀ q, q <+: pos ++ [f] → q ≠ pos ++ [f] → q <+: pos := by
    intro q hpre hne
    rcases List.prefix_concat_iff.mp hpre with heq | hpre
    · exact absurd heq hne
    · exact hpre
  have hopen : ¬ Blocked (entryAt tree) (pos ++ [f]) := by
    rintro ⟨q, data, hpre, hne, hq⟩
    rw [hpos q (hway q hpre hne)] at hq
    exact absurd hq (by simp)
  obtain ⟨tree', -, hins⟩ := insertParts_inserted (.file []) (pos ++ [f]) tree hopen
  refine ⟨tree', fun q => ?_⟩
  rw [hins.entry, plant, needs]
  by_cases hq : q = pos ++ [f]
  · rw [if_pos hq, if_pos hq, hq, hfree, Option.none_or]
  · rw [if_neg hq, if_neg hq]
    by_cases hpre : q <+: pos ++ [f]
    · rw [hpos q (hway q hpre hq), Option.some_or]
    · rw [if_neg hpre, Option.or_none]

/-! ### The last token of an argument -/

theorem slash_notMem_lastPart (part : Text) : '/' ∉ lastPart part := by
  intro hmem
  have h := List.mem_rtakeWhile_imp (p := fun c => c != '/') hmem
  exact absurd h (by decide)

/-- A path with a slash, split at the last one. -/
theorem exists_lastSlash {part : Text} (h : '/' ∈ part) :
    ∃ d, dirPart part = d ++ ['/'] ∧ part = d ++ '/' :: lastPart part := by
  have happend := dirPart_append part
  rcases dirPart_cases part with hnil | ⟨d, hd⟩
  · rw [hnil, List.nil_append] at happend
    rw [← happend] at h
    exact absurd h (slash_notMem_lastPart part)
  · refine ⟨d, hd, ?_⟩
    rw [hd, List.append_assoc, List.singleton_append] at happend
    exact happend.symm

theorem lastPart_slash (front : Text) {last : Text} (h : '/' ∉ last) :
    lastPart (front ++ '/' :: last) = last := by
  have hall : ∀ c ∈ last.reverse, (c != '/') = true := by
    intro c hc
    rw [bne_iff_ne]
    rintro rfl
    exact h (List.mem_reverse.mp hc)
  unfold lastPart List.rtakeWhile
  rw [List.reverse_append, List.reverse_cons, List.append_assoc,
    List.takeWhile_append_of_pos hall]
  simp

theorem unwords_concat {earlier : List Text} (hne : earlier ≠ []) (w : Text) :
    unwords (earlier ++ [w]) = unwords earlier ++ ' ' :: w := by
  induction earlier with
  | nil => exact absurd rfl hne
  | cons v earlier ih =>
      rw [List.cons_append, unwords_cons (by simp)]
      rcases eq_or_ne earlier [] with rfl | hne'
      · rw [List.nil_append, unwords_singleton, unwords_singleton]
      · rw [ih hne', unwords_cons hne', List.append_assoc, List.cons_append]

/-- With a slash in it, the last word ends in the same name with words in front of it. -/
theorem lastPart_unwords {earlier : List Text} {w : Text} (h : '/' ∈ w) :
    lastPart (unwords (earlier ++ [w])) = lastPart w := by
  rcases eq_or_ne earlier [] with rfl | hne
  · rw [List.nil_append, unwords_singleton]
  · obtain ⟨d, -, hd⟩ := exists_lastSlash h
    rw [unwords_concat hne]
    have hsplit : unwords earlier ++ ' ' :: w
        = (unwords earlier ++ ' ' :: d) ++ '/' :: lastPart w := by
      rw [List.append_assoc, List.cons_append, ← hd]
    rw [hsplit, lastPart_slash _ (slash_notMem_lastPart w)]

/-- Without one, the name that is completed has a space in it. -/
theorem space_mem_lastPart {earlier : List Text} (hne : earlier ≠ []) {w : Text} (h : '/' ∉ w) :
    ' ' ∈ lastPart (unwords (earlier ++ [w])) := by
  have hmem : ∀ t : Text, ' ' :: w <:+ t → ' ' ∈ t := fun t ht => ht.subset List.mem_cons_self
  rw [unwords_concat hne]
  apply hmem
  by_cases hslash : '/' ∈ unwords earlier ++ ' ' :: w
  · obtain ⟨d, -, hd⟩ := exists_lastSlash hslash
    have hsuffix : '/' :: lastPart (unwords earlier ++ ' ' :: w) <:+ unwords earlier ++ ' ' :: w :=
      ⟨d, hd.symm⟩
    have hword : ' ' :: w <:+ unwords earlier ++ ' ' :: w := List.suffix_append _ _
    rcases Nat.lt_or_ge (' ' :: w).length
        ('/' :: lastPart (unwords earlier ++ ' ' :: w)).length with hlt | hge
    · exact List.suffix_of_suffix_length_le hword
        ((List.suffix_cons _ _).trans hsuffix) (Nat.le_of_lt_succ hlt)
    · have hin := (List.suffix_of_suffix_length_le hsuffix hword hge).subset List.mem_cons_self
      exact absurd (List.mem_of_ne_of_mem (by decide) hin) h
  · have hwhole : lastPart (unwords earlier ++ ' ' :: w) = unwords earlier ++ ' ' :: w := by
      have happend := dirPart_append (unwords earlier ++ ' ' :: w)
      rcases dirPart_cases (unwords earlier ++ ' ' :: w) with hnil | ⟨d, hd⟩
      · rwa [hnil, List.nil_append] at happend
      · rw [← happend, hd] at hslash
        exact absurd (by simp) hslash
    rw [hwhole]
    exact List.suffix_append _ _

/-! ### Two places told apart -/

section Token

variable {g : Globals} {tree : Entries} {part : Text}

/-- What is typed for a path, from the tree. -/
theorem appended_line (commands : List Cmd) (hcwd : normalize g.cwdGet = g.cwdGet)
    (hnamed : Named tree) {name : Text} {words : List Text} (hname : Word name)
    (hhelp : name ≠ ['h', 'e', 'l', 'p']) (hne : words ≠ []) (hwords : ∀ w ∈ words, Word w) :
    Session.appended commands (mounted g tree) (unwords (name :: words))
      = (Session.completionOf (offered tree (place g (dirPart (unwords words)))
          (lastPart (unwords words))) (Text.byteLen (lastPart (unwords words)))).map
            Session.Completion.text := by
  unfold Session.appended Session.completion
  rw [candidates_path (pathArg_unwords hname hhelp hne hwords),
    completePath_spell hnamed (place_segment g _) (dirOf_eq hcwd _)]
  rfl

theorem offered_begins (tree : Entries) (pos : List Text) (typed : Text) :
    ∀ c ∈ offered tree pos typed, typed <+: c := by
  intro c hc
  obtain ⟨n, hpre, -, rfl⟩ := mem_offered.mp hc
  obtain ⟨t, hmarked, -⟩ := marked_eq tree pos n
  rw [hmarked]
  exact hpre.trans (List.prefix_append _ _)

/-- Two trees of directories that differ in one file, at a place with at most one name. -/
structure ToldApart (cwd pos : List Text) (f : Text) (tree tree' : Entries) : Prop where
  named : Named tree
  named' : Named tree'
  dir : entryAt tree cwd = some .dir
  dir' : entryAt tree' cwd = some .dir
  only : ∀ n m, entryAt tree (pos ++ [n]) ≠ none → entryAt tree (pos ++ [m]) ≠ none → n = m
  dirs : ∀ n, entryAt tree (pos ++ [n]) ≠ none → entryAt tree (pos ++ [n]) = some .dir
  file : ∀ q, entryAt tree' q = if q = pos ++ [f] then some (.file []) else entryAt tree q

/-- The one file changes what is typed at its place. -/
theorem ToldApart.changes {cwd pos : List Text} {f : Text} {tree tree' : Entries} {typed : Text}
    (h : ToldApart cwd pos f tree tree') (hf : typed <+: f) (hlong : typed ≠ f)
    (hslash : '/' ∉ f) :
    (Session.completionOf (offered tree pos typed) (Text.byteLen typed)).map
        Session.Completion.text ≠
      (Session.completionOf (offered tree' pos typed) (Text.byteLen typed)).map
        Session.Completion.text := by
  obtain ⟨-, -, -, -, honly, hdirs, htree'⟩ := h
  have hfile : f ∈ offered tree' pos typed := by
    refine mem_offered.mpr ⟨f, hf, ?_, ?_⟩
    · rw [htree', if_pos rfl]
      simp
    · rw [marked, htree', if_pos rfl, if_neg (by simp)]
  -- All that is offered without the file is one name, with a slash behind it.
  have hsame : ∀ c ∈ offered tree pos typed, ∀ d ∈ offered tree pos typed, c = d := by
    intro c hc d hd
    obtain ⟨n, -, hn, rfl⟩ := mem_offered.mp hc
    obtain ⟨m, -, hm, rfl⟩ := mem_offered.mp hd
    rw [honly n m hn hm]
  obtain ⟨t, ht⟩ := Option.isSome_iff_exists.mp
    ((completionOf_isSome_iff (offered_begins tree pos typed)).mpr (Text.not_cut_of_same hsame))
  intro heq
  rw [ht, Option.map_some] at heq
  have hne' : offered tree' pos typed ≠ [] := List.ne_nil_of_mem hfile
  have henc := encode_text hne' (offered_begins tree' pos typed) heq.symm
  rcases eq_or_ne (offered tree pos typed) [] with hnil | hne
  · -- Nothing was typed, and now all of the file's name is.
    rw [hnil] at ht
    obtain rfl := Option.some.inj ht
    have hall : ∀ c ∈ offered tree' pos typed, Text.encode f <+: Text.encode c := by
      intro c hc
      obtain ⟨n, hpre, hn, rfl⟩ := mem_offered.mp hc
      rcases eq_or_ne n f with rfl | hnf
      · rw [marked, htree', if_pos rfl, if_neg (by simp)]
      · rw [htree', if_neg (by simpa using hnf)] at hn
        have hmem : marked tree pos n ∈ offered tree pos typed :=
          mem_offered.mpr ⟨n, hpre, hn, rfl⟩
        rw [hnil] at hmem
        exact absurd hmem List.not_mem_nil
    have hle := (prefix_common hne' _).mpr hall
    rw [← henc, Session.Completion.text, List.append_nil, Text.encode_prefix_iff] at hle
    exact hlong (hf.eq_of_length (Nat.le_antisymm hf.length_le hle.length_le))
  · -- What was typed ends with the slash of a directory, and the file has none.
    obtain ⟨c, hc⟩ := List.exists_mem_of_ne_nil _ hne
    have henc₀ := encode_text hne (offered_begins tree pos typed) (t := t.text) (by
      rw [ht, Option.map_some])
    have hall : ∀ d ∈ offered tree pos typed, Text.encode c <+: Text.encode d := by
      intro d hd
      rw [hsame c hc d hd]
    have hpre := (prefix_common hne _).mpr hall
    rw [← henc₀, henc] at hpre
    have hcf := Text.encode_prefix_iff.mp
      (hpre.trans ((prefix_common hne' _).mp List.prefix_rfl f hfile))
    obtain ⟨n, -, hn, rfl⟩ := mem_offered.mp hc
    rw [marked, if_pos (hdirs n hn)] at hcf
    exact hslash (hcf.subset (by simp))

theorem letter_ne {y : Char} (hy : y = 'a' ∨ y = 'b') : y ≠ '/' ∧ y ≠ ' ' := by
  rcases hy with rfl | rfl
  · decide
  · decide

/-- A name with a letter behind it has no slash either. -/
theorem slash_notMem_letter {typed : Text} (h : '/' ∉ typed) {y : Char}
    (hy : y = 'a' ∨ y = 'b') : '/' ∉ typed ++ [y] := by
  rw [List.mem_append, List.mem_singleton, not_or]
  exact ⟨h, fun heq => (letter_ne hy).1 heq.symm⟩

/-- Two letters, of which one at least makes a name that is not on the way. -/
theorem exists_fresh (path pos : List Text) (typed : Text) :
    ∃ y, (y = 'a' ∨ y = 'b') ∧ ¬ pos ++ [typed ++ [y]] <+: path := by
  by_contra hall
  push Not at hall
  have ha := hall 'a' (Or.inl rfl)
  have hb := hall 'b' (Or.inr rfl)
  have heq := (List.prefix_of_prefix_length_le ha hb (by simp)).eq_of_length (by simp)
  simp at heq

theorem exists_toldApart {cwd pos : List Text} (hcwd : ∀ p ∈ cwd, Segment p)
    (hpos : ∀ p ∈ pos, Segment p) {typed : Text} (htyped : '/' ∉ typed) :
    ∃ y tree tree', (y = 'a' ∨ y = 'b') ∧ ToldApart cwd pos (typed ++ [y]) tree tree' := by
  obtain ⟨y, hy, hfresh⟩ := exists_fresh cwd pos typed
  obtain ⟨tree, htree⟩ := exists_directories cwd pos
  have hbeyond : ∀ n, ¬ pos ++ [n] <+: pos := by
    intro n hpre
    have hlen := hpre.length_le
    simp at hlen
  have hfree : entryAt tree (pos ++ [typed ++ [y]]) = none := by
    rw [htree, if_neg]
    rintro (hpre | hpre)
    · exact hfresh hpre
    · exact hbeyond _ hpre
  obtain ⟨tree', htree'⟩ := exists_file (fun q hq => by rw [htree, if_pos (Or.inr hq)]) hfree
  have hsegment : Segment (typed ++ [y]) := ⟨by simp, slash_notMem_letter htyped hy⟩
  have hnamed : Named tree := by
    intro path n hentry
    rw [htree] at hentry
    split at hentry
    · rename_i hpre
      rcases hpre with hpre | hpre
      · exact hcwd n (hpre.subset (by simp))
      · exact hpos n (hpre.subset (by simp))
    · exact absurd rfl hentry
  have hdir : entryAt tree cwd = some .dir := by
    rw [htree, if_pos (Or.inl List.prefix_rfl)]
  -- Only the working directory can lead on from the place.
  have hway : ∀ n, entryAt tree (pos ++ [n]) ≠ none →
      pos ++ [n] <+: cwd ∧ entryAt tree (pos ++ [n]) = some .dir := by
    intro n hn
    rw [htree] at hn ⊢
    split
    · rename_i hpre
      exact ⟨hpre.resolve_right (hbeyond n), rfl⟩
    · rename_i hno
      rw [if_neg hno] at hn
      exact absurd rfl hn
  refine ⟨y, tree, tree', hy, hnamed, ?_, hdir, ?_, ?_, fun n hn => (hway n hn).2, htree'⟩
  · intro path n hentry
    rw [htree'] at hentry
    split at hentry
    · rename_i heq
      obtain ⟨-, hn⟩ := List.append_inj' heq rfl
      obtain rfl := (List.cons.inj hn).1
      exact hsegment
    · exact hnamed path n hentry
  · rw [htree', if_neg, hdir]
    rintro rfl
    exact hfresh List.prefix_rfl
  · intro n m hn hm
    have heq := (List.prefix_of_prefix_length_le (hway n hn).1 (hway m hm).1
      (by simp)).eq_of_length (by simp)
    simpa using heq

/-- The name that is completed of a whole argument is no beginning of the last word's name
with a letter behind it, unless both are completed in one place. -/
theorem slash_of_begins {earlier : List Text} {w : Text} {y : Char} (hw : Word w)
    (hne : earlier ≠ []) (hy : y = 'a' ∨ y = 'b')
    (hpre : lastPart (unwords (earlier ++ [w])) <+: lastPart w ++ [y]) : '/' ∈ w := by
  by_contra hslash
  rcases List.mem_append.mp (hpre.subset (space_mem_lastPart hne hslash)) with hmem | hmem
  · have hmem' : ' ' ∈ w := by
      rw [← dirPart_append w]
      exact List.mem_append_right _ hmem
    exact absurd (hw.chars ' ' hmem').1 (by decide)
  · exact (letter_ne hy).2 (List.mem_singleton.mp hmem).symm

/-- If the same is typed with words in front and without, in every tree, then the words do
not change the place. -/
theorem same_place (commands : List Cmd) (hcwd : normalize g.cwdGet = g.cwdGet) {name w : Text}
    {earlier : List Text} (hname : Word name) (hhelp : name ≠ ['h', 'e', 'l', 'p'])
    (hearlier : ∀ v ∈ earlier, Word v) (hw : Word w)
    (h : ∀ tree, Named tree → entryAt tree (normalParts g.cwdGet) = some .dir →
      Session.appended commands (mounted g tree) (unwords (name :: (earlier ++ [w])))
        = Session.appended commands (mounted g tree) (unwords [name, w])) :
    earlier = [] ∨
      ('/' ∈ w ∧ place g (dirPart (unwords (earlier ++ [w]))) = place g (dirPart w)) := by
  by_contra hnot
  obtain ⟨hne, hplace⟩ := not_or.mp hnot
  have hone : ∀ v ∈ [w], Word v := List.forall_mem_singleton.mpr hw
  have hall : ∀ v ∈ earlier ++ [w], Word v := List.forall_mem_append.mpr ⟨hearlier, hone⟩
  obtain ⟨y, tree, tree', hy, hapart⟩ := exists_toldApart (normalParts_segment g.cwdGet)
    (place_segment g (dirPart w)) (slash_notMem_lastPart w)
  -- The file is not among what is offered for the whole argument.
  have hother : ∀ n, lastPart (unwords (earlier ++ [w])) <+: n →
      entryAt tree' (place g (dirPart (unwords (earlier ++ [w]))) ++ [n])
        = entryAt tree (place g (dirPart (unwords (earlier ++ [w]))) ++ [n]) := by
    intro n hpre
    rw [hapart.file, if_neg]
    intro heq
    obtain ⟨hpos, hn⟩ := List.append_inj' heq rfl
    obtain rfl := (List.cons.inj hn).1
    exact hplace ⟨slash_of_begins hw hne hy hpre, hpos⟩
  have hsame : ∀ c, c ∈ offered tree (place g (dirPart (unwords (earlier ++ [w]))))
        (lastPart (unwords (earlier ++ [w]))) ↔
      c ∈ offered tree' (place g (dirPart (unwords (earlier ++ [w]))))
        (lastPart (unwords (earlier ++ [w]))) := by
    intro c
    rw [mem_offered, mem_offered]
    refine exists_congr fun n => and_congr_right fun hpre => ?_
    rw [marked, marked, hother n hpre]
  have hlong := completionOf_congr hsame (offered_begins tree _ _)
  have h₁ := h tree hapart.named hapart.dir
  have h₂ := h tree' hapart.named' hapart.dir'
  rw [appended_line commands hcwd hapart.named hname hhelp (by simp) hall,
    appended_line commands hcwd hapart.named hname hhelp (by simp) hone, unwords_singleton] at h₁
  rw [appended_line commands hcwd hapart.named' hname hhelp (by simp) hall,
    appended_line commands hcwd hapart.named' hname hhelp (by simp) hone, unwords_singleton] at h₂
  exact hapart.changes (List.prefix_append _ _) (by simp)
    (slash_notMem_letter (slash_notMem_lastPart w) hy) (h₁.symm.trans (hlong.trans h₂))

/-- **The words in front of the last one make no difference to Tab, whatever is mounted,
exactly when there are none or they do not change the directory that the last one names.** -/
theorem earlier_words_tfae (commands : List Cmd) (hcwd : normalize g.cwdGet = g.cwdGet)
    {name w : Text} {earlier : List Text} (hname : Word name)
    (hhelp : name ≠ ['h', 'e', 'l', 'p']) (hearlier : ∀ v ∈ earlier, Word v) (hw : Word w) :
    [∀ root, Session.appended commands { g with root := root }
          (unwords (name :: (earlier ++ [w])))
        = Session.appended commands { g with root := root } (unwords [name, w]),
      ∀ tree, Named tree → entryAt tree (normalParts g.cwdGet) = some .dir →
        Session.appended commands (mounted g tree) (unwords (name :: (earlier ++ [w])))
          = Session.appended commands (mounted g tree) (unwords [name, w]),
      earlier = [] ∨
        ('/' ∈ w ∧ place g (dirPart (unwords (earlier ++ [w]))) = place g (dirPart w))].TFAE := by
  tfae_have 1 → 2 := fun h tree _ _ => h (Vfs.mount (Node.dir tree).toVNode)
  tfae_have 2 → 3 := same_place commands hcwd hname hhelp hearlier hw
  tfae_have 3 → 1 := by
    rintro (rfl | ⟨hslash, hplace⟩) root
    · rfl
    · have hone : ∀ v ∈ [w], Word v := List.forall_mem_singleton.mpr hw
      have hall : ∀ v ∈ earlier ++ [w], Word v := List.forall_mem_append.mpr ⟨hearlier, hone⟩
      have hdir : dirOf { g with root := root } (unwords (earlier ++ [w]))
          = dirOf { g with root := root } w := by
        show dirOf g _ = dirOf g _
        rw [dirOf_eq hcwd, dirOf_eq hcwd, hplace]
      have hlast : List.rtakeWhile (· != '/') (unwords (earlier ++ [w]))
          = w.rtakeWhile (· != '/') := lastPart_unwords hslash
      unfold Session.appended Session.completion
      rw [candidates_path (pathArg_unwords hname hhelp (by simp) hall),
        candidates_path (pathArg_unwords hname hhelp (by simp) hone), unwords_singleton,
        completePath_eq, completePath_eq, continuing, continuing, hdir, hlast]
  tfae_finish

end Token

/-! The file operand of `grep`. -/

/-- Where the path goes back over the word that the pattern is taken into, it is completed. -/
theorem earlier_words_tfae_grep :
    place atRoot (dirPart (unwords ([['x']] ++ ["d/../f".toList])))
        = place atRoot (dirPart "d/../f".toList) ∧
      ∀ root, Session.appended (COMMANDS fun _ _ _ _ => []) { atRoot with root := root }
          (unwords (['g', 'r', 'e', 'p'] :: ([['x']] ++ ["d/../f".toList])))
        = Session.appended (COMMANDS fun _ _ _ _ => []) { atRoot with root := root }
          (unwords [['g', 'r', 'e', 'p'], "d/../f".toList]) := by
  have hplace : place atRoot (dirPart (unwords ([['x']] ++ ["d/../f".toList])))
      = place atRoot (dirPart "d/../f".toList) := by decide +kernel
  have hname : Word ['g', 'r', 'e', 'p'] := ⟨by simp, by simp [Text.isWhitespace]⟩
  have hfile : Word "d/../f".toList := ⟨by simp, by simp [Text.isWhitespace]⟩
  have hpattern : ∀ v ∈ [['x']], Word v := by
    intro v hv
    rw [List.mem_singleton.mp hv]
    exact ⟨by simp, by simp [Text.isWhitespace]⟩
  have htfae := earlier_words_tfae (g := atRoot) (COMMANDS fun _ _ _ _ => []) rfl hname (by simp)
    hpattern hfile
  refine ⟨hplace, (htfae.out 2 0 rfl rfl).mp (Or.inr ⟨by simp, hplace⟩)⟩

/-- Behind a pattern it is not completed. -/
theorem operand_not_completed :
    Session.appended (COMMANDS fun _ _ _ _ => []) (mounted atRoot oneFile)
        (unwords [['g', 'r', 'e', 'p'], ['x'], ['f']]) = some [] ∧
      Session.appended (COMMANDS fun _ _ _ _ => []) (mounted atRoot oneFile)
        (unwords [['g', 'r', 'e', 'p'], ['f']]) = some ['1'] :=
  ⟨rfl, rfl⟩

end Words

end Amaterasu
