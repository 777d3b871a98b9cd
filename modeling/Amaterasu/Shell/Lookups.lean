/-
Where completion looks, and where the command will.

A path is interpreted twice, by `complete_path` and by `cmd_arg`, `tilde_expand`, `resolve`
and `normalize` on the way to a command.  Both go from the directory part of the path to a
place in the tree, and from there to a name.  They go to the same places, but for a tilde
that completion does not expand, and for names that are not what they spell when a command
reads them.
-/
import Amaterasu.Shell.Lines
import Amaterasu.Shell.Places

namespace Amaterasu

open Ramfs

namespace Words

open Move

/-! ### Commands that take a path -/

inductive PathCommand
  | cat
  | ls
  | cd
  | stat
  deriving DecidableEq

/-- The end of `cmd_cd`, with the path resolved. -/
def cdPath (g : Globals) (path resolved : Text) : Globals × List Writer.Op :=
  if resolved = ['/'] then ((g.cwdSet ['/']).setEnv Globals.PWD ['/'], [])
  else match Vfs.lookup g.root resolved with
    | none => (g, [println ("cd: not found: ".toList ++ path)])
    | some node =>
        match node.kind with
        | .file => (g, [println ("cd: not a directory: ".toList ++ path)])
        | .dir => ((g.setEnv Globals.PWD resolved).cwdSet resolved, [])

namespace PathCommand

def name : PathCommand → Text
  | cat => ['c', 'a', 't']
  | ls => ['l', 's']
  | cd => ['c', 'd']
  | stat => ['s', 't', 'a', 't']

/-- What the command does about a path, once it is resolved. -/
def act (c : PathCommand) (g : Globals) (path resolved : Text) : Globals × List Writer.Op :=
  match c with
  | cat => (g, catPath g resolved)
  | ls => (g, lsPath g resolved)
  | cd => cdPath g path resolved
  | stat => (g, statPath g resolved)

/-- The path that the command looks up for its argument; `cd -` looks up none. -/
def lookUp (c : PathCommand) (g : Globals) (path : Text) : Option Text :=
  if c = cd ∧ path = ['-'] then none else some (target g path)

def lookedUp (c : PathCommand) (g : Globals) (line : Text) : Option Text :=
  (cmdArg line).bind (c.lookUp g)

theorem word_name (c : PathCommand) : Word c.name := by
  cases c <;> exact ⟨by simp [name], by simp [name, Text.isWhitespace]⟩

/-- Running the command acts on the path it looks up. -/
theorem dispatchLine_lookedUp (lower : Text → Text)
    (out : Text → Shell → Globals → Option Text → List Writer.Op) (c : PathCommand) {w path : Text}
    (hw : Word w) (s : Shell) (g : Globals)
    (h : c.lookedUp g (unwords [c.name, w]) = some path) :
    Session.dispatchLine (COMMANDS (filesOut lower out)) s g (unwords [c.name, w])
      = c.act g (tildeExpand w) path := by
  have hwords : ∀ v ∈ [w], Word v := List.forall_mem_singleton.mpr hw
  have harg := cmdArg_unwords c.word_name (List.cons_ne_nil w []) hwords
  rw [unwords_singleton] at harg
  unfold lookedUp at h
  rw [harg, Option.bind_some, lookUp] at h
  split at h
  · exact absurd h (by simp)
  · rename_i hdash
    obtain rfl := Option.some.inj h
    have hrun : ∀ entry : Cmd,
        (COMMANDS (filesOut lower out)).find? (fun e => c.name == e.name) = some entry →
        Session.dispatchLine (COMMANDS (filesOut lower out)) s g (unwords [c.name, w])
          = entry.run s g (some (tildeExpand w)) := by
      intro entry hentry
      have heq := dispatchLine_unwords c.word_name (List.cons_ne_nil w []) hwords hentry s g
      rwa [unwords_singleton] at heq
    cases c with
    | cat => exact hrun _ rfl
    | ls => exact hrun _ rfl
    | stat => exact hrun _ rfl
    | cd =>
        rw [hrun _ rfl]
        show cmdCd g (some (tildeExpand w)) = _
        unfold cmdCd
        dsimp only
        rw [if_neg fun heq => hdash ⟨rfl, heq⟩]
        rfl

end PathCommand

/-! ### The place a directory part leads to -/

/-- The directory part of a path, up to its last slash, and what is behind it. -/
def dirPart (part : Text) : Text := part.rdropWhile (· != '/')

def lastPart (part : Text) : Text := part.rtakeWhile (· != '/')

theorem dirPart_append (part : Text) : dirPart part ++ lastPart part = part :=
  List.rdropWhile_append_rtakeWhile

/-- A directory part ends with a slash. -/
theorem dirPart_cases (part : Text) : dirPart part = [] ∨ ∃ d, dirPart part = d ++ ['/'] := by
  rcases List.eq_nil_or_concat (dirPart part) with hnil | ⟨d, c, hd⟩
  · exact Or.inl hnil
  · have hne : dirPart part ≠ [] := by
      rw [hd]
      simp
    have hlast : ¬ ((dirPart part).getLast hne != '/') = true := List.rdropWhile_last_not _ _ hne
    rw [List.concat_eq_append] at hd
    simp only [hd, List.getLast_append_singleton] at hlast
    refine Or.inr ⟨d, ?_⟩
    rw [hd, show c = '/' by simpa using hlast]

/-- The place that a directory part leads to. -/
def place (g : Globals) (dir : Text) : List Text :=
  if dir = [] then normalParts g.cwdGet else normalParts (resolve g dir)

theorem place_component (g : Globals) (dir : Text) : ∀ p ∈ place g dir, Component p := by
  unfold place
  split
  · exact normalParts_component _
  · exact normalParts_component _

theorem place_segment (g : Globals) (dir : Text) : ∀ p ∈ place g dir, Segment p :=
  fun p hp => (place_component g dir p hp).segment

theorem dirOf_eq {g : Globals} (hcwd : normalize g.cwdGet = g.cwdGet) (part : Text) :
    dirOf g part = spell (place g (dirPart part)) := by
  unfold dirOf place
  show (if dirPart part = [] then g.cwdGet else normalize (resolve g (dirPart part))) = _
  split
  · rw [← normalize_eq, hcwd]
  · rfl

theorem resolve_append {g : Globals} {dir : Text} (hne : dir ≠ []) (rest : Text) :
    resolve g (dir ++ rest) = resolve g dir ++ rest := by
  unfold resolve
  rw [List.head?_append_of_ne_nil _ hne]
  split
  · rfl
  · split
    · rw [List.append_assoc]
    · rw [List.append_assoc, List.cons_append]

/-- A path leads on from the place its directory part leads to. -/
theorem normalParts_place {g : Globals} {dir rest : Text} (hdir : dir = [] ∨ ∃ d, dir = d ++ ['/'])
    (hrel : dir = [] → Relative rest) :
    normalParts (resolve g (dir ++ rest)) = walk (place g dir) (moves rest) := by
  rcases hdir with rfl | ⟨d, rfl⟩
  · rw [List.nil_append, normalParts_resolve (hrel rfl), normalParts_eq, moves_append, walk_append,
      ← normalParts_eq]
    rfl
  · have hne : d ++ ['/'] ≠ [] := by simp
    obtain ⟨front, hfront⟩ : ∃ front, resolve g (d ++ ['/']) = front ++ ['/'] := by
      unfold resolve
      split
      · exact ⟨d, rfl⟩
      · split
        · exact ⟨g.cwdGet ++ d, by rw [List.append_assoc]⟩
        · exact ⟨g.cwdGet ++ '/' :: d, by rw [List.append_assoc, List.cons_append]⟩
    rw [resolve_append hne, place, if_neg hne, hfront, List.append_assoc, List.singleton_append,
      normalParts_eq, normalParts_eq, moves_append, moves_append, walk_append, walk_append,
      moves_nil]
    rfl

/-- What a name does, with a slash behind it or not. -/
theorem walk_name {n : Text} (hn : Segment n) (pos : List Text) {t : Text}
    (ht : t = [] ∨ t = ['/']) : walk pos (moves (n ++ t)) = apply pos (move n) := by
  have hone : moves n = [move n] := by
    unfold moves List.splitOn
    rw [List.splitOnP_eq_singleton, List.map_singleton]
    intro c hc
    rw [beq_eq_false_iff_ne]
    rintro rfl
    exact hn.2 hc
  rcases ht with rfl | rfl
  · rw [List.append_nil, hone, walk_cons, walk_nil]
  · rw [moves_append, hone, moves_nil]
    rfl

/-- A path to a name is tilde-expanded by its directory part, if it has one. -/
theorem tildeExpand_append {dir : Text} (hne : dir ≠ []) (rest : Text) :
    tildeExpand (dir ++ rest) = tildeExpand dir ++ rest := by
  obtain ⟨c, dir, rfl⟩ := List.exists_cons_of_ne_nil hne
  unfold tildeExpand
  split
  · rename_i heq
    obtain ⟨rfl, rfl⟩ := List.cons.inj heq
    rfl
  · rename_i htilde
    split
    · rename_i heq
      obtain ⟨rfl, -⟩ := List.cons.inj heq
      exact absurd rfl (htilde _)
    · rfl

theorem tildeExpand_of_head {s : Text} (h : s.head? ≠ some '~') : tildeExpand s = s := by
  unfold tildeExpand
  split
  · exact absurd rfl h
  · rfl

/-- A name that is not a component does not end a path that is normalized. -/
theorem component_of_normalParts {path : Text} {pos : List Text} {n : Text}
    (h : normalParts path = pos ++ [n]) : Component n :=
  normalParts_component path n (by rw [h]; simp)

section Child

variable {g : Globals} {n t : Text} {pos : List Text}

/-- A path that leads through a name to a place leads to the child of that name, unless the
name is one of the two dots. -/
theorem target_child_iff (hpos : ∀ p ∈ pos, Segment p) (hn : Segment n) {path : Text}
    (hpath : normalParts (resolve g path) = apply pos (move n)) :
    target g path = spell (pos ++ [n]) ↔ Component n := by
  have hsegment : ∀ p ∈ pos ++ [n], Segment p :=
    List.forall_mem_append.mpr ⟨hpos, List.forall_mem_singleton.mpr hn⟩
  rw [target, normalize_eq]
  constructor
  · intro heq
    exact component_of_normalParts (spell_injective (normalParts_segment _) hsegment heq)
  · intro hcomp
    rw [hpath, hcomp.move_eq]
    rfl

/-- A name with a tilde in front is read as a path from the root, without it. -/
theorem target_tilde_ne (hpos : ∀ p ∈ pos, Segment p) (hn : Segment ('~' :: n))
    (ht : t = [] ∨ t = ['/']) : target g ('/' :: (n ++ t)) ≠ spell (pos ++ ['~' :: n]) := by
  have habs : resolve g ('/' :: (n ++ t)) = '/' :: (n ++ t) := if_pos rfl
  have hsegment : ∀ p ∈ pos ++ ['~' :: n], Segment p :=
    List.forall_mem_append.mpr ⟨hpos, List.forall_mem_singleton.mpr hn⟩
  have hlast : ∀ path : List Text, path = [] ∨ path = [n] → path ≠ pos ++ ['~' :: n] := by
    rintro path (rfl | rfl) heq
    · exact absurd heq (by simp)
    · have hget := congrArg List.getLast? heq
      rw [List.getLast?_concat] at hget
      have hlen := congrArg List.length (Option.some.inj hget)
      simp at hlen
  rw [target, normalize_eq, habs]
  intro heq
  refine hlast _ ?_ (spell_injective (normalParts_segment _) hsegment heq)
  rw [normalParts_eq, moves_slash, walk_cons]
  rcases eq_or_ne n [] with rfl | hne
  · refine Or.inl ?_
    rcases ht with rfl | rfl
    · rw [List.append_nil, moves_nil]
      rfl
    · rw [List.nil_append, moves_slash, moves_nil]
      rfl
  · rw [walk_name ⟨hne, fun hmem => hn.2 (List.mem_cons_of_mem _ hmem)⟩ _ ht]
    unfold move
    split
    · exact Or.inl rfl
    · split
      · exact Or.inl rfl
      · exact Or.inr rfl

/-- A path with a slash is not the dash of `cd -`. -/
theorem slash_ne_dash (a b : Text) : a ++ '/' :: b ≠ ['-'] := by
  intro heq
  have hmem : '/' ∈ (['-'] : Text) := by
    rw [← heq]
    simp
  exact absurd hmem (by decide)

/-- A name alone. -/
theorem lookUp_name (c : PathCommand) (g : Globals) (hn : Segment n) (ht : t = [] ∨ t = ['/']) :
    c.lookUp g (tildeExpand (n ++ t)) = some (spell (place g [] ++ [n])) ↔
      Component n ∧ n.head? ≠ some '~' ∧ ¬ (c = .cd ∧ n = ['-'] ∧ t = []) := by
  by_cases htilde : n.head? = some '~'
  · refine iff_of_false ?_ fun h => h.2.1 htilde
    obtain ⟨m, rfl⟩ : ∃ m, n = '~' :: m := by
      rcases n with - | ⟨d, m⟩
      · exact absurd htilde (by simp)
      · obtain rfl : d = '~' := by simpa using htilde
        exact ⟨m, rfl⟩
    show ¬ c.lookUp g ('/' :: (m ++ t)) = _
    rw [PathCommand.lookUp, if_neg (by simp), Option.some.injEq]
    exact target_tilde_ne (place_segment g []) hn ht
  · have hhead : (n ++ t).head? = n.head? := List.head?_append_of_ne_nil _ hn.1
    have hrel : Relative (n ++ t) := by
      unfold Relative
      rw [hhead]
      intro hslash
      exact hn.2 (List.mem_of_head? hslash)
    have hpath : normalParts (resolve g (n ++ t)) = apply (place g []) (move n) := by
      rw [← walk_name hn (place g []) ht]
      exact normalParts_place (Or.inl rfl) fun _ => hrel
    rw [tildeExpand_of_head (by rwa [hhead]), PathCommand.lookUp]
    by_cases hprev : c = .cd ∧ n ++ t = ['-']
    · rw [if_pos hprev]
      refine iff_of_false (by simp) ?_
      rintro ⟨-, -, hnot⟩
      obtain ⟨rfl, hdash⟩ := hprev
      rcases ht with rfl | rfl
      · rw [List.append_nil] at hdash
        exact hnot ⟨rfl, hdash, rfl⟩
      · exact slash_ne_dash _ _ hdash
    · rw [if_neg hprev, Option.some.injEq, target_child_iff (place_segment g []) hn hpath]
      constructor
      · intro hcomp
        refine ⟨hcomp, htilde, ?_⟩
        rintro ⟨hc, rfl, rfl⟩
        exact hprev ⟨hc, rfl⟩
      · exact And.left

/-- A name behind a directory part. -/
theorem lookUp_below (c : PathCommand) (g : Globals) (dir : Text) (hn : Segment n)
    (ht : t = [] ∨ t = ['/']) :
    c.lookUp g (tildeExpand ((dir ++ ['/']) ++ (n ++ t)))
        = some (spell (place g (tildeExpand (dir ++ ['/'])) ++ [n])) ↔ Component n := by
  obtain ⟨d, hd⟩ : ∃ d, tildeExpand (dir ++ ['/']) = d ++ ['/'] := by
    rcases dir with - | ⟨e, dir⟩
    · exact ⟨[], rfl⟩
    · exact ⟨tildeExpand (e :: dir), tildeExpand_append (by simp) _⟩
  rw [tildeExpand_append (by simp), hd, PathCommand.lookUp, if_neg, Option.some.injEq]
  · apply target_child_iff (place_segment g _) hn
    rw [← walk_name hn _ ht]
    exact normalParts_place (Or.inr ⟨d, rfl⟩) fun h => absurd h (by simp)
  · rintro ⟨-, hdash⟩
    rw [List.append_assoc] at hdash
    exact slash_ne_dash _ _ hdash

end Child

/-! ### A line with a path at its end -/

theorem dropWhile_unwords {words : List Text} (hne : words ≠ []) (h : ∀ w ∈ words, Word w) :
    (unwords words).dropWhile Text.isWhitespace = unwords words := by
  obtain ⟨w, words, rfl⟩ := List.exists_cons_of_ne_nil hne
  have hw := h w List.mem_cons_self
  have hhead : (unwords (w :: words)).head? = w.head? := unwords_head? hw
  rcases hline : unwords (w :: words) with - | ⟨c, line⟩
  · rfl
  · rw [hline] at hhead
    rw [List.dropWhile_cons_of_neg]
    rw [(hw.chars c (List.mem_of_head? hhead.symm)).1]
    simp

/-- Everything behind the command is what is completed. -/
theorem pathArg_unwords {name : Text} {words : List Text} (hname : Word name)
    (hhelp : name ≠ ['h', 'e', 'l', 'p']) (hne : words ≠ []) (h : ∀ w ∈ words, Word w) :
    pathArg (unwords (name :: words)) = some (unwords words) := by
  have hall : ∀ w ∈ name :: words, Word w := List.forall_mem_cons.mpr ⟨hname, h⟩
  obtain ⟨htake, hdrop⟩ := takeWhile_unwords hname hne
  unfold pathArg
  dsimp only
  rw [dropWhile_unwords (List.cons_ne_nil _ _) hall, htake, hdrop, if_neg (by simp [hhelp]),
    List.dropWhile_cons_of_pos (by decide), dropWhile_unwords hne h]

/-! ### The two interpretations -/

/-- Completion offers what is in the place the command resolves the directory part to, and
what it completes leads the command to the child it offered. -/
structure LooksAlike (commands : List Cmd) (c : PathCommand) (g : Globals) (tree : Entries)
    (part : Text) : Prop where
  candidates : Words.candidates (commands.map Cmd.name) (mounted g tree) (unwords [c.name, part])
    = some (offered tree (place g (tildeExpand (dirPart part))) (lastPart part),
      Text.byteLen (lastPart part))
  child : ∀ n rest,
    (childNames tree (place g (tildeExpand (dirPart part)))).filter (lastPart part).isPrefixOf
      = [n] →
    Session.completion commands (mounted g tree) (unwords [c.name, part]) = some (.append rest) →
    c.lookedUp (mounted g tree) (unwords [c.name, part] ++ rest)
      = some (spell (place g (tildeExpand (dirPart part)) ++ [n]))

/-- A tilde in front of the directory part makes no difference, and a name that is completed
alone is read as itself. -/
structure ReadsAlike (c : PathCommand) (g : Globals) (tree : Entries) (part : Text) : Prop where
  tilde : (dirPart part).head? = some '~' →
    offered tree (place g (dirPart part)) (lastPart part)
      = offered tree (place g (tildeExpand (dirPart part))) (lastPart part)
  name : ∀ n,
    (childNames tree (place g (tildeExpand (dirPart part)))).filter (lastPart part).isPrefixOf
      = [n] →
    n ≠ ['.'] ∧ n ≠ ['.', '.'] ∧ (dirPart part = [] → n.head? ≠ some '~') ∧
      ¬ (c = .cd ∧ dirPart part = [] ∧ n = ['-'] ∧
        entryAt tree (place g (tildeExpand (dirPart part)) ++ [n]) ≠ some .dir)

theorem marked_eq (tree : Entries) (pos : List Text) (n : Text) : ∃ t, marked tree pos n = n ++ t ∧
    (t = [] ∨ t = ['/']) ∧ (t = [] ↔ entryAt tree (pos ++ [n]) ≠ some .dir) := by
  unfold marked
  by_cases hdir : entryAt tree (pos ++ [n]) = some .dir
  · rw [if_pos hdir]
    exact ⟨['/'], rfl, Or.inr rfl, by simp [hdir]⟩
  · rw [if_neg hdir]
    exact ⟨[], (List.append_nil n).symm, Or.inl rfl, by simp [hdir]⟩

/-- Where a path to a name that was completed leads. -/
theorem lookUp_marked (c : PathCommand) (g : Globals) (tree : Entries) (part : Text) {n : Text}
    (hn : Segment n) :
    c.lookUp g (tildeExpand (dirPart part ++ marked tree (place g (tildeExpand (dirPart part))) n))
        = some (spell (place g (tildeExpand (dirPart part)) ++ [n])) ↔
      n ≠ ['.'] ∧ n ≠ ['.', '.'] ∧ (dirPart part = [] → n.head? ≠ some '~') ∧
        ¬ (c = .cd ∧ dirPart part = [] ∧ n = ['-'] ∧
          entryAt tree (place g (tildeExpand (dirPart part)) ++ [n]) ≠ some .dir) := by
  have hcomp : Component n ↔ n ≠ ['.'] ∧ n ≠ ['.', '.'] :=
    ⟨fun h => ⟨h.ne_dot, h.ne_dots⟩, fun h => ⟨hn.1, h.1, h.2, hn.2⟩⟩
  obtain ⟨t, hmarked, ht, hfile⟩ := marked_eq tree (place g (tildeExpand (dirPart part))) n
  rw [hmarked, ← hfile]
  rcases dirPart_cases part with hdir | ⟨d, hdir⟩
  · rw [hdir, List.nil_append]
    refine (lookUp_name c g hn ht).trans ?_
    rw [hcomp, and_assoc]
    simp
  · rw [hdir]
    refine (lookUp_below c g d hn ht).trans ?_
    rw [hcomp]
    simp

section Line

variable {g : Globals} {tree : Entries} {part : Text}

theorem candidates_line (commands : List Cmd) (c : PathCommand)
    (hcwd : normalize g.cwdGet = g.cwdGet) (hnamed : Named tree) (hpart : Word part) :
    Words.candidates (commands.map Cmd.name) (mounted g tree) (unwords [c.name, part])
      = some (offered tree (place g (dirPart part)) (lastPart part),
        Text.byteLen (lastPart part)) := by
  have hhelp : c.name ≠ ['h', 'e', 'l', 'p'] := by
    cases c <;> simp [PathCommand.name]
  have harg : pathArg (unwords [c.name, part]) = some (unwords [part]) :=
    pathArg_unwords c.word_name hhelp (List.cons_ne_nil part [])
      (List.forall_mem_singleton.mpr hpart)
  rw [unwords_singleton] at harg
  rw [candidates_path harg,
    completePath_spell hnamed (place_segment g (dirPart part)) (dirOf_eq hcwd part)]
  rfl

/-- A path with a name at its end, on a line. -/
theorem lookedUp_line (c : PathCommand) (g : Globals) {path : Text} (hpath : Word path) :
    c.lookedUp g (unwords [c.name, path]) = c.lookUp g (tildeExpand path) := by
  have harg : cmdArg (unwords [c.name, path]) = some (tildeExpand (unwords [path])) :=
    cmdArg_unwords c.word_name (List.cons_ne_nil path []) (List.forall_mem_singleton.mpr hpath)
  rw [PathCommand.lookedUp, harg, unwords_singleton, Option.bind_some]

/-- A name that is completed alone, and the line it leaves. -/
theorem completes_alone (commands : List Cmd) (c : PathCommand)
    (hcwd : normalize g.cwdGet = g.cwdGet) (hnamed : Named tree)
    (hwords : ∀ path n, entryAt tree (path ++ [n]) ≠ none → Word n) (hpart : Word part)
    {pos : List Text} (hoffered : offered tree (place g (dirPart part)) (lastPart part)
      = offered tree pos (lastPart part)) {n : Text}
    (hn : (childNames tree pos).filter (lastPart part).isPrefixOf = [n]) :
    Segment n ∧ Word (dirPart part ++ marked tree pos n) ∧ ∃ rest,
      Session.completion commands (mounted g tree) (unwords [c.name, part])
        = some (.append rest) ∧
      unwords [c.name, part] ++ rest = unwords [c.name, dirPart part ++ marked tree pos n] := by
  have hmem : n ∈ (childNames tree pos).filter (lastPart part).isPrefixOf := by
    rw [hn]
    exact List.mem_singleton.mpr rfl
  obtain ⟨hchild, hpre⟩ := List.mem_filter.mp hmem
  have hentry := mem_childNames.mp hchild
  obtain ⟨t, hmarked, ht, -⟩ := marked_eq tree pos n
  obtain ⟨r, rfl⟩ := List.isPrefixOf_iff_prefix.mp hpre
  have hpath : dirPart part ++ marked tree pos (lastPart part ++ r) = part ++ (r ++ t) := by
    rw [hmarked, List.append_assoc, ← List.append_assoc, dirPart_append]
  refine ⟨hnamed _ _ hentry, ?_, r ++ t, ?_, ?_⟩
  · rw [hpath]
    refine ⟨by simp [hpart.ne_nil], ?_⟩
    intro d hd
    rcases List.mem_append.mp hd with hd | hd
    · exact hpart.chars d hd
    · rcases List.mem_append.mp hd with hd | hd
      · exact (hwords _ _ hentry).chars d (List.mem_append_right _ hd)
      · rcases ht with rfl | rfl
        · exact absurd hd List.not_mem_nil
        · rw [List.mem_singleton.mp hd]
          decide
  · have honly : offered tree pos (lastPart part) = [lastPart part ++ (r ++ t)] := by
      rw [offered, hn, List.map_singleton, hmarked, List.append_assoc]
    unfold Session.completion
    rw [candidates_line commands c hcwd hnamed hpart, hoffered, honly]
    show (Text.dropBytes _ _).map _ = _
    rw [Text.dropBytes_append]
    rfl
  · rw [hpath]
    simp [unwords_cons, unwords_singleton]

theorem ReadsAlike.offered_eq {c : PathCommand} (h : ReadsAlike c g tree part) :
    offered tree (place g (dirPart part)) (lastPart part)
      = offered tree (place g (tildeExpand (dirPart part))) (lastPart part) := by
  by_cases hhead : (dirPart part).head? = some '~'
  · exact h.tilde hhead
  · rw [tildeExpand_of_head hhead]

/-- **Completion and the commands agree exactly when they read the path alike.** -/
theorem looksAlike_iff (commands : List Cmd) (c : PathCommand)
    (hcwd : normalize g.cwdGet = g.cwdGet) (hnamed : Named tree)
    (hwords : ∀ path n, entryAt tree (path ++ [n]) ≠ none → Word n) (hpart : Word part) :
    LooksAlike commands c g tree part ↔ ReadsAlike c g tree part := by
  have hcands := candidates_line commands c hcwd hnamed hpart
  constructor
  · rintro ⟨hcandidates, hchild⟩
    rw [hcands, Option.some.injEq, Prod.mk.injEq] at hcandidates
    refine ⟨fun _ => hcandidates.1, ?_⟩
    intro n hn
    obtain ⟨hsegment, hword, rest, hcomplete, hline⟩ :=
      completes_alone commands c hcwd hnamed hwords hpart hcandidates.1 hn
    have hlook := hchild n rest hn hcomplete
    rw [hline, lookedUp_line c _ hword] at hlook
    exact (lookUp_marked c g tree part hsegment).mp hlook
  · rintro ⟨htilde, hname⟩
    have hoffered := ReadsAlike.offered_eq ⟨htilde, hname⟩
    refine ⟨by rw [hcands, hoffered], ?_⟩
    intro n rest hn hcomplete
    obtain ⟨hsegment, hword, rest', hcomplete', hline⟩ :=
      completes_alone commands c hcwd hnamed hwords hpart hoffered hn
    rw [hcomplete, Option.some.injEq, Session.Completion.append.injEq] at hcomplete'
    rw [hcomplete', hline, lookedUp_line c _ hword]
    exact (lookUp_marked c g tree part hsegment).mpr (hname n hn)

/-- Tab, and then the command: it acts on the child that was completed. -/
theorem ReadsAlike.tab_runs (lower : Text → Text)
    (out : Text → Shell → Globals → Option Text → List Writer.Op) {c : PathCommand}
    (h : ReadsAlike c g tree part) (hcwd : normalize g.cwdGet = g.cwdGet) (hnamed : Named tree)
    (hwords : ∀ path n, entryAt tree (path ++ [n]) ≠ none → Word n) (hpart : Word part) {n : Text}
    (hn : (childNames tree (place g (tildeExpand (dirPart part)))).filter
      (lastPart part).isPrefixOf = [n])
    {s : Session} (hs : s.shell.Bounded) (hglobals : s.globals = mounted g tree)
    (hline : s.shell.line = unwords [c.name, part])
    (hfit : (unwords [c.name, dirPart part ++ marked tree (place g (tildeExpand (dirPart part)))
      n]).length ≤ BUF_CAP) :
    ∃ s' path, s.complete (COMMANDS (filesOut lower out)) = some s' ∧
      Session.dispatchLine (COMMANDS (filesOut lower out)) s'.shell s'.globals s'.shell.line
        = c.act (mounted g tree) path (spell (place g (tildeExpand (dirPart part)) ++ [n])) := by
  obtain ⟨hsegment, hword, rest, hcomplete, heq⟩ :=
    completes_alone (COMMANDS (filesOut lower out)) c hcwd hnamed hwords hpart h.offered_eq hn
  have hlook := (lookUp_marked c g tree part hsegment).mpr (h.name n hn)
  rw [← hglobals, ← hline] at hcomplete
  obtain ⟨s', hs', hline', hglobals'⟩ := Session.complete_append _ hs hcomplete (by
    rw [hline, heq]
    exact hfit)
  refine ⟨s', tildeExpand (dirPart part ++ marked tree (place g (tildeExpand (dirPart part))) n),
    hs', ?_⟩
  rw [hglobals', hglobals, hline', hline, heq]
  refine PathCommand.dispatchLine_lookedUp lower out c hword s'.shell _ ?_
  rw [lookedUp_line c _ hword]
  exact hlook

end Line

/-! A file in the root, completed there and behind a tilde. -/

def oneFile : Entries := [(['f', '1'], .file [])]

theorem oneFile_names {path : List Text} {n : Text} (h : entryAt oneFile (path ++ [n]) ≠ none) :
    n = ['f', '1'] := by
  have hchild : ∀ m, child oneFile m = if ['f', '1'] = m then some (.file []) else none :=
    fun m => child_cons _ _ _ m
  rcases path with - | ⟨m, path⟩
  · rw [List.nil_append, entryAt_cons, hchild] at h
    by_contra hne
    rw [if_neg (Ne.symm hne)] at h
    exact h rfl
  · rw [List.cons_append, entryAt_cons, hchild] at h
    split at h
    · rw [Option.bind_some] at h
      exact absurd (by cases path <;> rfl) h
    · exact absurd rfl h

def atRoot : Globals where
  cwd := ['/']
  prevCwd := []
  env := []
  root := none

theorem looksAlike_iff_oneFile :
    LooksAlike (COMMANDS fun _ _ _ _ => []) .cat atRoot oneFile ['f'] ↔
      ReadsAlike .cat atRoot oneFile ['f'] := by
  refine looksAlike_iff _ .cat rfl ?_ ?_ ⟨by simp, by simp [Text.isWhitespace]⟩
  · intro path n h
    rw [oneFile_names h]
    exact ⟨by simp, by simp⟩
  · intro path n h
    rw [oneFile_names h]
    exact ⟨by simp, by simp [Text.isWhitespace]⟩

/-- Completion does not expand the tilde. -/
theorem tilde_not_completed :
    ¬ LooksAlike (COMMANDS fun _ _ _ _ => []) .cat atRoot oneFile ['~', '/', 'f'] := by
  rintro ⟨hcandidates, -⟩
  have hnone : candidates ((COMMANDS fun _ _ _ _ => []).map Cmd.name) (mounted atRoot oneFile)
      (unwords [PathCommand.name .cat, ['~', '/', 'f']]) = some ([], 1) := rfl
  have hone : offered oneFile (place atRoot (tildeExpand (dirPart ['~', '/', 'f'])))
      (lastPart ['~', '/', 'f']) = [['f', '1']] := rfl
  rw [hnone, hone] at hcandidates
  exact absurd hcandidates (by simp)

end Words

end Amaterasu
