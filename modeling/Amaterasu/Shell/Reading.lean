/-
What the commands that read files print, for a tree that was in the ramdisk.

`printed` forgets the colours and keeps the text.  Everything about a mounted tree goes
through the place a path spells: a lookup of the spelling leads to the node of the tree
(`lookup_flatMap`), so what `cat`, `stat` and `ls` print there is a matter of that node.
-/
import Amaterasu.Fs.Boot
import Amaterasu.Shell.Findings

namespace Amaterasu

open Ramfs

/-- The text some operations put on the screen. -/
def printed (ops : List Writer.Op) : Text :=
  ops.flatMap fun op => match op with
    | .print t => t
    | .setFg _ => []
    | .resetColors => []
    | .clear => []

theorem printed_append (ops ops' : List Writer.Op) :
    printed (ops ++ ops') = printed ops ++ printed ops' := List.flatMap_append

theorem printed_cons (t : Text) (ops : List Writer.Op) :
    printed (println t :: ops) = t ++ ['\n'] ++ printed ops := List.flatMap_cons

theorem printed_println (t : Text) : printed [println t] = t ++ ['\n'] := List.append_nil _

theorem printed_flatMap {α : Type} (l : List α) (f : α → List Writer.Op) :
    printed (l.flatMap f) = l.flatMap fun a => printed (f a) := List.flatMap_assoc

/-! ### The order of names -/

theorem textLe_total (a : Text) : ∀ b : Text, (textLe a b || textLe b a) = true := by
  induction a with
  | nil =>
      intro b
      cases b <;> rfl
  | cons c a ih =>
      intro b
      rcases b with - | ⟨d, b⟩
      · rfl
      · by_cases hcd : c = d
        · rw [hcd, textLe, textLe, if_pos rfl, if_pos rfl]
          exact ih b
        · have hne : c.toNat ≠ d.toNat := fun h => hcd (Char.toNat_inj.mp h)
          rw [textLe, textLe, if_neg hcd, if_neg (Ne.symm hcd)]
          simp only [Bool.or_eq_true, decide_eq_true_eq]
          omega

theorem textLe_trans (a : Text) : ∀ b c : Text,
    textLe a b = true → textLe b c = true → textLe a c = true := by
  induction a with
  | nil =>
      intro b c _ _
      cases c <;> rfl
  | cons x a ih =>
      intro b c hab hbc
      rcases b with - | ⟨y, b⟩
      · exact absurd hab (by simp [textLe])
      · rcases c with - | ⟨z, c⟩
        · exact absurd hbc (by simp [textLe])
        · rw [textLe] at hab hbc ⊢
          by_cases hxy : x = y
          · rw [if_pos hxy] at hab
            rw [hxy]
            by_cases hyz : y = z
            · rw [if_pos hyz] at hbc ⊢
              exact ih b c hab hbc
            · rw [if_neg hyz] at hbc ⊢
              exact hbc
          · rw [if_neg hxy, decide_eq_true_eq] at hab
            by_cases hyz : y = z
            · rw [← hyz, if_neg hxy]
              exact decide_eq_true hab
            · rw [if_neg hyz, decide_eq_true_eq] at hbc
              rw [if_neg, decide_eq_true_eq]
              · omega
              · rintro rfl
                omega

/-- Sorted names, each once. -/
theorem mergeSort_textLe {names : List Text} (h : names.Nodup) :
    (names.mergeSort textLe).Pairwise fun a b => textLe a b = true ∧ a ≠ b := by
  have hsorted := List.pairwise_mergeSort (fun a b c => textLe_trans a b c)
    (fun a b => textLe_total a b) names
  exact hsorted.and ((List.mergeSort_perm names textLe).nodup_iff.mpr h)

/-! ### A node of the tree, on the screen -/

namespace Words

variable {tree : Entries} {parts : List Text} {g : Globals}

/-- A path that has one spelling is looked up as it is spelled. -/
theorem target_spell (g : Globals) (h : ∀ p ∈ parts, Component p) :
    target g (spell parts) = spell parts := by
  have hhead : (spell parts).head? = some '/' := by
    unfold spell
    split
    · rfl
    · rename_i hne
      rw [flatMap_slash hne]
      rfl
  have hresolve : resolve g (spell parts) = spell parts := if_pos hhead
  rw [target, hresolve]
  unfold spell
  split
  · exact normalize_root
  · rename_i hne
    exact Canonical.normalize_eq ⟨parts, hne, h, rfl⟩

/-- Where a file is read into a buffer of its size, all of it is. -/
theorem readAll_stands {v : VNode} {data : Bytes} (h : Stands v (.file data)) :
    readAll v = data := by
  unfold readAll
  dsimp only
  rw [h.read, readFile_bytes, h.size, List.length_replicate, List.drop_zero, List.take_length]

/-- What is behind a path that is not the root. -/
theorem lookup_spell (h : ∀ p ∈ parts, Segment p) (hne : parts ≠ []) {node : Node}
    (hfind : (Node.dir tree).find parts = some node) :
    ∃ v, Vfs.lookup (mounted g tree).root (spell parts) = some v ∧ Stands v node := by
  have hwalk := lookup_flatMap g tree h hne
  rw [hfind] at hwalk
  rwa [show spell parts = parts.flatMap ('/' :: ·) from if_neg hne]

section File

variable {data : Bytes} {t : Text}

/-- `cat` prints the text of a file, and ends the line. -/
theorem catPath_file (h : ∀ p ∈ parts, Segment p) (hne : parts ≠ [])
    (hfind : (Node.dir tree).find parts = some (.file (Text.encode t))) :
    printed (catPath (mounted g tree) (spell parts))
      = t ++ if t = [] ∨ t.getLast? = some '\n' then [] else ['\n'] := by
  obtain ⟨v, hlook, hstands⟩ := lookup_spell (g := g) h hne hfind
  unfold catPath
  rw [hlook]
  dsimp only
  rw [hstands.kind, hstands.size]
  dsimp only
  by_cases hnil : t = []
  · rw [hnil]
    rfl
  · have hlen : (Text.encode t).length ≠ 0 := by
      have hle := length_le_encode t
      have hpos := List.length_pos_iff.mpr hnil
      omega
    rw [if_neg hlen, readAll_stands hstands, Text.fromUtf8_encode]
    dsimp only
    by_cases hlast : t.getLast? = some '\n'
    · rw [if_pos hlast, if_pos (Or.inr hlast)]
      rfl
    · rw [if_neg hlast, if_neg (not_or.mpr ⟨hnil, hlast⟩)]
      rfl

theorem statPath_file (h : ∀ p ∈ parts, Segment p) (hne : parts ≠ [])
    (hfind : (Node.dir tree).find parts = some (.file data)) :
    printed (statPath (mounted g tree) (spell parts))
      = ("path: ".toList ++ spell parts ++ ['\n']) ++ ("type: ".toList ++ "file".toList ++ ['\n'])
        ++ ("size: ".toList ++ Text.decimal data.length ++ " bytes".toList ++ ['\n']) := by
  obtain ⟨v, hlook, hstands⟩ := lookup_spell (g := g) h hne hfind
  unfold statPath
  rw [hlook]
  dsimp only
  rw [printed_cons, printed_cons, printed_println, hstands.kind, hstands.size,
    ← List.append_assoc]
  rfl

/-- `ls` of a file prints its name. -/
theorem lsPath_file (h : ∀ p ∈ parts, Segment p) {leaf : Text} (hleaf : Segment leaf)
    (hfind : (Node.dir tree).find (parts ++ [leaf]) = some (.file data)) :
    printed (lsPath (mounted g tree) (spell (parts ++ [leaf]))) = leaf ++ ['\n'] := by
  have hall : ∀ p ∈ parts ++ [leaf], Segment p :=
    List.forall_mem_append.mpr ⟨h, List.forall_mem_singleton.mpr hleaf⟩
  obtain ⟨v, hlook, hstands⟩ := lookup_spell (g := g) hall (by simp) hfind
  have hparts := components_spell hall
  have hlast : (parts ++ [leaf]).getLastD (spell (parts ++ [leaf])) = leaf := by simp
  unfold lsPath
  rw [hparts]
  rcases hcons : parts ++ [leaf] with - | ⟨first, rest⟩
  · exact absurd hcons (by simp)
  · dsimp only
    rw [hcons] at hlook hlast
    rw [hlook]
    dsimp only
    rw [hstands.kind]
    dsimp only
    rw [hlast, printed_println]

end File

/-! ### A directory of the tree, on the screen -/

/-- One line of `ls`: the name, with a slash behind it if it is a directory. -/
theorem printed_lsRow (h : ∀ p ∈ parts, Segment p) {name : Text} (hname : Segment name) :
    printed (lsRow (mounted g tree) (parts.flatMap ('/' :: ·)) name)
      = marked tree parts name ++ ['\n'] := by
  have hall : ∀ p ∈ parts ++ [name], Segment p :=
    List.forall_mem_append.mpr ⟨h, List.forall_mem_singleton.mpr hname⟩
  have hwalk := lookup_flatMap g tree hall (by simp)
  rw [List.flatMap_append, List.flatMap_singleton] at hwalk
  unfold lsRow marked entryAt
  rcases hfind : (Node.dir tree).find (parts ++ [name]) with - | node
  · rw [hfind] at hwalk
    rw [hwalk]
    exact printed_println name
  · rw [hfind] at hwalk
    obtain ⟨v, hlook, hstands⟩ := hwalk
    rw [hlook, Option.any_some, hstands.kind]
    cases node with
    | file data => exact printed_println name
    | dir sub => simp [printed, println, Node.entry]

/-- `ls` of a directory prints the names in it, in order. -/
theorem lsPath_dir (hnamed : ∀ path n, entryAt tree (path ++ [n]) ≠ none → Segment n)
    (h : ∀ p ∈ parts, Segment p) {sub : Entries}
    (hfind : (Node.dir tree).find parts = some (.dir sub)) :
    printed (lsPath (mounted g tree) (spell parts))
      = if childNames tree parts = [] then "(empty)\n".toList
        else ((childNames tree parts).mergeSort textLe).flatMap fun n =>
          marked tree parts n ++ ['\n'] := by
  have hrows : lsPath (mounted g tree) (spell parts)
      = lsRows (mounted g tree) (parts.flatMap ('/' :: ·)) (childNames tree parts) := by
    have hnames : namesIn (mounted g tree) (spell parts) = childNames tree parts :=
      namesIn_spell h
    unfold lsPath
    rw [components_spell h]
    rcases parts with - | ⟨first, rest⟩
    · rw [← hnames]
      rfl
    · obtain ⟨v, hlook, hstands⟩ := lookup_spell (g := g) h (by simp) hfind
      dsimp only
      rw [hlook]
      dsimp only
      rw [hstands.kind, hstands.readdir]
      unfold childNames
      rw [hfind]
      rfl
  rw [hrows]
  unfold lsRows
  split
  · rfl
  · rw [printed_flatMap]
    refine List.flatMap_congr fun n hn => ?_
    have hmem := mem_childNames.mp ((List.mergeSort_perm _ _).mem_iff.mp hn)
    exact printed_lsRow h (hnamed _ _ hmem)

/-! ### From the ramdisk to the screen -/

/-- A name that a path can have is a component. -/
theorem component_of_validName {p : Text} (h : ValidName p) : Component p :=
  ⟨h.nonempty, h.dot, h.dotdot, h.slash⟩

/-- What a command on a path prints when it is entered. -/
def entered (lower : Text → Text) (out : Text → Shell → Globals → Option Text → List Writer.Op)
    (s : Shell) (g : Globals) (c : PathCommand) (path : Text) : Text :=
  printed (Session.dispatchLine (COMMANDS (filesOut lower out)) s g (unwords [c.name, path])).2

/-- The command acts on the place that the path spells. -/
theorem entered_spell (lower : Text → Text)
    (out : Text → Shell → Globals → Option Text → List Writer.Op) (s : Shell) (g : Globals)
    {c : PathCommand} (hc : c ≠ .cd) (h : ∀ p ∈ parts, Component p) (hw : Word (spell parts)) :
    entered lower out s g c (spell parts) = printed (c.act g (spell parts) (spell parts)).2 := by
  have hhead : (spell parts).head? ≠ some '~' := by
    unfold spell
    split
    · simp
    · rename_i hne
      rw [flatMap_slash hne]
      simp
  have htilde := tildeExpand_of_head hhead
  have hlook : c.lookedUp g (unwords [c.name, spell parts]) = some (spell parts) := by
    rw [lookedUp_line c g hw, htilde, PathCommand.lookUp, if_neg fun hcd => hc hcd.1,
      target_spell g h]
  rw [entered, PathCommand.dispatchLine_lookedUp lower out c hw s g hlook, htilde]

/--
**From the ramdisk to the screen.**  The archive of a tree, left at either address, is
mounted, and whatever the directory, the environment and the shell are: `cat` of a text file
prints its text and ends the line, `stat` of a file prints its size, `ls` of a file its name,
and `ls` of a directory its names, sorted and each once, with a slash behind directories.
-/
theorem archive_on_screen {T : FileTree} {m : List Text × Entry Bytes}
    {ms : List (List Text × Entry Bytes)} {data : Bytes} (hlists : T.Lists (m :: ms))
    (harchive : Archive (m :: ms) data) (hlen : BLOCK + MAGIC.length ≤ data.length)
    (hmax : data.length < 2 ^ 40) {mem : Mem} {addr physOff : Nat}
    (hplaced : Placed mem addr physOff data) :
    ∃ root, init mem addr data.length physOff none = some (Vfs.mount root) ∧
      ∀ (lower : Text → Text) (out : Text → Shell → Globals → Option Text → List Writer.Op)
        (s : Shell) (g : Globals) (parts : List Text), Word (spell parts) →
        let run := fun c => entered lower out s (g.mount root) c (spell parts)
        (∀ t, T.node parts = some (.file (Text.encode t)) →
          run .cat = t ++ if t = [] ∨ t.getLast? = some '\n' then [] else ['\n']) ∧
        (∀ bytes, T.node parts = some (.file bytes) →
          run .stat = ("path: ".toList ++ spell parts ++ ['\n'])
              ++ ("type: ".toList ++ "file".toList ++ ['\n'])
              ++ ("size: ".toList ++ Text.decimal bytes.length ++ " bytes".toList ++ ['\n']) ∧
            ∃ dir leaf, parts = dir ++ [leaf] ∧ run .ls = leaf ++ ['\n']) ∧
        (T.node parts = some .dir → ∃ names : List Text,
          (names.Pairwise fun a b => textLe a b = true ∧ a ≠ b) ∧
          (∀ n, n ∈ names ↔ T.node (parts ++ [n]) ≠ none) ∧
          run .ls = if names = [] then "(empty)\n".toList
            else names.flatMap fun n =>
              (if T.node (parts ++ [n]) = some .dir then n ++ ['/'] else n) ++ ['\n']) := by
  obtain ⟨tree, hinit, hentry, hdist⟩ := init_archive hlists harchive hplaced hlen hmax none
  refine ⟨_, hinit, fun lower out s g parts hw => ?_⟩
  have hnamed : ∀ path n, entryAt tree (path ++ [n]) ≠ none → Segment n := by
    intro path n hn
    rw [hentry] at hn
    exact (component_of_validName (T.names _ hn n (by simp))).segment
  have hcomponent : ∀ e, T.node parts = some e → ∀ p ∈ parts, Component p := by
    intro e he p hp
    exact component_of_validName (T.names parts (by rw [he]; exact Option.some_ne_none e) p hp)
  have hfind : ∀ e, T.node parts = some e →
      ∃ node, (Node.dir tree).find parts = some node ∧ node.entry = e := by
    intro e he
    rw [← hentry, entryAt] at he
    exact Option.map_eq_some_iff.mp he
  have hne : ∀ bytes, T.node parts = some (.file bytes) → parts ≠ [] := by
    rintro bytes hbytes rfl
    rw [T.root] at hbytes
    exact absurd (Option.some.inj hbytes) (by simp)
  have hfile : ∀ bytes, T.node parts = some (.file bytes) →
      (Node.dir tree).find parts = some (.file bytes) := by
    intro bytes hbytes
    obtain ⟨node, hnode, hfileEntry⟩ := hfind _ hbytes
    cases node with
    | file data' => rw [hnode, show data' = bytes from Entry.file.inj hfileEntry]
    | dir sub => exact absurd hfileEntry (by simp [Node.entry])
  have hseg : ∀ e, T.node parts = some e → ∀ p ∈ parts, Segment p :=
    fun e he p hp => (hcomponent e he p hp).segment
  refine ⟨fun t ht => ?_, fun bytes hbytes => ⟨?_, ?_⟩, fun hdir => ?_⟩
  · exact (entered_spell lower out s _ (by simp) (hcomponent _ ht) hw).trans
      (catPath_file (g := g) (hseg _ ht) (hne _ ht) (hfile _ ht))
  · exact (entered_spell lower out s _ (by simp) (hcomponent _ hbytes) hw).trans
      (statPath_file (g := g) (hseg _ hbytes) (hne _ hbytes) (hfile _ hbytes))
  · obtain ⟨dir, leaf, rfl⟩ := (List.eq_nil_or_concat' parts).resolve_left (hne _ hbytes)
    have hsegs := hseg _ hbytes
    refine ⟨dir, leaf, rfl, ?_⟩
    refine (entered_spell lower out s _ (by simp) (hcomponent _ hbytes) hw).trans ?_
    exact lsPath_file (g := g) (fun p hp => hsegs p (List.mem_append_left _ hp))
      (hsegs leaf (by simp)) (hfile _ hbytes)
  · obtain ⟨node, hnode, hdirEntry⟩ := hfind _ hdir
    cases node with
    | file data' => exact absurd hdirEntry (by simp [Node.entry])
    | dir sub =>
        have hnodup : (childNames tree parts).Nodup := by
          unfold childNames
          rw [hnode]
          exact hdist parts sub hnode
        refine ⟨_, mergeSort_textLe hnodup, fun n => ?_, ?_⟩
        · rw [(List.mergeSort_perm _ _).mem_iff, mem_childNames, hentry]
        · refine (entered_spell lower out s _ (by simp) (hcomponent _ hdir) hw).trans ?_
          refine (lsPath_dir (g := g) hnamed (hseg _ hdir) hnode).trans ?_
          unfold marked
          rw [hentry]
          by_cases hnil : childNames tree parts = []
          · have hsorted : (childNames tree parts).mergeSort textLe = [] := by
              rw [hnil, List.mergeSort_nil]
            rw [if_pos hnil, if_pos hsorted]
          · have hsorted : (childNames tree parts).mergeSort textLe ≠ [] := fun h =>
              hnil (List.perm_nil.mp (h ▸ (List.mergeSort_perm _ textLe).symm))
            rw [if_neg hnil, if_neg hsorted]

theorem archive_on_screen_one_file :
    let data := demoHeader ++ ([0x41] ++ (List.replicate 511 0 ++ []))
    ∃ root, init (fun a => data.getD a 0) 0 data.length 0 none = some (Vfs.mount root) ∧
      ∀ (lower : Text → Text) (out : Text → Shell → Globals → Option Text → List Writer.Op)
        (s : Shell) (g : Globals),
        entered lower out s (g.mount root) .cat "/d/a".toList = "A\n".toList ∧
          entered lower out s (g.mount root) .ls "/d/a".toList = "a\n".toList := by
  intro data
  have hlen : data.length = 1024 := by
    simp only [data, List.length_append, List.length_replicate, List.length_cons, List.length_nil,
      demo_header.length]
    rfl
  have harchive : Archive [([['d'], ['a']], .file [0x41])] data :=
    .member demo_header (by rw [List.length_replicate]; decide) (.endOfData (by decide))
  have hplaced : Placed (fun a => data.getD a 0) 0 0 data :=
    Or.inl fun i hi => by simp [List.getD_eq_getElem?_getD, hi]
  have hword : Word (spell [['d'], ['a']]) :=
    ⟨by simp [spell], by simp [spell, Text.isWhitespace]⟩
  obtain ⟨root, hinit, hscreen⟩ := archive_on_screen demo_lists harchive
    (by rw [hlen]; decide) (by rw [hlen]; decide) hplaced
  refine ⟨root, hinit, fun lower out s g => ?_⟩
  obtain ⟨hcat, hfile, -⟩ := hscreen lower out s g [['d'], ['a']] hword
  obtain ⟨-, dir, leaf, hparts, hls⟩ := hfile [0x41] rfl
  refine ⟨(hcat ['A'] rfl).trans (by decide), hls.trans ?_⟩
  have hleaf : leaf = ['a'] := by
    have hlast := congrArg List.getLast? hparts
    simpa using hlast.symm
  rw [hleaf]
  rfl

end Words

end Amaterasu
