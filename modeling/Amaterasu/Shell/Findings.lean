/-
What `cd`, `ls`, `stat` and `cat` find at a path.

The four commands resolve their argument in the same way and then look at the tree, each with
branches of its own for the root, which `vfs::lookup` does not return.  `PathCommand.finding`
is the branch a command takes; `PathCommand.Says` is what it then does.  Anywhere below the
root all four find what the tree has there.  At the root `cd` and `ls` find a directory, and
`stat` and `cat` find nothing.
-/
import Amaterasu.Shell.Lookups

namespace Amaterasu

open Ramfs

namespace Globals

/-- The globals after `vfs::mount`. -/
def mount (g : Globals) (root : VNode) : Globals := { g with root := Vfs.mount root }

end Globals

namespace Words

/-- What a command comes to, once it has looked at a path. -/
inductive Finding
  | unmounted
  | missing
  | file
  | directory
  deriving DecidableEq

namespace Finding

def ofKind : NodeKind → Finding
  | .file => file
  | .dir => directory

/-- The three cases of a `match vfs::lookup(..)`. -/
def ofLookup : Option VNode → Finding
  | none => missing
  | some node => ofKind node.kind

/-- What the tree itself has to say. -/
def ofEntry : Option (Entry Bytes) → Finding
  | none => missing
  | some (.file _) => file
  | some .dir => directory

end Finding

namespace PathCommand

/-- The command, with an argument. -/
def run (c : PathCommand) (g : Globals) (p : Text) : Globals × List Writer.Op :=
  match c with
  | cat => (g, cmdCat g (some p))
  | ls => (g, cmdLs g (some p))
  | cd => cmdCd g (some p)
  | stat => (g, cmdStat g (some p))

/-- The branch the command takes for a path it has resolved. -/
def finding (c : PathCommand) (g : Globals) (path : Text) : Finding :=
  match c with
  | cat => .ofLookup (Vfs.lookup g.root path)
  | stat => .ofLookup (Vfs.lookup g.root path)
  | cd => if path = ['/'] then .directory else .ofLookup (Vfs.lookup g.root path)
  | ls =>
      match Text.components '/' path with
      | [] => if (Vfs.withRoot g.root VNode.readdir).isSome then .directory else .unmounted
      | _ :: _ => .ofLookup (Vfs.lookup g.root path)

/-- `out` is what the command does about a finding: where it leaves the globals alone, all
that it does is to print. -/
def Says (c : PathCommand) (g : Globals) (p path : Text) (out : Globals × List Writer.Op) :
    Finding → Prop
  | .unmounted => out = (g, lsError "ls: no filesystem mounted".toList)
  | .missing =>
      out = match c with
        | cat => (g, [println ("cat: not found: ".toList ++ path)])
        | ls => (g, lsError ("ls: not found: ".toList ++ path))
        | cd => (g, [println ("cd: not found: ".toList ++ p)])
        | stat => (g, [println ("stat: not found: ".toList ++ path)])
  | .file =>
      match c with
      | cat => ∃ node ∈ Vfs.lookup g.root path, node.kind = .file ∧ out = (g, catPath g path)
      | ls => out = (g, [println ((Text.components '/' path).getLastD path)])
      | cd => out = (g, [println ("cd: not a directory: ".toList ++ p)])
      | stat => out.1 = g ∧ println ("type: ".toList ++ "file".toList) ∈ out.2
  | .directory =>
      match c with
      | cat => out = (g, [println ("cat: ".toList ++ path ++ ": is a directory".toList)])
      | ls => out = (g, lsRows g (if path = ['/'] then [] else path) (namesIn g path))
      | cd => out.1.cwdGet = path ∧ out.1.getEnv Globals.PWD = some path ∧ out.2 = []
      | stat => out.1 = g ∧ println ("type: ".toList ++ "directory".toList) ∈ out.2

/-- The command finds `f` at its argument, and says so. -/
structure Reports (c : PathCommand) (g : Globals) (p : Text) (f : Finding) : Prop where
  finds : c.finding g (target g p) = f
  told : c.Says g p (target g p) (c.run g p) f

end PathCommand

/-- The commands agree on what is a directory and on what is not there. -/
structure Agree (g : Globals) (p : Text) : Prop where
  directory : ∀ c c' : PathCommand, c.Reports g p .directory ↔ c'.Reports g p .directory
  missing : ∀ c c' : PathCommand, c.Reports g p .missing ↔ c'.Reports g p .missing

/-! ### The path they look at -/

theorem components_target (g : Globals) (p : Text) :
    Text.components '/' (target g p) = normalParts (resolve g p) :=
  components_spell (normalParts_segment _)

theorem target_eq_root_iff (g : Globals) (p : Text) :
    target g p = ['/'] ↔ normalParts (resolve g p) = [] := by
  constructor
  · intro h
    by_contra hne
    exact spell_ne_root (normalParts_segment _) hne h
  · intro h
    show spell (normalParts (resolve g p)) = _
    rw [h]
    rfl

theorem target_ne_nil (g : Globals) (p : Text) : target g p ≠ [] := by
  rcases normalize_canonical (resolve g p) with h | ⟨parts, hne, -, h⟩
  · rw [target, h]
    simp
  · obtain ⟨first, rest, rfl⟩ := List.exists_cons_of_ne_nil hne
    rw [target, h]
    simp

theorem lookup_of_components_nil (root : Option VNode) {path : Text}
    (h : Text.components '/' path = []) : Vfs.lookup root path = none := by
  rcases root with - | root
  · rfl
  · exact Vfs.lookup_root root path h

/-! ### A command does what its finding says -/

namespace PathCommand

variable {g : Globals} {p : Text}

/-- A lookup of a path below the root, by its three cases. -/
theorem lookup_cases (g : Globals) (path : Text) :
    Vfs.lookup g.root path = none ∨
      (∃ node, Vfs.lookup g.root path = some node ∧ node.kind = .file) ∨
      ∃ node, Vfs.lookup g.root path = some node ∧ node.kind = .dir := by
  rcases hlook : Vfs.lookup g.root path with - | node
  · exact Or.inl rfl
  · rcases hkind : node.kind with - | -
    · exact Or.inr (Or.inl ⟨node, rfl, hkind⟩)
    · exact Or.inr (Or.inr ⟨node, rfl, hkind⟩)

theorem cat_says (g : Globals) (p : Text) :
    cat.Says g p (target g p) (cat.run g p) (cat.finding g (target g p)) := by
  show cat.Says g p (target g p) (g, catPath g (target g p))
    (.ofLookup (Vfs.lookup g.root (target g p)))
  rcases lookup_cases g (target g p) with hlook | ⟨node, hlook, hkind⟩ | ⟨node, hlook, hkind⟩
  · unfold catPath
    rw [hlook]
    exact rfl
  · rw [hlook, Finding.ofLookup, hkind]
    exact ⟨node, hlook, hkind, rfl⟩
  · unfold catPath
    rw [hlook, Finding.ofLookup]
    dsimp only
    rw [hkind]
    exact rfl

theorem stat_says (g : Globals) (p : Text) :
    stat.Says g p (target g p) (stat.run g p) (stat.finding g (target g p)) := by
  show stat.Says g p (target g p) (g, statPath g (target g p))
    (.ofLookup (Vfs.lookup g.root (target g p)))
  unfold statPath
  rcases lookup_cases g (target g p) with hlook | ⟨node, hlook, hkind⟩ | ⟨node, hlook, hkind⟩
  · rw [hlook]
    exact rfl
  · rw [hlook, Finding.ofLookup]
    dsimp only
    rw [hkind]
    exact ⟨rfl, List.mem_cons_of_mem _ List.mem_cons_self⟩
  · rw [hlook, Finding.ofLookup]
    dsimp only
    rw [hkind]
    exact ⟨rfl, List.mem_cons_of_mem _ List.mem_cons_self⟩

/-- `cd` sets the variable and the directory in two orders, and either leaves it there. -/
theorem cd_says (g : Globals) (hdash : p ≠ ['-']) :
    cd.Says g p (target g p) (cd.run g p) (cd.finding g (target g p)) := by
  have hrun : cd.run g p = cdPath g p (target g p) := by
    show cmdCd g (some p) = _
    unfold cmdCd
    dsimp only
    rw [if_neg hdash]
    rfl
  rw [hrun]
  unfold finding cdPath
  dsimp only
  by_cases hroot : target g p = ['/']
  · rw [hroot, if_pos rfl, if_pos rfl]
    exact ⟨rfl, Globals.getEnv_setEnv_self _ _ _, rfl⟩
  · rw [if_neg hroot, if_neg hroot]
    rcases lookup_cases g (target g p) with hlook | ⟨node, hlook, hkind⟩ | ⟨node, hlook, hkind⟩
    · rw [hlook]
      exact rfl
    · rw [hlook, Finding.ofLookup]
      dsimp only
      rw [hkind]
      exact rfl
    · rw [hlook, Finding.ofLookup]
      dsimp only
      rw [hkind]
      exact ⟨if_neg (target_ne_nil g p), Globals.getEnv_setEnv_self _ _ _, rfl⟩

theorem ls_says (g : Globals) (p : Text) :
    ls.Says g p (target g p) (ls.run g p) (ls.finding g (target g p)) := by
  show ls.Says g p (target g p) (g, lsPath g (target g p)) (ls.finding g (target g p))
  unfold finding lsPath
  dsimp only
  rcases hparts : Text.components '/' (target g p) with - | ⟨first, rest⟩
  · have hroot : target g p = ['/'] := by
      rw [target_eq_root_iff, ← components_target, hparts]
    rcases hmount : g.root with - | root
    · exact rfl
    · show (g, lsRows g [] root.readdir) = (g, lsRows g _ (namesIn g _))
      unfold namesIn
      rw [if_pos hroot, if_pos hroot, hmount]
      rfl
  · have hroot : target g p ≠ ['/'] := by
      rw [Ne, target_eq_root_iff, ← components_target, hparts]
      exact List.cons_ne_nil first rest
    rcases lookup_cases g (target g p) with hlook | ⟨node, hlook, hkind⟩ | ⟨node, hlook, hkind⟩
    · rw [hlook]
      exact rfl
    · rw [hlook, Finding.ofLookup]
      dsimp only
      rw [hkind, ← hparts]
      exact rfl
    · rw [hlook, Finding.ofLookup]
      dsimp only
      rw [hkind]
      show (g, lsRows g (target g p) node.readdir) = (g, lsRows g _ (namesIn g _))
      unfold namesIn
      rw [if_neg hroot, if_neg hroot, hlook, Option.bind_some, if_pos hkind]
      rfl

/-- Every command reports what it finds. -/
theorem reports_finding (c : PathCommand) (g : Globals) (hdash : p ≠ ['-']) :
    c.Reports g p (c.finding g (target g p)) := by
  refine ⟨rfl, ?_⟩
  cases c with
  | cat => exact cat_says g p
  | ls => exact ls_says g p
  | cd => exact cd_says g hdash
  | stat => exact stat_says g p

theorem reports_iff (c : PathCommand) (g : Globals) (hdash : p ≠ ['-']) (f : Finding) :
    c.Reports g p f ↔ c.finding g (target g p) = f := by
  constructor
  · exact fun h => h.finds
  · rintro rfl
    exact c.reports_finding g hdash

/-! ### Below the root, and at it -/

/-- Below the root every command finds what a lookup finds. -/
theorem finding_below (c : PathCommand) {g : Globals} (h : target g p ≠ ['/']) :
    c.finding g (target g p) = .ofLookup (Vfs.lookup g.root (target g p)) := by
  have hparts : Text.components '/' (target g p) ≠ [] := by
    rw [components_target]
    exact fun hnil => h ((target_eq_root_iff g p).mpr hnil)
  obtain ⟨first, rest, hcons⟩ := List.exists_cons_of_ne_nil hparts
  cases c with
  | cat => rfl
  | stat => rfl
  | cd => exact if_neg h
  | ls =>
      unfold finding
      rw [hcons]

/-- And in a tree it is what the tree has in that place. -/
theorem finding_tree (c : PathCommand) (g : Globals) (tree : Entries) {p : Text}
    (h : normalParts (resolve g p) ≠ []) :
    c.finding (mounted g tree) (target g p)
      = .ofEntry (entryAt tree (normalParts (resolve g p))) := by
  have hroot : target g p ≠ ['/'] := fun heq => h ((target_eq_root_iff g p).mp heq)
  have hbelow : c.finding (mounted g tree) (target g p) = _ :=
    finding_below (g := mounted g tree) c hroot
  have hwalk := lookup_flatMap g tree (normalParts_segment (resolve g p)) h
  have hpath : target g p = (normalParts (resolve g p)).flatMap ('/' :: ·) := if_neg h
  rw [hbelow]
  show Finding.ofLookup (Vfs.lookup (mounted g tree).root (target g p)) = _
  rw [hpath, entryAt]
  rcases hfind : (Node.dir tree).find (normalParts (resolve g p)) with - | node
  · rw [hfind] at hwalk
    rw [hwalk]
    rfl
  · rw [hfind] at hwalk
    obtain ⟨v, hv, hstands⟩ := hwalk
    rw [hv, Option.map_some]
    show Finding.ofKind v.kind = _
    rw [hstands.kind]
    rcases node with data | sub
    · rfl
    · rfl

end PathCommand

/--
**The commands agree everywhere but at the root.**  Whatever the working directory, each of
them reports one finding; they agree on directories and on what is missing exactly when the
argument does not resolve to the root.
-/
theorem agree_iff (g : Globals) (root : VNode) (p : Text) (hdash : p ≠ ['-']) :
    (∀ c : PathCommand, ∃! f, c.Reports (g.mount root) p f) ∧
      (Agree (g.mount root) p ↔ target (g.mount root) p ≠ ['/']) := by
  have hreports := fun (c : PathCommand) f => c.reports_iff (g.mount root) hdash f
  refine ⟨?_, ?_, ?_⟩
  · intro c
    refine ⟨_, c.reports_finding _ hdash, ?_⟩
    intro f hf
    exact hf.finds.symm
  · rintro ⟨hdirectory, -⟩ hroot
    have hcd : PathCommand.cd.Reports (g.mount root) p .directory := by
      rw [hreports]
      exact if_pos hroot
    have hstat := (hdirectory .cd .stat).mp hcd
    rw [hreports, hroot] at hstat
    have hnone : Vfs.lookup (g.mount root).root ['/'] = none := lookup_of_components_nil _ rfl
    rw [PathCommand.finding, hnone] at hstat
    exact Finding.noConfusion hstat
  · intro h
    constructor
    · intro c c'
      rw [hreports, hreports, c.finding_below h, c'.finding_below h]
    · intro c c'
      rw [hreports, hreports, c.finding_below h, c'.finding_below h]

/-- A file, and the way up from the root and back to it. -/
theorem agree_iff_file :
    (∀ c : PathCommand, ∃! f, c.Reports (mounted atRoot oneFile) "../f1".toList f) ∧
      (Agree (mounted atRoot oneFile) "../f1".toList ↔
        target (mounted atRoot oneFile) "../f1".toList ≠ ['/']) :=
  agree_iff atRoot (Node.dir oneFile).toVNode "../f1".toList (by decide)

/-- `cd /` succeeds and `ls /` lists the file; `stat /` and `cat /` find nothing there. -/
theorem root_disagrees :
    (cmdCd (mounted atRoot oneFile) (some ['/'])).2 = [] ∧
      cmdLs (mounted atRoot oneFile) (some ['/']) = [println ['f', '1']] ∧
      cmdStat (mounted atRoot oneFile) (some ['/']) = [println "stat: not found: /".toList] ∧
      cmdCat (mounted atRoot oneFile) (some ['/']) = [println "cat: not found: /".toList] ∧
      ¬ Agree (mounted atRoot oneFile) ['/'] := by
  refine ⟨rfl, ?_, rfl, rfl, ?_⟩
  · have hnames : cmdLs (mounted atRoot oneFile) (some ['/'])
        = lsRows (mounted atRoot oneFile) [] [['f', '1']] := rfl
    rw [hnames, lsRows, if_neg (List.cons_ne_nil _ _), List.mergeSort_singleton]
    rfl
  · rintro ⟨hdirectory, -⟩
    have hcd := PathCommand.cd.reports_finding (p := ['/']) (mounted atRoot oneFile) (by decide)
    have hstat := (hdirectory .cd .stat).mp hcd
    exact Finding.noConfusion hstat.finds

end Words

end Amaterasu
