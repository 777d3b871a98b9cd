/-
The working directory over a session.

`CWD`, `PREV_CWD` and `PWD` are three globals that `cd` writes one after the other, the
first two with an empty string for the root until they are written.  What the prompt and
every relative path rely on is an invariant of all three: both directories are canonical
paths of directories, and `PWD` names the first.
-/
import Amaterasu.Lib.Run
import Amaterasu.Shell.Commands
import Amaterasu.Shell.Paths

namespace Amaterasu

namespace Globals

/-- The root, or a canonical path of a directory. -/
def IsDir (root : Option VNode) (path : Text) : Prop :=
  path = ['/'] ∨
    (Words.Canonical path ∧ ∃ node, Vfs.lookup root path = some node ∧ node.kind = .dir)

/-- What the globals are between commands. -/
structure WorkingDir (g : Globals) : Prop where
  cwd : IsDir g.root g.cwdGet
  prev : IsDir g.root g.cwdPrevGet
  pwd : g.getEnv PWD = some g.cwdGet

/-- A path names a directory, from the working directory on. -/
def Resolves (g : Globals) (path : Text) : Prop :=
  Words.normalize (Words.resolve g path) = ['/'] ∨
    ∃ node, Vfs.lookup g.root (Words.normalize (Words.resolve g path)) = some node ∧
      node.kind = .dir

theorem IsDir.ne_nil {root : Option VNode} {path : Text} (h : IsDir root path) : path ≠ [] := by
  rcases h with rfl | ⟨⟨parts, hne, -, rfl⟩, -⟩
  · simp
  · rcases parts with - | ⟨first, rest⟩
    · exact absurd rfl hne
    · simp

theorem init_workingDir (root : VNode) : (init root).WorkingDir :=
  ⟨Or.inl rfl, Or.inl rfl, rfl⟩

/-! ### `cd` -/

variable {g : Globals}

theorem getEnv_cwdSet (g : Globals) (new key : Text) : (g.cwdSet new).getEnv key = g.getEnv key :=
  rfl

theorem cwdGet_of_ne {path : Text} (g : Globals) (h : path ≠ []) : (g.cwdSet path).cwdGet = path :=
  if_neg h

/-- A directory becomes the working directory, the working directory the previous one. -/
theorem WorkingDir.cwdSet (h : g.WorkingDir) {path : Text} (hdir : IsDir g.root path) :
    ((g.setEnv PWD path).cwdSet path).WorkingDir := by
  have hget : ((g.setEnv PWD path).cwdSet path).cwdGet = path := cwdGet_of_ne _ hdir.ne_nil
  refine ⟨?_, h.cwd, ?_⟩
  · rw [hget]
    exact hdir
  · rw [hget, getEnv_cwdSet, getEnv_setEnv_self]

theorem WorkingDir.cmdCd (h : g.WorkingDir) (arg : Option Text) :
    (cmdCd g arg).1.WorkingDir ∧ (cmdCd g arg).1.root = g.root := by
  have hroot : IsDir g.root ['/'] := Or.inl rfl
  rcases arg with - | path
  · exact ⟨h.cwdSet hroot, rfl⟩
  · unfold Amaterasu.cmdCd
    dsimp only
    split
    · exact ⟨h.cwdSet h.prev, rfl⟩
    · split
      · exact ⟨h.cwdSet hroot, rfl⟩
      · rename_i hne
        rcases hlookup : Vfs.lookup g.root (Words.normalize (Words.resolve g path)) with - | node
        · exact ⟨h, rfl⟩
        · rcases hkind : node.kind with - | -
          · exact ⟨by simpa only [hkind] using h, by simp only [hkind]⟩
          · simp only [hkind]
            refine ⟨h.cwdSet (Or.inr ⟨?_, node, hlookup, hkind⟩), rfl⟩
            exact (Words.normalize_canonical _).resolve_left hne

/-- A `cd` to anything but a directory changes nothing. -/
theorem cmdCd_fails {path : Text} (hdash : path ≠ ['-']) (h : ¬ g.Resolves path) :
    (cmdCd g (some path)).1 = g := by
  unfold cmdCd
  dsimp only
  rw [if_neg hdash, if_neg fun hc => h (Or.inl hc)]
  rcases hlookup : Vfs.lookup g.root (Words.normalize (Words.resolve g path)) with - | node
  · rfl
  · rcases hkind : node.kind with - | -
    · simp only [hkind]
    · exact absurd (Or.inr ⟨node, hlookup, hkind⟩) h

/-- `cd -` exchanges the two directories. -/
theorem WorkingDir.cmdCd_dash (h : g.WorkingDir) :
    (Amaterasu.cmdCd g (some ['-'])).1.cwdGet = g.cwdPrevGet ∧
      (Amaterasu.cmdCd g (some ['-'])).1.cwdPrevGet = g.cwdGet := by
  have heq : (Amaterasu.cmdCd g (some ['-'])).1 = (g.setEnv PWD g.cwdPrevGet).cwdSet g.cwdPrevGet :=
    rfl
  rw [heq]
  exact ⟨cwdGet_of_ne _ h.prev.ne_nil, rfl⟩

/-! ### Any command -/

/-- A command is an `export` that assigns `PWD`. -/
def AssignsPwd (g : Globals) (seg : Text) : Prop :=
  Words.nameEq (Words.expand g (Text.trim seg)) "export".toList = true ∧
    ∃ t, Words.cmdArg (Words.expand g (Text.trim seg)) = some t ∧ '=' ∈ Text.trim t ∧
      (Text.trim t).takeWhile (· != '=') = PWD

theorem WorkingDir.cmdExport (h : g.WorkingDir) {arg : Option Text}
    (hassign : ∀ t, arg = some t → '=' ∈ Text.trim t →
      (Text.trim t).takeWhile (· != '=') ≠ PWD) :
    (cmdExport g arg).1.WorkingDir ∧ (cmdExport g arg).1.root = g.root := by
  rcases arg with - | t
  · exact ⟨h, rfl⟩
  · unfold Amaterasu.cmdExport
    dsimp only
    split
    · rename_i heq
      refine ⟨⟨h.cwd, h.prev, ?_⟩, rfl⟩
      rw [getEnv_setEnv_ne (Ne.symm (hassign t rfl heq))]
      exact h.pwd
    · split
      · exact ⟨h, rfl⟩
      · split
        · exact ⟨h, rfl⟩
        · exact ⟨h, rfl⟩

theorem cmdHistory_globals (s : Shell) (g : Globals) (arg : Option Text) :
    (cmdHistory s g arg).1 = g := by
  unfold cmdHistory
  dsimp only
  split
  · rfl
  · rfl

/-- What an entry of the table does to the globals. -/
theorem run_cases (out : Text → Shell → Globals → Option Text → List Writer.Op) {entry : Cmd}
    (h : entry ∈ COMMANDS out) (s : Shell) (g : Globals) (arg : Option Text) :
    (entry.run s g arg).1 = g ∨ (entry.run s g arg).1 = (Amaterasu.cmdCd g arg).1 ∨
      (entry.name = "export".toList ∧ (entry.run s g arg).1 = (Amaterasu.cmdExport g arg).1) := by
  unfold COMMANDS at h
  simp only [List.mem_cons, List.not_mem_nil, or_false] at h
  rcases h with rfl | rfl | rfl | rfl | rfl | rfl | rfl | rfl | rfl | rfl | rfl | rfl | rfl | rfl |
    rfl | rfl | rfl | rfl | rfl | rfl | rfl
  case inr.inr.inr.inr.inr.inr.inr.inr.inr.inr.inr.inl => exact Or.inr (Or.inl rfl)
  case inr.inr.inr.inr.inr.inr.inr.inr.inr.inr.inr.inr.inr.inr.inr.inr.inr.inr.inl =>
    exact Or.inr (Or.inr ⟨rfl, rfl⟩)
  case inr.inr.inr.inr.inr.inr.inr.inr.inr.inr.inr.inr.inr.inr.inr.inr.inr.inr.inr.inl =>
    exact Or.inl (cmdHistory_globals s g arg)
  all_goals exact Or.inl rfl

/-- One command, with the shell it is given: what `dispatch_one` does to the globals. -/
def command (out : Text → Shell → Globals → Option Text → List Writer.Op) (g : Globals)
    (c : Shell × Text) : Globals := (Session.dispatchOne (COMMANDS out) c.1 g c.2).1

/-- **One command** keeps the invariant, unless it assigns `PWD`. -/
theorem WorkingDir.command (out : Text → Shell → Globals → Option Text → List Writer.Op)
    (h : g.WorkingDir) {c : Shell × Text} (hassign : ¬ g.AssignsPwd c.2) :
    (g.command out c).WorkingDir ∧ (g.command out c).root = g.root := by
  unfold Globals.command Session.dispatchOne
  dsimp only
  split
  · exact ⟨h, rfl⟩
  · rcases hfind : (COMMANDS out).find? fun entry =>
        Words.nameEq (Words.expand g (Text.trim c.2)) entry.name with - | entry
    · simp only [hfind]
      exact ⟨h, trivial⟩
    · have hname := List.find?_some hfind
      simp only [hfind]
      rcases run_cases out (List.mem_of_find?_eq_some hfind) c.1 g
        (Words.cmdArg (Words.expand g (Text.trim c.2))) with heq | heq | ⟨hexport, heq⟩
      · rw [heq]
        exact ⟨h, rfl⟩
      · rw [heq]
        exact h.cmdCd _
      · rw [heq]
        apply h.cmdExport
        intro t harg hmem hkey
        rw [hexport] at hname
        exact hassign ⟨hname, t, harg, hmem, hkey⟩

/-- A line runs its commands one after the other. -/
theorem dispatchLine_run (out : Text → Shell → Globals → Option Text → List Writer.Op)
    (s : Shell) (g : Globals) (line : Text) :
    ∃ trace, Run (Next (command out)) g trace (Session.dispatchLine (COMMANDS out) s g line).1 := by
  have hfold : ∀ (segs : List Text) (acc : Globals × List Writer.Op) (trace : List _),
      Run (Next (command out)) g trace acc.1 →
      ∃ trace', Run (Next (command out)) g trace' (segs.foldl
        (fun (acc : Globals × List Writer.Op) seg =>
          if Text.trim seg = [] then acc
          else
            let r := Session.dispatchOne (COMMANDS out) s acc.1 (Text.trim seg)
            (r.1, acc.2 ++ r.2)) acc).1 := by
    intro segs
    induction segs with
    | nil =>
        intro acc trace h
        exact ⟨trace, h⟩
    | cons seg rest ih =>
        intro acc trace h
        rw [List.foldl_cons]
        split
        · exact ih acc trace h
        · exact ih _ _ (h.snoc (a := (s, Text.trim seg)) rfl)
  exact hfold _ (g, []) [] .nil

/--
**The working directory.**  After any commands but an `export` of `PWD`, both directories
are the root or canonical paths of directories of the mounted tree and `PWD` is the
working directory; a `cd` to anything but a directory changes nothing; and `cd -`
exchanges the directories, so that two of them restore both.
-/
theorem working_dir_invariant (out : Text → Shell → Globals → Option Text → List Writer.Op)
    (root : VNode) {g : Globals} {trace : List (Globals × (Shell × Text))}
    (hrun : Run (Next (command out)) (init root) trace g)
    (hexport : ∀ e ∈ trace, ¬ e.1.AssignsPwd e.2.2) :
    IsDir (Vfs.mount root) g.cwdGet ∧ IsDir (Vfs.mount root) g.cwdPrevGet ∧
    g.getEnv PWD = some g.cwdGet ∧
    (∀ path, path ≠ ['-'] → ¬ g.Resolves path → (cmdCd g (some path)).1 = g) ∧
    (cmdCd g (some ['-'])).1.cwdGet = g.cwdPrevGet ∧
    (cmdCd g (some ['-'])).1.cwdPrevGet = g.cwdGet ∧
    (cmdCd (cmdCd g (some ['-'])).1 (some ['-'])).1.cwdGet = g.cwdGet ∧
    (cmdCd (cmdCd g (some ['-'])).1 (some ['-'])).1.cwdPrevGet = g.cwdPrevGet := by
  obtain ⟨⟨h, hroot⟩, -⟩ := hrun.invariant
    (I := fun g => g.WorkingDir ∧ g.root = Vfs.mount root)
    (K := fun g c => ¬ g.AssignsPwd c.2) ⟨init_workingDir root, rfl⟩
    (by
      rintro g c g' ⟨hg, hmount⟩ hok hnext
      obtain ⟨hg', hroot'⟩ := hg.command out hok
      rw [show g.command out c = g' from hnext] at hg' hroot'
      exact ⟨hg', hroot'.trans hmount⟩) hexport
  have hdash := h.cmdCd_dash
  have hback := (h.cmdCd (some ['-'])).1.cmdCd_dash
  rw [← hroot]
  exact ⟨h.cwd, h.prev, h.pwd, fun path hpath hdir => cmdCd_fails hpath hdir, hdash.1, hdash.2,
    hback.1.trans hdash.2, hback.2.trans hdash.1⟩

/-- Into the one directory of a tree, to one that is not there, and back. -/
def thereAndBack : List (Shell × Text) :=
  [(Shell.new, "cd a".toList), (Shell.new, "cd b".toList), (Shell.new, "cd -".toList)]

theorem working_dir_cd : ∃ (trace : List (Globals × (Shell × Text))) (g : Globals),
    Run (Next (command fun _ _ _ _ => [])) (init (.ramfsDir [(['a'], .ramfsDir [])])) trace g ∧
    trace.map Prod.snd = thereAndBack ∧ trace.map (·.1.cwdGet) = [['/'], ['/', 'a'], ['/', 'a']] ∧
    g.cwdGet = ['/'] ∧ IsDir (Vfs.mount (.ramfsDir [(['a'], .ramfsDir [])])) g.cwdPrevGet ∧
    g.getEnv PWD = some ['/'] ∧ (cmdCd g (some ['-'])).1.cwdGet = ['/', 'a'] := by
  have hrun := Run.ofActions (command fun _ _ _ _ => []) (init (.ramfsDir [(['a'], .ramfsDir [])]))
    thereAndBack
  have hcwd : (thereAndBack.foldl (command fun _ _ _ _ => [])
      (init (.ramfsDir [(['a'], .ramfsDir [])]))).cwdGet = ['/'] := by decide +kernel
  have hprev : (thereAndBack.foldl (command fun _ _ _ _ => [])
      (init (.ramfsDir [(['a'], .ramfsDir [])]))).cwdPrevGet = ['/', 'a'] := by decide +kernel
  have hnames : ∀ e ∈ traceFrom (command fun _ _ _ _ => [])
      (init (.ramfsDir [(['a'], .ramfsDir [])])) thereAndBack,
      ¬ Words.nameEq (Words.expand e.1 (Text.trim e.2.2)) "export".toList = true := by
    decide +kernel
  obtain ⟨-, hdir, hpwd, -, hdash, -⟩ :=
    working_dir_invariant (fun _ _ _ _ => []) (.ramfsDir [(['a'], .ramfsDir [])]) hrun
      fun e he hassigns => hnames e he hassigns.1
  exact ⟨_, _, hrun, rfl, by decide +kernel, hcwd, hdir, hpwd.trans (congrArg some hcwd),
    hdash.trans hprev⟩

end Globals

end Amaterasu
