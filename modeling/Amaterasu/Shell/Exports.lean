/-
What `export` lists.

The variables are a list in which a name is looked up; the source keeps them in a map.  A command
changes them by setting one, so no name is there twice and none goes away, whatever is entered.
What `export` lists is then what `$NAME` stands for: each variable once, with the value that is
looked up, in the order of the names.
-/
import Amaterasu.Shell.Reading
import Amaterasu.Shell.Sequencing
import Amaterasu.Shell.WorkingDir

namespace Amaterasu

namespace Globals

variable {g g' : Globals}

/-! ### One command -/

/-- The variables of `g'` are those of `g`, or with one that is set. -/
def SetsOne (g g' : Globals) : Prop := g'.env = g.env ∨ ∃ key val, g'.env = (g.setEnv key val).env

theorem cmdCd_setsOne (g : Globals) (arg : Option Text) : g.SetsOne (cmdCd g arg).1 := by
  rcases arg with - | path
  · exact Or.inr ⟨PWD, ['/'], rfl⟩
  · unfold cmdCd
    dsimp only
    split
    · exact Or.inr ⟨PWD, g.cwdPrevGet, rfl⟩
    split
    · exact Or.inr ⟨PWD, ['/'], rfl⟩
    rcases Vfs.lookup g.root (Words.normalize (Words.resolve g path)) with - | node
    · exact Or.inl rfl
    · rcases hkind : node.kind with - | -
      · simp only [hkind]
        exact Or.inl rfl
      · simp only [hkind]
        exact Or.inr ⟨PWD, _, rfl⟩

theorem cmdExport_setsOne (g : Globals) (arg : Option Text) : g.SetsOne (cmdExport g arg).1 := by
  rcases arg with - | t
  · exact Or.inl rfl
  · unfold cmdExport
    dsimp only
    split
    · exact Or.inr ⟨_, _, rfl⟩
    split
    · exact Or.inl rfl
    split
    · exact Or.inl rfl
    · exact Or.inl rfl

theorem effect_setsOne (g : Globals) (seg : Text) : g.SetsOne (Session.effect g seg) := by
  unfold Session.effect Session.dispatchOne
  dsimp only
  split
  · exact Or.inl rfl
  rcases hfind : (COMMANDS fun _ _ _ _ => []).find? fun entry =>
      Words.nameEq (Words.expand g (Text.trim seg)) entry.name with - | entry
  · simp only [hfind]
    exact Or.inl rfl
  · simp only [hfind]
    rcases run_cases _ (List.mem_of_find?_eq_some hfind) Shell.new g
      (Words.cmdArg (Words.expand g (Text.trim seg))) with heq | heq | ⟨-, heq⟩
    · exact Or.inl (congrArg Globals.env heq)
    · rw [heq]
      exact cmdCd_setsOne g _
    · rw [heq]
      exact cmdExport_setsOne g _

/-! ### Any number of them -/

/-- No name is there twice. -/
def Distinct (g : Globals) : Prop := (g.env.map Prod.fst).Nodup

theorem Distinct.setsOne (h : g.Distinct) (hset : g.SetsOne g') : g'.Distinct := by
  rcases hset with heq | ⟨key, val, heq⟩
  · rw [Distinct, heq]
    exact h
  · rw [Distinct, heq]
    refine List.nodup_cons.mpr ⟨fun hmem => ?_, h.sublist (List.filter_sublist.map Prod.fst)⟩
    obtain ⟨e, he, hkey⟩ := List.mem_map.mp hmem
    exact of_decide_eq_true (List.mem_filter.mp he).2 hkey

/-- The variable is set, to whatever. -/
def Has (g : Globals) (key : Text) : Prop := ∃ val, g.getEnv key = some val

theorem Has.setsOne {key : Text} (h : g.Has key) (hset : g.SetsOne g') : g'.Has key := by
  obtain ⟨val, hval⟩ := h
  rcases hset with heq | ⟨key', val', heq⟩
  · refine ⟨val, ?_⟩
    rw [getEnv, heq]
    exact hval
  · have hget : g'.getEnv key = (g.setEnv key' val').getEnv key := by
      rw [getEnv, heq]
      rfl
    by_cases hkey : key = key'
    · subst hkey
      exact ⟨val', hget.trans (getEnv_setEnv_self g key val')⟩
    · exact ⟨val, hget.trans ((getEnv_setEnv_ne hkey).trans hval)⟩

theorem foldl_effect {inv : Globals → Prop} (hstep : ∀ g g', inv g → g.SetsOne g' → inv g')
    (segs : List Text) (h : inv g) : inv (segs.foldl Session.effect g) := by
  induction segs generalizing g with
  | nil => exact h
  | cons seg segs ih => exact ih (hstep g _ h (effect_setsOne g seg))

/-! ### The list -/

theorem mem_env_iff (h : g.Distinct) (key val : Text) :
    (key, val) ∈ g.env ↔ g.getEnv key = some val := by
  unfold getEnv
  unfold Distinct at h
  generalize g.env = env at h
  induction env with
  | nil => simp
  | cons e env ih =>
      obtain ⟨k, v⟩ := e
      obtain ⟨hnew, hrest⟩ := List.nodup_cons.mp h
      by_cases hkey : k = key
      · subst hkey
        rw [List.find?_cons_of_pos (by simp)]
        constructor
        · intro hmem
          rcases List.mem_cons.mp hmem with heq | hmem
          · exact congrArg some (Prod.mk.inj heq).2.symm
          · exact absurd (List.mem_map_of_mem hmem) hnew
        · intro hval
          rw [← Option.some.inj hval]
          exact List.mem_cons_self
      · rw [List.find?_cons_of_neg (by simpa using hkey), ← ih hrest, List.mem_cons]
        exact or_iff_right fun heq => hkey (Prod.mk.inj heq).1.symm

/-- The list that is printed. -/
def exported (g : Globals) : List (Text × Text) := g.env.mergeSort fun a b => textLe a.1 b.1

theorem exported_sorted (h : g.Distinct) :
    g.exported.Pairwise fun a b => textLe a.1 b.1 = true ∧ a.1 ≠ b.1 := by
  have hsorted := List.pairwise_mergeSort (fun (a b c : Text × Text) => textLe_trans a.1 b.1 c.1)
    (fun a b => textLe_total a.1 b.1) g.env
  have hperm := (List.mergeSort_perm g.env fun a b => textLe a.1 b.1).map Prod.fst
  exact hsorted.and (List.pairwise_map.mp (hperm.nodup_iff.mpr h))

theorem init_distinct (root : VNode) : (init root).Distinct := by
  show ["HOME".toList, "SHELL".toList, PWD].Nodup
  decide

theorem init_has (root : VNode) {key : Text}
    (hkey : key ∈ ["HOME".toList, "SHELL".toList, PWD]) : (init root).Has key := by
  simp only [List.mem_cons, List.not_mem_nil, or_false] at hkey
  rcases hkey with rfl | rfl | rfl
  · exact ⟨_, rfl⟩
  · exact ⟨_, rfl⟩
  · exact ⟨_, rfl⟩

end Globals

namespace Session

open Globals

/-- After any keys, `export` lists each variable once, by name, with the value that is looked up,
and the three that were there at first are among them. -/
theorem export_lists (out : Text → Shell → Globals → Option Text → List Writer.Op)
    {writer : Option Writer} {root : VNode} {s : Session} {trace : List (Session × Char)}
    (hrun : Run (Accepts (pushChar (COMMANDS out))) (Session.new writer (Globals.init root)) trace
      s) :
    ∃ vars : List (Text × Text),
      cmdExport s.globals none = (s.globals, vars.map fun e => println (e.1 ++ '=' :: e.2)) ∧
      (vars.Pairwise fun a b => textLe a.1 b.1 = true ∧ a.1 ≠ b.1) ∧
      (∀ key val, (key, val) ∈ vars ↔ s.globals.getEnv key = some val) ∧
      ∀ key ∈ ["HOME".toList, "SHELL".toList, PWD], ∃ val, (key, val) ∈ vars := by
  have hglobals := (Accounted.run out hrun).globals
  have hdistinct : s.globals.Distinct := by
    rw [hglobals]
    exact foldl_effect (fun _ _ (h : Distinct _) hset => h.setsOne hset) _ (init_distinct root)
  have hmem : ∀ key val, (key, val) ∈ s.globals.exported ↔ s.globals.getEnv key = some val :=
    fun key val => List.mem_mergeSort.trans (mem_env_iff hdistinct key val)
  refine ⟨s.globals.exported, rfl, exported_sorted hdistinct, hmem, fun key hkey => ?_⟩
  have hhas : s.globals.Has key := by
    rw [hglobals]
    exact foldl_effect (fun _ _ (h : Has _ key) hset => h.setsOne hset) _ (init_has root hkey)
  obtain ⟨val, hval⟩ := hhas
  exact ⟨val, (hmem key val).mpr hval⟩

/-- One more variable. -/
theorem export_lists_one :
    ∃ (trace : List (Session × Char)) (s : Session) (vars : List (Text × Text)),
      Run (Accepts (pushChar (COMMANDS fun _ _ _ _ => [])))
        (Session.new none (Globals.init (.ramfsDir []))) trace s ∧
      cmdExport s.globals none = (s.globals, vars.map fun e => println (e.1 ++ '=' :: e.2)) ∧
      (['a'], ['1']) ∈ vars := by
  obtain ⟨trace, s, hrun, -, hval⟩ :=
    exists_run (pushChar (COMMANDS fun _ _ _ _ => []))
      (Session.new none (Globals.init (.ramfsDir []))) "export a=1\n".toList
      (fun _ s => s.globals.getEnv ['a'] = some ['1']) (by decide +kernel)
  obtain ⟨vars, hlist, -, hmem, -⟩ := export_lists (fun _ _ _ _ => []) hrun
  exact ⟨trace, s, vars, hrun, hlist, (hmem _ _).mpr hval⟩

end Session

end Amaterasu
