/-
What the ramdisk tree holds, and what a walk through its nodes finds.

`entryAt` reads the tree of vectors as a partial map from paths.  The nodes a lookup
hands out are copies and pointers; `Stands` says that a node behaves as a place in the
tree, and a walk stands where the map says (`Stands.walk`).
-/
import Amaterasu.Lib.PathTree
import Amaterasu.Fs.Ramfs

namespace Amaterasu

namespace Ramfs

open PathTree

/-! ### Reading the tree -/

/-- The entry of a name: the first one. -/
def child (entries : Entries) (name : Text) : Option Node :=
  (entries.find? (·.1 = name)).map Prod.snd

/-- The node at the end of a path. -/
def Node.find : Node → List Text → Option Node
  | node, [] => some node
  | .file _, _ :: _ => none
  | .dir entries, name :: path => (child entries name).bind fun node => node.find path

def Node.entry : Node → Entry Bytes
  | .file data => .file data
  | .dir _ => .dir

/-- The tree as a partial map from paths. -/
def entryAt (root : Entries) (path : List Text) : Option (Entry Bytes) :=
  ((Node.dir root).find path).map Node.entry

/-- The node a member becomes. -/
def nodeOf : Entry Bytes → Node
  | .dir => .dir []
  | .file data => .file data

/-- No directory of the tree has two entries of one name. -/
def Distinct (root : Entries) : Prop :=
  ∀ path sub, (Node.dir root).find path = some (.dir sub) → (sub.map Prod.fst).Nodup

@[simp] theorem find_nil (node : Node) : node.find [] = some node := by
  cases node <;> rfl

@[simp] theorem find_file_cons (data : Bytes) (name : Text) (path : List Text) :
    (Node.file data).find (name :: path) = none := rfl

theorem find_dir_cons (entries : Entries) (name : Text) (path : List Text) :
    (Node.dir entries).find (name :: path)
      = (child entries name).bind fun node => node.find path := rfl

theorem find_append (node : Node) (p q : List Text) :
    node.find (p ++ q) = (node.find p).bind fun n => n.find q := by
  induction p generalizing node with
  | nil => simp
  | cons name p ih =>
      rcases node with data | entries
      · rfl
      · rw [List.cons_append, find_dir_cons, find_dir_cons]
        rcases child entries name with - | c
        · rfl
        · exact ih c

@[simp] theorem entryAt_nil (root : Entries) : entryAt root [] = some .dir := rfl

theorem entryAt_cons (root : Entries) (name : Text) (path : List Text) :
    entryAt root (name :: path)
      = (child root name).bind fun node => (node.find path).map Node.entry := by
  unfold entryAt
  rw [find_dir_cons]
  cases child root name <;> rfl

theorem entryAt_empty : entryAt [] = bare := by
  funext path
  rcases path with - | ⟨name, path⟩
  · rfl
  · rfl

theorem entry_nodeOf (e : Entry Bytes) : (nodeOf e).entry = e := by
  cases e <;> rfl

/-- A member has nothing below it when it is put in. -/
theorem find_nodeOf_cons (e : Entry Bytes) (name : Text) (path : List Text) :
    (nodeOf e).find (name :: path) = none := by
  cases e <;> rfl

theorem child_eq_none {entries : Entries} {name : Text} :
    child entries name = none ↔ name ∉ entries.map Prod.fst := by
  rw [child, Option.map_eq_none_iff, List.find?_eq_none]
  constructor
  · intro h hmem
    obtain ⟨e, he, rfl⟩ := List.mem_map.mp hmem
    simpa using h e he
  · intro h e he
    rw [decide_eq_true_iff]
    rintro rfl
    exact h (List.mem_map_of_mem he)

theorem any_name (entries : Entries) (name : Text) :
    entries.any (·.1 = name) = (child entries name).isSome := by
  rw [child, Option.isSome_map, List.isSome_find?]

theorem child_append (a b : Entries) (name : Text) :
    child (a ++ b) name = (child a name).or (child b name) := by
  unfold child
  rw [List.find?_append]
  cases a.find? (·.1 = name) <;> rfl

theorem child_cons (n : Text) (c : Node) (rest : Entries) (name : Text) :
    child ((n, c) :: rest) name = if n = name then some c else child rest name := by
  unfold child
  by_cases h : n = name
  · rw [if_pos h, List.find?_cons_of_pos (by simpa using h)]
    rfl
  · rw [if_neg h, List.find?_cons_of_neg (by simpa using h)]

/-! ### Putting a member in -/

/-- What `get_or_insert_dir` returns: the directory of that name, or a new one. -/
def subdir (entries : Entries) (name : Text) : Option Entries :=
  match child entries name with
  | none => some []
  | some (.dir sub) => some sub
  | some (.file _) => none

/-- Working on a directory changes the entry of its name and no other. -/
theorem getOrInsertDir_spec {f : Entries → Option Entries} {name : Text}
    {sub sub' : Entries} (hf : f sub = some sub') (entries : Entries)
    (hsub : subdir entries name = some sub) :
    ∃ entries', getOrInsertDir name f entries = some entries' ∧
      (∀ n, child entries' n = if name = n then some (.dir sub') else child entries n) ∧
      ((entries.map Prod.fst).Nodup → (entries'.map Prod.fst).Nodup) := by
  induction entries with
  | nil =>
      obtain rfl : [] = sub := Option.some.inj hsub
      refine ⟨[(name, .dir sub')], ?_, ?_, ?_⟩
      · simp [getOrInsertDir, hf]
      · intro n
        rw [child_cons]
      · intro _
        simp
  | cons e rest ih =>
      obtain ⟨n, c⟩ := e
      by_cases hn : n = name
      · subst hn
        rcases c with data | sub₀
        · simp [subdir, child_cons] at hsub
        · obtain rfl : sub₀ = sub := by simpa [subdir, child_cons] using hsub
          refine ⟨(n, .dir sub') :: rest, ?_, ?_, ?_⟩
          · simp [getOrInsertDir, hf]
          · intro m
            rw [child_cons, child_cons]
            by_cases hm : n = m
            · rw [if_pos hm, if_pos hm]
            · rw [if_neg hm, if_neg hm, if_neg hm]
          · intro hnd
            exact hnd
      · have hrest : subdir rest name = some sub := by
          simpa [subdir, child_cons, hn] using hsub
        obtain ⟨rest', heq, hchild, hnodup⟩ := ih hrest
        refine ⟨(n, c) :: rest', ?_, ?_, ?_⟩
        · simp [getOrInsertDir, hn, heq]
        · intro m
          rw [child_cons, child_cons, hchild]
          by_cases hm : n = m
          · rw [if_pos hm, if_pos hm, if_neg (fun h => hn (hm.trans h.symm))]
          · rw [if_neg hm, if_neg hm]
        · intro hnd
          obtain ⟨hmem, hrestnd⟩ := List.nodup_cons.mp hnd
          refine List.nodup_cons.mpr ⟨?_, hnodup hrestnd⟩
          rw [← child_eq_none] at hmem ⊢
          rw [hchild, if_neg (Ne.symm hn)]
          exact hmem

/-- A change to the entry of one name. -/
theorem distinct_one {dir dir' : Entries} {part : Text} {node : Node}
    (hchild : ∀ n, child dir' n = if part = n then some node else child dir n)
    (hnames : (dir'.map Prod.fst).Nodup)
    (hnode : ∀ q sub, node.find q = some (.dir sub) → (sub.map Prod.fst).Nodup)
    (hd : Distinct dir) : Distinct dir' := by
  intro q sub hq
  rcases q with - | ⟨n, q⟩
  · obtain rfl : dir' = sub := by simpa using hq
    exact hnames
  · rw [find_dir_cons, hchild] at hq
    by_cases hn : part = n
    · rw [if_pos hn, Option.bind_some] at hq
      exact hnode q sub hq
    · rw [if_neg hn] at hq
      exact hd (n :: q) sub hq

theorem distinct_nodeOf (e : Entry Bytes) (q : List Text) (sub : Entries)
    (h : (nodeOf e).find q = some (.dir sub)) : (sub.map Prod.fst).Nodup := by
  rcases q with - | ⟨n, q⟩
  · rcases e with - | data
    · obtain rfl : [] = sub := by simpa [nodeOf] using h
      exact List.nodup_nil
    · simp [nodeOf] at h
  · rw [find_nodeOf_cons] at h
    exact absurd h (by simp)

theorem distinct_empty : Distinct [] := distinct_nodeOf .dir

end Ramfs

/-! ### The nodes a lookup hands out -/

open Ramfs

/-- A node behaves as a place of the tree: it is the place itself, a copy of a file, or
a pointer to a node that behaves as the directory. -/
inductive Stands : VNode → Node → Prop
  | file (data : Bytes) : Stands (.ramfsFile data) (.file data)
  | dir (entries : Entries) : Stands (.ramfsDir (toVNodes entries)) (.dir entries)
  | owned (data : Bytes) : Stands (.ownedFile data) (.file data)
  | ref {v : VNode} {entries : Entries} (h : Stands v (.dir entries)) :
      Stands (.dirRef v) (.dir entries)

namespace Stands

theorem toVNode (node : Node) : Stands node.toVNode node := by
  rcases node with data | entries
  · exact .file data
  · exact .dir entries

theorem kind {v : VNode} {node : Node} (h : Stands v node) :
    v.kind = match node with | .file _ => .file | .dir _ => .dir := by
  cases h <;> rfl

theorem size {v : VNode} {data : Bytes} (h : Stands v (.file data)) : v.size = data.length := by
  cases h <;> rfl

theorem read {v : VNode} {data : Bytes} (h : Stands v (.file data)) (buf : Bytes) (offset : Nat) :
    v.read buf offset = VNode.readFile data buf offset := by
  cases h <;> rfl

theorem readdir_aux {v : VNode} {node : Node} (h : Stands v node) :
    ∀ entries, node = .dir entries → v.readdir = entries.map Prod.fst := by
  induction h with
  | file data => intro entries h; cases h
  | owned data => intro entries h; cases h
  | dir es =>
      rintro entries ⟨⟩
      induction es with
      | nil => rfl
      | cons e rest ih =>
          exact congrArg (e.1 :: ·) ih
  | ref h ih =>
      rintro entries ⟨⟩
      exact ih _ rfl

theorem readdir {v : VNode} {entries : Entries} (h : Stands v (.dir entries)) :
    v.readdir = entries.map Prod.fst := h.readdir_aux entries rfl

/-- A copy behaves as what it copies. -/
theorem clone {v : VNode} {node : Node} (h : Stands v node) : Stands v.clone node := by
  rcases node with data | entries
  · have hdata : (VNode.readFile data (List.replicate data.length 0) 0).1 = data := by
      unfold VNode.readFile
      rcases eq_or_ne data [] with rfl | hne
      · rfl
      · rw [if_neg (by simpa using hne)]
        simp
    rw [VNode.clone, h.kind, h.size]
    show Stands (.ownedFile (v.read _ 0).1) _
    rw [h.read, hdata]
    exact .owned data
  · rw [VNode.clone, h.kind]
    exact .ref h

theorem find_toVNodes (entries : Entries) (name : Text) :
    (toVNodes entries).find? (·.1 = name)
      = (entries.find? (·.1 = name)).map fun e => (e.1, e.2.toVNode) := by
  induction entries with
  | nil => rfl
  | cons e rest ih =>
      obtain ⟨n, c⟩ := e
      show ((n, c.toVNode) :: toVNodes rest).find? _ = _
      by_cases hn : n = name
      · rw [List.find?_cons_of_pos (by simpa using hn), List.find?_cons_of_pos (by simpa using hn)]
        rfl
      · rw [List.find?_cons_of_neg (by simpa using hn), List.find?_cons_of_neg (by simpa using hn)]
        exact ih

/-- Looking a name up in a directory finds its child, or nothing where there is none. -/
theorem lookup_dir {v : VNode} {node : Node} (h : Stands v node) (name : Text) :
    ∀ entries, node = .dir entries →
      match child entries name with
      | none => v.lookup name = none
      | some c => ∃ w, v.lookup name = some w ∧ Stands w c := by
  induction h with
  | file data => intro entries h; cases h
  | owned data => intro entries h; cases h
  | dir es =>
      rintro entries ⟨⟩
      have hlook : (VNode.ramfsDir (toVNodes es)).lookup name
          = (child es name).map fun c => c.toVNode.clone := by
        rw [VNode.lookup, find_toVNodes, child]
        cases es.find? (·.1 = name) <;> rfl
      rcases hc : child es name with - | c
      · show _ = none
        rw [hlook, hc]
        rfl
      · exact ⟨c.toVNode.clone, by rw [hlook, hc]; rfl, (toVNode c).clone⟩
  | ref h ih =>
      rintro entries ⟨⟩
      exact ih _ rfl

/-- One step of a walk. -/
theorem lookup {v : VNode} {node : Node} (h : Stands v node) (name : Text) :
    match node.find [name] with
    | none => v.lookup name = none
    | some c => ∃ w, v.lookup name = some w ∧ Stands w c := by
  rcases node with data | entries
  · cases h <;> rfl
  · have hlook := h.lookup_dir name entries rfl
    rw [find_dir_cons]
    rcases hc : child entries name with - | c
    · rw [hc] at hlook
      exact hlook
    · rw [hc] at hlook
      simpa using hlook

/-- **A walk.**  Looking up the names of a path one after another ends at a node that
behaves as the place the path leads to, or finds nothing where there is none. -/
theorem walk {v : VNode} {node : Node} (h : Stands v node) (path : List Text) :
    match node.find path with
    | none => path.foldlM VNode.lookup v = none
    | some m => ∃ w, path.foldlM VNode.lookup v = some w ∧ Stands w m := by
  induction path generalizing v node with
  | nil =>
      rw [find_nil]
      exact ⟨v, rfl, h⟩
  | cons name path ih =>
      have hlook := h.lookup name
      have hfind : node.find (name :: path) = (node.find [name]).bind fun n => n.find path :=
        find_append node [name] path
      rw [hfind, List.foldlM_cons]
      rcases hc : node.find [name] with - | c
      · rw [hc] at hlook
        show v.lookup name >>= _ = none
        rw [show v.lookup name = none from hlook]
        rfl
      · rw [hc] at hlook
        obtain ⟨w, hw, hstands⟩ := hlook
        rw [hw]
        exact ih hstands

end Stands

/-- `vfs::lookup` is a walk from the root. -/
theorem Vfs.lookup_eq (root : VNode) (path : Text) (hne : Text.components '/' path ≠ []) :
    Vfs.lookup (some root) path = (Text.components '/' path).foldlM VNode.lookup root := by
  obtain ⟨first, rest, heq⟩ := List.exists_cons_of_ne_nil hne
  rw [Vfs.lookup, Option.bind_some, heq]
  rfl

/-- The VFS never returns its root. -/
theorem Vfs.lookup_root (root : VNode) (path : Text) (h : Text.components '/' path = []) :
    Vfs.lookup (some root) path = none := by
  rw [Vfs.lookup, Option.bind_some, h]

end Amaterasu
