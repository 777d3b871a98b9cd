/-
The ramdisk file system: the ustar parser, its tree, and the nodes the VFS hands out.

`parse_ustar` reads headers 512 bytes apart and puts each member into a tree of
vectors, making the directories on the way to it; `to_vnode` turns the tree into nodes
behind the `VNode` trait.  A lookup never returns a node of that tree itself: a file
comes back as a copy of its bytes, a directory as a pointer that delegates.  `none` is
a panic where a function of the source can panic.  Lengths and offsets are natural
numbers: a size field has twelve octal digits at most, so no sum with the length of a
slice leaves 64 bits.
-/
import Amaterasu.Lib.Text

namespace Amaterasu

abbrev Bytes := List UInt8

namespace Ramfs

/-! ### The ustar header -/

def BLOCK : Nat := 512
def NAME_OFF : Nat := 0
def NAME_LEN : Nat := 100
def SIZE_OFF : Nat := 124
def SIZE_LEN : Nat := 12
def TYPE_OFF : Nat := 156
def MAGIC_OFF : Nat := 257

/-- The bytes of "ustar". -/
def MAGIC : Bytes := [0x75, 0x73, 0x74, 0x61, 0x72]

/-- `&bytes[off..off + len]`. -/
def slice (bytes : Bytes) (off len : Nat) : Bytes := (bytes.drop off).take len

def parseOctal (bytes : Bytes) : Nat :=
  let s := (Text.fromUtf8 bytes).getD ['0']
  (Text.usizeFromRadix 8 (Text.trim (Text.trimMatches (· == '\x00') s))).getD 0

def trimNul (bytes : Bytes) : Bytes := bytes.takeWhile (· != 0)

/-- The name `parse_ustar` reads off a header. -/
def memberName (header : Bytes) : Text :=
  Text.trimStartMatches '.' '/'
    (Text.trimMatches (· == '/')
      ((Text.fromUtf8 (trimNul (slice header NAME_OFF NAME_LEN))).getD []))

/-! ### The tree built while parsing -/

inductive Node
  | file (data : Bytes)
  | dir (entries : List (Text × Node))

abbrev Entries := List (Text × Node)

def Node.isDir : Node → Bool
  | file _ => false
  | dir _ => true

/-- `get_or_insert_dir`, with what the caller does to the directory it gets: the first
entry of that name, appended as an empty directory when there is none.  The source's
`expect` fails on a file. -/
def getOrInsertDir (name : Text) (f : Entries → Option Entries) : Entries → Option Entries
  | [] => (f []).map fun sub => [(name, .dir sub)]
  | (n, child) :: rest =>
      if n = name then
        match child with
        | .dir sub => (f sub).map fun sub' => (n, .dir sub') :: rest
        | .file _ => none
      else (getOrInsertDir name f rest).map ((n, child) :: ·)

/-- The body of `insert`, over the components of the path. -/
def insertParts (node : Node) : List Text → Entries → Option Entries
  | [], dir => some dir
  | [leaf], dir =>
      if node.isDir && dir.any (·.1 = leaf) then some dir else some (dir ++ [(leaf, node)])
  | part :: rest, dir => getOrInsertDir part (insertParts node rest) dir

def insert (root : Entries) (path : Text) (node : Node) : Option Entries :=
  insertParts node (Text.components '/' path) root

/-! ### The parser -/

/-- What one header contributes, with its data starting at `offset`. -/
def insertMember (data : Bytes) (offset : Nat) (header : Bytes) (root : Entries) :
    Option Entries :=
  let name := memberName header
  let size := parseOctal (slice header SIZE_OFF SIZE_LEN)
  if name ≠ [] ∧ name ≠ ['.'] then
    let dataSlice := if size > 0 ∧ offset + size ≤ data.length then slice data offset size else []
    insert root name (if header.getD TYPE_OFF 0 = 0x35 then .dir [] else .file dataSlice)
  else some root

/-- The loop of `parse_ustar` from an offset on. -/
def parseFrom (data : Bytes) (offset : Nat) (root : Entries) : Option Entries :=
  if h : offset + BLOCK ≤ data.length then
    let header := slice data offset BLOCK
    if header.all (· == 0) then some root
    else if slice header MAGIC_OFF MAGIC.length ≠ MAGIC then some root
    else
      let size := parseOctal (slice header SIZE_OFF SIZE_LEN)
      (insertMember data (offset + BLOCK) header root).bind fun root' =>
        parseFrom data (offset + BLOCK + (size + BLOCK - 1) / BLOCK * BLOCK) root'
  else some root
termination_by data.length - offset
decreasing_by unfold BLOCK at *; omega

/-- What `parse_ustar` does but for its count of the files, an `i32`: with it, and with all that
is checked, it is `Checked.parseUstar`. -/
def parseUncounted (data : Bytes) : Option Entries := parseFrom data 0 []

end Ramfs

/-! ### Nodes behind the `VNode` trait -/

inductive NodeKind
  | file
  | dir
  deriving DecidableEq, Repr

/-- The implementations of the trait. -/
inductive VNode
  | ramfsFile (data : Bytes)
  | ramfsDir (entries : List (Text × VNode))
  | ownedFile (data : Bytes)
  | dirRef (ptr : VNode)

namespace VNode

def kind : VNode → NodeKind
  | ramfsFile _ => .file
  | ramfsDir _ => .dir
  | ownedFile _ => .file
  | dirRef _ => .dir

def size : VNode → Nat
  | ramfsFile data => data.length
  | ramfsDir entries => entries.length
  | ownedFile data => data.length
  | dirRef ptr => ptr.size

/-- The body of `read` that both kinds of file have: the buffer after the call and the
number of bytes read. -/
def readFile (data buf : Bytes) (offset : Nat) : Bytes × Nat :=
  if offset ≥ data.length then (buf, 0)
  else
    let src := data.drop offset
    let n := min buf.length src.length
    (src.take n ++ buf.drop n, n)

def read : VNode → Bytes → Nat → Bytes × Nat
  | ramfsFile data, buf, offset => readFile data buf offset
  | ramfsDir _, buf, _ => (buf, 0)
  | ownedFile data, buf, offset => readFile data buf offset
  | dirRef _, buf, _ => (buf, 0)

def readdir : VNode → List Text
  | ramfsFile _ => []
  | ramfsDir entries => entries.map Prod.fst
  | ownedFile _ => []
  | dirRef ptr => ptr.readdir

/-- `vnode_clone`: a file is read whole into bytes of its own, a directory is pointed
at. -/
def clone (node : VNode) : VNode :=
  match node.kind with
  | .file => ownedFile (node.read (List.replicate node.size 0) 0).1
  | .dir => dirRef node

def lookup : VNode → Text → Option VNode
  | ramfsFile _, _ => none
  | ramfsDir entries, name => (entries.find? (·.1 = name)).map fun e => e.2.clone
  | ownedFile _, _ => none
  | dirRef ptr, name => ptr.lookup name

end VNode

mutual
/-- `to_vnode`. -/
def Ramfs.Node.toVNode : Ramfs.Node → VNode
  | .file data => .ramfsFile data
  | .dir entries => .ramfsDir (Ramfs.toVNodes entries)

def Ramfs.toVNodes : Ramfs.Entries → List (Text × VNode)
  | [] => []
  | (name, child) :: rest => (name, child.toVNode) :: Ramfs.toVNodes rest
end

/-! ### The VFS -/

namespace Vfs

/-- The value of `ROOT` once `mount` has run. -/
def mount (root : VNode) : Option VNode := some root

/-- Walk an absolute path.  The root itself is never returned. -/
def lookup (root : Option VNode) (path : Text) : Option VNode :=
  root.bind fun root =>
    match Text.components '/' path with
    | [] => none
    | first :: rest => (root.lookup first).bind fun current => rest.foldlM VNode.lookup current

def withRoot {T : Type*} (root : Option VNode) (f : VNode → T) : Option T := root.map f

end Vfs

end Amaterasu
