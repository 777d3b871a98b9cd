/-
The ramdisk at boot: `init` and `try_slice` in `kernel/src/ramfs.rs`.

The boot loader gives an address and a length, and does not say whether the address is a
virtual one.  `init` looks for the magic of an archive at the address as it stands, then at
its place in the mapping of physical memory, and mounts the first that has it.  An archive of
a tree is mounted from either place, as long as it has members and a few bytes behind the
first header; nothing is looked at but the magic, so bytes at the address that happen to have
it are mounted instead.
-/
import Amaterasu.Fs.Checked
import Amaterasu.Lib.Traced

namespace Amaterasu

namespace Ramfs

/-- `try_slice`. -/
def trySlice (mem : Mem) (virt len : Nat) : Option (Bytes × Nat) :=
  if len < BLOCK + MAGIC.length then none
  else
    let bytes := mem.bytes virt len
    if slice bytes MAGIC_OFF MAGIC.length = MAGIC then some (bytes, virt) else none

/-- The last lines of `init`: what `ROOT` holds after them. -/
def mountSlice (bytes : Bytes) : Option (Option VNode) :=
  (Checked.parseUstar bytes).map fun root => Vfs.mount (Node.dir root).toVNode

/-- `init`, from what `ROOT` holds to what it holds then; `none` is a panic. -/
def init (mem : Mem) (ramdiskAddr ramdiskLen physOff : Nat) (root : Option VNode) :
    Option (Option VNode) :=
  if ramdiskLen = 0 then some root
  else
    match trySlice mem ramdiskAddr ramdiskLen with
    | some (bytes, _) => mountSlice bytes
    | none => do
        let virt ← Checked.usizeAdd ramdiskAddr physOff
        match trySlice mem virt ramdiskLen with
        | some (bytes, _) => mountSlice bytes
        | none => some root

/-- Where the boot loader has left an archive: at the address, or at its place in the mapping
of physical memory while there is no magic at the address itself. -/
def Placed (mem : Mem) (addr physOff : Nat) (data : Bytes) : Prop :=
  mem.Holds addr data ∨
    mem.Holds (addr + physOff) data ∧ addr + physOff < 2 ^ 64 ∧ ¬ mem.Holds (addr + MAGIC_OFF) MAGIC

variable {mem : Mem} {addr physOff : Nat} {data : Bytes}

/-! ### Where the magic is -/

theorem trySlice_holds (h : mem.Holds addr data) (hlen : BLOCK + MAGIC.length ≤ data.length)
    (hmagic : slice data MAGIC_OFF MAGIC.length = MAGIC) :
    trySlice mem addr data.length = some (data, addr) := by
  have hbytes : mem.bytes addr data.length = data := by
    have hall := h.bytes (i := 0) (n := data.length) (Nat.le_of_eq (Nat.zero_add _))
    rwa [Nat.add_zero, List.drop_zero, List.take_length] at hall
  unfold trySlice
  rw [if_neg (Nat.not_lt.mpr hlen), hbytes]
  exact if_pos hmagic

theorem trySlice_none {len : Nat} (h : ¬ mem.Holds (addr + MAGIC_OFF) MAGIC) :
    trySlice mem addr len = none := by
  unfold trySlice
  split
  · rfl
  · rename_i hlen
    refine if_neg fun hmagic => h ?_
    intro i hi
    have hget : (slice (mem.bytes addr len) MAGIC_OFF MAGIC.length)[i]? = MAGIC[i]? := by
      rw [hmagic]
    have hblock : BLOCK = 512 := rfl
    have hoff : MAGIC_OFF = 257 := rfl
    have hmagiclen : MAGIC.length = 5 := rfl
    rw [slice, List.getElem?_take_of_lt hi, List.getElem?_drop, Mem.bytes, List.getElem?_map,
      List.getElem?_range (by omega), Option.map_some, List.getElem?_eq_getElem hi] at hget
    rw [Nat.add_assoc]
    exact Option.some.inj hget

/-- The first header of an archive has the magic. -/
theorem archive_magic {m : List Text × Entry Bytes} {ms : List (List Text × Entry Bytes)}
    (h : Archive (m :: ms) data) : slice data MAGIC_OFF MAGIC.length = MAGIC := by
  cases h with
  | @member path e _ header pad rest hheader hpad hrest =>
      have hlen := hheader.length
      have hblock : BLOCK = 512 := rfl
      have hoff : MAGIC_OFF = 257 := rfl
      have hmagiclen : MAGIC.length = 5 := rfl
      have hmagic := hheader.magic
      unfold slice at hmagic ⊢
      rw [List.drop_append_of_le_length (by omega), List.take_append_of_le_length]
      · exact hmagic
      · rw [List.length_drop]
        omega

/-! ### Mounting -/

/-- Either way the archive is found. -/
theorem init_placed {root : Option VNode} (h : Placed mem addr physOff data)
    (hlen : BLOCK + MAGIC.length ≤ data.length)
    (hmagic : slice data MAGIC_OFF MAGIC.length = MAGIC) :
    init mem addr data.length physOff root = mountSlice data := by
  have hne : data.length ≠ 0 := by
    intro hzero
    rw [hzero] at hlen
    exact absurd hlen (by decide)
  unfold init
  rw [if_neg hne]
  rcases h with hvirt | ⟨hphys, hfit, hnone⟩
  · rw [trySlice_holds hvirt hlen hmagic]
  · rw [trySlice_none hnone, Checked.usizeAdd_eq hfit, Option.bind_eq_bind, Option.bind_some,
      trySlice_holds hphys hlen hmagic]

/-- **The archive of a tree is mounted**, with what `ROOT` then stands for. -/
theorem init_archive {T : FileTree} {m : List Text × Entry Bytes}
    {ms : List (List Text × Entry Bytes)} (hlists : T.Lists (m :: ms))
    (harchive : Archive (m :: ms) data) (hplaced : Placed mem addr physOff data)
    (hlen : BLOCK + MAGIC.length ≤ data.length) (hmax : data.length < 2 ^ 40)
    (root : Option VNode) :
    ∃ tree, init mem addr data.length physOff root
        = some (Vfs.mount (Node.dir tree).toVNode) ∧
      entryAt tree = T.node ∧ Distinct tree := by
  obtain ⟨tree, hparse, hentry, hdist⟩ := parse_archive hlists harchive
  refine ⟨tree, ?_, hentry, hdist⟩
  have hparse' : Checked.parseUstar data = some tree := by
    rw [Checked.parseUstar_short hmax]
    exact hparse
  rw [init_placed hplaced hlen (archive_magic harchive), mountSlice, hparse', Option.map_some]

end Ramfs

end Amaterasu
