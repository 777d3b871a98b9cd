/-
The kernel heap: `kernel/src/allocator.rs`.

Six slab classes, each a pool of equal blocks whose free list is threaded through
the free blocks themselves, and a bump region behind them for everything larger.
A request goes to the first class it fits that still has a free block, smallest
class first, and falls through to the bump region; a pointer is given back to
whichever class's pool its address lies in, whatever layout it was asked for with.

Addresses and sizes are `usize` values.  The kernel is built with overflow checks,
so a sum that does not fit is a panic, modelled as `none`; `saturating_add` is the
one operation the source asks to clamp instead.  The null pointer is address 0.
-/
import Amaterasu.Lib.Memory

namespace Amaterasu

/-- `usize::MAX` on the 64-bit target. -/
def usizeMax : Nat := 2 ^ 64 - 1

/-- `SLAB_SIZES`. -/
def slabSizes : List Nat := [8, 16, 32, 64, 128, 256]

/-- `OBJECTS_PER_CLASS`. -/
def objectsPerClass : Nat := 512

/-- `SLAB_REGION_BYTES`. -/
def slabRegionBytes : Nat := objectsPerClass * (8 + 16 + 32 + 64 + 128 + 256)

/-- `core::alloc::Layout`, with what its constructor checks. -/
structure Layout where
  size : Nat
  align : Nat
  align_pow2 : ∃ k, align = 2 ^ k
  size_le : size + (align - 1) ≤ 2 ^ 63 - 1
  deriving DecidableEq

/-! ### One slab class -/

structure SlabClass where
  objSize : Nat
  /-- Base of this class's pool. -/
  regionStart : Nat
  /-- First free block; 0 when the list is empty. -/
  freeHead : Nat
  freeCount : Nat
  total : Nat

namespace SlabClass

def new (objSize : Nat) : SlabClass :=
  { objSize, regionStart := 0, freeHead := 0, freeCount := 0, total := 0 }

/-- The link stored in block `i` while the list is first threaded. -/
def nextLink (objSize regionStart count i : Nat) : Nat :=
  if i + 1 < count then regionStart + (i + 1) * objSize else 0

def init (s : SlabClass) (m : Mem) (regionStart count : Nat) : SlabClass × Mem :=
  ({ s with regionStart, total := count, freeCount := count, freeHead := regionStart },
    (List.range count).foldl
      (fun m i => m.writeWord (regionStart + i * s.objSize)
        (nextLink s.objSize regionStart count i)) m)

/-- Pops the free list.  `free_count -= 1` panics at 0. -/
def alloc (s : SlabClass) (m : Mem) : Option (SlabClass × Nat) :=
  if s.freeHead = 0 then some (s, 0)
  else if s.freeCount = 0 then none
  else some
    ({ s with freeHead := m.readWord s.freeHead, freeCount := s.freeCount - 1 }, s.freeHead)

def dealloc (s : SlabClass) (m : Mem) (ptr : Nat) : SlabClass × Mem :=
  ({ s with freeHead := ptr, freeCount := s.freeCount + 1 }, m.writeWord ptr s.freeHead)

def owns (s : SlabClass) (ptr : Nat) : Bool :=
  ptr ≥ s.regionStart && ptr < s.regionStart + s.total * s.objSize

end SlabClass

/-! ### The bump region -/

structure Bump where
  current : Nat
  end_ : Nat

/-- `(addr + align - 1) & !(align - 1)`; the sum panics when it does not fit. -/
def alignUp (addr align : Nat) : Option Nat :=
  if addr + align < 2 ^ 64 then some ((addr + align - 1) &&& (usizeMax ^^^ (align - 1))) else none

def Bump.alloc (b : Bump) (layout : Layout) : Option (Bump × Nat) := do
  let start ← alignUp b.current layout.align
  let stop := min (start + layout.size) usizeMax   -- `saturating_add`
  if stop > b.end_ then some (b, 0) else some ({ b with current := stop }, start)

/-! ### The combined allocator -/

structure SlabAllocator where
  initialized : Bool
  heapStart : Nat
  slabs : List SlabClass
  bump : Bump

namespace SlabAllocator

def new : SlabAllocator :=
  { initialized := false, heapStart := 0,
    slabs := [SlabClass.new 8, SlabClass.new 16, SlabClass.new 32, SlabClass.new 64,
      SlabClass.new 128, SlabClass.new 256],
    bump := { current := 0, end_ := 0 } }

/-- The loop of `init`: each class with its `SLAB_SIZES` entry, `offset` running. -/
def initSlabs (heapVirt : Nat) : List (SlabClass × Nat) → Nat → Mem → List SlabClass × Nat × Mem
  | [], offset, m => ([], offset, m)
  | (s, size) :: rest, offset, m =>
      let (s', m') := s.init m (heapVirt + offset) objectsPerClass
      let (rest', offset', m'') := initSlabs heapVirt rest (offset + size * objectsPerClass) m'
      (s' :: rest', offset', m'')

def init (a : SlabAllocator) (m : Mem) (heapVirt heapSize : Nat) : SlabAllocator × Mem :=
  let (slabs, offset, m') := initSlabs heapVirt (a.slabs.zip slabSizes) 0 m
  ({ a with
      heapStart := heapVirt, slabs,
      bump := { current := heapVirt + offset, end_ := heapVirt + heapSize },
      initialized := true }, m')

/-- `layout.size() <= slab.obj_size && layout.align() <= slab.obj_size`. -/
def fits (layout : Layout) (s : SlabClass) : Bool :=
  layout.size ≤ s.objSize && layout.align ≤ s.objSize

/-- The loop of `alloc` over the classes; address 0 when none of them serves. -/
def allocSlabs (m : Mem) (layout : Layout) : List SlabClass → Option (List SlabClass × Nat)
  | [] => some ([], 0)
  | s :: rest =>
      if fits layout s then
        match s.alloc m with
        | none => none
        | some (s', p) =>
            if p ≠ 0 then some (s' :: rest, p)
            else (allocSlabs m layout rest).map fun r => (s' :: r.1, r.2)
      else (allocSlabs m layout rest).map fun r => (s :: r.1, r.2)

def alloc (a : SlabAllocator) (m : Mem) (layout : Layout) : Option (SlabAllocator × Nat) :=
  if !a.initialized then some (a, 0)
  else do
    let (slabs, p) ← allocSlabs m layout a.slabs
    if p ≠ 0 then some ({ a with slabs }, p)
    else do
      let (bump, p) ← a.bump.alloc layout
      some ({ a with slabs, bump }, p)

/-- The loop of `dealloc`: the first class whose pool holds the address takes it. -/
def deallocSlabs (m : Mem) (ptr : Nat) : List SlabClass → List SlabClass × Mem
  | [] => ([], m)
  | s :: rest =>
      if s.owns ptr then
        let (s', m') := s.dealloc m ptr
        (s' :: rest, m')
      else
        let (rest', m') := deallocSlabs m ptr rest
        (s :: rest', m')

def dealloc (a : SlabAllocator) (m : Mem) (ptr : Nat) : SlabAllocator × Mem :=
  let (slabs, m') := deallocSlabs m ptr a.slabs
  ({ a with slabs }, m')

end SlabAllocator

/-! ### The heap with its client

The client is what the `GlobalAlloc` contract lets it be: it asks for blocks of at
least one byte, gives each live block back at most once, and writes any bytes it
likes, but only inside blocks that are live.  `live` is ghost state; the allocator
itself keeps no record of what it handed out.
-/

/-- A block handed out, with the layout it was asked for with. -/
structure Block where
  ptr : Nat
  layout : Layout
  deriving DecidableEq

/-- One past the last byte the client asked for. -/
abbrev Block.limit (b : Block) : Nat := b.ptr + b.layout.size

structure Heap where
  allocator : SlabAllocator
  mem : Mem
  live : List Block

inductive HeapOp where
  | alloc (layout : Layout)
  | dealloc (b : Block)
  | write (addr : Nat) (byte : UInt8)

/-- The live list after `alloc` has returned `p`. -/
def Heap.handOut (live : List Block) (layout : Layout) (p : Nat) : List Block :=
  if p = 0 then live else ⟨p, layout⟩ :: live

inductive HeapStep : Heap → HeapOp → Heap → Prop
  | alloc {h : Heap} {layout : Layout} {a : SlabAllocator} {p : Nat}
      (hsize : 1 ≤ layout.size) (heq : h.allocator.alloc h.mem layout = some (a, p)) :
      HeapStep h (.alloc layout)
        { h with allocator := a, live := Heap.handOut h.live layout p }
  | dealloc {h : Heap} {b : Block} (hb : b ∈ h.live) :
      HeapStep h (.dealloc b)
        { allocator := (h.allocator.dealloc h.mem b.ptr).1,
          mem := (h.allocator.dealloc h.mem b.ptr).2, live := h.live.erase b }
  | write {h : Heap} {b : Block} {addr : Nat} {byte : UInt8} (hb : b ∈ h.live)
      (hlo : b.ptr ≤ addr) (hhi : addr < b.limit) :
      HeapStep h (.write addr byte) { h with mem := h.mem.writeByte addr byte }

/-- The heap right after `SlabAllocator::init`, whatever the memory held before. -/
def Heap.boot (m : Mem) (heapVirt heapSize : Nat) : Heap :=
  { allocator := (SlabAllocator.new.init m heapVirt heapSize).1,
    mem := (SlabAllocator.new.init m heapVirt heapSize).2, live := [] }

end Amaterasu
