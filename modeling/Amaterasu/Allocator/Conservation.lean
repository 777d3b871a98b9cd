/-
No block is lost and none changes its class.

Frees are routed by address and requests spill into larger classes, so nothing in the
code says that the six pools stay what `init` made them.  `SlabInv` does, and this
module reads off it what each class has at any moment: every one of its blocks is live
or on its own list, once, and the counters that `alloc` and the `heap` command subtract
from are the lists' lengths.

No request has to be left out.  Even the one that is granted past the end of the heap
(`HeapOp.SaturatesPastEnd`) gets a block above the pools.
-/
import Amaterasu.Allocator.Slabs

namespace Amaterasu

/-! ### What the `heap` command subtracts -/

/-- Subtraction of `usize` values; below 0 it panics. -/
def usizeSub (a b : Nat) : Option Nat := if b ≤ a then some (a - b) else none

structure HeapStats where
  heapStart : Nat
  heapSize : Nat
  bumpUsed : Nat
  bumpCapacity : Nat
  slabSizes : List Nat
  slabFree : List Nat
  slabTotal : List Nat

/-- `Bump::start`; `heapSize` is `memory::heap_size()`. -/
def Bump.start (b : Bump) (heapSize : Nat) : Option Nat := do
  let region ← usizeSub heapSize slabRegionBytes
  return b.end_ - region   -- `saturating_sub`

def Bump.used (b : Bump) (heapSize : Nat) : Option Nat := do return b.current - (← b.start heapSize)

def Bump.capacity (b : Bump) (heapSize : Nat) : Option Nat := do
  return b.end_ - (← b.start heapSize)

/-- `stats`. -/
def SlabAllocator.stats (a : SlabAllocator) (heapSize : Nat) : Option HeapStats := do
  let bumpUsed ← a.bump.used heapSize
  let bumpCapacity ← a.bump.capacity heapSize
  return {
    heapStart := a.heapStart, heapSize, bumpUsed, bumpCapacity, slabSizes,
    slabFree := a.slabs.map SlabClass.freeCount, slabTotal := a.slabs.map SlabClass.total }

/-- The numbers in `cmd_heap`'s line for a class: object size, used and total. -/
def cmdHeapSlab (size free total : Nat) : Option (Nat × Nat × Nat) := do
  let used ← usizeSub total free
  return (size, used, total)

def cmdHeapSlabs (s : HeapStats) : Option (List (Nat × Nat × Nat)) :=
  (s.slabSizes.zip (s.slabFree.zip s.slabTotal)).mapM fun e => cmdHeapSlab e.1 e.2.1 e.2.2

/-! ### One class -/

/-- What becomes of the blocks of a class: `free` is its free list. -/
structure ClassConserved (h : Heap) (s : SlabClass) (free : List Nat) : Prop where
  /-- The list is linked through memory from `free_head`, and ends in 0. -/
  ends : Threaded h.mem s.freeHead free
  acyclic : free.Nodup
  count : s.freeCount = free.length
  own : ∀ p ∈ free, p ∈ s.blocks
  /-- Each block is that of exactly one live allocation, or once on the list. -/
  block : ∀ p ∈ s.blocks,
    (h.live.countP (·.ptr = p) = 1 ∧ free.count p = 0) ∨
      (h.live.countP (·.ptr = p) = 0 ∧ free.count p = 1)
  /-- It is on no other class's list. -/
  elsewhere : ∀ t ∈ h.allocator.slabs, t ≠ s → ∀ free', Threaded h.mem t.freeHead free' →
    ∀ p ∈ s.blocks, p ∉ free'

/-- All six classes, `heapSize` being what `memory::heap_size()` returns. -/
structure SlabsConserved (heapVirt heapSize : Nat) (h : Heap) : Prop where
  /-- Object size, base of the pool and number of blocks of each class. -/
  shape : h.allocator.slabs.map SlabClass.shape = classGeometry heapVirt
  conserved : ∀ s ∈ h.allocator.slabs, ∃ free, ClassConserved h s free
  /-- `free_count -= 1` does not underflow. -/
  alloc : ∀ s ∈ h.allocator.slabs, s.alloc h.mem ≠ none
  /-- `slab_total[i] - slab_free[i]` does not underflow: it is the number of live blocks. -/
  heap : (h.allocator.stats heapSize).bind cmdHeapSlabs
    = some (h.allocator.slabs.map fun s => (s.objSize, (livePtrs h.live s).length, s.total))
  recovered : h.live = [] → ∀ s ∈ h.allocator.slabs, s.freeCount = objectsPerClass

namespace FreeList

variable {h : Heap} {s : SlabClass} {free : List Nat}

/-- What is free and what is live make up the pool. -/
theorem count_add_live {m : Mem} {live : List Block} (hfree : FreeList m live s free) :
    s.freeCount + (livePtrs live s).length = s.total := by
  have hlen := hfree.perm.length_eq
  rw [List.length_append, ← hfree.count, SlabClass.blocks, List.length_map,
    List.length_range] at hlen
  exact hlen

/-- A block is on the list as often as it is not live. -/
theorem count_block {m : Mem} {live : List Block} (hfree : FreeList m live s free)
    (hsize : 0 < s.objSize) {p : Nat} (hp : p ∈ s.blocks) :
    free.count p + live.countP (·.ptr = p) = 1 := by
  have hcount := hfree.perm.count_eq p
  rw [List.count_append, List.count_eq_one_of_mem (SlabClass.blocks_nodup hsize) hp] at hcount
  have hlive : (livePtrs live s).count p = live.countP (·.ptr = p) := by
    unfold livePtrs
    rw [List.count_filter (SlabClass.owns_of_mem_blocks hsize hp), List.count, List.countP_map]
    rfl
  rw [← hlive]
  exact hcount

end FreeList

namespace SlabInv

variable {heapVirt : Nat} {h : Heap}

theorem classConserved (inv : SlabInv heapVirt h) {s : SlabClass} (hs : s ∈ h.allocator.slabs) :
    ∃ free, ClassConserved h s free := by
  obtain ⟨free, hfree⟩ := inv.classes s hs
  have hsize : 0 < s.objSize := by
    have := (inv.pool hs).eight_le
    omega
  refine ⟨free, hfree.threaded, hfree.free_nodup hsize, hfree.count,
    fun p hp => hfree.free_mem_blocks hp, ?_, ?_⟩
  · intro p hp
    have hone := hfree.count_block hsize hp
    omega
  · intro t ht hne free' hthreaded p hp hmem
    obtain ⟨free'', hfree''⟩ := inv.classes t ht
    obtain rfl := hthreaded.unique hfree''.threaded
    obtain ⟨pre, post, hsplit⟩ := List.append_of_mem hs
    have htin : t ∈ pre ++ post := by
      rw [hsplit] at ht
      exact (mem_split.mp ht).resolve_left hne
    -- The two pools are apart, and the block is in both.
    have hap := (inv.apart hsplit htin).2
    have hown := SlabClass.owns_of_mem_blocks hsize hp
    have hown' := SlabClass.owns_of_mem_blocks (by have := (inv.pool ht).eight_le; omega)
      (hfree''.free_mem_blocks hmem)
    rw [hap.not_owns hown] at hown'
    exact absurd hown' (by simp)

/-- What `cmd_heap` reads off the counters: the live blocks of each pool. -/
theorem cmdHeapSlabs_eq (inv : SlabInv heapVirt h) {heapSize : Nat}
    (hsize : slabRegionBytes ≤ heapSize) :
    (h.allocator.stats heapSize).bind cmdHeapSlabs
      = some (h.allocator.slabs.map fun s => (s.objSize, (livePtrs h.live s).length, s.total)) := by
  have hsizes : slabSizes = h.allocator.slabs.map SlabClass.objSize := by
    have hshape := congrArg (List.map Prod.fst) inv.shape
    rw [List.map_map] at hshape
    exact hshape.symm
  have hregion : usizeSub heapSize slabRegionBytes = some (heapSize - slabRegionBytes) :=
    if_pos hsize
  have hrows : ∀ slabs : List SlabClass, (∀ s ∈ slabs, s ∈ h.allocator.slabs) →
      (slabs.map fun s => (s.objSize, s.freeCount, s.total)).mapM
        (fun e => cmdHeapSlab e.1 e.2.1 e.2.2)
      = some (slabs.map fun s => (s.objSize, (livePtrs h.live s).length, s.total)) := by
    intro slabs
    induction slabs with
    | nil => exact fun _ => rfl
    | cons s rest ih =>
        intro hall
        obtain ⟨free, hfree⟩ := inv.classes s (hall s (by simp))
        have hsum := hfree.count_add_live
        have hused : usizeSub s.total s.freeCount = some (livePtrs h.live s).length := by
          unfold usizeSub
          rw [if_pos (by omega)]
          congr 1
          omega
        rw [List.map_cons, List.mapM_cons, cmdHeapSlab, hused, ih fun t ht => hall t (by simp [ht])]
        rfl
  unfold SlabAllocator.stats Bump.used Bump.capacity Bump.start
  rw [hregion]
  show (slabSizes.zip ((h.allocator.slabs.map _).zip (h.allocator.slabs.map _))).mapM _ = _
  rw [hsizes, List.zip_map', List.zip_map']
  exact hrows _ fun _ hs => hs

theorem slabsConserved (inv : SlabInv heapVirt h) {heapSize : Nat}
    (hsize : slabRegionBytes ≤ heapSize) : SlabsConserved heapVirt heapSize h where
  shape := inv.shape
  conserved := fun _ hs => inv.classConserved hs
  alloc := fun _ hs => inv.alloc_ne_none hs
  heap := inv.cmdHeapSlabs_eq hsize
  recovered := by
    intro hlive s hs
    obtain ⟨free, hfree⟩ := inv.classes s hs
    have hsum := hfree.count_add_live
    rw [hlive, (inv.pool hs).total] at hsum
    exact hsum

end SlabInv

/--
**No block is lost.**  In every state a client can bring the heap to, each block of each
class is live or on its own class's list, exactly once; every list is acyclic, ends, and
is as long as its counter says; and once everything is freed every class is full again.
-/
theorem slabs_conserved {m : Mem} {heapVirt heapSize : Nat} {trace : List (Heap × HeapOp)}
    {h : Heap} (hpos : heapVirt ≠ 0) (hsize : slabRegionBytes ≤ heapSize)
    (hfit : heapVirt + heapSize < 2 ^ 64)
    (hrun : Run HeapStep (Heap.boot m heapVirt heapSize) trace h) :
    SlabsConserved heapVirt heapSize h := by
  have hpos' : 0 < heapVirt := Nat.pos_of_ne_zero hpos
  have hbase : bumpBase heapVirt < 2 ^ 64 :=
    Nat.lt_of_le_of_lt (Nat.add_le_add_left hsize _) hfit
  have inv : SlabInv heapVirt h :=
    hrun.always (I := SlabInv heapVirt) (boot_slabInv m heapVirt heapSize hpos' hbase)
      fun _ _ _ inv hstep => inv.step hpos' hbase hstep
  exact inv.slabsConserved hsize

/-- A word. -/
def word : Layout := ⟨8, 8, ⟨3, rfl⟩, by decide⟩

/-- A word asked for and given back. -/
theorem slabs_conserved_word :
    ∃ trace h, trace.map Prod.snd = [.alloc word, .dealloc ⟨2 ^ 20, word⟩] ∧
      Run HeapStep (Heap.boot (fun _ => 0) (2 ^ 20) (2 ^ 20)) trace h ∧ h.live = [] ∧
      SlabsConserved (2 ^ 20) (2 ^ 20) h := by
  have halloc : HeapStep (Heap.boot (fun _ => 0) (2 ^ 20) (2 ^ 20)) (.alloc word) _ :=
    HeapStep.alloc (p := 2 ^ 20) (by decide) rfl
  have hrun := (Run.nil.snoc halloc).snoc
    (HeapStep.dealloc (b := ⟨2 ^ 20, word⟩) (List.mem_singleton.mpr rfl))
  exact ⟨_, _, rfl, hrun, by simp [Heap.handOut, Heap.boot],
    slabs_conserved (by decide) (by decide) (by decide) hrun⟩

end Amaterasu
