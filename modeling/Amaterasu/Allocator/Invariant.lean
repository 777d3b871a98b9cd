/-
The invariant that ties the raw memory to the free lists and the live blocks.

For each class there is a list of addresses, threaded through memory from
`free_head`, such that this list together with the live pointers of the pool is a
rearrangement of the pool's blocks.  That one permutation says at once that the
list is acyclic, that no live block is on it, that no block is lost and that no
block is handed out twice; `free_count` is the list's length.

Classes are told apart by address.  Their pools tile the first `slabRegionBytes`
bytes of the heap in a fixed layout (`classGeometry`) that no operation changes,
which is what makes freeing by address and falling through to larger classes safe
together: a pointer belongs to the class whose pool it lies in, however small the
request was that it served.
-/
import Amaterasu.Allocator.Cases

namespace Amaterasu

open SlabAllocator

/-- The shapes `init` gives the six classes. -/
def classGeometry (heapVirt : Nat) : List (Nat × Nat × Nat) :=
  [(8, heapVirt, 512), (16, heapVirt + 4096, 512), (32, heapVirt + 12288, 512),
    (64, heapVirt + 28672, 512), (128, heapVirt + 61440, 512), (256, heapVirt + 126976, 512)]

/-- First address of the bump region. -/
abbrev bumpBase (heapVirt : Nat) : Nat := heapVirt + slabRegionBytes

/-- What a pool's place in the heap gives its class. -/
structure Pool (heapVirt : Nat) (s : SlabClass) : Prop where
  total : s.total = 512
  size : ∃ k, 3 ≤ k ∧ k ≤ 8 ∧ s.objSize = 2 ^ k
  lo : heapVirt ≤ s.regionStart
  hi : s.regionStart + s.total * s.objSize ≤ bumpBase heapVirt
  aligned : 4096 ∣ heapVirt → 4096 ∣ s.regionStart

theorem pool_of_shape {heapVirt : Nat} {s : SlabClass} (h : s.shape ∈ classGeometry heapVirt) :
    Pool heapVirt s := by
  simp only [classGeometry, SlabClass.shape, List.mem_cons, Prod.mk.injEq, List.not_mem_nil,
    or_false] at h
  have hbase : bumpBase heapVirt = heapVirt + 258048 := rfl
  rcases h with ⟨hs, hr, ht⟩ | ⟨hs, hr, ht⟩ | ⟨hs, hr, ht⟩ | ⟨hs, hr, ht⟩ | ⟨hs, hr, ht⟩ |
    ⟨hs, hr, ht⟩
  · exact ⟨ht, ⟨3, by omega, by omega, hs⟩, by omega, by rw [hr, ht, hs]; omega, by omega⟩
  · exact ⟨ht, ⟨4, by omega, by omega, hs⟩, by omega, by rw [hr, ht, hs]; omega, by omega⟩
  · exact ⟨ht, ⟨5, by omega, by omega, hs⟩, by omega, by rw [hr, ht, hs]; omega, by omega⟩
  · exact ⟨ht, ⟨6, by omega, by omega, hs⟩, by omega, by rw [hr, ht, hs]; omega, by omega⟩
  · exact ⟨ht, ⟨7, by omega, by omega, hs⟩, by omega, by rw [hr, ht, hs]; omega, by omega⟩
  · exact ⟨ht, ⟨8, by omega, by omega, hs⟩, by omega, by rw [hr, ht, hs]; omega, by omega⟩

namespace Pool

variable {heapVirt : Nat} {s : SlabClass}

/-- A block is at least one link wide. -/
theorem eight_le (h : Pool heapVirt s) : 8 ≤ s.objSize := by
  obtain ⟨k, hk, -, hs⟩ := h.size
  rw [hs]
  calc 8 = 2 ^ 3 := rfl
    _ ≤ 2 ^ k := Nat.pow_le_pow_right (by omega) hk

/-- Every block of a pool is aligned to the class's object size. -/
theorem block_aligned (h : Pool heapVirt s) (hv : 4096 ∣ heapVirt) {p : Nat}
    (hp : p ∈ s.blocks) : s.objSize ∣ p := by
  obtain ⟨i, -, rfl⟩ := SlabClass.mem_blocks.mp hp
  obtain ⟨k, -, hk, hs⟩ := h.size
  have hdvd : s.objSize ∣ 4096 := by
    rw [hs]
    exact Nat.pow_dvd_pow 2 (show k ≤ 12 by omega)
  exact Nat.dvd_add (hdvd.trans (h.aligned hv)) (Nat.dvd_mul_left _ _)

/-- A power of two no larger than the object size divides it. -/
theorem align_dvd (h : Pool heapVirt s) {align : Nat} (hpow : ∃ k, align = 2 ^ k)
    (hle : align ≤ s.objSize) : align ∣ s.objSize := by
  obtain ⟨j, rfl⟩ := hpow
  obtain ⟨k, -, -, hs⟩ := h.size
  rw [hs] at hle ⊢
  exact Nat.pow_dvd_pow 2 ((Nat.pow_le_pow_iff_right (by omega)).mp hle)

end Pool

/-- The pools of two classes do not overlap. -/
def PoolsApart (s t : SlabClass) : Prop :=
  s.regionStart + s.total * s.objSize ≤ t.regionStart ∨
    t.regionStart + t.total * t.objSize ≤ s.regionStart

theorem PoolsApart.symm {s t : SlabClass} (h : PoolsApart s t) : PoolsApart t s := Or.symm h

/-- An address of one of two pools that are apart is not in the other. -/
theorem PoolsApart.not_owns {s t : SlabClass} (h : PoolsApart s t) {p : Nat}
    (hs : s.owns p = true) : t.owns p = false := by
  by_contra ht
  rw [Bool.not_eq_false, SlabClass.owns_iff] at ht
  rw [SlabClass.owns_iff] at hs
  unfold PoolsApart at h
  omega

theorem pools_apart {heapVirt : Nat} {slabs : List SlabClass}
    (h : slabs.map SlabClass.shape = classGeometry heapVirt) : slabs.Pairwise PoolsApart := by
  have hshape : (slabs.map SlabClass.shape).Pairwise fun a b =>
      a.2.1 + a.2.2 * a.1 ≤ b.2.1 ∨ b.2.1 + b.2.2 * b.1 ≤ a.2.1 := by
    rw [h]
    simp only [classGeometry, List.pairwise_cons, List.mem_cons, List.not_mem_nil, or_false,
      forall_eq_or_imp, forall_eq, List.Pairwise.nil, and_true]
    refine ⟨⟨?_, ?_, ?_, ?_, ?_⟩, ⟨?_, ?_, ?_, ?_⟩, ⟨?_, ?_, ?_⟩, ⟨?_, ?_⟩, ?_, ?_⟩ <;>
      first
      | exact Or.inl (by omega)
      | (intro x hx; simp at hx)
  rw [List.pairwise_map] at hshape
  exact hshape

/-- The pool of one class is apart from those on both sides of it. -/
theorem apart_of_split {pre post : List SlabClass} {s : SlabClass}
    (h : (pre ++ s :: post).Pairwise PoolsApart) {t : SlabClass} (ht : t ∈ pre ++ post) :
    PoolsApart s t := by
  obtain ⟨-, hpost, hcross⟩ := List.pairwise_append.mp h
  rcases List.mem_append.mp ht with hpre | hpost'
  · exact (hcross t hpre s (List.mem_cons_self ..)).symm
  · exact (List.pairwise_cons.mp hpost).1 t hpost'

theorem mem_split {pre post : List SlabClass} {s t : SlabClass} :
    t ∈ pre ++ s :: post ↔ t = s ∨ t ∈ pre ++ post := by
  simp only [List.mem_append, List.mem_cons]
  exact or_left_comm

/-! ### The invariant -/

/-- The live pointers that lie in the pool of `s`. -/
def livePtrs (live : List Block) (s : SlabClass) : List Nat :=
  (live.map Block.ptr).filter s.owns

/-- The free list of one class, and the blocks it and the live pointers share out. -/
structure FreeList (m : Mem) (live : List Block) (s : SlabClass) (free : List Nat) : Prop where
  threaded : Threaded m s.freeHead free
  count : s.freeCount = free.length
  perm : (free ++ livePtrs live s).Perm s.blocks

/-- Two blocks do not overlap. -/
def Block.Apart (b c : Block) : Prop := b.limit ≤ c.ptr ∨ c.limit ≤ b.ptr

structure HeapInv (heapVirt heapSize : Nat) (h : Heap) : Prop where
  initialized : h.allocator.initialized = true
  shape : h.allocator.slabs.map SlabClass.shape = classGeometry heapVirt
  classes : ∀ s ∈ h.allocator.slabs, ∃ free, FreeList h.mem h.live s free
  /-- A live block in a pool was asked for with a layout its class fits. -/
  fits : ∀ s ∈ h.allocator.slabs, ∀ b ∈ h.live, s.owns b.ptr = true → fits b.layout s = true
  /-- Every live block below the bump region is some pool's. -/
  owned : ∀ b ∈ h.live, b.ptr < bumpBase heapVirt →
    ∃ s ∈ h.allocator.slabs, s.owns b.ptr = true
  bumpEnd : h.allocator.bump.end_ = heapVirt + heapSize
  bumpLo : bumpBase heapVirt ≤ h.allocator.bump.current
  bumpHi : h.allocator.bump.current ≤ h.allocator.bump.end_
  /-- A live block of the bump region is aligned and behind the bump pointer. -/
  bumpBlock : ∀ b ∈ h.live, bumpBase heapVirt ≤ b.ptr →
    b.layout.align ∣ b.ptr ∧ b.limit ≤ h.allocator.bump.current
  bumpApart : h.live.Pairwise fun b c =>
    bumpBase heapVirt ≤ b.ptr → bumpBase heapVirt ≤ c.ptr → b.Apart c

theorem mem_livePtrs {live : List Block} {s : SlabClass} {p : Nat} :
    p ∈ livePtrs live s ↔ s.owns p = true ∧ ∃ b ∈ live, b.ptr = p := by
  simp only [livePtrs, List.mem_filter, List.mem_map]
  exact and_comm

/-- A pointer outside the pool does not change what is live in it. -/
theorem livePtrs_cons_of_not_owns {live : List Block} {s : SlabClass} {b : Block}
    (h : s.owns b.ptr = false) : livePtrs (b :: live) s = livePtrs live s := by
  simp [livePtrs, h]

theorem livePtrs_cons_of_owns {live : List Block} {s : SlabClass} {b : Block}
    (h : s.owns b.ptr = true) : livePtrs (b :: live) s = b.ptr :: livePtrs live s := by
  simp [livePtrs, h]

/-- Taking a live block out and putting it back first. -/
theorem livePtrs_erase {live : List Block} (s : SlabClass) {b : Block} (hb : b ∈ live) :
    (livePtrs live s).Perm (livePtrs (b :: live.erase b) s) :=
  ((List.perm_cons_erase hb).map _).filter _

theorem livePtrs_congr {live : List Block} {s t : SlabClass} (h : s.shape = t.shape) :
    livePtrs live s = livePtrs live t := by
  simp only [livePtrs, SlabClass.owns_congr h]

namespace FreeList

variable {m m' : Mem} {live : List Block} {s : SlabClass} {free : List Nat}

theorem free_mem_blocks (h : FreeList m live s free) {f : Nat} (hf : f ∈ free) :
    f ∈ s.blocks :=
  h.perm.subset (List.mem_append_left _ hf)

theorem live_mem_blocks (h : FreeList m live s free) {b : Block} (hb : b ∈ live)
    (ho : s.owns b.ptr = true) : b.ptr ∈ s.blocks :=
  h.perm.subset (List.mem_append_right _ (mem_livePtrs.mpr ⟨ho, b, hb, rfl⟩))

/-- No live pointer is on the free list. -/
theorem free_ne_live (h : FreeList m live s free) (hsize : 0 < s.objSize) {f : Nat}
    (hf : f ∈ free) {b : Block} (hb : b ∈ live) (ho : s.owns b.ptr = true) : f ≠ b.ptr := by
  have hnodup : (free ++ livePtrs live s).Nodup :=
    h.perm.nodup_iff.mpr (SlabClass.blocks_nodup hsize)
  intro heq
  exact (List.disjoint_of_nodup_append hnodup) hf
    (mem_livePtrs.mpr ⟨by rw [heq]; exact ho, b, hb, heq.symm⟩)

theorem free_nodup (h : FreeList m live s free) (hsize : 0 < s.objSize) : free.Nodup :=
  (h.perm.nodup_iff.mpr (SlabClass.blocks_nodup hsize)).of_append_left

/-- A write that misses the first word of every block on the list keeps the list. -/
theorem frame (h : FreeList m live s free)
    (hm : ∀ f ∈ free, m'.readWord f = m.readWord f) : FreeList m' live s free :=
  ⟨h.threaded.frame hm, h.count, h.perm⟩

/-- The list of a class none of whose pointers became live or stopped being so. -/
theorem of_livePtrs {live' : List Block} (h : FreeList m live s free)
    (hl : (livePtrs live' s).Perm (livePtrs live s)) : FreeList m live' s free :=
  ⟨h.threaded, h.count, (hl.append_left free).trans h.perm⟩

/-- Popping moves the head block from the list to the live pointers. -/
theorem pop (h : FreeList m live s free) (hne : s.freeHead ≠ 0) {b : Block}
    (hb : b.ptr = s.freeHead) (ho : s.owns b.ptr = true) :
    ∃ free', free = s.freeHead :: free' ∧ FreeList m (b :: live) (s.popped m) free' := by
  obtain ⟨hth, hcount, hperm⟩ := h
  cases free with
  | nil => exact absurd hth hne
  | cons f free' =>
      obtain ⟨rfl, -, hrest⟩ := hth
      refine ⟨free', rfl, hrest, ?_, ?_⟩
      · show s.freeCount - 1 = free'.length
        rw [hcount]
        rfl
      · rw [livePtrs_congr (SlabClass.popped_shape s m), livePtrs_cons_of_owns ho, hb,
          SlabClass.blocks_congr (SlabClass.popped_shape s m)]
        exact List.perm_middle.trans hperm

/-- Freeing moves a live block to the head of the list. -/
theorem push (h : FreeList m live s free) {b : Block} (hb : b ∈ live)
    (ho : s.owns b.ptr = true) (hsize : 8 ≤ s.objSize) (hne : b.ptr ≠ 0)
    (hlt : s.freeHead < 2 ^ 64) :
    FreeList (m.writeWord b.ptr s.freeHead) (live.erase b) (s.dealloc m b.ptr).1
      (b.ptr :: free) := by
  have hblock := h.live_mem_blocks hb ho
  refine ⟨⟨rfl, hne, ?_⟩, ?_, ?_⟩
  · rw [Mem.readWord_writeWord_self m b.ptr hlt]
    refine h.threaded.frame fun f hf => Mem.readWord_writeWord_ne m ?_
    -- The blocks on the list are other blocks of the pool, each at least a word wide.
    have := SlabClass.blocks_apart (h.free_mem_blocks hf) hblock
      (h.free_ne_live (by omega) hf hb ho)
    omega
  · show s.freeCount + 1 = (b.ptr :: free).length
    rw [h.count]
    rfl
  · rw [livePtrs_congr (SlabClass.dealloc_shape s m b.ptr),
      SlabClass.blocks_congr (SlabClass.dealloc_shape s m b.ptr)]
    have hlive := livePtrs_erase s hb
    rw [livePtrs_cons_of_owns ho] at hlive
    have hmove : (b.ptr :: free ++ livePtrs (live.erase b) s).Perm
        (free ++ b.ptr :: livePtrs (live.erase b) s) := by
      rw [List.cons_append]
      exact List.perm_middle.symm
    exact (hmove.trans (hlive.symm.append_left free)).trans h.perm

/-- The head of the list is 0 or a block. -/
theorem head_lt (h : FreeList m live s free) {limit : Nat} (h0 : 0 < limit)
    (hpool : s.regionStart + s.total * s.objSize ≤ limit) (hsize : 0 < s.objSize) :
    s.freeHead < limit := by
  have h' := h
  obtain ⟨hth, -, -⟩ := h
  cases free with
  | nil => rw [show s.freeHead = 0 from hth]; exact h0
  | cons f free' =>
      obtain ⟨rfl, -, -⟩ := hth
      have := SlabClass.block_le (h'.free_mem_blocks (List.mem_cons_self ..))
      omega

end FreeList

end Amaterasu
