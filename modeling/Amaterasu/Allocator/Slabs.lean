/-
The classes of the heap, whatever happens behind them.

What `alloc` and `dealloc` do to the six classes does not depend on the bump region
but for one thing: that what it hands out lies above the pools.  So the part of the
heap's invariant that is about the classes (`SlabInv`) is kept by every step of the
client, with no condition on the requests.

The last section is the start: `init` threads every block of every pool.
-/
import Amaterasu.Lib.Run
import Amaterasu.Allocator.Invariant

namespace Amaterasu

open SlabAllocator

/-- The part of `HeapInv` that is about the classes. -/
structure SlabInv (heapVirt : Nat) (h : Heap) : Prop where
  initialized : h.allocator.initialized = true
  shape : h.allocator.slabs.map SlabClass.shape = classGeometry heapVirt
  classes : ∀ s ∈ h.allocator.slabs, ∃ free, FreeList h.mem h.live s free
  fits : ∀ s ∈ h.allocator.slabs, ∀ b ∈ h.live, s.owns b.ptr = true → fits b.layout s = true
  owned : ∀ b ∈ h.live, b.ptr < bumpBase heapVirt →
    ∃ s ∈ h.allocator.slabs, s.owns b.ptr = true
  bumpLo : bumpBase heapVirt ≤ h.allocator.bump.current

/-! ### The classes keep their shapes -/

theorem shape_replace {pre post : List SlabClass} {s s' : SlabClass} (h : s'.shape = s.shape) :
    (pre ++ s' :: post).map SlabClass.shape = (pre ++ s :: post).map SlabClass.shape := by
  simp [h]

/-- Classes of one layout of the heap correspond to each other. -/
theorem exists_same_shape {slabs slabs' : List SlabClass}
    (h : slabs'.map SlabClass.shape = slabs.map SlabClass.shape) {s : SlabClass}
    (hs : s ∈ slabs') : ∃ t ∈ slabs, t.shape = s.shape := by
  have : s.shape ∈ slabs.map SlabClass.shape := by
    rw [← h]
    exact List.mem_map_of_mem hs
  exact List.mem_map.mp this

theorem fits_congr {layout : Layout} {s t : SlabClass} (h : s.shape = t.shape) :
    fits layout s = fits layout t := by
  simp only [SlabClass.shape, Prod.mk.injEq] at h
  simp only [fits, h]

namespace SlabInv

variable {heapVirt : Nat} {h h' : Heap}

theorem pool (inv : SlabInv heapVirt h) {s : SlabClass} (hs : s ∈ h.allocator.slabs) :
    Pool heapVirt s := by
  refine pool_of_shape ?_
  rw [← inv.shape]
  exact List.mem_map_of_mem hs

/-- A live block and a block on a free list do not overlap. -/
theorem live_apart_free (inv : SlabInv heapVirt h) {s : SlabClass}
    (hs : s ∈ h.allocator.slabs) {free : List Nat} (hfree : FreeList h.mem h.live s free)
    {f : Nat} (hf : f ∈ free) {b : Block} (hb : b ∈ h.live) :
    b.limit ≤ f ∨ f + s.objSize ≤ b.ptr := by
  have hpool := inv.pool hs
  have hfb := SlabClass.block_le (hfree.free_mem_blocks hf)
  rcases Nat.lt_or_ge b.ptr (bumpBase heapVirt) with hlt | hge
  · obtain ⟨t, ht, hto⟩ := inv.owned b hb hlt
    obtain ⟨free', hfree'⟩ := inv.classes t ht
    have hfit := fits_iff.mp (inv.fits t ht b hb hto)
    have hbt := hfree'.live_mem_blocks hb hto
    have hbb := SlabClass.block_le hbt
    have hlim : b.limit ≤ b.ptr + t.objSize := Nat.add_le_add_left hfit.1 _
    by_cases hst : s.owns b.ptr = true
    · -- The live block is a block of the same pool, and not the one on the list.
      have hsb := hfree.live_mem_blocks hb hst
      have hsfit := fits_iff.mp (inv.fits s hs b hb hst)
      have := SlabClass.blocks_apart hsb (hfree.free_mem_blocks hf)
        (hfree.free_ne_live (by have := hpool.eight_le; omega) hf hb hst).symm
      have hlim' : b.limit ≤ b.ptr + s.objSize := Nat.add_le_add_left hsfit.1 _
      omega
    · -- Otherwise its pool is another one, and the pools are apart.
      obtain ⟨pre, post, hsplit⟩ := List.append_of_mem hs
      have hpw := pools_apart inv.shape
      rw [hsplit] at hpw ht
      rcases mem_split.mp ht with rfl | htin
      · exact absurd hto hst
      · have hap := apart_of_split hpw htin
        unfold PoolsApart at hap
        omega
  · have := hpool.hi
    omega

/-- The classes of `inv` on both sides of one of them. -/
theorem apart (inv : SlabInv heapVirt h) {pre post : List SlabClass} {s : SlabClass}
    (hsplit : h.allocator.slabs = pre ++ s :: post) {t : SlabClass} (ht : t ∈ pre ++ post) :
    t ∈ h.allocator.slabs ∧ PoolsApart s t := by
  have hpw := pools_apart inv.shape
  rw [hsplit] at hpw
  refine ⟨?_, apart_of_split hpw ht⟩
  rw [hsplit]
  exact mem_split.mpr (Or.inr ht)

/-- The head of a list that is not empty is a block of its pool, -/
theorem freeHead_mem_blocks (inv : SlabInv heapVirt h) {s : SlabClass}
    (hs : s ∈ h.allocator.slabs) (hne : s.freeHead ≠ 0) : s.freeHead ∈ s.blocks := by
  obtain ⟨free, hfree⟩ := inv.classes s hs
  refine hfree.free_mem_blocks ?_
  cases free with
  | nil => exact absurd hfree.threaded hne
  | cons f free' =>
      rw [hfree.threaded.1]
      exact List.mem_cons_self ..

/-- and below the bump region. -/
theorem owns_freeHead (inv : SlabInv heapVirt h) {s : SlabClass} (hs : s ∈ h.allocator.slabs)
    (hne : s.freeHead ≠ 0) : s.owns s.freeHead = true ∧ s.freeHead < bumpBase heapVirt := by
  have hpool := inv.pool hs
  have hown : s.owns s.freeHead = true :=
    SlabClass.owns_of_mem_blocks (by have := hpool.eight_le; omega)
      (inv.freeHead_mem_blocks hs hne)
  refine ⟨hown, ?_⟩
  have := SlabClass.owns_iff.mp hown
  have := hpool.hi
  omega

/-- A class whose list is not empty has a count that says so. -/
theorem alloc_ne_none (inv : SlabInv heapVirt h) {s : SlabClass} (hs : s ∈ h.allocator.slabs) :
    s.alloc h.mem ≠ none := by
  intro hnone
  obtain ⟨hne, hzero⟩ := SlabClass.alloc_eq_none.mp hnone
  obtain ⟨free, hfree⟩ := inv.classes s hs
  rw [hfree.count, List.length_eq_zero_iff] at hzero
  exact hne (hfree.threaded.head_eq_zero.mpr hzero)

/-- Dropping live blocks and moving blocks between lists keeps everything but,
possibly, the lists. -/
theorem of_sublist (inv : SlabInv heapVirt h)
    (hinit : h'.allocator.initialized = h.allocator.initialized)
    (hshape : h'.allocator.slabs.map SlabClass.shape = h.allocator.slabs.map SlabClass.shape)
    (hbump : h'.allocator.bump = h.allocator.bump) (hlive : h'.live.Sublist h.live)
    (hclasses : ∀ s ∈ h'.allocator.slabs, ∃ free, FreeList h'.mem h'.live s free) :
    SlabInv heapVirt h' where
  initialized := by rw [hinit]; exact inv.initialized
  shape := by rw [hshape]; exact inv.shape
  classes := hclasses
  fits := by
    intro s hs b hb ho
    obtain ⟨t, ht, hts⟩ := exists_same_shape hshape hs
    rw [← fits_congr hts]
    exact inv.fits t ht b (hlive.subset hb) (by rw [SlabClass.owns_congr hts]; exact ho)
  owned := by
    intro b hb hlt
    obtain ⟨t, ht, ho⟩ := inv.owned b (hlive.subset hb) hlt
    obtain ⟨s, hs, hst⟩ := exists_same_shape hshape.symm ht
    exact ⟨s, hs, by rw [SlabClass.owns_congr hst]; exact ho⟩
  bumpLo := by rw [hbump]; exact inv.bumpLo

/-! ### What the client writes -/

/-- Bytes that change inside a live block only. -/
theorem overwrite (inv : SlabInv heapVirt h) {b : Block} (hb : b ∈ h.live) {m : Mem}
    (hm : ∀ x, x < b.ptr ∨ b.limit ≤ x → m x = h.mem x) :
    SlabInv heapVirt { h with mem := m } := by
  refine inv.of_sublist rfl rfl rfl (List.Sublist.refl _) fun s hs => ?_
  obtain ⟨free, hfree⟩ := inv.classes s hs
  refine ⟨free, hfree.frame fun f hf => Mem.readWord_congr fun x hlo hhi => hm x ?_⟩
  -- The link lies in a block on the list, so outside the live one.
  have := inv.live_apart_free hs hfree hf hb
  have := (inv.pool hs).eight_le
  omega

theorem write (inv : SlabInv heapVirt h) {b : Block} (hb : b ∈ h.live) {addr : Nat}
    (hlo : b.ptr ≤ addr) (hhi : addr < b.limit) (byte : UInt8) :
    SlabInv heapVirt { h with mem := h.mem.writeByte addr byte } := by
  refine inv.overwrite hb fun x hx => if_neg ?_
  omega

/-! ### A block given back -/

theorem dealloc (inv : SlabInv heapVirt h) (hpos : 0 < heapVirt)
    (hfit : bumpBase heapVirt < 2 ^ 64) {b : Block} (hb : b ∈ h.live) :
    SlabInv heapVirt
      { allocator := (h.allocator.dealloc h.mem b.ptr).1,
        mem := (h.allocator.dealloc h.mem b.ptr).2, live := h.live.erase b } := by
  have hsub : (h.live.erase b).Sublist h.live := List.erase_sublist
  have hlive : ∀ t : SlabClass, t.owns b.ptr = false →
      (livePtrs (h.live.erase b) t).Perm (livePtrs h.live t) := by
    intro t ht
    have := livePtrs_erase t hb
    rw [livePtrs_cons_of_not_owns ht] at this
    exact this.symm
  unfold SlabAllocator.dealloc
  rcases deallocSlabs_cases h.mem b.ptr h.allocator.slabs with
    ⟨heq, hnone⟩ | ⟨pre, s, post, hsplit, hown, heq⟩
  · -- A block of the bump region: nothing moves.
    rw [heq]
    refine inv.of_sublist rfl rfl rfl hsub fun t ht => ?_
    obtain ⟨free, hfree⟩ := inv.classes t ht
    exact ⟨free, hfree.of_livePtrs (hlive t (hnone t ht))⟩
  · rw [heq]
    have hs : s ∈ h.allocator.slabs := by rw [hsplit]; exact mem_split.mpr (Or.inl rfl)
    have hpool := inv.pool hs
    obtain ⟨free, hfree⟩ := inv.classes s hs
    have hblock := SlabClass.block_le (hfree.live_mem_blocks hb hown)
    have hsize := hpool.eight_le
    refine inv.of_sublist rfl ?_ rfl hsub fun t ht => ?_
    · rw [hsplit]
      exact shape_replace (SlabClass.dealloc_shape s h.mem b.ptr)
    rcases mem_split.mp ht with rfl | htin
    · -- The class that takes the block back.
      refine ⟨b.ptr :: free, hfree.push hb hown hsize ?_ ?_⟩
      · have := hpool.lo
        omega
      · exact hfree.head_lt (by omega) (by have := hpool.hi; omega) (by omega)
    · -- Every other class: the freed block lies outside its pool.
      obtain ⟨ht', hap⟩ := inv.apart hsplit htin
      obtain ⟨free', hfree'⟩ := inv.classes t ht'
      refine ⟨free', (hfree'.frame fun f hf => Mem.readWord_writeWord_ne _ ?_).of_livePtrs
        (hlive t (hap.not_owns hown))⟩
      have hfb := SlabClass.block_le (hfree'.free_mem_blocks hf)
      have := (inv.pool ht').eight_le
      unfold PoolsApart at hap
      omega

/-! ### A block handed out -/

/-- Served by a class: the block popped becomes live in its pool. -/
theorem alloc_slab (inv : SlabInv heapVirt h) {layout : Layout}
    {pre post : List SlabClass} {s : SlabClass} (hsplit : h.allocator.slabs = pre ++ s :: post)
    (hfit : SlabAllocator.fits layout s = true) (hne : s.freeHead ≠ 0) :
    SlabInv heapVirt
      { h with
        allocator := { h.allocator with slabs := pre ++ s.popped h.mem :: post },
        live := ⟨s.freeHead, layout⟩ :: h.live } := by
  have hs : s ∈ h.allocator.slabs := by rw [hsplit]; exact mem_split.mpr (Or.inl rfl)
  obtain ⟨free, hfree⟩ := inv.classes s hs
  obtain ⟨hown, hbelow⟩ := inv.owns_freeHead hs hne
  have hshape : (pre ++ s.popped h.mem :: post).map SlabClass.shape
      = h.allocator.slabs.map SlabClass.shape := by
    rw [hsplit]
    exact shape_replace (SlabClass.popped_shape s h.mem)
  -- The classes the block does not belong to.
  have hother : ∀ t ∈ pre ++ post, t ∈ h.allocator.slabs ∧ t.owns s.freeHead = false := by
    intro t ht
    obtain ⟨ht', hap⟩ := inv.apart hsplit ht
    exact ⟨ht', hap.not_owns hown⟩
  constructor
  case initialized => exact inv.initialized
  case shape => exact hshape.trans inv.shape
  case classes =>
    intro t ht
    rcases mem_split.mp ht with rfl | htin
    · obtain ⟨free', -, hfree'⟩ := hfree.pop (b := ⟨s.freeHead, layout⟩) hne rfl hown
      exact ⟨free', hfree'⟩
    · obtain ⟨ht', hno⟩ := hother t htin
      obtain ⟨free', hfree'⟩ := inv.classes t ht'
      exact ⟨free', hfree'.of_livePtrs (by rw [livePtrs_cons_of_not_owns hno])⟩
  case fits =>
    intro t ht b hb ho
    obtain ⟨u, hu, hut⟩ := exists_same_shape hshape ht
    rw [← fits_congr hut]
    rw [← SlabClass.owns_congr hut] at ho
    rcases List.mem_cons.mp hb with rfl | hb'
    · rw [hsplit] at hu
      rcases mem_split.mp hu with rfl | huin
      · exact hfit
      · rw [(hother u huin).2] at ho
        exact absurd ho (by simp)
    · exact inv.fits u hu b hb' ho
  case owned =>
    intro b hb hlt
    have hold : ∃ u ∈ h.allocator.slabs, u.owns b.ptr = true := by
      rcases List.mem_cons.mp hb with rfl | hb'
      · exact ⟨s, hs, hown⟩
      · exact inv.owned b hb' hlt
    obtain ⟨u, hu, ho⟩ := hold
    obtain ⟨t, ht, htu⟩ := exists_same_shape hshape.symm hu
    exact ⟨t, ht, by rw [SlabClass.owns_congr htu]; exact ho⟩
  case bumpLo => exact inv.bumpLo

/-- Served by the bump region: whatever becomes of its pointer, the block lies above
the pools. -/
theorem alloc_bump (inv : SlabInv heapVirt h) {layout : Layout} {start current : Nat}
    (hstart : alignUp h.allocator.bump.current layout.align = some start)
    (hcurrent : bumpBase heapVirt ≤ current) :
    SlabInv heapVirt
      { h with
        allocator := { h.allocator with bump := { h.allocator.bump with current := current } },
        live := ⟨start, layout⟩ :: h.live } := by
  obtain ⟨-, hge, -⟩ := alignUp_spec layout.align_pow2 hstart
  have hlo := inv.bumpLo
  have hno : ∀ s ∈ h.allocator.slabs, s.owns start = false := by
    intro s hs
    by_contra hc
    rw [Bool.not_eq_false, SlabClass.owns_iff] at hc
    have := (inv.pool hs).hi
    omega
  constructor
  case initialized => exact inv.initialized
  case shape => exact inv.shape
  case classes =>
    intro s hs
    obtain ⟨free, hfree⟩ := inv.classes s hs
    exact ⟨free, hfree.of_livePtrs (by rw [livePtrs_cons_of_not_owns (hno s hs)])⟩
  case fits =>
    intro s hs b hb ho
    rcases List.mem_cons.mp hb with rfl | hb'
    · rw [hno s hs] at ho
      exact absurd ho (by simp)
    · exact inv.fits s hs b hb' ho
  case owned =>
    intro b hb hlt
    rcases List.mem_cons.mp hb with rfl | hb'
    · exact absurd hlt (by show ¬ start < bumpBase heapVirt; omega)
    · exact inv.owned b hb' hlt
  case bumpLo => exact hcurrent

theorem alloc (inv : SlabInv heapVirt h) (hpos : 0 < heapVirt)
    (hfit : bumpBase heapVirt < 2 ^ 64) {layout : Layout} {a : SlabAllocator} {p : Nat}
    (heq : h.allocator.alloc h.mem layout = some (a, p)) :
    SlabInv heapVirt { h with allocator := a, live := Heap.handOut h.live layout p } := by
  rcases SlabAllocator.alloc_cases inv.initialized heq with
    ⟨pre, s, post, hsplit, rfl, hf, rfl, hne, -, -⟩ |
    ⟨-, start, hstart, ⟨-, rfl, rfl⟩ | ⟨-, rfl, rfl⟩⟩
  · simp only [Heap.handOut, if_neg hne]
    exact inv.alloc_slab hsplit hf hne
  · exact inv
  · obtain ⟨-, hge, -⟩ := alignUp_spec layout.align_pow2 hstart
    have hlo := inv.bumpLo
    have hp : p ≠ 0 := by
      have : heapVirt ≤ bumpBase heapVirt := Nat.le_add_right _ _
      omega
    simp only [Heap.handOut, if_neg hp]
    refine inv.alloc_bump hstart (Nat.le_min.mpr ⟨by omega, ?_⟩)
    exact Nat.le_sub_one_of_lt hfit

/-- Every step of the client keeps the classes in order. -/
theorem step {op : HeapOp} (inv : SlabInv heapVirt h) (hpos : 0 < heapVirt)
    (hfit : bumpBase heapVirt < 2 ^ 64) (hstep : HeapStep h op h') : SlabInv heapVirt h' := by
  cases hstep with
  | alloc hsize heq => exact inv.alloc hpos hfit heq
  | dealloc hb => exact inv.dealloc hpos hfit hb
  | write hb hlo hhi => exact inv.write hb hlo hhi _

end SlabInv

/-! ### The heap after `init` -/

namespace SlabClass

/-- The blocks from the `i`th on, `n` of them. -/
def blocksFrom (objSize regionStart i n : Nat) : List Nat :=
  (List.range' i n).map fun j => regionStart + j * objSize

/-- Links that name the next block thread the rest of the pool. -/
theorem threaded_blocksFrom {m : Mem} {objSize regionStart count : Nat} (hpos : 0 < regionStart)
    (hlink : ∀ i, i < count →
      m.readWord (regionStart + i * objSize) = nextLink objSize regionStart count i) :
    ∀ n i, i + (n + 1) = count →
      Threaded m (regionStart + i * objSize) (blocksFrom objSize regionStart i (n + 1)) := by
  intro n
  induction n with
  | zero =>
      intro i hi
      have hne : regionStart + i * objSize ≠ 0 := by omega
      refine ⟨rfl, hne, ?_⟩
      rw [hlink i (by omega), nextLink, if_neg (by omega)]
      rfl
  | succ n ih =>
      intro i hi
      have hne : regionStart + i * objSize ≠ 0 := by omega
      refine ⟨rfl, hne, ?_⟩
      rw [hlink i (by omega), nextLink, if_pos (by omega)]
      exact ih (i + 1) (by omega)

/-- The threading loop of `init`, after `n` blocks. -/
def thread (objSize regionStart count : Nat) (m : Mem) (n : Nat) : Mem :=
  (List.range n).foldl (fun m i => m.writeWord (regionStart + i * objSize)
    (nextLink objSize regionStart count i)) m

theorem init_mem (s : SlabClass) (m : Mem) (regionStart count : Nat) :
    (s.init m regionStart count).2 = thread s.objSize regionStart count m count := rfl

theorem thread_succ (objSize regionStart count : Nat) (m : Mem) (n : Nat) :
    thread objSize regionStart count m (n + 1)
      = (thread objSize regionStart count m n).writeWord (regionStart + n * objSize)
          (nextLink objSize regionStart count n) := by
  simp [thread, List.range_succ]

/-- The loop writes inside the pool only. -/
theorem thread_frame {objSize regionStart count : Nat} {m : Mem} (hsize : 8 ≤ objSize) {a : Nat} :
    ∀ n, (a + 8 ≤ regionStart ∨ regionStart + n * objSize ≤ a) →
      (thread objSize regionStart count m n).readWord a = m.readWord a := by
  intro n
  induction n with
  | zero => intro _; rfl
  | succ n ih =>
      intro h
      rw [Nat.succ_mul] at h
      rw [thread_succ, Mem.readWord_writeWord_ne _ (by omega), ih (by omega)]

theorem nextLink_lt {objSize regionStart count i : Nat}
    (hfit : regionStart + count * objSize < 2 ^ 64) (hi : i < count) :
    nextLink objSize regionStart count i < 2 ^ 64 := by
  unfold nextLink
  split
  · have : (i + 1) * objSize ≤ count * objSize := Nat.mul_le_mul_right _ hi
    omega
  · omega

/-- Each block visited so far holds its link: later writes go to later blocks. -/
theorem thread_link {objSize regionStart count : Nat} {m : Mem} (hsize : 8 ≤ objSize)
    (hfit : regionStart + count * objSize < 2 ^ 64) :
    ∀ n, n ≤ count → ∀ i, i < n →
      (thread objSize regionStart count m n).readWord (regionStart + i * objSize)
        = nextLink objSize regionStart count i := by
  intro n
  induction n with
  | zero => intro _ i hi; omega
  | succ n ih =>
      intro hn i hi
      rw [thread_succ]
      rcases Nat.lt_or_ge i n with hin | hin
      · have : (i + 1) * objSize ≤ n * objSize := Nat.mul_le_mul_right _ hin
        rw [Nat.succ_mul] at this
        rw [Mem.readWord_writeWord_ne _ (by omega)]
        exact ih (by omega) i hin
      · rw [show i = n by omega]
        exact Mem.readWord_writeWord_self _ _ (nextLink_lt hfit (by omega))

/-- A class just initialised has every block on its list. -/
theorem init_freeList {s : SlabClass} {m m' : Mem} {regionStart count : Nat}
    (hsize : 8 ≤ s.objSize) (hpos : 0 < regionStart) (hcount : 0 < count)
    (hfit : regionStart + count * s.objSize < 2 ^ 64)
    (hm : ∀ a, regionStart ≤ a → a + 8 ≤ regionStart + count * s.objSize →
      m'.readWord a = (s.init m regionStart count).2.readWord a) :
    ∃ free, FreeList m' [] (s.init m regionStart count).1 free := by
  refine ⟨blocksFrom s.objSize regionStart 0 count, ?_, ?_, ?_⟩
  · obtain ⟨n, rfl⟩ : ∃ n, count = n + 1 := ⟨count - 1, by omega⟩
    have h := @threaded_blocksFrom m' s.objSize regionStart (n + 1) hpos ?_ n 0
      (by omega)
    · rw [Nat.zero_mul, Nat.add_zero] at h
      exact h
    · intro i hi
      have : (i + 1) * s.objSize ≤ (n + 1) * s.objSize := Nat.mul_le_mul_right _ hi
      rw [Nat.succ_mul i] at this
      rw [hm _ (by omega) (by omega)]
      exact thread_link hsize hfit (n + 1) (Nat.le_refl _) i hi
  · simp [SlabClass.init, blocksFrom]
  · simp [livePtrs, blocks, SlabClass.init, blocksFrom, List.range_eq_range']

end SlabClass

theorem initSlabs_cons (heapVirt : Nat) (s : SlabClass) (size : Nat)
    (rest : List (SlabClass × Nat)) (offset : Nat) (m : Mem) :
    initSlabs heapVirt ((s, size) :: rest) offset m
      = ((s.init m (heapVirt + offset) objectsPerClass).1
          :: (initSlabs heapVirt rest (offset + size * objectsPerClass)
              (s.init m (heapVirt + offset) objectsPerClass).2).1,
        (initSlabs heapVirt rest (offset + size * objectsPerClass)
          (s.init m (heapVirt + offset) objectsPerClass).2).2) := by
  simp only [initSlabs]

/-- Bytes taken by the pools of a list of classes. -/
def poolBytes : List (SlabClass × Nat) → Nat
  | [] => 0
  | (_, size) :: rest => size * objectsPerClass + poolBytes rest

/-- The loop of `SlabAllocator::init` leaves every class with a full list, and
touches nothing below the first pool it sets up. -/
theorem initSlabs_freeLists {heapVirt : Nat} (hpos : 0 < heapVirt) :
    ∀ (pairs : List (SlabClass × Nat)) (offset : Nat) (m : Mem),
      (∀ e ∈ pairs, e.2 = e.1.objSize ∧ 8 ≤ e.1.objSize) →
      heapVirt + offset + poolBytes pairs < 2 ^ 64 →
      (∀ s ∈ (initSlabs heapVirt pairs offset m).1,
        ∃ free, FreeList (initSlabs heapVirt pairs offset m).2.2 [] s free) ∧
      ∀ a, a + 8 ≤ heapVirt + offset →
        (initSlabs heapVirt pairs offset m).2.2.readWord a = m.readWord a := by
  intro pairs
  induction pairs with
  | nil => intro offset m _ _; exact ⟨by simp [initSlabs], fun a _ => rfl⟩
  | cons e rest ih =>
      obtain ⟨s, size⟩ := e
      intro offset m hsizes hfit
      obtain ⟨hsz, h8⟩ := hsizes (s, size) (by simp)
      simp only at hsz h8
      have hbytes : poolBytes ((s, size) :: rest) = size * objectsPerClass + poolBytes rest := rfl
      have hcomm : size * objectsPerClass = objectsPerClass * s.objSize := by
        rw [hsz, Nat.mul_comm]
      have hobj : 0 < objectsPerClass := by decide
      rw [initSlabs_cons]
      obtain ⟨hlists, hframe⟩ := ih (offset + size * objectsPerClass)
        (s.init m (heapVirt + offset) objectsPerClass).2
        (fun e he => hsizes e (List.mem_cons_of_mem _ he)) (by omega)
      have hbelow : ∀ a, a + 8 ≤ heapVirt + offset →
          (s.init m (heapVirt + offset) objectsPerClass).2.readWord a = m.readWord a := by
        intro a ha
        rw [SlabClass.init_mem]
        exact SlabClass.thread_frame h8 objectsPerClass (Or.inl ha)
      have hinit := fun m' => @SlabClass.init_freeList s m m'
        (heapVirt + offset) objectsPerClass h8 (by omega) hobj (by omega)
      generalize s.init m (heapVirt + offset) objectsPerClass = sm at *
      generalize initSlabs heapVirt rest (offset + size * objectsPerClass) sm.2 = r at *
      refine ⟨fun t ht => ?_, fun a ha => ?_⟩
      · rcases List.mem_cons.mp ht with rfl | ht'
        · -- The rest of the loop writes above this pool.
          exact hinit r.2.2 fun a _ hhi => hframe a (by omega)
        · exact hlists t ht'
      · exact (hframe a (by omega)).trans (hbelow a ha)

theorem init_slabs (a : SlabAllocator) (m : Mem) (heapVirt heapSize : Nat) :
    (a.init m heapVirt heapSize).1.slabs
      = (initSlabs heapVirt (a.slabs.zip slabSizes) 0 m).1 := rfl

theorem init_memory (a : SlabAllocator) (m : Mem) (heapVirt heapSize : Nat) :
    (a.init m heapVirt heapSize).2
      = (initSlabs heapVirt (a.slabs.zip slabSizes) 0 m).2.2 := rfl

theorem boot_current (m : Mem) (heapVirt heapSize : Nat) :
    (Heap.boot m heapVirt heapSize).allocator.bump.current = bumpBase heapVirt := by
  have hbase : bumpBase heapVirt = heapVirt + 258048 := rfl
  rw [hbase]
  simp [Heap.boot, SlabAllocator.init, SlabAllocator.new, slabSizes, initSlabs, objectsPerClass]

/-- `init` establishes the invariant, whatever the memory held before. -/
theorem boot_slabInv (m : Mem) (heapVirt heapSize : Nat) (hpos : 0 < heapVirt)
    (hfit : bumpBase heapVirt < 2 ^ 64) : SlabInv heapVirt (Heap.boot m heapVirt heapSize) := by
  have hpool : poolBytes (SlabAllocator.new.slabs.zip slabSizes) = 258048 := rfl
  have hbase : bumpBase heapVirt = heapVirt + 258048 := rfl
  have hlists := initSlabs_freeLists hpos (SlabAllocator.new.slabs.zip slabSizes) 0 m
    (by simp [SlabAllocator.new, slabSizes, SlabClass.new]) (by omega)
  rw [← init_slabs _ _ _ heapSize, ← init_memory _ _ _ heapSize] at hlists
  constructor
  case initialized => rfl
  case shape => rfl
  case classes =>
    simp only [Heap.boot]
    exact hlists.1
  case fits => intro _ _ b hb; exact absurd hb (List.not_mem_nil)
  case owned => intro b hb; exact absurd hb (List.not_mem_nil)
  case bumpLo => rw [boot_current]

end Amaterasu
