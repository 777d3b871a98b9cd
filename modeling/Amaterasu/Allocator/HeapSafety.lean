/-
Every live block is where its owner thinks it is, over whole runs.

One lemma per step of the client — a request served by a class, a request served
by the bump region, a block freed, a byte written — says that the step keeps
`HeapInv`, and `HeapInv.safe` reads the four properties off the invariant.

One request gets past this.  `Bump::alloc` clamps `start + size` with
`saturating_add` and compares the clamped sum with the end of the heap; when the
heap ends at the last address of all, a sum that overflows is clamped to exactly
that end and passes.  `SaturatesPastEnd` is that request, and `heap_safe_iff` says
it is the only way a run goes wrong.
-/
import Mathlib.Data.List.Pairwise
import Amaterasu.Allocator.Slabs

namespace Amaterasu

open SlabAllocator

/-- What a client relies on in one state of the heap. -/
structure HeapSafe (heapVirt heapSize : Nat) (h : Heap) : Prop where
  aligned : ∀ b ∈ h.live, b.layout.align ∣ b.ptr
  inside : ∀ b ∈ h.live, heapVirt ≤ b.ptr ∧ b.limit ≤ heapVirt + heapSize
  apart : h.live.Pairwise Block.Apart
  /-- Every free list ends, and no live block overlaps a block on it. -/
  free : ∀ s ∈ h.allocator.slabs, ∃ free, Threaded h.mem s.freeHead free ∧
    ∀ f ∈ free, ∀ b ∈ h.live, b.limit ≤ f ∨ f + s.objSize ≤ b.ptr

/-- The request no class serves whose size runs past the last address, on a heap
that ends at the last address. -/
def HeapOp.SaturatesPastEnd (h : Heap) : HeapOp → Prop
  | .alloc layout =>
      (∀ s ∈ h.allocator.slabs, fits layout s = true → s.freeHead = 0) ∧
      h.allocator.bump.end_ = usizeMax ∧
      ∃ start, alignUp h.allocator.bump.current layout.align = some start ∧
        usizeMax < start + layout.size
  | _ => False

namespace HeapInv

variable {heapVirt heapSize : Nat} {h h' : Heap}

theorem slabInv (inv : HeapInv heapVirt heapSize h) : SlabInv heapVirt h :=
  ⟨inv.initialized, inv.shape, inv.classes, inv.fits, inv.owned, inv.bumpLo⟩

theorem pool (inv : HeapInv heapVirt heapSize h) {s : SlabClass}
    (hs : s ∈ h.allocator.slabs) : Pool heapVirt s := inv.slabInv.pool hs

theorem base_le_end (inv : HeapInv heapVirt heapSize h) :
    bumpBase heapVirt ≤ heapVirt + heapSize := by
  have := inv.bumpLo
  have := inv.bumpHi
  have := inv.bumpEnd
  omega

/-- The classes in order, and a bump region. -/
theorem of_bump (hslabs : SlabInv heapVirt h)
    (hend : h.allocator.bump.end_ = heapVirt + heapSize)
    (hhi : h.allocator.bump.current ≤ h.allocator.bump.end_)
    (hblock : ∀ b ∈ h.live, bumpBase heapVirt ≤ b.ptr →
      b.layout.align ∣ b.ptr ∧ b.limit ≤ h.allocator.bump.current)
    (hapart : h.live.Pairwise fun b c =>
      bumpBase heapVirt ≤ b.ptr → bumpBase heapVirt ≤ c.ptr → b.Apart c) :
    HeapInv heapVirt heapSize h where
  initialized := hslabs.initialized
  shape := hslabs.shape
  classes := hslabs.classes
  fits := hslabs.fits
  owned := hslabs.owned
  bumpEnd := hend
  bumpLo := hslabs.bumpLo
  bumpHi := hhi
  bumpBlock := hblock
  bumpApart := hapart

/-- The classes in order, and behind them no new blocks in the bump region. -/
theorem of_slabInv (inv : HeapInv heapVirt heapSize h) (hslabs : SlabInv heapVirt h')
    (hbump : h'.allocator.bump = h.allocator.bump)
    (hlive : ∀ b ∈ h'.live, bumpBase heapVirt ≤ b.ptr → b ∈ h.live)
    (hapart : h'.live.Pairwise fun b c =>
      bumpBase heapVirt ≤ b.ptr → bumpBase heapVirt ≤ c.ptr → b.Apart c) :
    HeapInv heapVirt heapSize h' := by
  refine of_bump hslabs ?_ ?_ ?_ hapart
  · rw [hbump]
    exact inv.bumpEnd
  · rw [hbump]
    exact inv.bumpHi
  · intro b hb hge
    rw [hbump]
    exact inv.bumpBlock b (hlive b hb hge) hge

theorem overwrite (inv : HeapInv heapVirt heapSize h) {b : Block} (hb : b ∈ h.live) {m : Mem}
    (hm : ∀ x, x < b.ptr ∨ b.limit ≤ x → m x = h.mem x) :
    HeapInv heapVirt heapSize { h with mem := m } :=
  inv.of_slabInv (inv.slabInv.overwrite hb hm) rfl (fun _ hc _ => hc) inv.bumpApart

theorem write (inv : HeapInv heapVirt heapSize h) {b : Block} (hb : b ∈ h.live) {addr : Nat}
    (hlo : b.ptr ≤ addr) (hhi : addr < b.limit) (byte : UInt8) :
    HeapInv heapVirt heapSize { h with mem := h.mem.writeByte addr byte } := by
  refine inv.overwrite hb fun x hx => if_neg ?_
  omega

theorem dealloc (inv : HeapInv heapVirt heapSize h) (hpos : 0 < heapVirt)
    (hfit : heapVirt + heapSize < 2 ^ 64) {b : Block} (hb : b ∈ h.live) :
    HeapInv heapVirt heapSize
      { allocator := (h.allocator.dealloc h.mem b.ptr).1,
        mem := (h.allocator.dealloc h.mem b.ptr).2, live := h.live.erase b } := by
  have hbase := inv.base_le_end
  exact inv.of_slabInv (inv.slabInv.dealloc hpos (by omega) hb) rfl
    (fun c hc _ => List.mem_of_mem_erase hc) (inv.bumpApart.sublist List.erase_sublist)

/-- Served by a class: the block popped becomes live in its pool. -/
theorem alloc_slab (inv : HeapInv heapVirt heapSize h) {layout : Layout}
    {pre post : List SlabClass} {s : SlabClass} (hsplit : h.allocator.slabs = pre ++ s :: post)
    (hfit : SlabAllocator.fits layout s = true) (hne : s.freeHead ≠ 0) :
    HeapInv heapVirt heapSize
      { h with
        allocator := { h.allocator with slabs := pre ++ s.popped h.mem :: post },
        live := ⟨s.freeHead, layout⟩ :: h.live } := by
  have hs : s ∈ h.allocator.slabs := by rw [hsplit]; exact mem_split.mpr (Or.inl rfl)
  have hbelow := (inv.slabInv.owns_freeHead hs hne).2
  refine inv.of_slabInv (inv.slabInv.alloc_slab hsplit hfit hne) rfl ?_ ?_
  · intro b hb hge
    rcases List.mem_cons.mp hb with rfl | hb'
    · exact absurd hge (Nat.not_le.mpr hbelow)
    · exact hb'
  · refine List.pairwise_cons.mpr ⟨fun c _ hge => ?_, inv.bumpApart⟩
    exact absurd hge (Nat.not_le.mpr hbelow)

/-- Served by the bump region, the sum not clamped: the block lies between the old
pointer and the new one. -/
theorem alloc_bump (inv : HeapInv heapVirt heapSize h) {layout : Layout} {start : Nat}
    (hstart : alignUp h.allocator.bump.current layout.align = some start)
    (hend : start + layout.size ≤ h.allocator.bump.end_) :
    HeapInv heapVirt heapSize
      { h with
        allocator := { h.allocator with
          bump := { h.allocator.bump with current := start + layout.size } },
        live := ⟨start, layout⟩ :: h.live } := by
  obtain ⟨hdvd, hge, -⟩ := alignUp_spec layout.align_pow2 hstart
  have hlo := inv.bumpLo
  have hslabs : SlabInv heapVirt
      { h with
        allocator := { h.allocator with
          bump := { h.allocator.bump with current := start + layout.size } },
        live := ⟨start, layout⟩ :: h.live } := inv.slabInv.alloc_bump hstart (by omega)
  refine of_bump hslabs inv.bumpEnd hend ?_ ?_
  · intro b hb hb0
    rcases List.mem_cons.mp hb with rfl | hb'
    · exact ⟨hdvd, Nat.le_refl _⟩
    · obtain ⟨ha, hl⟩ := inv.bumpBlock b hb' hb0
      refine ⟨ha, ?_⟩
      show b.limit ≤ start + layout.size
      omega
  · refine List.pairwise_cons.mpr ⟨fun c hc _ hc0 => ?_, inv.bumpApart⟩
    -- Every earlier block of the region ends at or below the old pointer.
    exact Or.inr (Nat.le_trans (inv.bumpBlock c hc hc0).2 hge)

theorem alloc (inv : HeapInv heapVirt heapSize h) (hpos : 0 < heapVirt)
    (hfit : heapVirt + heapSize < 2 ^ 64) {layout : Layout} {a : SlabAllocator} {p : Nat}
    (heq : h.allocator.alloc h.mem layout = some (a, p))
    (hok : ¬ (HeapOp.alloc layout).SaturatesPastEnd h) :
    HeapInv heapVirt heapSize
      { h with allocator := a, live := Heap.handOut h.live layout p } := by
  rcases SlabAllocator.alloc_cases inv.initialized heq with
    ⟨pre, s, post, hsplit, rfl, hf, rfl, hne, -, -⟩ |
    ⟨hempty, start, hstart, ⟨-, rfl, rfl⟩ | ⟨hle, rfl, rfl⟩⟩
  · simp only [Heap.handOut, if_neg hne]
    exact inv.alloc_slab hsplit hf hne
  · exact inv
  · obtain ⟨-, hge, -⟩ := alignUp_spec layout.align_pow2 hstart
    have hlo := inv.bumpLo
    have hend := inv.bumpEnd
    have hmax : usizeMax = 2 ^ 64 - 1 := rfl
    -- A sum past the last address would have been clamped to the end of the heap.
    have hsum : p + layout.size ≤ usizeMax := by
      by_contra hc
      refine hok ⟨hempty, ?_, p, hstart, by omega⟩
      rw [Nat.min_eq_right (by omega)] at hle
      omega
    rw [Nat.min_eq_left hsum] at hle ⊢
    have hp : p ≠ 0 := by
      have : heapVirt ≤ bumpBase heapVirt := Nat.le_add_right _ _
      omega
    simp only [Heap.handOut, if_neg hp]
    exact inv.alloc_bump hstart hle

/-- Under the invariant the only panic left in `alloc` is the sum in `align_up`, on
a request that no class serves. -/
theorem alloc_eq_none (inv : HeapInv heapVirt heapSize h) {layout : Layout}
    (hnone : h.allocator.alloc h.mem layout = none) :
    (∀ s ∈ h.allocator.slabs, SlabAllocator.fits layout s = true → s.freeHead = 0) ∧
      2 ^ 64 ≤ h.allocator.bump.current + layout.align := by
  rcases SlabAllocator.alloc_eq_none hnone with ⟨s, hs, hne, hzero⟩ | hsum
  · exact absurd (SlabClass.alloc_eq_none.mpr ⟨hne, hzero⟩) (inv.slabInv.alloc_ne_none hs)
  · exact hsum

/-! ### What the invariant says to the client -/

/-- A live block below the bump region is a block of a pool, no larger than the
class's object size. -/
theorem pool_block (inv : HeapInv heapVirt heapSize h) {b : Block} (hb : b ∈ h.live)
    (hlt : b.ptr < bumpBase heapVirt) :
    ∃ s ∈ h.allocator.slabs, s.owns b.ptr = true ∧ b.ptr ∈ s.blocks ∧
      b.layout.align ≤ s.objSize ∧ b.limit ≤ b.ptr + s.objSize ∧
      b.limit ≤ s.regionStart + s.total * s.objSize := by
  obtain ⟨s, hs, ho⟩ := inv.owned b hb hlt
  obtain ⟨free, hfree⟩ := inv.classes s hs
  have hfit := fits_iff.mp (inv.fits s hs b hb ho)
  have hblock := hfree.live_mem_blocks hb ho
  have hlim : b.limit ≤ b.ptr + s.objSize := Nat.add_le_add_left hfit.1 _
  have := SlabClass.block_le hblock
  exact ⟨s, hs, ho, hblock, hfit.2, hlim, by omega⟩

/-- No pointer of a pool is live twice. -/
theorem live_ptrs_ne (inv : HeapInv heapVirt heapSize h) {s : SlabClass}
    (hs : s ∈ h.allocator.slabs) :
    h.live.Pairwise fun b c => s.owns b.ptr = true → s.owns c.ptr = true → b.ptr ≠ c.ptr := by
  obtain ⟨free, hfree⟩ := inv.classes s hs
  have hsize : 0 < s.objSize := by
    have := (inv.pool hs).eight_le
    omega
  have hnodup : (livePtrs h.live s).Nodup :=
    (hfree.perm.nodup_iff.mpr (SlabClass.blocks_nodup hsize)).of_append_right
  exact List.pairwise_map.mp (List.pairwise_filter.mp hnodup)

theorem live_apart (inv : HeapInv heapVirt heapSize h) : h.live.Pairwise Block.Apart := by
  rw [List.pairwise_iff_getElem]
  intro i j hi hj hij
  have hbump := List.pairwise_iff_getElem.mp inv.bumpApart i j hi hj hij
  have hptrs := fun s hs =>
    List.pairwise_iff_getElem.mp (inv.live_ptrs_ne (s := s) hs) i j hi hj hij
  have hb := List.getElem_mem hi
  have hc := List.getElem_mem hj
  generalize h.live[i] = b at *
  generalize h.live[j] = c at *
  unfold Block.Apart at *
  rcases Nat.lt_or_ge b.ptr (bumpBase heapVirt) with hbl | hbg <;>
    rcases Nat.lt_or_ge c.ptr (bumpBase heapVirt) with hcl | hcg
  · obtain ⟨s, hs, hso, hsb, -, hlim, hregion⟩ := inv.pool_block hb hbl
    obtain ⟨t, ht, hto, htb, -, hlim', hregion'⟩ := inv.pool_block hc hcl
    obtain ⟨pre, post, hsplit⟩ := List.append_of_mem hs
    rw [hsplit] at ht
    rcases mem_split.mp ht with rfl | htin
    · -- Two blocks of one pool.
      have := SlabClass.blocks_apart hsb htb (hptrs t hs hso hto)
      omega
    · -- Blocks of two pools.
      have hpw := pools_apart inv.shape
      rw [hsplit] at hpw
      have hap := apart_of_split hpw htin
      have := SlabClass.block_le hsb
      have := SlabClass.block_le htb
      unfold PoolsApart at hap
      omega
  · obtain ⟨s, hs, -, -, -, -, hregion⟩ := inv.pool_block hb hbl
    have := (inv.pool hs).hi
    omega
  · obtain ⟨s, hs, -, -, -, -, hregion⟩ := inv.pool_block hc hcl
    have := (inv.pool hs).hi
    omega
  · exact hbump hbg hcg

/-- Two live blocks. -/
theorem apart_of_ne (inv : HeapInv heapVirt heapSize h) {b c : Block} (hb : b ∈ h.live)
    (hc : c ∈ h.live) (hne : b ≠ c) : b.Apart c := by
  have : Std.Symm Block.Apart := ⟨fun _ _ hap => Or.symm hap⟩
  exact inv.live_apart.forall hb hc hne

theorem safe (inv : HeapInv heapVirt heapSize h) (hv : 4096 ∣ heapVirt) :
    HeapSafe heapVirt heapSize h where
  aligned := by
    intro b hb
    rcases Nat.lt_or_ge b.ptr (bumpBase heapVirt) with hlt | hge
    · obtain ⟨s, hs, -, hblock, halign, -, -⟩ := inv.pool_block hb hlt
      have hpool := inv.pool hs
      exact (hpool.align_dvd b.layout.align_pow2 halign).trans (hpool.block_aligned hv hblock)
    · exact (inv.bumpBlock b hb hge).1
  inside := by
    intro b hb
    have hbase := inv.base_le_end
    rcases Nat.lt_or_ge b.ptr (bumpBase heapVirt) with hlt | hge
    · obtain ⟨s, hs, -, hblock, -, -, hregion⟩ := inv.pool_block hb hlt
      have := SlabClass.block_le hblock
      have := (inv.pool hs).lo
      have := (inv.pool hs).hi
      omega
    · have := (inv.bumpBlock b hb hge).2
      have := inv.bumpHi
      have := inv.bumpEnd
      exact ⟨Nat.le_trans (Nat.le_add_right _ _) hge, by omega⟩
  apart := inv.live_apart
  free := by
    intro s hs
    obtain ⟨free, hfree⟩ := inv.classes s hs
    exact ⟨free, hfree.threaded, fun f hf b hb => inv.slabInv.live_apart_free hs hfree hf hb⟩

end HeapInv

/-- `init` establishes the invariant, whatever the memory held before. -/
theorem boot_inv (m : Mem) (heapVirt heapSize : Nat) (hpos : 0 < heapVirt)
    (hsize : slabRegionBytes ≤ heapSize) (hfit : heapVirt + heapSize < 2 ^ 64) :
    HeapInv heapVirt heapSize (Heap.boot m heapVirt heapSize) := by
  have hbase : bumpBase heapVirt ≤ heapVirt + heapSize := Nat.add_le_add_left hsize _
  have hslabs := boot_slabInv m heapVirt heapSize hpos (by omega)
  have hend : (Heap.boot m heapVirt heapSize).allocator.bump.end_ = heapVirt + heapSize := rfl
  refine HeapInv.of_bump hslabs hend ?_ ?_ List.Pairwise.nil
  · rw [boot_current, hend]
    exact hbase
  · intro b hb
    exact absurd hb List.not_mem_nil

/-! ### Runs -/

variable {heapVirt heapSize : Nat}

/-- A step of the client that does not saturate keeps the invariant. -/
theorem HeapInv.step {h h' : Heap} {op : HeapOp} (hpos : 0 < heapVirt)
    (hfit : heapVirt + heapSize < 2 ^ 64) (inv : HeapInv heapVirt heapSize h)
    (hok : ¬ op.SaturatesPastEnd h) (hstep : HeapStep h op h') :
    HeapInv heapVirt heapSize h' := by
  cases hstep with
  | alloc hsize heq => exact inv.alloc hpos hfit heq hok
  | dealloc hb => exact inv.dealloc hpos hfit hb
  | write hb hlo hhi => exact inv.write hb hlo hhi _

/-- A request whose `align_up` sum fits is answered: nothing else in it can panic. -/
theorem HeapInv.exists_alloc {h : Heap} (inv : HeapInv heapVirt heapSize h) (layout : Layout)
    (hsize : 1 ≤ layout.size) (hsum : h.allocator.bump.current + layout.align < 2 ^ 64) :
    ∃ h', HeapStep h (.alloc layout) h' := by
  cases heq : h.allocator.alloc h.mem layout with
  | none => exact absurd (inv.alloc_eq_none heq).2 (Nat.not_le.mpr hsum)
  | some r => exact ⟨_, HeapStep.alloc hsize heq⟩

/-- A request that saturates is given a block past the end of the heap. -/
theorem HeapInv.step_unsafe {h h' : Heap} {op : HeapOp}
    (inv : HeapInv heapVirt heapSize h) (hpos : 0 < heapVirt)
    (hsat : op.SaturatesPastEnd h) (hstep : HeapStep h op h') :
    ¬ HeapSafe heapVirt heapSize h' := by
  cases hstep with
  | dealloc hb => exact absurd hsat id
  | write hb hlo hhi => exact absurd hsat id
  | @alloc layout a p hsize heq =>
      obtain ⟨hempty, hmax, start, hstart, hover⟩ := hsat
      have hlo := inv.bumpLo
      have hbase : heapVirt ≤ bumpBase heapVirt := Nat.le_add_right _ _
      obtain ⟨-, hge, -⟩ := alignUp_spec layout.align_pow2 hstart
      intro hsafe
      rcases SlabAllocator.alloc_cases inv.initialized heq with
        ⟨pre, s, post, hsplit, -, hf, rfl, hne, -, -⟩ |
        ⟨-, start', hstart', ⟨hgt, -, -⟩ | ⟨-, rfl, -⟩⟩
      · exact hne (hempty s (by rw [hsplit]; exact mem_split.mpr (Or.inl rfl)) hf)
      · have : min (start' + layout.size) usizeMax ≤ usizeMax := Nat.min_le_right _ _
        omega
      · obtain rfl : start = p := by
          rw [hstart] at hstart'
          exact Option.some.inj hstart'
        have hp : start ≠ 0 := by omega
        have hlive : (⟨start, layout⟩ : Block) ∈ Heap.handOut h.live layout start := by
          simp [Heap.handOut, hp]
        have hin := (hsafe.inside ⟨start, layout⟩ hlive).2
        have hend := inv.bumpEnd
        have hlim : (⟨start, layout⟩ : Block).limit = start + layout.size := rfl
        omega

/--
**A run of the heap is safe exactly when no request in it saturates.**  Every block
is then aligned, inside the heap, and apart from every other live block and from
every block on a free list, whatever was exhausted and fallen through on the way.
-/
theorem heap_safe_iff {m : Mem} {trace : List (Heap × HeapOp)} {h : Heap}
    (hpos : heapVirt ≠ 0) (halign : 4096 ∣ heapVirt) (hsize : slabRegionBytes ≤ heapSize)
    (hfit : heapVirt + heapSize < 2 ^ 64)
    (hrun : Run HeapStep (Heap.boot m heapVirt heapSize) trace h) :
    (∀ t ∈ visited trace h, HeapSafe heapVirt heapSize t) ↔
      ∀ e ∈ trace, ¬ e.2.SaturatesPastEnd e.1 := by
  have hpos' : 0 < heapVirt := Nat.pos_of_ne_zero hpos
  refine Run.good_iff (I := HeapInv heapVirt heapSize)
    (K := fun h op => ¬ HeapOp.SaturatesPastEnd h op)
    (boot_inv m heapVirt heapSize hpos' hsize hfit) (fun s hs => hs.safe halign) ?_ ?_ hrun
  · exact fun s op s' inv hok hstep => inv.step hpos' hfit hok hstep
  · exact fun s op s' inv hsat hstep => inv.step_unsafe hpos' (by simpa using hsat) hstep

/-- A mebibyte, byte aligned: more than any class holds. -/
def mebibyte : Layout := ⟨2 ^ 20, 1, ⟨0, rfl⟩, by decide⟩

/-- Two words, which a class holds. -/
def twoWords : Layout := ⟨16, 4, ⟨2, rfl⟩, by decide⟩

/-- A page, which none does. -/
def page : Layout := ⟨4096, 4096, ⟨12, rfl⟩, by decide⟩

/-- A block of a class and a block of the bump region; the first is written to, given back and
handed out again, and all the time the heap is safe. -/
theorem heap_safe_iff_ordinary :
    ∃ trace h, trace.map Prod.snd = [.alloc twoWords, .alloc page, .write 0x101008 0xFF,
        .dealloc ⟨0x101000, twoWords⟩, .alloc twoWords, .alloc mebibyte] ∧
      Run HeapStep (Heap.boot (fun _ => 0) (2 ^ 20) (2 ^ 20)) trace h ∧
      h.live = [⟨0x101000, twoWords⟩, ⟨0x13F000, page⟩] ∧
      (∀ e ∈ trace, ¬ e.2.SaturatesPastEnd e.1) ∧
      ∀ t ∈ visited trace h, HeapSafe (2 ^ 20) (2 ^ 20) t := by
  have hpool : HeapStep (Heap.boot (fun _ => 0) (2 ^ 20) (2 ^ 20)) (.alloc twoWords) _ :=
    HeapStep.alloc (p := 0x101000) (by decide) rfl
  have hpage := (Run.nil.snoc hpool).snoc (a := .alloc page)
    (HeapStep.alloc (p := 0x13F000) (by decide) rfl)
  have hwrite := hpage.snoc (a := .write 0x101008 0xFF)
    (HeapStep.write (b := ⟨0x101000, twoWords⟩)
      (List.mem_cons_of_mem _ (List.mem_singleton.mpr rfl)) (by decide) (by decide))
  have hback := hwrite.snoc (a := .dealloc ⟨0x101000, twoWords⟩)
    (HeapStep.dealloc (List.mem_cons_of_mem _ (List.mem_singleton.mpr rfl)))
  have hagain := hback.snoc (a := .alloc twoWords)
    (HeapStep.alloc (p := 0x101000) (by decide) rfl)
  have hrun := hagain.snoc (a := .alloc mebibyte) (HeapStep.alloc (p := 0) (by decide) rfl)
  refine ⟨_, _, rfl, hrun, rfl, ?_⟩
  rw [heap_safe_iff (by decide) (by decide) (by decide) (by decide) hrun, and_self]
  intro e he
  simp only [List.nil_append, List.cons_append, List.mem_cons, List.not_mem_nil, or_false] at he
  -- The heap ends at 2 MiB.
  rcases he with rfl | rfl | rfl | rfl | rfl | rfl
  · exact fun hsat => absurd hsat.2.1 (by decide)
  · exact fun hsat => absurd hsat.2.1 (by decide)
  · exact id
  · exact id
  · exact fun hsat => absurd hsat.2.1 (by decide)
  · exact fun hsat => absurd hsat.2.1 (by decide)

/-- A heap of one byte less than a mebibyte, at the top of the address space: the
first request for a whole mebibyte is granted, and the block runs past the end. -/
theorem heap_unsafe_at_last_address :
    ∃ trace h,
      Run HeapStep (Heap.boot (fun _ => 0) (2 ^ 64 - 2 ^ 20) (2 ^ 20 - 1)) trace h ∧
      2 ^ 64 - 2 ^ 20 ≠ 0 ∧ 4096 ∣ 2 ^ 64 - 2 ^ 20 ∧ slabRegionBytes ≤ 2 ^ 20 - 1 ∧
      2 ^ 64 - 2 ^ 20 + (2 ^ 20 - 1) < 2 ^ 64 ∧
      ¬ HeapSafe (2 ^ 64 - 2 ^ 20) (2 ^ 20 - 1) h := by
  have inv := boot_inv (fun _ => 0) (2 ^ 64 - 2 ^ 20) (2 ^ 20 - 1)
    (by decide) (by decide) (by decide)
  obtain ⟨h', hstep⟩ := inv.exists_alloc mebibyte (by decide) (by decide)
  have hsat : (HeapOp.alloc mebibyte).SaturatesPastEnd
      (Heap.boot (fun _ => 0) (2 ^ 64 - 2 ^ 20) (2 ^ 20 - 1)) := by
    refine ⟨fun s hs hf => ?_, by decide, 2 ^ 64 - 2 ^ 20 + 258048, by decide, by decide⟩
    -- No class holds a mebibyte.
    obtain ⟨k, -, hk, hobj⟩ := (inv.pool hs).size
    have hle : 2 ^ k ≤ 2 ^ 8 := Nat.pow_le_pow_right (by omega) hk
    have hsize : 2 ^ 20 ≤ s.objSize := (fits_iff.mp hf).1
    omega
  exact ⟨_, h', Run.nil.snoc hstep, by decide, by decide, by decide, by decide,
    inv.step_unsafe (by decide) hsat hstep⟩

end Amaterasu
