/-
Where the heap lies: `kernel/src/memory.rs`.

`init` reads the bootloader's map of the physical memory and anchors the heap at the first
usable region that holds all of it; the kernel sees the physical memory at an offset.  The
heap keeps to that region: whatever is asked for, written and given back, every block lies in
it, and no byte outside it is touched.
-/
import Amaterasu.Allocator.Conservation
import Amaterasu.Xhci.Dma

namespace Amaterasu

open SlabAllocator

/-! ### The memory map -/

/-- `bootloader_api::info::MemoryRegionKind`. -/
inductive MemoryRegionKind where
  | usable
  | bootloader
  | unknownUefi (tag : Nat)
  | unknownBios (tag : Nat)
  deriving DecidableEq

structure MemoryRegion where
  start : Nat
  end_ : Nat
  kind : MemoryRegionKind

/-- `HEAP_PHYS` and `PHYS_OFFSET`. -/
structure MemoryStatics where
  heapPhys : Nat
  physOffset : Nat

namespace Memory

/-- A sum of `u64` or `usize` values; past their end it panics. -/
def sum (a b : Nat) : Option Nat := if a + b < 2 ^ 64 then some (a + b) else none

/-- The loop of `init`: `HEAP_PHYS` and `heap_found`, region by region. -/
def anchor (physOffset : Nat) : List MemoryRegion → Nat × Bool → Option (Nat × Bool)
  | [], st => some st
  | region :: rest, st =>
      if region.kind ≠ .usable then anchor physOffset rest st
      else do
        let size ← usizeSub region.end_ region.start
        if !st.2 ∧ size ≥ HEAP_SIZE then
          let _ ← sum region.start physOffset   -- in the line that is logged
          anchor physOffset rest (region.start, true)
        else anchor physOffset rest st

/-- `none` is a panic: of a subtraction, of a sum, or because no region is large enough. -/
def init (regions : List MemoryRegion) (physOffset : Nat) : Option MemoryStatics := do
  let (heapPhys, found) ← anchor physOffset regions (0, false)
  if found then some ⟨heapPhys, physOffset⟩ else none

def heapStartVirt (statics : MemoryStatics) : Option Nat :=
  sum statics.heapPhys statics.physOffset

end Memory

/-- A region that can hold the heap. -/
def MemoryRegion.Holds (region : MemoryRegion) : Prop :=
  region.kind = .usable ∧ HEAP_SIZE ≤ region.end_ - region.start

/-- What the bootloader promises of its map, and of the place where it maps the memory: regions
are made of pages, and so is the offset, and what is mapped has addresses. -/
structure Mapped (regions : List MemoryRegion) (physOffset : Nat) : Prop where
  offset : 0 < physOffset
  page : 4096 ∣ physOffset
  order : ∀ region ∈ regions, region.start ≤ region.end_
  pages : ∀ region ∈ regions, 4096 ∣ region.start
  fits : ∀ region ∈ regions, physOffset + region.end_ < 2 ^ 64

/-! ### The region -/

namespace Memory

variable {physOffset : Nat} {regions : List MemoryRegion}

/-- Once a region is found, the others are only looked at. -/
theorem anchor_found (horder : ∀ region ∈ regions, region.start ≤ region.end_) (phys : Nat) :
    anchor physOffset regions (phys, true) = some (phys, true) := by
  induction regions with
  | nil => rfl
  | cons region rest ih =>
      have hrest := ih fun r hr => horder r (List.mem_cons_of_mem _ hr)
      rw [anchor, usizeSub, if_pos (horder region List.mem_cons_self)]
      split
      · exact hrest
      · exact hrest

/-- The first region that can hold the heap, if there is one. -/
theorem anchor_eq (h : Mapped regions physOffset) :
    (anchor physOffset regions (0, false) = some (0, false) ∧ ∀ r ∈ regions, ¬ r.Holds) ∨
      ∃ pre region post, regions = pre ++ region :: post ∧ (∀ r ∈ pre, ¬ r.Holds) ∧
        region.Holds ∧ anchor physOffset regions (0, false) = some (region.start, true) := by
  induction regions with
  | nil => exact Or.inl ⟨rfl, by simp⟩
  | cons region rest ih =>
      have horder := h.order region List.mem_cons_self
      have hfits := h.fits region List.mem_cons_self
      have hmapped : Mapped rest physOffset :=
        ⟨h.offset, h.page, fun r hr => h.order r (List.mem_cons_of_mem _ hr),
          fun r hr => h.pages r (List.mem_cons_of_mem _ hr),
          fun r hr => h.fits r (List.mem_cons_of_mem _ hr)⟩
      by_cases hholds : region.Holds
      · refine Or.inr ⟨[], region, rest, rfl, by simp, hholds, ?_⟩
        have hsum : sum region.start physOffset = some (region.start + physOffset) :=
          if_pos (by omega)
        rw [anchor, if_neg (not_not.mpr hholds.1), usizeSub, if_pos horder]
        show (if _ then _ else _) = _
        rw [if_pos ⟨rfl, hholds.2⟩, hsum]
        exact anchor_found hmapped.order region.start
      · have hskip : anchor physOffset (region :: rest) (0, false)
            = anchor physOffset rest (0, false) := by
          rw [anchor]
          split
          · rfl
          · rename_i husable
            rw [usizeSub, if_pos horder]
            show (if _ then _ else _) = _
            rw [if_neg]
            intro hsize
            exact hholds ⟨not_not.mp husable, hsize.2⟩
        rw [hskip]
        rcases ih hmapped with ⟨hnone, hall⟩ | ⟨pre, found, post, rfl, hpre, hfound, heq⟩
        · exact Or.inl ⟨hnone, by simp only [List.mem_cons, forall_eq_or_imp]; exact ⟨hholds, hall⟩⟩
        · refine Or.inr ⟨region :: pre, found, post, rfl, ?_, hfound, heq⟩
          simp only [List.mem_cons, forall_eq_or_imp]
          exact ⟨hholds, hpre⟩

end Memory

/-! ### Outside the heap -/

/-- A memory that is another's outside a range. -/
def Mem.SameOutside (lo hi : Nat) (m m' : Mem) : Prop := ∀ a, a < lo ∨ hi ≤ a → m' a = m a

theorem Mem.SameOutside.trans {lo hi : Nat} {m m' m'' : Mem} (h : m.SameOutside lo hi m')
    (h' : m'.SameOutside lo hi m'') : m.SameOutside lo hi m'' :=
  fun a ha => (h' a ha).trans (h a ha)

theorem Mem.sameOutside_writeWord {lo hi a : Nat} (hlo : lo ≤ a) (hhi : a + 8 ≤ hi) (m : Mem)
    (w : Nat) : m.SameOutside lo hi (m.writeWord a w) := by
  intro x hx
  unfold Mem.writeWord
  rw [if_neg (by omega)]

/-- Threading a pool. -/
theorem SlabClass.init_sameOutside {s : SlabClass} (hsize : 8 ≤ s.objSize) {lo hi : Nat}
    {regionStart count : Nat} (hlo : lo ≤ regionStart)
    (hhi : regionStart + count * s.objSize ≤ hi) (m : Mem) :
    m.SameOutside lo hi (s.init m regionStart count).2 := by
  rw [SlabClass.init_mem]
  suffices hthread : ∀ n ≤ count,
      m.SameOutside lo hi (SlabClass.thread s.objSize regionStart count m n) from
    hthread count (Nat.le_refl _)
  intro n
  induction n with
  | zero => exact fun _ _ _ => rfl
  | succ n ih =>
      intro hn
      have hbytes : (n + 1) * s.objSize ≤ count * s.objSize := Nat.mul_le_mul_right _ hn
      rw [Nat.succ_mul] at hbytes
      rw [SlabClass.thread_succ]
      exact (ih (by omega)).trans (Mem.sameOutside_writeWord (by omega) (by omega) _ _)

theorem initSlabs_sameOutside {heapVirt hi : Nat} (pairs : List (SlabClass × Nat)) :
    ∀ (offset : Nat) (m : Mem), (∀ e ∈ pairs, e.2 = e.1.objSize ∧ 8 ≤ e.1.objSize) →
      heapVirt + offset + poolBytes pairs ≤ hi →
      m.SameOutside heapVirt hi (initSlabs heapVirt pairs offset m).2.2 := by
  induction pairs with
  | nil => exact fun _ _ _ _ _ _ => rfl
  | cons e rest ih =>
      obtain ⟨s, size⟩ := e
      intro offset m hsizes hhi
      obtain ⟨hsz, h8⟩ : size = s.objSize ∧ 8 ≤ s.objSize := hsizes (s, size) List.mem_cons_self
      have hbytes : poolBytes ((s, size) :: rest) = size * objectsPerClass + poolBytes rest := rfl
      have hcomm : size * objectsPerClass = objectsPerClass * s.objSize := by
        rw [hsz, Nat.mul_comm]
      rw [initSlabs_cons]
      have hpool : m.SameOutside heapVirt hi
          (s.init m (heapVirt + offset) objectsPerClass).2 :=
        SlabClass.init_sameOutside h8 (Nat.le_add_right _ _) (by omega) m
      refine hpool.trans (ih _ _ (fun e he => hsizes e (List.mem_cons_of_mem _ he)) ?_)
      omega

theorem boot_sameOutside (m : Mem) {heapVirt heapSize : Nat} (hsize : slabRegionBytes ≤ heapSize) :
    m.SameOutside heapVirt (heapVirt + heapSize) (Heap.boot m heapVirt heapSize).mem := by
  have hpool : poolBytes (SlabAllocator.new.slabs.zip slabSizes) = slabRegionBytes := rfl
  have hsizes : ∀ e ∈ SlabAllocator.new.slabs.zip slabSizes,
      e.2 = e.1.objSize ∧ 8 ≤ e.1.objSize := by
    simp [SlabAllocator.new, slabSizes, SlabClass.new]
  have hroom : heapVirt + 0 + poolBytes (SlabAllocator.new.slabs.zip slabSizes)
      ≤ heapVirt + heapSize := by
    rw [hpool]
    exact Nat.add_le_add_left hsize _
  have hinit := initSlabs_sameOutside _ 0 m hsizes hroom
  rw [← init_memory SlabAllocator.new m heapVirt heapSize] at hinit
  unfold Heap.boot
  dsimp only
  exact hinit

namespace HeapInv

variable {heapVirt heapSize : Nat} {h h' : Heap} {op : HeapOp}

/-- No step of the client writes outside the heap. -/
theorem sameOutside (inv : HeapInv heapVirt heapSize h) (hpage : 4096 ∣ heapVirt)
    (hstep : HeapStep h op h') :
    h.mem.SameOutside heapVirt (heapVirt + heapSize) h'.mem := by
  cases hstep with
  | alloc hsize heq => exact fun _ _ => rfl
  | @write b addr byte hb hlo hhi =>
      have hin := (inv.safe hpage).inside b hb
      intro a ha
      show (h.mem.writeByte addr byte) a = h.mem a
      unfold Mem.writeByte
      rw [if_neg (by omega)]
  | @dealloc b hb =>
      show h.mem.SameOutside _ _ (deallocSlabs h.mem b.ptr h.allocator.slabs).2
      rcases deallocSlabs_cases h.mem b.ptr h.allocator.slabs with
        ⟨heq, -⟩ | ⟨pre, s, post, hsplit, ho, heq⟩
      · rw [heq]
        exact fun _ _ => rfl
      · have hs : s ∈ h.allocator.slabs := by
          rw [hsplit]
          exact mem_split.mpr (Or.inl rfl)
        obtain ⟨free, hfree⟩ := inv.classes s hs
        have hblock := SlabClass.block_le (hfree.live_mem_blocks hb ho)
        have hpool := inv.pool hs
        have h8 := hpool.eight_le
        have hlo := hpool.lo
        have hhi := hpool.hi
        have hbase := inv.base_le_end
        rw [heq]
        exact Mem.sameOutside_writeWord (by omega) (by omega) _ _

end HeapInv

/-- A region that can hold the heap is a place for it. -/
def MemoryRegion.place {regions : List MemoryRegion} {physOffset : Nat}
    (hmap : Mapped regions physOffset) {region : MemoryRegion} (hmem : region ∈ regions)
    (hholds : region.Holds) : HeapPlace where
  regionStart := region.start
  physOffset := physOffset
  region_aligned := hmap.pages region hmem
  offset_aligned := hmap.page
  pos := Nat.add_pos_right _ hmap.offset
  fits := by
    have hsize := hholds.2
    have hfits := hmap.fits region hmem
    have hheap : HEAP_SIZE = 16777216 := rfl
    omega

/-- A heap in its place writes there and nowhere else. -/
theorem HeapPlace.sameOutside (k : HeapPlace) {m : Mem} {trace : List (Heap × HeapOp)} {h : Heap}
    (hrun : Run HeapStep (k.boot m) trace h) :
    m.SameOutside k.heapVirt (k.heapVirt + HEAP_SIZE) h.mem := by
  suffices hkept : k.Inv h ∧ m.SameOutside k.heapVirt (k.heapVirt + HEAP_SIZE) h.mem from hkept.2
  refine Run.always (I := fun t => k.Inv t ∧
    m.SameOutside k.heapVirt (k.heapVirt + HEAP_SIZE) t.mem) ?_ ?_ hrun
  · exact ⟨HeapPlace.inv_of_run .nil, boot_sameOutside m (by decide)⟩
  · exact fun s op s' hs hstep => ⟨HeapPlace.inv_step hs.1 hstep,
      hs.2.trans (hs.1.sameOutside k.aligned hstep)⟩

/--
**The heap keeps to its region.**  The kernel boots exactly when a usable region of the
bootloader's map can hold the heap; the heap then begins at the first one.  From there on,
whatever is allocated, freed and written in blocks that are live, the heap is safe, its blocks
lie in that region as it is mapped, and the rest of the memory is what it was.
-/
theorem heap_keeps_to_region {regions : List MemoryRegion} {physOffset : Nat}
    (hmap : Mapped regions physOffset) :
    (Memory.init regions physOffset = none ↔ ∀ r ∈ regions, ¬ r.Holds) ∧
    ∀ statics, Memory.init regions physOffset = some statics →
      ∃ pre region post, ∃ k : HeapPlace, regions = pre ++ region :: post ∧
        (∀ r ∈ pre, ¬ r.Holds) ∧ region.Holds ∧
        k.regionStart = region.start ∧ k.physOffset = physOffset ∧
        Memory.heapStartVirt statics = some k.heapVirt ∧
        ∀ (m : Mem) (trace : List (Heap × HeapOp)) (h : Heap),
          Run HeapStep (k.boot m) trace h →
            HeapSafe k.heapVirt HEAP_SIZE h ∧
            (∀ b ∈ h.live, region.start + physOffset ≤ b.ptr ∧
              b.limit ≤ region.end_ + physOffset) ∧
            m.SameOutside (region.start + physOffset) (region.end_ + physOffset) h.mem := by
  rcases Memory.anchor_eq hmap with ⟨hnone, hall⟩ | ⟨pre, region, post, rfl, hpre, hholds, heq⟩
  · have hinit : Memory.init regions physOffset = none := by
      rw [Memory.init, hnone]
      rfl
    refine ⟨iff_of_true hinit hall, ?_⟩
    intro statics hsome
    exact absurd (hinit.symm.trans hsome) (by simp)
  have hmem : region ∈ pre ++ region :: post := by simp
  have hinit : Memory.init (pre ++ region :: post) physOffset
      = some ⟨region.start, physOffset⟩ := by
    rw [Memory.init, heq]
    rfl
  refine ⟨iff_of_false (by rw [hinit]; simp) fun hno => hno region hmem hholds, ?_⟩
  intro statics hsome
  obtain rfl := Option.some.inj (hinit.symm.trans hsome)
  have hsize := hholds.2
  have hheap : HEAP_SIZE = 16777216 := rfl
  have hfits := hmap.fits region hmem
  refine ⟨pre, region, post, MemoryRegion.place hmap hmem hholds, rfl, hpre, hholds, rfl, rfl,
    ?_, ?_⟩
  · have hsum : region.start + physOffset < 2 ^ 64 := by omega
    rw [Memory.heapStartVirt, Memory.sum, if_pos hsum]
    rfl
  intro m trace h hrun
  have hvirt : (MemoryRegion.place hmap hmem hholds).heapVirt = region.start + physOffset := rfl
  have hsafe := (HeapPlace.inv_of_run hrun).safe (MemoryRegion.place hmap hmem hholds).aligned
  refine ⟨hsafe, ?_, ?_⟩
  · intro b hb
    have hin := hsafe.inside b hb
    omega
  · intro a ha
    exact HeapPlace.sameOutside _ hrun a (by omega)

/-- The map of a machine with 128 MB: what is below the first megabyte is too small. -/
def smallMap : List MemoryRegion :=
  [⟨0, 0x9f000, .usable⟩, ⟨0x9f000, 0x100000, .unknownBios 2⟩, ⟨0x100000, 0x800000, .bootloader⟩,
    ⟨0x800000, 0x8000000, .usable⟩]

/-- Its heap, mapped at 2 TB. -/
theorem heap_keeps_to_region_small :
    Memory.init smallMap (2 ^ 41) ≠ none ∧ ∃ k : HeapPlace, k.heapVirt = 0x800000 + 2 ^ 41 ∧
      ∀ (m : Mem) (trace : List (Heap × HeapOp)) (h : Heap),
        Run HeapStep (k.boot m) trace h →
          m.SameOutside (0x800000 + 2 ^ 41) (0x8000000 + 2 ^ 41) h.mem := by
  have hmap : Mapped smallMap (2 ^ 41) := by
    constructor <;> simp [smallMap]
  have hinit : Memory.init smallMap (2 ^ 41) = some ⟨0x800000, 2 ^ 41⟩ := rfl
  refine ⟨by rw [hinit]; simp, ?_⟩
  obtain ⟨pre, region, post, k, hsplit, -, -, hstart, hoffset, hvirt, hruns⟩ :=
    (heap_keeps_to_region hmap).2 _ hinit
  have hfirst : Memory.heapStartVirt ⟨0x800000, 2 ^ 41⟩ = some (0x800000 + 2 ^ 41) := rfl
  have hplace : k.heapVirt = 0x800000 + 2 ^ 41 := Option.some.inj (hvirt.symm.trans hfirst)
  have hregion : region = ⟨0x800000, 0x8000000, .usable⟩ := by
    have hmem : region ∈ smallMap := by
      rw [hsplit]
      simp
    have hbegins : region.start = 0x800000 := by
      have hsum : k.heapVirt = k.regionStart + k.physOffset := rfl
      omega
    simp only [smallMap, List.mem_cons, List.not_mem_nil, or_false] at hmem
    rcases hmem with rfl | rfl | rfl | rfl
    · exact absurd hbegins (by simp)
    · exact absurd hbegins (by simp)
    · exact absurd hbegins (by simp)
    · rfl
  subst hregion
  exact ⟨k, hplace, fun m trace h hrun => (hruns m trace h hrun).2.2⟩

end Amaterasu
