/-
What `init_unsafe` allocates, and the heap it allocates it from.

The controller reads and writes these objects by their physical addresses; to the kernel they
are boxes.  `alloc_zeroed` asks the heap for one, with no more of a say in where it is put than
the alignment of its type.
-/
import Amaterasu.Allocator.HeapSafety
import Amaterasu.Xhci.EventRing

namespace Amaterasu

open SlabAllocator

/-! ### The kernel's heap -/

/-- `memory::HEAP_SIZE`. -/
def HEAP_SIZE : Nat := 16 * 1024 * 1024

/-- Where the heap is: at the start of a usable region, behind the offset at which physical
memory is mapped.  The boot loader gives both in whole pages. -/
structure HeapPlace where
  regionStart : Nat
  physOffset : Nat
  region_aligned : 4096 ∣ regionStart
  offset_aligned : 4096 ∣ physOffset
  pos : 0 < regionStart + physOffset
  fits : regionStart + physOffset + HEAP_SIZE < 2 ^ 64

namespace HeapPlace

variable {k : HeapPlace} {m : Mem} {h : Heap}

/-- `memory::heap_start_virt`. -/
def heapVirt (k : HeapPlace) : Nat := k.regionStart + k.physOffset

/-- The heap after `allocator::init`. -/
def boot (k : HeapPlace) (m : Mem) : Heap := Heap.boot m k.heapVirt HEAP_SIZE

/-- The invariant of a heap in this place. -/
abbrev Inv (k : HeapPlace) (h : Heap) : Prop := HeapInv k.heapVirt HEAP_SIZE h

theorem aligned (k : HeapPlace) : 4096 ∣ k.heapVirt :=
  Nat.dvd_add k.region_aligned k.offset_aligned

/-- The last address of all is not the end of this heap. -/
theorem not_saturates (inv : k.Inv h) (op : HeapOp) : ¬ op.SaturatesPastEnd h := by
  rcases op with layout | b | ⟨addr, byte⟩
  · rintro ⟨-, hend, -⟩
    have halign := k.aligned
    rw [inv.bumpEnd] at hend
    unfold HEAP_SIZE usizeMax at hend
    omega
  · exact id
  · exact id

theorem inv_step {h' : Heap} {op : HeapOp} (inv : k.Inv h) (hstep : HeapStep h op h') : k.Inv h' :=
  inv.step k.pos k.fits (not_saturates inv op) hstep

/-- Whatever was allocated, freed and written since. -/
theorem inv_of_run {trace : List (Heap × HeapOp)} (hrun : Run HeapStep (k.boot m) trace h) :
    k.Inv h :=
  hrun.always (boot_inv m k.heapVirt HEAP_SIZE k.pos (by decide) k.fits)
    fun _ _ _ inv hstep => inv_step inv hstep

end HeapPlace

/-! ### The types -/

/-- What `alloc_zeroed` is called for; `descBuf` is the `[u8; 512]`. -/
inductive DmaObject
  | dcbaa
  | spArr
  | cmdRing
  | evtRing
  | erst
  | inCtx
  | outCtx
  | ep0Ring
  | intRing
  | hidBuf
  | spPage
  | descBuf
  deriving DecidableEq

namespace DmaObject

/-- The bytes of the fields. -/
def fieldBytes : DmaObject → Nat
  | dcbaa => 8 * 256
  | spArr => 8 * 32
  | cmdRing => 16 * cmdN
  | evtRing => 16 * evtN
  | erst => 16 * 1
  | inCtx => 4 * 8 * 33
  | outCtx => 4 * 8 * 32
  | ep0Ring => 16 * ep0N
  | intRing => 16 * intN
  | hidBuf => 8
  | spPage => 4096
  | descBuf => 512

/-- The `repr(align)`, as a power of two. -/
def alignLog : DmaObject → Nat
  | spPage => 12
  | descBuf => 0
  | _ => 6

def align (o : DmaObject) : Nat := 2 ^ o.alignLog

/-- The size of a type is a multiple of its alignment. -/
def size (o : DmaObject) : Nat := (o.fieldBytes + (o.align - 1)) / o.align * o.align

theorem size_pos (o : DmaObject) : 0 < o.size := by
  cases o <;> decide

theorem align_dvd_size (o : DmaObject) : o.align ∣ o.size := Nat.dvd_mul_left _ _

def layout (o : DmaObject) : Layout where
  size := o.size
  align := o.align
  align_pow2 := ⟨o.alignLog, rfl⟩
  size_le := by cases o <;> decide

end DmaObject

/-! ### `alloc_zeroed` -/

/-- `alloc_zeroed`: it panics when the heap has no room, or when the allocator does. -/
def allocZeroed (h : Heap) (o : DmaObject) : Option (Heap × Nat) := do
  let (a, p) ← h.allocator.alloc h.mem o.layout
  if p = 0 then none
  else some ({ allocator := a, mem := h.mem.clear p o.size, live := ⟨p, o.layout⟩ :: h.live }, p)

/-- What a new object changes. -/
structure Placed (h : Heap) (o : DmaObject) (h' : Heap) (p : Nat) : Prop where
  live : h'.live = ⟨p, o.layout⟩ :: h.live
  zero : ∀ x, p ≤ x → x < p + o.size → h'.mem x = 0
  frame : ∀ x, x < p ∨ p + o.size ≤ x → h'.mem x = h.mem x
  /-- A class that has a block serves it, or else the bump region. -/
  address : (∃ s ∈ h.allocator.slabs, fits o.layout s = true ∧ p = s.freeHead ∧ p ≠ 0) ∨
    ((∀ s ∈ h.allocator.slabs, fits o.layout s = true → s.freeHead = 0) ∧
      alignUp h.allocator.bump.current o.align = some p)

section

variable {k : HeapPlace} {h h' : Heap} {o : DmaObject} {p : Nat}

theorem allocZeroed_eq (heq : allocZeroed h o = some (h', p)) :
    ∃ a, h.allocator.alloc h.mem o.layout = some (a, p) ∧ p ≠ 0 ∧
      h' = { allocator := a, mem := h.mem.clear p o.size, live := ⟨p, o.layout⟩ :: h.live } := by
  obtain ⟨⟨a, q⟩, halloc, hrest⟩ := Option.bind_eq_some_iff.mp heq
  dsimp only at hrest
  split at hrest
  · exact absurd hrest (by simp)
  · rename_i hne
    obtain ⟨rfl, rfl⟩ := Prod.mk.inj (Option.some.inj hrest)
    exact ⟨a, halloc, hne, rfl⟩

theorem allocZeroed_placed (inv : k.Inv h) (heq : allocZeroed h o = some (h', p)) :
    Placed h o h' p := by
  obtain ⟨a, halloc, hne, rfl⟩ := allocZeroed_eq heq
  refine ⟨rfl, fun x hlo hhi => if_pos ⟨hlo, hhi⟩, fun x hx => if_neg ?_, ?_⟩
  · omega
  · rcases SlabAllocator.alloc_cases inv.initialized halloc with
      ⟨pre, s, post, hsplit, -, hfit, rfl, -, -, -⟩ | ⟨hempty, start, hstart, hcase⟩
    · refine Or.inl ⟨s, ?_, hfit, rfl, hne⟩
      rw [hsplit]
      exact mem_split.mpr (Or.inl rfl)
    · rcases hcase with ⟨-, h0, -⟩ | ⟨-, rfl, -⟩
      · exact absurd h0 hne
      · exact Or.inr ⟨hempty, hstart⟩

namespace Placed

variable {b : Block}

theorem mem (placed : Placed h o h' p) : ⟨p, o.layout⟩ ∈ h'.live := by
  rw [placed.live]
  exact List.mem_cons_self

theorem keeps (placed : Placed h o h' p) (hb : b ∈ h.live) : b ∈ h'.live := by
  rw [placed.live]
  exact List.mem_cons_of_mem _ hb

/-- The new object does not overlap the ones there were. -/
theorem apart (placed : Placed h o h' p) (inv : k.Inv h') (hb : b ∈ h.live) :
    p + o.size ≤ b.ptr ∨ b.ptr + b.layout.size ≤ p := by
  have hall := inv.live_apart
  rw [placed.live] at hall
  exact (List.pairwise_cons.mp hall).1 b hb

end Placed

/-- The invariant is kept: zeroing stays inside the new block. -/
theorem allocZeroed_inv (inv : k.Inv h) (heq : allocZeroed h o = some (h', p)) : k.Inv h' := by
  obtain ⟨a, halloc, hne, rfl⟩ := allocZeroed_eq heq
  have halloc' : k.Inv { h with allocator := a, live := Heap.handOut h.live o.layout p } :=
    inv.alloc k.pos k.fits halloc (HeapPlace.not_saturates inv _)
  rw [Heap.handOut, if_neg hne] at halloc'
  refine halloc'.overwrite (b := ⟨p, o.layout⟩) List.mem_cons_self fun x hx => if_neg ?_
  have hout : x < p ∨ p + o.size ≤ x := hx
  omega

/-- With room in the bump region for the object and its padding, it is allocated. -/
theorem exists_allocZeroed (inv : k.Inv h) (o : DmaObject)
    (hroom : h.allocator.bump.current + o.size + o.align ≤ h.allocator.bump.end_) :
    ∃ h' p, allocZeroed h o = some (h', p) ∧ h'.allocator.bump.end_ = h.allocator.bump.end_ ∧
      h'.allocator.bump.current ≤ h.allocator.bump.current + o.size + o.align := by
  have hsize := o.size_pos
  have hend := inv.bumpEnd
  have hfit := k.fits
  have hvirt : k.heapVirt = k.regionStart + k.physOffset := rfl
  cases halloc : h.allocator.alloc h.mem o.layout with
  | none =>
      have hsum : 2 ^ 64 ≤ h.allocator.bump.current + o.align := (inv.alloc_eq_none halloc).2
      omega
  | some r =>
      obtain ⟨a, p⟩ := r
      have hzero : p ≠ 0 → allocZeroed h o = some ({
          allocator := a, mem := h.mem.clear p o.size, live := ⟨p, o.layout⟩ :: h.live }, p) := by
        intro hne
        rw [allocZeroed, halloc]
        exact if_neg hne
      rcases SlabAllocator.alloc_cases inv.initialized halloc with
        ⟨pre, s, post, -, rfl, -, rfl, hne, -, -⟩ | ⟨-, start, hstart, hcase⟩
      · refine ⟨_, _, hzero hne, rfl, ?_⟩
        show h.allocator.bump.current ≤ _
        omega
      · obtain ⟨-, hge, hleast⟩ := alignUp_spec o.layout.align_pow2 hstart
        have halign : 0 < o.align := Nat.two_pow_pos _
        have hpad : start ≤ h.allocator.bump.current + o.align := by
          refine (hleast ((h.allocator.bump.current / o.align + 1) * o.align)
            (Nat.dvd_mul_left _ _) ?_).trans ?_
          · have := Nat.lt_div_mul_add halign (a := h.allocator.bump.current)
            rw [Nat.succ_mul]
            omega
          · have := Nat.div_mul_le_self h.allocator.bump.current o.align
            rw [Nat.succ_mul]
            omega
        have hlayout : o.layout.size = o.size := rfl
        rcases hcase with ⟨hlt, -, -⟩ | ⟨-, rfl, rfl⟩
        · have := Nat.min_le_left (start + o.layout.size) usizeMax
          omega
        · have hlo := inv.bumpLo
          have hpos := k.pos
          have hbase : k.heapVirt ≤ bumpBase k.heapVirt := Nat.le_add_right _ _
          refine ⟨_, _, hzero (by omega), rfl, ?_⟩
          refine (Nat.min_le_left (p + o.layout.size) usizeMax).trans ?_
          omega

end

end Amaterasu
