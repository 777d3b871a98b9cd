/-
Objects the controller reads, and the boundaries they must not span.

The controller does not follow the DCBAA, a device context or the scratchpad array over the end
of a page, nor a ring or a buffer over the end of 64 KiB.  A block of a slab class never lies
across either.  A block of the bump region is put at the next aligned address, and lies across
one or not depending on where earlier allocations have left the pointer: nothing in
`alloc_zeroed` looks at it.

`Bringup` is `init_unsafe` as the heap sees it: its allocations in their order, with whatever
else is allocated, freed and written in between.
-/
import Amaterasu.Lib.Windows
import Amaterasu.Xhci.Scratchpad
import Amaterasu.Xhci.Slots

namespace Amaterasu

open SlabAllocator

/-- The boundary that an object must not span. -/
def DmaObject.boundary : DmaObject → Option Nat
  | dcbaa | spArr | outCtx => some 4096
  | cmdRing | evtRing | ep0Ring | intRing | hidBuf | descBuf => some 65536
  | erst | inCtx | spPage => none

/-! ### The allocations of `init_unsafe` -/

/-- Those before the ports. -/
def setupObjects (hcsparams2 : UInt32) : List DmaObject :=
  [.dcbaa, .cmdRing, .evtRing, .erst] ++
    if spCnt hcsparams2 > 0 then .spArr :: List.replicate (min (spCnt hcsparams2) 32) .spPage
    else []

/-- Those that follow an exchange: a slot is enabled, or SET_IDLE is behind the driver. -/
def UsbExchange.allocates : UsbExchange → List DmaObject
  | (.command .enableSlot, r) =>
      if r.cc ≠ ccSuccess ∨ r.slot = 0 then [] else [.outCtx, .inCtx, .ep0Ring, .descBuf]
  | (.ctrlOut _ _ setup, _) => if setup[1] = 0x0A then [.intRing, .hidBuf] else []
  | _ => []

/-- All of them, when `log` is the conversation about the ports. -/
def initObjects (hcsparams2 : UInt32) (log : List UsbExchange) : List DmaObject :=
  setupObjects hcsparams2 ++ log.flatMap UsbExchange.allocates

/-- `init_unsafe` on its way: what is still to be allocated, and what was, with its address. -/
structure Bringup where
  heap : Heap
  todo : List DmaObject
  placed : List (DmaObject × Nat)

inductive BringupOp where
  | place
  | other (op : HeapOp)

inductive BringupStep : Bringup → BringupOp → Bringup → Prop
  | place {h h' : Heap} {o : DmaObject} {p : Nat} {rest : List DmaObject}
      {placed : List (DmaObject × Nat)} (heq : allocZeroed h o = some (h', p)) :
      BringupStep ⟨h, o :: rest, placed⟩ .place ⟨h', rest, placed ++ [(o, p)]⟩
  | other {d : Bringup} {op : HeapOp} {h' : Heap} (hstep : HeapStep d.heap op h') :
      BringupStep d (.other op) { d with heap := h' }

namespace Bringup

def start (h : Heap) (hcsparams2 : UInt32) (log : List UsbExchange) : Bringup where
  heap := h
  todo := initObjects hcsparams2 log
  placed := []

/-- No object spans its boundary, at the physical address it has. -/
def Respects (po : Nat) (d : Bringup) : Prop :=
  ∀ e ∈ d.placed, ∀ bound ∈ e.1.boundary, InWindow bound (e.2 - po) e.1.size

end Bringup

/-- A class has a block for the object, or the bump pointer is not within the object's size of
a boundary, or is within its alignment of it. -/
def PlacedInside (h : Heap) (o : DmaObject) (bound : Nat) : Prop :=
  (∃ s ∈ h.allocator.slabs, fits o.layout s = true ∧ s.freeHead ≠ 0) ∨
    h.allocator.bump.current % bound + o.size ≤ bound ∨
    bound < h.allocator.bump.current % bound + o.align

/-- Where the step allocates, the object is put inside its boundaries. -/
def Bringup.Clear (d : Bringup) : BringupOp → Prop
  | .place => ∀ o ∈ d.todo.head?, ∀ bound ∈ o.boundary, PlacedInside d.heap o bound
  | .other _ => True

/-! ### One allocation -/

theorem DmaObject.boundary_spec {o : DmaObject} {bound : Nat} (h : bound ∈ o.boundary) :
    4096 ∣ bound ∧ bound ∣ 65536 ∧ o.size ≤ bound := by
  cases o <;> first
    | (obtain rfl : _ = bound := Option.some.inj h
       decide)
    | exact absurd h (by simp [DmaObject.boundary])

theorem DmaObject.align_dvd (o : DmaObject) : o.align ∣ 4096 := by
  cases o <;> decide

section

variable {k : HeapPlace} {h h' : Heap} {o : DmaObject} {p bound : Nat}

/-- Blocks of a class lie within a page. -/
theorem class_inWindow (inv : k.Inv h) {s : SlabClass} (hs : s ∈ h.allocator.slabs)
    (hfit : fits o.layout s = true) (hne : s.freeHead ≠ 0) (hbound : bound ∈ o.boundary) :
    InWindow bound s.freeHead o.size := by
  obtain ⟨hpage, -, hle⟩ := DmaObject.boundary_spec hbound
  have hpool := inv.pool hs
  obtain ⟨j, -, hj, hsize⟩ := hpool.size
  have hdvd : s.objSize ∣ 4096 := by
    rw [hsize]
    exact Nat.pow_dvd_pow 2 (show j ≤ 12 by omega)
  have hpos := o.size_pos
  exact InWindow.of_dvd hpos (by omega) (hdvd.trans hpage)
    (hpool.block_aligned k.aligned (inv.slabInv.freeHead_mem_blocks hs hne)) (fits_iff.mp hfit).1

/-- **An object is inside its boundary exactly when it is put there.** -/
theorem allocZeroed_inWindow_iff (inv : k.Inv h) (hoffset : 65536 ∣ k.physOffset)
    (heq : allocZeroed h o = some (h', p)) (hbound : bound ∈ o.boundary) :
    InWindow bound (p - k.physOffset) o.size ↔ PlacedInside h o bound := by
  obtain ⟨hpage, hlarge, hle⟩ := DmaObject.boundary_spec hbound
  have hpos := o.size_pos
  have placed := allocZeroed_placed inv heq
  have hvirt : k.physOffset ≤ p := by
    obtain ⟨-, v, -, hsum⟩ := phys_spec (allocZeroed_inv inv heq) placed.mem
    omega
  rw [InWindow.sub_iff hpos (by omega) (hlarge.trans hoffset) hvirt]
  rcases placed.address with ⟨s, hs, hfit, rfl, hne⟩ | ⟨hempty, hstart⟩
  · exact iff_of_true (class_inWindow inv hs hfit hne hbound) (Or.inl ⟨s, hs, hfit, hne⟩)
  · obtain ⟨halign, hge, hleast⟩ := alignUp_spec o.layout.align_pow2 hstart
    have hnone : ¬ ∃ s ∈ h.allocator.slabs, fits o.layout s = true ∧ s.freeHead ≠ 0 := by
      rintro ⟨s, hs, hfit, hne⟩
      exact hne (hempty s hs hfit)
    rw [InWindow.least_iff hpos hle (o.align_dvd.trans hpage) o.align_dvd_size halign hge hleast]
    unfold PlacedInside
    rw [or_iff_right hnone]

end

/-! ### Runs -/

section

variable {k : HeapPlace} {d d' : Bringup} {op : BringupOp}

theorem BringupStep.inv (inv : k.Inv d.heap) (hstep : BringupStep d op d') : k.Inv d'.heap := by
  cases hstep with
  | place heq => exact allocZeroed_inv inv heq
  | other hstep => exact HeapPlace.inv_step inv hstep

/-- What one step keeps. -/
theorem BringupStep.respects (inv : k.Inv d.heap) (hoffset : 65536 ∣ k.physOffset)
    (hd : d.Respects k.physOffset) (hstep : BringupStep d op d') (hclear : d.Clear op) :
    d'.Respects k.physOffset := by
  cases hstep with
  | place heq =>
      intro e he bound hbound
      rcases List.mem_append.mp he with he | he
      · exact hd e he bound hbound
      · obtain rfl := List.mem_singleton.mp he
        exact (allocZeroed_inWindow_iff inv hoffset heq hbound).mpr (hclear _ rfl bound hbound)
  | other hstep => exact hd

/-- What it does not keep otherwise. -/
theorem BringupStep.not_respects (inv : k.Inv d.heap) (hoffset : 65536 ∣ k.physOffset)
    (hstep : BringupStep d op d') (hclear : ¬ d.Clear op) : ¬ d'.Respects k.physOffset := by
  cases hstep with
  | @place h h' o p rest placed heq =>
      intro hd
      refine hclear fun o' ho' bound hbound => ?_
      obtain rfl : o = o' := Option.some.inj ho'
      exact (allocZeroed_inWindow_iff inv hoffset heq hbound).mp
        (hd (o, p) (List.mem_append_right _ List.mem_cons_self) bound hbound)
  | other hstep => exact absurd trivial hclear

end

/-! ### The setup, as a run -/

/-- `init_unsafe`, started in `h`, gets to `h'` with `todo` still to be allocated. -/
def LeadsTo (h : Heap) (w : UInt32) (log : List UsbExchange) (h' : Heap)
    (todo : List DmaObject) : Prop :=
  ∃ trace d, Run BringupStep (Bringup.start h w log) trace d ∧ d.heap = h' ∧ d.todo = todo

namespace LeadsTo

variable {k : HeapPlace} {h g g' : Heap} {w : UInt32} {log : List UsbExchange} {o : DmaObject}
  {todo : List DmaObject} {p a v : Nat}

theorem place (hl : LeadsTo h w log g (o :: todo)) (heq : allocZeroed g o = some (g', p)) :
    LeadsTo h w log g' todo := by
  obtain ⟨trace, ⟨_, _, placed⟩, hrun, rfl, rfl⟩ := hl
  exact ⟨_, _, hrun.snoc (.place heq), rfl, rfl⟩

/-- A word the driver stores in an object. -/
theorem store (hl : LeadsTo h w log g todo) {b : Block} (hb : b ∈ g.live) (hlo : b.ptr ≤ a)
    (hhi : a + 8 ≤ b.limit) :
    LeadsTo h w log { g with mem := g.mem.writeWord a v } todo := by
  have hbytes : ∀ n ≤ 8, LeadsTo h w log { g with
      mem := (List.range n).foldl
        (fun m i => m.writeByte (a + i) (UInt8.ofNat (v / 256 ^ i))) g.mem } todo := by
    intro n
    induction n with
    | zero => exact fun _ => hl
    | succ n ih =>
        intro hn
        obtain ⟨trace, d, hrun, hheap, htodo⟩ := ih (by omega)
        rw [List.range_succ, List.foldl_append]
        have hlive : b ∈ d.heap.live := by
          rw [hheap]
          exact hb
        have hwrite : HeapStep d.heap (.write (a + n) (UInt8.ofNat (v / 256 ^ n))) _ :=
          .write hlive (by omega) (by omega)
        refine ⟨_, _, hrun.snoc (.other hwrite), ?_, htodo⟩
        dsimp only
        rw [hheap]
        rfl
  rw [Mem.writeWord_eq]
  exact hbytes 8 (Nat.le_refl 8)

theorem page {spArr i : Nat} (hl : LeadsTo h w log g (.spPage :: todo)) (inv : k.Inv g)
    (harray : ⟨spArr, DmaObject.spArr.layout⟩ ∈ g.live) (hi : i < 32)
    (heq : scratchpadPage k.physOffset spArr g i = some g') : LeadsTo h w log g' todo := by
  obtain ⟨⟨f, pg⟩, halloc, hrest⟩ := Option.bind_eq_some_iff.mp heq
  obtain ⟨v, -, hlast⟩ := Option.bind_eq_some_iff.mp hrest
  obtain rfl := Option.some.inj hlast
  refine (hl.place halloc).store ((allocZeroed_placed inv halloc).keeps harray)
    (Nat.le_add_right _ _) ?_
  show spArr + 8 * i + 8 ≤ spArr + 256
  omega

theorem scratchpad {dcbaa : Nat} (hl : LeadsTo h w log g ((if spCnt w > 0 then
      .spArr :: List.replicate (min (spCnt w) 32) .spPage else []) ++ todo))
    (hf : Fresh k dcbaa g) (heq : scratchpad k.physOffset dcbaa w g = some g') :
    LeadsTo h w log g' todo := by
  unfold Amaterasu.scratchpad at heq
  split at heq
  · rename_i hpos
    rw [if_pos hpos] at hl
    obtain ⟨⟨f, spArr⟩, halloc, hrest⟩ := Option.bind_eq_some_iff.mp heq
    obtain ⟨v, -, hrest⟩ := Option.bind_eq_some_iff.mp hrest
    obtain ⟨f', hloop, hlast⟩ := Option.bind_eq_some_iff.mp hrest
    obtain rfl := Option.some.inj hlast
    have hend : Filled k dcbaa spArr 0 (min (spCnt w) 32) f' ∧ LeadsTo h w log f'
        (List.replicate (min (spCnt w) 32 - min (spCnt w) 32) .spPage ++ todo) := by
      refine counted_spec (I := fun i s => Filled k dcbaa spArr 0 i s ∧ LeadsTo h w log s
        (List.replicate (min (spCnt w) 32 - i) .spPage ++ todo)) ?_
        ⟨hf.array halloc, hl.place halloc⟩ hloop
      rintro i s s' hi ⟨hs, hls⟩ hturn
      have hleft : min (spCnt w) 32 - i = min (spCnt w) 32 - (i + 1) + 1 := by omega
      rw [hleft, List.replicate_succ, List.cons_append] at hls
      exact ⟨hs.page (by omega) hturn, hls.page hs.inv hs.array (by omega) hturn⟩
    obtain ⟨hfilled, hdone⟩ := hend
    rw [Nat.sub_self] at hdone
    refine hdone.store hfilled.table (Nat.le_refl dcbaa) ?_
    show dcbaa + 8 ≤ dcbaa + 2048
    omega
  · rename_i hzero
    rw [if_neg hzero] at hl
    obtain rfl := Option.some.inj heq
    exact hl

end LeadsTo

/-- The function up to the ports is such a run: the ports' objects are left to allocate. -/
theorem initDma_leadsTo {k : HeapPlace} {h h' : Heap} {w : UInt32} {dcbaa : Nat} (inv : k.Inv h)
    (heq : initDma k.physOffset w h = some (h', dcbaa)) (log : List UsbExchange) :
    LeadsTo h w log h' (log.flatMap UsbExchange.allocates) := by
  obtain ⟨g₁, g₂, g₃, g₄, p₂, p₃, p₄, h₁, h₂, h₃, h₄, hfresh, hstep⟩ := initDma_cases inv heq
  have hstart : LeadsTo h w log h (initObjects w log) := ⟨[], _, .nil, rfl, rfl⟩
  exact ((((hstart.place h₁).place h₂).place h₃).place h₄).scratchpad hfresh hstep

/--
**No object spans its boundary exactly when each is put clear of it.**  Whatever was allocated,
freed and written before `init_unsafe` and is in between, however many scratchpad pages the
controller asks for and however many devices are found on however many ports.
-/
theorem dma_boundaries_iff {k : HeapPlace} {m : Mem} {trace₀ : List (Heap × HeapOp)} {h : Heap}
    (hoffset : 65536 ∣ k.physOffset) (hboot : Run HeapStep (k.boot m) trace₀ h)
    (hcsparams2 : UInt32) (log : List UsbExchange) {trace : List (Bringup × BringupOp)}
    {d : Bringup} (hrun : Run BringupStep (Bringup.start h hcsparams2 log) trace d) :
    (∀ t ∈ visited trace d, t.Respects k.physOffset) ↔ ∀ e ∈ trace, e.1.Clear e.2 := by
  refine Run.good_iff (I := fun d => k.Inv d.heap ∧ d.Respects k.physOffset)
    (K := Bringup.Clear) ?_ (fun t ht => ht.2) ?_ ?_ hrun
  · exact ⟨HeapPlace.inv_of_run hboot, fun e he => absurd he List.not_mem_nil⟩
  · exact fun t op t' ht hclear hstep =>
      ⟨hstep.inv ht.1, hstep.respects ht.1 hoffset ht.2 hclear⟩
  · exact fun t op t' ht hclear hstep => hstep.not_respects ht.1 hoffset hclear

/-- With room in front of the boundary it does not matter who serves the object. -/
theorem Bringup.clear_of_room {d : Bringup} {o : DmaObject} {rest : List DmaObject} {bound : Nat}
    (htodo : d.todo = o :: rest) (hbound : o.boundary = some bound)
    (hroom : d.heap.allocator.bump.current % bound + o.size ≤ bound) : d.Clear .place := by
  intro o' ho' bound' hbound'
  rw [htodo] at ho'
  obtain rfl := Option.some.inj ho'
  obtain rfl := Option.some.inj (hbound.symm.trans hbound')
  exact Or.inr (Or.inl hroom)

/-- The setup for a controller that asks for no pages, from a heap nothing was allocated from.
If the pointer is at a page, the last one of 64 KiB, it leaves room there for all of it. -/
theorem exists_setup {k : HeapPlace} {h : Heap} (inv : k.Inv h)
    (hcurrent : h.allocator.bump.current = bumpBase k.heapVirt)
    (hbase : bumpBase k.heapVirt % 65536 = 61440)
    (hroom : h.allocator.bump.current + 65 * 4096 ≤ h.allocator.bump.end_) :
    ∃ trace d, Run BringupStep (Bringup.start h 0 []) trace d ∧ d.todo = [] ∧
      ∀ e ∈ trace, e.1.Clear e.2 := by
  have hobjects : initObjects 0 [] = [.dcbaa, .cmdRing, .evtRing, .erst] := by decide
  have hstart : Bringup.start h 0 [] = ⟨h, [.dcbaa, .cmdRing, .evtRing, .erst], []⟩ := by
    rw [Bringup.start, hobjects]
  have hdcbaa : DmaObject.dcbaa.size = 2048 ∧ DmaObject.dcbaa.align = 64 := by decide
  have hcmd : DmaObject.cmdRing.size = 256 ∧ DmaObject.cmdRing.align = 64 := by decide
  have hevt : DmaObject.evtRing.size = 1024 ∧ DmaObject.evtRing.align = 64 := by decide
  have herst : DmaObject.erst.size = 64 ∧ DmaObject.erst.align = 64 := by decide
  obtain ⟨h₁, p₁, heq₁, hend₁, hle₁⟩ := exists_allocZeroed inv .dcbaa (by omega)
  have inv₁ := allocZeroed_inv inv heq₁
  obtain ⟨h₂, p₂, heq₂, hend₂, hle₂⟩ := exists_allocZeroed inv₁ .cmdRing (by omega)
  have inv₂ := allocZeroed_inv inv₁ heq₂
  obtain ⟨h₃, p₃, heq₃, hend₃, hle₃⟩ := exists_allocZeroed inv₂ .evtRing (by omega)
  obtain ⟨h₄, p₄, heq₄, -⟩ := exists_allocZeroed (allocZeroed_inv inv₂ heq₃) .erst (by omega)
  have hlo₁ : bumpBase k.heapVirt ≤ h₁.allocator.bump.current := inv₁.bumpLo
  have hlo₂ : bumpBase k.heapVirt ≤ h₂.allocator.bump.current := inv₂.bumpLo
  rw [hstart]
  refine ⟨_, _, (((Run.nil.snoc (.place heq₁)).snoc (.place heq₂)).snoc (.place heq₃)).snoc
    (.place heq₄), rfl, ?_⟩
  intro e he
  simp only [List.nil_append, List.cons_append, List.mem_cons, List.not_mem_nil, or_false] at he
  rcases he with rfl | rfl | rfl | rfl
  · exact Bringup.clear_of_room rfl rfl (by dsimp only; omega)
  · exact Bringup.clear_of_room rfl rfl (by dsimp only; omega)
  · exact Bringup.clear_of_room rfl rfl (by dsimp only; omega)
  · intro o ho bound hbound
    obtain rfl := Option.some.inj ho
    exact absurd hbound (by simp [DmaObject.boundary])

/-- No object of that setup spans its boundary. -/
theorem dma_boundaries_iff_setup : ∃ trace d,
    Run BringupStep (Bringup.start (lowHeap.boot fun _ => 0) 0 []) trace d ∧ d.todo = [] ∧
      ∀ t ∈ visited trace d, t.Respects lowHeap.physOffset := by
  obtain ⟨trace, d, hrun, htodo, hclear⟩ := exists_setup (HeapPlace.inv_of_run Run.nil)
    (boot_current _ _ _) (by decide) (lowHeap_room _)
  exact ⟨trace, d, hrun, htodo, (dma_boundaries_iff (by decide) Run.nil 0 [] hrun).mpr hclear⟩

/-- Three quarters of a page. -/
def threeQuarters : Layout := ⟨3072, 16, ⟨4, rfl⟩, by decide⟩

/-- What no class has blocks for. -/
theorem fits_eq_false {k : HeapPlace} {h : Heap} (inv : k.Inv h) {layout : Layout}
    (hsize : 256 < layout.size) {s : SlabClass} (hs : s ∈ h.allocator.slabs) :
    fits layout s = false := by
  obtain ⟨j, -, hj, hobj⟩ := (inv.pool hs).size
  have hle : 2 ^ j ≤ 2 ^ 8 := Nat.pow_le_pow_right (by omega) hj
  by_contra hfit
  rw [Bool.not_eq_false, fits_iff] at hfit
  omega

/-- A fresh heap, and three quarters of a page allocated from it. -/
theorem exists_threeQuarters : ∃ trace h, Run HeapStep (lowHeap.boot fun _ => 0) trace h ∧
    h.allocator.bump.current = bumpBase lowHeap.heapVirt + 3072 ∧
    h.allocator.bump.end_ = lowHeap.heapVirt + HEAP_SIZE := by
  have inv : lowHeap.Inv (lowHeap.boot fun _ => 0) := HeapPlace.inv_of_run Run.nil
  have hcurrent : (lowHeap.boot fun _ => 0).allocator.bump.current = bumpBase lowHeap.heapVirt :=
    boot_current _ _ _
  obtain ⟨h, hstep⟩ := inv.exists_alloc threeQuarters (by decide) (by rw [hcurrent]; decide)
  have inv' := HeapPlace.inv_step inv hstep
  refine ⟨_, h, Run.nil.snoc hstep, ?_, inv'.bumpEnd⟩
  cases hstep with
  | @alloc _ a p hsize heq =>
      rcases SlabAllocator.alloc_cases inv.initialized heq with
        ⟨pre, s, post, hsplit, -, hfit, -⟩ | ⟨-, start, hstart, hcase⟩
      · have hs : s ∈ (lowHeap.boot fun _ => 0).allocator.slabs := by
          rw [hsplit]
          exact mem_split.mpr (Or.inl rfl)
        rw [fits_eq_false inv (by decide) hs] at hfit
        exact absurd hfit (by simp)
      · have hbase : alignUp (bumpBase lowHeap.heapVirt) 16 = some (bumpBase lowHeap.heapVirt) := by
          decide
        rw [hcurrent] at hstart
        obtain rfl : bumpBase lowHeap.heapVirt = start :=
          Option.some.inj (hbase.symm.trans hstart)
        rcases hcase with ⟨hlt, -, -⟩ | ⟨-, -, rfl⟩
        · rw [inv.bumpEnd] at hlt
          exact absurd hlt (by decide)
        · exact Nat.min_eq_left (by decide)

/-- The DCBAA on that heap. -/
theorem exists_dcbaa : ∃ trace h h' p, Run HeapStep (lowHeap.boot fun _ => 0) trace h ∧
    h.allocator.bump.current = bumpBase lowHeap.heapVirt + 3072 ∧
    allocZeroed h .dcbaa = some (h', p) := by
  obtain ⟨trace, h, hboot, hcurrent, hend⟩ := exists_threeQuarters
  have hsize : DmaObject.dcbaa.size = 2048 := rfl
  have halign : DmaObject.dcbaa.align = 64 := rfl
  have hroom : bumpBase lowHeap.heapVirt + 3072 + 2112 ≤ lowHeap.heapVirt + HEAP_SIZE := by decide
  obtain ⟨h', p, heq, -⟩ := exists_allocZeroed (HeapPlace.inv_of_run hboot) .dcbaa (by omega)
  exact ⟨trace, h, h', p, hboot, hcurrent, heq⟩

/-- There the DCBAA lies across the end of a page. -/
theorem dcbaa_spans_page : ∃ trace₀ h trace d,
    Run HeapStep (lowHeap.boot fun _ => 0) trace₀ h ∧ 65536 ∣ lowHeap.physOffset ∧
    Run BringupStep (Bringup.start h 0 []) trace d ∧ ¬ d.Respects lowHeap.physOffset := by
  obtain ⟨trace, h, h', p, hboot, hcurrent, heq⟩ := exists_dcbaa
  have inv : lowHeap.Inv h := HeapPlace.inv_of_run hboot
  have hstep : BringupStep (Bringup.start h 0 []) .place _ := .place heq
  refine ⟨trace, h, _, _, hboot, by decide, Run.single hstep,
    hstep.not_respects inv (by decide) ?_⟩
  intro hall
  rcases hall .dcbaa rfl 4096 rfl with ⟨s, hs, hfit, -⟩ | hbump
  · rw [fits_eq_false inv (by decide) hs] at hfit
    exact absurd hfit (by simp)
  · have hstart : (Bringup.start h 0 []).heap = h := rfl
    rw [hstart, hcurrent] at hbump
    exact absurd hbump (by decide)

end Amaterasu
