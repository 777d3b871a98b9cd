/-
What a request is answered, in every state a client can bring the heap to.

A request should get null exactly when nothing fits, and then leave the allocator alone;
otherwise a block of the smallest class that has one, or the least aligned address of the
bump region.  Two additions stand in the way.  `align_up` adds the alignment to the bump
pointer before it masks, and panics where the sum does not fit; `Bump::alloc` clamps the
sum of the start and the size, so that on a heap that ends at the last address a request
of any size passes.  Where neither of these is reached, the answer is the right one.
-/
import Amaterasu.Allocator.HeapSafety

namespace Amaterasu

open SlabAllocator

/-! ### The right answer -/

/-- A block of this class would do for the request. -/
def SlabClass.Suits (s : SlabClass) (layout : Layout) : Prop :=
  max layout.size layout.align ≤ s.objSize

/-- The classes have nothing for the request. -/
def ClassesEmpty (a : SlabAllocator) (layout : Layout) : Prop :=
  ∀ s ∈ a.slabs, s.Suits layout → s.freeHead = 0

/-- The request fits into the bump region at this address. -/
structure BumpFits (a : SlabAllocator) (layout : Layout) (start : Nat) : Prop where
  aligned : layout.align ∣ start
  above : a.bump.current ≤ start
  below : start + layout.size ≤ a.bump.end_

/-- The block is the first of the smallest class that suits and has one. -/
def FromClass (a : SlabAllocator) (m : Mem) (layout : Layout) (a' : SlabAllocator) (p : Nat) :
    Prop :=
  ∃ pre s post, a.slabs = pre ++ s :: post ∧ s.Suits layout ∧ p = s.freeHead ∧
    (∀ t ∈ a.slabs, t.Suits layout → t.freeHead ≠ 0 → s.objSize ≤ t.objSize) ∧
    a' = { a with slabs := pre ++ s.popped m :: post }

/-- The block is at the least address of the bump region that will do. -/
def FromBump (a : SlabAllocator) (layout : Layout) (a' : SlabAllocator) (p : Nat) : Prop :=
  ClassesEmpty a layout ∧ BumpFits a layout p ∧ (∀ start, BumpFits a layout start → p ≤ start) ∧
    a' = { a with bump := { a.bump with current := p + layout.size } }

/-- The request returns, with the answer it should have. -/
def AnsweredRight (h : Heap) (layout : Layout) : Prop :=
  ∃ a p, h.allocator.alloc h.mem layout = some (a, p) ∧
    (p = 0 ↔ ClassesEmpty h.allocator layout ∧ ∀ start, ¬ BumpFits h.allocator layout start) ∧
    (p = 0 → a = h.allocator) ∧
    (p ≠ 0 → FromClass h.allocator h.mem layout a p ∨ FromBump h.allocator layout a p)

/-- The request gets past neither of the two additions: the classes serve it, or both
sums fit. -/
def SumsFit (h : Heap) (layout : Layout) : Prop :=
  ¬ ClassesEmpty h.allocator layout ∨
    (h.allocator.bump.current + layout.align < 2 ^ 64 ∧
      ¬ (HeapOp.alloc layout).SaturatesPastEnd h)

/-! ### One request -/

theorem SlabClass.suits_iff {s : SlabClass} {layout : Layout} :
    s.Suits layout ↔ fits layout s = true := by
  rw [fits_iff, Suits]
  exact Nat.max_le

theorem classesEmpty_iff {a : SlabAllocator} {layout : Layout} :
    ClassesEmpty a layout ↔ ∀ s ∈ a.slabs, fits layout s = true → s.freeHead = 0 := by
  simp only [ClassesEmpty, SlabClass.suits_iff]

section Bump

variable {a : SlabAllocator} {layout : Layout} {start : Nat}

/-- The address that `align_up` computes fits if any does. -/
theorem BumpFits.of_any (hstart : alignUp a.bump.current layout.align = some start) {x : Nat}
    (h : BumpFits a layout x) : BumpFits a layout start ∧ start ≤ x := by
  obtain ⟨haligned, habove, hleast⟩ := alignUp_spec layout.align_pow2 hstart
  have hle := hleast x h.aligned h.above
  exact ⟨⟨haligned, habove, Nat.le_trans (Nat.add_le_add_right hle _) h.below⟩, hle⟩

end Bump

namespace SlabInv

variable {heapVirt heapSize : Nat} {h : Heap} {layout : Layout}

/-- The classes come in increasing sizes. -/
theorem objSize_le (inv : SlabInv heapVirt h) {pre post : List SlabClass} {s : SlabClass}
    (hsplit : h.allocator.slabs = pre ++ s :: post) : ∀ t ∈ post, s.objSize ≤ t.objSize := by
  have hsizes : h.allocator.slabs.map SlabClass.objSize = slabSizes := by
    have hshape := congrArg (List.map Prod.fst) inv.shape
    rw [List.map_map] at hshape
    exact hshape
  have hsorted : slabSizes.Pairwise (· ≤ ·) := by decide
  rw [← hsizes, hsplit, List.map_append, List.map_cons, List.pairwise_append] at hsorted
  intro t ht
  exact (List.pairwise_cons.mp hsorted.2.1).1 _ (List.mem_map_of_mem ht)

/-- A request that the classes serve. -/
theorem fromClass (inv : SlabInv heapVirt h) {pre post : List SlabClass} {s : SlabClass}
    (hsplit : h.allocator.slabs = pre ++ s :: post)
    (hfits : SlabAllocator.fits layout s = true)
    (hempty : ∀ t ∈ pre, SlabAllocator.fits layout t = true → t.freeHead = 0) :
    FromClass h.allocator h.mem layout
      { h.allocator with slabs := pre ++ s.popped h.mem :: post } s.freeHead := by
  refine ⟨pre, s, post, hsplit, SlabClass.suits_iff.mpr hfits, rfl, ?_, rfl⟩
  intro t ht hsuits hne
  rw [hsplit] at ht
  rcases List.mem_append.mp ht with ht | ht
  · exact absurd (hempty t ht (SlabClass.suits_iff.mp hsuits)) hne
  · rcases List.mem_cons.mp ht with rfl | ht
    · exact Nat.le_refl _
    · exact inv.objSize_le hsplit t ht

/-- A request for which the classes are empty and both sums fit. -/
theorem answeredRight_bump (inv : SlabInv heapVirt h) (hpos : 0 < heapVirt)
    (hend : h.allocator.bump.end_ < 2 ^ 64) (hempty : ClassesEmpty h.allocator layout)
    (hsat : ¬ (HeapOp.alloc layout).SaturatesPastEnd h) {start : Nat}
    (hstart : alignUp h.allocator.bump.current layout.align = some start)
    {a : SlabAllocator} {p : Nat} (heq : h.allocator.alloc h.mem layout = some (a, p))
    (hcase : (h.allocator.bump.end_ < min (start + layout.size) usizeMax ∧ p = 0 ∧
        a = h.allocator) ∨
      (min (start + layout.size) usizeMax ≤ h.allocator.bump.end_ ∧ p = start ∧
        a = { h.allocator with bump :=
          { h.allocator.bump with current := min (start + layout.size) usizeMax } })) :
    AnsweredRight h layout := by
  refine ⟨a, p, heq, ?_⟩
  rcases hcase with ⟨hlt, rfl, rfl⟩ | ⟨hle, rfl, rfl⟩
  · refine ⟨iff_of_true rfl ⟨hempty, ?_⟩, fun _ => rfl, fun hne => absurd rfl hne⟩
    intro x hx
    have hbelow := (BumpFits.of_any hstart hx).1.below
    have hmin : min (start + layout.size) usizeMax ≤ start + layout.size := Nat.min_le_left _ _
    omega
  · obtain ⟨haligned, habove, -⟩ := alignUp_spec layout.align_pow2 hstart
    have hfit : p + layout.size ≤ usizeMax := by
      by_contra hover
      have hover := Nat.lt_of_not_le hover
      rw [Nat.min_eq_right hover.le] at hle
      refine hsat ⟨classesEmpty_iff.mp hempty, ?_, p, hstart, hover⟩
      unfold usizeMax at hle ⊢
      omega
    rw [Nat.min_eq_left hfit] at hle ⊢
    have hfits : BumpFits h.allocator layout p := ⟨haligned, habove, hle⟩
    have hne : p ≠ 0 := by
      have hlo := inv.bumpLo
      have hbase : heapVirt ≤ bumpBase heapVirt := Nat.le_add_right _ _
      omega
    refine ⟨iff_of_false hne fun hnone => hnone.2 p hfits, fun h0 => absurd h0 hne, fun _ => ?_⟩
    exact Or.inr ⟨hempty, hfits, fun x hx => (BumpFits.of_any hstart hx).2, rfl⟩

/-- A request that gets past neither sum is answered right. -/
theorem answeredRight (inv : SlabInv heapVirt h) (hpos : 0 < heapVirt)
    (hend : h.allocator.bump.end_ < 2 ^ 64) (hsums : SumsFit h layout) :
    AnsweredRight h layout := by
  cases heq : h.allocator.alloc h.mem layout with
  | none =>
      exfalso
      rcases SlabAllocator.alloc_eq_none heq with ⟨s, hs, hhead, hcount⟩ | ⟨hempty, hover⟩
      · exact inv.alloc_ne_none hs (SlabClass.alloc_eq_none.mpr ⟨hhead, hcount⟩)
      · rcases hsums with hclass | ⟨hsum, -⟩
        · exact hclass (classesEmpty_iff.mpr hempty)
        · omega
  | some r =>
      obtain ⟨a, p⟩ := r
      rcases SlabAllocator.alloc_cases inv.initialized heq with
        ⟨pre, s, post, hsplit, rfl, hfits, rfl, hne, -, hpre⟩ | ⟨hempty, start, hstart, hcase⟩
      · refine ⟨_, _, heq, iff_of_false hne ?_, fun h0 => absurd h0 hne, fun _ => ?_⟩
        · rintro ⟨hnone, -⟩
          have hs : s ∈ h.allocator.slabs := by
            rw [hsplit]
            exact mem_split.mpr (Or.inl rfl)
          exact hne (hnone s hs (SlabClass.suits_iff.mpr hfits))
        · exact Or.inl (inv.fromClass hsplit hfits hpre)
      · have hempty := classesEmpty_iff.mpr hempty
        rcases hsums with hclass | ⟨-, hsat⟩
        · exact absurd hempty hclass
        · exact inv.answeredRight_bump hpos hend hempty hsat hstart heq hcase

/-- A request that gets past one of them is not. -/
theorem sumsFit_of_answeredRight (inv : SlabInv heapVirt h) (hpos : 0 < heapVirt)
    (hright : AnsweredRight h layout) : SumsFit h layout := by
  obtain ⟨a, p, heq, -, -, hanswer⟩ := hright
  by_contra hsums
  unfold SumsFit at hsums
  rw [not_or, not_not] at hsums
  obtain ⟨hnone, hsums⟩ := hsums
  have hempty := classesEmpty_iff.mp hnone
  rcases SlabAllocator.alloc_cases inv.initialized heq with
    ⟨pre, s, post, hsplit, -, hfits, rfl, hne, -, -⟩ | ⟨-, start, hstart, hcase⟩
  · exact hne (hempty s (by rw [hsplit]; exact mem_split.mpr (Or.inl rfl)) hfits)
  · have hsum : h.allocator.bump.current + layout.align < 2 ^ 64 := by
      by_contra hover
      rw [alignUp, if_neg hover] at hstart
      exact absurd hstart (by simp)
    have hsat : (HeapOp.alloc layout).SaturatesPastEnd h := by
      by_contra hsat
      exact hsums ⟨hsum, hsat⟩
    obtain ⟨-, hend, start', hstart', hover⟩ := hsat
    obtain rfl : start = start' := by
      rw [hstart] at hstart'
      exact Option.some.inj hstart'
    rcases hcase with ⟨hlt, -, -⟩ | ⟨-, rfl, -⟩
    · have hmin : min (start + layout.size) usizeMax ≤ usizeMax := Nat.min_le_right _ _
      omega
    · have hne : p ≠ 0 := by
        obtain ⟨-, habove, -⟩ := alignUp_spec layout.align_pow2 hstart
        have hlo := inv.bumpLo
        have hbase : heapVirt ≤ bumpBase heapVirt := Nat.le_add_right _ _
        omega
      rcases hanswer hne with ⟨pre, s, post, hsplit, hsuits, rfl, -, -⟩ | ⟨-, hfits, -, -⟩
      · exact hne (hnone s (by rw [hsplit]; exact mem_split.mpr (Or.inl rfl)) hsuits)
      · have hbelow := hfits.below
        omega

end SlabInv

/-! ### Every state -/

/-- No step moves the end of the bump region. -/
theorem HeapStep.end_eq {h h' : Heap} {op : HeapOp} (hinit : h.allocator.initialized = true)
    (hstep : HeapStep h op h') : h'.allocator.bump.end_ = h.allocator.bump.end_ := by
  cases hstep with
  | alloc hsize heq =>
      rcases SlabAllocator.alloc_cases hinit heq with
        ⟨pre, s, post, -, rfl, -, -, -, -, -⟩ | ⟨-, start, -, ⟨-, -, rfl⟩ | ⟨-, -, rfl⟩⟩
      · rfl
      · rfl
      · rfl
  | dealloc hb => rfl
  | write hb hlo hhi => rfl

/--
**A request is answered right exactly when it gets past neither sum.**  In every state a
client can bring the heap to, whatever it asked for on the way, null then means that
nothing fits and changes nothing, and any other answer is the block the request is due.
-/
theorem answered_right_iff {m : Mem} {heapVirt heapSize : Nat} {trace : List (Heap × HeapOp)}
    {h : Heap} (hpos : heapVirt ≠ 0) (hbase : bumpBase heapVirt < 2 ^ 64)
    (hfit : heapVirt + heapSize < 2 ^ 64)
    (hrun : Run HeapStep (Heap.boot m heapVirt heapSize) trace h) (layout : Layout) :
    AnsweredRight h layout ↔ SumsFit h layout := by
  have hpos' : 0 < heapVirt := Nat.pos_of_ne_zero hpos
  obtain ⟨inv, hend⟩ : SlabInv heapVirt h ∧ h.allocator.bump.end_ = heapVirt + heapSize := by
    refine hrun.always (I := fun h => SlabInv heapVirt h ∧
      h.allocator.bump.end_ = heapVirt + heapSize) ?_ ?_
    · exact ⟨boot_slabInv m heapVirt heapSize hpos' hbase, rfl⟩
    · intro s op s' hs hstep
      exact ⟨hs.1.step hpos' hbase hstep, (hstep.end_eq hs.1.initialized).trans hs.2⟩
  exact ⟨inv.sumsFit_of_answeredRight hpos', inv.answeredRight hpos' (hend ▸ hfit)⟩

/-- A byte, at a multiple of 2^62. -/
def farAligned : Layout := ⟨1, 2 ^ 62, ⟨62, rfl⟩, by decide⟩

/-- After a mebibyte was asked for on an ordinary heap. -/
theorem answered_right_iff_ordinary :
    ∃ trace h, trace ≠ [] ∧
      Run HeapStep (Heap.boot (fun _ => 0) (2 ^ 20) (2 ^ 20)) trace h ∧
      (AnsweredRight h farAligned ↔ SumsFit h farAligned) := by
  have inv := boot_inv (fun _ => 0) (2 ^ 20) (2 ^ 20) (by decide) (by decide) (by decide)
  obtain ⟨h', hstep⟩ := inv.exists_alloc mebibyte (by decide) (by decide)
  have hrun := Run.nil.snoc hstep
  exact ⟨_, h', by simp, hrun,
    answered_right_iff (by decide) (by decide) (by decide) hrun farAligned⟩

/-- On a heap in the upper half of the address space the same request panics. -/
theorem request_panics_upper_half :
    4096 ∣ 0xFFFF800000000000 ∧ slabRegionBytes ≤ 2 ^ 20 ∧ 0xFFFF800000000000 + 2 ^ 20 < 2 ^ 64 ∧
      1 ≤ farAligned.size ∧
      ¬ AnsweredRight (Heap.boot (fun _ => 0) 0xFFFF800000000000 (2 ^ 20)) farAligned := by
  refine ⟨by decide, by decide, by decide, by decide, ?_⟩
  have inv := boot_slabInv (fun _ => 0) 0xFFFF800000000000 (2 ^ 20) (by decide) (by decide)
  intro hright
  rcases inv.sumsFit_of_answeredRight (by decide) hright with hclass | ⟨hsum, -⟩
  · refine hclass fun s hs hsuits => ?_
    -- No class has blocks at multiples of 2^62.
    obtain ⟨k, -, hk, hobj⟩ := (inv.pool hs).size
    have hle : 2 ^ k ≤ 2 ^ 8 := Nat.pow_le_pow_right (by omega) hk
    have halign : 2 ^ 62 ≤ s.objSize := Nat.le_trans (Nat.le_max_right _ _) hsuits
    omega
  · rw [boot_current] at hsum
    exact absurd hsum (by decide)

end Amaterasu
