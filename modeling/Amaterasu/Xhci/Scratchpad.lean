/-
Scratchpad pages, and how many of them the controller asked for.

A controller that needs pages of its own says how many in HCSPARAMS2, and is told where they
are by an array of addresses that entry 0 of the DCBAA points at.  The pages that
`init_unsafe` does allocate are what they should be, whatever was allocated before.  But it
reads the two halves of the count in other bits than the register has them in, and its array
has 32 entries, so that only counts without a high half are met.
-/
import Amaterasu.Lib.Loop
import Amaterasu.Xhci.Dma

namespace Amaterasu

/-! ### The code -/

/-- `phys`. -/
def phys (virt po : Nat) : Option Nat := if po ≤ virt then some (virt - po) else none

/-- `sp_cnt`. -/
def spCnt (hcsparams2 : UInt32) : Nat :=
  let spHi := (hcsparams2 >>> 27) &&& 0x1F
  let spLo := (hcsparams2 >>> 8) &&& 0x1F
  ((spHi <<< 5) ||| spLo).toNat

/-- One turn of the loop: a page, and its address in the array. -/
def scratchpadPage (po spArr : Nat) (h : Heap) (i : Nat) : Option Heap := do
  let (h, pg) ← allocZeroed h .spPage
  let pgPhys ← phys pg po
  some { h with mem := h.mem.writeWord (spArr + 8 * i) pgPhys }

/-- The scratchpad step. -/
def scratchpad (po dcbaa : Nat) (hcsparams2 : UInt32) (h : Heap) : Option Heap :=
  if spCnt hcsparams2 > 0 then do
    let (h, spArr) ← allocZeroed h .spArr
    let spArrPhys ← phys spArr po
    let h ← (List.range (min (spCnt hcsparams2) 32)).foldlM (scratchpadPage po spArr) h
    some { h with mem := h.mem.writeWord dcbaa spArrPhys }
  else some h

/-- `init_unsafe` from its first allocation to the end of the scratchpad step; the second
component is `dcbaa`. -/
def initDma (po : Nat) (hcsparams2 : UInt32) (h : Heap) : Option (Heap × Nat) := do
  let (h, dcbaa) ← allocZeroed h .dcbaa
  let (h, cmdRing) ← allocZeroed h .cmdRing
  let (h, evtRing) ← allocZeroed h .evtRing
  let (h, erst) ← allocZeroed h .erst
  let _ ← phys dcbaa po
  let _ ← phys cmdRing po
  let _ ← phys evtRing po
  let _ ← phys erst po
  let h ← scratchpad po dcbaa hcsparams2 h
  some (h, dcbaa)

/-! ### The register, and what it asks for -/

/-- Max Scratchpad Buffers Hi. -/
def maxScratchpadHi (hcsparams2 : UInt32) : Nat := ((hcsparams2 >>> 21) &&& 0x1F).toNat

/-- Max Scratchpad Buffers Lo. -/
def maxScratchpadLo (hcsparams2 : UInt32) : Nat := ((hcsparams2 >>> 27) &&& 0x1F).toNat

def maxScratchpad (hcsparams2 : UInt32) : Nat :=
  maxScratchpadHi hcsparams2 * 32 + maxScratchpadLo hcsparams2

/-- Entry `i` of the array of addresses at `arr`. -/
def Heap.entry (h : Heap) (arr i : Nat) : Nat := h.mem.readWord (arr + 8 * i)

/-- The first `n` entries are the physical addresses of pages. -/
structure PagesAt (po : Nat) (h : Heap) (arr n : Nat) : Prop where
  live : ∀ i < n, ⟨h.entry arr i + po, DmaObject.spPage.layout⟩ ∈ h.live
  apart : ∀ i j, i < j → j < n →
    h.entry arr i + 4096 ≤ h.entry arr j ∨ h.entry arr j + 4096 ≤ h.entry arr i

/-- `n` pages are published in the DCBAA. -/
structure Published (po : Nat) (h : Heap) (dcbaa n : Nat) : Prop where
  table : ⟨dcbaa, DmaObject.dcbaa.layout⟩ ∈ h.live
  array : ⟨h.entry dcbaa 0 + po, DmaObject.spArr.layout⟩ ∈ h.live
  inside : 8 * n ≤ DmaObject.spArr.size
  pages : PagesAt po h (h.entry dcbaa 0 + po) n
  aligned : ∀ i < n, 4096 ∣ h.entry (h.entry dcbaa 0 + po) i

/-- A field of five bits. -/
theorem and_31_lt (w : UInt32) : (w &&& 0x1F).toNat < 2 ^ 5 := by
  rw [UInt32.toNat_and]
  exact Nat.and_lt_two_pow _ (by decide)

/-- What is taken for the high half is the low one. -/
theorem spCnt_eq (w : UInt32) : ∃ x < 32, spCnt w = maxScratchpadLo w * 32 + x := by
  have hlo : maxScratchpadLo w < 2 ^ 5 := and_31_lt _
  refine ⟨((w >>> 8) &&& 0x1F).toNat, and_31_lt _, ?_⟩
  unfold spCnt
  rw [UInt32.toNat_or, UInt32.toNat_shiftLeft]
  show (maxScratchpadLo w <<< 5 % 2 ^ 32) ||| _ = _
  rw [Nat.mod_eq_of_lt (by rw [Nat.shiftLeft_eq]; omega),
    ← Nat.shiftLeft_add_eq_or_of_lt (and_31_lt _), Nat.shiftLeft_eq]

/-! ### Objects in the heap -/

section

variable {k : HeapPlace} {h h' : Heap} {o : DmaObject} {p : Nat}

/-- Physical addresses of objects in the heap. -/
theorem phys_spec (inv : k.Inv h) {layout : Layout} (hlive : ⟨p, layout⟩ ∈ h.live) :
    p < 2 ^ 64 ∧ ∃ v, phys p k.physOffset = some v ∧ v + k.physOffset = p := by
  obtain ⟨hlo, hhi⟩ : k.heapVirt ≤ p ∧ p + layout.size ≤ k.heapVirt + HEAP_SIZE :=
    (inv.safe k.aligned).inside _ hlive
  have hvirt : k.heapVirt = k.regionStart + k.physOffset := rfl
  have hfit := k.fits
  refine ⟨by omega, p - k.physOffset, if_pos (by omega), by omega⟩

/-- The heap is not at physical address 0, or what is there is eight bytes. -/
theorem offset_not_live (inv : k.Inv h) {layout : Layout} (hsize : 8 < layout.size) :
    ⟨0 + k.physOffset, layout⟩ ∉ h.live := by
  intro hlive
  obtain ⟨hlo, -⟩ := (inv.safe k.aligned).inside _ hlive
  have hvirt : k.heapVirt = k.regionStart + k.physOffset := rfl
  have hbase : bumpBase k.heapVirt = k.heapVirt + 258048 := rfl
  obtain ⟨s, hs, howns, -, -, hlimit, -⟩ := inv.pool_block hlive (by dsimp only; omega)
  have hstart := (SlabClass.owns_iff.mp howns).1
  have hmem : s.shape ∈ classGeometry k.heapVirt := by
    rw [← inv.shape]
    exact List.mem_map_of_mem hs
  simp only [classGeometry, SlabClass.shape, List.mem_cons, Prod.mk.injEq, List.not_mem_nil,
    or_false] at hmem
  have hend : Block.limit ⟨0 + k.physOffset, layout⟩ = 0 + k.physOffset + layout.size := rfl
  dsimp only at hstart hlo hlimit
  omega

/-- The words of the objects that were there before. -/
theorem Placed.entry_eq (placed : Placed h o h' p) (inv : k.Inv h') {b : Block}
    (hb : b ∈ h.live) {i : Nat} (hi : 8 * i + 8 ≤ b.layout.size) :
    h'.entry b.ptr i = h.entry b.ptr i := by
  have hapart := placed.apart inv hb
  refine Mem.readWord_congr fun x hlo hhi => placed.frame x ?_
  omega

theorem Placed.entry_zero (placed : Placed h o h' p) {i : Nat} (hi : 8 * i + 8 ≤ o.size) :
    h'.entry p i = 0 := by
  have hzero : h'.entry p i = Mem.readWord (fun _ => 0) (p + 8 * i) :=
    Mem.readWord_congr fun x hlo hhi => placed.zero x (by omega) (by omega)
  rw [hzero]
  rfl

end

/-! ### The loop -/

/-- The array at `spArr` has its first `i` entries, and the DCBAA has `link` for entry 0. -/
structure Filled (k : HeapPlace) (dcbaa spArr link i : Nat) (h : Heap) : Prop where
  inv : k.Inv h
  table : ⟨dcbaa, DmaObject.dcbaa.layout⟩ ∈ h.live
  array : ⟨spArr, DmaObject.spArr.layout⟩ ∈ h.live
  link : h.entry dcbaa 0 = link
  pages : PagesAt k.physOffset h spArr i
  rest : ∀ j, i ≤ j → j < 32 → h.entry spArr j = 0

namespace Filled

variable {k : HeapPlace} {h h' : Heap} {dcbaa spArr link i : Nat}

/-- The DCBAA and the array do not overlap. -/
theorem apart (hf : Filled k dcbaa spArr link i h) :
    dcbaa + 2048 ≤ spArr ∨ spArr + 256 ≤ dcbaa := by
  refine hf.inv.apart_of_ne hf.table hf.array ?_
  intro heq
  have hsize : (2048 : Nat) = 256 := congrArg (fun b => b.layout.size) heq
  omega

/-- The state behind a turn of the loop. -/
theorem page (hf : Filled k dcbaa spArr link i h) (hi : i < 32)
    (heq : scratchpadPage k.physOffset spArr h i = some h') :
    Filled k dcbaa spArr link (i + 1) h' := by
  obtain ⟨⟨g, pg⟩, halloc, hrest⟩ := Option.bind_eq_some_iff.mp heq
  obtain ⟨v, hphys, hlast⟩ := Option.bind_eq_some_iff.mp hrest
  obtain rfl := Option.some.inj hlast
  have inv := allocZeroed_inv hf.inv halloc
  have placed := allocZeroed_placed hf.inv halloc
  obtain ⟨hlt, v', hphys', hsum⟩ := phys_spec inv placed.mem
  obtain rfl : v = v' := Option.some.inj (hphys.symm.trans hphys')
  have hapart := hf.apart
  have harray : DmaObject.spArr.layout.size = 256 := rfl
  have htable : DmaObject.dcbaa.layout.size = 2048 := rfl
  -- The store sets entry `i`, and nothing else that has been set.
  have hself : ({ g with mem := g.mem.writeWord (spArr + 8 * i) v } : Heap).entry spArr i = v :=
    Mem.readWord_writeWord_self _ _ (by omega)
  have hother : ∀ j, j ≠ i → j < 32 →
      ({ g with mem := g.mem.writeWord (spArr + 8 * i) v } : Heap).entry spArr j
        = h.entry spArr j := by
    intro j hne hj
    rw [← placed.entry_eq inv hf.array (show 8 * j + 8 ≤ 256 by omega)]
    exact Mem.readWord_writeWord_ne _ (by omega)
  constructor
  case inv =>
    refine inv.overwrite (placed.keeps hf.array) fun x hx => if_neg ?_
    have hout : x < spArr ∨ spArr + 256 ≤ x := hx
    omega
  case table => exact placed.keeps hf.table
  case array => exact placed.keeps hf.array
  case link =>
    rw [← hf.link, ← placed.entry_eq inv hf.table (show 8 * 0 + 8 ≤ 2048 by omega)]
    exact Mem.readWord_writeWord_ne _ (by omega)
  case pages =>
    constructor
    · intro j hj
      rcases Nat.lt_succ_iff_lt_or_eq.mp hj with hlt | rfl
      · rw [hother j (by omega) (by omega)]
        exact placed.keeps (hf.pages.live j hlt)
      · rw [hself, hsum]
        exact placed.mem
    · intro a b hab hb
      rw [hother a (by omega) (by omega)]
      rcases Nat.lt_succ_iff_lt_or_eq.mp hb with hlt | rfl
      · rw [hother b (by omega) (by omega)]
        exact hf.pages.apart a b hab hlt
      · -- The new page is apart from all that was live.
        rw [hself]
        have hpage : pg + 4096 ≤ h.entry spArr a + k.physOffset ∨
            h.entry spArr a + k.physOffset + 4096 ≤ pg :=
          placed.apart inv (hf.pages.live a (by omega))
        omega
  case rest =>
    intro j hle hj
    rw [hother j (by omega) hj]
    exact hf.rest j (by omega) hj

/-- With room for a page and its padding, a turn ends. -/
theorem exists_page (hf : Filled k dcbaa spArr link i h)
    (hroom : h.allocator.bump.current + 8192 ≤ h.allocator.bump.end_) :
    ∃ h', scratchpadPage k.physOffset spArr h i = some h' ∧
      h'.allocator.bump.end_ = h.allocator.bump.end_ ∧
      h'.allocator.bump.current ≤ h.allocator.bump.current + 8192 := by
  have hsize : DmaObject.spPage.size = 4096 := rfl
  have halign : DmaObject.spPage.align = 4096 := rfl
  obtain ⟨g, pg, halloc, hend, hcurrent⟩ := exists_allocZeroed hf.inv .spPage (by omega)
  obtain ⟨-, v, hphys, -⟩ :=
    phys_spec (allocZeroed_inv hf.inv halloc) (allocZeroed_placed hf.inv halloc).mem
  refine ⟨{ g with mem := g.mem.writeWord (spArr + 8 * i) v }, ?_, hend, by dsimp only; omega⟩
  rw [scratchpadPage, halloc]
  show (phys pg k.physOffset).bind _ = _
  rw [hphys]
  rfl

/-- The last store of the step. -/
theorem publish (hf : Filled k dcbaa spArr link i h) (hi : i ≤ 32) {v : Nat} (hv : v < 2 ^ 64) :
    Filled k dcbaa spArr v i { h with mem := h.mem.writeWord dcbaa v } := by
  have hapart := hf.apart
  have hother : ∀ j, j < 32 →
      ({ h with mem := h.mem.writeWord dcbaa v } : Heap).entry spArr j = h.entry spArr j := by
    intro j hj
    exact Mem.readWord_writeWord_ne _ (by omega)
  constructor
  case inv =>
    refine hf.inv.overwrite hf.table fun x hx => if_neg ?_
    have hout : x < dcbaa ∨ dcbaa + 2048 ≤ x := hx
    omega
  case table => exact hf.table
  case array => exact hf.array
  case link => exact Mem.readWord_writeWord_self _ _ hv
  case pages =>
    constructor
    · intro j hj
      rw [hother j (by omega)]
      exact hf.pages.live j hj
    · intro a b hab hb
      rw [hother a (by omega), hother b (by omega)]
      exact hf.pages.apart a b hab hb
  case rest =>
    intro j hle hj
    rw [hother j hj]
    exact hf.rest j hle hj

/-- Enough entries, each the address of a page. -/
theorem published (hf : Filled k dcbaa spArr link i h) (hlink : link + k.physOffset = spArr)
    {n : Nat} (hn : n ≤ i) (hi : i ≤ 32) : Published k.physOffset h dcbaa n := by
  have hsize : DmaObject.spArr.size = 256 := rfl
  have harray : h.entry dcbaa 0 + k.physOffset = spArr := by rw [hf.link, hlink]
  refine ⟨hf.table, ?_, by omega, ?_, ?_⟩
  · rw [harray]
    exact hf.array
  · rw [harray]
    exact ⟨fun j hj => hf.pages.live j (by omega),
      fun a b hab hb => hf.pages.apart a b hab (by omega)⟩
  · intro j hj
    rw [harray]
    have halign : 4096 ∣ h.entry spArr j + k.physOffset :=
      (hf.inv.safe k.aligned).aligned _ (hf.pages.live j (by omega))
    exact (Nat.dvd_add_left k.offset_aligned).mp halign

/-- An entry that is not set is the address of no page. -/
theorem not_published (hf : Filled k dcbaa spArr link i h) (hlink : link + k.physOffset = spArr)
    {n : Nat} (hn : i < n) (hi : i < 32) : ¬ Published k.physOffset h dcbaa n := by
  intro hpublished
  have harray : h.entry dcbaa 0 + k.physOffset = spArr := by rw [hf.link, hlink]
  have hlive := hpublished.pages.live i hn
  rw [harray, hf.rest i (Nat.le_refl i) hi] at hlive
  exact offset_not_live hf.inv (by decide) hlive

end Filled

/-! ### The step -/

/-- The DCBAA is allocated and nothing is in its entry 0. -/
structure Fresh (k : HeapPlace) (dcbaa : Nat) (h : Heap) : Prop where
  inv : k.Inv h
  table : ⟨dcbaa, DmaObject.dcbaa.layout⟩ ∈ h.live
  unset : h.entry dcbaa 0 = 0

section

variable {k : HeapPlace} {h h' : Heap} {o : DmaObject} {dcbaa p : Nat} {w : UInt32}

theorem Fresh.first (inv : k.Inv h) (heq : allocZeroed h .dcbaa = some (h', p)) :
    Fresh k p h' := by
  have placed := allocZeroed_placed inv heq
  exact ⟨allocZeroed_inv inv heq, placed.mem, placed.entry_zero (by decide)⟩

theorem Fresh.next (hf : Fresh k dcbaa h) (heq : allocZeroed h o = some (h', p)) :
    Fresh k dcbaa h' ∧ ⟨p, o.layout⟩ ∈ h'.live := by
  have placed := allocZeroed_placed hf.inv heq
  have inv := allocZeroed_inv hf.inv heq
  have hentry := placed.entry_eq inv hf.table (show 8 * 0 + 8 ≤ 2048 by omega)
  exact ⟨⟨inv, placed.keeps hf.table, hentry.trans hf.unset⟩, placed.mem⟩

/-- The array, right after it is allocated. -/
theorem Fresh.array (hf : Fresh k dcbaa h) (heq : allocZeroed h .spArr = some (h', p)) :
    Filled k dcbaa p 0 0 h' := by
  obtain ⟨hfresh, harray⟩ := hf.next heq
  have placed := allocZeroed_placed hf.inv heq
  refine ⟨hfresh.inv, hfresh.table, harray, hfresh.unset, ⟨?_, ?_⟩, ?_⟩
  · exact fun i hi => absurd hi (Nat.not_lt_zero i)
  · exact fun i j _ hj => absurd hj (Nat.not_lt_zero j)
  · intro j _ hj
    have hsize : DmaObject.spArr.size = 256 := rfl
    exact placed.entry_zero (by omega)

/-- The step does nothing, or publishes as many pages as it counts, up to 32. -/
theorem scratchpad_spec (hf : Fresh k dcbaa h)
    (heq : scratchpad k.physOffset dcbaa w h = some h') :
    (spCnt w = 0 ∧ h' = h) ∨
      (0 < spCnt w ∧ ∃ link spArr, link + k.physOffset = spArr ∧
        Filled k dcbaa spArr link (min (spCnt w) 32) h') := by
  unfold scratchpad at heq
  split at heq
  · rename_i hpos
    obtain ⟨⟨g, spArr⟩, halloc, hrest⟩ := Option.bind_eq_some_iff.mp heq
    obtain ⟨v, hphys, hrest⟩ := Option.bind_eq_some_iff.mp hrest
    obtain ⟨g', hloop, hlast⟩ := Option.bind_eq_some_iff.mp hrest
    obtain rfl := Option.some.inj hlast
    have hstart : Filled k dcbaa spArr 0 0 g := hf.array halloc
    have hfilled : Filled k dcbaa spArr 0 (min (spCnt w) 32) g' := by
      refine counted_spec (I := fun i h => Filled k dcbaa spArr 0 i h) ?_ hstart hloop
      intro i s s' hi hs hturn
      exact hs.page (by omega) hturn
    obtain ⟨hlt, v', hphys', hsum⟩ := phys_spec hstart.inv hstart.array
    obtain rfl : v = v' := Option.some.inj (hphys.symm.trans hphys')
    exact Or.inr ⟨hpos, v, spArr, hsum, hfilled.publish (by omega) (by omega)⟩
  · exact Or.inl ⟨by omega, (Option.some.inj heq).symm⟩

/-- Pages are published exactly when the register has no high half. -/
theorem scratchpad_published (hf : Fresh k dcbaa h)
    (heq : scratchpad k.physOffset dcbaa w h = some h') :
    (0 < maxScratchpad w → Published k.physOffset h' dcbaa (maxScratchpad w)) ↔
      maxScratchpadHi w = 0 := by
  obtain ⟨x, hx, hcnt⟩ := spCnt_eq w
  have hlo : maxScratchpadLo w < 2 ^ 5 := and_31_lt _
  have hn : maxScratchpad w = maxScratchpadHi w * 32 + maxScratchpadLo w := rfl
  have hsize : DmaObject.spArr.size = 256 := rfl
  rcases Nat.eq_zero_or_pos (maxScratchpadHi w) with hhi | hhi
  · refine iff_of_true (fun hpos => ?_) hhi
    -- What the code counts is 32 times too much, and cut off at 32.
    rcases scratchpad_spec hf heq with ⟨hzero, -⟩ | ⟨-, link, spArr, hlink, hfilled⟩
    · omega
    · exact hfilled.published hlink (by omega) (by omega)
  · refine iff_of_false (fun hall => ?_) (by omega)
    have hpublished := hall (by omega)
    have hinside := hpublished.inside
    -- The array has room for one such count only, and its low half is 0.
    rcases scratchpad_spec hf heq with ⟨-, rfl⟩ | ⟨-, link, spArr, hlink, hfilled⟩
    · have harray := hpublished.array
      rw [hf.unset] at harray
      exact offset_not_live hf.inv (by decide) harray
    · exact hfilled.not_published hlink (by omega) (by omega) hpublished

/-- With room for its objects, the step ends. -/
theorem exists_scratchpad (hf : Fresh k dcbaa h) (w : UInt32)
    (hroom : h.allocator.bump.current + (320 + 32 * 8192) ≤ h.allocator.bump.end_) :
    ∃ h', scratchpad k.physOffset dcbaa w h = some h' := by
  unfold scratchpad
  split
  · have hsize : DmaObject.spArr.size = 256 := rfl
    have halign : DmaObject.spArr.align = 64 := rfl
    obtain ⟨g, spArr, halloc, hend, hcurrent⟩ := exists_allocZeroed hf.inv .spArr (by omega)
    have hstart : Filled k dcbaa spArr 0 0 g := hf.array halloc
    obtain ⟨-, v, hphys, -⟩ := phys_spec hstart.inv hstart.array
    have hloop : ∃ g', (List.range (min (spCnt w) 32)).foldlM
        (scratchpadPage k.physOffset spArr) g = some g' := by
      refine (counted_ends (I := fun i s => Filled k dcbaa spArr 0 i s ∧
        s.allocator.bump.end_ = h.allocator.bump.end_ ∧
        s.allocator.bump.current + (32 - i) * 8192 ≤ h.allocator.bump.end_) ?_
        ⟨hstart, hend, by omega⟩).imp fun _ hs => hs.1
      rintro i s hi ⟨hs, hsend, hsroom⟩
      obtain ⟨s', hturn, hsend', hcurrent'⟩ := hs.exists_page (by omega)
      exact ⟨s', hturn, hs.page (by omega) hturn, by omega, by omega⟩
    obtain ⟨g', hloop⟩ := hloop
    refine ⟨{ g' with mem := g'.mem.writeWord dcbaa v }, ?_⟩
    rw [halloc]
    show (phys spArr k.physOffset).bind _ = _
    rw [hphys]
    show ((List.range (min (spCnt w) 32)).foldlM (scratchpadPage k.physOffset spArr) g).bind _ = _
    rw [hloop]
    rfl
  · exact ⟨h, rfl⟩

/-! ### From the first allocation on -/

/-- Four allocations, and the step. -/
theorem initDma_cases (inv : k.Inv h) (heq : initDma k.physOffset w h = some (h', dcbaa)) :
    ∃ g₁ g₂ g₃ g₄ p₂ p₃ p₄, allocZeroed h .dcbaa = some (g₁, dcbaa) ∧
      allocZeroed g₁ .cmdRing = some (g₂, p₂) ∧ allocZeroed g₂ .evtRing = some (g₃, p₃) ∧
      allocZeroed g₃ .erst = some (g₄, p₄) ∧ Fresh k dcbaa g₄ ∧
      scratchpad k.physOffset dcbaa w g₄ = some h' := by
  obtain ⟨⟨g₁, p₁⟩, h₁, hrest⟩ := Option.bind_eq_some_iff.mp heq
  obtain ⟨⟨g₂, p₂⟩, h₂, hrest⟩ := Option.bind_eq_some_iff.mp hrest
  obtain ⟨⟨g₃, p₃⟩, h₃, hrest⟩ := Option.bind_eq_some_iff.mp hrest
  obtain ⟨⟨g₄, p₄⟩, h₄, hrest⟩ := Option.bind_eq_some_iff.mp hrest
  obtain ⟨_, -, hrest⟩ := Option.bind_eq_some_iff.mp hrest
  obtain ⟨_, -, hrest⟩ := Option.bind_eq_some_iff.mp hrest
  obtain ⟨_, -, hrest⟩ := Option.bind_eq_some_iff.mp hrest
  obtain ⟨_, -, hrest⟩ := Option.bind_eq_some_iff.mp hrest
  obtain ⟨g, hstep, hlast⟩ := Option.bind_eq_some_iff.mp hrest
  obtain ⟨rfl, rfl⟩ := Prod.mk.inj (Option.some.inj hlast)
  exact ⟨g₁, g₂, g₃, g₄, p₂, p₃, p₄, h₁, h₂, h₃, h₄,
    ((((Fresh.first inv h₁).next h₂).1.next h₃).1.next h₄).1, hstep⟩

theorem initDma_fresh (inv : k.Inv h) (heq : initDma k.physOffset w h = some (h', dcbaa)) :
    ∃ g, Fresh k dcbaa g ∧ scratchpad k.physOffset dcbaa w g = some h' := by
  obtain ⟨_, _, _, g, _, _, _, -, -, -, -, hfresh, hstep⟩ := initDma_cases inv heq
  exact ⟨g, hfresh, hstep⟩

theorem exists_initDma (inv : k.Inv h) (w : UInt32)
    (hroom : h.allocator.bump.current + 65 * 4096 ≤ h.allocator.bump.end_) :
    ∃ h' dcbaa, initDma k.physOffset w h = some (h', dcbaa) := by
  have hsizes : DmaObject.dcbaa.size = 2048 ∧ DmaObject.cmdRing.size = 256 ∧
      DmaObject.evtRing.size = 1024 ∧ DmaObject.erst.size = 64 := ⟨rfl, rfl, rfl, rfl⟩
  have haligns : DmaObject.dcbaa.align = 64 ∧ DmaObject.cmdRing.align = 64 ∧
      DmaObject.evtRing.align = 64 ∧ DmaObject.erst.align = 64 := ⟨rfl, rfl, rfl, rfl⟩
  obtain ⟨g₁, p₁, h₁, hend₁, hcur₁⟩ := exists_allocZeroed inv .dcbaa (by omega)
  have f₁ := Fresh.first inv h₁
  obtain ⟨g₂, p₂, h₂, hend₂, hcur₂⟩ := exists_allocZeroed f₁.inv .cmdRing (by omega)
  obtain ⟨f₂, l₂⟩ := f₁.next h₂
  obtain ⟨g₃, p₃, h₃, hend₃, hcur₃⟩ := exists_allocZeroed f₂.inv .evtRing (by omega)
  obtain ⟨f₃, l₃⟩ := f₂.next h₃
  obtain ⟨g₄, p₄, h₄, hend₄, hcur₄⟩ := exists_allocZeroed f₃.inv .erst (by omega)
  obtain ⟨f₄, l₄⟩ := f₃.next h₄
  obtain ⟨g, hstep⟩ := exists_scratchpad f₄ w (by omega)
  obtain ⟨-, v₁, e₁, -⟩ := phys_spec f₁.inv f₁.table
  obtain ⟨-, v₂, e₂, -⟩ := phys_spec f₂.inv l₂
  obtain ⟨-, v₃, e₃, -⟩ := phys_spec f₃.inv l₃
  obtain ⟨-, v₄, e₄, -⟩ := phys_spec f₄.inv l₄
  refine ⟨g, p₁, ?_⟩
  simp only [initDma, h₁, h₂, h₃, h₄, e₁, e₂, e₃, e₄, hstep, Option.bind_eq_bind,
    Option.bind_some]

end

/--
**Scratchpad pages are published exactly when the count has no high half.**  From every state
of the heap, with room for them or not, and for every value of the register: when the step
ends, the pages it asks for are published, unless bits 25:21 are not zero, and then they are
not.
-/
theorem scratchpad_published_iff {k : HeapPlace} {m : Mem} {trace : List (Heap × HeapOp)}
    {h : Heap} (hrun : Run HeapStep (k.boot m) trace h) (hcsparams2 : UInt32) :
    (h.allocator.bump.current + 65 * 4096 ≤ h.allocator.bump.end_ →
      (initDma k.physOffset hcsparams2 h).isSome) ∧
    ∀ h' dcbaa, initDma k.physOffset hcsparams2 h = some (h', dcbaa) →
      ((0 < maxScratchpad hcsparams2 →
        Published k.physOffset h' dcbaa (maxScratchpad hcsparams2)) ↔
          maxScratchpadHi hcsparams2 = 0) := by
  have inv := HeapPlace.inv_of_run hrun
  constructor
  · intro hroom
    obtain ⟨h', dcbaa, heq⟩ := exists_initDma inv hcsparams2 hroom
    rw [heq]
    rfl
  · intro h' dcbaa heq
    obtain ⟨g, hfresh, hstep⟩ := initDma_fresh inv heq
    exact scratchpad_published hfresh hstep

/-- A heap at the first mebibyte, mapped at four gibibytes. -/
def lowHeap : HeapPlace where
  regionStart := 2 ^ 20
  physOffset := 2 ^ 32
  region_aligned := by decide
  offset_aligned := by decide
  pos := by decide
  fits := by decide

theorem lowHeap_room (m : Mem) :
    (lowHeap.boot m).allocator.bump.current + 65 * 4096 ≤
      (lowHeap.boot m).allocator.bump.end_ := by
  have hcurrent : (lowHeap.boot m).allocator.bump.current = bumpBase lowHeap.heapVirt :=
    boot_current m _ _
  rw [hcurrent]
  show _ ≤ lowHeap.heapVirt + HEAP_SIZE
  decide

/-- A controller that asks for one page. -/
theorem scratchpad_published_iff_one : ∃ h' dcbaa,
    initDma lowHeap.physOffset 0x08000000 (lowHeap.boot fun _ => 0) = some (h', dcbaa) ∧
      Published lowHeap.physOffset h' dcbaa 1 := by
  obtain ⟨hends, hall⟩ :=
    scratchpad_published_iff (k := lowHeap) (m := fun _ => 0) Run.nil 0x08000000
  obtain ⟨⟨h', dcbaa⟩, heq⟩ := Option.isSome_iff_exists.mp (hends (lowHeap_room _))
  exact ⟨h', dcbaa, heq, (hall h' dcbaa heq).mpr (by decide) (by decide)⟩

/-- A controller that asks for 32 pages gets none: no bit that the code reads is set. -/
theorem scratchpad_not_published : ∃ h' dcbaa,
    initDma lowHeap.physOffset 0x00200000 (lowHeap.boot fun _ => 0) = some (h', dcbaa) ∧
      maxScratchpad 0x00200000 = 32 ∧ spCnt 0x00200000 = 0 ∧ h'.entry dcbaa 0 = 0 ∧
      ¬ Published lowHeap.physOffset h' dcbaa (maxScratchpad 0x00200000) := by
  have inv : lowHeap.Inv (lowHeap.boot fun _ => 0) := HeapPlace.inv_of_run Run.nil
  obtain ⟨h', dcbaa, heq⟩ := exists_initDma inv 0x00200000 (lowHeap_room _)
  obtain ⟨g, hfresh, hstep⟩ := initDma_fresh inv heq
  have hcnt : spCnt 0x00200000 = 0 := by decide
  have hiff := scratchpad_published hfresh hstep
  refine ⟨h', dcbaa, heq, by decide, hcnt, ?_, ?_⟩
  · rcases scratchpad_spec hfresh hstep with ⟨-, rfl⟩ | ⟨hpos, -⟩
    · exact hfresh.unset
    · omega
  · intro hpublished
    have hhi : maxScratchpadHi 0x00200000 = 0 := hiff.mp fun _ => hpublished
    exact absurd hhi (by decide)

end Amaterasu
