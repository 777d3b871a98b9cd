/-
What one allocator operation can do.

`allocSlabs` and `deallocSlabs` walk the six classes and stop at the first that
serves.  The invariant proofs never look inside those walks: `allocSlabs_cases`,
`deallocSlabs_cases` and `Bump.alloc_cases` say once which class changed, how, and
that every other class was left alone.
-/
import Amaterasu.Allocator.Model
import Mathlib.Data.Nat.Bitwise
import Mathlib.Algebra.Order.Ring.Nat

namespace Amaterasu

namespace SlabClass

/-- Where a class's pool lies and how it is cut up.  No operation changes it. -/
def shape (s : SlabClass) : Nat × Nat × Nat := (s.objSize, s.regionStart, s.total)

/-- Every block of the pool, in address order. -/
def blocks (s : SlabClass) : List Nat :=
  (List.range s.total).map fun i => s.regionStart + i * s.objSize

/-- The class after its first free block has been popped. -/
def popped (s : SlabClass) (m : Mem) : SlabClass :=
  { s with freeHead := m.readWord s.freeHead, freeCount := s.freeCount - 1 }

@[simp] theorem popped_shape (s : SlabClass) (m : Mem) : (s.popped m).shape = s.shape := rfl

@[simp] theorem dealloc_shape (s : SlabClass) (m : Mem) (ptr : Nat) :
    (s.dealloc m ptr).1.shape = s.shape := rfl

theorem owns_iff {s : SlabClass} {ptr : Nat} :
    s.owns ptr = true ↔ s.regionStart ≤ ptr ∧ ptr < s.regionStart + s.total * s.objSize := by
  simp [owns]

/-- Whose pool an address is in depends on the shape only. -/
theorem owns_congr {s t : SlabClass} (h : s.shape = t.shape) : s.owns = t.owns := by
  simp only [shape, Prod.mk.injEq] at h
  funext ptr
  simp only [owns, h]

theorem blocks_congr {s t : SlabClass} (h : s.shape = t.shape) : s.blocks = t.blocks := by
  simp only [shape, Prod.mk.injEq] at h
  simp only [blocks, h]

theorem mem_blocks {s : SlabClass} {p : Nat} :
    p ∈ s.blocks ↔ ∃ i, i < s.total ∧ s.regionStart + i * s.objSize = p := by
  simp [blocks]

theorem owns_of_mem_blocks {s : SlabClass} {p : Nat} (hsize : 0 < s.objSize)
    (h : p ∈ s.blocks) : s.owns p = true := by
  obtain ⟨i, hi, rfl⟩ := mem_blocks.mp h
  have := Nat.mul_lt_mul_of_pos_right hi hsize
  rw [owns_iff]
  omega

/-- A block lies inside its pool. -/
theorem block_le {s : SlabClass} {p : Nat} (h : p ∈ s.blocks) :
    s.regionStart ≤ p ∧ p + s.objSize ≤ s.regionStart + s.total * s.objSize := by
  obtain ⟨i, hi, rfl⟩ := mem_blocks.mp h
  have : (i + 1) * s.objSize ≤ s.total * s.objSize := Nat.mul_le_mul_right _ hi
  rw [Nat.succ_mul] at this
  omega

/-- Two blocks of one pool are the same block or do not overlap. -/
theorem blocks_apart {s : SlabClass} {p q : Nat} (hp : p ∈ s.blocks) (hq : q ∈ s.blocks)
    (hne : p ≠ q) : p + s.objSize ≤ q ∨ q + s.objSize ≤ p := by
  obtain ⟨i, hi, rfl⟩ := mem_blocks.mp hp
  obtain ⟨j, hj, rfl⟩ := mem_blocks.mp hq
  rcases Nat.lt_trichotomy i j with hij | hij | hij
  · have : (i + 1) * s.objSize ≤ j * s.objSize := Nat.mul_le_mul_right _ hij
    rw [Nat.succ_mul] at this
    omega
  · exact absurd (by rw [hij]) hne
  · have : (j + 1) * s.objSize ≤ i * s.objSize := Nat.mul_le_mul_right _ hij
    rw [Nat.succ_mul] at this
    omega

theorem blocks_nodup {s : SlabClass} (hsize : 0 < s.objSize) : s.blocks.Nodup := by
  refine List.Nodup.map ?_ List.nodup_range
  intro i j hij
  have : i * s.objSize = j * s.objSize := by simpa using hij
  exact Nat.eq_of_mul_eq_mul_right hsize this

theorem alloc_cases {s s' : SlabClass} {m : Mem} {p : Nat} (h : s.alloc m = some (s', p)) :
    (p = 0 ∧ s' = s ∧ s.freeHead = 0) ∨
    (p ≠ 0 ∧ p = s.freeHead ∧ s.freeCount ≠ 0 ∧ s' = s.popped m) := by
  unfold alloc at h
  by_cases h0 : s.freeHead = 0
  · rw [if_pos h0] at h
    simp only [Option.some.injEq, Prod.mk.injEq] at h
    exact Or.inl ⟨h.2.symm, h.1.symm, h0⟩
  · by_cases hc : s.freeCount = 0
    · simp [if_neg h0, if_pos hc] at h
    · rw [if_neg h0, if_neg hc] at h
      simp only [Option.some.injEq, Prod.mk.injEq] at h
      obtain ⟨hs, rfl⟩ := h
      exact Or.inr ⟨h0, rfl, hc, hs.symm⟩

theorem alloc_eq_none {s : SlabClass} {m : Mem} :
    s.alloc m = none ↔ s.freeHead ≠ 0 ∧ s.freeCount = 0 := by
  unfold alloc
  by_cases h0 : s.freeHead = 0 <;> by_cases hc : s.freeCount = 0 <;> simp [h0, hc]

end SlabClass

namespace SlabAllocator

theorem fits_iff {layout : Layout} {s : SlabClass} :
    fits layout s = true ↔ layout.size ≤ s.objSize ∧ layout.align ≤ s.objSize := by
  simp [fits]

/-- A request served by the classes pops exactly one of them, the first it fits
that has a free block; a request no class serves changes none of them. -/
theorem allocSlabs_cases {m : Mem} {layout : Layout} {slabs slabs' : List SlabClass} {p : Nat}
    (h : allocSlabs m layout slabs = some (slabs', p)) :
    (p = 0 ∧ slabs' = slabs ∧ ∀ s ∈ slabs, fits layout s = true → s.freeHead = 0) ∨
    (∃ pre s post, slabs = pre ++ s :: post ∧ slabs' = pre ++ s.popped m :: post ∧
      fits layout s = true ∧ p = s.freeHead ∧ p ≠ 0 ∧ s.freeCount ≠ 0 ∧
      ∀ t ∈ pre, fits layout t = true → t.freeHead = 0) := by
  induction slabs generalizing slabs' with
  | nil =>
      simp only [allocSlabs, Option.some.injEq, Prod.mk.injEq] at h
      exact Or.inl ⟨h.2.symm, h.1.symm, by simp⟩
  | cons s rest ih =>
      -- What the rest of the walk did, with `s` put back in front of it unchanged.
      have hskip : ∀ r, allocSlabs m layout rest = some r → slabs' = s :: r.1 → p = r.2 →
          (fits layout s = true → s.freeHead = 0) →
          (p = 0 ∧ slabs' = s :: rest ∧ ∀ t ∈ s :: rest, fits layout t = true → t.freeHead = 0) ∨
          (∃ pre t post, s :: rest = pre ++ t :: post ∧ slabs' = pre ++ t.popped m :: post ∧
            fits layout t = true ∧ p = t.freeHead ∧ p ≠ 0 ∧ t.freeCount ≠ 0 ∧
            ∀ u ∈ pre, fits layout u = true → u.freeHead = 0) := by
        rintro ⟨r, q⟩ hr rfl rfl hs
        rcases ih hr with ⟨h0, rfl, hall⟩ | ⟨pre, t, post, rfl, rfl, hf, hp, hne, hc, hall⟩
        · exact Or.inl ⟨h0, rfl, fun t ht => by
            rcases List.mem_cons.mp ht with rfl | ht'
            · exact hs
            · exact hall t ht'⟩
        · refine Or.inr ⟨s :: pre, t, post, rfl, rfl, hf, hp, hne, hc, fun u hu => ?_⟩
          rcases List.mem_cons.mp hu with rfl | hu'
          · exact hs
          · exact hall u hu'
      unfold allocSlabs at h
      by_cases hf : fits layout s = true
      · rw [if_pos hf] at h
        cases ha : s.alloc m with
        | none => rw [ha] at h; simp at h
        | some r =>
            obtain ⟨t, q⟩ := r
            rw [ha] at h
            rcases SlabClass.alloc_cases ha with ⟨rfl, rfl, h0⟩ | ⟨hne, rfl, hc, rfl⟩
            · simp only [ne_eq, not_true_eq_false, if_false, Option.map_eq_some_iff,
                Prod.mk.injEq] at h
              obtain ⟨r, hr, h1, h2⟩ := h
              exact hskip r hr h1.symm h2.symm fun _ => h0
            · simp only [ne_eq, hne, not_false_eq_true, if_true, Option.some.injEq,
                Prod.mk.injEq] at h
              obtain ⟨rfl, rfl⟩ := h
              exact Or.inr ⟨[], s, rest, rfl, rfl, hf, rfl, hne, hc, by simp⟩
      · rw [if_neg hf] at h
        simp only [Option.map_eq_some_iff, Prod.mk.injEq] at h
        obtain ⟨r, hr, h1, h2⟩ := h
        exact hskip r hr h1.symm h2.symm fun hc => absurd hc hf

/-- The walk over the classes panics only at a class whose count says it is empty
while its list is not. -/
theorem allocSlabs_eq_none {m : Mem} {layout : Layout} {slabs : List SlabClass}
    (h : allocSlabs m layout slabs = none) :
    ∃ s ∈ slabs, s.freeHead ≠ 0 ∧ s.freeCount = 0 := by
  induction slabs with
  | nil => simp [allocSlabs] at h
  | cons s rest ih =>
      unfold allocSlabs at h
      by_cases hf : fits layout s = true
      · rw [if_pos hf] at h
        cases ha : s.alloc m with
        | none => exact ⟨s, by simp, SlabClass.alloc_eq_none.mp ha⟩
        | some r =>
            rw [ha] at h
            by_cases hp : r.2 = 0
            · simp only [hp, ne_eq, not_true_eq_false, if_false, Option.map_eq_none_iff] at h
              obtain ⟨t, ht, hbad⟩ := ih h
              exact ⟨t, List.mem_cons_of_mem _ ht, hbad⟩
            · simp [hp] at h
      · rw [if_neg hf] at h
        simp only [Option.map_eq_none_iff] at h
        obtain ⟨t, ht, hbad⟩ := ih h
        exact ⟨t, List.mem_cons_of_mem _ ht, hbad⟩

/-- A freed address goes to the first class that owns it, or nowhere. -/
theorem deallocSlabs_cases (m : Mem) (ptr : Nat) (slabs : List SlabClass) :
    (deallocSlabs m ptr slabs = (slabs, m) ∧ ∀ s ∈ slabs, s.owns ptr = false) ∨
    (∃ pre s post, slabs = pre ++ s :: post ∧ s.owns ptr = true ∧
      deallocSlabs m ptr slabs
        = (pre ++ (s.dealloc m ptr).1 :: post, m.writeWord ptr s.freeHead)) := by
  induction slabs with
  | nil => exact Or.inl ⟨rfl, by simp⟩
  | cons s rest ih =>
      unfold deallocSlabs
      by_cases ho : s.owns ptr = true
      · rw [if_pos ho]
        exact Or.inr ⟨[], s, rest, rfl, ho, rfl⟩
      · rw [if_neg ho]
        rcases ih with ⟨heq, hall⟩ | ⟨pre, t, post, rfl, ht, heq⟩
        · rw [heq]
          refine Or.inl ⟨rfl, fun t ht => ?_⟩
          rcases List.mem_cons.mp ht with rfl | ht'
          · simpa using ho
          · exact hall t ht'
        · rw [heq]
          exact Or.inr ⟨s :: pre, t, post, rfl, ht, rfl⟩

end SlabAllocator

/-! ### The bump region -/

/-- Masking off the low bits of a 64-bit value rounds it down. -/
theorem and_mask {x k : Nat} (hx : x < 2 ^ 64) :
    x &&& (usizeMax ^^^ (2 ^ k - 1)) = x / 2 ^ k * 2 ^ k := by
  refine Nat.eq_of_testBit_eq fun i => ?_
  rw [Nat.testBit_and, Nat.testBit_xor, usizeMax, Nat.testBit_two_pow_sub_one,
    Nat.testBit_two_pow_sub_one, ← Nat.shiftRight_eq_div_pow, ← Nat.shiftLeft_eq,
    Nat.testBit_shiftLeft, Nat.testBit_shiftRight]
  by_cases hik : i < k
  · by_cases hi : i < 64
    · simp [hik, hi]
    · have hfalse : x.testBit i = false :=
        Nat.testBit_lt_two_pow (Nat.lt_of_lt_of_le hx (Nat.pow_le_pow_right (by omega) (by omega)))
      simp [hfalse, Nat.not_le.mpr hik]
  · by_cases hi : i < 64
    · simp [hik, hi, Nat.le_of_not_lt hik, Nat.add_sub_cancel' (Nat.le_of_not_lt hik)]
    · have hfalse : x.testBit i = false :=
        Nat.testBit_lt_two_pow (Nat.lt_of_lt_of_le hx (Nat.pow_le_pow_right (by omega) (by omega)))
      simp [hik, hfalse, Nat.add_sub_cancel' (Nat.le_of_not_lt hik)]

/-- `align_up` is the least multiple of the alignment at or above the address. -/
theorem alignUp_spec {addr align start : Nat} (hpow : ∃ k, align = 2 ^ k)
    (h : alignUp addr align = some start) :
    align ∣ start ∧ addr ≤ start ∧ ∀ x, align ∣ x → addr ≤ x → start ≤ x := by
  obtain ⟨k, rfl⟩ := hpow
  have hpos : 0 < 2 ^ k := Nat.two_pow_pos k
  unfold alignUp at h
  by_cases hlt : addr + 2 ^ k < 2 ^ 64
  · rw [if_pos hlt, and_mask (by omega)] at h
    simp only [Option.some.injEq] at h
    subst h
    have hdiv := Nat.div_add_mod (addr + 2 ^ k - 1) (2 ^ k)
    have hmod := Nat.mod_lt (addr + 2 ^ k - 1) hpos
    rw [Nat.mul_comm] at hdiv
    refine ⟨Nat.dvd_mul_left _ _, by omega, ?_⟩
    rintro x ⟨c, rfl⟩ hx
    have hc : (addr + 2 ^ k - 1) / 2 ^ k ≤ c := by
      refine Nat.lt_succ_iff.mp (Nat.div_lt_of_lt_mul ?_)
      rw [Nat.mul_succ]
      omega
    rw [Nat.mul_comm (2 ^ k) c]
    exact Nat.mul_le_mul_right _ hc
  · rw [if_neg hlt] at h
    simp at h

/-- The bump region either refuses and is unchanged, or hands out the aligned
address and moves its pointer to the clamped end of the block. -/
theorem Bump.alloc_cases {b b' : Bump} {layout : Layout} {p : Nat}
    (h : b.alloc layout = some (b', p)) :
    ∃ start, alignUp b.current layout.align = some start ∧
      ((b.end_ < min (start + layout.size) usizeMax ∧ p = 0 ∧ b' = b) ∨
       (min (start + layout.size) usizeMax ≤ b.end_ ∧ p = start ∧
        b' = { b with current := min (start + layout.size) usizeMax })) := by
  unfold Bump.alloc at h
  cases ha : alignUp b.current layout.align with
  | none => rw [ha] at h; simp at h
  | some start =>
      rw [ha] at h
      refine ⟨start, rfl, ?_⟩
      simp only [Option.bind_eq_bind, Option.bind_some] at h
      by_cases hgt : min (start + layout.size) usizeMax > b.end_
      · rw [if_pos hgt] at h
        simp only [Option.some.injEq, Prod.mk.injEq] at h
        exact Or.inl ⟨hgt, h.2.symm, h.1.symm⟩
      · rw [if_neg hgt] at h
        simp only [Option.some.injEq, Prod.mk.injEq] at h
        exact Or.inr ⟨Nat.le_of_not_lt hgt, h.2.symm, h.1.symm⟩

/-! ### A whole request -/

namespace SlabAllocator

variable {a a' : SlabAllocator} {m : Mem} {layout : Layout} {p : Nat}

/-- A request is served by the first class that fits and has a free block, or, when
there is none, by the bump region or not at all. -/
theorem alloc_cases (hinit : a.initialized = true) (h : a.alloc m layout = some (a', p)) :
    (∃ pre s post, a.slabs = pre ++ s :: post ∧
      a' = { a with slabs := pre ++ s.popped m :: post } ∧ fits layout s = true ∧
      p = s.freeHead ∧ p ≠ 0 ∧ s.freeCount ≠ 0 ∧
      ∀ t ∈ pre, fits layout t = true → t.freeHead = 0) ∨
    ((∀ s ∈ a.slabs, fits layout s = true → s.freeHead = 0) ∧
      ∃ start, alignUp a.bump.current layout.align = some start ∧
        ((a.bump.end_ < min (start + layout.size) usizeMax ∧ p = 0 ∧ a' = a) ∨
         (min (start + layout.size) usizeMax ≤ a.bump.end_ ∧ p = start ∧
          a' = { a with bump := { a.bump with current := min (start + layout.size) usizeMax } }))) := by
  unfold alloc at h
  rw [if_neg (by simp [hinit])] at h
  simp only [Option.bind_eq_bind, Option.bind_eq_some_iff, Prod.exists] at h
  obtain ⟨slabs, q, hslabs, hrest⟩ := h
  rcases allocSlabs_cases hslabs with
    ⟨rfl, rfl, hempty⟩ | ⟨pre, s, post, hsplit, rfl, hf, rfl, hne, hc, hpre⟩
  · simp only [ne_eq, not_true_eq_false, if_false, Option.bind_eq_some_iff, Option.some.injEq,
      Prod.mk.injEq, Prod.exists] at hrest
    obtain ⟨b', r, hbump, rfl, rfl⟩ := hrest
    obtain ⟨start, hstart, hcase⟩ := Bump.alloc_cases hbump
    refine Or.inr ⟨hempty, start, hstart, ?_⟩
    rcases hcase with ⟨hgt, rfl, rfl⟩ | ⟨hle, rfl, rfl⟩
    · exact Or.inl ⟨hgt, rfl, rfl⟩
    · exact Or.inr ⟨hle, rfl, rfl⟩
  · simp only [ne_eq, hne, not_false_eq_true, if_true, Option.some.injEq, Prod.mk.injEq] at hrest
    obtain ⟨rfl, rfl⟩ := hrest
    exact Or.inl ⟨pre, s, post, hsplit, rfl, hf, rfl, hne, hc, hpre⟩

/-- A request panics at a class whose count and list disagree, or in the sum of
`align_up` when no class serves it. -/
theorem alloc_eq_none (h : a.alloc m layout = none) :
    (∃ s ∈ a.slabs, s.freeHead ≠ 0 ∧ s.freeCount = 0) ∨
    ((∀ s ∈ a.slabs, fits layout s = true → s.freeHead = 0) ∧
      2 ^ 64 ≤ a.bump.current + layout.align) := by
  unfold alloc at h
  by_cases hinit : (!a.initialized) = true
  · rw [if_pos hinit] at h
    simp at h
  rw [if_neg hinit] at h
  cases hslabs : allocSlabs m layout a.slabs with
  | none => exact Or.inl (allocSlabs_eq_none hslabs)
  | some r =>
      obtain ⟨slabs, q⟩ := r
      rw [hslabs] at h
      rcases allocSlabs_cases hslabs with ⟨rfl, rfl, hempty⟩ | ⟨_, s, _, -, -, -, -, hne, -, -⟩
      · refine Or.inr ⟨hempty, ?_⟩
        by_contra hlt
        have hsome : ∃ start, alignUp a.bump.current layout.align = some start :=
          ⟨_, if_pos (by omega)⟩
        obtain ⟨start, hstart⟩ := hsome
        simp only [Option.bind_eq_bind, Option.bind_some, ne_eq, not_true_eq_false, if_false,
          Bump.alloc, hstart] at h
        split at h <;> simp at h
      · simp [hne] at h

end SlabAllocator

end Amaterasu
