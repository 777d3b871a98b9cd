/-
How far the loop over the MADT reads.

The loop makes sure that the first two bytes of a structure are in the table and takes the
length it finds there at its word.  So the structure it reaches last can end behind the
table, and a read of its fields then goes past the end.  These are the only reads that do.
-/
import Amaterasu.Acpi.Tables

namespace Amaterasu

namespace Acpi

open Traced

variable {mem : Mem} {madt len o lo hi ic : Nat} {found : Found}

/-! ### The structures reached -/

/-- The length byte of the structure at an offset. -/
def lengthAt (mem : Mem) (madt o : Nat) : Nat := (mem (madt + o + 1)).toNat

/-- The offsets of the structures that the loop comes to, from `o` on: the two bytes of
each are in the table, and it goes on from one as far as its length says. -/
def offsets (mem : Mem) (madt len o : Nat) : List Nat :=
  if _hin : o + 2 ≤ len then
    if _hlen : lengthAt mem madt o < 2 then [o]
    else o :: offsets mem madt len (o + lengthAt mem madt o)
  else []
termination_by len - o

/-- An I/O APIC that is long enough to be taken for one. -/
def IoapicAt (mem : Mem) (madt o : Nat) : Prop := mem (madt + o) = 1 ∧ 12 ≤ lengthAt mem madt o

/-- An override that is long enough to be taken for one. -/
def OverrideAt (mem : Mem) (madt o : Nat) : Prop :=
  mem (madt + o) = 2 ∧ 10 ≤ lengthAt mem madt o

/-- The fields of a structure that the loop reads are in the table: those of an override,
and those of the first I/O APIC, if their addresses are addresses at all. -/
structure Contained (mem : Mem) (madt len : Nat) (first : Prop) (o : Nat) : Prop where
  ioapic : IoapicAt mem madt o → first → madt + o + 4 < 2 ^ 64 → o + 12 ≤ len
  override : OverrideAt mem madt o → o + 10 ≤ len

/-! ### The reads -/

theorem visitIoapic_within (hend : madt + len < 2 ^ 64) (ho : 44 ≤ o) (found : Found) :
    (visitIoapic mem (madt + o) found).Within madt (madt + len) ↔
      (madt + o + 4 < 2 ^ 64 → o + 12 ≤ len) := by
  unfold visitIoapic read32
  rw [within_fits, within_reading, within_fits, within_reading]
  simp only [iff_true_intro within_pure, and_true]
  omega

theorem visitOverride_within (hend : madt + len < 2 ^ 64) (hin : o + 2 ≤ len) (found : Found) :
    (visitOverride mem (madt + o) found).Within madt (madt + len) ↔ o + 10 ≤ len := by
  unfold visitOverride read8 read16 read32
  have hlast : ∀ (bus source : UInt8) (gsi : UInt32) (flags : UInt16),
      (if h : bus = 0 ∧ source.toNat < 16 then
        (pure { found with
          overrides := found.overrides.set source.toNat (some (irqOverride source gsi flags)) h.2 }
            : Traced Found)
      else pure found).Within madt (madt + len) := by
    intro bus source gsi flags
    split
    · exact within_pure
    · exact within_pure
  rw [within_fits, within_reading, within_fits, within_reading, within_fits, within_reading,
    within_fits, within_reading]
  simp only [iff_true_intro (hlast _ _ _ _), and_true]
  omega

theorem visit_within (hend : madt + len < 2 ^ 64) (ho : 44 ≤ o) (hin : o + 2 ≤ len)
    (found : Found) :
    (visit mem (madt + o) (mem (madt + o)) (lengthAt mem madt o) found).Within madt (madt + len) ↔
      Contained mem madt len (found.ioapicAddr = none) o := by
  have hnone : ∀ f : Found, (pure f : Traced Found).Within madt (madt + len) := fun _ => within_pure
  unfold visit
  by_cases hio : mem (madt + o) = 1 ∧ 12 ≤ lengthAt mem madt o ∧ found.ioapicAddr = none
  · rw [if_pos hio, visitIoapic_within hend ho]
    refine ⟨fun h => ⟨fun _ _ => h, fun hover => ?_⟩, fun h => h.ioapic ⟨hio.1, hio.2.1⟩ hio.2.2⟩
    rw [OverrideAt, hio.1] at hover
    exact absurd hover.1 (by decide)
  · rw [if_neg hio]
    have hskip : ∀ h : IoapicAt mem madt o, found.ioapicAddr = none → False :=
      fun h hfirst => hio ⟨h.1, h.2, hfirst⟩
    by_cases hover : mem (madt + o) = 2 ∧ 10 ≤ lengthAt mem madt o
    · rw [if_pos hover, visitOverride_within hend hin]
      exact ⟨fun h => ⟨fun h' hfirst => (hskip h' hfirst).elim, fun _ => h⟩,
        fun h => h.override hover⟩
    · rw [if_neg hover]
      exact iff_of_true (hnone found)
        ⟨fun h' hfirst => (hskip h' hfirst).elim, fun h' => absurd h' hover⟩

/-- What a structure leaves of the search for an I/O APIC. -/
theorem visit_ioapicAddr {found' : Found}
    (h : (visit mem (madt + o) (mem (madt + o)) (lengthAt mem madt o) found).result = some found') :
    found'.ioapicAddr = none ↔ found.ioapicAddr = none ∧ ¬ IoapicAt mem madt o := by
  unfold visit at h
  by_cases hio : mem (madt + o) = 1 ∧ 12 ≤ lengthAt mem madt o ∧ found.ioapicAddr = none
  · rw [if_pos hio] at h
    simp only [visitIoapic, read32, result_fits_eq_some, result_reading, result_pure] at h
    obtain ⟨-, -, h⟩ := h
    rw [← Option.some.inj h]
    exact iff_of_false (by simp) fun hnot => hnot.2 ⟨hio.1, hio.2.1⟩
  · rw [if_neg hio] at h
    have hsame : found'.ioapicAddr = found.ioapicAddr := by
      split at h
      · simp only [visitOverride, read8, read16, read32, result_fits_eq_some, result_reading] at h
        obtain ⟨-, -, -, -, h⟩ := h
        split at h
        · rw [← Option.some.inj h]
        · rw [← Option.some.inj h]
      · rw [← Option.some.inj h]
    rw [hsame]
    exact ⟨fun hnone => ⟨hnone, fun hat => hio ⟨hat.1, hat.2, hnone⟩⟩, fun hboth => hboth.1⟩

/-- A structure whose fields are no addresses ends behind the table. -/
theorem visit_isSome (hend : madt + len < 2 ^ 64) (hin : o + lengthAt mem madt o ≤ len)
    (found : Found) :
    ∃ found', (visit mem (madt + o) (mem (madt + o)) (lengthAt mem madt o) found).result
      = some found' := by
  unfold visit
  split
  · rename_i hio
    unfold visitIoapic read32
    rw [result_fits (by omega), result_reading, result_fits (by omega), result_reading]
    exact ⟨_, rfl⟩
  · split
    · rename_i hover
      unfold visitOverride read8 read16 read32
      rw [result_fits (by omega), result_reading, result_fits (by omega), result_reading,
        result_fits (by omega), result_reading, result_fits (by omega), result_reading]
      split
      · exact ⟨_, rfl⟩
      · exact ⟨_, rfl⟩
    · exact ⟨_, rfl⟩

/-! ### The loop -/

/-- All the structures reached from `o` on are contained, when an I/O APIC there is the
first one if `first` holds. -/
def AllContained (mem : Mem) (madt len : Nat) (first : Prop) (o : Nat) : Prop :=
  ∀ pre o' post, offsets mem madt len o = pre ++ o' :: post →
    Contained mem madt len (first ∧ ∀ p ∈ pre, ¬ IoapicAt mem madt p) o'

theorem allContained_out (h : ¬ o + 2 ≤ len) (first : Prop) :
    AllContained mem madt len first o := by
  intro pre o' post heq
  rw [offsets, dif_neg h] at heq
  exact absurd heq (by simp)

theorem allContained_short (hin : o + 2 ≤ len) (hlen : lengthAt mem madt o < 2) (first : Prop) :
    AllContained mem madt len first o := by
  intro pre o' post heq
  rw [offsets, dif_pos hin, dif_pos hlen] at heq
  obtain rfl : o' = o := by
    have hmem : o' ∈ [o] := by rw [heq]; simp
    exact List.mem_singleton.mp hmem
  exact ⟨fun h => absurd h.2 (by omega), fun h => absurd h.2 (by omega)⟩

theorem allContained_next (hin : o + 2 ≤ len) (hlen : ¬ lengthAt mem madt o < 2) (first : Prop) :
    AllContained mem madt len first o ↔ Contained mem madt len first o ∧
      AllContained mem madt len (first ∧ ¬ IoapicAt mem madt o) (o + lengthAt mem madt o) := by
  have hcons : offsets mem madt len o = o :: offsets mem madt len (o + lengthAt mem madt o) := by
    rw [offsets, dif_pos hin, dif_neg hlen]
  unfold AllContained
  rw [hcons]
  constructor
  · intro h
    refine ⟨?_, fun pre o' post heq => ?_⟩
    · have hhere := h [] o _ rfl
      exact ⟨fun hio hfirst => hhere.ioapic hio ⟨hfirst, fun p hp => absurd hp List.not_mem_nil⟩,
        hhere.override⟩
    · have hthere := h (o :: pre) o' post (by rw [heq]; rfl)
      refine ⟨fun hio hfirst => hthere.ioapic hio ⟨hfirst.1.1, ?_⟩, hthere.override⟩
      intro p hp
      rcases List.mem_cons.mp hp with rfl | hp'
      · exact hfirst.1.2
      · exact hfirst.2 p hp'
  · rintro ⟨hhere, hrest⟩ (_ | ⟨p, pre⟩) o' post heq
    · obtain ⟨rfl, -⟩ := List.cons.inj heq
      exact ⟨fun hio hfirst => hhere.ioapic hio hfirst.1, hhere.override⟩
    · obtain ⟨rfl, htail⟩ := List.cons.inj heq
      have hthere := hrest pre o' post htail
      refine ⟨fun hio hfirst => hthere.ioapic hio ⟨⟨hfirst.1, ?_⟩, ?_⟩, hthere.override⟩
      · exact hfirst.2 o List.mem_cons_self
      · exact fun p hp => hfirst.2 p (List.mem_cons_of_mem _ hp)

/-- One turn of the loop reads the two bytes of a structure that are in the table. -/
theorem walk_turn (hend : madt + len < 2 ^ 64) (hin : o + 2 ≤ len) (found : Found) :
    (walk mem (madt + len) (madt + o) found).Within madt (madt + len) ↔
      (if lengthAt mem madt o < 2 then pure found
      else do
        let found ← visit mem (madt + o) (mem (madt + o)) (lengthAt mem madt o) found
        fits (madt + o + lengthAt mem madt o)
        walk mem (madt + len) (madt + o + lengthAt mem madt o) found).Within madt (madt + len) := by
  rw [walk]
  unfold read8
  rw [within_fits, dif_pos (by omega), within_reading, within_fits, within_reading, dite_eq_ite]
  constructor
  · intro h
    exact ((h (by omega)).2 (by omega)).2
  · intro h _
    exact ⟨by omega, fun _ => ⟨by omega, h⟩⟩

theorem walk_within (hend : madt + len < 2 ^ 64) (ho : 44 ≤ o) (found : Found) :
    (walk mem (madt + len) (madt + o) found).Within madt (madt + len) ↔
      AllContained mem madt len (found.ioapicAddr = none) o := by
  induction o using offsets.induct mem madt len generalizing found with
  | case1 o hin hlen =>
      refine iff_of_true ?_ (allContained_short hin hlen _)
      rw [walk_turn hend hin, if_pos hlen]
      exact within_pure
  | case2 o hin hlen ih =>
      rw [walk_turn hend hin, if_neg hlen, within_bind, visit_within hend ho hin,
        allContained_next hin hlen]
      refine and_congr_right fun _ => ?_
      by_cases hnext : o + lengthAt mem madt o ≤ len
      · obtain ⟨found', hvisit⟩ := visit_isSome hend hnext found
        have haddr := visit_ioapicAddr hvisit
        have hgo := ih (Nat.le_trans ho (Nat.le_add_right _ _)) found'
        rw [haddr, ← Nat.add_assoc] at hgo
        rw [← hgo]
        constructor
        · intro h
          exact within_fits.mp (h found' hvisit) (by omega)
        · intro h f hf
          obtain rfl := Option.some.inj (hvisit.symm.trans hf)
          exact within_fits.mpr fun _ => h
      · -- Behind the table the loop makes no more reads.
        refine iff_of_true (fun f _ => within_fits.mpr fun _ => ?_) (allContained_out (by omega) _)
        rw [walk, within_fits, dif_neg (by omega)]
        exact fun _ => within_pure
  | case3 o hin =>
      refine iff_of_true ?_ (allContained_out hin _)
      rw [walk, within_fits, dif_neg (by omega)]
      exact fun _ => within_pure

/-- The table with its header: a stated length that is shorter than the header has no
structures behind it. -/
theorem parseMadt_within (mem : Mem) (madt : Nat) :
    (parseMadt mem madt).Within madt (madt + max (tableLength mem madt) MADT_SIZE) ↔
      (madt + tableLength mem madt < 2 ^ 64 →
        AllContained mem madt (tableLength mem madt) True MADT_SIZE) := by
  have hsize : MADT_SIZE = 44 := rfl
  have hmap : ∀ (x : Traced Found) (lapicAddr : UInt32) (lo hi : Nat),
      (x >>= fun found => pure (found.ioapicAddr.map fun ioapicAddr =>
        (⟨lapicAddr.toUInt64, ioapicAddr, found.ioapicGsiBase, found.overrides⟩ : ApicInfo))).Within
          lo hi ↔ x.Within lo hi := by
    intro x lapicAddr lo hi
    rw [within_bind]
    exact and_iff_left fun _ _ => within_pure
  unfold parseMadt read32
  rw [within_reading, within_reading, within_fits, within_fits, hmap]
  show _ ∧ _ ∧ (madt + tableLength mem madt < 2 ^ 64 → madt + MADT_SIZE < 2 ^ 64 →
    (walk mem (madt + tableLength mem madt) (madt + MADT_SIZE) Found.empty).Within madt _) ↔ _
  rw [and_iff_right (by omega), and_iff_right (by omega)]
  refine imp_congr_right fun hend => ?_
  by_cases hlen : MADT_SIZE ≤ tableLength mem madt
  · rw [Nat.max_eq_left hlen, walk_within hend (Nat.le_of_eq hsize.symm)]
    exact ⟨fun h => (by simpa [Found.empty] using h (by omega)), fun h _ =>
      (by simpa [Found.empty] using h)⟩
  · refine iff_of_true (fun hfits => ?_) (allContained_out (by omega) _)
    rw [walk, within_fits, dif_neg (by omega)]
    exact fun _ => within_pure

/-- **How far the MADT is read.**  All reads are in the table and its header exactly when
every structure that the loop reaches has the fields that are read of it in the table: an
override its ten bytes, and the first I/O APIC its twelve.
-/
theorem madt_read_inside_iff (mem : Mem) (madt : Nat) :
    (parseMadt mem madt).Within madt (madt + max (tableLength mem madt) MADT_SIZE) ↔
      (madt + tableLength mem madt < 2 ^ 64 → ∀ pre o post,
        offsets mem madt (tableLength mem madt) MADT_SIZE = pre ++ o :: post →
          Contained mem madt (tableLength mem madt) (∀ p ∈ pre, ¬ IoapicAt mem madt p) o) := by
  rw [parseMadt_within]
  simp only [AllContained, true_and]

/-- A table that ends with the first two bytes of an I/O APIC. -/
def truncatedTable : List UInt8 :=
  SIGNATURE ++ [46, 0, 0, 0] ++ List.replicate 28 0 ++ [0, 0, 0xE0, 0xFE, 1, 0, 0, 0] ++ [1, 12]

/-- The table in the memory that the boot loader has mapped. -/
def truncatedAt : Nat := 0x10000000000 + 0xE0000

def truncatedMem : Mem := fun a => truncatedTable.getD (a - truncatedAt) 0

theorem madt_read_past_end :
    ∃ mem : Mem, mem.Holds truncatedAt truncatedTable ∧
      tableLength mem truncatedAt = truncatedTable.length ∧
      ¬ (parseMadt mem truncatedAt).Within truncatedAt
        (truncatedAt + max (tableLength mem truncatedAt) MADT_SIZE) := by
  refine ⟨truncatedMem, by decide +kernel, by decide +kernel, ?_⟩
  have hlen : tableLength truncatedMem truncatedAt = 46 := by decide +kernel
  rw [parseMadt_within, hlen]
  intro h
  have hreached : offsets truncatedMem truncatedAt 46 MADT_SIZE = [] ++ 44 :: [] := by
    rw [offsets, dif_pos (by decide), dif_neg (by decide), offsets, dif_neg (by decide)]
    rfl
  have hin := (h (by decide) [] 44 [] hreached).ioapic ⟨by decide, by decide⟩
    ⟨trivial, fun p hp => absurd hp List.not_mem_nil⟩ (by decide)
  exact absurd hin (by decide)

end Acpi

end Amaterasu
