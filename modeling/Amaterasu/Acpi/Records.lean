/-
Decoding a well-formed MADT.

The structures behind the header fill the table, each as long as its second byte says.
The loop takes them one by one, whatever their types, so what it finds is a fold over the
list: the first I/O APIC stays, and of the overrides of one interrupt the last.
-/
import Mathlib.Data.List.GetD
import Mathlib.Data.List.Induction
import Amaterasu.Acpi.Tables

namespace Amaterasu

namespace Acpi

open Traced

/-- An interrupt controller structure as long as its second byte says. -/
structure IcStructure where
  bytes : List UInt8
  two_le : 2 ≤ bytes.length
  length_eq : bytes[1].toNat = bytes.length

namespace IcStructure

variable (s : IcStructure)

def byte (i : Nat) : UInt8 := s.bytes.getD i 0

/-- The number in `n` bytes from the `i`th on. -/
def number (i n : Nat) : Nat := littleEndian ((s.bytes.drop i).take n)

def isIoapic : Bool := s.byte 0 = 1 ∧ 12 ≤ s.bytes.length

def ioapicAddr : UInt64 := (UInt32.ofNat (s.number 4 4)).toUInt64

def gsiBase : UInt32 := UInt32.ofNat (s.number 8 4)

def isOverride : Bool := s.byte 0 = 2 ∧ 10 ≤ s.bytes.length ∧ s.byte 2 = 0

def source : Nat := (s.byte 3).toNat

def isOverrideOf (n : Nat) (s : IcStructure) : Bool := s.isOverride && s.source = n

def flags : UInt16 := UInt16.ofNat (s.number 8 2)

/-- The override of a structure: active low when both polarity bits are set, and level
triggered when both trigger bits are. -/
def override : IrqOverride where
  isaIrq := s.byte 3
  gsi := UInt32.ofNat (s.number 4 4)
  activeLow := s.flags.toNat.testBit 0 && s.flags.toNat.testBit 1
  levelTriggered := s.flags.toNat.testBit 2 && s.flags.toNat.testBit 3

end IcStructure

/-- A table whose structures fill it exactly. -/
structure MadtTable where
  header : List UInt8
  structures : List IcStructure
  header_length : header.length = MADT_SIZE
  length_eq : littleEndian ((header.drop 4).take 4)
    = header.length + (structures.flatMap IcStructure.bytes).length

namespace MadtTable

variable (t : MadtTable)

def bytes : List UInt8 := t.header ++ t.structures.flatMap IcStructure.bytes

def lapicAddr : UInt64 := (UInt32.ofNat (littleEndian ((t.header.drop 36).take 4))).toUInt64

/-- The override of an interrupt, which is the last one in the table. -/
def override (n : Nat) : Option IrqOverride :=
  (t.structures.reverse.find? (IcStructure.isOverrideOf n)).map IcStructure.override

/-- What a table says: its first I/O APIC, and an override for each of 16 interrupts. -/
def info : Option ApicInfo :=
  (t.structures.find? IcStructure.isIoapic).map fun s =>
    ⟨t.lapicAddr, s.ioapicAddr, s.gsiBase, Vector.ofFn fun n : Fin 16 => t.override n⟩

end MadtTable

/-! ### One structure -/

namespace IcStructure

variable {mem : Mem} {ic i n : Nat} {s : IcStructure} {found : Found}

theorem low_bits (flags : UInt16) :
    (flags &&& 0b0011 == 0b11) = decide (flags.toNat % 4 = 3) := by
  have hand : (flags &&& 0b0011).toNat = flags.toNat % 4 := by
    rw [UInt16.toNat_and]
    exact Nat.and_two_pow_sub_one_eq_mod flags.toNat 2
  rw [beq_eq_decide, decide_eq_decide, ← UInt16.toNat_inj, hand]
  rfl

/-- Two bits next to each other. -/
theorem testBit_pair (n i : Nat) :
    (n.testBit i && n.testBit (i + 1)) = decide (n / 2 ^ i % 4 = 3) := by
  rw [Nat.testBit_eq_decide_div_mod_eq, Nat.testBit_eq_decide_div_mod_eq, ← Bool.decide_and,
    decide_eq_decide, Nat.pow_succ, ← Nat.div_div_eq_div_mul]
  omega

/-- The masks and shifts of the code read the flags bit by bit. -/
theorem irqOverride_eq (source : UInt8) (gsi : UInt32) (flags : UInt16) :
    irqOverride source gsi flags =
      ⟨source, gsi, flags.toNat.testBit 0 && flags.toNat.testBit 1,
        flags.toNat.testBit 2 && flags.toNat.testBit 3⟩ := by
  have hshift : (flags >>> 2).toNat = flags.toNat / 2 ^ 2 := by
    rw [UInt16.toNat_shiftRight]
    exact Nat.shiftRight_eq_div_pow flags.toNat 2
  rw [irqOverride, low_bits, low_bits, testBit_pair _ 0, testBit_pair _ 2, hshift, Nat.pow_zero,
    Nat.div_one]

theorem byte_of_holds (h : mem.Holds ic s.bytes) (hi : i < s.bytes.length) :
    mem (ic + i) = s.byte i := by
  rw [h i hi, byte, List.getD_eq_getElem _ _ hi]

theorem number_of_holds (h : mem.Holds ic s.bytes) (hn : i + n ≤ s.bytes.length) :
    littleEndian (mem.bytes (ic + i) n) = s.number i n := by
  rw [h.bytes hn, number]

/-- What is found with one more structure. -/
def add (found : Found) (s : IcStructure) : Found :=
  if s.isIoapic ∧ found.ioapicAddr = none then
    { found with ioapicAddr := some s.ioapicAddr, ioapicGsiBase := s.gsiBase }
  else if h : s.isOverride ∧ s.source < 16 then
    { found with overrides := found.overrides.set s.source (some s.override) h.2 }
  else found

theorem visitIoapic_result (h : mem.Holds ic s.bytes) (hfits : ic + s.bytes.length < 2 ^ 64)
    (hlen : 12 ≤ s.bytes.length) (found : Found) :
    (visitIoapic mem ic found).result =
      some { found with ioapicAddr := some s.ioapicAddr, ioapicGsiBase := s.gsiBase } := by
  unfold visitIoapic read32
  rw [result_fits (by omega), result_reading, result_fits (by omega), result_reading, result_pure,
    number_of_holds h (by omega), number_of_holds h (by omega)]
  rfl

theorem visitOverride_result (h : mem.Holds ic s.bytes) (hfits : ic + s.bytes.length < 2 ^ 64)
    (hlen : 10 ≤ s.bytes.length) (found : Found) :
    (visitOverride mem ic found).result =
      some (if h : s.byte 2 = 0 ∧ s.source < 16 then
        { found with overrides := found.overrides.set s.source (some s.override) h.2 }
      else found) := by
  have hoverride : s.override
      = irqOverride (s.byte 3) (UInt32.ofNat (s.number 4 4)) (UInt16.ofNat (s.number 8 2)) :=
    (irqOverride_eq _ _ _).symm
  unfold visitOverride read8 read16 read32
  rw [result_fits (by omega), result_reading, result_fits (by omega), result_reading,
    result_fits (by omega), result_reading, result_fits (by omega), result_reading,
    number_of_holds h (by omega), number_of_holds h (by omega), byte_of_holds h (by omega),
    byte_of_holds h (by omega), hoverride]
  by_cases hb : s.byte 2 = 0 ∧ s.source < 16
  · rw [dif_pos hb, dif_pos (show s.byte 2 = 0 ∧ (s.byte 3).toNat < 16 from hb)]
    rfl
  · rw [dif_neg hb, dif_neg (show ¬ (s.byte 2 = 0 ∧ (s.byte 3).toNat < 16) from hb)]
    rfl

theorem visit_result (h : mem.Holds ic s.bytes) (hfits : ic + s.bytes.length < 2 ^ 64)
    (found : Found) :
    (visit mem ic (s.byte 0) s.bytes.length found).result = some (add found s) := by
  have hioapic : (s.isIoapic = true ∧ found.ioapicAddr = none) ↔
      s.byte 0 = 1 ∧ 12 ≤ s.bytes.length ∧ found.ioapicAddr = none := by
    rw [isIoapic, decide_eq_true_eq, and_assoc]
  unfold visit add
  by_cases hio : s.byte 0 = 1 ∧ 12 ≤ s.bytes.length ∧ found.ioapicAddr = none
  · rw [if_pos hio, if_pos (hioapic.mpr hio)]
    exact visitIoapic_result h hfits hio.2.1 found
  · rw [if_neg hio, if_neg fun hadd => hio (hioapic.mp hadd)]
    by_cases hov : s.byte 0 = 2 ∧ 10 ≤ s.bytes.length
    · rw [if_pos hov, visitOverride_result h hfits hov.2]
      congr 1
      have hiff : (s.byte 2 = 0 ∧ s.source < 16) ↔ (s.isOverride = true ∧ s.source < 16) := by
        rw [isOverride, decide_eq_true_eq]
        exact ⟨fun hb => ⟨⟨hov.1, hov.2, hb.1⟩, hb.2⟩, fun hb => ⟨hb.1.2.2, hb.2⟩⟩
      simp only [hiff]
    · rw [if_neg hov, dif_neg fun hadd => hov
        ⟨(of_decide_eq_true hadd.1).1, (of_decide_eq_true hadd.1).2.1⟩]
      rfl

/-! ### The list -/

variable {madtEnd : Nat}

/-- The loop, over structures that end where the table does. -/
theorem walk_result (l : List IcStructure) (h : mem.Holds ic (l.flatMap bytes))
    (hend : madtEnd = ic + (l.flatMap bytes).length) (hfits : madtEnd + 2 < 2 ^ 64) :
    (walk mem madtEnd ic found).result = some (l.foldl add found) := by
  induction l generalizing ic found with
  | nil =>
      rw [List.flatMap_nil, List.length_nil] at hend
      rw [walk, result_fits (by omega), dif_neg (by omega)]
      rfl
  | cons s l ih =>
      have htwo := s.two_le
      rw [List.flatMap_cons] at h
      rw [List.flatMap_cons, List.length_append] at hend
      obtain ⟨hs, hl⟩ := Mem.holds_append.mp h
      have hlen : (s.byte 1).toNat = s.bytes.length := by
        rw [← s.length_eq, byte, List.getD_eq_getElem _ _ htwo]
      have htype : mem ic = s.byte 0 := byte_of_holds (i := 0) hs (by omega)
      rw [walk, result_fits (by omega), dif_pos (by omega), read8, result_reading,
        result_fits (by omega), read8, result_reading, htype, byte_of_holds hs (by omega)]
      simp only [hlen]
      rw [dif_neg (by omega), result_bind, visit_result hs (by omega), Option.bind_some,
        result_fits (by omega), List.foldl_cons]
      exact ih hl (by omega)

/-- The I/O APIC found, with its base. -/
def ioapic (found : Found) : Option (UInt64 × UInt32) :=
  found.ioapicAddr.map fun addr => (addr, found.ioapicGsiBase)

theorem add_ioapic (found : Found) (s : IcStructure) : ioapic (add found s) =
    (ioapic found).or (if s.isIoapic then some (s.ioapicAddr, s.gsiBase) else none) := by
  unfold add
  by_cases hio : s.isIoapic = true ∧ found.ioapicAddr = none
  · rw [if_pos hio, if_pos hio.1, ioapic, ioapic, hio.2]
    rfl
  · rw [if_neg hio]
    have hsame : ∀ f : Found, f.ioapicAddr = found.ioapicAddr →
        f.ioapicGsiBase = found.ioapicGsiBase → ioapic f = ioapic found := by
      intro f haddr hbase
      rw [ioapic, haddr, hbase, ioapic]
    rw [hsame _ (by split <;> rfl) (by split <;> rfl)]
    by_cases hs : s.isIoapic = true
    · obtain ⟨addr, haddr⟩ := Option.ne_none_iff_exists'.mp fun hnone => hio ⟨hs, hnone⟩
      rw [ioapic, haddr]
      rfl
    · rw [if_neg hs, Option.or_none]

/-- The first I/O APIC stays. -/
theorem foldl_ioapic (l : List IcStructure) (found : Found) : ioapic (l.foldl add found) =
    (ioapic found).or ((l.find? isIoapic).map fun s => (s.ioapicAddr, s.gsiBase)) := by
  induction l generalizing found with
  | nil => exact Option.or_none.symm
  | cons s l ih =>
      rw [List.foldl_cons, ih, add_ioapic, Option.or_assoc]
      congr 1
      cases hs : s.isIoapic with
      | true => rw [List.find?_cons_of_pos hs]; rfl
      | false => rw [List.find?_cons_of_neg (by simp [hs])]; rfl

theorem add_overrides (found : Found) (s : IcStructure) (hn : n < 16) :
    (add found s).overrides[n] =
      if s.isOverrideOf n then some s.override else found.overrides[n] := by
  unfold add isOverrideOf
  by_cases hio : s.isIoapic = true ∧ found.ioapicAddr = none
  · -- No structure is both.
    have hone : s.byte 0 = 1 := (of_decide_eq_true hio.1).1
    have hover : s.isOverride = false := decide_eq_false fun h => by
      rw [hone] at h
      exact absurd h.1 (by decide)
    rw [if_pos hio, hover]
    rfl
  · rw [if_neg hio]
    by_cases hover : s.isOverride = true ∧ s.source < 16
    · rw [dif_pos hover, hover.1, Bool.true_and]
      simp only [Vector.getElem_set, decide_eq_true_eq]
    · rw [dif_neg hover, if_neg]
      rw [Bool.and_eq_true, decide_eq_true_eq]
      rintro ⟨h, rfl⟩
      exact hover ⟨h, hn⟩

/-- Of the overrides of one interrupt the last stays. -/
theorem foldl_overrides (l : List IcStructure) (found : Found) (hn : n < 16) :
    (l.foldl add found).overrides[n] =
      ((l.reverse.find? (isOverrideOf n)).map override).or found.overrides[n] := by
  induction l using List.reverseRecOn with
  | nil => rfl
  | append_singleton l s ih =>
      rw [List.foldl_concat, add_overrides _ _ hn, ih, List.reverse_append, List.reverse_singleton,
        List.singleton_append]
      by_cases hs : s.isOverrideOf n = true
      · rw [if_pos hs, List.find?_cons_of_pos hs]
        rfl
      · rw [if_neg hs, List.find?_cons_of_neg hs]

end IcStructure

/-! ### The table -/

variable {mem : Mem} {rsdpPhys : UInt64} {physOff madt : Nat} {t : MadtTable}

/-- A well-formed table is decoded. -/
theorem parseMadt_result (h : mem.Holds madt t.bytes) (hfits : madt + t.bytes.length + 2 < 2 ^ 64) :
    (parseMadt mem madt).result = some t.info := by
  have hheader := t.header_length
  have hsize : MADT_SIZE = 44 := rfl
  obtain ⟨hhead, htail⟩ := Mem.holds_append.mp h
  have hlen : t.bytes.length
      = t.header.length + (t.structures.flatMap IcStructure.bytes).length := List.length_append
  have hlapic : mem.bytes (madt + 36) 4 = (t.header.drop 36).take 4 := hhead.bytes (by omega)
  have hlength : (UInt32.ofNat (littleEndian (mem.bytes (madt + 4) 4))).toNat = t.bytes.length := by
    have hlt := littleEndian_lt ((t.header.drop 4).take 4)
    rw [List.length_take_of_le (by rw [List.length_drop]; omega)] at hlt
    rw [hhead.bytes (by omega), UInt32.toNat_ofNat', Nat.mod_eq_of_lt (by omega), t.length_eq, hlen]
  have hinfo : t.info = (IcStructure.ioapic (t.structures.foldl IcStructure.add Found.empty)).map
      fun p => ⟨t.lapicAddr, p.1, p.2,
        (t.structures.foldl IcStructure.add Found.empty).overrides⟩ := by
    have hoverrides : (Vector.ofFn fun n : Fin 16 => t.override n)
        = (t.structures.foldl IcStructure.add Found.empty).overrides := by
      apply Vector.ext
      intro n hn
      rw [Vector.getElem_ofFn, IcStructure.foldl_overrides _ _ hn, Found.empty,
        Vector.getElem_replicate, Option.or_none, MadtTable.override]
    rw [MadtTable.info, IcStructure.foldl_ioapic, hoverrides]
    cases t.structures.find? IcStructure.isIoapic <;> rfl
  unfold parseMadt read32
  rw [result_reading, result_reading]
  simp only [hlength]
  rw [result_fits (by omega), result_fits (by omega), result_bind,
    IcStructure.walk_result t.structures (by rw [← hheader]; exact htail) (by omega) (by omega),
    Option.bind_some, result_pure, hinfo, hlapic, IcStructure.ioapic, Option.map_map]
  rfl

/-- The root table of an RSDP: the XSDT from revision 2 on, and the RSDT before. -/
def rootPhys (mem : Mem) (rsdp : Nat) : UInt64 :=
  if 2 ≤ mem (rsdp + 15) then UInt64.ofNat (littleEndian (mem.bytes (rsdp + 24) 8))
  else (UInt32.ofNat (littleEndian (mem.bytes (rsdp + 16) 4))).toUInt64

def entrySize (mem : Mem) (rsdp : Nat) : Nat := if 2 ≤ mem (rsdp + 15) then 8 else 4

/-- An entry of a root table. -/
def entry (mem : Mem) (root size i : Nat) : UInt64 :=
  if size = 4 then (UInt32.ofNat (littleEndian (mem.bytes (root + 36 + i * size) 4))).toUInt64
  else UInt64.ofNat (littleEndian (mem.bytes (root + 36 + i * size) 8))

/-- Entry `k` is the first one of a root table that leads to a table with the signature of
a MADT. -/
structure FirstMadt (mem : Mem) (physOff root size k madt : Nat) : Prop where
  lt : k < (tableLength mem root - 36) / size
  here : (entry mem root size k).toNat + physOff = madt
  signature : mem.bytes madt 4 = SIGNATURE
  others : ∀ i < k, mem.bytes ((entry mem root size i).toNat + physOff) 4 ≠ SIGNATURE
  mapped : ∀ i ≤ k, (entry mem root size i).toNat + physOff < 2 ^ 64

/-- An RSDP that leads to a MADT, with its root table in the address space. -/
structure Leads (mem : Mem) (rsdpPhys : UInt64) (physOff madt : Nat) : Prop where
  rsdp : rsdpPhys.toNat + physOff < 2 ^ 64
  signature : mem.bytes (rsdpPhys.toNat + physOff) 8 = RSDP_SIGNATURE
  root : (rootPhys mem (rsdpPhys.toNat + physOff)).toNat + physOff +
    tableLength mem ((rootPhys mem (rsdpPhys.toNat + physOff)).toNat + physOff) < 2 ^ 64
  first : ∃ k, FirstMadt mem physOff ((rootPhys mem (rsdpPhys.toNat + physOff)).toNat + physOff)
    (entrySize mem (rsdpPhys.toNat + physOff)) k madt

theorem result_physToVirt {β : Type} {phys : UInt64} {f : Nat → Traced β}
    (h : phys.toNat + physOff < 2 ^ 64) :
    (physToVirt phys physOff >>= f).result = (f (phys.toNat + physOff)).result := by
  rw [result_bind, physToVirt, result_fits h, result_pure, Option.bind_some]

variable {root size i k n : Nat}

/-- One entry. -/
theorem findEntry_succ (hfits : root + 36 + i * size < 2 ^ 64)
    (hmapped : (entry mem root size i).toNat + physOff < 2 ^ 64) :
    (findEntry mem (root + 36) size physOff (n + 1) i).result =
      if mem.bytes ((entry mem root size i).toNat + physOff) 4 = SIGNATURE then
        some (some ((entry mem root size i).toNat + physOff))
      else (findEntry mem (root + 36) size physOff n (i + 1)).result := by
  have hread : (readEntry mem (root + 36 + i * size) size).result
      = some (entry mem root size i) := by
    unfold readEntry entry
    by_cases hsize : size = 4
    · rw [if_pos hsize, if_pos hsize]
      rfl
    · rw [if_neg hsize, if_neg hsize]
      rfl
  rw [findEntry, result_fits (by omega), result_fits hfits, result_bind, hread, Option.bind_some,
    result_physToVirt hmapped, readBytes, result_reading]
  split
  · rfl
  · rfl

theorem FirstMadt.findEntry (h : FirstMadt mem physOff root size k madt)
    (hfits : root + tableLength mem root < 2 ^ 64) (hi : i ≤ k) :
    (findEntry mem (root + 36) size physOff ((tableLength mem root - 36) / size - i) i).result
      = some (some madt) := by
  have hlt := h.lt
  have hin : ∀ j ≤ k, root + 36 + j * size < 2 ^ 64 := by
    intro j hj
    have hmul : j * size ≤ (tableLength mem root - 36) / size * size :=
      Nat.mul_le_mul_right size (by omega)
    have hle := Nat.div_mul_le_self (tableLength mem root - 36) size
    have hpos : 0 < (tableLength mem root - 36) / size := by omega
    have hlen : 0 < tableLength mem root - 36 := Nat.pos_of_ne_zero fun hz => by
      rw [hz, Nat.zero_div] at hpos
      omega
    omega
  obtain ⟨d, rfl⟩ := Nat.exists_eq_add_of_le hi
  clear hi
  induction d generalizing i with
  | zero =>
      rw [show (tableLength mem root - 36) / size - i
        = (tableLength mem root - 36) / size - i - 1 + 1 by omega,
        findEntry_succ (hin i (by omega)) (h.mapped i (by omega)), ← Nat.add_zero i, h.here,
        if_pos h.signature]
  | succ d ih =>
      rw [show (tableLength mem root - 36) / size - i
        = (tableLength mem root - 36) / size - (i + 1) + 1 by omega,
        findEntry_succ (hin i (by omega)) (h.mapped i (by omega)), if_neg (h.others i (by omega))]
      rw [show i + (d + 1) = i + 1 + d by omega] at h hin hlt
      exact ih h hlt hin

theorem FirstMadt.findMadt {phys : UInt64}
    (h : FirstMadt mem physOff (phys.toNat + physOff) size k madt)
    (hfits : phys.toNat + physOff + tableLength mem (phys.toNat + physOff) < 2 ^ 64) :
    (findMadt mem phys size physOff).result = some (some madt) := by
  have hlt := h.lt
  have hlen : 36 ≤ tableLength mem (phys.toNat + physOff) := by
    by_contra hshort
    rw [Nat.sub_eq_zero_of_le (by omega), Nat.zero_div] at hlt
    exact Nat.not_lt_zero k hlt
  unfold Acpi.findMadt read32
  rw [result_physToVirt (by omega), result_reading]
  have hskip : ¬ (UInt32.ofNat (littleEndian (mem.bytes (phys.toNat + physOff + 4) 4))).toNat
    < HEADER_SIZE := Nat.not_lt.mpr hlen
  have hheader : HEADER_SIZE = 36 := rfl
  rw [if_neg hskip, result_fits (by omega)]
  exact h.findEntry hfits (Nat.zero_le k)

/-- What `parse` does with an RSDP that leads to a MADT. -/
theorem Leads.parse (h : Leads mem rsdpPhys physOff madt) :
    (parse mem rsdpPhys physOff).result = (parseMadt mem madt).result := by
  obtain ⟨k, hfirst⟩ := h.first
  have hroot := h.root
  have hchoose : (chooseMadt mem (rsdpPhys.toNat + physOff) (mem (rsdpPhys.toNat + physOff + 15))
      physOff).result = some (some madt) := by
    unfold chooseMadt rootPhys entrySize at *
    by_cases hrev : 2 ≤ mem (rsdpPhys.toNat + physOff + 15)
    · rw [if_pos hrev] at hfirst hroot ⊢
      rw [if_pos hrev] at hfirst
      exact hfirst.findMadt hroot
    · rw [if_neg hrev] at hfirst hroot ⊢
      rw [if_neg hrev] at hfirst
      exact hfirst.findMadt hroot
  unfold Acpi.parse readBytes read8
  rw [result_physToVirt h.rsdp, result_reading, if_neg (not_not.mpr h.signature), result_reading,
    result_bind, hchoose, Option.bind_some]

/-- **Decoding a MADT.**  From an RSDP that leads to a well-formed table `parse` returns what
the table says: nothing without an I/O APIC, and otherwise the address of the local APIC,
the first I/O APIC, and for each interrupt the last override.
-/
theorem parse_table (hleads : Leads mem rsdpPhys physOff madt) (hheld : mem.Holds madt t.bytes)
    (hfits : madt + t.bytes.length + 2 < 2 ^ 64) :
    (parse mem rsdpPhys physOff).result = some t.info :=
  hleads.parse.trans (parseMadt_result hheld hfits)

/-- Where the boot loader maps physical memory, and where in it the RSDP is. -/
def samplePhysOff : Nat := 0x10000000000

def sampleRsdp : UInt64 := 0xE0000

/-- An RSDP, an RSDT with two entries, and where these lead a table that is no MADT and the
signature of one that is. -/
def sampleTables : List UInt8 :=
  RSDP_SIGNATURE ++ List.replicate 8 0 ++ [0x14, 0, 0xE, 0] ++
    [0x52, 0x53, 0x44, 0x54, 44, 0, 0, 0] ++ List.replicate 28 0 ++
    [0x40, 0, 0xE, 0, 0x64, 0, 0xE, 0] ++
    [0x46, 0x41, 0x43, 0x50, 36, 0, 0, 0] ++ List.replicate 28 0 ++ SIGNATURE

theorem sample_leads {mem : Mem} (h : mem.Holds (samplePhysOff + 0xE0000) sampleTables) :
    Leads mem sampleRsdp samplePhysOff (samplePhysOff + 0xE0064) := by
  have hbytes : ∀ i n, i + n ≤ 104 →
      mem.bytes (samplePhysOff + 0xE0000 + i) n = (sampleTables.drop i).take n := by
    intro i n hn
    exact Mem.Holds.bytes h hn
  have hat : sampleRsdp.toNat + samplePhysOff = samplePhysOff + 0xE0000 := by decide
  have hrev : mem (samplePhysOff + 0xE0000 + 15) = 0 := by
    rw [h 15 (by decide)]
    decide
  have hold : ¬ (2 ≤ mem (samplePhysOff + 0xE0000 + 15)) := by
    rw [hrev]
    decide
  have hroot : rootPhys mem (samplePhysOff + 0xE0000) = 0xE0014 := by
    rw [rootPhys, if_neg hold, hbytes 16 4 (by omega)]
    decide +kernel
  have hrootAt : (0xE0014 : UInt64).toNat + samplePhysOff = samplePhysOff + 0xE0000 + 20 := by
    decide
  have hsize : entrySize mem (samplePhysOff + 0xE0000) = 4 := if_neg hold
  have hlength : tableLength mem (samplePhysOff + 0xE0000 + 20) = 44 := by
    rw [tableLength, Nat.add_assoc, hbytes 24 4 (by omega)]
    decide +kernel
  have hfirst : entry mem (samplePhysOff + 0xE0000 + 20) 4 0 = 0xE0040 := by
    rw [entry, if_pos rfl, Nat.add_assoc, Nat.add_assoc, hbytes 56 4 (by omega)]
    decide +kernel
  have hsecond : entry mem (samplePhysOff + 0xE0000 + 20) 4 1 = 0xE0064 := by
    rw [entry, if_pos rfl, Nat.add_assoc, Nat.add_assoc, hbytes 60 4 (by omega)]
    decide +kernel
  refine ⟨by decide, ?_, ?_, 1, ?_⟩
  · rw [hat]
    exact (hbytes 0 8 (by omega)).trans (by decide +kernel)
  · rw [hat, hroot, hrootAt, hlength]
    decide
  · rw [hat, hroot, hrootAt, hsize]
    refine ⟨by rw [hlength]; decide, by rw [hsecond]; decide, ?_, ?_, ?_⟩
    · exact (hbytes 100 4 (by omega)).trans (by decide +kernel)
    · intro i hi
      obtain rfl := Nat.lt_one_iff.mp hi
      rw [hfirst]
      have hother : mem.bytes ((0xE0040 : UInt64).toNat + samplePhysOff) 4
          = (sampleTables.drop 64).take 4 := hbytes 64 4 (by omega)
      rw [hother]
      decide +kernel
    · intro i hi
      interval_cases i
      · rw [hfirst]
        decide
      · rw [hsecond]
        decide

def sampleIoapic : IcStructure :=
  ⟨[1, 12, 0, 0, 0, 0, 0xC0, 0xFE, 0, 0, 0, 0], by decide, by decide⟩

/-- One for the interrupts from 24 on. -/
def secondIoapic : IcStructure :=
  ⟨[1, 12, 1, 0, 0, 0x10, 0xC0, 0xFE, 24, 0, 0, 0], by decide, by decide⟩

/-- Two I/O APICs and an override, the keyboard's. -/
def sampleTable : MadtTable where
  header := SIGNATURE ++ [78, 0, 0, 0] ++ List.replicate 28 0 ++ [0, 0, 0xE0, 0xFE, 1, 0, 0, 0]
  structures := [sampleIoapic, secondIoapic,
    ⟨[2, 10, 0, 1, 9, 0, 0, 0, 0x0F, 0], by decide, by decide⟩]
  header_length := by decide
  length_eq := by decide +kernel

/-- A memory with the tables that lead to a MADT, and one there. -/
def memoryOf (t : MadtTable) : Mem := fun a =>
  if a < samplePhysOff + 0xE0000 then 0
  else (sampleTables.take 100 ++ t.bytes).getD (a - (samplePhysOff + 0xE0000)) 0

theorem parse_table_sample :
    (parse (memoryOf sampleTable) sampleRsdp samplePhysOff).result = some sampleTable.info :=
  parse_table (sample_leads (by decide +kernel)) (by decide +kernel) (by decide)

end Acpi

end Amaterasu
