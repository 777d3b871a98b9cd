/-
Routing the keyboard through the I/O APIC, from `hal/src/apic.rs`.

`acpi::parse` keeps one I/O APIC of the MADT, the first, and `apic::init` programs the
entry of that one that the keyboard's interrupt has counted from its base.  The interrupt
can belong to another: then the subtraction fails, or the entry programmed is one of the
wrong I/O APIC, unless two structures describe one controller and the truncation to eight
bits hides the difference.
-/
import Amaterasu.Acpi.Records

namespace Amaterasu

namespace Apic

open Acpi

/-! ### Checked arithmetic -/

/-- A sum of two `usize` values. -/
def addUsize (a b : Nat) : Option Nat := if a + b < 2 ^ 64 then some (a + b) else none

def subU32 (a b : UInt32) : Option UInt32 := if b ≤ a then some (a - b) else none

def mulU32 (a b : UInt32) : Option UInt32 :=
  if a.toNat * b.toNat < 2 ^ 32 then some (a * b) else none

def addU8 (a b : UInt8) : Option UInt8 := if a.toNat + b.toNat < 2 ^ 8 then some (a + b) else none

/-! ### The code -/

/-- What `init` does to the outside, in order. -/
inductive Effect
  | outb (port : UInt16) (value : UInt8)
  | write (addr : Nat) (value : UInt32)
  deriving DecidableEq, Repr

def LAPIC_ID : UInt32 := 0x020
def LAPIC_TPR : UInt32 := 0x080
def LAPIC_SVR : UInt32 := 0x0F0

def SVR_ENABLE : UInt32 := (1 : UInt32) <<< 8
def SVR_SPURIOUS : UInt32 := 0xFF

def lapicWrite (base : Nat) (offset val : UInt32) : Option (List Effect) := do
  let addr ← addUsize base offset.toNat
  some [.write addr val]

/-- The index goes to the first register, the value to the window behind it. -/
def ioapicWrite (base : Nat) (reg : UInt8) (val : UInt32) : Option (List Effect) := do
  let window ← addUsize base 0x10
  some [.write base reg.toUInt32, .write window val]

/-- The interrupt of the keyboard, with its polarity and trigger. -/
def keyboardIrq (info : ApicInfo) : UInt32 × Bool × Bool :=
  match info.overrides[1] with
  | some ov => (ov.gsi, ov.activeLow, ov.levelTriggered)
  | none => (1, false, false)

/-- `lo`, the low half of a redirection entry. -/
def redirectionLow (activeLow levelTriggered : Bool) : UInt32 :=
  let lo : UInt32 := 0x21
  let lo := if activeLow then lo ||| (1 : UInt32) <<< 13 else lo
  if levelTriggered then lo ||| (1 : UInt32) <<< 15 else lo

/-- `ioredtbl_lo`. -/
def ioredtblLo (kbdGsi gsiBase : UInt32) : Option UInt8 := do
  let entryIdx ← subU32 kbdGsi gsiBase
  let doubled ← mulU32 2 entryIdx
  addU8 0x10 doubled.toUInt8

/-- `init`, with what the ID register of the local APIC holds. -/
def init (info : ApicInfo) (physOff : Nat) (idRegister : UInt32) : Option (List Effect) := do
  let lapicVirt ← addUsize info.lapicAddr.toNat physOff
  let ioapicVirt ← addUsize info.ioapicAddr.toNat physOff
  let _ ← addUsize lapicVirt LAPIC_ID.toNat
  let lapicId := idRegister >>> 24
  let svr ← lapicWrite lapicVirt LAPIC_SVR (SVR_ENABLE ||| SVR_SPURIOUS)
  let tpr ← lapicWrite lapicVirt LAPIC_TPR 0
  let (kbdGsi, activeLow, levelTriggered) := keyboardIrq info
  let lo ← ioredtblLo kbdGsi info.ioapicGsiBase
  let hi ← addU8 lo 1
  let high ← ioapicWrite ioapicVirt hi (lapicId <<< 24)
  let low ← ioapicWrite ioapicVirt lo (redirectionLow activeLow levelTriggered)
  some ([.outb 0x21 0xFF, .outb 0xA1 0xFF, .outb 0x22 0x70, .outb 0x23 0x01]
    ++ svr ++ tpr ++ high ++ low)

/-- `acpi::init`, and then `apic::init`, which expects that there is something to be had. -/
def route (mem : Mem) (rsdpPhys : UInt64) (physOff : Nat) (idRegister : UInt32) :
    Option (List Effect) := do
  match ← (parse mem rsdpPhys physOff).result with
  | none => none
  | some info => init info physOff idRegister

/-! ### Entries -/

/-- The writes that program entry `idx` of an I/O APIC, the high half first. -/
def entryWrites (base idx : Nat) (high low : UInt32) : List Effect :=
  [.write base (UInt32.ofNat (0x10 + 2 * idx + 1)), .write (base + 0x10) high,
    .write base (UInt32.ofNat (0x10 + 2 * idx)), .write (base + 0x10) low]

/-- What is done ends with programming entry `idx` of the I/O APIC at an address. -/
def Programs (effects : Option (List Effect)) (base idx : Nat) : Prop :=
  ∃ before high low, effects = some (before ++ entryWrites base idx high low)

/-- The register of an entry: the index is below the base, or too large to be doubled, or
its double is cut to eight bits and leaves no room above. -/
theorem ioredtblLo_eq_some {gsi base : UInt32} {lo : UInt8} :
    ioredtblLo gsi base = some lo ↔ base ≤ gsi ∧ 2 * (gsi.toNat - base.toNat) < 2 ^ 32 ∧
      lo.toNat = 0x10 + 2 * (gsi.toNat - base.toNat) % 256 := by
  unfold ioredtblLo subU32
  by_cases hle : base ≤ gsi
  · rw [if_pos hle, Option.bind_eq_bind, Option.bind_some, and_iff_right hle, mulU32,
      UInt32.toNat_sub_of_le _ _ hle]
    show Option.bind (if 2 * (gsi.toNat - base.toNat) < 2 ^ 32 then _ else _) _ = _ ↔ _
    by_cases hmul : 2 * (gsi.toNat - base.toNat) < 2 ^ 32
    · have hdouble : (2 * (gsi - base)).toUInt8.toNat = 2 * (gsi.toNat - base.toNat) % 256 := by
        rw [UInt32.toNat_toUInt8, UInt32.toNat_mul, UInt32.toNat_sub_of_le _ _ hle]
        exact congrArg (· % 256) (Nat.mod_eq_of_lt hmul)
      rw [if_pos hmul, Option.bind_some, and_iff_right hmul, addU8, hdouble]
      show (if 0x10 + 2 * (gsi.toNat - base.toNat) % 256 < 2 ^ 8 then _ else _) = _ ↔ _
      have hlt := lo.toNat_lt
      by_cases hadd : 0x10 + 2 * (gsi.toNat - base.toNat) % 256 < 2 ^ 8
      · rw [if_pos hadd, Option.some.injEq, ← UInt8.toNat_inj, UInt8.toNat_add, hdouble]
        show (0x10 + _) % 2 ^ 8 = _ ↔ _
        rw [Nat.mod_eq_of_lt hadd, eq_comm]
      · rw [if_neg hadd]
        exact iff_of_false (by simp) (by omega)
    · rw [if_neg hmul]
      exact iff_of_false (by simp) fun h => hmul h.1
  · rw [if_neg hle]
    exact iff_of_false (by simp) fun h => hle h.1

variable {info : ApicInfo} {physOff idx base : Nat} {idRegister : UInt32}

/-- What `init` does before it comes to the I/O APIC. -/
def preamble (lapicVirt : Nat) : List Effect :=
  [.outb 0x21 0xFF, .outb 0xA1 0xFF, .outb 0x22 0x70, .outb 0x23 0x01,
    .write (lapicVirt + 0xF0) 0x1FF, .write (lapicVirt + 0x80) 0]

theorem addUsize_eq {a b : Nat} (h : a + b < 2 ^ 64) : addUsize a b = some (a + b) := if_pos h

theorem init_eq (hlapic : info.lapicAddr.toNat + physOff + 0xF0 < 2 ^ 64)
    (hioapic : info.ioapicAddr.toNat + physOff + 0x10 < 2 ^ 64) :
    init info physOff idRegister =
      (ioredtblLo (keyboardIrq info).1 info.ioapicGsiBase).bind fun lo =>
        (addU8 lo 1).bind fun hi =>
          some (preamble (info.lapicAddr.toNat + physOff) ++
            [.write (info.ioapicAddr.toNat + physOff) hi.toUInt32,
              .write (info.ioapicAddr.toNat + physOff + 0x10) (idRegister >>> 24 <<< 24),
              .write (info.ioapicAddr.toNat + physOff) lo.toUInt32,
              .write (info.ioapicAddr.toNat + physOff + 0x10)
                (redirectionLow (keyboardIrq info).2.1 (keyboardIrq info).2.2)]) := by
  have hid : addUsize (info.lapicAddr.toNat + physOff) LAPIC_ID.toNat
      = some (info.lapicAddr.toNat + physOff + 0x20) :=
    addUsize_eq (show info.lapicAddr.toNat + physOff + 0x20 < 2 ^ 64 by omega)
  have hsvr : addUsize (info.lapicAddr.toNat + physOff) LAPIC_SVR.toNat
      = some (info.lapicAddr.toNat + physOff + 0xF0) := addUsize_eq hlapic
  have htpr : addUsize (info.lapicAddr.toNat + physOff) LAPIC_TPR.toNat
      = some (info.lapicAddr.toNat + physOff + 0x80) :=
    addUsize_eq (show info.lapicAddr.toNat + physOff + 0x80 < 2 ^ 64 by omega)
  unfold init lapicWrite ioapicWrite
  rw [addUsize_eq (show info.lapicAddr.toNat + physOff < 2 ^ 64 by omega),
    addUsize_eq (show info.ioapicAddr.toNat + physOff < 2 ^ 64 by omega)]
  simp only [Option.bind_eq_bind, Option.bind_some, hid, hsvr, htpr, addUsize_eq hioapic]
  rfl

theorem toUInt32_ofNat {n : Nat} (h : n < 256) : (UInt8.ofNat n).toUInt32 = UInt32.ofNat n := by
  rw [← UInt32.toNat_inj, UInt8.toNat_toUInt32, UInt8.toNat_ofNat', UInt32.toNat_ofNat',
    Nat.mod_eq_of_lt h, Nat.mod_eq_of_lt (by omega)]

/-- The entry that is programmed. -/
theorem programs_init_iff (hlapic : info.lapicAddr.toNat + physOff + 0xF0 < 2 ^ 64)
    (hioapic : info.ioapicAddr.toNat + physOff + 0x10 < 2 ^ 64) (hidx : idx < 120) :
    Programs (init info physOff idRegister) base idx ↔
      info.ioapicAddr.toNat + physOff = base ∧ info.ioapicGsiBase ≤ (keyboardIrq info).1 ∧
        2 * ((keyboardIrq info).1.toNat - info.ioapicGsiBase.toNat) < 2 ^ 32 ∧
          2 * ((keyboardIrq info).1.toNat - info.ioapicGsiBase.toNat) % 256 = 2 * idx := by
  rw [init_eq hlapic hioapic]
  constructor
  · rintro ⟨before, high, low, heq⟩
    obtain ⟨lo, hlo, heq⟩ := Option.bind_eq_some_iff.mp heq
    obtain ⟨hi, hhi, heq⟩ := Option.bind_eq_some_iff.mp heq
    obtain ⟨hle, hmul, hreg⟩ := ioredtblLo_eq_some.mp hlo
    have hwrites := (List.append_inj' (Option.some.inj heq) rfl).2
    simp only [entryWrites, List.cons.injEq, Effect.write.injEq] at hwrites
    obtain ⟨⟨haddr, -⟩, -, ⟨-, hindex⟩, -⟩ := hwrites
    refine ⟨haddr, hle, hmul, ?_⟩
    have hnat := congrArg UInt32.toNat hindex
    rw [UInt8.toNat_toUInt32, UInt32.toNat_ofNat', Nat.mod_eq_of_lt (by omega), hreg] at hnat
    omega
  · rintro ⟨rfl, hle, hmul, hindex⟩
    have hlo : ioredtblLo (keyboardIrq info).1 info.ioapicGsiBase
        = some (UInt8.ofNat (0x10 + 2 * idx)) := by
      rw [ioredtblLo_eq_some, hindex, UInt8.toNat_ofNat']
      exact ⟨hle, hmul, Nat.mod_eq_of_lt (by omega)⟩
    have hhi : addU8 (UInt8.ofNat (0x10 + 2 * idx)) 1
        = some (UInt8.ofNat (0x10 + 2 * idx + 1)) := by
      have hnat : (UInt8.ofNat (0x10 + 2 * idx)).toNat = 0x10 + 2 * idx := by
        rw [UInt8.toNat_ofNat', Nat.mod_eq_of_lt (by omega)]
      have hone : (1 : UInt8).toNat = 1 := rfl
      rw [addU8, hnat, hone, if_pos (by omega), UInt8.ofNat_add (0x10 + 2 * idx) 1]
      rfl
    refine ⟨preamble (info.lapicAddr.toNat + physOff), idRegister >>> 24 <<< 24,
      redirectionLow (keyboardIrq info).2.1 (keyboardIrq info).2.2, ?_⟩
    rw [hlo, Option.bind_some, hhi, Option.bind_some, toUInt32_ofNat (by omega),
      toUInt32_ofNat (by omega)]
    rfl

end Apic

/-! ### The owner of an interrupt -/

namespace Acpi.MadtTable

/-- The I/O APICs of a table. -/
def ioapics (t : MadtTable) : List IcStructure := t.structures.filter IcStructure.isIoapic

/-- The interrupt of the keyboard: what the override of ISA interrupt 1 says, or 1. -/
def keyboardGsi (t : MadtTable) : UInt32 := ((t.override 1).map IrqOverride.gsi).getD 1

/-- The I/O APIC that an interrupt belongs to: of those with a base up to it, the one with
the largest. -/
structure Owns (t : MadtTable) (s : IcStructure) (gsi : UInt32) : Prop where
  mem : s ∈ t.ioapics
  le : s.gsiBase ≤ gsi
  largest : ∀ s' ∈ t.ioapics, s'.gsiBase ≤ gsi → s'.gsiBase ≤ s.gsiBase

end Acpi.MadtTable

namespace Apic

open Acpi

variable {mem : Mem} {rsdpPhys : UInt64} {physOff madt : Nat} {t : MadtTable}
  {first owner : IcStructure} {gsi : UInt32}

/-- The first I/O APIC does for another one: it has the registers of that, and the bases
differ by what is cut off. -/
structure DoesFor (first owner : IcStructure) (gsi : UInt32) : Prop where
  addr : first.ioapicAddr = owner.ioapicAddr
  le : first.gsiBase ≤ owner.gsiBase
  cut : (owner.gsiBase.toNat - first.gsiBase.toNat) % 128 = 0
  fits : gsi.toNat - first.gsiBase.toNat < 2 ^ 31

/-- What `parse` returns of a table with a first I/O APIC. -/
theorem info_of_first (h : t.structures.find? IcStructure.isIoapic = some first) :
    ∃ info, t.info = some info ∧ info.lapicAddr = t.lapicAddr ∧
      info.ioapicAddr = first.ioapicAddr ∧ info.ioapicGsiBase = first.gsiBase ∧
      (keyboardIrq info).1 = t.keyboardGsi := by
  refine ⟨⟨t.lapicAddr, first.ioapicAddr, first.gsiBase,
    Vector.ofFn fun n : Fin 16 => t.override n⟩, ?_, rfl, rfl, rfl, ?_⟩
  · rw [MadtTable.info, h, Option.map_some]
  · unfold keyboardIrq MadtTable.keyboardGsi
    rw [Vector.getElem_ofFn]
    cases t.override 1 <;> rfl

/-- The entry programmed is the owner's when the first I/O APIC does for the owner. -/
theorem doesFor_iff (howns : t.Owns owner gsi) (hfirst : first ∈ t.ioapics)
    (hidx : gsi.toNat - owner.gsiBase.toNat < 120) :
    (first.ioapicAddr.toNat + physOff = owner.ioapicAddr.toNat + physOff ∧ first.gsiBase ≤ gsi ∧
      2 * (gsi.toNat - first.gsiBase.toNat) < 2 ^ 32 ∧
        2 * (gsi.toNat - first.gsiBase.toNat) % 256 = 2 * (gsi.toNat - owner.gsiBase.toNat)) ↔
      DoesFor first owner gsi := by
  have hle := UInt32.le_iff_toNat_le.mp howns.le
  constructor
  · rintro ⟨haddr, hfirstLe, hmul, hindex⟩
    have hbelow := UInt32.le_iff_toNat_le.mp (howns.largest first hfirst hfirstLe)
    rw [UInt32.le_iff_toNat_le] at hfirstLe
    exact ⟨UInt64.toNat_inj.mp (by omega), UInt32.le_iff_toNat_le.mpr hbelow, by omega, by omega⟩
  · intro hdoes
    have hbelow := UInt32.le_iff_toNat_le.mp hdoes.le
    have hcut := hdoes.cut
    have hroom := hdoes.fits
    exact ⟨by rw [hdoes.addr], UInt32.le_iff_toNat_le.mpr (by omega), by omega, by omega⟩

/-- **Routing the keyboard.**  The entry of the I/O APIC that owns the keyboard's interrupt
is programmed exactly when the first I/O APIC of the table does for the owner, as the
owner itself does. -/
theorem keyboard_routed_iff (hleads : Leads mem rsdpPhys physOff madt)
    (hheld : mem.Holds madt t.bytes) (hfits : madt + t.bytes.length + 2 < 2 ^ 64)
    (hmapped : physOff + 2 ^ 32 + 0xF0 < 2 ^ 64) (howns : t.Owns owner t.keyboardGsi)
    (hidx : t.keyboardGsi.toNat - owner.gsiBase.toNat < 120) (idRegister : UInt32) :
    Programs (route mem rsdpPhys physOff idRegister) (owner.ioapicAddr.toNat + physOff)
        (t.keyboardGsi.toNat - owner.gsiBase.toNat) ↔
      ∃ first, t.ioapics.head? = some first ∧ DoesFor first owner t.keyboardGsi := by
  obtain ⟨hin, his⟩ := List.mem_filter.mp howns.mem
  obtain ⟨first, hfirst⟩ := Option.isSome_iff_exists.mp
    (List.find?_isSome.mpr ⟨owner, hin, his⟩)
  have hhead : t.ioapics.head? = some first := (List.head?_filter ..).trans hfirst
  obtain ⟨info, hinfo, hlapic, hioapic, hbase, hgsi⟩ := info_of_first hfirst
  have hlapicLt : t.lapicAddr.toNat < 2 ^ 32 := (UInt32.ofNat _).toNat_lt
  have hioapicLt : first.ioapicAddr.toNat < 2 ^ 32 := (UInt32.ofNat _).toNat_lt
  have hroute : route mem rsdpPhys physOff idRegister = init info physOff idRegister := by
    rw [route, hleads.parse, parseMadt_result hheld hfits, hinfo]
    rfl
  rw [hroute, programs_init_iff (by rw [hlapic]; omega) (by rw [hioapic]; omega) hidx, hgsi,
    hioapic, hbase, hhead, doesFor_iff howns (List.mem_of_head? hhead) hidx]
  constructor
  · intro hdoes
    exact ⟨first, rfl, hdoes⟩
  · rintro ⟨first', hfirst', hdoes⟩
    obtain rfl := Option.some.inj hfirst'
    exact hdoes

theorem keyboard_routed_sample :
    Programs (route (memoryOf sampleTable) sampleRsdp samplePhysOff 0)
      (sampleIoapic.ioapicAddr.toNat + samplePhysOff)
      (sampleTable.keyboardGsi.toNat - sampleIoapic.gsiBase.toNat) := by
  have howns : sampleTable.Owns sampleIoapic sampleTable.keyboardGsi :=
    ⟨List.mem_filter.mpr ⟨List.mem_cons_self, by decide⟩, by decide +kernel, by decide +kernel⟩
  refine (keyboard_routed_iff (sample_leads (by decide +kernel)) (by decide +kernel) (by decide)
    (by decide) howns (by decide +kernel) 0).mpr ⟨sampleIoapic, rfl, rfl, ?_, ?_, ?_⟩
  · exact UInt32.le_refl _
  · decide +kernel
  · decide +kernel

/-- Two I/O APICs, the one with the lower interrupts second. -/
def reversedTable : MadtTable where
  header := SIGNATURE ++ [68, 0, 0, 0] ++ List.replicate 28 0 ++ [0, 0, 0xE0, 0xFE, 1, 0, 0, 0]
  structures := [secondIoapic, sampleIoapic]
  header_length := by decide
  length_eq := by decide +kernel

/-- Interrupt 1 belongs to the second I/O APIC, and 24 cannot be subtracted from 1. -/
theorem keyboard_lost :
    Leads (memoryOf reversedTable) sampleRsdp samplePhysOff (samplePhysOff + 0xE0064) ∧
      (memoryOf reversedTable).Holds (samplePhysOff + 0xE0064) reversedTable.bytes ∧
      (reversedTable.ioapics.map IcStructure.gsiBase).Nodup ∧
      reversedTable.Owns sampleIoapic reversedTable.keyboardGsi ∧
      reversedTable.keyboardGsi.toNat - sampleIoapic.gsiBase.toNat < 120 ∧
      route (memoryOf reversedTable) sampleRsdp samplePhysOff 0 = none ∧
      ¬ Programs (route (memoryOf reversedTable) sampleRsdp samplePhysOff 0)
        (sampleIoapic.ioapicAddr.toNat + samplePhysOff)
        (reversedTable.keyboardGsi.toNat - sampleIoapic.gsiBase.toNat) := by
  have hleads : Leads (memoryOf reversedTable) sampleRsdp samplePhysOff (samplePhysOff + 0xE0064) :=
    sample_leads (by decide +kernel)
  have hheld : (memoryOf reversedTable).Holds (samplePhysOff + 0xE0064) reversedTable.bytes := by
    decide +kernel
  have hpanic : route (memoryOf reversedTable) sampleRsdp samplePhysOff 0 = none := by
    rw [route, hleads.parse, parseMadt_result hheld (by decide)]
    decide +kernel
  refine ⟨hleads, hheld, by decide +kernel, ⟨?_, by decide +kernel, by decide +kernel⟩,
    by decide +kernel, hpanic, ?_⟩
  · exact List.mem_filter.mpr ⟨List.mem_cons_of_mem _ (List.mem_singleton_self _), by decide⟩
  · rintro ⟨before, high, low, heq⟩
    rw [hpanic] at heq
    exact absurd heq (by simp)

end Apic

end Amaterasu
