/-
The ACPI tables as `hal/src/acpi.rs` reads them.

Nothing is known of the tables but what is read from memory: the RSDP leads to a root
table, the root table to the MADT, and the MADT is a header and a list of structures of
different lengths.  Addresses are sums that the code checks, so a table too close to the
end of the address space is a panic.
-/
import Amaterasu.Lib.Traced

namespace Amaterasu

namespace Acpi

open Traced

structure IrqOverride where
  isaIrq : UInt8
  gsi : UInt32
  activeLow : Bool
  levelTriggered : Bool
  deriving DecidableEq, Repr

structure ApicInfo where
  lapicAddr : UInt64
  ioapicAddr : UInt64
  ioapicGsiBase : UInt32
  overrides : Vector (Option IrqOverride) 16
  deriving DecidableEq, Repr

/-! ### Reads -/

variable (mem : Mem)

def read8 (a : Nat) : Traced UInt8 := reading a 1 (mem a)

def read16 (a : Nat) : Traced UInt16 := reading a 2 (UInt16.ofNat (littleEndian (mem.bytes a 2)))

def read32 (a : Nat) : Traced UInt32 := reading a 4 (UInt32.ofNat (littleEndian (mem.bytes a 4)))

def read64 (a : Nat) : Traced UInt64 := reading a 8 (UInt64.ofNat (littleEndian (mem.bytes a 8)))

/-- An array of bytes. -/
def readBytes (a n : Nat) : Traced (List UInt8) := reading a n (mem.bytes a n)

/-! ### The MADT -/

/-- `b"APIC"`. -/
def SIGNATURE : List UInt8 := [0x41, 0x50, 0x49, 0x43]

/-- `b"RSD PTR "`. -/
def RSDP_SIGNATURE : List UInt8 := [0x52, 0x53, 0x44, 0x20, 0x50, 0x54, 0x52, 0x20]

/-- `size_of::<SdtHeader>()`. -/
def HEADER_SIZE : Nat := 36

/-- `size_of::<Madt>()`. -/
def MADT_SIZE : Nat := 44

def physToVirt (phys : UInt64) (physOff : Nat) : Traced Nat := do
  fits (phys.toNat + physOff)
  pure (phys.toNat + physOff)

/-- `child_phys`, an entry of the root table. -/
def readEntry (entryPtr entrySize : Nat) : Traced UInt64 :=
  if entrySize = 4 then do
    let phys ← read32 mem entryPtr
    pure phys.toUInt64
  else read64 mem entryPtr

/-- The entries of the root table from the `i`th on, `n` of them. -/
def findEntry (base entrySize physOff : Nat) : (n i : Nat) → Traced (Option Nat)
  | 0, _ => pure none
  | n + 1, i => do
      fits (i * entrySize)
      fits (base + i * entrySize)
      let childPhys ← readEntry mem (base + i * entrySize) entrySize
      let childVirt ← physToVirt childPhys physOff
      let sig ← readBytes mem childVirt 4
      if sig = SIGNATURE then pure (some childVirt)
      else findEntry base entrySize physOff n (i + 1)

def findMadt (rootPhys : UInt64) (entrySize physOff : Nat) : Traced (Option Nat) := do
  let rootVirt ← physToVirt rootPhys physOff
  let tableLen ← read32 mem (rootVirt + 4)
  if tableLen.toNat < HEADER_SIZE then pure none
  else do
    fits (rootVirt + HEADER_SIZE)
    findEntry mem (rootVirt + HEADER_SIZE) entrySize physOff
      ((tableLen.toNat - HEADER_SIZE) / entrySize) 0

/-- What the loop over the structures of the MADT has found. -/
structure Found where
  ioapicAddr : Option UInt64
  ioapicGsiBase : UInt32
  overrides : Vector (Option IrqOverride) 16
  deriving DecidableEq, Repr

def Found.empty : Found := ⟨none, 0, Vector.replicate 16 none⟩

/-- The override that an interrupt source override with these fields describes. -/
def irqOverride (source : UInt8) (gsi : UInt32) (flags : UInt16) : IrqOverride where
  isaIrq := source
  gsi := gsi
  activeLow := flags &&& 0b0011 == 0b11
  levelTriggered := (flags >>> 2) &&& 0b0011 == 0b11

/-- Type 1, an I/O APIC. -/
def visitIoapic (ic : Nat) (found : Found) : Traced Found := do
  fits (ic + 4)
  let addr ← read32 mem (ic + 4)
  fits (ic + 8)
  let gsi ← read32 mem (ic + 8)
  pure { found with ioapicAddr := some addr.toUInt64, ioapicGsiBase := gsi }

/-- Type 2, an interrupt source override. -/
def visitOverride (ic : Nat) (found : Found) : Traced Found := do
  fits (ic + 2)
  let bus ← read8 mem (ic + 2)
  fits (ic + 3)
  let source ← read8 mem (ic + 3)
  fits (ic + 4)
  let gsi ← read32 mem (ic + 4)
  fits (ic + 8)
  let flags ← read16 mem (ic + 8)
  if h : bus = 0 ∧ source.toNat < 16 then
    pure { found with
      overrides := found.overrides.set source.toNat (some (irqOverride source gsi flags)) h.2 }
  else pure found

/-- The `match` on the type of a structure. -/
def visit (ic : Nat) (entryType : UInt8) (entryLen : Nat) (found : Found) : Traced Found :=
  if entryType = 1 ∧ 12 ≤ entryLen ∧ found.ioapicAddr = none then visitIoapic mem ic found
  else if entryType = 2 ∧ 10 ≤ entryLen then visitOverride mem ic found
  else pure found

/-- The `while` loop, from `ic` on. -/
def walk (madtEnd ic : Nat) (found : Found) : Traced Found := do
  fits (ic + 2)
  if _hend : ic + 2 ≤ madtEnd then
    let entryType ← read8 mem ic
    fits (ic + 1)
    let entryLen ← read8 mem (ic + 1)
    if _hlen : entryLen.toNat < 2 then pure found
    else do
      let found ← visit mem ic entryType entryLen.toNat found
      fits (ic + entryLen.toNat)
      walk madtEnd (ic + entryLen.toNat) found
  else pure found
termination_by madtEnd - ic

/-- What `parse` does once it has the MADT. -/
def parseMadt (madt : Nat) : Traced (Option ApicInfo) := do
  let lapicAddr ← read32 mem (madt + 36)
  let madtLen ← read32 mem (madt + 4)
  fits (madt + madtLen.toNat)
  fits (madt + MADT_SIZE)
  let found ← walk mem (madt + madtLen.toNat) (madt + MADT_SIZE) Found.empty
  pure (found.ioapicAddr.map fun ioapicAddr =>
    ⟨lapicAddr.toUInt64, ioapicAddr, found.ioapicGsiBase, found.overrides⟩)

/-- The MADT, by the XSDT from revision 2 on and by the RSDT before. -/
def chooseMadt (rsdp : Nat) (revision : UInt8) (physOff : Nat) : Traced (Option Nat) :=
  if 2 ≤ revision then do
    let xsdtPhys ← read64 mem (rsdp + 24)
    findMadt mem xsdtPhys 8 physOff
  else do
    let rsdtPhys ← read32 mem (rsdp + 16)
    findMadt mem rsdtPhys.toUInt64 4 physOff

/-- `parse`; a failure is a panic. -/
def parse (rsdpPhys : UInt64) (physOff : Nat) : Traced (Option ApicInfo) := do
  let rsdp ← physToVirt rsdpPhys physOff
  let sig ← readBytes mem rsdp 8
  if sig ≠ RSDP_SIGNATURE then pure none
  else do
    let revision ← read8 mem (rsdp + 15)
    match ← chooseMadt mem rsdp revision physOff with
    | none => pure none
    | some madt => parseMadt mem madt

/-- The length that the header of a table states. -/
def tableLength (table : Nat) : Nat :=
  (UInt32.ofNat (littleEndian (mem.bytes (table + 4) 4))).toNat

end Acpi

end Amaterasu
