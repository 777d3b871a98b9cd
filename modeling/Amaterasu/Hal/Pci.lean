/-
`hal/src/pci.rs`: the search for the xHC in PCI configuration space.

The space is reached through a latch: an address is written to one port, and the register it
selects is read at another.  An address that the driver makes selects the register it is meant
to (`selected_address`), so that the search is a search through the space itself, in the order
of the buses and of the devices on each.  Only function 0 of a device is looked at, and the
address it has in its registers is taken as it is: one so high that the offset does not fit
behind it stops the search with a panic.
-/
import Amaterasu.Hal.Ports
import Mathlib.Tactic.IntervalCases

namespace Amaterasu

namespace Pci

open Dialogue Ports

/-- `CONFIG_ADDR`. -/
def configAddr : UInt16 := 0xCF8
/-- `CONFIG_DATA`. -/
def configData : UInt16 := 0xCFC

def address (bus dev func offset : UInt8) : UInt32 :=
  ((1 : UInt32) <<< 31) ||| (bus.toUInt32 <<< 16) ||| (dev.toUInt32 <<< 11)
    ||| (func.toUInt32 <<< 8) ||| (offset &&& 0xFC).toUInt32

/-- `cfg_read32`. -/
def cfgRead32 (bus dev func offset : UInt8) : Ports UInt32 := do
  outl configAddr (address bus dev func offset)
  inl configData

/-- What the search comes to. -/
inductive Outcome
  | panics
  | returns (bar0 : Option UInt64)
  deriving DecidableEq, Repr

/-- `Some(phys as usize + phys_off)`, a checked sum. -/
def virtual (phys physOff : UInt64) : Outcome :=
  if phys.toNat + physOff.toNat < 2 ^ 64 then .returns (some (phys + physOff)) else .panics

/-- The body of the loops of `find_xhci_bar0`; `none` is `continue`. -/
def probe (physOff : UInt64) (bus dev : UInt8) : Ports (Option Outcome) := do
  let vendorDev ← cfgRead32 bus dev 0 0x00
  if vendorDev = 0xFFFFFFFF then return none
  let classRev ← cfgRead32 bus dev 0 0x08
  if classRev >>> 8 ≠ 0x0C0330 then return none
  let barLo ← cfgRead32 bus dev 0 0x10
  let barHi ← cfgRead32 bus dev 0 0x14
  let phys := (barHi.toUInt64 <<< 32) ||| (barLo.toUInt64 &&& ~~~0xF)
  return some (virtual phys physOff)

/-- Devices one after the other, up to the first that is an xHC. -/
def scan (physOff : UInt64) : List (UInt8 × UInt8) → Ports Outcome
  | [] => return .returns none
  | (bus, dev) :: rest => do
      match ← probe physOff bus dev with
      | some outcome => return outcome
      | none => scan physOff rest

/-- All the buses, and the devices on each. -/
def slots : List (UInt8 × UInt8) :=
  (List.range 256).flatMap fun bus =>
    (List.range 32).map fun dev => (UInt8.ofNat bus, UInt8.ofNat dev)

/-- `find_xhci_bar0`. -/
def findXhciBar0 (physOff : UInt64) : Ports Outcome := scan physOff slots

/-! ### Configuration space -/

/-- A register: of a bus, a device and a function, at an offset of a multiple of four. -/
structure Register where
  bus : UInt8
  dev : UInt8
  func : UInt8
  offset : UInt8
  deriving DecidableEq, Repr

/-- What an address selects. -/
def selected (addr : UInt32) : Register where
  bus := (addr >>> 16).toUInt8
  dev := ((addr >>> 11) &&& 0x1F).toUInt8
  func := ((addr >>> 8) &&& 0x07).toUInt8
  offset := (addr &&& 0xFC).toUInt8

/-- The host bridge: a latch before configuration space. -/
def hostBridge (space : Register → UInt32) : Device UInt32 Pio UInt32 where
  drifts latch latch' := latch' = latch
  answers latch q r latch' := match q with
    | .outl port v => latch' = if port = configAddr then v else latch
    | .inl port =>
        latch' = latch ∧
          (port = configData ∧ latch &&& ((1 : UInt32) <<< 31) ≠ 0 → r = space (selected latch))
    | _ => latch' = latch

/-- A byte that is small has no high bits. -/
theorem high_bits {x : UInt8} {k i : Nat} (hx : x.toNat < 2 ^ k) (hi : i < 8) (hk : k ≤ i) :
    x.toBitVec[i] = false := by
  rw [BitVec.getElem_eq_testBit_toNat]
  exact Nat.testBit_lt_two_pow (Nat.lt_of_lt_of_le hx (Nat.pow_le_pow_right (by omega) hk))

/-- An address selects what it was made for. -/
theorem selected_address (bus : UInt8) {dev func : UInt8} (offset : UInt8)
    (hdev : dev.toNat < 2 ^ 5) (hfunc : func.toNat < 2 ^ 3) :
    selected (address bus dev func offset) = ⟨bus, dev, func, offset &&& 0xFC⟩ := by
  have hd := fun (i : Nat) (hi : i < 8) (hk : 5 ≤ i) => high_bits hdev hi hk
  have hf := fun (i : Nat) (hi : i < 8) (hk : 3 ≤ i) => high_bits hfunc hi hk
  rw [selected, address, Register.mk.injEq]
  refine ⟨?_, ?_, ?_, ?_⟩
  · rw [← UInt8.toBitVec_inj]
    ext i hi
    simp
    interval_cases i <;> simp [hd]
  · rw [← UInt8.toBitVec_inj]
    ext i hi
    simp
    interval_cases i <;> simp [hd, hf]
  · rw [← UInt8.toBitVec_inj]
    ext i hi
    simp
    interval_cases i <;> simp [hf]
  · rw [← UInt8.toBitVec_inj]
    ext i hi
    simp

theorem address_enabled (bus dev func offset : UInt8) :
    address bus dev func offset &&& ((1 : UInt32) <<< 31) ≠ 0 := by
  intro h
  have hbit := congrArg (fun v => v.toBitVec.getLsbD 31) h
  simp [address] at hbit

/-! ### The search -/

section Search

variable {space : Register → UInt32} {latch : UInt32} {bus dev : UInt8}

theorem meets_cfgRead32 (bus offset : UInt8) (hdev : dev.toNat < 2 ^ 5) :
    Meets (hostBridge space) (fun r _ => r = space ⟨bus, dev, 0, offset &&& 0xFC⟩)
      (cfgRead32 bus dev 0 offset) latch := by
  intro latch₁ _ latch₂ _ hlatch latch₃ r latch₄ hdrift ⟨_, hread⟩
  have hwritten : latch₂ = address bus dev 0 offset := hlatch.trans (if_pos rfl)
  have hsame : latch₃ = latch₂ := hdrift
  rw [hsame, hwritten] at hread
  have hvalue := hread ⟨rfl, address_enabled bus dev 0 offset⟩
  rwa [selected_address bus offset hdev (by decide)] at hvalue

/-- Function 0 of the device is an xHC. -/
def isXhci (space : Register → UInt32) (slot : UInt8 × UInt8) : Bool :=
  space ⟨slot.1, slot.2, 0, 0x00⟩ != 0xFFFFFFFF && space ⟨slot.1, slot.2, 0, 0x08⟩ >>> 8 == 0x0C0330

/-- Its first two base address registers, as one of 64 bits. -/
def bar0 (space : Register → UInt32) (slot : UInt8 × UInt8) : UInt64 :=
  ((space ⟨slot.1, slot.2, 0, 0x14⟩).toUInt64 <<< 32)
    ||| ((space ⟨slot.1, slot.2, 0, 0x10⟩).toUInt64 &&& ~~~0xF)

theorem meets_probe (physOff : UInt64) (bus : UInt8) (hdev : dev.toNat < 2 ^ 5) :
    Meets (hostBridge space) (fun r _ => r =
      if isXhci space (bus, dev) then some (virtual (bar0 space (bus, dev)) physOff) else none)
      (probe physOff bus dev) latch := by
  refine (meets_cfgRead32 bus 0x00 hdev).seq fun vendorDev latch hvendor => ?_
  have hvendor' : vendorDev = space ⟨bus, dev, 0, 0x00⟩ := hvendor
  by_cases hnone : vendorDev = 0xFFFFFFFF
  · have hskip : isXhci space (bus, dev) = false := by simp [isXhci, ← hvendor', hnone]
    rw [if_pos hnone, hskip]
    exact Meets.pure rfl
  rw [if_neg hnone]
  refine (meets_cfgRead32 bus 0x08 hdev).seq fun classRev latch hclass => ?_
  have hclass' : classRev = space ⟨bus, dev, 0, 0x08⟩ := hclass
  by_cases hother : classRev >>> 8 ≠ 0x0C0330
  · have hskip : isXhci space (bus, dev) = false := by simp [isXhci, ← hclass', hother]
    rw [if_pos hother, hskip]
    exact Meets.pure rfl
  have hxhci : isXhci space (bus, dev) = true := by
    simpa [isXhci, ← hvendor', ← hclass', hnone] using hother
  rw [if_neg hother, hxhci]
  refine (meets_cfgRead32 bus 0x10 hdev).seq fun barLo latch hlo => ?_
  refine (meets_cfgRead32 bus 0x14 hdev).seq fun barHi latch hhi => Meets.pure ?_
  rw [hlo, hhi]
  rfl

/-- The first of some devices that is an xHC. -/
theorem meets_scan (physOff : UInt64) (l : List (UInt8 × UInt8)) (hl : ∀ s ∈ l, s.2.toNat < 2 ^ 5) :
    Meets (hostBridge space)
      (fun r _ => r = match l.find? (isXhci space) with
        | none => .returns none
        | some s => virtual (bar0 space s) physOff)
      (scan physOff l) latch := by
  induction l generalizing latch with
  | nil => exact Meets.pure rfl
  | cons s l ih =>
      refine (meets_probe physOff s.1 (hl s List.mem_cons_self)).seq fun r latch hr => ?_
      cases hxhci : isXhci space s with
      | true =>
          rw [List.find?_cons_of_pos hxhci]
          rw [show isXhci space (s.1, s.2) = true from hxhci, if_pos rfl] at hr
          rw [hr]
          exact Meets.pure rfl
      | false =>
          rw [List.find?_cons_of_neg (by rw [hxhci]; simp)]
          rw [show isXhci space (s.1, s.2) = false from hxhci, if_neg (by simp)] at hr
          rw [hr]
          exact ih fun s' hs' => hl s' (List.mem_cons_of_mem _ hs')

end Search

/-! ### The order of the search -/

/-- One device before another. -/
def Before (s s' : UInt8 × UInt8) : Prop :=
  s.1.toNat < s'.1.toNat ∨ s.1 = s'.1 ∧ s.2.toNat < s'.2.toNat

theorem mem_slots {s : UInt8 × UInt8} : s ∈ slots ↔ s.2.toNat < 2 ^ 5 := by
  rw [slots, List.mem_flatMap]
  constructor
  · intro ⟨bus, _, hs⟩
    obtain ⟨dev, hdev, rfl⟩ := List.mem_map.mp hs
    rw [UInt8.toNat_ofNat']
    exact Nat.lt_of_le_of_lt (Nat.mod_le _ _) (List.mem_range.mp hdev)
  · intro h
    refine ⟨s.1.toNat, List.mem_range.mpr s.1.toNat_lt, List.mem_map.mpr ⟨s.2.toNat,
      List.mem_range.mpr h, ?_⟩⟩
    rw [UInt8.ofNat_toNat, UInt8.ofNat_toNat]

theorem slots_sorted : slots.Pairwise Before := by
  refine List.pairwise_flatMap.mpr ⟨fun bus _ => ?_, ?_⟩
  · refine List.pairwise_map.mpr (List.pairwise_lt_range.imp_of_mem fun hi hj hij => ?_)
    have hj' := List.mem_range.mp hj
    refine Or.inr ⟨rfl, ?_⟩
    rw [UInt8.toNat_ofNat', UInt8.toNat_ofNat']
    omega
  · refine List.pairwise_lt_range.imp_of_mem fun hi hj hij s hs s' hs' => ?_
    have hj' := List.mem_range.mp hj
    obtain ⟨dev, _, rfl⟩ := List.mem_map.mp hs
    obtain ⟨dev', _, rfl⟩ := List.mem_map.mp hs'
    refine Or.inl ?_
    rw [UInt8.toNat_ofNat', UInt8.toNat_ofNat']
    omega

theorem Before.asymm {s s' : UInt8 × UInt8} (h : Before s s') (h' : Before s' s) : False := by
  rcases h with h | ⟨heq, h⟩
  · rcases h' with h' | ⟨heq', _⟩
    · omega
    · rw [heq'] at h
      omega
  · rcases h' with h' | ⟨_, h'⟩
    · rw [heq] at h'
      omega
    · omega

/-- The outcome is that of the first controller, if there is one. -/
def OfFirst (space : Register → UInt32) (physOff : UInt64) (r : Outcome) : Prop :=
  (r = .returns none ∧ ∀ s : UInt8 × UInt8, s.2.toNat < 2 ^ 5 → isXhci space s = false) ∨
    ∃ s : UInt8 × UInt8, s.2.toNat < 2 ^ 5 ∧ isXhci space s = true ∧
      (if (bar0 space s).toNat + physOff.toNat < 2 ^ 64
        then r = .returns (some (bar0 space s + physOff)) else r = .panics) ∧
      ∀ s' : UInt8 × UInt8, s'.2.toNat < 2 ^ 5 → Before s' s → isXhci space s' = false

/--
**The search comes to the first controller.**  Whatever is in configuration space: with no xHC
at function 0 of any device the search finds none; else it comes to the first of them, by buses
and then by devices, and the address that its first two base address registers make is returned
with the offset added, unless the sum overflows.
-/
theorem find_xhci_bar0_first {space : Register → UInt32} {physOff : UInt64} {latch latch' : UInt32}
    {r : Outcome} (hrun : Runs (hostBridge space) (findXhciBar0 physOff) latch r latch') :
    OfFirst space physOff r := by
  have hscan := (meets_scan physOff slots fun s hs => mem_slots.mp hs).run hrun
  cases hfind : slots.find? (isXhci space) with
  | none =>
      rw [hfind] at hscan
      refine Or.inl ⟨hscan, fun s hs => ?_⟩
      simpa using List.find?_eq_none.mp hfind s (mem_slots.mpr hs)
  | some s =>
      rw [hfind] at hscan
      obtain ⟨hxhci, before, after, hslots, hbefore⟩ := List.find?_eq_some_iff_append.mp hfind
      have hmem : s ∈ slots := List.mem_of_find?_eq_some hfind
      have hsum : if (bar0 space s).toNat + physOff.toNat < 2 ^ 64
          then r = .returns (some (bar0 space s + physOff)) else r = .panics := by
        dsimp only at hscan
        unfold virtual at hscan
        by_cases hfit : (bar0 space s).toNat + physOff.toNat < 2 ^ 64
        · rw [if_pos hfit] at hscan ⊢
          exact hscan
        · rw [if_neg hfit] at hscan ⊢
          exact hscan
      refine Or.inr ⟨s, mem_slots.mp hmem, hxhci, hsum, fun s' hs' hlt => ?_⟩
      have hsorted := slots_sorted
      rw [hslots, List.pairwise_append] at hsorted
      have hs'mem := mem_slots.mpr hs'
      rw [hslots, List.mem_append, List.mem_cons] at hs'mem
      rcases hs'mem with hin | rfl | hin
      · simpa using hbefore s' hin
      · exact (hlt.asymm hlt).elim
      · exact (hlt.asymm (List.rel_of_pairwise_cons hsorted.2.1 hin)).elim

theorem runs_cfgRead32 (space : Register → UInt32) (latch : UInt32) (bus offset : UInt8)
    {dev : UInt8} (hdev : dev.toNat < 2 ^ 5) :
    Runs (hostBridge space) (cfgRead32 bus dev 0 offset) latch
      (space ⟨bus, dev, 0, offset &&& 0xFC⟩) (address bus dev 0 offset) := by
  have hselects := selected_address bus offset hdev (show (0 : UInt8).toNat < 2 ^ 3 by decide)
  exact .ask (r := 0) rfl (if_pos rfl).symm
    (.ask rfl ⟨rfl, fun _ => by rw [hselects]⟩ .done)

/-- Configuration space with an xHC at every place, at one address. -/
def uniform (barHi : UInt32) (r : Register) : UInt32 :=
  if r.offset = 0x10 then 0xFEB00004 else if r.offset = 0x14 then barHi else 0x0C033004

theorem runs_uniform (physOff : UInt64) (barHi : UInt32) : ∃ latch',
    Runs (hostBridge (uniform barHi)) (findXhciBar0 physOff) 0
      (virtual (bar0 (uniform barHi) (0, 0)) physOff) latch' := by
  have hread := fun latch offset =>
    runs_cfgRead32 (uniform barHi) latch 0 offset (show (0 : UInt8).toNat < 2 ^ 5 by decide)
  have hid : uniform barHi ⟨0, 0, 0, 0x00 &&& 0xFC⟩ = 0x0C033004 := rfl
  have hclass : uniform barHi ⟨0, 0, 0, 0x08 &&& 0xFC⟩ = 0x0C033004 := rfl
  have hprobe : ∃ latch', Runs (hostBridge (uniform barHi)) (probe physOff 0 0) 0
      (some (virtual (bar0 (uniform barHi) (0, 0)) physOff)) latch' := by
    refine (hread 0 0x00).bind_exists ?_
    rw [hid, if_neg (by decide)]
    refine (hread _ 0x08).bind_exists ?_
    rw [hclass, if_neg (by decide)]
    exact ⟨_, (hread _ 0x10).bind ((hread _ 0x14).bind .done)⟩
  obtain ⟨latch', hprobe⟩ := hprobe
  exact ⟨latch', show Runs _ (scan physOff ((0, 0) :: slots.tail)) 0 _ latch' from
    hprobe.bind .done⟩

/-- An xHC at the first place of all, where the offset fits behind its address and where not. -/
theorem find_xhci_bar0_first_root : ∃ latch latch',
    Runs (hostBridge (uniform 0)) (findXhciBar0 0xFFFF800000000000) 0
      (.returns (some 0xFFFF8000FEB00000)) latch ∧
    OfFirst (uniform 0) 0xFFFF800000000000 (.returns (some 0xFFFF8000FEB00000)) ∧
    Runs (hostBridge (uniform 0xFFFFFFFF)) (findXhciBar0 0xFFFF800000000000) 0 .panics latch' ∧
    OfFirst (uniform 0xFFFFFFFF) 0xFFFF800000000000 .panics := by
  obtain ⟨latch, hfits⟩ := runs_uniform 0xFFFF800000000000 0
  obtain ⟨latch', hpanics⟩ := runs_uniform 0xFFFF800000000000 0xFFFFFFFF
  exact ⟨latch, latch', hfits, find_xhci_bar0_first hfits, hpanics, find_xhci_bar0_first hpanics⟩

end Pci

end Amaterasu
