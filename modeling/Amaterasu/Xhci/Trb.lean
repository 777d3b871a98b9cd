/-
Transfer request blocks, as `hal/src/xhci.rs` lays them out.

Four dwords.  What the driver and the controller read of them are a few bit fields:
the cycle bit and the type in the last dword, and in an event TRB the completion code,
the residual length and the slot.
-/
import Mathlib

namespace Amaterasu

/-- `Trb`. -/
structure Trb where
  dw0 : UInt32
  dw1 : UInt32
  dw2 : UInt32
  dw3 : UInt32
  deriving DecidableEq, Repr

def trbNormal : UInt32 := 1
def trbSetup : UInt32 := 2
def trbData : UInt32 := 3
def trbStatus : UInt32 := 4
def trbLink : UInt32 := 6
def trbEnableSlot : UInt32 := 9
def trbDisableSlot : UInt32 := 10
def trbAddrDevice : UInt32 := 11
def trbCfgEp : UInt32 := 12
def trbEvalCtx : UInt32 := 13
def trbEvtTransfer : UInt32 := 32
def trbEvtCmd : UInt32 := 33

/-- `CC_SUCCESS`. -/
def ccSuccess : UInt8 := 1

/-- `CC_SHORT_PKT`. -/
def ccShortPkt : UInt8 := 13

namespace Trb

def zero : Trb := ⟨0, 0, 0, 0⟩

/-- Bit 0 of the last dword. -/
def cycle (t : Trb) : UInt32 := t.dw3 &&& 1

def trbType (t : Trb) : UInt32 := (t.dw3 >>> 10) &&& 0x3F

/-- A Link TRB's toggle-cycle bit. -/
def togglesCycle (t : Trb) : Bool := t.dw3 &&& 2 != 0

/-- An event's completion code. -/
def completionCode (t : Trb) : UInt8 := ((t.dw2 >>> 24) &&& 0xFF).toUInt8

/-- An event's slot. -/
def slotId (t : Trb) : UInt8 := ((t.dw3 >>> 24) &&& 0xFF).toUInt8

/-- A transfer event's untransferred byte count. -/
def residual (t : Trb) : UInt32 := t.dw2 &&& 0xFFFFFF

/-- An event's TRB pointer. -/
def pointer (t : Trb) : UInt64 := (t.dw1.toUInt64 <<< 32) ||| t.dw0.toUInt64

/-- The TRB with `c` for its cycle bit, written as the driver writes it. -/
def withCycle (t : Trb) (c : UInt32) : Trb := { t with dw3 := (t.dw3 &&& ~~~1) ||| c }

/-- All of a TRB but its cycle bit. -/
def payload (t : Trb) : Trb := t.withCycle 0

/-! ### Bit fields under `withCycle` -/

theorem or_and (x y z : UInt32) : (x ||| y) &&& z = x &&& z ||| y &&& z :=
  UInt32.toBitVec_inj.mp BitVec.and_or_distrib_right

variable {c : UInt32}

theorem withCycle_cycle (t : Trb) (hc : c = 0 ∨ c = 1) : (t.withCycle c).cycle = c := by
  show (t.dw3 &&& ~~~1 ||| c) &&& 1 = c
  rw [or_and, UInt32.and_assoc, show (~~~1 &&& 1 : UInt32) = 0 from rfl, UInt32.and_zero]
  rcases hc with rfl | rfl <;> rfl

theorem withCycle_trbType (t : Trb) (hc : c = 0 ∨ c = 1) :
    (t.withCycle c).trbType = t.trbType := by
  show ((t.dw3 &&& ~~~1 ||| c) >>> (10 : UInt32)) &&& (0x3F : UInt32)
    = (t.dw3 >>> (10 : UInt32)) &&& (0x3F : UInt32)
  rw [UInt32.shiftRight_or, UInt32.shiftRight_and, or_and, UInt32.and_assoc,
    show (~~~(1 : UInt32)) >>> 10 &&& 0x3F = 0x3F from rfl]
  rcases hc with rfl | rfl
  · rw [UInt32.zero_shiftRight, UInt32.zero_and, UInt32.or_zero]
  · rw [show (1 : UInt32) >>> 10 = 0 from rfl, UInt32.zero_and, UInt32.or_zero]

theorem withCycle_togglesCycle (t : Trb) (hc : c = 0 ∨ c = 1) :
    (t.withCycle c).togglesCycle = t.togglesCycle := by
  show ((t.dw3 &&& ~~~1 ||| c) &&& 2 != 0) = (t.dw3 &&& 2 != 0)
  rw [or_and, UInt32.and_assoc, show (~~~(1 : UInt32)) &&& 2 = 2 from rfl]
  rcases hc with rfl | rfl
  · rw [UInt32.zero_and, UInt32.or_zero]
  · rw [show (1 : UInt32) &&& 2 = 0 from rfl, UInt32.or_zero]

theorem withCycle_payload (t : Trb) (hc : c = 0 ∨ c = 1) :
    (t.withCycle c).payload = t.payload := by
  unfold payload withCycle
  congr 1
  rw [or_and, UInt32.and_assoc, UInt32.and_self]
  rcases hc with rfl | rfl
  · rw [UInt32.zero_and, UInt32.or_zero]
  · rw [show (1 : UInt32) &&& ~~~1 = 0 from rfl, UInt32.or_zero]

/-! ### Event TRBs -/

/-- An event as the controller writes it, cycle bit apart. -/
def event (type : UInt32) (ptr : UInt64) (residual : UInt32) (cc slot ep : UInt8) : Trb :=
  { dw0 := ptr.toUInt32
    dw1 := (ptr >>> 32).toUInt32
    dw2 := (cc.toUInt32 <<< 24) ||| (residual &&& 0xFFFFFF)
    dw3 := (slot.toUInt32 <<< 24) ||| ((ep &&& 0x1F).toUInt32 <<< 16) ||| (type <<< 10) }

/-- Reading a field of a value shifted into place, on numbers. -/
theorem toNat_shifted_field (x a b mask : UInt32) {m : Nat} (hm : mask.toNat = 2 ^ m - 1) :
    (((x <<< a) >>> b) &&& mask).toNat
      = x.toNat * 2 ^ (a.toNat % 32) % 2 ^ 32 / 2 ^ (b.toNat % 32) % 2 ^ m := by
  rw [UInt32.toNat_and, UInt32.toNat_shiftRight, UInt32.toNat_shiftLeft, hm,
    Nat.and_two_pow_sub_one_eq_mod, Nat.shiftLeft_eq, Nat.shiftRight_eq_div_pow]

variable {type : UInt32} (ptr : UInt64) (residual : UInt32) (cc slot ep : UInt8)

theorem ep_toNat_lt : (ep &&& 0x1F).toUInt32.toNat < 32 := by
  rw [UInt8.toNat_toUInt32, UInt8.toNat_and]
  exact Nat.and_lt_two_pow _ (by decide : (0x1F : UInt8).toNat < 2 ^ 5)

@[simp] theorem event_trbType (ht : type.toNat < 64) :
    (event type ptr residual cc slot ep).trbType = type := by
  show (((slot.toUInt32 <<< (24 : UInt32)) ||| ((ep &&& 0x1F).toUInt32 <<< (16 : UInt32))
    ||| (type <<< (10 : UInt32))) >>> (10 : UInt32)) &&& (0x3F : UInt32) = type
  have hslot : ((slot.toUInt32 <<< (24 : UInt32)) >>> (10 : UInt32)) &&& (0x3F : UInt32) = 0 :=
    UInt32.toNat_inj.mp ((toNat_shifted_field _ _ _ _ (m := 6) rfl).trans (by
      show slot.toUInt32.toNat * 2 ^ 24 % 2 ^ 32 / 2 ^ 10 % 2 ^ 6 = 0
      omega))
  have hep : (((ep &&& 0x1F).toUInt32 <<< (16 : UInt32)) >>> (10 : UInt32)) &&& (0x3F : UInt32)
      = 0 :=
    UInt32.toNat_inj.mp ((toNat_shifted_field _ _ _ _ (m := 6) rfl).trans (by
      show (ep &&& 0x1F).toUInt32.toNat * 2 ^ 16 % 2 ^ 32 / 2 ^ 10 % 2 ^ 6 = 0
      omega))
  have htype : ((type <<< (10 : UInt32)) >>> (10 : UInt32)) &&& (0x3F : UInt32) = type :=
    UInt32.toNat_inj.mp ((toNat_shifted_field _ _ _ _ (m := 6) rfl).trans (by
      show type.toNat * 2 ^ 10 % 2 ^ 32 / 2 ^ 10 % 2 ^ 6 = type.toNat
      omega))
  rw [UInt32.shiftRight_or, UInt32.shiftRight_or, or_and, or_and, hslot, hep, htype,
    UInt32.zero_or, UInt32.zero_or]

@[simp] theorem event_slotId (ht : type.toNat < 64) :
    (event type ptr residual cc slot ep).slotId = slot := by
  show ((((slot.toUInt32 <<< (24 : UInt32)) ||| ((ep &&& 0x1F).toUInt32 <<< (16 : UInt32))
    ||| (type <<< (10 : UInt32))) >>> (24 : UInt32)) &&& (0xFF : UInt32)).toUInt8 = slot
  have hslot : ((slot.toUInt32 <<< (24 : UInt32)) >>> (24 : UInt32)) &&& (0xFF : UInt32)
      = slot.toUInt32 :=
    UInt32.toNat_inj.mp ((toNat_shifted_field _ _ _ _ (m := 8) rfl).trans (by
      have := slot.toNat_lt
      show slot.toNat * 2 ^ 24 % 2 ^ 32 / 2 ^ 24 % 2 ^ 8 = slot.toNat
      omega))
  have hep : (((ep &&& 0x1F).toUInt32 <<< (16 : UInt32)) >>> (24 : UInt32)) &&& (0xFF : UInt32)
      = 0 :=
    UInt32.toNat_inj.mp ((toNat_shifted_field _ _ _ _ (m := 8) rfl).trans (by
      have := ep_toNat_lt ep
      show (ep &&& 0x1F).toUInt32.toNat * 2 ^ 16 % 2 ^ 32 / 2 ^ 24 % 2 ^ 8 = 0
      omega))
  have htype : ((type <<< (10 : UInt32)) >>> (24 : UInt32)) &&& (0xFF : UInt32) = 0 :=
    UInt32.toNat_inj.mp ((toNat_shifted_field _ _ _ _ (m := 8) rfl).trans (by
      show type.toNat * 2 ^ 10 % 2 ^ 32 / 2 ^ 24 % 2 ^ 8 = 0
      omega))
  rw [UInt32.shiftRight_or, UInt32.shiftRight_or, or_and, or_and, hslot, hep, htype,
    UInt32.or_zero, UInt32.or_zero, UInt8.toUInt8_toUInt32]

@[simp] theorem event_completionCode :
    (event type ptr residual cc slot ep).completionCode = cc := by
  show ((((cc.toUInt32 <<< (24 : UInt32)) ||| (residual &&& 0xFFFFFF)) >>> (24 : UInt32))
    &&& (0xFF : UInt32)).toUInt8 = cc
  have hcc : ((cc.toUInt32 <<< (24 : UInt32)) >>> (24 : UInt32)) &&& (0xFF : UInt32)
      = cc.toUInt32 :=
    UInt32.toNat_inj.mp ((toNat_shifted_field _ _ _ _ (m := 8) rfl).trans (by
      have := cc.toNat_lt
      show cc.toNat * 2 ^ 24 % 2 ^ 32 / 2 ^ 24 % 2 ^ 8 = cc.toNat
      omega))
  rw [UInt32.shiftRight_or, or_and, hcc, UInt32.shiftRight_and, UInt32.and_assoc,
    show ((0xFFFFFF : UInt32) >>> (24 : UInt32)) &&& (0xFF : UInt32) = 0 from rfl,
    UInt32.and_zero, UInt32.or_zero, UInt8.toUInt8_toUInt32]

end Trb

end Amaterasu
