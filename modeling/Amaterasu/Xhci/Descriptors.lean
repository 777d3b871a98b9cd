/-
The configuration descriptor of a USB device, as `find_hid_kbd_ep` in
`hal/src/xhci.rs` reads it.

A list of descriptors, each with its length in its first byte and its type in the
second.  The bytes come from the device, so neither is to be trusted: every index the
walk uses is into a slice it has only measured descriptor by descriptor.  Reading past
the end would be a panic, and shows here as `none`.
-/
import Mathlib.Data.List.Basic

namespace Amaterasu

/-- What `find_hid_kbd_ep` returns. -/
structure HidKbdEp where
  /-- `bConfigurationValue`. -/
  cfgVal : UInt8
  iface : UInt8
  addr : UInt8
  maxPkt : UInt16
  interval : UInt8
  deriving DecidableEq, Repr

/-- An interface descriptor: whether it is a boot keyboard's, and the last interface
that was one. -/
def hidKbdIface (cfg : List UInt8) (off : Nat) (iface : UInt8) : Option (Bool × UInt8) := do
  let cls ← cfg[off + 5]?
  let subclass ← cfg[off + 6]?
  let proto ← cfg[off + 7]?
  let num ← cfg[off + 2]?
  let inHidKbd := cls == 0x03 && subclass == 0x01 && proto == 0x01
  return (inHidKbd, if inHidKbd then num else iface)

/-- An endpoint descriptor: what is returned for it, if it is an interrupt IN. -/
def hidKbdEndpoint (cfg : List UInt8) (off : Nat) (cfgVal iface : UInt8) :
    Option (Option HidKbdEp) := do
  let addr ← cfg[off + 2]?
  let attr ← cfg[off + 3]?
  let lo ← cfg[off + 4]?
  let hi ← cfg[off + 5]?
  let ival ← cfg[off + 6]?
  let mpkt := lo.toUInt16 ||| (hi.toUInt16 <<< 8)
  if addr &&& 0x80 ≠ 0 ∧ attr &&& 0x03 = 0x03 then
    return some { cfgVal, iface, addr, maxPkt := mpkt &&& 0x7FF, interval := ival }
  else return none

/-- The `while` loop, from `off` on. -/
def walkDescriptors (cfg : List UInt8) (cfgVal : UInt8) (off : Nat) (inHidKbd : Bool)
    (iface : UInt8) : Option (Option HidKbdEp) :=
  if _hoff : off + 2 ≤ cfg.length then do
    let blen ← cfg[off]?
    let btype ← cfg[off + 1]?
    if _hlen : blen.toNat < 2 ∨ cfg.length < off + blen.toNat then return none
    else if btype = 0x04 ∧ 9 ≤ blen.toNat then
      let (inHidKbd, iface) ← hidKbdIface cfg off iface
      walkDescriptors cfg cfgVal (off + blen.toNat) inHidKbd iface
    else if btype = 0x05 ∧ 7 ≤ blen.toNat ∧ inHidKbd then
      match ← hidKbdEndpoint cfg off cfgVal iface with
      | some ep => return some ep
      | none => walkDescriptors cfg cfgVal (off + blen.toNat) inHidKbd iface
    else walkDescriptors cfg cfgVal (off + blen.toNat) inHidKbd iface
  else some none
termination_by cfg.length - off

/-- `find_hid_kbd_ep`; `none` is an index out of range. -/
def findHidKbdEp (cfg : List UInt8) : Option (Option HidKbdEp) :=
  if cfg.length < 9 then some none
  else do
    let cfgVal ← cfg[5]?
    walkDescriptors cfg cfgVal 0 false 0

/-! ### The walk stays inside the slice -/

theorem hidKbdIface_isSome {cfg : List UInt8} {off : Nat} (h : off + 9 ≤ cfg.length)
    (iface : UInt8) : ∃ r, hidKbdIface cfg off iface = some r := by
  unfold hidKbdIface
  rw [List.getElem?_eq_getElem (by omega : off + 5 < cfg.length),
    List.getElem?_eq_getElem (by omega : off + 6 < cfg.length),
    List.getElem?_eq_getElem (by omega : off + 7 < cfg.length),
    List.getElem?_eq_getElem (by omega : off + 2 < cfg.length)]
  exact ⟨_, rfl⟩

theorem hidKbdEndpoint_isSome {cfg : List UInt8} {off : Nat} (h : off + 7 ≤ cfg.length)
    (cfgVal iface : UInt8) : ∃ r, hidKbdEndpoint cfg off cfgVal iface = some r := by
  unfold hidKbdEndpoint
  rw [List.getElem?_eq_getElem (by omega : off + 2 < cfg.length),
    List.getElem?_eq_getElem (by omega : off + 3 < cfg.length),
    List.getElem?_eq_getElem (by omega : off + 4 < cfg.length),
    List.getElem?_eq_getElem (by omega : off + 5 < cfg.length),
    List.getElem?_eq_getElem (by omega : off + 6 < cfg.length)]
  simp only [Option.bind_eq_bind, Option.bind_some]
  split
  · exact ⟨_, rfl⟩
  · exact ⟨_, rfl⟩

theorem walkDescriptors_isSome (cfg : List UInt8) (cfgVal : UInt8) (off : Nat)
    (inHidKbd : Bool) (iface : UInt8) :
    ∃ r, walkDescriptors cfg cfgVal off inHidKbd iface = some r := by
  induction off, inHidKbd, iface using walkDescriptors.induct cfg with
  | case1 off inHidKbd iface hoff ihIface ihEndpoint ihOther =>
      rw [walkDescriptors, dif_pos hoff, List.getElem?_eq_getElem (by omega : off < cfg.length),
        List.getElem?_eq_getElem (by omega : off + 1 < cfg.length)]
      simp only [Option.bind_eq_bind, Option.bind_some]
      split
      · exact ⟨_, rfl⟩
      rename_i hlen
      split
      · rename_i hiface
        obtain ⟨r, hr⟩ := hidKbdIface_isSome (show off + 9 ≤ cfg.length by omega) iface
        rw [hr]
        exact ihIface _ _ hlen hiface r.1 r.2
      split
      · rename_i hendpoint
        obtain ⟨r, hr⟩ := hidKbdEndpoint_isSome (show off + 7 ≤ cfg.length by omega) cfgVal iface
        rw [hr]
        cases r with
        | some ep => exact ⟨_, rfl⟩
        | none => exact ihEndpoint _ _ hlen hendpoint
      · exact ihOther _ hlen
  | case2 off inHidKbd iface hoff =>
      rw [walkDescriptors, dif_neg hoff]
      exact ⟨_, rfl⟩

/-- No index is out of range, whatever the bytes. -/
theorem findHidKbdEp_isSome (cfg : List UInt8) : ∃ r, findHidKbdEp cfg = some r := by
  unfold findHidKbdEp
  by_cases hlen : cfg.length < 9
  · exact ⟨none, if_pos hlen⟩
  · rw [if_neg hlen, List.getElem?_eq_getElem (by omega : 5 < cfg.length)]
    exact walkDescriptors_isSome ..

end Amaterasu
