/-
Scancodes and HID reports to input bytes, from `kernel/src/keyboard.rs`.

Both decoders push into the input ring and touch nothing else outside this state,
so each returns the bytes it pushes, in order, next to its new state.  The PS/2 side
keeps `EXTENDED` and `MODIFIERS`; the HID side keeps `HID_CAPS_LOCK` and `HID_PREV`.
-/
import Mathlib.Data.List.Basic

namespace Amaterasu

structure Modifiers where
  shift : Bool
  capsLock : Bool
  ctrl : Bool
  deriving DecidableEq, Repr

/-- The statics of the two decoders. -/
structure Keyboard where
  extended : Bool
  modifiers : Modifiers
  hidCapsLock : Bool
  /-- `HID_PREV`, the six usages of the previous report. -/
  hidPrev : List UInt8
  deriving DecidableEq, Repr

/-- An 8-byte boot protocol report. -/
abbrev HidReport := Vector UInt8 8

namespace Keyboard

def boot : Keyboard :=
  { extended := false
    modifiers := { shift := false, capsLock := false, ctrl := false }
    hidCapsLock := false
    hidPrev := List.replicate 6 0 }

/-- `MAP`: scancode set 1, unshifted.  0 means no mapping. -/
def map : List UInt8 :=
  [0, 0, 49, 50, 51, 52, 53, 54, 55, 56, 57, 48, 45, 61, 0x08, 9,
   113, 119, 101, 114, 116, 121, 117, 105, 111, 112, 91, 93, 10, 0,
   97, 115, 100, 102, 103, 104, 106, 107, 108, 59, 39, 96, 0, 92,
   122, 120, 99, 118, 98, 110, 109, 44, 46, 47, 0, 42, 0, 32]

/-- `SHIFT_MAP`, parallel to `map`. -/
def shiftMap : List UInt8 :=
  [0, 0, 33, 64, 35, 36, 37, 94, 38, 42, 40, 41, 95, 43, 0x08, 9,
   81, 87, 69, 82, 84, 89, 85, 73, 79, 80, 123, 125, 10, 0,
   65, 83, 68, 70, 71, 72, 74, 75, 76, 58, 34, 126, 0, 124,
   90, 88, 67, 86, 66, 78, 77, 60, 62, 63, 0, 42, 0, 32]

/-- Letter scancodes: Q-P row, A-L row, Z-M row. -/
def isLetter (scancode : UInt8) : Bool :=
  (0x10 ≤ scancode && scancode ≤ 0x19) || (0x1E ≤ scancode && scancode ≤ 0x26) ||
    (0x2C ≤ scancode && scancode ≤ 0x32)

def scancodeToChar (scancode : UInt8) (shift capsLock : Bool) : Option UInt8 :=
  let useShift := if isLetter scancode then shift ^^ capsLock else shift
  match (if useShift then shiftMap else map)[scancode.toNat]? with
  | none => none
  | some b => if b = 0 then none else some b

/-- `is_ascii_alphabetic`. -/
def isAsciiAlphabetic (b : UInt8) : Bool :=
  (65 ≤ b && b ≤ 90) || (97 ≤ b && b ≤ 122)

/-- `to_ascii_lowercase`. -/
def toAsciiLowercase (b : UInt8) : UInt8 := if 65 ≤ b && b ≤ 90 then b + 32 else b

/-- The byte both decoders push for a character: Ctrl turns a letter into a control
byte. -/
def effective (ctrl : Bool) (ch : UInt8) : UInt8 :=
  if ctrl && isAsciiAlphabetic ch then toAsciiLowercase ch &&& 0x1F else ch

/-- The key an extended scancode stands for. -/
def extendedKey (scancode : UInt8) : List UInt8 :=
  if scancode = 0x48 then [0x10]
  else if scancode = 0x50 then [0x0E]
  else if scancode = 0x4B then [0x02]
  else if scancode = 0x4D then [0x06]
  else if scancode = 0x47 then [0x01]
  else if scancode = 0x4F then [0x05]
  else []

def processScancode (k : Keyboard) (scancode : UInt8) : Keyboard × List UInt8 :=
  if scancode = 0xE0 then ({ k with extended := true }, [])
  else if k.extended then ({ k with extended := false }, extendedKey scancode)
  else if scancode = 0x2A ∨ scancode = 0x36 then
    ({ k with modifiers := { k.modifiers with shift := true } }, [])
  else if scancode = 0xAA ∨ scancode = 0xB6 then
    ({ k with modifiers := { k.modifiers with shift := false } }, [])
  else if scancode = 0x1D then ({ k with modifiers := { k.modifiers with ctrl := true } }, [])
  else if scancode = 0x9D then ({ k with modifiers := { k.modifiers with ctrl := false } }, [])
  else if scancode = 0x3A then
    ({ k with modifiers := { k.modifiers with capsLock := k.modifiers.capsLock ^^ true } }, [])
  else if scancode &&& 0x80 ≠ 0 then (k, [])
  else
    match scancodeToChar scancode k.modifiers.shift k.modifiers.capsLock with
    | some ch => (k, [effective k.modifiers.ctrl ch])
    | none => (k, [])

/-- Scancodes processed one after the other, with all the bytes they push. -/
def processScancodes (k : Keyboard) (scancodes : List UInt8) : Keyboard × List UInt8 :=
  scancodes.foldl
    (fun acc sc => ((acc.1.processScancode sc).1, acc.2 ++ (acc.1.processScancode sc).2)) (k, [])

@[simp] theorem processScancodes_nil (k : Keyboard) : k.processScancodes [] = (k, []) := rfl

theorem processScancodes_concat (k : Keyboard) (l : List UInt8) (sc : UInt8) :
    k.processScancodes (l ++ [sc])
      = (((k.processScancodes l).1.processScancode sc).1,
          (k.processScancodes l).2 ++ ((k.processScancodes l).1.processScancode sc).2) :=
  List.foldl_concat _ _ _ _

/-! ### HID reports -/

def hidToAscii (usage : UInt8) (shift capsLock : Bool) : UInt8 :=
  if 0x04 ≤ usage ∧ usage ≤ 0x1D then
    let base := 97 + (usage - 0x04)
    if shift ^^ capsLock then base - 32 else base
  else if usage = 0x1E then if shift then 33 else 49
  else if usage = 0x1F then if shift then 64 else 50
  else if usage = 0x20 then if shift then 35 else 51
  else if usage = 0x21 then if shift then 36 else 52
  else if usage = 0x22 then if shift then 37 else 53
  else if usage = 0x23 then if shift then 94 else 54
  else if usage = 0x24 then if shift then 38 else 55
  else if usage = 0x25 then if shift then 42 else 56
  else if usage = 0x26 then if shift then 40 else 57
  else if usage = 0x27 then if shift then 41 else 48
  else if usage = 0x28 then 10
  else if usage = 0x2A then 0x08
  else if usage = 0x2B then 9
  else if usage = 0x2C then 32
  else if usage = 0x2D then if shift then 95 else 45
  else if usage = 0x2E then if shift then 43 else 61
  else if usage = 0x2F then if shift then 123 else 91
  else if usage = 0x30 then if shift then 125 else 93
  else if usage = 0x31 then if shift then 124 else 92
  else if usage = 0x33 then if shift then 58 else 59
  else if usage = 0x34 then if shift then 34 else 39
  else if usage = 0x35 then if shift then 126 else 96
  else if usage = 0x36 then if shift then 60 else 44
  else if usage = 0x37 then if shift then 62 else 46
  else if usage = 0x38 then if shift then 63 else 47
  else 0

/-- The key a navigation usage stands for. -/
def hidNavigation (usage : UInt8) : Option UInt8 :=
  if usage = 0x52 then some 0x10
  else if usage = 0x51 then some 0x0E
  else if usage = 0x50 then some 0x02
  else if usage = 0x4F then some 0x06
  else if usage = 0x4A then some 0x01
  else if usage = 0x4D then some 0x05
  else none

/-- One round of the loop over `report[2..8]`; `caps` was read before the loop. -/
def processHidUsage (prev : List UInt8) (shift ctrl caps : Bool) (usage : UInt8)
    (acc : Bool × List UInt8) : Bool × List UInt8 :=
  let (capsLock, pushed) := acc
  if usage = 0 ∨ usage = 0x01 then acc
  else if prev.contains usage then acc
  else if usage = 0x39 then (!caps, pushed)
  else
    match hidNavigation usage with
    | some b => (capsLock, pushed ++ [b])
    | none =>
        let b := hidToAscii usage shift caps
        if b = 0 then acc else (capsLock, pushed ++ [effective ctrl b])

def processHidReport (k : Keyboard) (report : HidReport) : Keyboard × List UInt8 :=
  let mods := report[0]
  let shift := mods &&& 0x22 != 0
  let ctrl := mods &&& 0x11 != 0
  let caps := k.hidCapsLock
  let usages := report.toList.drop 2
  let (capsLock, pushed) := usages.foldl
    (fun acc usage => processHidUsage k.hidPrev shift ctrl caps usage acc) (caps, [])
  ({ k with hidCapsLock := capsLock, hidPrev := usages }, pushed)

end Keyboard

end Amaterasu
