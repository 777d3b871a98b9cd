/-
Port I/O: `inb`, `outb`, `inl`, `outl` and `io_wait` in `hal/src/pic.rs`.

What a port answers is the device's.
-/
import Amaterasu.Lib.Device
import Mathlib.Data.UInt

namespace Amaterasu

/-- An access to a port. -/
inductive Pio where
  | inb (port : UInt16)
  | outb (port : UInt16) (v : UInt8)
  | inl (port : UInt16)
  | outl (port : UInt16) (v : UInt32)
  deriving DecidableEq, Repr

/-- A program of accesses; a byte that is read comes back in the low bits. -/
abbrev Ports := Dialogue Pio UInt32

namespace Ports

def inb (port : UInt16) : Ports UInt8 := do
  let r ← Dialogue.query (.inb port)
  return r.toUInt8

def outb (port : UInt16) (v : UInt8) : Ports Unit := do
  let _ ← Dialogue.query (.outb port v)

def inl (port : UInt16) : Ports UInt32 := Dialogue.query (.inl port)

def outl (port : UInt16) (v : UInt32) : Ports Unit := do
  let _ ← Dialogue.query (.outl port v)

/-- `io_wait`. -/
def ioWait : Ports Unit := outb 0x80 0x00

/-- A mask reads a bit that has been set, and one that was set before. -/
theorem mask_or (v a b : UInt8) : (v ||| a) &&& b = (v &&& b) ||| (a &&& b) := by
  rw [← UInt8.toBitVec_inj]
  ext i
  simp [Bool.and_or_distrib_right]

end Ports

end Amaterasu
