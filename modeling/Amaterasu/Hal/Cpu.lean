/-
The name of the processor: `vendor` and `brand` in `hal/src/cpu.rs`, and the `cpu` command.

The processor hands out its name by the word, in the registers that CPUID answers with.  Put
together again in their order the words are the name it was given, without the blanks and the
zeros that some are filled up with.
-/
import Amaterasu.Shell.Commands

namespace Amaterasu

namespace Cpu

/-! ### What is read -/

/-- What CPUID answers with. -/
structure Registers where
  eax : UInt32
  ebx : UInt32
  ecx : UInt32
  edx : UInt32
  deriving DecidableEq, Repr

/-- `to_le_bytes`. -/
def u32ToBytes (v : UInt32) : List UInt8 :=
  [v.toUInt8, (v >>> 8).toUInt8, (v >>> 16).toUInt8, (v >>> 24).toUInt8]

/-- `b as char`. -/
def asChar (b : UInt8) : Char := Char.ofNat b.toNat

def vendor (cpuid : UInt32 → Registers) : Text :=
  let r := cpuid 0x0
  (u32ToBytes r.ebx ++ u32ToBytes r.edx ++ u32ToBytes r.ecx).map asChar

/-- The 16 bytes of a leaf. -/
def leafBytes (r : Registers) : List UInt8 :=
  u32ToBytes r.eax ++ u32ToBytes r.ebx ++ u32ToBytes r.ecx ++ u32ToBytes r.edx

def brand (cpuid : UInt32 → Registers) : Option Text :=
  if (cpuid 0x80000000).eax < 0x80000004 then none
  else
    let bytes := leafBytes (cpuid 0x80000002) ++ leafBytes (cpuid 0x80000003) ++
      leafBytes (cpuid 0x80000004)
    let trimmed := Text.trim ((Text.fromUtf8 (bytes.takeWhile (· != 0))).getD [])
    if trimmed = [] then none else some trimmed

def cmdCpu (cpuid : UInt32 → Registers) : List Writer.Op :=
  [println ("vendor:  ".toList ++ vendor cpuid),
    match brand cpuid with
    | some b => println ("brand:   ".toList ++ b)
    | none => println "brand:   (not available)".toList]

/-! ### The processor -/

/-- Four bytes in a register, the first one lowest. -/
def ofBytes (bytes : List UInt8) : UInt32 :=
  UInt32.ofNat (bytes.foldr (fun b n => b.toNat + 256 * n) 0)

/-- A leaf with 16 bytes of a text. -/
def leaf (bytes : List UInt8) : Registers where
  eax := ofBytes (bytes.take 4)
  ebx := ofBytes ((bytes.drop 4).take 4)
  ecx := ofBytes ((bytes.drop 8).take 4)
  edx := ofBytes ((bytes.drop 12).take 4)

/-- A processor with a vendor, of 12 characters, and a brand, of up to 48 bytes.  `rest` is what
else its registers hold. -/
structure Processor where
  vendor : Text
  brand : Text
  rest : UInt32 → Registers
  vendor_length : vendor.length = 12
  vendor_latin : ∀ c ∈ vendor, c.toNat < 256
  brand_length : (Text.encode brand).length ≤ 48
  brand_ne_zero : '\x00' ∉ brand

namespace Processor

def vendorBytes (p : Processor) : List UInt8 := p.vendor.map fun c => UInt8.ofNat c.toNat

def brandBytes (p : Processor) : List UInt8 :=
  Text.encode p.brand ++ List.replicate (48 - (Text.encode p.brand).length) 0

def cpuid (p : Processor) (n : UInt32) : Registers :=
  if n = 0x0 then
    { p.rest n with
      ebx := ofBytes (p.vendorBytes.take 4)
      edx := ofBytes ((p.vendorBytes.drop 4).take 4)
      ecx := ofBytes ((p.vendorBytes.drop 8).take 4) }
  else if n = 0x80000002 then leaf (p.brandBytes.take 16)
  else if n = 0x80000003 then leaf ((p.brandBytes.drop 16).take 16)
  else if n = 0x80000004 then leaf ((p.brandBytes.drop 32).take 16)
  else p.rest n

/-- The highest leaf it has. -/
def maxExt (p : Processor) : UInt32 := (p.rest 0x80000000).eax

end Processor

/-! ### Bytes and words -/

theorem u32ToBytes_ofBytes {bytes : List UInt8} (h : bytes.length = 4) :
    u32ToBytes (ofBytes bytes) = bytes := by
  obtain ⟨a, b, c, d, rfl⟩ : ∃ a b c d, bytes = [a, b, c, d] := by
    rcases bytes with - | ⟨a, - | ⟨b, - | ⟨c, - | ⟨d, - | ⟨e, rest⟩⟩⟩⟩⟩
    case cons.cons.cons.cons.nil => exact ⟨a, b, c, d, rfl⟩
    all_goals exact absurd h (by simp)
  have ha := a.toNat_lt
  have hb := b.toNat_lt
  have hc := c.toNat_lt
  have hd := d.toNat_lt
  have hword : (ofBytes [a, b, c, d]).toNat
      = a.toNat + 256 * (b.toNat + 256 * (c.toNat + 256 * (d.toNat + 256 * 0))) :=
    UInt32.toNat_ofNat_of_lt' (by
      show a.toNat + 256 * (b.toNat + 256 * (c.toNat + 256 * (d.toNat + 256 * 0))) < 2 ^ 32
      omega)
  have hbyte : ∀ k : UInt32, k.toNat < 32 → ((ofBytes [a, b, c, d]) >>> k).toUInt8.toNat
      = (ofBytes [a, b, c, d]).toNat / 2 ^ k.toNat % 2 ^ 8 := by
    intro k hk
    rw [UInt32.toNat_toUInt8, UInt32.toNat_shiftRight, Nat.mod_eq_of_lt hk,
      Nat.shiftRight_eq_div_pow]
  have h0 : (ofBytes [a, b, c, d]).toUInt8 = a := by
    apply UInt8.toNat_inj.mp
    rw [UInt32.toNat_toUInt8, hword]
    omega
  have h1 : (ofBytes [a, b, c, d] >>> 8).toUInt8 = b := by
    apply UInt8.toNat_inj.mp
    rw [hbyte 8 (by decide), hword]
    show _ / 2 ^ 8 % 2 ^ 8 = _
    omega
  have h2 : (ofBytes [a, b, c, d] >>> 16).toUInt8 = c := by
    apply UInt8.toNat_inj.mp
    rw [hbyte 16 (by decide), hword]
    show _ / 2 ^ 16 % 2 ^ 8 = _
    omega
  have h3 : (ofBytes [a, b, c, d] >>> 24).toUInt8 = d := by
    apply UInt8.toNat_inj.mp
    rw [hbyte 24 (by decide), hword]
    show _ / 2 ^ 24 % 2 ^ 8 = _
    omega
  rw [u32ToBytes, h0, h1, h2, h3]

/-- A piece of a text, cut in two. -/
theorem take_append_take (bytes : List UInt8) (n k m : Nat) (h : n + k = m) :
    bytes.take n ++ (bytes.drop n).take k = bytes.take m := by
  rw [← h, List.take_add]

theorem leafBytes_leaf {bytes : List UInt8} (h : bytes.length = 16) :
    leafBytes (leaf bytes) = bytes := by
  have hfirst : (bytes.take 4).length = 4 := by
    rw [List.length_take, h]
    rfl
  have hpiece : ∀ n, n + 4 ≤ 16 → ((bytes.drop n).take 4).length = 4 := by
    intro n hn
    rw [List.length_take, List.length_drop, h]
    omega
  show u32ToBytes (ofBytes (bytes.take 4)) ++ u32ToBytes (ofBytes ((bytes.drop 4).take 4)) ++
    u32ToBytes (ofBytes ((bytes.drop 8).take 4)) ++
      u32ToBytes (ofBytes ((bytes.drop 12).take 4)) = bytes
  rw [u32ToBytes_ofBytes hfirst, u32ToBytes_ofBytes (hpiece 4 (by omega)),
    u32ToBytes_ofBytes (hpiece 8 (by omega)), u32ToBytes_ofBytes (hpiece 12 (by omega)),
    take_append_take bytes 4 4 8 rfl, take_append_take bytes 8 4 12 rfl,
    take_append_take bytes 12 4 16 rfl]
  exact List.take_of_length_le (by omega)

theorem asChar_ofNat {c : Char} (h : c.toNat < 256) : asChar (UInt8.ofNat c.toNat) = c := by
  rw [asChar, UInt8.toNat_ofNat_of_lt' h]
  exact Char.ofNat_toNat c

/-! ### What is printed -/

namespace Processor

variable (p : Processor)

theorem vendor_cpuid : Cpu.vendor p.cpuid = p.vendor := by
  have hlength : p.vendorBytes.length = 12 := by rw [vendorBytes, List.length_map, p.vendor_length]
  have hfirst : (p.vendorBytes.take 4).length = 4 := by
    rw [List.length_take, hlength]
    rfl
  have hpiece : ∀ n, n + 4 ≤ 12 → ((p.vendorBytes.drop n).take 4).length = 4 := by
    intro n hn
    rw [List.length_take, List.length_drop, hlength]
    omega
  show (u32ToBytes (ofBytes (p.vendorBytes.take 4)) ++
    u32ToBytes (ofBytes ((p.vendorBytes.drop 4).take 4)) ++
      u32ToBytes (ofBytes ((p.vendorBytes.drop 8).take 4))).map asChar = _
  rw [u32ToBytes_ofBytes hfirst, u32ToBytes_ofBytes (hpiece 4 (by omega)),
    u32ToBytes_ofBytes (hpiece 8 (by omega)), take_append_take _ 4 4 8 rfl,
    take_append_take _ 8 4 12 rfl, List.take_of_length_le (by omega), vendorBytes, List.map_map]
  calc p.vendor.map (asChar ∘ fun c => UInt8.ofNat c.toNat)
      = p.vendor.map id := List.map_congr_left fun c hc => asChar_ofNat (p.vendor_latin c hc)
    _ = p.vendor := List.map_id _

theorem brandBytes_length : p.brandBytes.length = 48 := by
  have h := p.brand_length
  rw [brandBytes, List.length_append, List.length_replicate]
  omega

/-- The zeros at the end, and nothing else, are cut off. -/
theorem takeWhile_brandBytes : p.brandBytes.takeWhile (· != 0) = Text.encode p.brand := by
  have hne : ∀ b ∈ Text.encode p.brand, (b != 0) = true := by
    intro b hb
    rw [bne_iff_ne]
    rintro rfl
    exact Text.zero_notMem_encode p.brand_ne_zero hb
  rw [brandBytes, List.takeWhile_append_of_pos hne]
  rcases 48 - (Text.encode p.brand).length with - | n
  · simp
  · rw [List.replicate_succ, List.takeWhile_cons_of_neg (by simp), List.append_nil]

theorem brand_cpuid : Cpu.brand p.cpuid =
    if p.maxExt < 0x80000004 ∨ Text.trim p.brand = [] then none else some (Text.trim p.brand) := by
  have hfirst : (p.brandBytes.take 16).length = 16 := by
    rw [List.length_take, p.brandBytes_length]
    rfl
  have hpiece : ∀ n, n + 16 ≤ 48 → ((p.brandBytes.drop n).take 16).length = 16 := by
    intro n hn
    rw [List.length_take, List.length_drop, p.brandBytes_length]
    omega
  have hbytes : leafBytes (p.cpuid 0x80000002) ++ leafBytes (p.cpuid 0x80000003) ++
      leafBytes (p.cpuid 0x80000004) = p.brandBytes := by
    show leafBytes (leaf (p.brandBytes.take 16)) ++
      leafBytes (leaf ((p.brandBytes.drop 16).take 16)) ++
        leafBytes (leaf ((p.brandBytes.drop 32).take 16)) = _
    rw [leafBytes_leaf hfirst, leafBytes_leaf (hpiece 16 (by omega)),
      leafBytes_leaf (hpiece 32 (by omega)), take_append_take _ 16 16 32 rfl,
      take_append_take _ 32 16 48 rfl]
    exact List.take_of_length_le (by rw [p.brandBytes_length])
  unfold Cpu.brand
  dsimp only
  rw [hbytes, p.takeWhile_brandBytes, Text.fromUtf8_encode, Option.getD_some]
  show (if p.maxExt < 0x80000004 then none else _) = _
  by_cases hmax : p.maxExt < 0x80000004
  · rw [if_pos hmax, if_pos (Or.inl hmax)]
  · rw [if_neg hmax]
    by_cases hblank : Text.trim p.brand = []
    · rw [if_pos (Or.inr hblank)]
      exact if_pos hblank
    · rw [if_neg (not_or.mpr ⟨hmax, hblank⟩)]
      exact if_neg hblank

/-- `cpu` prints the vendor, and the brand without its blanks if there is one. -/
theorem cpu_prints : cmdCpu p.cpuid =
    [println ("vendor:  ".toList ++ p.vendor),
      println ("brand:   ".toList ++
        if p.maxExt < 0x80000004 ∨ Text.trim p.brand = [] then "(not available)".toList
        else Text.trim p.brand)] := by
  unfold cmdCpu
  rw [p.vendor_cpuid, p.brand_cpuid]
  by_cases hnone : p.maxExt < 0x80000004 ∨ Text.trim p.brand = []
  · rw [if_pos hnone, if_pos hnone]
    rfl
  · rw [if_neg hnone, if_neg hnone]

/-- The processor of an emulator, which fills its brand up with blanks in front. -/
def emulated : Processor where
  vendor := "TCGTCGTCGTCG".toList
  brand := "    QEMU Virtual CPU version 2.5+".toList
  rest n := ⟨if n = 0x80000000 then 0x8000000A else 0, 0, 0, 0⟩
  vendor_length := by decide
  vendor_latin := by simp
  brand_length := by decide +kernel
  brand_ne_zero := by decide +kernel

theorem cpu_prints_emulated : cmdCpu emulated.cpuid =
    [println "vendor:  TCGTCGTCGTCG".toList,
      println "brand:   QEMU Virtual CPU version 2.5+".toList] := by
  have hblank : ¬ (emulated.maxExt < 0x80000004 ∨ Text.trim emulated.brand = []) := by
    decide +kernel
  have htrim : Text.trim emulated.brand = "QEMU Virtual CPU version 2.5+".toList := by
    decide +kernel
  rw [cpu_prints, if_neg hblank, htrim]
  rfl

end Processor

end Cpu

end Amaterasu
