/-
Pixels, and the bytes they are made of.

The buffer has `stride` pixels to a row of the screen, three or four bytes to a pixel; a pixel
is numbered by its place in the buffer, so its column and its row are a remainder and a
quotient by the stride.  Everything the writer does to the buffer is to store a pixel, over
and over, or to move all of them by whole rows.  `Painted` says what a loop of stores has
done: the pixels of a set have their colours, and no other byte has changed.
-/
import Amaterasu.Framebuffer.Font
import Amaterasu.Fs.Checked
import Amaterasu.Lib.Memory
import Amaterasu.Shell.Writer

namespace Amaterasu

open Ramfs.Checked (usizeAdd usizeMul usizeAdd_eq usizeMul_eq)

/-- What the boot loader says of the screen, and of the slice it gives the pixels in. -/
structure FrameBufferInfo where
  width : ℕ
  height : ℕ
  stride : ℕ
  bytesPerPixel : ℕ
  width_ge : 8 ≤ width
  width_le : width ≤ stride
  height_ge : 8 ≤ height
  bytes : bytesPerPixel = 3 ∨ bytesPerPixel = 4
  /-- No slice is longer. -/
  fits : stride * height * bytesPerPixel < 2 ^ 63

namespace FrameBufferInfo

variable (info : FrameBufferInfo)

/-- The number of pixels in the buffer. -/
def total : ℕ := info.stride * info.height

/-- `buffer.len()`. -/
def len : ℕ := info.total * info.bytesPerPixel

def cols : ℕ := info.width / GLYPH_W

def rows : ℕ := info.height / GLYPH_H

/-! ### Stores -/

/-- `buffer[i] = v`. -/
def setByte (bytes : Mem) (i : ℕ) (v : UInt8) : Option Mem :=
  if i < info.len then some (bytes.writeByte i v) else none

/-- The bytes of one pixel, from `offset` on. -/
def storePixel (bytes : Mem) (offset : ℕ) (color : Color) : Option Mem := do
  let bytes ← info.setByte bytes offset color.2.2
  let bytes ← info.setByte bytes (offset + 1) color.2.1
  let bytes ← info.setByte bytes (offset + 2) color.1
  if info.bytesPerPixel = 4 then info.setByte bytes (offset + 3) 0xFF else some bytes

/-- The inner loop of `write_glyph`: a pixel that is not in the buffer is skipped. -/
def putPixel (bytes : Mem) (x y : ℕ) (color : Color) : Option Mem := do
  let above ← usizeMul y info.stride
  let pixel ← usizeAdd above x
  let offset ← usizeMul pixel info.bytesPerPixel
  let stop ← usizeAdd offset info.bytesPerPixel
  if stop ≤ info.len then info.storePixel bytes offset color else some bytes

def writeGlyph (bytes : Mem) (ch : Char) (px py : ℕ) (fg bg : Color) : Option Mem :=
  (List.range GLYPH_H).foldlM (fun bytes row =>
    (List.range GLYPH_W).foldlM (fun bytes col => do
      let y ← usizeAdd py row
      let x ← usizeAdd px col
      info.putPixel bytes x y (if glyphBit ch row col then fg else bg)) bytes) bytes

/-- `for chunk in buffer[start..].chunks_mut(bpp)`. -/
def fill (bytes : Mem) (start : ℕ) (color : Color) : Option Mem :=
  (List.range ((info.len - start + (info.bytesPerPixel - 1)) / info.bytesPerPixel)).foldlM
    (fun bytes k => info.storePixel bytes (start + k * info.bytesPerPixel) color) bytes

/-- `buffer.copy_within(from.., 0)`. -/
def copyWithin (bytes : Mem) (source : ℕ) : Option Mem :=
  if source ≤ info.len then
    some fun i => if i < info.len - source then bytes (i + source) else bytes i
  else none

/-! ### Pixels -/

/-- The colour of pixel `n`. -/
def pixel (bytes : Mem) (n : ℕ) : Color :=
  (bytes (n * info.bytesPerPixel + 2), bytes (n * info.bytesPerPixel + 1),
    bytes (n * info.bytesPerPixel))

/-- The colour at a column and a row of the screen. -/
def rgb (bytes : Mem) (x y : ℕ) : Color := info.pixel bytes (y * info.stride + x)

/-- Byte `i` is none of pixel `n`'s. -/
def Outside (n i : ℕ) : Prop :=
  i < n * info.bytesPerPixel ∨ n * info.bytesPerPixel + info.bytesPerPixel ≤ i

/-- From `bytes` to `bytes'` the pixels in `S` have been given colours, and that is all. -/
structure Painted (bytes bytes' : Mem) (S : ℕ → Prop) (color : ℕ → Color) : Prop where
  inside : ∀ n < info.total, S n → info.pixel bytes' n = color n
  outside : ∀ i, (∀ n < info.total, S n → info.Outside n i) → bytes' i = bytes i

variable {info}

theorem stride_pos : 0 < info.stride := by
  have := info.width_ge
  have := info.width_le
  omega

theorem bytesPerPixel_ge : 3 ≤ info.bytesPerPixel := by
  rcases info.bytes with h | h
  · omega
  · omega

theorem len_lt : info.len < 2 ^ 63 := info.fits

theorem pixel_le {n : ℕ} (h : n < info.total) :
    n * info.bytesPerPixel + info.bytesPerPixel ≤ info.len := by
  have hle : (n + 1) * info.bytesPerPixel ≤ info.len := Nat.mul_le_mul_right _ h
  rwa [Nat.succ_mul] at hle

/-- Pixels have no byte in common. -/
theorem outside_of_ne {n m i : ℕ} (h : n ≠ m)
    (hi : n * info.bytesPerPixel ≤ i ∧ i < n * info.bytesPerPixel + info.bytesPerPixel) :
    info.Outside m i := by
  unfold Outside
  rcases Nat.lt_or_gt_of_ne h with hlt | hgt
  · have := Nat.mul_le_mul_right info.bytesPerPixel (Nat.succ_le_of_lt hlt)
    rw [Nat.succ_mul] at this
    omega
  · have := Nat.mul_le_mul_right info.bytesPerPixel (Nat.succ_le_of_lt hgt)
    rw [Nat.succ_mul] at this
    omega

theorem pixel_congr {bytes bytes' : Mem} {n : ℕ}
    (h : ∀ i, n * info.bytesPerPixel ≤ i → i < n * info.bytesPerPixel + info.bytesPerPixel →
      bytes' i = bytes i) : info.pixel bytes' n = info.pixel bytes n := by
  have hge : 3 ≤ info.bytesPerPixel := bytesPerPixel_ge
  unfold pixel
  rw [h _ (by omega) (by omega), h _ (by omega) (by omega), h _ (by omega) (by omega)]

/-- The number of a pixel is its row and its column. -/
theorem eq_index_iff {x y n : ℕ} (hx : x < info.stride) :
    n = y * info.stride + x ↔ n / info.stride = y ∧ n % info.stride = x := by
  constructor
  · rintro rfl
    rw [Nat.add_comm, Nat.add_mul_div_right _ _ stride_pos, Nat.add_mul_mod_self_right,
      Nat.div_eq_of_lt hx, Nat.mod_eq_of_lt hx]
    exact ⟨Nat.zero_add y, rfl⟩
  · rintro ⟨rfl, rfl⟩
    exact (Nat.div_add_mod' n info.stride).symm

theorem index_lt {x y : ℕ} (hx : x < info.stride) (hy : y < info.height) :
    y * info.stride + x < info.total := by
  have hle : (y + 1) * info.stride ≤ info.height * info.stride := Nat.mul_le_mul_right _ hy
  rw [Nat.succ_mul, Nat.mul_comm info.height] at hle
  unfold total
  omega

/-! ### One store -/

theorem storePixel_spec (bytes : Mem) {n : ℕ} (hn : n < info.total) (color : Color) :
    ∃ bytes', info.storePixel bytes (n * info.bytesPerPixel) color = some bytes' ∧
      info.pixel bytes' n = color ∧ ∀ i, info.Outside n i → bytes' i = bytes i := by
  have hlen := pixel_le hn
  rcases info.bytes with hbpp | hbpp
  · rw [hbpp] at hlen
    refine ⟨((bytes.writeByte (n * 3) color.2.2).writeByte (n * 3 + 1) color.2.1).writeByte
      (n * 3 + 2) color.1, ?_, ?_, ?_⟩
    · rw [hbpp]
      simp only [storePixel, setByte, hbpp, if_pos (show n * 3 < info.len by omega),
        if_pos (show n * 3 + 1 < info.len by omega), if_pos (show n * 3 + 2 < info.len by omega),
        Option.bind_eq_bind, Option.bind_some]
      rfl
    · simp [pixel, hbpp, Mem.writeByte]
    · intro i hi
      unfold Outside at hi
      rw [hbpp] at hi
      unfold Mem.writeByte
      rw [if_neg (by omega), if_neg (by omega), if_neg (by omega)]
  · rw [hbpp] at hlen
    refine ⟨(((bytes.writeByte (n * 4) color.2.2).writeByte (n * 4 + 1) color.2.1).writeByte
      (n * 4 + 2) color.1).writeByte (n * 4 + 3) 0xFF, ?_, ?_, ?_⟩
    · rw [hbpp]
      simp only [storePixel, setByte, hbpp, if_pos (show n * 4 < info.len by omega),
        if_pos (show n * 4 + 1 < info.len by omega), if_pos (show n * 4 + 2 < info.len by omega),
        if_pos (show n * 4 + 3 < info.len by omega), Option.bind_eq_bind, Option.bind_some,
        if_true]
    · simp [pixel, hbpp, Mem.writeByte]
    · intro i hi
      unfold Outside at hi
      rw [hbpp] at hi
      unfold Mem.writeByte
      rw [if_neg (by omega), if_neg (by omega), if_neg (by omega), if_neg (by omega)]

/-- The pixel's offset is one the source can compute, and the pixel is not skipped. -/
theorem putPixel_eq (bytes : Mem) {x y : ℕ} (hx : x < info.stride) (hy : y < info.height)
    (color : Color) : info.putPixel bytes x y color
      = info.storePixel bytes ((y * info.stride + x) * info.bytesPerPixel) color := by
  have hlen := pixel_le (index_lt hx hy)
  have hmax : info.len < 2 ^ 63 := len_lt
  have hge : 3 ≤ info.bytesPerPixel := bytesPerPixel_ge
  have hsum : y * info.stride + x ≤ (y * info.stride + x) * info.bytesPerPixel :=
    Nat.le_mul_of_pos_right _ (by omega)
  unfold putPixel
  rw [usizeMul_eq (by omega), Option.bind_eq_bind, Option.bind_some, usizeAdd_eq (by omega),
    Option.bind_some, usizeMul_eq (by omega), Option.bind_some, usizeAdd_eq (by omega),
    Option.bind_some, if_pos hlen]

namespace Painted

variable {bytes bytes' : Mem} {S S' : ℕ → Prop} {color : ℕ → Color}

theorem nil (bytes : Mem) (color : ℕ → Color) : info.Painted bytes bytes (fun _ => False) color :=
  ⟨fun _ _ h => absurd h id, fun _ _ => rfl⟩

theorem congr (h : info.Painted bytes bytes' S color) (hS : ∀ n < info.total, S n ↔ S' n) :
    info.Painted bytes bytes' S' color := by
  constructor
  · exact fun n hn hn' => h.inside n hn ((hS n hn).mpr hn')
  · exact fun i hi => h.outside i fun n hn hn' => hi n hn ((hS n hn).mp hn')

/-- Pixels that were not painted. -/
theorem other (h : info.Painted bytes bytes' S color) {n : ℕ} (hn : ¬ S n) :
    info.pixel bytes' n = info.pixel bytes n := by
  refine pixel_congr fun i hlo hhi => h.outside i fun m _ hm => outside_of_ne ?_ ⟨hlo, hhi⟩
  rintro rfl
  exact hn hm

/-- One more pixel. -/
theorem store (h : info.Painted bytes bytes' S color) {n : ℕ} (hn : n < info.total) :
    ∃ bytes'', info.storePixel bytes' (n * info.bytesPerPixel) (color n) = some bytes'' ∧
      info.Painted bytes bytes'' (fun m => S m ∨ m = n) color := by
  obtain ⟨bytes'', heq, hpixel, houtside⟩ := storePixel_spec bytes' hn (color n)
  refine ⟨bytes'', heq, ?_, ?_⟩
  · intro m hm hor
    by_cases hne : m = n
    · rw [hne]
      exact hpixel
    · rw [pixel_congr fun i hlo hhi => houtside i (outside_of_ne hne ⟨hlo, hhi⟩)]
      exact h.inside m hm (hor.resolve_right hne)
  · intro i hi
    rw [houtside i (hi n hn (Or.inr rfl))]
    exact h.outside i fun m hm hS => hi m hm (Or.inl hS)

end Painted

/-! ### The loops -/

/-- Pixel `n` belongs to a cell of the text grid. -/
def InCell (info : FrameBufferInfo) (r c n : ℕ) : Prop :=
  (8 * r ≤ n / info.stride ∧ n / info.stride < 8 * r + 8) ∧
    8 * c ≤ n % info.stride ∧ n % info.stride < 8 * c + 8

/-- What a glyph at a cell gives its pixels. -/
def cellColor (info : FrameBufferInfo) (ch : Char) (fg bg : Color) (r c n : ℕ) : Color :=
  if glyphBit ch (n / info.stride - 8 * r) (n % info.stride - 8 * c) then fg else bg

variable {r c : ℕ}

/-- The columns and rows of a cell are on the screen. -/
theorem cell_le (hr : r < info.rows) (hc : c < info.cols) :
    8 * r + 8 ≤ info.height ∧ 8 * c + 8 ≤ info.width := by
  have hrows : info.rows = info.height / 8 := rfl
  have hcols : info.cols = info.width / 8 := rfl
  omega

theorem height_lt : info.height < 2 ^ 63 := by
  have hge : 3 ≤ info.bytesPerPixel := bytesPerPixel_ge
  have hmax : info.len < 2 ^ 63 := len_lt
  have htotal : info.height ≤ info.total := Nat.le_mul_of_pos_left _ stride_pos
  have hlen : info.total ≤ info.len := Nat.le_mul_of_pos_right _ (by omega)
  omega

theorem stride_lt : info.stride < 2 ^ 63 := by
  have hge : 3 ≤ info.bytesPerPixel := bytesPerPixel_ge
  have hmax : info.len < 2 ^ 63 := len_lt
  have hheight := info.height_ge
  have htotal : info.stride ≤ info.total := Nat.le_mul_of_pos_right _ (by omega)
  have hlen : info.total ≤ info.len := Nat.le_mul_of_pos_right _ (by omega)
  omega

/-- One row of a glyph. -/
theorem writeRow_spec {bytes₀ bytes : Mem} {S : ℕ → Prop} {ch : Char} {fg bg : Color} {i : ℕ}
    (hr : r < info.rows) (hc : c < info.cols) (hi : i < 8)
    (h : info.Painted bytes₀ bytes S (info.cellColor ch fg bg r c)) :
    ∃ bytes', (List.range GLYPH_W).foldlM (fun bytes col => do
        let y ← usizeAdd (r * GLYPH_H) i
        let x ← usizeAdd (c * GLYPH_W) col
        info.putPixel bytes x y (if glyphBit ch i col then fg else bg)) bytes = some bytes' ∧
      info.Painted bytes₀ bytes' (fun n => S n ∨ (n / info.stride = 8 * r + i ∧
        8 * c ≤ n % info.stride ∧ n % info.stride < 8 * c + 8)) (info.cellColor ch fg bg r c) := by
  obtain ⟨hheight, hwidth⟩ := cell_le hr hc
  have hstride := info.width_le
  have hheight' : info.height < 2 ^ 63 := height_lt
  have hstride' : info.stride < 2 ^ 63 := stride_lt
  have hpx : c * GLYPH_W = 8 * c := Nat.mul_comm c 8
  have hpy : r * GLYPH_H = 8 * r := Nat.mul_comm r 8
  refine counted_ends (n := GLYPH_W) (I := fun j b => info.Painted bytes₀ b
    (fun n => S n ∨ (n / info.stride = 8 * r + i ∧ 8 * c ≤ n % info.stride ∧
      n % info.stride < 8 * c + j)) (info.cellColor ch fg bg r c)) ?_
    (h.congr fun n _ => (or_iff_left (by omega)).symm)
  intro j b hj hb
  have hj8 : j < 8 := hj
  have hx : 8 * c + j < info.stride := by omega
  have hy : 8 * r + i < info.height := by omega
  obtain ⟨hdiv, hmod⟩ := (eq_index_iff (y := 8 * r + i) hx).mp rfl
  obtain ⟨b', heq, hb'⟩ := hb.store (index_lt hx hy)
  have hcolor : info.cellColor ch fg bg r c ((8 * r + i) * info.stride + (8 * c + j))
      = if glyphBit ch i j then fg else bg := by
    unfold cellColor
    rw [hdiv, hmod, Nat.add_sub_cancel_left, Nat.add_sub_cancel_left]
  rw [hcolor] at heq
  refine ⟨b', ?_, hb'.congr fun n _ => ?_⟩
  · rw [hpx, hpy, usizeAdd_eq (by omega), Option.bind_eq_bind, Option.bind_some,
      usizeAdd_eq (by omega), Option.bind_some, putPixel_eq b hx hy, heq]
  · rw [eq_index_iff hx, or_assoc]
    exact or_congr Iff.rfl (by omega)

/-- A glyph paints its cell. -/
theorem writeGlyph_spec (bytes : Mem) (ch : Char) (hr : r < info.rows) (hc : c < info.cols)
    (fg bg : Color) :
    ∃ bytes', info.writeGlyph bytes ch (c * GLYPH_W) (r * GLYPH_H) fg bg = some bytes' ∧
      info.Painted bytes bytes' (info.InCell r c) (info.cellColor ch fg bg r c) := by
  refine counted_ends (n := GLYPH_H) (I := fun i b => info.Painted bytes b
    (fun n => (8 * r ≤ n / info.stride ∧ n / info.stride < 8 * r + i) ∧
      8 * c ≤ n % info.stride ∧ n % info.stride < 8 * c + 8) (info.cellColor ch fg bg r c)) ?_
    ((Painted.nil bytes _).congr fun n _ => iff_of_false id (by omega))
  intro i b hi hb
  obtain ⟨b', heq, hb'⟩ := writeRow_spec hr hc hi hb
  exact ⟨b', heq, hb'.congr fun n _ => by omega⟩

/-- A fill paints every pixel from one on. -/
theorem fill_spec (bytes : Mem) {n : ℕ} (hn : n ≤ info.total) (color : Color) :
    ∃ bytes', info.fill bytes (n * info.bytesPerPixel) color = some bytes' ∧
      info.Painted bytes bytes' (fun m => n ≤ m) fun _ => color := by
  have hge : 3 ≤ info.bytesPerPixel := bytesPerPixel_ge
  have hcount : (info.len - n * info.bytesPerPixel + (info.bytesPerPixel - 1))
      / info.bytesPerPixel = info.total - n := by
    rw [len, ← Nat.sub_mul, Nat.add_comm, Nat.add_mul_div_right _ _ (by omega),
      Nat.div_eq_of_lt (by omega), Nat.zero_add]
  unfold fill
  rw [hcount]
  have hloop : ∃ bytes', (List.range (info.total - n)).foldlM (fun bytes k => info.storePixel bytes
      (n * info.bytesPerPixel + k * info.bytesPerPixel) color) bytes = some bytes' ∧
      info.Painted bytes bytes' (fun m => n ≤ m ∧ m < n + (info.total - n)) fun _ => color := by
    refine counted_ends (I := fun k b => info.Painted bytes b (fun m => n ≤ m ∧ m < n + k)
      fun _ => color) ?_ ((Painted.nil bytes _).congr fun m _ => iff_of_false id (by omega))
    intro k b hk hb
    obtain ⟨b', heq, hb'⟩ := hb.store (show n + k < info.total by omega)
    rw [Nat.add_mul] at heq
    exact ⟨b', heq, hb'.congr fun m _ => by omega⟩
  obtain ⟨bytes', heq, hbytes'⟩ := hloop
  exact ⟨bytes', heq, hbytes'.congr fun m hm => by omega⟩

/-- Pixels move down the buffer by whole pixels. -/
theorem copyWithin_spec (bytes : Mem) {n : ℕ} (hn : n ≤ info.total) :
    ∃ bytes', info.copyWithin bytes (n * info.bytesPerPixel) = some bytes' ∧
      ∀ m, m + n < info.total → info.pixel bytes' m = info.pixel bytes (m + n) := by
  have hle : n * info.bytesPerPixel ≤ info.len := Nat.mul_le_mul_right _ hn
  refine ⟨_, if_pos hle, ?_⟩
  intro m hm
  have hge : 3 ≤ info.bytesPerPixel := bytesPerPixel_ge
  have hlast := pixel_le hm
  have hsum : (m + n) * info.bytesPerPixel
      = m * info.bytesPerPixel + n * info.bytesPerPixel := Nat.add_mul m n _
  have hbyte : ∀ k < 3, (if m * info.bytesPerPixel + k < info.len - n * info.bytesPerPixel
      then bytes (m * info.bytesPerPixel + k + n * info.bytesPerPixel)
      else bytes (m * info.bytesPerPixel + k)) = bytes ((m + n) * info.bytesPerPixel + k) := by
    intro k hk
    rw [if_pos (by omega), hsum]
    congr 1
    omega
  unfold pixel
  rw [← hbyte 1 (by omega), ← hbyte 2 (by omega)]
  exact congrArg (fun b => (_, _, b)) (hbyte 0 (by omega))

end FrameBufferInfo

end Amaterasu
