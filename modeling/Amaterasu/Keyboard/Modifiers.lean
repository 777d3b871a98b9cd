/-
The modifiers of the PS/2 decoder against the keys that are held.

A keyboard sends whole codes of scancode set 1, so between two codes the decoder keeps no
prefix, and its modifiers are one flag for both Shift keys and one for Ctrl.  The flag for
Shift goes down with either key, and right Ctrl sends a prefixed code that no branch
reads.  So the flags are those of the held keys exactly while no Shift is released next
to the other, and right Ctrl is held next to left Ctrl only.
-/
import Amaterasu.Lib.Run
import Amaterasu.Keyboard.Decode

namespace Amaterasu

/-! ### Keys -/

/-- A make code of scancode set 1, prefixed or not: the top bit is clear, and with the top
bit set it is not the prefix. -/
structure KeyCode where
  code : UInt8
  lt : code < 0x80
  ne : code ≠ 0x60
  deriving DecidableEq

/-- A key, by its make code and whether that has the prefix `E0`. -/
inductive SetOneKey
  | plain (code : KeyCode)
  | extended (code : KeyCode)
  deriving DecidableEq

namespace SetOneKey

def leftShift : SetOneKey := plain ⟨0x2A, by decide, by decide⟩
def rightShift : SetOneKey := plain ⟨0x36, by decide, by decide⟩
def leftCtrl : SetOneKey := plain ⟨0x1D, by decide, by decide⟩
def rightCtrl : SetOneKey := extended ⟨0x1D, by decide, by decide⟩
def capsLock : SetOneKey := plain ⟨0x3A, by decide, by decide⟩

def isShift (key : SetOneKey) : Bool := key = leftShift || key = rightShift

theorem plain_eq {c c' : KeyCode} : plain c = plain c' ↔ c.code = c'.code := by
  obtain ⟨code, -, -⟩ := c
  obtain ⟨code', -, -⟩ := c'
  rw [plain.injEq, KeyCode.mk.injEq]

/-- A release sends the make code with the top bit set. -/
def makeCode : SetOneKey → List UInt8
  | plain c => [c.code]
  | extended c => [0xE0, c.code]

def breakCode : SetOneKey → List UInt8
  | plain c => [c.code ||| 0x80]
  | extended c => [0xE0, c.code ||| 0x80]

end SetOneKey

/-- What happens on a keyboard.  A key that is held sends its make code again and again,
and Pause sends one code and none when it is released. -/
inductive Stroke
  | press (key : SetOneKey)
  | release (key : SetOneKey)
  | pause

namespace Stroke

/-- The bytes of one complete code. -/
def codes : Stroke → List UInt8
  | press key => key.makeCode
  | release key => key.breakCode
  | pause => [0xE1, 0x1D, 0x45, 0xE1, 0x9D, 0xC5]

/-- What is left of the modifiers after a complete code. -/
def modifiers (m : Modifiers) : Stroke → Modifiers
  | press key =>
      { shift := m.shift || key.isShift
        capsLock := m.capsLock ^^ key = .capsLock
        ctrl := m.ctrl || key = .leftCtrl }
  | release key =>
      { m with shift := m.shift && !key.isShift, ctrl := m.ctrl && key ≠ .leftCtrl }
  | pause => { m with ctrl := false }

end Stroke

/-! ### Codes -/

namespace KeyCode

theorem or_top : ∀ n : Fin 128, (UInt8.ofNat n ||| 0x80) &&& 0x80 ≠ 0 ∧
    (UInt8.ofNat n ||| 0x80 = 0xE0 ↔ UInt8.ofNat n = 0x60) ∧
    (UInt8.ofNat n ||| 0x80 = 0xAA ↔ UInt8.ofNat n = 0x2A) ∧
    (UInt8.ofNat n ||| 0x80 = 0xB6 ↔ UInt8.ofNat n = 0x36) ∧
    (UInt8.ofNat n ||| 0x80 = 0x9D ↔ UInt8.ofNat n = 0x1D) := by
  decide +kernel

theorem break_top (c : KeyCode) : (c.code ||| 0x80) &&& 0x80 ≠ 0 ∧ c.code ||| 0x80 ≠ 0xE0 ∧
    (c.code ||| 0x80 = 0xAA ↔ c.code = 0x2A) ∧ (c.code ||| 0x80 = 0xB6 ↔ c.code = 0x36) ∧
    (c.code ||| 0x80 = 0x9D ↔ c.code = 0x1D) := by
  obtain ⟨htop, hescape, hrest⟩ := or_top ⟨c.code.toNat, c.lt⟩
  rw [UInt8.ofNat_toNat] at htop hescape hrest
  exact ⟨htop, fun h => c.ne (hescape.mp h), hrest⟩

theorem ne_of_top (c : KeyCode) {b : UInt8} (hb : 0x80 ≤ b) : c.code ≠ b := by
  rintro rfl
  exact absurd c.lt (UInt8.not_lt.mpr hb)

theorem break_ne (c : KeyCode) {b : UInt8} (hb : b &&& 0x80 = 0) : c.code ||| 0x80 ≠ b := by
  rintro rfl
  exact c.break_top.1 hb

end KeyCode

namespace Keyboard

variable {k : Keyboard}

/-- A make code without a prefix. -/
theorem processScancode_make (hk : k.extended = false) (c : KeyCode) :
    (k.processScancode c.code).1
      = { k with modifiers := (Stroke.press (.plain c)).modifiers k.modifiers } := by
  unfold processScancode Stroke.modifiers SetOneKey.isShift SetOneKey.leftShift
    SetOneKey.rightShift SetOneKey.leftCtrl SetOneKey.capsLock
  simp only [SetOneKey.plain_eq]
  rw [if_neg (c.ne_of_top (by decide)), if_neg (Bool.not_eq_true _ ▸ hk)]
  by_cases hleft : c.code = 0x2A
  · simp [hleft]
  by_cases hright : c.code = 0x36
  · simp [hright]
  by_cases hctrl : c.code = 0x1D
  · simp [hctrl]
  by_cases hcaps : c.code = 0x3A
  · simp [hcaps]
  -- No modifier: a character is pushed, or none.
  rw [if_neg (by simp [hleft, hright]), if_neg (by simp [c.ne_of_top]), if_neg hctrl,
    if_neg (c.ne_of_top (by decide)), if_neg hcaps]
  simp only [hleft, hright, hctrl, hcaps, decide_false, Bool.or_false, Bool.xor_false]
  split
  · rfl
  · split <;> rfl

/-- A release without a prefix. -/
theorem processScancode_break (hk : k.extended = false) (c : KeyCode) :
    (k.processScancode (c.code ||| 0x80)).1
      = { k with modifiers := (Stroke.release (.plain c)).modifiers k.modifiers } := by
  obtain ⟨htop, hescape, hleft, hright, hctrl⟩ := c.break_top
  unfold processScancode Stroke.modifiers SetOneKey.isShift SetOneKey.leftShift
    SetOneKey.rightShift SetOneKey.leftCtrl
  simp only [SetOneKey.plain_eq, ne_eq, hleft, hright, hctrl]
  rw [if_neg hescape, if_neg (Bool.not_eq_true _ ▸ hk),
    if_neg (not_or.mpr ⟨c.break_ne (by decide), c.break_ne (by decide)⟩),
    if_neg (c.break_ne (by decide) : ¬ c.code ||| 0x80 = 0x1D),
    if_neg (c.break_ne (by decide) : ¬ c.code ||| 0x80 = 0x3A), if_pos htop]
  by_cases hl : c.code = 0x2A
  · simp [hl]
  by_cases hr : c.code = 0x36
  · simp [hr]
  by_cases hc : c.code = 0x1D
  · simp [hc]
  · simp [hl, hr, hc]

/-- A prefixed code, whatever it is. -/
theorem processScancodes_extended (hk : k.extended = false) {b : UInt8} (hb : b ≠ 0xE0) :
    (k.processScancodes [0xE0, b]).1 = k := by
  have hcode : (({ k with extended := true } : Keyboard).processScancode b).1
      = { k with extended := false } := by
    unfold processScancode
    rw [if_neg hb]
    rfl
  obtain ⟨extended, m, caps, prev⟩ := k
  obtain rfl : extended = false := hk
  exact hcode

theorem processScancodes_pause (hk : k.extended = false) :
    (k.processScancodes Stroke.pause.codes).1
      = { k with modifiers := Stroke.pause.modifiers k.modifiers } := by
  obtain ⟨extended, ⟨shift, caps, ctrl⟩, hidCaps, prev⟩ := k
  obtain rfl : extended = false := hk
  cases shift <;> cases caps <;> rfl

/-- **One complete code.**  It changes nothing but the modifiers. -/
theorem processScancodes_codes (hk : k.extended = false) (e : Stroke) :
    (k.processScancodes e.codes).1 = { k with modifiers := e.modifiers k.modifiers } := by
  cases e with
  | press key =>
      cases key with
      | plain c => exact processScancode_make hk c
      | extended c =>
          rw [show (k.processScancodes (Stroke.press (.extended c)).codes).1 = k from
            processScancodes_extended hk (c.ne_of_top (by decide))]
          simp [Stroke.modifiers, SetOneKey.isShift, SetOneKey.leftShift, SetOneKey.rightShift,
            SetOneKey.leftCtrl, SetOneKey.capsLock]
  | release key =>
      cases key with
      | plain c => exact processScancode_break hk c
      | extended c =>
          rw [show (k.processScancodes (Stroke.release (.extended c)).codes).1 = k from
            processScancodes_extended hk c.break_top.2.1]
          simp [Stroke.modifiers, SetOneKey.isShift, SetOneKey.leftShift, SetOneKey.rightShift,
            SetOneKey.leftCtrl]
  | pause => exact processScancodes_pause hk

end Keyboard

/-! ### Histories -/

/-- The decoder, the keys that are held, and how often Caps Lock has sent its make code. -/
structure Desk where
  keyboard : Keyboard
  held : SetOneKey → Bool
  capsMakes : Nat

namespace Desk

open SetOneKey

def boot : Desk := ⟨Keyboard.boot, fun _ => false, 0⟩

def heldAfter (held : SetOneKey → Bool) : Stroke → SetOneKey → Bool
  | .press key => Function.update held key true
  | .release key => Function.update held key false
  | .pause => held

def capsMakesAfter (capsMakes : Nat) : Stroke → Nat
  | .press key => if key = capsLock then capsMakes + 1 else capsMakes
  | _ => capsMakes

/-- A stroke, with its code processed. -/
def next (s : Desk) (e : Stroke) : Desk where
  keyboard := (s.keyboard.processScancodes e.codes).1
  held := heldAfter s.held e
  capsMakes := capsMakesAfter s.capsMakes e

/-- What the decoder keeps whatever the keys do: no prefix, and the parity of Caps Lock. -/
structure Settled (s : Desk) : Prop where
  extended : s.keyboard.extended = false
  capsLock : s.keyboard.modifiers.capsLock = true ↔ s.capsMakes % 2 = 1

/-- The modifiers are those of the keys that are held. -/
structure Tracks (s : Desk) : Prop extends Settled s where
  shift : s.keyboard.modifiers.shift = (s.held leftShift || s.held rightShift)
  ctrl : s.keyboard.modifiers.ctrl = (s.held leftCtrl || s.held rightCtrl)

/-- What one flag for the two Shift keys can follow: one goes up only without the other. -/
structure ShiftApart (s : Desk) (e : Stroke) : Prop where
  left : e = .release leftShift → s.held rightShift = false
  right : e = .release rightShift → s.held leftShift = false

/-- What a flag for left Ctrl alone can follow: right Ctrl is held only next to left Ctrl,
and Pause, whose code has that of left Ctrl in it, goes down only without either. -/
structure CtrlApart (s : Desk) (e : Stroke) : Prop where
  press : e = .press rightCtrl → s.held leftCtrl = true
  release : e = .release leftCtrl → s.held rightCtrl = false
  pause : e = .pause → s.held leftCtrl = false ∧ s.held rightCtrl = false

/-- The strokes that the modifiers follow. -/
def Apart (s : Desk) (e : Stroke) : Prop := s.ShiftApart e ∧ s.CtrlApart e

variable {s : Desk} {e : Stroke}

theorem next_keyboard (h : s.Settled) (e : Stroke) :
    (s.next e).keyboard = { s.keyboard with modifiers := e.modifiers s.keyboard.modifiers } :=
  Keyboard.processScancodes_codes h.extended e

theorem boot_settled : boot.Settled := ⟨rfl, by decide⟩

theorem Settled.next (h : s.Settled) (e : Stroke) : (s.next e).Settled := by
  have hk := next_keyboard h e
  refine ⟨by rw [hk]; exact h.extended, ?_⟩
  rw [hk]
  have hcaps := h.capsLock
  cases e with
  | press key =>
      show (s.keyboard.modifiers.capsLock ^^ decide (key = SetOneKey.capsLock)) = true ↔
        (if key = SetOneKey.capsLock then s.capsMakes + 1 else s.capsMakes) % 2 = 1
      by_cases hkey : key = SetOneKey.capsLock
      · rw [if_pos hkey, decide_eq_true hkey, Bool.xor_true, Bool.not_eq_true', ← Bool.not_eq_true,
          hcaps]
        omega
      · rw [if_neg hkey, decide_eq_false hkey, Bool.xor_false]
        exact hcaps
  | release key => exact hcaps
  | pause => exact hcaps

theorem heldAfter_press (held : SetOneKey → Bool) (key k : SetOneKey) :
    heldAfter held (.press key) k = (held k || key = k) := by
  rw [heldAfter, Function.update_apply]
  by_cases h : k = key
  · rw [if_pos h, decide_eq_true h.symm, Bool.or_true]
  · rw [if_neg h, decide_eq_false (Ne.symm h), Bool.or_false]

theorem heldAfter_release (held : SetOneKey → Bool) (key k : SetOneKey) :
    heldAfter held (.release key) k = (held k && key ≠ k) := by
  rw [heldAfter, Function.update_apply]
  by_cases h : k = key
  · rw [if_pos h, decide_eq_false (not_not.mpr h.symm), Bool.and_false]
  · rw [if_neg h, decide_eq_true (Ne.symm h), Bool.and_true]

theorem shiftApart_press (s : Desk) (key : SetOneKey) : s.ShiftApart (.press key) :=
  ⟨fun h => absurd h (by simp), fun h => absurd h (by simp)⟩

theorem shiftApart_release {key : SetOneKey} : s.ShiftApart (.release key) ↔
    (key = leftShift → s.held rightShift = false) ∧
      (key = rightShift → s.held leftShift = false) := by
  constructor
  · intro h
    exact ⟨fun hkey => h.left (congrArg Stroke.release hkey),
      fun hkey => h.right (congrArg Stroke.release hkey)⟩
  · rintro ⟨hl, hr⟩
    exact ⟨fun hkey => hl (Stroke.release.inj hkey), fun hkey => hr (Stroke.release.inj hkey)⟩

theorem shiftApart_pause (s : Desk) : s.ShiftApart .pause :=
  ⟨fun h => absurd h (by simp), fun h => absurd h (by simp)⟩

/-- The flag for Shift after a stroke. -/
theorem shift_next_iff (h : s.Tracks) (e : Stroke) :
    (s.next e).keyboard.modifiers.shift
        = ((s.next e).held leftShift || (s.next e).held rightShift) ↔ s.ShiftApart e := by
  have hne : leftShift ≠ rightShift := by decide
  rw [next_keyboard h.toSettled]
  cases e with
  | press key =>
      show (s.keyboard.modifiers.shift || key.isShift)
        = (heldAfter s.held (.press key) leftShift || heldAfter s.held (.press key) rightShift) ↔ _
      rw [heldAfter_press, heldAfter_press, h.shift, isShift]
      exact iff_of_true (by ac_rfl) (shiftApart_press s key)
  | release key =>
      show (s.keyboard.modifiers.shift && !key.isShift) = (heldAfter s.held (.release key) leftShift
        || heldAfter s.held (.release key) rightShift) ↔ _
      rw [heldAfter_release, heldAfter_release, h.shift, isShift, shiftApart_release]
      by_cases hl : key = leftShift
      · simp [hl, hne]
      · by_cases hr : key = rightShift
        · simp [hr, hne.symm]
        · simp [hl, hr]
  | pause => exact iff_of_true h.shift (shiftApart_pause s)

/-- The invariant of the runs that go right. -/
structure Inv (s : Desk) : Prop extends Tracks s where
  beside : s.held rightCtrl = true → s.held leftCtrl = true

theorem ctrlApart_press {key : SetOneKey} :
    s.CtrlApart (.press key) ↔ (key = rightCtrl → s.held leftCtrl = true) := by
  constructor
  · exact fun h hkey => h.press (congrArg Stroke.press hkey)
  · exact fun h => ⟨fun hkey => h (Stroke.press.inj hkey), fun hkey => absurd hkey (by simp),
      fun hkey => absurd hkey (by simp)⟩

theorem ctrlApart_release {key : SetOneKey} :
    s.CtrlApart (.release key) ↔ (key = leftCtrl → s.held rightCtrl = false) := by
  constructor
  · exact fun h hkey => h.release (congrArg Stroke.release hkey)
  · exact fun h => ⟨fun hkey => absurd hkey (by simp), fun hkey => h (Stroke.release.inj hkey),
      fun hkey => absurd hkey (by simp)⟩

theorem ctrlApart_pause :
    s.CtrlApart .pause ↔ s.held leftCtrl = false ∧ s.held rightCtrl = false := by
  constructor
  · exact fun h => h.pause rfl
  · exact fun h => ⟨fun hkey => absurd hkey (by simp), fun hkey => absurd hkey (by simp),
      fun _ => h⟩

/-- As long as right Ctrl is held next to left Ctrl only, the flag is that of left Ctrl. -/
theorem Inv.ctrl_eq (h : s.Inv) : s.keyboard.modifiers.ctrl = s.held leftCtrl := by
  rw [h.ctrl]
  cases hr : s.held rightCtrl with
  | false => exact Bool.or_false _
  | true => rw [h.beside hr]; rfl

/-- The flag for Ctrl after a stroke. -/
theorem ctrl_next_iff (h : s.Inv) (e : Stroke) :
    (s.next e).keyboard.modifiers.ctrl
        = ((s.next e).held leftCtrl || (s.next e).held rightCtrl) ↔ s.CtrlApart e := by
  have hne : leftCtrl ≠ rightCtrl := by decide
  rw [next_keyboard h.toSettled]
  cases e with
  | press key =>
      show (s.keyboard.modifiers.ctrl || decide (key = leftCtrl))
        = (heldAfter s.held (.press key) leftCtrl || heldAfter s.held (.press key) rightCtrl) ↔ _
      rw [heldAfter_press, heldAfter_press, h.ctrl_eq, ctrlApart_press]
      by_cases hr : key = rightCtrl
      · simp [hr, hne.symm]
      · refine iff_of_true ?_ fun hkey => absurd hkey hr
        cases hheld : s.held rightCtrl with
        | false => simp [hr]
        | true => simp [h.beside hheld]
  | release key =>
      show (s.keyboard.modifiers.ctrl && decide (key ≠ leftCtrl)) =
        (heldAfter s.held (.release key) leftCtrl ||
          heldAfter s.held (.release key) rightCtrl) ↔ _
      rw [heldAfter_release, heldAfter_release, h.ctrl_eq, ctrlApart_release]
      by_cases hl : key = leftCtrl
      · simp [hl, hne]
      · refine iff_of_true ?_ fun hkey => absurd hkey hl
        cases hheld : s.held rightCtrl with
        | false => simp
        | true => simp [h.beside hheld, hl]
  | pause =>
      show false = (s.held leftCtrl || s.held rightCtrl) ↔ _
      rw [eq_comm, Bool.or_eq_false_iff, ctrlApart_pause]

/-- A stroke that the modifiers follow keeps the invariant, -/
theorem Inv.next (h : s.Inv) (hapart : s.Apart e) : (s.next e).Inv := by
  refine ⟨⟨h.toSettled.next e, (shift_next_iff h.toTracks e).mpr hapart.1,
    (ctrl_next_iff h e).mpr hapart.2⟩, ?_⟩
  cases e with
  | press key =>
      show heldAfter s.held (.press key) rightCtrl = true →
        heldAfter s.held (.press key) leftCtrl = true
      rw [heldAfter_press, heldAfter_press, Bool.or_eq_true, Bool.or_eq_true]
      rintro (hheld | hkey)
      · exact Or.inl (h.beside hheld)
      · exact Or.inl (hapart.2.press (congrArg Stroke.press (of_decide_eq_true hkey)))
  | release key =>
      show heldAfter s.held (.release key) rightCtrl = true →
        heldAfter s.held (.release key) leftCtrl = true
      rw [heldAfter_release, heldAfter_release, Bool.and_eq_true, Bool.and_eq_true]
      rintro ⟨hheld, -⟩
      refine ⟨h.beside hheld, decide_eq_true fun hkey => ?_⟩
      rw [hapart.2.release (congrArg Stroke.release hkey)] at hheld
      exact Bool.false_ne_true hheld
  | pause => exact h.beside

/-- and any other leaves a flag that is wrong. -/
theorem Inv.not_tracks (h : s.Inv) (hapart : ¬ s.Apart e) : ¬ (s.next e).Tracks :=
  fun hnext => hapart ⟨(shift_next_iff h.toTracks e).mp hnext.shift,
    (ctrl_next_iff h e).mp hnext.ctrl⟩

theorem boot_inv : boot.Inv := ⟨⟨boot_settled, rfl, rfl⟩, fun h => absurd h Bool.false_ne_true⟩

/-- **The modifiers of the PS/2 decoder.**  After every complete code no prefix is kept and
Caps Lock has its parity; and Shift and Ctrl are those of the held keys throughout exactly
when every stroke is one that a single flag can follow. -/
theorem modifiers_track_iff {trace : List (Desk × Stroke)} (h : Run (Next next) boot trace s) :
    (∀ t ∈ visited trace s, t.Settled) ∧
      ((∀ t ∈ visited trace s, t.Tracks) ↔ ∀ e ∈ trace, e.1.Apart e.2) := by
  constructor
  · refine h.invariant_visited (K := fun _ _ => True) boot_settled ?_ fun _ _ => trivial
    rintro t e t' ht - rfl
    exact ht.next e
  · refine h.good_iff boot_inv (fun t ht => ht.toTracks) ?_ ?_
    · rintro t e t' ht hapart rfl
      exact ht.next hapart
    · rintro t e t' ht hapart rfl
      exact ht.not_tracks hapart

/-- Left Shift on a letter. -/
theorem modifiers_track_letter :
    ∃ (trace : List (Desk × Stroke)) (s : Desk),
      trace.map Prod.snd = [.press leftShift, .press (plain ⟨0x1E, by decide, by decide⟩),
        .release (plain ⟨0x1E, by decide, by decide⟩), .release leftShift] ∧
      (∀ t ∈ visited trace s, t.Settled) ∧
        ((∀ t ∈ visited trace s, t.Tracks) ↔ ∀ e ∈ trace, e.1.Apart e.2) :=
  ⟨_, _, rfl, modifiers_track_iff (Run.ofActions next boot [.press leftShift,
    .press (plain ⟨0x1E, by decide, by decide⟩), .release (plain ⟨0x1E, by decide, by decide⟩),
    .release leftShift])⟩

/-- Left Shift released with right Shift still down: the flag is gone. -/
theorem shift_lost :
    ∃ (trace : List (Desk × Stroke)) (s : Desk), Run (Next next) boot trace s ∧
      trace.map Prod.snd = [.press leftShift, .press rightShift, .release leftShift] ∧
      s.held rightShift = true ∧ ¬ s.Tracks := by
  refine ⟨_, _, Run.ofActions next boot [.press leftShift, .press rightShift, .release leftShift],
    rfl, by decide +kernel, fun h => ?_⟩
  have hshift := h.shift
  revert hshift
  decide +kernel

end Desk

end Amaterasu
