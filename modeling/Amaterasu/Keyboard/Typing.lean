/-
The two keyboard paths side by side.

A history of presses and releases reaches the PS/2 decoder as scancodes of set 1 and the
HID decoder as one boot report after each event.  The decoders share no table and no
state, so that they push the same bytes is an invariant of both states together: the
flags the one keeps are what the reports tell the other, and the previous report lists
the keys that are held.
-/
import Amaterasu.Lib.Run
import Amaterasu.Keyboard.Reports

namespace Amaterasu

/-! ### Keys -/

/-- The keys both decoders know. -/
inductive Key
  | keyA | keyB | keyC | keyD | keyE | keyF | keyG | keyH | keyI | keyJ | keyK | keyL | keyM
  | keyN | keyO | keyP | keyQ | keyR | keyS | keyT | keyU | keyV | keyW | keyX | keyY | keyZ
  | digit1 | digit2 | digit3 | digit4 | digit5 | digit6 | digit7 | digit8 | digit9 | digit0
  | minus | equals | leftBracket | rightBracket | backslash | semicolon | apostrophe | backtick
  | comma | period | slash
  | space | enter | backspace | tab | capsLock
  | leftShift | leftCtrl
  | up | down | left | right | home | endKey
  deriving DecidableEq, Repr

namespace Key

def all : List Key :=
  [keyA, keyB, keyC, keyD, keyE, keyF, keyG, keyH, keyI, keyJ, keyK, keyL, keyM,
    keyN, keyO, keyP, keyQ, keyR, keyS, keyT, keyU, keyV, keyW, keyX, keyY, keyZ,
    digit1, digit2, digit3, digit4, digit5, digit6, digit7, digit8, digit9, digit0,
    minus, equals, leftBracket, rightBracket, backslash, semicolon, apostrophe, backtick,
    comma, period, slash, space, enter, backspace, tab, capsLock, leftShift, leftCtrl,
    up, down, left, right, home, endKey]

theorem mem_all (key : Key) : key ∈ all := by
  cases key <;> decide

instance decidableForall {p : Key → Prop} [DecidablePred p] : Decidable (∀ key, p key) :=
  decidable_of_iff (∀ key ∈ all, p key) ⟨fun h key => h key (mem_all key), fun h key _ => h key⟩

/-- The make code in scancode set 1, without the prefix. -/
def scancode : Key → UInt8
  | keyA => 0x1E | keyB => 0x30 | keyC => 0x2E | keyD => 0x20
  | keyE => 0x12 | keyF => 0x21 | keyG => 0x22
  | keyH => 0x23 | keyI => 0x17 | keyJ => 0x24 | keyK => 0x25
  | keyL => 0x26 | keyM => 0x32 | keyN => 0x31
  | keyO => 0x18 | keyP => 0x19 | keyQ => 0x10 | keyR => 0x13
  | keyS => 0x1F | keyT => 0x14 | keyU => 0x16
  | keyV => 0x2F | keyW => 0x11 | keyX => 0x2D | keyY => 0x15 | keyZ => 0x2C
  | digit1 => 0x02 | digit2 => 0x03 | digit3 => 0x04 | digit4 => 0x05 | digit5 => 0x06
  | digit6 => 0x07 | digit7 => 0x08 | digit8 => 0x09 | digit9 => 0x0A | digit0 => 0x0B
  | minus => 0x0C | equals => 0x0D | leftBracket => 0x1A | rightBracket => 0x1B
  | backslash => 0x2B | semicolon => 0x27 | apostrophe => 0x28 | backtick => 0x29
  | comma => 0x33 | period => 0x34 | slash => 0x35
  | space => 0x39 | enter => 0x1C | backspace => 0x0E | tab => 0x0F | capsLock => 0x3A
  | leftShift => 0x2A | leftCtrl => 0x1D
  | up => 0x48 | down => 0x50 | left => 0x4B | right => 0x4D | home => 0x47 | endKey => 0x4F

/-- The keys with the prefix `E0`: the arrows, Home and End. -/
def isExtended : Key → Bool
  | up | down | left | right | home | endKey => true
  | _ => false

/-- The HID usage. -/
def usage : Key → UInt8
  | keyA => 0x04 | keyB => 0x05 | keyC => 0x06 | keyD => 0x07
  | keyE => 0x08 | keyF => 0x09 | keyG => 0x0A
  | keyH => 0x0B | keyI => 0x0C | keyJ => 0x0D | keyK => 0x0E
  | keyL => 0x0F | keyM => 0x10 | keyN => 0x11
  | keyO => 0x12 | keyP => 0x13 | keyQ => 0x14 | keyR => 0x15
  | keyS => 0x16 | keyT => 0x17 | keyU => 0x18
  | keyV => 0x19 | keyW => 0x1A | keyX => 0x1B | keyY => 0x1C | keyZ => 0x1D
  | digit1 => 0x1E | digit2 => 0x1F | digit3 => 0x20 | digit4 => 0x21 | digit5 => 0x22
  | digit6 => 0x23 | digit7 => 0x24 | digit8 => 0x25 | digit9 => 0x26 | digit0 => 0x27
  | minus => 0x2D | equals => 0x2E | leftBracket => 0x2F | rightBracket => 0x30
  | backslash => 0x31 | semicolon => 0x33 | apostrophe => 0x34 | backtick => 0x35
  | comma => 0x36 | period => 0x37 | slash => 0x38
  | space => 0x2C | enter => 0x28 | backspace => 0x2A | tab => 0x2B | capsLock => 0x39
  | leftShift => 0xE1 | leftCtrl => 0xE0
  | up => 0x52 | down => 0x51 | left => 0x50 | right => 0x4F | home => 0x4A | endKey => 0x4D

/-- The keys that a report has a bit for. -/
def isModifier : Key → Bool
  | leftShift | leftCtrl => true
  | _ => false

/-- What a keyboard sends for a code: the prefix, when there is one, and the code. -/
def scancodes (key : Key) (code : UInt8) : List UInt8 :=
  if key.isExtended then [0xE0, code] else [code]

/-- A release is the make code with the top bit set. -/
def make (key : Key) : List UInt8 := key.scancodes key.scancode

def release (key : Key) : List UInt8 := key.scancodes (key.scancode ||| 0x80)

theorem usage_injective : ∀ k k' : Key, k.usage = k'.usage → k = k' := by decide +kernel

theorem usage_ne_zero : ∀ key : Key, key.usage ≠ 0 := by decide +kernel

end Key

/-! ### Histories -/

inductive KeyEvent
  | press (key : Key)
  | release (key : Key)
  deriving DecidableEq, Repr

/-- Both decoders, the keys that are held, and the bytes pushed so far. -/
structure Typing where
  ps2 : Keyboard
  hid : Keyboard
  held : List Key
  ps2Pushed : List UInt8
  hidPushed : List UInt8

namespace Typing

def boot : Typing := ⟨Keyboard.boot, Keyboard.boot, [], [], []⟩

/-- The byte of modifiers. -/
def modifierByte (held : List Key) : UInt8 :=
  (if Key.leftShift ∈ held then 0x02 else 0) ||| (if Key.leftCtrl ∈ held then 0x01 else 0)

/-- The usages of the held keys that have no bit. -/
def usages (held : List Key) : List UInt8 := (held.filter fun k => !k.isModifier).map Key.usage

/-- A boot report of the keys held.  There is one only while six of them at most are no
modifiers. -/
structure Reports (held : List Key) (report : HidReport) : Prop where
  modifiers : report.get 0 = modifierByte held
  slots : Keyboard.Lists (usages held) report

/-- The keys held after an event: no key is pressed twice, or released before it is
pressed. -/
def heldAfter (held : List Key) : KeyEvent → Option (List Key)
  | .press key => if key ∈ held then none else some (key :: held)
  | .release key => if key ∈ held then some (held.erase key) else none

/-- The scancodes of an event. -/
def scancodes : KeyEvent → List UInt8
  | .press key => key.make
  | .release key => key.release

/-- An event, with the report the keyboard sends after it. -/
def Step (s : Typing) (e : KeyEvent × HidReport) (s' : Typing) : Prop :=
  ∃ held, heldAfter s.held e.1 = some held ∧ Reports held e.2 ∧
    s' =
      { ps2 := (s.ps2.processScancodes (scancodes e.1)).1
        hid := (s.hid.processHidReport e.2).1
        held := held
        ps2Pushed := s.ps2Pushed ++ (s.ps2.processScancodes (scancodes e.1)).2
        hidPushed := s.hidPushed ++ (s.hid.processHidReport e.2).2 }

/-! ### The invariant -/

/-- The PS/2 decoder between two codes. -/
def ps2At (shift caps ctrl : Bool) : Keyboard :=
  { Keyboard.boot with modifiers := ⟨shift, caps, ctrl⟩ }

/-- What the two decoders know of the same keyboard. -/
structure Agree (s : Typing) : Prop where
  nodup : s.held.Nodup
  ps2 : s.ps2 = ps2At (decide (Key.leftShift ∈ s.held)) s.hid.hidCapsLock
    (decide (Key.leftCtrl ∈ s.held))
  prev : ∀ u, u ≠ 0 → (u ∈ s.hid.hidPrev ↔ u ∈ usages s.held)
  pushed : s.ps2Pushed = s.hidPushed

theorem boot_agree : boot.Agree := by
  refine ⟨List.nodup_nil, rfl, ?_, rfl⟩
  intro u hne
  simp [boot, Keyboard.boot, usages, hne]

/-! #### One key -/

/-- The two tables say the same of every key, with any modifiers. -/
theorem make_key : ∀ (key : Key) (shift caps ctrl : Bool), key.isModifier = false →
    (ps2At shift caps ctrl).processScancodes key.make =
      (ps2At shift (Keyboard.hidKey shift ctrl caps key.usage).1 ctrl,
        (Keyboard.hidKey shift ctrl caps key.usage).2) := by
  decide +kernel

theorem make_modifier : ∀ (key : Key) (shift caps ctrl : Bool), key.isModifier = true →
    (ps2At shift caps ctrl).processScancodes key.make =
      (ps2At (shift || key == .leftShift) caps (ctrl || key == .leftCtrl), []) := by
  decide +kernel

theorem release_key : ∀ (key : Key) (shift caps ctrl : Bool),
    (ps2At shift caps ctrl).processScancodes key.release =
      (ps2At (shift && key != .leftShift) caps (ctrl && key != .leftCtrl), []) := by
  decide +kernel

/-! #### One report -/

variable {held : List Key} {key : Key} {report : HidReport}

/-- The masks of `process_hid_report` read the two bits of the modifier byte. -/
theorem modifierByte_masks (held : List Key) :
    (modifierByte held &&& 0x22 != 0) = decide (Key.leftShift ∈ held) ∧
      (modifierByte held &&& 0x11 != 0) = decide (Key.leftCtrl ∈ held) := by
  unfold modifierByte
  by_cases hshift : Key.leftShift ∈ held
  · by_cases hctrl : Key.leftCtrl ∈ held
    · simp only [hshift, hctrl]; decide
    · simp only [hshift, hctrl]; decide
  · by_cases hctrl : Key.leftCtrl ∈ held
    · simp only [hshift, hctrl]; decide
    · simp only [hshift, hctrl]; decide

theorem Reports.shift (h : Reports held report) :
    Keyboard.reportShift report = decide (Key.leftShift ∈ held) := by
  unfold Keyboard.reportShift
  rw [h.modifiers]
  exact (modifierByte_masks held).1

theorem Reports.ctrl (h : Reports held report) :
    Keyboard.reportCtrl report = decide (Key.leftCtrl ∈ held) := by
  unfold Keyboard.reportCtrl
  rw [h.modifiers]
  exact (modifierByte_masks held).2

theorem mem_usages {u : UInt8} :
    u ∈ usages held ↔ ∃ key ∈ held, key.isModifier = false ∧ key.usage = u := by
  simp [usages, and_assoc]

theorem usages_cons (hmod : key.isModifier = false) :
    usages (key :: held) = key.usage :: usages held := by
  unfold usages
  rw [List.filter_cons_of_pos (by simp [hmod]), List.map_cons]

theorem usages_cons_modifier (hmod : key.isModifier = true) :
    usages (key :: held) = usages held := by
  unfold usages
  rw [List.filter_cons_of_neg (by simp [hmod])]

theorem usage_notMem (h : key ∉ held) : key.usage ∉ usages held := by
  intro hmem
  obtain ⟨key', hheld, -, heq⟩ := mem_usages.mp hmem
  rw [Key.usage_injective _ _ heq] at hheld
  exact h hheld

namespace Agree

variable {s : Typing}

/-- A key that was held does nothing. -/
theorem hidRound_held (h : s.Agree) (report : HidReport) {u : UInt8}
    (hu : u = 0 ∨ u ∈ usages s.held) :
    Keyboard.hidRound s.hid report u = (s.hid.hidCapsLock, []) := by
  rw [Keyboard.hidRound_eq]
  split
  · rfl
  · rename_i hprev
    rcases hu with rfl | hu
    · exact Keyboard.hidKey_zero _ _ _
    · refine absurd ((h.prev u ?_).mpr hu) hprev
      obtain ⟨key, -, -, rfl⟩ := mem_usages.mp hu
      exact key.usage_ne_zero

/-- A report of keys that were held does nothing. -/
theorem quiet (h : s.Agree) (hreport : Reports held report) (hsub : usages held ⊆ usages s.held) :
    s.hid.processHidReport report = ({ s.hid with hidPrev := Keyboard.slots report }, []) := by
  apply Keyboard.processHidReport_quiet
  intro u hu
  apply h.hidRound_held
  by_cases hzero : u = 0
  · exact Or.inl hzero
  · exact Or.inr (hsub ((hreport.slots.mem_iff hzero).mp hu))

/-- A report with a key that was not held does what the key does. -/
theorem single (h : s.Agree) (hreport : Reports (key :: s.held) report) (hnew : key ∉ s.held)
    (hmod : key.isModifier = false) :
    s.hid.processHidReport report =
      ({ s.hid with
          hidCapsLock := (Keyboard.hidKey (decide (Key.leftShift ∈ s.held))
            (decide (Key.leftCtrl ∈ s.held)) s.hid.hidCapsLock key.usage).1
          hidPrev := Keyboard.slots report },
        (Keyboard.hidKey (decide (Key.leftShift ∈ s.held)) (decide (Key.leftCtrl ∈ s.held))
          s.hid.hidCapsLock key.usage).2) := by
  have hround : Keyboard.hidRound s.hid report key.usage
      = Keyboard.hidKey (decide (Key.leftShift ∈ s.held)) (decide (Key.leftCtrl ∈ s.held))
          s.hid.hidCapsLock key.usage := by
    have hshift : Key.leftShift ∈ key :: s.held ↔ Key.leftShift ∈ s.held := by
      rw [List.mem_cons, or_iff_right]
      rintro rfl
      exact absurd hmod (by decide)
    have hctrl : Key.leftCtrl ∈ key :: s.held ↔ Key.leftCtrl ∈ s.held := by
      rw [List.mem_cons, or_iff_right]
      rintro rfl
      exact absurd hmod (by decide)
    rw [Keyboard.hidRound_eq, if_neg, hreport.shift, hreport.ctrl, decide_eq_decide.mpr hshift,
      decide_eq_decide.mpr hctrl]
    intro hprev
    exact usage_notMem hnew ((h.prev _ key.usage_ne_zero).mp hprev)
  have hslots := hreport.slots
  unfold Keyboard.Lists at hslots
  rw [usages_cons hmod, List.cons_append] at hslots
  rw [Keyboard.processHidReport_single hslots, hround]
  intro u hu
  apply h.hidRound_held
  rcases List.mem_append.mp hu with hu | hu
  · exact Or.inr hu
  · exact Or.inl (List.eq_of_mem_replicate hu)

/-! #### One event -/

theorem press (h : s.Agree) (hnew : key ∉ s.held) (hreport : Reports (key :: s.held) report) :
    Agree
      { ps2 := (s.ps2.processScancodes key.make).1
        hid := (s.hid.processHidReport report).1
        held := key :: s.held
        ps2Pushed := s.ps2Pushed ++ (s.ps2.processScancodes key.make).2
        hidPushed := s.hidPushed ++ (s.hid.processHidReport report).2 } := by
  have hprev : ∀ u, u ≠ 0 → (u ∈ Keyboard.slots report ↔ u ∈ usages (key :: s.held)) :=
    fun u hu => hreport.slots.mem_iff hu
  rcases hmod : key.isModifier with - | -
  · have hheld : ∀ m : Key, m.isModifier = true → (m ∈ key :: s.held ↔ m ∈ s.held) := by
      intro m hm
      rw [List.mem_cons, or_iff_right]
      rintro rfl
      rw [hmod] at hm
      exact absurd hm (by decide)
    rw [h.single hreport hnew hmod, h.ps2, make_key _ _ _ _ hmod]
    refine ⟨List.nodup_cons.mpr ⟨hnew, h.nodup⟩, ?_, hprev, ?_⟩
    · simp only [decide_eq_decide.mpr (hheld Key.leftShift rfl),
        decide_eq_decide.mpr (hheld Key.leftCtrl rfl)]
    · rw [h.pushed]
  · have hsub : usages (key :: s.held) ⊆ usages s.held := by
      rw [usages_cons_modifier hmod]
      exact fun _ hu => hu
    have hheld : ∀ m : Key, decide (m ∈ key :: s.held) = (decide (m ∈ s.held) || key == m) := by
      intro m
      rw [Bool.eq_iff_iff, Bool.or_eq_true, decide_eq_true_iff, decide_eq_true_iff, beq_iff_eq,
        List.mem_cons, or_comm, @eq_comm _ m key]
    rw [h.quiet hreport hsub, h.ps2, make_modifier _ _ _ _ hmod]
    refine ⟨List.nodup_cons.mpr ⟨hnew, h.nodup⟩, ?_, hprev, ?_⟩
    · simp only [hheld]
    · simp only [List.append_nil, h.pushed]

theorem release (h : s.Agree) (hreport : Reports (s.held.erase key) report) :
    Agree
      { ps2 := (s.ps2.processScancodes key.release).1
        hid := (s.hid.processHidReport report).1
        held := s.held.erase key
        ps2Pushed := s.ps2Pushed ++ (s.ps2.processScancodes key.release).2
        hidPushed := s.hidPushed ++ (s.hid.processHidReport report).2 } := by
  have hsub : usages (s.held.erase key) ⊆ usages s.held :=
    ((List.erase_sublist.filter _).map _).subset
  have hheld : ∀ m : Key, decide (m ∈ s.held.erase key) = (decide (m ∈ s.held) && key != m) := by
    intro m
    rw [Bool.eq_iff_iff, Bool.and_eq_true, decide_eq_true_iff, decide_eq_true_iff, bne_iff_ne,
      h.nodup.mem_erase_iff, and_comm, ne_comm]
  rw [h.quiet hreport hsub, h.ps2, release_key]
  refine ⟨h.nodup.erase key, ?_, fun u hu => hreport.slots.mem_iff hu, ?_⟩
  · simp only [hheld]
  · simp only [List.append_nil, h.pushed]

/-- **One event**, with its report, keeps the decoders in agreement. -/
theorem step (h : s.Agree) {e : KeyEvent × HidReport} {s' : Typing} (hstep : Step s e s') :
    s'.Agree := by
  obtain ⟨event, report⟩ := e
  obtain ⟨held, hheld, hreport, rfl⟩ := hstep
  rcases event with key | key
  · dsimp only [heldAfter] at hheld
    split at hheld
    · exact absurd hheld (by simp)
    · rename_i hnew
      rw [← Option.some.inj hheld] at hreport ⊢
      exact h.press hnew hreport
  · dsimp only [heldAfter] at hheld
    split at hheld
    · rw [← Option.some.inj hheld] at hreport ⊢
      exact h.release hreport
    · exact absurd hheld (by simp)

end Agree

/--
**The keyboard paths agree.**  After any history of presses and releases, the scancodes
of the history and the reports sent after its events have pushed the same bytes.
-/
theorem decoders_agree {trace : List (Typing × (KeyEvent × HidReport))} {s : Typing}
    (hrun : Run Step boot trace s) : s.ps2Pushed = s.hidPushed :=
  (hrun.always boot_agree fun _ _ _ h hstep => h.step hstep).pushed

/-- Shift and A, the second report with the usage in its last slot. -/
theorem decoders_agree_shifted : ∃ (trace : List (Typing × (KeyEvent × HidReport))) (s : Typing),
    Run Step boot trace s ∧
    trace.map (·.2) = [(.press .leftShift, #v[0x02, 0, 0, 0, 0, 0, 0, 0]),
      (.press .keyA, #v[0x02, 0, 0, 0, 0, 0, 0, 0x04])] ∧
    s.ps2Pushed = [65] ∧ s.ps2Pushed = s.hidPushed := by
  have hshift : Step boot (.press .leftShift, #v[0x02, 0, 0, 0, 0, 0, 0, 0]) _ :=
    ⟨[.leftShift], by decide, ⟨by decide, by unfold Keyboard.Lists; decide⟩, rfl⟩
  have hrun := (Run.single hshift).snoc
    (a := (.press .keyA, #v[0x02, 0, 0, 0, 0, 0, 0, 0x04]))
    ⟨[.keyA, .leftShift], by decide, ⟨by decide, by unfold Keyboard.Lists; decide⟩, rfl⟩
  exact ⟨_, _, hrun, rfl, by decide +kernel, decoders_agree hrun⟩

end Typing

end Amaterasu
