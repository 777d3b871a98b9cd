/-
`hal/src/ps2.rs`: the start-up of the 8042, against a controller that takes a byte when it
gets round to it.

The configuration byte comes back through the same buffer as the bytes of the keyboard and of
the mouse.  That the byte which is read is the configuration depends on both ports being shut by
then.  The driver waits until the first of the two commands that shut them has been taken; it
does not wait for the second before it empties the buffer, so that the mouse has until then to
put a byte where the configuration is expected.  Everything else is shown to be as it should
be, `stray` being the record of that.
-/
import Amaterasu.Hal.Ports
import Mathlib.Logic.Relation
import Mathlib.Tactic.SplitIfs
import Mathlib.Tactic.ByContra

namespace Amaterasu

namespace Ps2Init

open Dialogue Ports

/-- `CMD`. -/
def cmd : UInt16 := 0x64
/-- `DATA`. -/
def data : UInt16 := 0x60

/-- `wait_write`; the loop of the source is of 0x10000 rounds. -/
def waitWrite : Nat → Ports Bool
  | 0 => return false
  | n + 1 => do
      if (← inb cmd) &&& 0x02 = 0 then return true
      ioWait
      waitWrite n

/-- `wait_read`. -/
def waitRead : Nat → Ports Bool
  | 0 => return false
  | n + 1 => do
      if (← inb cmd) &&& 0x01 ≠ 0 then return true
      ioWait
      waitRead n

/-- `flush`, of 16 rounds. -/
def flush : Nat → Ports Unit
  | 0 => return ()
  | n + 1 => do
      if (← inb cmd) &&& 0x01 = 0 then return ()
      let _ ← inb data
      ioWait
      flush n

def rounds : Nat := 0x10000

/-- `wait_write(); outb(port, v)`. -/
def send (port : UInt16) (v : UInt8) : Ports Unit := do
  let _ ← waitWrite rounds
  outb port v

/-- The answer to the command 0x20. -/
def readConfig : Ports UInt8 := do
  if ← waitRead rounds then inb data else return 0x00

/-- `init`, with the two configuration bytes that it reports. -/
def init : Ports (UInt8 × UInt8) := do
  send cmd 0xAD
  send cmd 0xA7
  flush 16
  send cmd 0x20
  let config ← readConfig
  let newConfig := (config ||| 0x01) &&& ~~~0x10
  send cmd 0x60
  send data newConfig
  send cmd 0xAE
  return (config, newConfig)

/-! ### The controller -/

/-- A byte in the input buffer. -/
inductive Input where
  | command (v : UInt8)
  | data (v : UInt8)
  deriving DecidableEq, Repr

structure Controller8042 where
  config : UInt8
  /-- The input buffer. -/
  ibf : Option Input
  /-- The output buffer. -/
  obf : Option UInt8
  /-- The next data byte is the configuration. -/
  awaiting : Bool
  /-- The mouse has sent a byte after the command that shuts its port was written. -/
  stray : Bool
  deriving DecidableEq, Repr

namespace Controller8042

/-- The first port is shut. -/
def shut1 (c : Controller8042) : Prop := c.config &&& 0x10 ≠ 0

/-- The second port is shut. -/
def shut2 (c : Controller8042) : Prop := c.config &&& 0x20 ≠ 0

/-- What the controller does with a byte. -/
def obeys (c : Controller8042) : Input → Controller8042
  | .command v =>
      if v = 0x20 then { c with obf := some c.config, awaiting := false }
      else if v = 0xAD then { c with config := c.config ||| 0x10, awaiting := false }
      else if v = 0xAE then { c with config := c.config &&& ~~~0x10, awaiting := false }
      else if v = 0xA7 then { c with config := c.config ||| 0x20, awaiting := false }
      else if v = 0xA8 then { c with config := c.config &&& ~~~0x20, awaiting := false }
      else { c with awaiting := v == 0x60 }
  | .data v => if c.awaiting then { c with config := v, awaiting := false } else c

/-- The controller once it has taken what is in its input buffer. -/
def taken (c : Controller8042) : Controller8042 :=
  match c.ibf with
  | none => c
  | some i => { c.obeys i with ibf := none }

/-- What the controller does on its own. -/
inductive Event : Controller8042 → Controller8042 → Prop
  | takes {c : Controller8042} (h : c.ibf ≠ none) : Event c c.taken
  | keyboard {c : Controller8042} (hopen : ¬ c.shut1) (h : c.obf = none) (b : UInt8) :
      Event c { c with obf := some b }
  | mouse {c : Controller8042} (hopen : ¬ c.shut2) (h : c.obf = none) (b : UInt8) :
      Event c { c with obf := some b, stray := c.stray || c.ibf == some (.command 0xA7) }

end Controller8042

/-- The controller, and how often it still lets its status be read before it takes what is in
its input buffer. -/
def device : Device (Controller8042 × Nat) Pio UInt32 where
  drifts s s' := Relation.ReflTransGen Controller8042.Event s.1 s'.1 ∧ s'.2 = s.2
  answers s q r s' := match q with
    | .inb port =>
        if port = cmd then
          s'.1 = s.1 ∧ (r.toUInt8 &&& 0x01 ≠ 0 ↔ s.1.obf ≠ none) ∧
            (r.toUInt8 &&& 0x02 ≠ 0 ↔ s.1.ibf ≠ none) ∧
            (s.1.ibf ≠ none → s.2 = s'.2 + 1) ∧ s'.2 ≤ s.2
        else if port = data then
          s' = ({ s.1 with obf := none }, s.2) ∧ ∀ b, s.1.obf = some b → r.toUInt8 = b
        else s' = s
    | .outb port v =>
        if port = cmd then s'.1 = { s.1 with ibf := some (.command v) } ∧ s'.2 < rounds
        else if port = data then s'.1 = { s.1 with ibf := some (.data v) } ∧ s'.2 < rounds
        else s' = s
    | _ => s' = s

namespace Controller8042

/-- What the controller leaves alone on its own. -/
def Stable (P : Controller8042 → Prop) : Prop := ∀ c c', Event c c' → P c → P c'

/-- Unless the mouse has come in between. -/
def Unless (P : Controller8042 → Prop) (c : Controller8042) : Prop := c.stray = true ∨ P c

/-- An assertion about the controller, which will take what is in its input buffer in time. -/
structure Holds (P : Controller8042 → Prop) (s : Controller8042 × Nat) : Prop where
  here : P s.1
  prompt : s.2 < rounds

variable {P Q : Controller8042 → Prop} {s s' : Controller8042 × Nat}

theorem stray_mono {c c' : Controller8042} (h : Event c c') (hs : c.stray = true) :
    c'.stray = true := by
  cases h with
  | takes hibf =>
      rw [taken]
      split
      · exact hs
      · rename_i i _
        cases i with
        | command v =>
            simp only [obeys]
            split_ifs <;> exact hs
        | data v =>
            simp only [obeys]
            split_ifs <;> exact hs
  | keyboard => exact hs
  | mouse => simp [hs]

/-- Along with what is not about the controller. -/
theorem Stable.along (h : Stable P) (A : Prop) : Stable fun c => A ∧ P c :=
  fun c c' hevent hc => ⟨hc.1, h c c' hevent hc.2⟩

theorem Stable.unless (h : Stable P) : Stable (Unless P) := by
  intro c c' hevent hc
  rcases hc with hstray | hc
  · exact Or.inl (stray_mono hevent hstray)
  · exact Or.inr (h c c' hevent hc)

theorem stable_unless (h : ∀ c c', Event c c' → P c → Unless P c') : Stable (Unless P) := by
  intro c c' hevent hc
  rcases hc with hstray | hc
  · exact Or.inl (stray_mono hevent hstray)
  · exact h c c' hevent hc

theorem Stable.drift (h : Stable P) (hs : Holds P s) (hdrift : device.drifts s s') :
    Holds P s' := by
  have hevents : ∀ c', Relation.ReflTransGen Event s.1 c' → P c' := fun c' hc' => by
    induction hc' with
    | refl => exact hs.here
    | tail _ hevent ih => exact h _ _ hevent ih
  exact ⟨hevents s'.1 hdrift.1, hdrift.2 ▸ hs.prompt⟩

/-- Nothing gets into the input buffer but what is written. -/
theorem Stable.taken (h : Stable P) : Stable fun c => P c ∧ c.ibf = none := by
  intro c c' hevent ⟨hc, hibf⟩
  refine ⟨h c c' hevent hc, ?_⟩
  cases hevent with
  | takes hne => exact absurd hibf hne
  | keyboard => exact hibf
  | mouse => exact hibf

/-! ### Accesses -/

/-- A reading of the status. -/
theorem meets_status (hP : Stable P) (hs : Holds P s) :
    Meets device (fun st s' => Holds P s' ∧ (st &&& 0x01 ≠ 0 ↔ s'.1.obf ≠ none) ∧
      (st &&& 0x02 ≠ 0 ↔ s'.1.ibf ≠ none) ∧ (s'.1.ibf ≠ none → s.2 = s'.2 + 1)) (inb cmd) s := by
  intro s₁ r s' hdrift hanswer
  obtain ⟨hsame, hobf, hibf, htime, hle⟩ := hanswer
  have hs₁ := hP.drift hs hdrift
  rw [← hsame] at hobf hibf htime
  rw [hdrift.2] at htime
  exact ⟨⟨hsame ▸ hs₁.here, Nat.lt_of_le_of_lt hle hs₁.prompt⟩, hobf, hibf, htime⟩

theorem meets_ioWait (hP : Stable P) (hs : Holds P s) :
    Meets device (fun _ s' => Holds P s' ∧ s'.2 = s.2) ioWait s := by
  intro s₁ r s' hdrift hanswer
  have hsame : s' = s₁ := hanswer
  rw [hsame]
  exact ⟨hP.drift hs hdrift, hdrift.2⟩

/-- The wait for the input buffer. -/
theorem meets_waitWrite (hP : Stable P) {n : Nat} (hs : Holds P s) (hn : s.2 < n) :
    Meets device (fun _ => Holds fun c => P c ∧ c.ibf = none) (waitWrite n) s := by
  induction n generalizing s with
  | zero => exact absurd hn (Nat.not_lt_zero _)
  | succ n ih =>
      refine (meets_status hP hs).seq fun st s₁ ⟨hs₁, _, hibf, htime⟩ => ?_
      split_ifs with hst
      · have hnone : s₁.1.ibf = none := by
          by_contra hne
          exact hibf.mpr hne hst
        exact Meets.pure ⟨⟨hs₁.here, hnone⟩, hs₁.prompt⟩
      · have hlater := htime (hibf.mp hst)
        exact (meets_ioWait hP hs₁).seq fun _ s₂ ⟨hs₂, hsame⟩ => ih hs₂ (by omega)

theorem meets_command (hP : Stable P) (hs : Holds P s) (v : UInt8)
    (h : ∀ c, P c → c.ibf = none → Q { c with ibf := some (.command v) }) :
    Meets device (fun _ => Holds Q) (send cmd v) s := by
  refine (meets_waitWrite hP hs hs.prompt).seq fun _ s₁ hs₁ => ?_
  intro s₂ r s₃ hdrift ⟨hwritten, hprompt⟩
  obtain ⟨hc, hibf⟩ := (hP.taken.drift hs₁ hdrift).here
  exact ⟨hwritten ▸ h s₂.1 hc hibf, hprompt⟩

theorem meets_data (hP : Stable P) (hs : Holds P s) (v : UInt8)
    (h : ∀ c, P c → c.ibf = none → Q { c with ibf := some (.data v) }) :
    Meets device (fun _ => Holds Q) (send data v) s := by
  refine (meets_waitWrite hP hs hs.prompt).seq fun _ s₁ hs₁ => ?_
  intro s₂ r s₃ hdrift ⟨hwritten, hprompt⟩
  obtain ⟨hc, hibf⟩ := (hP.taken.drift hs₁ hdrift).here
  exact ⟨hwritten ▸ h s₂.1 hc hibf, hprompt⟩

/-- A reading of the output buffer. -/
theorem meets_inbData (hP : Stable P) (hs : Holds P s) {Q : UInt8 → Controller8042 → Prop}
    (h : ∀ b c, P c → (∀ b', c.obf = some b' → b = b') → Q b { c with obf := none }) :
    Meets device (fun b => Holds (Q b)) (inb data) s := by
  intro s₁ r s' hdrift ⟨hsame, hbyte⟩
  have hs₁ := hP.drift hs hdrift
  rw [hsame]
  exact ⟨h _ _ hs₁.here hbyte, hs₁.prompt⟩

/-! ### The stages -/

/-- The configuration, once the controller has taken what is in its input buffer. -/
def Configured (v : UInt8) (c : Controller8042) : Prop := c.taken.config = v

theorem configured_keys (c : Controller8042) (o : Option UInt8) (stray : Bool) :
    ({ c with obf := o, stray := stray } : Controller8042).taken.config = c.taken.config := by
  simp only [taken]
  cases c.ibf with
  | none => rfl
  | some i =>
      cases i with
      | command v =>
          simp only [obeys]
          split_ifs <;> rfl
      | data v =>
          simp only [obeys]
          split_ifs <;> rfl

theorem taken_ibf (c : Controller8042) : c.taken.ibf = none := by
  rw [taken]
  split
  · assumption
  · rfl

theorem taken_of_none {c : Controller8042} (h : c.ibf = none) : c.taken = c := by
  rw [taken, h]

theorem stable_configured (v : UInt8) : Stable (Configured v) := by
  intro c c' hevent hc
  cases hevent with
  | takes =>
      rw [Configured, taken_of_none (taken_ibf c)]
      exact hc
  | keyboard _ _ b => exact (configured_keys c (some b) c.stray).trans hc
  | mouse _ _ b => exact (configured_keys c (some b) _).trans hc

/-- The first port is shut; the second will be, and has not been heard of. -/
structure Shutting (v : UInt8) (empty : Bool) (c : Controller8042) : Prop where
  config : c.ibf = some (.command 0xA7) ∧ c.config = v ∨ c.ibf = none ∧ c.config = v ||| 0x20
  obf : empty = true → c.obf = none

/-- Both ports are shut, and nothing is going on. -/
structure Quiet (v : UInt8) (o : Option UInt8) (c : Controller8042) : Prop where
  config : c.config = v
  ibf : c.ibf = none
  obf : c.obf = o

/-- The configuration has been asked for. -/
structure Asked (v : UInt8) (c : Controller8042) : Prop where
  config : c.config = v
  reply : c.ibf = some (.command 0x20) ∧ c.obf = none ∨ c.ibf = none ∧ c.obf = some v

/-- The next data byte will be the configuration. -/
def Awaiting (c : Controller8042) : Prop :=
  c.ibf = some (.command 0x60) ∨ c.ibf = none ∧ c.awaiting = true

variable {v : UInt8}

theorem or_shuts1 (v : UInt8) : (v ||| 0x10) &&& 0x10 ≠ 0 := by
  rw [mask_or, ne_eq, UInt8.or_eq_zero_iff]
  exact fun h => absurd h.2 (by decide)

theorem or_shuts2 (v : UInt8) : (v ||| 0x20) &&& 0x20 ≠ 0 := by
  rw [mask_or, ne_eq, UInt8.or_eq_zero_iff]
  exact fun h => absurd h.2 (by decide)

theorem or_keeps1 (hv : v &&& 0x10 ≠ 0) : (v ||| 0x20) &&& 0x10 ≠ 0 := by
  rw [mask_or, ne_eq, UInt8.or_eq_zero_iff]
  exact fun h => hv h.1

theorem stable_shutting (hv : v &&& 0x10 ≠ 0) (empty : Bool) :
    Stable (Unless (Shutting v empty)) := by
  refine stable_unless fun c c' hevent hc => ?_
  cases hevent with
  | takes hibf =>
      rcases hc.config with ⟨hcmd, hconfig⟩ | ⟨hnone, _⟩
      · refine Or.inr ⟨Or.inr ⟨taken_ibf c, ?_⟩, fun h => ?_⟩
        · simp [taken, hcmd, obeys, hconfig]
        · simpa [taken, hcmd, obeys] using hc.obf h
      · exact absurd hnone hibf
  | keyboard hopen =>
      rcases hc.config with ⟨_, hconfig⟩ | ⟨_, hconfig⟩
      · exact absurd (show c.shut1 by rwa [shut1, hconfig]) hopen
      · exact absurd (show c.shut1 by rw [shut1, hconfig]; exact or_keeps1 hv) hopen
  | mouse hopen =>
      rcases hc.config with ⟨hcmd, _⟩ | ⟨_, hconfig⟩
      · exact Or.inl (by simp [hcmd])
      · exact absurd (show c.shut2 by rw [shut2, hconfig]; exact or_shuts2 v) hopen

theorem stable_quiet (h1 : v &&& 0x10 ≠ 0) (h2 : v &&& 0x20 ≠ 0) (o : Option UInt8) :
    Stable (Quiet v o) := by
  intro c c' hevent hc
  cases hevent with
  | takes hibf => exact absurd hc.ibf hibf
  | keyboard hopen => exact absurd (show c.shut1 by rwa [shut1, hc.config]) hopen
  | mouse hopen => exact absurd (show c.shut2 by rwa [shut2, hc.config]) hopen

theorem stable_asked (h1 : v &&& 0x10 ≠ 0) (h2 : v &&& 0x20 ≠ 0) : Stable (Asked v) := by
  intro c c' hevent hc
  cases hevent with
  | takes hibf =>
      rcases hc.reply with ⟨hcmd, _⟩ | ⟨hnone, _⟩
      · refine ⟨?_, Or.inr ⟨taken_ibf c, ?_⟩⟩
        · simp [taken, hcmd, obeys, hc.config]
        · simp [taken, hcmd, obeys, hc.config]
      · exact absurd hnone hibf
  | keyboard hopen => exact absurd (show c.shut1 by rwa [shut1, hc.config]) hopen
  | mouse hopen => exact absurd (show c.shut2 by rwa [shut2, hc.config]) hopen

theorem stable_awaiting : Stable Awaiting := by
  intro c c' hevent hc
  cases hevent with
  | takes hibf =>
      rcases hc with hcmd | ⟨hnone, _⟩
      · refine Or.inr ⟨taken_ibf c, ?_⟩
        simp [taken, hcmd, obeys]
      · exact absurd hnone hibf
  | keyboard => exact hc
  | mouse => exact hc

/-! ### `flush` and `wait_read` -/

theorem meets_flush_empty (hv : v &&& 0x10 ≠ 0) (hs : Holds (Unless (Shutting v true)) s)
    (n : Nat) : Meets device (fun _ => Holds (Unless (Shutting v true))) (flush n) s := by
  have hstable := stable_shutting hv true
  induction n generalizing s with
  | zero => exact Meets.pure hs
  | succ n ih =>
      refine (meets_status hstable hs).seq fun st s₁ ⟨hs₁, _⟩ => ?_
      split_ifs
      · exact Meets.pure hs₁
      · have hread : Meets device (fun _ => Holds (Unless (Shutting v true))) (inb data) s₁ :=
          meets_inbData hstable hs₁ fun _ c hc _ =>
            hc.imp_right fun hc => ⟨hc.config, fun _ => rfl⟩
        refine hread.seq fun _ s₂ hs₂ => ?_
        exact (meets_ioWait hstable hs₂).seq fun _ s₃ ⟨hs₃, _⟩ => ih hs₃

/-- One byte is all there can be. -/
theorem meets_flush (hv : v &&& 0x10 ≠ 0) (hs : Holds (Unless (Shutting v false)) s) (n : Nat) :
    Meets device (fun _ => Holds (Unless (Shutting v true))) (flush (n + 1)) s := by
  have hstable := stable_shutting hv false
  refine (meets_status hstable hs).seq fun st s₁ ⟨hs₁, hobf, _⟩ => ?_
  split_ifs with hst
  · have hempty : s₁.1.obf = none := by
      by_contra hne
      exact hobf.mpr hne hst
    exact Meets.pure ⟨hs₁.here.imp_right fun hc => ⟨hc.config, fun _ => hempty⟩, hs₁.prompt⟩
  · have hread : Meets device (fun _ => Holds (Unless (Shutting v true))) (inb data) s₁ :=
      meets_inbData hstable hs₁ fun _ c hc _ => hc.imp_right fun hc => ⟨hc.config, fun _ => rfl⟩
    refine hread.seq fun _ s₂ hs₂ => ?_
    exact (meets_ioWait (stable_shutting hv true) hs₂).seq fun _ s₃ ⟨hs₃, _⟩ =>
      meets_flush_empty hv hs₃ n

/-- The reply comes in time. -/
theorem meets_waitRead_asked (h1 : v &&& 0x10 ≠ 0) (h2 : v &&& 0x20 ≠ 0) {n : Nat}
    (hs : Holds (Asked v) s) (hn : s.2 < n) :
    Meets device (fun r s => r = true ∧ Holds (Quiet v (some v)) s)
      (waitRead n) s := by
  have hstable := stable_asked h1 h2
  induction n generalizing s with
  | zero => exact absurd hn (Nat.not_lt_zero _)
  | succ n ih =>
      refine (meets_status hstable hs).seq fun st s₁ ⟨hs₁, hobf, _, htime⟩ => ?_
      rcases hs₁.here.reply with ⟨hcmd, hnone⟩ | ⟨hibf, hreply⟩
      · have hst : ¬ st &&& 0x01 ≠ 0 := fun h => hobf.mp h hnone
        rw [if_neg hst]
        have hlater := htime (by rw [hcmd]; simp)
        exact (meets_ioWait hstable hs₁).seq fun _ s₂ ⟨hs₂, hsame⟩ => ih hs₂ (by omega)
      · have hst : st &&& 0x01 ≠ 0 := hobf.mpr (by rw [hreply]; simp)
        rw [if_pos hst]
        exact Meets.pure ⟨rfl, ⟨⟨hs₁.here.config, hibf, hreply⟩, hs₁.prompt⟩⟩

theorem meets_waitRead_stray (hs : Holds (fun c => c.stray = true) s) (n : Nat) :
    Meets device (fun _ => Holds fun c => c.stray = true) (waitRead n) s := by
  have hstable : Stable fun c => c.stray = true := fun _ _ => stray_mono
  induction n generalizing s with
  | zero => exact Meets.pure hs
  | succ n ih =>
      refine (meets_status hstable hs).seq fun st s₁ ⟨hs₁, _⟩ => ?_
      split_ifs
      · exact Meets.pure hs₁
      · exact (meets_ioWait hstable hs₁).seq fun _ s₂ ⟨hs₂, _⟩ => ih hs₂

/-- The reading of the configuration. -/
theorem meets_config (h1 : v &&& 0x10 ≠ 0) (h2 : v &&& 0x20 ≠ 0)
    (hs : Holds (Unless (Asked v)) s) :
    Meets device (fun b => Holds (Unless fun c => b = v ∧ Quiet v none c))
      readConfig s := by
  rcases hs.here with hstray | hc
  · have hstable : Stable fun c => c.stray = true := fun _ _ => stray_mono
    refine (meets_waitRead_stray ⟨hstray, hs.prompt⟩ rounds).seq fun r s₁ hs₁ => ?_
    split_ifs
    · exact meets_inbData hstable hs₁ fun _ c hc _ => Or.inl hc
    · exact Meets.pure ⟨Or.inl hs₁.here, hs₁.prompt⟩
  · refine (meets_waitRead_asked h1 h2 ⟨hc, hs.prompt⟩ hs.prompt).seq fun r s₁ ⟨hr, hs₁⟩ => ?_
    rw [if_pos hr]
    exact meets_inbData (stable_quiet h1 h2 (some v)) hs₁ fun b c hc hb =>
      Or.inr ⟨hb v hc.obf, hc.config, hc.ibf, rfl⟩

/-! ### `init` -/

/-- How the start-up ends, from the configuration `v`. -/
structure Initialised (v : UInt8) (r : UInt8 × UInt8) (c : Controller8042) : Prop where
  configured : Configured ((v ||| 0x21) &&& ~~~0x10) c
  read : r.1 = v ||| 0x30
  written : r.2 = (v ||| 0x21) &&& ~~~0x10

theorem config_eq (v : UInt8) :
    ((v ||| 0x10 ||| 0x20) ||| 0x01) &&& ~~~0x10 = (v ||| 0x21) &&& ~~~0x10 := by
  have hbits : ((0x10 : UInt8) &&& ~~~0x10) ||| ((0x20 &&& ~~~0x10) ||| (0x01 &&& ~~~0x10))
      = 0x21 &&& ~~~0x10 := by decide
  simp only [mask_or, UInt8.or_assoc]
  rw [hbits]

theorem meets_init {s : Controller8042 × Nat} (hs : s.2 < rounds) :
    Meets device (fun r => Holds (Unless (Initialised s.1.taken.config r))) init s := by
  have hstart : Holds (Configured s.1.taken.config) s := ⟨rfl, hs⟩
  generalize s.1.taken.config = v at *
  have h1 : (v ||| 0x10) &&& 0x10 ≠ 0 := or_shuts1 v
  have h1' : (v ||| 0x10 ||| 0x20) &&& 0x10 ≠ 0 := or_keeps1 h1
  have h2' : (v ||| 0x10 ||| 0x20) &&& 0x20 ≠ 0 := or_shuts2 _
  -- Both ports are shut.
  have hAD : Meets device (fun _ => Holds (Configured (v ||| 0x10))) (send cmd 0xAD) s :=
    meets_command (stable_configured v) hstart 0xAD fun c hc hibf => by
      rw [Configured, taken_of_none hibf] at hc
      simp [Configured, taken, obeys, hc]
  refine hAD.seq fun _ s₁ hs₁ => ?_
  have hA7 : Meets device (fun _ => Holds (Unless (Shutting (v ||| 0x10) false)))
      (send cmd 0xA7) s₁ :=
    meets_command (stable_configured _) hs₁ 0xA7 fun c hc hibf => by
      rw [Configured, taken_of_none hibf] at hc
      exact Or.inr ⟨Or.inl ⟨rfl, hc⟩, by simp⟩
  refine hA7.seq fun _ s₂ hs₂ => ?_
  refine (meets_flush h1 hs₂ 15).seq fun _ s₃ hs₃ => ?_
  -- The configuration is read.
  have h20 : Meets device (fun _ => Holds (Unless (Asked (v ||| 0x10 ||| 0x20))))
      (send cmd 0x20) s₃ :=
    meets_command (stable_shutting h1 true) hs₃ 0x20 fun c hc hibf =>
      hc.imp_right fun hc => by
        rcases hc.config with ⟨hcmd, _⟩ | ⟨_, hconfig⟩
        · rw [hibf] at hcmd
          exact absurd hcmd (by simp)
        · exact ⟨hconfig, Or.inl ⟨rfl, hc.obf rfl⟩⟩
  refine h20.seq fun _ s₄ hs₄ => ?_
  refine (meets_config h1' h2' hs₄).seq fun config s₅ hs₅ => ?_
  -- The new one is written, and the first port is opened.
  have h60 : Meets device (fun _ => Holds (Unless fun c => config = v ||| 0x10 ||| 0x20 ∧
      Awaiting c)) (send cmd 0x60) s₅ :=
    meets_command ((stable_quiet h1' h2' none).along _).unless hs₅ 0x60 fun c hc _ =>
      hc.imp_right fun hc => ⟨hc.1, Or.inl rfl⟩
  refine h60.seq fun _ s₆ hs₆ => ?_
  have hnew : ∀ w, Meets device (fun _ => Holds (Unless fun c => config = v ||| 0x10 ||| 0x20 ∧
      Configured w c)) (send data w) s₆ := fun w =>
    meets_data (stable_awaiting.along _).unless hs₆ w fun c hc hibf =>
      hc.imp_right fun hc => ⟨hc.1, by
        rcases hc.2 with hcmd | ⟨_, hawaiting⟩
        · rw [hibf] at hcmd
          exact absurd hcmd (by simp)
        · simp [Configured, taken, obeys, hawaiting]⟩
  refine (hnew _).seq fun _ s₇ hs₇ => ?_
  have hAE : Meets device (fun _ => Holds (Unless fun c => config = v ||| 0x10 ||| 0x20 ∧
      Configured (((config ||| 0x01) &&& ~~~0x10) &&& ~~~0x10) c)) (send cmd 0xAE) s₇ :=
    meets_command ((stable_configured _).along _).unless hs₇ 0xAE fun c hc hibf =>
      hc.imp_right fun hc => ⟨hc.1, by
        have hconfig := hc.2
        rw [Configured, taken_of_none hibf] at hconfig
        simp [Configured, taken, obeys, hconfig]⟩
  refine hAE.seq fun _ s₈ hs₈ => Meets.pure ⟨hs₈.here.imp_right fun ⟨hread, hconfig⟩ => ?_,
    hs₈.prompt⟩
  rw [hread, UInt8.and_assoc, UInt8.and_self, config_eq] at hconfig
  refine ⟨hconfig, ?_, ?_⟩
  · rw [hread, UInt8.or_assoc]
    rfl
  · show (config ||| 0x01) &&& ~~~0x10 = _
    rw [hread, config_eq]

end Controller8042

/--
**The start-up of the 8042 leaves the keyboard on.**  From any state of the controller, whatever
is in its buffers and whatever the keyboard sends, with a controller that takes every byte
before the driver gives up: unless the mouse has sent a byte after the command that shuts its
port was written, the configuration that is left has IRQ1 on, the first port open, the second
one shut, and everything else as the controller had it; the two bytes that are reported are the
configuration that was read and the one that was written.
-/
theorem init_configures {c : Controller8042} {n : Nat} (hn : n < rounds)
    {r : UInt8 × UInt8} {s' : Controller8042 × Nat} (hrun : Runs device init (c, n) r s') :
    s'.1.stray = true ∨ Controller8042.Initialised c.taken.config r s'.1 :=
  ((Controller8042.meets_init hn).run hrun).here

namespace Controller8042

variable {c c' : Controller8042} {n : Nat}

/-- What the status reads as. -/
def status (c : Controller8042) : UInt32 :=
  (if c.obf = none then 0 else 1) ||| (if c.ibf = none then 0 else 2)

theorem status_obf (c : Controller8042) : c.status.toUInt8 &&& 0x01 ≠ 0 ↔ c.obf ≠ none := by
  unfold status
  split_ifs with hobf <;> simp [hobf] <;> decide

theorem status_ibf (c : Controller8042) : c.status.toUInt8 &&& 0x02 ≠ 0 ↔ c.ibf ≠ none := by
  unfold status
  split_ifs with _ hibf hibf <;> simp [hibf] <;> decide

theorem drifts (hdrift : Relation.ReflTransGen Event c c') : device.drifts (c, n) (c', n) :=
  ⟨hdrift, rfl⟩

/-- A reading of the status, with nothing in the input buffer or time left. -/
theorem runs_status (hdrift : Relation.ReflTransGen Event c c') (htime : c'.ibf ≠ none → 0 < n) :
    ∃ m, Runs device (inb cmd) (c, n) c'.status.toUInt8 (c', m) := by
  have hanswer : device.answers (c', n) (.inb cmd) c'.status
      (c', if c'.ibf = none then n else n - 1) := by
    refine ⟨rfl, status_obf c', status_ibf c', fun hne => ?_, ?_⟩
    · rw [if_neg hne]
      exact (Nat.succ_pred_eq_of_pos (htime hne)).symm
    · show (if c'.ibf = none then n else n - 1) ≤ n
      split_ifs <;> omega
  exact ⟨_, .ask (drifts hdrift) hanswer .done⟩

theorem runs_waitWrite (hdrift : Relation.ReflTransGen Event c c') (hibf : c'.ibf = none) :
    ∃ m, Runs device (waitWrite rounds) (c, n) true (c', m) := by
  obtain ⟨m, hstatus⟩ := runs_status (n := n) hdrift fun hne => absurd hibf hne
  have hclear : c'.status.toUInt8 &&& 0x02 = 0 := by
    by_contra hne
    exact (status_ibf c').mp hne hibf
  refine ⟨m, show Runs device (waitWrite (0xFFFF + 1)) (c, n) true (c', m) from
    hstatus.bind ?_⟩
  rw [if_pos hclear]
  exact .done

/-- A byte that is written once the last one has been taken. -/
theorem runs_command (hdrift : Relation.ReflTransGen Event c c') (hibf : c'.ibf = none)
    (v : UInt8) {m : Nat} (hm : m < rounds) :
    Runs device (send cmd v) (c, n) () ({ c' with ibf := some (.command v) }, m) := by
  obtain ⟨k, hwait⟩ := runs_waitWrite (n := n) hdrift hibf
  have hanswer : device.answers (c', k) (.outb cmd v) 0
      ({ c' with ibf := some (.command v) }, m) := ⟨rfl, hm⟩
  exact hwait.bind (.ask (drifts .refl) hanswer .done)

theorem runs_data (hdrift : Relation.ReflTransGen Event c c') (hibf : c'.ibf = none)
    (v : UInt8) {m : Nat} (hm : m < rounds) :
    Runs device (send data v) (c, n) () ({ c' with ibf := some (.data v) }, m) := by
  obtain ⟨k, hwait⟩ := runs_waitWrite (n := n) hdrift hibf
  have hanswer : device.answers (c', k) (.outb data v) 0 ({ c' with ibf := some (.data v) }, m) :=
    ⟨rfl, hm⟩
  exact hwait.bind (.ask (drifts .refl) hanswer .done)

/-- Nothing to empty. -/
theorem runs_flush (hobf : c.obf = none) (hpos : 0 < n) :
    ∃ m, Runs device (flush 16) (c, n) () (c, m) := by
  obtain ⟨m, hstatus⟩ := runs_status (n := n) (c := c) .refl fun _ => hpos
  have hclear : c.status.toUInt8 &&& 0x01 = 0 := by
    by_contra hne
    exact (status_obf c).mp hne hobf
  refine ⟨m, show Runs device (flush (15 + 1)) (c, n) () (c, m) from hstatus.bind ?_⟩
  rw [if_pos hclear]
  exact .done

/-- A byte in the output buffer is taken for the configuration. -/
theorem runs_readConfig (hdrift : Relation.ReflTransGen Event c c') {b : UInt8}
    (hobf : c'.obf = some b) (hpos : 0 < n) :
    ∃ m, Runs device readConfig (c, n) b ({ c' with obf := none }, m) := by
  obtain ⟨m, hstatus⟩ := runs_status (n := n) hdrift fun _ => hpos
  have hset : c'.status.toUInt8 &&& 0x01 ≠ 0 := (status_obf c').mpr (by rw [hobf]; simp)
  have hwait : Runs device (waitRead rounds) (c, n) true (c', m) := by
    show Runs device (waitRead (0xFFFF + 1)) (c, n) true (c', m)
    refine hstatus.bind ?_
    rw [if_pos hset]
    exact .done
  have hself : b.toUInt32.toUInt8 = b := by simp
  have hanswer : device.answers (c', m) (.inb data) b.toUInt32 ({ c' with obf := none }, m) :=
    ⟨rfl, fun b' hb' => hself.trans (Option.some.inj (hobf.symm.trans hb'))⟩
  have hread : Runs device (inb data) (c', m) b ({ c' with obf := none }, m) := by
    refine .ask (drifts .refl) hanswer ?_
    show Runs device (.done b.toUInt32.toUInt8) _ b _
    rw [hself]
    exact .done
  exact ⟨m, hwait.bind hread⟩

theorem drift_taken (c : Controller8042) : Relation.ReflTransGen Event c c.taken := by
  by_cases hibf : c.ibf = none
  · rw [taken_of_none hibf]
  · exact .single (.takes hibf)

/-- `init`, on a controller that is at rest, with `b` in the output buffer when the configuration
is to be read. -/
theorem runs_init {b : UInt8} {c₁ c₂ : Controller8042} (hibf : c.ibf = none) (hobf : c.obf = none)
    (hshut : Relation.ReflTransGen Event { c with
      config := c.config ||| 0x10, awaiting := false, ibf := some (.command 0xA7) } c₁)
    (hibf₁ : c₁.ibf = none)
    (hreply : Relation.ReflTransGen Event { c₁ with ibf := some (.command 0x20) } c₂)
    (hobf₂ : c₂.obf = some b) :
    ∃ c' m, Runs device init (c, n) (b, (b ||| 0x01) &&& ~~~0x10) (c', m) ∧
      c'.taken.config = (b ||| 0x01) &&& ~~~0x10 := by
  have hone : 1 < rounds := by decide
  have hAD : ({ c with ibf := some (.command 0xAD) } : Controller8042).taken
      = { c with config := c.config ||| 0x10, awaiting := false } := by
    simp [taken, obeys, hibf]
  have hshut1 := runs_command (n := n) .refl hibf 0xAD hone
  have hshut2 := runs_command (n := 1) (drift_taken { c with ibf := some (.command 0xAD) })
    (taken_ibf _) 0xA7 hone
  rw [hAD] at hshut2
  obtain ⟨m, hflush⟩ := runs_flush (n := 1)
    (c := { c with config := c.config ||| 0x10, awaiting := false, ibf := some (.command 0xA7) })
    hobf Nat.one_pos
  have hask := runs_command (n := m) hshut hibf₁ 0x20 hone
  obtain ⟨k, hread⟩ := runs_readConfig (n := 1) hreply hobf₂ Nat.one_pos
  have h60 := runs_command (n := k) (drift_taken { c₂ with obf := none }) (taken_ibf _) 0x60 hone
  have hnew := runs_data (n := 1) (drift_taken { ({ c₂ with obf := none } :
    Controller8042).taken with ibf := some (.command 0x60) }) (taken_ibf _)
    ((b ||| 0x01) &&& ~~~0x10) hone
  have hAE := runs_command (n := 1) (drift_taken { ({ ({ c₂ with obf := none } :
    Controller8042).taken with ibf := some (.command 0x60) } : Controller8042).taken with
      ibf := some (.data ((b ||| 0x01) &&& ~~~0x10)) }) (taken_ibf _) 0xAE hone
  refine ⟨_, _, hshut1.bind <| hshut2.bind <| hflush.bind <| hask.bind <| hread.bind <|
    h60.bind <| hnew.bind <| hAE.bind .done, ?_⟩
  have hidem : ((b ||| 0x01) &&& ~~~0x10) &&& ~~~0x10 = (b ||| 0x01) &&& ~~~0x10 := by
    rw [UInt8.and_assoc, UInt8.and_self]
  simpa [taken, obeys] using hidem

end Controller8042

/-- A controller as it is usually found. -/
theorem init_configures_usual : ∃ r s',
    Runs device init (⟨0x47, none, none, false, false⟩, 0) r s' ∧
      (s'.1.stray = true ∨ Controller8042.Initialised 0x47 r s'.1) := by
  obtain ⟨c', m, hrun, _⟩ := Controller8042.runs_init (n := 0)
    (c := ⟨0x47, none, none, false, false⟩) rfl rfl (Controller8042.drift_taken _)
    (Controller8042.taken_ibf _) (Controller8042.drift_taken _) rfl
  exact ⟨_, _, hrun, init_configures (by decide) hrun⟩

/-- A byte that the mouse sends in time becomes the configuration. -/
theorem init_mouse {c : Controller8042} {n : Nat} (hibf : c.ibf = none) (hobf : c.obf = none)
    (hopen : ¬ c.shut2) (b : UInt8) :
    ∃ c' m, Runs device init (c, n) (b, (b ||| 0x01) &&& ~~~0x10) (c', m) ∧
      c'.taken.config = (b ||| 0x01) &&& ~~~0x10 := by
  have hkeeps : ¬ (c.config ||| 0x10) &&& 0x20 ≠ 0 := by
    rw [Ports.mask_or, ne_eq, not_not, UInt8.or_eq_zero_iff]
    exact ⟨not_not.mp hopen, by decide⟩
  have hmouse := Controller8042.Event.mouse (c := { c with
    config := c.config ||| 0x10, awaiting := false, ibf := some (.command 0xA7) }) hkeeps hobf b
  exact Controller8042.runs_init hibf hobf
    ((Relation.ReflTransGen.single hmouse).trans (Controller8042.drift_taken _))
    (Controller8042.taken_ibf _) .refl rfl

end Ps2Init

end Amaterasu
