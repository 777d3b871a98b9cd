/-
The extended capabilities: `bios_handoff` and `dump_supported_protocols` in
`hal/src/xhci.rs`.

The capabilities are a list in the controller's registers, each with the distance to the next
one, and all of them behind the one before.  One may be the firmware's, which keeps the
controller until it is asked to let go of it.  The driver asks, and waits for a second.
-/
import Amaterasu.Xhci.Waits

namespace Amaterasu

namespace Xhci

open Dialogue

/-! ### What the driver does -/

def capId (hdr : UInt32) : UInt32 := hdr &&& 0xFF

/-- The distance to the next capability, in words. -/
def nextWords (hdr : UInt32) : UInt32 := (hdr >>> 8) &&& 0xFF

def xecpWords (hccparams1 : UInt32) : UInt32 := (hccparams1 >>> 16) &&& 0xFFFF

def handoffTimeout : String := "[XHCI] BIOS handoff timeout"

def handoffDone : String := "[XHCI] BIOS handoff done"

/-- At a capability that the firmware owns, with the lines that are logged; `none` is out of
fuel. -/
def askFirmware (fuel : Nat) (mhz : UInt64) (ptr : Nat) (hdr : UInt32) :
    Driver (Option (List String)) := do
  wr32 ptr 0 (hdr ||| (1 : UInt32) <<< 24)
  match ← waitFor fuel mhz 1000000 ptr 0 fun v => v &&& (1 : UInt32) <<< 16 == 0 with
  | none => return none
  | some true => return some [handoffDone]
  | some false => return some [handoffTimeout, handoffDone]

/-- The loop of `bios_handoff`. -/
def handoffFrom (fuel : Nat) (mhz : UInt64) : Nat → Nat → Driver (Option (List String))
  | 0, _ => return none
  | n + 1, ptr => do
      let hdr ← rd32 ptr 0
      if capId hdr = 1 then
        if hdr &&& (1 : UInt32) <<< 16 = 0 then return some []
        else askFirmware fuel mhz ptr hdr
      else if nextWords hdr = 0 then return some []
      else handoffFrom fuel mhz n (ptr + (nextWords hdr).toNat * 4)

def biosHandoff (fuel : Nat) (mhz : UInt64) (n cap : Nat) : Driver (Option (List String)) := do
  let hccparams1 ← rd32 cap capHccparams1
  if xecpWords hccparams1 = 0 then return some []
  else handoffFrom fuel mhz n (cap + (xecpWords hccparams1).toNat * 4)

/-- A speed of a protocol: its id, and the exponent and the mantissa of its rate. -/
structure Psi where
  id : UInt32
  exp : UInt32
  mant : UInt32
  deriving DecidableEq, Repr

/-- What is printed of a supported protocol. -/
structure Protocol where
  major : UInt32
  minor : UInt32
  first : UInt32
  last : UInt32
  psic : UInt32
  psis : List Psi
  deriving DecidableEq, Repr

/-- How the dump ends. -/
inductive Dumped where
  | all (printed : List Protocol)
  /-- `port_off + port_cnt - 1`, of 0. -/
  | panics (printed : List Protocol)
  /-- Out of fuel. -/
  | stuck
  deriving DecidableEq, Repr

def Psi.ofWord (psi : UInt32) : Psi := ⟨psi &&& 0xF, (psi >>> 4) &&& 0x3, (psi >>> 16) &&& 0xFFFF⟩

/-- `for i in 0..psic`. -/
def readPsis (ptr : Nat) : List Nat → Driver (List Psi)
  | [] => return []
  | i :: rest => do
      let psi ← rd32 ptr (16 + i * 4)
      let psis ← readPsis ptr rest
      return .ofWord psi :: psis

/-- `port_off + port_cnt - 1`; `none` is a panic. -/
def lastPort (dw2 : UInt32) : Option UInt32 :=
  let portOff := dw2 &&& 0xFF
  let portCnt := (dw2 >>> 8) &&& 0xFF
  if portOff + portCnt = 0 then none else some (portOff + portCnt - 1)

def Protocol.ofWords (hdr dw2 last : UInt32) (psis : List Psi) : Protocol :=
  ⟨(hdr >>> 24) &&& 0xFF, (hdr >>> 16) &&& 0xFF, dw2 &&& 0xFF, last, (dw2 >>> 28) &&& 0xF, psis⟩

/-- What is printed at a capability; `none` is a panic. -/
def supportedAt (ptr : Nat) (hdr : UInt32) : Driver (Option (List Protocol)) := do
  if capId hdr = 2 then
    let dw2 ← rd32 ptr 8
    match lastPort dw2 with
    | none => return none
    | some last =>
        let psis ← readPsis ptr (List.range ((dw2 >>> 28) &&& 0xF).toNat)
        return some [.ofWords hdr dw2 last psis]
  else return some []

/-- The loop of `dump_supported_protocols`. -/
def dumpFrom : Nat → Nat → List Protocol → Driver Dumped
  | 0, _, _ => return .stuck
  | n + 1, ptr, printed => do
      let hdr ← rd32 ptr 0
      match ← supportedAt ptr hdr with
      | none => return .panics printed
      | some more =>
          if nextWords hdr = 0 then return .all (printed ++ more)
          else dumpFrom n (ptr + (nextWords hdr).toNat * 4) (printed ++ more)

def dumpSupportedProtocols (n cap : Nat) : Driver Dumped := do
  let hccparams1 ← rd32 cap capHccparams1
  if xecpWords hccparams1 = 0 then return .all []
  else dumpFrom n (cap + (xecpWords hccparams1).toNat * 4) []

/-! ### The capabilities -/

/-- The list from a capability on. -/
inductive ExtCaps (regs : Nat → UInt32) : Nat → List Nat → Prop
  | last {p : Nat} (h : nextWords (regs p) = 0) : ExtCaps regs p [p]
  | next {p : Nat} {ps : List Nat} (h : nextWords (regs p) ≠ 0)
      (hrest : ExtCaps regs (p + (nextWords (regs p)).toNat * 4) ps) : ExtCaps regs p (p :: ps)

/-- The list of a controller whose capability registers are at `cap`. -/
structure CapList (regs : Nat → UInt32) (cap : Nat) (ps : List Nat) : Prop where
  list : if xecpWords (regs (cap + capHccparams1)) = 0 then ps = []
    else ExtCaps regs (cap + (xecpWords (regs (cap + capHccparams1))).toNat * 4) ps
  /-- Behind the capability registers. -/
  behind : ∀ p ∈ ps, cap + 0x20 ≤ p

/-- The first capability of the firmware's. -/
def legacyCap (regs : Nat → UInt32) (ps : List Nat) : Option Nat :=
  ps.find? fun p => decide (capId (regs p) = 1)

/-- The two semaphores of that capability, and all that has been written. -/
structure Legacy where
  bios : Bool
  os : Bool
  written : List (Nat × UInt32)

namespace Legacy

/-- What the firmware does. -/
inductive Event : Legacy → Legacy → Prop
  | letsGo {s : Legacy} : Event s { s with bios := false }

def write (legacy : Option Nat) (s : Legacy) (addr : Nat) (v : UInt32) : Legacy where
  bios := if legacy = some addr then bit v 16 else s.bios
  os := if legacy = some addr then bit v 24 else s.os
  written := s.written ++ [(addr, v)]

/-- What a register reads: the words of the capabilities are constant, but for the semaphores
and what stands next to them. -/
structure Reads (regs : Nat → UInt32) (legacy : Option Nat) (s : Legacy) (addr : Nat) (v : UInt32) :
    Prop where
  others : legacy ≠ some addr → v = regs addr
  id : capId v = capId (regs addr)
  next : nextWords v = nextWords (regs addr)
  semaphores : legacy = some addr → bit v 16 = s.bios ∧ bit v 24 = s.os

end Legacy

def legacyDevice (regs : Nat → UInt32) (legacy : Option Nat) : Device Legacy Mmio UInt64 where
  drifts := Relation.ReflTransGen Legacy.Event
  answers s q r s' := match q with
    | .rd8 _ => s' = s
    | .rd32 addr => s' = s ∧ s.Reads regs legacy addr r.toUInt32
    | .wr32 addr v => s' = s.write legacy addr v
    | .rdtsc => s' = s

namespace Legacy

variable {regs : Nat → UInt32} {legacy : Option Nat} {inv : Legacy → Prop} {s : Legacy}

theorem stable (h : ∀ s, inv s → inv { s with bios := false }) :
    (legacyDevice regs legacy).Stable inv := by
  intro s s' hdrift hs
  induction hdrift with
  | refl => exact hs
  | tail _ hevent ih =>
      cases hevent with
      | letsGo => exact h _ ih

theorem clock (s : Legacy) (r : UInt64) (s' : Legacy)
    (h : (legacyDevice regs legacy).answers s .rdtsc r s') : s' = s := h

theorem meets_read (hstable : (legacyDevice regs legacy).Stable inv) (hs : inv s) {base off : Nat}
    {post : UInt32 → Legacy → Prop}
    (h : ∀ v s, inv s → s.Reads regs legacy (base + off) v → post v s) :
    Meets (legacyDevice regs legacy) post (rd32 base off) s := by
  intro s₁ r s' hdrift ⟨hsame, hreads⟩
  rw [hsame]
  exact h _ _ (hstable _ _ hdrift hs) hreads

/-- The capability registers are not the firmware's. -/
theorem hccparams1_eq {cap : Nat} {ps : List Nat} (hlist : CapList regs cap ps) {v : UInt32}
    (hreads : s.Reads regs (legacyCap regs ps) (cap + capHccparams1) v) :
    v = regs (cap + capHccparams1) := by
  refine hreads.others fun hlegacy => ?_
  have hmem := List.mem_of_find?_eq_some hlegacy
  have hbehind := hlist.behind _ hmem
  rw [capHccparams1] at hbehind
  omega

/-- Nothing has been written since, and the driver owns the controller if `os` says so. -/
structure Wrote (log : List (Nat × UInt32)) (os : Bool) (s : Legacy) : Prop where
  written : s.written = log
  os : os = true → s.os = true

theorem stable_wrote (log : List (Nat × UInt32)) (os : Bool) :
    (legacyDevice regs legacy).Stable (Wrote log os) :=
  stable fun _ hs => ⟨hs.written, hs.os⟩

/-- A walk over the list, which begins where HCCPARAMS1 says. -/
theorem meets_first {α : Type} {post : α → Legacy → Prop} {cap : Nat} {ps : List Nat}
    {log : List (Nat × UInt32)} {empty : Driver α} (start : Nat → Driver α)
    (hlist : CapList regs cap ps) (hs : Wrote log false s)
    (hempty : ps = [] → ∀ s, Wrote log false s →
      Meets (legacyDevice regs (legacyCap regs ps)) post empty s)
    (hstart : ∀ p s, ExtCaps regs p ps → Wrote log false s →
      Meets (legacyDevice regs (legacyCap regs ps)) post (start p) s) :
    Meets (legacyDevice regs (legacyCap regs ps)) post
      (do let hccparams1 ← rd32 cap capHccparams1
          if xecpWords hccparams1 = 0 then empty
          else start (cap + (xecpWords hccparams1).toNat * 4)) s := by
  refine Meets.bind (meets_read (stable_wrote log false) hs fun v s hs hreads => ?_)
  have hcaps := hlist.list
  rw [hccparams1_eq hlist hreads]
  by_cases hnone : xecpWords (regs (cap + capHccparams1)) = 0
  · rw [if_pos hnone] at hcaps ⊢
    exact hempty hcaps s hs
  · rw [if_neg hnone] at hcaps ⊢
    exact hstart _ s hcaps hs

/-- The request, beside the firmware's semaphore as it was read. -/
structure Asked (legacy : Option Nat) (log : List (Nat × UInt32)) (s : Legacy) : Prop where
  os : s.os = true
  written : ∃ p v, legacy = some p ∧ bit v 16 = true ∧ bit v 24 = true ∧
    s.written = log ++ [(p, v)]

/-- How the handoff has come out. -/
def Outcome (legacy : Option Nat) (log : List (Nat × UInt32)) : Option (List String) → Legacy → Prop
  | none, _ => True
  | some lines, s =>
      (lines = [] ∧ s.written = log ∧ (legacy ≠ none → s.bios = false)) ∨
      (lines = [handoffDone] ∧ s.Asked legacy log ∧ s.bios = false) ∨
      (lines = [handoffTimeout, handoffDone] ∧ s.Asked legacy log)

theorem mask16 (v : UInt32) : v &&& (1 : UInt32) <<< 16 = 0 ↔ bit v 16 = false :=
  and_eq_zero (by decide) rfl

/-- At a capability that the firmware owns. -/
theorem meets_askFirmware {p fuel : Nat} {mhz : UInt64} {log : List (Nat × UInt32)} {hdr : UInt32}
    (hlegacy : legacy = some p) (howned : bit hdr 16 = true) (hs : Wrote log false s) :
    Meets (legacyDevice regs legacy) (Outcome legacy log) (askFirmware fuel mhz p hdr) s := by
  have hkept : bit (hdr ||| (1 : UInt32) <<< 24) 16 = true := by
    rw [bit_or, howned, Bool.true_or]
  have hbit : bit (hdr ||| (1 : UInt32) <<< 24) 24 = true := by
    rw [bit_or]
    simp [show bit ((1 : UInt32) <<< 24) 24 = true from rfl]
  have hasked : ∀ s, Wrote (log ++ [(p, hdr ||| (1 : UInt32) <<< 24)]) true s →
      Asked legacy log s :=
    fun s hs => ⟨hs.os rfl, p, _, hlegacy, hkept, hbit, hs.written⟩
  have hwrite : Meets (legacyDevice regs legacy)
      (fun _ s => Wrote (log ++ [(p, hdr ||| (1 : UInt32) <<< 24)]) true s)
      (wr32 p 0 (hdr ||| (1 : UInt32) <<< 24)) s := by
    intro s₁ r s' hdrift hwritten
    have hs₁ := stable_wrote log false _ _ hdrift hs
    rw [show s' = s₁.write legacy p (hdr ||| (1 : UInt32) <<< 24) from hwritten]
    refine ⟨?_, fun _ => ?_⟩
    · show s₁.written ++ _ = _
      rw [hs₁.written]
    · show (if legacy = some p then _ else _) = true
      rw [if_pos hlegacy]
      exact hbit
  refine hwrite.seq fun _ s hs => ?_
  have hround : ∀ s, Wrote (log ++ [(p, hdr ||| (1 : UInt32) <<< 24)]) true s →
      Meets (legacyDevice regs legacy) (fun v s =>
        Wrote (log ++ [(p, hdr ||| (1 : UInt32) <<< 24)]) true s ∧
          ((v &&& (1 : UInt32) <<< 16 == 0) = true → s.bios = false)) (rd32 p 0) s := by
    intro s hs
    refine meets_read (stable_wrote _ _) hs fun v s hs hreads => ⟨hs, fun hgood => ?_⟩
    rw [← (hreads.semaphores hlegacy).1]
    exact (mask16 v).mp (beq_iff_eq.mp hgood)
  refine (meets_waitFor clock (stable_wrote _ _) hround fuel mhz 1000000 hs).seq fun r s hr => ?_
  cases r with
  | none => exact Meets.pure trivial
  | some found =>
      cases found with
      | true => exact Meets.pure (Or.inr (Or.inl ⟨rfl, hasked s hr.1, hr.2 rfl⟩))
      | false => exact Meets.pure (Or.inr (Or.inr ⟨rfl, hasked s hr.1⟩))

/-- One capability, and those behind it. -/
theorem meets_handoff_step {p fuel n : Nat} {mhz : UInt64} {log : List (Nat × UInt32)}
    (hhere : capId (regs p) = 1 → legacy = some p)
    (hrest : capId (regs p) ≠ 1 → ∀ s, Wrote log false s →
      Meets (legacyDevice regs legacy) (Outcome legacy log)
        (if nextWords (regs p) = 0 then return some []
          else handoffFrom fuel mhz n (p + (nextWords (regs p)).toNat * 4)) s)
    (hs : Wrote log false s) :
    Meets (legacyDevice regs legacy) (Outcome legacy log) (handoffFrom fuel mhz (n + 1) p) s := by
  refine Meets.bind (meets_read (stable_wrote log false) hs fun hdr s hs hreads => ?_)
  rw [hreads.id, hreads.next, Nat.add_zero]
  by_cases hid : capId (regs p) = 1
  · rw [if_pos hid]
    by_cases hfree : hdr &&& (1 : UInt32) <<< 16 = 0
    · rw [if_pos hfree]
      refine Meets.pure (Or.inl ⟨rfl, hs.written, fun _ => ?_⟩)
      rw [← (hreads.semaphores (hhere hid)).1]
      exact (mask16 hdr).mp hfree
    · rw [if_neg hfree]
      have howned := (Bool.not_eq_false _).mp (mt (mask16 hdr).mpr hfree)
      exact meets_askFirmware (hhere hid) howned hs
  · rw [if_neg hid]
    exact hrest hid s hs

/-- The loop, up to the first capability of the firmware's. -/
theorem meets_handoffFrom {p fuel : Nat} {mhz : UInt64} {log : List (Nat × UInt32)} {ps : List Nat}
    (hlist : ExtCaps regs p ps) (n : Nat) (hs : Wrote log false s) :
    legacy = legacyCap regs ps →
      Meets (legacyDevice regs legacy) (Outcome legacy log) (handoffFrom fuel mhz n p) s := by
  induction hlist generalizing n s with
  | @last p hnext =>
      intro hlegacy
      cases n with
      | zero => exact Meets.pure trivial
      | succ n =>
          refine meets_handoff_step (fun hid => ?_) (fun hid s hs => ?_) hs
          · rw [hlegacy, legacyCap, List.find?_cons_of_pos (by simpa using hid)]
          · rw [if_pos hnext]
            refine Meets.pure (Or.inl ⟨rfl, hs.written, fun hne => absurd ?_ hne⟩)
            rw [hlegacy, legacyCap, List.find?_cons_of_neg (by simpa using hid), List.find?_nil]
  | @next p ps hnext hrest ih =>
      intro hlegacy
      cases n with
      | zero => exact Meets.pure trivial
      | succ n =>
          refine meets_handoff_step (fun hid => ?_) (fun hid s hs => ?_) hs
          · rw [hlegacy, legacyCap, List.find?_cons_of_pos (by simpa using hid)]
          · rw [if_neg hnext]
            refine ih n hs ?_
            rw [hlegacy, legacyCap, List.find?_cons_of_neg (by simpa using hid)]
            rfl

theorem meets_biosHandoff {cap fuel : Nat} {mhz : UInt64} {ps : List Nat}
    (hlist : CapList regs cap ps) (n : Nat) (s : Legacy) :
    Meets (legacyDevice regs (legacyCap regs ps)) (Outcome (legacyCap regs ps) s.written)
      (biosHandoff fuel mhz n cap) s := by
  refine meets_first (handoffFrom fuel mhz n) hlist ⟨rfl, by simp⟩ (fun hnil s' hs' => ?_)
    fun p s' hcaps hs' => ?_
  · subst hnil
    exact Meets.pure (Or.inl ⟨rfl, hs'.written, fun hne => absurd rfl hne⟩)
  · exact meets_handoffFrom hcaps n hs' rfl

/-! ### It ends -/

section Timed

variable {fuel : Nat} {mhz : UInt64} (hfits : 1000000 * mhz.toNat < 2 ^ 62)
  (hfuel : 1000000 * mhz.toNat < fuel)

include hfits hfuel

theorem meets_askFirmware_timed {σ : Type} {d : Device σ Mmio UInt64} (p : Nat) (hdr : UInt32)
    (s : σ × Nat) :
    Meets (timed d) (fun r _ => r ≠ none) (askFirmware fuel mhz p hdr) s := by
  have hwait : (1000000 * mhz).toNat ≤ 1000000 * mhz.toNat := by
    rw [UInt64.toNat_mul]
    exact Nat.mod_le _ _
  refine (Meets.anything (wr32 p 0 _) s).seq fun _ s _ => ?_
  have hpoll : Meets (timed d) (fun r _ => r ≠ none) (waitFor fuel mhz 1000000 p 0
      fun v => v &&& (1 : UInt32) <<< 16 == 0) s := by
    refine (meets_deadline_timed mhz 1000000 s).seq fun dl s' h => ?_
    obtain ⟨t₀, hdl, hwithin⟩ := h
    rw [hdl]
    refine (meets_poll_timed (by omega) (by omega) hwithin p 0 _).seq fun r s'' hr => ?_
    cases r with
    | found v => exact Meets.pure (by simp)
    | late => exact Meets.pure (by simp)
    | stuck => exact absurd rfl hr
  refine hpoll.seq fun r s hr => ?_
  cases r with
  | none => exact absurd rfl hr
  | some found =>
      cases found with
      | true => exact Meets.pure (by simp)
      | false => exact Meets.pure (by simp)

theorem meets_handoffFrom_timed {p n : Nat} {ps : List Nat} (hlist : ExtCaps regs p ps)
    (hn : ps.length ≤ n) (s : Legacy × Nat) :
    Meets (timed (legacyDevice regs legacy)) (fun r _ => r ≠ none)
      (handoffFrom fuel mhz n p) s := by
  have hstep : ∀ {p n : Nat} (s : Legacy × Nat), (∀ s, Meets (timed (legacyDevice regs legacy))
      (fun r _ => r ≠ none) (if nextWords (regs p) = 0 then return some []
        else handoffFrom fuel mhz n (p + (nextWords (regs p)).toNat * 4)) s) →
      Meets (timed (legacyDevice regs legacy)) (fun r _ => r ≠ none)
        (handoffFrom fuel mhz (n + 1) p) s := by
    intro p n s hrest s₁ r s' _ ⟨⟨hsame, hreads⟩, _⟩
    show Meets _ _ (if capId r.toUInt32 = 1 then _ else _) s'
    split
    · split
      · exact Meets.pure (by simp)
      · exact meets_askFirmware_timed hfits hfuel p _ s'
    · rw [hreads.next]
      exact hrest s'
  induction hlist generalizing n s with
  | @last p hnext =>
      obtain ⟨n, rfl⟩ : ∃ m, n = m + 1 := ⟨n - 1, by simp at hn; omega⟩
      refine hstep s fun s => ?_
      rw [if_pos hnext]
      exact Meets.pure (by simp)
  | @next p ps hnext hrest ih =>
      obtain ⟨n, rfl⟩ : ∃ m, n = m + 1 := ⟨n - 1, by simp at hn; omega⟩
      refine hstep s fun s => ?_
      rw [if_neg hnext]
      exact ih (by simpa using hn) s

theorem meets_biosHandoff_timed {cap n : Nat} {ps : List Nat} (hlist : CapList regs cap ps)
    (hn : ps.length ≤ n) (s : Legacy × Nat) :
    Meets (timed (legacyDevice regs (legacyCap regs ps))) (fun r _ => r ≠ none)
      (biosHandoff fuel mhz n cap) s := by
  intro s₁ r s' _ ⟨⟨_, hreads⟩, _⟩
  have hcaps := hlist.list
  rw [← hccparams1_eq hlist hreads] at hcaps
  show Meets _ _ (if xecpWords r.toUInt32 = 0 then _ else _) s'
  split
  · exact Meets.pure (by simp)
  · rename_i hsome
    rw [if_neg hsome] at hcaps
    exact meets_handoffFrom_timed hfits hfuel hcaps hn s'

end Timed

/-- Whatever the firmware does, the driver claims the controller at the first capability that is
the firmware's and nowhere else, and only where the firmware still has it; and it comes back,
after a second at the latest. -/
theorem handoff_takes {cap : Nat} {ps : List Nat} (hlist : CapList regs cap ps) (s : Legacy)
    (fuel : Nat) (mhz : UInt64) (n : Nat) :
    (∀ r s', Runs (legacyDevice regs (legacyCap regs ps)) (biosHandoff fuel mhz n cap) s r s' →
      Outcome (legacyCap regs ps) s.written r s') ∧
    (1000000 * mhz.toNat < 2 ^ 62 → 1000000 * mhz.toNat < fuel → ps.length ≤ n →
      ∀ t r s', Runs (timed (legacyDevice regs (legacyCap regs ps)))
        (biosHandoff fuel mhz n cap) (s, t) r s' → r ≠ none) := by
  refine ⟨fun r s' hrun => (meets_biosHandoff hlist n s).run hrun, ?_⟩
  intro hfits hfuel hn t r s' hrun
  exact (meets_biosHandoff_timed hfits hfuel hlist hn (s, t)).run hrun

/-- A USB 3 protocol with a speed of its own, and the firmware's capability. -/
def twoCaps (addr : Nat) : UInt32 :=
  if addr = 0x110 then 0x00200000
  else if addr = 0x180 then 0x03000802
  else if addr = 0x188 then 0x10000401
  else if addr = 0x190 then 0x00050034
  else if addr = 0x1A0 then 0x00010001
  else 0

theorem twoCaps_list : CapList twoCaps 0x100 [0x180, 0x1A0] where
  list := .next (by decide) (.last (by decide))
  behind := by decide

theorem runs_read {base off : Nat} {v : UInt32} {s₁ : Legacy}
    (hdrift : Relation.ReflTransGen Event s s₁) (hreads : s₁.Reads regs legacy (base + off) v) :
    Runs (legacyDevice regs legacy) (rd32 base off) s v s₁ := by
  have hself : v.toUInt64.toUInt32 = v := by simp
  refine .ask (r := v.toUInt64) hdrift ⟨rfl, ?_⟩ ?_
  · rwa [hself]
  · show Runs _ (.done v.toUInt64.toUInt32) s₁ v s₁
    rw [hself]
    exact .done

/-- A register that reads as it did at first. -/
theorem reads_regs {addr : Nat} {v : UInt32} (hv : regs addr = v)
    (h : legacy = some addr → bit v 16 = s.bios ∧ bit v 24 = s.os) :
    s.Reads regs legacy addr v :=
  ⟨fun _ => hv.symm, by rw [hv], by rw [hv], h⟩

theorem runs_write {base : Nat} (v : UInt32) :
    Runs (legacyDevice regs legacy) (wr32 base 0 v) s () (s.write legacy base v) :=
  .ask (r := 0) Relation.ReflTransGen.refl rfl .done

theorem runs_deadline (mhz us : UInt64) :
    Runs (legacyDevice regs legacy) (deadlineCycles mhz us) s (0 + us * mhz) s :=
  .ask (r := 0) Relation.ReflTransGen.refl rfl .done

/-- The firmware lets go of the controller at once. -/
theorem runs_askFirmware {p : Nat} {hdr v : UInt32} {s₁ : Legacy}
    (hs₁ : s₁ = { s.write legacy p (hdr ||| (1 : UInt32) <<< 24) with bios := false })
    (hreads : s₁.Reads regs legacy p v) (hfree : v &&& (1 : UInt32) <<< 16 = 0) (fuel : Nat)
    (mhz : UInt64) :
    Runs (legacyDevice regs legacy) (askFirmware (fuel + 1) mhz p hdr) s (some [handoffDone])
      s₁ := by
  have hread : Runs (legacyDevice regs legacy) (rd32 p 0)
      (s.write legacy p (hdr ||| (1 : UInt32) <<< 24)) v s₁ :=
    runs_read (hs₁ ▸ .single .letsGo) hreads
  have hwait : Runs (legacyDevice regs legacy)
      (waitFor (fuel + 1) mhz 1000000 p 0 fun v => v &&& (1 : UInt32) <<< 16 == 0)
      (s.write legacy p (hdr ||| (1 : UInt32) <<< 24)) (some true) s₁ :=
    (runs_deadline mhz _).bind ((hread.poll (by simpa using hfree) fuel).bind .done)
  exact (runs_write _).bind (hwait.bind .done)

/-- At 3 GHz. -/
theorem handoff_takes_second :
    (∃ s', Runs (legacyDevice twoCaps (some 0x1A0)) (biosHandoff 3000000001 3000 2 0x100)
        ⟨true, false, []⟩ (some [handoffDone]) s' ∧
      Outcome (some 0x1A0) [] (some [handoffDone]) s') ∧
      ∀ t r s', Runs (timed (legacyDevice twoCaps (some 0x1A0)))
        (biosHandoff 3000000001 3000 2 0x100) (⟨true, false, []⟩, t) r s' → r ≠ none := by
  have h := handoff_takes twoCaps_list ⟨true, false, []⟩ 3000000001 3000 2
  have hask : Runs (legacyDevice twoCaps (some 0x1A0))
      (askFirmware 3000000001 3000 0x1A0 0x00010001) ⟨true, false, []⟩ (some [handoffDone])
      ⟨false, true, [(0x1A0, 0x01010001)]⟩ :=
    runs_askFirmware (v := 0x01000001) rfl ⟨by decide, by decide, by decide, by decide⟩
      (by decide) 3000000000 3000
  have hrun : Runs (legacyDevice twoCaps (some 0x1A0)) (biosHandoff 3000000001 3000 2 0x100)
      ⟨true, false, []⟩ (some [handoffDone]) ⟨false, true, [(0x1A0, 0x01010001)]⟩ := by
    refine (runs_read .refl (reads_regs (v := 0x00200000) (by decide) (by decide))).bind ?_
    refine (runs_read .refl (reads_regs (v := 0x03000802) (by decide) (by decide))).bind ?_
    exact (runs_read .refl (reads_regs (v := 0x00010001) (by decide) (by decide))).bind hask
  exact ⟨⟨_, hrun, h.1 _ _ hrun⟩, h.2 (by decide) (by decide) (by decide)⟩

/-! ### The dump -/

/-- What is to be printed of the capability at `p`; `none` where its last port is of no number. -/
def supported (regs : Nat → UInt32) (p : Nat) : Option (List Protocol) :=
  if capId (regs p) = 2 then
    (lastPort (regs (p + 8))).map fun last =>
      [.ofWords (regs p) (regs (p + 8)) last ((List.range ((regs (p + 8) >>> 28) &&& 0xF).toNat).map
        fun i => .ofWord (regs (p + (16 + i * 4))))]
  else some []

/-- No capability begins inside a supported protocol's. -/
def Apart (regs : Nat → UInt32) (ps : List Nat) : Prop :=
  ∀ p ∈ ps, capId (regs p) = 2 → ∀ q ∈ ps, p < q →
    p + 16 + ((regs (p + 8) >>> 28) &&& 0xF).toNat * 4 ≤ q

/-- A supported protocol's words are not the firmware's. -/
def Clear (regs : Nat → UInt32) (legacy : Option Nat) (p : Nat) : Prop :=
  capId (regs p) = 2 → ∀ off, off < 16 + ((regs (p + 8) >>> 28) &&& 0xF).toNat * 4 →
    legacy ≠ some (p + off)

theorem clear_of_apart {ps : List Nat} (h : Apart regs ps) {p : Nat} (hp : p ∈ ps) :
    Clear regs (legacyCap regs ps) p := by
  intro hid off hoff hlegacy
  have hmem := List.mem_of_find?_eq_some hlegacy
  have hone := List.find?_some hlegacy
  cases off with
  | zero =>
      rw [decide_eq_true_eq, Nat.add_zero, hid] at hone
      exact absurd hone (by decide)
  | succ off =>
      have hbehind := h p hp hid _ hmem (by omega)
      omega

/-- How the dump of the capabilities `ps` ends, with `before` printed already. -/
def Listed (regs : Nat → UInt32) (ps : List Nat) (before : List Protocol) : Dumped → Prop
  | .all printed => ∃ each, ps.mapM (supported regs) = some each ∧ printed = before ++ each.flatten
  | .panics printed => ∃ front p back each, ps = front ++ p :: back ∧ supported regs p = none ∧
      front.mapM (supported regs) = some each ∧ printed = before ++ each.flatten
  | .stuck => False

theorem listed_cons {p : Nat} {ps : List Nat} {before more : List Protocol} {r : Dumped}
    (hp : supported regs p = some more) (h : Listed regs ps (before ++ more) r) :
    Listed regs (p :: ps) before r := by
  cases r with
  | all printed =>
      obtain ⟨each, heach, hprinted⟩ := h
      exact ⟨more :: each, by simp [List.mapM_cons, hp, heach], by simp [hprinted]⟩
  | panics printed =>
      obtain ⟨front, q, back, each, hps, hq, heach, hprinted⟩ := h
      refine ⟨p :: front, q, back, more :: each, by simp [hps], hq, ?_, by simp [hprinted]⟩
      simp [List.mapM_cons, hp, heach]
  | stuck => exact h

theorem meets_readPsis {log : List (Nat × UInt32)} {p : Nat} {is : List Nat}
    (hclear : ∀ i ∈ is, legacy ≠ some (p + (16 + i * 4))) (hs : Wrote log false s) :
    Meets (legacyDevice regs legacy)
      (fun psis s => psis = (is.map fun i => .ofWord (regs (p + (16 + i * 4)))) ∧ Wrote log false s)
      (readPsis p is) s := by
  induction is generalizing s with
  | nil => exact Meets.pure ⟨rfl, hs⟩
  | cons i is ih =>
      refine Meets.bind (meets_read (stable_wrote _ _) hs fun psi s hs hreads => ?_)
      have hrest := ih (fun j hj => hclear j (List.mem_cons_of_mem _ hj)) hs
      refine hrest.seq fun psis s h => Meets.pure ⟨?_, h.2⟩
      rw [hreads.others (hclear i List.mem_cons_self), h.1, List.map_cons]

theorem meets_supportedAt {log : List (Nat × UInt32)} {p : Nat} {hdr : UInt32}
    (hclear : Clear regs legacy p) (hhdr : Reads regs legacy s p hdr) (hs : Wrote log false s) :
    Meets (legacyDevice regs legacy) (fun r s => r = supported regs p ∧ Wrote log false s)
      (supportedAt p hdr) s := by
  rw [supportedAt, supported, hhdr.id]
  by_cases hid : capId (regs p) = 2
  · rw [if_pos hid, if_pos hid]
    refine Meets.bind (meets_read (stable_wrote _ _) hs fun dw2 s hs hreads => ?_)
    rw [hhdr.others (hclear hid 0 (by omega)), hreads.others (hclear hid 8 (by omega))]
    cases lastPort (regs (p + 8)) with
    | none => exact Meets.pure ⟨rfl, hs⟩
    | some last =>
        refine (meets_readPsis (fun i hi => ?_) hs).seq fun psis s h => Meets.pure ⟨?_, h.2⟩
        · have hlt := List.mem_range.mp hi
          exact hclear hid _ (by omega)
        · rw [h.1, Option.map_some]
  · rw [if_neg hid, if_neg hid]
    exact Meets.pure ⟨rfl, hs⟩

/-- One capability, and those behind it. -/
theorem meets_dump_step {log : List (Nat × UInt32)} {p n : Nat} {ps : List Nat}
    {before : List Protocol} (hclear : Clear regs legacy p)
    (hrest : ∀ before s, Wrote log false s → Meets (legacyDevice regs legacy)
      (fun r s => Listed regs ps before r ∧ Wrote log false s)
      (if nextWords (regs p) = 0 then return .all before
        else dumpFrom n (p + (nextWords (regs p)).toNat * 4) before) s)
    (hs : Wrote log false s) :
    Meets (legacyDevice regs legacy) (fun r s => Listed regs (p :: ps) before r ∧ Wrote log false s)
      (dumpFrom (n + 1) p before) s := by
  refine Meets.bind (meets_read (stable_wrote _ _) hs fun hdr s hs hreads => ?_)
  rw [hreads.next]
  refine (meets_supportedAt hclear hreads hs).seq fun r s h => ?_
  obtain ⟨hr, hs⟩ := h
  cases r with
  | none => exact Meets.pure ⟨⟨[], p, ps, [], rfl, hr.symm, rfl, by simp⟩, hs⟩
  | some more => exact (hrest _ s hs).mono fun r s h => ⟨listed_cons hr.symm h.1, h.2⟩

theorem meets_dumpFrom {log : List (Nat × UInt32)} {p n : Nat} {ps : List Nat}
    {before : List Protocol} (hlist : ExtCaps regs p ps) (hclear : ∀ q ∈ ps, Clear regs legacy q)
    (hn : ps.length ≤ n) (hs : Wrote log false s) :
    Meets (legacyDevice regs legacy) (fun r s => Listed regs ps before r ∧ Wrote log false s)
      (dumpFrom n p before) s := by
  induction hlist generalizing n before s with
  | @last p hnext =>
      obtain ⟨n, rfl⟩ : ∃ m, n = m + 1 := ⟨n - 1, by simp at hn; omega⟩
      refine meets_dump_step (hclear _ List.mem_cons_self) (fun before s hs => ?_) hs
      rw [if_pos hnext]
      exact Meets.pure ⟨⟨[], rfl, by simp⟩, hs⟩
  | @next p ps hnext hrest ih =>
      obtain ⟨n, rfl⟩ : ∃ m, n = m + 1 := ⟨n - 1, by simp at hn; omega⟩
      refine meets_dump_step (hclear _ List.mem_cons_self) (fun before s hs => ?_) hs
      rw [if_neg hnext]
      exact ih (fun q hq => hclear q (List.mem_cons_of_mem _ hq)) (by simpa using hn) hs

theorem meets_dumpSupportedProtocols {cap n : Nat} {ps : List Nat} (hlist : CapList regs cap ps)
    (hapart : Apart regs ps) (hn : ps.length ≤ n) (s : Legacy) :
    Meets (legacyDevice regs (legacyCap regs ps))
      (fun r s' => Listed regs ps [] r ∧ Wrote s.written false s')
      (dumpSupportedProtocols n cap) s := by
  refine meets_first (fun p => dumpFrom n p []) hlist ⟨rfl, by simp⟩ (fun hnil s' hs' => ?_)
    fun p s' hcaps hs' => ?_
  · subst hnil
    exact Meets.pure ⟨⟨[], rfl, rfl⟩, hs'⟩
  · exact meets_dumpFrom hcaps (fun q hq => clear_of_apart hapart hq) hn hs'

/-- What is printed is what the capabilities say, in their order, up to the first whose last port
is of no number: there it panics.  Nothing is written. -/
theorem dump_lists {cap n : Nat} {ps : List Nat} (hlist : CapList regs cap ps)
    (hapart : Apart regs ps) (hn : ps.length ≤ n) (s : Legacy) (r : Dumped) (s' : Legacy)
    (hrun : Runs (legacyDevice regs (legacyCap regs ps)) (dumpSupportedProtocols n cap) s r s') :
    Listed regs ps [] r ∧ s'.written = s.written :=
  have h := (meets_dumpSupportedProtocols hlist hapart hn s).run hrun
  ⟨h.1, h.2.written⟩

theorem twoCaps_apart : Apart twoCaps [0x180, 0x1A0] := by
  unfold Apart
  decide

/-- Ports 1 to 4 at 5 Gb/s. -/
theorem dump_lists_two :
    Runs (legacyDevice twoCaps (some 0x1A0)) (dumpSupportedProtocols 2 0x100)
        ⟨true, false, []⟩ (.all [⟨3, 0, 1, 4, 1, [⟨4, 3, 5⟩]⟩]) ⟨true, false, []⟩ ∧
      Listed twoCaps [0x180, 0x1A0] [] (.all [⟨3, 0, 1, 4, 1, [⟨4, 3, 5⟩]⟩]) := by
  have hpsis : Runs (legacyDevice twoCaps (some 0x1A0)) (readPsis 0x180 [0])
      ⟨true, false, []⟩ [⟨4, 3, 5⟩] ⟨true, false, []⟩ :=
    (runs_read .refl (reads_regs (v := 0x00050034) (by decide) (by decide))).bind .done
  have hsupported : Runs (legacyDevice twoCaps (some 0x1A0)) (supportedAt 0x180 0x03000802)
      ⟨true, false, []⟩ (some [⟨3, 0, 1, 4, 1, [⟨4, 3, 5⟩]⟩]) ⟨true, false, []⟩ :=
    (runs_read .refl (reads_regs (v := 0x10000401) (by decide) (by decide))).bind
      (hpsis.bind .done)
  have hrun : Runs (legacyDevice twoCaps (some 0x1A0)) (dumpSupportedProtocols 2 0x100)
      ⟨true, false, []⟩ (.all [⟨3, 0, 1, 4, 1, [⟨4, 3, 5⟩]⟩]) ⟨true, false, []⟩ := by
    refine (runs_read .refl (reads_regs (v := 0x00200000) (by decide) (by decide))).bind ?_
    refine (runs_read .refl (reads_regs (v := 0x03000802) (by decide) (by decide))).bind ?_
    refine hsupported.bind ?_
    exact (runs_read .refl (reads_regs (v := 0x00010001) (by decide) (by decide))).bind .done
  exact ⟨hrun, (dump_lists twoCaps_list twoCaps_apart (by decide) _ _ _ hrun).1⟩

end Legacy

end Xhci

end Amaterasu
