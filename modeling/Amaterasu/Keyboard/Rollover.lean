/-
Rollover: more keys held than a boot report has slots.

While more than six keys are held the keyboard reports `0x01` in all slots.  The decoder
skips the code but keeps the report as the previous one, so that it no longer knows which
keys were held: when the keyboard lists them again, all of them look new.  What a press
has emitted is counted here key by key, next to what the reports have told about it.
-/
import Amaterasu.Lib.Run
import Amaterasu.Keyboard.Reports

namespace Amaterasu

namespace Keyboard

/-! ### What a slot emits -/

/-- Usages of keys that are no modifiers. -/
def IsKey (u : UInt8) : Prop := 4 ≤ u ∧ u < 0xE0

instance (u : UInt8) : Decidable (IsKey u) := inferInstanceAs (Decidable (_ ∧ _))

/-- Neither an empty slot nor the rollover code is a key. -/
theorem IsKey.ne_zero {u : UInt8} (h : IsKey u) : u ≠ 0 := by
  rintro rfl
  exact absurd h (by decide)

theorem IsKey.ne_rollover {u : UInt8} (h : IsKey u) : u ≠ 0x01 := by
  rintro rfl
  exact absurd h (by decide)

/-- The decoder has a use for a usage. -/
def Decodes (u : UInt8) : Prop :=
  u = 0x39 ∨ (hidNavigation u).isSome = true ∨ hidToAscii u false false ≠ 0

instance (u : UInt8) : Decidable (Decodes u) := inferInstanceAs (Decidable (_ ∨ _))

/-- The bytes a slot pushes and its toggle of Caps Lock, counted together. -/
def emitted (caps : Bool) (r : Bool × List UInt8) : Nat :=
  r.2.length + if r.1 = caps then 0 else 1

theorem emitted_hidKey (u : UInt8) (shift ctrl caps : Bool) :
    emitted caps (hidKey shift ctrl caps u) = if Decodes u then 1 else 0 := by
  have hall : ∀ (n : Fin 256) (shift ctrl caps : Bool),
      emitted caps (hidKey shift ctrl caps (UInt8.ofFin n))
        = if Decodes (UInt8.ofFin n) then 1 else 0 := by
    decide +kernel
  exact hall u.toFin shift ctrl caps

/-- What a report emits for a usage. -/
def emits (k : Keyboard) (report : HidReport) (u : UInt8) : Nat :=
  (slots report).count u * emitted k.hidCapsLock (hidRound k report u)

theorem emitted_hidRound (k : Keyboard) (report : HidReport) (u : UInt8) :
    emitted k.hidCapsLock (hidRound k report u)
      = if u ∉ k.hidPrev ∧ Decodes u then 1 else 0 := by
  rw [hidRound_eq]
  by_cases hprev : u ∈ k.hidPrev
  · rw [if_pos hprev, if_neg fun h => h.1 hprev]
    simp [emitted]
  · rw [if_neg hprev, emitted_hidKey]
    simp [hprev]

/-- A report that lists the keys held emits what is new among them. -/
theorem emits_lists {k : Keyboard} {held : List UInt8} {report : HidReport}
    (hnodup : held.Nodup) (hkeys : ∀ u ∈ held, IsKey u) (h : Lists held report) (u : UInt8) :
    emits k report u = if u ∈ held ∧ u ∉ k.hidPrev ∧ Decodes u then 1 else 0 := by
  unfold emits
  rw [emitted_hidRound, List.Perm.count_eq h, List.count_append, List.count_replicate]
  by_cases hmem : u ∈ held
  · have hzero : ¬ ((0 : UInt8) == u) = true := by
      intro h0
      exact (hkeys u hmem).ne_zero (eq_of_beq h0).symm
    rw [List.count_eq_one_of_mem hnodup hmem, if_neg hzero]
    simp [hmem]
  · rw [List.count_eq_zero_of_not_mem hmem]
    by_cases hzero : ((0 : UInt8) == u) = true
    · rw [← eq_of_beq hzero]
      have hdecodes : ¬ Decodes 0 := by decide
      simp [hdecodes]
    · simp [hzero, hmem]

/-- Only Caps Lock toggles. -/
theorem hidKey_fst (u : UInt8) (shift ctrl caps : Bool) :
    (hidKey shift ctrl caps u).1 = if u = 0x39 then !caps else caps := by
  have hall : ∀ (n : Fin 256) (shift ctrl caps : Bool),
      (hidKey shift ctrl caps (UInt8.ofFin n)).1
        = if UInt8.ofFin n = 0x39 then !caps else caps := by
    decide +kernel
  exact hall u.toFin shift ctrl caps

theorem hidRound_fst (k : Keyboard) (report : HidReport) (u : UInt8) :
    (hidRound k report u).1 = k.hidCapsLock ↔ ¬ (u = 0x39 ∧ u ∉ k.hidPrev) := by
  rw [hidRound_eq]
  by_cases hprev : u ∈ k.hidPrev
  · simp [hprev]
  · rw [if_neg hprev, hidKey_fst]
    split
    · rename_i hcaps
      rw [hcaps] at hprev
      simp [hcaps, hprev]
    · rename_i hcaps
      simp [hcaps]

theorem sum_map_ite_eq {l : List UInt8} (hnodup : l.Nodup) (a : UInt8) (p : Prop) [Decidable p] :
    (l.map fun u => if u = a ∧ p then 1 else 0).sum = if a ∈ l ∧ p then 1 else 0 := by
  induction l with
  | nil => simp
  | cons u rest ih =>
      obtain ⟨hnew, hrest⟩ := List.nodup_cons.mp hnodup
      rw [List.map_cons, List.sum_cons, ih hrest]
      by_cases hu : u = a
      · rw [hu] at hnew ⊢
        simp [hnew]
      · simp [hu, Ne.symm hu]

/-- Empty slots send nothing: the bytes are those of the keys listed. -/
theorem length_processHidReport {k : Keyboard} {held : List UInt8} {report : HidReport}
    (h : Lists held report) :
    (k.processHidReport report).2.length
      = (held.map fun u => (hidRound k report u).2.length).sum := by
  have hzeros :
      ∀ n, ((List.replicate n 0).map fun u => (hidRound k report u).2.length).sum = 0 := by
    intro n
    rw [List.map_replicate, List.sum_replicate, hidRound_eq, hidKey_zero]
    simp
  rw [processHidReport_eq, List.length_flatMap, (List.Perm.map _ h).sum_eq, List.map_append,
    List.sum_append, hzeros, Nat.add_zero]

/-- Caps Lock is kept unless its key is listed anew. -/
theorem processHidReport_capsLock {k : Keyboard} {held : List UInt8} {report : HidReport}
    (h : Lists held report) :
    (k.processHidReport report).1.hidCapsLock = k.hidCapsLock ↔
      ¬ (0x39 ∈ held ∧ 0x39 ∉ k.hidPrev) := by
  have hall : (∀ u ∈ slots report, (hidRound k report u).1 = k.hidCapsLock) ↔
      ¬ (0x39 ∈ held ∧ 0x39 ∉ k.hidPrev) := by
    rw [← h.mem_iff (by decide)]
    constructor
    · rintro hall ⟨hmem, hprev⟩
      exact (hidRound_fst k report _).mp (hall _ hmem) ⟨rfl, hprev⟩
    · intro hnot u hu
      rw [hidRound_fst]
      rintro ⟨rfl, hprev⟩
      exact hnot ⟨hu, hprev⟩
  rw [processHidReport_eq]
  dsimp only
  rw [← hall]
  split
  · rename_i hquiet
    exact iff_of_true rfl hquiet
  · rename_i hquiet
    exact iff_of_false (by simp) hquiet

/-- A key listed once counts once. -/
theorem emits_of_mem {k : Keyboard} {held : List UInt8} {report : HidReport} {u : UInt8}
    (hnodup : held.Nodup) (hkey : IsKey u) (h : Lists held report) (hu : u ∈ held) :
    emits k report u = (hidRound k report u).2.length
      + if u = 0x39 ∧ 0x39 ∉ k.hidPrev then 1 else 0 := by
  have hcount : (slots report).count u = 1 := by
    rw [List.Perm.count_eq h, List.count_append, List.count_eq_one_of_mem hnodup hu,
      List.count_replicate, if_neg]
    intro hzero
    exact hkey.ne_zero (eq_of_beq hzero).symm
  unfold emits emitted
  rw [hcount, Nat.one_mul]
  congr 1
  by_cases hcaps : u = 0x39
  · rw [hcaps]
    simp only [hidRound_fst]
    simp
  · simp [hidRound_fst, hcaps]

/-- Counted over the keys it lists, these are the bytes and the toggle of the report. -/
theorem emits_total {k : Keyboard} {held : List UInt8} {report : HidReport}
    (hnodup : held.Nodup) (hkeys : ∀ u ∈ held, IsKey u) (h : Lists held report) :
    (k.processHidReport report).2.length
        + (if (k.processHidReport report).1.hidCapsLock = k.hidCapsLock then 0 else 1)
      = (held.map (emits k report)).sum := by
  have hsum : (held.map (emits k report)).sum
      = (held.map fun u => (hidRound k report u).2.length
          + if u = 0x39 ∧ 0x39 ∉ k.hidPrev then 1 else 0).sum :=
    congrArg List.sum
      (List.map_congr_left fun u hu => emits_of_mem hnodup (hkeys u hu) h hu)
  rw [hsum, List.sum_map_add, sum_map_ite_eq hnodup, length_processHidReport h]
  simp only [processHidReport_capsLock h, ite_not]

/-- The phantom report emits nothing. -/
theorem emits_phantom {k : Keyboard} {report : HidReport}
    (h : slots report = List.replicate 6 0x01) (u : UInt8) : emits k report u = 0 := by
  unfold emits
  rw [emitted_hidRound, h, List.count_replicate]
  by_cases hone : ((0x01 : UInt8) == u) = true
  · rw [← eq_of_beq hone]
    have hdecodes : ¬ Decodes 0x01 := by decide
    simp [hdecodes]
  · simp [hone]

end Keyboard

/-! ### Histories -/

inductive UsageEvent
  | press (u : UInt8)
  | release (u : UInt8)
  deriving DecidableEq, Repr

/-- The decoder, the keys held, and what became of their presses. -/
structure Chord where
  keyboard : Keyboard
  held : List UInt8
  /-- The held keys that a report has listed since they were pressed. -/
  listed : List UInt8
  /-- The bytes and toggles of the last press of each key. -/
  emissions : UInt8 → Nat

namespace Chord

def boot : Chord := ⟨Keyboard.boot, [], [], fun _ => 0⟩

def heldAfter (held : List UInt8) : UsageEvent → Option (List UInt8)
  | .press u => if Keyboard.IsKey u ∧ u ∉ held then some (u :: held) else none
  | .release u => if u ∈ held then some (held.erase u) else none

/-- The report of the keys held: a list of them, or the phantom state. -/
def Reports (held : List UInt8) (report : HidReport) : Prop :=
  if held.length ≤ 6 then Keyboard.Lists held report
  else Keyboard.slots report = List.replicate 6 0x01

instance (held : List UInt8) (report : HidReport) : Decidable (Reports held report) := by
  unfold Reports Keyboard.Lists
  exact inferInstance

/-- An event and the report that follows it. -/
def next (s : Chord) (e : UsageEvent × HidReport) : Option Chord :=
  (heldAfter s.held e.1).bind fun held =>
    if Reports held e.2 then
      some
        { keyboard := (s.keyboard.processHidReport e.2).1
          held := held
          listed := if held.length ≤ 6 then held else s.listed.filter (· ∈ held)
          emissions := fun u =>
            (if e.1 = .press u then 0 else s.emissions u) + s.keyboard.emits e.2 u }
    else none

/-- When the keyboard lists its keys again, it lists none it had listed before. -/
def Fresh (s : Chord) (event : UsageEvent) : Prop :=
  ∀ held, heldAfter s.held event = some held → 6 < s.held.length → held.length ≤ 6 →
    ∀ u ∈ held, u ∈ s.listed → ¬ Keyboard.Decodes u

instance (s : Chord) (event : UsageEvent) : Decidable (s.Fresh event) :=
  inferInstanceAs (Decidable (∀ held, held ∈ heldAfter s.held event → _))

/-- Every press has emitted once at most. -/
def Once (s : Chord) : Prop := ∀ u, s.emissions u ≤ 1

/-! ### The invariant -/

/-- What the decoder and the reports know of the keys held. -/
structure Counted (s : Chord) : Prop where
  nodup : s.held.Nodup
  keys : ∀ u ∈ s.held, Keyboard.IsKey u
  listed : ∀ u ∈ s.listed, u ∈ s.held
  few : s.held.length ≤ 6 →
    (∀ u ∈ s.held, u ∈ s.listed) ∧ ∀ u, u ≠ 0 → (u ∈ s.keyboard.hidPrev ↔ u ∈ s.held)
  many : 6 < s.held.length → s.keyboard.hidPrev = List.replicate 6 0x01
  emissions : ∀ u ∈ s.held,
    s.emissions u = if u ∈ s.listed ∧ Keyboard.Decodes u then 1 else 0
  once : s.Once

theorem boot_counted : boot.Counted := by
  refine ⟨List.nodup_nil, by simp [boot], by simp [boot], fun _ => ⟨by simp [boot], ?_⟩,
    by simp [boot], by simp [boot], fun u => Nat.zero_le 1⟩
  intro u hu
  simp [boot, Keyboard.boot, hu]

/-- What an event does to the keys held. -/
theorem heldAfter_cases {s : Chord} (h : s.Counted) {event : UsageEvent} {held : List UInt8}
    (hheld : heldAfter s.held event = some held) :
    (held.Nodup ∧ ∀ u ∈ held, Keyboard.IsKey u) ∧
    (∀ u ∈ held, u ∈ s.held ∨ event = .press u) ∧
      (∀ u, event = .press u → u ∈ held ∧ u ∉ s.held) := by
  rcases event with v | v
  · dsimp only [heldAfter] at hheld
    split at hheld
    · rename_i hnew
      rw [← Option.some.inj hheld]
      refine ⟨⟨List.nodup_cons.mpr ⟨hnew.2, h.nodup⟩, ?_⟩, ?_, ?_⟩
      · intro u hu
        rcases List.mem_cons.mp hu with rfl | hu
        · exact hnew.1
        · exact h.keys u hu
      · intro u hu
        rcases List.mem_cons.mp hu with rfl | hu
        · exact Or.inr rfl
        · exact Or.inl hu
      · intro u hu
        rw [← UsageEvent.press.inj hu]
        exact ⟨List.mem_cons_self, hnew.2⟩
    · exact absurd hheld (by simp)
  · dsimp only [heldAfter] at hheld
    split at hheld
    · rw [← Option.some.inj hheld]
      refine ⟨⟨h.nodup.erase v, fun u hu => h.keys u (List.mem_of_mem_erase hu)⟩,
        fun u hu => Or.inl (List.mem_of_mem_erase hu), ?_⟩
      intro u hu
      exact absurd hu (by simp)
    · exact absurd hheld (by simp)

/-! ### One event -/

variable {s s' : Chord} {event : UsageEvent} {report : HidReport} {held : List UInt8}

/-- The state after an event. -/
theorem next_cases (hnext : s.next (event, report) = some s') :
    ∃ held, heldAfter s.held event = some held ∧ Reports held report ∧ s' =
      { keyboard := (s.keyboard.processHidReport report).1
        held := held
        listed := if held.length ≤ 6 then held else s.listed.filter (· ∈ held)
        emissions := fun u =>
          (if event = .press u then 0 else s.emissions u) + s.keyboard.emits report u } := by
  obtain ⟨held, hheld, hnext⟩ := Option.bind_eq_some_iff.mp hnext
  dsimp only at hheld hnext
  split at hnext
  · rename_i hreport
    exact ⟨held, hheld, hreport, (Option.some.inj hnext).symm⟩
  · exact absurd hnext (by simp)

/-- What a report of few keys emits. -/
theorem Counted.emits (h : s.Counted) (hheld : heldAfter s.held event = some held)
    (hfew : held.length ≤ 6) (hreport : Reports held report) (u : UInt8) :
    s.keyboard.emits report u
      = if u ∈ held ∧ u ∉ s.keyboard.hidPrev ∧ Keyboard.Decodes u then 1 else 0 := by
  unfold Reports at hreport
  rw [if_pos hfew] at hreport
  obtain ⟨⟨hnodup, hkeys⟩, -⟩ := heldAfter_cases h hheld
  exact Keyboard.emits_lists hnodup hkeys hreport u

/-- More than six keys held: the phantom report hides all of them. -/
theorem Counted.phantom (h : s.Counted) (hheld : heldAfter s.held event = some held)
    (hmany : 6 < held.length) (hreport : Reports held report) :
    Counted
      { keyboard := (s.keyboard.processHidReport report).1
        held := held
        listed := s.listed.filter (· ∈ held)
        emissions := fun u =>
          (if event = .press u then 0 else s.emissions u) + s.keyboard.emits report u } := by
  obtain ⟨⟨hnodup, hkeys⟩, hfrom, hpress⟩ := heldAfter_cases h hheld
  unfold Reports at hreport
  rw [if_neg (by omega)] at hreport
  have hquiet := Keyboard.emits_phantom (k := s.keyboard) hreport
  refine ⟨hnodup, hkeys, ?_, fun hfew => absurd hfew (Nat.not_le.mpr hmany), ?_, ?_, ?_⟩
  · intro u hu
    simpa using (List.mem_filter.mp hu).2
  · intro _
    rw [Keyboard.processHidReport_eq]
    exact hreport
  · intro u hu
    dsimp only
    rw [hquiet, Nat.add_zero]
    split
    · rename_i hevent
      rw [if_neg]
      intro hlisted
      exact (hpress u hevent).2 (h.listed u (List.mem_filter.mp hlisted.1).1)
    · rename_i hevent
      rw [h.emissions u ((hfrom u hu).resolve_right hevent)]
      simp [hu]
  · intro u
    dsimp only
    rw [hquiet, Nat.add_zero]
    split
    · exact Nat.zero_le 1
    · exact h.once u

/-- With a fresh list, every key held that decodes has emitted once. -/
theorem Counted.counts {u : UInt8} (h : s.Counted) (hheld : heldAfter s.held event = some held)
    (hfew : held.length ≤ 6) (hreport : Reports held report) (hfresh : s.Fresh event)
    (hu : u ∈ held) :
    (if event = .press u then 0 else s.emissions u) + s.keyboard.emits report u
      = if Keyboard.Decodes u then 1 else 0 := by
  obtain ⟨⟨_, hkeys⟩, hfrom, hpress⟩ := heldAfter_cases h hheld
  have hkey := hkeys u hu
  rw [h.emits hheld hfew hreport]
  by_cases hmany : 6 < s.held.length
  · have hprev : u ∉ s.keyboard.hidPrev := by
      rw [h.many hmany, List.mem_replicate]
      exact fun hmem => hkey.ne_rollover hmem.2
    have hbefore : (if event = .press u then 0 else s.emissions u) = 0 := by
      split
      · rfl
      · rename_i hevent
        rw [h.emissions u ((hfrom u hu).resolve_right hevent), if_neg]
        rintro ⟨hlisted, hdecodes⟩
        exact hfresh held hheld hmany hfew u hu hlisted hdecodes
    rw [hbefore]
    simp [hu, hprev]
  · obtain ⟨hlisted, hprev⟩ := h.few (Nat.le_of_not_lt hmany)
    by_cases hevent : event = .press u
    · have hnew : u ∉ s.keyboard.hidPrev := by
        rw [hprev u hkey.ne_zero]
        exact (hpress u hevent).2
      rw [if_pos hevent]
      simp [hu, hnew]
    · have hold := (hfrom u hu).resolve_right hevent
      have hmem := (hprev u hkey.ne_zero).mpr hold
      rw [if_neg hevent, h.emissions u hold]
      simp [hlisted u hold, hmem]

/-- Six keys held at most: the report lists them. -/
theorem Counted.list (h : s.Counted) (hheld : heldAfter s.held event = some held)
    (hfew : held.length ≤ 6) (hreport : Reports held report) (hfresh : s.Fresh event) :
    Counted
      { keyboard := (s.keyboard.processHidReport report).1
        held := held
        listed := held
        emissions := fun u =>
          (if event = .press u then 0 else s.emissions u) + s.keyboard.emits report u } := by
  obtain ⟨⟨hnodup, hkeys⟩, _, hpress⟩ := heldAfter_cases h hheld
  have hlists : Keyboard.Lists held report := by
    unfold Reports at hreport
    rwa [if_pos hfew] at hreport
  refine ⟨hnodup, hkeys, fun _ hu => hu, fun _ => ⟨fun _ hu => hu, ?_⟩,
    fun hmany => absurd hmany (Nat.not_lt.mpr hfew), ?_, ?_⟩
  · intro u hu
    rw [Keyboard.processHidReport_eq]
    exact hlists.mem_iff hu
  · intro u hu
    dsimp only
    rw [h.counts hheld hfew hreport hfresh hu]
    simp only [show (u ∈ held) = True from eq_true hu, true_and]
  · intro u
    dsimp only
    by_cases hu : u ∈ held
    · rw [h.counts hheld hfew hreport hfresh hu]
      split
      · exact Nat.le_refl 1
      · exact Nat.zero_le 1
    · rw [if_neg fun hevent => hu (hpress u hevent).1, h.emits hheld hfew hreport,
        if_neg fun hmem : u ∈ held ∧ _ => hu hmem.1, Nat.add_zero]
      exact h.once u

/-- A list that is not fresh emits a second time. -/
theorem Counted.not_once (h : s.Counted) (hfresh : ¬ s.Fresh event)
    (hnext : s.next (event, report) = some s') : ¬ s'.Once := by
  unfold Fresh at hfresh
  push Not at hfresh
  obtain ⟨held, hheld, hmany, hfew, u, hu, hlisted, hdecodes⟩ := hfresh
  obtain ⟨held', hheld', hreport, rfl⟩ := next_cases hnext
  obtain rfl := Option.some.inj (hheld'.symm.trans hheld)
  obtain ⟨⟨-, hkeys⟩, -, hpress⟩ := heldAfter_cases h hheld
  have hprev : u ∉ s.keyboard.hidPrev := by
    rw [h.many hmany, List.mem_replicate]
    rintro ⟨-, rfl⟩
    exact absurd (hkeys _ hu) (by decide)
  have hevent : event ≠ .press u := fun hevent => (hpress u hevent).2 (h.listed u hlisted)
  intro honce
  have htwice := honce u
  dsimp only at htwice
  rw [if_neg hevent, h.emissions u (h.listed u hlisted), h.emits hheld hfew hreport,
    if_pos ⟨hlisted, hdecodes⟩, if_pos ⟨hu, hprev, hdecodes⟩] at htwice
  exact absurd htwice (by decide)

theorem Counted.next (h : s.Counted) (hfresh : s.Fresh event)
    (hnext : s.next (event, report) = some s') : s'.Counted := by
  obtain ⟨held, hheld, hreport, rfl⟩ := next_cases hnext
  by_cases hfew : held.length ≤ 6
  · rw [if_pos hfew]
    exact h.list hheld hfew hreport hfresh
  · rw [if_neg hfew]
    exact h.phantom hheld (by omega) hreport

/--
**One press, one emission.**  Over a history of presses and releases, every press has
emitted one byte or toggle at most, in every state, exactly when the keyboard never
lists a key again that it listed before a rollover and that is still held.
-/
theorem emits_once_iff {trace : List (Chord × (UsageEvent × HidReport))} {s : Chord}
    (hrun : Run (Accepts Chord.next) boot trace s) :
    (∀ t ∈ visited trace s, t.Once) ↔ ∀ e ∈ trace, e.1.Fresh e.2.1 :=
  hrun.good_iff (I := Counted) (K := fun (s : Chord) (e : UsageEvent × HidReport) => s.Fresh e.1)
    boot_counted (fun _ h => h.once)
    (fun _ _ _ h hfresh hnext => h.next hfresh hnext)
    (fun _ _ _ h hfresh hnext => h.not_once hfresh hnext)

/-- A to F, then G to L over them, and A to F let go: the keyboard lists its keys again when
only those from G on are left. -/
def handOver : List (UsageEvent × HidReport) :=
  [(.press 4, #v[0, 0, 4, 0, 0, 0, 0, 0]), (.press 5, #v[0, 0, 4, 5, 0, 0, 0, 0]),
    (.press 6, #v[0, 0, 4, 5, 6, 0, 0, 0]), (.press 7, #v[0, 0, 4, 5, 6, 7, 0, 0]),
    (.press 8, #v[0, 0, 4, 5, 6, 7, 8, 0]), (.press 9, #v[0, 0, 4, 5, 6, 7, 8, 9])] ++
  [UsageEvent.press 10, .press 11, .press 12, .press 13, .press 14, .press 15, .release 4,
    .release 5, .release 6, .release 7, .release 8].map (·, #v[0, 0, 1, 1, 1, 1, 1, 1]) ++
  [(.release 9, #v[0, 0, 10, 11, 12, 13, 14, 15])]

theorem emits_once_single : ∃ (trace : List (Chord × (UsageEvent × HidReport))) (s : Chord),
    Run (Accepts Chord.next) boot trace s ∧ trace.map Prod.snd = handOver ∧
    s.emissions 4 = 1 ∧ s.emissions 10 = 1 ∧ ∀ t ∈ visited trace s, t.Once := by
  obtain ⟨trace, s, hrun, hacts, hfresh, hcounts⟩ := exists_run Chord.next boot handOver
    (fun trace s => (∀ e ∈ trace, e.1.Fresh e.2.1) ∧ s.emissions 4 = 1 ∧ s.emissions 10 = 1)
    (by decide +kernel)
  exact ⟨trace, s, hrun, hacts, hcounts.1, hcounts.2, (emits_once_iff hrun).mpr hfresh⟩

/-- Six keys, a seventh, and its release: A is emitted with its press, and again. -/
theorem emits_twice : ∃ (trace : List (Chord × (UsageEvent × HidReport))) (s : Chord),
    Run (Accepts Chord.next) boot trace s ∧
    trace.map (·.2.1) = [.press 4, .press 5, .press 6, .press 7, .press 8, .press 9, .press 10,
      .release 10] ∧
    4 ∈ s.held ∧ s.emissions 4 = 2 ∧ ¬ ∀ t ∈ visited trace s, t.Once := by
  obtain ⟨trace, s, hrun, hacts, hheld, hcount⟩ := exists_run Chord.next boot
    [(.press 4, #v[0, 0, 4, 0, 0, 0, 0, 0]), (.press 5, #v[0, 0, 4, 5, 0, 0, 0, 0]),
      (.press 6, #v[0, 0, 4, 5, 6, 0, 0, 0]), (.press 7, #v[0, 0, 4, 5, 6, 7, 0, 0]),
      (.press 8, #v[0, 0, 4, 5, 6, 7, 8, 0]), (.press 9, #v[0, 0, 4, 5, 6, 7, 8, 9]),
      (.press 10, #v[0, 0, 1, 1, 1, 1, 1, 1]), (.release 10, #v[0, 0, 4, 5, 6, 7, 8, 9])]
    (fun _ s => 4 ∈ s.held ∧ s.emissions 4 = 2) (by decide +kernel)
  refine ⟨trace, s, hrun, ?_, hheld, hcount, ?_⟩
  · have h := congrArg (List.map Prod.fst) hacts
    rw [List.map_map] at h
    exact h
  · intro honce
    have h := honce s (mem_visited.mpr (Or.inr rfl)) 4
    omega

end Chord

end Amaterasu
