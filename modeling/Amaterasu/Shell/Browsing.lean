/-
Going back in the history and returning.

^P and ^N walk over the lines recorded and load each into the one buffer there is; the
line that was being written is put aside when the walk begins.  The editor of
`Editor.lean` has that in two fields, and what the walk does is computed there: so many
steps back recall that many lines ago, as far as there are lines, and as many forward
bring the draft back.  What is typed on the way only changes what is on the way.
-/
import Amaterasu.Shell.Rubout

namespace Amaterasu

open FixedBuffer

namespace Editor

variable {e : Editor}

/-- How far back the history goes. -/
def reach (e : Editor) : Nat := min e.history.length HIST_CAP

/-- The line being written, on the screen or put aside. -/
def draft (e : Editor) : Text := if e.browse = 0 then e.line else e.live

/-- The line of `k` lines ago recalled, and the one being written put aside. -/
def recalled (e : Editor) (k : Nat) : Editor :=
  if k = 0 then e else { e.restore (e.back k) with browse := k, live := e.line }

/-- The line that was put aside, with the cursor at its end. -/
def returned (e : Editor) : Editor := { e.restore e.line with live := e.line }

theorem line_restore (e : Editor) (t : Text) : (e.restore t).line = t := List.append_nil t

theorem recalled_succ (e : Editor) (k : Nat) : e.recalled (k + 1)
    = { e.restore (e.back (k + 1)) with browse := k + 1, live := e.line } := rfl

theorem older_recalled (h : e.browse = 0) {k : Nat} (hk : k < e.reach) :
    (e.recalled k).older = e.recalled (k + 1) := by
  cases k with
  | zero =>
      have hmore : e.browse < min e.history.length HIST_CAP := by rw [h]; exact hk
      show e.older = _
      rw [older, if_pos hmore, if_pos h, h]
      rfl
  | succ k =>
      rw [recalled_succ]
      exact if_pos hk

theorem older_last (h : e.browse = 0) : (e.recalled e.reach).older = e.recalled e.reach := by
  rcases hreach : e.reach with - | k
  · have hnone : ¬ e.browse < min e.history.length HIST_CAP := by
      have : min e.history.length HIST_CAP = 0 := hreach
      omega
    exact if_neg hnone
  · rw [recalled_succ]
    refine if_neg ?_
    show ¬ k + 1 < e.reach
    omega

/-- **Steps back** go as far as there are lines. -/
theorem older_iterate (h : e.browse = 0) (j : Nat) :
    older^[j] e = e.recalled (min j e.reach) := by
  induction j with
  | zero => rw [Nat.zero_min]; rfl
  | succ j ih =>
      rw [Function.iterate_succ_apply', ih]
      rcases Nat.lt_or_ge j e.reach with hmore | hdone
      · rw [Nat.min_eq_left (Nat.le_of_lt hmore), older_recalled h hmore,
          Nat.min_eq_left hmore]
      · rw [Nat.min_eq_right hdone, older_last h, Nat.min_eq_right (by omega)]

theorem newer_recalled {k : Nat} : (e.recalled (k + 2)).newer = e.recalled (k + 1) := rfl

theorem newer_first (h : e.browse = 0) : (e.recalled 1).newer = e.returned := by
  show ({ e.restore e.line with browse := 0, live := e.line } : Editor) = e.returned
  rw [← h]
  rfl

theorem newer_still (h : e.browse = 0) : e.newer = e := if_pos h

/-- **Steps forward** end at the line that was put aside. -/
theorem newer_iterate (h : e.browse = 0) {j k : Nat} (hk : k ≤ j) :
    (newer^[j] (e.recalled k)).line = e.line := by
  have hstill : ∀ (e' : Editor) (j : Nat), e'.browse = 0 → newer^[j] e' = e' := by
    intro e' j h'
    exact Function.iterate_fixed (newer_still h') j
  induction k generalizing j with
  | zero =>
      rw [recalled, if_pos rfl, hstill e j h]
  | succ k ih =>
      obtain ⟨j, rfl⟩ : ∃ i, j = i + 1 := ⟨j - 1, by omega⟩
      rw [Function.iterate_succ_apply]
      cases k with
      | zero =>
          rw [newer_first h, hstill e.returned j h]
          exact line_restore e e.line
      | succ k =>
          rw [newer_recalled]
          exact ih (by omega)

/-! ### The draft -/

theorem older_draft (e : Editor) : e.older.draft = e.draft := by
  unfold older
  split
  · unfold draft
    rw [if_neg (Nat.succ_ne_zero e.browse)]
  · rfl

theorem newer_draft (e : Editor) : e.newer.draft = e.draft := by
  unfold newer draft
  by_cases hzero : e.browse = 0
  · rw [if_pos hzero]
  · rw [if_neg hzero, if_neg hzero]
    by_cases hone : e.browse = 1
    · rw [if_pos hone, if_pos (by rw [hone])]
      exact line_restore e e.live
    · exact if_neg (show e.browse - 1 ≠ 0 by omega)

end Editor

namespace Session

variable {s : Session}

/-- The editor that describes a session within bounds, with the lines its ring holds. -/
def editor (s : Session) : Editor where
  before := s.shell.before
  after := s.shell.after
  history := s.recorded
  browse := s.shell.histCursor
  live := text s.shell.liveBuf s.shell.liveLen
  dispatched := s.dispatched

theorem Ring.refines (h : s.Ring) : s.Refines s.editor :=
  ⟨h.bounded, rfl, rfl, h.recorded.count, h.recorded.entries, rfl, rfl, rfl⟩

/-- A handler called `n` times. -/
def repeated (f : Session → Option Session) : Nat → Session → Option Session
  | 0, s => some s
  | n + 1, s => f s >>= repeated f n

/-- What the handler does to the editor, it does as many times. -/
theorem repeated_refines {f : Session → Option Session} {f' : Editor → Editor}
    (hf : ∀ {s e}, Session.Refines s e → ∃ s', f s = some s' ∧ s'.Refines (f' e)) (n : Nat) :
    ∀ {s e}, Session.Refines s e → ∃ s', repeated f n s = some s' ∧ s'.Refines (f'^[n] e) := by
  induction n with
  | zero =>
      intro s e h
      exact ⟨s, rfl, h⟩
  | succ n ih =>
      intro s e h
      obtain ⟨s₁, heq, h₁⟩ := hf h
      obtain ⟨s₂, hrest, h₂⟩ := ih h₁
      refine ⟨s₂, ?_, h₂⟩
      rw [repeated, heq]
      exact hrest

/-- Nothing to go back to, or no step taken: the session stays as it is. -/
theorem repeated_up_none {j : Nat} (hwriting : s.shell.histCursor = 0)
    (hnone : min j s.shell.available = 0) : repeated historyUp j s = some s := by
  rcases Nat.eq_zero_or_pos s.shell.available with hzero | hpos
  · induction j with
    | zero => rfl
    | succ j ih =>
        have hup : s.historyUp = some s := if_pos (by omega)
        rw [repeated, hup]
        exact ih (by omega)
  · obtain rfl : j = 0 := by omega
    rfl

/-- Every key but Tab is taken. -/
theorem pushChar_taken (commands : List Cmd) (h : s.Ring) {ch : Char} (htab : ch ≠ '\t') :
    ∃ s', s.pushChar commands ch = some s' := by
  by_cases hword : ch = '\x17'
  · subst hword
    obtain ⟨s₁, heq⟩ : ∃ s₁, s.ctrlW = some s₁ := by
      by_cases hend : s.shell.cursorPos = s.shell.len
      · obtain ⟨s₁, heq, -⟩ := ctrlW_of_end h.bounded hend
        exact ⟨s₁, heq⟩
      · obtain ⟨s₁, heq, -⟩ := ctrlW_moves h.bounded (Shell.line_ne_nil h.bounded hend)
        exact ⟨s₁, heq⟩
    have h₁ := ctrlW_edits h.bounded s₁ heq
    have hshow := cursorShow_eq h₁.bounded.cursor h₁.bounded.len
    refine ⟨_, Eq.trans ?_ hshow⟩
    show (s.ctrlW >>= cursorShow) = s₁.cursorShow
    rw [heq]
    rfl
  · obtain ⟨s', heq, -⟩ := h.refines.key commands htab hword
    exact ⟨s', heq⟩

/-! ### Editing on the way -/

/-- The ring is that of `s`, and so is the line being written, wherever it is. -/
structure Drafts (s u : Session) : Prop where
  ring : u.Ring
  history : u.shell.history = s.shell.history
  histLen : u.shell.histLen = s.shell.histLen
  histCount : u.shell.histCount = s.shell.histCount
  draft : u.editor.draft = s.shell.line

/-- A key that goes on with the walk, or one that edits what it has recalled. -/
def WalksOn (u : Session) (ch : Char) : Prop :=
  ch = '\x0e' ∨ ch = '\x10' ∨ (¬ Leaves ch ∧ 0 < u.shell.histCursor)

variable {u u' : Session}

theorem Ring.line_eq (h : s.Ring) : s.editor.line = s.shell.line := h.refines.line.symm

/-- On the walk, the line being written is put aside. -/
theorem draft_back (hback : 0 < u.shell.histCursor) :
    u.editor.draft = text u.shell.liveBuf u.shell.liveLen := if_neg (Nat.ne_of_gt hback)

theorem draft_writing (hwriting : u.shell.histCursor = 0) : u.editor.draft = u.editor.line :=
  if_pos hwriting

/-- A step of the walk leaves the line that is being written. -/
theorem Refines.draft_eq {e : Editor} (hring : u.Ring) (h : u.Refines e) :
    u.editor.draft = e.draft := by
  unfold Editor.draft
  rw [← h.browse, ← h.live, ← h.line, hring.line_eq]
  rfl

theorem Drafts.start (h : s.Ring) (hwriting : s.shell.histCursor = 0) : s.Drafts s :=
  ⟨h, rfl, rfl, rfl, (if_pos hwriting).trans h.line_eq⟩

theorem Drafts.keeps (h : s.Drafts u) (hkeeps : u.Keeps u')
    (hdraft : u'.editor.draft = u.editor.draft) : s.Drafts u' :=
  ⟨hkeeps.ring h.ring, hkeeps.history.trans h.history, hkeeps.histLen.trans h.histLen,
    hkeeps.histCount.trans h.histCount, hdraft.trans h.draft⟩

/-- A handler that does to the editor what leaves its draft. -/
theorem Drafts.walk (h : s.Drafts u) {r : Option Session} {e : Editor}
    (hkeeps : u.KeepsAll r) (hstep : ∃ t, r = some t ∧ t.Refines e)
    (hdraft : e.draft = u.editor.draft) (hkey : (r >>= cursorShow) = some u') : s.Drafts u' := by
  obtain ⟨t, rfl, ht⟩ := hstep
  have hall := hkeeps.cursorShow u' hkey
  obtain ⟨t', hshow, ht'⟩ := ht.cursorShow
  obtain rfl : t' = u' := Option.some.inj (hshow.symm.trans hkey)
  apply h.keeps hall
  rw [Refines.draft_eq (hall.ring h.ring) ht', hdraft]

/-- Going up shows the last submissions, and stays at the oldest that is kept. -/
theorem Ring.repeated_up (h : s.Ring) (hwriting : s.shell.histCursor = 0) (j : Nat) :
    ∃ s', repeated historyUp j s = some s' ∧
      if min j s.shell.available = 0 then s' = s
      else some s'.shell.line = s.recorded[s.recorded.length - min j s.shell.available]? := by
  have hreach : s.editor.reach = s.shell.available := h.refines.available.symm
  obtain ⟨s', heq, hs'⟩ := repeated_refines (fun h => h.older) j h.refines
  rw [Editor.older_iterate hwriting, hreach] at hs'
  refine ⟨s', heq, ?_⟩
  split
  · rename_i hnone
    rw [repeated_up_none hwriting hnone] at heq
    exact (Option.some.inj heq).symm
  · rename_i hsome
    obtain ⟨k, hk⟩ : ∃ k, min j s.shell.available = k + 1 := ⟨_, (Nat.succ_pred hsome).symm⟩
    have hcount := h.recorded.count
    have hfar : min j s.shell.available ≤ s.shell.histCount :=
      Nat.le_trans (Nat.min_le_right _ _) (Nat.min_le_left _ _)
    have hlt : s.recorded.length - (k + 1) < s.recorded.length := by omega
    rw [hk, Editor.recalled_succ] at hs'
    rw [hs'.line, hk, List.getElem?_eq_getElem hlt]
    show some (Editor.line (s.editor.restore (s.editor.back (k + 1)))) = _
    rw [Editor.line_restore, Editor.back]
    show some (s.recorded[s.recorded.length - (k + 1)]?.getD []) = _
    rw [List.getElem?_eq_getElem hlt, Option.getD_some]

/-- As many steps down as up lead back to the line. -/
theorem Ring.repeated_down (h : s.Ring) (hwriting : s.shell.histCursor = 0) (j : Nat) :
    ∃ s', (repeated historyUp j s >>= repeated historyDown j) = some s' ∧ s'.shell.Bounded ∧
      s'.shell.line = s.shell.line := by
  obtain ⟨s₁, heq₁, hs₁⟩ := repeated_refines (fun h => h.older) j h.refines
  obtain ⟨s₂, heq₂, hs₂⟩ := repeated_refines (fun h => h.newer) j hs₁
  refine ⟨s₂, ?_, hs₂.bounded, ?_⟩
  · rw [heq₁]
    exact heq₂
  · rw [hs₂.line, Editor.older_iterate hwriting,
      Editor.newer_iterate hwriting (Nat.min_le_left _ _), h.line_eq]

/-- **One key of the walk.** -/
theorem Drafts.key (h : s.Drafts u) (commands : List Cmd) {ch : Char} (hkey : u.WalksOn ch)
    (hstep : u.pushChar commands ch = some u') : s.Drafts u' := by
  rcases hkey with rfl | rfl | ⟨hstay, hback⟩
  · exact h.walk (historyDown_keeps h.ring.bounded) h.ring.refines.newer
      (Editor.newer_draft _) hstep
  · exact h.walk (historyUp_keeps h.ring.bounded) h.ring.refines.older
      (Editor.older_draft _) hstep
  · have hedits := pushChar_edits commands h.ring.bounded hstay u' hstep
    apply h.keeps hedits.toKeeps
    have hback' : 0 < u'.shell.histCursor := by
      rw [hedits.histCursor]
      exact hback
    rw [draft_back hback', draft_back hback, hedits.liveBuf, hedits.liveLen]

/--
**Browsing loses nothing.**  From any state in which a line is being written: so many ^P
recall that many lines ago, as far as the ring goes; as many ^N bring the line back; and
whatever is typed on the way leaves the ring as it is, the line put aside, and the line
that is back when the walk is over.  A key that edits changes nothing but the line.
-/
theorem history_browsing_lossless (commands : List Cmd) {writer : Option Writer} {g : Globals}
    {s : Session} {trace : List (Session × Char)}
    (hrun : Run (Accepts (pushChar commands)) (new writer g) trace s)
    (hwriting : s.shell.histCursor = 0) :
    (∀ j, ∃ s', repeated historyUp j s = some s' ∧
      if min j s.shell.available = 0 then s' = s
      else some s'.shell.line = s.recorded[s.recorded.length - min j s.shell.available]?) ∧
    (∀ j, ∃ s', (repeated historyUp j s >>= repeated historyDown j) = some s' ∧
      s'.shell.line = s.shell.line ∧ s'.shell.len = s.shell.len) ∧
    (∀ {walk : List (Session × Char)} {u : Session}, Run (Accepts (pushChar commands)) s walk u →
      (∀ e ∈ walk, e.1.WalksOn e.2) →
      u.shell.history = s.shell.history ∧ u.shell.histLen = s.shell.histLen ∧
      u.shell.histCount = s.shell.histCount ∧
      (0 < u.shell.histCursor → text u.shell.liveBuf u.shell.liveLen = s.shell.line) ∧
      (u.shell.histCursor = 0 → u.shell.line = s.shell.line ∧ u.shell.len = s.shell.len) ∧
      (∀ ch, ¬ Leaves ch → u.EditsAll (u.pushChar commands ch)) ∧
      ∀ ch, ch ≠ '\t' → ∃ u', u.pushChar commands ch = some u') := by
  have hring : s.Ring := hrun.always (new_ring writer g) fun t ch t' ht hs => ht.key _ ch t' hs
  have hlen : ∀ {t : Session}, t.shell.Bounded → t.shell.line = s.shell.line →
      t.shell.len = s.shell.len := by
    intro t ht hline
    rw [← Shell.length_line ht, hline, Shell.length_line hring.bounded]
  refine ⟨?_, ?_, ?_⟩
  · exact hring.repeated_up hwriting
  · intro j
    obtain ⟨s', heq, hbounded, hline⟩ := hring.repeated_down hwriting j
    exact ⟨s', heq, hline, hlen hbounded hline⟩
  · intro walk u hwalk hkeys
    have h : s.Drafts u := (hwalk.invariant (I := s.Drafts) (K := WalksOn)
      (Drafts.start hring hwriting)
      (fun t ch t' ht hk hstep => ht.key commands hk hstep) hkeys).1
    refine ⟨h.history, h.histLen, h.histCount, ?_, ?_,
      fun ch => pushChar_edits commands h.ring.bounded, fun ch => pushChar_taken commands h.ring⟩
    · intro hback
      rw [← draft_back hback, h.draft]
    · intro hover
      have hline : u.shell.line = s.shell.line := by
        rw [← h.ring.line_eq, ← draft_writing hover, h.draft]
      exact ⟨hline, hlen h.ring.bounded hline⟩

/-- Two lines entered and a third one begun. -/
theorem history_browsing_lossless_two :
    ∃ (trace : List (Session × Char)) (s : Session),
      Run (Accepts (pushChar [])) (new none ⟨[], [], [], none⟩) trace s ∧
      trace.map Prod.snd = ['a', '\n', 'b', '\n', 'c'] ∧
      ∀ j, ∃ s', (repeated historyUp j s >>= repeated historyDown j) = some s' ∧
        s'.shell.line = s.shell.line ∧ s'.shell.len = s.shell.len := by
  obtain ⟨trace, s, hrun, hkeys, hwriting⟩ := exists_run (pushChar [])
    (new none ⟨[], [], [], none⟩) ['a', '\n', 'b', '\n', 'c']
    (fun _ s => s.shell.histCursor = 0) (by decide +kernel)
  exact ⟨trace, s, hrun, hkeys, (history_browsing_lossless [] hrun hwriting).2.1⟩

end Session

end Amaterasu
