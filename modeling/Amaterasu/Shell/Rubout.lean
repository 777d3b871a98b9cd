/-
^W, the key that deletes a word.

Every other key that deletes works from the cursor.  The two loops of `ctrl_w` work from
the end of the line, and put the cursor there with each character they delete.  At the
end of the line that is the word before the cursor; anywhere else it is the last word of
the line, and the cursor leaves its place.
-/
import Amaterasu.Shell.History

namespace Amaterasu

open FixedBuffer

namespace Shell

/-- The text left of the cursor. -/
def before (s : Shell) : Text := text s.buf s.cursorPos

/-- The text from the cursor on. -/
def after (s : Shell) : Text := between s.buf s.cursorPos s.len

variable {s : Shell}

theorem length_after (h : s.Bounded) : s.after.length = s.len - s.cursorPos :=
  length_between s.buf h.cursor h.len

theorem after_eq_nil_iff (h : s.Bounded) : s.after = [] ↔ s.cursorPos = s.len := by
  rw [← List.length_eq_zero_iff, length_after h]
  have := h.cursor
  omega

theorem before_of_end (h : s.cursorPos = s.len) : s.before = s.line := by
  rw [before, h]
  rfl

theorem after_of_end (h : s.cursorPos = s.len) : s.after = [] := by
  rw [after, h, between, Nat.sub_self, List.take_zero]

/-- With the cursor inside it, a line is not empty. -/
theorem line_ne_nil (h : s.Bounded) (hinside : s.cursorPos ≠ s.len) : s.line ≠ [] := by
  intro hnil
  have hlen := length_line h
  have hcursor := h.cursor
  rw [hnil, List.length_nil] at hlen
  omega

end Shell

/-- A text without the spaces at its end, and then without the word at its end. -/
def rubWord (t : Text) : Text := (t.rdropWhile (· == ' ')).rdropWhile (· != ' ')

namespace Session

variable {s : Session}

/-- What is left of a line when a run at its end is deleted. -/
theorem text_keptLength (p : Char → Bool) (h : s.shell.Bounded) :
    text s.shell.buf (keptLength p s.shell.line) = s.shell.line.rdropWhile p := by
  have hle : keptLength p s.shell.line ≤ s.shell.len := by
    rw [← Shell.length_line h]
    exact keptLength_le p s.shell.line
  rw [← take_text hle, keptLength]
  exact (List.prefix_iff_eq_take.mp (List.rdropWhile_prefix p s.shell.line)).symm

/-- The loops take the last character of the line first. -/
theorem last_cell {n : Nat} (hlen : s.shell.len = n + 1) (hn : n + 1 ≤ BUF_CAP) :
    ∃ c, s.shell.buf[n]? = some c ∧ s.shell.line.getLast? = some c := by
  obtain ⟨c, hc, -, -⟩ := exists_cell (b := s.shell.buf) (Nat.lt_succ_self n) hn
  have hlength : s.shell.line.length = n + 1 := by
    rw [Shell.line, hlen, length_text hn]
  refine ⟨c, hc, ?_⟩
  rw [List.getLast?_eq_getElem?, hlength, Shell.line, hlen, ← hc]
  exact (getElem?_eq_text (Nat.lt_succ_self n)).symm

/-- A loop of ^W that begins at the end of the line. -/
theorem eraseBack_of_end (p : Char → Bool) (h : s.shell.Bounded)
    (hend : s.shell.cursorPos = s.shell.len) :
    ∃ s', s.eraseBack p s.shell.len = some s' ∧ s.Edits s' ∧
      s'.shell.cursorPos = s'.shell.len ∧ s'.shell.line = s.shell.line.rdropWhile p := by
  have heq := eraseBack_eq p _ s rfl h.len hend
  exact ⟨_, heq, eraseBack_edits p _ s rfl (Edits.refl h) _ heq, rfl, text_keptLength p h⟩

/-- A loop of ^W that deletes something puts the cursor at the end of the line. -/
theorem eraseBack_moves {p : Char → Bool} (h : s.shell.Bounded)
    (hp : ∃ c ∈ s.shell.line.getLast?, p c = true) :
    ∃ s', s.eraseBack p s.shell.len = some s' ∧ s.Edits s' ∧
      s'.shell.cursorPos = s'.shell.len := by
  obtain ⟨c, hlast, hpc⟩ := hp
  rcases hlen : s.shell.len with - | n
  · rw [Shell.line, hlen, text_zero] at hlast
    exact absurd hlast (by simp)
  have hn : n + 1 ≤ BUF_CAP := by
    rw [← hlen]
    exact h.len
  obtain ⟨d, hcell, hlast'⟩ := last_cell hlen hn
  obtain rfl : d = c := Option.some.inj (hlast'.symm.trans hlast)
  -- The first deletion puts it there, and the others begin there.
  have hstep : s.eraseBack p (n + 1)
      = eraseBack p n ((s.withShell (s.shell.edit s.shell.buf n n)).onWriter Writer.backspace) := by
    rw [eraseBack, hcell, Option.bind_eq_bind, Option.bind_some, if_pos hpc]
    rfl
  have hfirst : s.Edits ((s.withShell (s.shell.edit s.shell.buf n n)).onWriter
      Writer.backspace) := ((Edits.refl h).edit _ (Nat.le_refl n) (by omega)).onWriter _
  obtain ⟨s', heq, -, hcursor, -⟩ := eraseBack_of_end p hfirst.bounded rfl
  rw [hstep]
  exact ⟨s', heq, eraseBack_edits p n _ rfl hfirst s' heq, hcursor⟩

/-- A loop of ^W that deletes nothing. -/
theorem eraseBack_stays {p : Char → Bool} (h : s.shell.Bounded)
    (hp : ∀ c ∈ s.shell.line.getLast?, p c = false) : s.eraseBack p s.shell.len = some s := by
  rcases hlen : s.shell.len with - | n
  · rfl
  obtain ⟨c, hcell, hlast⟩ := last_cell hlen (by rw [← hlen]; exact h.len)
  rw [eraseBack, hcell, Option.bind_eq_bind, Option.bind_some, hp c hlast]
  rfl

/-! ### The key -/

/-- At the end of the line ^W deletes the word before the cursor. -/
theorem ctrlW_of_end (h : s.shell.Bounded) (hend : s.shell.cursorPos = s.shell.len) :
    ∃ s', s.ctrlW = some s' ∧ s'.shell.cursorPos = s'.shell.len ∧
      s'.shell.line = rubWord s.shell.line := by
  obtain ⟨s₁, heq₁, h₁, hend₁, hline₁⟩ := eraseBack_of_end (· == ' ') h hend
  obtain ⟨s₂, heq₂, -, hend₂, hline₂⟩ := eraseBack_of_end (· != ' ') h₁.bounded hend₁
  refine ⟨s₂, ?_, hend₂, ?_⟩
  · unfold ctrlW
    rw [heq₁, Option.bind_eq_bind, Option.bind_some, heq₂]
  · rw [hline₂, hline₁, rubWord]

/-- On a line that is not empty, ^W leaves the cursor at the end. -/
theorem ctrlW_moves (h : s.shell.Bounded) (hne : s.shell.line ≠ []) :
    ∃ s', s.ctrlW = some s' ∧ s'.shell.cursorPos = s'.shell.len := by
  have hlast := List.getLast?_eq_getLast_of_ne_nil hne
  unfold ctrlW
  by_cases hspace : s.shell.line.getLast hne = ' '
  · obtain ⟨s₁, heq₁, h₁, hend₁⟩ := eraseBack_moves (p := (· == ' ')) h
      ⟨_, hlast, by rw [hspace]; rfl⟩
    obtain ⟨s₂, heq₂, -, hend₂, -⟩ := eraseBack_of_end (· != ' ') h₁.bounded hend₁
    rw [heq₁, Option.bind_eq_bind, Option.bind_some]
    exact ⟨s₂, heq₂, hend₂⟩
  · have hstays : s.eraseBack (· == ' ') s.shell.len = some s := by
      apply eraseBack_stays h
      intro c hc
      obtain rfl := Option.some.inj (hlast.symm.trans hc)
      simpa using hspace
    obtain ⟨s₂, heq₂, -, hend₂⟩ := eraseBack_moves (p := (· != ' ')) h
      ⟨_, hlast, by simpa using hspace⟩
    rw [hstays, Option.bind_eq_bind, Option.bind_some]
    exact ⟨s₂, heq₂, hend₂⟩

/-- What ^W is to do: delete the word before the cursor and nothing behind it, and nothing
at all when there is nothing before it. -/
structure RubsWord (s s' : Session) : Prop where
  before : s'.shell.before = rubWord s.shell.before
  after : s'.shell.after = s.shell.after
  nothing : s.shell.before = [] → s' = s

/--
**^W deletes the word before the cursor** exactly when the cursor is at the end of the
line.
-/
theorem ctrlW_rubs_word_iff (commands : List Cmd) {writer : Option Writer} {g : Globals}
    {s : Session} {trace : List (Session × Char)}
    (hrun : Run (Accepts (pushChar commands)) (new writer g) trace s) :
    ∃ s', s.ctrlW = some s' ∧ (s.RubsWord s' ↔ s.shell.after = []) := by
  have hring : s.Ring := hrun.always (new_ring writer g) fun t ch t' ht hs => ht.key _ ch t' hs
  have h := hring.bounded
  by_cases hafter : s.shell.after = []
  · have hend := (Shell.after_eq_nil_iff h).mp hafter
    obtain ⟨s', heq, hend', hline⟩ := ctrlW_of_end h hend
    refine ⟨s', heq, iff_of_true ⟨?_, ?_, ?_⟩ hafter⟩
    · rw [Shell.before_of_end hend', hline, Shell.before_of_end hend]
    · rw [Shell.after_of_end hend', hafter]
    · intro hnil
      rw [Shell.before_of_end hend] at hnil
      have hstays : ∀ p : Char → Bool, s.eraseBack p s.shell.len = some s := by
        intro p
        apply eraseBack_stays h
        rw [hnil]
        exact fun c hc => absurd hc (by simp)
      unfold ctrlW at heq
      rw [hstays, Option.bind_eq_bind, Option.bind_some, hstays] at heq
      exact (Option.some.inj heq).symm
  · obtain ⟨s', heq, hend'⟩ := ctrlW_moves h
      (Shell.line_ne_nil h fun hend => hafter ((Shell.after_eq_nil_iff h).mpr hend))
    refine ⟨s', heq, iff_of_false ?_ hafter⟩
    intro hrubs
    rw [← hrubs.after, Shell.after_of_end hend'] at hafter
    exact hafter rfl

/-- `ab cd` with the cursor at the end. -/
theorem ctrlW_rubs_word_iff_end :
    ∃ (trace : List (Session × Char)) (s : Session),
      Run (Accepts (pushChar [])) (new none ⟨[], [], [], none⟩) trace s ∧
      trace.map Prod.snd = ['a', 'b', ' ', 'c', 'd'] ∧
      ∃ s', s.ctrlW = some s' ∧ (s.RubsWord s' ↔ s.shell.after = []) := by
  obtain ⟨trace, s, hrun, hkeys, -⟩ := exists_run (pushChar []) (new none ⟨[], [], [], none⟩)
    ['a', 'b', ' ', 'c', 'd'] (fun _ _ => True) (by decide +kernel)
  exact ⟨trace, s, hrun, hkeys, ctrlW_rubs_word_iff [] hrun⟩

/-- `ab cd` with the cursor before `cd`: what goes is `cd`, and not `ab`. -/
theorem ctrlW_rubs_last_word :
    ∃ (trace : List (Session × Char)) (s : Session),
      Run (Accepts (pushChar [])) (new none ⟨[], [], [], none⟩) trace s ∧
      trace.map Prod.snd = ['a', 'b', ' ', 'c', 'd', '\x02', '\x02'] ∧
      ∃ s', s.ctrlW = some s' ∧ ¬ s.RubsWord s' := by
  obtain ⟨trace, s, hrun, hkeys, hrub⟩ := exists_run (pushChar []) (new none ⟨[], [], [], none⟩)
    ['a', 'b', ' ', 'c', 'd', '\x02', '\x02']
    (fun _ s => s.ctrlW.any fun s' => decide (s'.shell.after ≠ s.shell.after)) (by decide +kernel)
  obtain ⟨s', heq, hne⟩ := (Option.any_eq_true _ _).mp hrub
  exact ⟨trace, s, hrun, hkeys, s', heq, fun hrubs => of_decide_eq_true hne hrubs.after⟩

end Session

end Amaterasu
