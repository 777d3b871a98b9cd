/-
Programs against a device.

A `Device` moves on its own between two questions, and answers each question according to
the state it is in by then.  `Meets` is what a program is shown to do against it: whatever
the device does, the program returns in the postcondition.  It is established by walking
over the program's text, with the state after each answer in place of the log of the
conversation; what the device can do on its own is dealt with once, as the stability of an
assertion.

`poll` is the loop that drivers are made of.  It has fuel, since a device may keep it going
for ever; the invariant rule is about every amount of it, and `meets_poll_ends` says how much is
enough where something comes closer to its end with each round.
-/
import Amaterasu.Lib.Dialogue

namespace Amaterasu

structure Device (σ Q R : Type) where
  /-- On its own. -/
  drifts : σ → σ → Prop
  answers : σ → Q → R → σ → Prop

/-- What the device leaves alone on its own. -/
def Device.Stable {σ Q R : Type} (d : Device σ Q R) (inv : σ → Prop) : Prop :=
  ∀ s s', d.drifts s s' → inv s → inv s'

namespace Dialogue

variable {σ Q R α β : Type} {d : Device σ Q R} {post post' : α → σ → Prop} {s : σ}

/-- Whatever the device does, `p` started in `s` returns in `post`. -/
def Meets (d : Device σ Q R) (post : α → σ → Prop) : Dialogue Q R α → σ → Prop
  | done a, s => post a s
  | ask q k, s => ∀ s₁ r s', d.drifts s s₁ → d.answers s₁ q r s' → Meets d post (k r) s'

/-- One run against the device. -/
inductive Runs (d : Device σ Q R) : Dialogue Q R α → σ → α → σ → Prop
  | done {a : α} {s : σ} : Runs d (done a) s a s
  | ask {q : Q} {k : R → Dialogue Q R α} {s s₁ s' s'' : σ} {r : R} {a : α}
      (hdrift : d.drifts s s₁) (hanswer : d.answers s₁ q r s') (h : Runs d (k r) s' a s'') :
      Runs d (ask q k) s a s''

/-- One program after another. -/
theorem Runs.bind {p : Dialogue Q R α} {f : α → Dialogue Q R β} {s s' s'' : σ} {a : α} {b : β}
    (h : Runs d p s a s') (h' : Runs d (f a) s' b s'') : Runs d (p >>= f) s b s'' := by
  induction h with
  | done => exact h'
  | ask hdrift hanswer _ ih => exact .ask hdrift hanswer (ih h')

theorem Runs.bind_exists {p : Dialogue Q R α} {f : α → Dialogue Q R β} {s s' : σ} {a : α} {b : β}
    (h : Runs d p s a s') (h' : ∃ s'', Runs d (f a) s' b s'') : ∃ s'', Runs d (p >>= f) s b s'' :=
  h'.imp fun _ => h.bind

/-- The run with the given answers, if each is allowed and the program returns after the last. -/
def play (next : σ → Q → R → Option σ) : Dialogue Q R α → σ → List R → Option (α × σ)
  | done a, s, [] => some (a, s)
  | ask q k, s, r :: rest => (next s q r).bind fun s' => (k r).play next s' rest
  | _, _, _ => none

theorem runs_of_play {next : σ → Q → R → Option σ} (hdrifts : ∀ s, d.drifts s s)
    (hnext : ∀ s q r s', next s q r = some s' → d.answers s q r s') :
    ∀ {p : Dialogue Q R α} {s : σ} {answers : List R} {a : α} {s' : σ},
      p.play next s answers = some (a, s') → Runs d p s a s' := by
  intro p
  induction p with
  | done a =>
      intro s answers a' s' h
      cases answers with
      | nil =>
          obtain ⟨rfl, rfl⟩ := Prod.mk.inj (Option.some.inj h)
          exact .done
      | cons r rest => exact absurd h (by simp [play])
  | ask q k ih =>
      intro s answers a s' h
      cases answers with
      | nil => exact absurd h (by simp [play])
      | cons r rest =>
          obtain ⟨s₁, hs₁, hrest⟩ := Option.bind_eq_some_iff.mp h
          exact .ask (hdrifts s) (hnext _ _ _ _ hs₁) (ih r hrest)

namespace Meets

/-- Every run ends in the postcondition. -/
theorem run {p : Dialogue Q R α} {s' : σ} {a : α} (h : Meets d post p s) (hr : Runs d p s a s') :
    post a s' := by
  induction hr with
  | done => exact h
  | ask hdrift hanswer _ ih => exact ih (h _ _ _ hdrift hanswer)

theorem pure {a : α} (h : post a s) : Meets d post (Pure.pure a : Dialogue Q R α) s := h

theorem mono (hpost : ∀ a s, post a s → post' a s) : ∀ {p : Dialogue Q R α} {s : σ},
    Meets d post p s → Meets d post' p s := by
  intro p
  induction p with
  | done a => exact fun h => hpost a _ h
  | ask q k ih => exact fun h s₁ r s' hdrift hanswer => ih r (h s₁ r s' hdrift hanswer)

theorem bind {post : β → σ → Prop} {f : α → Dialogue Q R β} :
    ∀ {p : Dialogue Q R α} {s : σ},
      Meets d (fun a s => Meets d post (f a) s) p s → Meets d post (p >>= f) s := by
  intro p
  induction p with
  | done a => exact fun h => h
  | ask q k ih => exact fun h s₁ r s' hdrift hanswer => ih r (h s₁ r s' hdrift hanswer)

/-- One program after another, with what holds between them. -/
theorem seq {mid : α → σ → Prop} {post : β → σ → Prop} {p : Dialogue Q R α}
    {f : α → Dialogue Q R β} (h : Meets d mid p s)
    (hf : ∀ a s, mid a s → Meets d post (f a) s) : Meets d post (p >>= f) s :=
  bind (h.mono hf)

theorem and : ∀ {p : Dialogue Q R α} {s : σ}, Meets d post p s → Meets d post' p s →
    Meets d (fun a s => post a s ∧ post' a s) p s := by
  intro p
  induction p with
  | done a => exact fun h h' => ⟨h, h'⟩
  | ask q k ih =>
      exact fun h h' s₁ r s' hdrift hanswer =>
        ih r (h s₁ r s' hdrift hanswer) (h' s₁ r s' hdrift hanswer)

/-- Nothing is asked of the end. -/
theorem anything (p : Dialogue Q R α) (s : σ) : Meets d (fun _ _ => True) p s := by
  induction p generalizing s with
  | done a => trivial
  | ask q k ih => exact fun _ r s' _ _ => ih r s'

theorem query {q : Q} {f : R → Dialogue Q R α}
    (h : ∀ s₁ r s', d.drifts s s₁ → d.answers s₁ q r s' → Meets d post (f r) s') :
    Meets d post (Dialogue.query q >>= f) s := h

end Meets

/-! ### Polling -/

/-- How a loop that waits comes to its end. -/
inductive Polled (α : Type)
  /-- What was read is what it has waited for. -/
  | found (a : α)
  /-- It has given up. -/
  | late
  /-- Out of fuel. -/
  | stuck

/-- Read, until what is read is good or it is too late. -/
def poll (read : Dialogue Q R α) (good : α → Bool) (past : Dialogue Q R Bool) :
    Nat → Dialogue Q R (Polled α)
  | 0 => return .stuck
  | fuel + 1 => do
      let a ← read
      if good a then return .found a
      if ← past then return .late
      poll read good past fuel

variable {read : Dialogue Q R α} {good : α → Bool} {past : Dialogue Q R Bool}

/-- What is read at once. -/
theorem Runs.poll {s s' : σ} {a : α} (h : Runs d read s a s') (hgood : good a = true) (fuel : Nat) :
    Runs d (poll read good past (fuel + 1)) s (.found a) s' := by
  refine h.bind ?_
  rw [if_pos hgood]
  exact .done

/-- A round of the loop keeps the invariant, or finds what the loop waits for. -/
theorem meets_poll {inv : σ → Prop} {found : α → σ → Prop}
    (hread : ∀ s, inv s → Meets d (fun a s => if good a then found a s else inv s) read s)
    (hpast : ∀ s, inv s → Meets d (fun _ s => inv s) past s) (fuel : Nat) (h : inv s) :
    Meets d (fun r s => match r with | .found a => found a s ∧ good a = true | _ => inv s)
      (poll read good past fuel) s := by
  induction fuel generalizing s with
  | zero => exact Meets.pure h
  | succ fuel ih =>
      refine (hread s h).seq fun a s hs => ?_
      by_cases ha : good a = true
      · rw [if_pos ha] at hs ⊢
        exact Meets.pure ⟨hs, ha⟩
      · rw [if_neg ha] at hs ⊢
        refine (hpast s hs).seq fun late s hs => ?_
        cases late with
        | true => exact Meets.pure hs
        | false => exact ih hs

/-- Where every round brings the end nearer, the loop ends. -/
theorem meets_poll_ends {inv : σ → Prop} (left : σ → Nat)
    (hround : ∀ s, inv s → Meets d (fun a s' => good a = true ∨
      Meets d (fun late s' => late = true ∨ inv s' ∧ left s' < left s) past s') read s)
    (fuel : Nat) (h : inv s) (hfuel : left s < fuel) :
    Meets d (fun r _ => r ≠ .stuck) (poll read good past fuel) s := by
  induction fuel generalizing s with
  | zero => exact absurd hfuel (Nat.not_lt_zero _)
  | succ fuel ih =>
      refine (hround s h).seq fun a s' hs => ?_
      by_cases ha : good a = true
      · rw [if_pos ha]
        exact Meets.pure (by simp)
      · rw [if_neg ha]
        refine (hs.resolve_left ha).seq fun late s'' hs => ?_
        cases late with
        | true => exact Meets.pure (by simp)
        | false =>
            obtain ⟨hinv, hleft⟩ := hs.resolve_left (by simp)
            exact ih hinv (by omega)

end Dialogue

end Amaterasu
