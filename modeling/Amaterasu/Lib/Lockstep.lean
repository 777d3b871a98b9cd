/-
Two computations that can fail, in lockstep.

`Option.Rel R` is said of two outcomes: both are failures, or both are results that `R`
relates.  It goes through binds and through loops, so two programs whose steps are related
are related, without a word about when they fail.
-/
import Mathlib.Data.List.Forall2

namespace Amaterasu.Lockstep

universe u

variable {α β γ δ ι κ : Type u} {R : α → β → Prop} {Q : γ → δ → Prop}

/-- What both do next, on results that are related. -/
theorem bind {r : Option α} {r' : Option β} (h : Option.Rel R r r') {f : α → Option γ}
    {f' : β → Option δ} (hf : ∀ a b, R a b → Option.Rel Q (f a) (f' b)) :
    Option.Rel Q (r >>= f) (r' >>= f') := by
  cases h with
  | none => exact .none
  | some hab => exact hf _ _ hab

/-- The same after one computation, which is not in question. -/
theorem same {r : Option ι} {f : ι → Option γ} {f' : ι → Option δ}
    (hf : ∀ i, r = some i → Option.Rel Q (f i) (f' i)) : Option.Rel Q (r >>= f) (r >>= f') := by
  cases r with
  | none => exact .none
  | some i => exact hf i rfl

theorem map {r : Option α} {r' : Option β} (h : Option.Rel R r r') {f : α → γ} {f' : β → δ}
    (hf : ∀ a b, R a b → Q (f a) (f' b)) : Option.Rel Q (r.map f) (r'.map f') := by
  cases h with
  | none => exact .none
  | some hab => exact .some (hf _ _ hab)

/-- Two loops, over lists whose elements are related one by one. -/
theorem foldlM {P : ι → κ → Prop} {f : α → ι → Option α} {f' : β → κ → Option β}
    (hf : ∀ a b i k, R a b → P i k → Option.Rel R (f a i) (f' b k)) {l : List ι} {l' : List κ}
    (hl : List.Forall₂ P l l') : ∀ {a : α} {b : β}, R a b →
      Option.Rel R (l.foldlM f a) (l'.foldlM f' b) := by
  induction hl with
  | nil =>
      intro a b h
      exact .some h
  | cons hik _ ih =>
      intro a b h
      rw [List.foldlM_cons, List.foldlM_cons]
      exact bind (hf a b _ _ h hik) fun a b => ih

/-! ### One computation -/

section One

variable {P : α → Prop} {P' : γ → Prop}

/-- What holds of all results goes through a bind. -/
theorem holds_bind {r : Option α} (h : ∀ a ∈ r, P a) {f : α → Option γ}
    (hf : ∀ a, P a → ∀ c ∈ f a, P' c) : ∀ c ∈ r >>= f, P' c := by
  intro c hc
  obtain ⟨a, ha, hc⟩ := Option.bind_eq_some_iff.mp hc
  exact hf a (h a ha) c hc

theorem holds_foldlM {f : α → ι → Option α} (hf : ∀ a i, P a → ∀ b ∈ f a i, P b) (l : List ι) :
    ∀ {a : α}, P a → ∀ b ∈ l.foldlM f a, P b := by
  induction l with
  | nil =>
      intro a h b hb
      obtain rfl := Option.some.inj hb
      exact h
  | cons i l ih =>
      intro a h
      rw [List.foldlM_cons]
      exact holds_bind (hf a i h) fun b => ih

theorem holds_some {a : α} (h : P a) : ∀ b ∈ some a, P b := by
  intro b hb
  obtain rfl := Option.some.inj hb
  exact h

end One

end Amaterasu.Lockstep
