/-
Programs that ask and are answered.

A driver is a sequential program whose every next move may depend on what the device
answered to the last one.  A `Dialogue` is such a program with the answers left open:
it has returned, or it asks something and says how it goes on for each answer.

`Reaches` is one conversation: the questions asked and the answers given so far, and
what is left of the program.  `Ensures` is the rule for reasoning about all of them at
once.  It walks over the program's text, one case per question, and whatever it
establishes about the log holds in every conversation (`Ensures.reaches`).
-/
import Mathlib.Data.List.Basic

namespace Amaterasu

/-- A program that asks `Q`s, is answered with `R`s, and returns an `α`. -/
inductive Dialogue (Q R α : Type) where
  | done (a : α)
  | ask (q : Q) (k : R → Dialogue Q R α)

namespace Dialogue

variable {Q R α β : Type}

def bind : Dialogue Q R α → (α → Dialogue Q R β) → Dialogue Q R β
  | done a, f => f a
  | ask q k, f => ask q fun r => (k r).bind f

instance : Monad (Dialogue Q R) where
  pure := done
  bind := bind

/-- One question. -/
def query (q : Q) : Dialogue Q R R := ask q done

/-- After the exchanges in the log, `p` has become the program on the right. -/
inductive Reaches (p : Dialogue Q R α) : List (Q × R) → Dialogue Q R α → Prop
  | nil : Reaches p [] p
  | snoc {log : List (Q × R)} {q : Q} {k : R → Dialogue Q R α}
      (h : Reaches p log (ask q k)) (r : R) : Reaches p (log ++ [(q, r)]) (k r)

/-- One conversation after another. -/
theorem Reaches.trans {p p' p'' : Dialogue Q R α} {log log' : List (Q × R)}
    (h : Reaches p log p') (h' : Reaches p' log' p'') : Reaches p (log ++ log') p'' := by
  induction h' with
  | nil => simpa using h
  | snoc _ r ih => rw [← List.append_assoc]; exact ih.snoc r

/-- The conversation with the given answers, if the program returns after the last. -/
def replay : Dialogue Q R α → List R → Option (List (Q × R) × α)
  | done a, [] => some ([], a)
  | ask q k, r :: rest => ((k r).replay rest).map fun c => ((q, r) :: c.1, c.2)
  | _, _ => none

theorem reaches_of_replay : ∀ {p : Dialogue Q R α} {answers : List R} {c : List (Q × R) × α},
    p.replay answers = some c → Reaches p c.1 (done c.2) := by
  intro p
  induction p with
  | done a =>
      intro answers c h
      cases answers with
      | nil => obtain rfl := Option.some.inj h; exact .nil
      | cons r rest => exact absurd h (by simp [replay])
  | ask q k ih =>
      intro answers c h
      cases answers with
      | nil => exact absurd h (by simp [replay])
      | cons r rest =>
          obtain ⟨c', hrest, rfl⟩ := Option.map_eq_some_iff.mp h
          exact (Reaches.nil.snoc r).trans (ih r hrest)

/-- A conversation with the given answers, with what can be computed of it. -/
theorem exists_reaches (p : Dialogue Q R α) (answers : List R)
    (P : List (Q × R) → α → Prop) [∀ log a, Decidable (P log a)]
    (h : (p.replay answers).any fun c => decide (P c.1 c.2)) :
    ∃ log a, Reaches p log (done a) ∧ P log a := by
  obtain ⟨c, hc, hP⟩ := (Option.any_eq_true _ _).mp h
  exact ⟨c.1, c.2, reaches_of_replay hc, of_decide_eq_true hP⟩

/-- The program with its questions put in another way. -/
def rephrase {Q' : Type} (f : Q' → Q) : Dialogue Q' R α → Dialogue Q R α
  | done a => done a
  | ask q k => ask (f q) fun r => (k r).rephrase f

theorem rephrase_query {Q' : Type} {f : Q' → Q} {q : Q'} {k : R → Dialogue Q' R α}
    {k' : R → Dialogue Q R α} (h : ∀ r, (k r).rephrase f = k' r) :
    (query q >>= k).rephrase f = query (f q) >>= k' :=
  congrArg (ask (f q)) (funext h)

theorem rephrase_bind {Q' : Type} (f : Q' → Q) (p : Dialogue Q' R α) (k : α → Dialogue Q' R β) :
    (p >>= k).rephrase f = p.rephrase f >>= fun a => (k a).rephrase f := by
  induction p with
  | done a => rfl
  | ask q k' ih => exact congrArg (ask (f q)) (funext ih)

theorem rephrase_ite {Q' : Type} {f : Q' → Q} {c : Prop} [Decidable c] {p p' : Dialogue Q' R α}
    {q q' : Dialogue Q R α} (hp : p.rephrase f = q) (hp' : p'.rephrase f = q') :
    (if c then p else p').rephrase f = if c then q else q' := by
  split
  · exact hp
  · exact hp'

variable {allows : Q → R → Prop} {post post' : α → List (Q × R) → Prop}
  {log log' : List (Q × R)} {p p' : Dialogue Q R α}

/-- Whatever the answers, as long as each is one that is allowed, `p` started with
`log` behind it returns in `post`. -/
def Ensures (allows : Q → R → Prop) (post : α → List (Q × R) → Prop) :
    Dialogue Q R α → List (Q × R) → Prop
  | done a, log => post a log
  | ask q k, log => ∀ r, allows q r → Ensures allows post (k r) (log ++ [(q, r)])

namespace Ensures

theorem pure {a : α} (h : post a log) :
    Ensures allows post (Pure.pure a : Dialogue Q R α) log := h

/-- What follows a question is established for each allowed answer. -/
theorem query {q : Q} {f : R → Dialogue Q R α}
    (h : ∀ r, allows q r → Ensures allows post (f r) (log ++ [(q, r)])) :
    Ensures allows post (Dialogue.query q >>= f) log := h

theorem mono (hpost : ∀ a log, post a log → post' a log) :
    ∀ {p : Dialogue Q R α} {log : List (Q × R)},
      Ensures allows post p log → Ensures allows post' p log := by
  intro p
  induction p with
  | done a => exact fun h => hpost a _ h
  | ask q k ih => exact fun h r hr => ih r (h r hr)

/-- One program after another. -/
theorem bind {post : β → List (Q × R) → Prop} {f : α → Dialogue Q R β} :
    ∀ {p : Dialogue Q R α} {log : List (Q × R)},
      Ensures allows (fun a log => Ensures allows post (f a) log) p log →
        Ensures allows post (p >>= f) log := by
  intro p
  induction p with
  | done a => exact fun h => h
  | ask q k ih => exact fun h r hr => ih r (h r hr)

/-- What is ensured of a program is ensured of what is left of it. -/
theorem reaches (h : Ensures allows post p log) (hr : Reaches p log' p')
    (hallows : ∀ e ∈ log', allows e.1 e.2) : Ensures allows post p' (log ++ log') := by
  induction hr with
  | nil => simpa using h
  | @snoc log' q k hr r ih =>
      have hbefore := ih fun e he => hallows e (List.mem_append_left _ he)
      rw [← List.append_assoc]
      exact hbefore r (hallows (q, r) (by simp))

/-- Every conversation in which the program returns ends in the postcondition. -/
theorem returns {a : α} (h : Ensures allows post p []) (hr : Reaches p log (.done a))
    (hallows : ∀ e ∈ log, allows e.1 e.2) : post a log := by
  simpa [Ensures] using h.reaches hr hallows

end Ensures

end Dialogue

end Amaterasu
