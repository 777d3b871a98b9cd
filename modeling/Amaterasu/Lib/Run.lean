/-
Runs of a transition relation.

Every claim about a component here is a claim about a whole run: whatever the
client, the interrupts or the controller do next, in whatever order.  A `Run`
records the steps it took, each with the state it was taken in, so a condition on
the steps ("no step of this run takes the branch that goes wrong") can be stated
next to a property of the states it visited.

`Run.invariant` is the usual induction.  `Run.good_iff` is its sharp form: when
every step that meets the condition keeps the invariant, and every step that does
not leaves a bad state behind, a run visits only good states exactly when all of
its steps meet the condition.
-/
import Mathlib.Data.List.Basic
import Mathlib.Logic.Relation

namespace Amaterasu

variable {S A : Type*} {step : S → A → S → Prop} {start s s' : S} {a : A}
  {trace : List (S × A)}

/-- A run from `start`: the steps taken, each with the state it was taken in. -/
inductive Run (step : S → A → S → Prop) (start : S) : List (S × A) → S → Prop
  | nil : Run step start [] start
  | snoc {trace : List (S × A)} {s s' : S} {a : A}
      (h : Run step start trace s) (hstep : step s a s') :
      Run step start (trace ++ [(s, a)]) s'

/-- The transition relation of a function that computes the next state. -/
def Next (next : S → A → S) (s : S) (a : A) (s' : S) : Prop := next s a = s'

/-- The states a run has been in, the last one included. -/
def visited (trace : List (S × A)) (last : S) : List S :=
  trace.map Prod.fst ++ [last]

@[simp] theorem mem_visited {t : S} :
    t ∈ visited trace s ↔ (∃ e ∈ trace, e.1 = t) ∨ t = s := by
  simp [visited]

namespace Run

/-- What the start state has and every step that meets `K` keeps, every state of
a run of such steps has. -/
theorem invariant {I : S → Prop} {K : S → A → Prop} (hstart : I start)
    (hstep : ∀ s a s', I s → K s a → step s a s' → I s')
    (h : Run step start trace s) (hok : ∀ e ∈ trace, K e.1 e.2) :
    I s ∧ ∀ e ∈ trace, I e.1 := by
  induction h with
  | nil => exact ⟨hstart, by simp⟩
  | @snoc trace t t' a h hs ih =>
      obtain ⟨hinv, hall⟩ := ih fun e he => hok e (List.mem_append_left _ he)
      refine ⟨hstep t a t' hinv (hok (t, a) (by simp)) hs, ?_⟩
      intro e he
      rcases List.mem_append.mp he with he' | he'
      · exact hall e he'
      · rw [List.mem_singleton.mp he']; exact hinv

/-- The same of all the states a run has been in. -/
theorem invariant_visited {I : S → Prop} {K : S → A → Prop} (hstart : I start)
    (hstep : ∀ s a s', I s → K s a → step s a s' → I s')
    (h : Run step start trace s) (hok : ∀ e ∈ trace, K e.1 e.2) : ∀ t ∈ visited trace s, I t := by
  obtain ⟨hlast, hall⟩ := invariant hstart hstep h hok
  intro t ht
  rcases mem_visited.mp ht with ⟨e, he, rfl⟩ | rfl
  · exact hall e he
  · exact hlast

/-- The same, when what is known is known of the states and not of the steps. -/
theorem invariant_of_visited {I P : S → Prop} (hstart : I start)
    (hstep : ∀ s a s', I s → P s' → step s a s' → I s')
    (h : Run step start trace s) (hP : ∀ t ∈ visited trace s, P t) : I s := by
  induction h with
  | nil => exact hstart
  | @snoc trace t t' a h hs ih =>
      refine hstep t a t' (ih fun u hu => hP u ?_) (hP t' (by simp)) hs
      rcases mem_visited.mp hu with ⟨e, he, heq⟩ | heq
      · exact mem_visited.mpr (Or.inl ⟨e, List.mem_append_left _ he, heq⟩)
      · exact mem_visited.mpr (Or.inl ⟨(t, a), by simp, heq.symm⟩)

/-- The same with no condition on the steps. -/
theorem always {I : S → Prop} (hstart : I start)
    (hstep : ∀ s a s', I s → step s a s' → I s')
    (h : Run step start trace s) : I s :=
  (invariant (K := fun _ _ => True) hstart (fun s a s' hi _ => hstep s a s' hi) h
    (fun _ _ => trivial)).1

/-- The same again for a transition function. -/
theorem always_next {I : S → Prop} {next : S → A → S} (hstart : I start)
    (hstep : ∀ s a, I s → I (next s a)) (h : Run (Next next) start trace s) : I s :=
  h.always hstart fun s a s' hi hs => by
    rw [← show next s a = s' from hs]
    exact hstep s a hi

/-- A run visits only good states exactly when every step it takes meets `K`. -/
theorem good_iff {I G : S → Prop} {K : S → A → Prop} (hstart : I start)
    (hgood : ∀ s, I s → G s)
    (hstep : ∀ s a s', I s → K s a → step s a s' → I s')
    (hbad : ∀ s a s', I s → ¬ K s a → step s a s' → ¬ G s')
    (h : Run step start trace s) :
    (∀ t ∈ visited trace s, G t) ↔ ∀ e ∈ trace, K e.1 e.2 := by
  constructor
  · intro hall
    induction h with
    | nil => simp
    | @snoc trace t t' a h hs ih =>
        have hpre : ∀ e ∈ trace, K e.1 e.2 := by
          refine ih fun u hu => hall u ?_
          rcases mem_visited.mp hu with ⟨e, he, heq⟩ | heq
          · exact mem_visited.mpr (Or.inl ⟨e, List.mem_append_left _ he, heq⟩)
          · exact mem_visited.mpr (Or.inl ⟨(t, a), by simp, heq.symm⟩)
        have hinv := (invariant hstart hstep h hpre).1
        intro e he
        rcases List.mem_append.mp he with he' | he'
        · exact hpre e he'
        · rw [List.mem_singleton.mp he']
          by_contra hn
          exact hbad t a t' hinv hn hs (hall t' (by simp))
  · intro hok t ht
    exact hgood t (invariant_visited hstart hstep h hok t ht)

/-- A run extended by another that starts where it ended. -/
theorem append {trace' : List (S × A)} (h : Run step start trace s)
    (h' : Run step s trace' s') : Run step start (trace ++ trace') s' := by
  induction h' with
  | nil => simpa using h
  | snoc _ hs ih => rw [← List.append_assoc]; exact ih.snoc hs

/-- One step is a run. -/
theorem single (hstep : step s a s') : Run step s [(s, a)] s' := nil.snoc hstep

end Run

/-- A map of states that commutes with the steps maps runs to runs. -/
theorem Run.map {T B : Type*} {next : S → A → S} {next' : T → B → T} {I : S → Prop}
    (abs : S → T) (act : A → B) (hstart : I start)
    (hstep : ∀ s a, I s → I (next s a) ∧ abs (next s a) = next' (abs s) (act a))
    (h : Run (Next next) start trace s) :
    I s ∧
      Run (Next next') (abs start) (trace.map fun e => (abs e.1, act e.2)) (abs s) := by
  induction h with
  | nil => exact ⟨hstart, .nil⟩
  | @snoc trace t t' a h hs ih =>
      obtain ⟨hinv, hrun⟩ := ih
      obtain ⟨hinv', habs⟩ := hstep t a hinv
      rw [← show next t a = t' from hs]
      refine ⟨hinv', ?_⟩
      rw [List.map_append, habs]
      exact hrun.snoc rfl

theorem visited_map {T B : Type*} (abs : S → T) (act : A → B) :
    visited (trace.map fun e => (abs e.1, act e.2)) (abs s) = (visited trace s).map abs := by
  simp [visited]

/-- The trace a transition function leaves on a list of actions. -/
def traceFrom (next : S → A → S) (start : S) : List A → List (S × A)
  | [] => []
  | a :: rest => (start, a) :: traceFrom next (next start a) rest

/-- A transition function can take any list of actions. -/
theorem Run.ofActions (next : S → A → S) (start : S) (acts : List A) :
    Run (Next next) start (traceFrom next start acts) (acts.foldl next start) := by
  induction acts generalizing start with
  | nil => exact .nil
  | cons a rest ih => exact (Run.single rfl).append (ih (next start a))

/-! ### Functions that can fail -/

/-- The transition relation of a function that computes the next state, if there is one. -/
def Accepts (next : S → A → Option S) (s : S) (a : A) (s' : S) : Prop := next s a = some s'

/-- The trace such a function leaves on a list of actions, and the state after them. -/
def tryTrace (next : S → A → Option S) (s : S) : List A → Option (List (S × A) × S)
  | [] => some ([], s)
  | a :: rest => (next s a).bind fun s' =>
      (tryTrace next s' rest).map fun r => ((s, a) :: r.1, r.2)

theorem Run.ofTrace {next : S → A → Option S} (acts : List A) : ∀ {s : S} {r : List (S × A) × S},
    tryTrace next s acts = some r →
      Run (Accepts next) s r.1 r.2 ∧ r.1.map Prod.snd = acts := by
  induction acts with
  | nil =>
      intro s r h
      obtain rfl := Option.some.inj h
      exact ⟨.nil, rfl⟩
  | cons a rest ih =>
      intro s r h
      obtain ⟨s', hstep, h⟩ := Option.bind_eq_some_iff.mp h
      obtain ⟨r', hrest, rfl⟩ := Option.map_eq_some_iff.mp h
      obtain ⟨hrun, hacts⟩ := ih hrest
      exact ⟨(Run.single hstep).append hrun, congrArg (a :: ·) hacts⟩

/-- A run on given actions, with what can be computed of it. -/
theorem exists_run (next : S → A → Option S) (start : S) (acts : List A)
    (P : List (S × A) → S → Prop) [∀ trace s, Decidable (P trace s)]
    (h : (tryTrace next start acts).any fun r => decide (P r.1 r.2)) :
    ∃ trace s, Run (Accepts next) start trace s ∧ trace.map Prod.snd = acts ∧ P trace s := by
  obtain ⟨r, htrace, hP⟩ := (Option.any_eq_true _ _).mp h
  obtain ⟨hrun, hacts⟩ := Run.ofTrace acts htrace
  exact ⟨r.1, r.2, hrun, hacts, of_decide_eq_true hP⟩

end Amaterasu
