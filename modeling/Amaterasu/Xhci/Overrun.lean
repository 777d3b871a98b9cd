/-
The rings under the port loop of `init_unsafe`, with a controller that takes its time.

`cmd_push` and `ep0_push` write at the producer's index without asking how far the
controller has come; what keeps them from overwriting a TRB it has yet to read is that
the driver waits for each request before it makes the next.  But a wait gives up after
a while, and the loop goes on with the request still queued.

The driver cannot see the controller's place on a ring.  What it could know is which
of its requests have had their completion come off the event ring.  As long as the TRBs
of the others fit on the ring next to a new request, nothing is overwritten: that is
the condition the loop would have to check, and does not.
-/
import Amaterasu.Xhci.Slots
import Amaterasu.Xhci.TransferRing
import Amaterasu.Xhci.Waiters

namespace Amaterasu

/-- A ring the driver pushes to: the command ring, or the EP0 ring allocated for the
device on a port. -/
inductive UsbRing where
  | command
  | ep0 (port : ℕ)
  deriving DecidableEq, Repr

/-- All slots but the Link TRB's. -/
def UsbRing.usable : UsbRing → ℕ
  | command => cmdN - 1
  | ep0 _ => ep0N - 1

def UsbRequest.ring : UsbRequest → UsbRing
  | command _ => .command
  | ctrlIn port _ _ _ _ => .ep0 port
  | ctrlOut port _ _ => .ep0 port

/-- What the driver waits for after pushing it. -/
def UsbRequest.wait : UsbRequest → Wait
  | command _ => .command
  | ctrlIn _ slot _ _ _ => .control slot
  | ctrlOut _ slot _ => .control slot

/-- The TRB's Interrupt On Completion bit. -/
def Trb.ioc (t : Trb) : Bool := (t.dw3 >>> 5) &&& 1 == 1

/-- Whether completing the TRB posts an event: every command does. -/
def UsbRing.posts : UsbRing → Trb → Bool
  | command, _ => true
  | ep0 _, t => t.ioc

/-- The answer a wait makes of what it took. -/
def WaitResult.answer (buf : Vector UInt8 512) : WaitResult → UsbAnswer
  | command cc slot => { cc := cc, slot := slot, buf := buf }
  | control cc _ _ => { cc := cc, slot := 0, buf := buf }

/-- The answer of a wait that gave up. -/
def timeoutAnswer (buf : Vector UInt8 512) : UsbAnswer :=
  { cc := timeoutCode, slot := 0, buf := buf }

/-- Where the driver is. -/
inductive UsbPhase where
  /-- Between two calls. -/
  | running (p : UsbProgram Enumerated)
  /-- In a call, with `trbs` still to push; with none left it waits. -/
  | calling (q : UsbRequest) (trbs : List Trb) (k : UsbAnswer → UsbProgram Enumerated)

/-- What is left of the program, at the call it is in. -/
def UsbPhase.program : UsbPhase → UsbProgram Enumerated
  | running p => p
  | calling q _ k => .ask q k

/-- An event on the ring, and the ring whose oldest request it completes: the driver
sees the event only. -/
structure UsbEvent where
  event : Trb
  completes : Option UsbRing

/-- Driver and controller. -/
structure UsbSession where
  phase : UsbPhase
  /-- TRBs pushed and not consumed. -/
  queued : UsbRing → List Trb
  /-- Events posted and not taken off the ring. -/
  events : List UsbEvent
  /-- Requests whose completion has not come off the event ring, oldest first. -/
  unread : UsbRing → List UsbRequest
  /-- The calls that have returned, and with what. -/
  log : List UsbExchange

inductive UsbStep where
  /-- The driver makes its next call. -/
  | call
  /-- It pushes the call's next TRB. -/
  | push
  /-- The controller consumes the next TRB of a ring, and posts `event` if it posts one. -/
  | consume (ring : UsbRing) (event : Trb)
  /-- It posts any other event: a port's, or that of a transfer that failed halfway. -/
  | post (event : Trb)
  /-- The driver finds an event in `evt_wait`, with `buf` in the descriptor buffer. -/
  | look (buf : Vector UInt8 512)
  /-- The driver gives up. -/
  | giveUp (buf : Vector UInt8 512)
  deriving DecidableEq

namespace UsbSession

def start (p : UsbProgram Enumerated) : UsbSession :=
  { phase := .running p, queued := fun _ => [], events := [], unread := fun _ => [], log := [] }

def call (s : UsbSession) : UsbSession :=
  match s.phase with
  | .running (.ask q k) =>
      { s with
        phase := .calling q q.trbs k
        unread := Function.update s.unread q.ring (s.unread q.ring ++ [q]) }
  | _ => s

def push (s : UsbSession) : UsbSession :=
  match s.phase with
  | .calling q (t :: trbs) k =>
      { s with
        phase := .calling q trbs k
        queued := Function.update s.queued q.ring (s.queued q.ring ++ [t]) }
  | _ => s

def consume (s : UsbSession) (ring : UsbRing) (event : Trb) : UsbSession :=
  match s.queued ring with
  | [] => s
  | t :: rest =>
      { s with
        queued := Function.update s.queued ring rest
        events := if ring.posts t then s.events ++ [{ event := event, completes := some ring }]
          else s.events }

def post (s : UsbSession) (event : Trb) : UsbSession :=
  { s with events := s.events ++ [{ event := event, completes := none }] }

/-- The session once an event has come off the ring. -/
def read (s : UsbSession) (e : UsbEvent) (rest : List UsbEvent) : UsbSession :=
  match e.completes with
  | some ring =>
      { s with
        events := rest
        unread := Function.update s.unread ring (s.unread ring).tail }
  | none => { s with events := rest }

/-- The call returns. -/
def finish (s : UsbSession) (q : UsbRequest) (k : UsbAnswer → UsbProgram Enumerated)
    (r : UsbAnswer) : UsbSession :=
  { s with phase := .running (k r), log := s.log ++ [(q, r)] }

def look (s : UsbSession) (buf : Vector UInt8 512) : UsbSession :=
  match s.phase, s.events with
  | .calling q [] k, e :: rest =>
      match q.wait.takes e.event with
      | some r => (s.read e rest).finish q k (r.answer buf)
      | none => s.read e rest
  | _, _ => s

def giveUp (s : UsbSession) (buf : Vector UInt8 512) : UsbSession :=
  match s.phase with
  | .calling q [] k => s.finish q k (timeoutAnswer buf)
  | _ => s

def step (s : UsbSession) : UsbStep → UsbSession
  | .call => s.call
  | .push => s.push
  | .consume ring event => s.consume ring event
  | .post event => s.post event
  | .look buf => s.look buf
  | .giveUp buf => s.giveUp buf

/-- The next push does not overwrite a TRB the controller has not consumed. -/
def HasRoom (s : UsbSession) : Prop :=
  match s.phase with
  | .calling q (_ :: _) _ => (s.queued q.ring).length < q.ring.usable
  | _ => True

/-- The TRBs of requests whose completion has not come off the event ring. -/
def unreadTrbs (s : UsbSession) (ring : UsbRing) : List Trb :=
  (s.unread ring).flatMap UsbRequest.trbs

/-- The next call fits on its ring next to every request whose completion has not come
off the event ring. -/
def Fits (s : UsbSession) : Prop :=
  match s.phase with
  | .running (.ask q _) => (s.unreadTrbs q.ring).length + q.trbs.length ≤ q.ring.usable
  | _ => True

instance (s : UsbSession) : Decidable s.HasRoom := by
  unfold HasRoom
  split <;> infer_instance

instance (s : UsbSession) : Decidable s.Fits := by
  unfold Fits
  split <;> infer_instance

/-! ### The driver runs its program -/

variable {s : UsbSession} {p : UsbProgram Enumerated}

theorem read_phase (s : UsbSession) (e : UsbEvent) (rest : List UsbEvent) :
    (s.read e rest).phase = s.phase ∧ (s.read e rest).log = s.log := by
  unfold read
  split <;> exact ⟨rfl, rfl⟩

theorem finish_reaches {q : UsbRequest} {k : UsbAnswer → UsbProgram Enumerated}
    (h : p.Reaches s.log s.phase.program) (hphase : s.phase.program = .ask q k)
    (r : UsbAnswer) : p.Reaches (s.finish q k r).log (s.finish q k r).phase.program := by
  rw [hphase] at h
  exact h.snoc r

theorem step_reaches (h : p.Reaches s.log s.phase.program) (a : UsbStep) :
    p.Reaches (s.step a).log (s.step a).phase.program := by
  cases a with
  | call =>
      show p.Reaches s.call.log s.call.phase.program
      unfold call
      split
      · rename_i q k hphase
        rw [hphase] at h
        exact h
      · exact h
  | push =>
      show p.Reaches s.push.log s.push.phase.program
      unfold push
      split
      · rename_i q t trbs k hphase
        rw [hphase] at h
        exact h
      · exact h
  | consume ring event =>
      show p.Reaches (s.consume ring event).log (s.consume ring event).phase.program
      unfold consume
      split <;> exact h
  | post event => exact h
  | look buf =>
      show p.Reaches (s.look buf).log (s.look buf).phase.program
      unfold look
      split
      · rename_i q k e rest hphase _
        have hread : p.Reaches (s.read e rest).log (s.read e rest).phase.program := by
          rw [(read_phase s e rest).1, (read_phase s e rest).2]
          exact h
        split
        · exact finish_reaches hread (by rw [(read_phase s e rest).1, hphase]; rfl) _
        · exact hread
      · exact h
  | giveUp buf =>
      show p.Reaches (s.giveUp buf).log (s.giveUp buf).phase.program
      unfold giveUp
      split
      · rename_i q k hphase
        exact finish_reaches h (by rw [hphase]; rfl) _
      · exact h

/-- Whatever the controller does, the calls and their answers are a conversation of the
program. -/
theorem run_reaches {trace : List (UsbSession × UsbStep)}
    (hrun : Run (Next step) (start p) trace s) : p.Reaches s.log s.phase.program :=
  hrun.always_next (I := fun s => p.Reaches s.log s.phase.program) .nil
    fun _ a h => step_reaches h a

/-! ### What is on the rings -/

/-- TRBs of the current call that are still to be pushed. -/
def unpushed (s : UsbSession) (ring : UsbRing) : List Trb :=
  match s.phase with
  | .calling q trbs _ => if q.ring = ring then trbs else []
  | .running _ => []

/-- Completions of a ring's requests that are on the event ring. -/
def posted (s : UsbSession) (ring : UsbRing) : ℕ :=
  s.events.countP (·.completes = some ring)

/-- Requests the controller has not completed, as far as the driver has made them. -/
def uncompleted (s : UsbSession) (ring : UsbRing) : List Trb :=
  ((s.unread ring).drop (s.posted ring)).flatMap UsbRequest.trbs

structure Inv (s : UsbSession) : Prop where
  /-- What is queued, or about to be, is the end of what is not completed. -/
  queued_suffix : ∀ ring, s.queued ring ++ s.unpushed ring <:+ s.uncompleted ring
  posted_le : ∀ ring, s.posted ring ≤ (s.unread ring).length
  ring_eq : ∀ ring, ∀ q ∈ s.unread ring, q.ring = ring
  /-- A call that has begun fits on its ring. -/
  fits : ∀ q t trbs k, s.phase = .calling q (t :: trbs) k →
    (s.unreadTrbs q.ring).length ≤ q.ring.usable

theorem start_inv (p : UsbProgram Enumerated) : (start p).Inv :=
  ⟨fun _ => List.suffix_rfl, fun _ => Nat.le_refl _, fun _ _ h => absurd h (by simp [start]),
    fun _ _ _ _ h => absurd h (by simp [start])⟩

theorem setupTrb_ioc (setup : SetupPacket) {trt : UInt32} (h : trt = 0 ∨ trt = 3) :
    (setupTrb setup trt).ioc = false := by
  show (((trbSetup <<< 10) ||| ((1 : UInt32) <<< 6) ||| (trt <<< 16)) >>> 5 &&& 1 == 1) = false
  rcases h with rfl | rfl <;> decide

/-- Only the last TRB of a request posts an event. -/
theorem trbs_eq (q : UsbRequest) :
    ∃ init last, q.trbs = init ++ [last] ∧ ∀ t ∈ init, q.ring.posts t = false := by
  cases q with
  | command c => exact ⟨[], c.trb, rfl, by simp⟩
  | ctrlIn port slot setup bufPhys len =>
      refine ⟨(ctrlInTrbs setup bufPhys len).dropLast, _, rfl, ?_⟩
      intro t ht
      rcases List.mem_cons.mp ht with rfl | ht
      · exact setupTrb_ioc setup (Or.inr rfl)
      · obtain rfl := List.mem_singleton.mp ht
        show (((trbData <<< 10) ||| ((1 : UInt32) <<< 16)) >>> 5 &&& 1 == 1) = false
        decide
  | ctrlOut port slot setup =>
      refine ⟨[setupTrb setup 0], _, rfl, ?_⟩
      intro t ht
      obtain rfl := List.mem_singleton.mp ht
      exact setupTrb_ioc setup (Or.inl rfl)

/-- Taking the TRB that ends a request off the front leaves an end of the rest. -/
theorem suffix_of_ends {α : Type*} {x : α} {t init rest : List α} {last : α}
    (h : x :: t <:+ init ++ [last] ++ rest) (hx : x ∉ init) : t <:+ rest := by
  obtain ⟨pre, hpre⟩ := h
  rcases List.append_eq_append_iff.mp hpre with ⟨mid, hmid, hrest⟩ | ⟨mid, hmid, hrest⟩
  · cases mid with
    | nil => exact ⟨[x], by simpa using hrest⟩
    | cons y mid =>
        obtain ⟨rfl, rfl⟩ := List.cons.inj hrest
        rcases List.eq_nil_or_concat mid with rfl | ⟨mid', z, rfl⟩
        · exact List.suffix_rfl
        · have hinit : init ++ [last] = (pre ++ x :: mid') ++ [z] := by simpa using hmid
          refine absurd ?_ hx
          rw [(List.append_inj' hinit rfl).1]
          simp
  · exact ⟨mid ++ [x], by simp [hrest]⟩

theorem posted_append (s : UsbSession) (e : UsbEvent) (ring : UsbRing) :
    (s.events ++ [e]).countP (·.completes = some ring)
      = s.posted ring + if e.completes = some ring then 1 else 0 := by
  rw [List.countP_append, List.countP_singleton]
  simp [posted]

theorem posted_cons {e : UsbEvent} {rest : List UsbEvent} (he : s.events = e :: rest)
    (ring : UsbRing) : s.posted ring
      = rest.countP (·.completes = some ring) + if e.completes = some ring then 1 else 0 := by
  unfold posted
  rw [he, List.countP_cons]
  simp

theorem unpushed_eq {q : UsbRequest} {trbs : List Trb} {k : UsbAnswer → UsbProgram Enumerated}
    (h : s.phase = .calling q trbs k) (ring : UsbRing) :
    s.unpushed ring = if q.ring = ring then trbs else [] := by
  unfold unpushed
  rw [h]

theorem Inv.call (h : s.Inv) (hfits : s.Fits) : s.call.Inv := by
  unfold UsbSession.call
  split
  · rename_i q k hphase
    have hunpushed : ∀ ring, s.unpushed ring = [] := by
      intro ring
      unfold unpushed
      rw [hphase]
    refine ⟨fun ring => ?_, fun ring => ?_, fun ring q' hq' => ?_, ?_⟩
    · have hold := h.queued_suffix ring
      rw [hunpushed, List.append_nil] at hold
      by_cases hring : q.ring = ring
      · subst hring
        show s.queued q.ring ++ (if q.ring = q.ring then q.trbs else []) <:+
          (List.drop (s.posted q.ring) (Function.update s.unread q.ring _ q.ring)).flatMap _
        rw [if_pos rfl, Function.update_self, List.drop_append_of_le_length (h.posted_le q.ring),
          List.flatMap_append, List.flatMap_singleton]
        obtain ⟨pre, hpre⟩ := hold
        exact ⟨pre, by rw [← List.append_assoc, hpre]; rfl⟩
      · show s.queued ring ++ (if q.ring = ring then q.trbs else []) <:+
          (List.drop (s.posted ring) (Function.update s.unread q.ring _ ring)).flatMap _
        rw [if_neg hring, List.append_nil, Function.update_of_ne (Ne.symm hring)]
        exact hold
    · have hold := h.posted_le ring
      show s.posted ring ≤ (Function.update s.unread q.ring _ ring).length
      by_cases hring : q.ring = ring
      · subst hring
        rw [Function.update_self, List.length_append]
        omega
      · rw [Function.update_of_ne (Ne.symm hring)]
        exact hold
    · have hq' : q' ∈ Function.update s.unread q.ring (s.unread q.ring ++ [q]) ring := hq'
      by_cases hring : q.ring = ring
      · subst hring
        rw [Function.update_self] at hq'
        rcases List.mem_append.mp hq' with hmem | hmem
        · exact h.ring_eq _ q' hmem
        · rw [List.mem_singleton.mp hmem]
      · rw [Function.update_of_ne (Ne.symm hring)] at hq'
        exact h.ring_eq ring q' hq'
    · intro q' t trbs k' hcalling
      obtain ⟨rfl, -, -⟩ := UsbPhase.calling.inj hcalling
      have hfit : (s.unreadTrbs q.ring).length + q.trbs.length ≤ q.ring.usable := by
        unfold Fits at hfits
        rw [hphase] at hfits
        exact hfits
      show ((Function.update s.unread q.ring _ q.ring).flatMap _).length ≤ _
      rw [Function.update_self, List.flatMap_append, List.flatMap_singleton, List.length_append]
      exact hfit
  · exact h

theorem Inv.push (h : s.Inv) : s.push.Inv := by
  unfold UsbSession.push
  split
  · rename_i q t trbs k hphase
    refine ⟨fun ring => ?_, h.posted_le, h.ring_eq, ?_⟩
    · have hold := h.queued_suffix ring
      rw [unpushed_eq hphase] at hold
      show Function.update s.queued q.ring _ ring ++ (if q.ring = ring then trbs else []) <:+
        s.uncompleted ring
      by_cases hring : q.ring = ring
      · subst hring
        rw [if_pos rfl] at hold
        rw [if_pos rfl, Function.update_self, List.append_assoc]
        exact hold
      · rw [if_neg hring] at hold
        rw [if_neg hring, Function.update_of_ne (Ne.symm hring)]
        exact hold
    · intro q' t' trbs' k' hcalling
      obtain ⟨rfl, -, -⟩ := UsbPhase.calling.inj hcalling
      exact h.fits q t trbs k hphase
  · exact h

/-- The ring's next TRB ends the oldest request that is not completed. -/
theorem Inv.uncompleted_cons (h : s.Inv) {ring : UsbRing} {t : Trb} {rest : List Trb}
    (hqueued : s.queued ring = t :: rest) (hposts : ring.posts t = true) :
    s.posted ring + 1 ≤ (s.unread ring).length ∧
      rest ++ s.unpushed ring <:+
        ((s.unread ring).drop (s.posted ring + 1)).flatMap UsbRequest.trbs := by
  have hold := h.queued_suffix ring
  unfold uncompleted at hold
  rw [hqueued] at hold
  cases hdrop : (s.unread ring).drop (s.posted ring) with
  | nil =>
      rw [hdrop] at hold
      exact absurd (List.suffix_nil.mp hold) (by simp)
  | cons q rest' =>
      have hlt : s.posted ring < (s.unread ring).length := by
        by_contra hle
        rw [List.drop_eq_nil_of_le (Nat.le_of_not_lt hle)] at hdrop
        exact absurd hdrop (by simp)
      have hq : q.ring = ring :=
        h.ring_eq ring q (List.mem_of_mem_drop (hdrop ▸ List.mem_cons_self))
      obtain ⟨init, last, htrbs, hinit⟩ := trbs_eq q
      rw [hdrop, List.flatMap_cons, htrbs, List.cons_append] at hold
      refine ⟨hlt, ?_⟩
      rw [← List.tail_drop, hdrop]
      refine suffix_of_ends hold fun hmem => ?_
      rw [hq] at hinit
      exact absurd (hinit t hmem) (by rw [hposts]; simp)

theorem Inv.consume (h : s.Inv) (ring : UsbRing) (event : Trb) : (s.consume ring event).Inv := by
  unfold UsbSession.consume
  split
  · exact h
  rename_i t rest hqueued
  by_cases hposts : ring.posts t = true
  · rw [if_pos hposts]
    obtain ⟨hlt, hrest⟩ := h.uncompleted_cons hqueued hposts
    refine ⟨fun ring' => ?_, fun ring' => ?_, h.ring_eq, h.fits⟩
    · show Function.update s.queued ring rest ring' ++ s.unpushed ring' <:+
        (List.drop (List.countP _ _) (s.unread ring')).flatMap _
      rw [posted_append]
      by_cases hring : ring = ring'
      · subst hring
        rw [Function.update_self, if_pos rfl]
        exact hrest
      · rw [Function.update_of_ne (Ne.symm hring), if_neg fun hc => hring (Option.some.inj hc)]
        exact h.queued_suffix ring'
    · show List.countP _ _ ≤ _
      rw [posted_append]
      by_cases hring : ring = ring'
      · subst hring
        rw [if_pos rfl]
        exact hlt
      · rw [if_neg fun hc => hring (Option.some.inj hc)]
        exact h.posted_le ring'
  · rw [if_neg hposts]
    refine ⟨fun ring' => ?_, h.posted_le, h.ring_eq, h.fits⟩
    have hold := h.queued_suffix ring'
    show Function.update s.queued ring rest ring' ++ s.unpushed ring' <:+ s.uncompleted ring'
    by_cases hring : ring = ring'
    · subst hring
      rw [hqueued, List.cons_append] at hold
      rw [Function.update_self]
      exact (List.suffix_cons _ _).trans hold
    · rw [Function.update_of_ne (Ne.symm hring)]
      exact hold

theorem Inv.post (h : s.Inv) (event : Trb) : (s.post event).Inv := by
  have hposted : ∀ ring, (s.post event).posted ring = s.posted ring := by
    intro ring
    exact (posted_append s _ ring).trans (by simp)
  refine ⟨fun ring => ?_, fun ring => ?_, h.ring_eq, h.fits⟩
  · show _ <:+ List.flatMap _ (List.drop ((s.post event).posted ring) _)
    rw [hposted]
    exact h.queued_suffix ring
  · rw [hposted]
    exact h.posted_le ring

/-- An event that comes off the event ring takes its request along. -/
theorem Inv.read (h : s.Inv) {e : UsbEvent} {rest : List UsbEvent} (he : s.events = e :: rest) :
    (s.read e rest).Inv := by
  unfold UsbSession.read
  split
  · rename_i ring hcompletes
    have hdrop : ∀ ring', (Function.update s.unread ring (s.unread ring).tail ring').drop
        (rest.countP (·.completes = some ring')) = (s.unread ring').drop (s.posted ring') := by
      intro ring'
      rw [posted_cons he ring', hcompletes]
      by_cases hring : ring = ring'
      · subst hring
        rw [Function.update_self, if_pos rfl, ← List.drop_one, List.drop_drop, Nat.add_comm]
      · rw [Function.update_of_ne (Ne.symm hring), if_neg (fun hc => hring (Option.some.inj hc))]
        rfl
    refine ⟨fun ring' => ?_, fun ring' => ?_, fun ring' q hq => ?_, ?_⟩
    · show s.queued ring' ++ s.unpushed ring' <:+ List.flatMap _
        (List.drop (List.countP _ rest) (Function.update s.unread ring _ ring'))
      rw [hdrop]
      exact h.queued_suffix ring'
    · have hold := h.posted_le ring'
      rw [posted_cons he ring', hcompletes] at hold
      show List.countP _ rest ≤ (Function.update s.unread ring _ ring').length
      by_cases hring : ring = ring'
      · subst hring
        rw [if_pos rfl] at hold
        rw [Function.update_self, List.length_tail]
        omega
      · rw [Function.update_of_ne (Ne.symm hring)]
        omega
    · have hq : q ∈ Function.update s.unread ring (s.unread ring).tail ring' := hq
      by_cases hring : ring = ring'
      · subst hring
        rw [Function.update_self] at hq
        exact h.ring_eq ring q (List.mem_of_mem_tail hq)
      · rw [Function.update_of_ne (Ne.symm hring)] at hq
        exact h.ring_eq ring' q hq
    · intro q t trbs k hphase
      have hold := h.fits q t trbs k hphase
      refine Nat.le_trans ?_ hold
      show ((Function.update s.unread ring _ q.ring).flatMap _).length ≤ _
      by_cases hring : ring = q.ring
      · subst hring
        rw [Function.update_self]
        exact ((List.tail_sublist _).flatMap _).length_le
      · rw [Function.update_of_ne (Ne.symm hring)]
        exact Nat.le_refl _
  · rename_i hcompletes
    have hsame : ∀ ring, s.posted ring = rest.countP (·.completes = some ring) := by
      intro ring
      rw [posted_cons he ring, hcompletes]
      simp
    refine ⟨fun ring => ?_, fun ring => ?_, h.ring_eq, h.fits⟩
    · have hold := h.queued_suffix ring
      unfold uncompleted at hold
      rw [hsame ring] at hold
      exact hold
    · have hold := h.posted_le ring
      rw [hsame ring] at hold
      exact hold

theorem Inv.finish (h : s.Inv) {q : UsbRequest} {k : UsbAnswer → UsbProgram Enumerated}
    (hphase : s.phase = .calling q [] k) (r : UsbAnswer) : (s.finish q k r).Inv := by
  refine ⟨fun ring => ?_, h.posted_le, h.ring_eq,
    fun _ _ _ _ hc => absurd hc (by simp [UsbSession.finish])⟩
  have hold := h.queued_suffix ring
  rw [unpushed_eq hphase, ite_self] at hold
  exact hold

theorem Inv.look (h : s.Inv) (buf : Vector UInt8 512) : (s.look buf).Inv := by
  unfold UsbSession.look
  split
  · rename_i q k e rest hphase he
    have hread := h.read he
    split
    · exact hread.finish (by rw [(read_phase s e rest).1, hphase]) _
    · exact hread
  · exact h

theorem Inv.giveUp (h : s.Inv) (buf : Vector UInt8 512) : (s.giveUp buf).Inv := by
  unfold UsbSession.giveUp
  split
  · rename_i q k hphase
    exact h.finish hphase _
  · exact h

theorem Inv.step (h : s.Inv) {a : UsbStep} (hfits : a = .call → s.Fits) : (s.step a).Inv := by
  cases a with
  | call => exact h.call (hfits rfl)
  | push => exact h.push
  | consume ring event => exact h.consume ring event
  | post event => exact h.post event
  | look buf => exact h.look buf
  | giveUp buf => exact h.giveUp buf

/-- What is unconsumed and the TRB about to be pushed belong to requests that fit. -/
theorem Inv.hasRoom (h : s.Inv) : s.HasRoom := by
  unfold HasRoom
  split
  · rename_i q t trbs k hphase
    have hqueued := (h.queued_suffix q.ring).length_le
    rw [unpushed_eq hphase, if_pos rfl, List.length_append, List.length_cons] at hqueued
    have hdrop : (s.uncompleted q.ring).length ≤ (s.unreadTrbs q.ring).length :=
      ((List.drop_sublist _ _).flatMap _).length_le
    have := h.fits q t trbs k hphase
    omega
  · trivial

/--
**No ring is overrun while each call fits.**  However slowly the controller consumes
what is queued and whatever waits give up: if every call is made only when it fits on
its ring next to the requests whose completion has not come off the event ring, no push
overwrites a TRB that has not been consumed.
-/
theorem initUnsafe_no_overrun (mem : ℕ → DeviceMem) (portsc : List UInt32)
    {trace : List (UsbSession × UsbStep)}
    (hrun : Run (Next step) (start (initUnsafe mem portsc)) trace s)
    (hfits : ∀ e ∈ trace, e.2 = .call → e.1.Fits) :
    ∀ e ∈ trace, e.2 = .push → e.1.HasRoom := by
  have hinv := hrun.invariant (I := Inv) (K := fun s a => a = .call → s.Fits)
    (start_inv _) (fun s a s' hi hk hs => by
      rw [← show s.step a = s' from hs]
      exact hi.step hk) hfits
  intro e he _
  exact (hinv.2 e he).hasRoom

/-- A call whose pushes are all made before the controller consumes anything. -/
theorem iterate_push {q : UsbRequest} {k : UsbAnswer → UsbProgram Enumerated}
    (hphase : s.phase = .running (.ask q k)) : ∀ i, i ≤ q.trbs.length →
      (UsbSession.push^[i] s.call).phase = .calling q (q.trbs.drop i) k ∧
        (UsbSession.push^[i] s.call).queued q.ring = s.queued q.ring ++ q.trbs.take i := by
  intro i
  induction i with
  | zero =>
      intro _
      unfold UsbSession.call
      rw [hphase]
      simp
  | succ i ih =>
      intro hi
      obtain ⟨hcalling, hqueued⟩ := ih (by omega)
      rw [List.drop_eq_getElem_cons (by omega : i < q.trbs.length)] at hcalling
      rw [Function.iterate_succ_apply', List.take_succ_eq_append_getElem (by omega)]
      generalize UsbSession.push^[i] s.call = s' at hcalling hqueued
      unfold UsbSession.push
      rw [hcalling]
      refine ⟨rfl, ?_⟩
      show Function.update s'.queued q.ring _ q.ring = _
      rw [Function.update_self, hqueued, List.append_assoc]

/-- The condition is no stronger than it has to be: a controller that has consumed
nothing but what the driver has been told of overruns at the first call that does not
fit, unless it consumes something during the call. -/
theorem overruns_of_not_fits {q : UsbRequest} {k : UsbAnswer → UsbProgram Enumerated}
    (hphase : s.phase = .running (.ask q k)) (hlazy : s.queued q.ring = s.unreadTrbs q.ring)
    (hfits : ¬ s.Fits) : ∃ i < q.trbs.length, ¬ (UsbSession.push^[i] s.call).HasRoom := by
  have hover : q.ring.usable < (s.queued q.ring).length + q.trbs.length := by
    unfold Fits at hfits
    rw [hphase] at hfits
    rw [hlazy]
    exact Nat.lt_of_not_le hfits
  obtain ⟨init, last, htrbs, -⟩ := trbs_eq q
  have hpos : 0 < q.trbs.length := by simp [htrbs]
  have hi : q.ring.usable - (s.queued q.ring).length < q.trbs.length := by omega
  refine ⟨q.ring.usable - (s.queued q.ring).length, hi, ?_⟩
  obtain ⟨hcalling, hqueued⟩ := iterate_push hphase _ (Nat.le_of_lt hi)
  rw [List.drop_eq_getElem_cons hi] at hcalling
  unfold HasRoom
  rw [hcalling]
  show ¬ (List.length _ < _)
  rw [hqueued, List.length_append, List.length_take]
  omega

/-- A port's Enable Slot that is pushed and given up on. -/
def unanswered : List UsbStep := [.call, .push, .giveUp (Vector.replicate 512 0)]

/-- Fifteen connected ports, and a controller that consumes nothing. -/
theorem initUnsafe_no_overrun_unanswered :
    ∃ trace s,
      Run (Next step) (start (initUnsafe (fun _ => ⟨0, 0⟩) (List.replicate 15 1))) trace s ∧
      (s.queued .command).length = 15 ∧ ∀ e ∈ trace, e.2 = .push → e.1.HasRoom :=
  ⟨_, _, Run.ofActions step _ (List.replicate 15 unanswered).flatten, by decide +kernel,
    initUnsafe_no_overrun _ _ (Run.ofActions step _ _) (by decide +kernel)⟩

/-- The sixteenth Enable Slot overwrites the first. -/
theorem enableSlot_overruns :
    ∃ trace s,
      Run (Next step) (start (initUnsafe (fun _ => ⟨0, 0⟩) (List.replicate 16 1))) trace s ∧
      ∃ e ∈ trace, e.2 = .push ∧ ¬ e.1.HasRoom ∧ (e.1.queued .command).length = 15 :=
  ⟨_, _, Run.ofActions step _ (List.replicate 16 unanswered).flatten, by decide +kernel⟩

end UsbSession

end Amaterasu
