import UdpQueue.Library.Mutex
import UdpQueue.Ledger
import UdpQueue.Loop

namespace UdpQueue

-- calls of `process_with_socket` on one manager; a call without a phase does not hold `process_lock`
structure Callers (Call : Type) where
  manager : Manager
  processLock : Mutex Call
  phase : Call → Option Phase

inductive CallerOp (Call : Type) where
  | request (request : Request)
  | enter (c : Call)
  | processNext (c : Call) (currentTime nanos : Int)
  | finish (c : Call) (reading : Int)
  | leave (c : Call)

inductive CallerEvent (Call : Type) where
  | request (event : Event)
  | processed (c : Call) (currentTime nanos : Int) (result : Processed)
  | finished (c : Call) (sent : Dispatched) (currentTime : Int) (slept : Option Int)
  | moved (c : Call)
  | blocked

namespace CallerEvent
variable {Call : Type}

def events : CallerEvent Call → List Event
  | .request event => [event]
  | .processed _ currentTime nanos result => [.process currentTime nanos result]
  | _ => []

def freed (e : CallerEvent Call) : List AddrInfo := freedIn e.events

def FinishedBy (c : Call) : CallerEvent Call → Prop
  | .finished c' _ _ _ => c' = c
  | _ => False

def Unprocessed (e : CallerEvent Call) : Prop :=
  e.events = [] ∨ ∃ (m : Manager) (request : Request), e.events = [client.out m request.op]

instance [DecidableEq Call] (c : Call) : DecidablePred (FinishedBy c) := fun e =>
  match e with
  | .finished c' _ _ _ => inferInstanceAs (Decidable (c' = c))
  | .request _ | .processed _ _ _ _ | .moved _ | .blocked => inferInstanceAs (Decidable False)

end CallerEvent

def sleepTime (targetTime currentTime : Int) : Option Int :=
  let waitTime := targetTime - currentTime
  if waitTime ≥ 1500000 then some waitTime else none

namespace Callers
variable {Call : Type}

def create (queueBufferCapacity : SizeT) (packetInterval : Int) : Callers Call :=
  { manager := .create queueBufferCapacity packetInterval, processLock := .free
    phase := fun _ => none }

variable [DecidableEq Call]

def goto (s : Callers Call) (c : Call) (phase : Option Phase) : Callers Call :=
  { s with phase := Function.update s.phase c phase }

def enter (s : Callers Call) (c : Call) : Callers Call × CallerEvent Call :=
  match s.phase c, s.processLock.lock c with
  | none, some processLock => ({ s with processLock }.goto c (some .entering), .moved c)
  | _, _ => (s, .blocked)

def processNext (s : Callers Call) (c : Call) (currentTime nanos : Int) :
    Callers Call × CallerEvent Call :=
  match s.phase c with
  | some .entering =>
    if s.manager.shuttingDown then (s.goto c (some .left), .moved c)
    else
      let r := s.manager.processNextLocked {} currentTime nanos
      ({ s with manager := r.1 }.goto c (some (.sending currentTime r.2)),
        .processed c currentTime nanos r.2)
  | _ => (s, .blocked)

def finish (socketV4 socketV6 : Call → SocketT) (s : Callers Call) (c : Call) (reading : Int) :
    Callers Call × CallerEvent Call :=
  match s.phase c with
  | some (.sending currentTime result) =>
    match dispatched (socketV4 c) (socketV6 c) result.packetOut with
    | .undefined => (s.goto c (some .undefined), .finished c .undefined currentTime none)
    | sent =>
      let currentTime := if sent = .skipped then currentTime else reading
      (s.goto c (some .entering),
        .finished c sent currentTime (sleepTime result.targetTime currentTime))
  | _ => (s, .blocked)

def leave (s : Callers Call) (c : Call) : Callers Call × CallerEvent Call :=
  match s.phase c with
  | some .left => ({ s with processLock := s.processLock.unlock }.goto c none, .moved c)
  | _ => (s, .blocked)

end Callers

def callers {Call : Type} [DecidableEq Call] (socketV4 socketV6 : Call → SocketT) :
    Machine (Callers Call) (CallerOp Call) (CallerEvent Call) where
  step s
    | .request request =>
      let r := client.step s.manager request.op
      ({ s with manager := r.1 }, .request r.2)
    | .enter c => s.enter c
    | .processNext c currentTime nanos => s.processNext c currentTime nanos
    | .finish c reading => s.finish socketV4 socketV6 c reading
    | .leave c => s.leave c

section Step
variable {Call : Type} [DecidableEq Call] (socketV4 socketV6 : Call → SocketT)

inductive CallerStep (s : Callers Call) : Callers Call × CallerEvent Call → Prop
  | request (request : Request) :
      CallerStep s ({ s with manager := client.next s.manager request.op },
        .request (client.out s.manager request.op))
  | entered (c : Call) (processLock : Mutex Call) (hp : s.phase c = none)
      (hl : s.processLock.lock c = some processLock) :
      CallerStep s ({ s with processLock }.goto c (some .entering), .moved c)
  | left (c : Call) (hp : s.phase c = some .entering) :
      CallerStep s (s.goto c (some .left), .moved c)
  | processed (c : Call) (t u : Int) (hp : s.phase c = some .entering) :
      CallerStep s ({ s with manager := client.next s.manager (.processNext t u) }.goto c
          (some (.sending t (s.manager.processNextLocked {} t u).2)),
        .processed c t u (s.manager.processNextLocked {} t u).2)
  | crashed (c : Call) (t : Int) (result : Processed) (hp : s.phase c = some (.sending t result))
      (hd : dispatched (socketV4 c) (socketV6 c) result.packetOut = .undefined) :
      CallerStep s (s.goto c (some .undefined), .finished c .undefined t none)
  | finished (c : Call) (t reading current : Int) (result : Processed) (sent : Dispatched)
      (hp : s.phase c = some (.sending t result))
      (hd : dispatched (socketV4 c) (socketV6 c) result.packetOut = sent) (hu : sent ≠ .undefined)
      (hc : current = if sent = .skipped then t else reading) :
      CallerStep s (s.goto c (some .entering),
        .finished c sent current (sleepTime result.targetTime current))
  | returned (c : Call) (hp : s.phase c = some .left) :
      CallerStep s ({ s with processLock := s.processLock.unlock }.goto c none, .moved c)
  | blocked : CallerStep s (s, .blocked)

theorem caller_step (s : Callers Call) (op : CallerOp Call) :
    CallerStep socketV4 socketV6 s ((callers socketV4 socketV6).step s op) := by
  cases op with
  | request request => exact .request request
  | enter c =>
    change CallerStep socketV4 socketV6 s (s.enter c)
    rw [Callers.enter]
    cases hp : s.phase c with
    | some phase => exact .blocked
    | none =>
      cases hl : s.processLock.lock c with
      | some processLock => exact .entered c processLock hp hl
      | none => exact .blocked
  | processNext c t u =>
    change CallerStep socketV4 socketV6 s (s.processNext c t u)
    rw [Callers.processNext]
    rcases hp : s.phase c with _ | _ | ⟨t', result⟩ | _ | _
    · exact .blocked
    · simp only []
      split_ifs
      · exact .left c hp
      · exact .processed c t u hp
    · exact .blocked
    · exact .blocked
    · exact .blocked
  | finish c reading =>
    change CallerStep socketV4 socketV6 s (s.finish socketV4 socketV6 c reading)
    rw [Callers.finish]
    rcases hp : s.phase c with _ | _ | ⟨t, result⟩ | _ | _
    · exact .blocked
    · exact .blocked
    · simp only []
      cases hd : dispatched (socketV4 c) (socketV6 c) result.packetOut with
      | undefined => exact .crashed c t result hp hd
      | skipped => exact .finished c t reading _ result _ hp hd nofun rfl
      | sent call => exact .finished c t reading _ result _ hp hd nofun rfl
    · exact .blocked
    · exact .blocked
  | leave c =>
    change CallerStep socketV4 socketV6 s (s.leave c)
    rw [Callers.leave]
    rcases hp : s.phase c with _ | _ | ⟨t, result⟩ | _ | _
    · exact .blocked
    · exact .blocked
    · exact .blocked
    · exact .returned c hp
    · exact .blocked

theorem process_of_entering {s : Callers Call} {c : Call} (hp : s.phase c = some .entering)
    (hup : s.manager.shuttingDown = false) (t u : Int) :
    (callers socketV4 socketV6).step s (.processNext c t u) =
      ({ s with manager := (s.manager.processNextLocked {} t u).1 }.goto c
        (some (.sending t (s.manager.processNextLocked {} t u).2)),
        .processed c t u (s.manager.processNextLocked {} t u).2) := by
  change s.processNext c t u = _
  rw [Callers.processNext, hp]
  simp only [hup, Bool.false_eq_true, if_false]

theorem finish_of_sending {s : Callers Call} {c : Call} {t : Int} {result : Processed}
    {sent : Dispatched} (hp : s.phase c = some (.sending t result))
    (hd : dispatched (socketV4 c) (socketV6 c) result.packetOut = sent) (hu : sent ≠ .undefined)
    (reading : Int) :
    (callers socketV4 socketV6).step s (.finish c reading) = (s.goto c (some .entering),
      .finished c sent (if sent = .skipped then t else reading)
        (sleepTime result.targetTime (if sent = .skipped then t else reading))) := by
  change s.finish socketV4 socketV6 c reading = _
  rw [Callers.finish, hp]
  simp only [hd]

theorem finished_op {s : Callers Call} {op : CallerOp Call} {c : Call} {sent : Dispatched}
    {current : Int} {slept : Option Int}
    (h : ((callers socketV4 socketV6).step s op).2 = .finished c sent current slept) :
    ∃ reading, op = .finish c reading := by
  cases op with
  | request request => cases h
  | enter c' =>
    change (s.enter c').2 = _ at h
    rw [Callers.enter] at h
    split at h <;> cases h
  | processNext c' t u =>
    change (s.processNext c' t u).2 = _ at h
    rw [Callers.processNext] at h
    split at h
    · split_ifs at h
    · cases h
  | finish c' reading =>
    change (s.finish socketV4 socketV6 c' reading).2 = _ at h
    rw [Callers.finish] at h
    split at h
    · split at h <;> cases h <;> exact ⟨reading, rfl⟩
    · cases h
  | leave c' =>
    change (s.leave c').2 = _ at h
    rw [Callers.leave] at h
    split at h <;> cases h

theorem callers_refine_client (s : Callers Call) (op : CallerOp Call) :
    ∃ ops, client.run s.manager ops = ((callers socketV4 socketV6).next s op).manager ∧
      client.trace s.manager ops = ((callers socketV4 socketV6).out s op).events := by
  have h := caller_step socketV4 socketV6 s op
  rw [Machine.next, Machine.out]
  generalize (callers socketV4 socketV6).step s op = r at h
  cases h with
  | request request => exact ⟨[request.op], rfl, rfl⟩
  | processed c t u hp => exact ⟨[.processNext t u], rfl, rfl⟩
  | _ => exact ⟨[], rfl, rfl⟩

end Step

def callerEvents {Call : Type} (tr : List (CallerEvent Call)) : List Event :=
  tr.flatMap CallerEvent.events

section Run
variable {Call : Type} [DecidableEq Call] (socketV4 socketV6 : Call → SocketT)

theorem callers_run_client (s : Callers Call) (ops : List (CallerOp Call)) :
    ∃ requests, client.run s.manager requests = ((callers socketV4 socketV6).run s ops).manager ∧
      client.trace s.manager requests = callerEvents ((callers socketV4 socketV6).trace s ops) :=
  Machine.simulation (callers_refine_client socketV4 socketV6) s ops

end Run

def CallerEvent.loopEvent : CallerEvent Unit → LoopEvent
  | .request event => .client event
  | .processed _ currentTime nanos result => .client (.process currentTime nanos result)
  | .finished _ sent _ _ => .sent sent
  | .moved _ => .left
  | .blocked => .blocked

def Loop.caller (s : Loop) : Callers Unit :=
  { manager := s.manager, processLock := .held (), phase := fun _ => some s.phase }

theorem Callers.goto_unit (s : Callers Unit) (phase : Option Phase) :
    s.goto () phase = { s with phase := fun _ => phase } := by
  rw [Callers.goto, Function.update_eq_const_of_subsingleton]
  rfl

theorem loop_refines_callers (socketV4 socketV6 : SocketT) (s : Loop) (op : LoopOp) :
    ∃ callerOp, (callers (fun _ => socketV4) fun _ => socketV6).next s.caller callerOp =
        ((loop socketV4 socketV6).next s op).caller ∧
      ((callers (fun _ => socketV4) fun _ => socketV6).out s.caller callerOp).loopEvent =
        (loop socketV4 socketV6).out s op := by
  cases op with
  | request request => exact ⟨.request request, rfl, rfl⟩
  | processNext elapsed busy =>
    refine ⟨.processNext () (s.clock + elapsed) (s.clock + elapsed + busy), ?_⟩
    change (s.caller.processNext () _ _).1 = (s.processNext elapsed busy).1.caller ∧
      (s.caller.processNext () _ _).2.loopEvent = (s.processNext elapsed busy).2
    rw [Callers.processNext, Loop.processNext]
    obtain ⟨manager, clock, phase⟩ := s
    rcases phase with _ | ⟨t, result⟩ | _ | _
    · cases hs : manager.shuttingDown with
      | true =>
        simp only [Loop.caller, hs, if_true]
        exact ⟨Callers.goto_unit _ _, rfl⟩
      | false =>
        simp only [Loop.caller, hs, Bool.false_eq_true, if_false]
        exact ⟨Callers.goto_unit _ _, rfl⟩
    · exact ⟨rfl, rfl⟩
    · exact ⟨rfl, rfl⟩
    · exact ⟨rfl, rfl⟩
  | finish elapsed =>
    refine ⟨.finish () (s.clock + elapsed), ?_⟩
    change (s.caller.finish _ _ () _).1 = (s.finish socketV4 socketV6 elapsed).1.caller ∧
      (s.caller.finish _ _ () _).2.loopEvent = (s.finish socketV4 socketV6 elapsed).2
    rw [Callers.finish, Loop.finish]
    obtain ⟨manager, clock, phase⟩ := s
    rcases phase with _ | ⟨t, result⟩ | _ | _
    · exact ⟨rfl, rfl⟩
    · simp only [Loop.caller]
      cases dispatched socketV4 socketV6 result.packetOut with
      | _ => exact ⟨Callers.goto_unit _ _, rfl⟩
    · exact ⟨rfl, rfl⟩
    · exact ⟨rfl, rfl⟩

theorem loop_runs_callers (socketV4 socketV6 : SocketT) (s : Loop) (ops : List LoopOp) :
    ∃ callerOps, (callers (fun _ => socketV4) fun _ => socketV6).run s.caller callerOps =
        ((loop socketV4 socketV6).run s ops).caller ∧
      ((callers (fun _ => socketV4) fun _ => socketV6).trace s.caller callerOps).map
        CallerEvent.loopEvent = (loop socketV4 socketV6).trace s ops :=
  Machine.refinement (loop_refines_callers socketV4 socketV6) s ops

namespace Callers
variable {Call : Type}

structure Exclusive (s : Callers Call) : Prop where
  live : s.processLock ≠ .destroyed
  holder : ∀ c, s.phase c ≠ none → s.processLock = .held c

theorem create_exclusive (C : SizeT) (I : Int) : (create C I : Callers Call).Exclusive :=
  ⟨nofun, fun _ h => absurd rfl h⟩

theorem Exclusive.unique {s : Callers Call} (h : s.Exclusive) {c c' : Call} (hc : s.phase c ≠ none)
    (hc' : s.phase c' ≠ none) : c' = c :=
  Mutex.held.inj ((h.holder c' hc').symm.trans (h.holder c hc))

variable [DecidableEq Call]

theorem goto_sending {s : Callers Call} {c c' : Call} {phase : Option Phase} {t : Int}
    {result : Processed} (hc : (s.goto c' phase).phase c = some (.sending t result))
    (hp : ∀ t result, phase ≠ some (.sending t result)) :
    s.phase c = some (.sending t result) := by
  rcases eq_or_ne c c' with rfl | hne
  · simp only [Callers.goto, Function.update_self] at hc
    exact absurd hc (hp t result)
  · simpa only [Callers.goto, Function.update_of_ne hne] using hc

theorem goto_of_ne {s : Callers Call} {c c' : Call} (h : c ≠ c') (phase : Option Phase) :
    (s.goto c' phase).phase c = s.phase c :=
  Function.update_of_ne h _ _

theorem Exclusive.goto {s : Callers Call} (h : s.Exclusive) {c : Call} (hc : s.phase c ≠ none)
    (phase : Option Phase) : (s.goto c phase).Exclusive := by
  refine ⟨h.live, fun c' hc' => ?_⟩
  rcases eq_or_ne c' c with rfl | hne
  · exact h.holder c' hc
  · rw [goto_of_ne hne] at hc'
    exact h.holder c' hc'

theorem exclusive_step {socketV4 socketV6 : Call → SocketT} {s : Callers Call}
    {r : Callers Call × CallerEvent Call} (h : CallerStep socketV4 socketV6 s r)
    (hs : s.Exclusive) : r.1.Exclusive := by
  cases h with
  | request request => exact ⟨hs.live, hs.holder⟩
  | entered c processLock hp hl =>
    obtain ⟨hfree, rfl⟩ := Mutex.lock_eq_some hl hs.live
    refine ⟨nofun, fun c' hc' => ?_⟩
    rcases eq_or_ne c' c with rfl | hne
    · rfl
    · rw [goto_of_ne hne] at hc'
      exact absurd (hfree.symm.trans (hs.holder c' hc')) nofun
  | left c hp => exact hs.goto (by simp [hp]) _
  | processed c t u hp =>
    have hnext : Exclusive { s with manager := client.next s.manager (.processNext t u) } :=
      ⟨hs.live, hs.holder⟩
    exact hnext.goto (by simp [hp]) _
  | crashed c t result hp hd => exact hs.goto (by simp [hp]) _
  | finished c t reading current result sent hp hd hu hc => exact hs.goto (by simp [hp]) _
  | returned c hp =>
    refine ⟨Mutex.unlock_ne_destroyed hs.live, fun c' hc' => ?_⟩
    rcases eq_or_ne c' c with rfl | hne
    · simp [Callers.goto] at hc'
    · rw [goto_of_ne hne] at hc'
      exact absurd (hs.unique (by simp [hp]) hc') hne
  | blocked => exact hs

def Requested (s : Callers Call) (r : Callers Call × CallerEvent Call) : Prop :=
  r.1.manager = s.manager ∧ r.2.events = [] ∨
    ∃ request : Request, r.1.manager = client.next s.manager request.op ∧
      r.2.events = [client.out s.manager request.op]

section Sending
variable {socketV4 socketV6 : Call → SocketT} {s : Callers Call}
variable {r : Callers Call × CallerEvent Call} (h : CallerStep socketV4 socketV6 s r)
variable (hs : s.Exclusive) {c : Call} {t : Int} {result : Processed}
include h hs

-- a dispatching call holds `process_lock`, so until it finishes the queues see only requests
theorem sending_stays (hc : s.phase c = some (.sending t result)) (hf : ¬ r.2.FinishedBy c) :
    r.1.phase c = some (.sending t result) ∧ s.Requested r := by
  have hin : s.phase c ≠ none := by simp [hc]
  have hother (c' : Call) (hc' : s.phase c' ≠ none) (hne : s.phase c' ≠ s.phase c) : False :=
    hne (by rw [hs.unique hin hc'])
  cases h with
  | request request => exact ⟨hc, Or.inr ⟨request, rfl, rfl⟩⟩
  | entered c' processLock hp hl =>
    have hfree := (Mutex.lock_eq_some hl hs.live).1
    exact absurd (hfree.symm.trans (hs.holder c hin)) nofun
  | left c' hp => exact (hother c' (by simp [hp]) (by simp [hp, hc])).elim
  | processed c' t' u hp => exact (hother c' (by simp [hp]) (by simp [hp, hc])).elim
  | crashed c' t' result' hp hd => exact absurd (hs.unique hin (by simp [hp])) hf
  | finished c' t' reading current result' sent hp hd hu hcur =>
    exact absurd (hs.unique hin (by simp [hp])) hf
  | returned c' hp => exact (hother c' (by simp [hp]) (by simp [hp, hc])).elim
  | blocked => exact ⟨hc, Or.inl ⟨rfl, rfl⟩⟩

theorem sending_came (hc : r.1.phase c = some (.sending t result)) :
    s.phase c = some (.sending t result) ∧ s.Requested r ∨
      ∃ u, r.2 = .processed c t u result ∧ result = (s.manager.processNextLocked {} t u).2 ∧
        r.1.manager = (s.manager.processNextLocked {} t u).1 := by
  cases h with
  | request request => exact Or.inl ⟨hc, Or.inr ⟨request, rfl, rfl⟩⟩
  | processed c' t' u hp =>
    rcases eq_or_ne c c' with rfl | hne
    · simp only [Callers.goto, Function.update_self, Option.some.injEq, Phase.sending.injEq] at hc
      obtain ⟨rfl, rfl⟩ := hc
      exact Or.inr ⟨u, rfl, rfl, rfl⟩
    · rw [goto_of_ne hne] at hc
      have hin : s.phase c ≠ none := fun hnone => absurd (hnone.symm.trans hc) nofun
      exact absurd (hs.unique (by simp [hp]) hin) hne
  | entered c' processLock hp hl => exact Or.inl ⟨goto_sending hc (by simp), Or.inl ⟨rfl, rfl⟩⟩
  | left c' hp => exact Or.inl ⟨goto_sending hc (by simp), Or.inl ⟨rfl, rfl⟩⟩
  | crashed c' t' result' hp hd => exact Or.inl ⟨goto_sending hc (by simp), Or.inl ⟨rfl, rfl⟩⟩
  | finished c' t' reading current result' sent hp hd hu hcur =>
    exact Or.inl ⟨goto_sending hc (by simp), Or.inl ⟨rfl, rfl⟩⟩
  | returned c' hp => exact Or.inl ⟨goto_sending hc (by simp), Or.inl ⟨rfl, rfl⟩⟩
  | blocked => exact Or.inl ⟨hc, Or.inl ⟨rfl, rfl⟩⟩

end Sending

end Callers

section Run
variable {Call : Type} [DecidableEq Call] {socketV4 socketV6 : Call → SocketT}

theorem processed_step {s : Callers Call} {r : Callers Call × CallerEvent Call}
    (h : CallerStep socketV4 socketV6 s r) {c : Call} {t u : Int} {result : Processed}
    (he : r.2 = .processed c t u result) :
    result = (s.manager.processNextLocked {} t u).2 ∧ r.1.phase c = some (.sending t result) := by
  cases h with
  | processed c' t' u' hp =>
    cases he
    exact ⟨rfl, Function.update_self ..⟩
  | _ => cases he

theorem exclusive_run (C : SizeT) (I : Int) (ops : List (CallerOp Call)) :
    ((callers socketV4 socketV6).run (.create C I) ops).Exclusive :=
  Machine.run_invariant
    (fun s op h => Callers.exclusive_step (caller_step socketV4 socketV6 s op) h)
    (Callers.create_exclusive C I) ops

theorem requests_run (s : Callers Call) (requests : List Request) :
    (callers socketV4 socketV6).run s (requests.map .request) =
      { s with manager := client.run s.manager (requests.map Request.op) } := by
  induction requests generalizing s with
  | nil => rfl
  | cons request requests ih =>
    rw [List.map_cons, Machine.run_cons, ih]
    rfl

theorem sending_run {s : Callers Call} (hs : s.Exclusive) {c : Call} {t : Int} {result : Processed}
    (hc : s.phase c = some (.sending t result)) {ops : List (CallerOp Call)}
    {during after : List (CallerEvent Call)}
    (htr : (callers socketV4 socketV6).trace s ops = during ++ after)
    (hf : ∀ e ∈ during, ¬ e.FinishedBy c) :
    (∀ e ∈ during, e.Unprocessed) ∧ ∃ s' post, s'.phase c = some (.sending t result) ∧
      (callers socketV4 socketV6).trace s' post = after := by
  have hstep (s : Callers Call) (op : CallerOp Call)
      (h : s.Exclusive ∧ s.phase c = some (.sending t result))
      (hf : ¬ ((callers socketV4 socketV6).out s op).FinishedBy c) :
      (((callers socketV4 socketV6).next s op).Exclusive ∧
        ((callers socketV4 socketV6).next s op).phase c = some (.sending t result)) ∧
      ((callers socketV4 socketV6).out s op).Unprocessed := by
    have hop := caller_step socketV4 socketV6 s op
    obtain ⟨hnext, hreq⟩ := Callers.sending_stays hop h.1 h.2 hf
    refine ⟨⟨Callers.exclusive_step hop h.1, hnext⟩, ?_⟩
    rcases hreq with ⟨-, he⟩ | ⟨request, -, he⟩
    · exact Or.inl he
    · exact Or.inr ⟨s.manager, request, he⟩
  obtain ⟨hquiet, pre, post, -, ⟨-, hlast⟩, hpost⟩ := Machine.during _
    (P := fun s : Callers Call => s.Exclusive ∧ s.phase c = some (.sending t result))
    (R := CallerEvent.Unprocessed) hstep ⟨hs, hc⟩ htr hf
  exact ⟨hquiet, _, post, hlast, hpost⟩

end Run

end UdpQueue
