import UdpQueue.Callers
import UdpQueue.Library.Fallible
import UdpQueue.RateLimit

namespace UdpQueue

-- a result of `int64_t` arithmetic, undefined where it overflows
def signed (x : Int) : Option Int :=
  if -9223372036854775808 ≤ x ∧ x < 9223372036854775808 then some x else none

theorem signed_eq {x : Int} (hl : -9223372036854775808 ≤ x) (hu : x < 9223372036854775808) :
    signed x = some x :=
  if_pos ⟨hl, hu⟩

namespace Signed
variable (manager : Manager)

def getTargetTime (currentTime : Int) : Option Int :=
  match OrderedMap.front manager.queues with
  | none => signed (currentTime + manager.packetInterval)
  | some (_, item) => some item.nextDueTime

def nextDue (due nanos : Int) : Option Int := do
  let late ← signed (nanos - due)
  let limit ← signed (2 * manager.packetInterval)
  if late ≥ limit then signed (nanos + manager.packetInterval)
  else signed (due + manager.packetInterval)

def serve (key : Int64) (item : Item) (nanos : Int) : Option (Manager × Processed) := do
  let due ← nextDue manager item.nextDueTime nanos
  let after := { manager with
    queues := OrderedMap.insert key { item.pop.1 with nextDueTime := due } (manager.queues.erase key) }
  let targetTime ← getTargetTime after nanos
  some (after, { packetOut := item.pop.2, targetTime, exit := .popped key item.nextDueTime })

def processNextLocked (packetOut : Unsent) (currentTime nanos : Int) : Option (Manager × Processed) :=
  match OrderedMap.front manager.queues with
  | none => do
    let targetTime ← signed (currentTime + manager.packetInterval)
    some (manager, { packetOut := packetOut.clear, targetTime, exit := .idle })
  | some (key, item) =>
    if item.buffer.size = 0 then do
      let manager := { manager with queues := manager.queues.erase key }
      let targetTime ← getTargetTime manager currentTime
      some (manager, { packetOut := packetOut.clear, targetTime, exit := .erased key
                       freed := addrinfoFree item })
    else if item.nextDueTime = 0 then serve manager key { item with nextDueTime := currentTime } nanos
    else do
      let ahead ← signed (item.nextDueTime - currentTime)
      if ahead ≥ 1500000 then
        some (manager, { packetOut := packetOut.clear, targetTime := item.nextDueTime
                         exit := .waiting key })
      else serve manager key item nanos

def sleepTime (targetTime currentTime : Int) : Option (Option Int) := do
  let waitTime ← signed (targetTime - currentTime)
  some (if waitTime ≥ 1500000 then some waitTime else none)

section Callers
variable {Call : Type} [DecidableEq Call] (s : Callers Call)

def processNext (c : Call) (currentTime nanos : Int) : Option (Callers Call × CallerEvent Call) :=
  match s.phase c with
  | some .entering =>
    if s.manager.shuttingDown then some (s.goto c (some .left), .moved c)
    else (processNextLocked s.manager {} currentTime nanos).map fun r =>
      ({ s with manager := r.1 }.goto c (some (.sending currentTime r.2)),
        .processed c currentTime nanos r.2)
  | _ => some (s, .blocked)

def finish (socketV4 socketV6 : Call → SocketT) (c : Call) (reading : Int) :
    Option (Callers Call × CallerEvent Call) :=
  match s.phase c with
  | some (.sending currentTime result) =>
    match dispatched (socketV4 c) (socketV6 c) result.packetOut with
    | .undefined => some (s.goto c (some .undefined), .finished c .undefined currentTime none)
    | sent =>
      let currentTime := if sent = .skipped then currentTime else reading
      (sleepTime result.targetTime currentTime).map fun slept =>
        (s.goto c (some .entering), .finished c sent currentTime slept)
  | _ => some (s, .blocked)

def step (socketV4 socketV6 : Call → SocketT) : CallerOp Call → Option (Callers Call × CallerEvent Call)
  | .processNext c currentTime nanos => processNext s c currentTime nanos
  | .finish c reading => finish s socketV4 socketV6 c reading
  | op => some ((callers socketV4 socketV6).step s op)

end Callers

end Signed

-- where the deadlines of a manager with the interval `I` stay while no clock has passed `T`
def Timely (T I x : Int) : Prop := -(I.natAbs : Int) ≤ x ∧ x < T + I.natAbs + 1500000

def Reading (T x : Int) : Prop := 0 ≤ x ∧ x ≤ T

namespace Manager

def InTime (T : Int) (m : Manager) : Prop := ∀ k, Timely T m.packetInterval (m.deadline k)

section InTime
variable {T t u : Int} {m : Manager}

theorem nextDue_timely {due : Int} (_ : -(m.packetInterval.natAbs : Int) ≤ due)
    (_ : due < T + 1500000) (hu : Reading T u) :
    Timely T m.packetInterval (m.nextDue due u) := by
  obtain ⟨h0, hT⟩ := hu
  rw [nextDue, Timely]
  split_ifs <;> omega

theorem target_timely (hm : m.InTime T) (ht : Reading T t) :
    Timely T m.packetInterval (m.getTargetTime t) := by
  obtain ⟨h0, hT⟩ := ht
  rw [getTargetTime]
  cases hf : OrderedMap.front m.queues with
  | none =>
    rw [Timely]
    dsimp only
    omega
  | some e =>
    have hk := hm e.1
    rwa [deadline_of_lookup (OrderedMap.front_lookup hf)] at hk

theorem request_inTime (hm : m.InTime T) (request : Request) :
    (client.next m request.op).InTime T := by
  intro k
  rw [request_deadline, (client_frame m request.op).interval]
  exact hm k

variable {packetOut : Unsent} {r : Manager × Processed} (h : ProcessStep m packetOut t u r)
variable (hm : m.InTime T) (ht : Reading T t) (hu : Reading T u)
include h hm ht hu

theorem process_inTime : r.1.InTime T := by
  intro k
  have hk := hm k
  have hp (due : Int) (he : r.2.exit = .popped k due) := process_popped h he
  rw [process_deadline h k, (process_frame h).interval]
  obtain ⟨h0, hle⟩ := ht
  generalize r.2.exit = exit at hp ⊢
  cases exit with
  | erased key =>
    simp only []
    split_ifs
    · rw [Timely]
      omega
    · exact hk
  | popped key due =>
    simp only []
    split_ifs with hc
    · have hdue := hp due (by rw [hc])
      obtain ⟨hl, -⟩ := hk
      exact nextDue_timely (by omega) (by omega) hu
    · exact hk
  | _ => exact hk

theorem process_target_timely : Timely T m.packetInterval r.2.targetTime := by
  have hr := process_inTime h hm ht hu
  cases h with
  | idle hf =>
    obtain ⟨h0, hle⟩ := ht
    rw [Timely]
    dsimp only
    omega
  | erased key item hf hs => exact target_timely hr ht
  | waiting key item hf hs hd hw => exact deadline_of_lookup (OrderedMap.front_lookup hf) ▸ hm key
  | popped key item due hf hs hd => exact target_timely hr hu

end InTime

end Manager

namespace Signed

section Process
variable {T t u : Int} {m : Manager}
variable (hmax : T + m.packetInterval.natAbs + 1500000 ≤ 9223372036854775808)
include hmax

theorem getTargetTime_eq (ht : Reading T t) : getTargetTime m t = some (m.getTargetTime t) := by
  obtain ⟨h0, hT⟩ := ht
  rw [getTargetTime, Manager.getTargetTime]
  cases OrderedMap.front m.queues with
  | none => exact signed_eq (by omega) (by omega)
  | some e => rfl

variable (hdouble : 2 * (m.packetInterval.natAbs : Int) < 9223372036854775808)
include hdouble

theorem nextDue_eq {due : Int} (hl : -(m.packetInterval.natAbs : Int) ≤ due) (hd : due < T + 1500000)
    (hu : Reading T u) : nextDue m due u = some (m.nextDue due u) := by
  obtain ⟨h0, hT⟩ := hu
  have hlate : signed (u - due) = some (u - due) := signed_eq (by omega) (by omega)
  have hlimit : signed (2 * m.packetInterval) = some (2 * m.packetInterval) :=
    signed_eq (by omega) (by omega)
  have hnow : signed (u + m.packetInterval) = some (u + m.packetInterval) :=
    signed_eq (by omega) (by omega)
  have hnext : signed (due + m.packetInterval) = some (due + m.packetInterval) :=
    signed_eq (by omega) (by omega)
  simp only [nextDue, Manager.nextDue, Option.bind_eq_bind, hlate, hlimit, Option.bind_some]
  split_ifs
  · exact hnow
  · exact hnext

theorem serve_eq {key : Int64} {item : Item} (hl : -(m.packetInterval.natAbs : Int) ≤ item.nextDueTime)
    (hd : item.nextDueTime < T + 1500000) (hu : Reading T u) :
    serve m key item u = some (m.serve key item u) := by
  have htarget := getTargetTime_eq (m := (m.serve key item u).1) hmax hu
  rw [serve, nextDue_eq hmax hdouble hl hd hu]
  simp only [Manager.serve, Manager.served] at htarget
  simp only [Option.bind_eq_bind, Option.bind_some, htarget]
  rfl

theorem processNextLocked_eq (hm : m.InTime T) (ht : Reading T t) (hu : Reading T u)
    (packetOut : Unsent) :
    processNextLocked m packetOut t u = some (m.processNextLocked packetOut t u) := by
  have hread := ht
  obtain ⟨h0, hT⟩ := ht
  rw [processNextLocked, Manager.processNextLocked]
  cases hf : OrderedMap.front m.queues with
  | none =>
    have htarget : signed (t + m.packetInterval) = some (t + m.packetInterval) :=
      signed_eq (by omega) (by omega)
    simp only [htarget, Option.bind_eq_bind, Option.bind_some]
  | some e =>
    obtain ⟨key, item⟩ := e
    obtain ⟨hl, hd⟩ := hm key
    rw [Manager.deadline_of_lookup (OrderedMap.front_lookup hf)] at hl hd
    have hahead : signed (item.nextDueTime - t) = some (item.nextDueTime - t) :=
      signed_eq (by omega) (by omega)
    have htarget := getTargetTime_eq (m := { m with queues := m.queues.erase key }) hmax hread
    simp only [hahead, htarget, Option.bind_eq_bind, Option.bind_some]
    split_ifs with hs hz hw
    · rfl
    · exact serve_eq hmax hdouble (by dsimp only; omega) (by dsimp only; omega) hu
    · rfl
    · exact serve_eq hmax hdouble hl (by omega) hu

theorem sleepTime_eq {targetTime : Int} (htarget : Timely T m.packetInterval targetTime)
    (ht : Reading T t) : sleepTime targetTime t = some (UdpQueue.sleepTime targetTime t) := by
  obtain ⟨hl, hd⟩ := htarget
  obtain ⟨h0, hT⟩ := ht
  have hwait : signed (targetTime - t) = some (targetTime - t) := signed_eq (by omega) (by omega)
  simp only [sleepTime, UdpQueue.sleepTime, hwait, Option.bind_eq_bind, Option.bind_some]

end Process

end Signed

def CallerOp.Reads {Call : Type} (T : Int) : CallerOp Call → Prop
  | .processNext _ currentTime nanos => Reading T currentTime ∧ Reading T nanos
  | .finish _ reading => Reading T reading
  | _ => True

structure Callers.InTime {Call : Type} (T I : Int) (s : Callers Call) : Prop where
  interval : s.manager.packetInterval = I
  manager : s.manager.InTime T
  sending : ∀ c t result, s.phase c = some (.sending t result) →
    Reading T t ∧ Timely T I result.targetTime

section Callers
variable {Call : Type} {T I : Int}

theorem create_inTime (hT : 0 ≤ T) (C : SizeT) : (Callers.create C I : Callers Call).InTime T I where
  interval := rfl
  manager k := by
    rw [Timely]
    change _ ≤ (Manager.create C I).deadline k ∧ (Manager.create C I).deadline k < _
    rw [Manager.create_deadline]
    omega
  sending c t result h := by cases h

variable [DecidableEq Call] {socketV4 socketV6 : Call → SocketT} {s : Callers Call}

theorem Callers.InTime.goto (h : s.InTime T I) {m : Manager} (hi : m.packetInterval = I)
    (hm : m.InTime T) (c : Call) {phase : Option Phase}
    (hp : ∀ t result, phase = some (.sending t result) → Reading T t ∧ Timely T I result.targetTime)
    (processLock : Mutex Call) :
    ({ s with manager := m, processLock }.goto c phase).InTime T I := by
  refine ⟨hi, hm, fun c' t result hc => ?_⟩
  rcases eq_or_ne c' c with rfl | hne
  · have hself := Function.update_self c' phase s.phase
    exact hp t result (hself.symm.trans hc)
  · rw [Callers.goto_of_ne hne] at hc
    exact h.sending c' t result hc

theorem processed_op {op : CallerOp Call} {c : Call} {t u : Int} {result : Processed}
    (h : ((callers socketV4 socketV6).step s op).2 = .processed c t u result) :
    op = .processNext c t u := by
  cases op with
  | request request => cases h
  | enter c' =>
    change (s.enter c').2 = _ at h
    rw [Callers.enter] at h
    split at h <;> cases h
  | processNext c' t' u' =>
    change (s.processNext c' t' u').2 = _ at h
    rw [Callers.processNext] at h
    split at h
    · split_ifs at h
      cases h
      rfl
    · cases h
  | finish c' reading =>
    change (s.finish socketV4 socketV6 c' reading).2 = _ at h
    rw [Callers.finish] at h
    split at h
    · split at h <;> cases h
    · cases h
  | leave c' =>
    change (s.leave c').2 = _ at h
    rw [Callers.leave] at h
    split at h <;> cases h

theorem next_inTime (h : s.InTime T I) {op : CallerOp Call} (hr : op.Reads T) :
    ((callers socketV4 socketV6).next s op).InTime T I := by
  have hread (c : Call) (t u : Int) (result : Processed)
      (he : ((callers socketV4 socketV6).step s op).2 = .processed c t u result) :
      Reading T t ∧ Reading T u := by
    rw [processed_op he] at hr
    exact hr
  have hstep := caller_step socketV4 socketV6 s op
  rw [Machine.next]
  generalize (callers socketV4 socketV6).step s op = r at hstep hread
  have hquiet (c : Call) {phase : Option Phase} (hp : ∀ t result, phase ≠ some (.sending t result))
      (processLock : Mutex Call) : ({ s with processLock }.goto c phase).InTime T I :=
    h.goto h.interval h.manager c (fun t result he => absurd he (hp t result)) processLock
  cases hstep with
  | request request =>
    exact ⟨(client_frame _ _).interval.trans h.interval,
      Manager.request_inTime h.manager request, h.sending⟩
  | entered c processLock hp hl => exact hquiet c (by simp) processLock
  | left c hp => exact hquiet c (by simp) s.processLock
  | processed c t u hp =>
    obtain ⟨ht, hu⟩ := hread c t u _ rfl
    have hprocess := s.manager.processNextLocked_step {} t u
    refine h.goto ((Manager.process_frame hprocess).interval.trans h.interval)
      (Manager.process_inTime hprocess h.manager ht hu) c (fun t' result he => ?_) s.processLock
    cases he
    exact ⟨ht, h.interval ▸ Manager.process_target_timely hprocess h.manager ht hu⟩
  | crashed c t result hp hd => exact hquiet c (by simp) s.processLock
  | finished c t reading current result sent hp hd hu hc => exact hquiet c (by simp) s.processLock
  | returned c hp => exact hquiet c (by simp) s.processLock.unlock
  | blocked => exact h

theorem step_eq (hmax : T + I.natAbs + 1500000 ≤ 9223372036854775808)
    (hdouble : 2 * (I.natAbs : Int) < 9223372036854775808) (h : s.InTime T I) {op : CallerOp Call}
    (hr : op.Reads T) :
    Signed.step s socketV4 socketV6 op = some ((callers socketV4 socketV6).step s op) := by
  obtain rfl := h.interval
  cases op with
  | processNext c t u =>
    have hprocess := Signed.processNextLocked_eq hmax hdouble h.manager hr.1 hr.2 {}
    change Signed.processNext s c t u = some (s.processNext c t u)
    rw [Signed.processNext, Callers.processNext]
    rcases hp : s.phase c with _ | _ | ⟨t', result⟩ | _ | _
    case some.entering =>
      simp only [hprocess]
      split_ifs <;> rfl
    all_goals rfl
  | finish c reading =>
    change Signed.finish s socketV4 socketV6 c reading = some (s.finish socketV4 socketV6 c reading)
    rw [Signed.finish, Callers.finish]
    rcases hp : s.phase c with _ | _ | ⟨t, result⟩ | _ | _
    case some.sending =>
      obtain ⟨ht, htarget⟩ := h.sending c t result hp
      have hskipped := Signed.sleepTime_eq hmax hdouble htarget ht
      have hsent := Signed.sleepTime_eq hmax hdouble htarget hr
      cases hd : dispatched (socketV4 c) (socketV6 c) result.packetOut with
      | undefined => simp only [hd]
      | skipped => simp only [hd, if_true, hskipped, Option.map_some]
      | sent call => simp only [hd, reduceCtorEq, if_false, hsent, Option.map_some]
    all_goals rfl
  | _ => rfl

theorem no_overflow (C : SizeT) (hT : 0 ≤ T) (hmax : T + I.natAbs + 1500000 ≤ 9223372036854775808)
    (hdouble : 2 * (I.natAbs : Int) < 9223372036854775808) (ops : List (CallerOp Call))
    (hr : ∀ op ∈ ops, op.Reads T) :
    let checked := Machine.fallible fun s op => Signed.step s socketV4 socketV6 op
    checked.run (some (.create C I)) ops = some ((callers socketV4 socketV6).run (.create C I) ops) ∧
      checked.trace (some (.create C I)) ops =
        ((callers socketV4 socketV6).trace (.create C I) ops).map some := by
  intro checked
  have hagree : (∃ s', checked.run (some (.create C I)) ops = some s' ∧
      s' = (callers socketV4 socketV6).run (.create C I) (ops.map id) ∧ s'.InTime T I) ∧
      checked.trace (some (.create C I)) ops =
        ((callers socketV4 socketV6).trace (.create C I) (ops.map id)).map fun e => some e :=
    Machine.fallible_agreement (N := callers socketV4 socketV6) id id
      (R := fun s s' => s = s' ∧ s.InTime T I)
      (fun s s' op h hop => by
        obtain ⟨rfl, h⟩ := h
        exact ⟨_, step_eq hmax hdouble h hop, rfl, next_inTime h hop⟩)
      ⟨rfl, create_inTime hT C⟩ ops hr
  rw [List.map_id] at hagree
  obtain ⟨⟨s', hrun, rfl, -⟩, htrace⟩ := hagree
  exact ⟨hrun, htrace⟩

end Callers

theorem no_overflow_soon :
    let checked := Machine.fallible fun s op => Signed.step s (fun _ : Bool => 3) (fun _ => 4) op
    let ops := [.request (.push (samplePush 1 [7])), .enter true,
      .processNext true 1700000000000000000 1700000000000000100, .finish true 1700000000000000200]
    checked.run (some (.create 4 20000000)) ops =
        some ((callers (fun _ => 3) fun _ => 4).run (.create 4 20000000) ops) ∧
      checked.trace (some (.create 4 20000000)) ops =
        ((callers (fun _ => 3) fun _ => 4).trace (.create 4 20000000) ops).map some :=
  no_overflow (T := 4102444800000000000) 4 (by decide) (by decide) (by decide) _
    (by simp [CallerOp.Reads, Reading])

end UdpQueue
