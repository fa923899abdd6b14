import UdpQueue.Client

namespace UdpQueue

structure Sendto where
  socket : SocketT
  buf : List UInt8
  len : Nat
  flags : Nat
  destAddr : List UInt8
  addrlen : Nat
deriving DecidableEq

def sizeofSockaddr : Nat := 16

-- `none`: the null `address` is dereferenced
def dispatchPacket (socketVx : SocketT) (unsentPacket : Unsent) : Option (Sendto × Unsent) :=
  unsentPacket.address.map fun address =>
    ({ socket := socketVx, buf := unsentPacket.packet.data, len := unsentPacket.packet.length
       flags := 0, destAddr := address.aiAddr, addrlen := sizeofSockaddr },
     { unsentPacket with packet := {} })

def socketFor (socketV4 socketV6 : SocketT) (packetToSend : Unsent) : Option SocketT :=
  if packetToSend.explicitSocket = socketInvalid then
    packetToSend.address.map fun address => if address.aiFamily = .inet then socketV4 else socketV6
  else some packetToSend.explicitSocket

inductive Dispatched where
  | skipped
  | undefined
  | sent (call : Sendto)
deriving DecidableEq

def dispatched (socketV4 socketV6 : SocketT) (packetToSend : Unsent) : Dispatched :=
  if packetToSend.packet.data = [] then .skipped
  else
    match (socketFor socketV4 socketV6 packetToSend).bind (dispatchPacket · packetToSend) with
    | none => .undefined
    | some (call, _) => .sent call

def timingGetNanos (clock : Int) (elapsed : Nat) : Int := clock + elapsed
def timingSleep (clock nanoSec : Int) : Int := clock + nanoSec

inductive Phase where
  | entering
  | sending (currentTime : Int) (result : Processed)
  | left
  | undefined

structure Loop where
  manager : Manager
  clock : Int
  phase : Phase

inductive Request where
  | push (call : PushCall)
  | remove (key : UInt64)
  | getRemainingCapacity (key : UInt64)
  | shutDown

def Request.op : Request → Op
  | .push call => .push call
  | .remove key => .remove key
  | .getRemainingCapacity key => .getRemainingCapacity key
  | .shutDown => .shutDown

inductive LoopOp where
  | request (request : Request)
  | processNext (elapsed busy : Nat)
  | finish (elapsed : Nat)

inductive LoopEvent where
  | client (event : Event)
  | left
  | sent (dispatched : Dispatched)
  | blocked

def LoopEvent.events : LoopEvent → List Event
  | .client event => [event]
  | _ => []

-- the clock is read a second time only by a pop
def Exit.lastReading (currentTime nanos : Int) : Exit → Int
  | .popped _ _ => nanos
  | _ => currentTime

namespace Loop

def create (queueBufferCapacity : SizeT) (packetInterval clock : Int) : Loop :=
  { manager := .create queueBufferCapacity packetInterval, clock, phase := .entering }

def processNext (s : Loop) (elapsed busy : Nat) : Loop × LoopEvent :=
  match s.phase with
  | .entering =>
    if s.manager.shuttingDown then ({ s with phase := .left }, .left)
    else
      let currentTime := timingGetNanos s.clock elapsed
      let nanos := timingGetNanos currentTime busy
      let r := s.manager.processNextLocked {} currentTime nanos
      ({ manager := r.1, clock := r.2.exit.lastReading currentTime nanos,
         phase := .sending currentTime r.2 }, .client (.process currentTime nanos r.2))
  | _ => (s, .blocked)

def finish (socketV4 socketV6 : SocketT) (s : Loop) (elapsed : Nat) : Loop × LoopEvent :=
  match s.phase with
  | .sending currentTime result =>
    match dispatched socketV4 socketV6 result.packetOut with
    | .undefined => ({ s with phase := .undefined }, .sent .undefined)
    | sent =>
      let clock := if sent = .skipped then s.clock else timingGetNanos s.clock elapsed
      let currentTime := if sent = .skipped then currentTime else clock
      let waitTime := result.targetTime - currentTime
      ({ s with clock := if waitTime ≥ 1500000 then timingSleep clock waitTime else clock,
                phase := .entering }, .sent sent)
  | _ => (s, .blocked)

end Loop

def loop (socketV4 socketV6 : SocketT) : Machine Loop LoopOp LoopEvent where
  step s
    | .request request =>
      let r := client.step s.manager request.op
      ({ s with manager := r.1 }, .client r.2)
    | .processNext elapsed busy => s.processNext elapsed busy
    | .finish elapsed => s.finish socketV4 socketV6 elapsed

inductive LoopStep (socketV4 socketV6 : SocketT) (s : Loop) : Loop × LoopEvent → Prop
  | request (request : Request) :
      LoopStep socketV4 socketV6 s
        ({ s with manager := client.next s.manager request.op },
          .client (client.out s.manager request.op))
  | left (hp : s.phase = .entering) :
      LoopStep socketV4 socketV6 s ({ s with phase := .left }, .left)
  | processed (t u : Int) (hp : s.phase = .entering) (ht : s.clock ≤ t) (hu : t ≤ u) :
      LoopStep socketV4 socketV6 s
        ({ manager := client.next s.manager (.processNext t u),
           clock := (s.manager.processNextLocked {} t u).2.exit.lastReading t u,
           phase := .sending t (s.manager.processNextLocked {} t u).2 },
          .client (client.out s.manager (.processNext t u)))
  | crashed (t : Int) (result : Processed) (hp : s.phase = .sending t result)
      (hd : dispatched socketV4 socketV6 result.packetOut = .undefined) :
      LoopStep socketV4 socketV6 s ({ s with phase := .undefined }, .sent .undefined)
  | finished (t : Int) (result : Processed) (sent : Dispatched) (clock : Int)
      (hp : s.phase = .sending t result)
      (hd : dispatched socketV4 socketV6 result.packetOut = sent) (hu : sent ≠ .undefined)
      (hc : s.clock ≤ clock) (hw : t ≤ s.clock → result.targetTime - 1500000 < clock) :
      LoopStep socketV4 socketV6 s ({ s with clock, phase := .entering }, .sent sent)
  | blocked : LoopStep socketV4 socketV6 s (s, .blocked)

section Step
variable (socketV4 socketV6 : SocketT)

theorem processNext_step (s : Loop) (elapsed busy : Nat) :
    LoopStep socketV4 socketV6 s (s.processNext elapsed busy) := by
  rw [Loop.processNext]
  cases hp : s.phase with
  | entering =>
    simp only []
    split_ifs
    · exact .left hp
    · apply LoopStep.processed _ _ hp <;> simp [timingGetNanos]
  | _ => exact .blocked

theorem finish_step (s : Loop) (elapsed : Nat) :
    LoopStep socketV4 socketV6 s (s.finish socketV4 socketV6 elapsed) := by
  rw [Loop.finish]
  cases hp : s.phase with
  | sending t result =>
    simp only []
    cases hd : dispatched socketV4 socketV6 result.packetOut with
    | undefined => exact .crashed t result hp hd
    | skipped =>
      apply LoopStep.finished t result _ _ hp hd nofun
      · simp only [if_true, timingSleep]
        split_ifs <;> omega
      · simp only [if_true, timingSleep]
        split_ifs <;> omega
    | sent call =>
      apply LoopStep.finished t result _ _ hp hd nofun
      · simp only [reduceCtorEq, if_false, timingSleep, timingGetNanos]
        split_ifs <;> omega
      · simp only [reduceCtorEq, if_false, timingSleep, timingGetNanos]
        split_ifs <;> omega
  | _ => exact .blocked

theorem loop_step (s : Loop) (op : LoopOp) :
    LoopStep socketV4 socketV6 s ((loop socketV4 socketV6).step s op) := by
  cases op with
  | request request => exact .request request
  | processNext elapsed busy => exact processNext_step socketV4 socketV6 s elapsed busy
  | finish elapsed => exact finish_step socketV4 socketV6 s elapsed

theorem loop_refines_client (s : Loop) (op : LoopOp) :
    ∃ ops, client.run s.manager ops = ((loop socketV4 socketV6).next s op).manager ∧
      client.trace s.manager ops = ((loop socketV4 socketV6).out s op).events := by
  have h := loop_step socketV4 socketV6 s op
  rw [Machine.next, Machine.out]
  generalize (loop socketV4 socketV6).step s op = r at h
  cases h with
  | request request => exact ⟨[request.op], rfl, rfl⟩
  | processed t u hp ht hu => exact ⟨[.processNext t u], rfl, rfl⟩
  | _ => exact ⟨[], rfl, rfl⟩

end Step

def clientEvents (tr : List LoopEvent) : List Event := tr.flatMap LoopEvent.events

theorem loop_runs_client (socketV4 socketV6 : SocketT) (s : Loop) (ops : List LoopOp) :
    ∃ requests, client.run s.manager requests = ((loop socketV4 socketV6).run s ops).manager ∧
      client.trace s.manager requests = clientEvents ((loop socketV4 socketV6).trace s ops) :=
  Machine.simulation (loop_refines_client socketV4 socketV6) s ops

end UdpQueue
