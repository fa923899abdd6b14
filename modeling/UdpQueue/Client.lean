import UdpQueue.Library.Machine
import UdpQueue.Backlog

namespace UdpQueue

inductive Op where
  | push (call : PushCall)
  | remove (key : UInt64)
  | getRemainingCapacity (key : UInt64)
  | shutDown
  | processNext (currentTime nanos : Int)

structure Accepted where
  call : PushCall
  item : Item

namespace Accepted

def queued (a : Accepted) : Nat := a.item.buffer.size.toNat
def delivered (a : Accepted) : Unsent := a.item.unsent (deliver a.queued a.call.data)

end Accepted

inductive Event where
  | push (call : PushCall) (item : Item) (created accepted : Bool)
  | remove (key : UInt64) (found : Bool) (discarded : List Unsent)
  | remaining (key : UInt64) (capacity : SizeT)
  | shutDown
  | process (currentTime nanos : Int) (result : Processed)

namespace Event

def accepted (k : Int64) : Event → List Accepted
  | .push call item _ true => if call.key.toInt64 = k then [⟨call, item⟩] else []
  | _ => []

def enqueued (k : Int64) (e : Event) : List Unsent := (e.accepted k).map Accepted.delivered

def popped (k : Int64) : Event → List Unsent
  | .process _ _ result => result.returned k
  | _ => []

def discarded (k : Int64) : Event → List Unsent
  | .remove key _ discarded => if key.toInt64 = k then discarded else []
  | _ => []

def returned (k : Int64) (e : Event) : List Unsent := e.popped k ++ e.discarded k

end Event

def client : Machine Manager Op Event where
  step m
    | .push call =>
      let r := m.pushLocked call
      (r.1, .push call (m.itemFor call) (call.key.toInt64 ∉ m.queues) r.2)
    | .remove key =>
      let r := m.remove key
      (r.1, .remove key r.2.1 r.2.2)
    | .getRemainingCapacity key => (m, .remaining key (m.getRemainingCapacity key))
    | .shutDown => (m.shutDown, .shutDown)
    | .processNext currentTime nanos =>
      let r := m.processNextLocked {} currentTime nanos
      (r.1, .process currentTime nanos r.2)

inductive Reply where
  | push (accepted : Bool)
  | remove (found : Bool) (discarded : List Unsent)
  | remaining (capacity : SizeT)
  | shutDown
  | process (result : Processed)
deriving DecidableEq

def Event.reply : Event → Reply
  | .push _ _ _ accepted => .push accepted
  | .remove _ found discarded => .remove found discarded
  | .remaining _ capacity => .remaining capacity
  | .shutDown => .shutDown
  | .process _ _ result => .process result

theorem client_frame (m : Manager) (op : Op) : m.Frame (client.next m op) := by
  cases op with
  | push call => exact m.pushLocked_frame call
  | remove key => exact m.remove_frame key
  | processNext t u => exact Manager.process_frame (m.processNextLocked_step {} t u)
  | _ => exact ⟨rfl, rfl⟩

theorem reachable_capacity (C : SizeT) (I : Int) (ops : List Op) :
    (client.run (.create C I) ops).queueBufferCapacity = C :=
  Machine.run_invariant (P := fun m => m.queueBufferCapacity = C)
    (fun m op h => (client_frame m op).capacity.trans h) rfl ops

theorem reachable_interval (C : SizeT) (I : Int) (ops : List Op) :
    (client.run (.create C I) ops).packetInterval = I :=
  Machine.run_invariant (P := fun m => m.packetInterval = I)
    (fun m op h => (client_frame m op).interval.trans h) rfl ops

theorem client_each {P : Item → Prop} {C : SizeT} (hP : ItemClosed C P) (m : Manager) (op : Op)
    (h : m.queueBufferCapacity = C ∧ m.Each P) :
    (client.next m op).queueBufferCapacity = C ∧ (client.next m op).Each P := by
  obtain ⟨hC, hm⟩ := h
  refine ⟨(client_frame m op).capacity.trans hC, ?_⟩
  cases op with
  | push call => exact Manager.pushLocked_each hP hm hC call
  | remove key => exact Manager.remove_each hP hm key
  | processNext t u => exact Manager.process_each hP hm (m.processNextLocked_step {} t u)
  | _ => exact hm

theorem reachable_each {P : Item → Prop} {C : SizeT} (hP : ItemClosed C P) (I : Int)
    (ops : List Op) : (client.run (.create C I) ops).Each P :=
  (Machine.run_invariant (client_each hP) ⟨rfl, Manager.create_each P C I⟩ ops).2

theorem client_sound (m : Manager) (op : Op) (h : m.Sound) : (client.next m op).Sound := by
  rw [Manager.Sound, (client_frame m op).capacity]
  exact (client_each (Item.sound_closed _) m op ⟨rfl, h⟩).2

theorem reachable_sound (C : SizeT) (I : Int) (ops : List Op) :
    (client.run (.create C I) ops).Sound := by
  rw [Manager.Sound, reachable_capacity]
  exact reachable_each (Item.sound_closed C) I ops

theorem push_backlog {m : Manager} (h : m.Sound) (call : PushCall) (created : Bool) (k : Int64) :
    m.backlog k ++ (Event.push call (m.itemFor call) created (m.pushLocked call).2).enqueued k =
      (m.pushLocked call).1.backlog k := by
  rcases eq_or_ne call.key.toInt64 k with rfl | hc
  · rw [Manager.pushLocked_backlog h]
    cases (m.pushLocked call).2 <;>
      simp [Event.enqueued, Event.accepted, Accepted.delivered, Accepted.queued]
  · rw [Manager.backlog_congr (Manager.pushLocked_lookup_ne (Ne.symm hc))]
    cases (m.pushLocked call).2 <;> simp [Event.enqueued, Event.accepted, hc]

theorem client_backlog (k : Int64) (m : Manager) (op : Op) (h : m.Sound) :
    m.backlog k ++ (client.out m op).enqueued k =
      (client.out m op).returned k ++ (client.next m op).backlog k := by
  cases op with
  | push call => exact push_backlog h call _ k
  | remove key =>
    change m.backlog k ++ [] = (Event.remove key _ (m.remove key).2.2).returned k ++
      (m.remove key).1.backlog k
    rw [List.append_nil]
    rcases eq_or_ne key.toInt64 k with rfl | hc
    · simp [Event.returned, Event.popped, Event.discarded,
        m.remove_discarded_backlog key, m.remove_backlog key]
    · rw [Manager.backlog_congr (Manager.remove_lookup_ne (Ne.symm hc))]
      simp [Event.returned, Event.popped, Event.discarded, hc]
  | getRemainingCapacity key => exact List.append_nil _
  | shutDown => exact List.append_nil _
  | processNext t u =>
    change m.backlog k ++ [] = (Event.process t u (m.processNextLocked {} t u).2).returned k ++
      (m.processNextLocked {} t u).1.backlog k
    rw [List.append_nil, Manager.process_backlog (m.processNextLocked_step {} t u) k]
    simp [Event.returned, Event.popped, Event.discarded]

section Trace
variable (k : Int64) (tr : List Event)

def acceptedBy : List Accepted := tr.flatMap (Event.accepted k)
def poppedFrom : List Unsent := tr.flatMap (Event.popped k)
def discardedFrom : List Unsent := tr.flatMap (Event.discarded k)
def returnedFrom : List Unsent := tr.flatMap (Event.returned k)

theorem enqueued_delivered :
    tr.flatMap (Event.enqueued k) = (acceptedBy k tr).map Accepted.delivered := by
  rw [acceptedBy, List.map_flatMap]
  rfl

theorem returnedFrom_length :
    (returnedFrom k tr).length = (poppedFrom k tr).length + (discardedFrom k tr).length := by
  induction tr with
  | nil => rfl
  | cons e tr ih =>
    simp only [returnedFrom, poppedFrom, discardedFrom, List.flatMap_cons, List.length_append,
      Event.returned] at ih ⊢
    omega

end Trace

theorem client_conservation {m : Manager} (h : m.Sound) (ops : List Op) (k : Int64) :
    m.backlog k ++ (acceptedBy k (client.trace m ops)).map Accepted.delivered =
      returnedFrom k (client.trace m ops) ++ (client.run m ops).backlog k := by
  rw [← enqueued_delivered]
  exact Machine.conservation client_sound (client_backlog k) h ops

theorem returned_delivered {m : Manager} (hm : m.Sound) {k : Int64} (h : m.backlog k = [])
    (ops : List Op) {n : Nat} {unsent : Unsent}
    (hn : (returnedFrom k (client.trace m ops))[n]? = some unsent) :
    ∃ a : Accepted, (acceptedBy k (client.trace m ops))[n]? = some a ∧ unsent = a.delivered := by
  have hc := client_conservation hm ops k
  have hlt := (List.getElem?_eq_some_iff.mp hn).1
  rw [h, List.nil_append] at hc
  rw [← List.getElem?_append_left hlt, ← hc, List.getElem?_map, Option.map_eq_some_iff] at hn
  obtain ⟨a, ha, rfl⟩ := hn
  exact ⟨a, ha, rfl⟩

theorem popped_delivered (C : SizeT) (I : Int) (ops : List Op) {t u : Int} {key : Int64} {due : Int}
    (h : ((client.run (.create C I) ops).processNextLocked {} t u).2.exit = .popped key due) :
    let tr := client.trace (.create C I) ops
    ∃ a : Accepted, (acceptedBy key tr)[(returnedFrom key tr).length]? = some a ∧
      ((client.run (.create C I) ops).processNextLocked {} t u).2.packetOut = a.delivered := by
  intro tr
  generalize hr : ((client.run (.create C I) ops).processNextLocked {} t u).2 = result at h ⊢
  have htr : client.trace (.create C I) (ops ++ [.processNext t u]) = tr ++ [.process t u result] := by
    rw [Machine.trace_append, ← hr]
    rfl
  have hacc : acceptedBy key (tr ++ [.process t u result]) = acceptedBy key tr := by
    simp [acceptedBy, Event.accepted]
  have hret : returnedFrom key (tr ++ [.process t u result]) =
      returnedFrom key tr ++ [result.packetOut] := by
    simp [returnedFrom, Event.returned, Event.popped, Event.discarded, Processed.returned, h]
  have hn := @returned_delivered _ (Manager.create_sound C I) key (Manager.create_backlog C I key)
    (ops ++ [.processNext t u]) (returnedFrom key tr).length result.packetOut
  rw [htr, hacc, hret] at hn
  exact hn (by simp)

theorem queued_accounting (C : SizeT) (I : Int) (ops : List Op) (k : Int64) :
    (client.run (.create C I) ops).queued k + (poppedFrom k (client.trace (.create C I) ops)).length +
        (discardedFrom k (client.trace (.create C I) ops)).length =
      (acceptedBy k (client.trace (.create C I) ops)).length := by
  have h := congrArg List.length (client_conservation (Manager.create_sound C I) ops k)
  simp only [Manager.create_backlog, List.nil_append, List.length_append, List.length_map,
    Manager.backlog_length, returnedFrom_length] at h
  omega

def inetAddress : AddrInfo :=
  { node := 0, aiFamily := .inet, aiAddr := [2, 0, 15, 160, 127, 0, 0, 1] ++ List.replicate 8 0
    aiAddrlen := 16 }

def samplePushTo (resolved : Option AddrInfo) (key : UInt64) (data : List UInt8) : PushCall :=
  { key, address := "127.0.0.1", port := 4000, data, explicitSocket := socketInvalid
    getaddrinfo := fun _ _ _ => resolved }

def samplePush : UInt64 → List UInt8 → PushCall := samplePushTo (some inetAddress)

end UdpQueue
