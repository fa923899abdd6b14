import UdpQueue.Accounting

namespace UdpQueue

inductive KeyOp where
  | push (data : List UInt8)
  | remove
  | remaining
  | pop
deriving DecidableEq

inductive KeyResult where
  | push (accepted : Bool)
  | remove
  | remaining (capacity : SizeT)
  | pop (packet : Queued)
deriving DecidableEq

-- what one key's clients can tell about it: absent, fresh and drained queues are all `[]`
def channel (capacity : SizeT) : Machine (List Queued) KeyOp KeyResult where
  step backlog
    | .push data =>
      if backlog.length < capacity.toNat then
        (backlog ++ [deliver backlog.length data], .push true)
      else (backlog, .push false)
    | .remove => ([], .remove)
    | .remaining => (backlog, .remaining (UInt64.ofNat (capacity.toNat - backlog.length)))
    | .pop => (backlog.tail, .pop (backlog.headD {}))

namespace Event

def keyOps (k : Int64) : Event → List KeyOp
  | .push call _ _ _ => if call.key.toInt64 = k then [.push call.data] else []
  | .remove key _ _ => if key.toInt64 = k then [.remove] else []
  | .remaining key _ => if key.toInt64 = k then [.remaining] else []
  | .shutDown => []
  | .process _ _ result => (result.returned k).map fun _ => .pop

def keyResults (k : Int64) : Event → List KeyResult
  | .push call _ _ accepted => if call.key.toInt64 = k then [.push accepted] else []
  | .remove key _ _ => if key.toInt64 = k then [.remove] else []
  | .remaining key capacity => if key.toInt64 = k then [.remaining capacity] else []
  | .shutDown => []
  | .process _ _ result => (result.returned k).map fun unsent => .pop unsent.packet

end Event

def keyOps (k : Int64) (tr : List Event) : List KeyOp := tr.flatMap (Event.keyOps k)
def keyResults (k : Int64) (tr : List Event) : List KeyResult := tr.flatMap (Event.keyResults k)

namespace Manager

def packets (m : Manager) (k : Int64) : List Queued := (m.backlog k).map Unsent.packet

@[simp] theorem packets_length (m : Manager) (k : Int64) : (m.packets k).length = m.queued k := by
  rw [packets, List.length_map, backlog_length]

theorem packets_congr {m m' : Manager} {k : Int64} (h : m'.queues.lookup k = m.queues.lookup k) :
    m'.packets k = m.packets k := by
  rw [packets, packets, backlog_congr h]

theorem pushLocked_packets {m : Manager} (h : m.Sound) (call : PushCall) :
    (m.pushLocked call).1.packets call.key.toInt64 = m.packets call.key.toInt64 ++
      if (m.pushLocked call).2 then [deliver (m.queued call.key.toInt64) call.data] else [] := by
  rw [packets, pushLocked_backlog h, List.map_append, itemFor_size]
  split_ifs <;> rfl

theorem process_packets {m : Manager} {packetOut : Unsent} {t u : Int} {r : Manager × Processed}
    (h : ProcessStep m packetOut t u r) (k : Int64) :
    m.packets k = (r.2.returned k).map Unsent.packet ++ r.1.packets k := by
  rw [packets, process_backlog h k, List.map_append]
  rfl

theorem remaining_packets {m : Manager} (h : m.Sound) (key : UInt64) :
    m.getRemainingCapacity key =
      UInt64.ofNat (m.queueBufferCapacity.toNat - (m.packets key.toInt64).length) := by
  rw [packets_length, ← getRemainingCapacity_toNat h, UInt64.ofNat_toNat]

end Manager

theorem returned_cases (k : Int64) (result : Processed) :
    result.returned k = [] ∨ result.returned k = [result.packetOut] := by
  rw [Processed.returned]
  cases result.exit with
  | popped key due =>
    simp only []
    split_ifs
    · exact Or.inr rfl
    · exact Or.inl rfl
  | _ => exact Or.inl rfl

def Follows (k : Int64) (m m' : Manager) (e : Event) : Prop :=
  (channel m.queueBufferCapacity).run (m.packets k) (e.keyOps k) = m'.packets k ∧
    (channel m.queueBufferCapacity).trace (m.packets k) (e.keyOps k) = e.keyResults k

theorem follows_other {k : Int64} {m m' : Manager} {e : Event} (hops : e.keyOps k = [])
    (hres : e.keyResults k = []) (hp : m'.packets k = m.packets k) : Follows k m m' e := by
  rw [Follows, hops, hres, hp]
  exact ⟨rfl, rfl⟩

section Step
variable {m : Manager} (hm : m.Sound) (k : Int64)
include hm

theorem push_follows (call : PushCall) (item : Item) (created : Bool) :
    Follows k m (m.pushLocked call).1 (.push call item created (m.pushLocked call).2) := by
  rcases eq_or_ne call.key.toInt64 k with rfl | hc
  · have hp := Manager.pushLocked_packets hm call
    have ha := @Manager.accepted_iff_queued_lt _ hm call
    simp only [Follows, Event.keyOps, Event.keyResults, if_true, Machine.run_cons, Machine.run_nil,
      Machine.trace_cons, Machine.trace_nil, hp]
    simp only [Machine.next, Machine.out, channel, Manager.packets_length, ← ha]
    cases (m.pushLocked call).2 with
    | true => exact ⟨rfl, rfl⟩
    | false => exact ⟨(List.append_nil _).symm, rfl⟩
  · apply follows_other
    · exact if_neg hc
    · exact if_neg hc
    · exact Manager.packets_congr (Manager.pushLocked_lookup_ne (Ne.symm hc))

omit hm in
theorem remove_follows (key : UInt64) (found : Bool) (discarded : List Unsent) :
    Follows k m (m.remove key).1 (.remove key found discarded) := by
  rcases eq_or_ne key.toInt64 k with rfl | hc
  · have hp : (m.remove key).1.packets key.toInt64 = [] := by
      rw [Manager.packets, m.remove_backlog, List.map_nil]
    simp only [Follows, Event.keyOps, Event.keyResults, if_true, hp]
    exact ⟨rfl, rfl⟩
  · apply follows_other
    · exact if_neg hc
    · exact if_neg hc
    · exact Manager.packets_congr (Manager.remove_lookup_ne (Ne.symm hc))

theorem remaining_follows (key : UInt64) :
    Follows k m m (.remaining key (m.getRemainingCapacity key)) := by
  rcases eq_or_ne key.toInt64 k with rfl | hc
  · simp only [Follows, Event.keyOps, Event.keyResults, if_true, Manager.remaining_packets hm]
    exact ⟨rfl, rfl⟩
  · exact follows_other (if_neg hc) (if_neg hc) rfl

omit hm in
theorem process_follows {packetOut : Unsent} {t u : Int} {r : Manager × Processed}
    (h : Manager.ProcessStep m packetOut t u r) : Follows k m r.1 (.process t u r.2) := by
  have hp := Manager.process_packets h k
  rcases returned_cases k r.2 with hr | hr
  · rw [hr] at hp
    refine follows_other ?_ ?_ hp.symm
    · rw [Event.keyOps, hr, List.map_nil]
    · rw [Event.keyResults, hr, List.map_nil]
  · rw [hr] at hp
    simp only [Follows, Event.keyOps, Event.keyResults, hr, hp]
    exact ⟨rfl, rfl⟩

theorem client_follows (op : Op) : Follows k m (client.next m op) (client.out m op) := by
  cases op with
  | push call => exact push_follows hm k call _ _
  | remove key => exact remove_follows k key _ _
  | getRemainingCapacity key => exact remaining_follows hm k key
  | shutDown => exact follows_other rfl rfl rfl
  | processNext t u => exact process_follows k (m.processNextLocked_step {} t u)

end Step

theorem client_runs_channel (C : SizeT) (I : Int) (ops : List Op) (k : Int64) :
    (channel C).trace [] (keyOps k (client.trace (.create C I) ops)) =
      keyResults k (client.trace (.create C I) ops) := by
  have hP (m : Manager) (op : Op) (h : m.Sound ∧ m.queueBufferCapacity = C) :
      (client.next m op).Sound ∧ (client.next m op).queueBufferCapacity = C :=
    ⟨client_sound m op h.1, (client_frame m op).capacity.trans h.2⟩
  have hstep (m : Manager) (op : Op) (h : m.Sound ∧ m.queueBufferCapacity = C) :
      (channel C).run (m.packets k) ((client.out m op).keyOps k) = (client.next m op).packets k ∧
        (channel C).trace (m.packets k) ((client.out m op).keyOps k) =
          (client.out m op).keyResults k := by
    obtain ⟨hm, rfl⟩ := h
    exact client_follows hm k op
  have hrun := Machine.projection hP hstep ⟨Manager.create_sound C I, rfl⟩ ops
  exact hrun.2

theorem client_isolation (C : SizeT) (I I' : Int) (ops ops' : List Op) (k : Int64)
    (h : keyOps k (client.trace (.create C I) ops) = keyOps k (client.trace (.create C I') ops')) :
    keyResults k (client.trace (.create C I) ops) =
      keyResults k (client.trace (.create C I') ops') := by
  rw [← client_runs_channel, ← client_runs_channel, h]

theorem client_isolation_recreated :
    keyResults 1 (client.trace (.create 2 20000000)
      [.push (samplePush 1 [1]), .processNext 1 1, .push (samplePush 1 [2]),
        .getRemainingCapacity 1, .processNext 20000001 20000001]) =
    keyResults 1 (client.trace (.create 2 1000)
      [.push (samplePush 2 [9]), .push (samplePush 1 [1]), .processNext 1 1, .processNext 2 2,
        .processNext 3 3, .processNext 4 4, .push (samplePush 1 [2]), .remove 2,
        .getRemainingCapacity 1, .processNext 5 5]) :=
  client_isolation 2 20000000 1000 _ _ 1 (by decide +kernel)

end UdpQueue
