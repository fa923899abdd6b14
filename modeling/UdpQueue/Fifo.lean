import UdpQueue.Client

namespace UdpQueue

def Manager.popQueue (m : Manager) (key : UInt64) : Manager × Option Unsent :=
  match m.queues.lookup key.toInt64 with
  | none => (m, none)
  | some item =>
    if 0 < item.buffer.size then
      ({ m with queues := m.queues.replace key.toInt64 item.pop.1 }, some item.pop.2)
    else (m, none)

inductive RingOp where
  | push (call : PushCall)
  | pop (key : UInt64)

inductive RingEvent where
  | push (call : PushCall) (item : Item) (accepted : Bool)
  | pop (key : UInt64) (popped : Option Unsent)

namespace RingEvent

def accepted (k : Int64) : RingEvent → List Accepted
  | .push call item true => if call.key.toInt64 = k then [⟨call, item⟩] else []
  | _ => []

def enqueued (k : Int64) (e : RingEvent) : List Unsent := (e.accepted k).map Accepted.delivered

def popped (k : Int64) : RingEvent → List Unsent
  | .pop key (some unsent) => if key.toInt64 = k then [unsent] else []
  | _ => []

end RingEvent

def ring : Machine Manager RingOp RingEvent where
  step m
    | .push call =>
      let r := m.pushLocked call
      (r.1, .push call (m.itemFor call) r.2)
    | .pop key =>
      let r := m.popQueue key
      (r.1, .pop key r.2)

namespace Ring

def accepted (k : Int64) (tr : List RingEvent) : List Accepted := tr.flatMap (RingEvent.accepted k)
def popped (k : Int64) (tr : List RingEvent) : List Unsent := tr.flatMap (RingEvent.popped k)

end Ring

namespace Manager

inductive PopStep (m : Manager) (k : Int64) : Manager × Option Unsent → Prop
  | empty : PopStep m k (m, none)
  | popped (item : Item) (hl : m.queues.lookup k = some item) (hs : 0 < item.buffer.size) :
      PopStep m k ({ m with queues := m.queues.replace k item.pop.1 }, some item.pop.2)

theorem popQueue_step (m : Manager) (key : UInt64) : PopStep m key.toInt64 (m.popQueue key) := by
  rw [popQueue]
  cases hl : m.queues.lookup key.toInt64 with
  | none => exact .empty
  | some item =>
    simp only []
    split_ifs with hs
    · exact .popped item hl hs
    · exact .empty

section Pop
variable {m : Manager} {k : Int64} {r : Manager × Option Unsent}

theorem pop_lookup (h : PopStep m k r) (j : Int64) (hj : j ≠ k) :
    r.1.queues.lookup j = m.queues.lookup j := by
  cases h with
  | empty => rfl
  | popped item hl hs => exact OrderedMap.lookup_replace_ne _ _ hj

theorem pop_sound (hm : m.Sound) (h : PopStep m k r) : r.1.Sound := by
  intro j after hj
  cases h with
  | empty => exact hm j after hj
  | popped item hl hs =>
    rcases eq_or_ne j k with rfl | hc
    · have hk : j ∈ m.queues := AList.lookup_isSome.mp (by simp [hl])
      rw [OrderedMap.lookup_replace _ hk, Option.some.injEq] at hj
      exact hj ▸ Item.pop_sound (hm _ _ hl) hs
    · exact hm j after (by rwa [OrderedMap.lookup_replace_ne _ _ hc] at hj)

theorem pop_backlog (h : PopStep m k r) :
    m.backlog k = r.2.toList ++ r.1.backlog k := by
  cases h with
  | empty => rfl
  | popped item hl hs =>
    have hk : k ∈ m.queues := AList.lookup_isSome.mp (by simp [hl])
    have hl' : (m.queues.replace k item.pop.1).lookup k = some item.pop.1 :=
      OrderedMap.lookup_replace _ hk
    rw [backlog_of_lookup hl]
    simp only [backlog, hl']
    exact Item.pop_outgoing hs

end Pop

end Manager

theorem ring_sound (m : Manager) (op : RingOp) (h : m.Sound) : (ring.next m op).Sound := by
  cases op with
  | push call => exact Manager.pushLocked_sound h call
  | pop key => exact Manager.pop_sound h (m.popQueue_step key)

theorem enqueued_push (k : Int64) (call : PushCall) (item : Item) (accepted : Bool) :
    RingEvent.enqueued k (.push call item accepted) =
      Event.enqueued k (.push call item true accepted) := by
  cases accepted <;> rfl

theorem ring_step_backlog (k : Int64) (m : Manager) (op : RingOp) (h : m.Sound) :
    m.backlog k ++ RingEvent.enqueued k (ring.out m op) =
      RingEvent.popped k (ring.out m op) ++ (ring.next m op).backlog k := by
  cases op with
  | push call =>
    have hpush := push_backlog h call true k
    rw [← enqueued_push] at hpush
    exact hpush
  | pop key =>
    have hs := m.popQueue_step key
    change m.backlog k ++ [] = RingEvent.popped k (.pop key (m.popQueue key).2) ++
      (m.popQueue key).1.backlog k
    rcases eq_or_ne key.toInt64 k with rfl | hc
    · rw [List.append_nil, Manager.pop_backlog hs]
      cases (m.popQueue key).2 <;> simp [RingEvent.popped]
    · rw [Manager.backlog_congr (Manager.pop_lookup hs k (Ne.symm hc))]
      cases (m.popQueue key).2 <;> simp [RingEvent.popped, hc]

theorem popped_prefix_delivered (C : SizeT) (I : Int) (ops : List RingOp) (k : Int64) :
    Ring.popped k (ring.trace (.create C I) ops) <+:
      (Ring.accepted k (ring.trace (.create C I) ops)).map Accepted.delivered := by
  have h := Machine.conservation ring_sound (ring_step_backlog k) (Manager.create_sound C I) ops
  rw [Manager.create_backlog, List.nil_append] at h
  exact ⟨_, by rw [Ring.accepted, List.map_flatMap]; exact h.symm⟩

def FifoExact (k : Int64) (tr : List RingEvent) : Prop :=
  ∀ (n : Nat) (unsent : Unsent), (Ring.popped k tr)[n]? = some unsent →
    ∃ a : Accepted, (Ring.accepted k tr)[n]? = some a ∧ unsent.packet = payload a.call.data

theorem ring_fifo_iff (C : SizeT) (I : Int) (ops : List RingOp) (k : Int64) :
    FifoExact k (ring.trace (.create C I) ops) ↔
      ∀ (n : Nat) (a : Accepted), n < (Ring.popped k (ring.trace (.create C I) ops)).length →
        (Ring.accepted k (ring.trace (.create C I) ops))[n]? = some a →
        a.queued = 0 ∨ a.call.data = [] := by
  have hp := popped_prefix_delivered C I ops k
  generalize ring.trace (.create C I) ops = tr at hp ⊢
  have hget (n : Nat) (hn : n < (Ring.popped k tr).length) :
      (Ring.popped k tr)[n]? = ((Ring.accepted k tr)[n]?).map Accepted.delivered := by
    rw [← List.getElem?_map, List.getElem?_eq_getElem hn]
    exact (List.prefix_iff_getElem?.mp hp n hn).symm
  constructor
  · intro h n a hn ha
    obtain ⟨b, hb, he⟩ := h n a.delivered (by rw [hget n hn, ha, Option.map_some])
    obtain rfl : a = b := Option.some.inj (ha.symm.trans hb)
    exact deliver_eq_payload.mp he
  · intro h n unsent hpk
    have hn := (List.getElem?_eq_some_iff.mp hpk).1
    rw [hget n hn, Option.map_eq_some_iff] at hpk
    obtain ⟨a, ha, rfl⟩ := hpk
    exact ⟨a, ha, deliver_eq_payload.mpr (h n a hn ha)⟩

theorem ring_two_waiting :
    ¬ FifoExact 1 (ring.trace (.create 2 20000000)
      [.push (samplePush 1 [1]), .push (samplePush 1 [2]), .pop 1, .pop 1]) := by
  intro h
  obtain ⟨a, ha, he⟩ := h 1 { address := some inetAddress, explicitSocket := socketInvalid }
    (by decide +kernel)
  have hd : a.call.data = [2] := by
    cases ha
    rfl
  simp [hd, payload] at he

end UdpQueue
