import UdpQueue.Dispatch

namespace UdpQueue
namespace Item

structure InRange (C : SizeT) (item : Item) : Prop where
  capacity_eq : item.buffer.capacity = C
  size_le : item.buffer.size ≤ C
  index_lt : item.buffer.index < C ∨ C = 0 ∧ item.buffer.index = 0 ∧ item.buffer.size = 0
  slot_lt : ∀ i ∈ item.packetBuffer, i < C
  length_eq : ∀ i packet, item.packetBuffer.lookup i = some packet →
    packet.length = packet.data.length

structure PopSafe (item : Item) : Prop where
  modulus : item.buffer.capacity ≠ 0
  size_pos : 1 ≤ item.buffer.size
  index_fits : item.buffer.index.toNat + 1 < 2 ^ 64

structure EnqueueSafe (item : Item) : Prop where
  modulus : item.buffer.capacity ≠ 0
  index_fits : item.buffer.index.toNat + item.buffer.size.toNat < 2 ^ 64
  size_fits : item.buffer.size.toNat + 1 < 2 ^ 64

-- the states of the queue in which the loop of `remove` calls `pop`
def drainPops (item : Item) : List Item :=
  if 0 < item.buffer.size then item :: drainPops item.pop.1 else []
termination_by item.buffer.size.toNat
decreasing_by exact pop_size_lt ‹_›

theorem drainPops_unsent (item : Item) :
    item.drainPops.map (fun popped => popped.pop.2) = item.drain.2 := by
  induction item using drain.induct with
  | case1 item h ih =>
    rw [drainPops, if_pos h, drain_of_pos h, List.map_cons, ih]
  | case2 item h =>
    rw [drainPops, if_neg h, drain_of_zero h]
    rfl

section InRange
variable {C : SizeT} {item : Item} (h : item.InRange C)
include h

theorem InRange.index_lt_of_size (hs : 0 < item.buffer.size) : item.buffer.index < C := by
  rcases h.index_lt with hlt | ⟨-, -, hz⟩
  · exact hlt
  · exact absurd hz (UInt64.pos_iff_ne_zero.mp hs)

theorem InRange.sound : item.Sound C := by
  refine ⟨h.capacity_eq, h.size_le, fun hC => ?_⟩
  rcases h.index_lt with hlt | ⟨hz, -⟩
  · exact hlt
  · exact absurd hz (UInt64.pos_iff_ne_zero.mp hC)

theorem InRange.slot_length (i : SizeT) : (item.slot i).length = (item.slot i).data.length := by
  rw [slot]
  cases hl : item.packetBuffer.lookup i with
  | none => rfl
  | some packet => exact h.length_eq i packet hl

theorem InRange.keys_card : item.packetBuffer.keys.card ≤ C.toNat := by
  have hmaps : ∀ i ∈ item.packetBuffer.keys, i.toNat ∈ Finset.range C.toNat := by
    intro i hi
    exact Finset.mem_range.mpr (UInt64.lt_iff_toNat_lt.mp (h.slot_lt i (Finmap.mem_keys.mp hi)))
  have hinj : Set.InjOn UInt64.toNat item.packetBuffer.keys := fun i _ j _ => UInt64.toNat_inj.mp
  simpa using Finset.card_le_card_of_injOn _ hmaps hinj

theorem pop_inRange (hs : 0 < item.buffer.size) : item.pop.1.InRange C := by
  have hidx := h.index_lt_of_size hs
  have hsound := pop_sound h.sound hs
  refine ⟨hsound.capacity_eq, hsound.size_le, Or.inl (hsound.index_lt ?_), ?_, ?_⟩
  · exact UInt64.lt_of_le_of_lt UInt64.zero_le hidx
  · intro i hi
    rcases Finmap.mem_insert.mp (Finmap.mem_erase.mp hi).2 with rfl | hi
    · exact hidx
    · exact h.slot_lt i hi
  · intro i packet hl
    have hne : i ≠ (item.buffer.index + 1) % item.buffer.capacity := by
      rintro rfl
      simp [pop] at hl
    simp only [pop, Finmap.lookup_erase_ne hne] at hl
    rcases eq_or_ne i item.buffer.index with rfl | hi
    · rw [Finmap.lookup_insert, Option.some.injEq] at hl
      exact hl ▸ h.slot_length _
    · exact h.length_eq i packet (by rwa [Finmap.lookup_insert_of_ne _ hi] at hl)

theorem enqueue_inRange (hs : item.buffer.size < C) (data : List UInt8) :
    (item.enqueue data).InRange C := by
  have hC : 0 < C := UInt64.lt_of_le_of_lt UInt64.zero_le hs
  have hsound := enqueue_sound h.sound hs data
  refine ⟨hsound.capacity_eq, hsound.size_le, Or.inl (hsound.index_lt hC), ?_, ?_⟩
  · intro i hi
    rcases Finmap.mem_insert.mp hi with rfl | hi
    · rw [h.capacity_eq]
      exact UInt64.mod_lt _ hC
    · exact h.slot_lt i hi
  · intro i packet hl
    simp only [enqueue] at hl
    rcases eq_or_ne i ((item.buffer.index + item.buffer.size) % item.buffer.capacity) with rfl | hi
    · rw [Finmap.lookup_insert, Option.some.injEq] at hl
      subst hl
      rfl
    · exact h.length_eq i packet (by rwa [Finmap.lookup_insert_of_ne _ hi] at hl)

theorem popSafe (hC : C.toNat < 2 ^ 63) (hs : 0 < item.buffer.size) : item.PopSafe := by
  have hidx := h.index_lt_of_size hs
  have hlt := UInt64.lt_iff_toNat_lt.mp hidx
  refine ⟨?_, UInt64.le_iff_toNat_le.mpr (UInt64.lt_iff_toNat_lt.mp hs), by omega⟩
  rw [h.capacity_eq]
  exact UInt64.pos_iff_ne_zero.mp (UInt64.lt_of_le_of_lt UInt64.zero_le hidx)

theorem enqueueSafe (hC : C.toNat < 2 ^ 63) (hs : item.buffer.size < item.buffer.capacity) :
    item.EnqueueSafe := by
  rw [h.capacity_eq] at hs
  have hpos : 0 < C := UInt64.lt_of_le_of_lt UInt64.zero_le hs
  have hsize := UInt64.lt_iff_toNat_lt.mp hs
  have hidx := UInt64.lt_iff_toNat_lt.mp (h.sound.index_lt hpos)
  refine ⟨?_, by omega, by omega⟩
  rw [h.capacity_eq]
  exact UInt64.pos_iff_ne_zero.mp hpos

end InRange

theorem drainPops_safe {C : SizeT} (hC : C.toNat < 2 ^ 63) {item : Item} (h : item.InRange C) :
    ∀ popped ∈ item.drainPops, popped.PopSafe := by
  induction item using drain.induct with
  | case1 item hs ih =>
    rw [drainPops, if_pos hs]
    exact List.forall_mem_cons.mpr ⟨popSafe h hC hs, ih (pop_inRange h hs)⟩
  | case2 item hs =>
    rw [drainPops, if_neg hs]
    exact List.forall_mem_nil _

theorem inRange_closed (C : SizeT) : ItemClosed C (Item.InRange C) where
  fresh m call hC := by
    refine ⟨hC, UInt64.zero_le, ?_, fun i hi => ?_, fun i packet hl => ?_⟩
    · rcases eq_or_ne C 0 with hz | hz
      · exact Or.inr ⟨hz, rfl, rfl⟩
      · exact Or.inl (UInt64.pos_iff_ne_zero.mpr hz)
    · exact absurd hi Finmap.notMem_empty
    · simp [Manager.newItem] at hl
  enqueue _ data h hs := enqueue_inRange h (h.capacity_eq ▸ hs) data
  pop _ h hs := pop_inRange h hs
  due _ _ h := ⟨h.capacity_eq, h.size_le, h.index_lt, h.slot_lt, h.length_eq⟩

end Item

namespace Manager

def pops (m : Manager) : Op → List Item
  | .remove key => ((m.queues.lookup key.toInt64).map Item.drainPops).getD []
  | .processNext currentTime nanos =>
    match (m.processNextLocked {} currentTime nanos).2.exit with
    | .popped key _ => (m.queues.lookup key).toList
    | _ => []
  | _ => []

def enqueues (m : Manager) : Op → List Item
  | .push call => if (m.pushLocked call).2 then [m.itemFor call] else []
  | _ => []

theorem process_pop {m : Manager} {packetOut : Unsent} {t u : Int} {r : Manager × Processed}
    (h : ProcessStep m packetOut t u r) {key : Int64} {due : Int} (he : r.2.exit = .popped key due) :
    ∃ item, m.queues.lookup key = some item ∧ 0 < item.buffer.size ∧ r.2.packetOut = item.pop.2 := by
  cases h with
  | popped key' item due' hf hs hd =>
    cases he
    exact ⟨item, OrderedMap.front_lookup hf, hs, rfl⟩
  | _ => cases he

section Safe
variable {C : SizeT} {m : Manager} (hm : m.Each (Item.InRange C))
include hm

theorem pops_safe (hC : C.toNat < 2 ^ 63) (op : Op) : ∀ item ∈ m.pops op, item.PopSafe := by
  cases op with
  | remove key =>
    rw [pops]
    cases hl : m.queues.lookup key.toInt64 with
    | none => exact List.forall_mem_nil _
    | some item => exact Item.drainPops_safe hC (hm _ _ hl)
  | processNext t u =>
    rw [pops]
    cases he : (m.processNextLocked {} t u).2.exit with
    | popped key due =>
      obtain ⟨item, hl, hs, -⟩ := process_pop (m.processNextLocked_step {} t u) he
      simp only [hl]
      exact List.forall_mem_singleton.mpr (Item.popSafe (hm _ _ hl) hC hs)
    | _ => exact List.forall_mem_nil _
  | _ => exact List.forall_mem_nil _

theorem enqueues_safe (hcap : m.queueBufferCapacity = C) (hC : C.toNat < 2 ^ 63) (op : Op) :
    ∀ item ∈ m.enqueues op, item.EnqueueSafe := by
  cases op with
  | push call =>
    rw [enqueues]
    split_ifs with ha
    · refine List.forall_mem_singleton.mpr (Item.enqueueSafe ?_ hC (pushLocked_accepted.mp ha))
      exact itemFor_each (Item.inRange_closed C) hm hcap call
    · exact List.forall_mem_nil _
  | _ => exact List.forall_mem_nil _

theorem process_length (t u : Int) :
    (m.processNextLocked {} t u).2.packetOut.packet.length =
      (m.processNextLocked {} t u).2.packetOut.packet.data.length := by
  have h := m.processNextLocked_step {} t u
  generalize m.processNextLocked {} t u = r at h
  cases h with
  | popped key item due hf hs hd => exact (hm _ _ (OrderedMap.front_lookup hf)).slot_length _
  | _ => rfl

end Safe

end Manager

def Event.unsent : Event → List Unsent
  | .remove _ _ discarded => discarded
  | .process _ _ ⟨packetOut, _, .popped _ _, _⟩ => [packetOut]
  | _ => []

theorem pops_unsent (m : Manager) (op : Op) :
    (m.pops op).map (fun item => item.pop.2) = (client.out m op).unsent := by
  cases op with
  | remove key =>
    change _ = (m.remove key).2.2
    rw [Manager.remove_discarded, Manager.pops]
    cases m.queues.lookup key.toInt64 with
    | none => rfl
    | some item => exact item.drainPops_unsent
  | processNext t u =>
    have hp := @Manager.process_pop _ _ _ _ _ (m.processNextLocked_step {} t u)
    change _ = Event.unsent (.process t u (m.processNextLocked {} t u).2)
    rw [Manager.pops]
    generalize (m.processNextLocked {} t u).2 = result at hp ⊢
    rcases result with ⟨packetOut, target, _ | _ | _ | ⟨key, due⟩, freed⟩
    · rfl
    · rfl
    · rfl
    · obtain ⟨item, hl, -, hout⟩ := hp rfl
      simp only [hl, Option.toList_some, List.map_cons, List.map_nil, ← hout]
      rfl
  | _ => rfl

theorem dispatched_sent {socketV4 socketV6 : SocketT} {p : Unsent} {call : Sendto}
    (h : dispatched socketV4 socketV6 p = .sent call) :
    call.buf = p.packet.data ∧ call.len = p.packet.length := by
  have hd : p.packet.data ≠ [] := by
    intro hd
    rw [dispatched_of_empty socketV4 socketV6 hd] at h
    cases h
  cases ha : p.address with
  | none =>
    rw [dispatched_of_null socketV4 socketV6 hd ha] at h
    cases h
  | some address =>
    obtain ⟨socket, hs⟩ := dispatched_of_address socketV4 socketV6 hd ha
    obtain rfl := Dispatched.sent.inj (hs.symm.trans h)
    exact ⟨rfl, rfl⟩

theorem ring_in_range (C : SizeT) (I : Int) (ops : List Op) (hC : C.toNat < 2 ^ 63) :
    let m := client.run (.create C I) ops
    (∀ k item, m.queues.lookup k = some item →
      item.InRange C ∧ item.packetBuffer.keys.card ≤ C.toNat) ∧
    (∀ op, (∀ item ∈ m.pops op, item.PopSafe) ∧ ∀ item ∈ m.enqueues op, item.EnqueueSafe) ∧
    ∀ t u socketV4 socketV6 call,
      dispatched socketV4 socketV6 (m.processNextLocked {} t u).2.packetOut = .sent call →
        call.len = call.buf.length := by
  intro m
  have hm : m.Each (Item.InRange C) := reachable_each (Item.inRange_closed C) I ops
  refine ⟨fun k item hl => ⟨hm k item hl, (hm k item hl).keys_card⟩, fun op => ?_, ?_⟩
  · exact ⟨Manager.pops_safe hm hC op,
      Manager.enqueues_safe hm (reachable_capacity C I ops) hC op⟩
  · intro t u socketV4 socketV6 call h
    obtain ⟨hbuf, hlen⟩ := dispatched_sent h
    rw [hbuf, hlen]
    exact Manager.process_length hm t u

theorem ring_in_range_wrapped :
    let m := client.run (.create 1 20000000) [.push (samplePush 1 [1]), .processNext 1 1,
      .push (samplePush 1 [2])]
    (∀ k item, m.queues.lookup k = some item →
      item.InRange 1 ∧ item.packetBuffer.keys.card ≤ (1 : SizeT).toNat) ∧
    (∀ op, (∀ item ∈ m.pops op, item.PopSafe) ∧ ∀ item ∈ m.enqueues op, item.EnqueueSafe) ∧
    ∀ t u socketV4 socketV6 call,
      dispatched socketV4 socketV6 (m.processNextLocked {} t u).2.packetOut = .sent call →
        call.len = call.buf.length :=
  ring_in_range 1 20000000 [.push (samplePush 1 [1]), .processNext 1 1, .push (samplePush 1 [2])]
    (by decide)

end UdpQueue
