import UdpQueue.Steps

namespace UdpQueue

structure ItemClosed (C : SizeT) (P : Item → Prop) : Prop where
  fresh : ∀ (m : Manager) (call : PushCall), m.queueBufferCapacity = C → P (m.newItem call)
  enqueue : ∀ (item : Item) (data : List UInt8), P item →
    item.buffer.size < item.buffer.capacity → P (item.enqueue data)
  pop : ∀ item : Item, P item → 0 < item.buffer.size → P item.pop.1
  due : ∀ (item : Item) (due : Int), P item → P { item with nextDueTime := due }

namespace ItemClosed
variable {C : SizeT} {P : Item → Prop} (hP : ItemClosed C P)
include hP

theorem drain {item : Item} (h : P item) : P item.drain.1 := by
  induction item using Item.drain.induct with
  | case1 item hs ih =>
    rw [Item.drain_of_pos hs]
    exact ih (hP.pop item h hs)
  | case2 item hs => rwa [Item.drain_of_zero hs]

theorem served {item : Item} (h : P item) (hs : 0 < item.buffer.size) (m : Manager) (nanos : Int) :
    P (m.served item nanos) :=
  hP.due _ _ (hP.pop item h hs)

end ItemClosed

namespace Manager

def Each (P : Item → Prop) (m : Manager) : Prop :=
  ∀ k item, m.queues.lookup k = some item → P item

theorem create_each (P : Item → Prop) (C : SizeT) (I : Int) : (create C I).Each P := by
  intro k item h
  simp [create] at h

section Closed
variable {C : SizeT} {P : Item → Prop} (hP : ItemClosed C P) {m : Manager} (hm : m.Each P)
include hP hm

theorem itemFor_each (hC : m.queueBufferCapacity = C) (call : PushCall) : P (m.itemFor call) := by
  rw [itemFor]
  cases hl : m.queues.lookup call.key.toInt64 with
  | none => exact hP.fresh m call hC
  | some item => exact hm _ _ hl

theorem pushLocked_each (hC : m.queueBufferCapacity = C) (call : PushCall) :
    (m.pushLocked call).1.Each P := by
  have hitem := itemFor_each hP hm hC call
  intro k item hk
  rcases eq_or_ne k call.key.toInt64 with rfl | hc
  · rw [pushLocked_lookup, Option.some.injEq] at hk
    subst hk
    split_ifs with ha
    · exact hP.enqueue _ _ hitem (pushLocked_accepted.mp ha)
    · exact hitem
  · exact hm k item (by rwa [pushLocked_lookup_ne hc] at hk)

theorem remove_each (key : UInt64) : (m.remove key).1.Each P := by
  intro k item hk
  rcases eq_or_ne k key.toInt64 with rfl | hc
  · rw [remove_lookup, Option.map_eq_some_iff] at hk
    obtain ⟨before, hb, rfl⟩ := hk
    exact hP.drain (hm _ _ hb)
  · exact hm k item (by rwa [remove_lookup_ne hc] at hk)

theorem process_each {packetOut : Unsent} {t u : Int} {r : Manager × Processed}
    (h : ProcessStep m packetOut t u r) : r.1.Each P := by
  intro k item hk
  cases h with
  | erased key front hf hs =>
    rcases eq_or_ne k key with rfl | hc
    · simp at hk
    · exact hm k item (by rwa [AList.lookup_erase_ne hc] at hk)
  | popped key front due hf hs hd =>
    rcases eq_or_ne k key with rfl | hc
    · rw [serve_lookup, Option.some.injEq] at hk
      have hfront := hP.due _ due (hm _ _ (OrderedMap.front_lookup hf))
      exact hk ▸ hP.served hfront hs m u
    · exact hm k item (by rwa [serve_lookup_ne _ _ hc] at hk)
  | _ => exact hm k item hk

end Closed

end Manager
end UdpQueue
