import UdpQueue.Manager
import UdpQueue.Ring

namespace UdpQueue
namespace Manager

structure Frame (m m' : Manager) : Prop where
  capacity : m'.queueBufferCapacity = m.queueBufferCapacity
  interval : m'.packetInterval = m.packetInterval

def itemFor (m : Manager) (call : PushCall) : Item :=
  (m.queues.lookup call.key.toInt64).getD (m.newItem call)

def queuesFor (m : Manager) (call : PushCall) : OrderedMap Int64 Item :=
  OrderedMap.insert call.key.toInt64 (m.newItem call) m.queues

theorem queuesFor_lookup (m : Manager) (call : PushCall) :
    (m.queuesFor call).lookup call.key.toInt64 = some (m.itemFor call) :=
  OrderedMap.lookup_insert _ _ _

theorem queuesFor_keys (m : Manager) (call : PushCall) :
    (m.queuesFor call).keys =
      if call.key.toInt64 ∈ m.queues then m.queues.keys else m.queues.keys ++ [call.key.toInt64] := by
  rw [queuesFor]
  split_ifs with h
  · rw [OrderedMap.insert_of_mem h]
  · rw [OrderedMap.keys_insert_of_notMem h]

theorem pushLocked_eq (m : Manager) (call : PushCall) :
    m.pushLocked call =
      let key := call.key.toInt64
      let item := m.itemFor call
      if item.buffer.size < item.buffer.capacity then
        ({ m with queues := (m.queuesFor call).replace key (item.enqueue call.data) }, true)
      else ({ m with queues := m.queuesFor call }, false) := by
  have hq : (if call.key.toInt64 ∈ m.queues then m.queues
      else OrderedMap.insert call.key.toInt64 (m.newItem call) m.queues) = m.queuesFor call := by
    rw [queuesFor]
    split_ifs with h
    · rw [OrderedMap.insert_of_mem h]
    · rfl
  simp only [pushLocked, hq, queuesFor_lookup, ge_iff_le, ← UInt64.not_lt, ite_not]

theorem pushLocked_accepted {m : Manager} {call : PushCall} :
    (m.pushLocked call).2 = true ↔
      (m.itemFor call).buffer.size < (m.itemFor call).buffer.capacity := by
  simp only [pushLocked_eq]
  split_ifs with h <;> simp [h]

theorem pushLocked_new {m : Manager} {call : PushCall} (h : call.key.toInt64 ∉ m.queues) :
    (m.pushLocked call).2 = true ↔ 0 < m.queueBufferCapacity := by
  rw [pushLocked_accepted, itemFor, AList.lookup_eq_none.mpr h]
  rfl

theorem pushLocked_rejected {m : Manager} {call : PushCall} (h : call.key.toInt64 ∈ m.queues)
    (hr : (m.pushLocked call).2 = false) : (m.pushLocked call).1 = m := by
  simp only [pushLocked_eq] at hr ⊢
  split_ifs at hr ⊢
  rw [queuesFor, OrderedMap.insert_of_mem h]

theorem pushLocked_lookup (m : Manager) (call : PushCall) :
    (m.pushLocked call).1.queues.lookup call.key.toInt64 =
      some (if (m.pushLocked call).2 then (m.itemFor call).enqueue call.data else m.itemFor call) := by
  have hk : call.key.toInt64 ∈ m.queuesFor call := OrderedMap.mem_insert.mpr (Or.inr rfl)
  by_cases h : (m.itemFor call).buffer.size < (m.itemFor call).buffer.capacity
  · simp only [pushLocked_eq, if_pos h, if_true]
    exact OrderedMap.lookup_replace _ hk
  · simp only [pushLocked_eq, if_neg h, Bool.false_eq_true, if_false]
    exact m.queuesFor_lookup call

theorem pushLocked_lookup_ne {m : Manager} {call : PushCall} {k : Int64}
    (h : k ≠ call.key.toInt64) : (m.pushLocked call).1.queues.lookup k = m.queues.lookup k := by
  have hq : (m.queuesFor call).lookup k = m.queues.lookup k := OrderedMap.lookup_insert_ne _ _ h
  simp only [pushLocked_eq]
  split_ifs
  · simpa only [OrderedMap.lookup_replace_ne _ _ h] using hq
  · exact hq

theorem pushLocked_keys (m : Manager) (call : PushCall) :
    (m.pushLocked call).1.queues.keys =
      if call.key.toInt64 ∈ m.queues then m.queues.keys else m.queues.keys ++ [call.key.toInt64] := by
  rw [← queuesFor_keys]
  simp only [pushLocked_eq]
  split_ifs
  · exact AList.keys_replace _ _ _
  · rfl

theorem pushLocked_frame (m : Manager) (call : PushCall) : m.Frame (m.pushLocked call).1 := by
  simp only [pushLocked_eq]
  split_ifs <;> exact ⟨rfl, rfl⟩

theorem remove_frame (m : Manager) (key : UInt64) : m.Frame (m.remove key).1 := by
  rw [remove]
  split <;> exact ⟨rfl, rfl⟩

theorem remove_lookup (m : Manager) (key : UInt64) :
    (m.remove key).1.queues.lookup key.toInt64 =
      (m.queues.lookup key.toInt64).map (fun item => item.drain.1) := by
  rw [remove]
  cases h : m.queues.lookup key.toInt64 with
  | none => simp [h]
  | some item =>
    exact OrderedMap.lookup_replace _ (AList.lookup_isSome.mp (by simp [h]))

theorem remove_lookup_ne {m : Manager} {key : UInt64} {k : Int64} (h : k ≠ key.toInt64) :
    (m.remove key).1.queues.lookup k = m.queues.lookup k := by
  rw [remove]
  cases m.queues.lookup key.toInt64 with
  | none => rfl
  | some item => exact OrderedMap.lookup_replace_ne _ _ h

@[simp] theorem remove_keys (m : Manager) (key : UInt64) :
    (m.remove key).1.queues.keys = m.queues.keys := by
  rw [remove]
  cases m.queues.lookup key.toInt64 with
  | none => rfl
  | some item => exact AList.keys_replace _ _ _

theorem remove_discarded (m : Manager) (key : UInt64) :
    (m.remove key).2.2 = ((m.queues.lookup key.toInt64).map (fun item => item.drain.2)).getD [] := by
  rw [remove]
  cases m.queues.lookup key.toInt64 <;> rfl

theorem serve_lookup (m : Manager) (key : Int64) (item : Item) (nanos : Int) :
    (m.serve key item nanos).1.queues.lookup key = some (m.served item nanos) := by
  simp [serve, OrderedMap.lookup_insert]

theorem serve_lookup_ne {m : Manager} {key k : Int64} (item : Item) (nanos : Int) (h : k ≠ key) :
    (m.serve key item nanos).1.queues.lookup k = m.queues.lookup k := by
  rw [serve, OrderedMap.lookup_insert_ne _ _ h, AList.lookup_erase_ne h]

theorem serve_keys (m : Manager) (key : Int64) (item : Item) (nanos : Int) :
    (m.serve key item nanos).1.queues.keys = m.queues.keys.erase key ++ [key] := by
  rw [serve, OrderedMap.keys_insert_of_notMem (by simp), AList.keys_erase]

inductive ProcessStep (m : Manager) (packetOut : Unsent) (currentTime nanos : Int) :
    Manager × Processed → Prop
  | idle (hf : OrderedMap.front m.queues = none) :
      ProcessStep m packetOut currentTime nanos
        (m, { packetOut := packetOut.clear, targetTime := currentTime + m.packetInterval,
              exit := .idle })
  | erased (key : Int64) (item : Item) (hf : OrderedMap.front m.queues = some (key, item))
      (hs : item.buffer.size = 0) :
      ProcessStep m packetOut currentTime nanos
        ({ m with queues := m.queues.erase key },
          { packetOut := packetOut.clear
            targetTime := { m with queues := m.queues.erase key }.getTargetTime currentTime
            exit := .erased key, freed := addrinfoFree item })
  | waiting (key : Int64) (item : Item) (hf : OrderedMap.front m.queues = some (key, item))
      (hs : 0 < item.buffer.size) (hd : item.nextDueTime ≠ 0)
      (hw : item.nextDueTime - currentTime ≥ 1500000) :
      ProcessStep m packetOut currentTime nanos
        (m, { packetOut := packetOut.clear, targetTime := item.nextDueTime, exit := .waiting key })
  | popped (key : Int64) (item : Item) (due : Int)
      (hf : OrderedMap.front m.queues = some (key, item)) (hs : 0 < item.buffer.size)
      (hd : item.nextDueTime = 0 ∧ due = currentTime ∨
        item.nextDueTime ≠ 0 ∧ due = item.nextDueTime ∧ due - currentTime < 1500000) :
      ProcessStep m packetOut currentTime nanos
        (m.serve key { item with nextDueTime := due } nanos)

theorem processNextLocked_step (m : Manager) (packetOut : Unsent) (currentTime nanos : Int) :
    ProcessStep m packetOut currentTime nanos (m.processNextLocked packetOut currentTime nanos) := by
  rw [processNextLocked]
  cases hf : OrderedMap.front m.queues with
  | none => exact .idle hf
  | some e =>
    obtain ⟨key, item⟩ := e
    simp only []
    split_ifs with hs hd hw
    · exact .erased key item hf hs
    · exact .popped key item currentTime hf (UInt64.pos_iff_ne_zero.mpr hs) (Or.inl ⟨hd, rfl⟩)
    · exact .waiting key item hf (UInt64.pos_iff_ne_zero.mpr hs) hd hw
    · exact .popped key item item.nextDueTime hf (UInt64.pos_iff_ne_zero.mpr hs)
        (Or.inr ⟨hd, rfl, by omega⟩)

theorem process_frame {m : Manager} {packetOut : Unsent} {t u : Int} {r : Manager × Processed}
    (h : ProcessStep m packetOut t u r) : m.Frame r.1 := by
  cases h <;> exact ⟨rfl, rfl⟩

end Manager
end UdpQueue
