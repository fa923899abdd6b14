import UdpQueue.Client

namespace UdpQueue
namespace Manager

def deadline (m : Manager) (k : Int64) : Int :=
  match m.queues.lookup k with
  | none => 0
  | some item => item.nextDueTime

def frontDue (m : Manager) : Int := (m.queues.keys.head?.map m.deadline).getD 0

theorem deadline_of_lookup {m : Manager} {k : Int64} {item : Item}
    (h : m.queues.lookup k = some item) : m.deadline k = item.nextDueTime := by
  simp [deadline, h]

theorem deadline_congr {m m' : Manager} {k : Int64}
    (h : m'.queues.lookup k = m.queues.lookup k) : m'.deadline k = m.deadline k := by
  simp only [deadline, h]

theorem deadline_of_notMem {m : Manager} {k : Int64} (h : k ∉ m.queues) : m.deadline k = 0 := by
  simp [deadline, AList.lookup_eq_none.mpr h]

@[simp] theorem create_deadline (C : SizeT) (I : Int) (k : Int64) : (create C I).deadline k = 0 := by
  simp [deadline, create]

theorem itemFor_nextDueTime (m : Manager) (call : PushCall) :
    (m.itemFor call).nextDueTime = m.deadline call.key.toInt64 := by
  rw [itemFor, deadline]
  cases m.queues.lookup call.key.toInt64 <;> rfl

@[simp] theorem pushLocked_deadline (m : Manager) (call : PushCall) (k : Int64) :
    (m.pushLocked call).1.deadline k = m.deadline k := by
  rcases eq_or_ne k call.key.toInt64 with rfl | hc
  · rw [deadline_of_lookup (m.pushLocked_lookup call), ← itemFor_nextDueTime]
    split_ifs <;> rfl
  · exact deadline_congr (pushLocked_lookup_ne hc)

@[simp] theorem remove_deadline (m : Manager) (key : UInt64) (k : Int64) :
    (m.remove key).1.deadline k = m.deadline k := by
  rcases eq_or_ne k key.toInt64 with rfl | hc
  · rw [deadline, remove_lookup, deadline]
    cases m.queues.lookup key.toInt64 with
    | none => rfl
    | some item =>
      rw [Option.map_some, item.drain_eq]
  · exact deadline_congr (remove_lookup_ne hc)

@[simp] theorem pushLocked_frontDue (m : Manager) (call : PushCall) :
    (m.pushLocked call).1.frontDue = m.frontDue := by
  have hd : (m.pushLocked call).1.deadline = m.deadline := funext (m.pushLocked_deadline call)
  rw [frontDue, frontDue, hd, pushLocked_keys]
  split_ifs with h
  · rfl
  · cases hk : m.queues.keys with
    | nil => simpa using deadline_of_notMem h
    | cons k ks => rfl

@[simp] theorem remove_frontDue (m : Manager) (key : UInt64) :
    (m.remove key).1.frontDue = m.frontDue := by
  have hd : (m.remove key).1.deadline = m.deadline := funext (m.remove_deadline key)
  rw [frontDue, frontDue, hd, remove_keys]

theorem frontDue_of_keys {m : Manager} {k : Int64} {ks : List Int64} (h : m.queues.keys = k :: ks) :
    m.frontDue = m.deadline k := by
  simp [frontDue, h]

theorem frontDue_of_front {m : Manager} {k : Int64} {item : Item}
    (h : OrderedMap.front m.queues = some (k, item)) : m.frontDue = item.nextDueTime := by
  rw [frontDue_of_keys (OrderedMap.front_keys h), deadline_of_lookup (OrderedMap.front_lookup h)]

theorem frontDue_of_empty {m : Manager} (h : m.queues.keys = []) : m.frontDue = 0 := by
  simp [frontDue, h]

theorem getTargetTime_of_mem {m : Manager} {k : Int64} (h : k ∈ m.queues) (currentTime : Int) :
    m.getTargetTime currentTime = m.frontDue := by
  rw [getTargetTime]
  cases hf : OrderedMap.front m.queues with
  | none =>
    have hk : k ∈ m.queues.keys := h
    simp [OrderedMap.front_eq_none.mp hf] at hk
  | some e => exact (frontDue_of_front hf).symm

section Process
variable {m : Manager} {packetOut : Unsent} {t u : Int} {r : Manager × Processed}

theorem process_deadline (h : ProcessStep m packetOut t u r) (k : Int64) :
    r.1.deadline k =
      match r.2.exit with
      | .erased key => if k = key then 0 else m.deadline k
      | .popped key due => if k = key then m.nextDue due u else m.deadline k
      | _ => m.deadline k := by
  cases h with
  | idle hf => rfl
  | erased key item hf hs =>
    simp only []
    split_ifs with hc
    · exact deadline_of_notMem (by simp [hc])
    · exact deadline_congr (AList.lookup_erase_ne hc)
  | waiting key item hf hs hd hw => rfl
  | popped key item due hf hs hd =>
    simp only [serve]
    split_ifs with hc
    · exact hc ▸ deadline_of_lookup (serve_lookup ..)
    · exact deadline_congr (serve_lookup_ne _ _ hc)

theorem process_target (h : ProcessStep m packetOut t u r) {k : Int64} (hk : k ∈ r.1.queues) :
    r.2.targetTime = r.1.frontDue := by
  cases h with
  | idle hf =>
    have hk : k ∈ m.queues.keys := hk
    simp [OrderedMap.front_eq_none.mp hf] at hk
  | erased key item hf hs => exact getTargetTime_of_mem hk t
  | waiting key item hf hs hd hw => exact (frontDue_of_front hf).symm
  | popped key item due hf hs hd => exact getTargetTime_of_mem hk u

theorem process_target_of_keys (h : ProcessStep m packetOut t u r) {k : Int64} {ks : List Int64}
    (hk : r.1.queues.keys = k :: ks) : r.2.targetTime = r.1.frontDue := by
  apply process_target h (k := k)
  rw [AList.mem_keys, hk]
  exact List.mem_cons_self

theorem process_frontDue (h : ProcessStep m packetOut t u r) :
    r.1.frontDue = 0 ∨ r.1.frontDue = r.2.targetTime := by
  cases hk : r.1.queues.keys with
  | nil => exact Or.inl (frontDue_of_empty hk)
  | cons k ks => exact Or.inr (process_target_of_keys h hk).symm

theorem process_erased (h : ProcessStep m packetOut t u r) {key : Int64}
    (he : r.2.exit = .erased key) : m.frontDue = m.deadline key := by
  cases h with
  | erased key' item hf hs =>
    cases he
    exact frontDue_of_keys (OrderedMap.front_keys hf)
  | _ => cases he

theorem process_popped (h : ProcessStep m packetOut t u r) {key : Int64} {due : Int}
    (he : r.2.exit = .popped key due) :
    m.deadline key = 0 ∧ due = t ∨
      m.deadline key ≠ 0 ∧ due = m.deadline key ∧ due - t < 1500000 := by
  cases h with
  | popped key' item due' hf hs hd =>
    cases he
    rw [deadline_of_lookup (OrderedMap.front_lookup hf)]
    exact hd
  | _ => cases he

end Process

end Manager
end UdpQueue
