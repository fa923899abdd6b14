import UdpQueue.Items

namespace UdpQueue

def Processed.returned (k : Int64) (r : Processed) : List Unsent :=
  match r.exit with
  | .popped key _ => if key = k then [r.packetOut] else []
  | _ => []

theorem Item.sound_closed (C : SizeT) : ItemClosed C (Item.Sound C) where
  fresh _ _ hC := ⟨hC, UInt64.zero_le, hC ▸ id⟩
  enqueue _ data h hs := enqueue_sound h (h.capacity_eq ▸ hs) data
  pop _ h hs := pop_sound h hs
  due _ _ h := ⟨h.capacity_eq, h.size_le, h.index_lt⟩

namespace Manager

def Sound (m : Manager) : Prop :=
  ∀ k item, m.queues.lookup k = some item → item.Sound m.queueBufferCapacity

def backlog (m : Manager) (k : Int64) : List Unsent :=
  match m.queues.lookup k with
  | none => []
  | some item => item.outgoing

def queued (m : Manager) (k : Int64) : Nat :=
  match m.queues.lookup k with
  | none => 0
  | some item => item.buffer.size.toNat

@[simp] theorem backlog_length (m : Manager) (k : Int64) : (m.backlog k).length = m.queued k := by
  rw [backlog, queued]
  split <;> simp

theorem backlog_of_lookup {m : Manager} {k : Int64} {item : Item}
    (h : m.queues.lookup k = some item) : m.backlog k = item.outgoing := by
  simp [backlog, h]

theorem backlog_congr {m m' : Manager} {k : Int64}
    (h : m'.queues.lookup k = m.queues.lookup k) : m'.backlog k = m.backlog k := by
  simp only [backlog, h]

theorem create_sound (C : SizeT) (I : Int) : (create C I).Sound :=
  create_each _ C I

@[simp] theorem create_backlog (C : SizeT) (I : Int) (k : Int64) : (create C I).backlog k = [] := by
  simp [backlog, create]

theorem itemFor_sound {m : Manager} (h : m.Sound) (call : PushCall) :
    (m.itemFor call).Sound m.queueBufferCapacity :=
  itemFor_each (Item.sound_closed _) h rfl call

theorem itemFor_outgoing (m : Manager) (call : PushCall) :
    (m.itemFor call).outgoing = m.backlog call.key.toInt64 := by
  rw [itemFor, backlog]
  cases hk : m.queues.lookup call.key.toInt64 with
  | none => exact Item.outgoing_eq_nil.mpr rfl
  | some item => rfl

theorem itemFor_size (m : Manager) (call : PushCall) :
    (m.itemFor call).buffer.size.toNat = m.queued call.key.toInt64 := by
  rw [← backlog_length, ← itemFor_outgoing, Item.outgoing_length]

theorem pushLocked_accepted_iff {m : Manager} (h : m.Sound) {call : PushCall} :
    (m.pushLocked call).2 = true ↔ (m.itemFor call).buffer.size < m.queueBufferCapacity := by
  rw [pushLocked_accepted, (itemFor_sound h call).capacity_eq]

theorem pushLocked_sound {m : Manager} (h : m.Sound) (call : PushCall) :
    (m.pushLocked call).1.Sound := by
  rw [Sound, (m.pushLocked_frame call).capacity]
  exact pushLocked_each (Item.sound_closed _) h rfl call

theorem pushLocked_backlog {m : Manager} (h : m.Sound) (call : PushCall) :
    (m.pushLocked call).1.backlog call.key.toInt64 = m.backlog call.key.toInt64 ++
      if (m.pushLocked call).2 then
        [(m.itemFor call).unsent (deliver (m.itemFor call).buffer.size.toNat call.data)] else [] := by
  rw [backlog_of_lookup (m.pushLocked_lookup call), ← itemFor_outgoing]
  split_ifs with ha
  · exact Item.enqueue_outgoing (itemFor_sound h call) ((pushLocked_accepted_iff h).mp ha) _
  · rw [List.append_nil]

theorem remove_sound {m : Manager} (h : m.Sound) (key : UInt64) : (m.remove key).1.Sound := by
  rw [Sound, (m.remove_frame key).capacity]
  exact remove_each (Item.sound_closed _) h key

theorem remove_backlog (m : Manager) (key : UInt64) : (m.remove key).1.backlog key.toInt64 = [] := by
  rw [backlog, remove_lookup]
  cases m.queues.lookup key.toInt64 with
  | none => rfl
  | some item => exact Item.outgoing_eq_nil.mpr item.drain_size

theorem remove_discarded_backlog (m : Manager) (key : UInt64) :
    (m.remove key).2.2 = m.backlog key.toInt64 := by
  rw [remove_discarded, backlog]
  cases m.queues.lookup key.toInt64 with
  | none => rfl
  | some item => exact item.drain_outgoing

section Process
variable {m : Manager} {packetOut : Unsent} {currentTime nanos : Int} {r : Manager × Processed}

theorem process_backlog (h : ProcessStep m packetOut currentTime nanos r) (k : Int64) :
    m.backlog k = r.2.returned k ++ r.1.backlog k := by
  cases h with
  | idle hf => rfl
  | erased key front hf hs =>
    rcases eq_or_ne k key with rfl | hc
    · rw [backlog_of_lookup (OrderedMap.front_lookup hf), Item.outgoing_eq_nil.mpr hs]
      simp [Processed.returned, backlog]
    · exact (backlog_congr (AList.lookup_erase_ne hc)).symm
  | waiting key front hf hs hd hw => rfl
  | popped key front due hf hs hd =>
    rcases eq_or_ne k key with rfl | hc
    · rw [backlog_of_lookup (OrderedMap.front_lookup hf), backlog_of_lookup (serve_lookup ..)]
      simp only [Processed.returned, serve, if_true, List.singleton_append]
      exact Item.pop_outgoing hs
    · rw [backlog_congr (serve_lookup_ne _ _ hc)]
      simp [Processed.returned, serve, Ne.symm hc]

end Process

end Manager
end UdpQueue
