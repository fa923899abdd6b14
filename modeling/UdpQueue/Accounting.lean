import UdpQueue.Client

namespace UdpQueue
namespace Manager

theorem queued_le {m : Manager} (h : m.Sound) (k : Int64) :
    m.queued k ≤ m.queueBufferCapacity.toNat := by
  rw [queued]
  cases hl : m.queues.lookup k with
  | none => exact Nat.zero_le _
  | some item => exact UInt64.le_iff_toNat_le.mp (h k item hl).size_le

theorem getRemainingCapacity_toNat {m : Manager} (h : m.Sound) (key : UInt64) :
    (m.getRemainingCapacity key).toNat =
      m.queueBufferCapacity.toNat - m.queued key.toInt64 := by
  rw [getRemainingCapacity, queued]
  cases hl : m.queues.lookup key.toInt64 with
  | none => rfl
  | some item =>
    obtain ⟨hc, hle, -⟩ := h _ _ hl
    simp only [hc, UInt64.toNat_sub_of_le _ _ hle]

theorem accepted_iff_queued_lt {m : Manager} (h : m.Sound) {call : PushCall} :
    (m.pushLocked call).2 = true ↔ m.queued call.key.toInt64 < m.queueBufferCapacity.toNat := by
  rw [pushLocked_accepted_iff h, UInt64.lt_iff_toNat_lt, itemFor_size]

theorem accepted_iff_remaining {m : Manager} (h : m.Sound) (call : PushCall) :
    (m.pushLocked call).2 = true ↔ 0 < (m.getRemainingCapacity call.key).toNat := by
  rw [accepted_iff_queued_lt h, getRemainingCapacity_toNat h]
  omega

end Manager

theorem capacity_accounting (C : SizeT) (I : Int) (ops : List Op) (key : UInt64) :
    let m := client.run (.create C I) ops
    let tr := client.trace (.create C I) ops
    let accepted := (acceptedBy key.toInt64 tr).length
    let popped := (poppedFrom key.toInt64 tr).length
    let discarded := (discardedFrom key.toInt64 tr).length
    popped + discarded ≤ accepted ∧ accepted - popped - discarded ≤ C.toNat ∧
      (m.getRemainingCapacity key).toNat = C.toNat - (accepted - popped - discarded) ∧
      (∀ item, m.queues.lookup key.toInt64 = some item →
        item.buffer.size ≤ item.buffer.capacity ∧
          item.buffer.size.toNat = accepted - popped - discarded) ∧
      ∀ call : PushCall, call.key = key →
        ((m.pushLocked call).2 = true ↔ 0 < (m.getRemainingCapacity key).toNat) := by
  intro m tr accepted popped discarded
  have hm : m.Sound := reachable_sound C I ops
  have hC : m.queueBufferCapacity = C := reachable_capacity C I ops
  have hq : m.queued key.toInt64 + popped + discarded = accepted := queued_accounting C I ops _
  have hle := Manager.queued_le hm key.toInt64
  rw [hC] at hle
  refine ⟨by omega, by omega, ?_, ?_, ?_⟩
  · rw [Manager.getRemainingCapacity_toNat hm, hC]
    omega
  · intro item hl
    have hs : m.queued key.toInt64 = item.buffer.size.toNat := by simp [Manager.queued, hl]
    obtain ⟨hc, hsize, -⟩ := hm _ _ hl
    exact ⟨hc ▸ hsize, by omega⟩
  · rintro call rfl
    exact Manager.accepted_iff_remaining hm call

theorem remove_discards (C : SizeT) (I : Int) (before after : List Op) (key : UInt64) :
    let m := client.run (.create C I) before
    let r := m.remove key
    r.1.queues.keys = m.queues.keys ∧
      (∀ k, k ≠ key.toInt64 → r.1.queues.lookup k = m.queues.lookup k) ∧
      r.1.queued key.toInt64 = 0 ∧ r.2.2.length = m.queued key.toInt64 ∧
      ∀ (n : Nat) (unsent : Unsent),
        (returnedFrom key.toInt64 (client.trace r.1 after))[n]? = some unsent →
        ∃ a, (acceptedBy key.toInt64 (client.trace r.1 after))[n]? = some a ∧
          unsent.packet = deliver a.queued a.call.data := by
  intro m r
  have hm : r.1.Sound := Manager.remove_sound (reachable_sound C I before) key
  refine ⟨m.remove_keys key, fun k hk => Manager.remove_lookup_ne hk, ?_, ?_, ?_⟩
  · rw [← Manager.backlog_length, m.remove_backlog key, List.length_nil]
  · have hd := congrArg List.length (m.remove_discarded_backlog key)
    rwa [Manager.backlog_length] at hd
  · intro n unsent hn
    obtain ⟨a, ha, rfl⟩ := returned_delivered hm (m.remove_backlog key) after hn
    exact ⟨a, ha, rfl⟩

end UdpQueue
