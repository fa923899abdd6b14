import UdpQueue.Item

namespace UdpQueue

def payload (data : List UInt8) : Queued := { data, length := data.length }

-- a packet pushed behind `queued` others loses its slot to the erase of the pop before its own
def deliver (queued : Nat) (data : List UInt8) : Queued := if queued = 0 then payload data else {}

theorem deliver_eq_payload {queued : Nat} {data : List UInt8} :
    deliver queued data = payload data ↔ queued = 0 ∨ data = [] := by
  rw [deliver]
  split_ifs with h
  · simp [h]
  · cases data <;> simp [h, payload]

namespace Item

structure Sound (capacity : SizeT) (item : Item) : Prop where
  capacity_eq : item.buffer.capacity = capacity
  size_le : item.buffer.size ≤ capacity
  index_lt : 0 < capacity → item.buffer.index < capacity

def backlog (item : Item) : List Queued :=
  match item.buffer.size.toNat with
  | 0 => []
  | n + 1 => item.slot item.buffer.index :: List.replicate n {}

@[simp] theorem backlog_length (item : Item) : item.backlog.length = item.buffer.size.toNat := by
  rw [backlog]
  split <;> simp [*]

theorem backlog_eq_nil {item : Item} : item.backlog = [] ↔ item.buffer.size = 0 := by
  rw [← List.length_eq_zero_iff, backlog_length, ← UInt64.toNat_inj, UInt64.toNat_zero]

def unsent (item : Item) (packet : Queued) : Unsent :=
  { packet, address := item.address, explicitSocket := item.explicitSocket }

def outgoing (item : Item) : List Unsent := item.backlog.map item.unsent

@[simp] theorem outgoing_length (item : Item) : item.outgoing.length = item.buffer.size.toNat := by
  rw [outgoing, List.length_map, backlog_length]

theorem outgoing_eq_nil {item : Item} : item.outgoing = [] ↔ item.buffer.size = 0 := by
  rw [outgoing, List.map_eq_nil_iff, backlog_eq_nil]

theorem size_pos {item : Item} : 0 < item.buffer.size ↔ item.buffer.size.toNat ≠ 0 := by
  rw [UInt64.lt_iff_toNat_lt, UInt64.toNat_zero, Nat.pos_iff_ne_zero]

theorem slot_insert (item : Item) (i j : SizeT) (packet : Queued) :
    { item with packetBuffer := item.packetBuffer.insert i packet }.slot j =
      if j = i then packet else item.slot j := by
  split_ifs with h
  · subst h
    simp [slot]
  · simp [slot, Finmap.lookup_insert_of_ne _ h]

theorem pop_size {item : Item} (h : 0 < item.buffer.size) :
    item.buffer.size.toNat = item.pop.1.buffer.size.toNat + 1 := by
  have hs : 1 ≤ item.buffer.size := UInt64.le_iff_toNat_le.mpr (UInt64.lt_iff_toNat_lt.mp h)
  have hn := size_pos.mp h
  simp only [pop, UInt64.toNat_sub_of_le _ _ hs, UInt64.toNat_one]
  omega

theorem pop_sound {C : SizeT} {item : Item} (hi : item.Sound C) (h : 0 < item.buffer.size) :
    item.pop.1.Sound C := by
  have hs := pop_size h
  have hle := UInt64.le_iff_toNat_le.mp hi.size_le
  refine ⟨hi.capacity_eq, UInt64.le_iff_toNat_le.mpr (by omega), fun hc => ?_⟩
  simp only [pop, hi.capacity_eq]
  exact UInt64.mod_lt _ hc

theorem pop_backlog {item : Item} (h : 0 < item.buffer.size) :
    item.backlog = item.pop.2.packet :: item.pop.1.backlog := by
  rw [backlog, pop_size h, backlog]
  cases hn : item.pop.1.buffer.size.toNat with
  | zero => rfl
  | succ n =>
    have hslot : item.pop.1.slot item.pop.1.buffer.index = {} := by simp [pop, slot]
    simp only [hslot, ← List.replicate_succ]
    rfl

theorem pop_outgoing {item : Item} (h : 0 < item.buffer.size) :
    item.outgoing = item.pop.2 :: item.pop.1.outgoing := by
  rw [outgoing, pop_backlog h]
  rfl

theorem enqueue_size {C : SizeT} {item : Item} (h : item.buffer.size < C) (data : List UInt8) :
    (item.enqueue data).buffer.size.toNat = item.buffer.size.toNat + 1 := by
  have hlt := UInt64.lt_iff_toNat_lt.mp h
  have := C.toNat_lt
  simp only [enqueue, UInt64.toNat_add, UInt64.toNat_one]
  omega

theorem enqueue_sound {C : SizeT} {item : Item} (hi : item.Sound C) (h : item.buffer.size < C)
    (data : List UInt8) : (item.enqueue data).Sound C := by
  have hs := enqueue_size h data
  have hlt := UInt64.lt_iff_toNat_lt.mp h
  exact ⟨hi.capacity_eq, UInt64.le_iff_toNat_le.mpr (by omega), hi.index_lt⟩

theorem next_index_ne {C : SizeT} {item : Item} (hi : item.Sound C) (h : item.buffer.size < C)
    (h0 : item.buffer.size.toNat ≠ 0) :
    (item.buffer.index + item.buffer.size) % item.buffer.capacity ≠ item.buffer.index := by
  have hlt := UInt64.lt_iff_toNat_lt.mp h
  have hidx := UInt64.lt_iff_toNat_lt.mp
    (hi.index_lt (UInt64.lt_iff_toNat_lt.mpr (by rw [UInt64.toNat_zero]; omega)))
  have hC := C.toNat_lt
  intro he
  have hm := congrArg UInt64.toNat he
  rw [hi.capacity_eq, UInt64.toNat_mod, UInt64.toNat_add] at hm
  -- the sum stays below two capacities, and one that overflows is already below the index
  rcases Nat.lt_or_ge (item.buffer.index.toNat + item.buffer.size.toNat) (2 ^ 64) with hw | hw
  · rw [Nat.mod_eq_of_lt hw] at hm
    rcases Nat.lt_or_ge (item.buffer.index.toNat + item.buffer.size.toNat) C.toNat with hc | hc
    · rw [Nat.mod_eq_of_lt hc] at hm
      omega
    · rw [Nat.mod_eq_sub_mod hc, Nat.mod_eq_of_lt (by omega)] at hm
      omega
  · rw [Nat.mod_eq_sub_mod hw, Nat.mod_eq_of_lt (by omega), Nat.mod_eq_of_lt (by omega)] at hm
    omega

theorem next_index_empty {C : SizeT} {item : Item} (hi : item.Sound C) (h : item.buffer.size < C)
    (h0 : item.buffer.size.toNat = 0) :
    (item.buffer.index + item.buffer.size) % item.buffer.capacity = item.buffer.index := by
  have hlt := UInt64.lt_iff_toNat_lt.mp h
  have hidx := UInt64.lt_iff_toNat_lt.mp
    (hi.index_lt (UInt64.lt_iff_toNat_lt.mpr (by rw [UInt64.toNat_zero]; omega)))
  rw [← UInt64.toNat_inj, hi.capacity_eq, UInt64.toNat_mod, UInt64.toNat_add, h0, Nat.add_zero,
    Nat.mod_eq_of_lt item.buffer.index.toNat_lt, Nat.mod_eq_of_lt hidx]

theorem enqueue_backlog {C : SizeT} {item : Item} (hi : item.Sound C) (h : item.buffer.size < C)
    (data : List UInt8) :
    (item.enqueue data).backlog = item.backlog ++ [deliver item.backlog.length data] := by
  have hslot : (item.enqueue data).slot item.buffer.index =
      if item.buffer.index = (item.buffer.index + item.buffer.size) % item.buffer.capacity
      then payload data else item.slot item.buffer.index := slot_insert item _ _ _
  rw [backlog, enqueue_size h, backlog_length]
  change (item.enqueue data).slot item.buffer.index :: _ = _
  cases hn : item.buffer.size.toNat with
  | zero =>
    rw [hslot, if_pos (next_index_empty hi h hn).symm]
    simp [backlog, hn, deliver]
  | succ n =>
    rw [hslot, if_neg (next_index_ne hi h (by omega)).symm]
    simp [backlog, hn, deliver, List.replicate_succ']

theorem enqueue_outgoing {C : SizeT} {item : Item} (hi : item.Sound C) (h : item.buffer.size < C)
    (data : List UInt8) :
    (item.enqueue data).outgoing =
      item.outgoing ++ [item.unsent (deliver item.buffer.size.toNat data)] := by
  rw [outgoing, enqueue_backlog hi h, backlog_length, List.map_append]
  rfl

theorem drain_of_pos {item : Item} (h : 0 < item.buffer.size) :
    item.drain = (item.pop.1.drain.1, item.pop.2 :: item.pop.1.drain.2) := by
  rw [drain, if_pos h]

theorem drain_of_zero {item : Item} (h : ¬ 0 < item.buffer.size) : item.drain = (item, []) := by
  rw [drain, if_neg h]

theorem drain_size (item : Item) : item.drain.1.buffer.size = 0 := by
  induction item using drain.induct with
  | case1 item h ih => rwa [drain_of_pos h]
  | case2 item h =>
    rw [drain_of_zero h, ← backlog_eq_nil, ← List.length_eq_zero_iff, backlog_length]
    simpa [size_pos] using h

theorem drain_eq (item : Item) :
    item.drain.1 =
      { item with packetBuffer := item.drain.1.packetBuffer, buffer := item.drain.1.buffer } := by
  induction item using drain.induct with
  | case1 item h ih =>
    rw [drain_of_pos h]
    exact ih
  | case2 item h => rw [drain_of_zero h]

theorem drain_outgoing (item : Item) : item.drain.2 = item.outgoing := by
  induction item using drain.induct with
  | case1 item h ih => rw [drain_of_pos h, ih, ← pop_outgoing h]
  | case2 item h =>
    rw [drain_of_zero h, eq_comm, ← List.length_eq_zero_iff, outgoing_length]
    simpa [size_pos] using h

end Item

end UdpQueue
