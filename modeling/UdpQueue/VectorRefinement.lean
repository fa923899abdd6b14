import UdpQueue.Library.Matches
import UdpQueue.Steps
import UdpQueue.VectorManager

namespace UdpQueue

open Lni (Vector Fits)

structure VectorQueued.Carries (p : VectorQueued) (q : Queued) : Prop where
  data : p.data.Represents q.data
  fits : Fits p.data.vecSz
  length : p.length.toNat = q.length
  whole : q.length = q.data.length

structure VectorUnsent.Carries (u : VectorUnsent) (w : Unsent) : Prop where
  packet : u.packet.Carries w.packet
  address : u.address = w.address
  explicitSocket : u.explicitSocket = w.explicitSocket

structure VectorItem.Carries (c : VectorItem) (item : Item) : Prop where
  nextDueTime : c.nextDueTime = item.nextDueTime
  slots : ∀ i, Option.Rel VectorQueued.Carries (c.packetBuffer.lookup i) (item.packetBuffer.lookup i)
  buffer : c.buffer = item.buffer
  address : c.address = item.address
  explicitSocket : c.explicitSocket = item.explicitSocket

structure VectorManager.Carries (c : VectorManager) (m : Manager) : Prop where
  queues : Matches VectorItem.Carries c.queues m.queues
  capacity : c.queueBufferCapacity = m.queueBufferCapacity
  interval : c.packetInterval = m.packetInterval
  shuttingDown : c.shuttingDown = m.shuttingDown

namespace VectorQueued

theorem empty_carries : ({} : VectorQueued).Carries {} :=
  ⟨Vector.new_represents, by decide, rfl, rfl⟩

theorem ofVector_carries {data : Vector UInt8} {xs : List UInt8} (h : data.Represents xs)
    (hf : Fits data.vecSz) : ∃ p, ofVector data = some p ∧ p.Carries (payload xs) := by
  obtain ⟨moved, hmove, hrep⟩ := h.move
  have hsize : moved.vecSz = data.vecSz := by rw [← UInt32.toNat_inj, hrep.size_eq, h.size_eq]
  rw [ofVector, hmove]
  exact ⟨_, rfl, hrep, by rw [hsize]; exact hf, h.size_eq, rfl⟩

theorem moveAssign_carries {p other : VectorQueued} {ys : List UInt8} {q : Queued}
    (hp : p.data.Represents ys) (h : other.Carries q) :
    ∃ r, p.moveAssign other = some r ∧ r.Carries q := by
  obtain ⟨data, hassign, hrep⟩ := hp.moveAssign h.data h.fits
  have hsize : data.vecSz = other.data.vecSz := by rw [← UInt32.toNat_inj, hrep.size_eq, h.data.size_eq]
  rw [moveAssign, hassign]
  exact ⟨_, rfl, hrep, by rw [hsize]; exact h.fits, h.length, h.whole⟩

end VectorQueued

theorem VectorUnsent.Carries.view {u : VectorUnsent} {w : Unsent} (h : u.Carries w) :
    u.view = some w := by
  obtain ⟨⟨hdata, -, hlength, hwhole⟩, haddress, hsocket⟩ := h
  have hbytes : (if u.packet.data.empty then some []
      else u.packet.data.arr.slice u.packet.length.toNat 0) = some w.packet.data := by
    split_ifs with hempty
    · rw [hdata.empty_iff.mp hempty]
    · rw [hlength, hwhole, hdata.holds.slice]
  rw [VectorUnsent.view, hbytes, hlength, haddress, hsocket]
  rfl

namespace VectorItem.Carries
variable {c : VectorItem} {item : Item} (h : c.Carries item)
include h

theorem slot (i : SizeT) : (c.slot i).Carries (item.slot i) := by
  have hrel := h.slots i
  rw [VectorItem.slot, Item.slot]
  generalize c.packetBuffer.lookup i = a, item.packetBuffer.lookup i = b at hrel
  cases hrel with
  | some hr => exact hr
  | none => exact VectorQueued.empty_carries

theorem slots_insert {p : VectorQueued} {q : Queued} (hp : p.Carries q) (i j : SizeT) :
    Option.Rel VectorQueued.Carries ((c.packetBuffer.insert i p).lookup j)
      ((item.packetBuffer.insert i q).lookup j) := by
  rcases eq_or_ne j i with rfl | hj
  · rw [Finmap.lookup_insert, Finmap.lookup_insert]
    exact .some hp
  · rw [Finmap.lookup_insert_of_ne _ hj, Finmap.lookup_insert_of_ne _ hj]
    exact h.slots j

theorem pop {packetOut : VectorUnsent} {ys : List UInt8} (ho : packetOut.packet.data.Represents ys) :
    ∃ c' u, c.pop packetOut = some (c', u) ∧ c'.Carries item.pop.1 ∧ u.Carries item.pop.2 := by
  have hslot := h.slot item.buffer.index
  obtain ⟨moved, hmoved, hcarries⟩ := VectorQueued.moveAssign_carries ho hslot
  rw [VectorItem.pop, h.buffer, hmoved]
  refine ⟨_, _, rfl, ⟨h.nextDueTime, fun j => ?_, rfl, h.address, h.explicitSocket⟩,
    hcarries, h.address, h.explicitSocket⟩
  simp only [Item.pop]
  rcases eq_or_ne j ((item.buffer.index + 1) % item.buffer.capacity) with rfl | hj
  · rw [Finmap.lookup_erase, Finmap.lookup_erase]
    exact .none
  · rw [Finmap.lookup_erase_ne hj, Finmap.lookup_erase_ne hj]
    exact h.slots_insert hslot _ j

theorem enqueue {data : Vector UInt8} {xs : List UInt8} (hd : data.Represents xs) (hf : Fits data.vecSz) :
    ∃ c', c.enqueue data = some c' ∧ c'.Carries (item.enqueue xs) := by
  obtain ⟨queued, hqueued, hcarries⟩ := VectorQueued.ofVector_carries hd hf
  obtain ⟨packet, hpacket, hstored⟩ := VectorQueued.moveAssign_carries
    (h.slot ((item.buffer.index + item.buffer.size) % item.buffer.capacity)).data hcarries
  rw [VectorItem.enqueue, h.buffer]
  simp only [hqueued, hpacket, Option.bind_eq_bind, Option.bind_some]
  exact ⟨_, rfl, h.nextDueTime, h.slots_insert hstored _, rfl, h.address, h.explicitSocket⟩

theorem due (t : Int) : { c with nextDueTime := t }.Carries { item with nextDueTime := t } :=
  ⟨rfl, h.slots, h.buffer, h.address, h.explicitSocket⟩

theorem drain : ∃ c', c.drain item.buffer.size.toNat = some c' ∧ c'.Carries item.drain.1 := by
  induction item using Item.drain.induct generalizing c with
  | case1 item hs ih =>
    have hfresh : ({} : VectorUnsent).packet.data.Represents [] := Vector.new_represents
    obtain ⟨c', u, hpop, hc, -⟩ := h.pop hfresh
    rw [Item.drain_of_pos hs, Item.pop_size hs, VectorItem.drain, hpop]
    exact ih hc
  | case2 item hs =>
    have hz : item.buffer.size.toNat = 0 := by
      by_contra hne
      exact hs (Item.size_pos.mpr hne)
    rw [Item.drain_of_zero hs, hz]
    exact ⟨c, rfl, h⟩

end VectorItem.Carries

namespace VectorManager

theorem create_carries (C : SizeT) (I : Int) : (create C I).Carries (.create C I) :=
  ⟨.empty _, rfl, rfl, rfl⟩

namespace Carries
variable {c : VectorManager} {m : Manager} (h : c.Carries m)
include h

theorem newItem (call : PushCall) : (c.newItem call).Carries (m.newItem call) :=
  ⟨rfl, fun _ => .none, by simp only [VectorManager.newItem, Manager.newItem, h.capacity], rfl, rfl⟩

theorem withQueues {q : OrderedMap Int64 VectorItem} {r : OrderedMap Int64 Item}
    (hq : Matches VectorItem.Carries q r) : { c with queues := q }.Carries { m with queues := r } :=
  { h with queues := hq }

theorem getTargetTime (currentTime : Int) : c.getTargetTime currentTime = m.getTargetTime currentTime := by
  rw [VectorManager.getTargetTime, Manager.getTargetTime]
  cases hf : OrderedMap.front m.queues with
  | none => rw [h.queues.front_none hf, h.interval]
  | some e =>
    obtain ⟨d, hfront, hd⟩ := h.queues.front_some hf
    rw [hfront]
    exact hd.nextDueTime

theorem queuesFor (call : PushCall) :
    Matches VectorItem.Carries
      (if call.key.toInt64 ∈ c.queues then c.queues
        else OrderedMap.insert call.key.toInt64 (c.newItem call) c.queues) (m.queuesFor call) := by
  have hins := h.queues.insert (k := call.key.toInt64) (h.newItem call)
  split_ifs with hk
  · rwa [OrderedMap.insert_of_mem hk] at hins
  · exact hins

theorem pushLocked (call : PushCall) {data : Vector UInt8} (hd : data.Represents call.data)
    (hf : Fits data.vecSz) :
    ∃ c', c.pushLocked call data = some (c', (m.pushLocked call).2) ∧
      c'.Carries (m.pushLocked call).1 := by
  have hq := h.queuesFor call
  obtain ⟨d, hlookup, hitem⟩ := hq.find (m.queuesFor_lookup call)
  rw [VectorManager.pushLocked, Manager.pushLocked_eq]
  simp only [hlookup, hitem.buffer]
  by_cases hroom : (m.itemFor call).buffer.size < (m.itemFor call).buffer.capacity
  · obtain ⟨d', henqueue, hd'⟩ := hitem.enqueue hd hf
    rw [if_neg (UInt64.not_le.mpr hroom), if_pos hroom, henqueue]
    exact ⟨_, rfl, h.withQueues (hq.replace hd')⟩
  · rw [if_pos (UInt64.not_lt.mp hroom), if_neg hroom]
    exact ⟨_, rfl, h.withQueues hq⟩

theorem remove (key : UInt64) :
    ∃ c', c.remove key = some (c', (m.remove key).2.1) ∧ c'.Carries (m.remove key).1 := by
  have hrel := h.queues.lookup key.toInt64
  rw [VectorManager.remove, Manager.remove]
  generalize c.queues.lookup key.toInt64 = a, m.queues.lookup key.toInt64 = b at hrel
  cases hrel with
  | none => exact ⟨_, rfl, h⟩
  | @some d item hd =>
    obtain ⟨d', hdrain, hd'⟩ := hd.drain
    simp only [hd.buffer, hdrain, Option.map_some]
    exact ⟨_, rfl, h.withQueues (h.queues.replace hd')⟩

theorem getRemainingCapacity (key : UInt64) :
    c.getRemainingCapacity key = m.getRemainingCapacity key := by
  have hrel := h.queues.lookup key.toInt64
  rw [VectorManager.getRemainingCapacity, Manager.getRemainingCapacity]
  generalize c.queues.lookup key.toInt64 = a, m.queues.lookup key.toInt64 = b at hrel
  cases hrel with
  | none => exact h.capacity
  | some hd => simp only [hd.buffer]

theorem serve {d : VectorItem} {item : Item} (hd : d.Carries item) (key : Int64)
    {packetOut : VectorUnsent} {ys : List UInt8} (ho : packetOut.packet.data.Represents ys) (nanos : Int) :
    ∃ c' result, c.serve key d packetOut nanos = some (c', result) ∧
      c'.Carries (m.serve key item nanos).1 ∧ result.view = some (m.serve key item nanos).2 := by
  obtain ⟨d', u, hpop, hd', hu⟩ := hd.pop ho
  have hdue : c.nextDue d.nextDueTime nanos = m.nextDue item.nextDueTime nanos := by
    simp only [nextDue, Manager.nextDue, h.interval, hd.nextDueTime]
  have hafter := h.withQueues
    ((h.queues.erase key).insert (k := key) (hd'.due (m.nextDue item.nextDueTime nanos)))
  rw [VectorManager.serve, hpop, Option.map_some, hdue]
  refine ⟨_, _, rfl, hafter, ?_⟩
  simp only [VectorProcessed.view, hu.view, hafter.getTargetTime, hd.nextDueTime, Option.map_some]
  rfl

theorem processNextLocked (t u : Int) :
    ∃ c' result, c.processNextLocked {} t u = some (c', result) ∧
      c'.Carries (m.processNextLocked {} t u).1 ∧
      result.view = some (m.processNextLocked {} t u).2 := by
  have hclear : (VectorUnsent.clear {}).Carries (Unsent.clear {}) :=
    ⟨VectorQueued.empty_carries, rfl, rfl⟩
  rw [VectorManager.processNextLocked, Manager.processNextLocked]
  cases hf : OrderedMap.front m.queues with
  | none =>
    rw [h.queues.front_none hf]
    refine ⟨_, _, rfl, h, ?_⟩
    rw [VectorProcessed.view, hclear.view, h.interval]
    rfl
  | some e =>
    obtain ⟨key, item⟩ := e
    obtain ⟨d, hfront, hd⟩ := h.queues.front_some hf
    have hsize : d.buffer.size = item.buffer.size := by rw [hd.buffer]
    simp only [hfront, hsize, hd.nextDueTime]
    split_ifs with hs hz hw
    · have hafter := h.withQueues (h.queues.erase key)
      refine ⟨_, _, rfl, hafter, ?_⟩
      simp only [VectorProcessed.view, hclear.view, hafter.getTargetTime, Option.map_some,
        vectorAddrinfoFree, hd.address]
      rfl
    · exact h.serve (hd.due t) key hclear.packet.data u
    · refine ⟨_, _, rfl, h, ?_⟩
      rw [VectorProcessed.view, hclear.view]
      rfl
    · exact h.serve hd key hclear.packet.data u

end Carries
end VectorManager

end UdpQueue
