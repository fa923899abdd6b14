import UdpQueue.HashManager
import UdpQueue.Library.Shares
import UdpQueue.Tsl.Refinement

namespace UdpQueue

open Tsl

structure HashManager.Models (hash : Int64 → SizeT) (c : HashManager) (refs : OrderedMap Int64 Nat)
    (m : Manager) : Prop where
  table : Represents hash c.queues refs
  shares : Shares c.items refs m.queues
  allocated : ∀ k r, refs.lookup k = some r → r < c.nextItem
  capacity : c.queueBufferCapacity = m.queueBufferCapacity
  interval : c.packetInterval = m.packetInterval
  shuttingDown : c.shuttingDown = m.shuttingDown

theorem reserve_represents {K V : Type} (hash : K → SizeT) :
    ∃ t, ({} : OrderedHash K V).reserve 100 = some t ∧ Represents hash t ∅ ∧ t.bucketCount = 2 ^ 8 ∧
      t.growOnNextInsert = false := by
  have h100 : ceilLoad 100 = 134 := by decide
  have h0 : ceilLoad 0 = 0 := by decide
  have hround : roundUpToPowerOfTwo 134 = 2 ^ 8 := by decide
  obtain ⟨t, ht, hv, hcount, hval, hflag⟩ := (OrderedHash.Valid.create (V := V) hash).rehashImpl (k := 8)
    (show 134 ≤ maxBucketCount by decide) (by decide) hround (by decide) (Or.inl (Nat.two_pow_pos 8))
  refine ⟨t, ?_, ⟨hv, by rw [hval]; rfl⟩, hcount, hflag (show 0 ≠ 2 ^ 8 by decide)⟩
  rw [OrderedHash.reserve, OrderedHash.rehash, h100,
    show OrderedHash.size ({} : OrderedHash K V) = 0 from rfl,
    h0]
  exact ht

namespace HashManager
variable {hash : Int64 → SizeT} {c : HashManager} {refs : OrderedMap Int64 Nat} {m : Manager}

theorem create_models (hash : Int64 → SizeT) (C : SizeT) (I : Int) :
    ∃ c, create C I = some c ∧ c.Models hash ∅ (.create C I) ∧ c.queues.bucketCount = 2 ^ 8 ∧
      c.queues.growOnNextInsert = false := by
  obtain ⟨t, ht, hr, hcalm⟩ := reserve_represents (V := Nat) hash
  rw [create, ht]
  exact ⟨_, rfl, ⟨hr, .empty _, (fun _ _ h => by cases h), rfl, rfl, rfl⟩, hcalm⟩

namespace Models
variable (h : c.Models hash refs m)
include h

theorem count (key : Int64) : c.queues.count hash key = some (if key ∈ m.queues then 1 else 0) := by
  rw [h.table.count]
  simp only [h.shares.mem]

theorem queueAt {key : Int64} {r : Nat} (hr : refs.lookup key = some r) :
    c.queueAt hash key = some (c, r) := by
  obtain ⟨index, hins, hget⟩ := h.table.insert_present hr 0
  simp only [HashManager.queueAt, hins, Option.bind_some, hget, Option.map_some]

theorem find {key : Int64} (hk : key ∈ m.queues) :
    ∃ r item, refs.lookup key = some r ∧ c.items r = some item ∧ m.queues.lookup key = some item := by
  obtain ⟨r, hr⟩ := Option.isSome_iff_exists.mp (AList.lookup_isSome.mpr (h.shares.mem.mp hk))
  obtain ⟨item, hitem, hlookup⟩ := h.shares.points hr
  exact ⟨r, item, hr, hitem, hlookup⟩

theorem setItem {key : Int64} {r : Nat} (hr : refs.lookup key = some r) (item : Item) :
    (c.setItem r item).Models hash refs { m with queues := m.queues.replace key item } :=
  { h with shares := h.shares.write hr item }

theorem getTargetTime (currentTime : Int) :
    c.getTargetTime currentTime = some (m.getTargetTime currentTime) := by
  rw [HashManager.getTargetTime, Manager.getTargetTime, h.table.front]
  cases hf : OrderedMap.front refs with
  | none =>
    rw [h.shares.front_none hf, h.interval]
  | some e =>
    obtain ⟨item, hitem, hfront⟩ := h.shares.front_some hf
    simp only [hfront, hitem, Option.map_some]

theorem insertItem (call : PushCall) (hk : call.key.toInt64 ∉ m.queues)
    (hs : m.queues.keys.length < 2 ^ 28) :
    ∃ c' refs', c.insertItem hash call = some c' ∧
      c'.Models hash refs' { m with queues := m.queuesFor call } := by
  have hk' : call.key.toInt64 ∉ refs := mt h.shares.mem.mpr hk
  have hfresh (j : Int64) : refs.lookup j ≠ some c.nextItem := fun hj =>
    Nat.lt_irrefl _ (h.allocated j _ hj)
  obtain ⟨t', hins, hr, -⟩ := h.table.insert_new hk' (by rwa [← h.shares.keys]) c.nextItem
  have hnew : c.newItem call = m.newItem call := by
    rw [newItem, Manager.newItem, h.capacity]
  simp only [HashManager.insertItem, hins, Option.map_some]
  refine ⟨_, _, rfl, hr, ?_, ?_, h.capacity, h.interval, h.shuttingDown⟩
  · exact (h.shares.ignore hfresh (some (c.newItem call))).insert hk' hfresh
      (by rw [Function.update_self, hnew])
  · intro k r hkr
    change r < c.nextItem + 1
    rcases eq_or_ne k call.key.toInt64 with rfl | hne
    · rw [OrderedMap.lookup_insert, AList.lookup_eq_none.mpr hk'] at hkr
      obtain rfl := Option.some.inj hkr
      exact Nat.lt_succ_self _
    · rw [OrderedMap.lookup_insert_ne _ _ hne] at hkr
      exact Nat.lt_succ_of_lt (h.allocated k r hkr)

theorem ensureItem (call : PushCall) (hs : (m.pushLocked call).1.queues.keys.length ≤ 2 ^ 28) :
    ∃ c' refs', c.ensureItem hash call = some c' ∧
      c'.Models hash refs' { m with queues := m.queuesFor call } := by
  rw [HashManager.ensureItem, h.count]
  by_cases hk : call.key.toInt64 ∈ m.queues
  · refine ⟨c, refs, by simp [hk], ?_⟩
    rwa [Manager.queuesFor, OrderedMap.insert_of_mem hk]
  · rw [Manager.pushLocked_keys, if_neg hk, List.length_append, List.length_singleton] at hs
    simpa [hk] using h.insertItem call hk hs

theorem pushLocked (call : PushCall) (hs : (m.pushLocked call).1.queues.keys.length ≤ 2 ^ 28) :
    ∃ c' refs', c.pushLocked hash call = some (c', (m.pushLocked call).2) ∧
      c'.Models hash refs' (m.pushLocked call).1 := by
  obtain ⟨c₁, refs₁, h₁, hm₁⟩ := h.ensureItem call hs
  have hmem : call.key.toInt64 ∈ m.queuesFor call := OrderedMap.mem_insert.mpr (Or.inr rfl)
  obtain ⟨r, item, hr, hitem, hlookup⟩ := hm₁.find hmem
  obtain rfl : m.itemFor call = item := Option.some.inj ((m.queuesFor_lookup call).symm.trans hlookup)
  rw [HashManager.pushLocked, h₁, Manager.pushLocked_eq]
  simp only [Option.bind_eq_bind, Option.bind_some, hm₁.queueAt hr, hitem]
  by_cases hroom : (m.itemFor call).buffer.size < (m.itemFor call).buffer.capacity
  · rw [if_neg (UInt64.not_le.mpr hroom), if_pos hroom]
    exact ⟨_, _, rfl, hm₁.setItem hr _⟩
  · rw [if_pos (UInt64.not_lt.mp hroom), if_neg hroom]
    exact ⟨_, _, rfl, hm₁⟩

theorem remove (key : UInt64) :
    ∃ c' refs', c.remove hash key = some (c', (m.remove key).2) ∧
      c'.Models hash refs' (m.remove key).1 := by
  rw [HashManager.remove, h.count, Manager.remove]
  by_cases hk : key.toInt64 ∈ m.queues
  · obtain ⟨r, item, hr, hitem, hlookup⟩ := h.find hk
    simp only [Option.bind_eq_bind, Option.bind_some, if_pos hk, one_ne_zero, if_false, h.queueAt hr,
      hitem, hlookup]
    exact ⟨_, _, rfl, h.setItem hr _⟩
  · simp only [Option.bind_eq_bind, Option.bind_some, if_neg hk, if_true, AList.lookup_eq_none.mpr hk]
    exact ⟨_, _, rfl, h⟩

theorem getRemainingCapacity (key : UInt64) :
    c.getRemainingCapacity hash key = some (c, m.getRemainingCapacity key) := by
  rw [HashManager.getRemainingCapacity, h.count, Manager.getRemainingCapacity]
  by_cases hk : key.toInt64 ∈ m.queues
  · obtain ⟨r, item, hr, hitem, hlookup⟩ := h.find hk
    simp only [Option.bind_eq_bind, Option.bind_some, if_pos hk, one_ne_zero, if_false, h.queueAt hr,
      hitem, hlookup]
  · simp only [Option.bind_eq_bind, Option.bind_some, if_neg hk, if_true, AList.lookup_eq_none.mpr hk,
      h.capacity]

theorem serve {key : Int64} {r : Nat} (hr : refs.lookup key = some r) (item : Item) (nanos : Int)
    (hs : m.queues.keys.length ≤ 2 ^ 28) :
    ∃ c' refs', c.serve hash key r item nanos = some (c', (m.serve key item nanos).2) ∧
      c'.Models hash refs' (m.serve key item nanos).1 := by
  have hk : key ∈ refs := AList.lookup_isSome.mp (by rw [hr]; rfl)
  have hgone : key ∉ refs.erase key := by simp
  obtain ⟨t₁, herase, hr₁⟩ := h.table.erase (k := key)
  have hlen : (refs.erase key).keys.length < 2 ^ 28 := by
    have hpos : 0 < refs.keys.length := List.length_pos_of_mem hk
    rw [h.shares.keys] at hs
    rw [AList.keys_erase, List.length_erase_of_mem hk]
    omega
  obtain ⟨t₂, hins, hr₂, -⟩ := hr₁.insert_new hgone hlen r
  -- after the erasure no other key holds the address
  have hfree (j : Int64) : (refs.erase key).lookup j ≠ some r := by
    intro hj
    rcases eq_or_ne j key with rfl | hne
    · simp at hj
    · rw [AList.lookup_erase_ne hne] at hj
      exact hne (h.shares.distinct j key r hj hr)
  have hdue : c.nextDue item.nextDueTime nanos = m.nextDue item.nextDueTime nanos := by
    simp only [nextDue, Manager.nextDue, h.interval]
  have hm : ({ c.setItem r item.pop.1 with queues := t₂ }.setItem r
      { item.pop.1 with nextDueTime := c.nextDue item.nextDueTime nanos }).Models hash
        (OrderedMap.insert key r (refs.erase key)) (m.serve key item nanos).1 := by
    refine ⟨hr₂, ?_, ?_, h.capacity, h.interval, h.shuttingDown⟩
    · have hw := ((h.shares.erase key).ignore hfree (some item.pop.1)).ignore hfree
        (some (m.served item nanos))
      rw [HashManager.setItem, HashManager.setItem, hdue]
      exact hw.insert hgone hfree (Function.update_self _ _ _)
    · intro k s hks
      rcases eq_or_ne k key with rfl | hne
      · rw [OrderedMap.lookup_insert, AList.lookup_eq_none.mpr hgone] at hks
        obtain rfl := Option.some.inj hks
        exact h.allocated k r hr
      · rw [OrderedMap.lookup_insert_ne _ _ hne, AList.lookup_erase_ne hne] at hks
        exact h.allocated k s hks
  refine ⟨_, _, ?_, hm⟩
  have htarget := hm.getTargetTime nanos
  simp only [HashManager.serve, HashManager.setItem, Option.bind_eq_bind] at htarget ⊢
  rw [herase, Option.bind_some]
  simp only [hins, Option.bind_some]
  exact (congrArg (Option.bind · _) htarget).trans rfl

theorem erase (key : Int64) :
    ∃ t n, c.queues.eraseImpl hash key = some (t, n) ∧
      { c with queues := t }.Models hash (refs.erase key) { m with queues := m.queues.erase key } := by
  obtain ⟨t, herase, hr⟩ := h.table.erase (k := key)
  refine ⟨t, _, herase, hr, h.shares.erase key, ?_, h.capacity, h.interval, h.shuttingDown⟩
  intro k r hk
  rcases eq_or_ne k key with rfl | hne
  · simp at hk
  · rw [AList.lookup_erase_ne hne] at hk
    exact h.allocated k r hk

theorem processNextLocked (packetOut : Unsent) (t u : Int)
    (hs : (m.processNextLocked packetOut t u).1.queues.keys.length ≤ 2 ^ 28) :
    ∃ c' refs', c.processNextLocked hash packetOut t u =
        some (c', (m.processNextLocked packetOut t u).2) ∧
      c'.Models hash refs' (m.processNextLocked packetOut t u).1 := by
  cases hf : OrderedMap.front refs with
  | none =>
    simp only [HashManager.processNextLocked, Manager.processNextLocked, h.table.front, hf,
      h.shares.front_none hf, h.interval]
    exact ⟨_, _, rfl, h⟩
  | some e =>
    obtain ⟨key, r⟩ := e
    obtain ⟨item, hitem, hfront⟩ := h.shares.front_some hf
    have hr := OrderedMap.front_lookup hf
    have hserve (item' : Item) (hi : m.processNextLocked packetOut t u = m.serve key item' u) :
        ∃ c' refs', c.serve hash key r item' u = some (c', (m.serve key item' u).2) ∧
          c'.Models hash refs' (m.serve key item' u).1 := by
      apply h.serve hr item' u
      have hk : key ∈ m.queues := h.shares.mem.mpr (AList.lookup_isSome.mp (by rw [hr]; rfl))
      rw [hi, Manager.serve_keys, List.length_append, List.length_erase_of_mem hk,
        List.length_singleton] at hs
      omega
    rw [Manager.processNextLocked, hfront] at hserve ⊢
    simp only [HashManager.processNextLocked, h.table.front, hf, hitem, Option.bind_eq_bind,
      Option.bind_some] at hserve ⊢
    by_cases hsize : item.buffer.size = 0
    · obtain ⟨t', n, herase, hm⟩ := h.erase key
      have htarget := hm.getTargetTime t
      simp only [if_pos hsize, herase, Option.bind_some, htarget]
      exact ⟨_, _, rfl, hm⟩
    · by_cases hdue : item.nextDueTime = 0
      · simp only [if_neg hsize, if_pos hdue] at hserve ⊢
        exact hserve _ rfl
      · by_cases hwait : item.nextDueTime - t ≥ 1500000
        · simp only [if_neg hsize, if_neg hdue, if_pos hwait]
          exact ⟨_, _, rfl, h⟩
        · simp only [if_neg hsize, if_neg hdue, if_neg hwait] at hserve ⊢
          exact hserve _ rfl

end Models

theorem apply_models (h : c.Models hash refs m) (op : Op)
    (hs : (client.next m op).queues.keys.length ≤ 2 ^ 28) :
    ∃ c' refs', c.apply hash op = some (c', (client.out m op).reply) ∧
      c'.Models hash refs' (client.next m op) := by
  cases op with
  | push call =>
    obtain ⟨c', refs', h', hm⟩ := h.pushLocked call hs
    exact ⟨c', refs', by rw [apply, h']; rfl, hm⟩
  | remove key =>
    obtain ⟨c', refs', h', hm⟩ := h.remove key
    exact ⟨c', refs', by rw [apply, h']; rfl, hm⟩
  | getRemainingCapacity key =>
    exact ⟨c, refs, by rw [apply, h.getRemainingCapacity key]; rfl, h⟩
  | shutDown => exact ⟨c.shutDown, refs, rfl, { h with shuttingDown := rfl }⟩
  | processNext t u =>
    obtain ⟨c', refs', h', hm⟩ := h.processNextLocked {} t u hs
    exact ⟨c', refs', by rw [apply, h']; rfl, hm⟩

end HashManager

theorem Manager.process_keys_length {m : Manager} {packetOut : Unsent} {t u : Int}
    {r : Manager × Processed} (h : ProcessStep m packetOut t u r) :
    r.1.queues.keys.length ≤ m.queues.keys.length := by
  cases h with
  | idle hf => exact Nat.le_refl _
  | erased key item hf hs =>
    rw [AList.keys_erase]
    exact List.length_erase_le
  | waiting key item hf hs hd hw => exact Nat.le_refl _
  | popped key item due hf hs hd =>
    have hk := congrArg List.length (OrderedMap.front_keys hf)
    rw [serve_keys, List.length_append, hk]
    exact Nat.le_refl _

theorem client_keys_length (m : Manager) (ops : List Op) :
    (client.run m ops).queues.keys.length ≤ m.queues.keys.length + ops.length := by
  induction ops generalizing m with
  | nil => simp
  | cons op ops ih =>
    have hone : (client.next m op).queues.keys.length ≤ m.queues.keys.length + 1 := by
      cases op with
      | push call =>
        change (m.pushLocked call).1.queues.keys.length ≤ _
        rw [Manager.pushLocked_keys]
        split_ifs <;> simp
      | remove key =>
        change (m.remove key).1.queues.keys.length ≤ _
        rw [Manager.remove_keys]
        omega
      | processNext t u =>
        exact Nat.le_succ_of_le (Manager.process_keys_length (m.processNextLocked_step {} t u))
      | _ => exact Nat.le_succ _
    have hrest := ih (client.next m op)
    rw [Machine.run_cons, List.length_cons]
    omega

theorem hash_client_refines (hash : Int64 → SizeT) (C : SizeT) (I : Int) (ops : List Op)
    (hs : ∀ pre, pre <+: ops → (client.run (.create C I) pre).queues.keys.length ≤ 2 ^ 28) :
    (hashClient hash).trace (HashManager.create C I) ops =
      (client.trace (.create C I) ops).map fun e => some e.reply := by
  obtain ⟨c, hc, hm, -⟩ := HashManager.create_models hash C I
  rw [hc]
  refine (Machine.fallible_agreement_while (N := client) Event.reply
    (R := fun c m => ∃ refs, HashManager.Models hash c refs m)
    (C := fun m => m.queues.keys.length ≤ 2 ^ 28) (fun c m op h hop => ?_) ⟨∅, hm⟩ ops hs).2
  obtain ⟨refs, hm⟩ := h
  obtain ⟨c', refs', happly, hm'⟩ := HashManager.apply_models hm op hop
  exact ⟨c', happly, refs', hm'⟩

theorem hash_client_refines_two :
    (hashClient Int64.toUInt64).trace (HashManager.create 2 20000000)
        [.push (samplePush 1 [7]), .push (samplePush 257 [8]), .processNext 5 6, .remove 257,
          .getRemainingCapacity 1, .processNext 7 8] =
      [some (.push true), some (.push true),
        some (.process { packetOut := { packet := { data := [7], length := 1 }
                                        address := some inetAddress, explicitSocket := socketInvalid }
                         targetTime := 0, exit := .popped 1 5 }),
        some (.remove true [{ packet := { data := [8], length := 1 }, address := some inetAddress
                              explicitSocket := socketInvalid }]),
        some (.remaining 2),
        some (.process { packetOut := Unsent.clear {}, targetTime := 20000005, exit := .erased 257
                         freed := [inetAddress] })] := by
  rw [hash_client_refines _ 2 20000000 _ fun pre hpre => by
    have hrun := client_keys_length (.create 2 20000000) pre
    have hlen := hpre.length_le
    have hempty : (Manager.create 2 20000000).queues.keys.length = 0 := rfl
    simp only [List.length_cons, List.length_nil] at hlen
    omega]
  decide +kernel

end UdpQueue
