import UdpQueue.HashRefinement

namespace UdpQueue

open Tsl

-- the table with the buckets that `reserve(100)` gave it
structure Unmoved {K V : Type} (hash : K → SizeT) (t : OrderedHash K V) : Prop where
  valid : OrderedHash.Valid hash t
  bucketCount : t.bucketCount = 256
  calm : t.growOnNextInsert = false

namespace Unmoved
variable {K V : Type} [DecidableEq K] {hash : K → SizeT} {t : OrderedHash K V}

theorem insertImpl (h : Unmoved hash t) {value : K × V} {r : OrderedHash K V × Nat × Bool}
    (hr : t.insertImpl hash value = some r) (hs : r.1.size ≤ 129) :
    Unmoved hash r.1 ∧ t.size ≤ r.1.size := by
  by_cases hk : value.1 ∈ t.values.map Prod.fst
  · obtain ⟨⟨key, v⟩, hmem, hkey⟩ := List.mem_map.mp hk
    obtain ⟨idx, hidx⟩ := List.mem_iff_getElem?.mp hmem
    have hsame := h.valid.insertImpl_of_mem hidx value.2
    rw [show (key, value.2) = value from Prod.ext hkey rfl, hr] at hsame
    cases hsame
    exact ⟨h, Nat.le_refl _⟩
  · have hle := h.valid.size_le
    rw [h.bucketCount] at hle
    obtain ⟨t', h', hv', hval, hkept⟩ := h.valid.insertImpl_of_notMem (by omega) hk value.2
    rw [show (value.1, value.2) = value from rfl, hr] at h'
    cases h'
    have hsize : t'.size = t.size + 1 := by simp [OrderedHash.size, hval]
    have hload : t.size < t.loadThreshold := by
      rw [h.valid.loadThreshold, h.bucketCount]
      dsimp only at hs
      omega
    obtain ⟨hcount, hflag⟩ := hkept h.calm hload
    refine ⟨⟨hv', hcount.trans h.bucketCount, ?_⟩, ?_⟩
    · rw [← Bool.not_eq_true]
      intro hgrow
      have hfar := hflag hgrow
      dsimp only at hs
      omega
    · dsimp only
      omega

theorem eraseImpl (h : Unmoved hash t) {key : K} {r : OrderedHash K V × Nat}
    (hr : t.eraseImpl hash key = some r) : Unmoved hash r.1 := by
  by_cases hk : key ∈ t.values.map Prod.fst
  · obtain ⟨⟨key, v⟩, hmem, rfl⟩ := List.mem_map.mp hk
    obtain ⟨idx, hidx⟩ := List.mem_iff_getElem?.mp hmem
    obtain ⟨t', h', hv', -, hcount, hgrow⟩ := h.valid.eraseImpl_of_mem hidx
    cases hr.symm.trans h'
    exact ⟨hv', hcount.trans h.bucketCount, hgrow.trans h.calm⟩
  · cases hr.symm.trans (h.valid.eraseImpl_of_notMem hk)
    exact h

end Unmoved

namespace HashManager
variable {hash : Int64 → SizeT} {c c' : HashManager} (h : Unmoved hash c.queues)
include h

theorem queueAt_unmoved {key : Int64} {ptr : Nat} (hc : c.queueAt hash key = some (c', ptr))
    (hs : c'.queues.size ≤ 129) : Unmoved hash c'.queues := by
  obtain ⟨⟨queues, index, new⟩, hins, hget⟩ := Option.bind_eq_some_iff.mp hc
  obtain ⟨e, -, he⟩ := Option.map_eq_some_iff.mp hget
  cases he
  exact (h.insertImpl hins hs).1

theorem ensureItem_unmoved {call : PushCall} (hc : c.ensureItem hash call = some c')
    (hs : c'.queues.size ≤ 129) : Unmoved hash c'.queues := by
  obtain ⟨count, -, hc⟩ := Option.bind_eq_some_iff.mp hc
  split_ifs at hc
  · obtain ⟨⟨queues, index, new⟩, hins, he⟩ := Option.map_eq_some_iff.mp hc
    cases he
    exact (h.insertImpl hins hs).1
  · cases hc
    exact h

theorem remove_unmoved {key : UInt64} {found : Bool} {discarded : List Unsent}
    (hc : c.remove hash key = some (c', found, discarded)) (hs : c'.queues.size ≤ 129) :
    Unmoved hash c'.queues := by
  obtain ⟨count, -, hc⟩ := Option.bind_eq_some_iff.mp hc
  split_ifs at hc
  · cases hc
    exact h
  · obtain ⟨⟨c₁, ptr⟩, hat, hc⟩ := Option.bind_eq_some_iff.mp hc
    obtain ⟨item, -, hc⟩ := Option.bind_eq_some_iff.mp hc
    cases hc
    have hqueues := queueAt_unmoved h hat hs
    exact hqueues

theorem getRemainingCapacity_unmoved {key : UInt64} {capacity : SizeT}
    (hc : c.getRemainingCapacity hash key = some (c', capacity)) (hs : c'.queues.size ≤ 129) :
    Unmoved hash c'.queues := by
  obtain ⟨count, -, hc⟩ := Option.bind_eq_some_iff.mp hc
  split_ifs at hc
  · cases hc
    exact h
  · obtain ⟨⟨c₁, ptr⟩, hat, hc⟩ := Option.bind_eq_some_iff.mp hc
    obtain ⟨item, -, hc⟩ := Option.bind_eq_some_iff.mp hc
    cases hc
    exact queueAt_unmoved h hat hs

theorem serve_unmoved {key : Int64} {ptr : Nat} {item : Item} {nanos : Int} {result : Processed}
    (hc : c.serve hash key ptr item nanos = some (c', result)) (hs : c'.queues.size ≤ 129) :
    Unmoved hash c'.queues := by
  obtain ⟨⟨erased, n⟩, herase, hc⟩ := Option.bind_eq_some_iff.mp hc
  obtain ⟨⟨queues, index, new⟩, hins, hc⟩ := Option.bind_eq_some_iff.mp hc
  obtain ⟨targetTime, -, hc⟩ := Option.bind_eq_some_iff.mp hc
  cases hc
  exact ((h.eraseImpl herase).insertImpl hins hs).1

theorem processNextLocked_unmoved {packetOut : Unsent} {t u : Int} {result : Processed}
    (hc : c.processNextLocked hash packetOut t u = some (c', result)) (hs : c'.queues.size ≤ 129) :
    Unmoved hash c'.queues := by
  rw [processNextLocked] at hc
  cases hf : c.queues.front with
  | none =>
    rw [hf] at hc
    cases hc
    exact h
  | some e =>
    rw [hf] at hc
    obtain ⟨item, -, hc⟩ := Option.bind_eq_some_iff.mp hc
    split_ifs at hc
    · obtain ⟨⟨queues, n⟩, herase, hc⟩ := Option.bind_eq_some_iff.mp hc
      obtain ⟨targetTime, -, hc⟩ := Option.bind_eq_some_iff.mp hc
      cases hc
      exact h.eraseImpl herase
    · exact serve_unmoved h hc hs
    · cases hc
      exact h
    · exact serve_unmoved h hc hs

variable {refs : OrderedMap Int64 Nat} {m : Manager} (hm : c.Models hash refs m)
include hm

theorem Models.pushLocked_unmoved {call : PushCall} {accepted : Bool}
    (hs : (m.pushLocked call).1.queues.keys.length ≤ 129)
    (hc : c.pushLocked hash call = some (c', accepted)) : Unmoved hash c'.queues := by
  obtain ⟨c₁, refs₁, h₁, hm₁⟩ := hm.ensureItem call (by omega)
  have hmem : call.key.toInt64 ∈ m.queuesFor call := OrderedMap.mem_insert.mpr (Or.inr rfl)
  obtain ⟨r, item, hr, hitem, -⟩ := hm₁.find hmem
  have hu : Unmoved hash c₁.queues := by
    refine ensureItem_unmoved h h₁ ?_
    rw [hm₁.table.size, ← hm₁.shares.keys, Manager.queuesFor_keys]
    rwa [Manager.pushLocked_keys] at hs
  rw [HashManager.pushLocked, h₁] at hc
  simp only [Option.bind_eq_bind, Option.bind_some, hm₁.queueAt hr, hitem] at hc
  split_ifs at hc <;> cases hc <;> exact hu

theorem Models.apply_unmoved {op : Op} {refs' : OrderedMap Int64 Nat} {reply : Reply}
    (hm' : c'.Models hash refs' (client.next m op))
    (hs : (client.next m op).queues.keys.length ≤ 129) (hc : c.apply hash op = some (c', reply)) :
    Unmoved hash c'.queues := by
  have hsize : c'.queues.size ≤ 129 := by
    rwa [hm'.table.size, ← hm'.shares.keys]
  cases op with
  | push call =>
    obtain ⟨⟨c₁, accepted⟩, hpush, he⟩ := Option.map_eq_some_iff.mp hc
    cases he
    exact hm.pushLocked_unmoved h hs hpush
  | remove key =>
    obtain ⟨⟨c₁, found, discarded⟩, hremove, he⟩ := Option.map_eq_some_iff.mp hc
    cases he
    exact remove_unmoved h hremove hsize
  | getRemainingCapacity key =>
    obtain ⟨⟨c₁, capacity⟩, hremaining, he⟩ := Option.map_eq_some_iff.mp hc
    cases he
    exact getRemainingCapacity_unmoved h hremaining hsize
  | shutDown =>
    cases hc
    exact h
  | processNext t u =>
    obtain ⟨⟨c₁, result⟩, hprocess, he⟩ := Option.map_eq_some_iff.mp hc
    cases he
    exact processNextLocked_unmoved h hprocess hsize

end HashManager

theorem never_rehashed (hash : Int64 → SizeT) (C : SizeT) (I : Int) (ops : List Op)
    (hs : ∀ pre, pre <+: ops → (client.run (.create C I) pre).queues.keys.length ≤ 129) :
    ∃ manager, (hashClient hash).run (HashManager.create C I) ops = some manager ∧
      manager.queues.bucketCount = 256 ∧ manager.queues.growOnNextInsert = false := by
  obtain ⟨c, hc, hm, hcount, hcalm⟩ := HashManager.create_models hash C I
  have hstart : Unmoved hash c.queues := ⟨hm.table.valid, hcount, hcalm⟩
  rw [hc]
  obtain ⟨c', hrun, -, -, hu⟩ := (Machine.fallible_agreement_while (N := client) Event.reply
    (R := fun c m => ∃ refs, HashManager.Models hash c refs m ∧ Unmoved hash c.queues)
    (C := fun m => m.queues.keys.length ≤ 129)
    (fun c m op h hop => by
      obtain ⟨refs, hm, hu⟩ := h
      obtain ⟨c', refs', happly, hm'⟩ := HashManager.apply_models hm op (by omega)
      exact ⟨c', happly, refs', hm', hm.apply_unmoved hu hm' hop happly⟩)
    ⟨∅, hm, hstart⟩ ops hs).1
  exact ⟨c', hrun, hu.bucketCount, hu.calm⟩

theorem never_rehashed_colliding :
    ∃ manager, (hashClient fun _ => 7).run (HashManager.create 2 20000000)
        [.push (samplePush 1 [7]), .push (samplePush 2 [8]), .processNext 5 6] = some manager ∧
      manager.queues.bucketCount = 256 ∧ manager.queues.growOnNextInsert = false :=
  never_rehashed _ 2 20000000 _ fun pre hpre => by
    have hrun := client_keys_length (.create 2 20000000) pre
    have hlen := hpre.length_le
    have hempty : (Manager.create 2 20000000).queues.keys.length = 0 := rfl
    simp only [List.length_cons, List.length_nil] at hlen
    omega

end UdpQueue
