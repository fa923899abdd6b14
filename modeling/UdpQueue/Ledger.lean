import UdpQueue.Destination

namespace UdpQueue

namespace Event

def resolved : Event → List AddrInfo
  | .push call _ true _ => call.resolved.toList
  | _ => []

def freed : Event → List AddrInfo
  | .process _ _ result => result.freed
  | _ => []

end Event

def resolvedIn (tr : List Event) : List AddrInfo := tr.flatMap Event.resolved
def freedIn (tr : List Event) : List AddrInfo := tr.flatMap Event.freed

-- `delete manager` runs the implicit destructor, which drops the raw `addrinfo*`
def Item.destructor (_ : Item) : List AddrInfo := []

namespace Manager

def destroy (manager : Manager) : List AddrInfo :=
  manager.shutDown.queues.entries.flatMap fun entry => entry.2.destructor

def addresses (m : Manager) (k : Int64) : List AddrInfo :=
  ((m.destination k).bind Destination.address).toList

def outstanding (m : Manager) : List AddrInfo := m.queues.keys.flatMap m.addresses

theorem addresses_congr {m m' : Manager} {k : Int64} (h : m'.destination k = m.destination k) :
    m'.addresses k = m.addresses k := by
  rw [addresses, addresses, h]

theorem addresses_of_lookup {m : Manager} {k : Int64} {item : Item}
    (h : m.queues.lookup k = some item) : m.addresses k = item.address.toList := by
  simp [addresses, destination, h, Item.destination]

theorem outstanding_congr {m m' : Manager} (hk : m'.queues.keys.Perm m.queues.keys)
    (hd : ∀ k ∈ m.queues.keys, m'.destination k = m.destination k) :
    m'.outstanding.Perm m.outstanding := by
  have ha : m.queues.keys.flatMap m'.addresses = m.outstanding :=
    List.flatMap_congr fun k h => addresses_congr (hd k h)
  rw [← ha]
  exact hk.flatMap_right _

theorem outstanding_eq_nil {m : Manager} :
    m.outstanding = [] ↔ ∀ k item, m.queues.lookup k = some item → item.address = none := by
  rw [outstanding, List.flatMap_eq_nil_iff]
  constructor
  · intro h k item hl
    have hk : k ∈ m.queues.keys := AList.lookup_isSome.mp (by simp [hl])
    have ha := h k hk
    rwa [addresses_of_lookup hl, Option.toList_eq_nil_iff] at ha
  · intro h k hk
    obtain ⟨item, hl⟩ := Option.isSome_iff_exists.mp (AList.lookup_isSome.mpr hk)
    rw [addresses_of_lookup hl, h k item hl, Option.toList_none]

theorem destroy_eq_nil (m : Manager) : m.destroy = [] := by
  simp [destroy, Item.destructor]

theorem push_outstanding (m : Manager) (call : PushCall) :
    (m.outstanding ++ if call.key.toInt64 ∈ m.queues then [] else call.resolved.toList).Perm
      (m.pushLocked call).1.outstanding := by
  have hd (k : Int64) (hk : k ∈ m.queues.keys) :
      (m.pushLocked call).1.destination k = m.destination k := by
    rcases eq_or_ne k call.key.toInt64 with rfl | hc
    · obtain ⟨item, hl⟩ := Option.isSome_iff_exists.mp (AList.lookup_isSome.mpr hk)
      rw [pushLocked_destination, itemFor_destination, destination, hl]
      rfl
    · exact destination_congr (pushLocked_lookup_ne hc)
  split_ifs with h
  · rw [List.append_nil]
    exact (outstanding_congr (by rw [pushLocked_keys, if_pos h]) hd).symm
  · have hold : m.queues.keys.flatMap (m.pushLocked call).1.addresses = m.outstanding :=
      List.flatMap_congr fun k hk => addresses_congr (hd k hk)
    have hnew : (m.pushLocked call).1.addresses call.key.toInt64 = call.resolved.toList := by
      rw [addresses, pushLocked_destination, itemFor_destination, destination,
        AList.lookup_eq_none.mpr h]
      rfl
    have hafter : (m.pushLocked call).1.outstanding = m.outstanding ++ call.resolved.toList := by
      rw [outstanding, pushLocked_keys, if_neg h, List.flatMap_append, hold, List.flatMap_singleton,
        hnew]
    rw [hafter]

theorem remove_outstanding (m : Manager) (key : UInt64) :
    m.outstanding.Perm (m.remove key).1.outstanding := by
  refine (outstanding_congr ?_ fun k _ => m.remove_destination key k).symm
  rw [remove_keys]

theorem process_outstanding {m : Manager} {packetOut : Unsent} {t u : Int} {r : Manager × Processed}
    (h : ProcessStep m packetOut t u r) : m.outstanding.Perm (r.2.freed ++ r.1.outstanding) := by
  cases h with
  | erased key item hf hs =>
    have hkeys := OrderedMap.front_keys hf
    have hrest : (m.queues.keys.erase key).flatMap { m with queues := m.queues.erase key }.addresses =
        (m.queues.keys.erase key).flatMap m.addresses := by
      refine List.flatMap_congr fun k hk => addresses_congr (destination_congr ?_)
      have hc : k ≠ key := fun he => ((AList.keys_nodup m.queues).not_mem_erase (he ▸ hk))
      exact AList.lookup_erase_ne hc
    rw [outstanding, outstanding, AList.keys_erase, hrest]
    nth_rewrite 1 [hkeys]
    rw [List.flatMap_cons, addresses_of_lookup (OrderedMap.front_lookup hf)]
    rfl
  | popped key item due hf hs hd =>
    have hk : key ∈ m.queues.keys := by
      rw [OrderedMap.front_keys hf]
      exact List.mem_cons_self
    refine (outstanding_congr ?_ fun k _ => ?_).symm
    · rw [serve_keys]
      exact (List.perm_append_singleton _ _).trans (List.perm_cons_erase hk).symm
    · rcases eq_or_ne k key with rfl | hc
      · rw [destination, serve_lookup, destination, OrderedMap.front_lookup hf]
        rfl
      · exact destination_congr (serve_lookup_ne _ _ hc)
  | _ => exact List.Perm.refl _

end Manager

theorem client_outstanding (m : Manager) (op : Op) :
    (m.outstanding ++ (client.out m op).resolved).Perm
      ((client.out m op).freed ++ (client.next m op).outstanding) := by
  cases op with
  | push call =>
    have hp := m.push_outstanding call
    change (m.outstanding ++ Event.resolved (.push call _ (decide (call.key.toInt64 ∉ m.queues)) _)).Perm
      (m.pushLocked call).1.outstanding
    split_ifs at hp with h
    · simpa [Event.resolved, h] using hp
    · simpa [Event.resolved, h] using hp
  | remove key =>
    change (m.outstanding ++ []).Perm (m.remove key).1.outstanding
    rw [List.append_nil]
    exact m.remove_outstanding key
  | processNext t u =>
    change (m.outstanding ++ []).Perm _
    rw [List.append_nil]
    exact Manager.process_outstanding (m.processNextLocked_step {} t u)
  | _ => exact List.Perm.of_eq (List.append_nil _)

theorem client_ledger (C : SizeT) (I : Int) (ops : List Op) :
    (resolvedIn (client.trace (.create C I) ops)).Perm
      (freedIn (client.trace (.create C I) ops) ++ (client.run (.create C I) ops).outstanding) := by
  have h := Machine.ledger (P := fun _ => True) (fun _ _ _ => trivial)
    (fun m op _ => client_outstanding m op) (s := Manager.create C I) trivial ops
  exact h

theorem address_ledger (C : SizeT) (I : Int) (ops : List Op) :
    let m := client.run (.create C I) ops
    let tr := client.trace (.create C I) ops
    (resolvedIn tr).Perm (freedIn tr ++ m.outstanding) ∧
      ((resolvedIn tr).Perm (freedIn tr ++ m.destroy) ↔
        ∀ k item, m.queues.lookup k = some item → item.address = none) := by
  intro m tr
  have hl : (resolvedIn tr).Perm (freedIn tr ++ m.outstanding) := client_ledger C I ops
  refine ⟨hl, ?_⟩
  rw [m.destroy_eq_nil, List.append_nil, ← Manager.outstanding_eq_nil]
  constructor
  · intro h
    have hlen := (h.symm.trans hl).length_eq
    rw [List.length_append] at hlen
    exact List.length_eq_zero_iff.mp (by omega)
  · intro h
    rwa [h, List.append_nil] at hl

theorem destroy_leaks :
    let m := client.run (.create 4 20000000) [.push (samplePush 1 [1])]
    let tr := client.trace (.create 4 20000000) [.push (samplePush 1 [1])]
    ¬ (resolvedIn tr).Perm (freedIn tr ++ m.destroy) := by
  intro m tr h
  have hr : resolvedIn tr = [inetAddress] := by decide +kernel
  have hf : freedIn tr = [] := by decide +kernel
  rw [hr, hf, m.destroy_eq_nil] at h
  exact absurd h.length_eq (by decide)

theorem rejected_push_iff (C : SizeT) (I : Int) (ops : List Op) (call : PushCall) :
    let m := client.run (.create C I) ops
    let r := m.pushLocked call
    (r.2 = false → r.1 = m ∧ (client.out m (.push call)).resolved = []) ↔
      0 < C ∨ call.key.toInt64 ∈ m.queues := by
  intro m r
  have hC : m.queueBufferCapacity = C := reachable_capacity C I ops
  have hres : (client.out m (.push call)).resolved =
      if call.key.toInt64 ∈ m.queues then [] else call.resolved.toList := by
    change Event.resolved (.push call _ (decide (call.key.toInt64 ∉ m.queues)) _) = _
    split_ifs with h <;> simp [Event.resolved, h]
  rw [hres]
  constructor
  · intro h
    by_contra hn
    obtain ⟨hzero, hk⟩ := not_or.mp hn
    have hrej : r.2 = false := by
      rw [← Bool.not_eq_true, Manager.pushLocked_new hk, hC]
      exact hzero
    have hkeys := congrArg (fun after => after.queues.keys.length) (h hrej).1
    simp [r, Manager.pushLocked_keys, hk] at hkeys
  · intro h hrej
    have hk : call.key.toInt64 ∈ m.queues := by
      by_contra hnew
      have hacc : r.2 = true := (Manager.pushLocked_new hnew).mpr (hC ▸ h.resolve_right hnew)
      exact absurd (hacc.symm.trans hrej) nofun
    exact ⟨Manager.pushLocked_rejected hk hrej, if_pos hk⟩

theorem rejected_creates :
    let m := client.run (.create 0 20000000) []
    let r := m.pushLocked (samplePush 1 [1])
    ¬ (r.2 = false → r.1 = m ∧ (client.out m (.push (samplePush 1 [1]))).resolved = []) := by
  intro m r h
  exact absurd (h (by decide +kernel)).2 (by decide +kernel)

end UdpQueue
