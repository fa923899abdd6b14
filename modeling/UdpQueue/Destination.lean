import UdpQueue.Client

namespace UdpQueue

structure Destination where
  address : Option AddrInfo
  explicitSocket : SocketT
deriving DecidableEq

def Item.destination (item : Item) : Destination := ⟨item.address, item.explicitSocket⟩
def PushCall.destination (call : PushCall) : Destination := ⟨call.resolved, call.explicitSocket⟩

namespace Manager

def destination (m : Manager) (k : Int64) : Option Destination :=
  (m.queues.lookup k).map Item.destination

theorem destination_congr {m m' : Manager} {k : Int64}
    (h : m'.queues.lookup k = m.queues.lookup k) : m'.destination k = m.destination k := by
  simp only [destination, h]

theorem itemFor_destination (m : Manager) (call : PushCall) :
    (m.itemFor call).destination = (m.destination call.key.toInt64).getD call.destination := by
  rw [itemFor, destination]
  cases m.queues.lookup call.key.toInt64 <;> rfl

theorem pushLocked_destination (m : Manager) (call : PushCall) :
    (m.pushLocked call).1.destination call.key.toInt64 = some (m.itemFor call).destination := by
  rw [destination, pushLocked_lookup]
  split_ifs <;> rfl

theorem remove_destination (m : Manager) (key : UInt64) (k : Int64) :
    (m.remove key).1.destination k = m.destination k := by
  rcases eq_or_ne k key.toInt64 with rfl | hc
  · rw [destination, remove_lookup, destination]
    cases m.queues.lookup key.toInt64 with
    | none => rfl
    | some item =>
      rw [Option.map_some, Option.map_some, item.drain_eq]
      rfl
  · exact destination_congr (remove_lookup_ne hc)

theorem process_destination {m : Manager} {packetOut : Unsent} {t u : Int} {r : Manager × Processed}
    (h : ProcessStep m packetOut t u r) (k : Int64) :
    r.1.destination k = m.destination k ∨ r.1.destination k = none := by
  cases h with
  | erased key item hf hs =>
    rcases eq_or_ne k key with rfl | hc
    · exact Or.inr (by simp [destination])
    · exact Or.inl (destination_congr (AList.lookup_erase_ne hc))
  | popped key item due hf hs hd =>
    rcases eq_or_ne k key with rfl | hc
    · rw [destination, serve_lookup, destination, OrderedMap.front_lookup hf]
      exact Or.inl rfl
    · exact Or.inl (destination_congr (serve_lookup_ne _ _ hc))
  | _ => exact Or.inl rfl

end Manager

def Event.creates (k : Int64) : Event → Option PushCall
  | .push call _ true _ => if call.key.toInt64 = k then some call else none
  | _ => none

def creator (k : Int64) : List Event → Option PushCall := latest (Event.creates k)

theorem creates_push (m : Manager) (call : PushCall) :
    (client.out m (.push call)).creates call.key.toInt64 =
      if call.key.toInt64 ∈ m.queues then none else some call := by
  change Event.creates _ (.push call _ (decide (call.key.toInt64 ∉ m.queues)) _) = _
  split_ifs with h <;> simp [Event.creates, h]

theorem client_destination (m : Manager) (op : Op) (k : Int64) {d : Destination}
    (h : (client.next m op).destination k = some d) :
    ((client.out m op).creates k).map PushCall.destination = some d ∨
      (client.out m op).creates k = none ∧ m.destination k = some d := by
  cases op with
  | push call =>
    change (m.pushLocked call).1.destination k = some d at h
    rcases eq_or_ne k call.key.toInt64 with rfl | hc
    · rw [Manager.pushLocked_destination, Manager.itemFor_destination] at h
      rw [creates_push]
      split_ifs with hk
      · obtain ⟨item, hl⟩ := Option.isSome_iff_exists.mp (AList.lookup_isSome.mpr hk)
        refine Or.inr ⟨rfl, ?_⟩
        simpa [Manager.destination, hl] using h
      · apply Or.inl
        simpa [Manager.destination, AList.lookup_eq_none.mpr hk] using h
    · rw [Manager.destination_congr (Manager.pushLocked_lookup_ne hc)] at h
      refine Or.inr ⟨?_, h⟩
      change Event.creates k (.push call _ (decide (call.key.toInt64 ∉ m.queues)) _) = none
      cases decide (call.key.toInt64 ∉ m.queues) <;> simp [Event.creates, hc.symm]
  | remove key => exact Or.inr ⟨rfl, m.remove_destination key k ▸ h⟩
  | processNext t u =>
    refine Or.inr ⟨rfl, ?_⟩
    change (m.processNextLocked {} t u).1.destination k = some d at h
    rcases Manager.process_destination (m.processNextLocked_step {} t u) k with hd | hd
    · exact hd ▸ h
    · exact absurd (hd.symm.trans h) nofun
  | _ => exact Or.inr ⟨rfl, h⟩

theorem destination_of_creator (C : SizeT) (I : Int) (ops : List Op) (k : Int64) (d : Destination)
    (h : (client.run (.create C I) ops).destination k = some d) :
    ∃ call, creator k (client.trace (.create C I) ops) = some call ∧ call.destination = d := by
  refine Machine.history client (P := fun m tr => ∀ d, m.destination k = some d →
    ∃ call, creator k tr = some call ∧ call.destination = d) ?_ ?_ ops d h
  · intro m tr op ih d hd
    rw [creator, latest_snoc]
    rcases client_destination m op k hd with hc | ⟨hc, hd⟩
    · obtain ⟨call, hcall, rfl⟩ := Option.map_eq_some_iff.mp hc
      exact ⟨call, by rw [hcall, Option.some_or], rfl⟩
    · rw [hc, Option.none_or]
      exact ih d hd
  · intro d hd
    simp [Manager.create, Manager.destination] at hd

theorem backlog_of_first_push {m : Manager} (hm : m.Sound) {call : PushCall}
    (hacc : (m.pushLocked call).2 = true) (hempty : m.queued call.key.toInt64 = 0) :
    (m.pushLocked call).1.backlog call.key.toInt64 =
      [(m.itemFor call).unsent (payload call.data)] := by
  have hnil : m.backlog call.key.toInt64 = [] := by
    rw [← List.length_eq_zero_iff, Manager.backlog_length, hempty]
  rw [Manager.pushLocked_backlog hm, hnil, if_pos hacc, Manager.itemFor_size, hempty]
  rfl

theorem popped_of_backlog {m : Manager} (hm : m.Sound) {k : Int64} {unsent : Unsent}
    (hb : m.backlog k = [unsent]) {between : List Op}
    (hret : returnedFrom k (client.trace m between) = []) {t u : Int} {due : Int}
    (he : ((client.run m between).processNextLocked {} t u).2.exit = .popped k due) :
    ((client.run m between).processNextLocked {} t u).2.packetOut = unsent := by
  have hc := client_conservation hm between k
  have hp := Manager.process_backlog ((client.run m between).processNextLocked_step {} t u) k
  rw [hret, List.nil_append, hb] at hc
  rw [← hc, Processed.returned, he] at hp
  simp only [if_true, List.singleton_append, List.cons.injEq] at hp
  exact hp.1.symm

theorem destination_of_first_push (C : SizeT) (I : Int) (before between : List Op) (call : PushCall)
    (t u due : Int) :
    let key := call.key.toInt64
    let m := client.run (.create C I) before
    let pushed := client.next m (.push call)
    let r := (client.run pushed between).processNextLocked {} t u
    (m.pushLocked call).2 = true → m.queued key = 0 →
    returnedFrom key (client.trace pushed between) = [] → r.2.exit = .popped key due →
    ∃ first, creator key (client.trace (.create C I) (before ++ [.push call])) = some first ∧
      (key ∉ m.queues → first = call) ∧ r.2.packetOut.packet = payload call.data ∧
      r.2.packetOut.address = first.resolved ∧
      r.2.packetOut.explicitSocket = first.explicitSocket := by
  intro key m pushed r hacc hempty hret he
  have hm : m.Sound := reachable_sound C I before
  have hpop : r.2.packetOut = (m.itemFor call).unsent (payload call.data) :=
    popped_of_backlog (client_sound m (.push call) hm) (backlog_of_first_push hm hacc hempty) hret he
  have hrun : client.run (.create C I) (before ++ [.push call]) = (m.pushLocked call).1 :=
    Machine.run_append ..
  obtain ⟨first, hfirst, hdest⟩ := destination_of_creator C I (before ++ [.push call]) key
    (m.itemFor call).destination (by rw [hrun, Manager.pushLocked_destination])
  refine ⟨first, hfirst, ?_, by rw [hpop]; rfl, ?_, ?_⟩
  · intro hnew
    have hc : creator key (client.trace (.create C I) (before ++ [.push call])) =
        ((client.out m (.push call)).creates key).or (creator key (client.trace (.create C I) before)) := by
      rw [Machine.trace_append]
      exact latest_snoc _ _ _
    rw [creates_push, if_neg hnew, Option.some_or, hfirst] at hc
    exact Option.some.inj hc
  · rw [hpop]
    exact (congrArg Destination.address hdest).symm
  · rw [hpop]
    exact (congrArg Destination.explicitSocket hdest).symm

def movedPush : PushCall :=
  { samplePushTo (some { inetAddress with
      node := 1, aiAddr := [2, 0, 15, 160, 127, 0, 0, 2] ++ List.replicate 8 0 }) 1 [2] with
    address := "127.0.0.2" }

theorem destination_of_drained :
    ∃ first, creator 1 (client.trace (.create 4 20000000)
        ([.push (samplePush 1 [1]), .processNext 1 1] ++ [.push movedPush])) = some first ∧
      ((client.run (.create 4 20000000) [.push (samplePush 1 [1]), .processNext 1 1,
        .push movedPush]).processNextLocked {} 20000001 20000001).2.packetOut.address =
          first.resolved := by
  obtain ⟨first, hfirst, -, -, haddress, -⟩ := destination_of_first_push 4 20000000
    [.push (samplePush 1 [1]), .processNext 1 1] [] movedPush 20000001 20000001 20000001
    (by decide +kernel) (by decide +kernel) (by decide +kernel) (by decide +kernel)
  exact ⟨first, hfirst, haddress⟩

theorem destination_not_of_first_push :
    ¬ ∀ (C : SizeT) (I : Int) (before between : List Op) (call : PushCall) (t u due : Int),
      let key := call.key.toInt64
      let m := client.run (.create C I) before
      let pushed := client.next m (.push call)
      let r := (client.run pushed between).processNextLocked {} t u
      (m.pushLocked call).2 = true → m.queued key = 0 →
      returnedFrom key (client.trace pushed between) = [] → r.2.exit = .popped key due →
      r.2.packetOut.address = call.resolved ∧ r.2.packetOut.explicitSocket = call.explicitSocket := by
  intro h
  obtain ⟨haddress, -⟩ := h 4 20000000 [.push (samplePush 1 [1]), .processNext 1 1] [] movedPush
    20000001 20000001 20000001 (by decide +kernel) (by decide +kernel) (by decide +kernel)
    (by decide +kernel)
  revert haddress
  decide +kernel

end UdpQueue
