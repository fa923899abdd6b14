import UdpQueue.Library.RoundRobin
import UdpQueue.Client

namespace UdpQueue
open RoundRobin

def Exit.move : Exit → Move Int64
  | .popped key _ => .serve key
  | .erased key => .drop key
  | _ => .stay

def Event.move : Event → Move Int64
  | .push call _ true _ => .join call.key.toInt64
  | .process _ _ result => result.exit.move
  | _ => .stay

def erasures (k : Int64) (tr : List Event) : Nat := (tr.map Event.move).count (.drop k)

theorem popped_length (k : Int64) (e : Event) :
    (e.popped k).length = if e.move = .serve k then 1 else 0 := by
  rcases e with ⟨_, _, _ | _, _⟩ | _ | _ | _ | ⟨_, _, ⟨_, _, _ | _ | _ | ⟨key, _⟩, _⟩⟩ <;>
    simp only [Event.move, Exit.move, Event.popped, Processed.returned, List.length_nil,
      reduceCtorEq, if_false]
  rcases eq_or_ne key k with rfl | h
  · simp
  · simp [h]

theorem popped_ne_nil {k : Int64} {e : Event} : e.popped k ≠ [] ↔ e.move = .serve k := by
  rw [← List.length_pos_iff, popped_length]
  split_ifs with h <;> simp [h]

theorem poppedFrom_length (k : Int64) (tr : List Event) :
    (poppedFrom k tr).length = (tr.map Event.move).count (.serve k) := by
  induction tr with
  | nil => rfl
  | cons e tr ih =>
    rw [poppedFrom] at ih
    rw [poppedFrom, List.flatMap_cons, List.length_append, popped_length, ih, List.map_cons,
      List.count_cons, Nat.add_comm]
    simp

namespace Manager

theorem process_turn {m : Manager} {packetOut : Unsent} {t u : Int} {r : Manager × Processed}
    (h : ProcessStep m packetOut t u r) : Turn m.queues.keys r.2.exit.move r.1.queues.keys := by
  cases h with
  | idle hf => exact .stay
  | erased key item hf hs =>
    have hk := OrderedMap.front_keys hf
    simp only [Exit.move, AList.keys_erase]
    rw [hk, List.erase_cons_head]
    exact .drop
  | waiting key item hf hs hd hw => exact .stay
  | popped key item due hf hs hd =>
    have hk := OrderedMap.front_keys hf
    rw [serve_keys, hk, List.erase_cons_head]
    exact .serve

end Manager

theorem client_turn (m : Manager) (op : Op) :
    Turn m.queues.keys (client.out m op).move (client.next m op).queues.keys := by
  cases op with
  | push call =>
    change Turn _ (Event.push call _ (decide (call.key.toInt64 ∉ m.queues)) _).move
      (m.pushLocked call).1.queues.keys
    rw [Manager.pushLocked_keys]
    split_ifs with h
    · simpa [h, Event.move] using Turn.stay
    · simpa [h, Event.move] using @Turn.join _ m.queues.keys _ h
  | remove key =>
    change Turn _ .stay (m.remove key).1.queues.keys
    rw [Manager.remove_keys]
    exact .stay
  | getRemainingCapacity key => exact .stay
  | shutDown => exact .stay
  | processNext t u => exact Manager.process_turn (m.processNextLocked_step {} t u)

theorem client_turns (m : Manager) (ops : List Op) :
    Turns m.queues.keys ((client.trace m ops).map Event.move) (client.run m ops).queues.keys := by
  induction ops generalizing m with
  | nil => exact .nil _
  | cons op ops ih => exact .cons (client_turn m op) (ih (client.next m op))

theorem serves_front {m : Manager} {op : Op} {k : Int64} (h : (client.out m op).popped k ≠ []) :
    ∃ ks, m.queues.keys = k :: ks ∧ (client.next m op).queues.keys = ks ++ [k] := by
  have ht := client_turn m op
  rw [popped_ne_nil.mp h] at ht
  generalize m.queues.keys = before at ht
  generalize (client.next m op).queues.keys = after at ht
  cases ht with
  | @serve ks => exact ⟨ks, rfl, rfl⟩

theorem round_robin (C : SizeT) (I : Int) (before between : List Op) (first second : Op)
    (key : Int64) :
    let m := client.run (.create C I) before
    let tr := client.trace (client.next m first) between
    (client.out m first).popped key ≠ [] → poppedFrom key tr = [] → erasures key tr = 0 →
    (client.out (client.run (client.next m first) between) second).popped key ≠ [] →
    ∀ other, other ≠ key →
      (other ∈ m.queues →
        (poppedFrom other tr).length = 1 ∧ erasures other tr = 0 ∨
          (poppedFrom other tr).length = 0 ∧ erasures other tr = 1) ∧
      (other ∉ m.queues → (poppedFrom other tr).length = 0) := by
  intro m tr hfirst hpop herase hsecond other hne
  obtain ⟨ks, hks, hafter⟩ := serves_front hfirst
  obtain ⟨tail, htail, -⟩ := serves_front hsecond
  have hturns := client_turns (client.next m first) between
  have hn : (client.next m first).queues.keys.Nodup := AList.keys_nodup _
  have hserve : (tr.map Event.move).count (.serve key) = 0 := by
    rw [← poppedFrom_length, hpop, List.length_nil]
  have hround := RoundRobin.round hturns ks [] tail hafter htail hn
    (List.count_eq_zero.mp hserve) (List.count_eq_zero.mp herase) other hne
  have hmem : other ∈ m.queues ↔ other ∈ ks := by
    rw [AList.mem_keys, show m.queues.keys = key :: ks from hks, List.mem_cons]
    exact or_iff_right hne
  rw [poppedFrom_length]
  exact ⟨fun h => hround.1 (hmem.mp h), fun h => (hround.2 (mt hmem.mpr h)).1⟩

theorem round_robin_two :
    let m := client.run (.create 4 1000) [.push (samplePush 1 [1]), .push (samplePush 2 [2])]
    let tr := client.trace (client.next m (.processNext 1 1))
      [.push (samplePush 1 [3]), .processNext 2 2]
    (poppedFrom 2 tr).length = 1 ∧ erasures 2 tr = 0 ∨
      (poppedFrom 2 tr).length = 0 ∧ erasures 2 tr = 1 :=
  (round_robin 4 1000 [.push (samplePush 1 [1]), .push (samplePush 2 [2])]
    [.push (samplePush 1 [3]), .processNext 2 2] (.processNext 1 1) (.processNext 3 3) 1
    (by decide +kernel) (by decide +kernel) (by decide +kernel) (by decide +kernel) 2
    (by decide)).1 (by decide +kernel)

end UdpQueue
