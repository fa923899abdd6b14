import UdpQueue.EarliestDue
import Mathlib.Tactic.Ring

namespace UdpQueue
open RoundRobin

-- the queue is not erased, and a packet of it is popped less than two intervals late
def Steady (I : Int) (k : Int64) (e : Event) : Prop :=
  e.move ≠ .drop k ∧ ∀ s ∈ e.service k, s.nanos - s.due < 2 * I

instance (I : Int) (k : Int64) : DecidablePred (Steady I k) :=
  fun _ => inferInstanceAs (Decidable (_ ∧ _))

def Service.OnTime (due : Int) (s : Service) : Prop :=
  s.due = due ∧ due - 1500000 < s.currentTime

theorem kept_deadline {m : Manager} {op : Op} {k : Int64} (hs : (client.out m op).move ≠ .serve k)
    (hd : (client.out m op).move ≠ .drop k) : (client.next m op).deadline k = m.deadline k := by
  cases op with
  | push call => exact m.pushLocked_deadline call k
  | remove key => exact m.remove_deadline key k
  | getRemainingCapacity key => rfl
  | shutDown => rfl
  | processNext t u =>
    have hdl := Manager.process_deadline (m.processNextLocked_step {} t u) k
    change Exit.move (m.processNextLocked {} t u).2.exit ≠ .serve k at hs
    change Exit.move (m.processNextLocked {} t u).2.exit ≠ .drop k at hd
    change (m.processNextLocked {} t u).1.deadline k = _
    generalize (m.processNextLocked {} t u).2.exit = exit at hdl hs hd
    cases exit with
    | erased key =>
      simp only [] at hdl
      split_ifs at hdl with hc
      · exact absurd (congrArg Move.drop hc.symm) hd
      · exact hdl
    | popped key due =>
      simp only [] at hdl
      split_ifs at hdl with hc
      · exact absurd (congrArg Move.serve hc.symm) hs
      · exact hdl
    | _ => exact hdl

theorem popped_when_due {m : Manager} {op : Op} {k : Int64} {s : Service} (hk : m.deadline k ≠ 0)
    (h : (client.out m op).service k = some s) : s.OnTime (m.deadline k) := by
  cases op with
  | processNext t u =>
    have hp := @Manager.process_popped _ _ _ _ _ (m.processNextLocked_step {} t u) k
    change Event.service k (.process t u (m.processNextLocked {} t u).2) = some s at h
    generalize (m.processNextLocked {} t u).2 = result at hp h
    rcases result with ⟨_, _, _ | _ | _ | ⟨key, due⟩, _⟩ <;> simp only [Event.service] at h
    all_goals try cases h
    split_ifs at h with hc
    cases h
    rcases hp (congrArg (Exit.popped · due) hc) with ⟨hz, -⟩ | ⟨-, hdue, hearly⟩
    · exact absurd hz hk
    · exact ⟨hdue, by simp only []; omega⟩
  | _ => cases h

theorem cadence_step {I : Int} {m : Manager} {op : Op} {k : Int64} (hI : m.packetInterval = I)
    (hk : m.deadline k ≠ 0) (h : Steady I k (client.out m op)) :
    (client.out m op).service k = none ∧ (client.next m op).deadline k = m.deadline k ∨
      ∃ s, (client.out m op).service k = some s ∧ s.OnTime (m.deadline k) ∧
        (client.next m op).deadline k = m.deadline k + I := by
  obtain ⟨hd, hlate⟩ := h
  rcases eq_or_ne (client.out m op).move (.serve k) with hv | hv
  · obtain ⟨s, hs, -⟩ := service_of_serve hv
    have hpunctual := hlate s hs
    have htime := popped_when_due hk hs
    refine Or.inr ⟨s, hs, htime, ?_⟩
    rw [(client_service hs).1, Manager.nextDue, hI, if_neg (by omega), htime.1]
  · exact Or.inl ⟨service_eq_none hv, kept_deadline hv hd⟩

theorem services_cons_none {k : Int64} {e : Event} (h : e.service k = none) (tr : List Event) :
    services k (e :: tr) = services k tr :=
  List.filterMap_cons_none h

theorem services_cons_some {k : Int64} {e : Event} {s : Service} (h : e.service k = some s)
    (tr : List Event) : services k (e :: tr) = s :: services k tr :=
  List.filterMap_cons_some h

theorem cadence_run {I : Int} (hI : 0 ≤ I) {m : Manager} (hm : m.packetInterval = I) {k : Int64}
    (hk : 0 < m.deadline k) (ops : List Op) (hs : ∀ e ∈ client.trace m ops, Steady I k e) :
    (client.run m ops).deadline k = m.deadline k + (services k (client.trace m ops)).length * I ∧
      ∀ (n : Nat) (s : Service), (services k (client.trace m ops))[n]? = some s →
        s.OnTime (m.deadline k + n * I) := by
  induction ops generalizing m with
  | nil => simp [services]
  | cons op ops ih =>
    obtain ⟨hone, hmany⟩ := List.forall_mem_cons.mp hs
    have hinterval := (client_frame m op).interval.trans hm
    rw [Machine.trace_cons, Machine.run_cons]
    rcases cadence_step hm (by omega) hone with ⟨hno, hd⟩ | ⟨s, hsome, htime, hd⟩
    · rw [services_cons_none hno, ← hd]
      exact ih hinterval (by omega) hmany
    · obtain ⟨hlast, hall⟩ := ih hinterval (by omega) hmany
      rw [services_cons_some hsome]
      refine ⟨?_, fun n s' hn => ?_⟩
      · rw [hlast, hd, List.length_cons]
        push_cast
        ring
      · cases n with
        | zero =>
          obtain rfl : s = s' := by simpa using hn
          simpa using htime
        | succ n =>
          have hrest := hall n s' (by simpa using hn)
          rw [hd] at hrest
          have hsum : m.deadline k + (n + 1 : Nat) * I = m.deadline k + I + n * I := by
            push_cast
            ring
          rwa [hsum]

theorem no_drift (C : SizeT) (I : Int) (ops later : List Op) (k : Int64) (hI : 0 ≤ I)
    (hk : 0 < (client.run (.create C I) ops).deadline k)
    (hs : ∀ e ∈ client.trace (client.run (.create C I) ops) later, Steady I k e) :
    let m := client.run (.create C I) ops
    let popped := services k (client.trace m later)
    (client.run m later).deadline k = m.deadline k + popped.length * I ∧
      ∀ (n : Nat) (s : Service), popped[n]? = some s → s.due = m.deadline k + n * I ∧
        s.due - 1500000 < s.currentTime ∧ s.nanos < s.due + 2 * I := by
  intro m popped
  obtain ⟨hlast, hall⟩ := cadence_run hI (reachable_interval C I ops) hk later hs
  refine ⟨hlast, fun n s hn => ?_⟩
  obtain ⟨hdue, hearly⟩ := hall n s hn
  obtain ⟨e, he, hservice⟩ := List.mem_filterMap.mp (List.mem_of_getElem? hn)
  have hlate := (hs e he).2 s hservice
  exact ⟨hdue, by omega, by omega⟩

-- served one and then eighteen milliseconds late, due every twenty all the same
theorem no_drift_late :
    let m := client.run (.create 4 20000000) [.push (samplePush 1 [1]), .push (samplePush 1 [2]),
      .push (samplePush 1 [3]), .processNext 1 1]
    let popped := services 1 (client.trace m [.processNext 21000001 21000001, .getRemainingCapacity 1,
      .processNext 58000001 58000001])
    (client.run m [.processNext 21000001 21000001, .getRemainingCapacity 1,
        .processNext 58000001 58000001]).deadline 1 =
        m.deadline 1 + popped.length * 20000000 ∧
      ∀ (n : Nat) (s : Service), popped[n]? = some s → s.due = m.deadline 1 + n * 20000000 ∧
        s.due - 1500000 < s.currentTime ∧ s.nanos < s.due + 2 * 20000000 :=
  no_drift 4 20000000 [.push (samplePush 1 [1]), .push (samplePush 1 [2]), .push (samplePush 1 [3]),
    .processNext 1 1]
    [.processNext 21000001 21000001, .getRemainingCapacity 1, .processNext 58000001 58000001] 1
    (by decide) (by decide +kernel) (by decide +kernel)

end UdpQueue
