import UdpQueue.Delivery
import UdpQueue.Dispatch
import UdpQueue.InFlight

namespace UdpQueue

namespace Visible
variable {Thread : Type}

def turns (socketV4 socketV6 : Thread → SocketT) : Visible Thread → List (Thread × Dispatched)
  | .processed t _ _ result => [(t, dispatched (socketV4 t) (socketV6 t) result.packetOut)]
  | _ => []

def dispatches : Visible Thread → List (Thread × Dispatched)
  | .finished t sent _ _ => [(t, sent)]
  | _ => []

end Visible

section Callers
variable {Call : Type} (socketV4 socketV6 : Call → SocketT)

def Phase.toSend (c : Call) : Option Phase → List (Call × Dispatched)
  | some (.sending _ result) => [(c, dispatched (socketV4 c) (socketV6 c) result.packetOut)]
  | _ => []

-- only the holder of `process_lock` can have something to send
def Callers.inFlight (s : Callers Call) : List (Call × Dispatched) :=
  match s.processLock with
  | .held c => Phase.toSend socketV4 socketV6 c (s.phase c)
  | _ => []

variable {socketV4 socketV6} {s : Callers Call}

theorem inFlight_of_held {c : Call} {phase : Option Phase} (h : s.processLock = .held c)
    (hp : s.phase c = phase) : s.inFlight socketV4 socketV6 = Phase.toSend socketV4 socketV6 c phase := by
  rw [Callers.inFlight, h, ← hp]

theorem inFlight_of_free (h : s.processLock = .free) : s.inFlight socketV4 socketV6 = [] := by
  rw [Callers.inFlight, h]

theorem inFlight_held {d : Call × Dispatched} (h : d ∈ s.inFlight socketV4 socketV6) :
    s.processLock = .held d.1 ∧ s.inFlight socketV4 socketV6 = [d] := by
  rw [Callers.inFlight] at h ⊢
  cases hl : s.processLock with
  | held c =>
    rw [hl] at h
    rcases hp : s.phase c with _ | (_ | ⟨t, result⟩ | _ | _) <;>
      simp only [hp, Phase.toSend, List.mem_singleton, List.not_mem_nil] at h ⊢
    subst h
    exact ⟨rfl, rfl⟩
  | _ =>
    rw [hl] at h
    cases h

theorem dispatch_step [DecidableEq Call] {r : Callers Call × CallerEvent Call}
    (h : CallerStep socketV4 socketV6 s r) (hs : s.Exclusive) :
    s.inFlight socketV4 socketV6 ++ r.2.visible.turns socketV4 socketV6 =
      r.2.visible.dispatches ++ r.1.inFlight socketV4 socketV6 := by
  have hheld {c : Call} {phase : Phase} (hp : s.phase c = some phase) : s.processLock = .held c :=
    hs.holder c (by simp [hp])
  have hbefore {c : Call} {phase : Phase} (hp : s.phase c = some phase) :
      s.inFlight socketV4 socketV6 = Phase.toSend socketV4 socketV6 c (some phase) :=
    inFlight_of_held (hheld hp) hp
  have hafter {c : Call} {phase : Phase} (hp : s.phase c = some phase) (m : Manager) (next : Phase) :
      ({ s with manager := m }.goto c (some next)).inFlight socketV4 socketV6 =
        Phase.toSend socketV4 socketV6 c (some next) :=
    inFlight_of_held (hheld hp) (Function.update_self ..)
  cases h with
  | request request => exact List.append_nil _
  | entered c processLock hp hl =>
    obtain ⟨hfree, rfl⟩ := Mutex.lock_eq_some hl hs.live
    have hnext : ({ s with processLock := .held c }.goto c (some .entering)).inFlight socketV4 socketV6 =
        Phase.toSend socketV4 socketV6 c (some .entering) :=
      inFlight_of_held rfl (Function.update_self ..)
    rw [inFlight_of_free hfree, hnext]
    rfl
  | left c hp =>
    rw [hbefore hp, hafter hp s.manager .left]
    rfl
  | processed c t u hp =>
    rw [hbefore hp, hafter hp]
    rfl
  | crashed c t result hp hd =>
    rw [hbefore hp, hafter hp s.manager .undefined, Phase.toSend, hd]
    rfl
  | finished c t reading current result sent hp hd hu hc =>
    rw [hbefore hp, hafter hp s.manager .entering, Phase.toSend, hd]
    rfl
  | returned c hp =>
    have hunlocked : ({ s with processLock := s.processLock.unlock }.goto c none).inFlight
        socketV4 socketV6 = [] := inFlight_of_free (by rw [Callers.goto, hheld hp]; rfl)
    rw [hbefore hp, hunlocked]
    rfl
  | blocked => exact List.append_nil _

end Callers

theorem returned_of_data {m m' : Manager} {t u : Int} {result : Processed}
    (h : Atomically m .turn m' (.processed t u result)) (hd : result.packetOut.packet.data ≠ []) :
    ∃ k, result.returned k = [result.packetOut] := by
  cases h with
  | processed t u hs =>
    cases he : (m.processNextLocked {} t u).2.exit with
    | popped key due => exact ⟨key, by simp [Processed.returned, he]⟩
    | _ => exact absurd (Manager.process_unpopped (m.processNextLocked_step {} t u) (by simp [he])) hd

theorem processed_of_turn {Thread : Type} {socketV4 socketV6 : Thread → SocketT}
    {events : List (SystemEvent Thread)} {d : Thread × Dispatched}
    (h : d ∈ (events.flatMap SystemEvent.visible).flatMap (Visible.turns socketV4 socketV6)) :
    ∃ work t u result, .done d.1 work (.processed t u result) ∈ events ∧
      d.2 = dispatched (socketV4 d.1) (socketV6 d.1) result.packetOut := by
  obtain ⟨v, hv, hturn⟩ := List.mem_flatMap.mp h
  obtain ⟨e, he, hvisible⟩ := List.mem_flatMap.mp hv
  cases v with
  | processed t current nanos result =>
    obtain rfl := List.mem_singleton.mp hturn
    rcases e with _ | _ | _ | _ | ⟨t', work, _ | _ | _ | _⟩ | _ | _ | _ | _ <;>
      simp only [SystemEvent.visible, List.mem_singleton, List.not_mem_nil, reduceCtorEq] at hvisible
    cases hvisible
    exact ⟨work, current, nanos, result, he, rfl⟩
  | _ => cases hturn

section Run
variable {Thread : Type} [DecidableEq Thread] (socketV4 socketV6 : Thread → SocketT) (C : SizeT) (I : Int)

theorem dispatches_run (ops : List (CallerOp Thread)) :
    ((callers socketV4 socketV6).trace (.create C I) ops).flatMap
        (fun e => e.visible.turns socketV4 socketV6) =
      ((callers socketV4 socketV6).trace (.create C I) ops).flatMap (fun e => e.visible.dispatches) ++
        ((callers socketV4 socketV6).run (.create C I) ops).inFlight socketV4 socketV6 := by
  have h : (Callers.create C I).inFlight socketV4 socketV6 ++
      ((callers socketV4 socketV6).trace (.create C I) ops).flatMap
        (fun e => e.visible.turns socketV4 socketV6) =
        ((callers socketV4 socketV6).trace (.create C I) ops).flatMap (fun e => e.visible.dispatches) ++
          ((callers socketV4 socketV6).run (.create C I) ops).inFlight socketV4 socketV6 :=
    Machine.conservation (M := callers socketV4 socketV6)
      (fun s op hs => Callers.exclusive_step (caller_step socketV4 socketV6 s op) hs)
      (fun s op hs => dispatch_step (caller_step socketV4 socketV6 s op) hs)
      (Callers.create_exclusive C I) ops
  exact h

theorem sent_was_pushed {ops : List (SystemOp Thread)} {t : Thread} {datagram : Sendto}
    (h : (t, .sent datagram) ∈ (((system socketV4 socketV6).trace (.create C I) ops).flatMap
      SystemEvent.visible).flatMap (Visible.turns socketV4 socketV6)) :
    ∃ u call, .done u (.request (.push call)) (.replied (.push true)) ∈
        (system socketV4 socketV6).trace (.create C I) ops ∧
      datagram.buf = call.data ∧ datagram.len = call.data.length := by
  obtain ⟨work, current, nanos, result, he, hsent⟩ := processed_of_turn h
  have hd : result.packetOut.packet.data ≠ [] := by
    intro hd
    cases hsent.trans (dispatched_of_empty _ _ hd)
  obtain ⟨m, m', hp⟩ := done_effect socketV4 socketV6 he
  obtain rfl : work = .turn := by cases hp; rfl
  obtain ⟨k, hreturned⟩ := returned_of_data hp hd
  have htaken : result.packetOut ∈ takenIn k ((system socketV4 socketV6).trace (.create C I) ops) := by
    refine List.mem_flatMap.mpr ⟨_, he, ?_⟩
    change result.packetOut ∈ result.returned k
    rw [hreturned]
    exact List.mem_singleton_self _
  obtain ⟨n, hn⟩ := List.mem_iff_getElem?.mp htaken
  obtain ⟨before, u, call, after, htrace, -, -, hpacket⟩ :=
    taken_delivers socketV4 socketV6 C I ops hn
  refine ⟨u, call, by rw [htrace]; simp, ?_⟩
  have hwhole : result.packetOut.packet = payload call.data := by
    rw [hpacket, deliver] at hd ⊢
    split_ifs at hd ⊢
    · rfl
    · exact absurd rfl hd
  cases ha : result.packetOut.address with
  | none => cases hsent.trans (dispatched_of_null _ _ hd ha)
  | some address =>
    obtain ⟨socket, hs⟩ := dispatched_of_address (socketV4 t) (socketV6 t) hd ha
    cases hsent.trans hs
    rw [hwhole]
    exact ⟨rfl, rfl⟩

theorem datagrams_in_order (ops : List (SystemOp Thread)) :
    let trace := (system socketV4 socketV6).trace (.create C I) ops
    let s := (system socketV4 socketV6).run (.create C I) ops
    let turns := (trace.flatMap SystemEvent.visible).flatMap (Visible.turns socketV4 socketV6)
    let dispatches := (trace.flatMap SystemEvent.visible).flatMap Visible.dispatches
    (turns = dispatches ∨ ∃ d, s.processLock = .held d.1 ∧ turns = dispatches ++ [d]) ∧
      ∀ t datagram, (t, .sent datagram) ∈ dispatches →
        ∃ u call, .done u (.request (.push call)) (.replied (.push true)) ∈ trace ∧
          datagram.buf = call.data ∧ datagram.len = call.data.length := by
  intro trace s turns dispatches
  obtain ⟨hsim, hvisible⟩ := system_simulates socketV4 socketV6 C I ops
  have hrun := dispatches_run socketV4 socketV6 C I (trace.flatMap SystemEvent.effects)
  have hturns : turns = ((callers socketV4 socketV6).trace (.create C I)
      (trace.flatMap SystemEvent.effects)).flatMap fun e => e.visible.turns socketV4 socketV6 := by
    rw [← List.flatMap_map, hvisible]
  have hdispatches : dispatches = ((callers socketV4 socketV6).trace (.create C I)
      (trace.flatMap SystemEvent.effects)).flatMap fun e => e.visible.dispatches := by
    rw [← List.flatMap_map, hvisible]
  rw [← hturns, ← hdispatches] at hrun
  constructor
  · generalize hflight : Callers.inFlight socketV4 socketV6 _ = inFlight at hrun
    cases inFlight with
    | nil => exact Or.inl (hrun.trans (List.append_nil _))
    | cons d rest =>
      obtain ⟨hheld, hone⟩ := inFlight_held (hflight ▸ List.mem_cons_self)
      rw [hflight] at hone
      rw [hone] at hrun
      exact Or.inr ⟨d, hsim.processLock.trans hheld, hrun⟩
  · intro t datagram hmem
    have hturn : (t, .sent datagram) ∈ turns := by
      rw [hrun]
      exact List.mem_append_left _ hmem
    exact sent_was_pushed socketV4 socketV6 C I hturn

end Run

end UdpQueue
