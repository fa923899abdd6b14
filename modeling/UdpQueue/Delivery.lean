import UdpQueue.Accounting
import UdpQueue.SystemRefinement

namespace UdpQueue

namespace SystemEvent
variable {Thread : Type}

def accepted (k : Int64) : SystemEvent Thread → List PushCall
  | .done _ (.request (.push call)) (.replied (.push true)) =>
    if call.key.toInt64 = k then [call] else []
  | _ => []

def taken (k : Int64) : SystemEvent Thread → List Unsent
  | .done _ (.request (.remove key)) (.replied (.remove _ discarded)) =>
    if key.toInt64 = k then discarded else []
  | .done _ .turn (.processed _ _ result) => result.returned k
  | _ => []

end SystemEvent

section History
variable {Thread : Type} (k : Int64)

def acceptedIn (events : List (SystemEvent Thread)) : List PushCall :=
  events.flatMap (SystemEvent.accepted k)

def takenIn (events : List (SystemEvent Thread)) : List Unsent :=
  events.flatMap (SystemEvent.taken k)

-- accepted as the n-th of its queue, behind those not taken by then
def Delivers (events : List (SystemEvent Thread)) (n : Nat) (unsent : Unsent) : Prop :=
  ∃ before t call after,
    events = before ++ .done t (.request (.push call)) (.replied (.push true)) :: after ∧
      call.key.toInt64 = k ∧ (acceptedIn k before).length = n ∧
      unsent.packet = deliver (n - (takenIn k before).length) call.data

structure Tracks (events : List (SystemEvent Thread)) (m : Manager) : Prop where
  count : (acceptedIn k events).length = (takenIn k events).length + m.queued k
  each : ∀ (n : Nat) (unsent : Unsent), (takenIn k events ++ m.backlog k)[n]? = some unsent →
    Delivers k events n unsent

variable {k} {events : List (SystemEvent Thread)} {e : SystemEvent Thread} {m m' : Manager}

theorem acceptedIn_snoc : acceptedIn k (events ++ [e]) = acceptedIn k events ++ e.accepted k := by
  simp [acceptedIn]

theorem takenIn_snoc : takenIn k (events ++ [e]) = takenIn k events ++ e.taken k := by
  simp [takenIn]

theorem Delivers.snoc {n : Nat} {unsent : Unsent} (h : Delivers k events n unsent) :
    Delivers k (events ++ [e]) n unsent := by
  obtain ⟨before, t, call, after, rfl, hk, hn, hp⟩ := h
  exact ⟨before, t, call, after ++ [e], by simp, hk, hn, hp⟩

theorem taken_of_pending (h : ∀ t work outcome, e ≠ .done t work outcome) :
    e.accepted k = [] ∧ e.taken k = [] := by
  cases e with
  | done t work outcome => exact absurd rfl (h t work outcome)
  | _ => exact ⟨rfl, rfl⟩

theorem tracks_create (C : SizeT) (I : Int) :
    Tracks k ([] : List (SystemEvent Thread)) (.create C I) where
  count := by
    rw [← Manager.backlog_length, Manager.create_backlog]
    rfl
  each n unsent hn := by
    rw [Manager.create_backlog] at hn
    cases hn

theorem Tracks.take (h : Tracks k events m) (ha : e.accepted k = [])
    (hb : m.backlog k = e.taken k ++ m'.backlog k) : Tracks k (events ++ [e]) m' := by
  have hlength := congrArg List.length hb
  rw [List.length_append, Manager.backlog_length, Manager.backlog_length] at hlength
  refine ⟨?_, fun n unsent hn => ?_⟩
  · rw [acceptedIn_snoc, takenIn_snoc, ha, List.append_nil, List.length_append, h.count]
    omega
  · rw [takenIn_snoc, List.append_assoc, ← hb] at hn
    exact (h.each n unsent hn).snoc

theorem Tracks.push (h : Tracks k events m) (hm : m.Sound) {call : PushCall}
    (hk : call.key.toInt64 = k) (ha : (m.pushLocked call).2 = true) (t : Thread) :
    Tracks k (events ++ [.done t (.request (.push call)) (.replied (.push true))])
      (m.pushLocked call).1 := by
  have hpush := push_backlog hm call true k
  rw [ha] at hpush
  simp only [Event.enqueued, Event.accepted, if_pos hk, List.map_singleton] at hpush
  have hbefore : (takenIn k events ++ m.backlog k).length = (acceptedIn k events).length := by
    rw [List.length_append, Manager.backlog_length, h.count]
  have hnew : SystemEvent.accepted k (.done t (.request (.push call)) (.replied (.push true))) = [call] :=
    if_pos hk
  have hnone : SystemEvent.taken k (.done t (.request (.push call)) (.replied (.push true))) = [] := rfl
  refine ⟨?_, fun n unsent hn => ?_⟩
  · rw [acceptedIn_snoc, takenIn_snoc, hnew, hnone, List.append_nil, List.length_append, h.count,
      ← Manager.backlog_length, ← Manager.backlog_length, ← hpush, List.length_append]
    rfl
  · rw [takenIn_snoc, hnone, List.append_nil, ← hpush, ← List.append_assoc] at hn
    rcases Nat.lt_or_ge n (takenIn k events ++ m.backlog k).length with hlt | hge
    · rw [List.getElem?_append_left hlt] at hn
      exact (h.each n unsent hn).snoc
    · rw [List.getElem?_append_right hge, List.getElem?_singleton] at hn
      split_ifs at hn with hlast
      obtain rfl := Option.some.inj hn
      refine ⟨events, t, call, [], rfl, hk, by omega, ?_⟩
      have hwaiting : n - (takenIn k events).length = m.queued call.key.toInt64 := by
        rw [List.length_append, Manager.backlog_length] at hge hlast
        rw [hk]
        omega
      rw [hwaiting, ← Manager.itemFor_size]
      rfl

theorem Tracks.refused (h : Tracks k events m) (hm : m.Sound) {call : PushCall}
    (ha : call.key.toInt64 = k → (m.pushLocked call).2 = false) (t : Thread) :
    Tracks k (events ++ [.done t (.request (.push call)) (.replied (.push (m.pushLocked call).2))])
      (m.pushLocked call).1 := by
  have hpush := push_backlog hm call true k
  rcases eq_or_ne call.key.toInt64 k with hk | hk
  · rw [ha hk] at hpush ⊢
    exact h.take rfl ((List.append_nil _).symm.trans hpush)
  · refine h.take ?_ ((List.append_nil _).symm.trans (Eq.trans ?_ hpush))
    · cases (m.pushLocked call).2
      · rfl
      · exact if_neg hk
    · cases (m.pushLocked call).2 <;> simp [Event.enqueued, Event.accepted, hk]

theorem Tracks.atomically (h : Tracks k events m) (hm : m.Sound) {work : Work} {outcome : Outcome}
    (hp : Atomically m work m' outcome) (t : Thread) :
    Tracks k (events ++ [.done t work outcome]) m' := by
  cases hp with
  | request request =>
    have hb := client_backlog k m request.op hm
    cases request with
    | push call =>
      change Tracks k (events ++ [.done t _ (.replied (.push (m.pushLocked call).2))])
        (m.pushLocked call).1
      by_cases ha : call.key.toInt64 = k ∧ (m.pushLocked call).2 = true
      · rw [ha.2]
        exact h.push hm ha.1 ha.2 t
      · exact h.refused hm (fun hk => by simpa [hk] using ha) t
    | _ => exact h.take rfl ((List.append_nil _).symm.trans hb)
  | left hs => exact h.take rfl rfl
  | processed u v hs => exact h.take rfl (Manager.process_backlog (m.processNextLocked_step {} u v) k)

end History

section Step
variable {Thread : Type} [DecidableEq Thread] {socketV4 socketV6 : Thread → SocketT}
variable {s : System Thread} {c : Callers Thread} {m : Manager}

theorem system_keeps (h : Simulates s c) (hk : s.core.Keeps At m)
    {r : System Thread × SystemEvent Thread} (hr : SystemStep socketV4 socketV6 s r) :
    (∀ t work outcome, r.2 ≠ .done t work outcome) ∧ r.1.core.Keeps At m ∨
      ∃ t work outcome, r.2 = .done t work outcome ∧ Atomically m work r.1.core.object outcome ∧
        r.1.core.Keeps At r.1.core.object := by
  have hcall {t : Thread} (hc : s.control t ≠ .inSection) (work : Work) :
      (s.core.call t work).Keeps At m := hk.call ((h.outside t).mp hc) work
  cases hr with
  | called t request hc => exact Or.inl ⟨by simp, hcall (by simp [hc]) _⟩
  | approached t hc => exact Or.inl ⟨by simp, hk⟩
  | entered t processLock hc hl => exact Or.inl ⟨by simp, hcall (by simp [hc]) _⟩
  | moved t reading core hc hs =>
    rcases hk.step sections_annotated hs with ⟨-, hkeeps⟩ | ⟨i, o, he, -⟩
    · exact Or.inl ⟨by simp, hkeeps⟩
    · cases he
  | done t reading core work outcome hc hs =>
    rcases hk.step sections_annotated hs with ⟨he, -⟩ | ⟨i, o, he, hpost, hkeeps⟩
    · cases he
    · cases he
      exact Or.inr ⟨t, work, outcome, rfl, hpost, hkeeps⟩
  | released t reading core outcome hc hs =>
    rcases hk.step sections_annotated hs with ⟨-, hkeeps⟩ | ⟨i, o, he, -⟩
    · exact Or.inl ⟨by simp, hkeeps⟩
    · cases he
  | crashed t current reading result hc hd => exact Or.inl ⟨by simp, hk⟩
  | finished t current reading result sent hc hd hu => exact Or.inl ⟨by simp, hcall (by simp [hc]) _⟩
  | left t hc => exact Or.inl ⟨by simp, hk⟩
  | blocked => exact Or.inl ⟨by simp, hk⟩

theorem Atomically.run {m' : Manager} {work : Work} {outcome : Outcome}
    (h : Atomically m work m' outcome) : ∃ ops, client.run m ops = m' := by
  cases h with
  | request request => exact ⟨[request.op], rfl⟩
  | left hs => exact ⟨[], rfl⟩
  | processed t u hs => exact ⟨[.processNext t u], rfl⟩

variable (socketV4 socketV6) (C : SizeT) (I : Int) (ops : List (SystemOp Thread))

theorem tracks_run (k : Int64) :
    ∃ requests, ((system socketV4 socketV6).run (.create C I) ops).core.Keeps At
        (client.run (.create C I) requests) ∧
      Tracks k ((system socketV4 socketV6).trace (.create C I) ops)
        (client.run (.create C I) requests) := by
  refine (Machine.history (M := system socketV4 socketV6)
    (P := fun s events => (∃ c, Simulates s c) ∧ ∃ requests,
      s.core.Keeps At (client.run (.create C I) requests) ∧
        Tracks k events (client.run (.create C I) requests))
    (fun s events op h => ?_)
    ⟨⟨_, create_simulates C I⟩, [], Guarded.create_keeps _, tracks_create C I⟩ ops).2
  obtain ⟨⟨c, hc⟩, requests, hk, ht⟩ := h
  refine ⟨⟨_, (system_corresponds socketV4 socketV6 hc op).1⟩, ?_⟩
  rcases system_keeps hc hk (system_step socketV4 socketV6 s op) with
    ⟨hpending, hkeeps⟩ | ⟨t, work, outcome, he, hp, hkeeps⟩
  · obtain ⟨ha, hnone⟩ := taken_of_pending (k := k) hpending
    refine ⟨requests, hkeeps, ht.take ha ?_⟩
    rw [Machine.out, hnone]
    rfl
  · obtain ⟨more, hmore⟩ := hp.run
    have hafter := ht.atomically (reachable_sound C I requests) hp t
    refine ⟨requests ++ more, ?_, ?_⟩
    · rw [Machine.run_append, hmore]
      exact hkeeps
    · rw [Machine.run_append, hmore, Machine.out, he]
      exact hafter

theorem taken_delivers {k : Int64} {n : Nat} {unsent : Unsent}
    (hn : (takenIn k ((system socketV4 socketV6).trace (.create C I) ops))[n]? = some unsent) :
    Delivers k ((system socketV4 socketV6).trace (.create C I) ops) n unsent := by
  obtain ⟨requests, -, ht⟩ := tracks_run socketV4 socketV6 C I ops k
  refine ht.each n unsent ?_
  rw [List.getElem?_append_left (List.getElem?_eq_some_iff.mp hn).1]
  exact hn

theorem packets_in_order (k : Int64) :
    let trace := (system socketV4 socketV6).trace (.create C I) ops
    let s := (system socketV4 socketV6).run (.create C I) ops
    let accepted := acceptedIn k trace
    let taken := takenIn k trace
    (∀ (n : Nat) (unsent : Unsent), taken[n]? = some unsent → Delivers k trace n unsent) ∧
      taken.length ≤ accepted.length ∧ accepted.length ≤ taken.length + C.toNat ∧
      (s.core.lock = .free → s.core.object.queued k = accepted.length - taken.length) := by
  intro trace s accepted taken
  obtain ⟨requests, hk, ht⟩ := tracks_run socketV4 socketV6 C I ops k
  have hcount : accepted.length = taken.length + _ := ht.count
  have hle := Manager.queued_le (reachable_sound C I requests) k
  rw [reachable_capacity] at hle
  refine ⟨fun n unsent hn => taken_delivers socketV4 socketV6 C I ops hn, by omega, by omega,
    fun hfree => ?_⟩
  rw [hk.object_of_free hfree]
  omega

end Step

end UdpQueue
