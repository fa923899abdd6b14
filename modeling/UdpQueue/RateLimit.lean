import UdpQueue.EarliestDue
import UdpQueue.Loop
import Mathlib.Tactic.Linarith

namespace UdpQueue
namespace Manager

-- a queue that lost its deadline was erased by a loop that had slept for it
def Spaced (m : Manager) (k : Int64) (bound clock : Int) : Prop :=
  m.deadline k ≠ 0 ∧ bound < m.deadline k ∨ m.deadline k = 0 ∧ bound - 1500000 < clock

theorem Spaced.mono {m : Manager} {k : Int64} {bound clock clock' : Int}
    (h : m.Spaced k bound clock) (hc : clock ≤ clock') : m.Spaced k bound clock' :=
  h.imp_right fun ⟨hd, hb⟩ => ⟨hd, by omega⟩

theorem Spaced.congr {m m' : Manager} {k : Int64} {bound clock : Int}
    (h : m.Spaced k bound clock) (hd : m'.deadline k = m.deadline k) : m'.Spaced k bound clock := by
  rwa [Spaced, hd]

def Rested (m : Manager) (clock : Int) : Prop := m.frontDue = 0 ∨ m.frontDue - 1500000 < clock

theorem request_deadline (m : Manager) (request : Request) (k : Int64) :
    (client.next m request.op).deadline k = m.deadline k := by
  cases request with
  | push call => exact m.pushLocked_deadline call k
  | remove key => exact m.remove_deadline key k
  | _ => rfl

theorem request_frontDue (m : Manager) (request : Request) :
    (client.next m request.op).frontDue = m.frontDue := by
  cases request with
  | push call => exact m.pushLocked_frontDue call
  | remove key => exact m.remove_frontDue key
  | _ => rfl

section Process
variable {m : Manager} {packetOut : Unsent} {t u : Int} {r : Manager × Processed}
variable (h : ProcessStep m packetOut t u r)
include h

theorem process_deadline_nonneg (hI : 0 < m.packetInterval) (htu : t ≤ u) (ht : 0 < t)
    (hn : ∀ k, 0 ≤ m.deadline k) (k : Int64) : 0 ≤ r.1.deadline k := by
  have hk := hn k
  have hp (due : Int) (he : r.2.exit = .popped k due) := process_popped h he
  rw [process_deadline h k]
  generalize r.2.exit = exit at hp ⊢
  cases exit with
  | erased key =>
    simp only []
    split_ifs <;> omega
  | popped key due =>
    simp only []
    split_ifs with hc
    · have := hp due (by rw [hc])
      rw [nextDue]
      split_ifs <;> omega
    · exact hk
  | _ => exact hk

theorem process_spaced_other (htu : t ≤ u) {k : Int64} {bound : Int} (hr : m.Rested t)
    (hs : m.Spaced k bound t) (he : ∀ due, r.2.exit ≠ .popped k due) :
    r.1.Spaced k bound (r.2.exit.lastReading t u) := by
  have hd := process_deadline h k
  have hf (key : Int64) (he : r.2.exit = .erased key) := process_erased h he
  generalize r.2.exit = exit at hd hf he ⊢
  cases exit with
  | erased key =>
    simp only [] at hd
    split_ifs at hd with hc
    · subst hc
      have hfront := hf k rfl
      refine Or.inr ⟨hd, ?_⟩
      rcases hs with ⟨hne, hb⟩ | ⟨-, hb⟩
      · rcases hr with hz | hlt
        · omega
        · simp only [Exit.lastReading]
          omega
      · exact hb
    · exact hs.congr hd
  | popped key due =>
    simp only [] at hd
    split_ifs at hd with hc
    · exact absurd (by rw [hc]) (he due)
    · exact (hs.congr hd).mono htu
  | _ => exact hs.congr hd

theorem process_spaced_popped (hI : 0 < m.packetInterval) (htu : t ≤ u) (ht : 0 < t)
    (hn : ∀ k, 0 ≤ m.deadline k) {k : Int64} {due bound : Int} (hs : m.Spaced k bound t)
    (he : r.2.exit = .popped k due) :
    bound - 1500000 < t ∧ r.1.Spaced k (bound + (m.packetInterval - 1500000)) u := by
  have hd := process_deadline h k
  have hp := process_popped h he
  have hk := hn k
  simp only [he, if_true] at hd
  rw [Spaced, hd, nextDue]
  rcases hs with ⟨hne, hb⟩ | ⟨hz, hb⟩
  · refine ⟨by omega, Or.inl ?_⟩
    split_ifs <;> omega
  · refine ⟨hb, Or.inl ?_⟩
    split_ifs <;> omega

theorem process_spaced_first (hI : 0 < m.packetInterval) (htu : t ≤ u) (ht : 0 < t)
    (hn : ∀ k, 0 ≤ m.deadline k) {k : Int64} {due : Int} (he : r.2.exit = .popped k due) :
    r.1.Spaced k (u - m.packetInterval) u := by
  have hd := process_deadline h k
  have hp := process_popped h he
  have hk := hn k
  simp only [he, if_true] at hd
  rw [Spaced, hd, nextDue]
  apply Or.inl
  split_ifs <;> omega

end Process

end Manager

structure Awake (I : Int) (s : Loop) : Prop where
  interval : s.manager.packetInterval = I
  clock_pos : 0 < s.clock
  deadline_nonneg : ∀ k, 0 ≤ s.manager.deadline k
  entering : s.phase = .entering → s.manager.Rested s.clock
  sending : ∀ t result, s.phase = .sending t result →
    t ≤ s.clock ∧ (s.manager.frontDue = 0 ∨ s.manager.frontDue = result.targetTime)

theorem awake_create (C : SizeT) (I : Int) {clock : Int} (h : 0 < clock) :
    Awake I (.create C I clock) := by
  refine ⟨rfl, h, fun k => le_of_eq (Manager.create_deadline C I k).symm, fun _ => Or.inl rfl, ?_⟩
  rintro t result ⟨⟩

theorem le_lastReading {t u : Int} (h : t ≤ u) (exit : Exit) : t ≤ exit.lastReading t u := by
  cases exit <;> first | exact le_rfl | exact h

section Run
variable {socketV4 socketV6 : SocketT} {I : Int} {s : Loop} {r : Loop × LoopEvent}

theorem awake_step (hI : 0 < I) (h : LoopStep socketV4 socketV6 s r) (hs : Awake I s) :
    Awake I r.1 := by
  obtain ⟨hi, hpos, hn, hent, hsend⟩ := hs
  cases h with
  | request request =>
    have hd := s.manager.request_deadline request
    have hf := s.manager.request_frontDue request
    refine ⟨(client_frame _ _).interval.trans hi, hpos, fun k => hd k ▸ hn k, ?_, ?_⟩
    · rw [Manager.Rested, hf]
      exact hent
    · rw [hf]
      exact hsend
  | processed t u hp ht hu =>
    have hstep := s.manager.processNextLocked_step {} t u
    have hle := le_lastReading hu (s.manager.processNextLocked {} t u).2.exit
    refine ⟨(client_frame _ _).interval.trans hi, by simp only []; omega, ?_, nofun, ?_⟩
    · exact Manager.process_deadline_nonneg hstep (hi ▸ hI) hu (by omega) hn
    · rintro t' result ⟨⟩
      exact ⟨hle, Manager.process_frontDue hstep⟩
  | finished t result sent clock hp hd hu hc hw =>
    obtain ⟨ht, hf⟩ := hsend t result hp
    have hlt := hw ht
    refine ⟨hi, by simp only []; omega, hn, fun _ => ?_, by simp⟩
    rcases hf with hf | hf
    · exact Or.inl hf
    · apply Or.inr
      simp only []
      omega
  | left hp => exact ⟨hi, hpos, hn, nofun, by simp⟩
  | crashed t result hp hd => exact ⟨hi, hpos, hn, nofun, by simp⟩
  | blocked => exact ⟨hi, hpos, hn, hent, hsend⟩

theorem services_process (k : Int64) (t u : Int) (result : Processed) :
    services k [.process t u result] = [] ∧ (∀ due, result.exit ≠ .popped k due) ∨
      ∃ due, result.exit = .popped k due ∧
        services k [.process t u result] = [{ currentTime := t, due, nanos := u }] := by
  obtain ⟨packetOut, targetTime, exit, freed⟩ := result
  cases exit with
  | popped key due =>
    rw [services, List.filterMap_cons, Event.service_popped]
    rcases eq_or_ne key k with rfl | hc
    · exact Or.inr ⟨due, rfl, by rw [if_pos rfl, List.filterMap_nil]⟩
    · refine Or.inl ⟨by rw [if_neg hc, List.filterMap_nil], ?_⟩
      rintro due' ⟨⟩
      exact hc rfl
  | _ => exact Or.inl ⟨rfl, nofun⟩

theorem spaced_step (hI : 0 < I) (h : LoopStep socketV4 socketV6 s r) (hs : Awake I s) {k : Int64}
    {bound : Int} (hk : s.manager.Spaced k bound s.clock) :
    services k r.2.events = [] ∧ r.1.manager.Spaced k bound r.1.clock ∨
      ∃ a, services k r.2.events = [a] ∧ bound - 1500000 < a.currentTime ∧
        r.1.manager.Spaced k (bound + (I - 1500000)) r.1.clock := by
  cases h with
  | request request =>
    refine Or.inl ⟨?_, hk.congr (s.manager.request_deadline request k)⟩
    cases request <;> rfl
  | processed t u hp ht hu =>
    have hstep := s.manager.processNextLocked_step {} t u
    have hpos := hs.clock_pos
    rcases services_process k t u (s.manager.processNextLocked {} t u).2 with
      ⟨hno, he⟩ | ⟨due, he, ha⟩
    · have hr : s.manager.Rested t := (hs.entering hp).imp_right fun hlt => by omega
      exact Or.inl ⟨hno, Manager.process_spaced_other hstep hu hr (hk.mono ht) he⟩
    · obtain ⟨hlt, hnext⟩ := Manager.process_spaced_popped hstep (hs.interval ▸ hI) hu (by omega)
        hs.deadline_nonneg (hk.mono ht) he
      rw [hs.interval] at hnext
      refine Or.inr ⟨_, ha, hlt, ?_⟩
      simp only [he, Exit.lastReading]
      exact hnext
  | finished t result sent clock hp hd hu hc hw => exact Or.inl ⟨rfl, hk.mono hc⟩
  | _ => exact Or.inl ⟨rfl, hk⟩

theorem spaced_first (hI : 0 < I) (h : LoopStep socketV4 socketV6 s r) (hs : Awake I s) (k : Int64) :
    services k r.2.events = [] ∨
      ∃ a, services k r.2.events = [a] ∧ r.1.manager.Spaced k (a.nanos - I) r.1.clock := by
  cases h with
  | request request =>
    apply Or.inl
    cases request <;> rfl
  | processed t u hp ht hu =>
    have hpos := hs.clock_pos
    rcases services_process k t u (s.manager.processNextLocked {} t u).2 with
      ⟨hno, -⟩ | ⟨due, he, ha⟩
    · exact Or.inl hno
    · have hnext := Manager.process_spaced_first (s.manager.processNextLocked_step {} t u)
        (hs.interval ▸ hI) hu (by omega) hs.deadline_nonneg he
      rw [hs.interval] at hnext
      refine Or.inr ⟨_, ha, ?_⟩
      simp only [he, Exit.lastReading]
      exact hnext
  | _ => exact Or.inl rfl

end Run

theorem loop_services (socketV4 socketV6 : SocketT) (s : Loop) (op : LoopOp) (ops : List LoopOp)
    (k : Int64) :
    services k (clientEvents ((loop socketV4 socketV6).trace s (op :: ops))) =
      services k ((loop socketV4 socketV6).step s op).2.events ++
        services k (clientEvents
          ((loop socketV4 socketV6).trace ((loop socketV4 socketV6).step s op).1 ops)) :=
  List.filterMap_append

section Trace
variable {socketV4 socketV6 : SocketT} {I : Int} (hI : 0 < I) {k : Int64}
include hI

theorem spaced_run {s : Loop} (hs : Awake I s) {bound : Int} (hk : s.manager.Spaced k bound s.clock)
    (ops : List LoopOp) (j : Nat) (b : Service)
    (hb : (services k (clientEvents ((loop socketV4 socketV6).trace s ops)))[j]? = some b) :
    bound + j * (I - 1500000) - 1500000 < b.currentTime := by
  induction ops generalizing s bound j with
  | nil => simp [services, clientEvents] at hb
  | cons op ops ih =>
    have hstep := loop_step socketV4 socketV6 s op
    have hnext := awake_step hI hstep hs
    rw [loop_services] at hb
    rcases spaced_step hI hstep hs hk with ⟨hno, hk'⟩ | ⟨a, ha, hlt, hk'⟩
    · rw [hno, List.nil_append] at hb
      exact ih hnext hk' j hb
    · rw [ha, List.singleton_append] at hb
      cases j with
      | zero =>
        obtain rfl : a = b := by simpa using hb
        simpa using hlt
      | succ j =>
        have hrest := ih hnext hk' j (by simpa using hb)
        push_cast
        linarith

theorem spaced_between {s : Loop} (hs : Awake I s) (ops : List LoopOp) (n j : Nat) (a b : Service)
    (ha : (services k (clientEvents ((loop socketV4 socketV6).trace s ops)))[n]? = some a)
    (hb : (services k (clientEvents ((loop socketV4 socketV6).trace s ops)))[n + (j + 1)]? = some b) :
    a.nanos - I + j * (I - 1500000) - 1500000 < b.currentTime := by
  induction ops generalizing s n with
  | nil => simp [services, clientEvents] at hb
  | cons op ops ih =>
    have hstep := loop_step socketV4 socketV6 s op
    have hnext := awake_step hI hstep hs
    rw [loop_services] at ha hb
    rcases spaced_first hI hstep hs k with hno | ⟨c, hc, hk⟩
    · rw [hno, List.nil_append] at ha hb
      exact ih hnext n ha hb
    · rw [hc, List.singleton_append] at ha hb
      cases n with
      | zero =>
        obtain rfl : c = a := by simpa using ha
        exact spaced_run hI hnext hk ops j b (by simpa using hb)
      | succ n =>
        apply ih hnext n (by simpa using ha)
        rwa [Nat.add_right_comm, List.getElem?_cons_succ] at hb

end Trace

theorem rate_limit (socketV4 socketV6 : SocketT) (C : SizeT) (I clock : Int) (hI : 0 < I)
    (hclock : 0 < clock) (ops : List LoopOp) (k : Int64) :
    let popped := services k (clientEvents ((loop socketV4 socketV6).trace (.create C I clock) ops))
    ∀ (n j : Nat) (a b : Service), 1 ≤ j → popped[n]? = some a → popped[n + j]? = some b →
      b.currentTime > a.nanos + (j - 2) * I - j * 1500000 := by
  intro popped n j a b hj ha hb
  obtain ⟨i, rfl⟩ := Nat.exists_eq_add_of_le' hj
  have h := spaced_between hI (awake_create C I hclock) ops n i a b ha hb
  push_cast
  linarith

theorem rate_limit_recreated :
    let popped := services 1 (clientEvents ((loop 3 4).trace (.create 4 20000000 1)
      [.request (.push (samplePush 1 [1])), .processNext 0 0, .finish 0, .processNext 0 0, .finish 0,
        .request (.push (samplePush 1 [2])), .processNext 0 0]))
    ∃ a b, popped[0]? = some a ∧ popped[1]? = some b ∧
      b.currentTime > a.nanos + (1 - 2) * 20000000 - 1 * 1500000 := by
  intro popped
  have ha : popped[0]? = some { currentTime := 1, due := 1, nanos := 1 } := by decide +kernel
  have hb : popped[0 + 1]? = some { currentTime := 40000001, due := 40000001, nanos := 40000001 } := by
    decide +kernel
  exact ⟨_, _, ha, hb, rate_limit 3 4 4 20000000 1 (by decide) (by decide) _ 1 0 1 _ _ le_rfl ha hb⟩

end UdpQueue
