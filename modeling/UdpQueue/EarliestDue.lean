import UdpQueue.Deadline
import UdpQueue.Rotation

namespace UdpQueue
open RoundRobin

structure Service where
  currentTime : Int
  due : Int
  nanos : Int
deriving DecidableEq

def Service.lateness (I : Int) (s : Service) : Int :=
  if s.nanos - s.due ≥ 2 * I then 0 else max 0 (s.currentTime - s.due)

namespace Event

def service (k : Int64) : Event → Option Service
  | .process currentTime nanos ⟨_, _, .popped key due, _⟩ =>
    if key = k then some { currentTime, due, nanos } else none
  | _ => none

def readings : Event → List Int
  | .process currentTime nanos ⟨_, _, .popped _ _, _⟩ => [currentTime, nanos]
  | .process currentTime _ _ => [currentTime]
  | _ => []

end Event

theorem Event.service_popped (k key : Int64) (t u due target : Int) (packetOut : Unsent)
    (freed : List AddrInfo) :
    Event.service k (.process t u ⟨packetOut, target, .popped key due, freed⟩) =
      if key = k then some { currentTime := t, due, nanos := u } else none := rfl

def services (k : Int64) (tr : List Event) : List Service := tr.filterMap (Event.service k)
def lastService (k : Int64) : List Event → Option Service := latest (Event.service k)
def readings (tr : List Event) : List Int := tr.flatMap Event.readings
def Clocked (tr : List Event) : Prop :=
  (readings tr).Pairwise (· ≤ ·) ∧ ∀ reading ∈ readings tr, 0 < reading

theorem lastService_snoc (k : Int64) (tr : List Event) (e : Event) :
    lastService k (tr ++ [e]) = (e.service k).or (lastService k tr) :=
  latest_snoc _ tr e

theorem readings_snoc (tr : List Event) (e : Event) :
    readings (tr ++ [e]) = readings tr ++ e.readings := by
  simp [readings]

def Service.InTime (s : Service) (past : List Int) : Prop :=
  0 < s.due ∧ s.due - s.currentTime < 1500000 ∧ s.currentTime ≤ s.nanos ∧ s.nanos ∈ past

def ServedBefore (m : Manager) (tr : List Event) (i j : Int64) : Prop :=
  m.deadline i ≠ 0 → m.deadline j ≠ 0 →
    ∀ a b, lastService i tr = some a → lastService j tr = some b → a.nanos ≤ b.currentTime

structure Scheduled (m : Manager) (tr : List Event) : Prop where
  served : ∀ k, m.deadline k ≠ 0 → ∃ s, lastService k tr = some s ∧
    m.deadline k = m.nextDue s.due s.nanos ∧ s.InTime (readings tr)
  ordered : m.queues.keys.Pairwise (ServedBefore m tr)

theorem service_eq_none {k : Int64} {e : Event} (h : e.move ≠ .serve k) : e.service k = none := by
  rcases e with _ | _ | _ | _ | ⟨t, u, ⟨_, _, _ | _ | _ | ⟨key, due⟩, _⟩⟩ <;> try rfl
  exact if_neg (fun hk => h (congrArg Move.serve hk))

theorem service_of_serve {k : Int64} {e : Event} (h : e.move = .serve k) :
    ∃ s, e.service k = some s ∧ e.readings = [s.currentTime, s.nanos] := by
  rcases e with ⟨_, _, _ | _, _⟩ | _ | _ | _ | ⟨t, u, ⟨_, _, _ | _ | _ | ⟨key, due⟩, _⟩⟩ <;>
    try cases h
  exact ⟨⟨t, due, u⟩, if_pos rfl, rfl⟩

theorem client_deadline {m : Manager} {op : Op} {k : Int64} (h : (client.out m op).move ≠ .serve k)
    (hk : (client.next m op).deadline k ≠ 0) : (client.next m op).deadline k = m.deadline k := by
  cases op with
  | push call => exact m.pushLocked_deadline call k
  | remove key => exact m.remove_deadline key k
  | getRemainingCapacity key => rfl
  | shutDown => rfl
  | processNext t u =>
    have hd := Manager.process_deadline (m.processNextLocked_step {} t u) k
    change (m.processNextLocked {} t u).1.deadline k ≠ 0 at hk
    change Exit.move (m.processNextLocked {} t u).2.exit ≠ .serve k at h
    change (m.processNextLocked {} t u).1.deadline k = _
    generalize (m.processNextLocked {} t u).2.exit = exit at hd h
    cases exit with
    | erased key =>
      simp only [] at hd
      split_ifs at hd
      · exact absurd hd hk
      · exact hd
    | popped key due =>
      simp only [] at hd
      split_ifs at hd with hc
      · exact absurd (congrArg Move.serve hc.symm) h
      · exact hd
    | _ => exact hd

theorem client_service {m : Manager} {op : Op} {k : Int64} {s : Service}
    (h : (client.out m op).service k = some s) :
    (client.next m op).deadline k = m.nextDue s.due s.nanos ∧
      (s.due = s.currentTime ∨
        m.deadline k ≠ 0 ∧ s.due = m.deadline k ∧ s.due - s.currentTime < 1500000) := by
  cases op with
  | processNext t u =>
    have hs := m.processNextLocked_step {} t u
    have hd := Manager.process_deadline hs k
    have hp := @Manager.process_popped _ _ _ _ _ hs k
    change Event.service k (.process t u (m.processNextLocked {} t u).2) = some s at h
    change (m.processNextLocked {} t u).1.deadline k = _ ∧ _
    generalize (m.processNextLocked {} t u).1.deadline k = after at hd
    generalize (m.processNextLocked {} t u).2 = result at hd hp h
    rcases result with ⟨_, _, _ | _ | _ | ⟨key, due⟩, _⟩ <;> simp only [Event.service] at h
    all_goals try cases h
    split_ifs at h with hc
    cases h
    simp only [hc, if_true] at hd
    refine ⟨hd, ?_⟩
    exact (hp (congrArg (Exit.popped · due) hc)).imp And.right id
  | _ => cases h

theorem nextDue_next (m : Manager) (op : Op) (due nanos : Int) :
    (client.next m op).nextDue due nanos = m.nextDue due nanos := by
  rw [Manager.nextDue, Manager.nextDue, (client_frame m op).interval]

theorem deadline_step {m : Manager} {op : Op} {k : Int64} (hk : (client.next m op).deadline k ≠ 0) :
    (∃ s, (client.out m op).service k = some s ∧
      (client.out m op).readings = [s.currentTime, s.nanos] ∧
      (client.next m op).deadline k = (client.next m op).nextDue s.due s.nanos ∧
      (s.due = s.currentTime ∨
        m.deadline k ≠ 0 ∧ s.due = m.deadline k ∧ s.due - s.currentTime < 1500000)) ∨
    (client.out m op).service k = none ∧ (client.next m op).deadline k = m.deadline k := by
  rcases eq_or_ne (client.out m op).move (.serve k) with hv | hv
  · obtain ⟨s, hs, hr⟩ := service_of_serve hv
    obtain ⟨hd, hdue⟩ := client_service hs
    exact Or.inl ⟨s, hs, hr, hd.trans (nextDue_next m op _ _).symm, hdue⟩
  · exact Or.inr ⟨service_eq_none hv, client_deadline hv hk⟩

instance (tr : List Event) : Decidable (Clocked tr) := inferInstanceAs (Decidable (_ ∧ _))

theorem Clocked.init {tr : List Event} {e : Event} (h : Clocked (tr ++ [e])) : Clocked tr := by
  rw [Clocked, readings_snoc] at h
  exact ⟨(List.pairwise_append.mp h.1).1, fun x hx => h.2 x (List.mem_append_left _ hx)⟩

theorem scheduled_create (C : SizeT) (I : Int) : Scheduled (.create C I) [] := by
  refine ⟨fun k hk => absurd ?_ hk, List.Pairwise.nil⟩
  exact Manager.create_deadline C I k

section Lateness
variable {m : Manager} (hI : 0 < m.packetInterval) {a b : Service} {past : List Int}
include hI

theorem nextDue_pos (hb : b.InTime past) : 0 < m.nextDue b.due b.nanos := by
  obtain ⟨hpos, -, -, -⟩ := hb
  rw [Manager.nextDue]
  split_ifs <;> omega

theorem lateness_lt (hb : b.InTime past) : b.lateness m.packetInterval < 2 * m.packetInterval := by
  obtain ⟨-, -, hle, -⟩ := hb
  rw [Service.lateness]
  split_ifs <;> omega

omit hI in
theorem lateness_nonneg : 0 ≤ b.lateness m.packetInterval := by
  rw [Service.lateness]
  split_ifs <;> omega

omit hI in
theorem nextDue_le (ha : a.InTime past) (hb : b.InTime past) (hab : a.nanos ≤ b.currentTime) :
    m.nextDue a.due a.nanos ≤
      m.nextDue b.due b.nanos + 1500000 + b.lateness m.packetInterval := by
  obtain ⟨-, haearly, hale, -⟩ := ha
  obtain ⟨-, hbearly, hble, -⟩ := hb
  simp only [Manager.nextDue, Service.lateness]
  split_ifs <;> omega

end Lateness

section Step
variable {m : Manager} {tr : List Event} {op : Op} (h : Scheduled m tr)
variable (hclock : Clocked (tr ++ [client.out m op]))
include h hclock

theorem served_step (hI : 0 < m.packetInterval) {k : Int64} (hk : (client.next m op).deadline k ≠ 0) :
    ∃ s, lastService k (tr ++ [client.out m op]) = some s ∧
      (client.next m op).deadline k = (client.next m op).nextDue s.due s.nanos ∧
      s.InTime (readings (tr ++ [client.out m op])) := by
  obtain ⟨hmono, hpos⟩ := hclock
  rw [readings_snoc] at hmono hpos
  obtain ⟨-, hnew, -⟩ := List.pairwise_append.mp hmono
  rw [lastService_snoc, readings_snoc]
  rcases deadline_step hk with ⟨s, hs, hr, hd, hdue⟩ | ⟨hs, hd⟩
  · have ht : 0 < s.currentTime := hpos _ (by simp [hr])
    rw [hr] at hnew
    refine ⟨s, by rw [hs, Option.some_or], hd, ?_, ?_, ?_, ?_⟩
    · rcases hdue with hdue | ⟨hne, hdue, -⟩
      · omega
      · obtain ⟨s', -, hd', hs'⟩ := h.served k hne
        rw [hdue, hd']
        exact nextDue_pos hI hs'
    · rcases hdue with hdue | ⟨-, -, hearly⟩
      · omega
      · exact hearly
    · exact (List.pairwise_cons.mp hnew).1 _ (List.mem_singleton_self _)
    · simp [hr]
  · obtain ⟨s, hlast, hdue, hduepos, hearly, hle, hmem⟩ := h.served k (hd ▸ hk)
    refine ⟨s, by rw [hs, Option.none_or, hlast], by rw [hd, hdue, nextDue_next], ?_⟩
    exact ⟨hduepos, hearly, hle, List.mem_append_left _ hmem⟩

theorem ordered_step :
    (client.next m op).queues.keys.Pairwise
      (ServedBefore (client.next m op) (tr ++ [client.out m op])) := by
  have hmono := hclock.1
  rw [readings_snoc] at hmono
  obtain ⟨-, -, hpast⟩ := List.pairwise_append.mp hmono
  apply turn_pairwise (client_turn m op) (AList.keys_nodup _) h.ordered
  · intro i j hi hj hord hdi hdj a b ha hb
    rw [lastService_snoc, service_eq_none hi, Option.none_or] at ha
    rw [lastService_snoc, service_eq_none hj, Option.none_or] at hb
    exact hord (client_deadline hi hdi ▸ hdi) (client_deadline hj hdj ▸ hdj) a b ha hb
  · intro i k hv hk hdi hdk
    have hne : (client.out m op).move ≠ .serve k := by simp [hv]
    exact absurd (client_deadline hne hdk ▸ Manager.deadline_of_notMem hk) hdk
  · intro i k hv hik hdi hdk a b ha hb
    have hi : (client.out m op).move ≠ .serve i := by simp [hv, Ne.symm hik]
    obtain ⟨s, hs, hr⟩ := service_of_serve hv
    rw [lastService_snoc, service_eq_none hi, Option.none_or] at ha
    rw [lastService_snoc, hs, Option.some_or, Option.some.injEq] at hb
    obtain ⟨a', ha', -, -, -, -, hmem⟩ := h.served i (client_deadline hi hdi ▸ hdi)
    obtain rfl : a' = a := Option.some.inj (ha'.symm.trans ha)
    subst hb
    exact hpast _ hmem _ (by simp [hr])

theorem scheduled_step (hI : 0 < m.packetInterval) :
    Scheduled (client.next m op) (tr ++ [client.out m op]) :=
  ⟨fun _ hk => served_step h hclock hI hk, ordered_step h hclock⟩

end Step

theorem recorded_run (C : SizeT) (I : Int) (ops : List Op) (k : Int64)
    (hk : (client.run (.create C I) ops).deadline k ≠ 0) :
    ∃ s, lastService k (client.trace (.create C I) ops) = some s ∧
      (client.run (.create C I) ops).deadline k =
        (client.run (.create C I) ops).nextDue s.due s.nanos ∧
      s.due - s.currentTime < 1500000 := by
  refine Machine.history client (P := fun m tr => ∀ k, m.deadline k ≠ 0 →
    ∃ s, lastService k tr = some s ∧ m.deadline k = m.nextDue s.due s.nanos ∧
      s.due - s.currentTime < 1500000) ?_ ?_ ops k hk
  · intro m tr op ih k hk
    rw [lastService_snoc]
    rcases deadline_step hk with ⟨s, hs, -, hd, hdue⟩ | ⟨hs, hd⟩
    · refine ⟨s, by rw [hs, Option.some_or], hd, ?_⟩
      rcases hdue with hdue | ⟨-, -, hearly⟩
      · omega
      · exact hearly
    · obtain ⟨s, hlast, hdue, hearly⟩ := ih k (hd ▸ hk)
      exact ⟨s, by rw [hs, Option.none_or, hlast], by rw [hd, hdue, nextDue_next], hearly⟩
  · intro k hk
    exact absurd (Manager.create_deadline C I k) hk

theorem scheduled_run (C : SizeT) {I : Int} (hI : 0 < I) (ops : List Op)
    (hclock : Clocked (client.trace (.create C I) ops)) :
    Scheduled (client.run (.create C I) ops) (client.trace (.create C I) ops) := by
  refine (Machine.history client (P := fun m tr => m.packetInterval = I ∧
    (Clocked tr → Scheduled m tr)) ?_ ⟨rfl, fun _ => scheduled_create C I⟩ ops).2 hclock
  rintro m tr op ⟨hm, ih⟩
  refine ⟨(client_frame m op).interval.trans hm, fun hnext => ?_⟩
  exact scheduled_step (ih hnext.init) hnext (hm.symm ▸ hI)

theorem Scheduled.frontDue_le {m : Manager} (hI : 0 < m.packetInterval) {tr : List Event}
    (h : Scheduled m tr) {k : Int64} (hk : k ∈ m.queues) (hd : m.deadline k ≠ 0) :
    ∃ s, lastService k tr = some s ∧ s.lateness m.packetInterval < 2 * m.packetInterval ∧
      m.frontDue ≤ m.deadline k + 1500000 + s.lateness m.packetInterval := by
  obtain ⟨s, hs, hdue, htime⟩ := h.served k hd
  have hlate := lateness_nonneg (m := m) (b := s)
  have hpos := nextDue_pos hI htime
  refine ⟨s, hs, lateness_lt hI htime, ?_⟩
  have hord := h.ordered
  have hmem : k ∈ m.queues.keys := hk
  cases hks : m.queues.keys with
  | nil => simp [hks] at hmem
  | cons front ks =>
    rw [hks] at hord hmem
    rw [Manager.frontDue_of_keys hks]
    rcases eq_or_ne (m.deadline front) 0 with hz | hz
    · omega
    · rcases List.mem_cons.mp hmem with rfl | hmem
      · omega
      · obtain ⟨a, ha, hadue, hatime⟩ := h.served front hz
        have hab := (List.pairwise_cons.mp hord).1 k hmem hz hd a s ha hs
        rw [hadue, hdue]
        exact nextDue_le hatime htime hab

theorem target_within_lateness (C : SizeT) (I : Int) (ops : List Op) (t u : Int) (hI : 0 < I) :
    let r := (client.run (.create C I) ops).processNextLocked {} t u
    let tr := client.trace (.create C I) (ops ++ [.processNext t u])
    Clocked tr → ∀ k item, r.1.queues.lookup k = some item → item.nextDueTime ≠ 0 →
      ∃ s, lastService k tr = some s ∧ s.lateness I < 2 * I ∧
        item.nextDueTime ≥ r.2.targetTime - 1500000 - s.lateness I := by
  intro r tr hclock k item hl hd
  have hrun : client.run (.create C I) (ops ++ [.processNext t u]) = r.1 := Machine.run_append ..
  have hs := scheduled_run C hI (ops ++ [.processNext t u]) hclock
  have hinterval := reachable_interval C I (ops ++ [.processNext t u])
  rw [hrun] at hs hinterval
  have hk : k ∈ r.1.queues := AList.lookup_isSome.mp (by simp [hl])
  have hdl := Manager.deadline_of_lookup hl
  have ht : r.2.targetTime = r.1.frontDue :=
    Manager.process_target (Manager.processNextLocked_step _ {} t u) hk
  obtain ⟨s, hsome, hlt, hle⟩ := hs.frontDue_le (hinterval ▸ hI) hk (hdl ▸ hd)
  rw [hinterval] at hlt hle
  exact ⟨s, hsome, hlt, by rw [ht]; omega⟩

def lateBacklog : List Op :=
  [.push (samplePush 1 [1]), .processNext 1 1, .push (samplePush 1 [2]), .push (samplePush 1 [3]),
    .push (samplePush 1 [4]), .push (samplePush 2 [5]), .push (samplePush 2 [6]),
    .processNext 59000000 59000000, .processNext 59000000 59000000]

def lateQueue : Option Item :=
  ((client.run (.create 4 20000000) lateBacklog).processNextLocked {} 59000000 59000000).1.queues.lookup 1

theorem lateQueue_due : lateQueue.map (fun item => (item.nextDueTime, item.buffer.size)) =
    some (60000001, 1) := by
  decide +kernel

theorem target_within_lateness_catching_up :
    ∃ item s, lateQueue = some item ∧
      lastService 1 (client.trace (.create 4 20000000)
        (lateBacklog ++ [.processNext 59000000 59000000])) = some s ∧
      s.lateness 20000000 < 40000000 ∧
      item.nextDueTime ≥ 79000000 - 1500000 - s.lateness 20000000 := by
  obtain ⟨item, hl, hi⟩ := Option.map_eq_some_iff.mp lateQueue_due
  have hd : item.nextDueTime ≠ 0 := by simp [(Prod.mk.inj hi).1]
  obtain ⟨s, hs, hlt, hle⟩ := target_within_lateness 4 20000000 lateBacklog 59000000 59000000
    (by decide) (by decide +kernel) 1 item hl hd
  exact ⟨item, s, hl, hs, hlt, hle⟩

theorem target_not_earliest :
    ¬ ∀ (C : SizeT) (I : Int) (ops : List Op) (t u : Int), 0 < I →
      let r := (client.run (.create C I) ops).processNextLocked {} t u
      Clocked (client.trace (.create C I) (ops ++ [.processNext t u])) →
      ∀ k item, r.1.queues.lookup k = some item → 0 < item.buffer.size → item.nextDueTime ≠ 0 →
        item.nextDueTime ≥ r.2.targetTime - 1500000 := by
  intro h
  obtain ⟨item, hl, hi⟩ := Option.map_eq_some_iff.mp lateQueue_due
  obtain ⟨hdue, hsize⟩ := Prod.mk.inj hi
  have ht : ((client.run (.create 4 20000000) lateBacklog).processNextLocked {} 59000000
      59000000).2.targetTime = 79000000 := by decide +kernel
  have hle := h 4 20000000 lateBacklog 59000000 59000000 (by decide) (by decide +kernel) 1 item hl
    (by rw [hsize]; decide) (by rw [hdue]; decide)
  rw [ht, hdue] at hle
  omega

end UdpQueue
