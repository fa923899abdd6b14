import UdpQueue.Callers
import UdpQueue.Dispatch
import UdpQueue.RateLimit

namespace UdpQueue

-- a service sets the deadline to its base plus one interval
def Service.base (I : Int) (s : Service) : Int := if s.nanos - s.due ≥ 2 * I then s.nanos else s.due

theorem nextDue_base (m : Manager) (s : Service) :
    m.nextDue s.due s.nanos = s.base m.packetInterval + m.packetInterval := by
  rw [Manager.nextDue, Service.base]
  split_ifs <;> rfl

-- the reading a wait is computed from, against the two readings of a pop before it
def CaughtUp (now currentTime nanos : Int) : Prop := currentTime ≤ now + 1 ∧ nanos ≤ now + 1500000

instance (now currentTime nanos : Int) : Decidable (CaughtUp now currentTime nanos) :=
  inferInstanceAs (Decidable (_ ∧ _))

namespace Manager

def Aimed (m : Manager) (currentTime : Int) (result : Processed) : Prop :=
  result.targetTime = m.frontDue ∨
    m.frontDue = 0 ∧ result.targetTime = currentTime + m.packetInterval ∧
      result.packetOut.packet.data = []

theorem getTargetTime_of_empty {m : Manager} (h : m.queues.keys = []) (currentTime : Int) :
    m.getTargetTime currentTime = currentTime + m.packetInterval := by
  rw [getTargetTime, OrderedMap.front_eq_none.mpr h]

theorem process_aimed {m : Manager} {t u : Int} {r : Manager × Processed}
    (h : ProcessStep m {} t u r) : r.1.Aimed t r.2 := by
  cases hk : r.1.queues.keys with
  | cons k ks => exact Or.inl (process_target_of_keys h hk)
  | nil =>
    refine Or.inr ⟨frontDue_of_empty hk, ?_⟩
    cases h with
    | idle hf => exact ⟨rfl, rfl⟩
    | erased key item hf hs => exact ⟨getTargetTime_of_empty hk t, rfl⟩
    | waiting key item hf hs hd hw => exact absurd ((OrderedMap.front_keys hf).symm.trans hk) nofun
    | popped key item due hf hs hd =>
      rw [serve_keys] at hk
      exact absurd hk (by simp)

theorem request_aimed {m : Manager} {t : Int} {result : Processed} (h : m.Aimed t result)
    (request : Request) : (client.next m request.op).Aimed t result := by
  rw [Aimed, request_frontDue, (client_frame m request.op).interval]
  exact h

def Punctual (m : Manager) (tr : List Event) (reading : Int) : Prop :=
  ∀ k s, m.queues.keys.head? = some k → m.deadline k ≠ 0 → lastService k tr = some s →
    s.base m.packetInterval - reading ≤ 1500000

-- the readings of the clock by the pop that gave the front queue its deadline
def FrontRead (m : Manager) (tr : List Event) (P : Int → Int → Prop) : Prop :=
  ∀ k s, m.queues.keys.head? = some k → m.deadline k ≠ 0 → lastService k tr = some s →
    P s.currentTime s.nanos

-- a pop is made less than 1.5 ms before it is due
theorem punctual_of_read {m : Manager} {tr : List Event} {now : Int}
    (hrec : ∀ k, m.deadline k ≠ 0 → ∃ s, lastService k tr = some s ∧
      s.due - s.currentTime < 1500000)
    (h : m.FrontRead tr (CaughtUp now)) : m.Punctual tr now := by
  intro k s hk hne hs
  obtain ⟨ht, hu⟩ := h k s hk hne hs
  obtain ⟨s', hs', hearly⟩ := hrec k hne
  obtain rfl := Option.some.inj (hs.symm.trans hs')
  rw [Service.base]
  split_ifs <;> omega

theorem read_of_punctual {m : Manager} {tr : List Event} {now : Int} (hI : 0 ≤ m.packetInterval)
    (h : m.Punctual tr now) :
    m.FrontRead tr fun _ nanos => nanos ≤ now + 2 * m.packetInterval + 1500000 := by
  intro k s hk hne hs
  have hbase := h k s hk hne hs
  rw [Service.base] at hbase
  split_ifs at hbase <;> omega

end Manager

def CallerEvent.readings {Call : Type} : CallerEvent Call → List Int
  | .processed _ currentTime nanos result => Event.readings (.process currentTime nanos result)
  | .finished _ (.sent _) currentTime _ => [currentTime]
  | _ => []

def CallerEvent.slept {Call : Type} : CallerEvent Call → Option Int
  | .finished _ _ _ slept => slept
  | _ => none

def callerReadings {Call : Type} (tr : List (CallerEvent Call)) : List Int :=
  tr.flatMap CallerEvent.readings

def sleeps {Call : Type} (tr : List (CallerEvent Call)) : List Int :=
  tr.filterMap CallerEvent.slept

theorem mem_process_readings (t u : Int) (result : Processed) :
    t ∈ Event.readings (.process t u result) := by
  rcases result with ⟨_, _, _ | _ | _ | ⟨key, due⟩, _⟩ <;> exact List.mem_cons_self

theorem sleep_iff {I reading base target : Int} (hI : 0 ≤ I) (ht : target = base + I) :
    (∀ d, sleepTime target reading = some d → d ≤ I + 1500000) ↔ base - reading ≤ 1500000 := by
  rw [sleepTime]
  split_ifs with hw
  · simp only [Option.some.injEq, forall_eq']
    omega
  · simp only [false_implies, implies_true, true_iff]
    omega

theorem punctual_iff {m : Manager} {tr : List Event} {t reading : Int} {result : Processed}
    (hI : 0 ≤ m.packetInterval) (hpos : 0 < reading) (ha : m.Aimed t result)
    (ht : result.packetOut.packet.data = [] → reading = t)
    (hrec : ∀ k, m.deadline k ≠ 0 → ∃ s, lastService k tr = some s ∧
      m.deadline k = m.nextDue s.due s.nanos) :
    (∀ d, sleepTime result.targetTime reading = some d → d ≤ m.packetInterval + 1500000) ↔
      m.Punctual tr reading := by
  rcases eq_or_ne m.frontDue 0 with hz | hz
  · apply iff_of_true
    · intro d hd
      rw [sleepTime] at hd
      split_ifs at hd with hw
      obtain rfl := Option.some.inj hd
      rcases ha with htarget | ⟨-, htarget, hempty⟩
      · omega
      · have := ht hempty
        omega
    · intro k s hk hne
      rw [Manager.frontDue, hk] at hz
      exact absurd hz hne
  · cases hks : m.queues.keys with
    | nil => exact absurd (Manager.frontDue_of_empty hks) hz
    | cons k ks =>
      have hfront := Manager.frontDue_of_keys hks
      obtain ⟨s, hs, hdue⟩ := hrec k (hfront ▸ hz)
      have htarget : result.targetTime = s.base m.packetInterval + m.packetInterval := by
        rcases ha with htarget | ⟨hzero, -⟩
        · rw [htarget, hfront, hdue, nextDue_base]
        · exact absurd hzero hz
      rw [sleep_iff hI htarget]
      constructor
      · intro hle j s' hj _ hs'
        rw [hks, List.head?_cons, Option.some.injEq] at hj
        subst hj
        obtain rfl := Option.some.inj (hs.symm.trans hs')
        exact hle
      · intro h
        exact h k s (by rw [hks, List.head?_cons]) (hfront ▸ hz) hs

namespace Callers
variable {Call : Type}

inductive WaitsFrom (socketV4 socketV6 : Call → SocketT) (s : Callers Call) (c : Call)
    (reading : Int) : Int → Prop
  | skipped (t : Int) (result : Processed) (hp : s.phase c = some (.sending t result))
      (hd : dispatched (socketV4 c) (socketV6 c) result.packetOut = .skipped) :
      WaitsFrom socketV4 socketV6 s c reading t
  | sent (t : Int) (result : Processed) (call : Sendto) (hp : s.phase c = some (.sending t result))
      (hd : dispatched (socketV4 c) (socketV6 c) result.packetOut = .sent call) :
      WaitsFrom socketV4 socketV6 s c reading reading

structure Steady (I : Int) (s : Callers Call) : Prop where
  interval : s.manager.packetInterval = I
  exclusive : s.Exclusive
  aimed : ∀ c t result, s.phase c = some (.sending t result) → 0 < t ∧ s.manager.Aimed t result

theorem create_steady (C : SizeT) (I : Int) : (create C I : Callers Call).Steady I :=
  ⟨rfl, create_exclusive C I, nofun⟩

section Step
variable [DecidableEq Call] {socketV4 socketV6 : Call → SocketT} {I : Int} {s : Callers Call}
variable {r : Callers Call × CallerEvent Call}

theorem caller_interval (h : CallerStep socketV4 socketV6 s r) :
    r.1.manager.packetInterval = s.manager.packetInterval := by
  cases h with
  | request request => exact (client_frame _ _).interval
  | processed c t u hp => exact (client_frame _ _).interval
  | _ => rfl

theorem steady_step (h : CallerStep socketV4 socketV6 s r) (hs : s.Steady I)
    (hpos : ∀ reading ∈ r.2.readings, 0 < reading) : r.1.Steady I := by
  refine ⟨(caller_interval h).trans hs.interval, exclusive_step h hs.exclusive, ?_⟩
  intro c t result hc
  rcases sending_came h hs.exclusive hc with ⟨hc, hreq⟩ | ⟨u, he, rfl, hm⟩
  · obtain ⟨ht, ha⟩ := hs.aimed c t result hc
    refine ⟨ht, ?_⟩
    rcases hreq with ⟨hm, -⟩ | ⟨request, hm, -⟩
    · rwa [hm]
    · rw [hm]
      exact Manager.request_aimed ha request
  · rw [he] at hpos
    rw [hm]
    exact ⟨hpos t (mem_process_readings t u _),
      Manager.process_aimed (s.manager.processNextLocked_step {} t u)⟩

theorem out_of_waits {c : Call} {reading current : Int}
    (h : WaitsFrom socketV4 socketV6 s c reading current) :
    ∃ t result sent, s.phase c = some (.sending t result) ∧
      (result.packetOut.packet.data = [] → current = t) ∧
      ((callers socketV4 socketV6).step s (.finish c reading)).2 =
        .finished c sent current (sleepTime result.targetTime current) ∧
      (current = t ∨ ∃ call, sent = .sent call) := by
  cases h with
  | skipped t result hp hd =>
    refine ⟨_, result, .skipped, hp, fun _ => rfl, ?_, Or.inl rfl⟩
    rw [finish_of_sending socketV4 socketV6 hp hd nofun]
    rfl
  | sent t result call hp hd =>
    refine ⟨t, result, .sent call, hp, fun hempty => ?_, ?_, Or.inr ⟨call, rfl⟩⟩
    · exact absurd (hd.symm.trans (dispatched_of_empty _ _ hempty)) nofun
    · rw [finish_of_sending socketV4 socketV6 hp hd nofun]
      rfl

omit [DecidableEq Call] in
theorem finished_of_slept {e : CallerEvent Call} {d : Int} (h : e.slept = some d) :
    ∃ c sent current, e = .finished c sent current (some d) := by
  cases e with
  | finished c sent current slept => exact ⟨c, sent, current, by rw [← h]; rfl⟩
  | _ => cases h

theorem waits_of_slept {op : CallerOp Call} {d : Int}
    (h : ((callers socketV4 socketV6).step s op).2.slept = some d) :
    ∃ c reading current, op = .finish c reading ∧
      WaitsFrom socketV4 socketV6 s c reading current := by
  obtain ⟨c, sent, current, hout⟩ := finished_of_slept h
  obtain ⟨reading, rfl⟩ := finished_op socketV4 socketV6 hout
  refine ⟨c, reading, current, rfl, ?_⟩
  have hstep := caller_step socketV4 socketV6 s (.finish c reading)
  generalize hr : (callers socketV4 socketV6).step s (.finish c reading) = r at hstep hout
  cases hstep with
  | finished c' t reading' current' result sent' hp hd hu hc =>
    obtain ⟨rfl, rfl, rfl, -⟩ := CallerEvent.finished.inj hout
    have hfin := (finish_of_sending socketV4 socketV6 hp hd hu reading).symm.trans hr
    obtain ⟨-, -, hcur, -⟩ := CallerEvent.finished.inj (congrArg Prod.snd hfin)
    rw [← hcur]
    cases sent' with
    | undefined => exact absurd rfl hu
    | skipped => exact .skipped t result hp hd
    | sent call => exact .sent t result call hp hd
  | _ => cases hout

theorem wait_iff (hs : s.Steady I) (hI : 0 ≤ I) {tr : List Event}
    (hrec : ∀ k, s.manager.deadline k ≠ 0 → ∃ a, lastService k tr = some a ∧
      s.manager.deadline k = s.manager.nextDue a.due a.nanos) {c : Call} {reading current : Int}
    (hw : WaitsFrom socketV4 socketV6 s c reading current)
    (hpos : ∀ x ∈ ((callers socketV4 socketV6).step s (.finish c reading)).2.readings, 0 < x) :
    (∀ d, ((callers socketV4 socketV6).step s (.finish c reading)).2.slept = some d →
      d ≤ I + 1500000) ↔ s.manager.Punctual tr current := by
  obtain ⟨rfl, hex, haimed⟩ := hs
  obtain ⟨t, result, sent, hp, hempty, hout, hcur⟩ := out_of_waits hw
  obtain ⟨ht, ha⟩ := haimed c t result hp
  have hcurrent : 0 < current := by
    rcases hcur with rfl | ⟨call, rfl⟩
    · exact ht
    · rw [hout] at hpos
      exact hpos current List.mem_cons_self
  rw [hout]
  exact punctual_iff hI hcurrent ha hempty hrec

end Step

end Callers

section Run
variable {Call : Type} [DecidableEq Call] {socketV4 socketV6 : Call → SocketT} {C : SizeT} {I : Int}

theorem steady_run (ops : List (CallerOp Call))
    (hpos : ∀ reading ∈ callerReadings ((callers socketV4 socketV6).trace (.create C I) ops),
      0 < reading) :
    ((callers socketV4 socketV6).run (.create C I) ops).Steady I := by
  refine Machine.history _ (P := fun (s : Callers Call) tr =>
    (∀ reading ∈ callerReadings tr, 0 < reading) → s.Steady I) ?_
    (fun _ => Callers.create_steady C I) ops hpos
  intro s tr op ih hpos
  rw [callerReadings, List.flatMap_append, List.forall_mem_append, List.flatMap_singleton] at hpos
  exact Callers.steady_step (caller_step socketV4 socketV6 s op) (ih hpos.1) hpos.2

theorem recorded_callers (ops : List (CallerOp Call)) (k : Int64)
    (hk : ((callers socketV4 socketV6).run (.create C I) ops).manager.deadline k ≠ 0) :
    ∃ s, lastService k (callerEvents ((callers socketV4 socketV6).trace (.create C I) ops)) = some s ∧
      ((callers socketV4 socketV6).run (.create C I) ops).manager.deadline k =
        ((callers socketV4 socketV6).run (.create C I) ops).manager.nextDue s.due s.nanos ∧
      s.due - s.currentTime < 1500000 := by
  obtain ⟨requests, hrun, htrace⟩ := callers_run_client socketV4 socketV6 (.create C I) ops
  rw [← hrun] at hk ⊢
  rw [← htrace]
  exact recorded_run C I requests k hk

theorem interval_run (socketV4 socketV6 : Call → SocketT) (C : SizeT) (I : Int)
    (ops : List (CallerOp Call)) :
    ((callers socketV4 socketV6).run (.create C I) ops).manager.packetInterval = I := by
  obtain ⟨requests, hrun, -⟩ := callers_run_client socketV4 socketV6 (.create C I) ops
  rw [← hrun]
  exact reachable_interval C I requests

theorem wait_run_iff (hI : 0 ≤ I) {before after : List (CallerOp Call)} {c : Call}
    {reading current : Int}
    (hpos : ∀ x ∈ callerReadings ((callers socketV4 socketV6).trace (.create C I)
      (before ++ .finish c reading :: after)), 0 < x)
    (hw : Callers.WaitsFrom socketV4 socketV6 ((callers socketV4 socketV6).run (.create C I) before) c
      reading current) :
    (∀ d, ((callers socketV4 socketV6).out ((callers socketV4 socketV6).run (.create C I) before)
      (.finish c reading)).slept = some d → d ≤ I + 1500000) ↔
      ((callers socketV4 socketV6).run (.create C I) before).manager.Punctual
        (callerEvents ((callers socketV4 socketV6).trace (.create C I) before)) current := by
  rw [Machine.trace_append, Machine.trace_cons, callerReadings, List.flatMap_append,
    List.flatMap_cons, List.forall_mem_append, List.forall_mem_append] at hpos
  refine Callers.wait_iff (steady_run before hpos.1) hI (fun k hk => ?_) hw hpos.2.1
  obtain ⟨s, hs, hd, -⟩ := recorded_callers before k hk
  exact ⟨s, hs, hd⟩

end Run

-- `P` of every `wait_time` computed in the run, the state before it and the reading it is from
def EveryWait {Call : Type} [DecidableEq Call] (socketV4 socketV6 : Call → SocketT) (C : SizeT)
    (I : Int) (ops : List (CallerOp Call)) (P : Manager → List Event → Int → Prop) : Prop :=
  ∀ before c reading after now, ops = before ++ .finish c reading :: after →
    Callers.WaitsFrom socketV4 socketV6 ((callers socketV4 socketV6).run (.create C I) before) c
      reading now →
    P ((callers socketV4 socketV6).run (.create C I) before).manager
      (callerEvents ((callers socketV4 socketV6).trace (.create C I) before)) now

section Run
variable {Call : Type} [DecidableEq Call] {socketV4 socketV6 : Call → SocketT} {C : SizeT} {I : Int}

theorem sleeps_iff (hI : 0 ≤ I) {ops : List (CallerOp Call)}
    (hpos : ∀ reading ∈ callerReadings ((callers socketV4 socketV6).trace (.create C I) ops),
      0 < reading) :
    (∀ d ∈ sleeps ((callers socketV4 socketV6).trace (.create C I) ops), d ≤ I + 1500000) ↔
      EveryWait socketV4 socketV6 C I ops Manager.Punctual := by
  constructor
  · rintro h before c reading after now rfl hw
    refine (wait_run_iff hI hpos hw).mp fun d hd => h d (List.mem_filterMap.mpr ⟨_, ?_, hd⟩)
    rw [Machine.trace_append, Machine.trace_cons]
    exact List.mem_append_right _ List.mem_cons_self
  · intro h d hd
    obtain ⟨e, hmem, hslept⟩ := List.mem_filterMap.mp hd
    obtain ⟨before, op, after, rfl, rfl⟩ := Machine.mem_trace _ hmem
    obtain ⟨c, reading, now, rfl, hw⟩ := Callers.waits_of_slept hslept
    exact (wait_run_iff hI hpos hw).mpr (h before c reading after now rfl hw) d hslept

theorem sleeps_of_read (hI : 0 ≤ I) {ops : List (CallerOp Call)}
    (hpos : ∀ reading ∈ callerReadings ((callers socketV4 socketV6).trace (.create C I) ops),
      0 < reading)
    (h : EveryWait socketV4 socketV6 C I ops fun m past now => m.FrontRead past (CaughtUp now)) :
    ∀ d ∈ sleeps ((callers socketV4 socketV6).trace (.create C I) ops), d ≤ I + 1500000 := by
  refine (sleeps_iff hI hpos).mpr fun before c reading after now hops hw => ?_
  refine Manager.punctual_of_read (fun k hk => ?_) (h before c reading after now hops hw)
  obtain ⟨s, hs, -, hearly⟩ := recorded_callers before k hk
  exact ⟨s, hs, hearly⟩

theorem read_of_sleeps (hI : 0 ≤ I) {ops : List (CallerOp Call)}
    (hpos : ∀ reading ∈ callerReadings ((callers socketV4 socketV6).trace (.create C I) ops),
      0 < reading)
    (h : ∀ d ∈ sleeps ((callers socketV4 socketV6).trace (.create C I) ops), d ≤ I + 1500000) :
    EveryWait socketV4 socketV6 C I ops fun m past now =>
      m.FrontRead past fun _ nanos => nanos ≤ now + 2 * I + 1500000 := by
  intro before c reading after now hops hw
  have hinterval := interval_run socketV4 socketV6 C I before
  have hpunctual := (sleeps_iff hI hpos).mp h before c reading after now hops hw
  have hread := Manager.read_of_punctual (hinterval.symm ▸ hI) hpunctual
  rwa [hinterval] at hread

end Run

theorem oversleeps_only_behind {Call : Type} [DecidableEq Call]
    (socketV4 socketV6 : Call → SocketT) (C : SizeT) (I : Int) (hI : 0 ≤ I)
    (ops : List (CallerOp Call))
    (hpos : ∀ reading ∈ callerReadings ((callers socketV4 socketV6).trace (.create C I) ops),
      0 < reading) :
    let tr := (callers socketV4 socketV6).trace (.create C I) ops
    ((EveryWait socketV4 socketV6 C I ops fun m past now => m.FrontRead past (CaughtUp now)) →
      ∀ d ∈ sleeps tr, d ≤ I + 1500000) ∧
    ((∀ d ∈ sleeps tr, d ≤ I + 1500000) →
      EveryWait socketV4 socketV6 C I ops fun m past now =>
        m.FrontRead past fun _ nanos => nanos ≤ now + 2 * I + 1500000) :=
  ⟨sleeps_of_read hI hpos, read_of_sleeps hI hpos⟩

-- neither slack can grow: one reading is two nanoseconds behind, the other 1500001
example :
    let M := callers (fun _ : Unit => 3) fun _ => 4
    ¬ (∀ d ∈ sleeps (M.trace (.create 4 20000000) [.request (.push (samplePush 1 [1])), .enter (),
        .processNext () 1 1, .finish () 1, .request (.push (samplePush 1 [2])),
        .processNext () 18500002 18500002, .finish () 18500000]), d ≤ 20000000 + 1500000) ∧
      ¬ ∀ d ∈ sleeps (M.trace (.create 4 20000000) [.request (.push (samplePush 1 [1])), .enter (),
        .processNext () 1 40000001, .finish () 38500000]), d ≤ 20000000 + 1500000 := by
  decide +kernel

def readBack : List (CallerOp Unit) :=
  [.request (.push (samplePush 1 [1])), .enter (), .processNext () 1000000000000 1000000000000,
    .finish () 1]

def emptyPop : List (CallerOp Unit) :=
  [.request (.push (samplePush 1 [])), .enter (), .processNext () 1 1000000000, .finish () 1000000000]

theorem oversleeps :
    let tr := (callers (fun _ => 3) fun _ => 4).trace (.create 4 20000000) readBack
    let tr' := (callers (fun _ => 3) fun _ => 4).trace (.create 4 20000000) emptyPop
    (∀ reading ∈ callerReadings tr, 0 < reading) ∧ (¬ ∀ d ∈ sleeps tr, d ≤ 20000000 + 1500000) ∧
      (∀ reading ∈ callerReadings tr', 0 < reading) ∧
        ¬ ∀ d ∈ sleeps tr', d ≤ 20000000 + 1500000 := by
  decide +kernel

-- one nanosecond back of the first reading, one millisecond back of the second
def readJitter : List (CallerOp Unit) :=
  [.request (.push (samplePush 1 [1])), .enter (), .processNext () 1000000000 1001000000,
    .finish () 999999999]

theorem oversleeps_only_behind_jitter :
    let tr := (callers (fun _ : Unit => 3) fun _ => 4).trace (.create 4 20000000) readJitter
    ∀ d ∈ sleeps tr, d ≤ 20000000 + 1500000 := by
  refine (oversleeps_only_behind (fun _ : Unit => 3) (fun _ => 4) 4 20000000 (by decide) readJitter
    (by decide +kernel)).1 ?_
  intro before c reading after now hops hw k s hk hne hs
  have hlast : before = readJitter.take 3 ∧ c = () ∧ reading = 999999999 := by
    rcases before with _ | ⟨_, _ | ⟨_, _ | ⟨_, _ | ⟨_, _⟩⟩⟩⟩ <;> simp_all [readJitter]
  obtain ⟨rfl, rfl, rfl⟩ := hlast
  obtain ⟨_, _, _, -, -, hout, -⟩ := Callers.out_of_waits hw
  obtain ⟨-, -, rfl, -⟩ := CallerEvent.finished.inj hout
  obtain rfl : 1 = k := Option.some.inj (Eq.trans (by decide +kernel) hk)
  obtain rfl : { currentTime := 1000000000, due := 1000000000, nanos := 1001000000 } = s :=
    Option.some.inj (Eq.trans (by decide +kernel) hs)
  decide

end UdpQueue
