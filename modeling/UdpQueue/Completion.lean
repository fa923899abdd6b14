import UdpQueue.Accounting
import UdpQueue.Progress

namespace UdpQueue

theorem Manager.queued_of_lookup {m : Manager} {key : Int64} {item : Item}
    (h : m.queues.lookup key = some item) : m.queued key = item.buffer.size.toNat := by
  rw [Manager.queued, h]

def Body.rank (m : Manager) : Body → Nat
  | .counting _ => 4
  | .inserting _ => 3
  | .comparing _ => 2
  | .storing _ => 1
  | .growing _ => 0
  | .finding key => m.queued key.toInt64 + 1
  | .draining key _ => m.queued key.toInt64
  | .looking _ => 1
  | .measuring _ => 0
  | .setting => 0
  | .checking => 8
  | .reading => 7
  | .facing _ => 6
  | .vacating _ _ _ => 1
  | .stamping _ _ => 5
  | .popping _ _ => 4
  | .lifting _ _ _ => 3
  | .putting _ _ _ _ => 2
  | .rescheduling _ _ _ => 1
  | .aiming _ _ _ _ _ => 0

theorem start_rank_le {m : Manager} (h : m.Sound) (work : Work) :
    work.start.rank m ≤ m.queueBufferCapacity.toNat + 8 := by
  rcases work with ⟨call | key | key | _⟩ | _
  · exact Nat.le_add_left_of_le (by simp [Work.start, Body.rank])
  · have hle := Manager.queued_le h key.toInt64
    simp only [Work.start, Body.rank]
    omega
  all_goals exact Nat.le_add_left_of_le (by simp [Work.start, Body.rank])

section Sections
variable {m m' : Manager} {b b' : Body} {reading : Int} {o : Body ⊕ Outcome}

theorem withItem_cases {key : Int64} {use : Item → Manager × (Body ⊕ Outcome)}
    {r : Manager × (Body ⊕ Outcome)} (h : m.withItem key use = r) :
    r = (m, .inr .undefined) ∨ ∃ item, m.queues.lookup key = some item ∧ use item = r := by
  rw [Manager.withItem] at h
  cases hl : m.queues.lookup key with
  | none => exact Or.inl (by rw [← h, hl])
  | some item => exact Or.inr ⟨item, rfl, by rw [← h, hl]⟩

theorem sectionStep_rank (h : sections.step m b reading = (m', .inl b')) : b'.rank m' < b.rank m := by
  change m.sectionStep reading b = _ at h
  cases b with
  | counting call =>
    cases h
    split_ifs <;> simp [Body.rank]
  | inserting call =>
    cases h
    simp [Body.rank]
  | comparing call =>
    rcases withItem_cases h with h | ⟨item, hl, h⟩
    · cases h
    · split_ifs at h
      · cases h
      · cases h
        simp [Body.rank]
  | storing call =>
    rcases withItem_cases h with h | ⟨item, hl, h⟩
    · cases h
    · cases h
      simp [Body.rank]
  | growing call =>
    rcases withItem_cases h with h | ⟨item, hl, h⟩ <;> cases h
  | finding key =>
    rw [Manager.sectionStep] at h
    split_ifs at h
    · cases h
      exact Nat.lt_succ_self _
    · cases h
  | draining key discarded =>
    rcases withItem_cases h with h | ⟨item, hl, h⟩
    · cases h
    · split_ifs at h with hs
      · cases h
        have hsize := Item.pop_size hs
        simp only [Body.rank, Manager.queued_of_lookup hl,
          Manager.queued_of_lookup (Manager.setItem_lookup hl item.pop.1)]
        omega
      · cases h
  | looking key =>
    rw [Manager.sectionStep] at h
    split_ifs at h
    · cases h
      simp [Body.rank]
    · cases h
  | measuring key =>
    rcases withItem_cases h with h | ⟨item, hl, h⟩ <;> cases h
  | setting => cases h
  | checking =>
    rw [Manager.sectionStep] at h
    split_ifs at h
    · cases h
    · cases h
      simp [Body.rank]
  | reading =>
    cases h
    simp [Body.rank]
  | facing currentTime =>
    rw [Manager.sectionStep] at h
    split at h
    · cases h
    · split_ifs at h <;> cases h <;> simp [Body.rank]
  | vacating currentTime key item =>
    cases h
    simp [Body.rank]
  | stamping currentTime key =>
    rcases withItem_cases h with h | ⟨item, hl, h⟩ <;> cases h
    simp [Body.rank]
  | popping currentTime key =>
    rcases withItem_cases h with h | ⟨item, hl, h⟩ <;> cases h
    simp [Body.rank]
  | lifting currentTime key packetOut =>
    rcases withItem_cases h with h | ⟨item, hl, h⟩ <;> cases h
    simp [Body.rank]
  | putting currentTime key item packetOut =>
    cases h
    simp [Body.rank]
  | rescheduling currentTime key packetOut =>
    rcases withItem_cases h with h | ⟨item, hl, h⟩ <;> cases h
    simp [Body.rank]
  | aiming currentTime nanos packetOut exit freed => cases h

theorem sectionStep_shuttingDown (h : sections.step m b reading = (m', o))
    (hd : m.shuttingDown = true) : m'.shuttingDown = true := by
  have hitem (key : Int64) (use : Item → Manager × (Body ⊕ Outcome))
      (hu : ∀ item, (use item).1.shuttingDown = true) : (m.withItem key use).1.shuttingDown = true := by
    rw [Manager.withItem]
    split
    · exact hd
    · exact hu _
  have hall : (m.sectionStep reading b).1.shuttingDown = true := by
    cases b with
    | comparing call =>
      refine hitem _ _ fun item => ?_
      split_ifs <;> exact hd
    | draining key discarded =>
      refine hitem _ _ fun item => ?_
      split_ifs <;> exact hd
    | finding key =>
      rw [Manager.sectionStep]
      split_ifs <;> exact hd
    | looking key =>
      rw [Manager.sectionStep]
      split_ifs <;> exact hd
    | facing currentTime =>
      rw [Manager.sectionStep]
      split
      · exact hd
      · split_ifs <;> exact hd
    | storing call => exact hitem _ _ fun _ => hd
    | growing call => exact hitem _ _ fun _ => hd
    | measuring key => exact hitem _ _ fun _ => hd
    | stamping currentTime key => exact hitem _ _ fun _ => hd
    | popping currentTime key => exact hitem _ _ fun _ => hd
    | lifting currentTime key packetOut => exact hitem _ _ fun _ => hd
    | rescheduling currentTime key packetOut => exact hitem _ _ fun _ => hd
    | setting => rfl
    | _ => exact hd
  rwa [show m.sectionStep reading b = (m', o) from h] at hall

end Sections

theorem process_shuttingDown (m : Manager) (t u : Int) :
    (m.processNextLocked {} t u).1.shuttingDown = m.shuttingDown := by
  have h := m.processNextLocked_step {} t u
  generalize m.processNextLocked {} t u = r at h
  cases h <;> rfl

theorem At.shuttingDown {s m : Manager} {i : Work} {b : Body} (h : At s i b m) :
    m.shuttingDown = s.shuttingDown := by
  have hserve {m : Manager} {t : Int} {key : Int64} {item : Item}
      (hp : ∀ u, s.processNextLocked {} t u = m.serve key item u) : m.shuttingDown = s.shuttingDown := by
    rw [← process_shuttingDown s t t, hp t]
    rfl
  cases h with
  | popping t key item m hn hl hp => exact hserve hp
  | lifting t key item m hn hl hp => exact hserve hp
  | putting t key item m hn hk hp => exact hserve hp
  | rescheduling t key item m hn hk hp =>
    change m.shuttingDown = s.shuttingDown
    exact hserve hp
  | aiming t u m packetOut exit freed hn hp =>
    rw [← process_shuttingDown s t u, hp]
  | _ => rfl

theorem At.checking_of_shuttingDown {s m : Manager} {b : Body} (h : At s .turn b m)
    (hd : s.shuttingDown = true) : b = .checking := by
  cases h with
  | checking => rfl
  | _ => simp_all

def Outcome.rank : Outcome → Nat
  | .replied _ => 1
  | .left => 2
  | .processed _ _ _ => 6
  | .undefined => 1

def sectionRank (C : SizeT) (m : Manager) : Section Work Outcome Body → Nat
  | .locking (.request _) => C.toNat + 11
  | .locking .turn => 4
  | .running (.request _) b => b.rank m + 2
  | .running .turn _ => 3
  | .unlocking outcome => outcome.rank

def Control.rank (C : SizeT) (m : Manager) (σ : Option (Section Work Outcome Body)) : Control → Nat
  | .idle => 0
  | .inSection => (σ.map (sectionRank C m)).getD 0
  | .lockingProcess => 5
  | .sending _ _ => 5
  | .unlockingProcess => 1
  | .undefined => 0

namespace System
variable {Thread : Type}

def rank (C : SizeT) (s : System Thread) (t : Thread) : Nat :=
  (s.control t).rank C s.core.object (s.core.sections t)

inductive Requesting (s : System Thread) (t : Thread) : Prop
  | idle (hc : s.control t = .idle)
  | locking (request : Request) (hs : s.core.sections t = some (.locking (.request request)))
  | running (request : Request) (b : Body)
      (hs : s.core.sections t = some (.running (.request request) b))
  | unlocking (reply : Reply) (hs : s.core.sections t = some (.unlocking (.replied reply)))

-- the call of `t` is on its way to its end
def Ending (s : System Thread) (t : Thread) : Prop :=
  s.core.object.shuttingDown = true ∨ s.Requesting t

end System

namespace SystemEvent
variable {Thread : Type}

def thread : SystemEvent Thread → Option Thread
  | .called t _ => some t
  | .approached t => some t
  | .entered t => some t
  | .moved t => some t
  | .done t _ _ => some t
  | .released t _ => some t
  | .finished t _ _ _ _ => some t
  | .left t => some t
  | .blocked => none

def Starts (t : Thread) : SystemEvent Thread → Prop
  | .called u _ => u = t
  | .approached u => u = t
  | _ => False

variable [DecidableEq Thread]

instance (t : Thread) : DecidablePred (Starts t) := fun e =>
  match e with
  | .called u _ | .approached u => inferInstanceAs (Decidable (u = t))
  | .entered _ | .moved _ | .done _ _ _ | .released _ _ | .finished _ _ _ _ _ | .left _ | .blocked =>
    inferInstanceAs (Decidable False)

def isStep (t : Thread) (e : SystemEvent Thread) : Bool := e.thread = some t

end SystemEvent

theorem object_shuttingDown {Thread : Type} {s : System Thread} {c : Callers Thread} (h : Simulates s c) :
    s.core.object.shuttingDown = c.manager.shuttingDown := by
  by_cases hrun : ∃ t i b, s.core.sections t = some (.running i b)
  · obtain ⟨t, i, b, hs⟩ := hrun
    exact (h.keeps.running t i b hs).shuttingDown
  · simp only [not_exists] at hrun
    rw [h.keeps.settled hrun]

section Rank
variable {Thread : Type} {s : System Thread} {t : Thread}

theorem rank_of_other {C : SizeT} {s' : System Thread} (hc : s'.control t = s.control t)
    (hs : s'.core.sections t = s.core.sections t)
    (ho : s'.core.object = s.core.object ∨ ¬ s.core.Inside t) : s'.rank C t = s.rank C t := by
  rw [System.rank, System.rank, hc, hs]
  rcases ho with ho | hout
  · rw [ho]
  · cases s.control t with
    | inSection =>
      rcases hsec : s.core.sections t with _ | ⟨work⟩ | ⟨i, b⟩ | ⟨o⟩
      · rfl
      · cases work <;> rfl
      · exact absurd (Or.inl ⟨i, b, hsec⟩) hout
      · rfl
    | _ => rfl

theorem rank_of_section {C : SizeT} {σ : Section Work Outcome Body} (hc : s.control t = .inSection)
    (hs : s.core.sections t = some σ) : s.rank C t = sectionRank C s.core.object σ := by
  rw [System.rank, hc, hs]
  rfl

theorem System.Requesting.of_other {s' : System Thread} (h : s.Requesting t) (hc : s'.control t = s.control t)
    (hs : s'.core.sections t = s.core.sections t) : s'.Requesting t := by
  cases h with
  | idle hidle => exact .idle (hc.trans hidle)
  | locking request hsec => exact .locking request (hs.trans hsec)
  | running request b hsec => exact .running request b (hs.trans hsec)
  | unlocking reply hsec => exact .unlocking reply (hs.trans hsec)

theorem System.Ending.turn (h : s.Ending t) (hc : s.control t = .inSection)
    {σ : Section Work Outcome Body} (hs : s.core.sections t = some σ)
    (hσ : σ = .locking .turn ∨ ∃ b, σ = .running .turn b) : s.core.object.shuttingDown = true := by
  rcases h with hd | hq
  · exact hd
  · cases hq with
    | idle hidle => cases hc.symm.trans hidle
    | locking request hl =>
      cases hs.symm.trans hl
      rcases hσ with hσ | ⟨b, hσ⟩ <;> cases hσ
    | running request b hl =>
      cases hs.symm.trans hl
      rcases hσ with hσ | ⟨b, hσ⟩ <;> cases hσ
    | unlocking reply hl =>
      cases hs.symm.trans hl
      rcases hσ with hσ | ⟨b, hσ⟩ <;> cases hσ

theorem System.Requesting.not_elsewhere {c : Callers Thread} (h : Simulates s c) {control : Control}
    (hc : s.control t = control) (hidle : control ≠ .idle) (hin : control ≠ .inSection) :
    ¬ s.Requesting t := by
  have hnone := (h.outside t).mp (hc ▸ hin)
  intro hq
  cases hq with
  | idle h0 => exact hidle (hc.symm.trans h0)
  | locking request hs => cases hnone.symm.trans hs
  | running request b hs => cases hnone.symm.trans hs
  | unlocking reply hs => cases hnone.symm.trans hs

theorem System.Ending.outside {c : Callers Thread} (hend : s.Ending t) (h : Simulates s c)
    {control : Control} (hc : s.control t = control) (hidle : control ≠ .idle)
    (hin : control ≠ .inSection) : s.core.object.shuttingDown = true :=
  hend.resolve_right (System.Requesting.not_elsewhere h hc hidle hin)

end Rank

section Step
variable {Thread : Type} [DecidableEq Thread] {socketV4 socketV6 : Thread → SocketT}
variable {s : System Thread} {c : Callers Thread} {r : System Thread × SystemEvent Thread}
variable {t : Thread}

theorem core_rest (h : s.core.Keeps At c.manager) {core : Guarded Thread Manager Work Outcome Body}
    {e : SectionEvent Work Outcome} {u : Thread} {reading : Int}
    (hs : Guarded.Step sections s.core u reading (core, e)) (ht : t ≠ u) :
    core.sections t = s.core.sections t ∧ (core.object = s.core.object ∨ ¬ s.core.Inside t) ∧
      (s.core.object.shuttingDown = true → core.object.shuttingDown = true) := by
  refine ⟨section_rest hs ht, ?_⟩
  cases hs with
  | ran i b b' object hb hp =>
    exact ⟨Or.inr fun hin => ht (h.unique (Or.inl ⟨i, b, hb⟩) hin), sectionStep_shuttingDown hp⟩
  | done i b o object hb hp =>
    exact ⟨Or.inr fun hin => ht (h.unique (Or.inl ⟨i, b, hb⟩) hin), sectionStep_shuttingDown hp⟩
  | _ => exact ⟨Or.inl rfl, id⟩

theorem other_step (h : Simulates s c) (hr : SystemStep socketV4 socketV6 s r)
    (ht : r.2.thread ≠ some t) :
    r.1.control t = s.control t ∧ r.1.core.sections t = s.core.sections t ∧
      (r.1.core.object = s.core.object ∨ ¬ s.core.Inside t) ∧
      (s.core.object.shuttingDown = true → r.1.core.object.shuttingDown = true) := by
  have hne {u : Thread} (hu : some u ≠ some t) : t ≠ u := fun he => hu (he ▸ rfl)
  cases hr with
  | called u request hc =>
    exact ⟨System.goto_control_of_ne _ (hne ht) _, Guarded.goto_of_ne _ (hne ht) _, Or.inl rfl, id⟩
  | approached u hc => exact ⟨System.goto_control_of_ne _ (hne ht) _, rfl, Or.inl rfl, id⟩
  | entered u processLock hc hl =>
    exact ⟨System.goto_control_of_ne _ (hne ht) _, Guarded.goto_of_ne _ (hne ht) _, Or.inl rfl, id⟩
  | moved u reading core hc hs => exact ⟨rfl, core_rest h.keeps hs (hne ht)⟩
  | done u reading core work outcome hc hs => exact ⟨rfl, core_rest h.keeps hs (hne ht)⟩
  | released u reading core outcome hc hs =>
    exact ⟨System.goto_control_of_ne _ (hne ht) _, core_rest h.keeps hs (hne ht)⟩
  | crashed u current reading result hc hd =>
    exact ⟨System.goto_control_of_ne _ (hne ht) _, rfl, Or.inl rfl, id⟩
  | finished u current reading result sent hc hd hu =>
    exact ⟨System.goto_control_of_ne _ (hne ht) _, Guarded.goto_of_ne _ (hne ht) _, Or.inl rfl, id⟩
  | left u hc => exact ⟨System.goto_control_of_ne _ (hne ht) _, rfl, Or.inl rfl, id⟩
  | blocked => exact ⟨rfl, rfl, Or.inl rfl, id⟩

theorem enterTurn_rank {C : SizeT} (s : System Thread) (t : Thread) :
    (s.enterSection t .turn).rank C t = 4 :=
  rank_of_section (System.goto_control_self ..) (enterSection_sections ..)

theorem moved_rank (h : Simulates s c) (hm : c.manager.Sound) (hend : s.Ending t) {reading : Int}
    {core : Guarded Thread Manager Work Outcome Body} (hc : s.control t = .inSection)
    (hs : Guarded.Step sections s.core t reading (core, .moved)) :
    System.Ending { s with core } t ∧
      System.rank c.manager.queueBufferCapacity { s with core } t + 1 ≤
        s.rank c.manager.queueBufferCapacity t := by
  cases hs with
  | acquired i lock hwait hl =>
    let core := { s.core with lock }.goto t (some (.running i (sections.start i)))
    have hafter : core.sections t = some (.running i (sections.start i)) := Guarded.goto_self ..
    rw [rank_of_section hc hwait, rank_of_section (s := { s with core }) hc hafter]
    cases i with
    | request request =>
      have hobject := h.keeps.object_of_free (Mutex.lock_eq_some hl h.keeps.alive).1
      have hstart : (Work.request request).start.rank s.core.object ≤
          c.manager.queueBufferCapacity.toNat + 8 := by
        rw [hobject]
        exact start_rank_le hm _
      refine ⟨Or.inr (.running request _ hafter), ?_⟩
      change (Work.request request).start.rank s.core.object + 2 + 1 ≤ _
      simp only [sectionRank]
      omega
    | turn => exact ⟨Or.inl (hend.turn hc hwait (Or.inl rfl)), le_rfl⟩
  | ran i b b' object hrun hp =>
    let core := { s.core with object }.goto t (some (.running i b'))
    have hafter : core.sections t = some (.running i b') := Guarded.goto_self ..
    rw [rank_of_section hc hrun, rank_of_section (s := { s with core }) hc hafter]
    cases i with
    | request request =>
      have hrank := sectionStep_rank hp
      refine ⟨Or.inr (.running request b' hafter), ?_⟩
      change b'.rank object + 2 + 1 ≤ b.rank s.core.object + 2
      omega
    | turn =>
      have hd := hend.turn hc hrun (Or.inr ⟨b, rfl⟩)
      obtain rfl := (h.keeps.running t .turn b hrun).checking_of_shuttingDown
        (object_shuttingDown h ▸ hd)
      change s.core.object.sectionStep reading .checking = _ at hp
      rw [Manager.sectionStep, if_pos hd] at hp
      cases hp

theorem done_rank (h : Simulates s c) (hend : s.Ending t) {reading : Int} {C : SizeT}
    {core : Guarded Thread Manager Work Outcome Body} {work : Work} {outcome : Outcome}
    (hc : s.control t = .inSection)
    (hs : Guarded.Step sections s.core t reading (core, .done work outcome)) :
    System.Ending { s with core } t ∧ System.rank C { s with core } t + 1 ≤ s.rank C t := by
  obtain ⟨hafter, b, hrun⟩ := section_done hs
  have hpost := (done_atomically h hs).1
  have hflag : s.core.object.shuttingDown = true → core.object.shuttingDown = true := by
    cases hs with
    | done _ b' _ object hb hp => exact sectionStep_shuttingDown hp
  have hrank : System.rank C { s with core } t = outcome.rank :=
    rank_of_section (s := { s with core }) hc hafter
  rw [rank_of_section hc hrun, hrank]
  generalize core.object = object at hpost
  cases hpost with
  | request request =>
    refine ⟨Or.inr (.unlocking _ hafter), ?_⟩
    simp only [sectionRank, Outcome.rank]
    omega
  | left hdown => exact ⟨Or.inl (hflag (hend.turn hc hrun (Or.inr ⟨b, rfl⟩))), le_rfl⟩
  | processed current nanos hup =>
    have hd := hend.turn hc hrun (Or.inr ⟨b, rfl⟩)
    rw [object_shuttingDown h, hup] at hd
    cases hd

theorem released_rank (hend : s.Ending t) {reading : Int} {C : SizeT}
    {core : Guarded Thread Manager Work Outcome Body} {outcome : Outcome}
    (hc : s.control t = .inSection)
    (hs : Guarded.Step sections s.core t reading (core, .released outcome)) :
    System.Ending ({ s with core }.goto t outcome.next) t ∧
      System.rank C ({ s with core }.goto t outcome.next) t + 1 ≤ s.rank C t := by
  obtain ⟨hafter, hwas⟩ := section_released hs
  have hobject : core.object = s.core.object := by
    cases hs with
    | released _ hb => rfl
  rw [rank_of_section hc hwas]
  constructor
  · rcases hend with hd | hq
    · exact Or.inl (hobject ▸ hd)
    · cases hq with
      | idle hidle => cases hc.symm.trans hidle
      | locking request hl => cases hwas.symm.trans hl
      | running request b hl => cases hwas.symm.trans hl
      | unlocking reply hl =>
        cases hwas.symm.trans hl
        exact Or.inr (.idle (System.goto_control_self ..))
  · rw [System.rank, System.goto_control_self]
    cases outcome <;> exact le_rfl

theorem ending_step (h : Simulates s c) (hm : c.manager.Sound)
    (hr : SystemStep socketV4 socketV6 s r) (hend : s.Ending t) (hstart : ¬ r.2.Starts t) :
    r.1.Ending t ∧ (if r.2.isStep t then 1 else 0) + r.1.rank c.manager.queueBufferCapacity t ≤
      s.rank c.manager.queueBufferCapacity t := by
  simp only [SystemEvent.isStep, decide_eq_true_eq]
  by_cases ht : r.2.thread = some t
  · rw [if_pos ht, Nat.add_comm]
    cases hr with
    | called u request hc => exact absurd (Option.some.inj ht) hstart
    | approached u hc => exact absurd (Option.some.inj ht) hstart
    | entered u processLock hc hl =>
      obtain rfl := Option.some.inj ht
      refine ⟨Or.inl (hend.outside h hc (by simp) (by simp)), ?_⟩
      rw [System.rank, System.rank, hc]
      exact (Nat.succ_le_succ (enterTurn_rank _ u).le)
    | moved u reading core hc hs =>
      obtain rfl := Option.some.inj ht
      exact moved_rank h hm hend hc hs
    | done u reading core work outcome hc hs =>
      obtain rfl := Option.some.inj ht
      exact done_rank h hend hc hs
    | released u reading core outcome hc hs =>
      obtain rfl := Option.some.inj ht
      exact released_rank hend hc hs
    | crashed u current reading result hc hd =>
      obtain rfl := Option.some.inj ht
      refine ⟨Or.inl (hend.outside h hc (by simp) (by simp)), ?_⟩
      rw [System.rank, System.rank, hc, System.goto_control_self]
      exact Nat.le_add_left 1 4
    | finished u current reading result sent hc hd hu =>
      obtain rfl := Option.some.inj ht
      refine ⟨Or.inl (hend.outside h hc (by simp) (by simp)), ?_⟩
      rw [System.rank, System.rank, hc]
      exact (Nat.succ_le_succ (enterTurn_rank _ u).le)
    | left u hc =>
      obtain rfl := Option.some.inj ht
      refine ⟨Or.inl (hend.outside h hc (by simp) (by simp)), ?_⟩
      rw [System.rank, System.rank, hc, System.goto_control_self]
      exact le_rfl
    | blocked => cases ht
  · obtain ⟨hc, hs, ho, hd⟩ := other_step h hr ht
    rw [if_neg ht, Nat.zero_add, rank_of_other hc hs ho]
    exact ⟨hend.imp hd fun hq => hq.of_other hc hs, le_rfl⟩

end Step

section Reachable
variable {Thread : Type}

def Grounded (C : SizeT) (c : Callers Thread) : Prop :=
  c.manager.Sound ∧ c.manager.queueBufferCapacity = C

theorem At.rank_le {s m : Manager} {request : Request} {b : Body} (h : At s (.request request) b m)
    (hs : s.Sound) : b.rank m ≤ s.queueBufferCapacity.toNat + 8 := by
  cases h with
  | finding key =>
    have hle := Manager.queued_le hs key.toInt64
    simp only [Body.rank]
    omega
  | draining key item rest discarded hl hle hd =>
    have hsize := UInt64.le_iff_toNat_le.mp (hs _ _ hl).size_le
    simp only [Body.rank, Manager.queued_of_lookup (Manager.setItem_lookup hl rest)]
    omega
  | _ => exact Nat.le_add_left_of_le (by simp [Body.rank])

theorem rank_le {s : System Thread} {c : Callers Thread} (h : Simulates s c) (hm : c.manager.Sound)
    (t : Thread) :
    s.rank c.manager.queueBufferCapacity t ≤ c.manager.queueBufferCapacity.toNat + 11 := by
  rcases hc : s.control t with _ | _ | _ | ⟨current, result⟩ | _ | _
  case inSection =>
    rcases hs : s.core.sections t with _ | ⟨_ | _⟩ | ⟨request | _, b⟩ | outcome
    · exact absurd hc ((h.outside t).mpr hs)
    · rw [rank_of_section hc hs]
      exact le_rfl
    · rw [rank_of_section hc hs]
      exact Nat.le_add_left_of_le (by simp [sectionRank])
    · rw [rank_of_section hc hs]
      have hb := (h.keeps.running t (.request request) b hs).rank_le hm
      simp only [sectionRank]
      omega
    · rw [rank_of_section hc hs]
      exact Nat.le_add_left_of_le (by simp [sectionRank])
    · rw [rank_of_section hc hs]
      exact Nat.le_add_left_of_le (by cases outcome <;> simp [sectionRank, Outcome.rank])
  all_goals
    rw [System.rank, hc]
    exact Nat.le_add_left_of_le (by simp [Control.rank])

theorem grounded_create (C : SizeT) (I : Int) : Grounded C (.create C I : Callers Thread) :=
  ⟨Manager.create_sound C I, rfl⟩

variable [DecidableEq Thread] {socketV4 socketV6 : Thread → SocketT}

theorem grounded_run {C : SizeT} {c : Callers Thread} (h : Grounded C c) (ops : List (CallerOp Thread)) :
    Grounded C ((callers socketV4 socketV6).run c ops) := by
  obtain ⟨requests, hrun, -⟩ := callers_run_client socketV4 socketV6 c ops
  rw [Grounded, ← hrun]
  exact Machine.run_invariant (P := fun m : Manager => m.Sound ∧ m.queueBufferCapacity = C)
    (fun m op hm => ⟨client_sound m op hm.1, (client_frame m op).capacity.trans hm.2⟩) h requests

theorem no_deadlock (C : SizeT) (I : Int) (ops : List (SystemOp Thread)) (t : Thread) :
    let s := (system socketV4 socketV6).run (.create C I) ops
    s.control t = .idle ∨ s.control t = .undefined ∨ Moves socketV4 socketV6 s t ∨
      ∃ u, WaitsFor s t u ∧ (s.control u = .undefined ∨ Moves socketV4 socketV6 s u ∨
        ∃ v, WaitsFor s u v ∧ Moves socketV4 socketV6 s v) := by
  intro s
  have hsim := (system_simulates socketV4 socketV6 C I ops).1
  obtain ⟨he, ho⟩ := Callers.owned_run socketV4 socketV6 C I
    (((system socketV4 socketV6).trace (.create C I) ops).flatMap SystemEvent.effects)
  by_cases hc : s.control t = .idle
  · exact Or.inl hc
  · exact Or.inr (moves_or_waits hsim he ho hc)

end Reachable

end UdpQueue
