import UdpQueue.Library.Machine
import UdpQueue.Library.Mutex
import UdpQueue.Manager

namespace UdpQueue

inductive CallPc where
  | notEntered
  | lockingProcess
  | locking
  | checking
  | breaking
  | processing
  | unlocking
  | sending
  | unlockingProcess
  | returned
deriving DecidableEq

inductive DestroyPc where
  | notCalled
  | testing
  | locking
  | setting
  | unlocking
  | lockingProcess
  | unlockingProcess
  | destroyingLock
  | destroyingProcessLock
  | deleting
  | done
deriving DecidableEq

inductive Owner (Call : Type) where
  | destroyer
  | call (c : Call)
deriving DecidableEq

structure Threads (Call : Type) where
  manager : Manager
  lock : Mutex (Owner Call)
  processLock : Mutex (Owner Call)
  calls : Call → CallPc
  destroy : DestroyPc

inductive ThreadOp (Call : Type) where
  | enter (c : Call)
  | step (c : Call) (currentTime nanos : Int)
  | destroy

inductive ThreadEvent (Call : Type) where
  | entered (c : Call)
  | access (c : Call) (destroy : DestroyPc)
  | sent (c : Call)
  | destroy
  | blocked
deriving DecidableEq

namespace Threads
variable {Call : Type}

def create (queueBufferCapacity : SizeT) (packetInterval : Int) : Threads Call :=
  { manager := .create queueBufferCapacity packetInterval, lock := .free, processLock := .free
    calls := fun _ => .notEntered, destroy := .notCalled }

variable [DecidableEq Call]

def goto (s : Threads Call) (c : Call) (pc : CallPc) : Threads Call :=
  { s with calls := Function.update s.calls c pc }

def enter (s : Threads Call) (c : Call) : Threads Call × ThreadEvent Call :=
  match s.calls c, s.destroy with
  | .notEntered, .notCalled => (s.goto c .lockingProcess, .entered c)
  | _, _ => (s, .blocked)

def processWithSocket (s : Threads Call) (c : Call) (currentTime nanos : Int) :
    Threads Call × ThreadEvent Call :=
  match s.calls c with
  | .lockingProcess =>
    match s.processLock.lock (.call c) with
    | none => (s, .blocked)
    | some processLock => ({ s with processLock }.goto c .locking, .access c s.destroy)
  | .locking =>
    match s.lock.lock (.call c) with
    | none => (s, .blocked)
    | some lock => ({ s with lock }.goto c .checking, .access c s.destroy)
  | .checking =>
    (s.goto c (if s.manager.shuttingDown then .breaking else .processing), .access c s.destroy)
  | .breaking => ({ s with lock := s.lock.unlock }.goto c .unlockingProcess, .access c s.destroy)
  | .processing =>
    ({ s with manager := (s.manager.processNextLocked {} currentTime nanos).1 }.goto c .unlocking,
      .access c s.destroy)
  | .unlocking => ({ s with lock := s.lock.unlock }.goto c .sending, .access c s.destroy)
  | .sending => (s.goto c .locking, .sent c)
  | .unlockingProcess =>
    ({ s with processLock := s.processLock.unlock }.goto c .returned, .access c s.destroy)
  | .notEntered => (s, .blocked)
  | .returned => (s, .blocked)

def destroyStep (s : Threads Call) : Threads Call × ThreadEvent Call :=
  match s.destroy with
  | .notCalled => ({ s with destroy := .testing }, .destroy)
  | .testing => ({ s with destroy := .locking }, .destroy)
  | .locking =>
    match s.lock.lock .destroyer with
    | none => (s, .blocked)
    | some lock => ({ s with lock, destroy := .setting }, .destroy)
  | .setting => ({ s with manager := s.manager.shutDown, destroy := .unlocking }, .destroy)
  | .unlocking => ({ s with lock := s.lock.unlock, destroy := .lockingProcess }, .destroy)
  | .lockingProcess =>
    match s.processLock.lock .destroyer with
    | none => (s, .blocked)
    | some processLock => ({ s with processLock, destroy := .unlockingProcess }, .destroy)
  | .unlockingProcess =>
    ({ s with processLock := s.processLock.unlock, destroy := .destroyingLock }, .destroy)
  | .destroyingLock => ({ s with lock := .destroyed, destroy := .destroyingProcessLock }, .destroy)
  | .destroyingProcessLock => ({ s with processLock := .destroyed, destroy := .deleting }, .destroy)
  | .deleting => ({ s with destroy := .done }, .destroy)
  | .done => (s, .blocked)

end Threads

def shutdown (Call : Type) [DecidableEq Call] :
    Machine (Threads Call) (ThreadOp Call) (ThreadEvent Call) where
  step s
    | .enter c => s.enter c
    | .step c currentTime nanos => s.processWithSocket c currentTime nanos
    | .destroy => s.destroyStep

def CallPc.Inside : CallPc → Prop
  | .notEntered | .lockingProcess | .returned => False
  | _ => True

def DestroyPc.TearingDown : DestroyPc → Prop
  | .notCalled | .testing | .locking | .setting | .unlocking | .lockingProcess => False
  | _ => True

section Step
variable {Call : Type}

def CallPc.Outside (pc : CallPc) : Prop := pc = .notEntered ∨ pc = .returned

theorem CallPc.Outside.not_inside {pc : CallPc} (h : pc.Outside) : ¬ pc.Inside := by
  rcases h with rfl | rfl <;> exact id

structure Handshake (s : Threads Call) : Prop where
  inside : ∀ c, (s.calls c).Inside → s.processLock = .held (.call c)
  alive : ¬ s.destroy.TearingDown → s.processLock ≠ .destroyed
  gone : s.destroy.TearingDown → ∀ c, (s.calls c).Outside

def Clear (s : Threads Call) : Prop :=
  s.destroy = .lockingProcess → s.processLock = .free → ∀ c, s.calls c ≠ .lockingProcess

theorem Handshake.entering {s : Threads Call} (h : Handshake s) {c : Call}
    (hc : ¬ (s.calls c).Outside) : ¬ s.destroy.TearingDown :=
  fun ht => hc (h.gone ht c)

theorem handshake_create (C : SizeT) (I : Int) : Handshake (.create C I : Threads Call) :=
  ⟨fun _ hin => hin.elim, fun _ => nofun, fun ht => ht.elim⟩

variable [DecidableEq Call]

inductive ThreadStep (s : Threads Call) : ThreadOp Call → Threads Call × ThreadEvent Call → Prop
  | blocked (op : ThreadOp Call) : ThreadStep s op (s, .blocked)
  | entered (c : Call) (hd : s.destroy = .notCalled) :
      ThreadStep s (.enter c) (s.goto c .lockingProcess, .entered c)
  | acquired (c : Call) (t u : Int) (processLock : Mutex (Owner Call))
      (hc : s.calls c = .lockingProcess)
      (hl : s.processLock.lock (.call c) = some processLock) :
      ThreadStep s (.step c t u) ({ s with processLock }.goto c .locking, .access c s.destroy)
  | inside (c : Call) (t u : Int) (pc : CallPc) (manager : Manager) (lock : Mutex (Owner Call))
      (hc : (s.calls c).Inside) (hp : pc.Inside) (e : ThreadEvent Call)
      (he : e = .access c s.destroy ∨ e = .sent c) :
      ThreadStep s (.step c t u) ({ s with manager, lock }.goto c pc, e)
  | left (c : Call) (t u : Int) (hc : (s.calls c).Inside) :
      ThreadStep s (.step c t u)
        ({ s with processLock := s.processLock.unlock }.goto c .returned, .access c s.destroy)
  | announced (pc : DestroyPc) (manager : Manager) (lock : Mutex (Owner Call))
      (hd : ¬ s.destroy.TearingDown) (hp : ¬ pc.TearingDown) :
      ThreadStep s .destroy ({ s with manager, lock, destroy := pc }, .destroy)
  | claimed (processLock : Mutex (Owner Call)) (hd : s.destroy = .lockingProcess)
      (hl : s.processLock.lock .destroyer = some processLock) :
      ThreadStep s .destroy ({ s with processLock, destroy := .unlockingProcess }, .destroy)
  | torn (pc : DestroyPc) (lock processLock : Mutex (Owner Call)) (hd : s.destroy.TearingDown)
      (hp : pc.TearingDown) :
      ThreadStep s .destroy ({ s with lock, processLock, destroy := pc }, .destroy)

theorem enter_step (s : Threads Call) (c : Call) : ThreadStep s (.enter c) (s.enter c) := by
  rw [Threads.enter]
  split
  · exact .entered c ‹_›
  · exact .blocked _

theorem processWithSocket_step (s : Threads Call) (c : Call) (t u : Int) :
    ThreadStep s (.step c t u) (s.processWithSocket c t u) := by
  rw [Threads.processWithSocket]
  cases hc : s.calls c with
  | lockingProcess =>
    simp only []
    cases hl : s.processLock.lock (.call c) with
    | none => exact .blocked _
    | some processLock => exact .acquired c t u processLock hc hl
  | locking =>
    simp only []
    cases hl : s.lock.lock (.call c) with
    | none => exact .blocked _
    | some lock => exact .inside c t u .checking _ _ (by simp [hc, CallPc.Inside]) trivial _ (Or.inl rfl)
  | checking =>
    refine .inside c t u _ _ _ (by simp [hc, CallPc.Inside]) ?_ _ (Or.inl rfl)
    split_ifs <;> trivial
  | breaking => exact .inside c t u .unlockingProcess _ _ (by simp [hc, CallPc.Inside]) trivial _ (Or.inl rfl)
  | processing => exact .inside c t u .unlocking _ _ (by simp [hc, CallPc.Inside]) trivial _ (Or.inl rfl)
  | unlocking => exact .inside c t u .sending _ _ (by simp [hc, CallPc.Inside]) trivial _ (Or.inl rfl)
  | sending => exact .inside c t u .locking _ _ (by simp [hc, CallPc.Inside]) trivial _ (Or.inr rfl)
  | unlockingProcess => exact .left c t u (by simp [hc, CallPc.Inside])
  | notEntered => exact .blocked _
  | returned => exact .blocked _

theorem destroy_step (s : Threads Call) : ThreadStep s .destroy s.destroyStep := by
  rw [Threads.destroyStep]
  cases hd : s.destroy with
  | notCalled => exact .announced _ _ _ (by simp [hd, DestroyPc.TearingDown]) id
  | testing => exact .announced _ _ _ (by simp [hd, DestroyPc.TearingDown]) id
  | locking =>
    simp only []
    cases hl : s.lock.lock .destroyer with
    | none => exact .blocked _
    | some lock => exact .announced _ _ _ (by simp [hd, DestroyPc.TearingDown]) id
  | setting => exact .announced _ _ _ (by simp [hd, DestroyPc.TearingDown]) id
  | unlocking => exact .announced _ _ _ (by simp [hd, DestroyPc.TearingDown]) id
  | lockingProcess =>
    simp only []
    cases hl : s.processLock.lock .destroyer with
    | none => exact .blocked _
    | some processLock => exact .claimed processLock hd hl
  | unlockingProcess => exact .torn _ _ _ (by simp [hd, DestroyPc.TearingDown]) trivial
  | destroyingLock => exact .torn _ _ _ (by simp [hd, DestroyPc.TearingDown]) trivial
  | destroyingProcessLock => exact .torn _ _ _ (by simp [hd, DestroyPc.TearingDown]) trivial
  | deleting => exact .torn _ _ _ (by simp [hd, DestroyPc.TearingDown]) trivial
  | done => exact .blocked _

theorem shutdown_step (s : Threads Call) (op : ThreadOp Call) :
    ThreadStep s op ((shutdown Call).step s op) := by
  cases op with
  | enter c => exact enter_step s c
  | step c t u => exact processWithSocket_step s c t u
  | destroy => exact destroy_step s

theorem goto_calls (s : Threads Call) (c d : Call) (pc : CallPc) :
    (s.goto c pc).calls d = if d = c then pc else s.calls d := by
  exact Function.update_apply ..

theorem handshake_step {s : Threads Call} (h : Handshake s) {op : ThreadOp Call}
    {r : Threads Call × ThreadEvent Call} (hr : ThreadStep s op r)
    (hclear : op = .destroy → Clear s) : Handshake r.1 := by
  cases hr with
  | blocked op => exact h
  | entered c hd =>
    have hdown : ¬ s.destroy.TearingDown := by simp [hd, DestroyPc.TearingDown]
    refine ⟨fun d hin => ?_, h.alive, fun ht => absurd ht hdown⟩
    rw [goto_calls] at hin
    split_ifs at hin
    · exact hin.elim
    · exact h.inside d hin
  | acquired c t u processLock hc hl =>
    have hdown := h.entering (c := c) (by simp [hc, CallPc.Outside])
    obtain ⟨hfree, rfl⟩ := Mutex.lock_eq_some hl (h.alive hdown)
    refine ⟨fun d hin => ?_, fun _ => nofun, fun ht => absurd ht hdown⟩
    rw [goto_calls] at hin
    split_ifs at hin with hdc
    · rw [hdc]
      rfl
    · exact absurd (hfree.symm.trans (h.inside d hin)) nofun
  | inside c t u pc manager lock hc hp e he =>
    have hdown := h.entering (c := c) fun ho => ho.not_inside hc
    refine ⟨fun d hin => ?_, h.alive, fun ht => absurd ht hdown⟩
    rw [goto_calls] at hin
    split_ifs at hin with hdc
    · exact hdc ▸ h.inside c hc
    · exact h.inside d hin
  | left c t u hc =>
    have hdown := h.entering (c := c) fun ho => ho.not_inside hc
    refine ⟨fun d hin => ?_, fun ht => Mutex.unlock_ne_destroyed (h.alive ht),
      fun ht => absurd ht hdown⟩
    rw [goto_calls] at hin
    split_ifs at hin with hdc
    · exact hin.elim
    · have howner := (h.inside c hc).symm.trans (h.inside d hin)
      exact absurd (Owner.call.inj (Mutex.held.inj howner)).symm hdc
  | announced pc manager lock hd hp => exact ⟨h.inside, fun _ => h.alive hd, fun ht => absurd ht hp⟩
  | claimed processLock hd hl =>
    have hdown : ¬ s.destroy.TearingDown := by simp [hd, DestroyPc.TearingDown]
    obtain ⟨hfree, rfl⟩ := Mutex.lock_eq_some hl (h.alive hdown)
    have hout (c : Call) : ¬ (s.calls c).Inside :=
      fun hin => absurd (hfree.symm.trans (h.inside c hin)) nofun
    have hwait := hclear rfl hd hfree
    refine ⟨fun c hin => absurd hin (hout c), fun ht => absurd trivial ht, fun _ c => ?_⟩
    have hin := hout c
    have hw := hwait c
    generalize s.calls c = pc at hin hw
    cases pc with
    | notEntered => exact Or.inl rfl
    | returned => exact Or.inr rfl
    | lockingProcess => exact absurd rfl hw
    | _ => exact absurd trivial hin
  | torn pc lock processLock hd hp =>
    exact ⟨fun c hin => absurd hin (h.gone hd c).not_inside, fun ht => absurd hp ht,
      fun _ => h.gone hd⟩

theorem handshake_access {s : Threads Call} (h : Handshake s) {op : ThreadOp Call}
    {r : Threads Call × ThreadEvent Call} (hr : ThreadStep s op r) {c : Call} {pc : DestroyPc}
    (he : r.2 = .access c pc) :
    ¬ pc.TearingDown := by
  cases hr with
  | acquired c' t u processLock hc hl =>
    cases he
    exact h.entering (c := c) (by simp [hc, CallPc.Outside])
  | inside c' t u pc' manager lock hc hp e he' =>
    rcases he' with rfl | rfl
    · cases he
      exact h.entering (c := c) fun ho => ho.not_inside hc
    · cases he
  | left c' t u hc =>
    cases he
    exact h.entering (c := c) fun ho => ho.not_inside hc
  | _ => cases he

theorem handshake_run (C : SizeT) (I : Int) (ops : List (ThreadOp Call))
    (hclear : ∀ before after, ops = before ++ .destroy :: after →
      Clear ((shutdown Call).run (.create C I) before)) :
    Handshake ((shutdown Call).run (.create C I) ops) := by
  induction ops using List.reverseRecOn with
  | nil => exact handshake_create C I
  | append_singleton ops op ih =>
    rw [Machine.run_append]
    refine handshake_step (ih fun before after he => ?_) (shutdown_step _ op) fun hop => ?_
    · exact hclear before (after ++ [op]) (by rw [he, List.append_assoc, List.cons_append])
    · exact hclear ops [] (by rw [hop])

theorem access_after_delete {s : Threads Call} (h : ¬ Clear s) :
    ∃ after c, ThreadEvent.access c .done ∈ (shutdown Call).trace s after := by
  simp only [Clear, Classical.not_imp, not_forall, not_not] at h
  obtain ⟨hd, hfree, c, hc⟩ := h
  refine ⟨[.destroy, .destroy, .destroy, .destroy, .destroy, .step c 0 0], c, ?_⟩
  obtain ⟨manager, lock, processLock, calls, destroy⟩ := s
  obtain rfl : destroy = .lockingProcess := hd
  obtain rfl : processLock = .free := hfree
  simp [shutdown, Machine.out, Machine.next, Threads.destroyStep, Mutex.lock, Mutex.unlock,
    Threads.processWithSocket, show calls c = .lockingProcess from hc]

theorem shutdown_waits (C : SizeT) (I : Int) (ops : List (ThreadOp Call)) :
    ((∀ before after, ops = before ++ .destroy :: after →
        Clear ((shutdown Call).run (.create C I) before)) →
      ∀ c pc, .access c pc ∈ (shutdown Call).trace (.create C I) ops → ¬ pc.TearingDown) ∧
    (¬ Clear ((shutdown Call).run (.create C I) ops) →
      ∃ after c, .access c .done ∈
        (shutdown Call).trace ((shutdown Call).run (.create C I) ops) after) := by
  refine ⟨fun hclear c pc hmem => ?_, access_after_delete⟩
  obtain ⟨pre, op, post, rfl, he⟩ := Machine.mem_trace _ hmem
  have h := handshake_run C I pre fun before after hb =>
    hclear before (after ++ op :: post) (by rw [hb, List.append_assoc, List.cons_append])
  exact handshake_access h (shutdown_step _ op) he.symm

end Step

theorem shutdown_call_not_waited_for :
    ¬ ∀ (ops : List (ThreadOp Unit)) (c : Unit) (pc : DestroyPc),
      .access c pc ∈ (shutdown Unit).trace (.create 4 20000000) ops → pc ≠ .done := by
  intro h
  have hmem : .access () .done ∈ (shutdown Unit).trace (.create 4 20000000)
      (.enter () :: List.replicate 10 .destroy ++ [.step () 1 1]) := by decide +kernel
  exact h _ () .done hmem rfl

end UdpQueue
