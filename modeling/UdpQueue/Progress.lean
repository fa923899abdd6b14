import UdpQueue.SystemRefinement

namespace UdpQueue

namespace Callers
variable {Call : Type}

def Owned (s : Callers Call) : Prop := ∀ c, s.processLock = .held c → s.phase c ≠ none

variable [DecidableEq Call]

theorem Owned.goto {s : Callers Call} (h : s.Owned) (c : Call) {phase : Option Phase}
    (hp : phase ≠ none) : (s.goto c phase).Owned := by
  intro d hd
  rcases eq_or_ne d c with rfl | hne
  · simpa [Callers.goto] using hp
  · rw [goto_of_ne hne]
    exact h d hd

theorem owned_step {socketV4 socketV6 : Call → SocketT} {s : Callers Call}
    {r : Callers Call × CallerEvent Call} (h : CallerStep socketV4 socketV6 s r)
    (hs : s.Exclusive) (ho : s.Owned) : r.1.Owned := by
  cases h with
  | request request => exact ho
  | entered c processLock hp hl =>
    obtain ⟨hfree, rfl⟩ := Mutex.lock_eq_some hl hs.live
    intro d hd
    obtain rfl := Mutex.held.inj hd
    simp [Callers.goto]
  | left c hp => exact ho.goto c (by simp)
  | processed c t u hp =>
    have hnext : Owned { s with manager := client.next s.manager (.processNext t u) } := ho
    exact hnext.goto c (by simp)
  | crashed c t result hp hd => exact ho.goto c (by simp)
  | finished c t reading current result sent hp hd hu hc => exact ho.goto c (by simp)
  | returned c hp =>
    intro d hd
    have hfree : s.processLock.unlock = .free := by
      rw [hs.holder c (by simp [hp])]
      rfl
    cases hfree.symm.trans hd
  | blocked => exact ho

theorem owned_run (socketV4 socketV6 : Call → SocketT) (C : SizeT) (I : Int)
    (ops : List (CallerOp Call)) :
    ((callers socketV4 socketV6).run (.create C I) ops).Exclusive ∧
      ((callers socketV4 socketV6).run (.create C I) ops).Owned := by
  refine Machine.run_invariant (M := callers socketV4 socketV6)
    (P := fun s => s.Exclusive ∧ s.Owned) (fun s op h => ?_) ⟨create_exclusive C I, fun _ h => ?_⟩ ops
  · have hstep := caller_step socketV4 socketV6 s op
    exact ⟨exclusive_step hstep h.1, owned_step hstep h.1 h.2⟩
  · cases h

end Callers

section Waiting
variable {Thread : Type} [DecidableEq Thread] (socketV4 socketV6 : Thread → SocketT)

def Moves (s : System Thread) (t : Thread) : Prop :=
  ∀ reading e, (system socketV4 socketV6).out s (.step t reading) = e → e ≠ .blocked

inductive WaitsFor (s : System Thread) (t u : Thread) : Prop
  | lock (work : Work) (hc : s.control t = .inSection)
      (hs : s.core.sections t = some (.locking work)) (hl : s.core.lock = .held u)
  | processLock (hc : s.control t = .lockingProcess) (hl : s.processLock = .held u)

variable {socketV4 socketV6} {s : System Thread} {c : Callers Thread} {t u : Thread}

theorem inside_moves (h : Simulates s c) (ht : s.core.Inside t) : Moves socketV4 socketV6 s t := by
  have hc : s.control t = .inSection := by
    by_contra hno
    have hnone := (h.outside t).mp hno
    rcases ht with ⟨i, b, hs⟩ | ⟨o, hs⟩
    · cases hnone.symm.trans hs
    · cases hnone.symm.trans hs
  rintro reading e rfl
  change (s.step socketV4 socketV6 t reading).2 ≠ .blocked
  rw [System.step, hc]
  simp only [System.stepSection, Guarded.step]
  rcases ht with ⟨i, b, hs⟩ | ⟨o, hs⟩
  · rw [hs]
    simp only []
    rcases sections.step s.core.object b reading with ⟨object, b' | o⟩
    · simp
    · simp
  · rw [hs]
    simp

theorem section_moves_or_waits (socketV4 socketV6 : Thread → SocketT) (h : Simulates s c)
    (hc : s.control t = .inSection) :
    Moves socketV4 socketV6 s t ∨ ∃ u, WaitsFor s t u ∧ Moves socketV4 socketV6 s u := by
  rcases hs : s.core.sections t with _ | ⟨work⟩ | ⟨i, b⟩ | ⟨o⟩
  · exact absurd hc ((h.outside t).mpr hs)
  · cases hl : s.core.lock with
    | free =>
      refine Or.inl ?_
      rintro reading e rfl
      change (s.step socketV4 socketV6 t reading).2 ≠ .blocked
      rw [System.step, hc]
      simp [System.stepSection, Guarded.step, hs, hl, Mutex.lock]
    | held u => exact Or.inr ⟨u, .lock work hc hs hl, inside_moves h (h.keeps.holder u hl)⟩
    | destroyed => exact absurd hl h.keeps.alive
  · exact Or.inl (inside_moves h (Or.inl ⟨i, b, hs⟩))
  · exact Or.inl (inside_moves h (Or.inr ⟨o, hs⟩))

theorem sending_moves {current : Int} {result : Processed} (hc : s.control t = .sending current result) :
    Moves socketV4 socketV6 s t := by
  rintro reading e rfl
  change (s.step socketV4 socketV6 t reading).2 ≠ .blocked
  rw [System.step, hc]
  simp only [System.send]
  cases dispatched (socketV4 t) (socketV6 t) result.packetOut <;> simp

theorem unlocking_moves (hc : s.control t = .unlockingProcess) : Moves socketV4 socketV6 s t := by
  rintro reading e rfl
  change (s.step socketV4 socketV6 t reading).2 ≠ .blocked
  rw [System.step, hc]
  simp

theorem owner_moves_or_waits (h : Simulates s c) (ho : c.Owned) (hl : s.processLock = .held t) :
    s.control t = .undefined ∨ Moves socketV4 socketV6 s t ∨
      ∃ u, WaitsFor s t u ∧ Moves socketV4 socketV6 s u := by
  have hphase := ho t (h.processLock ▸ hl)
  rw [← h.phase] at hphase
  rcases hc : s.control t with _ | _ | _ | ⟨current, result⟩ | _ | _
  · rw [hc] at hphase
    exact absurd rfl hphase
  · exact Or.inr (section_moves_or_waits socketV4 socketV6 h hc)
  · rw [hc] at hphase
    exact absurd rfl hphase
  · exact Or.inr (Or.inl (sending_moves hc))
  · exact Or.inr (Or.inl (unlocking_moves hc))
  · exact Or.inl rfl

theorem moves_or_waits (h : Simulates s c) (he : c.Exclusive) (ho : c.Owned)
    (hc : s.control t ≠ .idle) :
    s.control t = .undefined ∨ Moves socketV4 socketV6 s t ∨
      ∃ u, WaitsFor s t u ∧ (s.control u = .undefined ∨ Moves socketV4 socketV6 s u ∨
        ∃ v, WaitsFor s u v ∧ Moves socketV4 socketV6 s v) := by
  rcases hin : s.control t with _ | _ | _ | ⟨current, result⟩ | _ | _
  · exact absurd hin hc
  · rcases section_moves_or_waits socketV4 socketV6 h hin with hm | ⟨u, hw, hm⟩
    · exact Or.inr (Or.inl hm)
    · exact Or.inr (Or.inr ⟨u, hw, Or.inr (Or.inl hm)⟩)
  · cases hl : s.processLock with
    | free =>
      refine Or.inr (Or.inl ?_)
      rintro reading e rfl
      change (s.step socketV4 socketV6 t reading).2 ≠ .blocked
      rw [System.step, hin]
      simp [hl, Mutex.lock]
    | held u => exact Or.inr (Or.inr ⟨u, .processLock hin hl, owner_moves_or_waits h ho hl⟩)
    | destroyed => exact absurd (h.processLock.symm.trans hl) he.live
  · exact Or.inr (Or.inl (sending_moves hin))
  · exact Or.inr (Or.inl (unlocking_moves hin))
  · exact Or.inl rfl

end Waiting

end UdpQueue
