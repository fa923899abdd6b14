import UdpQueue.System

namespace UdpQueue

inductive Visible (Thread : Type) where
  | replied (reply : Reply)
  | processed (t : Thread) (currentTime nanos : Int) (result : Processed)
  | finished (t : Thread) (sent : Dispatched) (currentTime : Int) (slept : Option Int)
  | moved (t : Thread)
  | blocked

def CallerEvent.visible {Call : Type} : CallerEvent Call → Visible Call
  | .request event => .replied event.reply
  | .processed c currentTime nanos result => .processed c currentTime nanos result
  | .finished c sent currentTime slept => .finished c sent currentTime slept
  | .moved c => .moved c
  | .blocked => .blocked

namespace SystemEvent
variable {Thread : Type}

-- the end of a section is where the whole of it takes effect
def effects : SystemEvent Thread → List (CallerOp Thread)
  | .entered t => [.enter t]
  | .done _ (.request request) _ => [.request request]
  | .done t .turn (.processed currentTime nanos _) => [.processNext t currentTime nanos]
  | .done t .turn _ => [.processNext t 0 0]
  | .finished t reading _ _ _ => [.finish t reading]
  | .left t => [.leave t]
  | _ => []

def visible : SystemEvent Thread → List (Visible Thread)
  | .entered t => [.moved t]
  | .done _ _ (.replied reply) => [.replied reply]
  | .done t _ (.processed currentTime nanos result) => [.processed t currentTime nanos result]
  | .done t _ .left => [.moved t]
  | .finished t _ sent currentTime slept => [.finished t sent currentTime slept]
  | .left t => [.moved t]
  | _ => []

end SystemEvent

def Outcome.phase : Outcome → Option Phase
  | .replied _ => none
  | .left => some .left
  | .processed currentTime _ result => some (.sending currentTime result)
  | .undefined => some .undefined

def sectionPhase : Section Work Outcome Body → Option Phase
  | .locking .turn => some .entering
  | .running .turn _ => some .entering
  | .unlocking outcome => outcome.phase
  | _ => none

def Control.phase (σ : Option (Section Work Outcome Body)) : Control → Option Phase
  | .inSection => σ.bind sectionPhase
  | .sending currentTime result => some (.sending currentTime result)
  | .unlockingProcess => some .left
  | .undefined => some .undefined
  | _ => none

theorem Outcome.next_phase (outcome : Outcome) : outcome.next.phase none = outcome.phase := by
  cases outcome <;> rfl

theorem Outcome.next_ne_inSection (outcome : Outcome) : outcome.next ≠ .inSection := by
  cases outcome <;> simp [Outcome.next]

section Section
variable {Thread : Type} [DecidableEq Thread] {g core : Guarded Thread Manager Work Outcome Body}
variable {t : Thread} {reading : Int}

theorem section_rest {r : Guarded Thread Manager Work Outcome Body × SectionEvent Work Outcome}
    (h : Guarded.Step sections g t reading r) {u : Thread} (hu : u ≠ t) :
    r.1.sections u = g.sections u := by
  cases h with
  | blocked _ => rfl
  | _ => exact Guarded.goto_of_ne _ hu _

theorem section_moved (h : Guarded.Step sections g t reading (core, .moved)) :
    core.sections t ≠ none ∧
      (core.sections t).bind sectionPhase = (g.sections t).bind sectionPhase := by
  cases h with
  | acquired i lock hs hl =>
    rw [Guarded.goto_self, hs]
    exact ⟨by simp, by cases i <;> rfl⟩
  | ran i b b' object hs hp =>
    rw [Guarded.goto_self, hs]
    exact ⟨by simp, by cases i <;> rfl⟩

theorem section_done {work : Work} {outcome : Outcome}
    (h : Guarded.Step sections g t reading (core, .done work outcome)) :
    core.sections t = some (.unlocking outcome) ∧ ∃ b, g.sections t = some (.running work b) := by
  cases h with
  | done _ b _ object hs hp => exact ⟨Guarded.goto_self .., b, hs⟩

theorem section_released {outcome : Outcome}
    (h : Guarded.Step sections g t reading (core, .released outcome)) :
    core.sections t = none ∧ g.sections t = some (.unlocking outcome) := by
  cases h with
  | released _ hs => exact ⟨Guarded.goto_self .., hs⟩

end Section

section Simulates
variable {Thread : Type}

structure Simulates (s : System Thread) (c : Callers Thread) : Prop where
  keeps : s.core.Keeps At c.manager
  processLock : s.processLock = c.processLock
  phase : ∀ t, (s.control t).phase (s.core.sections t) = c.phase t
  outside : ∀ t, s.control t ≠ .inSection ↔ s.core.sections t = none

theorem create_simulates (C : SizeT) (I : Int) :
    Simulates (.create C I : System Thread) (.create C I) where
  keeps := Guarded.create_keeps _
  processLock := rfl
  phase _ := rfl
  outside _ := iff_of_true (by simp [System.create]) rfl

variable {s s' : System Thread} {c c' : Callers Thread}

theorem Simulates.move (h : Simulates s c) (t : Thread) (hk : s'.core.Keeps At c'.manager)
    (hl : s'.processLock = c'.processLock)
    (hrest : ∀ u, u ≠ t → s'.control u = s.control u ∧ s'.core.sections u = s.core.sections u ∧
      c'.phase u = c.phase u)
    (hself : (s'.control t).phase (s'.core.sections t) = c'.phase t)
    (hout : s'.control t ≠ .inSection ↔ s'.core.sections t = none) : Simulates s' c' := by
  refine ⟨hk, hl, fun u => ?_, fun u => ?_⟩
  · rcases eq_or_ne u t with rfl | hne
    · exact hself
    · obtain ⟨hc, hs, hp⟩ := hrest u hne
      rw [hc, hs, hp, h.phase]
  · rcases eq_or_ne u t with rfl | hne
    · exact hout
    · obtain ⟨hc, hs, -⟩ := hrest u hne
      rw [hc, hs]
      exact h.outside u

theorem Simulates.phase_of (h : Simulates s c) {t : Thread} {control : Control} (hc : s.control t = control)
    (hn : control ≠ .inSection) : c.phase t = control.phase none := by
  rw [← h.phase, (h.outside t).mp (hc ▸ hn), hc]

variable [DecidableEq Thread] {t : Thread}

@[simp] theorem System.goto_control_self (s : System Thread) (t : Thread) (control : Control) :
    (s.goto t control).control t = control :=
  Function.update_self ..

theorem enterSection_sections (s : System Thread) (t : Thread) (work : Work) :
    (s.enterSection t work).core.sections t = some (.locking work) :=
  Guarded.goto_self ..

theorem enterSection_rest (s : System Thread) {t u : Thread} (hu : u ≠ t) (work : Work) :
    (s.enterSection t work).core.sections u = s.core.sections u :=
  Guarded.goto_of_ne _ hu _

theorem System.goto_control_of_ne (s : System Thread) {t u : Thread} (h : u ≠ t) (control : Control) :
    (s.goto t control).control u = s.control u :=
  Function.update_of_ne h ..

-- a thread outside of the sections goes elsewhere, or calls for the lock
theorem Simulates.goto (h : Simulates s c) (hc : s.control t ≠ .inSection) {control : Control}
    (hn : control ≠ .inSection) {processLock : Mutex Thread} (hm : c'.manager = c.manager)
    (hl : c'.processLock = processLock)
    (hp : c'.phase = Function.update c.phase t (control.phase none)) :
    Simulates ({ s with processLock }.goto t control) c' := by
  have hnone := (h.outside t).mp hc
  refine h.move t (hm ▸ h.keeps) hl.symm (fun u hu => ?_) ?_ (iff_of_true ?_ hnone)
  · exact ⟨System.goto_control_of_ne _ hu _, rfl, by rw [hp, Function.update_of_ne hu]⟩
  · rw [System.goto_control_self, hp, Function.update_self]
    change control.phase (s.core.sections t) = _
    rw [hnone]
  · rwa [System.goto_control_self]

theorem Simulates.enterSection (h : Simulates s c) (hc : s.control t ≠ .inSection) (work : Work)
    {processLock : Mutex Thread} (hm : c'.manager = c.manager) (hl : c'.processLock = processLock)
    (hp : c'.phase = Function.update c.phase t (sectionPhase (.locking work))) :
    Simulates ({ s with processLock }.enterSection t work) c' := by
  have hcalled : ({ s with processLock }.enterSection t work).core.sections t = some (.locking work) :=
    Guarded.goto_self ..
  have hcontrol : ({ s with processLock }.enterSection t work).control t = .inSection :=
    System.goto_control_self ..
  have hcore := h.keeps.call ((h.outside t).mp hc) work
  refine h.move t (hm ▸ hcore) hl.symm (fun u hu => ?_) ?_ (iff_of_false ?_ ?_)
  · exact ⟨System.goto_control_of_ne _ hu _, Guarded.goto_of_ne _ hu _,
      by rw [hp, Function.update_of_ne hu]⟩
  · rw [hp, Function.update_self, hcontrol, hcalled]
    rfl
  · exact not_not.mpr hcontrol
  · simp [hcalled]

theorem Simulates.stays (h : Simulates s c) {phase : Option Phase}
    (hp : (s.control t).phase (s.core.sections t) = phase) : c.phase = Function.update c.phase t phase := by
  rw [← hp, h.phase, Function.update_eq_self]

end Simulates

section Step
variable {Thread : Type} [DecidableEq Thread] (socketV4 socketV6 : Thread → SocketT)
variable {s : System Thread} {c : Callers Thread} {t : Thread} {reading : Int}
variable {core : Guarded Thread Manager Work Outcome Body}

theorem moved_corresponds (h : Simulates s c) (hc : s.control t = .inSection)
    (hs : Guarded.Step sections s.core t reading (core, .moved)) : Simulates { s with core } c := by
  rcases h.keeps.step sections_annotated hs with ⟨-, hk⟩ | ⟨i, o, he, -, -⟩
  · obtain ⟨hsome, hphase⟩ := section_moved hs
    refine h.move t hk h.processLock (fun u hu => ⟨rfl, section_rest hs hu, rfl⟩) ?_
      (iff_of_false (not_not.mpr hc) hsome)
    rw [← h.phase, hc]
    exact hphase
  · cases he

theorem released_corresponds (h : Simulates s c) {outcome : Outcome} (hc : s.control t = .inSection)
    (hs : Guarded.Step sections s.core t reading (core, .released outcome)) :
    Simulates ({ s with core }.goto t outcome.next) c := by
  obtain ⟨hafter, hbefore⟩ := section_released hs
  rcases h.keeps.step sections_annotated hs with ⟨-, hk⟩ | ⟨i, o, he, -, -⟩
  · refine h.move t hk h.processLock (fun u hu => ?_) ?_ (iff_of_true ?_ hafter)
    · exact ⟨System.goto_control_of_ne _ hu _, section_rest hs hu, rfl⟩
    · rw [← h.phase, hc, System.goto_control_self, Control.phase, hbefore]
      change outcome.next.phase (core.sections t) = _
      rw [hafter, Outcome.next_phase]
      rfl
    · rw [System.goto_control_self]
      exact outcome.next_ne_inSection
  · cases he

theorem done_atomically (h : Simulates s c) {work : Work} {outcome : Outcome}
    (hs : Guarded.Step sections s.core t reading (core, .done work outcome)) :
    Atomically c.manager work core.object outcome ∧ core.Keeps At core.object := by
  rcases h.keeps.step sections_annotated hs with ⟨he, -⟩ | ⟨i, o, he, hpost, hk⟩
  · cases he
  · cases he
    exact ⟨hpost, hk⟩

theorem done_corresponds (h : Simulates s c) {work : Work} {outcome : Outcome}
    (hc : s.control t = .inSection)
    (hs : Guarded.Step sections s.core t reading (core, .done work outcome)) :
    Simulates { s with core }
        ((callers socketV4 socketV6).run c (SystemEvent.done t work outcome).effects) ∧
      ((callers socketV4 socketV6).trace c (SystemEvent.done t work outcome).effects).map
        CallerEvent.visible = (SystemEvent.done t work outcome).visible := by
  obtain ⟨hpost, hk⟩ := done_atomically h hs
  obtain ⟨hafter, b, hbefore⟩ := section_done hs
  have hphase := h.phase t
  rw [hc, Control.phase, hbefore] at hphase
  have hmove {c' : Callers Thread} (hm : c'.manager = core.object)
      (hl : c'.processLock = c.processLock) (hp : c'.phase = Function.update c.phase t outcome.phase) :
      Simulates { s with core } c' := by
    refine h.move t (hm ▸ hk) (h.processLock.trans hl.symm) (fun u hu => ?_) ?_
      (iff_of_false (not_not.mpr hc) (by simp [hafter]))
    · exact ⟨rfl, section_rest hs hu, by rw [hp, Function.update_of_ne hu]⟩
    · rw [hp, Function.update_self, hc, Control.phase, hafter]
      rfl
  generalize hobject : core.object = object at hpost
  cases hpost with
  | request request =>
    refine ⟨hmove hobject.symm rfl ?_, rfl⟩
    change c.phase = _
    rw [Outcome.phase, show none = c.phase t from hphase, Function.update_eq_self]
  | left hdown =>
    have hstep : (callers socketV4 socketV6).step c (.processNext t 0 0) =
        (c.goto t (some .left), .moved t) := by
      change c.processNext t 0 0 = _
      rw [Callers.processNext, ← show some Phase.entering = c.phase t from hphase]
      exact if_pos hdown
    simp only [SystemEvent.effects, Machine.run_cons, Machine.run_nil, Machine.trace_cons,
      Machine.trace_nil, Machine.next, Machine.out, hstep]
    exact ⟨hmove hobject.symm rfl rfl, rfl⟩
  | processed current nanos hup =>
    have hstep : (callers socketV4 socketV6).step c (.processNext t current nanos) =
        ({ c with manager := (c.manager.processNextLocked {} current nanos).1 }.goto t
            (some (.sending current (c.manager.processNextLocked {} current nanos).2)),
          .processed t current nanos (c.manager.processNextLocked {} current nanos).2) := by
      change c.processNext t current nanos = _
      rw [Callers.processNext, ← show some Phase.entering = c.phase t from hphase]
      exact if_neg (by simp [hup])
    simp only [SystemEvent.effects, Machine.run_cons, Machine.run_nil, Machine.trace_cons,
      Machine.trace_nil, Machine.next, Machine.out, hstep]
    exact ⟨hmove hobject.symm rfl rfl, rfl⟩

theorem system_corresponds (h : Simulates s c) (op : SystemOp Thread) :
    Simulates ((system socketV4 socketV6).next s op) ((callers socketV4 socketV6).run c
        ((system socketV4 socketV6).out s op).effects) ∧
      ((callers socketV4 socketV6).trace c ((system socketV4 socketV6).out s op).effects).map
        CallerEvent.visible = ((system socketV4 socketV6).out s op).visible := by
  have hstep := system_step socketV4 socketV6 s op
  rw [Machine.next, Machine.out]
  generalize (system socketV4 socketV6).step s op = r at hstep
  cases hstep with
  | called t request hc =>
    refine ⟨h.enterSection (by simp [hc]) _ rfl h.processLock.symm (h.stays ?_), rfl⟩
    rw [hc]
    rfl
  | approached t hc =>
    refine ⟨h.goto (by simp [hc]) (by simp) rfl h.processLock.symm (h.stays ?_), rfl⟩
    rw [hc]
    rfl
  | entered t processLock hc hl =>
    have hphase := h.phase_of hc (by simp)
    have hstep : (callers socketV4 socketV6).step c (.enter t) =
        ({ c with processLock }.goto t (some .entering), .moved t) := by
      change c.enter t = _
      rw [Callers.enter, hphase, ← h.processLock, hl]
      rfl
    simp only [SystemEvent.effects, Machine.run_cons, Machine.run_nil, Machine.trace_cons,
      Machine.trace_nil, Machine.next, Machine.out, hstep]
    exact ⟨h.enterSection (by simp [hc]) .turn rfl rfl rfl, rfl⟩
  | moved t reading core hc hs => exact ⟨moved_corresponds h hc hs, rfl⟩
  | done t reading core work outcome hc hs => exact done_corresponds socketV4 socketV6 h hc hs
  | released t reading core outcome hc hs => exact ⟨released_corresponds h hc hs, rfl⟩
  | crashed t current reading result hc hd =>
    have hphase := h.phase_of hc (by simp)
    have hstep : (callers socketV4 socketV6).step c (.finish t reading) =
        (c.goto t (some .undefined), .finished t .undefined current none) := by
      change c.finish socketV4 socketV6 t reading = _
      rw [Callers.finish, hphase]
      simp only [Control.phase, hd]
    simp only [SystemEvent.effects, Machine.run_cons, Machine.run_nil, Machine.trace_cons,
      Machine.trace_nil, Machine.next, Machine.out, hstep]
    exact ⟨h.goto (by simp [hc]) (by simp) rfl h.processLock.symm rfl, rfl⟩
  | finished t current reading result sent hc hd hu =>
    have hphase := h.phase_of hc (by simp)
    have hstep := finish_of_sending socketV4 socketV6 hphase hd hu reading
    simp only [SystemEvent.effects, Machine.run_cons, Machine.run_nil, Machine.trace_cons,
      Machine.trace_nil, Machine.next, Machine.out, hstep]
    exact ⟨h.enterSection (by simp [hc]) .turn rfl h.processLock.symm rfl, rfl⟩
  | left t hc =>
    have hphase := h.phase_of hc (by simp)
    have hstep : (callers socketV4 socketV6).step c (.leave t) =
        ({ c with processLock := c.processLock.unlock }.goto t none, .moved t) := by
      change c.leave t = _
      rw [Callers.leave, hphase]
      rfl
    simp only [SystemEvent.effects, Machine.run_cons, Machine.run_nil, Machine.trace_cons,
      Machine.trace_nil, Machine.next, Machine.out, hstep]
    exact ⟨h.goto (by simp [hc]) (by simp) rfl (by rw [h.processLock]; rfl) rfl, rfl⟩
  | blocked => exact ⟨h, rfl⟩

theorem system_simulates (C : SizeT) (I : Int) (ops : List (SystemOp Thread)) :
    Simulates ((system socketV4 socketV6).run (.create C I) ops)
        ((callers socketV4 socketV6).run (.create C I)
          (((system socketV4 socketV6).trace (.create C I) ops).flatMap SystemEvent.effects)) ∧
      ((callers socketV4 socketV6).trace (.create C I)
          (((system socketV4 socketV6).trace (.create C I) ops).flatMap SystemEvent.effects)).map
          CallerEvent.visible =
        ((system socketV4 socketV6).trace (.create C I) ops).flatMap SystemEvent.visible :=
  Machine.correspondence (M := system socketV4 socketV6) (N := callers socketV4 socketV6)
    (R := Simulates) (fun _ _ op h => system_corresponds socketV4 socketV6 h op)
    (create_simulates C I) ops

theorem done_effect {C : SizeT} {I : Int} {ops : List (SystemOp Thread)} {work : Work}
    {outcome : Outcome} (h : .done t work outcome ∈ (system socketV4 socketV6).trace (.create C I) ops) :
    ∃ m m', Atomically m work m' outcome := by
  obtain ⟨pre, op, post, rfl, he⟩ := Machine.mem_trace _ h
  have hsim := (system_simulates socketV4 socketV6 C I pre).1
  have hstep := system_step socketV4 socketV6 ((system socketV4 socketV6).run (.create C I) pre) op
  rw [Machine.out] at he
  generalize (system socketV4 socketV6).step _ op = r at hstep he
  cases hstep with
  | done t reading core work outcome hc hs =>
    cases he
    exact ⟨_, _, (done_atomically hsim hs).1⟩
  | _ => cases he

theorem done_survives (C : SizeT) (I : Int) (ops : List (SystemOp Thread)) (t : Thread) (work : Work) :
    .done t work .undefined ∉ (system socketV4 socketV6).trace (.create C I) ops := by
  intro hmem
  obtain ⟨m, m', h⟩ := done_effect socketV4 socketV6 hmem
  cases h

theorem sections_atomic (C : SizeT) (I : Int) (ops : List (SystemOp Thread)) :
    let trace := (system socketV4 socketV6).trace (.create C I) ops
    let s := (system socketV4 socketV6).run (.create C I) ops
    let effects := trace.flatMap SystemEvent.effects
    ((callers socketV4 socketV6).trace (.create C I) effects).map CallerEvent.visible =
        trace.flatMap SystemEvent.visible ∧
      (s.core.lock = .free →
        s.core.object = ((callers socketV4 socketV6).run (.create C I) effects).manager) ∧
      ∀ t work, .done t work .undefined ∉ trace := by
  intro trace s effects
  obtain ⟨hsim, hvisible⟩ := system_simulates socketV4 socketV6 C I ops
  exact ⟨hvisible, hsim.keeps.object_of_free, done_survives socketV4 socketV6 C I ops⟩

end Step

end UdpQueue
