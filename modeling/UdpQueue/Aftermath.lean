import UdpQueue.Completion

namespace UdpQueue

def SystemEvent.TakesTurn {Thread : Type} : SystemEvent Thread → Prop
  | .done _ .turn (.processed _ _ _) => True
  | _ => False

def SystemEvent.Finishes {Thread : Type} : SystemEvent Thread → Prop
  | .finished _ _ _ _ _ => True
  | _ => False

section Sending
variable {Thread : Type} {s : System Thread} {c : Callers Thread} {t u : Thread}

inductive System.Sending (s : System Thread) (t : Thread) : Prop
  | control (current : Int) (result : Processed) (hc : s.control t = .sending current result)
  | releasing (current nanos : Int) (result : Processed)
      (hs : s.core.sections t = some (.unlocking (.processed current nanos result)))

theorem System.Sending.phase (h : s.Sending t) (hsim : Simulates s c) : c.phase t ≠ none := by
  rw [← hsim.phase]
  cases h with
  | control current result hc => simp [hc, Control.phase]
  | releasing current nanos result hs =>
    have hin : s.control t = .inSection := by
      by_contra hno
      rw [(hsim.outside t).mp hno] at hs
      cases hs
    simp [hin, hs, Control.phase, sectionPhase, Outcome.phase]

theorem not_sending {control : Control} {σ : Option (Section Work Outcome Body)}
    (hc : s.control t = control) (hs : s.core.sections t = σ)
    (hcontrol : ∀ current result, control ≠ .sending current result)
    (hσ : ∀ current nanos result, σ ≠ some (.unlocking (.processed current nanos result))) :
    ¬ s.Sending t := by
  intro h
  cases h with
  | control current result h => exact hcontrol current result (hc ▸ h)
  | releasing current nanos result h => exact hσ current nanos result (hs ▸ h)

end Sending

section Step
variable {Thread : Type} [DecidableEq Thread] {socketV4 socketV6 : Thread → SocketT}
variable {s : System Thread} {c : Callers Thread} {r : System Thread × SystemEvent Thread}
variable {t u : Thread}

theorem entering_not_sending (s : System Thread) (t : Thread) (work : Work) :
    ¬ (s.enterSection t work).Sending t :=
  not_sending (System.goto_control_self ..) (enterSection_sections s t work) (by simp) (by simp)

theorem down_step (h : Simulates s c) (hr : SystemStep socketV4 socketV6 s r)
    (hd : s.core.object.shuttingDown = true) :
    r.1.core.object.shuttingDown = true ∧ ¬ r.2.TakesTurn := by
  have hflag {u : Thread} {reading : Int} {core : Guarded Thread Manager Work Outcome Body}
      {e : SectionEvent Work Outcome} (hs : Guarded.Step sections s.core u reading (core, e)) :
      core.object.shuttingDown = true := by
    cases hs with
    | ran i b b' object hb hp => exact sectionStep_shuttingDown hp hd
    | done i b o object hb hp => exact sectionStep_shuttingDown hp hd
    | _ => exact hd
  cases hr with
  | moved u reading core hc hs => exact ⟨hflag hs, id⟩
  | done u reading core work outcome hc hs =>
    refine ⟨hflag hs, ?_⟩
    have hpost := (done_atomically h hs).1
    generalize core.object = object at hpost
    cases hpost with
    | processed current nanos hup =>
      rw [object_shuttingDown h, hup] at hd
      cases hd
    | _ => exact id
  | released u reading core outcome hc hs => exact ⟨hflag hs, id⟩
  | _ => exact ⟨hd, id⟩

theorem sending_before (h : Simulates s c) (hr : SystemStep socketV4 socketV6 s r)
    (hd : s.core.object.shuttingDown = true) (hsend : r.1.Sending t) : s.Sending t := by
  have hturn := (down_step h hr hd).2
  by_cases ht : r.2.thread = some t
  · cases hr with
    | called u request hc =>
      obtain rfl := Option.some.inj ht
      exact absurd hsend (entering_not_sending s u _)
    | approached u hc =>
      obtain rfl := Option.some.inj ht
      have hnone := (h.outside u).mp (by simp [hc])
      exact absurd hsend (not_sending (System.goto_control_self ..) hnone (by simp) (by simp))
    | entered u processLock hc hl =>
      obtain rfl := Option.some.inj ht
      exact absurd hsend (entering_not_sending _ u _)
    | moved u reading core hc hs =>
      obtain rfl := Option.some.inj ht
      refine absurd hsend (not_sending (s := { s with core }) hc rfl (by simp) fun _ _ _ hafter => ?_)
      cases hs with
      | acquired i lock hwait hl => cases (Guarded.goto_self ..).symm.trans hafter
      | ran i b b' object hb hp => cases (Guarded.goto_self ..).symm.trans hafter
    | done u reading core work outcome hc hs =>
      obtain rfl := Option.some.inj ht
      refine absurd hsend (not_sending (s := { s with core }) hc (section_done hs).1 (by simp) ?_)
      intro current nanos result he
      cases he
      have hpost := (done_atomically h hs).1
      generalize core.object = object at hpost
      cases hpost with
      | processed current nanos hup => exact hturn trivial
    | released u reading core outcome hc hs =>
      obtain rfl := Option.some.inj ht
      obtain ⟨hafter, hbefore⟩ := section_released hs
      cases outcome with
      | processed current nanos result => exact .releasing current nanos result hbefore
      | _ =>
        exact absurd hsend (not_sending (System.goto_control_self ..) hafter
          (by simp [Outcome.next]) (by simp))
    | crashed u current reading result hc hx =>
      obtain rfl := Option.some.inj ht
      exact .control current result hc
    | finished u current reading result sent hc hx hu =>
      obtain rfl := Option.some.inj ht
      exact .control current result hc
    | left u hc =>
      obtain rfl := Option.some.inj ht
      have hnone := (h.outside u).mp (by simp [hc])
      exact absurd hsend (not_sending (System.goto_control_self ..) hnone (by simp) (by simp))
    | blocked => exact hsend
  · obtain ⟨hc, hs, -, -⟩ := other_step h hr ht
    cases hsend with
    | control current result h' => exact .control current result (hc ▸ h')
    | releasing current nanos result h' => exact .releasing current nanos result (hs ▸ h')

-- only the holder of `process_lock` sends, and it has nothing left to send
theorem finish_was_last (h : Simulates s c) (he : c.Exclusive) (hr : SystemStep socketV4 socketV6 s r)
    (hd : s.core.object.shuttingDown = true) (hf : r.2.Finishes) :
    (∃ t, r.2.thread = some t ∧ s.Sending t) ∧ ∀ u, ¬ r.1.Sending u := by
  have hothers {t : Thread} (ht : s.Sending t) (hself : ¬ r.1.Sending t) (u : Thread) :
      ¬ r.1.Sending u := by
    intro hu
    have hwas := sending_before h hr hd hu
    rw [he.unique (ht.phase h) (hwas.phase h)] at hu
    exact hself hu
  cases hr with
  | crashed t current reading result hc hx =>
    have hnone := (h.outside t).mp (by simp [hc])
    refine ⟨⟨t, rfl, .control current result hc⟩, hothers (.control current result hc) ?_⟩
    exact not_sending (System.goto_control_self ..) hnone (by simp) (by simp)
  | finished t current reading result sent hc hx hu =>
    exact ⟨⟨t, rfl, .control current result hc⟩,
      hothers (.control current result hc) (entering_not_sending s t _)⟩
  | _ => exact hf.elim

end Step

section Run
variable {Thread : Type} [DecidableEq Thread] {socketV4 socketV6 : Thread → SocketT}

def Down (s : System Thread) : Prop :=
  (∃ c, Simulates s c ∧ c.Exclusive) ∧ s.core.object.shuttingDown = true

theorem down_next {s : System Thread} (h : Down s) (op : SystemOp Thread) :
    Down ((system socketV4 socketV6).next s op) := by
  obtain ⟨⟨c, hsim, he⟩, hd⟩ := h
  refine ⟨⟨_, (system_corresponds socketV4 socketV6 hsim op).1, ?_⟩,
    (down_step hsim (system_step socketV4 socketV6 s op) hd).1⟩
  exact Machine.run_invariant (M := callers socketV4 socketV6)
    (fun c op h => Callers.exclusive_step (caller_step socketV4 socketV6 c op) h) he _

theorem down_run (socketV4 socketV6 : Thread → SocketT) {s : System Thread} (h : Down s)
    (ops : List (SystemOp Thread)) : Down ((system socketV4 socketV6).run s ops) :=
  Machine.run_invariant (P := Down) (fun _ op hs => down_next hs op) h ops

theorem sending_since {s : System Thread} (h : Down s) (ops : List (SystemOp Thread)) {t : Thread}
    (ht : ((system socketV4 socketV6).run s ops).Sending t) : s.Sending t := by
  induction ops generalizing s with
  | nil => exact ht
  | cons op ops ih =>
    have hnext := ih (down_next h op) ht
    obtain ⟨⟨c, hsim, -⟩, hd⟩ := h
    exact sending_before hsim (system_step socketV4 socketV6 s op) hd hnext

theorem shut_down_sets {s : System Thread} {c : Callers Thread} (h : Simulates s c)
    {r : System Thread × SystemEvent Thread} (hr : SystemStep socketV4 socketV6 s r) {u : Thread}
    {outcome : Outcome} (he : r.2 = .done u (.request .shutDown) outcome) :
    r.1.core.object.shuttingDown = true := by
  cases hr with
  | done t reading core work o hc hs =>
    cases he
    have hpost := (done_atomically h hs).1
    change core.object.shuttingDown = true
    generalize core.object = object at hpost
    cases hpost with
    | request request => rfl
  | _ => cases he

theorem after_shut_down (socketV4 socketV6 : Thread → SocketT) (C : SizeT) (I : Int)
    (pre : List (SystemOp Thread)) (op : SystemOp Thread) (post : List (SystemOp Thread)) (u : Thread)
    (outcome : Outcome)
    (h : (system socketV4 socketV6).out ((system socketV4 socketV6).run (.create C I) pre) op =
      .done u (.request .shutDown) outcome) :
    let s := (system socketV4 socketV6).run (.create C I) (pre ++ [op])
    let after := (system socketV4 socketV6).trace s post
    (∀ e ∈ after, ¬ e.TakesTurn) ∧
      (∀ e ∈ after, e.Finishes → ∃ t, e.thread = some t ∧ s.Sending t) ∧
      ∀ early e late, after = early ++ e :: late → e.Finishes → ∀ e' ∈ late, ¬ e'.Finishes := by
  intro s after
  have hsim := (system_simulates socketV4 socketV6 C I (pre ++ [op])).1
  have hexclusive := (Callers.owned_run socketV4 socketV6 C I
    (((system socketV4 socketV6).trace (.create C I) (pre ++ [op])).flatMap SystemEvent.effects)).1
  have hset : s.core.object.shuttingDown = true := by
    change ((system socketV4 socketV6).run _ (pre ++ [op])).core.object.shuttingDown = true
    rw [Machine.run_append]
    exact shut_down_sets (system_simulates socketV4 socketV6 C I pre).1
      (system_step socketV4 socketV6 _ op) h
  have hdown : Down s := ⟨⟨_, hsim, hexclusive⟩, hset⟩
  refine ⟨fun e hmem => ?_, fun e hmem hf => ?_, fun early e late hsplit hf e' hmem hf' => ?_⟩
  · obtain ⟨pre', op', post', -, rfl⟩ := Machine.mem_trace _ hmem
    obtain ⟨⟨c, hc, -⟩, hd⟩ := down_run socketV4 socketV6 hdown pre'
    exact (down_step hc (system_step socketV4 socketV6 _ op') hd).2
  · obtain ⟨pre', op', post', -, rfl⟩ := Machine.mem_trace _ hmem
    obtain ⟨⟨c, hc, hex⟩, hd⟩ := down_run socketV4 socketV6 hdown pre'
    obtain ⟨⟨t, hthread, ht⟩, -⟩ :=
      finish_was_last hc hex (system_step socketV4 socketV6 _ op') hd hf
    exact ⟨t, hthread, sending_since hdown pre' ht⟩
  · obtain ⟨pre', op', post', -, -, rfl, rfl⟩ := Machine.trace_split _ hsplit
    have hthen := down_run socketV4 socketV6 hdown pre'
    have ⟨⟨c, hc, hex⟩, hd⟩ := hthen
    have hnone := (finish_was_last hc hex (system_step socketV4 socketV6 _ op') hd hf).2
    obtain ⟨pre'', op'', post'', -, rfl⟩ := Machine.mem_trace _ hmem
    have hlater : Down ((system socketV4 socketV6).next _ op') := down_next hthen op'
    obtain ⟨⟨c', hc', hex'⟩, hd'⟩ := down_run socketV4 socketV6 hlater pre''
    obtain ⟨⟨t, -, ht⟩, -⟩ := finish_was_last hc' hex' (system_step socketV4 socketV6 _ op'') hd' hf'
    exact hnone t (sending_since hlater pre'' ht)

end Run

-- the flag is set while the first thread is on its way to `sendto`
theorem after_shut_down_sending :
    let M := system (fun _ : Bool => 3) fun _ => 4
    let s := M.run (.create 4 20000000) [.enter true, .step true 0, .step true 0, .step true 0,
      .step true 5, .step true 0, .step true 0, .call false .shutDown, .step false 0, .step false 0]
    let after := M.trace s [.step false 0, .step true 9, .step true 0, .step true 0]
    (∀ e ∈ after, ¬ e.TakesTurn) ∧
      (∀ e ∈ after, e.Finishes → ∃ t, e.thread = some t ∧ s.Sending t) ∧
      ∀ early e late, after = early ++ e :: late → e.Finishes → ∀ e' ∈ late, ¬ e'.Finishes :=
  after_shut_down (fun _ => 3) (fun _ => 4) 4 20000000
    [.enter true, .step true 0, .step true 0, .step true 0, .step true 5, .step true 0, .step true 0,
      .call false .shutDown, .step false 0] (.step false 0)
    [.step false 0, .step true 9, .step true 0, .step true 0] false (.replied .shutDown) rfl

end UdpQueue
