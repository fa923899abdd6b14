import UdpQueue.SystemRefinement

namespace UdpQueue

section History
variable {Thread : Type}

-- the call of a request by `t`, its effect and its return
def SystemEvent.Marks (t : Thread) : SystemEvent Thread → Prop
  | .called u _ => u = t
  | .done u (.request _) _ => u = t
  | .released u (.replied _) => u = t
  | _ => False

def Asked (t : Thread) (request : Request) (events : List (SystemEvent Thread)) : Prop :=
  ∃ before since, events = before ++ .called t request :: since ∧ ∀ e ∈ since, ¬ e.Marks t

def Answered (t : Thread) (request : Request) (reply : Reply) (events : List (SystemEvent Thread)) :
    Prop :=
  ∃ before since, events = before ++ .done t (.request request) (.replied reply) :: since ∧
    (∀ e ∈ since, ¬ e.Marks t) ∧ Asked t request before

structure Told (s : System Thread) (events : List (SystemEvent Thread)) : Prop where
  locking : ∀ t request, s.core.sections t = some (.locking (.request request)) →
    Asked t request events
  running : ∀ t request b, s.core.sections t = some (.running (.request request) b) →
    Asked t request events
  unlocking : ∀ t reply, s.core.sections t = some (.unlocking (.replied reply)) →
    ∃ request, Answered t request reply events

variable {t : Thread} {request : Request} {reply : Reply} {events : List (SystemEvent Thread)}
variable {e : SystemEvent Thread}

theorem unmarked_snoc {since : List (SystemEvent Thread)} (h : ∀ e ∈ since, ¬ e.Marks t)
    (he : ¬ e.Marks t) : ∀ e' ∈ since ++ [e], ¬ e'.Marks t :=
  List.forall_mem_append.mpr ⟨h, List.forall_mem_singleton.mpr he⟩

theorem Asked.snoc (h : Asked t request events) (he : ¬ e.Marks t) : Asked t request (events ++ [e]) := by
  obtain ⟨before, since, rfl, hsince⟩ := h
  exact ⟨before, since ++ [e], by simp, unmarked_snoc hsince he⟩

theorem Answered.snoc (h : Answered t request reply events) (he : ¬ e.Marks t) :
    Answered t request reply (events ++ [e]) := by
  obtain ⟨before, since, rfl, hsince, hasked⟩ := h
  exact ⟨before, since ++ [e], by simp, unmarked_snoc hsince he, hasked⟩

theorem told_create (C : SizeT) (I : Int) : Told (.create C I : System Thread) [] where
  locking t request h := by cases h
  running t request b h := by cases h
  unlocking t reply h := by cases h

-- all but the acting thread see an event that is not theirs
theorem Told.act {s s' : System Thread} (h : Told s events) (t : Thread)
    (hrest : ∀ u, u ≠ t → s'.core.sections u = s.core.sections u) (hm : ∀ u, u ≠ t → ¬ e.Marks u)
    (hlocking : ∀ request, s'.core.sections t = some (.locking (.request request)) →
      Asked t request (events ++ [e]))
    (hrunning : ∀ request b, s'.core.sections t = some (.running (.request request) b) →
      Asked t request (events ++ [e]))
    (hunlocking : ∀ reply, s'.core.sections t = some (.unlocking (.replied reply)) →
      ∃ request, Answered t request reply (events ++ [e])) : Told s' (events ++ [e]) := by
  refine ⟨fun u request hs => ?_, fun u request b hs => ?_, fun u reply hs => ?_⟩
  · rcases eq_or_ne u t with rfl | hu
    · exact hlocking request hs
    · exact (h.locking u request (hrest u hu ▸ hs)).snoc (hm u hu)
  · rcases eq_or_ne u t with rfl | hu
    · exact hrunning request b hs
    · exact (h.running u request b (hrest u hu ▸ hs)).snoc (hm u hu)
  · rcases eq_or_ne u t with rfl | hu
    · exact hunlocking reply hs
    · obtain ⟨request, hr⟩ := h.unlocking u reply (hrest u hu ▸ hs)
      exact ⟨request, hr.snoc (hm u hu)⟩

theorem Told.idle {s s' : System Thread} (h : Told s events)
    (hs : ∀ u, s'.core.sections u = s.core.sections u ∨ s'.core.sections u = some (.locking .turn))
    (hm : ∀ u, ¬ e.Marks u) : Told s' (events ++ [e]) := by
  refine ⟨fun u request hu => ?_, fun u request b hu => ?_, fun u reply hu => ?_⟩
  · rcases hs u with he | he
    · exact (h.locking u request (he ▸ hu)).snoc (hm u)
    · rw [he] at hu
      cases hu
  · rcases hs u with he | he
    · exact (h.running u request b (he ▸ hu)).snoc (hm u)
    · rw [he] at hu
      cases hu
  · rcases hs u with he | he
    · obtain ⟨request, hr⟩ := h.unlocking u reply (he ▸ hu)
      exact ⟨request, hr.snoc (hm u)⟩
    · rw [he] at hu
      cases hu

end History

section Step
variable {Thread : Type} [DecidableEq Thread] {socketV4 socketV6 : Thread → SocketT}
variable {s : System Thread} {c : Callers Thread} {t : Thread} {reading : Int}
variable {core : Guarded Thread Manager Work Outcome Body} {events : List (SystemEvent Thread)}

theorem told_turn (h : Told s events) {e : SystemEvent Thread} (hm : ∀ u, ¬ e.Marks u) :
    Told (s.enterSection t .turn) (events ++ [e]) := by
  refine h.idle (fun u => ?_) hm
  rcases eq_or_ne u t with rfl | hu
  · exact Or.inr (enterSection_sections s u .turn)
  · exact Or.inl (enterSection_rest s hu .turn)

theorem told_moved (h : Told s events) (hs : Guarded.Step sections s.core t reading (core, .moved)) :
    Told { s with core } (events ++ [.moved t]) := by
  have hrest {u : Thread} (hu : u ≠ t) := section_rest hs hu
  cases hs with
  | acquired i lock hl =>
    refine h.act t (fun u hu => hrest hu) (fun _ _ hm => hm) (fun request hr => ?_)
      (fun request b hr => ?_) fun reply hr => ?_
    · rw [Guarded.goto_self] at hr
      cases hr
    · rw [Guarded.goto_self] at hr
      cases hr
      exact (h.locking t request hl).snoc id
    · rw [Guarded.goto_self] at hr
      cases hr
  | ran i b b' object hb hp =>
    refine h.act t (fun u hu => hrest hu) (fun _ _ hm => hm) (fun request hr => ?_)
      (fun request b hr => ?_) fun reply hr => ?_
    · rw [Guarded.goto_self] at hr
      cases hr
    · rw [Guarded.goto_self] at hr
      cases hr
      exact (h.running t request _ hb).snoc id
    · rw [Guarded.goto_self] at hr
      cases hr

theorem told_done (h : Told s events) (hc : Simulates s c) {work : Work} {outcome : Outcome}
    (hs : Guarded.Step sections s.core t reading (core, .done work outcome)) :
    Told { s with core } (events ++ [.done t work outcome]) := by
  obtain ⟨hafter, b, hbefore⟩ := section_done hs
  have hpost := (done_atomically hc hs).1
  refine h.act t (fun u hu => section_rest hs hu) (fun u hu hm => ?_) (fun request hr => ?_)
    (fun request b hr => ?_) fun reply hr => ?_
  · cases work with
    | request request => exact hu (Eq.symm hm)
    | turn => exact hm
  · cases hafter.symm.trans hr
  · cases hafter.symm.trans hr
  · cases hafter.symm.trans hr
    generalize core.object = object at hpost
    cases hpost with
    | request request =>
      exact ⟨request, events, [], rfl, List.forall_mem_nil _, h.running t request b hbefore⟩

theorem told_released (h : Told s events) {outcome : Outcome}
    (hs : Guarded.Step sections s.core t reading (core, .released outcome)) :
    Told ({ s with core }.goto t outcome.next) (events ++ [.released t outcome]) := by
  have hafter : core.sections t = none := (section_released hs).1
  refine h.act t (fun u hu => section_rest hs hu) (fun u hu hm => ?_) (fun request hr => ?_)
    (fun request b hr => ?_) fun reply hr => ?_
  · cases outcome with
    | replied reply => exact hu (Eq.symm hm)
    | _ => exact hm
  · cases hafter.symm.trans hr
  · cases hafter.symm.trans hr
  · cases hafter.symm.trans hr

theorem told_step (h : Told s events) (hc : Simulates s c) {r : System Thread × SystemEvent Thread}
    (hr : SystemStep socketV4 socketV6 s r) : Told r.1 (events ++ [r.2]) := by
  cases hr with
  | called t request hidle =>
    refine h.act t (fun u hu => enterSection_rest s hu _) (fun u hu hm => hu (Eq.symm hm))
      (fun request hr => ?_) (fun request b hr => ?_) fun reply hr => ?_
    · cases (enterSection_sections s t _).symm.trans hr
      exact ⟨events, [], rfl, List.forall_mem_nil _⟩
    · cases (enterSection_sections s t _).symm.trans hr
    · cases (enterSection_sections s t _).symm.trans hr
  | approached t hidle => exact h.idle (fun _ => Or.inl rfl) fun _ => id
  | entered t processLock hidle hl =>
    have hlocked : Told { s with processLock } events := ⟨h.locking, h.running, h.unlocking⟩
    exact told_turn hlocked (e := .entered t) fun _ => id
  | moved t reading core hin hs => exact told_moved h hs
  | done t reading core work outcome hin hs => exact told_done h hc hs
  | released t reading core outcome hin hs => exact told_released h hs
  | crashed t current reading result hin hd => exact h.idle (fun _ => Or.inl rfl) fun _ => id
  | finished t current reading result sent hin hd hu => exact told_turn h fun _ => id
  | left t hin => exact h.idle (fun _ => Or.inl rfl) fun _ => id
  | blocked => exact h.idle (fun _ => Or.inl rfl) fun _ => id

theorem told_run (socketV4 socketV6 : Thread → SocketT) (C : SizeT) (I : Int)
    (ops : List (SystemOp Thread)) :
    Told ((system socketV4 socketV6).run (.create C I) ops)
      ((system socketV4 socketV6).trace (.create C I) ops) := by
  refine (Machine.history (M := system socketV4 socketV6)
    (P := fun s events => (∃ c, Simulates s c) ∧ Told s events) (fun s events op h => ?_)
    ⟨⟨_, create_simulates C I⟩, told_create C I⟩ ops).2
  obtain ⟨⟨c, hc⟩, ht⟩ := h
  exact ⟨⟨_, (system_corresponds socketV4 socketV6 hc op).1⟩,
    told_step ht hc (system_step socketV4 socketV6 s op)⟩

theorem reply_of_own_effect (C : SizeT) (I : Int) (ops : List (SystemOp Thread)) (t : Thread)
    (reply : Reply) (before after : List (SystemEvent Thread))
    (h : (system socketV4 socketV6).trace (.create C I) ops =
      before ++ .released t (.replied reply) :: after) :
    ∃ request, Answered t request reply before := by
  obtain ⟨pre, op, post, rfl, rfl, he, -⟩ := Machine.trace_split _ h
  have htold := told_run socketV4 socketV6 C I pre
  have hstep := system_step socketV4 socketV6 ((system socketV4 socketV6).run (.create C I) pre) op
  rw [Machine.out] at he
  generalize (system socketV4 socketV6).step _ op = r at hstep he
  cases hstep with
  | released u reading core outcome hin hs =>
    cases he
    exact htold.unlocking t reply (section_released hs).2
  | _ => cases he

end Step

-- the second thread waits for the lock while the first is inside
theorem reply_of_own_effect_waiting :
    ∃ request, Answered false request (.remaining 4)
      [.called true (.remove 7), .called false (.getRemainingCapacity 7), .moved true, .blocked,
        .done true (.request (.remove 7)) (.replied (.remove false [])), .blocked,
        .released true (.replied (.remove false [])), .moved false,
        .done false (.request (.getRemainingCapacity 7)) (.replied (.remaining 4))] :=
  @reply_of_own_effect Bool _ (fun _ => 3) (fun _ => 4) 4 20000000
    [.call true (.remove 7), .call false (.getRemainingCapacity 7), .step true 0, .step false 0,
      .step true 0, .step false 0, .step true 0, .step false 0, .step false 0, .step false 0]
    false (.remaining 4) _ [] rfl

end UdpQueue
