import UdpQueue.Oversleep

namespace UdpQueue

def CallerEvent.Prompt {Call : Type} : CallerEvent Call → Prop
  | .processed _ currentTime nanos ⟨packetOut, _, .popped _ _, _⟩ =>
    packetOut.packet.data = [] → nanos - currentTime ≤ 1500000
  | _ => True

structure ForwardClock {Call : Type} (tr : List (CallerEvent Call)) : Prop where
  positive : ∀ reading ∈ callerReadings tr, 0 < reading
  sorted : (callerReadings tr).Pairwise (· ≤ ·)
  prompt : ∀ e ∈ tr, e.Prompt

theorem callerReadings_snoc {Call : Type} (tr : List (CallerEvent Call)) (e : CallerEvent Call) :
    callerReadings (tr ++ [e]) = callerReadings tr ++ e.readings := by
  simp [callerReadings]

theorem lastService_callers_snoc {Call : Type} (k : Int64) (tr : List (CallerEvent Call))
    (e : CallerEvent Call) :
    lastService k (callerEvents (tr ++ [e])) =
      (lastService k e.events).or (lastService k (callerEvents tr)) := by
  rw [callerEvents, List.flatMap_append, List.flatMap_singleton]
  exact latest_append _ _ _

theorem ForwardClock.of_append {Call : Type} {tr qs : List (CallerEvent Call)}
    (h : ForwardClock (tr ++ qs)) : ForwardClock tr := by
  obtain ⟨hpos, hsorted, hprompt⟩ := h
  rw [callerReadings, List.flatMap_append] at hpos hsorted
  refine ⟨fun x hx => hpos x (List.mem_append_left _ hx), (List.pairwise_append.mp hsorted).1, ?_⟩
  exact fun e he => hprompt e (List.mem_append_left _ he)

theorem request_service (m : Manager) (request : Request) (k : Int64) :
    (client.out m request.op).service k = none := by
  cases request <;> rfl

theorem lastService_singleton (k : Int64) (e : Event) : lastService k [e] = e.service k := by
  rw [← List.nil_append [e], lastService_snoc]
  exact Option.or_none

namespace Callers
variable {Call : Type} [DecidableEq Call] {socketV4 socketV6 : Call → SocketT} {s : Callers Call}
variable {r : Callers Call × CallerEvent Call}

omit [DecidableEq Call] in
theorem requested_service (h : s.Requested r) (k : Int64) : lastService k r.2.events = none := by
  rcases h with ⟨-, he⟩ | ⟨request, -, he⟩
  · rw [he]
    rfl
  · rw [he, lastService_singleton, request_service]

theorem service_step (h : CallerStep socketV4 socketV6 s r) {k : Int64} {a : Service}
    (ha : lastService k r.2.events = some a) :
    r.2.readings = [a.currentTime, a.nanos] ∧
      ∀ c t u result, r.2 = .processed c t u result → t = a.currentTime ∧
        (r.2.Prompt → result.packetOut.packet.data = [] → a.nanos - t ≤ 1500000) := by
  cases h with
  | request request =>
    change lastService k [_] = some a at ha
    rw [lastService_singleton, request_service] at ha
    cases ha
  | processed c t u hp =>
    change lastService k [.process t u (s.manager.processNextLocked {} t u).2] = some a at ha
    simp only []
    generalize (s.manager.processNextLocked {} t u).2 = result at ha ⊢
    rcases result with ⟨packetOut, target, _ | _ | _ | ⟨key, due⟩, freed⟩
    · cases ha
    · cases ha
    · cases ha
    · rw [lastService_singleton, Event.service_popped] at ha
      split_ifs at ha
      obtain rfl := Option.some.inj ha
      refine ⟨rfl, ?_⟩
      rintro _ _ _ _ ⟨⟩
      exact ⟨rfl, id⟩
  | _ => cases ha

structure Recent (s : Callers Call) (tr : List (CallerEvent Call)) : Prop where
  exclusive : s.Exclusive
  read : ∀ k a, lastService k (callerEvents tr) = some a →
    a.currentTime ∈ callerReadings tr ∧ a.nanos ∈ callerReadings tr
  skipping : ∀ c t result, s.phase c = some (.sending t result) →
    result.packetOut.packet.data = [] → ∀ k a, lastService k (callerEvents tr) = some a →
      a.currentTime ≤ t ∧ a.nanos ≤ t + 1500000

theorem recent_step (h : CallerStep socketV4 socketV6 s r) {tr : List (CallerEvent Call)}
    (hf : ForwardClock (tr ++ [r.2])) (hs : s.Recent tr) : r.1.Recent (tr ++ [r.2]) := by
  obtain ⟨-, hsorted, hprompt⟩ := hf
  rw [callerReadings_snoc] at hsorted
  obtain ⟨-, -, hlater⟩ := List.pairwise_append.mp hsorted
  refine ⟨exclusive_step h hs.exclusive, fun k a ha => ?_, fun c t result hc hempty k a ha => ?_⟩
  · rw [lastService_callers_snoc, Option.or_eq_some_iff] at ha
    rw [callerReadings_snoc]
    rcases ha with ha | ⟨-, ha⟩
    · simp [(service_step h ha).1]
    · obtain ⟨ht, hu⟩ := hs.read k a ha
      exact ⟨List.mem_append_left _ ht, List.mem_append_left _ hu⟩
  · rw [lastService_callers_snoc, Option.or_eq_some_iff] at ha
    rcases sending_came h hs.exclusive hc with ⟨hc, hreq⟩ | ⟨u, he, -, -⟩
    · rw [requested_service hreq k] at ha
      obtain ha | ⟨-, ha⟩ := ha
      · cases ha
      · exact hs.skipping c t result hc hempty k a ha
    · rcases ha with ha | ⟨-, ha⟩
      · obtain ⟨-, hlate⟩ := service_step h ha
        obtain ⟨rfl, hle⟩ := hlate c t u result he
        have := hle (hprompt _ (List.mem_append_right _ (List.mem_singleton_self _))) hempty
        exact ⟨le_rfl, by omega⟩
      · obtain ⟨ht, hu⟩ := hs.read k a ha
        have hnow : t ∈ r.2.readings := by
          rw [he]
          exact mem_process_readings t u result
        have := hlater _ hu t hnow
        exact ⟨hlater _ ht t hnow, by omega⟩

end Callers

section Run
variable {Call : Type} [DecidableEq Call] {socketV4 socketV6 : Call → SocketT} {C : SizeT} {I : Int}

theorem recent_run (ops : List (CallerOp Call))
    (hf : ForwardClock ((callers socketV4 socketV6).trace (.create C I) ops)) :
    ((callers socketV4 socketV6).run (.create C I) ops).Recent
      ((callers socketV4 socketV6).trace (.create C I) ops) := by
  refine Machine.history _ (P := fun (s : Callers Call) tr => ForwardClock tr → s.Recent tr) ?_
    (fun _ => ⟨Callers.create_exclusive C I, nofun, nofun⟩) ops hf
  intro s tr op ih hf
  exact Callers.recent_step (caller_step socketV4 socketV6 s op) hf (ih hf.of_append)

theorem forward_clock_read {ops : List (CallerOp Call)}
    (hf : ForwardClock ((callers socketV4 socketV6).trace (.create C I) ops)) :
    EveryWait socketV4 socketV6 C I ops fun m past now => m.FrontRead past (CaughtUp now) := by
  rintro before c reading after now rfl hw k s hk hne hs
  rw [Machine.trace_append] at hf
  have hrecent := recent_run before hf.of_append
  cases hw with
  | skipped t result hp hd =>
    obtain ⟨ht, hu⟩ := hrecent.skipping c now result hp (data_of_skipped _ _ hd) k s hs
    exact ⟨by omega, hu⟩
  | sent t result call hp hd =>
    obtain ⟨ht, hu⟩ := hrecent.read k s hs
    have hsorted := hf.sorted
    rw [callerReadings, List.flatMap_append] at hsorted
    have hlater := (List.pairwise_append.mp hsorted).2.2
    have hout := finish_of_sending socketV4 socketV6 hp hd (by simp) reading
    have hmem : reading ∈ ((callers socketV4 socketV6).trace
        ((callers socketV4 socketV6).run (.create C I) before)
          (.finish c reading :: after)).flatMap CallerEvent.readings := by
      rw [Machine.trace_cons, Machine.out, hout]
      exact List.mem_append_left _ List.mem_cons_self
    have htime := hlater _ ht reading hmem
    have hnanos := hlater _ hu reading hmem
    exact ⟨by omega, by omega⟩

end Run

theorem forward_clock_sleeps {Call : Type} [DecidableEq Call] (socketV4 socketV6 : Call → SocketT)
    (C : SizeT) (I : Int) (hI : 0 ≤ I) (ops : List (CallerOp Call))
    (hf : ForwardClock ((callers socketV4 socketV6).trace (.create C I) ops)) :
    ∀ d ∈ sleeps ((callers socketV4 socketV6).trace (.create C I) ops), d ≤ I + 1500000 :=
  sleeps_of_read hI hf.positive (forward_clock_read hf)

end UdpQueue
