import UdpQueue.Callers

namespace UdpQueue

theorem request_frees_nothing (m : Manager) (request : Request) :
    (client.out m request.op).freed = [] := by
  cases request <;> rfl

theorem popped_frees_nothing {m : Manager} {packetOut : Unsent} {t u : Int} {r : Manager × Processed}
    (h : Manager.ProcessStep m packetOut t u r) {key : Int64} {due : Int}
    (he : r.2.exit = .popped key due) : r.2.freed = [] := by
  cases h with
  | popped key' item due' hf hs hd => rfl
  | _ => cases he

section Run
variable {Call : Type} [DecidableEq Call] {socketV4 socketV6 : Call → SocketT}

theorem in_flight_run {s : Callers Call} (hs : s.Exclusive) {c : Call} {t : Int}
    {result : Processed} (hc : s.phase c = some (.sending t result)) {ops : List (CallerOp Call)}
    {during after : List (CallerEvent Call)}
    (htr : (callers socketV4 socketV6).trace s ops = during ++ after)
    (hf : ∀ e ∈ during, ¬ e.FinishedBy c) : ∀ e ∈ during, e.freed = [] := by
  intro e hmem
  rw [CallerEvent.freed]
  rcases (sending_run hs hc htr hf).1 e hmem with he | ⟨m, request, he⟩
  · rw [he]
    rfl
  · rw [he, freedIn, List.flatMap_singleton, request_frees_nothing]

end Run

theorem in_flight_not_freed {Call : Type} [DecidableEq Call] (socketV4 socketV6 : Call → SocketT)
    (C : SizeT) (I : Int) (ops : List (CallerOp Call)) :
    let tr := (callers socketV4 socketV6).trace (.create C I) ops
    (∀ before c t u result during after key due address,
      tr = before ++ .processed c t u result :: (during ++ after) →
      result.exit = .popped key due → result.packetOut.address = some address →
      (∀ e ∈ during, ¬ e.FinishedBy c) →
      address ∉ result.freed ∧ ∀ e ∈ during, address ∉ e.freed) ∧
    ((resolvedIn (callerEvents tr)).Nodup → (freedIn (callerEvents tr)).Nodup) := by
  intro tr
  refine ⟨?_, fun hdistinct => ?_⟩
  · intro before c t u result during after key due address htr he _ hf
    obtain ⟨pre, op, post, -, -, hout, hpost⟩ := Machine.trace_split _ htr
    have hstep := caller_step socketV4 socketV6 ((callers socketV4 socketV6).run (.create C I) pre) op
    have hs : ((callers socketV4 socketV6).run (.create C I) pre).Exclusive := exclusive_run C I pre
    obtain ⟨hresult, hphase⟩ := processed_step hstep hout
    have hnone : result.freed = [] := by
      rw [hresult] at he ⊢
      exact popped_frees_nothing (Manager.processNextLocked_step _ {} t u) he
    have hduring := in_flight_run (Callers.exclusive_step hstep hs) hphase hpost hf
    refine ⟨by simp [hnone], fun e hmem => ?_⟩
    rw [hduring e hmem]
    exact List.not_mem_nil
  · obtain ⟨requests, -, htrace⟩ := callers_run_client socketV4 socketV6 (.create C I) ops
    have hl := client_ledger C I requests
    rw [show client.trace (.create C I) requests = callerEvents tr from htrace] at hl
    exact (hl.nodup_iff.mp hdistinct).of_append_left

theorem in_flight_not_freed_removed :
    let M := callers (fun _ : Bool => 3) fun _ => 4
    let pre : List (CallerOp Bool) := [.request (.push (samplePush 1 [1])), .enter true]
    let popped := M.run (.create 4 20000000) (pre ++ [.processNext true 1 1])
    let result := ((client.run (.create 4 20000000) [.push (samplePush 1 [1])]).processNextLocked
      {} 1 1).2
    let during := M.trace popped [.request (.remove 1), .enter false, .processNext false 2 2]
    let tr := M.trace (.create 4 20000000) (pre ++ .processNext true 1 1 ::
      [.request (.remove 1), .enter false, .processNext false 2 2, .finish true 3,
        .processNext true 4 4])
    (inetAddress ∉ result.freed ∧ ∀ e ∈ during, inetAddress ∉ e.freed) ∧
      (freedIn (callerEvents tr)).Nodup := by
  intro M pre popped result during tr
  obtain ⟨hflight, hnodup⟩ := in_flight_not_freed (fun _ : Bool => 3) (fun _ => 4) 4 20000000
    (pre ++ .processNext true 1 1 :: [.request (.remove 1), .enter false, .processNext false 2 2,
      .finish true 3, .processNext true 4 4])
  refine ⟨?_, hnodup (by decide +kernel)⟩
  exact hflight (M.trace (.create 4 20000000) pre) true 1 1 result during
    (M.trace popped [.request (.remove 1), .enter false, .processNext false 2 2, .finish true 3,
      .processNext true 4 4] |>.drop 3) 1 1 inetAddress rfl (by decide +kernel)
    (by decide +kernel) (by decide +kernel)

end UdpQueue
