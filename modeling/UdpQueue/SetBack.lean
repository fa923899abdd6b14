import UdpQueue.Accounting
import UdpQueue.Oversleep

namespace UdpQueue

-- the manager has one queue, with nothing to send in its packets
structure Alone (m : Manager) (k : Int64) (n : Nat) (due : Int) : Prop where
  up : m.shuttingDown = false
  keys : m.queues.keys = [k]
  deadline : m.deadline k = due
  silent : (m.backlog k).map (fun p => p.packet.data) = List.replicate n []

theorem alone_pushed {m : Manager} (hs : m.Sound) (hup : m.shuttingDown = false) (call : PushCall)
    (hkeys : m.queues.keys = [] ∨ m.queues.keys = [call.key.toInt64]) (hdata : call.data = []) {n : Nat}
    (hsilent : (m.backlog call.key.toInt64).map (fun p => p.packet.data) = List.replicate n [])
    (hroom : n < m.queueBufferCapacity.toNat) :
    Alone (m.pushLocked call).1 call.key.toInt64 (n + 1) (m.deadline call.key.toInt64) := by
  have hqueued : m.queued call.key.toInt64 = n := by
    rw [← Manager.backlog_length]
    simpa using congrArg List.length hsilent
  have haccepted : (m.pushLocked call).2 = true :=
    (Manager.accepted_iff_queued_lt hs).mpr (hqueued ▸ hroom)
  refine ⟨?_, ?_, m.pushLocked_deadline call _, ?_⟩
  · simp only [Manager.pushLocked_eq]
    split_ifs <;> exact hup
  · rcases hkeys with hkeys | hkeys <;> simp [Manager.pushLocked_keys, AList.mem_keys, hkeys]
  · rw [Manager.pushLocked_backlog hs, if_pos haccepted, List.map_append, hsilent, hdata,
      List.replicate_succ', deliver]
    split_ifs <;> rfl

theorem silent_pushes (C : SizeT) (I : Int) (n : Nat) (hn : n < C.toNat) :
    Alone (client.run (.create C I) (List.replicate (n + 1) (.push (samplePush 1 [])))) 1 (n + 1) 0 := by
  induction n with
  | zero =>
    have hsilent : ((Manager.create C I).backlog 1).map (fun p => p.packet.data) = [] := by simp
    exact Manager.create_deadline C I 1 ▸
      alone_pushed (Manager.create_sound C I) rfl (samplePush 1 []) (Or.inl rfl) rfl hsilent hn
  | succ n ih =>
    have halone := ih (Nat.lt_of_succ_lt hn)
    have hs := reachable_sound C I (List.replicate (n + 1) (.push (samplePush 1 [])))
    have hroom := reachable_capacity C I (List.replicate (n + 1) (.push (samplePush 1 []))) ▸ hn
    rw [List.replicate_succ', Machine.run_append]
    exact halone.deadline ▸
      alone_pushed hs halone.up (samplePush 1 []) (Or.inr halone.keys) rfl halone.silent hroom

section Process
variable {m : Manager} {k : Int64} {n : Nat} {due t u : Int} {r : Manager × Processed}

theorem alone_front (h : Alone m k (n + 1) due) {key : Int64} {item : Item}
    (hf : OrderedMap.front m.queues = some (key, item)) :
    key = k ∧ item.nextDueTime = due ∧ item.buffer.size ≠ 0 := by
  obtain rfl : key = k := by
    have hkeys := (OrderedMap.front_keys hf).symm.trans h.keys
    exact (List.cons.inj hkeys).1
  have hlookup := OrderedMap.front_lookup hf
  refine ⟨rfl, (Manager.deadline_of_lookup hlookup).symm.trans h.deadline, fun hzero => ?_⟩
  have hsilent := h.silent
  rw [Manager.backlog_of_lookup hlookup, Item.outgoing_eq_nil.mpr hzero] at hsilent
  cases hsilent

theorem alone_waiting (h : Alone m k (n + 1) due) (hne : due ≠ 0) (hw : due - t ≥ 1500000)
    (hr : Manager.ProcessStep m {} t u r) :
    r.2.targetTime = due ∧ r.2.packetOut.packet.data = [] := by
  cases hr with
  | idle hf =>
    rw [OrderedMap.front_eq_none, h.keys] at hf
    cases hf
  | erased key item hf hs => exact absurd hs (alone_front h hf).2.2
  | waiting key item hf hs hd hw' => exact ⟨(alone_front h hf).2.1, rfl⟩
  | popped key item due' hf hs hd =>
    rw [(alone_front h hf).2.1] at hd
    rcases hd with ⟨hzero, -⟩ | ⟨-, rfl, hlt⟩
    · exact absurd hzero hne
    · omega

theorem alone_exit (h : Alone m k (n + 1) due) (hd : due = 0 ∨ due - t < 1500000)
    (hr : Manager.ProcessStep m {} t u r) :
    r.2.exit = .popped k (if due = 0 then t else due) ∧ r.1.queues.keys = [k] ∧
      r.1.shuttingDown = false := by
  cases hr with
  | idle hf =>
    rw [OrderedMap.front_eq_none, h.keys] at hf
    cases hf
  | erased key item hf hs => exact absurd hs (alone_front h hf).2.2
  | waiting key item hf hs hne hw =>
    rw [(alone_front h hf).2.1] at hne hw
    rcases hd with hzero | hlt
    · exact absurd hzero hne
    · omega
  | popped key item due' hf hs hdue =>
    obtain ⟨rfl, hitem, -⟩ := alone_front h hf
    rw [hitem] at hdue
    refine ⟨?_, by simp [Manager.serve_keys, h.keys], h.up⟩
    rcases hdue with ⟨hzero, rfl⟩ | ⟨hne, rfl, -⟩
    · simp [Manager.serve, hzero]
    · simp [Manager.serve, hne]

theorem alone_popped (h : Alone m k (n + 1) due) (hd : due = 0 ∨ due - t < 1500000)
    (hr : Manager.ProcessStep m {} t u r) :
    Alone r.1 k n (m.nextDue (if due = 0 then t else due) u) ∧ r.2.packetOut.packet.data = [] := by
  obtain ⟨hexit, hkeys, hup⟩ := alone_exit h hd hr
  have hdeadline : r.1.deadline k = m.nextDue (if due = 0 then t else due) u := by
    rw [Manager.process_deadline hr k, hexit]
    exact if_pos rfl
  have hbacklog : m.backlog k = r.2.packetOut :: r.1.backlog k := by
    rw [Manager.process_backlog hr k, Processed.returned, hexit]
    simp
  have hsilent := h.silent
  rw [hbacklog, List.map_cons, List.replicate_succ] at hsilent
  obtain ⟨hdata, hrest⟩ := List.cons.inj hsilent
  exact ⟨⟨hup, hkeys, hdeadline, hrest⟩, hdata⟩

end Process

def turn {Call : Type} (c : Call) (currentTime nanos reading : Int) : List (CallerOp Call) :=
  [.processNext c currentTime nanos, .finish c reading]

section Turn
variable {Call : Type} [DecidableEq Call] (socketV4 socketV6 : Call → SocketT)

-- a turn of the loop with nothing to send
theorem silent_turn {s : Callers Call} {c : Call} (hc : s.phase c = some .entering)
    (hup : s.manager.shuttingDown = false) {t u : Int}
    (hdata : (s.manager.processNextLocked {} t u).2.packetOut.packet.data = []) (reading : Int) :
    let M := callers socketV4 socketV6
    (M.run s (turn c t u reading)).manager = (s.manager.processNextLocked {} t u).1 ∧
      (M.run s (turn c t u reading)).phase c = some .entering ∧
      sleeps (M.trace s (turn c t u reading)) =
        (sleepTime (s.manager.processNextLocked {} t u).2.targetTime t).toList := by
  intro M
  have hprocess := process_of_entering socketV4 socketV6 hc hup t u
  have hsending : (M.next s (.processNext c t u)).phase c =
      some (.sending t (s.manager.processNextLocked {} t u).2) := by
    rw [Machine.next, hprocess]
    exact Function.update_self ..
  have hfinish := finish_of_sending socketV4 socketV6 hsending
    (dispatched_of_empty _ _ hdata) (by simp) reading
  have hrun : M.run s (turn c t u reading) = (M.next s (.processNext c t u)).goto c (some .entering) :=
    congrArg Prod.fst hfinish
  have hout : M.out (M.next s (.processNext c t u)) (.finish c reading) =
      .finished c .skipped t (sleepTime (s.manager.processNextLocked {} t u).2.targetTime t) :=
    congrArg Prod.snd hfinish
  refine ⟨?_, ?_, ?_⟩
  · rw [hrun, Machine.next, hprocess]
    rfl
  · rw [hrun]
    exact Function.update_self ..
  · simp only [turn, Machine.trace_cons, Machine.trace_nil, hout, sleeps]
    rw [Machine.out, hprocess]
    rcases sleepTime (s.manager.processNextLocked {} t u).2.targetTime t with _ | d
    · rfl
    · rfl

theorem alone_turn {s : Callers Call} {c : Call} {k : Int64} {n : Nat} {due t : Int}
    (hc : s.phase c = some .entering) (h : Alone s.manager k (n + 1) due)
    (hd : due = 0 ∨ due - t < 1500000) (u reading : Int) :
    let s' := (callers socketV4 socketV6).run s (turn c t u reading)
    s'.phase c = some .entering ∧ s'.manager.packetInterval = s.manager.packetInterval ∧
      Alone s'.manager k n (s.manager.nextDue (if due = 0 then t else due) u) := by
  have hr := s.manager.processNextLocked_step {} t u
  obtain ⟨hafter, hdata⟩ := alone_popped h hd hr
  obtain ⟨hmanager, hphase, -⟩ := silent_turn socketV4 socketV6 hc h.up hdata reading
  refine ⟨hphase, ?_, ?_⟩
  · rw [hmanager]
    exact (Manager.process_frame hr).interval
  · rw [hmanager]
    exact hafter

end Turn

theorem entered_run (socketV4 socketV6 : Unit → SocketT) (C : SizeT) (I : Int)
    (requests : List Request) :
    let s := (callers socketV4 socketV6).run (.create C I) (requests.map .request ++ [.enter ()])
    s.phase () = some .entering ∧ s.manager = client.run (.create C I) (requests.map Request.op) := by
  rw [Machine.run_append, requests_run]
  exact ⟨rfl, rfl⟩

def silentQueue : List (CallerOp Unit) :=
  (List.replicate 3 (.push (samplePush 1 []))).map .request ++ [.enter ()]

theorem silentQueue_run (C : SizeT) (I : Int) (hC : 3 ≤ C.toNat) :
    let s := (callers (fun _ : Unit => 3) fun _ => 4).run (.create C I) silentQueue
    s.phase () = some .entering ∧ s.manager.packetInterval = I ∧ Alone s.manager 1 3 0 := by
  obtain ⟨hphase, hmanager⟩ := entered_run (fun _ => 3) (fun _ => 4) C I
    (List.replicate 3 (.push (samplePush 1 [])))
  have hpushes : (List.replicate 3 (Request.push (samplePush 1 []))).map Request.op =
      List.replicate (2 + 1) (.push (samplePush 1 [])) := List.map_replicate
  rw [hpushes] at hmanager
  refine ⟨hphase, ?_, ?_⟩
  · rw [silentQueue, hmanager]
    exact reachable_interval C I _
  · rw [silentQueue, hmanager]
    exact silent_pushes C I 2 hC

-- whatever readings the condition leaves out, some run reads them and oversleeps
theorem behind_oversleeps (C : SizeT) {I t u now : Int} (hC : 3 ≤ C.toNat) (hI : 0 ≤ I)
    (hnow : 0 < now) (ht : I < t) (hu : 3 * I < u) (hbehind : ¬ CaughtUp now t u) :
    ∃ start, 0 < start ∧
      ∃ d ∈ sleeps ((callers (fun _ : Unit => 3) fun _ => 4).trace (.create C I)
        (silentQueue ++ turn () start start start ++ turn () t u t ++ turn () now now now)),
        I + 1500000 < d := by
  rw [CaughtUp] at hbehind
  -- the second pop is late by two intervals, or as early as a pop can be
  obtain ⟨start, hpos, hearly, hlate⟩ : ∃ start, 0 < start ∧ start + I - t < 1500000 ∧
      (u - (start + I) ≥ 2 * I ∧ now + 1500000 < u ∨
        u - (start + I) < 2 * I ∧ now + 1500000 < start + I) := by
    by_cases hnanos : u ≤ now + 1500000
    · exact ⟨t + 1499999 - I, by omega, by omega, by omega⟩
    · exact ⟨min (u - 3 * I) (t + 1499999 - I), by omega, by omega, by omega⟩
  refine ⟨start, hpos, ?_⟩
  let M := callers (fun _ : Unit => 3) fun _ => 4
  rw [Machine.trace_append, Machine.run_append, Machine.run_append]
  obtain ⟨hphase, hinterval, halone⟩ := silentQueue_run C I hC
  generalize M.run (.create C I) silentQueue = s₀ at hphase hinterval halone ⊢
  obtain ⟨hphase, hinterval₁, halone⟩ :=
    alone_turn (fun _ => 3) (fun _ => 4) hphase halone (t := start) (Or.inl rfl) start start
  rw [hinterval] at hinterval₁
  generalize M.run s₀ (turn () start start start) = s₁ at *
  have hfirst : s₀.manager.nextDue (if (0 : Int) = 0 then start else 0) start = start + I := by
    rw [if_pos rfl, Manager.nextDue, hinterval]
    split_ifs <;> rfl
  rw [hfirst] at halone
  obtain ⟨hphase, -, halone⟩ :=
    alone_turn (fun _ => 3) (fun _ => 4) hphase halone (t := t) (Or.inr hearly) u t
  generalize M.run s₁ (turn () t u t) = s₂ at *
  have hsecond :
      now + 1500000 + I < s₁.manager.nextDue (if start + I = 0 then t else start + I) u := by
    rw [if_neg (by omega), Manager.nextDue, hinterval₁]
    split_ifs <;> omega
  generalize s₁.manager.nextDue (if start + I = 0 then t else start + I) u = due at halone hsecond
  obtain ⟨htarget, hdata⟩ := alone_waiting halone (t := now) (by omega) (by omega)
    (s₂.manager.processNextLocked_step {} now now)
  obtain ⟨-, -, hsleep⟩ := silent_turn (fun _ => 3) (fun _ => 4) hphase halone.up hdata now
  rw [htarget, sleepTime, if_pos (by omega)] at hsleep
  refine ⟨due - now, ?_, by omega⟩
  rw [sleeps, List.filterMap_append]
  refine List.mem_append_right _ ?_
  change due - now ∈ sleeps _
  rw [hsleep]
  exact List.mem_singleton_self _

end UdpQueue
