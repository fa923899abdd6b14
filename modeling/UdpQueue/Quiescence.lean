import UdpQueue.Ledger
import UdpQueue.RateLimit

namespace UdpQueue

def weightOf : List (Sigma fun _ : Int64 => Item) → Nat
  | [] => 0
  | e :: l => e.2.buffer.size.toNat + 1 + weightOf l

theorem weightOf_append (l q : List (Sigma fun _ : Int64 => Item)) :
    weightOf (l ++ q) = weightOf l + weightOf q := by
  induction l with
  | nil => simp [weightOf]
  | cons e l ih =>
    simp only [List.cons_append, weightOf, ih]
    omega

namespace Manager

-- the queues and the packets in them
def weight (m : Manager) : Nat := weightOf m.queues.entries

theorem weight_eq_zero {m : Manager} : m.weight = 0 ↔ m.queues.keys = [] := by
  rw [weight, AList.keys]
  cases m.queues.entries with
  | nil => simp [weightOf]
  | cons e l => simp [weightOf]

theorem front_entries {m : Manager} {key : Int64} {item : Item}
    (h : OrderedMap.front m.queues = some (key, item)) :
    m.queues.entries = ⟨key, item⟩ :: (m.queues.erase key).entries := by
  obtain ⟨queues, capacity, interval, down⟩ := m
  obtain ⟨l, hl⟩ := queues
  cases l with
  | nil => cases h
  | cons e l =>
    cases h
    change e :: l = _ :: List.kerase e.1 (e :: l)
    rw [List.kerase_cons_eq rfl]

theorem weight_of_front {m : Manager} {key : Int64} {item : Item}
    (h : OrderedMap.front m.queues = some (key, item)) :
    m.weight = item.buffer.size.toNat + 1 + weightOf (m.queues.erase key).entries := by
  rw [weight, front_entries h]
  rfl

theorem serve_weight (m : Manager) (key : Int64) (item : Item) (u : Int) :
    (m.serve key item u).1.weight =
      weightOf (m.queues.erase key).entries + (item.pop.1.buffer.size.toNat + 1) := by
  have hnew : key ∉ m.queues.erase key := by simp
  change weightOf (OrderedMap.insert key (m.served item u) (m.queues.erase key)).entries = _
  rw [OrderedMap.entries_insert_of_notMem hnew, weightOf_append]
  rfl

end Manager

def Exit.shrinks : Exit → Bool
  | .erased _ | .popped _ _ => true
  | .idle | .waiting _ => false

theorem process_weight {m : Manager} {packetOut : Unsent} {t u : Int} {r : Manager × Processed}
    (h : Manager.ProcessStep m packetOut t u r) :
    r.1.weight + (if r.2.exit.shrinks then 1 else 0) = m.weight := by
  cases h with
  | idle hf => rfl
  | erased key item hf hs =>
    rw [Manager.weight_of_front hf, hs]
    change weightOf (m.queues.erase key).entries + 1 = 0 + 1 + _
    omega
  | waiting key item hf hs hd hw => rfl
  | popped key item due hf hs hd =>
    have hpop := @Item.pop_size { item with nextDueTime := due } hs
    rw [Manager.weight_of_front hf, Manager.serve_weight]
    change _ + 1 = item.buffer.size.toNat + 1 + _
    change item.buffer.size.toNat = _ at hpop
    omega

def Manager.waits (m : Manager) (clock : Int) : Prop :=
  m.frontDue ≠ 0 ∧ m.frontDue - clock ≥ 1500000

theorem waiting_waits {m : Manager} {packetOut : Unsent} {t u clock : Int} {r : Manager × Processed}
    (h : Manager.ProcessStep m packetOut t u r) {key : Int64} (he : r.2.exit = .waiting key)
    (hc : clock ≤ t) : m.waits clock := by
  cases h with
  | waiting key' item hf hs hd hw =>
    rw [Manager.waits, Manager.frontDue_of_front hf]
    exact ⟨hd, by omega⟩
  | _ => cases he

namespace LoopEvent

def Requested : LoopEvent → Prop
  | .client (.process _ _ _) => False
  | .client _ => True
  | _ => False

instance : DecidablePred Requested := fun e =>
  match e with
  | .client (.process _ _ _) | .left | .sent _ | .blocked => inferInstanceAs (Decidable False)
  | .client (.push _ _ _ _) | .client (.remove _ _ _) | .client (.remaining _ _) | .client .shutDown =>
    inferInstanceAs (Decidable True)

def isTurn : LoopEvent → Bool
  | .client (.process _ _ _) => true
  | _ => false

def isWork : LoopEvent → Bool
  | .client (.process _ _ result) => result.exit ≠ .idle
  | _ => false

end LoopEvent

open Classical in
noncomputable def Loop.rank (s : Loop) : Nat :=
  match s.phase with
  | .entering => s.manager.weight + if s.manager.waits s.clock then 1 else 0
  | _ => s.manager.weight

-- the sleep that follows is until the front queue is due, or it is new and can be served at once
def Loop.Aimed (s : Loop) : Prop :=
  ∀ t result, s.phase = .sending t result →
    t ≤ s.clock ∧ (s.manager.frontDue = 0 ∨ s.manager.frontDue = result.targetTime)

section Step
variable {socketV4 socketV6 : SocketT} {s : Loop} {r : Loop × LoopEvent}

theorem request_requested (m : Manager) (request : Request) :
    (LoopEvent.client (client.out m request.op)).Requested := by
  cases request <;> trivial

theorem Loop.weight_le_rank (s : Loop) : s.manager.weight ≤ s.rank := by
  rw [Loop.rank]
  split
  · exact Nat.le_add_right _ _
  · exact le_rfl

theorem Loop.rank_le (s : Loop) : s.rank ≤ s.manager.weight + 1 := by
  rw [Loop.rank]
  split
  · split_ifs <;> omega
  · exact Nat.le_succ _

theorem aimed_step (h : LoopStep socketV4 socketV6 s r) (ha : s.Aimed) : r.1.Aimed := by
  cases h with
  | request request =>
    rw [Loop.Aimed, s.manager.request_frontDue request]
    exact ha
  | processed t u hp ht hu =>
    rintro t' result ⟨⟩
    exact ⟨le_lastReading hu _, Manager.process_frontDue (s.manager.processNextLocked_step {} t u)⟩
  | left hp => exact fun _ _ hp' => (by cases hp')
  | crashed t result hp hd => exact fun _ _ hp' => (by cases hp')
  | finished t result sent clock hp hd hu hc hw => exact fun _ _ hp' => (by cases hp')
  | blocked => exact ha

theorem rank_step (h : LoopStep socketV4 socketV6 s r) (ha : s.Aimed) (hq : ¬ r.2.Requested) :
    (if r.2.isWork then 1 else 0) + r.1.rank ≤ s.rank := by
  have hle := s.weight_le_rank
  cases h with
  | request request => exact absurd (request_requested s.manager request) hq
  | left hp => exact (Nat.zero_add _).trans_le hle
  | processed t u hp ht hu =>
    have hstep := s.manager.processNextLocked_step {} t u
    have hweight := process_weight hstep
    change (if decide ((s.manager.processNextLocked {} t u).2.exit ≠ .idle) then 1 else 0) +
      (s.manager.processNextLocked {} t u).1.weight ≤ s.rank
    cases he : (s.manager.processNextLocked {} t u).2.exit with
    | waiting key =>
      rw [he] at hweight
      have hw := waiting_waits hstep he ht
      simp only [Loop.rank, hp, if_pos hw]
      simp [Exit.shrinks] at hweight ⊢
      omega
    | _ =>
      rw [he] at hweight
      simp [Exit.shrinks] at hweight ⊢
      omega
  | crashed t result hp hd => exact (Nat.zero_add _).trans_le hle
  | finished t result sent clock hp hd hu hc hw =>
    obtain ⟨ht, htarget⟩ := ha t result hp
    have hready : ¬ s.manager.waits clock := by
      rintro ⟨hne, hwait⟩
      have hclock := hw ht
      rcases htarget with hz | hdue
      · exact hne hz
      · omega
    have hrank : Loop.rank { s with clock, phase := .entering } = s.manager.weight := by
      simp only [Loop.rank, if_neg hready, Nat.add_zero]
    rw [hrank]
    exact (Nat.zero_add _).trans_le hle
  | blocked => exact (Nat.zero_add _).le

end Step

section Run
variable (socketV4 socketV6 : SocketT)

theorem aimed_run (C : SizeT) (I clock : Int) (ops : List LoopOp) :
    ((loop socketV4 socketV6).run (.create C I clock) ops).Aimed :=
  Machine.run_invariant (fun s op h => aimed_step (loop_step socketV4 socketV6 s op) h)
    (fun _ _ hp => by cases hp) ops

theorem works_le_weight {s : Loop} (ha : s.Aimed) (ops : List LoopOp)
    (hq : ∀ e ∈ (loop socketV4 socketV6).trace s ops, ¬ e.Requested) :
    ((loop socketV4 socketV6).trace s ops).countP LoopEvent.isWork ≤ s.manager.weight + 1 := by
  have hstep (s : Loop) (op : LoopOp) (ha : s.Aimed)
      (hq : ¬ ((loop socketV4 socketV6).out s op).Requested) :=
    And.intro (aimed_step (loop_step socketV4 socketV6 s op) ha)
      (rank_step (loop_step socketV4 socketV6 s op) ha hq)
  have hbudget := Machine.budget (M := loop socketV4 socketV6) LoopEvent.isWork Loop.rank hstep ha
    ops hq
  have hle := s.rank_le
  omega

theorem weight_next {s : Loop} {op : LoopOp}
    (hq : ¬ ((loop socketV4 socketV6).out s op).Requested) :
    ((loop socketV4 socketV6).next s op).manager.weight ≤ s.manager.weight := by
  have h := loop_step socketV4 socketV6 s op
  rw [Machine.out] at hq
  rw [Machine.next]
  generalize (loop socketV4 socketV6).step s op = r at h hq
  cases h with
  | request request => exact absurd (request_requested s.manager request) hq
  | processed t u hp ht hu =>
    have hweight := process_weight (s.manager.processNextLocked_step {} t u)
    exact hweight ▸ Nat.le_add_right _ _
  | _ => exact le_rfl

theorem weight_run {s : Loop} (ops : List LoopOp)
    (hq : ∀ e ∈ (loop socketV4 socketV6).trace s ops, ¬ e.Requested) :
    ((loop socketV4 socketV6).run s ops).manager.weight ≤ s.manager.weight := by
  induction ops generalizing s with
  | nil => exact le_rfl
  | cons op ops ih =>
    obtain ⟨hone, hmany⟩ := List.forall_mem_cons.mp hq
    exact (ih hmany).trans (weight_next socketV4 socketV6 hone)

theorem idle_turn {s : Loop} {op : LoopOp} (ht : ((loop socketV4 socketV6).out s op).isTurn = true)
    (hw : ((loop socketV4 socketV6).out s op).isWork = false) : s.manager.weight = 0 := by
  have h := loop_step socketV4 socketV6 s op
  rw [Machine.out] at ht hw
  generalize (loop socketV4 socketV6).step s op = r at h ht hw
  cases h with
  | request request => cases request <;> cases ht
  | processed t u hp hst hu =>
    have hstep := s.manager.processNextLocked_step {} t u
    have hidle : (s.manager.processNextLocked {} t u).2.exit = .idle := by
      change decide ((s.manager.processNextLocked {} t u).2.exit ≠ .idle) = false at hw
      simpa using hw
    generalize s.manager.processNextLocked {} t u = r at hstep hidle
    cases hstep with
    | idle hf => exact Manager.weight_eq_zero.mpr (OrderedMap.front_eq_none.mp hf)
    | _ => cases hidle
  | _ => cases ht

theorem weight_of_turns {s : Loop} (ha : s.Aimed) (ops : List LoopOp)
    (hq : ∀ e ∈ (loop socketV4 socketV6).trace s ops, ¬ e.Requested)
    (hn : s.manager.weight + 1 < ((loop socketV4 socketV6).trace s ops).countP LoopEvent.isTurn) :
    ((loop socketV4 socketV6).run s ops).manager.weight = 0 := by
  have hworks := works_le_weight socketV4 socketV6 ha ops hq
  obtain ⟨e, hmem, ht, hw⟩ : ∃ e ∈ (loop socketV4 socketV6).trace s ops,
      e.isTurn = true ∧ e.isWork = false := by
    by_contra hno
    simp only [not_exists, not_and, Bool.not_eq_false] at hno
    have hle := List.countP_mono_left hno
    omega
  obtain ⟨pre, op, post, rfl, rfl⟩ := Machine.mem_trace _ hmem
  have hzero := idle_turn socketV4 socketV6 ht hw
  rw [Machine.trace_append] at hq
  have hrest := weight_run socketV4 socketV6 (op :: post) fun e he => hq e (List.mem_append_right _ he)
  rw [Machine.run_append]
  omega

end Run

section Drained
variable {tr : List LoopEvent} (hq : ∀ e ∈ tr, ¬ e.Requested)
include hq

theorem unrequested_events (e : Event) (he : e ∈ clientEvents tr) :
    ∃ t u result, e = .process t u result := by
  obtain ⟨o, ho, hmem⟩ := List.mem_flatMap.mp he
  have hno := hq o ho
  cases o with
  | client event =>
    obtain rfl := List.mem_singleton.mp hmem
    cases e with
    | process t u result => exact ⟨t, u, result, rfl⟩
    | _ => exact absurd trivial hno
  | _ => cases hmem

theorem unrequested_accepted (k : Int64) : acceptedBy k (clientEvents tr) = [] := by
  refine List.flatMap_eq_nil_iff.mpr fun e he => ?_
  obtain ⟨t, u, result, rfl⟩ := unrequested_events hq e he
  rfl

theorem unrequested_resolved : (clientEvents tr).flatMap Event.resolved = [] := by
  refine List.flatMap_eq_nil_iff.mpr fun e he => ?_
  obtain ⟨t, u, result, rfl⟩ := unrequested_events hq e he
  rfl

theorem unrequested_returned (k : Int64) :
    returnedFrom k (clientEvents tr) = poppedFrom k (clientEvents tr) := by
  refine List.flatMap_congr fun e he => ?_
  obtain ⟨t, u, result, rfl⟩ := unrequested_events hq e he
  exact List.append_nil _

end Drained

theorem drains (socketV4 socketV6 : SocketT) (C : SizeT) (I clock : Int) (ops later : List LoopOp)
    (hq : ∀ e ∈ (loop socketV4 socketV6).trace
      ((loop socketV4 socketV6).run (.create C I clock) ops) later, ¬ e.Requested) :
    let s := (loop socketV4 socketV6).run (.create C I clock) ops
    let tr := (loop socketV4 socketV6).trace s later
    tr.countP LoopEvent.isWork ≤ s.manager.weight + 1 ∧
    (s.manager.weight + 1 < tr.countP LoopEvent.isTurn →
      ((loop socketV4 socketV6).run s later).manager.queues.keys = [] ∧
        (∀ k, poppedFrom k (clientEvents tr) = s.manager.backlog k) ∧
        s.manager.outstanding.Perm (freedIn (clientEvents tr))) := by
  intro s tr
  have haimed : s.Aimed := aimed_run socketV4 socketV6 C I clock ops
  refine ⟨works_le_weight socketV4 socketV6 haimed later hq, fun hn => ?_⟩
  have hsound : s.manager.Sound := by
    obtain ⟨requests, hrun, -⟩ := loop_runs_client socketV4 socketV6 (.create C I clock) ops
    rw [← hrun]
    exact reachable_sound C I requests
  have hkeys : ((loop socketV4 socketV6).run s later).manager.queues.keys = [] :=
    Manager.weight_eq_zero.mp (weight_of_turns socketV4 socketV6 haimed later hq hn)
  obtain ⟨requests, hrun, htrace⟩ := loop_runs_client socketV4 socketV6 s later
  refine ⟨hkeys, fun k => ?_, ?_⟩
  · have hconserve := client_conservation hsound requests k
    have hempty : (client.run s.manager requests).backlog k = [] := by
      have hnone : (client.run s.manager requests).queues.lookup k = none := by
        rw [AList.lookup_eq_none, AList.mem_keys, hrun, hkeys]
        exact List.not_mem_nil
      rw [Manager.backlog, hnone]
    rw [htrace, unrequested_accepted hq, unrequested_returned hq, hempty] at hconserve
    simpa using hconserve.symm
  · have hledger := Machine.ledger (P := fun _ => True) (fun _ _ _ => trivial)
      (fun m op _ => client_outstanding m op) (s := s.manager) trivial requests
    have hempty : (client.run s.manager requests).outstanding = [] := by
      rw [Manager.outstanding, hrun, hkeys]
      rfl
    rw [htrace, unrequested_resolved hq, hempty, List.append_nil, List.append_nil] at hledger
    exact hledger

-- three packets in two queues, the first of them popped and not yet sent
theorem drains_two :
    let s := (loop 3 4).run (.create 4 20000000 1) [.request (.push (samplePush 1 [1])),
      .request (.push (samplePush 2 [2])), .request (.push (samplePush 1 [3])), .processNext 1 1]
    let tr := (loop 3 4).trace s (List.replicate 6 [LoopOp.finish 1, .processNext 1 1]).flatten
    tr.countP LoopEvent.isWork ≤ s.manager.weight + 1 ∧
      (∀ k, poppedFrom k (clientEvents tr) = s.manager.backlog k) ∧
        s.manager.outstanding.Perm (freedIn (clientEvents tr)) := by
  have h := drains 3 4 4 20000000 1 [.request (.push (samplePush 1 [1])),
    .request (.push (samplePush 2 [2])), .request (.push (samplePush 1 [3])), .processNext 1 1]
    (List.replicate 6 [LoopOp.finish 1, .processNext 1 1]).flatten (by decide +kernel)
  exact ⟨h.1, (h.2 (by decide +kernel)).2⟩

end UdpQueue
