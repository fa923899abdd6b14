import UdpQueue.Callers

namespace UdpQueue

def Whole (packetOut : Unsent) (sent : Dispatched) : Prop :=
  ∃ call address, sent = .sent call ∧ packetOut.address = some address ∧
    call.buf = packetOut.packet.data ∧ call.len = packetOut.packet.length ∧
    call.destAddr = address.aiAddr ∧ call.addrlen = address.aiAddrlen

section Dispatched
variable (socketV4 socketV6 : SocketT) {p : Unsent}

theorem dispatched_of_empty (hd : p.packet.data = []) :
    dispatched socketV4 socketV6 p = .skipped := by
  rw [dispatched, if_pos hd]

theorem dispatched_of_null (hd : p.packet.data ≠ []) (ha : p.address = none) :
    dispatched socketV4 socketV6 p = .undefined := by
  have hnull (socket : SocketT) : dispatchPacket socket p = none := by simp [dispatchPacket, ha]
  rw [dispatched, if_neg hd]
  cases socketFor socketV4 socketV6 p with
  | none => rfl
  | some socket => rw [Option.bind_some, hnull]

theorem dispatched_of_address {address : AddrInfo} (hd : p.packet.data ≠ [])
    (ha : p.address = some address) :
    ∃ socket, dispatched socketV4 socketV6 p =
      .sent { socket, buf := p.packet.data, len := p.packet.length, flags := 0
              destAddr := address.aiAddr, addrlen := sizeofSockaddr } := by
  have hs : ∃ socket, socketFor socketV4 socketV6 p = some socket := by
    rw [socketFor, ha, Option.map_some]
    split_ifs <;> exact ⟨_, rfl⟩
  obtain ⟨socket, hs⟩ := hs
  refine ⟨socket, ?_⟩
  rw [dispatched, if_neg hd, hs, Option.bind_some, dispatchPacket, ha]
  rfl

theorem data_of_skipped (h : dispatched socketV4 socketV6 p = .skipped) : p.packet.data = [] := by
  by_contra hd
  cases ha : p.address with
  | none =>
    rw [dispatched_of_null socketV4 socketV6 hd ha] at h
    cases h
  | some address =>
    obtain ⟨socket, hs⟩ := dispatched_of_address socketV4 socketV6 hd ha
    rw [hs] at h
    cases h

theorem dispatched_undefined_iff :
    dispatched socketV4 socketV6 p = .undefined ↔ p.packet.data ≠ [] ∧ p.address = none := by
  constructor
  · intro h
    rcases eq_or_ne p.packet.data [] with hd | hd
    · rw [dispatched_of_empty socketV4 socketV6 hd] at h
      cases h
    · refine ⟨hd, Option.eq_none_iff_forall_ne_some.mpr fun address ha => ?_⟩
      obtain ⟨socket, hs⟩ := dispatched_of_address socketV4 socketV6 hd ha
      rw [hs] at h
      cases h
  · rintro ⟨hd, ha⟩
    exact dispatched_of_null socketV4 socketV6 hd ha

theorem whole_iff :
    Whole p (dispatched socketV4 socketV6 p) ↔
      p.packet.data ≠ [] ∧ ∃ address, p.address = some address ∧
        address.aiAddrlen = sizeofSockaddr := by
  constructor
  · rintro ⟨call, address, hs, ha, -, -, -, hlen⟩
    have hd : p.packet.data ≠ [] := by
      intro hd
      rw [dispatched_of_empty socketV4 socketV6 hd] at hs
      cases hs
    obtain ⟨socket, hs'⟩ := dispatched_of_address socketV4 socketV6 hd ha
    obtain rfl := Dispatched.sent.inj (hs'.symm.trans hs)
    exact ⟨hd, address, ha, hlen.symm⟩
  · rintro ⟨hd, address, ha, hlen⟩
    obtain ⟨socket, hs⟩ := dispatched_of_address socketV4 socketV6 hd ha
    exact ⟨_, address, hs, ha, rfl, rfl, rfl, hlen.symm⟩

end Dispatched

theorem delivered_data {a : Accepted} :
    a.delivered.packet.data ≠ [] ↔ a.queued = 0 ∧ a.call.data ≠ [] := by
  rw [Accepted.delivered, Item.unsent, deliver]
  split_ifs with h <;> simp [h, payload]

theorem Manager.process_unpopped {m : Manager} {t u : Int} {r : Manager × Processed}
    (h : ProcessStep m {} t u r) (he : ∀ key due, r.2.exit ≠ .popped key due) :
    r.2.packetOut.packet.data = [] := by
  cases h with
  | popped key item due hf hs hd => exact absurd rfl (he key due)
  | _ => rfl

section Run
variable {Call : Type} [DecidableEq Call] {socketV4 socketV6 : Call → SocketT} {c : Call}
variable {t u : Int} {result : Processed}

theorem finished_sent {s : Callers Call} {r : Callers Call × CallerEvent Call}
    (h : CallerStep socketV4 socketV6 s r) (hp : s.phase c = some (.sending t result))
    {sent : Dispatched} {now : Int} {slept : Option Int} (he : r.2 = .finished c sent now slept) :
    sent = dispatched (socketV4 c) (socketV6 c) result.packetOut := by
  cases h with
  | crashed c' t' result' hp' hd =>
    cases he
    obtain ⟨rfl, rfl⟩ := Phase.sending.inj (Option.some.inj (hp'.symm.trans hp))
    exact hd.symm
  | finished c' t' reading current result' sent' hp' hd hu hc =>
    cases he
    obtain ⟨rfl, rfl⟩ := Phase.sending.inj (Option.some.inj (hp'.symm.trans hp))
    exact hd.symm
  | _ => cases he

theorem sent_of_sending {s : Callers Call} (hs : s.Exclusive)
    (hp : s.phase c = some (.sending t result)) {ops : List (CallerOp Call)}
    {during after : List (CallerEvent Call)} {sent : Dispatched} {now : Int} {slept : Option Int}
    (htr : (callers socketV4 socketV6).trace s ops = during ++ .finished c sent now slept :: after)
    (hf : ∀ e ∈ during, ¬ e.FinishedBy c) :
    sent = dispatched (socketV4 c) (socketV6 c) result.packetOut := by
  obtain ⟨-, s', post, hlast, hpost⟩ := sending_run hs hp htr hf
  cases post with
  | nil => cases hpost
  | cons op post =>
    exact finished_sent (caller_step socketV4 socketV6 _ op) hlast (List.cons.inj hpost).1

def nextInLine {Call : Type} (key : Int64) (before : List (CallerEvent Call)) : Option Accepted :=
  (acceptedBy key (callerEvents before))[(returnedFrom key (callerEvents before)).length]?

variable {C : SizeT} {I : Int} {ops : List (CallerOp Call)} {before after : List (CallerEvent Call)}

theorem process_in_run
    (htr : (callers socketV4 socketV6).trace (.create C I) ops =
      before ++ .processed c t u result :: after) :
    (∃ requests, client.trace (.create C I) requests = callerEvents before ∧
      result = ((client.run (.create C I) requests).processNextLocked {} t u).2) ∧
    ∃ s post, s.Exclusive ∧ s.phase c = some (.sending t result) ∧
      (callers socketV4 socketV6).trace s post = after := by
  obtain ⟨pre, op, post, -, hpre, hout, hpost⟩ := Machine.trace_split _ htr
  obtain ⟨requests, hrun, htrace⟩ := callers_run_client socketV4 socketV6 (.create C I) pre
  have hop := caller_step socketV4 socketV6 ((callers socketV4 socketV6).run (.create C I) pre) op
  obtain ⟨hresult, hphase⟩ := processed_step hop hout
  rw [hpre] at htrace
  refine ⟨⟨requests, htrace, ?_⟩, _, post, ?_, hphase, hpost⟩
  · rw [hresult, ← hrun]
    rfl
  · exact Callers.exclusive_step hop (exclusive_run C I pre)

theorem popped_next_in_line {key : Int64} {due : Int}
    (htr : (callers socketV4 socketV6).trace (.create C I) ops =
      before ++ .processed c t u result :: after) (he : result.exit = .popped key due) :
    ∃ a, nextInLine key before = some a ∧ result.packetOut = a.delivered := by
  obtain ⟨⟨requests, htrace, rfl⟩, -⟩ := process_in_run htr
  obtain ⟨a, ha, hout⟩ := popped_delivered C I requests he
  rw [htrace] at ha
  exact ⟨a, ha, hout⟩

theorem unpopped_empty
    (htr : (callers socketV4 socketV6).trace (.create C I) ops =
      before ++ .processed c t u result :: after)
    (he : ∀ key due, result.exit ≠ .popped key due) : result.packetOut.packet.data = [] := by
  obtain ⟨⟨requests, -, rfl⟩, -⟩ := process_in_run htr
  exact Manager.process_unpopped (Manager.processNextLocked_step _ {} t u) he

end Run

theorem dispatch_defined_iff {Call : Type} [DecidableEq Call] (socketV4 socketV6 : Call → SocketT)
    (C : SizeT) (I : Int) (ops : List (CallerOp Call)) :
    let tr := (callers socketV4 socketV6).trace (.create C I) ops
    (∀ before c t u result after, tr = before ++ .processed c t u result :: after →
      result.packetOut.packet.data ≠ [] →
      result.packetOut.address ≠ none ∧
        dispatched (socketV4 c) (socketV6 c) result.packetOut ≠ .undefined) ↔
    ∀ before c t u result after key due a, tr = before ++ .processed c t u result :: after →
      result.exit = .popped key due → nextInLine key before = some a →
      a.queued = 0 → a.call.data ≠ [] → a.item.address ≠ none := by
  intro tr
  constructor
  · intro h before c t u result after key due a htr he ha hq hd
    obtain ⟨b, hb, hout⟩ := popped_next_in_line htr he
    obtain rfl : a = b := Option.some.inj (ha.symm.trans hb)
    have hdata : result.packetOut.packet.data ≠ [] := hout ▸ delivered_data.mpr ⟨hq, hd⟩
    have haddress := (h before c t u result after htr hdata).1
    rwa [hout] at haddress
  · intro h before c t u result after htr hdata
    have haddress : result.packetOut.address ≠ none := by
      cases he : result.exit with
      | popped key due =>
        obtain ⟨a, ha, hout⟩ := popped_next_in_line htr he
        rw [hout] at hdata ⊢
        obtain ⟨hq, hd⟩ := delivered_data.mp hdata
        exact h before c t u result after key due a htr he ha hq hd
      | _ => exact absurd (unpopped_empty htr (by simp [he])) hdata
    refine ⟨haddress, fun hu => ?_⟩
    exact haddress ((dispatched_undefined_iff (socketV4 c) (socketV6 c)).mp hu).2

theorem dispatch_null :
    ¬ ∀ before c t u result after,
      (callers (fun _ : Unit => 3) fun _ => 4).trace (.create 4 20000000)
        [.request (.push (samplePushTo none 1 [1])), .enter (), .processNext () 1 1] =
          before ++ .processed c t u result :: after →
      result.packetOut.packet.data ≠ [] →
      result.packetOut.address ≠ none ∧ dispatched 3 4 result.packetOut ≠ .undefined := by
  intro h
  have hr := h ((callers (fun _ : Unit => 3) fun _ => 4).trace (.create 4 20000000)
      [.request (.push (samplePushTo none 1 [1])), .enter ()]) () 1 1
    ((client.run (.create 4 20000000) [.push (samplePushTo none 1 [1])]).processNextLocked {} 1 1).2 []
    rfl (by decide +kernel)
  revert hr
  decide +kernel

-- a `process_next_locked` of one call and the dispatch by the same call that follows it
structure Iteration (Call : Type) where
  before : List (CallerEvent Call)
  caller : Call
  currentTime : Int
  nanos : Int
  result : Processed
  during : List (CallerEvent Call)
  sent : Dispatched

namespace Iteration
variable {Call : Type} (it : Iteration Call)

def In (tr : List (CallerEvent Call)) : Prop :=
  (∃ now slept after, tr = it.before ++ .processed it.caller it.currentTime it.nanos it.result ::
    (it.during ++ .finished it.caller it.sent now slept :: after)) ∧
  ∀ e ∈ it.during, ¬ e.FinishedBy it.caller

def Conforms : Prop :=
  match it.result.exit with
  | .popped _ _ => Whole it.result.packetOut it.sent
  | _ => it.sent = .skipped

end Iteration

theorem iteration_conforms_iff {Call : Type} [DecidableEq Call] {socketV4 socketV6 : Call → SocketT}
    {C : SizeT} {I : Int} {ops : List (CallerOp Call)} {it : Iteration Call}
    (h : it.In ((callers socketV4 socketV6).trace (.create C I) ops)) :
    it.Conforms ↔ ∀ key due a, it.result.exit = .popped key due →
      nextInLine key it.before = some a → a.queued = 0 ∧ a.call.data ≠ [] ∧
        ∃ address, a.item.address = some address ∧ address.aiAddrlen = sizeofSockaddr := by
  obtain ⟨⟨now, slept, after, htr⟩, hf⟩ := h
  obtain ⟨-, s, post, hs, hphase, hpost⟩ := process_in_run htr
  have hsent := sent_of_sending hs hphase hpost hf
  rw [Iteration.Conforms]
  cases he : it.result.exit with
  | popped key due =>
    obtain ⟨a, ha, hout⟩ := popped_next_in_line htr he
    simp only [hsent, whole_iff, hout, delivered_data]
    constructor
    · rintro ⟨⟨hzero, hd⟩, haddress⟩ key' due' b hkey hb
      obtain ⟨rfl, rfl⟩ := Exit.popped.inj hkey
      obtain rfl : a = b := Option.some.inj (ha.symm.trans hb)
      exact ⟨hzero, hd, haddress⟩
    · intro hall
      obtain ⟨hzero, hd, haddress⟩ := hall key due a rfl ha
      exact ⟨⟨hzero, hd⟩, haddress⟩
  | _ =>
    have hempty := unpopped_empty htr (by simp [he])
    simpa using hsent.trans (dispatched_of_empty _ _ hempty)

theorem iterations_conform_iff {Call : Type} [DecidableEq Call] (socketV4 socketV6 : Call → SocketT)
    (C : SizeT) (I : Int) (ops : List (CallerOp Call)) :
    let tr := (callers socketV4 socketV6).trace (.create C I) ops
    (∀ it : Iteration Call, it.In tr → it.Conforms) ↔
    ∀ it : Iteration Call, it.In tr → ∀ key due a, it.result.exit = .popped key due →
      nextInLine key it.before = some a → a.queued = 0 ∧ a.call.data ≠ [] ∧
        ∃ address, a.item.address = some address ∧ address.aiAddrlen = sizeofSockaddr :=
  forall₂_congr fun _ h => iteration_conforms_iff h

def inet6Address : AddrInfo :=
  { node := 0, aiFamily := .inet6
    aiAddr := [10, 0, 15, 160] ++ List.replicate 19 0 ++ [1] ++ List.replicate 4 0
    aiAddrlen := 28 }

theorem iteration_inet6 :
    ¬ ∀ it : Iteration Unit,
      it.In ((callers (fun _ => 3) fun _ => 4).trace (.create 4 20000000)
        [.request (.push (samplePushTo (some inet6Address) 1 [1])), .enter (), .processNext () 1 1,
          .finish () 1]) → it.Conforms := by
  intro h
  let result := ((client.run (.create 4 20000000)
    [.push (samplePushTo (some inet6Address) 1 [1])]).processNextLocked {} 1 1).2
  have hin : Iteration.In
      { before := (callers (fun _ : Unit => 3) fun _ => 4).trace (.create 4 20000000)
          [.request (.push (samplePushTo (some inet6Address) 1 [1])), .enter ()]
        caller := (), currentTime := 1, nanos := 1, result, during := []
        sent := dispatched 3 4 result.packetOut } _ :=
        ⟨⟨1, sleepTime result.targetTime 1, [], rfl⟩, List.forall_mem_nil _⟩
  have hw : Whole result.packetOut (dispatched 3 4 result.packetOut) := h _ hin
  obtain ⟨-, address, ha, hlen⟩ := (whole_iff 3 4).mp hw
  have ha' : result.packetOut.address = some inet6Address := by decide +kernel
  obtain rfl : inet6Address = address := Option.some.inj (ha'.symm.trans ha)
  exact absurd hlen (by decide)

end UdpQueue
