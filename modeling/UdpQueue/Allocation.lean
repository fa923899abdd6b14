import UdpQueue.Client
import UdpQueue.Library.Fallible

namespace UdpQueue

-- `reserve` tells whether `packet_buffer.reserve` returns, if the call comes to it
structure AllocatingOp where
  op : Op
  reserve : SizeT → Bool

-- `none`: the exception leaves `push` with `lock` held, and no call returns any more
def Manager.allocating (m : Manager) (call : AllocatingOp) : Option (Manager × Event) :=
  match call.op with
  | .push push =>
    if push.key.toInt64 ∈ m.queues ∨ call.reserve m.queueBufferCapacity then
      some (client.step m (.push push))
    else none
  | op => some (client.step m op)

theorem allocating_eq {m : Manager} {call : AllocatingOp} {r : Manager × Event}
    (h : m.allocating call = some r) : r = client.step m call.op := by
  obtain ⟨op, reserve⟩ := call
  cases op with
  | push push =>
    simp only [Manager.allocating] at h
    split_ifs at h
    exact (Option.some.inj h).symm
  | _ => exact (Option.some.inj h).symm

theorem allocating_throws {m : Manager} {call : AllocatingOp} (h : m.allocating call = none) :
    ∃ push, call.op = .push push ∧ push.key.toInt64 ∉ m.queues ∧
      call.reserve m.queueBufferCapacity = false := by
  obtain ⟨op, reserve⟩ := call
  cases op with
  | push push =>
    simp only [Manager.allocating] at h
    split_ifs at h with hc
    obtain ⟨hk, hr⟩ := not_or.mp hc
    exact ⟨push, rfl, hk, Bool.eq_false_iff.mpr hr⟩
  | _ => cases h

theorem allocating_runs_client (C : SizeT) (I : Int) (ops : List AllocatingOp) :
    ∃ pre post, ops = pre ++ post ∧
      (Machine.fallible Manager.allocating).trace (some (.create C I)) ops =
        (client.trace (.create C I) (pre.map AllocatingOp.op)).map some ++
          post.map (fun _ => none) ∧
      (post = [] ∨ ∃ call rest push, post = call :: rest ∧ call.op = .push push ∧
        push.key.toInt64 ∉ (client.run (.create C I) (pre.map AllocatingOp.op)).queues ∧
        call.reserve C = false) := by
  obtain ⟨pre, post, hops, htrace, hcut⟩ := Machine.fallible_cut (N := client)
    (f := Manager.allocating) (g := AllocatingOp.op) (fun _ _ _ => allocating_eq) (.create C I) ops
  refine ⟨pre, post, hops, htrace, hcut.imp id ?_⟩
  rintro ⟨call, rest, rfl, hnone⟩
  obtain ⟨push, hop, hnew, hthrows⟩ := allocating_throws hnone
  rw [reachable_capacity] at hthrows
  exact ⟨call, rest, push, rfl, hop, hnew, hthrows⟩

end UdpQueue
