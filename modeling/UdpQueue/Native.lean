import UdpQueue.Accounting
import UdpQueue.Library.Fallible
import UdpQueue.VectorRefinement

namespace UdpQueue

open Lni (Vector)

-- the calls as Java makes them: a key is a `jlong`, a length a `jint`, and only
-- `queuePacketWithSocket` has a handle
structure QueuePacket where
  key : Int64
  address : String
  port : Int32
  dataBuffer : List UInt8
  dataLength : Int32
  socketHandle : Option Int64
  getaddrinfo : GetAddrInfo

inductive NativeOp where
  | queuePacket (call : QueuePacket)
  | deleteQueue (key : Int64)
  | getRemainingCapacity (key : Int64)
  | shutDown
  | processNext (currentTime nanos : Int)

inductive NativeReply where
  | queuePacket (result : Bool)
  | deleteQueue (result : Bool)
  | getRemainingCapacity (remaining : Int)
  | shutDown
  | process (result : Processed)
deriving DecidableEq

def sizeOfJint (n : Int32) : SizeT := n.toInt64.toUInt64
def jintOfSize (n : SizeT) : Int32 := n.toUInt32.toInt32

namespace QueuePacket

def explicitSocket (call : QueuePacket) : SocketT :=
  match call.socketHandle with
  | none => socketInvalid
  | some handle => handle.toInt32.toInt

def push (call : QueuePacket) : PushCall :=
  { key := call.key.toUInt64, address := call.address, port := call.port
    data := call.dataBuffer.take call.dataLength.toInt.toNat
    explicitSocket := call.explicitSocket, getaddrinfo := call.getaddrinfo }

-- nothing compares the length with the buffer
def InBuffer (call : QueuePacket) : Prop :=
  0 ≤ call.dataLength.toInt ∧ call.dataLength.toInt ≤ call.dataBuffer.length ∧
    Lni.Fits call.dataLength.toUInt32

instance : DecidablePred InBuffer := fun _ => inferInstanceAs (Decidable (_ ∧ _ ∧ _))

end QueuePacket

def VectorManager.queuePacket (manager : VectorManager) (call : QueuePacket) :
    Option (VectorManager × Bool) :=
  (Vector.ofRange call.dataBuffer (sizeOfJint call.dataLength)).bind (manager.pushLocked call.push)

def VectorManager.native (manager : VectorManager) : NativeOp → Option (VectorManager × NativeReply)
  | .queuePacket call => (manager.queuePacket call).map fun r => (r.1, .queuePacket r.2)
  | .deleteQueue key => (manager.remove key.toUInt64).map fun r => (r.1, .deleteQueue r.2)
  | .getRemainingCapacity key =>
    some (manager, .getRemainingCapacity (jintOfSize (manager.getRemainingCapacity key.toUInt64)).toInt)
  | .shutDown => some (manager.shutDown, .shutDown)
  | .processNext currentTime nanos =>
    (manager.processNextLocked {} currentTime nanos).bind fun r =>
      r.2.view.map fun result => (r.1, .process result)

def VectorManager.nativeCreate (queueBufferCapacity : Int32) (packetInterval : Int64) : VectorManager :=
  .create (sizeOfJint queueBufferCapacity) packetInterval.toInt

def native : Machine (Option VectorManager) NativeOp (Option NativeReply) := .fallible VectorManager.native

def NativeOp.op : NativeOp → Op
  | .queuePacket call => .push call.push
  | .deleteQueue key => .remove key.toUInt64
  | .getRemainingCapacity key => .getRemainingCapacity key.toUInt64
  | .shutDown => .shutDown
  | .processNext currentTime nanos => .processNext currentTime nanos

def NativeOp.InBuffer : NativeOp → Prop
  | .queuePacket call => call.InBuffer
  | _ => True

-- what a caller would read without any conversion of integers
def Event.native : Event → NativeReply
  | .push _ _ _ accepted => .queuePacket accepted
  | .remove _ found _ => .deleteQueue found
  | .remaining _ capacity => .getRemainingCapacity capacity.toNat
  | .shutDown => .shutDown
  | .process _ _ result => .process result

theorem sizeOfJint_toUInt32 (n : Int32) : (sizeOfJint n).toUInt32 = n.toUInt32 := by
  apply UInt32.eq_of_toBitVec_eq
  change BitVec.setWidth 32 (BitVec.signExtend 64 n.toBitVec) = n.toBitVec
  ext i hi
  simp only [BitVec.getElem_setWidth, BitVec.getLsbD_signExtend, if_pos hi, BitVec.getLsbD_eq_getElem hi,
    Bool.and_eq_right_iff_imp, decide_eq_true_iff]
  omega

theorem toUInt32_toNat (n : Int32) :
    (n.toUInt32.toNat : Int) = if 0 ≤ n.toInt then n.toInt else n.toInt + 4294967296 := by
  change (n.toBitVec.toNat : Int) =
    if 0 ≤ n.toBitVec.toInt then n.toBitVec.toInt else n.toBitVec.toInt + 4294967296
  have hlt := n.toBitVec.isLt
  rw [BitVec.toInt_eq_toNat_cond]
  split_ifs <;> omega

theorem sizeOfJint_toNat {n : Int32} (h : 0 ≤ n.toInt) : ((sizeOfJint n).toNat : Int) = n.toInt := by
  change ((BitVec.signExtend 64 n.toBitVec).toNat : Int) = n.toBitVec.toInt
  have hext := BitVec.toInt_signExtend_of_le (show 32 ≤ 64 by decide) (x := n.toBitVec)
  rw [← hext, BitVec.toInt_eq_toNat_cond]
  rw [BitVec.toInt_eq_toNat_cond] at hext
  change 0 ≤ n.toBitVec.toInt at h
  split_ifs at hext ⊢ <;> omega

theorem jintOfSize_toInt {n : SizeT} (h : n.toNat < 2147483648) : (jintOfSize n).toInt = n.toNat := by
  have h32 : n.toUInt32.toBitVec.toNat = n.toNat := by
    change n.toUInt32.toNat = _
    rw [UInt64.toNat_toUInt32]
    omega
  change n.toUInt32.toBitVec.toInt = n.toNat
  rw [BitVec.toInt_eq_toNat_cond, h32]
  split_ifs <;> omega

theorem QueuePacket.in_buffer_of_small {call : QueuePacket} (hpos : 0 ≤ call.dataLength.toInt)
    (hle : call.dataLength.toInt ≤ call.dataBuffer.length) (hsmall : call.dataLength.toInt < 1073741824) :
    call.InBuffer := by
  have hcount := toUInt32_toNat call.dataLength
  rw [if_pos hpos] at hcount
  exact ⟨hpos, hle, Lni.fits_of_small (by omega)⟩

namespace VectorManager.Carries
variable {c : VectorManager} {m : Manager} (h : c.Carries m)
include h

theorem queuePacket {call : QueuePacket} (hb : call.InBuffer) :
    ∃ c', c.queuePacket call = some (c', (m.pushLocked call.push).2) ∧
      c'.Carries (m.pushLocked call.push).1 := by
  obtain ⟨hpos, hle, hfits⟩ := hb
  have hcount := toUInt32_toNat call.dataLength
  rw [if_pos hpos] at hcount
  have hvec : (sizeOfJint call.dataLength).toUInt32.toNat = call.dataLength.toInt.toNat := by
    rw [sizeOfJint_toUInt32]
    omega
  obtain ⟨data, hdata, hrep, hsize⟩ := @Vector.ofRange_represents _ call.dataBuffer
    (sizeOfJint call.dataLength) (by omega) (by rw [sizeOfJint_toUInt32]; exact hfits)
  rw [hvec] at hrep
  rw [VectorManager.queuePacket, hdata, Option.bind_some]
  exact h.pushLocked call.push hrep (by rw [hsize, sizeOfJint_toUInt32]; exact hfits)

theorem native (hm : m.Sound) (hC : m.queueBufferCapacity.toNat < 2147483648) (op : NativeOp)
    (hop : op.InBuffer) :
    ∃ c', c.native op = some (c', (client.out m op.op).native) ∧ c'.Carries (client.next m op.op) := by
  cases op with
  | queuePacket call =>
    obtain ⟨c', hqueue, hc⟩ := h.queuePacket hop
    rw [VectorManager.native, hqueue]
    exact ⟨c', rfl, hc⟩
  | deleteQueue key =>
    obtain ⟨c', hremove, hc⟩ := h.remove key.toUInt64
    rw [VectorManager.native, hremove]
    exact ⟨c', rfl, hc⟩
  | getRemainingCapacity key =>
    have hremaining := Manager.getRemainingCapacity_toNat hm key.toUInt64
    rw [VectorManager.native, h.getRemainingCapacity key.toUInt64, jintOfSize_toInt (by omega)]
    exact ⟨c, rfl, h⟩
  | shutDown => exact ⟨c.shutDown, rfl, { h with shuttingDown := rfl }⟩
  | processNext t u =>
    obtain ⟨c', result, hprocess, hc, hview⟩ := h.processNextLocked t u
    rw [VectorManager.native, hprocess, Option.bind_some, hview]
    exact ⟨c', rfl, hc⟩

end VectorManager.Carries

theorem native_run {capacity : Int32} (hcap : 0 ≤ capacity.toInt) (I : Int64) (ops : List NativeOp)
    (hops : ∀ op ∈ ops, op.InBuffer) :
    let m := Manager.create (sizeOfJint capacity) I.toInt
    (∃ c, native.run (some (.nativeCreate capacity I)) ops = some c ∧
        c.Carries (client.run m (ops.map NativeOp.op)) ∧ (client.run m (ops.map NativeOp.op)).Sound ∧
        (client.run m (ops.map NativeOp.op)).queueBufferCapacity = sizeOfJint capacity) ∧
      native.trace (some (.nativeCreate capacity I)) ops =
        (client.trace m (ops.map NativeOp.op)).map fun e => some e.native := by
  have hsmall : (sizeOfJint capacity).toNat < 2147483648 := by
    have hcast := sizeOfJint_toNat hcap
    have hlt := capacity.toInt_lt
    omega
  refine Machine.fallible_agreement (N := client) NativeOp.op Event.native
    (R := fun c m => VectorManager.Carries c m ∧ m.Sound ∧ m.queueBufferCapacity = sizeOfJint capacity)
    (fun c m op hc hop => ?_) ⟨VectorManager.create_carries _ _, Manager.create_sound _ _, rfl⟩ ops hops
  obtain ⟨hcarries, hsound, hC⟩ := hc
  obtain ⟨c', hnative, hnext⟩ := hcarries.native hsound (by rw [hC]; exact hsmall) op hop
  exact ⟨c', hnative, hnext, client_sound m op.op hsound, (client_frame m op.op).capacity.trans hC⟩

theorem in_buffer_of_queued {c : VectorManager} {call : QueuePacket} {r : VectorManager × Bool}
    (hbuf : call.dataBuffer.length < 2147483648) (h : c.queuePacket call = some r) : call.InBuffer := by
  obtain ⟨data, hdata, -⟩ := Option.bind_eq_some_iff.mp h
  obtain ⟨hlen, hfits⟩ := Vector.bounds_of_ofRange hdata
  rw [sizeOfJint_toUInt32] at hlen hfits
  have hcount := toUInt32_toNat call.dataLength
  have hge := call.dataLength.le_toInt
  -- a negative length leaves a count of at least 2^31
  have hpos : 0 ≤ call.dataLength.toInt := by
    by_contra hneg
    rw [if_neg hneg] at hcount
    omega
  rw [if_pos hpos] at hcount
  exact ⟨hpos, by omega, hfits⟩

theorem native_calls (capacity : Int32) (I : Int64) (ops : List NativeOp) (hcap : 0 ≤ capacity.toInt)
    (hbuf : ∀ call, .queuePacket call ∈ ops → call.dataBuffer.length < 2147483648) :
    ((native.run (some (.nativeCreate capacity I)) ops).isSome ↔
        ∀ call, .queuePacket call ∈ ops → call.InBuffer) ∧
      ((∀ call, .queuePacket call ∈ ops → call.InBuffer) →
        native.trace (some (.nativeCreate capacity I)) ops =
          (client.trace (.create (sizeOfJint capacity) I.toInt) (ops.map NativeOp.op)).map
            fun e => some e.native) := by
  have hrun (hin : ∀ call, .queuePacket call ∈ ops → call.InBuffer) :=
    native_run hcap I ops fun op hop => by
      cases op with
      | queuePacket call => exact hin call hop
      | _ => trivial
  refine ⟨⟨fun hsome call hcall => ?_, fun hin => ?_⟩, fun hin => (hrun hin).2⟩
  · obtain ⟨c, r, happly⟩ := Machine.applied_of_run hsome hcall
    obtain ⟨r', hqueue, -⟩ := Option.map_eq_some_iff.mp happly
    exact in_buffer_of_queued (hbuf call hcall) hqueue
  · obtain ⟨⟨c, hc, -⟩, -⟩ := hrun hin
    rw [hc]
    rfl

def sampleQueuePacket (key : Int64) (dataBuffer : List UInt8) (dataLength : Int32) : QueuePacket :=
  { key, address := "127.0.0.1", port := 4000, dataBuffer, dataLength, socketHandle := none
    getaddrinfo := fun _ _ _ => some inetAddress }

example : ¬ (sampleQueuePacket 1 [1, 2] 3).InBuffer ∧ ¬ (sampleQueuePacket 1 [1, 2] (-1)).InBuffer := by
  decide

-- five bytes outgrow the four reserved for the vector of a new slot
theorem native_calls_grown :
    native.trace (some (.nativeCreate 2 20000000))
        [.queuePacket (sampleQueuePacket (-1) [1, 2, 3, 4, 5, 6] 5), .getRemainingCapacity (-1),
          .processNext 5 6, .deleteQueue (-1)] =
      [some (.queuePacket true), some (.getRemainingCapacity 1),
        some (.process { packetOut := { packet := { data := [1, 2, 3, 4, 5], length := 5 }
                                        address := some inetAddress, explicitSocket := socketInvalid }
                         targetTime := 20000005, exit := .popped (-1) 5 }),
        some (.deleteQueue true)] := by
  have hcall (call : QueuePacket) (hmem : NativeOp.queuePacket call ∈
      [.queuePacket (sampleQueuePacket (-1) [1, 2, 3, 4, 5, 6] 5), .getRemainingCapacity (-1),
        .processNext 5 6, .deleteQueue (-1)]) :
      call.dataBuffer.length < 2147483648 ∧ call.InBuffer := by
    obtain rfl : call = sampleQueuePacket (-1) [1, 2, 3, 4, 5, 6] 5 := by simpa using hmem
    exact ⟨by decide, QueuePacket.in_buffer_of_small (by decide) (by decide) (by decide)⟩
  rw [(native_calls 2 20000000 _ (by decide) fun call hmem => (hcall call hmem).1).2
    fun call hmem => (hcall call hmem).2]
  decide +kernel

end UdpQueue
