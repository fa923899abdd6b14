import UdpQueue.Manager
import UdpQueue.Lni.Vector

namespace UdpQueue

open Lni (Vector)

structure VectorQueued where
  data : Vector UInt8 := .new
  length : SizeT := 0
deriving DecidableEq

structure VectorUnsent where
  packet : VectorQueued := {}
  address : Option AddrInfo := none
  explicitSocket : SocketT := 0
deriving DecidableEq

structure VectorItem where
  nextDueTime : Int
  packetBuffer : Finmap (fun _ : SizeT => VectorQueued)
  buffer : Buffer
  address : Option AddrInfo
  explicitSocket : SocketT

structure VectorManager where
  queues : OrderedMap Int64 VectorItem
  queueBufferCapacity : SizeT
  packetInterval : Int
  shuttingDown : Bool

structure VectorProcessed where
  packetOut : VectorUnsent
  targetTime : Int
  exit : Exit
  freed : List AddrInfo := []

def VectorQueued.ofVector (data : Vector UInt8) : Option VectorQueued :=
  data.move.map fun moved => { data := moved, length := data.size.toUInt64 }

def VectorQueued.moveAssign (packet other : VectorQueued) : Option VectorQueued :=
  (packet.data.moveAssign other.data).map fun data => { data, length := other.length }

def VectorUnsent.clear (packetOut : VectorUnsent) : VectorUnsent :=
  { packet := { packetOut.packet with data := packetOut.packet.data.clear }, address := none
    explicitSocket := socketInvalid }

-- what is sent of it: `length` bytes from `data()`, unless the vector is empty
def VectorUnsent.view (unsent : VectorUnsent) : Option Unsent :=
  let bytes :=
    if unsent.packet.data.empty then some []
    else unsent.packet.data.arr.slice unsent.packet.length.toNat 0
  bytes.map fun data =>
    { packet := { data, length := unsent.packet.length.toNat }, address := unsent.address
      explicitSocket := unsent.explicitSocket }

namespace VectorItem

def slot (item : VectorItem) (i : SizeT) : VectorQueued := (item.packetBuffer.lookup i).getD {}

def pop (item : VectorItem) (packetOut : VectorUnsent) : Option (VectorItem × VectorUnsent) :=
  let packet := item.slot item.buffer.index
  let index := (item.buffer.index + 1) % item.buffer.capacity
  (packetOut.packet.moveAssign packet).map fun moved =>
    ({ item with
        packetBuffer := (item.packetBuffer.insert item.buffer.index packet).erase index
        buffer := { item.buffer with index, size := item.buffer.size - 1 } },
      { packet := moved, address := item.address, explicitSocket := item.explicitSocket })

def enqueue (item : VectorItem) (data : Vector UInt8) : Option VectorItem := do
  let nextIndex := (item.buffer.index + item.buffer.size) % item.buffer.capacity
  let queued ← VectorQueued.ofVector data
  let packet ← (item.slot nextIndex).moveAssign queued
  some { item with
    packetBuffer := item.packetBuffer.insert nextIndex packet
    buffer := { item.buffer with size := item.buffer.size + 1 } }

-- `while (size > 0)`, each time into a packet of its own: a pop lowers the size by one
def drain : Nat → VectorItem → Option VectorItem
  | 0, item => some item
  | size + 1, item => (item.pop {}).bind fun r => drain size r.1

end VectorItem

def vectorAddrinfoFree (item : VectorItem) : List AddrInfo := item.address.toList

namespace VectorManager

def create (queueBufferCapacity : SizeT) (packetInterval : Int) : VectorManager :=
  { queues := ∅, queueBufferCapacity, packetInterval, shuttingDown := false }

variable (manager : VectorManager)

def shutDown : VectorManager := { manager with shuttingDown := true }

def newItem (call : PushCall) : VectorItem :=
  { nextDueTime := 0
    packetBuffer := ∅
    buffer := { index := 0, size := 0, capacity := manager.queueBufferCapacity }
    address := call.resolved
    explicitSocket := call.explicitSocket }

def pushLocked (call : PushCall) (data : Vector UInt8) : Option (VectorManager × Bool) :=
  let key := call.key.toInt64
  let queues :=
    if key ∈ manager.queues then manager.queues
    else OrderedMap.insert key (manager.newItem call) manager.queues
  match queues.lookup key with
  | none => some ({ manager with queues }, false)
  | some item =>
    if item.buffer.size ≥ item.buffer.capacity then some ({ manager with queues }, false)
    else (item.enqueue data).map fun item => ({ manager with queues := queues.replace key item }, true)

def remove (key : UInt64) : Option (VectorManager × Bool) :=
  match manager.queues.lookup key.toInt64 with
  | some item =>
    (item.drain item.buffer.size.toNat).map fun item =>
      ({ manager with queues := manager.queues.replace key.toInt64 item }, true)
  | none => some (manager, false)

def getRemainingCapacity (key : UInt64) : SizeT :=
  match manager.queues.lookup key.toInt64 with
  | some item => item.buffer.capacity - item.buffer.size
  | none => manager.queueBufferCapacity

def getTargetTime (currentTime : Int) : Int :=
  match OrderedMap.front manager.queues with
  | none => currentTime + manager.packetInterval
  | some (_, item) => item.nextDueTime

def nextDue (due nanos : Int) : Int :=
  if nanos - due ≥ 2 * manager.packetInterval then nanos + manager.packetInterval
  else due + manager.packetInterval

def serve (key : Int64) (item : VectorItem) (packetOut : VectorUnsent) (nanos : Int) :
    Option (VectorManager × VectorProcessed) :=
  (item.pop packetOut).map fun (popped, packetOut) =>
    let served := { popped with nextDueTime := manager.nextDue item.nextDueTime nanos }
    let after := { manager with
      queues := OrderedMap.insert key served (manager.queues.erase key) }
    (after, { packetOut, targetTime := after.getTargetTime nanos
              exit := .popped key item.nextDueTime })

def processNextLocked (packetOut : VectorUnsent) (currentTime nanos : Int) :
    Option (VectorManager × VectorProcessed) :=
  match OrderedMap.front manager.queues with
  | none =>
    some (manager, { packetOut := packetOut.clear, targetTime := currentTime + manager.packetInterval
                     exit := .idle })
  | some (key, item) =>
    if item.buffer.size = 0 then
      let manager := { manager with queues := manager.queues.erase key }
      some (manager, { packetOut := packetOut.clear, targetTime := manager.getTargetTime currentTime
                       exit := .erased key, freed := vectorAddrinfoFree item })
    else if item.nextDueTime = 0 then
      manager.serve key { item with nextDueTime := currentTime } packetOut.clear nanos
    else if item.nextDueTime - currentTime ≥ 1500000 then
      some (manager, { packetOut := packetOut.clear, targetTime := item.nextDueTime
                       exit := .waiting key })
    else manager.serve key item packetOut.clear nanos

end VectorManager

def VectorProcessed.view (result : VectorProcessed) : Option Processed :=
  result.packetOut.view.map fun packetOut =>
    { packetOut, targetTime := result.targetTime, exit := result.exit, freed := result.freed }

end UdpQueue
