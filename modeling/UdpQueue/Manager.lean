import UdpQueue.Library.OrderedMap
import UdpQueue.Item

namespace UdpQueue

structure Manager where
  queues : OrderedMap Int64 Item
  queueBufferCapacity : SizeT
  packetInterval : Int
  shuttingDown : Bool

structure PushCall where
  key : UInt64
  address : String
  port : Int32
  data : List UInt8
  explicitSocket : SocketT
  getaddrinfo : GetAddrInfo

def PushCall.resolved (call : PushCall) : Option AddrInfo :=
  resolveAddress call.getaddrinfo call.address call.port

-- the four exits of `process_next_locked`; a pop records the deadline it was made for
inductive Exit where
  | idle
  | erased (key : Int64)
  | waiting (key : Int64)
  | popped (key : Int64) (due : Int)
deriving DecidableEq

structure Processed where
  packetOut : Unsent
  targetTime : Int
  exit : Exit
  freed : List AddrInfo := []
deriving DecidableEq

def addrinfoFree (item : Item) : List AddrInfo := item.address.toList

namespace Manager

def create (queueBufferCapacity : SizeT) (packetInterval : Int) : Manager :=
  { queues := ∅, queueBufferCapacity, packetInterval, shuttingDown := false }

def shutDown (manager : Manager) : Manager := { manager with shuttingDown := true }

def newItem (manager : Manager) (call : PushCall) : Item :=
  { nextDueTime := 0
    packetBuffer := ∅
    buffer := { index := 0, size := 0, capacity := manager.queueBufferCapacity }
    address := call.resolved
    explicitSocket := call.explicitSocket }

def pushLocked (manager : Manager) (call : PushCall) : Manager × Bool :=
  let key := call.key.toInt64
  let queues :=
    if key ∈ manager.queues then manager.queues
    else OrderedMap.insert key (manager.newItem call) manager.queues
  match queues.lookup key with
  | none => ({ manager with queues }, false)
  | some item =>
    if item.buffer.size ≥ item.buffer.capacity then ({ manager with queues }, false)
    else ({ manager with queues := queues.replace key (item.enqueue call.data) }, true)

def remove (manager : Manager) (key : UInt64) : Manager × Bool × List Unsent :=
  match manager.queues.lookup key.toInt64 with
  | some item =>
    ({ manager with queues := manager.queues.replace key.toInt64 item.drain.1 }, true, item.drain.2)
  | none => (manager, false, [])

def getRemainingCapacity (manager : Manager) (key : UInt64) : SizeT :=
  match manager.queues.lookup key.toInt64 with
  | some item => item.buffer.capacity - item.buffer.size
  | none => manager.queueBufferCapacity

def getTargetTime (manager : Manager) (currentTime : Int) : Int :=
  match OrderedMap.front manager.queues with
  | none => currentTime + manager.packetInterval
  | some (_, item) => item.nextDueTime

def nextDue (manager : Manager) (due nanos : Int) : Int :=
  if nanos - due ≥ 2 * manager.packetInterval then nanos + manager.packetInterval
  else due + manager.packetInterval

-- the map and the caller share the item, so its new deadline is seen through the map
def served (manager : Manager) (item : Item) (nanos : Int) : Item :=
  { item.pop.1 with nextDueTime := manager.nextDue item.nextDueTime nanos }

def serve (manager : Manager) (key : Int64) (item : Item) (nanos : Int) : Manager × Processed :=
  let after := { manager with
    queues := OrderedMap.insert key (manager.served item nanos) (manager.queues.erase key) }
  (after, { packetOut := item.pop.2, targetTime := after.getTargetTime nanos,
            exit := .popped key item.nextDueTime })

def processNextLocked (manager : Manager) (packetOut : Unsent) (currentTime nanos : Int) :
    Manager × Processed :=
  match OrderedMap.front manager.queues with
  | none =>
    (manager, { packetOut := packetOut.clear, targetTime := currentTime + manager.packetInterval,
                exit := .idle })
  | some (key, item) =>
    if item.buffer.size = 0 then
      let manager := { manager with queues := manager.queues.erase key }
      (manager, { packetOut := packetOut.clear, targetTime := manager.getTargetTime currentTime,
                  exit := .erased key, freed := addrinfoFree item })
    else if item.nextDueTime = 0 then
      manager.serve key { item with nextDueTime := currentTime } nanos
    else if item.nextDueTime - currentTime ≥ 1500000 then
      (manager, { packetOut := packetOut.clear, targetTime := item.nextDueTime, exit := .waiting key })
    else
      manager.serve key item nanos

end Manager

end UdpQueue
