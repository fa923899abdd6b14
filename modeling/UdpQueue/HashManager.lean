import UdpQueue.Client
import UdpQueue.Tsl.OrderedHash

namespace UdpQueue

open Tsl

-- `queues` maps keys to the addresses of shared items; address 0 is the null pointer
structure HashManager where
  queues : OrderedHash Int64 Nat
  items : Nat → Option Item
  nextItem : Nat
  queueBufferCapacity : SizeT
  packetInterval : Int
  shuttingDown : Bool

namespace HashManager

def create (queueBufferCapacity : SizeT) (packetInterval : Int) : Option HashManager :=
  (({} : OrderedHash Int64 Nat).reserve 100).map fun queues =>
    { queues, items := fun _ => none, nextItem := 1, queueBufferCapacity, packetInterval
      shuttingDown := false }

variable (hash : Int64 → SizeT) (manager : HashManager)

def shutDown : HashManager := { manager with shuttingDown := true }

def setItem (ptr : Nat) (item : Item) : HashManager :=
  { manager with items := Function.update manager.items ptr (some item) }

-- `queues[key]`: a null pointer is inserted under a missing key
def queueAt (key : Int64) : Option (HashManager × Nat) :=
  (manager.queues.insertImpl hash (key, 0)).bind fun (queues, index, _) =>
    queues.values[index]?.map fun e => ({ manager with queues }, e.2)

def newItem (call : PushCall) : Item :=
  { nextDueTime := 0
    packetBuffer := ∅
    buffer := { index := 0, size := 0, capacity := manager.queueBufferCapacity }
    address := call.resolved
    explicitSocket := call.explicitSocket }

def insertItem (call : PushCall) : Option HashManager :=
  (manager.queues.insertImpl hash (call.key.toInt64, manager.nextItem)).map fun (queues, _) =>
    { manager with queues, nextItem := manager.nextItem + 1 }.setItem manager.nextItem
      (manager.newItem call)

def ensureItem (call : PushCall) : Option HashManager := do
  let count ← manager.queues.count hash call.key.toInt64
  if count = 0 then manager.insertItem hash call else some manager

def pushLocked (call : PushCall) : Option (HashManager × Bool) := do
  let manager ← manager.ensureItem hash call
  let (manager, ptr) ← manager.queueAt hash call.key.toInt64
  let item ← manager.items ptr
  if item.buffer.size ≥ item.buffer.capacity then some (manager, false)
  else some (manager.setItem ptr (item.enqueue call.data), true)

def remove (key : UInt64) : Option (HashManager × Bool × List Unsent) := do
  let count ← manager.queues.count hash key.toInt64
  if count = 0 then some (manager, false, [])
  else
    let (manager, ptr) ← manager.queueAt hash key.toInt64
    let item ← manager.items ptr
    some (manager.setItem ptr item.drain.1, true, item.drain.2)

def getRemainingCapacity (key : UInt64) : Option (HashManager × SizeT) := do
  let count ← manager.queues.count hash key.toInt64
  if count = 0 then some (manager, manager.queueBufferCapacity)
  else
    let (manager, ptr) ← manager.queueAt hash key.toInt64
    let item ← manager.items ptr
    some (manager, item.buffer.capacity - item.buffer.size)

def getTargetTime (currentTime : Int) : Option Int :=
  match manager.queues.front with
  | none => some (currentTime + manager.packetInterval)
  | some (_, ptr) => (manager.items ptr).map Item.nextDueTime

def nextDue (due nanos : Int) : Int :=
  if nanos - due ≥ 2 * manager.packetInterval then nanos + manager.packetInterval
  else due + manager.packetInterval

def serve (key : Int64) (ptr : Nat) (item : Item) (nanos : Int) : Option (HashManager × Processed) := do
  let manager := manager.setItem ptr item.pop.1
  let (queues, _) ← manager.queues.eraseImpl hash key
  let (queues, _) ← queues.insertImpl hash (key, ptr)
  let manager := { manager with queues }.setItem ptr
    { item.pop.1 with nextDueTime := manager.nextDue item.nextDueTime nanos }
  let targetTime ← manager.getTargetTime nanos
  some (manager, { packetOut := item.pop.2, targetTime, exit := .popped key item.nextDueTime })

def processNextLocked (packetOut : Unsent) (currentTime nanos : Int) :
    Option (HashManager × Processed) :=
  match manager.queues.front with
  | none => some (manager, { packetOut := packetOut.clear
                             targetTime := currentTime + manager.packetInterval, exit := .idle })
  | some (key, ptr) => do
    let item ← manager.items ptr
    if item.buffer.size = 0 then
      let (queues, _) ← manager.queues.eraseImpl hash key
      let manager := { manager with queues }
      let targetTime ← manager.getTargetTime currentTime
      some (manager, { packetOut := packetOut.clear, targetTime, exit := .erased key
                       freed := addrinfoFree item })
    else if item.nextDueTime = 0 then
      manager.serve hash key ptr { item with nextDueTime := currentTime } nanos
    else if item.nextDueTime - currentTime ≥ 1500000 then
      some (manager, { packetOut := packetOut.clear, targetTime := item.nextDueTime
                       exit := .waiting key })
    else manager.serve hash key ptr item nanos

end HashManager

def HashManager.apply (hash : Int64 → SizeT) (manager : HashManager) : Op → Option (HashManager × Reply)
  | .push call => (manager.pushLocked hash call).map fun r => (r.1, .push r.2)
  | .remove key => (manager.remove hash key).map fun r => (r.1, .remove r.2.1 r.2.2)
  | .getRemainingCapacity key => (manager.getRemainingCapacity hash key).map fun r => (r.1, .remaining r.2)
  | .shutDown => some (manager.shutDown, .shutDown)
  | .processNext currentTime nanos =>
    (manager.processNextLocked hash {} currentTime nanos).map fun r => (r.1, .process r.2)

def hashClient (hash : Int64 → SizeT) : Machine (Option HashManager) Op (Option Reply) where
  step manager op :=
    let r := manager.bind (HashManager.apply hash · op)
    (r.map Prod.fst, r.map Prod.snd)

end UdpQueue
