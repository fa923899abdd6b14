import Mathlib.Data.Finmap
import UdpQueue.Packet

namespace UdpQueue

structure Buffer where
  index : SizeT
  size : SizeT
  capacity : SizeT
deriving DecidableEq

structure Item where
  nextDueTime : Int
  packetBuffer : Finmap (fun _ : SizeT => Queued)
  buffer : Buffer
  address : Option AddrInfo
  explicitSocket : SocketT
deriving DecidableEq

namespace Item

def slot (item : Item) (i : SizeT) : Queued := (item.packetBuffer.lookup i).getD {}

-- `operator[]` leaves an empty packet in a missing slot, and assigning from `std::move` copies
-- the bytes and leaves the slot as it was; the slot erased is the one after the index advanced
def pop (item : Item) : Item × Unsent :=
  let packet := item.slot item.buffer.index
  let index := (item.buffer.index + 1) % item.buffer.capacity
  ({ item with
      packetBuffer := (item.packetBuffer.insert item.buffer.index packet).erase index
      buffer := { item.buffer with index, size := item.buffer.size - 1 } },
    { packet, address := item.address, explicitSocket := item.explicitSocket })

def enqueue (item : Item) (data : List UInt8) : Item :=
  let nextIndex := (item.buffer.index + item.buffer.size) % item.buffer.capacity
  { item with
    packetBuffer := item.packetBuffer.insert nextIndex { data, length := data.length }
    buffer := { item.buffer with size := item.buffer.size + 1 } }

theorem pop_size_lt {item : Item} (h : 0 < item.buffer.size) :
    (pop item).1.buffer.size.toNat < item.buffer.size.toNat := by
  have hn : 0 < item.buffer.size.toNat := UInt64.lt_iff_toNat_lt.mp h
  have hs : 1 ≤ item.buffer.size := UInt64.le_iff_toNat_le.mpr hn
  simp only [pop, UInt64.toNat_sub_of_le _ _ hs, UInt64.toNat_one]
  omega

def drain (item : Item) : Item × List Unsent :=
  if 0 < item.buffer.size then
    let rest := drain (pop item).1
    (rest.1, (pop item).2 :: rest.2)
  else (item, [])
termination_by item.buffer.size.toNat
decreasing_by exact pop_size_lt ‹_›

end Item

end UdpQueue
