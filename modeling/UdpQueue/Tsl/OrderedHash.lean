import Mathlib.Algebra.Group.Nat.Defs
import UdpQueue.Library.Forever
import UdpQueue.Packet

namespace UdpQueue.Tsl

def emptyMarkerIndex : Nat := 2 ^ 32 - 1
def maxSize : Nat := emptyMarkerIndex - 1
def maxBucketCount : Nat := 2 ^ 60 - 1

structure BucketEntry where
  index : Nat := emptyMarkerIndex
  hash : UInt32 := 0
deriving DecidableEq

namespace BucketEntry

def empty (b : BucketEntry) : Bool := b.index == emptyMarkerIndex
def clear (b : BucketEntry) : BucketEntry := { b with index := emptyMarkerIndex }

end BucketEntry

-- `p / q` rounded to 24 significant bits, ties to even
def roundFloat (p q : Nat) : Nat :=
  let ulp := q * 2 ^ ((p / q).log2 - 23)
  let even := p / ulp % 2 = 0
  (if 2 * (p % ulp) < ulp ∨ 2 * (p % ulp) = ulp ∧ even then p / ulp else p / ulp + 1) *
    2 ^ ((p / q).log2 - 23)

def toFloat (n : Nat) : Nat := roundFloat n 1

-- `ceil(float(count) / 0.75f)`: below `2 ^ 23` the quotient keeps a bit of its fraction
def ceilLoad (count : Nat) : Nat :=
  let p := 4 * toFloat count
  if p / 3 < 2 ^ 23 then (p + 2) / 3 else roundFloat p 3

def isPowerOfTwo (value : Nat) : Bool := value ≠ 0 && value &&& (value - 1) == 0

def roundUpToPowerOfTwo (value : Nat) : Nat :=
  if isPowerOfTwo value then value
  else if value = 0 then 1
  else [1, 2, 4, 8, 16, 32].foldl (fun value i => value ||| value >>> i) (value - 1) + 1

structure OrderedHash (K V : Type) where
  buckets : List BucketEntry := []
  hashMask : Nat := 0
  values : List (K × V) := []
  loadThreshold : Nat := 0
  growOnNextInsert : Bool := false
deriving DecidableEq

structure Carried where
  ibucket : Nat
  distFromIdealBucket : Nat
  index : Nat
  hash : UInt32

-- `none`: `std::length_error`, or a loop that would not end
namespace OrderedHash
variable {K V : Type} (t : OrderedHash K V)

def size : Nat := t.values.length
def bucketCount : Nat := t.buckets.length
def front : Option (K × V) := t.values.head?

-- an empty array of buckets is replaced by one static empty bucket
def bucket (ibucket : Nat) : BucketEntry := t.buckets.getD ibucket {}

def setBucket (ibucket : Nat) (b : BucketEntry) : OrderedHash K V :=
  { t with buckets := t.buckets.set ibucket b }

def bucketForHash (hash : SizeT) : Nat := hash.toNat &&& t.hashMask
def nextBucket (index : Nat) : Nat := if index + 1 < t.buckets.length then index + 1 else 0

def distanceFromIdealBucket (ibucket : Nat) : Nat :=
  let idealBucket := t.bucketForHash (t.bucket ibucket).hash.toUInt64
  if ibucket ≥ idealBucket then ibucket - idealBucket else t.bucketCount + ibucket - idealBucket

-- `load_factor() >= 0.15f`
def loadFactorHigh : Bool :=
  t.bucketCount ≠ 0 && 10066330 * t.bucketCount ≤ toFloat t.size * 2 ^ 26

def maxLoadFactor : OrderedHash K V := { t with loadThreshold := t.bucketCount * 3 / 4 }

section Find
variable [DecidableEq K] (key : K) (hash : SizeT)

def holdsKey (ibucket : Nat) : Bool :=
  (t.bucket ibucket).hash == hash.toUInt32 &&
    t.values[(t.bucket ibucket).index]?.any (fun value => value.1 = key)

def findStep : Nat × Nat → (Nat × Nat) ⊕ Option Nat
  | (ibucket, dist) =>
    if (t.bucket ibucket).empty then .inr none
    else if t.holdsKey key hash ibucket then .inr (some ibucket)
    else if dist > t.distanceFromIdealBucket ibucket then .inr none
    else .inl (t.nextBucket ibucket, dist + 1)

def findKey : Option (Option Nat) :=
  forever (t.findStep key hash) (t.bucketCount + 1) (t.bucketForHash hash, 0)

def probeStep : Nat × Nat → (Nat × Nat) ⊕ (Nat ⊕ Nat × Nat)
  | (ibucket, dist) =>
    if !(t.bucket ibucket).empty && dist ≤ t.distanceFromIdealBucket ibucket then
      if t.holdsKey key hash ibucket then .inr (.inl (t.bucket ibucket).index)
      else .inl (t.nextBucket ibucket, dist + 1)
    else .inr (.inr (ibucket, dist))

def probe : Option (Nat ⊕ Nat × Nat) :=
  forever (t.probeStep key hash) (t.bucketCount + 1) (t.bucketForHash hash, 0)

end Find

section Insert

def place (c : Carried) : OrderedHash K V := t.setBucket c.ibucket { index := c.index, hash := c.hash }

def displace (c : Carried) : OrderedHash K V × Carried :=
  let distance := t.distanceFromIdealBucket c.ibucket
  if c.distFromIdealBucket > distance then
    (t.place c, { c with distFromIdealBucket := distance, index := (t.bucket c.ibucket).index
                         hash := (t.bucket c.ibucket).hash })
  else (t, c)

def advance (c : Carried) : Carried :=
  { c with ibucket := t.nextBucket c.ibucket, distFromIdealBucket := c.distFromIdealBucket + 1 }

def noteProbes (c : Carried) : OrderedHash K V :=
  { t with growOnNextInsert :=
      t.growOnNextInsert || (decide (c.distFromIdealBucket > 128) && t.loadFactorHigh) }

def insertIndexStep : OrderedHash K V × Carried → (OrderedHash K V × Carried) ⊕ OrderedHash K V
  | (t, c) =>
    if (t.bucket c.ibucket).empty then .inr (t.place c)
    else
      let (t, c) := t.displace c
      let c := t.advance c
      .inl (t.noteProbes c, c)

def insertIndex (c : Carried) : Option (OrderedHash K V) :=
  forever insertIndexStep (t.bucketCount + 1) (t, c)

def reinsertStep : OrderedHash K V × Carried → (OrderedHash K V × Carried) ⊕ OrderedHash K V
  | (t, c) =>
    if (t.bucket c.ibucket).empty then .inr (t.place c)
    else
      let (t, c) := t.displace c
      .inl (t, t.advance c)

def reinsert (b : BucketEntry) : Option (OrderedHash K V) :=
  forever reinsertStep (t.bucketCount + 1)
    (t, { ibucket := t.bucketForHash b.hash.toUInt64, distFromIdealBucket := 0
          index := b.index, hash := b.hash })

def withBuckets (bucketCount : Nat) : OrderedHash K V :=
  { t with buckets := List.replicate bucketCount {}
           hashMask := if bucketCount > 0 then bucketCount - 1 else 0
           growOnNextInsert := false }.maxLoadFactor

def rehashImpl (bucketCount : Nat) : Option (OrderedHash K V) :=
  if bucketCount > maxBucketCount then none
  else
    let bucketCount := if bucketCount > 0 then roundUpToPowerOfTwo bucketCount else bucketCount
    if bucketCount = t.bucketCount then some t
    else (t.buckets.filter (!·.empty)).foldlM reinsert (t.withBuckets bucketCount)

def rehash (count : Nat) : Option (OrderedHash K V) := t.rehashImpl (max count (ceilLoad t.size))
def reserve (count : Nat) : Option (OrderedHash K V) := t.rehash (ceilLoad count)

def growOnHighLoad : Option (OrderedHash K V × Bool) :=
  if t.growOnNextInsert || t.size ≥ t.loadThreshold then
    (t.rehashImpl (max 1 (t.bucketCount * 2))).map fun t => ({ t with growOnNextInsert := false }, true)
  else some (t, false)

def emplaceBack (value : K × V) : OrderedHash K V := { t with values := t.values ++ [value] }

-- the table, the index of the value under the key, and whether it was inserted
def insertImpl [DecidableEq K] (hash : K → SizeT) (value : K × V) :
    Option (OrderedHash K V × Nat × Bool) :=
  (t.probe value.1 (hash value.1)).bind fun
    | .inl index => some (t, index, false)
    | .inr (ibucket, dist) =>
      if t.size ≥ maxSize then none
      else t.growOnHighLoad.bind fun (t, grown) =>
        let (ibucket, distFromIdealBucket) :=
          if grown then (t.bucketForHash (hash value.1), 0) else (ibucket, dist)
        let t := t.emplaceBack value
        (t.insertIndex { ibucket, distFromIdealBucket, index := t.size - 1
                         hash := (hash value.1).toUInt32 }).map fun t => (t, t.size - 1, true)

end Insert

section Erase

def swapBuckets (i j : Nat) : OrderedHash K V := (t.setBucket i (t.bucket j)).setBucket j (t.bucket i)

def backwardShiftStep : OrderedHash K V × Nat → (OrderedHash K V × Nat) ⊕ OrderedHash K V
  | (t, previous) =>
    let current := t.nextBucket previous
    if !(t.bucket current).empty && t.distanceFromIdealBucket current > 0 then
      .inl (t.swapBuckets current previous, current)
    else .inr t

def backwardShift (emptyIbucket : Nat) : Option (OrderedHash K V) :=
  forever backwardShiftStep (t.bucketCount + 1) (t, emptyIbucket)

def walkStep (oldIndex ibucket : Nat) : Nat ⊕ Nat :=
  if (t.bucket ibucket).index ≠ oldIndex then .inl (t.nextBucket ibucket) else .inr ibucket

variable (hash : K → SizeT)

def shiftIndex (ivalue : Nat) : Option (OrderedHash K V) :=
  t.values[ivalue]?.bind fun value =>
    (forever (t.walkStep (ivalue + 1)) (t.bucketCount + 1) (t.bucketForHash (hash value.1))).map
      fun ibucket => t.setBucket ibucket { t.bucket ibucket with index := ivalue }

def shiftIndexesInBuckets (fromIvalue : Nat) : Option (OrderedHash K V) :=
  (List.range' fromIvalue (t.size - fromIvalue)).foldlM (fun t ivalue => t.shiftIndex hash ivalue) t

def eraseValueFromBucket (ibucket : Nat) : Option (OrderedHash K V) :=
  let index := (t.bucket ibucket).index
  let t := { t with values := t.values.eraseIdx index }
  (if index ≠ t.size then t.shiftIndexesInBuckets hash index else some t).bind fun t =>
    (t.setBucket ibucket (t.bucket ibucket).clear).backwardShift ibucket

variable [DecidableEq K]

def eraseImpl (key : K) : Option (OrderedHash K V × Nat) :=
  (t.findKey key (hash key)).bind fun
    | some ibucket => (t.eraseValueFromBucket hash ibucket).map fun t => (t, 1)
    | none => some (t, 0)

def count (key : K) : Option Nat := (t.findKey key (hash key)).map fun
  | some _ => 1
  | none => 0

end Erase

end OrderedHash

end UdpQueue.Tsl
