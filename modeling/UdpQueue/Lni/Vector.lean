import UdpQueue.Library.Block
import UdpQueue.Packet

namespace UdpQueue.Lni

structure Vector (T : Type) where
  rsrvSz : UInt32
  vecSz : UInt32
  arr : Block T rsrvSz.toNat
deriving DecidableEq

namespace Vector
variable {T : Type}

def new : Vector T := { rsrvSz := 4, vecSz := 0, arr := .alloc 4 }

-- `vector(first, last)` over `dataLength` elements: the count is cut to 32 bits, then quadrupled
def ofRange (first : List T) (dataLength : SizeT) : Option (Vector T) :=
  let count := dataLength.toUInt32
  let rsrvSz := count <<< 2
  ((Block.alloc rsrvSz.toNat).fill (fun i => first[i]?) count.toNat 0).map fun arr =>
    { rsrvSz, vecSz := count, arr }

variable (v other : Vector T)

def empty : Bool := v.vecSz = 0
def size : UInt32 := v.vecSz
def clear : Vector T := { v with vecSz := 0 }

-- the elements are bytes, so a move copies them and `other` keeps its own
def move : Option (Vector T) :=
  ((Block.alloc other.rsrvSz.toNat).fill other.arr.read other.vecSz.toNat 0).map fun arr =>
    { rsrvSz := other.rsrvSz, vecSz := other.vecSz, arr }

def reallocate (rsrvSz : UInt32) : Option (Vector T) :=
  (v.arr.copy v.vecSz.toNat rsrvSz.toNat).map fun arr => { rsrvSz, vecSz := v.vecSz, arr }

def roomFor : Option (Vector T) :=
  if v.rsrvSz < other.vecSz then v.reallocate (other.vecSz <<< 2) else some v

def moveAssign : Option (Vector T) :=
  (v.roomFor other).bind fun v =>
    (v.arr.fill other.arr.read other.vecSz.toNat 0).map fun arr =>
      { rsrvSz := v.rsrvSz, vecSz := other.vecSz, arr }

structure Represents (v : Vector T) (xs : List T) : Prop where
  size_eq : v.vecSz.toNat = xs.length
  holds : v.arr.Holds xs

end Vector

-- the room reserved for `count` elements does not wrap to less than `count`
def Fits (count : UInt32) : Prop := count ≤ count <<< 2

instance : DecidablePred Fits := fun count => inferInstanceAs (Decidable (count ≤ count <<< 2))

theorem reserved_toNat (count : UInt32) : (count <<< 2).toNat = count.toNat * 4 % 4294967296 := by
  rw [UInt32.toNat_shiftLeft, show (2 : UInt32).toNat % 32 = 2 from rfl, Nat.shiftLeft_eq]

theorem fits_iff {count : UInt32} : Fits count ↔ count.toNat ≤ count.toNat * 4 % 4294967296 := by
  rw [Fits, UInt32.le_iff_toNat_le, reserved_toNat]

theorem fits_of_small {count : UInt32} (h : count.toNat < 1073741824) : Fits count := by
  rw [fits_iff, Nat.mod_eq_of_lt] <;> omega

example : ¬ Fits 1073741824 ∧ Fits 1431655766 := by decide

namespace Vector
variable {T : Type}

theorem new_represents : (new : Vector T).Represents [] :=
  ⟨rfl, Block.holds_nil _⟩

namespace Represents
variable {v other : Vector T} {xs ys : List T}

theorem length_le (h : v.Represents xs) : xs.length ≤ v.rsrvSz.toNat := h.holds.length_le

theorem empty_iff (h : v.Represents xs) : v.empty = true ↔ xs = [] := by
  rw [Vector.empty, decide_eq_true_iff, ← List.length_eq_zero_iff, ← h.size_eq, ← UInt32.toNat_inj]
  rfl

theorem read (h : v.Represents xs) (i : Nat) (hi : i < xs.length) : v.arr.read i = xs[i]? :=
  h.holds.read hi

theorem fill (h : other.Represents xs) {n : Nat} (b : Block T n) (hn : xs.length ≤ n) :
    ∃ b', b.fill other.arr.read other.vecSz.toNat 0 = some b' ∧ b'.Holds xs := by
  rw [h.size_eq]
  exact b.fill_holds h.read hn

theorem move (h : other.Represents xs) : ∃ v, other.move = some v ∧ v.Represents xs := by
  obtain ⟨arr, hfill, hholds⟩ := h.fill (.alloc other.rsrvSz.toNat) h.length_le
  rw [Vector.move, hfill]
  exact ⟨_, rfl, h.size_eq, hholds⟩

theorem roomFor (hv : v.Represents ys) (h : other.Represents xs) (hf : Fits other.vecSz) :
    ∃ w, v.roomFor other = some w ∧ xs.length ≤ w.rsrvSz.toNat := by
  rw [← h.size_eq, Vector.roomFor]
  split_ifs with hlt
  · have hroom := UInt32.le_iff_toNat_le.mp hf
    have hless := UInt32.lt_iff_toNat_lt.mp hlt
    have hys := hv.length_le
    obtain ⟨arr, hcopy⟩ := hv.holds.copy (show ys.length ≤ (other.vecSz <<< 2).toNat by omega)
    rw [reallocate, hv.size_eq, hcopy]
    exact ⟨_, rfl, hroom⟩
  · exact ⟨v, rfl, UInt32.le_iff_toNat_le.mp (UInt32.not_lt.mp hlt)⟩

theorem moveAssign (hv : v.Represents ys) (h : other.Represents xs) (hf : Fits other.vecSz) :
    ∃ w, v.moveAssign other = some w ∧ w.Represents xs := by
  obtain ⟨w, hw, hle⟩ := hv.roomFor h hf
  obtain ⟨arr, hfill, hholds⟩ := h.fill w.arr hle
  rw [Vector.moveAssign, hw, Option.bind_some, hfill]
  exact ⟨_, rfl, h.size_eq, hholds⟩

end Represents

theorem ofRange_represents {first : List T} {dataLength : SizeT}
    (hlen : dataLength.toUInt32.toNat ≤ first.length) (hf : Fits dataLength.toUInt32) :
    ∃ v, ofRange first dataLength = some v ∧
      v.Represents (first.take dataLength.toUInt32.toNat) ∧ v.vecSz = dataLength.toUInt32 := by
  have hroom := UInt32.le_iff_toNat_le.mp hf
  have htake : (first.take dataLength.toUInt32.toNat).length = dataLength.toUInt32.toNat := by
    rw [List.length_take, Nat.min_eq_left hlen]
  have hread (i : Nat) (hi : i < (first.take dataLength.toUInt32.toNat).length) :
      first[i]? = (first.take dataLength.toUInt32.toNat)[i]? := by
    rw [htake] at hi
    rw [List.getElem?_take_of_lt hi]
  obtain ⟨arr, hfill, hholds⟩ := (Block.alloc (dataLength.toUInt32 <<< 2).toNat).fill_holds hread
    (by rw [htake]; exact hroom)
  rw [htake] at hfill
  rw [ofRange, hfill]
  exact ⟨_, rfl, ⟨htake.symm, hholds⟩, rfl⟩

theorem bounds_of_ofRange {first : List T} {dataLength : SizeT} {v : Vector T}
    (h : ofRange first dataLength = some v) :
    dataLength.toUInt32.toNat ≤ first.length ∧ Fits dataLength.toUInt32 := by
  rw [Fits, UInt32.le_iff_toNat_le]
  obtain ⟨arr, hfill, -⟩ := Option.map_eq_some_iff.mp h
  cases hcount : dataLength.toUInt32.toNat with
  | zero => exact ⟨Nat.zero_le _, Nat.zero_le _⟩
  | succ n =>
    obtain ⟨hroom, hsource⟩ := Block.bounds_of_fill hfill n (by omega)
    rw [Nat.zero_add] at hroom hsource
    exact ⟨(List.getElem?_eq_some_iff.mp (Option.some_get hsource).symm).1, hroom⟩

end Vector
end UdpQueue.Lni
