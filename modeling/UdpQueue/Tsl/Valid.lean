import Mathlib.Data.List.Nodup
import Mathlib.Data.List.Sigma
import UdpQueue.Tsl.Layout

namespace UdpQueue.Tsl.OrderedHash

open RobinHood

variable {K V : Type} {hash : K → SizeT} {t : OrderedHash K V} {i j idx : Nat} {value : K × V}

def indexed (hash : K → SizeT) (values : List (K × V)) : List (Nat × UInt32) :=
  values.zipIdx.map fun e => (e.2, (hash e.1.1).toUInt32)

structure Valid (hash : K → SizeT) (t : OrderedHash K V) : Prop where
  shape : t.bucketCount = 0 ∨ ∃ k ≤ 32, t.bucketCount = 2 ^ k
  hashMask : t.hashMask = t.bucketCount - 1
  loadThreshold : t.loadThreshold = t.bucketCount * 3 / 4
  room : t.size < t.bucketCount ∨ t.bucketCount ≤ 2
  keys : (t.values.map Prod.fst).Nodup
  graded : Graded t.bucketCount t.rank
  entries : t.entries.Perm (indexed hash t.values)
  grow : t.growOnNextInsert = true → t.bucketCount ≤ 2 ^ 31

theorem length_indexed (hash : K → SizeT) (values : List (K × V)) :
    (indexed hash values).length = values.length := by
  simp [indexed]

theorem mem_indexed {values : List (K × V)} {e : Nat × UInt32} :
    e ∈ indexed hash values ↔ ∃ value, values[e.1]? = some value ∧ e.2 = (hash value.1).toUInt32 := by
  obtain ⟨idx, h⟩ := e
  simp only [indexed, List.mem_map, List.mem_zipIdx_iff_getElem?, Prod.exists, Prod.mk.injEq]
  constructor
  · rintro ⟨k, v, n, hn, rfl, rfl⟩
    exact ⟨k, v, hn, rfl⟩
  · rintro ⟨k, v, hn, rfl⟩
    exact ⟨k, v, idx, hn, rfl, rfl⟩

theorem indexed_append (hash : K → SizeT) (values : List (K × V)) (value : K × V) :
    indexed hash (values ++ [value]) =
      indexed hash values ++ [(values.length, (hash value.1).toUInt32)] := by
  simp [indexed, List.zipIdx_append]

theorem indexed_fst_nodup (hash : K → SizeT) (values : List (K × V)) :
    ((indexed hash values).map Prod.fst).Nodup := by
  rw [indexed, List.map_map]
  exact List.nodup_zipIdx_map_snd values

theorem full_lt (h : (t.bucket i).empty = false) : i < t.bucketCount := by
  by_contra hn
  rw [bucket, List.getD_eq_default _ _ (Nat.le_of_not_lt hn)] at h
  exact absurd h (by decide)

theorem holdsKey_iff [DecidableEq K] {key : K} {h : SizeT} :
    t.holdsKey key h i = true ↔ (t.bucket i).hash = h.toUInt32 ∧
      ∃ v, t.values[(t.bucket i).index]? = some (key, v) := by
  simp only [holdsKey, Bool.and_eq_true, beq_iff_eq, Option.any_eq_true, decide_eq_true_eq,
    Prod.exists]
  refine and_congr_right fun _ => ⟨?_, ?_⟩
  · rintro ⟨k, v, hv, rfl⟩
    exact ⟨v, hv⟩
  · rintro ⟨v, hv⟩
    exact ⟨key, v, hv, rfl⟩

namespace Valid

theorem bucketForHash_eq (hv : Valid hash t) (h : SizeT) : t.bucketForHash h = t.ideal h.toUInt32 := by
  simp only [ideal, bucketForHash, UInt32.toNat_toUInt64, UInt64.toNat_toUInt32, hv.hashMask]
  rcases hv.shape with h0 | ⟨k, hk, h2⟩
  · simp [h0]
  · rw [h2, Nat.and_two_pow_sub_one_eq_mod, Nat.and_two_pow_sub_one_eq_mod,
      Nat.mod_mod_of_dvd _ (Nat.pow_dvd_pow 2 hk)]

theorem hashMask_lt (hv : Valid hash t) (h : 0 < t.bucketCount) : t.hashMask < t.bucketCount := by
  rw [hv.hashMask]
  omega

theorem length_entries (hv : Valid hash t) : t.entries.length = t.size := by
  rw [hv.entries.length_eq, length_indexed, size]

theorem size_le (hv : Valid hash t) : t.size ≤ t.bucketCount := by
  rw [← hv.length_entries]
  exact List.length_filterMap_le _ _

theorem bucketCount_le (hv : Valid hash t) : t.bucketCount ≤ 2 ^ 32 := by
  rcases hv.shape with h0 | ⟨k, hk, h2⟩
  · simp [h0]
  · rw [h2]
    exact Nat.pow_le_pow_right (by decide) hk

theorem stored (hv : Valid hash t) (hf : (t.bucket i).empty = false) :
    ∃ value, t.values[(t.bucket i).index]? = some value ∧
      (t.bucket i).hash = (hash value.1).toUInt32 :=
  mem_indexed.mp (hv.entries.mem_iff.mp (mem_entries.mpr ⟨i, full_lt hf, hf, rfl⟩))

theorem slot (hv : Valid hash t) (h : t.values[idx]? = some value) :
    ∃ i < t.bucketCount, (t.bucket i).empty = false ∧ (t.bucket i).index = idx ∧
      (t.bucket i).hash = (hash value.1).toUInt32 := by
  have hm : (idx, (hash value.1).toUInt32) ∈ t.entries :=
    hv.entries.mem_iff.mpr (mem_indexed.mpr ⟨value, h, rfl⟩)
  obtain ⟨i, hi, hf, he⟩ := mem_entries.mp hm
  exact ⟨i, hi, hf, congrArg Prod.fst he, congrArg Prod.snd he⟩

theorem slot_unique (hv : Valid hash t) (hi : (t.bucket i).empty = false)
    (hj : (t.bucket j).empty = false) (he : (t.bucket i).index = (t.bucket j).index) : i = j := by
  have hn : (t.entries.map Prod.fst).Nodup :=
    (hv.entries.map Prod.fst).nodup_iff.mpr (indexed_fst_nodup hash t.values)
  rw [List.Nodup, List.pairwise_map, OrderedHash.entries, List.pairwise_filterMap,
    List.pairwise_iff_getElem] at hn
  have hlt {a b : Nat} (hab : a < b) (ha : (t.bucket a).empty = false)
      (hb : (t.bucket b).empty = false) : (t.bucket a).index ≠ (t.bucket b).index := by
    have h := hn a b (full_lt ha) (full_lt hb) hab
    rw [← bucket_eq_getElem (full_lt ha), ← bucket_eq_getElem (full_lt hb)] at h
    exact h ((t.bucket a).index, (t.bucket a).hash) (by simp [BucketEntry.entry, ha])
      ((t.bucket b).index, (t.bucket b).hash) (by simp [BucketEntry.entry, hb])
  rcases Nat.lt_trichotomy i j with h | h | h
  · exact absurd he (hlt h hi hj)
  · exact h
  · exact absurd he.symm (hlt h hj hi)

theorem index_unique (hv : Valid hash t) {key : K} {v w : V} (hi : t.values[i]? = some (key, v))
    (hj : t.values[j]? = some (key, w)) : i = j := by
  obtain ⟨hli, hgi⟩ := List.getElem?_eq_some_iff.mp hi
  obtain ⟨hlj, hgj⟩ := List.getElem?_eq_some_iff.mp hj
  have h := @List.Nodup.getElem_inj_iff _ _ hv.keys i (by simpa using hli) j (by simpa using hlj)
  exact h.mp (by simp [hgi, hgj])

theorem vacant (hv : Valid hash t) (h : t.size < t.bucketCount) :
    ∃ e < t.bucketCount, (t.bucket e).empty = true :=
  exists_empty (by rwa [hv.length_entries])

theorem keep {t' : OrderedHash K V} (hv : Valid hash t) (hcount : t'.bucketCount = t.bucketCount)
    (hmask : t'.hashMask = t.hashMask) (hload : t'.loadThreshold = t.loadThreshold)
    (hroom : t'.size < t.bucketCount ∨ t.bucketCount ≤ 2) (hkeys : (t'.values.map Prod.fst).Nodup)
    (hg : Graded t'.bucketCount t'.rank) (he : t'.entries.Perm (indexed hash t'.values))
    (hgrow : t'.growOnNextInsert = true → t.bucketCount ≤ 2 ^ 31) : Valid hash t' where
  shape := by rw [hcount]; exact hv.shape
  hashMask := by rw [hmask, hcount]; exact hv.hashMask
  loadThreshold := by rw [hload, hcount]; exact hv.loadThreshold
  room := by rwa [hcount]
  keys := hkeys
  graded := hg
  entries := he
  grow := by rwa [hcount]

theorem create (hash : K → SizeT) : Valid hash ({} : OrderedHash K V) where
  shape := Or.inl rfl
  hashMask := rfl
  loadThreshold := by simp [bucketCount]
  room := Or.inr (Nat.zero_le _)
  keys := List.nodup_nil
  graded _ h := absurd h (Nat.not_lt_zero _)
  entries := .nil
  grow := by simp

end Valid

end UdpQueue.Tsl.OrderedHash
