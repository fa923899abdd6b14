import Mathlib.Data.List.GetD
import Mathlib.Data.List.Perm.Basic
import UdpQueue.Library.RobinHood
import UdpQueue.Tsl.OrderedHash

namespace UdpQueue.Tsl

open RobinHood

def BucketEntry.entry (b : BucketEntry) : Option (Nat × UInt32) :=
  if b.empty then none else some (b.index, b.hash)

namespace OrderedHash
variable {K V : Type} {t t' : OrderedHash K V} {i j : Nat} {b : BucketEntry}

def entries (t : OrderedHash K V) : List (Nat × UInt32) := t.buckets.filterMap BucketEntry.entry
def ideal (t : OrderedHash K V) (hash : UInt32) : Nat := t.bucketForHash hash.toUInt64

def rank (t : OrderedHash K V) (i : Nat) : Nat :=
  if (t.bucket i).empty then 0 else t.distanceFromIdealBucket i + 1

structure Frame (t t' : OrderedHash K V) : Prop where
  hashMask : t'.hashMask = t.hashMask
  bucketCount : t'.bucketCount = t.bucketCount
  values : t'.values = t.values
  loadThreshold : t'.loadThreshold = t.loadThreshold

theorem Frame.refl (t : OrderedHash K V) : Frame t t := ⟨rfl, rfl, rfl, rfl⟩

theorem Frame.trans {t'' : OrderedHash K V} (h : Frame t t') (h' : Frame t' t'') : Frame t t'' :=
  ⟨h'.hashMask.trans h.hashMask, h'.bucketCount.trans h.bucketCount, h'.values.trans h.values,
    h'.loadThreshold.trans h.loadThreshold⟩

theorem Frame.bucketForHash (h : Frame t t') (hash : SizeT) :
    t'.bucketForHash hash = t.bucketForHash hash := by
  rw [OrderedHash.bucketForHash, h.hashMask]
  rfl

theorem Frame.ideal (h : Frame t t') (hash : UInt32) : t'.ideal hash = t.ideal hash :=
  h.bucketForHash _

theorem bucketForHash_lt (h : t.hashMask < t.bucketCount) (hash : SizeT) :
    t.bucketForHash hash < t.bucketCount :=
  Nat.lt_of_le_of_lt Nat.and_le_right h

theorem ideal_lt (h : t.hashMask < t.bucketCount) (hash : UInt32) : t.ideal hash < t.bucketCount :=
  bucketForHash_lt h _

theorem nextBucket_eq (t : OrderedHash K V) (i : Nat) : t.nextBucket i = next t.bucketCount i := rfl

theorem distance_eq (t : OrderedHash K V) (i : Nat) :
    t.distanceFromIdealBucket i = gap t.bucketCount (t.ideal (t.bucket i).hash) i := rfl

theorem rank_of_empty (h : (t.bucket i).empty = true) : t.rank i = 0 := if_pos h

theorem rank_of_full (h : (t.bucket i).empty = false) :
    t.rank i = gap t.bucketCount (t.ideal (t.bucket i).hash) i + 1 := by
  rw [rank, h]
  rfl

theorem rank_eq_zero : t.rank i = 0 ↔ (t.bucket i).empty = true := by
  cases h : (t.bucket i).empty with
  | true => simp [rank_of_empty h]
  | false => simp [rank_of_full h]

theorem rank_pos : 0 < t.rank i ↔ (t.bucket i).empty = false := by
  rw [Nat.pos_iff_ne_zero, Ne, rank_eq_zero, Bool.not_eq_true]

theorem setBucket_frame (t : OrderedHash K V) (i : Nat) (b : BucketEntry) :
    Frame t (t.setBucket i b) :=
  ⟨rfl, List.length_set, rfl, rfl⟩

theorem bucket_eq_getElem (h : i < t.buckets.length) : t.bucket i = t.buckets[i] :=
  List.getD_eq_getElem _ _ h

theorem bucket_setBucket (hi : i < t.bucketCount) :
    (t.setBucket i b).bucket = Function.update t.bucket i b := by
  funext j
  rw [bucket, setBucket, List.getD_eq_getElem?_getD, List.getElem?_set, Function.update_apply]
  by_cases h : j = i
  · subst h
    rw [if_pos rfl, if_pos rfl, if_pos (show j < t.buckets.length from hi)]
    rfl
  · rw [if_neg (Ne.symm h), if_neg h, ← List.getD_eq_getElem?_getD]
    rfl

theorem rank_setBucket (hi : i < t.bucketCount) :
    (t.setBucket i b).rank =
      Function.update t.rank i (if b.empty then 0 else gap t.bucketCount (t.ideal b.hash) i + 1) := by
  have hf := t.setBucket_frame i b
  funext j
  rw [rank, distance_eq, bucket_setBucket hi, hf.bucketCount, hf.ideal]
  by_cases h : j = i
  · subst h
    simp
  · rw [Function.update_of_ne h, Function.update_of_ne h]
    rfl

theorem rank_setBucket_empty (hi : i < t.bucketCount) (hb : b.empty = true) :
    (t.setBucket i b).rank = Function.update t.rank i 0 := by
  rw [rank_setBucket hi, if_pos hb]

theorem rank_setBucket_full (hi : i < t.bucketCount) (hb : b.empty = false) :
    (t.setBucket i b).rank =
      Function.update t.rank i (gap t.bucketCount (t.ideal b.hash) i + 1) := by
  rw [rank_setBucket hi, hb]
  rfl

theorem filterMap_entry_cons (b : BucketEntry) (bs : List BucketEntry) :
    (b :: bs).filterMap BucketEntry.entry = b.entry.toList ++ bs.filterMap BucketEntry.entry := by
  rw [List.filterMap_cons]
  cases b.entry <;> rfl

theorem entries_setBucket (hi : i < t.bucketCount) :
    ((t.bucket i).entry.toList ++ (t.setBucket i b).entries).Perm (b.entry.toList ++ t.entries) := by
  have hset := (List.set_perm_cons_eraseIdx (l := t.buckets) hi b).filterMap BucketEntry.entry
  have hget := (List.getElem_cons_eraseIdx_perm (l := t.buckets) hi).filterMap BucketEntry.entry
  rw [filterMap_entry_cons] at hset hget
  rw [bucket_eq_getElem hi]
  refine (hset.append_left _).trans ?_
  refine List.perm_append_comm_assoc _ _ _ |>.trans ?_
  exact hget.append_left _

theorem mem_entries {e : Nat × UInt32} :
    e ∈ t.entries ↔ ∃ i < t.bucketCount, (t.bucket i).empty = false ∧
      ((t.bucket i).index, (t.bucket i).hash) = e := by
  rw [entries, List.mem_filterMap]
  constructor
  · rintro ⟨b, hb, he⟩
    obtain ⟨i, hi, rfl⟩ := List.mem_iff_getElem.mp hb
    rw [← bucket_eq_getElem hi, BucketEntry.entry] at he
    cases hemp : (t.bucket i).empty with
    | true => simp [hemp] at he
    | false => exact ⟨i, hi, hemp, by simpa [hemp] using he⟩
  · rintro ⟨i, hi, hemp, he⟩
    refine ⟨t.bucket i, ?_, by simp [BucketEntry.entry, hemp, he]⟩
    rw [bucket_eq_getElem hi]
    exact List.getElem_mem _

theorem card_full (t : OrderedHash K V) :
    ((Finset.range t.bucketCount).filter fun i => 0 < t.rank i).card = t.entries.length := by
  have hbuckets : t.buckets = (List.range t.bucketCount).map t.bucket := by
    apply List.ext_getElem
    · simp [bucketCount]
    · intro i h₁ h₂
      rw [List.getElem_map, List.getElem_range, bucket_eq_getElem h₁]
  have hcard : ((Finset.range t.bucketCount).filter fun i => 0 < t.rank i).card =
      ((List.range t.bucketCount).filter fun i => 0 < t.rank i).length := rfl
  rw [hcard, entries]
  conv_rhs => rw [hbuckets, List.filterMap_map]
  rw [List.length_filterMap_eq_countP, ← List.countP_eq_length_filter]
  apply List.countP_congr
  intro i _
  cases hb : (t.bucket i).empty <;> simp [BucketEntry.entry, hb, rank]

theorem exists_empty (h : t.entries.length < t.bucketCount) :
    ∃ e < t.bucketCount, (t.bucket e).empty = true := by
  obtain ⟨b, hb, he⟩ := List.length_filterMap_lt_length_iff_exists.mp h
  obtain ⟨i, hi, rfl⟩ := List.mem_iff_getElem.mp hb
  refine ⟨i, hi, ?_⟩
  rw [bucket_eq_getElem hi]
  by_contra hne
  simp [BucketEntry.entry, hne] at he

end OrderedHash

end UdpQueue.Tsl
