import UdpQueue.Tsl.Find
import UdpQueue.Tsl.Settle

namespace UdpQueue.Tsl.OrderedHash

open RobinHood

variable {K V : Type} {hash : K → SizeT}

section Renumber
variable {t₀ t : OrderedHash K V} {index k : Nat}

-- the buckets while the values after `index` are renumbered, when those up to `k` have been
def renumber (index k : Nat) (b : BucketEntry) : BucketEntry :=
  if index < b.index ∧ b.index ≤ k then { b with index := b.index - 1 } else b

@[simp] theorem renumber_hash (index k : Nat) (b : BucketEntry) : (renumber index k b).hash = b.hash := by
  rw [renumber]
  split_ifs <;> rfl

theorem renumber_index (index k : Nat) (b : BucketEntry) :
    (renumber index k b).index = if index < b.index ∧ b.index ≤ k then b.index - 1 else b.index := by
  rw [renumber]
  split_ifs <;> rfl

theorem renumber_empty (hk : k < emptyMarkerIndex) (b : BucketEntry) :
    (renumber index k b).empty = b.empty := by
  rw [BucketEntry.empty, BucketEntry.empty, renumber_index, Bool.eq_iff_iff, beq_iff_eq, beq_iff_eq]
  split_ifs <;> omega

structure Renumbered (t₀ : OrderedHash K V) (index k : Nat) (t : OrderedHash K V) : Prop where
  buckets : t.buckets = t₀.buckets.map (renumber index k)
  hashMask : t.hashMask = t₀.hashMask
  values : t.values = t₀.values.eraseIdx index
  loadThreshold : t.loadThreshold = t₀.loadThreshold
  grow : t.growOnNextInsert = t₀.growOnNextInsert

namespace Renumbered

theorem bucketCount (h : Renumbered t₀ index k t) : t.bucketCount = t₀.bucketCount := by
  rw [OrderedHash.bucketCount, h.buckets, List.length_map]
  rfl

theorem bucket (h : Renumbered t₀ index k t) (hk : k < emptyMarkerIndex) (i : Nat) :
    t.bucket i = renumber index k (t₀.bucket i) := by
  have hd : renumber index k {} = {} := if_neg fun hn => by
    have hle : emptyMarkerIndex ≤ k := hn.2
    omega
  rw [OrderedHash.bucket, h.buckets]
  conv_lhs => rw [← hd]
  exact List.getD_map ..

theorem bucketForHash (h : Renumbered t₀ index k t) (x : SizeT) :
    t.bucketForHash x = t₀.bucketForHash x := by
  rw [OrderedHash.bucketForHash, h.hashMask]
  rfl

theorem rank (h : Renumbered t₀ index k t) (hk : k < emptyMarkerIndex) : t.rank = t₀.rank := by
  funext i
  simp only [OrderedHash.rank, distance_eq, ideal, h.bucketCount, h.bucketForHash, h.bucket hk i,
    renumber_hash, renumber_empty hk]

theorem start (t : OrderedHash K V) (index : Nat) :
    Renumbered t index index { t with values := t.values.eraseIdx index } where
  buckets := by
    conv_lhs => rw [← List.map_id t.buckets]
    apply List.map_congr_left
    intro b _
    exact (if_neg (by omega)).symm
  hashMask := rfl
  values := rfl
  loadThreshold := rfl
  grow := rfl

theorem shiftIndex (hv : Valid hash t₀) (h : Renumbered t₀ index k t) (hi : index ≤ k)
    (hk : k + 1 < t₀.size) (hmax : k + 1 < emptyMarkerIndex) :
    ∃ t', t.shiftIndex hash k = some t' ∧ Renumbered t₀ index (k + 1) t' := by
  obtain ⟨value, hvalue⟩ : ∃ value, t₀.values[k + 1]? = some value :=
    ⟨_, List.getElem?_eq_getElem hk⟩
  obtain ⟨j, hj, hf, hx, hh⟩ := hv.slot hvalue
  have hj' : j < t.bucketCount := by rwa [h.bucketCount]
  have hget : t.values[k]? = some value := by
    rw [h.values, List.getElem?_eraseIdx, if_neg (by omega), hvalue]
  -- only the bucket still to be renumbered carries the old index
  have hold (i : Nat) : (t.bucket i).index = k + 1 ↔ i = j := by
    rw [h.bucket (by omega), renumber_index]
    constructor
    · intro hidx
      have hix : (t₀.bucket i).index = k + 1 := by
        split_ifs at hidx <;> omega
      have hfi : (t₀.bucket i).empty = false := by
        rw [BucketEntry.empty, hix]
        exact beq_false_of_ne (by omega)
      exact hv.slot_unique hfi hf (hix.trans hx.symm)
    · rintro rfl
      rw [hx, if_neg (by omega)]
  have hwalk : forever (t.walkStep (k + 1)) (t.bucketCount + 1) (t.bucketForHash (hash value.1)) =
      some j := by
    have hm : t.hashMask < t.bucketCount := by
      rw [h.hashMask, h.bucketCount]
      exact hv.hashMask_lt (Nat.zero_lt_of_lt hj)
    have hb := bucketForHash_lt hm (hash value.1)
    refine forever_eq (P := fun i => i < t.bucketCount) (m := fun i => gap t.bucketCount i j) ?_ ?_ hb
      (Nat.lt_succ_of_lt (gap_lt hb hj'))
    · intro i s hib hs
      rw [walkStep] at hs
      split_ifs at hs with hidx
      obtain rfl := Sum.inl.inj hs
      have hne : i ≠ j := fun he => hidx ((hold i).mpr he)
      have hg := gap_from_next hib hj' hne
      exact ⟨next_lt hib, by rw [nextBucket_eq]; omega⟩
    · intro i r hib hs
      rw [walkStep] at hs
      split_ifs at hs with hidx
      exact (Sum.inr.inj hs) ▸ (hold i).mp (not_not.mp hidx)
  refine ⟨t.setBucket j { t.bucket j with index := k }, ?_, ?_, h.hashMask, h.values,
    h.loadThreshold, h.grow⟩
  · rw [OrderedHash.shiftIndex, hget, Option.bind_some, hwalk]
    rfl
  · change t.buckets.set j _ = _
    rw [h.buckets]
    apply List.ext_getElem
    · simp
    · intro i h₁ h₂
      have hi₀ : i < t₀.buckets.length := by rwa [List.length_map] at h₂
      have hbucket : t₀.buckets[i] = t₀.bucket i := (bucket_eq_getElem hi₀).symm
      rw [List.getElem_set, List.getElem_map, List.getElem_map, hbucket]
      split_ifs with hij
      · subst hij
        rw [h.bucket (by omega), renumber, renumber, hx, if_neg (by omega), if_pos (by omega)]
        simp
      · have hne : (t₀.bucket i).index ≠ k + 1 := by
          intro hidx
          have hfi : (t₀.bucket i).empty = false := by
            rw [BucketEntry.empty, hidx]
            exact beq_false_of_ne (by omega)
          exact hij (hv.slot_unique hf hfi (hx.trans hidx.symm))
        rw [renumber, renumber]
        split_ifs <;> first | rfl | omega

theorem shiftIndexes (hv : Valid hash t₀) {n : Nat} (h : Renumbered t₀ index k t) (hi : index ≤ k)
    (hk : k + n < t₀.size) (hmax : k + n < emptyMarkerIndex) :
    ∃ t', (List.range' k n).foldlM (fun t ivalue => t.shiftIndex hash ivalue) t = some t' ∧
      Renumbered t₀ index (k + n) t' := by
  induction n generalizing t k with
  | zero => exact ⟨t, rfl, h⟩
  | succ n ih =>
    obtain ⟨t₁, h₁, hr₁⟩ := h.shiftIndex hv hi (by omega) (by omega)
    obtain ⟨t', h', hr'⟩ := ih hr₁ (by omega) (by omega) (by omega)
    refine ⟨t', ?_, by rwa [Nat.add_right_comm, Nat.add_assoc] at hr'⟩
    rw [List.range'_succ, List.foldlM_cons, h₁]
    exact h'

end Renumbered

end Renumber

def lower (index : Nat) (e : Nat × UInt32) : Nat × UInt32 :=
  (if index < e.1 then e.1 - 1 else e.1, e.2)

theorem indexed_eraseIdx (hash : K → SizeT) {values : List (K × V)} {index : Nat} {value : K × V}
    (h : values[index]? = some value) :
    ((index, (hash value.1).toUInt32) :: indexed hash (values.eraseIdx index)).Perm
      ((indexed hash values).map (lower index)) := by
  obtain ⟨hl, rfl⟩ := List.getElem?_eq_some_iff.mp h
  have hlen : (values.take index).length = index := List.length_take_of_le (Nat.le_of_lt hl)
  have hsplit := List.take_append_drop index values
  rw [List.drop_eq_getElem_cons hl] at hsplit
  have hbefore : ((values.take index).zipIdx.map fun e => (e.2, (hash e.1.1).toUInt32)).map (lower index) =
      (values.take index).zipIdx.map fun e => (e.2, (hash e.1.1).toUInt32) := by
    rw [List.map_map]
    apply List.map_congr_left
    intro e he
    have hlt := List.snd_lt_of_mem_zipIdx he
    rw [hlen] at hlt
    exact Prod.ext (if_neg (by dsimp only; omega)) rfl
  have hafter : (((values.drop (index + 1)).zipIdx (index + 1)).map
        fun e => (e.2, (hash e.1.1).toUInt32)).map (lower index) =
      ((values.drop (index + 1)).zipIdx index).map fun e => (e.2, (hash e.1.1).toUInt32) := by
    rw [List.zipIdx_succ, List.map_map, List.map_map]
    apply List.map_congr_left
    intro e he
    have hle := List.le_snd_of_mem_zipIdx he
    exact Prod.ext (if_pos (by dsimp only; omega)) rfl
  have hat : lower index (index, (hash values[index].1).toUInt32) =
      (index, (hash values[index].1).toUInt32) := Prod.ext (if_neg (Nat.lt_irrefl _)) rfl
  conv_rhs => rw [← hsplit]
  rw [List.eraseIdx_eq_take_drop_succ]
  simp only [indexed, List.zipIdx_append, List.zipIdx_cons, List.map_append, List.map_cons, hlen,
    Nat.zero_add, hbefore, hafter, hat]
  exact List.perm_middle.symm

theorem Renumbered.entries {t₀ t : OrderedHash K V} {index k : Nat} (h : Renumbered t₀ index k t)
    (hk : k < emptyMarkerIndex) (hlast : ∀ e ∈ t₀.entries, e.1 ≤ k) :
    t.entries = t₀.entries.map (lower index) := by
  rw [OrderedHash.entries, h.buckets, List.filterMap_map, OrderedHash.entries, List.map_filterMap]
  apply List.filterMap_congr
  intro b hb
  rw [Function.comp_apply, BucketEntry.entry, BucketEntry.entry, renumber_empty hk, renumber_hash,
    renumber_index]
  cases he : b.empty with
  | true => rfl
  | false =>
    have hle : b.index ≤ k :=
      hlast (b.index, b.hash) (List.mem_filterMap.mpr ⟨b, hb, by simp [BucketEntry.entry, he]⟩)
    simp [lower, hle]

section Shift
variable {t₀ t : OrderedHash K V} {es : List (Nat × UInt32)} {hole : Nat}

structure Shifting (t₀ : OrderedHash K V) (es : List (Nat × UInt32)) (t : OrderedHash K V)
    (hole : Nat) : Prop where
  frame : Frame t₀ t
  holed : Holed t.bucketCount t.rank hole
  bound : hole < t.bucketCount
  entries : t.entries.Perm es
  grow : t.growOnNextInsert = t₀.growOnNextInsert

theorem backwardShiftStep_eq (t : OrderedHash K V) (hole : Nat) :
    backwardShiftStep (t, hole) =
      if 1 < t.rank (t.nextBucket hole) then
        .inl (t.swapBuckets (t.nextBucket hole) hole, t.nextBucket hole)
      else .inr t := by
  rw [backwardShiftStep]
  cases h : (t.bucket (t.nextBucket hole)).empty with
  | true => simp [rank_of_empty h]
  | false => simp [rank_of_full h, distance_eq]

theorem Shifting.done (h : Shifting t₀ es t hole) (hr : ¬ 1 < t.rank (t.nextBucket hole)) :
    Settled t₀ es t :=
  ⟨h.frame, h.holed.close (Nat.not_lt.mp hr), h.entries⟩

theorem Shifting.next_ne (h : Shifting t₀ es t hole) (hr : 1 < t.rank (t.nextBucket hole)) :
    t.nextBucket hole ≠ hole := by
  intro he
  rw [he, h.holed.empty] at hr
  omega

theorem Shifting.swap_rank (hm : t₀.hashMask < t₀.bucketCount) (h : Shifting t₀ es t hole)
    (hr : 1 < t.rank (t.nextBucket hole)) :
    (t.swapBuckets (t.nextBucket hole) hole).rank =
      Function.update (Function.update t.rank hole (t.rank (t.nextBucket hole) - 1))
        (t.nextBucket hole) 0 := by
  have hm' : t.hashMask < t.bucketCount := by rwa [h.frame.hashMask, h.frame.bucketCount]
  have hc : t.nextBucket hole < t.bucketCount := next_lt h.bound
  have hfull := rank_pos.mp (Nat.lt_trans Nat.zero_lt_one hr)
  have hne := h.next_ne hr
  have hset := t.setBucket_frame (t.nextBucket hole) (t.bucket hole)
  have hl := ideal_lt hm' (t.bucket (t.nextBucket hole)).hash
  have hrank := rank_of_full hfull
  have hideal : t.nextBucket hole ≠ t.ideal (t.bucket (t.nextBucket hole)).hash := by
    intro he
    have hzero := (gap_eq_zero (i := t.nextBucket hole) hl).mpr he.symm
    omega
  have hstep : gap t.bucketCount (t.ideal (t.bucket (t.nextBucket hole)).hash) (t.nextBucket hole) =
      gap t.bucketCount (t.ideal (t.bucket (t.nextBucket hole)).hash) hole + 1 :=
    gap_next_ne hl h.bound hideal
  have hgap : gap t.bucketCount (t.ideal (t.bucket (t.nextBucket hole)).hash) hole + 1 =
      t.rank (t.nextBucket hole) - 1 := by omega
  rw [swapBuckets, rank_setBucket_full (by rw [hset.bucketCount]; exact h.bound) hfull,
    rank_setBucket_empty hc (rank_eq_zero.mp h.holed.empty), hset.bucketCount, hset.ideal, hgap,
    Function.update_comm hne]

theorem Shifting.swap (hm : t₀.hashMask < t₀.bucketCount) (h : Shifting t₀ es t hole)
    (hr : 1 < t.rank (t.nextBucket hole)) :
    Shifting t₀ es (t.swapBuckets (t.nextBucket hole) hole) (t.nextBucket hole) := by
  have hc : t.nextBucket hole < t.bucketCount := next_lt h.bound
  have hset := t.setBucket_frame (t.nextBucket hole) (t.bucket hole)
  have hframe : Frame t (t.swapBuckets (t.nextBucket hole) hole) :=
    hset.trans (setBucket_frame _ hole _)
  have hempty : (t.bucket hole).entry.toList = [] := by
    simp [BucketEntry.entry, rank_eq_zero.mp h.holed.empty]
  refine ⟨h.frame.trans hframe, ?_, by rwa [hframe.bucketCount], ?_, h.grow⟩
  · rw [hframe.bucketCount, h.swap_rank hm hr]
    exact h.holed.shift h.bound hr
  · have h₁ := entries_setBucket (b := t.bucket hole) hc
    have h₂ := entries_setBucket (t := t.setBucket (t.nextBucket hole) (t.bucket hole))
      (b := t.bucket (t.nextBucket hole)) (by rw [hset.bucketCount]; exact h.bound)
    rw [bucket_setBucket hc, Function.update_of_ne (Ne.symm (h.next_ne hr))] at h₂
    rw [hempty] at h₁ h₂
    exact h₂.trans (h₁.trans h.entries)

theorem Shifting.step (hm : t₀.hashMask < t₀.bucketCount) (h : Shifting t₀ es t hole)
    {s : OrderedHash K V × Nat} (hs : backwardShiftStep (t, hole) = .inl s) :
    1 < t.rank (t.nextBucket hole) ∧
      s = (t.swapBuckets (t.nextBucket hole) hole, t.nextBucket hole) ∧ Shifting t₀ es s.1 s.2 := by
  rw [backwardShiftStep_eq] at hs
  split_ifs at hs with hr
  obtain rfl := Sum.inl.inj hs
  exact ⟨hr, rfl, h.swap hm hr⟩

theorem Shifting.exit (h : Shifting t₀ es t hole) {r : OrderedHash K V}
    (hs : backwardShiftStep (t, hole) = .inr r) :
    Settled t₀ es r ∧ r.growOnNextInsert = t₀.growOnNextInsert := by
  rw [backwardShiftStep_eq] at hs
  split_ifs at hs with hr
  obtain rfl := Sum.inr.inj hs
  exact ⟨h.done hr, h.grow⟩

theorem Shifting.backwardShift (hm : t.hashMask < t.bucketCount) (h : Shifting t es t hole)
    (he : (∃ e < t.bucketCount, t.rank e = 0 ∧ e ≠ hole) ∨ t.bucketCount ≤ 2) :
    ∃ t', t.backwardShift hole = some t' ∧ Settled t es t' ∧
      t'.growOnNextInsert = t.growOnNextInsert := by
  rcases he with ⟨e, he, h0, hne⟩ | hsmall
  · -- the shift stops before the next empty bucket
    refine forever_spec
      (P := fun s => Shifting t es s.1 s.2 ∧ s.1.rank e = 0 ∧ e ≠ s.2)
      (m := fun s => gap t.bucketCount s.2 e) ?_ ?_ ⟨h, h0, hne⟩ (Nat.lt_succ_of_lt (gap_lt h.bound he))
    · rintro ⟨t₁, hole⟩ s ⟨h₁, h0, hne⟩ hs
      dsimp only at h₁ h0 hne
      obtain ⟨hr, rfl, hnext⟩ := h₁.step hm hs
      have hb : hole < t.bucketCount := h₁.frame.bucketCount ▸ h₁.bound
      have hg := gap_from_next hb he (Ne.symm hne)
      have hen : e ≠ t₁.nextBucket hole := by
        rintro rfl
        rw [h0] at hr
        omega
      refine ⟨⟨hnext, ?_, hen⟩, ?_⟩
      · rw [h₁.swap_rank hm hr, Function.update_of_ne hen, Function.update_of_ne hne, h0]
      · dsimp only
        rw [nextBucket_eq, h₁.frame.bucketCount]
        omega
    · rintro ⟨t₁, hole⟩ r ⟨h₁, -⟩ hs
      exact h₁.exit hs
  · refine forever_spec (P := fun s => Shifting t es s.1 s.2) (s := (t, hole))
      (m := fun s => s.1.rank (s.1.nextBucket s.2)) ?_ (fun s r h₁ hs => h₁.exit hs) h ?_
    · rintro ⟨t₁, hole⟩ s h₁ hs
      dsimp only at h₁ hs
      obtain ⟨hr, rfl, hnext⟩ := h₁.step hm hs
      dsimp only at hnext
      refine ⟨hnext, ?_⟩
      have hb := h₁.bound
      have hcount := h₁.frame.bucketCount
      have hne := h₁.next_ne hr
      have hback : (t₁.swapBuckets (t₁.nextBucket hole) hole).nextBucket (t₁.nextBucket hole) =
          hole := by
        rw [nextBucket_eq, hnext.frame.bucketCount, ← hcount]
        simp only [nextBucket_eq, next] at hne ⊢
        split_ifs at hne ⊢ <;> omega
      dsimp only
      rw [hback, h₁.swap_rank hm hr, Function.update_of_ne (Ne.symm hne), Function.update_self]
      omega
    · dsimp only
      cases hf : (t.bucket (t.nextBucket hole)).empty with
      | true =>
        rw [rank_of_empty hf]
        omega
      | false =>
        have hlt := gap_lt (ideal_lt hm (t.bucket (t.nextBucket hole)).hash) (full_lt hf)
        rw [rank_of_full hf]
        omega

end Shift

namespace Valid
variable {t : OrderedHash K V} {i : Nat}

theorem size_le_max (hv : Valid hash t) : t.size ≤ emptyMarkerIndex := by
  have hroom := hv.room
  have hsize := hv.size_le
  have hcount := hv.bucketCount_le
  rw [emptyMarkerIndex]
  omega

theorem renumber_after (hv : Valid hash t) {index : Nat} (hi : index < t.size) :
    ∃ t', (if index ≠ OrderedHash.size { t with values := t.values.eraseIdx index } then
        OrderedHash.shiftIndexesInBuckets { t with values := t.values.eraseIdx index } hash index
      else some { t with values := t.values.eraseIdx index }) = some t' ∧
      Renumbered t index (t.size - 1) t' := by
  have hsize : OrderedHash.size { t with values := t.values.eraseIdx index } = t.size - 1 :=
    List.length_eraseIdx_of_lt hi
  have hmax := hv.size_le_max
  have hstart := Renumbered.start t index
  rw [hsize]
  split_ifs with hne
  · obtain ⟨t', h', hr⟩ := hstart.shiftIndexes hv (n := t.size - 1 - index) (Nat.le_refl index)
      (by omega) (by omega)
    rw [shiftIndexesInBuckets, hsize]
    exact ⟨t', h', by rwa [Nat.add_sub_cancel' (by omega)] at hr⟩
  · obtain rfl : index = t.size - 1 := not_not.mp hne
    exact ⟨_, rfl, hstart⟩

theorem eraseValueFromBucket (hv : Valid hash t) (hf : (t.bucket i).empty = false) :
    ∃ t', t.eraseValueFromBucket hash i = some t' ∧ Valid hash t' ∧
      t'.values = t.values.eraseIdx (t.bucket i).index ∧ t'.bucketCount = t.bucketCount ∧
      t'.growOnNextInsert = t.growOnNextInsert := by
  have hi := full_lt hf
  have hpos := Nat.zero_lt_of_lt hi
  obtain ⟨value, hvalue, hhash⟩ := hv.stored hf
  have hlt : (t.bucket i).index < t.size := (List.getElem?_eq_some_iff.mp hvalue).1
  have hmax := hv.size_le_max
  obtain ⟨t₂, h₂, hr⟩ := hv.renumber_after hlt
  have hi₂ : i < t₂.bucketCount := by rwa [hr.bucketCount]
  have hb₂ : t₂.bucket i = t.bucket i := by
    rw [hr.bucket (by omega), renumber, if_neg (by omega)]
  have hlast : ∀ e ∈ t.entries, e.1 ≤ t.size - 1 := by
    intro e he
    obtain ⟨w, hw, -⟩ := mem_indexed.mp (hv.entries.mem_iff.mp he)
    have hew : e.1 < t.size := (List.getElem?_eq_some_iff.mp hw).1
    omega
  have hset := t₂.setBucket_frame i (t₂.bucket i).clear
  have hempty : (t₂.bucket i).clear.empty = true := beq_self_eq_true _
  have hent : (t₂.setBucket i (t₂.bucket i).clear).entries.Perm
      (indexed hash (t.values.eraseIdx (t.bucket i).index)) := by
    have h := entries_setBucket (b := (t₂.bucket i).clear) hi₂
    have hentry : (t.bucket i).entry = some ((t.bucket i).index, (t.bucket i).hash) := by
      simp [BucketEntry.entry, hf]
    have hclear : (t₂.bucket i).clear.entry = none := if_pos hempty
    rw [hclear, hb₂, hentry, hr.entries (by omega) hlast, hhash] at h
    rw [hb₂]
    exact (h.trans ((hv.entries.map _).trans (indexed_eraseIdx hash hvalue).symm)).cons_inv
  have hrank : (t₂.setBucket i (t₂.bucket i).clear).rank = Function.update t.rank i 0 := by
    rw [rank_setBucket_empty hi₂ hempty, hr.rank (by omega)]
  have hmask : (t₂.setBucket i (t₂.bucket i).clear).hashMask <
      (t₂.setBucket i (t₂.bucket i).clear).bucketCount := by
    rw [hset.hashMask, hset.bucketCount, hr.hashMask, hr.bucketCount]
    exact hv.hashMask_lt hpos
  have hshift : Shifting (t₂.setBucket i (t₂.bucket i).clear)
      (indexed hash (t.values.eraseIdx (t.bucket i).index)) (t₂.setBucket i (t₂.bucket i).clear) i := by
    refine ⟨.refl _, ?_, by rwa [hset.bucketCount], hent, rfl⟩
    rw [hrank, hset.bucketCount, hr.bucketCount]
    exact hv.graded.holed hi
  obtain ⟨t', h', ⟨hframe, hg, he⟩, hgrow⟩ := hshift.backwardShift hmask (by
    rw [hset.bucketCount, hr.bucketCount, hrank]
    refine hv.room.imp (fun hroom => ?_) id
    obtain ⟨e, hel, hemp⟩ := hv.vacant hroom
    have hne : e ≠ i := by
      rintro rfl
      simp [hemp] at hf
    exact ⟨e, hel, by rw [Function.update_of_ne hne, rank_of_empty hemp], hne⟩)
  have hbc : t'.bucketCount = t.bucketCount := by
    rw [hframe.bucketCount, hset.bucketCount, hr.bucketCount]
  have hval : t'.values = t.values.eraseIdx (t.bucket i).index := hframe.values.trans hr.values
  have hsize : t'.size = t.size - 1 := by
    rw [size, hval]
    exact List.length_eraseIdx_of_lt hlt
  have hgrow' : t'.growOnNextInsert = t.growOnNextInsert := hgrow.trans hr.grow
  refine ⟨t', ?_, hv.keep hbc ?_ ?_ ?_ ?_ hg ?_ fun h => hv.grow (hgrow' ▸ h), hval, hbc, hgrow'⟩
  · rw [OrderedHash.eraseValueFromBucket]
    simp only [h₂, Option.bind_some]
    exact h'
  · rw [hframe.hashMask, hset.hashMask, hr.hashMask]
  · rw [hframe.loadThreshold, hset.loadThreshold, hr.loadThreshold]
  · rw [hsize]
    exact hv.room.imp (fun h => by omega) id
  · rw [hval, ← List.eraseIdx_map]
    exact hv.keys.sublist (List.eraseIdx_sublist _ _)
  · rw [hval]
    exact he

variable [DecidableEq K] {key : K}

theorem eraseImpl_of_mem (hv : Valid hash t) {idx : Nat} {v : V} (h : t.values[idx]? = some (key, v)) :
    ∃ t', t.eraseImpl hash key = some (t', 1) ∧ Valid hash t' ∧ t'.values = t.values.eraseIdx idx ∧
      t'.bucketCount = t.bucketCount ∧ t'.growOnNextInsert = t.growOnNextInsert := by
  obtain ⟨j, -, hfind, hf, hx⟩ := hv.findKey_of_mem h
  obtain ⟨t', h', hv', hval, hkept⟩ := hv.eraseValueFromBucket hf
  refine ⟨t', ?_, hv', by rw [hval, hx], hkept⟩
  rw [eraseImpl, hfind]
  change (t.eraseValueFromBucket hash j).map _ = _
  rw [h']
  rfl

theorem eraseImpl_of_notMem (hv : Valid hash t) (hk : key ∉ t.values.map Prod.fst) :
    t.eraseImpl hash key = some (t, 0) := by
  rw [eraseImpl, hv.findKey_of_notMem hk]
  rfl

end Valid

end UdpQueue.Tsl.OrderedHash
