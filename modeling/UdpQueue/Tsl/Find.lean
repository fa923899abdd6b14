import UdpQueue.Tsl.Valid

namespace UdpQueue.Tsl.OrderedHash

open RobinHood

variable {K V : Type} {hash : K → SizeT} {t : OrderedHash K V}

section Steps
variable [DecidableEq K]

theorem findStep_of_full (t : OrderedHash K V) (key : K) (h : SizeT) {i : Nat}
    (hf : (t.bucket i).empty = false) (dist : Nat) :
    t.findStep key h (i, dist) =
      if t.holdsKey key h i then .inr (some i)
      else if dist > t.distanceFromIdealBucket i then .inr none
      else .inl (t.nextBucket i, dist + 1) := by
  rw [findStep, hf]
  rfl

theorem findStep_of_empty (t : OrderedHash K V) (key : K) (h : SizeT) {i : Nat}
    (he : (t.bucket i).empty = true) (dist : Nat) : t.findStep key h (i, dist) = .inr none := by
  rw [findStep, he]
  rfl

theorem probeStep_of_near (t : OrderedHash K V) (key : K) (h : SizeT) {i dist : Nat}
    (hf : (t.bucket i).empty = false) (hd : dist ≤ t.distanceFromIdealBucket i) :
    t.probeStep key h (i, dist) =
      if t.holdsKey key h i then .inr (.inl (t.bucket i).index)
      else .inl (t.nextBucket i, dist + 1) := by
  simp [probeStep, hf, hd]

theorem probeStep_of_far (t : OrderedHash K V) (key : K) (h : SizeT) {i dist : Nat}
    (hf : (t.bucket i).empty = true ∨ t.distanceFromIdealBucket i < dist) :
    t.probeStep key h (i, dist) = .inr (.inr (i, dist)) := by
  rcases hf with hf | hf
  · simp [probeStep, hf]
  · simp [probeStep, Nat.not_le.mpr hf]

omit [DecidableEq K] in
theorem near_or_far (t : OrderedHash K V) (i dist : Nat) :
    ((t.bucket i).empty = false ∧ dist ≤ t.distanceFromIdealBucket i) ∨
      ((t.bucket i).empty = true ∨ t.distanceFromIdealBucket i < dist) := by
  cases (t.bucket i).empty with
  | true => exact Or.inr (Or.inl rfl)
  | false => exact (Nat.lt_or_ge _ dist).symm.imp (⟨rfl, ·⟩) Or.inr

end Steps

namespace Valid

theorem distance_lt (hv : Valid hash t) {i : Nat} (hf : (t.bucket i).empty = false) :
    t.distanceFromIdealBucket i < t.bucketCount := by
  have hi := full_lt hf
  exact gap_lt (ideal_lt (hv.hashMask_lt (Nat.zero_lt_of_lt hi)) _) hi

section Present
variable {idx : Nat} {key : K} {v : V} {j : Nat}

-- on the way from the ideal bucket to the bucket of the key no other bucket stops the search
structure OnWay (t : OrderedHash K V) (h : SizeT) (j : Nat) (s : Nat × Nat) : Prop where
  bound : s.1 < t.bucketCount
  distance : gap t.bucketCount (t.bucketForHash h) s.1 = s.2
  before : gap t.bucketCount (t.bucketForHash h) s.1 ≤ gap t.bucketCount (t.bucketForHash h) j

theorem gap_lt_rank (hv : Valid hash t) (hj : j < t.bucketCount) (hf : (t.bucket j).empty = false)
    (hh : (t.bucket j).hash = (hash key).toUInt32) {s : Nat × Nat}
    (h : OnWay t (hash key) j s) :
    (t.bucket s.1).empty = false ∧ s.2 ≤ t.distanceFromIdealBucket s.1 := by
  have hm := hv.hashMask_lt (Nat.zero_lt_of_lt hj)
  have hr : gap t.bucketCount (t.bucketForHash (hash key)) j < t.rank j := by
    rw [rank_of_full hf, hh, hv.bucketForHash_eq]
    omega
  have hp := hv.graded.on_path (bucketForHash_lt hm _) hj hr h.bound h.before
  have hs : (t.bucket s.1).empty = false := rank_pos.mp (by omega)
  rw [rank_of_full hs, h.distance] at hp
  refine ⟨hs, ?_⟩
  rw [distance_eq]
  omega

theorem onWay_next (hv : Valid hash t) (hj : j < t.bucketCount) {s : Nat × Nat}
    (h : OnWay t (hash key) j s) (hne : s.1 ≠ j) :
    OnWay t (hash key) j (t.nextBucket s.1, s.2 + 1) ∧
      gap t.bucketCount (next t.bucketCount s.1) j < gap t.bucketCount s.1 j := by
  have hm := hv.hashMask_lt (Nat.zero_lt_of_lt hj)
  have hi := bucketForHash_lt hm (hash key)
  have hlt : gap t.bucketCount (t.bucketForHash (hash key)) s.1 <
      gap t.bucketCount (t.bucketForHash (hash key)) j :=
    lt_of_le_of_ne h.before fun he => hne (gap_injective hi h.bound hj he)
  have hg := gap_next hi h.bound (Nat.lt_of_le_of_lt hlt (gap_lt hi hj))
  have hn := gap_from_next h.bound hj hne
  refine ⟨⟨next_lt h.bound, ?_, ?_⟩, by omega⟩
  · simp only [nextBucket_eq, hg, h.distance]
  · simp only [nextBucket_eq, hg]
    omega

variable [DecidableEq K]

theorem holdsKey_at (hv : Valid hash t) (hi : t.values[idx]? = some (key, v))
    (hj : (t.bucket j).empty = false) (hx : (t.bucket j).index = idx)
    (hh : (t.bucket j).hash = (hash key).toUInt32) {i : Nat} (hf : (t.bucket i).empty = false) :
    t.holdsKey key (hash key) i = true ↔ i = j := by
  rw [holdsKey_iff]
  constructor
  · rintro ⟨-, w, hw⟩
    exact hv.slot_unique hf hj ((hv.index_unique hw hi).trans hx.symm)
  · rintro rfl
    exact ⟨hh, v, by rw [hx, hi]⟩

theorem walk_of_mem (hv : Valid hash t) (hi : t.values[idx]? = some (key, v)) {R : Type}
    {step : Nat × Nat → (Nat × Nat) ⊕ R} {result : Nat → R}
    (hstep : ∀ i dist, (t.bucket i).empty = false → dist ≤ t.distanceFromIdealBucket i →
      step (i, dist) =
        if t.holdsKey key (hash key) i then .inr (result i) else .inl (t.nextBucket i, dist + 1)) :
    ∃ j < t.bucketCount,
      forever step (t.bucketCount + 1) (t.bucketForHash (hash key), 0) = some (result j) ∧
        (t.bucket j).empty = false ∧ (t.bucket j).index = idx := by
  obtain ⟨j, hj, hf, hx, hh⟩ := hv.slot hi
  refine ⟨j, hj, ?_, hf, hx⟩
  have hb := bucketForHash_lt (hv.hashMask_lt (Nat.zero_lt_of_lt hj)) (hash key)
  refine forever_eq (P := OnWay t (hash key) j) (m := fun s => gap t.bucketCount s.1 j) ?_ ?_
    ⟨hb, gap_self _, by simp⟩ (Nat.lt_succ_of_lt (gap_lt hb hj))
  · rintro ⟨i, dist⟩ s h hs
    obtain ⟨hfi, hd⟩ := hv.gap_lt_rank hj hf hh h
    rw [hstep i dist hfi hd] at hs
    split_ifs at hs with hk
    have hne : i ≠ j := fun he => hk ((hv.holdsKey_at hi hf hx hh hfi).mpr he)
    obtain rfl := Sum.inl.inj hs
    exact hv.onWay_next hj h hne
  · rintro ⟨i, dist⟩ r h hs
    obtain ⟨hfi, hd⟩ := hv.gap_lt_rank hj hf hh h
    rw [hstep i dist hfi hd] at hs
    split_ifs at hs with hk
    obtain rfl := Sum.inr.inj hs
    exact congrArg result ((hv.holdsKey_at hi hf hx hh hfi).mp hk)

theorem findKey_of_mem (hv : Valid hash t) (hi : t.values[idx]? = some (key, v)) :
    ∃ j < t.bucketCount, t.findKey key (hash key) = some (some j) ∧
      (t.bucket j).empty = false ∧ (t.bucket j).index = idx :=
  hv.walk_of_mem hi fun i dist hf hd => by
    rw [findStep_of_full _ _ _ hf, if_neg (Nat.not_lt.mpr hd)]

theorem probe_of_mem (hv : Valid hash t) (hi : t.values[idx]? = some (key, v)) :
    t.probe key (hash key) = some (.inl idx) := by
  obtain ⟨j, -, hprobe, -, hx⟩ := hv.walk_of_mem hi fun i dist => probeStep_of_near t key (hash key)
  rw [← hx]
  exact hprobe

end Present

section Absent
variable [DecidableEq K] {key : K}

theorem not_holdsKey (hk : key ∉ t.values.map Prod.fst) {i : Nat} :
    t.holdsKey key (hash key) i = false := by
  rw [← Bool.not_eq_true, holdsKey_iff]
  rintro ⟨-, v, hw⟩
  exact hk (List.mem_map.mpr ⟨_, List.mem_of_getElem? hw, rfl⟩)

variable (hv : Valid hash t) (hk : key ∉ t.values.map Prod.fst)
include hv hk

theorem findKey_of_notMem : t.findKey key (hash key) = some none := by
  refine forever_eq (P := fun s => s.2 ≤ t.bucketCount) (m := fun s => t.bucketCount - s.2) ?_ ?_
    (Nat.zero_le _) (Nat.lt_succ_self t.bucketCount)
  · rintro ⟨i, dist⟩ s h hs
    cases hf : (t.bucket i).empty with
    | true => simp [findStep_of_empty _ _ _ hf] at hs
    | false =>
      have hlt := hv.distance_lt hf
      rw [findStep_of_full _ _ _ hf, not_holdsKey hk] at hs
      simp only [Bool.false_eq_true, if_false] at hs
      split_ifs at hs
      obtain rfl := Sum.inl.inj hs
      constructor <;> dsimp only <;> omega
  · rintro ⟨i, dist⟩ r h hs
    cases hf : (t.bucket i).empty with
    | true => simpa [findStep_of_empty _ _ _ hf, eq_comm] using hs
    | false =>
      rw [findStep_of_full _ _ _ hf, not_holdsKey hk] at hs
      simp only [Bool.false_eq_true, if_false] at hs
      split_ifs at hs
      exact (Sum.inr.inj hs).symm

-- where the probing of `insert_impl` stops, `insert_index` can go on
structure Stopped (t : OrderedHash K V) (h : SizeT) (s : Nat × Nat) : Prop where
  far : s.2 ≤ t.bucketCount
  bound : 0 < t.bucketCount → s.1 < t.bucketCount
  distance : s.2 < t.bucketCount → gap t.bucketCount (t.bucketForHash h) s.1 = s.2
  behind : ∀ p < t.bucketCount, next t.bucketCount p = s.1 → s.2 ≤ t.rank p

theorem probe_of_notMem :
    ∃ s, t.probe key (hash key) = some (.inr s) ∧ Stopped t (hash key) s := by
  have hspec : ∃ r, t.probe key (hash key) = some r ∧ ∃ s, r = .inr s ∧ Stopped t (hash key) s := by
    refine forever_spec (P := Stopped t (hash key)) (m := fun s => t.bucketCount - s.2) ?_ ?_
      ⟨Nat.zero_le _, fun h => bucketForHash_lt (hv.hashMask_lt h) _, fun _ => gap_self _,
        fun _ _ _ => Nat.zero_le _⟩ (Nat.lt_succ_self t.bucketCount)
    · rintro ⟨i, dist⟩ s h hs
      rcases t.near_or_far i dist with ⟨hf, hd⟩ | hf
      · have hi := full_lt hf
        have hlt := hv.distance_lt hf
        have hb := bucketForHash_lt (hv.hashMask_lt (Nat.zero_lt_of_lt hi)) (hash key)
        rw [probeStep_of_near _ _ _ hf hd, not_holdsKey hk] at hs
        simp only [Bool.false_eq_true, if_false] at hs
        obtain rfl := Sum.inl.inj hs
        have hdist := h.distance (by dsimp only; omega)
        refine ⟨⟨by dsimp only; omega, fun _ => next_lt hi, ?_, ?_⟩, by dsimp only; omega⟩
        · intro hl
          dsimp only at hl hdist ⊢
          rw [nextBucket_eq, gap_next hb hi (by omega), hdist]
        · intro p hp hn
          obtain rfl := next_injective hp hi hn
          rw [rank_of_full hf, ← distance_eq]
          dsimp only
          omega
      · rw [probeStep_of_far _ _ _ hf] at hs
        cases hs
    · rintro ⟨i, dist⟩ r h hs
      rcases t.near_or_far i dist with ⟨hf, hd⟩ | hf
      · rw [probeStep_of_near _ _ _ hf hd, not_holdsKey hk] at hs
        cases hs
      · rw [probeStep_of_far _ _ _ hf] at hs
        exact ⟨_, (Sum.inr.inj hs).symm, h⟩
  obtain ⟨r, hr, s, rfl, hs⟩ := hspec
  exact ⟨s, hr, hs⟩

end Absent

end Valid

end UdpQueue.Tsl.OrderedHash
