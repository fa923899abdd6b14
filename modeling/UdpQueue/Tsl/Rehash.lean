import UdpQueue.Tsl.Settle
import UdpQueue.Tsl.Valid

namespace UdpQueue.Tsl

open RobinHood

theorem isPowerOfTwo_two_pow (k : Nat) : isPowerOfTwo (2 ^ k) = true := by
  simp [isPowerOfTwo, Nat.and_two_pow_sub_one_eq_mod]

theorem roundUp_two_pow (k : Nat) : roundUpToPowerOfTwo (2 ^ k) = 2 ^ k := by
  rw [roundUpToPowerOfTwo, if_pos (isPowerOfTwo_two_pow k)]

theorem toFloat_le (n : Nat) : toFloat n ≤ n + n / 2 ^ 23 + 1 := by
  have hulp : 2 ^ (n.log2 - 23) ≤ n / 2 ^ 23 + 1 := by
    rcases Nat.lt_or_ge n.log2 23 with h | h
    · rw [Nat.sub_eq_zero_of_le (Nat.le_of_lt h)]
      omega
    · have hn : n ≠ 0 := by
        rintro rfl
        simp at h
      have hpow : 2 ^ (n.log2 - 23) * 2 ^ 23 ≤ n := by
        rw [← Nat.pow_add, Nat.sub_add_cancel h]
        exact Nat.log2_self_le hn
      exact Nat.le_succ_of_le ((Nat.le_div_iff_mul_le (by decide)).mpr hpow)
  have hround : toFloat n ≤ (n / 2 ^ (n.log2 - 23) + 1) * 2 ^ (n.log2 - 23) := by
    simp only [toFloat, roundFloat, Nat.div_one, Nat.one_mul]
    apply Nat.mul_le_mul_right
    split_ifs <;> omega
  have hdiv := Nat.div_mul_le_self n (2 ^ (n.log2 - 23))
  rw [Nat.add_mul, Nat.one_mul] at hround
  omega

namespace OrderedHash
variable {K V : Type} {hash : K → SizeT} {t : OrderedHash K V}

theorem reinsert_all (hm : 0 < t.bucketCount → t.hashMask < t.bucketCount)
    (hg : Graded t.bucketCount t.rank) {bs : List BucketEntry} (hb : ∀ b ∈ bs, b.empty = false)
    (hl : t.entries.length + bs.length ≤ t.bucketCount) :
    ∃ t', bs.foldlM reinsert t = some t' ∧
      Settled t (bs.filterMap BucketEntry.entry ++ t.entries) t' ∧
      t'.growOnNextInsert = t.growOnNextInsert := by
  induction bs generalizing t with
  | nil => exact ⟨t, rfl, ⟨.refl t, hg, .refl _⟩, rfl⟩
  | cons b bs ih =>
    obtain ⟨hb, hbs⟩ := List.forall_mem_cons.mp hb
    rw [List.length_cons] at hl
    obtain ⟨e, he, hv⟩ := exists_empty (t := t) (by omega)
    obtain ⟨t₁, h₁, ⟨hf₁, hg₁, he₁⟩, hgrow₁⟩ := reinsert_spec (hm (by omega)) he hv hg hb
    have hlen := he₁.length_eq
    rw [List.length_cons] at hlen
    obtain ⟨t', h', ⟨hf', hg', he'⟩, hgrow'⟩ := ih (t := t₁)
      (by rw [hf₁.hashMask, hf₁.bucketCount]; exact hm) hg₁ hbs
      (by rw [hf₁.bucketCount]; omega)
    refine ⟨t', ?_, ⟨hf₁.trans hf', hg', ?_⟩, hgrow'.trans hgrow₁⟩
    · rw [List.foldlM_cons, h₁]
      exact h'
    · have hentry : b.entry = some (b.index, b.hash) := by simp [BucketEntry.entry, hb]
      rw [filterMap_entry_cons, hentry]
      refine he'.trans ((he₁.append_left _).trans ?_)
      exact List.perm_middle

theorem withBuckets_bucket (t : OrderedHash K V) (n i : Nat) : (t.withBuckets n).bucket i = {} := by
  change (List.replicate n ({} : BucketEntry)).getD i {} = {}
  rw [List.getD_eq_getElem?_getD, List.getElem?_replicate]
  split_ifs <;> rfl

theorem withBuckets_rank (t : OrderedHash K V) (n i : Nat) : (t.withBuckets n).rank i = 0 :=
  rank_of_empty (by rw [withBuckets_bucket]; rfl)

theorem withBuckets_entries (t : OrderedHash K V) (n : Nat) : (t.withBuckets n).entries = [] := by
  change (List.replicate n ({} : BucketEntry)).filterMap BucketEntry.entry = []
  rw [List.filterMap_eq_nil_iff]
  intro b hb
  rw [List.eq_of_mem_replicate hb]
  rfl

theorem withBuckets_bucketCount (t : OrderedHash K V) (n : Nat) : (t.withBuckets n).bucketCount = n :=
  List.length_replicate

theorem filterMap_filter_full (bs : List BucketEntry) :
    (bs.filter (!·.empty)).filterMap BucketEntry.entry = bs.filterMap BucketEntry.entry := by
  rw [List.filterMap_filter]
  apply List.filterMap_congr
  intro b _
  cases h : b.empty <;> simp [BucketEntry.entry, h]

theorem length_filter_full (bs : List BucketEntry) :
    (bs.filter (!·.empty)).length = (bs.filterMap BucketEntry.entry).length := by
  induction bs with
  | nil => rfl
  | cons b bs ih =>
    rw [List.filter_cons, List.filterMap_cons]
    cases h : b.empty <;> simp [BucketEntry.entry, h, ih]

namespace Valid

theorem rehashImpl (hv : Valid hash t) {count k : Nat} (hmax : count ≤ maxBucketCount)
    (hc : 0 < count) (hn : roundUpToPowerOfTwo count = 2 ^ k) (hk : k ≤ 32)
    (hroom : t.size < 2 ^ k ∨ 2 ^ k ≤ 2 ∧ t.size ≤ 2 ^ k) :
    ∃ t', t.rehashImpl count = some t' ∧ Valid hash t' ∧ t'.bucketCount = 2 ^ k ∧
      t'.values = t.values ∧ (t.bucketCount ≠ 2 ^ k → t'.growOnNextInsert = false) := by
  rw [OrderedHash.rehashImpl, if_neg (Nat.not_lt.mpr hmax)]
  simp only [gt_iff_lt, hc, if_true, hn]
  split_ifs with heq
  · exact ⟨t, rfl, hv, heq.symm, rfl, fun h => absurd heq.symm h⟩
  · have hcount := withBuckets_bucketCount t (2 ^ k)
    have hpos : 0 < 2 ^ k := Nat.two_pow_pos k
    have hmask : (t.withBuckets (2 ^ k)).hashMask = 2 ^ k - 1 := if_pos hpos
    have hfull : ∀ b ∈ t.buckets.filter (!·.empty), b.empty = false := by
      intro b hb
      simpa using (List.mem_filter.mp hb).2
    have hlen : (t.withBuckets (2 ^ k)).entries.length + (t.buckets.filter (!·.empty)).length ≤
        (t.withBuckets (2 ^ k)).bucketCount := by
      have hentries := hv.length_entries
      rw [OrderedHash.entries] at hentries
      rw [withBuckets_entries, length_filter_full, hcount, hentries, List.length_nil]
      omega
    obtain ⟨t', h', ⟨hf, hg, he⟩, hgrow⟩ := reinsert_all (t := t.withBuckets (2 ^ k))
      (fun _ => by rw [hmask, hcount]; omega) (fun i _ => by simp only [withBuckets_rank]; omega)
      hfull hlen
    rw [withBuckets_entries, List.append_nil, filterMap_filter_full] at he
    have hbc : t'.bucketCount = 2 ^ k := hf.bucketCount.trans hcount
    have hval : t'.values = t.values := hf.values
    refine ⟨t', h', ⟨Or.inr ⟨k, hk, hbc⟩, ?_, ?_, ?_, ?_, hg, ?_, ?_⟩, hbc, hval, fun _ => hgrow⟩
    · rw [hf.hashMask, hmask, hbc]
    · rw [hf.loadThreshold, hbc]
      change (t.withBuckets (2 ^ k)).bucketCount * 3 / 4 = _
      rw [hcount]
    · rw [size, hval, hbc]
      exact hroom.imp id And.left
    · rw [hval]
      exact hv.keys
    · rw [hval]
      exact he.trans hv.entries
    · rw [hgrow]
      intro h
      cases h

theorem growOnHighLoad (hv : Valid hash t) (hs : t.size < 2 ^ 28) :
    ∃ t' grown, t.growOnHighLoad = some (t', grown) ∧ Valid hash t' ∧ t'.values = t.values ∧
      t'.size < t'.bucketCount ∧ (t'.size + 1 < t'.bucketCount ∨ t'.bucketCount ≤ 2) ∧
      t'.growOnNextInsert = false ∧ (grown = false → t' = t) := by
  have hthreshold := hv.loadThreshold
  rw [OrderedHash.growOnHighLoad]
  split_ifs with hgrow
  · have hsize := hv.size_le
    have hroom := hv.room
    obtain ⟨k, hk, hcount, hpow, hfit⟩ : ∃ k ≤ 32, max 1 (t.bucketCount * 2) = 2 ^ k ∧
        (t.bucketCount = 0 ∨ t.bucketCount * 2 = 2 ^ k) ∧
        (t.size < 2 ^ k ∧ (t.size + 1 < 2 ^ k ∨ 2 ^ k ≤ 2)) := by
      rcases hv.shape with h0 | ⟨k, hk, h2⟩
      · exact ⟨0, by omega, by simp [h0], Or.inl h0, by omega, Or.inr (by decide)⟩
      · have hlt : t.bucketCount ≤ 2 ^ 31 := by
          simp only [Bool.or_eq_true, decide_eq_true_eq] at hgrow
          rcases hgrow with h | h
          · exact hv.grow h
          · rw [hthreshold] at h
            omega
        have hk' : k ≤ 31 := (Nat.pow_le_pow_iff_right (by decide)).mp (h2 ▸ hlt)
        have hpos : 0 < 2 ^ k := Nat.two_pow_pos k
        refine ⟨k + 1, by omega, ?_, Or.inr ?_, ?_, ?_⟩ <;> rw [Nat.pow_succ] <;> omega
    have hle : 2 ^ k ≤ 2 ^ 32 := Nat.pow_le_pow_right (by decide) hk
    have hpos : 0 < 2 ^ k := Nat.two_pow_pos k
    have hmax : max 1 (t.bucketCount * 2) ≤ maxBucketCount := by
      rw [hcount, maxBucketCount]
      omega
    obtain ⟨t', h', hv', hbc, hval, hflag⟩ := hv.rehashImpl hmax (by omega)
      (by rw [hcount]; exact roundUp_two_pow k) hk (Or.inl hfit.1)
    have hoff : t'.growOnNextInsert = false := hflag (by omega)
    refine ⟨t', true, ?_, hv', hval, ?_, ?_, hoff, fun h => by cases h⟩
    · rw [h', Option.map_some, ← hoff]
    · rw [size, hval, hbc]
      exact hfit.1
    · rw [size, hval, hbc]
      exact hfit.2
  · simp only [Bool.or_eq_true, decide_eq_true_eq, not_or, Bool.not_eq_true] at hgrow
    obtain ⟨hoff, hload⟩ := hgrow
    exact ⟨t, false, rfl, hv, rfl, by omega, by omega, hoff, fun _ => rfl⟩

end Valid

end OrderedHash

end UdpQueue.Tsl
