import UdpQueue.Tsl.Find
import UdpQueue.Tsl.Rehash

namespace UdpQueue.Tsl.OrderedHash

open RobinHood

variable {K V : Type} {hash : K → SizeT} {t : OrderedHash K V}

namespace Valid

theorem Stopped.ready (hv : Valid hash t) (hs : t.size < t.bucketCount) {h : SizeT} {s : Nat × Nat}
    (hstop : Stopped t h s) {index : Nat} (hi : index ≠ emptyMarkerIndex) :
    t.Ready { ibucket := s.1, distFromIdealBucket := s.2, index, hash := h.toUInt32 } := by
  obtain ⟨e, he, hempty⟩ := hv.vacant hs
  have hb := hstop.bound (Nat.zero_lt_of_lt he)
  -- an empty bucket keeps every rank, and so the probing, below the number of buckets
  obtain ⟨p, hp, hn⟩ := exists_next hb
  have hlt := hv.graded.rank_lt he (rank_of_empty hempty) hp
  have hbehind := hstop.behind p hp hn
  refine ⟨hb, ?_, hstop.behind, hi⟩
  rw [← hv.bucketForHash_eq]
  exact hstop.distance (by omega)

theorem emplace (hv : Valid hash t) (hs : t.size < t.bucketCount)
    (hroom : t.size + 1 < t.bucketCount ∨ t.bucketCount ≤ 2) (hsmall : t.size < 2 ^ 28)
    (hoff : t.growOnNextInsert = false) {value : K × V} (hk : value.1 ∉ t.values.map Prod.fst)
    {c : Carried} (hc : t.Ready c) (hi : c.index = t.size) (hh : c.hash = (hash value.1).toUInt32) :
    ∃ t', (t.emplaceBack value).insertIndex c = some t' ∧ Valid hash t' ∧
      t'.values = t.values ++ [value] ∧ t'.bucketCount = t.bucketCount ∧
      (t'.growOnNextInsert = true → 128 < t.size) := by
  obtain ⟨e, he, hempty⟩ := hv.vacant hs
  obtain ⟨t', h', ⟨hf, hg, hent⟩, hgrow⟩ := insertIndex_spec (t := t.emplaceBack value)
    (hv.hashMask_lt (Nat.zero_lt_of_lt he)) he hempty hv.graded (c := c)
    ⟨hc.bound, hc.distance, hc.behind, hc.full⟩
  have hbc : t'.bucketCount = t.bucketCount := hf.bucketCount
  have hval : t'.values = t.values ++ [value] := hf.values
  have hsize : t'.size = t.size + 1 := by simp [size, hval]
  have hflag (hnext : t'.growOnNextInsert = true) :
      128 < t.size ∧ (t.emplaceBack value).loadFactorHigh = true := by
    rcases hgrow hnext with h | ⟨hfar, hhigh⟩
    · rw [show (t.emplaceBack value).growOnNextInsert = t.growOnNextInsert from rfl, hoff] at h
      cases h
    · rw [show (t.emplaceBack value).entries = t.entries from rfl, hv.length_entries] at hfar
      exact ⟨hfar, hhigh⟩
  refine ⟨t', h', hv.keep hbc hf.hashMask hf.loadThreshold (by rw [hsize]; exact hroom) ?_ hg ?_
    fun h => ?_, hval, hbc, fun h => (hflag h).1⟩
  · rw [hval, List.map_append]
    refine List.nodup_append.mpr ⟨hv.keys, List.nodup_singleton _, ?_⟩
    intro k hkm j hj hkj
    rw [List.mem_singleton.mp hj] at hkj
    exact hk (hkj ▸ hkm)
  · rw [hval, indexed_append]
    refine hent.trans ?_
    rw [hi, hh]
    refine ((hv.entries.cons _).trans ?_)
    exact (List.perm_append_singleton _ _).symm
  · have hhigh := (hflag h).2
    have hlen : (t.emplaceBack value).size = t.size + 1 := by simp [size, emplaceBack]
    have hle := toFloat_le (t.size + 1)
    simp only [loadFactorHigh, hlen, Bool.and_eq_true, decide_eq_true_eq] at hhigh
    have hload : 10066330 * t.bucketCount ≤ toFloat (t.size + 1) * 2 ^ 26 := hhigh.2
    omega

variable [DecidableEq K]

theorem insertImpl_of_mem (hv : Valid hash t) {idx : Nat} {key : K} {v : V}
    (hi : t.values[idx]? = some (key, v)) (w : V) :
    t.insertImpl hash (key, w) = some (t, idx, false) := by
  rw [insertImpl, hv.probe_of_mem hi]
  rfl

theorem insertImpl_of_notMem (hv : Valid hash t) (hsmall : t.size < 2 ^ 28) {key : K}
    (hk : key ∉ t.values.map Prod.fst) (v : V) :
    ∃ t', t.insertImpl hash (key, v) = some (t', t.size, true) ∧ Valid hash t' ∧
      t'.values = t.values ++ [(key, v)] ∧
      (t.growOnNextInsert = false → t.size < t.loadThreshold →
        t'.bucketCount = t.bucketCount ∧ (t'.growOnNextInsert = true → 128 < t.size)) := by
  obtain ⟨s, hs, hstop⟩ := hv.probe_of_notMem hk
  obtain ⟨t₁, grown, hgrow, hv₁, hval₁, hlt, hroom, hoff, hsame⟩ := hv.growOnHighLoad hsmall
  have hsize : t₁.size = t.size := by rw [size, size, hval₁]
  have hmax : ¬ t.size ≥ maxSize := by
    simp only [maxSize, emptyMarkerIndex]
    omega
  have hindex : (t₁.emplaceBack (key, v)).size - 1 = t.size := by
    simp [size, emplaceBack, hval₁]
  have hfull : t.size ≠ emptyMarkerIndex := by
    rw [emptyMarkerIndex]
    omega
  rw [insertImpl, hs]
  simp only [Option.bind_some, if_neg hmax, hgrow, hindex]
  have finish {c : Carried} (hc : t₁.Ready c) (hi : c.index = t.size)
      (hh : c.hash = (hash key).toUInt32) :
      ∃ t', ((t₁.emplaceBack (key, v)).insertIndex c).map (fun t => (t, t.size - 1, true)) =
        some (t', t.size, true) ∧ Valid hash t' ∧ t'.values = t.values ++ [(key, v)] ∧
        t'.bucketCount = t₁.bucketCount ∧ (t'.growOnNextInsert = true → 128 < t.size) := by
    have hk₁ : (key, v).1 ∉ t₁.values.map Prod.fst := by rwa [hval₁]
    obtain ⟨t', h', hv', hval, hcount, hflag⟩ := hv₁.emplace hlt hroom (by omega) hoff hk₁ hc
      (hi.trans hsize.symm) hh
    refine ⟨t', ?_, hv', by rw [hval, hval₁], hcount, hsize ▸ hflag⟩
    rw [h', Option.map_some]
    simp [size, hval, hval₁]
  cases hg : grown with
  | true =>
    have hpos := Nat.zero_lt_of_lt hlt
    have hideal := hv₁.bucketForHash_eq (hash key)
    simp only [if_true, hideal]
    obtain ⟨t', h', hv', hval, -⟩ := finish (ready_ideal (hv₁.hashMask_lt hpos) hfull _) rfl rfl
    refine ⟨t', h', hv', hval, fun hcalm hload => ?_⟩
    rw [OrderedHash.growOnHighLoad, hcalm, if_neg (by simpa using hload)] at hgrow
    rw [hg] at hgrow
    cases hgrow
  | false =>
    obtain rfl := hsame hg
    simp only [Bool.false_eq_true, if_false]
    obtain ⟨t', h', hv', hval, hkept⟩ := finish (Stopped.ready hv hlt hstop hfull) rfl rfl
    exact ⟨t', h', hv', hval, fun _ _ => hkept⟩

end Valid

end UdpQueue.Tsl.OrderedHash
