import UdpQueue.Tsl.Layout

namespace UdpQueue.Tsl.OrderedHash

open RobinHood

variable {K V : Type}

structure Ready (t : OrderedHash K V) (c : Carried) : Prop where
  bound : c.ibucket < t.bucketCount
  distance : gap t.bucketCount (t.ideal c.hash) c.ibucket = c.distFromIdealBucket
  behind : ∀ p < t.bucketCount, next t.bucketCount p = c.ibucket → c.distFromIdealBucket ≤ t.rank p
  full : c.index ≠ emptyMarkerIndex

structure Settled (t : OrderedHash K V) (es : List (Nat × UInt32)) (t' : OrderedHash K V) : Prop where
  frame : Frame t t'
  graded : Graded t'.bucketCount t'.rank
  entries : t'.entries.Perm es

structure Settling (t₀ : OrderedHash K V) (es : List (Nat × UInt32)) (e : Nat)
    (t : OrderedHash K V) (c : Carried) : Prop where
  frame : Frame t₀ t
  graded : Graded t.bucketCount t.rank
  ready : t.Ready c
  entries : ((c.index, c.hash) :: t.entries).Perm es
  vacant : (t.bucket e).empty = true

theorem ready_ideal {t : OrderedHash K V} (hm : t.hashMask < t.bucketCount) {index : Nat}
    (hi : index ≠ emptyMarkerIndex) (hash : UInt32) :
    t.Ready { ibucket := t.ideal hash, distFromIdealBucket := 0, index, hash } where
  bound := ideal_lt hm hash
  distance := gap_self _
  behind _ _ _ := Nat.zero_le _
  full := hi

section Place
variable {t : OrderedHash K V} {c : Carried} (hc : t.Ready c)

theorem place_frame (t : OrderedHash K V) (c : Carried) : Frame t (t.place c) := t.setBucket_frame _ _

include hc

theorem Ready.carried_full : BucketEntry.empty { index := c.index, hash := c.hash } = false := by
  simp [BucketEntry.empty, hc.full]

theorem Ready.bucket_place :
    (t.place c).bucket = Function.update t.bucket c.ibucket { index := c.index, hash := c.hash } :=
  bucket_setBucket hc.bound

theorem Ready.rank_place :
    (t.place c).rank = Function.update t.rank c.ibucket (c.distFromIdealBucket + 1) := by
  rw [place, rank_setBucket_full hc.bound hc.carried_full, hc.distance]

theorem Ready.graded_place (hg : Graded t.bucketCount t.rank)
    (hr : t.rank c.ibucket ≤ c.distFromIdealBucket + 1) :
    Graded (t.place c).bucketCount (t.place c).rank := by
  rw [(t.place_frame c).bucketCount, hc.rank_place]
  exact hg.raise hc.bound hc.behind hr

theorem Ready.entries_place :
    ((t.bucket c.ibucket).entry.toList ++ (t.place c).entries).Perm
      ((c.index, c.hash) :: t.entries) := by
  have hp := entries_setBucket (b := { index := c.index, hash := c.hash }) hc.bound
  have he : BucketEntry.entry { index := c.index, hash := c.hash } = some (c.index, c.hash) := by
    simp [BucketEntry.entry, hc.carried_full]
  rwa [he] at hp

end Place

section Step
variable {t₀ t : OrderedHash K V} {es : List (Nat × UInt32)} {e : Nat} {c : Carried}

theorem Settling.place (h : Settling t₀ es e t c) (he : (t.bucket c.ibucket).empty = true) :
    Settled t₀ es (t.place c) where
  frame := h.frame.trans (t.place_frame c)
  graded := h.ready.graded_place h.graded (by rw [rank_of_empty he]; omega)
  entries := by
    have hp := h.ready.entries_place
    rw [BucketEntry.entry, he] at hp
    exact hp.trans h.entries

theorem displace_of_richer (h : t.distanceFromIdealBucket c.ibucket < c.distFromIdealBucket) :
    t.displace c = (t.place c,
      { ibucket := c.ibucket, distFromIdealBucket := t.distanceFromIdealBucket c.ibucket
        index := (t.bucket c.ibucket).index, hash := (t.bucket c.ibucket).hash }) :=
  if_pos h

theorem displace_of_poorer (h : c.distFromIdealBucket ≤ t.distanceFromIdealBucket c.ibucket) :
    t.displace c = (t, c) :=
  if_neg (Nat.not_lt.mpr h)

theorem Settling.displace (hm : t₀.hashMask < t₀.bucketCount) (hl : e < t₀.bucketCount)
    (h : Settling t₀ es e t c) (hf : (t.bucket c.ibucket).empty = false) :
    Settling t₀ es e (t.displace c).1 ((t.displace c).1.advance (t.displace c).2) := by
  have hm' : t.hashMask < t.bucketCount := by rwa [h.frame.hashMask, h.frame.bucketCount]
  have hl' : e < t.bucketCount := by rwa [h.frame.bucketCount]
  have hb := h.ready.bound
  have hrank := rank_of_full hf
  have hlt := h.graded.rank_lt hl' (rank_of_empty h.vacant) hb
  have hne : e ≠ c.ibucket := by
    rintro rfl
    simp [h.vacant] at hf
  rcases Nat.lt_or_ge (t.distanceFromIdealBucket c.ibucket) c.distFromIdealBucket with hd | hd
  · -- the bucket gives up its place, and what it held travels on
    have hplace := t.place_frame c
    rw [displace_of_richer hd]
    rw [distance_eq] at hd
    refine ⟨h.frame.trans hplace, h.ready.graded_place h.graded (by omega), ⟨?_, ?_, ?_, ?_⟩, ?_, ?_⟩
    · simp only [OrderedHash.advance, nextBucket_eq, hplace.bucketCount]
      exact next_lt hb
    · have hgap := gap_next (ideal_lt hm' (t.bucket c.ibucket).hash) hb (by omega)
      simp only [OrderedHash.advance, nextBucket_eq, hplace.bucketCount, hplace.ideal]
      rw [hgap, distance_eq]
    · intro p hp hn
      simp only [OrderedHash.advance, nextBucket_eq, hplace.bucketCount] at hp hn ⊢
      obtain rfl := next_injective hp hb hn
      rw [h.ready.rank_place, Function.update_self, distance_eq]
      omega
    · exact beq_eq_false_iff_ne.mp hf
    · have hp := h.ready.entries_place
      rw [BucketEntry.entry, hf] at hp
      exact hp.trans h.entries
    · rw [h.ready.bucket_place, Function.update_of_ne hne]
      exact h.vacant
  · rw [displace_of_poorer hd]
    rw [distance_eq] at hd
    have hdist := h.ready.distance
    refine ⟨h.frame, h.graded, ⟨next_lt hb, ?_, ?_, h.ready.full⟩, h.entries, h.vacant⟩
    · have hgap := gap_next (ideal_lt hm' c.hash) hb (by omega)
      simp only [OrderedHash.advance, nextBucket_eq, hgap, hdist]
    · intro p hp hn
      simp only [OrderedHash.advance, nextBucket_eq] at hn ⊢
      obtain rfl := next_injective hp hb hn
      omega

theorem Settling.noteProbes (h : Settling t₀ es e t c) (c' : Carried) :
    Settling t₀ es e (t.noteProbes c') c where
  frame := ⟨h.frame.hashMask, h.frame.bucketCount, h.frame.values, h.frame.loadThreshold⟩
  graded := h.graded
  ready := ⟨h.ready.bound, h.ready.distance, h.ready.behind, h.ready.full⟩
  entries := h.entries
  vacant := h.vacant

theorem Settling.dist_le (hl : e < t₀.bucketCount) (h : Settling t₀ es e t c) :
    c.distFromIdealBucket + 1 ≤ es.length := by
  obtain ⟨p, hp, hn⟩ := exists_next h.ready.bound
  have hbehind := h.ready.behind p hp hn
  have hfull := h.graded.rank_le_full (h.frame.bucketCount ▸ hl) (rank_of_empty h.vacant) hp
  have hlen := h.entries.length_eq
  rw [card_full] at hfull
  rw [List.length_cons] at hlen
  omega

theorem displace_bucketCount (t : OrderedHash K V) (c : Carried) :
    (t.displace c).1.bucketCount = t.bucketCount ∧ (t.displace c).2.ibucket = c.ibucket := by
  rw [OrderedHash.displace]
  split_ifs
  · exact ⟨(t.setBucket_frame _ _).bucketCount, rfl⟩
  · exact ⟨rfl, rfl⟩

theorem displace_growOnNextInsert (t : OrderedHash K V) (c : Carried) :
    (t.displace c).1.growOnNextInsert = t.growOnNextInsert := by
  rw [OrderedHash.displace]
  split_ifs <;> rfl

theorem Settling.nearer (hl : e < t₀.bucketCount) (h : Settling t₀ es e t c)
    (hf : (t.bucket c.ibucket).empty = false) :
    gap t₀.bucketCount ((t.displace c).1.advance (t.displace c).2).ibucket e <
      gap t₀.bucketCount c.ibucket e := by
  have hne : c.ibucket ≠ e := by
    rintro rfl
    simp [h.vacant] at hf
  obtain ⟨hcount, hbucket⟩ := displace_bucketCount t c
  have hb := h.ready.bound
  rw [h.frame.bucketCount] at hb
  have hg := gap_from_next hb hl hne
  simp only [OrderedHash.advance, nextBucket_eq, hcount, hbucket, h.frame.bucketCount]
  omega

end Step

section Loop
variable {t : OrderedHash K V} {e : Nat} (hm : t.hashMask < t.bucketCount) (hl : e < t.bucketCount)
  (hv : (t.bucket e).empty = true) (hg : Graded t.bucketCount t.rank)
include hm hl hv hg

theorem insertIndex_spec {c : Carried} (hc : t.Ready c) :
    ∃ t', t.insertIndex c = some t' ∧ Settled t ((c.index, c.hash) :: t.entries) t' ∧
      (t'.growOnNextInsert = true →
        t.growOnNextInsert = true ∨ 128 < t.entries.length ∧ t.loadFactorHigh = true) := by
  refine forever_spec
    (P := fun s => Settling t ((c.index, c.hash) :: t.entries) e s.1 s.2 ∧
      (s.1.growOnNextInsert = true →
        t.growOnNextInsert = true ∨ 128 < t.entries.length ∧ t.loadFactorHigh = true))
    (m := fun s => gap t.bucketCount s.2.ibucket e) ?_ ?_
    ⟨⟨.refl t, hg, hc, .refl _, hv⟩, Or.inl⟩ (Nat.lt_succ_of_lt (gap_lt hc.bound hl))
  · rintro ⟨s, c⟩ r ⟨h, hgrow⟩ hs
    cases hb : (s.bucket c.ibucket).empty with
    | true => simp [insertIndexStep, hb] at hs
    | false =>
      simp only [insertIndexStep, hb, Bool.false_eq_true, if_false, Sum.inl.injEq] at hs
      subst hs
      have hnext := h.displace hm hl hb
      refine ⟨⟨hnext.noteProbes _, ?_⟩, h.nearer hl hb⟩
      intro hn
      simp only [OrderedHash.noteProbes, Bool.or_eq_true, Bool.and_eq_true, displace_growOnNextInsert] at hn
      rcases hn with hn | ⟨hfar, hn⟩
      · exact hgrow hn
      · have hdist := hnext.dist_le hl
        have hprobes := of_decide_eq_true hfar
        rw [List.length_cons] at hdist
        dsimp only at hdist
        refine Or.inr ⟨by omega, ?_⟩
        rwa [loadFactorHigh, size, hnext.frame.bucketCount, hnext.frame.values] at hn
  · rintro ⟨s, c⟩ r ⟨h, hgrow⟩ hs
    cases hb : (s.bucket c.ibucket).empty with
    | false => simp [insertIndexStep, hb] at hs
    | true =>
      simp only [insertIndexStep, hb, if_true, Sum.inr.injEq] at hs
      subst hs
      exact ⟨h.place hb, hgrow⟩

theorem reinsert_spec {b : BucketEntry} (hb : b.empty = false) :
    ∃ t', t.reinsert b = some t' ∧ Settled t ((b.index, b.hash) :: t.entries) t' ∧
      t'.growOnNextInsert = t.growOnNextInsert := by
  have hc := ready_ideal hm (beq_eq_false_iff_ne.mp hb) b.hash
  refine forever_spec
    (P := fun s => Settling t ((b.index, b.hash) :: t.entries) e s.1 s.2 ∧
      s.1.growOnNextInsert = t.growOnNextInsert)
    (m := fun s => gap t.bucketCount s.2.ibucket e) ?_ ?_
    ⟨⟨.refl t, hg, hc, .refl _, hv⟩, rfl⟩ (Nat.lt_succ_of_lt (gap_lt hc.bound hl))
  · rintro ⟨s, c⟩ r ⟨h, hgrow⟩ hs
    cases hb : (s.bucket c.ibucket).empty with
    | true => simp [reinsertStep, hb] at hs
    | false =>
      simp only [reinsertStep, hb, Bool.false_eq_true, if_false, Sum.inl.injEq] at hs
      subst hs
      exact ⟨⟨h.displace hm hl hb, (displace_growOnNextInsert s c).trans hgrow⟩, h.nearer hl hb⟩
  · rintro ⟨s, c⟩ r ⟨h, hgrow⟩ hs
    cases hb : (s.bucket c.ibucket).empty with
    | false => simp [reinsertStep, hb] at hs
    | true =>
      simp only [reinsertStep, hb, if_true, Sum.inr.injEq] at hs
      subst hs
      exact ⟨h.place hb, hgrow⟩

end Loop

end UdpQueue.Tsl.OrderedHash
