import Mathlib.Data.List.Nodup
import Mathlib.Data.List.Count

namespace RoundRobin
variable {K : Type}

inductive Move (K : Type) where
  | join (k : K)
  | serve (k : K)
  | drop (k : K)
  | stay
deriving DecidableEq

inductive Turn : List K → Move K → List K → Prop
  | join {ks : List K} {k : K} (h : k ∉ ks) : Turn ks (.join k) (ks ++ [k])
  | serve {ks : List K} {k : K} : Turn (k :: ks) (.serve k) (ks ++ [k])
  | drop {ks : List K} {k : K} : Turn (k :: ks) (.drop k) ks
  | stay {ks : List K} : Turn ks .stay ks

inductive Turns : List K → List (Move K) → List K → Prop
  | nil (ks : List K) : Turns ks [] ks
  | cons {ks ls ms : List K} {v : Move K} {vs : List (Move K)} (h : Turn ks v ls)
      (hs : Turns ls vs ms) : Turns ks (v :: vs) ms

theorem turn_nodup {ks ls : List K} {v : Move K} (h : Turn ks v ls) (hn : ks.Nodup) : ls.Nodup := by
  cases h with
  | join hk => exact List.nodup_append.mpr ⟨hn, List.nodup_singleton _, by
      rintro a ha b hb rfl
      exact hk (by rwa [List.mem_singleton.mp hb] at ha)⟩
  | serve => exact (List.perm_append_singleton _ _).nodup_iff.mpr hn
  | drop => exact (List.nodup_cons.mp hn).2
  | stay => exact hn

theorem turn_pairwise {ks ls : List K} {v : Move K} {R S : K → K → Prop} (h : Turn ks v ls)
    (hn : ks.Nodup) (hk : ks.Pairwise R)
    (keep : ∀ i j, v ≠ .serve i → v ≠ .serve j → R i j → S i j)
    (join : ∀ i k, v = .join k → k ∉ ks → S i k)
    (serve : ∀ i k, v = .serve k → i ≠ k → S i k) : ls.Pairwise S := by
  cases h with
  | @join _ k hnew =>
    refine List.pairwise_append.mpr ⟨hk.imp (keep _ _ nofun nofun), List.pairwise_singleton _ _, ?_⟩
    intro i hi j hj
    rw [List.mem_singleton.mp hj]
    exact join i k rfl hnew
  | @serve rest k =>
    obtain ⟨hout, -⟩ := List.nodup_cons.mp hn
    have hne {i : K} (hi : i ∈ rest) : Move.serve k ≠ .serve i := by
      intro he
      exact hout (Move.serve.inj he ▸ hi)
    refine List.pairwise_append.mpr ⟨?_, List.pairwise_singleton _ _, ?_⟩
    · exact (List.pairwise_cons.mp hk).2.imp_of_mem fun hi hj => keep _ _ (hne hi) (hne hj)
    · intro i hi j hj
      rw [List.mem_singleton.mp hj]
      exact serve i k rfl (ne_of_mem_of_not_mem hi hout)
  | drop => exact (List.pairwise_cons.mp hk).2.imp (keep _ _ nofun nofun)
  | stay => exact hk.imp (keep _ _ nofun nofun)

variable [DecidableEq K]

def Passed (vs : List (Move K)) (j : K) : Prop :=
  vs.count (.serve j) = 1 ∧ vs.count (.drop j) = 0 ∨ vs.count (.serve j) = 0 ∧ vs.count (.drop j) = 1

def Untouched (vs : List (Move K)) (j : K) : Prop :=
  vs.count (.serve j) = 0 ∧ vs.count (.drop j) = 0

theorem passed_serve {vs : List (Move K)} {i : K} (h : Untouched vs i) :
    Passed (.serve i :: vs) i :=
  Or.inl ⟨by simp [h.1], by simp [h.2]⟩

theorem passed_drop {vs : List (Move K)} {i : K} (h : Untouched vs i) :
    Passed (.drop i :: vs) i :=
  Or.inr ⟨by simp [h.1], by simp [h.2]⟩

theorem count_cons_other (v : Move K) (vs : List (Move K)) (j : K) (hs : v ≠ .serve j)
    (hd : v ≠ .drop j) :
    (v :: vs).count (.serve j) = vs.count (.serve j) ∧
      (v :: vs).count (.drop j) = vs.count (.drop j) :=
  ⟨List.count_cons_of_ne hs, List.count_cons_of_ne hd⟩

theorem round {k : K} {ks ls : List K} {vs : List (Move K)} (h : Turns ks vs ls) :
    ∀ ahead behind tail : List K, ks = ahead ++ k :: behind → ls = k :: tail → ks.Nodup →
      Move.serve k ∉ vs → Move.drop k ∉ vs →
      ∀ j, j ≠ k → (j ∈ ahead → Passed vs j) ∧ (j ∉ ahead → Untouched vs j) := by
  induction h with
  | nil ks =>
    rintro ahead behind tail rfl hl hn _ _ j hj
    cases ahead with
    | nil => exact ⟨fun hm => absurd hm List.not_mem_nil, fun _ => ⟨rfl, rfl⟩⟩
    | cons i ahead =>
      obtain ⟨rfl, -⟩ := List.cons.inj hl
      exact absurd (by simp) (List.nodup_cons.mp hn).1
  | @cons ks ls ms v vs h hs ih =>
    rintro ahead behind tail rfl hl hn hserve hdrop j hj
    obtain ⟨hsk, hsv⟩ := not_or.mp (mt List.mem_cons.mpr hserve)
    obtain ⟨hdk, hdv⟩ := not_or.mp (mt List.mem_cons.mpr hdrop)
    have hnl := turn_nodup h hn
    generalize hks : ahead ++ k :: behind = ks at h hn
    cases h with
    | @join _ i hi =>
      have hrest := ih ahead (behind ++ [i]) tail (by simp [← hks]) hl hnl hsv hdv j hj
      obtain ⟨hc, hd⟩ := count_cons_other (.join i) vs j nofun nofun
      simpa only [Passed, Untouched, hc, hd] using hrest
    | stay =>
      have hrest := ih ahead behind tail hks.symm hl hnl hsv hdv j hj
      obtain ⟨hc, hd⟩ := count_cons_other .stay vs j nofun nofun
      simpa only [Passed, Untouched, hc, hd] using hrest
    | @serve rest i =>
      cases ahead with
      | nil => exact absurd (by rw [(List.cons.inj hks).1]) hsk
      | cons i' ahead =>
        obtain ⟨rfl, rfl⟩ := List.cons.inj hks
        have hrest := ih ahead (behind ++ [i']) tail (by simp) hl hnl hsv hdv j hj
        have hi : i' ∉ ahead := fun hm => (List.nodup_cons.mp hn).1 (List.mem_append_left _ hm)
        rcases eq_or_ne j i' with rfl | hji
        · exact ⟨fun _ => passed_serve (hrest.2 hi), fun hm => absurd (by simp) hm⟩
        · obtain ⟨hc, hd⟩ := count_cons_other (.serve i') vs j
            (by simpa using Ne.symm hji) nofun
          simpa only [Passed, Untouched, hc, hd, List.mem_cons, hji, false_or] using hrest
    | @drop rest i =>
      cases ahead with
      | nil => exact absurd (by rw [(List.cons.inj hks).1]) hdk
      | cons i' ahead =>
        obtain ⟨rfl, rfl⟩ := List.cons.inj hks
        have hrest := ih ahead behind tail rfl hl hnl hsv hdv j hj
        have hi : i' ∉ ahead := fun hm => (List.nodup_cons.mp hn).1 (List.mem_append_left _ hm)
        rcases eq_or_ne j i' with rfl | hji
        · exact ⟨fun _ => passed_drop (hrest.2 hi), fun hm => absurd (by simp) hm⟩
        · obtain ⟨hc, hd⟩ := count_cons_other (.drop i') vs j nofun
            (by simpa using Ne.symm hji)
          simpa only [Passed, Untouched, hc, hd, List.mem_cons, hji, false_or] using hrest

end RoundRobin
