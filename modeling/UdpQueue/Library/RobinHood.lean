import Mathlib.Data.Finset.Card
import Mathlib.Logic.Function.Basic
import Mathlib.Tactic.SplitIfs

namespace RobinHood
variable {n : Nat}

def next (n i : Nat) : Nat := if i + 1 < n then i + 1 else 0
def gap (n h i : Nat) : Nat := if h ≤ i then i - h else n + i - h

theorem next_lt {i : Nat} (h : i < n) : next n i < n := by
  rw [next]
  split_ifs <;> omega

theorem exists_next {j : Nat} (h : j < n) : ∃ i < n, next n i = j := by
  rcases Nat.eq_zero_or_pos j with rfl | hj
  · exact ⟨n - 1, by omega, by rw [next, if_neg (by omega)]⟩
  · exact ⟨j - 1, by omega, by rw [next, if_pos (by omega)]; omega⟩

theorem next_injective {i j : Nat} (hi : i < n) (hj : j < n) (h : next n i = next n j) : i = j := by
  simp only [next] at h
  split_ifs at h <;> omega

theorem gap_lt {h i : Nat} (hh : h < n) (hi : i < n) : gap n h i < n := by
  rw [gap]
  split_ifs <;> omega

@[simp] theorem gap_self (h : Nat) : gap n h h = 0 := by simp [gap]

theorem gap_eq_zero {h i : Nat} (hh : h < n) : gap n h i = 0 ↔ h = i := by
  rw [gap]
  split_ifs <;> omega

theorem gap_injective {h i j : Nat} (hh : h < n) (hi : i < n) (hj : j < n)
    (he : gap n h i = gap n h j) : i = j := by
  simp only [gap] at he
  split_ifs at he <;> omega

theorem gap_next {h i : Nat} (hh : h < n) (hi : i < n) (hl : gap n h i + 1 < n) :
    gap n h (next n i) = gap n h i + 1 := by
  simp only [gap, next] at hl ⊢
  split_ifs at hl ⊢ <;> omega

theorem gap_next_ne {h i : Nat} (hh : h < n) (hi : i < n) (hn : next n i ≠ h) :
    gap n h (next n i) = gap n h i + 1 := by
  simp only [gap, next] at hn ⊢
  split_ifs at hn ⊢ <;> omega

theorem gap_from_next {i j : Nat} (hi : i < n) (hj : j < n) (hn : i ≠ j) :
    gap n (next n i) j + 1 = gap n i j := by
  simp only [gap, next]
  split_ifs <;> omega

-- `rank` is zero in an empty slot and one more than the distance from the ideal slot in a full one
def Graded (n : Nat) (rank : Nat → Nat) : Prop := ∀ i < n, rank (next n i) ≤ rank i + 1

namespace Graded
variable {rank : Nat → Nat} (hg : Graded n rank)
include hg

theorem below_empty {e : Nat} (he : e < n) (h0 : rank e = 0) {j : Nat} (hj : j < n) :
    rank j ≤ gap n e j := by
  induction hd : gap n e j using Nat.strongRecOn generalizing j with
  | ind d ih =>
    by_cases hej : e = j
    · subst hej
      omega
    · obtain ⟨i, hi, rfl⟩ := exists_next hj
      have hgap := gap_next_ne he hi (Ne.symm hej)
      have hi' := ih (gap n e i) (by omega) hi rfl
      have hstep := hg i hi
      omega

theorem rank_lt {e : Nat} (he : e < n) (h0 : rank e = 0) {j : Nat} (hj : j < n) : rank j < n :=
  Nat.lt_of_le_of_lt (hg.below_empty he h0 hj) (gap_lt he hj)

-- a rank above zero has the ranks below it in the slots before, up to the empty one
theorem rank_le_card {e : Nat} (he : e < n) (h0 : rank e = 0) {j : Nat} (hj : j < n) :
    rank j ≤ ((Finset.range n).filter fun i => 0 < rank i ∧ gap n e i ≤ gap n e j).card := by
  induction hd : gap n e j using Nat.strongRecOn generalizing j with
  | ind d ih =>
    rcases Nat.eq_zero_or_pos (rank j) with hr | hr
    · rw [hr]
      exact Nat.zero_le _
    · have hej : e ≠ j := by
        rintro rfl
        omega
      obtain ⟨i, hi, rfl⟩ := exists_next hj
      have hgap := gap_next_ne he hi (Ne.symm hej)
      have hstep := hg i hi
      have hi' := ih (gap n e i) (by omega) hi rfl
      have hnew : next n i ∉ (Finset.range n).filter fun p => 0 < rank p ∧ gap n e p ≤ gap n e i := by
        simp only [Finset.mem_filter, not_and]
        omega
      have hle := Finset.card_le_card (s := insert (next n i)
          ((Finset.range n).filter fun p => 0 < rank p ∧ gap n e p ≤ gap n e i))
        (t := (Finset.range n).filter fun p => 0 < rank p ∧ gap n e p ≤ d) (by
          intro p hp
          rw [Finset.mem_insert, Finset.mem_filter] at hp
          rw [Finset.mem_filter]
          rcases hp with rfl | ⟨hp, hpos, hle⟩
          · exact ⟨Finset.mem_range.mpr hj, hr, by omega⟩
          · exact ⟨hp, hpos, by omega⟩)
      rw [Finset.card_insert_of_notMem hnew] at hle
      omega

theorem rank_le_full {e : Nat} (he : e < n) (h0 : rank e = 0) {j : Nat} (hj : j < n) :
    rank j ≤ ((Finset.range n).filter fun i => 0 < rank i).card := by
  refine Nat.le_trans (hg.rank_le_card he h0 hj) (Finset.card_le_card ?_)
  exact Finset.monotone_filter_right _ fun i _ h => h.1

theorem on_path {h j : Nat} (hh : h < n) (hj : j < n) (hr : gap n h j < rank j) {i : Nat} (hi : i < n)
    (hp : gap n h i ≤ gap n h j) : gap n h i < rank i := by
  induction hd : gap n h j - gap n h i generalizing i with
  | zero =>
    have hij : i = j := gap_injective hh hi hj (by omega)
    exact hij ▸ hr
  | succ d ih =>
    have hlt := gap_lt hh hj
    have hgap := gap_next hh hi (by omega)
    have hnext := ih (next_lt hi) (by omega) (by omega)
    have hstep := hg i hi
    omega

theorem raise {i d : Nat} (hi : i < n) (hd : ∀ p < n, next n p = i → d ≤ rank p)
    (hr : rank i ≤ d + 1) :
    Graded n (Function.update rank i (d + 1)) := by
  intro p hp
  have hstep := hg p hp
  by_cases hpi : p = i
  · subst hpi
    by_cases hnp : next n p = p
    · simp [hnp]
    · rw [Function.update_of_ne hnp, Function.update_self]
      omega
  · rw [Function.update_of_ne hpi]
    by_cases hni : next n p = i
    · rw [hni, Function.update_self]
      have := hd p hp hni
      omega
    · rwa [Function.update_of_ne hni]

end Graded

structure Holed (n : Nat) (rank : Nat → Nat) (hole : Nat) : Prop where
  empty : rank hole = 0
  graded : ∀ i < n, i ≠ hole → rank (next n i) ≤ rank i + 1
  across : ∀ p < n, next n p = hole → rank (next n hole) ≤ rank p + 2

theorem Graded.holed {rank : Nat → Nat} (hg : Graded n rank) {i : Nat} (hi : i < n) :
    Holed n (Function.update rank i 0) i where
  empty := Function.update_self _ _ _
  graded p hp hpi := by
    rw [Function.update_of_ne hpi]
    by_cases hni : next n p = i
    · simp [hni]
    · rw [Function.update_of_ne hni]
      exact hg p hp
  across p hp hnp := by
    by_cases hni : next n i = i
    · simp [hni]
    · have hpi : p ≠ i := by
        rintro rfl
        exact hni hnp
      rw [Function.update_of_ne hni, Function.update_of_ne hpi]
      have h1 := hg p hp
      have h2 := hg i hi
      rw [hnp] at h1
      omega

namespace Holed
variable {rank : Nat → Nat} {hole : Nat} (hh : Holed n rank hole)
include hh

theorem close (hc : rank (next n hole) ≤ 1) : Graded n rank := by
  intro i hi
  by_cases h : i = hole
  · subst h
    omega
  · exact hh.graded i hi h

theorem shift (hl : hole < n) (hc : 1 < rank (next n hole)) :
    Holed n (Function.update (Function.update rank hole (rank (next n hole) - 1)) (next n hole) 0)
      (next n hole) := by
  have hne : hole ≠ next n hole := by
    intro h
    rw [← h, hh.empty] at hc
    omega
  refine ⟨Function.update_self _ _ _, ?_, ?_⟩
  · intro i hi hin
    rw [Function.update_of_ne hin]
    by_cases hio : i = hole
    · subst hio
      simp
    · rw [Function.update_of_ne hio]
      have hnn : next n i ≠ next n hole := fun h => hio (next_injective hi hl h)
      rw [Function.update_of_ne hnn]
      by_cases hnh : next n i = hole
      · rw [hnh, Function.update_self]
        have := hh.across i hi hnh
        omega
      · rw [Function.update_of_ne hnh]
        exact hh.graded i hi hio
  · intro p hp hnp
    obtain rfl := next_injective hp hl hnp
    have hstep := hh.graded (next n p) (next_lt hl) (Ne.symm hne)
    rw [Function.update_of_ne hne, Function.update_self]
    by_cases hnn : next n (next n p) = next n p
    · rw [hnn, Function.update_self]
      omega
    · rw [Function.update_of_ne hnn]
      by_cases hno : next n (next n p) = p
      · rw [hno, Function.update_self]
        omega
      · rw [Function.update_of_ne hno]
        omega

end Holed

end RobinHood
