import UdpQueue.Library.OrderedMap
import Mathlib.Data.Option.Basic

variable {K V W : Type} [DecidableEq K]

-- the same keys in the same order, and related values under each
structure Matches (R : V → W → Prop) (m : OrderedMap K V) (n : OrderedMap K W) : Prop where
  keys : m.keys = n.keys
  lookup : ∀ k, Option.Rel R (m.lookup k) (n.lookup k)

namespace Matches
variable {R : V → W → Prop} {m : OrderedMap K V} {n : OrderedMap K W} {k : K} {v : V} {w : W}

theorem empty (R : V → W → Prop) : Matches R (∅ : OrderedMap K V) ∅ :=
  ⟨rfl, fun _ => .none⟩

variable (h : Matches R m n)
include h

theorem mem : k ∈ m ↔ k ∈ n := by
  rw [AList.mem_keys, h.keys, AList.mem_keys]

theorem find (hw : n.lookup k = some w) : ∃ v, m.lookup k = some v ∧ R v w := by
  have hk := h.lookup k
  rw [hw] at hk
  generalize m.lookup k = o at hk
  cases hk with
  | some hr => exact ⟨_, rfl, hr⟩

theorem front_none (hf : OrderedMap.front n = none) : OrderedMap.front m = none := by
  rw [OrderedMap.front_eq_none] at hf ⊢
  rw [h.keys, hf]

theorem front_some (hf : OrderedMap.front n = some (k, w)) :
    ∃ v, OrderedMap.front m = some (k, v) ∧ R v w := by
  obtain ⟨ks, hk, hw⟩ := OrderedMap.front_eq_some.mp hf
  obtain ⟨v, hv, hr⟩ := h.find hw
  exact ⟨v, OrderedMap.front_eq_some.mpr ⟨ks, h.keys.trans hk, hv⟩, hr⟩

theorem replace (hr : R v w) : Matches R (m.replace k v) (n.replace k w) where
  keys := by rw [AList.keys_replace, AList.keys_replace, h.keys]
  lookup j := by
    rcases eq_or_ne j k with rfl | hj
    · by_cases hj : j ∈ n
      · rw [OrderedMap.lookup_replace v (h.mem.mpr hj), OrderedMap.lookup_replace w hj]
        exact .some hr
      · rw [AList.lookup_eq_none.mpr (mt AList.mem_replace.mp hj),
          AList.lookup_eq_none.mpr (mt AList.mem_replace.mp (mt h.mem.mp hj))]
        exact .none
    · rw [OrderedMap.lookup_replace_ne v m hj, OrderedMap.lookup_replace_ne w n hj]
      exact h.lookup j

theorem erase (k : K) : Matches R (m.erase k) (n.erase k) where
  keys := by rw [AList.keys_erase, AList.keys_erase, h.keys]
  lookup j := by
    rcases eq_or_ne j k with rfl | hj
    · rw [AList.lookup_erase, AList.lookup_erase]
      exact .none
    · rw [AList.lookup_erase_ne hj, AList.lookup_erase_ne hj]
      exact h.lookup j

theorem insert (hr : R v w) : Matches R (OrderedMap.insert k v m) (OrderedMap.insert k w n) := by
  by_cases hk : k ∈ n
  · rwa [OrderedMap.insert_of_mem hk, OrderedMap.insert_of_mem (h.mem.mpr hk)]
  · refine ⟨?_, fun j => ?_⟩
    · rw [OrderedMap.keys_insert_of_notMem hk, OrderedMap.keys_insert_of_notMem (mt h.mem.mp hk), h.keys]
    · rcases eq_or_ne j k with rfl | hj
      · rw [OrderedMap.lookup_insert, OrderedMap.lookup_insert, AList.lookup_eq_none.mpr hk,
          AList.lookup_eq_none.mpr (mt h.mem.mp hk)]
        exact .some hr
      · rw [OrderedMap.lookup_insert_ne v m hj, OrderedMap.lookup_insert_ne w n hj]
        exact h.lookup j

end Matches
