import Mathlib.Logic.Function.Basic
import UdpQueue.Library.OrderedMap

variable {K V : Type} [DecidableEq K]

-- a map of references into a heap, no two alike, stands for the map of what they point at
structure Shares (heap : Nat → Option V) (refs : OrderedMap K Nat) (items : OrderedMap K V) : Prop where
  keys : items.keys = refs.keys
  lookup : ∀ k, items.lookup k = (refs.lookup k).bind heap
  distinct : ∀ j k r, refs.lookup j = some r → refs.lookup k = some r → j = k

namespace Shares
variable {heap : Nat → Option V} {refs : OrderedMap K Nat} {items : OrderedMap K V} {k : K} {r : Nat}

theorem empty (heap : Nat → Option V) : Shares heap (∅ : OrderedMap K Nat) ∅ :=
  ⟨rfl, fun _ => rfl, fun _ _ _ h => by cases h⟩

variable (h : Shares heap refs items)
include h

theorem mem : k ∈ items ↔ k ∈ refs := by
  rw [AList.mem_keys, h.keys, AList.mem_keys]

theorem points (hr : refs.lookup k = some r) : ∃ v, heap r = some v ∧ items.lookup k = some v := by
  have hk : k ∈ items := h.mem.mpr (AList.lookup_isSome.mp (by rw [hr]; rfl))
  obtain ⟨v, hv⟩ := Option.isSome_iff_exists.mp (AList.lookup_isSome.mpr hk)
  refine ⟨v, ?_, hv⟩
  rw [h.lookup, hr] at hv
  exact hv

theorem front_none (hf : OrderedMap.front refs = none) : OrderedMap.front items = none := by
  rw [OrderedMap.front_eq_none] at hf ⊢
  rw [h.keys, hf]

theorem front_some (hf : OrderedMap.front refs = some (k, r)) :
    ∃ v, heap r = some v ∧ OrderedMap.front items = some (k, v) := by
  obtain ⟨ks, hk, hr⟩ := OrderedMap.front_eq_some.mp hf
  obtain ⟨v, hv, hi⟩ := h.points hr
  exact ⟨v, hv, OrderedMap.front_eq_some.mpr ⟨ks, h.keys.trans hk, hi⟩⟩

theorem write (hr : refs.lookup k = some r) (v : V) :
    Shares (Function.update heap r (some v)) refs (items.replace k v) where
  keys := (AList.keys_replace _ _ _).trans h.keys
  lookup j := by
    rcases eq_or_ne j k with rfl | hj
    · have hm : j ∈ items := h.mem.mpr (AList.lookup_isSome.mp (by rw [hr]; rfl))
      simp [OrderedMap.lookup_replace v hm, hr]
    · rw [OrderedMap.lookup_replace_ne v items hj, h.lookup]
      cases hs : refs.lookup j with
      | none => rfl
      | some s =>
        have hne : s ≠ r := by
          rintro rfl
          exact hj (h.distinct j k s hs hr)
        simp [Function.update_of_ne hne]
  distinct := h.distinct

theorem ignore (hr : ∀ j, refs.lookup j ≠ some r) (v : Option V) :
    Shares (Function.update heap r v) refs items where
  keys := h.keys
  lookup j := by
    rw [h.lookup]
    cases hs : refs.lookup j with
    | none => rfl
    | some s =>
      have hne : s ≠ r := by
        rintro rfl
        exact hr j hs
      simp [Function.update_of_ne hne]
  distinct := h.distinct

theorem erase (k : K) : Shares heap (refs.erase k) (items.erase k) where
  keys := by rw [AList.keys_erase, AList.keys_erase, h.keys]
  lookup j := by
    rcases eq_or_ne j k with rfl | hj
    · simp
    · rw [AList.lookup_erase_ne hj, AList.lookup_erase_ne hj, h.lookup]
  distinct i j s hi hj := by
    have hne {l : K} (hl : (refs.erase k).lookup l = some s) : refs.lookup l = some s := by
      rcases eq_or_ne l k with rfl | hlk
      · simp at hl
      · rwa [AList.lookup_erase_ne hlk] at hl
    exact h.distinct i j s (hne hi) (hne hj)

theorem insert (hk : k ∉ refs) (hr : ∀ j, refs.lookup j ≠ some r) {v : V} (hv : heap r = some v) :
    Shares heap (OrderedMap.insert k r refs) (OrderedMap.insert k v items) where
  keys := by
    rw [OrderedMap.keys_insert_of_notMem hk, OrderedMap.keys_insert_of_notMem (mt h.mem.mp hk), h.keys]
  lookup j := by
    rcases eq_or_ne j k with rfl | hj
    · simp [OrderedMap.lookup_insert, AList.lookup_eq_none.mpr hk,
        AList.lookup_eq_none.mpr (mt h.mem.mp hk), hv]
    · rw [OrderedMap.lookup_insert_ne v items hj, OrderedMap.lookup_insert_ne r refs hj, h.lookup]
  distinct i j s hi hj := by
    have hcase {l : K} (hl : (OrderedMap.insert k r refs).lookup l = some s) :
        l = k ∧ s = r ∨ refs.lookup l = some s := by
      rcases eq_or_ne l k with rfl | hlk
      · rw [OrderedMap.lookup_insert, AList.lookup_eq_none.mpr hk] at hl
        exact Or.inl ⟨rfl, (Option.some.inj hl).symm⟩
      · exact Or.inr (by rwa [OrderedMap.lookup_insert_ne r refs hlk] at hl)
    rcases hcase hi with ⟨rfl, rfl⟩ | hi'
    · rcases hcase hj with ⟨rfl, -⟩ | hj'
      · rfl
      · exact absurd hj' (hr j)
    · rcases hcase hj with ⟨rfl, rfl⟩ | hj'
      · exact absurd hi' (hr i)
      · exact h.distinct i j s hi' hj'

end Shares
