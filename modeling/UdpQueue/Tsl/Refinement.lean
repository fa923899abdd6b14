import UdpQueue.Library.Fallible
import UdpQueue.Library.OrderedMap
import UdpQueue.Tsl.Erase
import UdpQueue.Tsl.Insert

namespace UdpQueue.Tsl

variable {K V : Type}

def toEntry (e : K × V) : Σ _ : K, V := ⟨e.1, e.2⟩

theorem keys_map_toEntry (values : List (K × V)) :
    (values.map toEntry).keys = values.map Prod.fst := by
  rw [List.keys, List.map_map]
  rfl

theorem kerase_toEntry [DecidableEq K] {values : List (K × V)} (hn : (values.map Prod.fst).Nodup)
    {idx : Nat} {k : K} {v : V} (h : values[idx]? = some (k, v)) :
    (values.map toEntry).kerase k = (values.eraseIdx idx).map toEntry := by
  induction values generalizing idx with
  | nil => simp at h
  | cons e values ih =>
    obtain ⟨hnew, hrest⟩ := List.nodup_cons.mp hn
    cases idx with
    | zero =>
      obtain rfl : e = (k, v) := by simpa using h
      exact List.kerase_cons_eq rfl
    | succ idx =>
      rw [List.getElem?_cons_succ] at h
      have hne : k ≠ (toEntry e).1 := by
        rintro rfl
        exact hnew (List.mem_map.mpr ⟨_, List.mem_of_getElem? h, rfl⟩)
      rw [List.map_cons, List.kerase_cons_ne hne, ih hrest h, List.eraseIdx_cons_succ, List.map_cons]

-- the table holds the map in its order
structure Represents (hash : K → SizeT) (t : OrderedHash K V) (m : OrderedMap K V) : Prop where
  valid : t.Valid hash
  entries : m.entries = t.values.map toEntry

namespace Represents
variable {hash : K → SizeT} {t : OrderedHash K V} {m : OrderedMap K V} (h : Represents hash t m)

theorem create (hash : K → SizeT) : Represents hash ({} : OrderedHash K V) ∅ :=
  ⟨OrderedHash.Valid.create hash, rfl⟩

include h

theorem keys : m.keys = t.values.map Prod.fst := by
  rw [AList.keys, h.entries, keys_map_toEntry]

theorem size : t.size = m.keys.length := by
  rw [h.keys, List.length_map, OrderedHash.size]

theorem mem {k : K} : k ∈ m ↔ k ∈ t.values.map Prod.fst := by
  rw [AList.mem_keys, h.keys]

theorem front : t.front = OrderedMap.front m := by
  rw [OrderedMap.front, h.entries, OrderedHash.front]
  cases t.values <;> rfl

variable [DecidableEq K] {k : K}

theorem lookup {v : V} : m.lookup k = some v ↔ ∃ idx : Nat, t.values[idx]? = some (k, v) := by
  rw [← List.mem_iff_getElem?]
  have hd : m.lookup k = some v ↔ (⟨k, v⟩ : Σ _ : K, V) ∈ m.entries := AList.mem_lookup_iff
  rw [hd, h.entries, List.mem_map]
  constructor
  · rintro ⟨⟨a, b⟩, hm, he⟩
    cases he
    exact hm
  · intro hm
    exact ⟨(k, v), hm, rfl⟩

theorem exists_index (hk : k ∈ m) :
    ∃ (idx : Nat) (v : V), m.lookup k = some v ∧ t.values[idx]? = some (k, v) := by
  obtain ⟨v, hv⟩ := Option.isSome_iff_exists.mp (AList.lookup_isSome.mpr hk)
  obtain ⟨idx, hidx⟩ := h.lookup.mp hv
  exact ⟨idx, v, hv, hidx⟩

theorem count : t.count hash k = some (if k ∈ m then 1 else 0) := by
  rw [OrderedHash.count]
  split_ifs with hk
  · obtain ⟨idx, v, -, hidx⟩ := h.exists_index hk
    obtain ⟨j, -, hfind, -⟩ := h.valid.findKey_of_mem hidx
    rw [hfind]
    rfl
  · rw [h.valid.findKey_of_notMem (mt h.mem.mpr hk)]
    rfl

theorem insert_present {w : V} (hw : m.lookup k = some w) (v : V) :
    ∃ idx : Nat, t.insertImpl hash (k, v) = some (t, idx, false) ∧ t.values[idx]? = some (k, w) := by
  obtain ⟨idx, hidx⟩ := h.lookup.mp hw
  exact ⟨idx, h.valid.insertImpl_of_mem hidx v, hidx⟩

theorem insert_new (hk : k ∉ m) (hs : m.keys.length < 2 ^ 28) (v : V) :
    ∃ t', t.insertImpl hash (k, v) = some (t', t.size, true) ∧
      Represents hash t' (OrderedMap.insert k v m) ∧ t'.values = t.values ++ [(k, v)] := by
  obtain ⟨t', h', hv', hval, -⟩ := h.valid.insertImpl_of_notMem (by rwa [h.size]) (mt h.mem.mpr hk) v
  refine ⟨t', h', ⟨hv', ?_⟩, hval⟩
  rw [OrderedMap.entries_insert_of_notMem hk, hval, h.entries, List.map_append]
  rfl

theorem erase : ∃ t', t.eraseImpl hash k = some (t', if k ∈ m then 1 else 0) ∧
    Represents hash t' (m.erase k) := by
  split_ifs with hk
  · obtain ⟨idx, v, -, hidx⟩ := h.exists_index hk
    obtain ⟨t', h', hv', hval, -⟩ := h.valid.eraseImpl_of_mem hidx
    refine ⟨t', h', hv', ?_⟩
    change m.entries.kerase k = _
    rw [h.entries, kerase_toEntry h.valid.keys hidx, hval]
  · refine ⟨t, h.valid.eraseImpl_of_notMem (mt h.mem.mpr hk), h.valid, ?_⟩
    change m.entries.kerase k = _
    rw [List.kerase_of_notMem_keys hk, h.entries]

end Represents

inductive MapOp (K V : Type) where
  | insert (key : K) (value : V)
  | erase (key : K)
  | count (key : K)
  | front

-- what an iterator points at, and the numbers returned
inductive MapResult (K V : Type) where
  | inserted (value : K × V) (new : Bool)
  | erased (n : Nat)
  | count (n : Nat)
  | front (value : Option (K × V))
deriving DecidableEq

variable [DecidableEq K]

def OrderedHash.apply (hash : K → SizeT) (t : OrderedHash K V) :
    MapOp K V → Option (OrderedHash K V × MapResult K V)
  | .insert key value => (t.insertImpl hash (key, value)).bind fun (t, index, new) =>
      t.values[index]?.map fun value => (t, .inserted value new)
  | .erase key => (t.eraseImpl hash key).map fun (t, n) => (t, .erased n)
  | .count key => (t.count hash key).map fun n => (t, .count n)
  | .front => some (t, .front t.front)

def hashTable (hash : K → SizeT) :
    Machine (Option (OrderedHash K V)) (MapOp K V) (Option (MapResult K V)) where
  step t op :=
    let r := t.bind (OrderedHash.apply hash · op)
    (r.map Prod.fst, r.map Prod.snd)

def orderedMap : Machine (OrderedMap K V) (MapOp K V) (MapResult K V) where
  step m
    | .insert key value =>
      (OrderedMap.insert key value m, .inserted (key, (m.lookup key).getD value) (key ∉ m))
    | .erase key => (m.erase key, .erased (if key ∈ m then 1 else 0))
    | .count key => (m, .count (if key ∈ m then 1 else 0))
    | .front => (m, .front (OrderedMap.front m))

theorem apply_represents {hash : K → SizeT} {t : OrderedHash K V} {m : OrderedMap K V}
    (h : Represents hash t m) (op : MapOp K V) (hs : (orderedMap.next m op).keys.length ≤ 2 ^ 28) :
    ∃ t', t.apply hash op = some (t', orderedMap.out m op) ∧
      Represents hash t' (orderedMap.next m op) := by
  cases op with
  | insert key value =>
    change (OrderedMap.insert key value m).keys.length ≤ 2 ^ 28 at hs
    change ∃ t', t.apply hash (.insert key value) =
      some (t', .inserted (key, (m.lookup key).getD value) (key ∉ m)) ∧
        Represents hash t' (OrderedMap.insert key value m)
    by_cases hk : key ∈ m
    · obtain ⟨w, hw⟩ := Option.isSome_iff_exists.mp (AList.lookup_isSome.mpr hk)
      obtain ⟨idx, hins, hidx⟩ := h.insert_present hw value
      refine ⟨t, ?_, by rwa [OrderedMap.insert_of_mem hk]⟩
      simp [OrderedHash.apply, hins, hidx, hw, hk]
    · rw [OrderedMap.keys_insert_of_notMem hk, List.length_append, List.length_singleton] at hs
      obtain ⟨t', hins, hr, hval⟩ := h.insert_new hk hs value
      refine ⟨t', ?_, hr⟩
      have hidx : t'.values[t.size]? = some (key, value) := by
        rw [hval, OrderedHash.size, List.getElem?_concat_length]
      simp [OrderedHash.apply, hins, hidx, hk, AList.lookup_eq_none.mpr hk]
  | erase key =>
    obtain ⟨t', h', hr⟩ := h.erase (k := key)
    refine ⟨t', ?_, hr⟩
    simp only [OrderedHash.apply, h', Option.map_some]
    rfl
  | count key =>
    refine ⟨t, ?_, h⟩
    simp only [OrderedHash.apply, h.count, Option.map_some]
    rfl
  | front => exact ⟨t, by rw [OrderedHash.apply, h.front]; rfl, h⟩

theorem orderedMap_keys_length (m : OrderedMap K V) (ops : List (MapOp K V)) :
    (orderedMap.run m ops).keys.length ≤ m.keys.length + ops.length := by
  induction ops generalizing m with
  | nil => simp
  | cons op ops ih =>
    have hone : (orderedMap.next m op).keys.length ≤ m.keys.length + 1 := by
      cases op with
      | insert key value =>
        change (OrderedMap.insert key value m).keys.length ≤ _
        by_cases hk : key ∈ m
        · rw [OrderedMap.insert_of_mem hk]
          omega
        · simp [OrderedMap.keys_insert_of_notMem hk]
      | erase key =>
        change (m.erase key).keys.length ≤ _
        have hle := List.length_erase_le (a := key) (l := m.keys)
        rw [AList.keys_erase]
        omega
      | count key => exact Nat.le_succ _
      | front => exact Nat.le_succ _
    have hrest := ih (orderedMap.next m op)
    rw [Machine.run_cons, List.length_cons]
    omega

theorem table_refines_map (hash : K → SizeT) (ops : List (MapOp K V))
    (hs : ∀ pre, pre <+: ops → (orderedMap.run (∅ : OrderedMap K V) pre).keys.length ≤ 2 ^ 28) :
    (hashTable hash).trace (some {}) ops = (orderedMap.trace ∅ ops).map some := by
  exact (Machine.fallible_agreement_while (f := OrderedHash.apply hash) (N := orderedMap)
    (R := Represents hash) (C := fun m => m.keys.length ≤ 2 ^ 28) id
    (fun _ _ op h hop => apply_represents h op hop) (Represents.create hash) ops hs).2

-- all keys collide, the last in a probing that wraps around
theorem table_refines_map_colliding :
    (hashTable (fun _ : Nat => 7)).trace (some {})
        [.insert 1 10, .insert 2 20, .insert 1 11, .insert 3 30, .erase 1, .count 1, .count 3, .front] =
      [some (.inserted (1, 10) true), some (.inserted (2, 20) true), some (.inserted (1, 10) false),
        some (.inserted (3, 30) true), some (.erased 1), some (.count 0), some (.count 1),
        some (.front (some (2, 20)))] := by
  rw [table_refines_map _ _ fun pre hpre => by
    have hrun := orderedMap_keys_length (∅ : OrderedMap Nat Nat) pre
    have hlen := hpre.length_le
    have hempty : (∅ : OrderedMap Nat Nat).keys.length = 0 := rfl
    simp only [List.length_cons, List.length_nil] at hlen
    omega]
  decide +kernel

end UdpQueue.Tsl
