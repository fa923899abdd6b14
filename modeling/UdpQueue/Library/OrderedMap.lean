import Mathlib.Data.List.AList

abbrev OrderedMap (K V : Type) := AList (fun _ : K => V)

namespace OrderedMap
variable {K V : Type}

def front (m : OrderedMap K V) : Option (K × V) := m.entries.head?.map (fun e => (e.1, e.2))

theorem front_eq_none {m : OrderedMap K V} : front m = none ↔ m.keys = [] := by
  simp [front, AList.keys, List.keys]

variable [DecidableEq K]

def insert (k : K) (v : V) (m : OrderedMap K V) : OrderedMap K V := m ∪ AList.singleton k v

theorem front_eq_some {m : OrderedMap K V} {k : K} {v : V} :
    front m = some (k, v) ↔ ∃ ks, m.keys = k :: ks ∧ m.lookup k = some v := by
  obtain ⟨l, hl⟩ := m
  cases l with
  | nil => simp [front, AList.keys]
  | cons e l =>
    obtain ⟨k', v'⟩ := e
    simp only [front, List.head?_cons, Option.map_some, Option.some.injEq, Prod.mk.injEq,
      AList.keys, List.keys_cons, List.cons.injEq, AList.lookup]
    constructor
    · rintro ⟨rfl, rfl⟩
      exact ⟨l.keys, ⟨rfl, rfl⟩, by simp⟩
    · rintro ⟨ks, ⟨rfl, rfl⟩, h⟩
      exact ⟨rfl, by simpa using h⟩

theorem front_lookup {m : OrderedMap K V} {k : K} {v : V} (h : front m = some (k, v)) :
    m.lookup k = some v := by
  obtain ⟨ks, hk, hl⟩ := front_eq_some.mp h
  exact hl

theorem front_keys {m : OrderedMap K V} {k : K} {v : V} (h : front m = some (k, v)) :
    m.keys = k :: m.keys.erase k := by
  obtain ⟨ks, hk, hl⟩ := front_eq_some.mp h
  simp [hk]

theorem insert_of_mem {k : K} {v : V} {m : OrderedMap K V} (h : k ∈ m) : insert k v m = m := by
  have drop (l : List (Σ _ : K, V)) (hl : k ∈ l.keys) : l.kunion [⟨k, v⟩] = l := by
    induction l with
    | nil => simp at hl
    | cons e l ih =>
      by_cases he : e.1 = k
      · simp [List.kerase_cons_eq (s := (⟨k, v⟩ : Σ _ : K, V)) he]
      · have hk : k ∈ l.keys := by simpa [Ne.symm he] using hl
        rw [List.kunion_cons, List.kerase_cons_ne (by simpa using he), List.kerase_nil, ih hk]
  exact AList.ext (drop m.entries h)

theorem entries_insert_of_notMem {k : K} {v : V} {m : OrderedMap K V} (h : k ∉ m) :
    (insert k v m).entries = m.entries ++ [⟨k, v⟩] := by
  have grow (l : List (Σ _ : K, V)) (hl : k ∉ l.keys) : l.kunion [⟨k, v⟩] = l ++ [⟨k, v⟩] := by
    induction l with
    | nil => rfl
    | cons e l ih =>
      simp only [List.keys_cons, List.mem_cons, not_or] at hl
      rw [List.kunion_cons, List.kerase_cons_ne (by simpa using Ne.symm hl.1), List.kerase_nil,
        ih hl.2, List.cons_append]
  exact grow m.entries h

theorem keys_insert_of_notMem {k : K} {v : V} {m : OrderedMap K V} (h : k ∉ m) :
    (insert k v m).keys = m.keys ++ [k] := by
  simp [AList.keys, entries_insert_of_notMem h, List.keys]

@[simp] theorem mem_insert {j k : K} {v : V} {m : OrderedMap K V} :
    j ∈ insert k v m ↔ j ∈ m ∨ j = k := by
  have hs : j ∈ (AList.singleton k v : OrderedMap K V) ↔ j = k := by
    rw [AList.mem_keys, AList.keys_singleton, List.mem_singleton]
  rw [insert, AList.mem_union, hs]

theorem dlookup_cons (j i : K) (w : V) (l : List (Σ _ : K, V)) :
    List.dlookup j (⟨i, w⟩ :: l) = if j = i then some w else l.dlookup j := by
  split_ifs with h
  · subst h
    exact @List.dlookup_cons_eq K (fun _ => V) _ l j w
  · exact List.dlookup_cons_ne l (⟨i, w⟩ : Σ _ : K, V) h

theorem lookup_insert (k : K) (v : V) (m : OrderedMap K V) :
    (insert k v m).lookup k = some ((m.lookup k).getD v) := by
  by_cases h : k ∈ m
  · obtain ⟨w, hw⟩ := Option.isSome_iff_exists.mp (AList.lookup_isSome.mpr h)
    simp [insert_of_mem h, hw]
  · rw [insert, AList.lookup_union_right h, AList.lookup_eq_none.mpr h]
    exact @List.dlookup_cons_eq K (fun _ => V) _ [] k v

theorem lookup_insert_ne {j k : K} (v : V) (m : OrderedMap K V) (h : j ≠ k) :
    (insert k v m).lookup j = m.lookup j := by
  by_cases hj : j ∈ m
  · rw [insert, AList.lookup_union_left hj]
  · rw [AList.lookup_eq_none.mpr hj, AList.lookup_eq_none, mem_insert]
    simp [hj, h]

theorem kreplace_cons (k i : K) (v w : V) (l : List (Σ _ : K, V)) :
    List.kreplace k v (⟨i, w⟩ :: l) =
      if k = i then ⟨k, v⟩ :: l else ⟨i, w⟩ :: List.kreplace k v l := by
  by_cases h : k = i
  · rw [if_pos h]
    exact List.lookmap_cons_some _ _ (by simp [h])
  · rw [if_neg h]
    exact List.lookmap_cons_none _ _ (by simp [h])

theorem lookup_replace_ne {j k : K} (v : V) (m : OrderedMap K V) (h : j ≠ k) :
    (m.replace k v).lookup j = m.lookup j := by
  obtain ⟨l, hl⟩ := m
  change (List.kreplace k v l).dlookup j = l.dlookup j
  clear hl
  induction l with
  | nil => rfl
  | cons e l ih =>
    obtain ⟨i, w⟩ := e
    rw [kreplace_cons, dlookup_cons j i]
    split_ifs with hk hj hj
    · exact absurd (hj.trans hk.symm) h
    · rw [dlookup_cons, if_neg h]
    · rw [dlookup_cons, if_pos hj]
    · rw [dlookup_cons, if_neg hj, ih]

theorem lookup_replace {k : K} (v : V) {m : OrderedMap K V} (h : k ∈ m) :
    (m.replace k v).lookup k = some v := by
  obtain ⟨l, hl⟩ := m
  have hk : k ∈ l.keys := h
  change (List.kreplace k v l).dlookup k = some v
  clear hl h
  induction l with
  | nil => simp at hk
  | cons e l ih =>
    obtain ⟨i, w⟩ := e
    rw [kreplace_cons]
    split_ifs with hi
    · rw [dlookup_cons, if_pos rfl]
    · have hk' : k ∈ l.keys := by simpa [hi] using hk
      rw [dlookup_cons, if_neg hi, ih hk']

theorem ext_lookup {m n : OrderedMap K V} (hk : m.keys = n.keys)
    (hl : ∀ k, m.lookup k = n.lookup k) : m = n := by
  obtain ⟨l, hnd⟩ := m
  obtain ⟨q, hnq⟩ := n
  refine AList.ext ?_
  change l.keys = q.keys at hk
  change ∀ k, l.dlookup k = q.dlookup k at hl
  change l = q
  induction l generalizing q with
  | nil => exact (List.map_eq_nil_iff.mp hk.symm).symm
  | cons e l ih =>
    obtain ⟨k, v⟩ := e
    cases q with
    | nil => cases hk
    | cons e q =>
      obtain ⟨j, w⟩ := e
      obtain ⟨rfl, hkeys⟩ := List.cons.inj hk
      rw [List.nodupKeys_cons] at hnd hnq
      have hhead := hl k
      rw [dlookup_cons, dlookup_cons, if_pos rfl, if_pos rfl] at hhead
      rw [Option.some.inj hhead, ih hnd.2 q hnq.2 hkeys fun i => ?_]
      rcases eq_or_ne i k with rfl | hi
      · rw [List.dlookup_eq_none.mpr hnd.1, List.dlookup_eq_none.mpr hnq.1]
      · have htail := hl i
        rwa [dlookup_cons, dlookup_cons, if_neg hi, if_neg hi] at htail

theorem replace_self {k : K} {v : V} {m : OrderedMap K V} (h : m.lookup k = some v) :
    m.replace k v = m := by
  refine ext_lookup (AList.keys_replace _ _ _) fun j => ?_
  rcases eq_or_ne j k with rfl | hj
  · rw [lookup_replace v (AList.lookup_isSome.mp (by rw [h]; rfl)), h]
  · exact lookup_replace_ne v m hj

theorem replace_replace (k : K) (v w : V) (m : OrderedMap K V) :
    (m.replace k v).replace k w = m.replace k w := by
  refine ext_lookup (by simp) fun j => ?_
  rcases eq_or_ne j k with rfl | hj
  · by_cases hm : j ∈ m
    · rw [lookup_replace w hm, lookup_replace w (AList.mem_replace.mpr hm)]
    · rw [AList.lookup_eq_none.mpr (mt AList.mem_replace.mp (mt AList.mem_replace.mp hm)),
        AList.lookup_eq_none.mpr (mt AList.mem_replace.mp hm)]
  · rw [lookup_replace_ne w _ hj, lookup_replace_ne v m hj, lookup_replace_ne w m hj]

theorem erase_replace (k : K) (v : V) (m : OrderedMap K V) : (m.replace k v).erase k = m.erase k := by
  refine ext_lookup (by simp [AList.keys_erase]) fun j => ?_
  rcases eq_or_ne j k with rfl | hj
  · rw [AList.lookup_erase, AList.lookup_erase]
  · rw [AList.lookup_erase_ne hj, AList.lookup_erase_ne hj, lookup_replace_ne v m hj]

theorem erase_of_notMem {k : K} {m : OrderedMap K V} (h : k ∉ m) : m.erase k = m := by
  refine ext_lookup ?_ fun j => ?_
  · rw [AList.keys_erase, List.erase_of_not_mem (mt AList.mem_keys.mpr h)]
  · rcases eq_or_ne j k with rfl | hj
    · rw [AList.lookup_erase, AList.lookup_eq_none.mpr h]
    · exact AList.lookup_erase_ne hj

theorem replace_insert {k : K} (v w : V) {m : OrderedMap K V} (h : k ∉ m) :
    (insert k v m).replace k w = insert k w m := by
  refine ext_lookup ?_ fun j => ?_
  · rw [AList.keys_replace, keys_insert_of_notMem h, keys_insert_of_notMem h]
  · rcases eq_or_ne j k with rfl | hj
    · rw [lookup_replace w (mem_insert.mpr (Or.inr rfl)), lookup_insert, AList.lookup_eq_none.mpr h]
      rfl
    · rw [lookup_replace_ne w _ hj, lookup_insert_ne v m hj, lookup_insert_ne w m hj]

end OrderedMap
