import Mathlib.Data.List.Basic

-- an array of `new`: a cell is `none` until it is written
structure Block (T : Type) (n : Nat) where
  cells : List (Option T)
  size_eq : cells.length = n
deriving DecidableEq

namespace Block
variable {T : Type} {n : Nat}

def alloc (n : Nat) : Block T n := ⟨List.replicate n none, List.length_replicate⟩

-- `none`: outside the array, or a cell never written
def read (b : Block T n) (i : Nat) : Option T := b.cells[i]?.join

def write (b : Block T n) (i : Nat) (x : T) : Option (Block T n) :=
  if i < n then some ⟨b.cells.set i (some x), by rw [List.length_set, b.size_eq]⟩ else none

-- a loop that assigns `source i` to `b[i]`, `count` times from `i`
def fill (source : Nat → Option T) : Nat → Nat → Block T n → Option (Block T n)
  | 0, _, b => some b
  | count + 1, i, b => do
    let x ← source i
    let b ← b.write i x
    fill source count (i + 1) b

-- the first `count` cells into a new array of `m`
def copy (b : Block T n) (count m : Nat) : Option (Block T m) :=
  if h : count ≤ n ∧ count ≤ m then
    some ⟨b.cells.take count ++ List.replicate (m - count) none, by
      rw [List.length_append, List.length_take, List.length_replicate, b.size_eq]
      omega⟩
  else none

def slice (b : Block T n) : Nat → Nat → Option (List T)
  | 0, _ => some []
  | count + 1, i => do
    let x ← b.read i
    let xs ← b.slice count (i + 1)
    some (x :: xs)

def Holds (b : Block T n) (xs : List T) : Prop := xs.map some <+: b.cells

theorem Holds.length_le {b : Block T n} {xs : List T} (h : b.Holds xs) : xs.length ≤ n := by
  have hle := List.IsPrefix.length_le h
  rwa [List.length_map, b.size_eq] at hle

theorem holds_nil (b : Block T n) : b.Holds [] := List.nil_prefix

theorem Holds.read {b : Block T n} {xs : List T} (h : b.Holds xs) {i : Nat} (hi : i < xs.length) :
    b.read i = xs[i]? := by
  obtain ⟨rest, hcells⟩ := h
  have hmap : i < (xs.map some).length := by rwa [List.length_map]
  rw [Block.read, ← hcells, List.getElem?_append_left hmap, List.getElem?_map]
  cases xs[i]? <;> rfl

theorem fill_append (source : Nat → Option T) (b : Block T n) (done todo : List T)
    (rest : List (Option T)) (hb : b.cells = done.map some ++ rest) (hr : todo.length ≤ rest.length)
    (hs : ∀ j, j < todo.length → source (done.length + j) = todo[j]?) :
    ∃ b', fill source todo.length done.length b = some b' ∧ b'.Holds (done ++ todo) := by
  induction todo generalizing b done rest with
  | nil => exact ⟨b, rfl, by rw [List.append_nil]; exact ⟨rest, hb.symm⟩⟩
  | cons x todo ih =>
    cases rest with
    | nil => simp at hr
    | cons c rest =>
      have hx : source done.length = some x := hs 0 (Nat.succ_pos _)
      have hlt : done.length < n := by
        have hlen := congrArg List.length hb
        rw [b.size_eq, List.length_append, List.length_map, List.length_cons] at hlen
        omega
      have hset : b.cells.set done.length (some x) = (done ++ [x]).map some ++ rest := by
        rw [hb, List.set_append_right _ _ (by simp)]
        simp
      obtain ⟨b', hfill, hholds⟩ := ih
        ⟨b.cells.set done.length (some x), by rw [List.length_set, b.size_eq]⟩
        (done ++ [x]) rest hset (Nat.le_of_succ_le_succ hr) fun j hj => by
          have hnext := hs (j + 1) (Nat.succ_lt_succ hj)
          rw [List.length_append, List.length_singleton, Nat.add_assoc, Nat.add_comm 1 j, hnext,
            List.getElem?_cons_succ]
      rw [List.length_append, List.length_singleton] at hfill
      refine ⟨b', ?_, by rwa [List.append_assoc] at hholds⟩
      rw [List.length_cons, fill, hx]
      simp only [Option.bind_eq_bind, Option.bind_some, write, if_pos hlt]
      exact hfill

theorem fill_holds {source : Nat → Option T} (b : Block T n) {xs : List T}
    (hs : ∀ i, i < xs.length → source i = xs[i]?) (hn : xs.length ≤ n) :
    ∃ b', fill source xs.length 0 b = some b' ∧ b'.Holds xs :=
  fill_append source b [] xs b.cells rfl (Nat.le_trans hn (Nat.le_of_eq b.size_eq.symm)) fun j hj => by
    rw [List.length_nil, Nat.zero_add, hs j hj]

theorem bounds_of_fill {source : Nat → Option T} {b b' : Block T n} {count i : Nat}
    (h : fill source count i b = some b') (j : Nat) (hj : j < count) :
    i + j < n ∧ (source (i + j)).isSome := by
  induction count generalizing b i j with
  | zero => exact absurd hj (Nat.not_lt_zero j)
  | succ count ih =>
    rw [fill] at h
    obtain ⟨x, hx, h⟩ := Option.bind_eq_some_iff.mp h
    obtain ⟨c, hw, h⟩ := Option.bind_eq_some_iff.mp h
    cases j with
    | zero =>
      rw [Nat.add_zero]
      refine ⟨?_, by rw [hx]; rfl⟩
      by_contra hno
      rw [write, if_neg hno] at hw
      cases hw
    | succ j =>
      have hrest := ih h j (Nat.lt_of_succ_lt_succ hj)
      rwa [Nat.add_assoc, Nat.add_comm 1 j] at hrest

theorem Holds.copy {b : Block T n} {xs : List T} (h : b.Holds xs) {m : Nat} (hm : xs.length ≤ m) :
    ∃ b', b.copy xs.length m = some b' := by
  rw [Block.copy, dif_pos ⟨h.length_le, hm⟩]
  exact ⟨_, rfl⟩

theorem slice_append (b : Block T n) (done todo : List T) (h : b.Holds (done ++ todo)) :
    b.slice todo.length done.length = some todo := by
  induction todo generalizing done with
  | nil => rfl
  | cons x todo ih =>
    have hx : b.read done.length = some x := by
      rw [h.read (by simp), List.getElem?_append_right (Nat.le_refl _), Nat.sub_self,
        List.getElem?_cons_zero]
    have hrest := ih (done ++ [x]) (by rwa [List.append_assoc])
    rw [List.length_append, List.length_singleton] at hrest
    rw [List.length_cons, slice, hx]
    simp only [Option.bind_eq_bind, Option.bind_some, hrest]

theorem Holds.slice {b : Block T n} {xs : List T} (h : b.Holds xs) :
    b.slice xs.length 0 = some xs :=
  slice_append b [] xs h

end Block
