import Mathlib.Logic.Function.Basic

inductive Mutex (Owner : Type) where
  | free
  | held (owner : Owner)
  | destroyed
deriving DecidableEq

namespace Mutex
variable {Owner : Type}

-- `none` while another owner holds it; a destroyed mutex lets anyone through
def lock (owner : Owner) : Mutex Owner → Option (Mutex Owner)
  | free => some (held owner)
  | held _ => none
  | destroyed => some destroyed

def unlock : Mutex Owner → Mutex Owner
  | destroyed => destroyed
  | _ => free

theorem lock_eq_some {owner : Owner} {m m' : Mutex Owner} (h : m.lock owner = some m')
    (hm : m ≠ destroyed) : m = free ∧ m' = held owner := by
  cases m with
  | free => exact ⟨rfl, (Option.some.inj h).symm⟩
  | held other => cases h
  | destroyed => exact absurd rfl hm

theorem unlock_ne_destroyed {m : Mutex Owner} (hm : m ≠ destroyed) : m.unlock ≠ destroyed := by
  cases m with
  | destroyed => exact absurd rfl hm
  | _ => exact nofun

end Mutex
