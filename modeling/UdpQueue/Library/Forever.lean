import Mathlib.Logic.Basic

variable {S R : Type}

-- a loop without a condition of its own: the body goes on with new locals or leaves with a result
def forever (body : S → S ⊕ R) : Nat → S → Option R
  | 0, _ => none
  | fuel + 1, s =>
    match body s with
    | .inl s => forever body fuel s
    | .inr r => some r

theorem forever_spec {body : S → S ⊕ R} {P : S → Prop} {Q : R → Prop} {m : S → Nat}
    (hstep : ∀ s t, P s → body s = .inl t → P t ∧ m t < m s)
    (hexit : ∀ s r, P s → body s = .inr r → Q r) {s : S} (h : P s) {fuel : Nat} (hf : m s < fuel) :
    ∃ r, forever body fuel s = some r ∧ Q r := by
  induction fuel generalizing s with
  | zero => exact absurd hf (Nat.not_lt_zero _)
  | succ fuel ih =>
    rw [forever]
    cases hb : body s with
    | inl t =>
      obtain ⟨ht, hlt⟩ := hstep s t h hb
      exact ih ht (by omega)
    | inr r => exact ⟨r, rfl, hexit s r h hb⟩

theorem forever_eq {body : S → S ⊕ R} {P : S → Prop} {r : R} {m : S → Nat}
    (hstep : ∀ s t, P s → body s = .inl t → P t ∧ m t < m s)
    (hexit : ∀ s q, P s → body s = .inr q → q = r) {s : S} (h : P s) {fuel : Nat} (hf : m s < fuel) :
    forever body fuel s = some r := by
  obtain ⟨q, hq, rfl⟩ := forever_spec hstep hexit h hf
  exact hq
