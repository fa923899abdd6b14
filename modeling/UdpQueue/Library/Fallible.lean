import UdpQueue.Library.Machine

namespace Machine
variable {S T I J O P : Type}

def fallible (f : S → I → Option (S × O)) : Machine (Option S) I (Option O) where
  step s i :=
    let r := s.bind (f · i)
    (r.map Prod.fst, r.map Prod.snd)

variable {f : S → I → Option (S × O)}

theorem fallible_step {s s' : S} {i : I} {o : O} (h : f s i = some (s', o)) :
    (fallible f).next (some s) i = some s' ∧ (fallible f).out (some s) i = some o := by
  simp only [next, out, fallible, Option.bind_some, h, Option.map_some, and_self]

theorem stopped_run (is : List I) : (fallible f).run none is = none := by
  induction is with
  | nil => rfl
  | cons i is ih => exact ih

theorem stopped_trace (is : List I) : (fallible f).trace none is = is.map fun _ => none := by
  induction is with
  | nil => rfl
  | cons i is ih => exact congrArg (none :: ·) ih

theorem applied_of_run {s : Option S} {is : List I} (h : ((fallible f).run s is).isSome) {i : I}
    (hi : i ∈ is) : ∃ t r, f t i = some r := by
  obtain ⟨pre, post, rfl⟩ := List.append_of_mem hi
  rw [run_append, run_cons] at h
  have hnext : (fallible f).next ((fallible f).run s pre) i ≠ none := by
    intro hnone
    rw [hnone, stopped_run] at h
    cases h
  obtain ⟨s', hs'⟩ := Option.ne_none_iff_exists'.mp hnext
  obtain ⟨r, hr, -⟩ := Option.map_eq_some_iff.mp hs'
  obtain ⟨t, -, happly⟩ := Option.bind_eq_some_iff.mp hr
  exact ⟨t, r, happly⟩

theorem fallible_agreement {N : Machine T J P} (input : I → J) (see : P → O) {R : S → T → Prop}
    {ok : I → Prop}
    (hstep : ∀ s t i, R s t → ok i →
      ∃ s', f s i = some (s', see (N.out t (input i))) ∧ R s' (N.next t (input i)))
    {s : S} {t : T} (h : R s t) (is : List I) (hok : ∀ i ∈ is, ok i) :
    (∃ s', (fallible f).run (some s) is = some s' ∧ R s' (N.run t (is.map input))) ∧
      (fallible f).trace (some s) is = (N.trace t (is.map input)).map fun o => some (see o) := by
  induction is generalizing s t with
  | nil => exact ⟨⟨s, rfl, h⟩, rfl⟩
  | cons i is ih =>
    obtain ⟨hone, hmany⟩ := List.forall_mem_cons.mp hok
    obtain ⟨s', hs', hnext⟩ := hstep s t i h hone
    obtain ⟨hrun, htrace⟩ := ih hnext hmany
    obtain ⟨hn, ho⟩ := fallible_step hs'
    simp only [List.map_cons, run_cons, trace_cons, hn, ho]
    exact ⟨hrun, by rw [htrace]⟩

theorem fallible_cut {N : Machine S J O} {g : I → J}
    (hf : ∀ s i r, f s i = some r → r = N.step s (g i)) (s : S) (is : List I) :
    ∃ pre post, is = pre ++ post ∧
      (fallible f).trace (some s) is =
        (N.trace s (pre.map g)).map some ++ post.map (fun _ => none) ∧
      (post = [] ∨ ∃ i rest, post = i :: rest ∧ f (N.run s (pre.map g)) i = none) := by
  induction is generalizing s with
  | nil => exact ⟨[], [], rfl, rfl, Or.inl rfl⟩
  | cons i is ih =>
    cases hr : f s i with
    | none =>
      refine ⟨[], i :: is, rfl, ?_, Or.inr ⟨i, is, rfl, hr⟩⟩
      have hstep : (fallible f).step (some s) i = (none, none) := by
        simp only [fallible, Option.bind_some, hr, Option.map_none]
      rw [trace_cons, next, out, hstep, stopped_trace]
      rfl
    | some r =>
      obtain rfl := hf s i r hr
      obtain ⟨hn, ho⟩ := fallible_step hr
      obtain ⟨pre, post, rfl, htrace, hcut⟩ := ih (N.next s (g i))
      refine ⟨i :: pre, post, rfl, ?_, hcut⟩
      rw [trace_cons, hn, ho]
      exact congrArg (some _ :: ·) htrace

theorem fallible_agreement_while {N : Machine T I P} (see : P → O) {R : S → T → Prop} {C : T → Prop}
    (hstep : ∀ s t i, R s t → C (N.next t i) →
      ∃ s', f s i = some (s', see (N.out t i)) ∧ R s' (N.next t i))
    {s : S} {t : T} (h : R s t) (is : List I) (hC : ∀ pre, pre <+: is → C (N.run t pre)) :
    (∃ s', (fallible f).run (some s) is = some s' ∧ R s' (N.run t is)) ∧
      (fallible f).trace (some s) is = (N.trace t is).map fun o => some (see o) := by
  refine agreement (M := fallible f) (R := fun s t => ∃ s', s = some s' ∧ R s' t)
    (fun s t i h hc => ?_) ⟨s, rfl, h⟩ is hC
  obtain ⟨s, rfl, h⟩ := h
  obtain ⟨s', hs', hnext⟩ := hstep s t i h hc
  obtain ⟨hn, ho⟩ := fallible_step hs'
  exact ⟨⟨s', hn, hnext⟩, ho⟩

end Machine
