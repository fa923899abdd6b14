import Mathlib.Data.List.Induction

def latest {O A : Type} (f : O → Option A) (os : List O) : Option A := (os.filterMap f).getLast?

theorem latest_append {O A : Type} (f : O → Option A) (os qs : List O) :
    latest f (os ++ qs) = (latest f qs).or (latest f os) := by
  rw [latest, List.filterMap_append, List.getLast?_append]
  rfl

theorem latest_snoc {O A : Type} (f : O → Option A) (os : List O) (o : O) :
    latest f (os ++ [o]) = (f o).or (latest f os) := by
  rw [latest_append]
  cases h : f o <;> simp [h, latest]

structure Machine (S I O : Type) where
  step : S → I → S × O

namespace Machine
variable {S I O A : Type} (M : Machine S I O)

def next (s : S) (i : I) : S := (M.step s i).1
def out (s : S) (i : I) : O := (M.step s i).2
def run (s : S) (is : List I) : S := is.foldl M.next s

def trace : S → List I → List O
  | _, [] => []
  | s, i :: is => M.out s i :: trace (M.next s i) is

@[simp] theorem run_nil (s : S) : M.run s [] = s := rfl

@[simp] theorem run_cons (s : S) (i : I) (is : List I) :
    M.run s (i :: is) = M.run (M.next s i) is := rfl

@[simp] theorem run_append (s : S) (is js : List I) :
    M.run s (is ++ js) = M.run (M.run s is) js := by
  simp [run, List.foldl_append]

@[simp] theorem trace_nil (s : S) : M.trace s [] = [] := rfl

@[simp] theorem trace_cons (s : S) (i : I) (is : List I) :
    M.trace s (i :: is) = M.out s i :: M.trace (M.next s i) is := rfl

@[simp] theorem trace_append (s : S) (is js : List I) :
    M.trace s (is ++ js) = M.trace s is ++ M.trace (M.run s is) js := by
  induction is generalizing s with
  | nil => rfl
  | cons i is ih => simp [ih]

theorem mem_trace {s : S} {is : List I} {o : O} (h : o ∈ M.trace s is) :
    ∃ pre i post, is = pre ++ i :: post ∧ o = M.out (M.run s pre) i := by
  induction is generalizing s with
  | nil => simp at h
  | cons i is ih =>
    rcases List.mem_cons.mp h with rfl | h
    · exact ⟨[], i, is, rfl, rfl⟩
    · obtain ⟨pre, j, post, rfl, ho⟩ := ih h
      exact ⟨i :: pre, j, post, rfl, ho⟩

theorem trace_split {s : S} {is : List I} {os qs : List O} {o : O}
    (h : M.trace s is = os ++ o :: qs) :
    ∃ pre i post, is = pre ++ i :: post ∧ M.trace s pre = os ∧ M.out (M.run s pre) i = o ∧
      M.trace (M.next (M.run s pre) i) post = qs := by
  induction os generalizing s is with
  | nil =>
    cases is with
    | nil => simp at h
    | cons i is =>
      simp only [trace_cons, List.nil_append, List.cons.injEq] at h
      exact ⟨[], i, is, rfl, rfl, h⟩
  | cons p os ih =>
    cases is with
    | nil => simp at h
    | cons i is =>
      simp only [trace_cons, List.cons_append, List.cons.injEq] at h
      obtain ⟨pre, j, post, rfl, hpre, hrest⟩ := ih h.2
      exact ⟨i :: pre, j, post, rfl, by simp [h.1, hpre], hrest⟩

theorem history {P : S → List O → Prop}
    (hP : ∀ s os i, P s os → P (M.next s i) (os ++ [M.out s i])) {s : S} (h : P s []) (is : List I) :
    P (M.run s is) (M.trace s is) := by
  induction is using List.reverseRecOn with
  | nil => exact h
  | append_singleton is i ih =>
    rw [run_append, trace_append]
    exact hP _ _ i ih

theorem during {P : S → Prop} {quiet R : O → Prop}
    (hstep : ∀ s i, P s → quiet (M.out s i) → P (M.next s i) ∧ R (M.out s i)) {s : S} (h : P s)
    {is : List I} {os qs : List O} (htr : M.trace s is = os ++ qs) (hq : ∀ o ∈ os, quiet o) :
    (∀ o ∈ os, R o) ∧ ∃ pre post, is = pre ++ post ∧ P (M.run s pre) ∧
      M.trace (M.run s pre) post = qs := by
  induction os generalizing s is with
  | nil => exact ⟨List.forall_mem_nil _, [], is, rfl, h, htr⟩
  | cons o os ih =>
    cases is with
    | nil => cases htr
    | cons i is =>
      obtain ⟨rfl, hrest⟩ := List.cons.inj htr
      obtain ⟨hone, hmany⟩ := List.forall_mem_cons.mp hq
      obtain ⟨hnext, hR⟩ := hstep s i h hone
      obtain ⟨hall, pre, post, rfl, hpre, hpost⟩ := ih hnext hrest hmany
      exact ⟨List.forall_mem_cons.mpr ⟨hR, hall⟩, i :: pre, post, rfl, hpre, hpost⟩

theorem budget {P : S → Prop} {quiet : O → Prop} (costs : O → Bool) (rank : S → Nat)
    (hstep : ∀ s i, P s → quiet (M.out s i) →
      P (M.next s i) ∧ (if costs (M.out s i) then 1 else 0) + rank (M.next s i) ≤ rank s)
    {s : S} (h : P s) (is : List I) (hq : ∀ o ∈ M.trace s is, quiet o) :
    (M.trace s is).countP costs + rank (M.run s is) ≤ rank s := by
  induction is generalizing s with
  | nil => simp
  | cons i is ih =>
    obtain ⟨hone, hmany⟩ := List.forall_mem_cons.mp hq
    obtain ⟨hnext, hcost⟩ := hstep s i h hone
    have hrest := ih hnext hmany
    rw [trace_cons, List.countP_cons, run_cons]
    omega

section Invariant
variable {M} {P : S → Prop} (hP : ∀ s i, P s → P (M.next s i))
include hP

theorem run_invariant {s : S} (h : P s) (is : List I) : P (M.run s is) := by
  induction is generalizing s with
  | nil => exact h
  | cons i is ih => exact ih (hP s i h)

theorem conservation {held : S → List A} {taken given : O → List A}
    (hstep : ∀ s i, P s →
      held s ++ taken (M.out s i) = given (M.out s i) ++ held (M.next s i))
    {s : S} (h : P s) (is : List I) :
    held s ++ (M.trace s is).flatMap taken =
      (M.trace s is).flatMap given ++ held (M.run s is) := by
  induction is generalizing s with
  | nil => simp
  | cons i is ih =>
    simp only [trace_cons, run_cons, List.flatMap_cons]
    rw [← List.append_assoc, hstep s i h, List.append_assoc, ih (hP s i h), List.append_assoc]

theorem ledger {held : S → List A} {credit debit : O → List A}
    (hstep : ∀ s i, P s →
      (held s ++ credit (M.out s i)).Perm (debit (M.out s i) ++ held (M.next s i)))
    {s : S} (h : P s) (is : List I) :
    (held s ++ (M.trace s is).flatMap credit).Perm
      ((M.trace s is).flatMap debit ++ held (M.run s is)) := by
  induction is generalizing s with
  | nil => simp
  | cons i is ih =>
    have hnext := ih (hP s i h)
    have hone := (hstep s i h).append_right ((M.trace (M.next s i) is).flatMap credit)
    simp only [trace_cons, run_cons, List.flatMap_cons]
    rw [← List.append_assoc, List.append_assoc (debit _)]
    rw [List.append_assoc (debit _)] at hone
    exact hone.trans (hnext.append_left _)

end Invariant

section Simulation
variable {M} {T J P : Type} {N : Machine T J P} {abs : S → T} {obs : O → List P}

theorem simulation
    (hstep : ∀ s i, ∃ js, N.run (abs s) js = abs (M.next s i) ∧ N.trace (abs s) js = obs (M.out s i))
    (s : S) (is : List I) :
    ∃ js, N.run (abs s) js = abs (M.run s is) ∧
      N.trace (abs s) js = (M.trace s is).flatMap obs := by
  induction is generalizing s with
  | nil => exact ⟨[], rfl, rfl⟩
  | cons i is ih =>
    obtain ⟨js, hrun, htrace⟩ := hstep s i
    obtain ⟨ks, hrun', htrace'⟩ := ih (M.next s i)
    rw [← hrun] at hrun' htrace'
    refine ⟨js ++ ks, ?_, ?_⟩
    · rw [run_append, hrun', run_cons]
    · rw [trace_append, htrace, htrace', trace_cons, List.flatMap_cons]

theorem refinement {see : P → O}
    (hstep : ∀ s i, ∃ j, N.next (abs s) j = abs (M.next s i) ∧ see (N.out (abs s) j) = M.out s i)
    (s : S) (is : List I) :
    ∃ js, N.run (abs s) js = abs (M.run s is) ∧ (N.trace (abs s) js).map see = M.trace s is := by
  induction is generalizing s with
  | nil => exact ⟨[], rfl, rfl⟩
  | cons i is ih =>
    obtain ⟨j, hnext, hout⟩ := hstep s i
    obtain ⟨js, hrun, htrace⟩ := ih (M.next s i)
    refine ⟨j :: js, ?_, ?_⟩
    · rw [run_cons, hnext, hrun, run_cons]
    · rw [trace_cons, List.map_cons, hout, hnext, htrace, trace_cons]

theorem projection {P : S → Prop} (hP : ∀ s i, P s → P (M.next s i)) {Q : Type} {inputs : O → List J}
    {view : O → List Q} {N : Machine T J Q}
    (hstep : ∀ s i, P s → N.run (abs s) (inputs (M.out s i)) = abs (M.next s i) ∧
      N.trace (abs s) (inputs (M.out s i)) = view (M.out s i))
    {s : S} (h : P s) (is : List I) :
    N.run (abs s) ((M.trace s is).flatMap inputs) = abs (M.run s is) ∧
      N.trace (abs s) ((M.trace s is).flatMap inputs) = (M.trace s is).flatMap view := by
  induction is generalizing s with
  | nil => exact ⟨rfl, rfl⟩
  | cons i is ih =>
    obtain ⟨hrun, htrace⟩ := hstep s i h
    obtain ⟨hrun', htrace'⟩ := ih (hP s i h)
    simp only [trace_cons, run_cons, List.flatMap_cons, run_append, trace_append, hrun, htrace]
    exact ⟨hrun', by rw [htrace']⟩

theorem agreement {N : Machine T I P} {R : S → T → Prop} {C : T → Prop} {see : P → O}
    (hstep : ∀ s t i, R s t → C (N.next t i) →
      R (M.next s i) (N.next t i) ∧ M.out s i = see (N.out t i))
    {s : S} {t : T} (h : R s t) (is : List I) (hC : ∀ pre, pre <+: is → C (N.run t pre)) :
    R (M.run s is) (N.run t is) ∧ M.trace s is = (N.trace t is).map see := by
  induction is generalizing s t with
  | nil => exact ⟨h, rfl⟩
  | cons i is ih =>
    obtain ⟨hnext, hout⟩ := hstep s t i h (hC [i] (List.prefix_append [i] is))
    obtain ⟨hrun, htrace⟩ := ih hnext fun pre hpre =>
      hC (i :: pre) (List.cons_prefix_cons.mpr ⟨rfl, hpre⟩)
    exact ⟨hrun, by rw [trace_cons, trace_cons, List.map_cons, hout, htrace]⟩

theorem correspondence {R : S → T → Prop} {inputs : O → List J} {Q : Type} {see : P → Q}
    {view : O → List Q}
    (hstep : ∀ s t i, R s t → R (M.next s i) (N.run t (inputs (M.out s i))) ∧
      (N.trace t (inputs (M.out s i))).map see = view (M.out s i))
    {s : S} {t : T} (h : R s t) (is : List I) :
    R (M.run s is) (N.run t ((M.trace s is).flatMap inputs)) ∧
      (N.trace t ((M.trace s is).flatMap inputs)).map see = (M.trace s is).flatMap view := by
  induction is generalizing s t with
  | nil => exact ⟨h, rfl⟩
  | cons i is ih =>
    obtain ⟨hnext, hsee⟩ := hstep s t i h
    obtain ⟨hrun, htrace⟩ := ih hnext
    simp only [trace_cons, run_cons, List.flatMap_cons, run_append, trace_append, List.map_append, hsee]
    exact ⟨hrun, by rw [htrace]⟩

end Simulation

end Machine
