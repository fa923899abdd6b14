import UdpQueue.Library.Mutex

-- the code of a critical section, one step for each access of the shared object
structure Program (S I E O B : Type) where
  start : I → B
  step : S → B → E → S × (B ⊕ O)

inductive Section (I O B : Type) where
  | locking (i : I)
  | running (i : I) (b : B)
  | unlocking (o : O)

inductive SectionEvent (I O : Type) where
  | moved
  | done (i : I) (o : O)
  | released (o : O)
  | blocked

def SectionEvent.finished {I O : Type} : SectionEvent I O → Option (I × O)
  | .done i o => some (i, o)
  | _ => none

structure Guarded (Thread S I O B : Type) where
  object : S
  lock : Mutex Thread
  sections : Thread → Option (Section I O B)

structure Annotation {S I E O B : Type} (P : Program S I E O B) (holds : S → I → B → S → Prop)
    (post : S → I → S → O → Prop) : Prop where
  start : ∀ s i, holds s i (P.start i) s
  go : ∀ {s i b m} e {m' b'}, holds s i b m → P.step m b e = (m', .inl b') → holds s i b' m'
  done : ∀ {s i b m} e {m' o}, holds s i b m → P.step m b e = (m', .inr o) → post s i m' o

namespace Guarded
variable {Thread S I E O B : Type}

def create (object : S) : Guarded Thread S I O B :=
  { object, lock := .free, sections := fun _ => none }

def Inside (g : Guarded Thread S I O B) (t : Thread) : Prop :=
  (∃ i b, g.sections t = some (.running i b)) ∨ ∃ o, g.sections t = some (.unlocking o)

-- `s` is the object as the last finished section left it
structure Keeps (holds : S → I → B → S → Prop) (g : Guarded Thread S I O B) (s : S) : Prop where
  inside : ∀ t, g.Inside t → g.lock = .held t
  holder : ∀ t, g.lock = .held t → g.Inside t
  alive : g.lock ≠ .destroyed
  running : ∀ t i b, g.sections t = some (.running i b) → holds s i b g.object
  settled : (∀ t i b, g.sections t ≠ some (.running i b)) → g.object = s

section Keeps
variable {holds : S → I → B → S → Prop} {g : Guarded Thread S I O B} {s : S} {t : Thread}

theorem create_keeps (s : S) : (create s : Guarded Thread S I O B).Keeps holds s where
  inside t h := by rcases h with ⟨i, b, h⟩ | ⟨o, h⟩ <;> cases h
  holder t h := by cases h
  alive h := by cases h
  running t i b h := by cases h
  settled _ := rfl

theorem Keeps.unique (h : g.Keeps holds s) {u : Thread} (ht : g.Inside t) (hu : g.Inside u) : u = t :=
  (Mutex.held.inj ((h.inside t ht).symm.trans (h.inside u hu))).symm

theorem Keeps.object_of_free (h : g.Keeps holds s) (hl : g.lock = .free) : g.object = s := by
  refine h.settled fun t i b hs => ?_
  have hheld := h.inside t (Or.inl ⟨i, b, hs⟩)
  rw [hl] at hheld
  cases hheld

end Keeps

variable [DecidableEq Thread]

def goto (g : Guarded Thread S I O B) (t : Thread) (σ : Option (Section I O B)) :
    Guarded Thread S I O B :=
  { g with sections := Function.update g.sections t σ }

def call (g : Guarded Thread S I O B) (t : Thread) (i : I) : Guarded Thread S I O B :=
  g.goto t (some (.locking i))

def step (P : Program S I E O B) (g : Guarded Thread S I O B) (t : Thread) (e : E) :
    Guarded Thread S I O B × SectionEvent I O :=
  match g.sections t with
  | none => (g, .blocked)
  | some (.locking i) =>
    match g.lock.lock t with
    | none => (g, .blocked)
    | some lock => ({ g with lock }.goto t (some (.running i (P.start i))), .moved)
  | some (.running i b) =>
    match P.step g.object b e with
    | (object, .inl b) => ({ g with object }.goto t (some (.running i b)), .moved)
    | (object, .inr o) => ({ g with object }.goto t (some (.unlocking o)), .done i o)
  | some (.unlocking o) => ({ g with lock := g.lock.unlock }.goto t none, .released o)

@[simp] theorem goto_self (g : Guarded Thread S I O B) (t : Thread) (σ : Option (Section I O B)) :
    (g.goto t σ).sections t = σ :=
  Function.update_self ..

theorem goto_of_ne (g : Guarded Thread S I O B) {t u : Thread} (h : u ≠ t)
    (σ : Option (Section I O B)) : (g.goto t σ).sections u = g.sections u :=
  Function.update_of_ne h ..

section Step
variable {P : Program S I E O B} {g : Guarded Thread S I O B} {t : Thread} {e : E}

inductive Step (P : Program S I E O B) (g : Guarded Thread S I O B) (t : Thread) (e : E) :
    Guarded Thread S I O B × SectionEvent I O → Prop
  | blocked (h : g.sections t = none ∨
        ∃ i owner, g.sections t = some (.locking i) ∧ g.lock = .held owner) :
      Step P g t e (g, .blocked)
  | acquired (i : I) (lock : Mutex Thread) (hs : g.sections t = some (.locking i))
      (hl : g.lock.lock t = some lock) :
      Step P g t e ({ g with lock }.goto t (some (.running i (P.start i))), .moved)
  | ran (i : I) (b b' : B) (object : S) (hs : g.sections t = some (.running i b))
      (hp : P.step g.object b e = (object, .inl b')) :
      Step P g t e ({ g with object }.goto t (some (.running i b')), .moved)
  | done (i : I) (b : B) (o : O) (object : S) (hs : g.sections t = some (.running i b))
      (hp : P.step g.object b e = (object, .inr o)) :
      Step P g t e ({ g with object }.goto t (some (.unlocking o)), .done i o)
  | released (o : O) (hs : g.sections t = some (.unlocking o)) :
      Step P g t e ({ g with lock := g.lock.unlock }.goto t none, .released o)

theorem step_spec (P : Program S I E O B) (g : Guarded Thread S I O B) (t : Thread) (e : E) :
    Step P g t e (g.step P t e) := by
  rw [step]
  rcases hs : g.sections t with _ | ⟨i⟩ | ⟨i, b⟩ | ⟨o⟩
  · exact .blocked (Or.inl hs)
  · simp only []
    cases hl : g.lock.lock t with
    | none =>
      refine .blocked (Or.inr ⟨i, ?_⟩)
      cases hlock : g.lock with
      | held owner => exact ⟨owner, hs, rfl⟩
      | free => simp [hlock, Mutex.lock] at hl
      | destroyed => simp [hlock, Mutex.lock] at hl
    | some lock => exact .acquired i lock hs hl
  · simp only []
    rcases hp : P.step g.object b e with ⟨object, b' | o⟩
    · exact .ran i b b' object hs hp
    · exact .done i b o object hs hp
  · exact .released o hs

end Step

section Keeps
variable {P : Program S I E O B} {holds : S → I → B → S → Prop} {post : S → I → S → O → Prop}
variable {g : Guarded Thread S I O B} {s : S} {t : Thread} {e : E}

theorem inside_goto_self {σ : Option (Section I O B)} :
    (g.goto t σ).Inside t ↔ (∃ i b, σ = some (.running i b)) ∨ ∃ o, σ = some (.unlocking o) := by
  simp only [Inside, goto_self]

theorem inside_goto_of_ne {u : Thread} (h : u ≠ t) {σ : Option (Section I O B)} :
    (g.goto t σ).Inside u ↔ g.Inside u := by
  simp only [Inside, goto_of_ne g h]

-- outside of its sections a thread does not change what is kept
theorem Keeps.goto (h : g.Keeps holds s) (ht : ¬ g.Inside t) {σ : Option (Section I O B)}
    (hσ : σ = none ∨ ∃ i, σ = some (.locking i)) : (g.goto t σ).Keeps holds s := by
  have hout : ¬ (g.goto t σ).Inside t := by
    rw [inside_goto_self]
    rcases hσ with rfl | ⟨i, rfl⟩ <;> simp
  have hin (u : Thread) : (g.goto t σ).Inside u ↔ g.Inside u := by
    rcases eq_or_ne u t with rfl | hu
    · exact iff_of_false hout ht
    · exact inside_goto_of_ne hu
  have hrun (u : Thread) (i : I) (b : B) (hs : (g.goto t σ).sections u = some (.running i b)) :
      g.sections u = some (.running i b) := by
    rcases eq_or_ne u t with rfl | hu
    · exact absurd (Or.inl ⟨i, b, hs⟩) hout
    · rwa [goto_of_ne g hu] at hs
  refine ⟨fun u hu => h.inside u ((hin u).mp hu), fun u hu => (hin u).mpr (h.holder u hu), h.alive,
    fun u i b hs => h.running u i b (hrun u i b hs), fun hno => h.settled fun u i b hs => ?_⟩
  have hut : u ≠ t := by
    rintro rfl
    exact ht (Or.inl ⟨i, b, hs⟩)
  exact hno u i b (by rw [goto_of_ne g hut, hs])

theorem Keeps.call (h : g.Keeps holds s) (ht : g.sections t = none) (i : I) :
    (g.call t i).Keeps holds s := by
  refine h.goto ?_ (Or.inr ⟨i, rfl⟩)
  rintro (⟨j, b, hs⟩ | ⟨o, hs⟩) <;> rw [ht] at hs <;> cases hs

-- a thread inside moves on to a place inside
theorem Keeps.move (h : g.Keeps holds s) (ht : g.Inside t) {object : S} {σ : Section I O B} {s' : S}
    (hσ : (∃ i b, σ = .running i b ∧ holds s' i b object) ∨
      ∃ o, σ = .unlocking o ∧ object = s') :
    ({ g with object }.goto t (some σ)).Keeps holds s' := by
  have halone {u : Thread} (hu : u ≠ t) : ¬ g.Inside u := fun hin => hu (h.unique ht hin)
  have hself : ({ g with object }.goto t (some σ)).Inside t := by
    rw [inside_goto_self]
    rcases hσ with ⟨i, b, rfl, -⟩ | ⟨o, rfl, -⟩
    · exact Or.inl ⟨i, b, rfl⟩
    · exact Or.inr ⟨o, rfl⟩
  have hrest {u : Thread} (hin : ({ g with object }.goto t (some σ)).Inside u) : u = t := by
    by_contra hu
    exact halone hu ((inside_goto_of_ne hu).mp hin)
  refine ⟨fun u hu => ?_, fun u hu => ?_, h.alive, fun u i b hs => ?_, fun hno => ?_⟩
  · rw [hrest hu]
    exact h.inside t ht
  · rw [← Mutex.held.inj ((h.inside t ht).symm.trans hu)]
    exact hself
  · obtain rfl := hrest (Or.inl ⟨i, b, hs⟩)
    rw [goto_self] at hs
    rcases hσ with ⟨i', b', rfl, hb⟩ | ⟨o, rfl, -⟩
    · cases hs
      exact hb
    · cases hs
  · rcases hσ with ⟨i, b, rfl, -⟩ | ⟨o, -, ho⟩
    · exact absurd (goto_self ..) (hno t i b)
    · exact ho

theorem Keeps.acquire (h : g.Keeps holds s) {i : I} {b : B} {lock : Mutex Thread}
    (hl : g.lock.lock t = some lock) (hb : holds s i b s) :
    ({ g with lock }.goto t (some (.running i b))).Keeps holds s := by
  obtain ⟨hfree, rfl⟩ := Mutex.lock_eq_some hl h.alive
  have hout (u : Thread) : ¬ g.Inside u := fun hin => by
    have hheld := h.inside u hin
    rw [hfree] at hheld
    cases hheld
  have hrest {u : Thread} (hin : ({ g with lock := .held t }.goto t (some (.running i b))).Inside u) :
      u = t := by
    by_contra hu
    exact hout u ((inside_goto_of_ne hu).mp hin)
  have hself : ({ g with lock := .held t }.goto t (some (.running i b))).Inside t :=
    inside_goto_self.mpr (Or.inl ⟨i, b, rfl⟩)
  refine ⟨fun u hu => ?_, fun u hu => ?_, ?_, fun u j c hs => ?_,
    fun hno => absurd (goto_self ..) (hno t i b)⟩
  · rw [hrest hu]
    rfl
  · rw [← Mutex.held.inj hu]
    exact hself
  · intro hd
    cases hd
  · obtain rfl := hrest (Or.inl ⟨j, c, hs⟩)
    rw [goto_self] at hs
    cases hs
    change holds s i b g.object
    rw [h.object_of_free hfree]
    exact hb

theorem Keeps.release (h : g.Keeps holds s) {o : O} (hs : g.sections t = some (.unlocking o)) :
    ({ g with lock := g.lock.unlock }.goto t none).Keeps holds s := by
  have ht : g.Inside t := Or.inr ⟨o, hs⟩
  have hout (u : Thread) : ¬ ({ g with lock := g.lock.unlock }.goto t none).Inside u := by
    rcases eq_or_ne u t with rfl | hu
    · rw [inside_goto_self]
      simp
    · rw [inside_goto_of_ne hu]
      exact fun hin => hu (h.unique ht hin)
  have hfree : g.lock.unlock = .free := by rw [h.inside t ht]; rfl
  refine ⟨fun u hu => absurd hu (hout u), fun u hu => ?_, Mutex.unlock_ne_destroyed h.alive,
    fun u i b hrun => absurd (Or.inl ⟨i, b, hrun⟩) (hout u), fun _ => h.settled fun u i b hrun => ?_⟩
  · have hheld := hfree.symm.trans hu
    cases hheld
  · obtain rfl := h.unique ht (Or.inl ⟨i, b, hrun⟩)
    rw [hs] at hrun
    cases hrun

theorem Keeps.step (h : g.Keeps holds s) (A : Annotation P holds post)
    {r : Guarded Thread S I O B × SectionEvent I O} (hr : Step P g t e r) :
    (r.2.finished = none ∧ r.1.Keeps holds s) ∨
      ∃ i o, r.2 = .done i o ∧ post s i r.1.object o ∧ r.1.Keeps holds r.1.object := by
  cases hr with
  | blocked _ => exact Or.inl ⟨rfl, h⟩
  | acquired i lock hs hl => exact Or.inl ⟨rfl, h.acquire hl (A.start s i)⟩
  | ran i b b' object hs hp =>
    have hb := A.go e (h.running t i b hs) hp
    exact Or.inl ⟨rfl, h.move (Or.inl ⟨i, b, hs⟩) (Or.inl ⟨i, b', rfl, hb⟩)⟩
  | done i b o object hs hp =>
    refine Or.inr ⟨i, o, rfl, A.done e (h.running t i b hs) hp, ?_⟩
    exact h.move (Or.inl ⟨i, b, hs⟩) (Or.inr ⟨o, rfl, rfl⟩)
  | released o hs => exact Or.inl ⟨rfl, h.release hs⟩

end Keeps

end Guarded
