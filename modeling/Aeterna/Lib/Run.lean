import Mathlib.Data.List.Basic
import Mathlib.Logic.Basic

/-!
# Runs of a deterministic transition system

A system is a step function `S → A → S`; what its environment chooses is part of the action.
`Always P` says that `P` holds in every state of a run, `EachStep G` that every step of the run
meets the guard `G`, a condition on the state before the step and its action.

A property that one guarded step preserves holds along every run of guarded steps
(`always_of_eachStep`); when the guard is exact, it holds along a run exactly when every step is
guarded (`always_iff_eachStep`).
-/

namespace Lib

variable {S A : Type*} (step : S → A → S)

/-- The state after a sequence of actions. -/
def run : S → List A → S
  | s, [] => s
  | s, a :: as => run (step s a) as

/-- `P` holds in every state of the run, the first and the last included. -/
def Always (P : S → Prop) : S → List A → Prop
  | s, [] => P s
  | s, a :: as => P s ∧ Always P (step s a) as

/-- `G` holds at every step of the run, of the state before the step and its action. -/
def EachStep (G : S → A → Prop) : S → List A → Prop
  | _, [] => True
  | s, a :: as => G s a ∧ EachStep G (step s a) as

instance Always.decidable (P : S → Prop) [DecidablePred P] :
    ∀ (s : S) (as : List A), Decidable (Always step P s as)
  | s, [] => inferInstanceAs (Decidable (P s))
  | s, a :: as =>
    have := Always.decidable P (step s a) as
    inferInstanceAs (Decidable (P s ∧ Always step P (step s a) as))

instance EachStep.decidable (G : S → A → Prop) [∀ s a, Decidable (G s a)] :
    ∀ (s : S) (as : List A), Decidable (EachStep step G s as)
  | _, [] => inferInstanceAs (Decidable True)
  | s, a :: as =>
    have := EachStep.decidable G (step s a) as
    inferInstanceAs (Decidable (G s a ∧ EachStep step G (step s a) as))

variable {step} {P : S → Prop} {G H : S → A → Prop} {s : S} {as : List A}

@[simp] theorem run_nil : run step s [] = s := rfl

@[simp] theorem run_cons (a : A) : run step s (a :: as) = run step (step s a) as := rfl

theorem run_append (s : S) (as bs : List A) :
    run step s (as ++ bs) = run step (run step s as) bs := by
  induction as generalizing s with
  | nil => rfl
  | cons a as ih => exact ih (step s a)

theorem Always.head (h : Always step P s as) : P s := by
  cases as with
  | nil => exact h
  | cons a as => exact h.1

theorem Always.last (h : Always step P s as) : P (run step s as) := by
  induction as generalizing s with
  | nil => exact h
  | cons a as ih => exact ih h.2

theorem Always.imp {Q : S → Prop} (hPQ : ∀ s, P s → Q s) (h : Always step P s as) :
    Always step Q s as := by
  induction as generalizing s with
  | nil => exact hPQ s h
  | cons a as ih => exact ⟨hPQ s h.1, ih h.2⟩

theorem eachStep_append (s : S) (as bs : List A) :
    EachStep step G s (as ++ bs) ↔
      EachStep step G s as ∧ EachStep step G (run step s as) bs := by
  induction as generalizing s with
  | nil => simp [EachStep]
  | cons a as ih => simp [EachStep, ih, and_assoc]

theorem eachStep_iff_forall_split :
    EachStep step G s as ↔ ∀ pre a post, as = pre ++ a :: post → G (run step s pre) a := by
  constructor
  · rintro h pre a post rfl
    exact ((eachStep_append s pre (a :: post)).mp h).2.1
  · intro h
    induction as generalizing s with
    | nil => trivial
    | cons a as ih =>
      refine ⟨h [] a as rfl, ih fun pre b post he => ?_⟩
      exact h (a :: pre) b post (by rw [he]; rfl)

theorem eachStep_and (hG : EachStep step G s as) (hH : EachStep step H s as) :
    EachStep step (fun s a => G s a ∧ H s a) s as := by
  induction as generalizing s with
  | nil => trivial
  | cons a as ih => exact ⟨⟨hG.1, hH.1⟩, ih hG.2 hH.2⟩

theorem eachStep_of_forall_mem {C : A → Prop} (h : ∀ a ∈ as, C a) :
    EachStep step (fun _ a => C a) s as := by
  induction as generalizing s with
  | nil => trivial
  | cons a as ih => exact ⟨h a List.mem_cons_self, ih fun b hb => h b (List.mem_cons_of_mem a hb)⟩

/-- What one guarded step preserves holds along every run of guarded steps. -/
theorem always_of_eachStep (hs : P s) (hstep : ∀ s a, P s → G s a → P (step s a))
    (hG : EachStep step G s as) : Always step P s as := by
  induction as generalizing s with
  | nil => exact hs
  | cons a as ih => exact ⟨hs, ih (hstep s a hs hG.1) hG.2⟩

/-- Along the runs whose steps all meet `H`, and with a guard that is exact there in the states of
an invariant `J`, a property holds exactly when every step is guarded. -/
theorem always_iff_eachStep_of_invariant {J : S → Prop} (hJ : J s) (hs : P s)
    (hinv : ∀ s a, J s → H s a → J (step s a))
    (hstep : ∀ s a, J s → P s → H s a → (P (step s a) ↔ G s a)) (hH : EachStep step H s as) :
    Always step P s as ↔ EachStep step G s as := by
  induction as generalizing s with
  | nil => exact ⟨fun _ => trivial, fun _ => hs⟩
  | cons a as ih =>
    have hJ' := hinv s a hJ hH.1
    constructor
    · rintro ⟨-, h⟩
      exact ⟨(hstep s a hJ hs hH.1).mp h.head, (ih hJ' h.head hH.2).mp h⟩
    · rintro ⟨ha, h⟩
      have hs' := (hstep s a hJ hs hH.1).mpr ha
      exact ⟨hs, (ih hJ' hs' hH.2).mpr h⟩

theorem always_iff_eachStep_of_eachStep (hs : P s)
    (hstep : ∀ s a, P s → H s a → (P (step s a) ↔ G s a)) (hH : EachStep step H s as) :
    Always step P s as ↔ EachStep step G s as :=
  always_iff_eachStep_of_invariant trivial hs (fun _ _ (_ : True) _ => trivial)
    (fun s a _ => hstep s a) hH

/-- With an exact guard a property holds along a run exactly when every step is guarded. -/
theorem always_iff_eachStep (hs : P s) (hstep : ∀ s a, P s → (P (step s a) ↔ G s a)) :
    Always step P s as ↔ EachStep step G s as :=
  always_iff_eachStep_of_eachStep hs (fun s a h (_ : True) => hstep s a h)
    (eachStep_of_forall_mem fun _ _ => trivial)

theorem eachStep_congr (hs : P s) (hstep : ∀ s a, P s → P (step s a))
    (hGH : ∀ s a, P s → (G s a ↔ H s a)) : EachStep step G s as ↔ EachStep step H s as := by
  induction as generalizing s with
  | nil => exact Iff.rfl
  | cons a as ih => exact and_congr (hGH s a hs) (ih (hstep s a hs))

/-- Along the runs whose steps all meet `H`, two step properties agree if they do in the states of
an invariant that the steps with the second one keep. -/
theorem eachStep_iff_of_invariant {K : S → A → Prop} (hs : P s)
    (hstep : ∀ s a, P s → H s a → G s a → P (step s a))
    (hKG : ∀ s a, P s → H s a → (K s a ↔ G s a)) (hH : EachStep step H s as) :
    EachStep step K s as ↔ EachStep step G s as := by
  induction as generalizing s with
  | nil => exact Iff.rfl
  | cons a as ih =>
    have hhead := hKG s a hs hH.1
    constructor
    · rintro ⟨ha, h⟩
      exact ⟨hhead.mp ha, (ih (hstep s a hs hH.1 (hhead.mp ha)) hH.2).mp h⟩
    · rintro ⟨ha, h⟩
      exact ⟨hhead.mpr ha, (ih (hstep s a hs hH.1 ha) hH.2).mpr h⟩

/-- A step property that follows from the guard and an invariant of guarded steps. -/
theorem eachStep_of_eachStep (hs : P s) (hstep : ∀ s a, P s → G s a → P (step s a))
    (hGH : ∀ s a, P s → G s a → H s a) (hG : EachStep step G s as) : EachStep step H s as := by
  induction as generalizing s with
  | nil => trivial
  | cons a as ih => exact ⟨hGH s a hs hG.1, ih (hstep s a hs hG.1) hG.2⟩

end Lib
