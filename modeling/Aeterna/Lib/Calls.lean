import Aeterna.Lib.Run

/-!
# Calls and their results

A component as its clients see it: a call changes the state and gives a result. Two components whose
related states give the same results and stay related cannot be told apart by any sequence of calls
(`results_eq`), also when the calls have to meet a condition in the state of the second one
(`results_eq_of_eachStep`).
-/

namespace Lib

variable {S T A R : Type*}

/-- The results of a sequence of calls. -/
def results (call : S → A → R × S) : S → List A → List R
  | _, [] => []
  | s, a :: as => (call s a).1 :: results call (call s a).2 as

variable {call : S → A → R × S} {call' : T → A → R × T} {s : S} {t : T} {as : List A}

/-- Calls that meet `G` in the states of the second component have the same results. -/
theorem results_eq_of_eachStep {Rel : S → T → Prop} {G : T → A → Prop}
    (hcall : ∀ s t a, Rel s t → G t a →
      (call s a).1 = (call' t a).1 ∧ Rel (call s a).2 (call' t a).2)
    (h : Rel s t) (hG : EachStep (fun t a => (call' t a).2) G t as) :
    results call s as = results call' t as := by
  induction as generalizing s t with
  | nil => rfl
  | cons a as ih =>
    obtain ⟨hresult, hrel⟩ := hcall s t a h hG.1
    rw [results, results, hresult, ih hrel hG.2]

theorem results_eq {Rel : S → T → Prop}
    (hcall : ∀ s t a, Rel s t →
      (call s a).1 = (call' t a).1 ∧ Rel (call s a).2 (call' t a).2)
    (h : Rel s t) (as : List A) : results call s as = results call' t as :=
  results_eq_of_eachStep (fun s t a h _ => hcall s t a h) h
    (eachStep_of_forall_mem (C := fun _ => True) fun _ _ => trivial)

end Lib
