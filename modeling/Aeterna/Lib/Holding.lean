import Mathlib.Logic.Basic

/-!
# Resources held at positions

Positions hold resources, each at most one; a resource is in use or free. `Holding used held` says
that what is held is in use and that no two positions hold one resource. It survives a growing set
of resources in use (`mono`), positions that let go of what they hold, which may then become free
(`clear`), and positions that take resources nobody holds (`assign`).
-/

namespace Lib

variable {P R : Type*}

structure Holding (used : R → Prop) (held : P → Option R) : Prop where
  used_of_held : ∀ p r, held p = some r → used r
  inj : ∀ p q r, held p = some r → held q = some r → p = q

/-- A resource in use that no position holds. -/
def Floating (used : R → Prop) (held : P → Option R) (r : R) : Prop :=
  used r ∧ ∀ p, held p ≠ some r

namespace Holding

variable {used used' : R → Prop} {held held' : P → Option R}

theorem mono (h : Holding used held) (hused : ∀ r, used r → used' r) : Holding used' held :=
  ⟨fun p r hp => hused r (h.used_of_held p r hp), h.inj⟩

theorem clear {S : P → Prop} (h : Holding used held) (hS : ∀ p, S p → held' p = none)
    (hoff : ∀ p, ¬ S p → held' p = held p)
    (hused : ∀ r, used r → (∀ p, S p → held p ≠ some r) → used' r) : Holding used' held' := by
  have hold {p : P} {r : R} (hp : held' p = some r) : ¬ S p ∧ held p = some r := by
    have hpS : ¬ S p := by
      intro hpS
      rw [hS p hpS] at hp
      exact Option.some_ne_none r hp.symm
    exact ⟨hpS, hoff p hpS ▸ hp⟩
  constructor
  · intro p r hp
    obtain ⟨hpS, hp⟩ := hold hp
    refine hused r (h.used_of_held p r hp) fun q hq hqr => hpS ?_
    rw [h.inj p q r hp hqr]
    exact hq
  · intro p q r hp hq
    exact h.inj p q r (hold hp).2 (hold hq).2

/-- Positions keep what they hold or take what floats, each resource at one position. -/
theorem assign (h : Holding used held)
    (htake : ∀ p r, held' p = some r → held p = some r ∨ Floating used held r)
    (hinj : ∀ p q r, Floating used held r → held' p = some r → held' q = some r → p = q) :
    Holding used held' := by
  constructor
  · intro p r hp
    rcases htake p r hp with hold | hfloat
    · exact h.used_of_held p r hold
    · exact hfloat.1
  · intro p q r hp hq
    rcases htake p r hp with holdp | hfloat
    · rcases htake q r hq with holdq | hfloat
      · exact h.inj p q r holdp holdq
      · exact absurd holdp (hfloat.2 p)
    · exact hinj p q r hfloat hp hq

end Holding

end Lib
