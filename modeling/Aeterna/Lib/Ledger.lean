import Mathlib

/-!
# Grants below a mark

A bump allocator hands out half-open ranges and keeps a mark above all of them. `Ledger mark gs`
says that the ranges granted so far end at or below the mark, do not meet and have no more
addresses than the mark; a grant that starts at or above the mark extends it.
-/

namespace Lib

/-- The half-open range of the `len` addresses from `start` on. -/
structure Range where
  start : ℕ
  len : ℕ
  deriving DecidableEq, Repr

namespace Range

def stop (r : Range) : ℕ := r.start + r.len

def bytes (r : Range) : Set ℕ := Set.Ico r.start r.stop

theorem disjoint_bytes {a b : Range} (h : a.stop ≤ b.start) : Disjoint a.bytes b.bytes :=
  Set.disjoint_left.mpr fun _ ha hb => absurd (lt_of_lt_of_le ha.2 (h.trans hb.1)) (lt_irrefl _)

theorem bytes_subset_iff {start m n : ℕ} :
    (Range.mk start m).bytes ⊆ (Range.mk start n).bytes ↔ m ≤ n := by
  constructor
  · intro h
    by_contra hlt
    have hmem : start + n ∈ (Range.mk start m).bytes :=
      ⟨Nat.le_add_right _ _, Nat.add_lt_add_left (not_le.mp hlt) start⟩
    exact absurd (h hmem).2 (lt_irrefl _)
  · intro h
    exact Set.Ico_subset_Ico_right (Nat.add_le_add_left h start)

end Range

/-- The ranges granted below `mark`. -/
structure Ledger (mark : ℕ) (gs : List Range) : Prop where
  below : ∀ g ∈ gs, g.stop ≤ mark
  disjoint : gs.Pairwise fun a b => Disjoint a.bytes b.bytes
  total : (gs.map Range.len).sum ≤ mark

namespace Ledger

theorem nil (mark : ℕ) : Ledger mark [] := ⟨by simp, .nil, by simp⟩

theorem raise {m n : ℕ} {gs : List Range} (h : Ledger m gs) (hmn : m ≤ n) : Ledger n gs :=
  ⟨fun g hg => (h.below g hg).trans hmn, h.disjoint, h.total.trans hmn⟩

theorem grant {m : ℕ} {gs : List Range} (h : Ledger m gs) {g : Range} (hg : m ≤ g.start) :
    Ledger g.stop (gs ++ [g]) where
  below := by
    intro a ha
    rcases List.mem_append.mp ha with ha | ha
    · exact (h.below a ha).trans (hg.trans (Nat.le_add_right _ _))
    · rw [List.mem_singleton.mp ha]
  disjoint := by
    refine List.pairwise_append.mpr ⟨h.disjoint, List.pairwise_singleton _ _, ?_⟩
    intro a ha b hb
    rw [List.mem_singleton.mp hb]
    exact Range.disjoint_bytes ((h.below a ha).trans hg)
  total := by
    have htotal := h.total
    simp only [List.map_append, List.sum_append, List.map_singleton, List.sum_singleton, Range.stop]
    omega

end Ledger

end Lib
