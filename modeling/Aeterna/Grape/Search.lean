import Aeterna.Grape.Editor
import Aeterna.Vfs.Image

/-!
# Searching

`search_forward` looks behind the cursor in its line and then through the other lines, from the next
one around to the one before. It does not come back to the beginning of the cursor's line, so that it
misses a text that is only there (`searchForward_first_iff`).

The order of the places is by `steps`, the number of lines to go; the places up to the cursor come
last.
-/

namespace Aeterna.Grape

open Aeterna.Vfs (pathBytes)

section Slice

variable {haystack needle : List UInt8}

theorem take_drop_beq (i : ℕ) :
    ((haystack.drop i).take needle.length == needle) = true ↔ needle <+: haystack.drop i := by
  rw [beq_iff_eq, List.prefix_iff_eq_take, eq_comm]

theorem lt_of_prefix_drop {i : ℕ} (hneedle : needle ≠ []) (h : needle <+: haystack.drop i) :
    i + needle.length ≤ haystack.length ∧ i < haystack.length := by
  have hlen := h.length_le
  have hpos := List.length_pos_of_ne_nil hneedle
  rw [List.length_drop] at hlen
  omega

theorem findInSlice_eq_some (hneedle : needle ≠ []) {i : ℕ} :
    findInSlice haystack needle = some i ↔
      needle <+: haystack.drop i ∧ ∀ j < i, ¬ needle <+: haystack.drop j := by
  unfold findInSlice
  by_cases hlen : haystack.length < needle.length
  · rw [if_pos (Or.inr hlen)]
    constructor
    · intro h
      cases h
    · intro h
      have hlt := lt_of_prefix_drop hneedle h.1
      omega
  · rw [if_neg (not_or.mpr ⟨hneedle, hlen⟩), List.find?_range_eq_some, take_drop_beq, List.mem_range]
    simp only [Bool.not_eq_true', ← Bool.not_eq_true, take_drop_beq]
    refine ⟨fun h => ⟨h.1, h.2.2⟩, fun h => ⟨h.1, ?_, h.2⟩⟩
    have hlt := lt_of_prefix_drop hneedle h.1
    omega

theorem findInSlice_eq_none (hneedle : needle ≠ []) :
    findInSlice haystack needle = none ↔ ∀ i, ¬ needle <+: haystack.drop i := by
  constructor
  · intro h i hi
    have hlt := lt_of_prefix_drop hneedle hi
    unfold findInSlice at h
    rw [if_neg (by simp only [hneedle, false_or]; omega), List.find?_range_eq_none] at h
    have hnot := h i (by omega)
    rw [Bool.not_eq_true', ← Bool.not_eq_true, take_drop_beq] at hnot
    exact hnot hi
  · intro h
    by_contra hsome
    obtain ⟨i, hi⟩ := Option.ne_none_iff_exists'.mp hsome
    exact h i ((findInSlice_eq_some hneedle).mp hi).1

end Slice

theorem findSome?_range_eq_some {β : Type} {f : ℕ → Option β} {n : ℕ} {b : β} :
    (List.range n).findSome? f = some b ↔ ∃ k < n, f k = some b ∧ ∀ j < k, f j = none := by
  induction n with
  | zero => simp
  | succ n ih =>
    rw [List.range_succ, List.findSome?_append, Option.or_eq_some_iff, ih,
      List.findSome?_eq_none_iff]
    simp only [List.mem_range, List.findSome?_singleton]
    constructor
    · rintro (⟨k, hk, hf, hmin⟩ | ⟨hnone, hf⟩)
      · exact ⟨k, by omega, hf, hmin⟩
      · exact ⟨n, by omega, hf, hnone⟩
    · rintro ⟨k, hk, hf, hmin⟩
      rcases Nat.lt_succ_iff_lt_or_eq.mp hk with hk | rfl
      · exact Or.inl ⟨k, hk, hf, hmin⟩
      · exact Or.inr ⟨hmin, hf⟩

namespace Editor

/-- The query is in a line, at a column. -/
def Occurs (s : Editor) (y x : ℕ) : Prop :=
  y < s.lines.length ∧ pathBytes s.searchQuery <+: (s.line y).drop x

/-- How many lines to go to a place; to one up to the cursor, all around. -/
def steps (s : Editor) (y x : ℕ) : ℕ :=
  if y = s.cy ∧ x ≤ s.cx then s.lines.length
  else if s.cy ≤ y then y - s.cy else y + s.lines.length - s.cy

/-- The first place behind the cursor where the query is. -/
def First (s : Editor) (y x : ℕ) : Prop :=
  s.Occurs y x ∧ ∀ y' x', s.Occurs y' x' →
    s.steps y x < s.steps y' x' ∨ s.steps y x = s.steps y' x' ∧ x ≤ x'

/-- The line that the loop looks at, and where it begins there. -/
def lineIdx (s : Editor) (k : ℕ) : ℕ := (s.cy + k) % s.lines.length

def searchStart (s : Editor) (k : ℕ) : ℕ := if k = 0 then s.cx + 1 else 0

variable {s : Editor}

theorem lineIdx_eq (hcy : s.cy < s.lines.length) {k : ℕ} (hk : k < s.lines.length) :
    s.lineIdx k = if s.cy + k < s.lines.length then s.cy + k else s.cy + k - s.lines.length := by
  unfold lineIdx
  split_ifs with h
  · exact Nat.mod_eq_of_lt h
  · rw [Nat.mod_eq_sub_mod (by omega), Nat.mod_eq_of_lt (by omega)]

theorem steps_eq_iff (hcy : s.cy < s.lines.length) {y x k : ℕ} (hy : y < s.lines.length)
    (hk : k < s.lines.length) : s.steps y x = k ↔ y = s.lineIdx k ∧ s.searchStart k ≤ x := by
  rw [lineIdx_eq hcy hk]
  unfold steps searchStart
  split_ifs <;> omega

theorem round_eq (query : List UInt8) (k : ℕ) :
    (if s.searchStart k < (s.line (s.lineIdx k)).length then
      (findInSlice ((s.line (s.lineIdx k)).drop (s.searchStart k)) query).map fun pos =>
        (s.lineIdx k, s.searchStart k + pos)
    else none) =
      (findInSlice ((s.line (s.lineIdx k)).drop (s.searchStart k)) query).map fun pos =>
        (s.lineIdx k, s.searchStart k + pos) := by
  split_ifs with h
  · rfl
  · rw [List.drop_eq_nil_of_le (by omega)]
    unfold findInSlice
    cases query <;> simp

theorem searchFrom_eq : s.searchFrom (pathBytes s.searchQuery) =
    (List.range s.lines.length).findSome? fun k =>
      (findInSlice ((s.line (s.lineIdx k)).drop (s.searchStart k)) (pathBytes s.searchQuery)).map
        fun pos => (s.lineIdx k, s.searchStart k + pos) :=
  congrArg (List.findSome? · _) (funext fun k => round_eq _ k)

section SearchFrom

variable (hcy : s.cy < s.lines.length) (hquery : pathBytes s.searchQuery ≠ [])
include hcy hquery

theorem not_occurs_of_round {k y x : ℕ} (hk : k < s.lines.length)
    (h : findInSlice ((s.line (s.lineIdx k)).drop (s.searchStart k)) (pathBytes s.searchQuery) = none)
    (hsteps : s.steps y x = k) : ¬ s.Occurs y x := by
  rintro ⟨hy, hx⟩
  obtain ⟨rfl, hstart⟩ := (steps_eq_iff hcy hy hk).mp hsteps
  refine (findInSlice_eq_none hquery).mp h (x - s.searchStart k) ?_
  rwa [List.drop_drop, Nat.add_sub_cancel' hstart]

theorem searchFrom_eq_some {y x : ℕ}
    (h : s.searchFrom (pathBytes s.searchQuery) = some (y, x)) :
    s.First y x ∧ ¬ (y = s.cy ∧ x ≤ s.cx) := by
  rw [searchFrom_eq, findSome?_range_eq_some] at h
  obtain ⟨k, hk, hround, hbefore⟩ := h
  obtain ⟨pos, hpos, hplace⟩ := Option.map_eq_some_iff.mp hround
  obtain ⟨rfl, rfl⟩ := Prod.mk.injEq .. ▸ hplace
  obtain ⟨hmatch, hmin⟩ := (findInSlice_eq_some hquery).mp hpos
  rw [List.drop_drop] at hmatch
  have hline : s.lineIdx k < s.lines.length := Nat.mod_lt _ (by omega)
  have hsteps : s.steps (s.lineIdx k) (s.searchStart k + pos) = k :=
    (steps_eq_iff hcy hline hk).mpr ⟨rfl, Nat.le_add_right _ _⟩
  refine ⟨⟨⟨hline, hmatch⟩, fun y' x' hoccurs => ?_⟩, fun hcursor => ?_⟩
  swap
  · unfold steps at hsteps
    rw [if_pos hcursor] at hsteps
    omega
  rw [hsteps]
  rcases lt_trichotomy k (s.steps y' x') with hlt | heq | hgt
  · exact Or.inl hlt
  · refine Or.inr ⟨heq, ?_⟩
    obtain ⟨rfl, hstart⟩ := (steps_eq_iff hcy hoccurs.1 hk).mp heq.symm
    by_contra hlt
    refine hmin (x' - s.searchStart k) (by omega) ?_
    rw [List.drop_drop, Nat.add_sub_cancel' hstart]
    exact hoccurs.2
  · have hnone := Option.map_eq_none_iff.mp (hbefore _ hgt)
    exact absurd hoccurs (not_occurs_of_round hcy hquery (hgt.trans hk) hnone rfl)

theorem searchFrom_eq_none (h : s.searchFrom (pathBytes s.searchQuery) = none) {y x : ℕ}
    (hoccurs : s.Occurs y x) : y = s.cy ∧ x ≤ s.cx := by
  rw [searchFrom_eq, List.findSome?_eq_none_iff] at h
  by_contra hbehind
  have hk : s.steps y x < s.lines.length := by
    have hy := hoccurs.1
    unfold steps
    rw [if_neg hbehind]
    split_ifs <;> omega
  have hnone := Option.map_eq_none_iff.mp (h _ (List.mem_range.mpr hk))
  exact not_occurs_of_round hcy hquery hk hnone rfl hoccurs

end SearchFrom

theorem pathBytes_ne_nil {path : Vfs.Path} (h : path ≠ []) : pathBytes path ≠ [] := by
  intro hnil
  have hparse := Vfs.parsePath_pathBytes path
  rw [hnil, show ([] : List UInt8) = pathBytes [] from rfl, Vfs.parsePath_pathBytes] at hparse
  exact h (Option.some.inj hparse).symm

/-- The search finds the first place behind the cursor, all around, unless the query is only in the
part of the cursor's line up to the cursor. -/
theorem searchForward_first_iff (hcy : s.cy < s.lines.length) (hquery : s.searchQuery ≠ []) :
    ((s.searchForward.statusMsg = "[ Not Found ]".toList → ∀ y x, ¬ s.Occurs y x) ∧
      ((∃ y x, s.Occurs y x) → s.First s.searchForward.cy s.searchForward.cx)) ↔
    ((∃ x ≤ s.cx, s.Occurs s.cy x) → ∃ y x, s.Occurs y x ∧ ¬ (y = s.cy ∧ x ≤ s.cx)) := by
  have hbytes := pathBytes_ne_nil hquery
  unfold searchForward
  rw [if_neg hquery]
  cases hfound : s.searchFrom (pathBytes s.searchQuery) with
  | none =>
    have hplace : ∀ {y x}, s.Occurs y x → y = s.cy ∧ x ≤ s.cx := searchFrom_eq_none hcy hbytes hfound
    constructor
    · rintro ⟨hnone, -⟩ ⟨x, -, hx⟩
      exact absurd hx (hnone rfl _ _)
    · intro h
      have hnone : ∀ y x, ¬ s.Occurs y x := by
        intro y x hoccurs
        obtain ⟨rfl, hx⟩ := hplace hoccurs
        obtain ⟨y', x', hoccurs', hbehind⟩ := h ⟨x, hx, hoccurs⟩
        exact hbehind (hplace hoccurs')
      refine ⟨fun _ => hnone, fun hsome => ?_⟩
      obtain ⟨y, x, hoccurs⟩ := hsome
      exact absurd hoccurs (hnone y x)
  | some place =>
    obtain ⟨y, x⟩ := place
    obtain ⟨hfirst, hbehind⟩ := searchFrom_eq_some hcy hbytes hfound
    refine iff_of_true ⟨fun hstatus => ?_, fun _ => hfirst⟩ fun _ => ⟨y, x, hfirst.1, hbehind⟩
    exact absurd (show "Found".toList = "[ Not Found ]".toList from hstatus) (by decide)

/-- The query is behind the cursor, in the next line. -/
theorem searchForward_first_next :
    let s := { edit 25 80 "/f".toList (some [0x62, 0x0A, 0x61]) with searchQuery := ['a'] }
    ((s.searchForward.statusMsg = "[ Not Found ]".toList → ∀ y x, ¬ s.Occurs y x) ∧
      ((∃ y x, s.Occurs y x) → s.First s.searchForward.cy s.searchForward.cx)) ↔
    ((∃ x ≤ s.cx, s.Occurs s.cy x) → ∃ y x, s.Occurs y x ∧ ¬ (y = s.cy ∧ x ≤ s.cx)) :=
  searchForward_first_iff (by decide) (by decide)

/-- A search for the text of the file, from its beginning. -/
theorem search_at_cursor :
    ((edit 25 80 "/f".toList (some [0x61])).processKey ⟨'\x17', ['a', '\n'], true⟩).1.statusMsg =
        "[ Not Found ]".toList ∧
      Occurs { edit 25 80 "/f".toList (some [0x61]) with searchQuery := ['a'] } 0 0 := by
  refine ⟨by decide +kernel, by decide, ?_⟩
  rw [List.prefix_iff_eq_take]
  decide +kernel

end Editor

end Aeterna.Grape
