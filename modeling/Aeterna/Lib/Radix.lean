import Mathlib.Data.Option.Basic
import Mathlib.Logic.Function.Basic
import Mathlib.Tactic.Common

/-!
# Radix trees in a table memory

A memory of tables holds trees: an entry is absent, points to a table one level below, or ends the
walk. `resolve` walks from a table along a list of indices. To reason about writes, tables carry
labels: `Tagged` says that the child of a labelled table has the label that the scheme gives it,
and that an exclusive label is the only label of its table. A walk then reads only tables whose
labels lie on its path, so a write to an exclusively labelled table changes no other walk.
-/

namespace Lib.Radix

variable {T I E L : Type*}

/-- What an entry means to a walk. -/
inductive Slot (T E : Type*) where
  | absent
  | table (t : T)
  | leaf (e : E)

/-- How an entry is read with `n` levels left below it; the zero entry is absent. -/
structure Format (T E : Type*) where
  decode : ℕ → E → Slot T E
  zero : E
  decode_zero : ∀ n, decode n zero = .absent

/-! ## Walks -/

section Walk

variable (F : Format T E) (mem : T → I → E)

/-- The entry that ends the walk from `t` along the indices, and the levels left below it. -/
def resolve : T → List I → Option (ℕ × E)
  | _, [] => none
  | t, i :: is =>
    match F.decode is.length (mem t i) with
    | .absent => none
    | .table u => resolve u is
    | .leaf e => some (is.length, e)

/-- The table reached from `t`, which has `n` levels below it, along the indices. -/
def tableAt : ℕ → T → List I → Option T
  | _, t, [] => some t
  | n, t, i :: is =>
    match F.decode n (mem t i) with
    | .table u => tableAt (n - 1) u is
    | _ => none

end Walk

section WalkLemmas

variable {F : Format T E} {mem mem' : T → I → E}

@[simp] theorem resolve_nil (t : T) : resolve F mem t [] = none := rfl

theorem resolve_of_absent {t : T} {i : I} {is : List I}
    (h : F.decode is.length (mem t i) = .absent) : resolve F mem t (i :: is) = none := by
  rw [resolve, h]

theorem resolve_of_table {t u : T} {i : I} {is : List I}
    (h : F.decode is.length (mem t i) = .table u) :
    resolve F mem t (i :: is) = resolve F mem u is := by
  rw [resolve, h]

theorem resolve_of_leaf {t : T} {i : I} {is : List I} {e : E}
    (h : F.decode is.length (mem t i) = .leaf e) :
    resolve F mem t (i :: is) = some (is.length, e) := by
  rw [resolve, h]

theorem resolve_of_zero {t : T} (h : ∀ i, mem t i = F.zero) (is : List I) :
    resolve F mem t is = none := by
  cases is with
  | nil => rfl
  | cons i is => exact resolve_of_absent (by rw [h, F.decode_zero])

/-- The step that walks from tables with the same entry take together. -/
theorem resolve_cons_congr {t t' : T} {i : I} {is : List I} (he : mem' t' i = mem t i)
    (hsub : ∀ u, F.decode is.length (mem t i) = .table u →
      resolve F mem' u is = resolve F mem u is) :
    resolve F mem' t' (i :: is) = resolve F mem t (i :: is) := by
  rw [resolve, resolve, he]
  cases hd : F.decode is.length (mem t i) with
  | absent => rfl
  | table u => exact hsub u hd
  | leaf e => rfl

theorem tableAt_append {n : ℕ} {t u v : T} {p : List I} {i : I}
    (h : tableAt F mem n t p = some u) (hv : F.decode (n - p.length) (mem u i) = .table v) :
    tableAt F mem n t (p ++ [i]) = some v := by
  induction p generalizing n t with
  | nil =>
    cases h
    rw [List.nil_append, tableAt]
    rw [List.length_nil, Nat.sub_zero] at hv
    rw [hv]
    rfl
  | cons j p ih =>
    rw [List.cons_append, tableAt]
    rw [tableAt] at h
    cases hd : F.decode n (mem t j) with
    | absent => rw [hd] at h; cases h
    | leaf e => rw [hd] at h; cases h
    | table w =>
      rw [hd] at h
      refine ih h ?_
      rw [List.length_cons] at hv
      rwa [Nat.sub_sub, Nat.add_comm 1]

end WalkLemmas

/-! ## Labels -/

/-- A labelling scheme: `sub l i` is the label of the child at index `i` of a table labelled `l`, or
`none` where children are not followed; `level` counts the levels below a table. -/
structure Scheme (I L : Type*) where
  sub : L → I → Option L
  level : L → ℕ
  Excl : L → Prop
  level_sub : ∀ {l i l'}, sub l i = some l' → level l' + 1 = level l

namespace Scheme

variable (S : Scheme I L)

/-- The label reached from `l` along the indices. -/
def follow : L → List I → Option L
  | l, [] => some l
  | l, i :: is => (S.sub l i).bind fun l' => follow l' is

theorem follow_cons {l l' : L} {i : I} (h : S.sub l i = some l') (is : List I) :
    S.follow l (i :: is) = S.follow l' is := by
  rw [follow, h]
  rfl

/-- The labels give every table that a walk along the indices can read. -/
def Tracks : L → List I → Prop
  | _, [] => True
  | l, i :: is => S.level l = is.length ∧ (is ≠ [] → ∃ l', S.sub l i = some l' ∧ Tracks l' is)

end Scheme

/-- Labels agree with the memory, and an exclusive label is its table's only label. -/
structure Tagged (F : Format T E) (S : Scheme I L) (mem : T → I → E) (Tag : T → L → Prop) : Prop where
  child : ∀ {t l i l' u}, Tag t l → S.sub l i = some l' →
    F.decode (S.level l) (mem t i) = .table u → Tag u l'
  excl : ∀ {t l l'}, Tag t l → S.Excl l → Tag t l' → l' = l

section Writes

variable {F : Format T E} {S : Scheme I L} {mem mem' : T → I → E} {Tag : T → L → Prop}

/-- A walk reads only tables labelled along its path. -/
theorem Tagged.resolve_congr (hT : Tagged F S mem Tag) {t : T} {l : L} {is : List I}
    (ht : Tag t l) (his : S.Tracks l is)
    (h : ∀ pre j post u m, is = pre ++ j :: post → S.follow l pre = some m → Tag u m →
      mem' u j = mem u j) :
    resolve F mem' t is = resolve F mem t is := by
  induction is generalizing t l with
  | nil => rfl
  | cons i is ih =>
    refine resolve_cons_congr (h [] i is t l rfl rfl ht) fun u hu => ?_
    by_cases hnil : is = []
    · rw [hnil, resolve_nil, resolve_nil]
    obtain ⟨l', hl', htr⟩ := his.2 hnil
    refine ih (hT.child ht hl' (his.1 ▸ hu)) htr fun pre j post v m he hm hv => ?_
    exact h (i :: pre) j post v m (by rw [he]; rfl) (by rw [S.follow_cons hl', hm]) hv

/-- The labels together with one more. -/
def withTag (Tag : T → L → Prop) (t : T) (l : L) : T → L → Prop :=
  fun u m => Tag u m ∨ (u = t ∧ m = l)

theorem withTag_of_tag {t u : T} {l m : L} (h : Tag u m) : withTag Tag t l u m := .inl h

theorem withTag_self (t : T) (l : L) : withTag Tag t l t l := .inr ⟨rfl, rfl⟩

variable [DecidableEq T]

def setRow (mem : T → I → E) (t : T) (row : I → E) : T → I → E := Function.update mem t row

@[simp] theorem setRow_self (t : T) (row : I → E) : setRow mem t row t = row := by
  rw [setRow, Function.update_self]

theorem setRow_of_ne {t u : T} (h : u ≠ t) (row : I → E) : setRow mem t row u = mem u := by
  rw [setRow, Function.update_of_ne h]

@[simp] theorem setRow_setRow (t : T) (row row' : I → E) :
    setRow (setRow mem t row) t row' = setRow mem t row' := by
  rw [setRow, setRow, setRow, Function.update_idem]

theorem Tagged.fill (hT : Tagged F S mem Tag) {f : T} (hf : ∀ l, ¬ Tag f l) (l : L) (row : I → E)
    (hrow : ∀ {i l' u}, S.sub l i = some l' → F.decode (S.level l) (row i) = .table u → Tag u l') :
    Tagged F S (setRow mem f row) (withTag Tag f l) where
  child := by
    rintro t m i m' u (ht | ⟨rfl, rfl⟩) hm' hu
    · have hne : t ≠ f := fun he => hf m (he ▸ ht)
      rw [setRow_of_ne hne] at hu
      exact .inl (hT.child ht hm' hu)
    · rw [setRow_self] at hu
      exact .inl (hrow hm' hu)
  excl := by
    rintro t m m' (ht | ⟨rfl, rfl⟩) hx (ht' | ⟨he, rfl⟩)
    · exact hT.excl ht hx ht'
    · exact absurd (he ▸ ht) (hf m)
    · exact absurd ht' (hf m')
    · rfl

theorem Tagged.resolve_fill (hT : Tagged F S mem Tag) {f : T} (hf : ∀ l, ¬ Tag f l) {row : I → E}
    {t : T} {l : L} {is : List I} (ht : Tag t l) (his : S.Tracks l is) :
    resolve F (setRow mem f row) t is = resolve F mem t is := by
  refine hT.resolve_congr ht his fun pre j post u m _ _ hu => ?_
  have hne : u ≠ f := fun he => hf m (he ▸ hu)
  rw [setRow_of_ne hne]

/-- A labelled table is overwritten with pointers to tables of the right labels. -/
theorem Tagged.refill (hT : Tagged F S mem Tag) {t : T} {l : L} (ht : Tag t l) (hx : S.Excl l)
    {row : I → E}
    (hrow : ∀ {i l' u}, S.sub l i = some l' → F.decode (S.level l) (row i) = .table u → Tag u l') :
    Tagged F S (setRow mem t row) Tag where
  child := by
    intro v m i m' u hv hm' hu
    by_cases he : v = t
    · subst he
      rw [setRow_self] at hu
      cases hT.excl ht hx hv
      exact hrow hm' hu
    · rw [setRow_of_ne he] at hu
      exact hT.child hv hm' hu
  excl := hT.excl

variable [DecidableEq I]

def setEntry (mem : T → I → E) (t : T) (i : I) (e : E) : T → I → E :=
  setRow mem t (Function.update (mem t) i e)

@[simp] theorem setEntry_self (t : T) (i : I) (e : E) : setEntry mem t i e t i = e := by
  rw [setEntry, setRow_self, Function.update_self]

theorem setEntry_of_ne {t u : T} {i j : I} (h : ¬ (u = t ∧ j = i)) (e : E) :
    setEntry mem t i e u j = mem u j := by
  by_cases hu : u = t
  · rw [setEntry, hu, setRow_self, Function.update_of_ne fun hj => h ⟨hu, hj⟩]
  · rw [setEntry, setRow_of_ne hu]

theorem Tagged.set (hT : Tagged F S mem Tag) {t : T} {l : L} (ht : Tag t l) (hx : S.Excl l) {i : I}
    {e : E}
    (he : ∀ {l' u}, S.sub l i = some l' → F.decode (S.level l) e = .table u → Tag u l') :
    Tagged F S (setEntry mem t i e) Tag := by
  refine hT.refill ht hx fun {j l' u} hl' hu => ?_
  by_cases hj : j = i
  · subst hj
    rw [Function.update_self] at hu
    exact he hl' hu
  · rw [Function.update_of_ne hj] at hu
    exact hT.child ht hl' hu

/-- A write to an exclusively labelled table changes only the walks that lead through it. -/
theorem Tagged.resolve_set_of_ne (hT : Tagged F S mem Tag) {t u : T} {l m : L} {i : I} {e : E}
    {is : List I} (hu : Tag u m) (hx : S.Excl m) (ht : Tag t l) (his : S.Tracks l is)
    (hne : ∀ pre post, is = pre ++ i :: post → S.follow l pre ≠ some m) :
    resolve F (setEntry mem u i e) t is = resolve F mem t is := by
  refine hT.resolve_congr ht his fun pre j post v m' hp hf hv => ?_
  refine setEntry_of_ne ?_ e
  rintro ⟨rfl, rfl⟩
  cases hT.excl hu hx hv
  exact hne pre post hp hf

/-- An absent entry that is made to point to an empty table changes no walk. -/
theorem Tagged.resolve_link (hT : Tagged F S mem Tag) {t u f : T} {l m : L} {i : I} {e : E}
    {is : List I} (hu : Tag u m) (hx : S.Excl m) (huf : f ≠ u)
    (habs : F.decode (S.level m) (mem u i) = .absent)
    (he : F.decode (S.level m) e = .table f) (hzero : ∀ j, mem f j = F.zero) (ht : Tag t l)
    (his : S.Tracks l is) :
    resolve F (setEntry mem u i e) t is = resolve F mem t is := by
  induction is generalizing t l with
  | nil => rfl
  | cons j is ih =>
    by_cases hhere : t = u ∧ j = i
    · obtain ⟨rfl, rfl⟩ := hhere
      cases hT.excl hu hx ht
      -- the walk ended at the absent entry; now it ends in the empty table
      rw [his.1] at habs he
      rw [resolve_of_absent habs, resolve_of_table (by rw [setEntry_self]; exact he)]
      refine resolve_of_zero (fun k => ?_) is
      rw [setEntry_of_ne fun hc => huf hc.1, hzero]
    · refine resolve_cons_congr (setEntry_of_ne hhere e) fun v hv => ?_
      by_cases hnil : is = []
      · rw [hnil, resolve_nil, resolve_nil]
      obtain ⟨l', hl', htr⟩ := his.2 hnil
      exact ih (hT.child ht hl' (his.1 ▸ hv)) htr

end Writes

end Lib.Radix
