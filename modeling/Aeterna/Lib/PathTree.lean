import Mathlib.Data.List.Infix
import Mathlib.Logic.Function.Basic
import Mathlib.Tactic.Push

/-!
# Trees stored by path

A tree whose nodes are stored under their paths from the root, `T : List α → Option N`. It is
`Closed` when the root and every proper prefix of a stored path hold the node `dir`.

`put`, `delete` and `graft` are storing a node with its missing directories,
deleting a node, and moving a subtree; `closed_put_iff` and `closed_graft_iff` say exactly when the
result is closed again.
-/

namespace Lib.PathTree

variable {α N : Type*}

/-- `p` lies strictly above `k`. -/
def Above (p k : List α) : Prop := p <+: k ∧ p ≠ k

theorem not_above_nil (p : List α) : ¬ Above p [] := fun h => h.2 (List.prefix_nil.mp h.1)

theorem above_append_singleton_iff {p k : List α} {a : α} :
    Above p (k ++ [a]) ↔ p <+: k := by
  constructor
  · rintro ⟨hp, hne⟩
    exact ((List.prefix_concat_iff).mp hp).resolve_left hne
  · intro hp
    refine ⟨hp.trans (List.prefix_append k [a]), ?_⟩
    rintro rfl
    have hlen := hp.length_le
    rw [List.length_append, List.length_singleton] at hlen
    omega

theorem Above.mono {p q k : List α} (h : Above p q) (hq : q <+: k) : Above p k := by
  refine ⟨h.1.trans hq, ?_⟩
  rintro rfl
  exact h.2 (h.1.eq_of_length_le hq.length_le)

theorem Above.not_ge {p q : List α} (h : Above p q) : ¬ q <+: p :=
  fun hq => h.2 (h.1.eq_of_length_le hq.length_le)

theorem above_append {p s : List α} (hs : s ≠ []) : Above p (p ++ s) :=
  ⟨List.prefix_append p s, fun h => hs (List.self_eq_append_right.mp h)⟩

/-- The root is a directory, and so is what lies directly above a stored node. -/
structure Closed (dir : N) (T : List α → Option N) : Prop where
  root : T [] = some dir
  parent : ∀ p a, T (p ++ [a]) ≠ none → T p = some dir

variable {dir n : N} {T : List α → Option N} {p q k src dst : List α}

theorem Closed.above (hT : Closed dir T) (hk : T k ≠ none) (h : Above p k) : T p = some dir := by
  induction k using List.reverseRecOn with
  | nil => exact absurd h (not_above_nil p)
  | append_singleton k a ih =>
    have hdir := hT.parent k a hk
    by_cases hpk : p = k
    · rw [hpk, hdir]
    · exact ih (by simp [hdir]) ⟨above_append_singleton_iff.mp h, hpk⟩

theorem closed_of_above (hroot : T [] = some dir)
    (h : ∀ p k, Above p k → T k ≠ none → T p = some dir) : Closed dir T :=
  ⟨hroot, fun p a => h p (p ++ [a]) (above_append (by simp))⟩

open scoped Classical

/-! ## Storing a node -/

/-- Puts a directory wherever one is missing above `p`. -/
noncomputable def fillAbove (dir : N) (T : List α → Option N) (p : List α) : List α → Option N :=
  fun q => if Above q p ∧ T q = none then some dir else T q

/-- Stores `n` at `p`, with the directories missing above it. -/
noncomputable def put (dir : N) (T : List α → Option N) (p : List α) (n : N) :
    List α → Option N :=
  Function.update (fillAbove dir T p) p (some n)

theorem fillAbove_of_some (h : T q ≠ none) : fillAbove dir T p q = T q := if_neg fun hq => h hq.2

theorem fillAbove_of_not_above (h : ¬ Above q p) : fillAbove dir T p q = T q :=
  if_neg fun hq => h hq.1

theorem fillAbove_of_above (h : Above q p) (hq : T q = none ∨ T q = some dir) :
    fillAbove dir T p q = some dir := by
  rcases hq with hq | hq
  · exact if_pos ⟨h, hq⟩
  · rw [fillAbove_of_some (by simp [hq]), hq]

theorem fillAbove_ne_none (h : T q ≠ none) : fillAbove dir T p q ≠ none := by
  rwa [fillAbove_of_some h]

theorem put_self : put dir T p n p = some n := by rw [put, Function.update_self]

theorem put_of_ne (h : q ≠ p) : put dir T p n q = fillAbove dir T p q := by
  rw [put, Function.update_of_ne h]

/-- Storing `n` at `p` keeps the tree closed exactly when nothing above `p` is other than a
directory, and `n` is one too or has nothing below it. -/
theorem closed_put_iff (hT : Closed dir T) :
    Closed dir (put dir T p n) ↔
      (∀ q, Above q p → T q ≠ none → T q = some dir) ∧
        (n = dir ∨ p ≠ [] ∧ ∀ k, T k ≠ none → ¬ Above p k) := by
  constructor
  · intro h
    constructor
    · intro q hq hsome
      have hdir := h.above (by simp [put_self]) hq
      rwa [put_of_ne hq.2, fillAbove_of_some hsome] at hdir
    · by_contra hcon
      push Not at hcon
      obtain ⟨hn, hbelow⟩ := hcon
      have hp : p ≠ [] := by
        rintro rfl
        have hroot := h.root
        rw [put_self] at hroot
        exact hn (Option.some.inj hroot)
      obtain ⟨k, hk, hpk⟩ := hbelow hp
      have hk' : put dir T p n k ≠ none := by
        rw [put_of_ne (Ne.symm hpk.2)]
        exact fillAbove_ne_none hk
      have hdir := h.above hk' hpk
      rw [put_self] at hdir
      exact hn (Option.some.inj hdir)
  · rintro ⟨habove, hn⟩
    have above_dir : ∀ q, Above q p → put dir T p n q = some dir := by
      intro q hq
      rw [put_of_ne hq.2]
      refine fillAbove_of_above hq ?_
      by_cases hnone : T q = none
      · exact Or.inl hnone
      · exact Or.inr (habove q hq hnone)
    refine closed_of_above ?_ fun q k hqk hk => ?_
    · by_cases hp : p = []
      · subst hp
        rw [put_self, hn.resolve_right fun h => h.1 rfl]
      · exact above_dir [] ⟨List.nil_prefix, Ne.symm hp⟩
    · by_cases hqp : Above q p
      · exact above_dir q hqp
      -- not above `p`, so `k` is stored already and so is everything above it
      have hkp : k ≠ p := by
        rintro rfl
        exact hqp hqk
      rw [put_of_ne hkp, fillAbove_of_not_above fun h => hqp (hqk.mono h.1)] at hk
      have hdir := hT.above hk hqk
      by_cases hq : q = p
      · subst hq
        rw [put_self, hn.resolve_right fun h => h.2 k hk hqk]
      · rw [put_of_ne hq, fillAbove_of_some (by simp [hdir]), hdir]

/-! ## Deleting a node -/

noncomputable def delete (T : List α → Option N) (p : List α) : List α → Option N :=
  Function.update T p none

theorem delete_self : delete T p p = none := by rw [delete, Function.update_self]

theorem delete_of_ne (h : q ≠ p) : delete T p q = T q := by rw [delete, Function.update_of_ne h]

theorem closed_delete (hT : Closed dir T) (hp : p ≠ []) (h : ∀ k, T k ≠ none → ¬ Above p k) :
    Closed dir (delete T p) := by
  refine closed_of_above ?_ fun q k hqk hk => ?_
  · rw [delete_of_ne (Ne.symm hp), hT.root]
  · have hkp : k ≠ p := by
      rintro rfl
      exact hk delete_self
    rw [delete_of_ne hkp] at hk
    have hqp : q ≠ p := by
      rintro rfl
      exact h k hk hqk
    rw [delete_of_ne hqp, hT.above hk hqk]

/-! ## Moving a subtree -/

noncomputable def prune (T : List α → Option N) (p : List α) : List α → Option N :=
  fun q => if p <+: q then none else T q

theorem prune_of_outside (h : ¬ p <+: q) : prune T p q = T q := if_neg h

theorem prune_ne_none_iff : prune T p q ≠ none ↔ ¬ p <+: q ∧ T q ≠ none := by
  unfold prune
  split_ifs with h <;> simp [h]

theorem closed_prune (hT : Closed dir T) (hp : p ≠ []) : Closed dir (prune T p) := by
  refine closed_of_above ?_ fun q k hqk hk => ?_
  · rw [prune_of_outside fun h => hp (List.prefix_nil.mp h), hT.root]
  · obtain ⟨hpk, hk'⟩ := prune_ne_none_iff.mp hk
    rw [prune_of_outside fun h => hpk (h.trans hqk.1), hT.above hk' hqk]

/-- Moves the subtree at `src` to `dst`, over what is there, with the directories missing above
`dst`. -/
noncomputable def graft (dir : N) (T : List α → Option N) (src dst : List α) :
    List α → Option N :=
  fun q =>
    if dst <+: q ∧ T (src ++ q.drop dst.length) ≠ none then T (src ++ q.drop dst.length)
    else fillAbove dir (prune T src) dst q

theorem graft_append {s : List α} (h : T (src ++ s) ≠ none) :
    graft dir T src dst (dst ++ s) = T (src ++ s) := by
  unfold graft
  rw [List.drop_left, if_pos ⟨List.prefix_append dst s, h⟩]

theorem graft_append_of_none {s : List α} (h : T (src ++ s) = none) :
    graft dir T src dst (dst ++ s) = prune T src (dst ++ s) := by
  unfold graft
  rw [List.drop_left, if_neg fun hs => hs.2 h]
  exact fillAbove_of_not_above fun ha => ha.not_ge (List.prefix_append dst s)

theorem graft_of_outside (h : ¬ dst <+: q) :
    graft dir T src dst q = fillAbove dir (prune T src) dst q :=
  if_neg fun hq => h hq.1

theorem graft_ne_none (h : ¬ src <+: q) (hq : T q ≠ none) : graft dir T src dst q ≠ none := by
  have hp : prune T src q ≠ none := prune_ne_none_iff.mpr ⟨h, hq⟩
  unfold graft
  split_ifs with hmoved
  · exact hmoved.2
  · exact fillAbove_ne_none hp

/-- Below `dst`: above a moved node the moved directories, above a node that stays the moved
directories and those that stay. -/
theorem closed_graft_below (hT : Closed dir T) {s u : List α}
    (hland : ∀ s, T (src ++ s) ≠ none → T (src ++ s) ≠ some dir →
      ∀ k, T k ≠ none → ¬ src <+: k → ¬ Above (dst ++ s) k)
    (hu : u ≠ []) (hk : graft dir T src dst (dst ++ s ++ u) ≠ none) :
    graft dir T src dst (dst ++ s) = some dir := by
  have stays : T (src ++ (s ++ u)) = none → ¬ src <+: dst ++ s ++ u ∧ T (dst ++ s ++ u) ≠ none := by
    intro hnone
    rw [List.append_assoc, graft_append_of_none hnone, ← List.append_assoc] at hk
    exact prune_ne_none_iff.mp hk
  have hup : Above (src ++ s) (src ++ (s ++ u)) := by
    rw [← List.append_assoc]
    exact above_append hu
  by_cases hsome : T (src ++ s) = none
  · have hnone : T (src ++ (s ++ u)) = none := by
      by_contra hne
      simp [hT.above hne hup] at hsome
    obtain ⟨hstay, hk'⟩ := stays hnone
    rw [graft_append_of_none hsome,
      prune_of_outside fun h => hstay (h.trans (List.prefix_append _ u))]
    exact hT.above hk' (above_append hu)
  · rw [graft_append hsome]
    by_cases hnone : T (src ++ (s ++ u)) = none
    · obtain ⟨hstay, hk'⟩ := stays hnone
      by_contra hleaf
      exact hland s hsome hleaf _ hk' hstay (above_append hu)
    · exact hT.above hnone hup

/-- Away from `dst` everything stays, with the directories filled in above `dst`. -/
theorem closed_graft_beside (hT : Closed dir T)
    (habove : ∀ q, Above q dst → ¬ src <+: q → T q ≠ none → T q = some dir)
    (hq : ¬ dst <+: q) (hqk : Above q k) (hk : graft dir T src dst k ≠ none) :
    graft dir T src dst q = some dir := by
  rw [graft_of_outside hq]
  by_cases hqd : Above q dst
  · refine fillAbove_of_above hqd ?_
    by_cases hnone : prune T src q = none
    · exact Or.inl hnone
    · obtain ⟨hstay, hsome⟩ := prune_ne_none_iff.mp hnone
      exact Or.inr (by rw [prune_of_outside hstay, habove q hqd hstay hsome])
  · -- `k` is not below `dst` either: `q` and `dst` would be comparable
    have hkd : ¬ dst <+: k := by
      intro h
      rcases List.prefix_or_prefix_of_prefix hqk.1 h with h' | h'
      · exact hqd ⟨h', fun he => hq (by rw [he])⟩
      · exact hq h'
    rw [graft_of_outside hkd, fillAbove_of_not_above fun h => hqd (hqk.mono h.1)] at hk
    obtain ⟨hstay, hk'⟩ := prune_ne_none_iff.mp hk
    rw [fillAbove_of_not_above hqd, prune_of_outside fun h => hstay (h.trans hqk.1)]
    exact hT.above hk' hqk

/-- Moving the subtree at `src` to `dst` keeps the tree closed exactly when nothing that stays above
`dst` is other than a directory, and no moved node other than a directory comes to lie above a node
that stays. -/
theorem closed_graft_iff (hT : Closed dir T) (hsrc : T src ≠ none) (hs : src ≠ [])
    (hd : dst ≠ []) :
    Closed dir (graft dir T src dst) ↔
      (∀ q, Above q dst → ¬ src <+: q → T q ≠ none → T q = some dir) ∧
        ∀ s, T (src ++ s) ≠ none → T (src ++ s) ≠ some dir →
          ∀ k, T k ≠ none → ¬ src <+: k → ¬ Above (dst ++ s) k := by
  constructor
  · intro h
    constructor
    · intro q hq hstay hsome
      have hdst : graft dir T src dst (dst ++ []) ≠ none := by
        rw [graft_append (by rwa [List.append_nil]), List.append_nil]
        exact hsrc
      rw [List.append_nil] at hdst
      have hdir := h.above hdst hq
      rwa [graft_of_outside hq.not_ge,
        fillAbove_of_some (prune_ne_none_iff.mpr ⟨hstay, hsome⟩),
        prune_of_outside hstay] at hdir
    · intro s hsome hleaf k hk hstay hsk
      have hdir := h.above (graft_ne_none hstay hk) hsk
      rw [graft_append hsome] at hdir
      exact hleaf hdir
  · rintro ⟨habove, hland⟩
    have hroot : ¬ src <+: [] := fun h => hs (List.prefix_nil.mp h)
    refine closed_of_above ?_ fun q k hqk hk => ?_
    · rw [graft_of_outside fun h => hd (List.prefix_nil.mp h)]
      refine fillAbove_of_above ⟨List.nil_prefix, Ne.symm hd⟩ (Or.inr ?_)
      rw [prune_of_outside hroot, hT.root]
    by_cases hq : dst <+: q
    · obtain ⟨s, rfl⟩ := hq
      obtain ⟨u, rfl⟩ := hqk.1
      exact closed_graft_below hT hland (fun hu => hqk.2 (by simp [hu])) hk
    · exact closed_graft_beside hT habove hq hqk hk

end Lib.PathTree
