import Aeterna.Vfs.RamFs

/-!
# Well-formed trees

`WellFormed` says that the map of the RamFS is a tree: `/` is a directory, every key is a normal
path, and the parent of every key is a directory. Read by names instead of strings (`view`), that is
`Lib.PathTree.Closed` (`wellFormed_iff`), and storing a file, making a directory and removing a node
are the operations of that library. Removing keeps every tree well formed (`wellFormed_remove`);
for the others the exact condition is `FileFits` and `DirFits`.
-/

namespace Aeterna.Vfs

open Lib.PathTree (Closed fillAbove put delete prune graft closed_put_iff closed_delete
  closed_graft_iff delete_self delete_of_ne)

/-! ## Well-formed trees -/

/-- The map is a tree. -/
structure WellFormed (tree : Tree) : Prop where
  root : tree[rootPath]? = some .dir
  normal : ∀ k ∈ tree, Normal k
  parent : ∀ k ∈ tree, k ≠ rootPath → tree[parent k]? = some .dir

theorem wellFormed_iff_keys (tree : Tree) :
    WellFormed tree ↔ tree[rootPath]? = some .dir ∧
      ∀ k ∈ tree.keys, Normal k ∧ (k ≠ rootPath → tree[parent k]? = some .dir) := by
  simp only [Std.ExtTreeMap.mem_keys]
  constructor
  · intro h
    exact ⟨h.root, fun k hk => ⟨h.normal k hk, h.parent k hk⟩⟩
  · rintro ⟨hroot, hkeys⟩
    exact ⟨hroot, fun k hk => (hkeys k hk).1, fun k hk => (hkeys k hk).2⟩

instance (tree : Tree) : Decidable (WellFormed tree) :=
  decidable_of_iff' _ (wellFormed_iff_keys tree)

/-- The tree by names. -/
def view (tree : Tree) (cs : List Component) : Option RamNode := tree[render cs]?

theorem wellFormed_iff {tree : Tree} :
    WellFormed tree ↔ (∀ k ∈ tree, Normal k) ∧ Closed .dir (view tree) := by
  constructor
  · intro h
    refine ⟨h.normal, h.root, fun p a hpa => ?_⟩
    have hdir := h.parent (render (p ++ [a])) (mem_iff.mpr hpa)
      (by rw [Ne, render_eq_root]; simp)
    rwa [parent_render] at hdir
  · rintro ⟨hnormal, hclosed⟩
    refine ⟨hclosed.root, hnormal, fun k hk hne => ?_⟩
    obtain ⟨cs, rfl⟩ := normal_iff.mp (hnormal k hk)
    rcases List.eq_nil_or_concat cs with rfl | ⟨ds, c, rfl⟩
    · exact absurd rfl hne
    · rw [List.concat_eq_append] at hk ⊢
      rw [parent_render]
      exact hclosed.parent ds c (mem_iff.mp hk)

/-! ## Making directories -/

open scoped Classical in
/-- The map with a directory at every path of `ps` that has no node. -/
noncomputable def filled (tree : Tree) (ps : List Component → Prop) (k : Path) : Option RamNode :=
  if (∃ ds, ps ds ∧ k = render ds) ∧ tree[k]? = none then some .dir else tree[k]?

theorem filled_render {tree : Tree} {ps : List Component → Prop} {cs : List Component} (h : ps cs)
    (hnone : tree[render cs]? = none) : filled tree ps (render cs) = some .dir :=
  if_pos ⟨⟨cs, h, rfl⟩, hnone⟩

theorem filled_of_some {tree : Tree} {ps : List Component → Prop} {k : Path}
    (h : tree[k]? ≠ none) : filled tree ps k = tree[k]? :=
  if_neg fun hk => h hk.2

theorem filled_of_not {tree : Tree} {ps : List Component → Prop} {k : Path}
    (h : ∀ ds, ps ds → k ≠ render ds) : filled tree ps k = tree[k]? :=
  if_neg fun hk => by
    obtain ⟨⟨ds, hds, rfl⟩, -⟩ := hk
    exact h ds hds rfl

theorem filled_congr {tree : Tree} {ps qs : List Component → Prop} (h : ∀ ds, ps ds ↔ qs ds) :
    filled tree ps = filled tree qs := by
  rw [funext fun ds => propext (h ds)]

theorem filled_eq_self {tree : Tree} {ps : List Component → Prop}
    (h : ∀ ds, ps ds → view tree ds ≠ none) (k : Path) : filled tree ps k = tree[k]? :=
  if_neg fun hk => by
    obtain ⟨⟨ds, hds, rfl⟩, hnone⟩ := hk
    exact h ds hds hnone

theorem filled_of_ne {tree : Tree} {cs : List Component} {c : Component} {k : Path}
    (h : k ≠ render (cs ++ [c])) :
    filled tree (· <+: cs) k = filled tree (· <+: cs ++ [c]) k := by
  have hex : (∃ ds, ds <+: cs ∧ k = render ds) ↔ ∃ ds, ds <+: cs ++ [c] ∧ k = render ds := by
    constructor
    · rintro ⟨ds, hds, hk⟩
      exact ⟨ds, hds.trans (List.prefix_append cs [c]), hk⟩
    · rintro ⟨ds, hds, hk⟩
      refine ⟨ds, (List.prefix_concat_iff.mp hds).resolve_left ?_, hk⟩
      rintro rfl
      exact h hk
  unfold filled
  by_cases hk : (∃ ds, ds <+: cs ∧ k = render ds) ∧ tree[k]? = none
  · rw [if_pos hk, if_pos ⟨hex.mp hk.1, hk.2⟩]
  · rw [if_neg hk, if_neg fun h' => hk ⟨hex.mpr h'.1, h'.2⟩]

variable {tree : Tree}

theorem view_ne_none_of_prefix (hT : Closed .dir (view tree)) {cs ds : List Component}
    (hcs : view tree cs ≠ none) (h : ds <+: cs) : view tree ds ≠ none := by
  by_cases he : ds = cs
  · rwa [he]
  · rw [hT.above hcs ⟨h, he⟩]
    simp

theorem filled_of_parent (hT : Closed .dir (view tree)) {cs : List Component}
    (h : ¬ (render cs ≠ rootPath ∧ render cs ∉ tree)) (k : Path) :
    filled tree (· <+: cs) k = tree[k]? := by
  have hcs : view tree cs ≠ none := by
    by_cases hnil : cs = []
    · rw [hnil, hT.root]
      simp
    · rw [not_and_or, not_not, not_not, render_eq_root] at h
      exact mem_iff.mp (h.resolve_left hnil)
  exact filled_eq_self (fun ds hds => view_ne_none_of_prefix hT hcs hds) k

theorem getElem?_mkdirFuel (hT : Closed .dir (view tree)) (cs : List Component) (fuel : ℕ)
    (hfuel : cs.length ≤ fuel) (k : Path) :
    (mkdirFuel fuel tree (render cs))[k]? = filled tree (· <+: cs) k := by
  induction cs using List.reverseRecOn generalizing fuel k with
  | nil =>
    rw [filled_of_parent hT fun h => h.1 render_nil]
    cases fuel with
    | zero => rfl
    | succ fuel => rw [mkdirFuel, if_pos (Or.inl render_nil)]
  | append_singleton cs c ih =>
    obtain ⟨fuel, rfl⟩ : ∃ n, fuel = n + 1 := by
      refine ⟨fuel - 1, ?_⟩
      rw [List.length_append, List.length_singleton] at hfuel
      omega
    have hroot : ¬ (render (cs ++ [c]) = rootPath ∨ render (cs ++ [c]) = []) := by
      rintro (h | h)
      · simpa using render_eq_root.mp h
      · exact not_normal_nil (h ▸ normal_render (cs ++ [c]))
    rw [mkdirFuel, parent_render]
    -- above the new directory everything is filled in, or was there already
    have hinner : ∀ k, (if render cs ≠ rootPath ∧ render cs ∉ tree then
        mkdirFuel fuel tree (render cs) else tree)[k]? = filled tree (· <+: cs) k := by
      intro k
      split_ifs with hpar
      · exact ih fuel (by simpa using hfuel) k
      · exact (filled_of_parent hT hpar k).symm
    dsimp only
    generalize (if render cs ≠ rootPath ∧ render cs ∉ tree then mkdirFuel fuel tree (render cs)
      else tree) = inner at hinner ⊢
    by_cases hk : k = render (cs ++ [c])
    · subst hk
      have hnew : inner[render (cs ++ [c])]? = tree[render (cs ++ [c])]? := by
        rw [hinner]
        refine filled_of_not fun ds hds he => ?_
        have hlen := hds.length_le
        rw [← render_injective he, List.length_append, List.length_singleton] at hlen
        omega
      split_ifs with hmem
      · rw [hnew, filled_of_some (hnew ▸ mem_iff.mp hmem)]
      · rw [mem_iff, not_not, hnew] at hmem
        rw [getElem?_insert, if_pos rfl]
        exact (@filled_render tree (· <+: cs ++ [c]) (cs ++ [c]) List.prefix_rfl hmem).symm
    · rw [← filled_of_ne hk, ← hinner]
      split_ifs
      · rfl
      · rw [getElem?_insert, if_neg (Ne.symm hk)]

theorem length_le_length_render (cs : List Component) : cs.length ≤ (render cs).length := by
  have hspell : ∀ cs : List Component, cs.length ≤ (spell cs).length := by
    intro cs
    induction cs with
    | nil => exact Nat.le_refl 0
    | cons c cs ih =>
      rw [spell_cons, List.length_cons, List.length_cons, List.length_append]
      omega
  unfold render
  split_ifs with h
  · simp [h]
  · exact hspell cs

theorem getElem?_mkdirInternal (hT : Closed .dir (view tree)) (cs : List Component) (k : Path) :
    (mkdirInternal tree (render cs))[k]? = filled tree (· <+: cs) k :=
  getElem?_mkdirFuel hT cs _ (length_le_length_render cs) k

theorem getElem?_ensureParent (hT : Closed .dir (view tree)) (cs : List Component) (k : Path) :
    (ensureParent tree (render cs))[k]? = filled tree (Lib.PathTree.Above · cs) k := by
  unfold ensureParent
  dsimp only
  rcases List.eq_nil_or_concat cs with rfl | ⟨ds, c, rfl⟩
  · exact (filled_of_not fun ds hds _ => Lib.PathTree.not_above_nil ds hds).symm
  · rw [List.concat_eq_append, parent_render,
      filled_congr fun es => Lib.PathTree.above_append_singleton_iff]
    split_ifs with hpar
    · exact getElem?_mkdirInternal hT ds k
    · exact (filled_of_parent hT hpar k).symm

/-! ## Reading the map by names -/

theorem filled_ne_none {ps : List Component → Prop} {k : Path} (h : filled tree ps k ≠ none) :
    k ∈ tree ∨ ∃ ds, k = render ds := by
  by_contra hk
  rw [not_or, not_exists, mem_iff, not_not] at hk
  exact h (by rw [filled_of_not fun ds _ => hk.2 ds, hk.1])

theorem forall_mem_iff (hn : ∀ k ∈ tree, Normal k) {P : Path → Prop} :
    (∀ k ∈ tree, P k) ↔ ∀ cs, view tree cs ≠ none → P (render cs) := by
  constructor
  · intro h cs hcs
    exact h _ (mem_iff.mpr hcs)
  · intro h k hk
    obtain ⟨cs, rfl⟩ := normal_iff.mp (hn k hk)
    exact h cs (mem_iff.mp hk)

theorem view_ensureParent (hT : Closed .dir (view tree)) (cs : List Component) :
    view (ensureParent tree (render cs)) = fillAbove .dir (view tree) cs := by
  funext q
  rw [view, getElem?_ensureParent hT]
  by_cases hq : Lib.PathTree.Above q cs ∧ view tree q = none
  · rw [fillAbove, if_pos hq]
    exact @filled_render tree (Lib.PathTree.Above · cs) q hq.1 hq.2
  · rw [fillAbove, if_neg hq]
    by_cases hnone : view tree q = none
    · refine filled_of_not fun ds hds he => hq ⟨?_, hnone⟩
      rwa [render_injective he]
    · exact filled_of_some hnone

theorem view_insert (cs : List Component) (node : RamNode) :
    view (tree.insert (render cs) node) = Function.update (view tree) cs (some node) := by
  funext q
  rw [view, getElem?_insert, Function.update_apply]
  by_cases hq : q = cs
  · rw [if_pos hq, if_pos (by rw [hq])]
  · rw [if_neg hq, if_neg fun h => hq (render_injective h).symm, view]

theorem view_insertFile (hT : Closed .dir (view tree)) (cs : List Component) (data : Data) :
    view (insertFile tree (render cs) data) = put .dir (view tree) cs (.file data) := by
  funext q
  rw [insertFile, view_insert, view_ensureParent hT]
  by_cases hq : q = cs
  · rw [hq, Function.update_self, Lib.PathTree.put_self]
  · rw [Function.update_of_ne hq, Lib.PathTree.put_of_ne hq]

theorem view_mkdirInternal (hT : Closed .dir (view tree)) {cs : List Component}
    (hcs : view tree cs = none) :
    view (mkdirInternal tree (render cs)) = put .dir (view tree) cs .dir := by
  funext q
  rw [view, getElem?_mkdirInternal hT]
  by_cases hq : q = cs
  · rw [hq, Lib.PathTree.put_self]
    exact @filled_render tree (· <+: cs) cs List.prefix_rfl hcs
  · rw [Lib.PathTree.put_of_ne hq]
    by_cases hab : Lib.PathTree.Above q cs ∧ view tree q = none
    · rw [fillAbove, if_pos hab]
      exact @filled_render tree (· <+: cs) q hab.1.1 hab.2
    · rw [fillAbove, if_neg hab]
      by_cases hnone : view tree q = none
      · refine filled_of_not fun ds hds he => hab ⟨?_, hnone⟩
        rw [← render_injective he] at hds
        exact ⟨hds, hq⟩
      · exact filled_of_some hnone

/-! ## Storing a file -/

/-- What storing a new file at `p` needs: a normal path, only directories above it, and nothing
below it. -/
def FileFits (tree : Tree) (p : Path) : Prop :=
  Normal p ∧ p ≠ rootPath ∧ (∀ k ∈ tree, Above k p → tree[k]? = some .dir) ∧
    ∀ k ∈ tree, ¬ Above p k

theorem normal_insertFile (h : WellFormed tree) (cs : List Component) (data : Data) :
    ∀ k ∈ insertFile tree (render cs) data, Normal k := by
  intro k hk
  rw [mem_iff, insertFile, getElem?_insert] at hk
  split_ifs at hk with he
  · exact he ▸ normal_render cs
  · rw [getElem?_ensureParent (wellFormed_iff.mp h).2] at hk
    rcases filled_ne_none hk with hmem | ⟨ds, rfl⟩
    · exact h.normal k hmem
    · exact normal_render ds

theorem wellFormed_insertFile_iff (h : WellFormed tree) (p : Path) (data : Data) :
    WellFormed (insertFile tree p data) ↔ FileFits tree p := by
  by_cases hp : Normal p
  · obtain ⟨hn, hT⟩ := wellFormed_iff.mp h
    obtain ⟨cs, rfl⟩ := normal_iff.mp hp
    rw [wellFormed_iff, and_iff_right (normal_insertFile h cs data), view_insertFile hT,
      closed_put_iff hT, FileFits, and_iff_right hp, forall_mem_iff hn, forall_mem_iff hn]
    simp only [above_render_iff, reduceCtorEq, false_or, Ne, render_eq_root]
    constructor
    · rintro ⟨habove, hroot, hbelow⟩
      exact ⟨hroot, fun cs' hne hab => habove cs' hab hne, hbelow⟩
    · rintro ⟨hroot, habove, hbelow⟩
      exact ⟨fun cs' hab hne => habove cs' hne hab, hroot, hbelow⟩
  · refine iff_of_false (fun hwf => hp (hwf.normal p ?_)) fun hf => hp hf.1
    rw [insertFile]
    simp

theorem wellFormed_insert_of_file (h : WellFormed tree) {p : Path} {old : Data}
    (hp : tree[p]? = some (.file old)) (data : Data) :
    WellFormed (tree.insert p (.file data)) := by
  have hmem : ∀ k : Path, k ∈ tree.insert p (.file data) → k ∈ tree := by
    intro k hk
    rw [mem_iff, getElem?_insert] at hk
    rw [mem_iff]
    split_ifs at hk with he
    · rw [← he, hp]
      simp
    · exact hk
  have hdir : ∀ k : Path, tree[k]? = some .dir → (tree.insert p (.file data))[k]? = some .dir := by
    intro k hk
    rw [getElem?_insert, if_neg, hk]
    rintro rfl
    simp [hp] at hk
  exact ⟨hdir _ h.root, fun k hk => h.normal k (hmem k hk),
    fun k hk hne => hdir _ (h.parent k (hmem k hk) hne)⟩

/-! ## Making a directory -/

/-- What making a new directory at `p` needs. -/
def DirFits (tree : Tree) (p : Path) : Prop :=
  Normal p ∧ ∀ k ∈ tree, Above k p → tree[k]? = some .dir

theorem mkdirInternal_of_mem (h : WellFormed tree) {p : Path} (hp : p ∈ tree) :
    mkdirInternal tree p = tree := by
  obtain ⟨-, hT⟩ := wellFormed_iff.mp h
  obtain ⟨cs, rfl⟩ := normal_iff.mp (h.normal p hp)
  apply Std.ExtTreeMap.ext_getElem?
  intro k
  rw [getElem?_mkdirInternal hT]
  exact filled_eq_self (fun ds hds => view_ne_none_of_prefix hT (mem_iff.mp hp) hds) k

theorem mem_mkdirInternal {p : Path} (hroot : p ≠ rootPath) (hp : p ≠ []) :
    p ∈ mkdirInternal tree p := by
  have hinsert : ∀ t : Tree, p ∈ if p ∈ t then t else t.insert p .dir := by
    intro t
    split_ifs with hmem
    · exact hmem
    · simp
  obtain ⟨n, hn⟩ := Nat.exists_eq_succ_of_ne_zero (List.length_pos_of_ne_nil hp).ne'
  rw [mkdirInternal, hn, mkdirFuel, if_neg (by simp [hroot, hp])]
  exact hinsert _

theorem normal_mkdirInternal (h : WellFormed tree) (cs : List Component) :
    ∀ k ∈ mkdirInternal tree (render cs), Normal k := by
  intro k hk
  rw [mem_iff, getElem?_mkdirInternal (wellFormed_iff.mp h).2] at hk
  rcases filled_ne_none hk with hmem | ⟨ds, rfl⟩
  · exact h.normal k hmem
  · exact normal_render ds

theorem wellFormed_mkdirInternal_iff (h : WellFormed tree) {p : Path} (hp : p ≠ []) :
    WellFormed (mkdirInternal tree p) ↔ p ∈ tree ∨ DirFits tree p := by
  obtain ⟨hn, hT⟩ := wellFormed_iff.mp h
  by_cases hmem : p ∈ tree
  · rw [mkdirInternal_of_mem h hmem]
    exact iff_of_true h (Or.inl hmem)
  · rw [or_iff_right hmem]
    by_cases hnormal : Normal p
    · obtain ⟨cs, rfl⟩ := normal_iff.mp hnormal
      have hnone : view tree cs = none := by
        rwa [mem_iff, not_not] at hmem
      rw [wellFormed_iff, and_iff_right (normal_mkdirInternal h cs), view_mkdirInternal hT hnone,
        closed_put_iff hT, and_iff_left (Or.inl rfl), DirFits, and_iff_right hnormal,
        forall_mem_iff hn]
      simp only [above_render_iff]
      exact forall_congr' fun _ => ⟨fun h a b => h b a, fun h a b => h b a⟩
    · have hroot : p ≠ rootPath := fun he => hnormal (he ▸ normal_root)
      exact iff_of_false (fun hwf => hnormal (hwf.normal p (mem_mkdirInternal hroot hp)))
        fun hd => hnormal hd.1

/-! ## Removing -/

theorem erase_of_not_mem {p : Path} (hp : p ∉ tree) : tree.erase p = tree := by
  apply Std.ExtTreeMap.ext_getElem?
  intro k
  rw [getElem?_erase]
  split_ifs with hk
  · rw [← hk]
    rw [mem_iff, not_not] at hp
    exact hp.symm
  · rfl

theorem view_erase (cs : List Component) :
    view (tree.erase (render cs)) = delete (view tree) cs := by
  funext q
  rw [view, getElem?_erase]
  by_cases hq : q = cs
  · rw [if_pos (by rw [hq]), hq, delete_self]
  · rw [if_neg fun h => hq (render_injective h).symm, delete_of_ne hq, view]

theorem wellFormed_erase (h : WellFormed tree) {p : Path} (hroot : p ≠ rootPath)
    (hp : ∀ k ∈ tree, ¬ asPrefix p <+: k) : WellFormed (tree.erase p) := by
  by_cases hmem : p ∈ tree
  · obtain ⟨hn, hT⟩ := wellFormed_iff.mp h
    obtain ⟨cs, rfl⟩ := normal_iff.mp (h.normal p hmem)
    refine wellFormed_iff.mpr ⟨fun k hk => hn k (Std.ExtTreeMap.mem_of_mem_erase hk), ?_⟩
    rw [view_erase]
    refine closed_delete hT (fun hnil => hroot (render_eq_root.mpr hnil)) fun ds hds hab => ?_
    exact hp _ (mem_iff.mpr hds) ((above_render_iff.mpr hab).asPrefix hroot)
  · rwa [erase_of_not_mem hmem]

theorem dir_of_asPrefix (h : WellFormed tree) {p k : Path} (hp : p ≠ []) (hk : k ∈ tree)
    (hbelow : asPrefix p <+: k) : tree[p]? = some .dir := by
  obtain ⟨hn, hT⟩ := wellFormed_iff.mp h
  obtain ⟨cs, rfl⟩ := normal_iff.mp (normal_of_asPrefix (hn k hk) hp hbelow)
  obtain ⟨ds, rfl⟩ := normal_iff.mp (hn k hk)
  exact hT.above (mem_iff.mp hk) (above_render_iff.mp (above_of_asPrefix hbelow))

theorem wellFormed_remove (h : WellFormed tree) (path : Path) :
    WellFormed (remove tree path).1 := by
  unfold remove
  dsimp only
  split_ifs with hroot hfull
  · exact h
  · exact h
  · refine wellFormed_erase h hroot fun k hk hbelow => hfull ⟨?_, ?_⟩
    · exact dir_of_asPrefix h (normalize_ne_nil path) hk hbelow
    · rw [List.any_eq_true]
      exact ⟨k, Std.ExtTreeMap.mem_keys.mpr hk, List.isPrefixOf_iff_prefix.mpr hbelow⟩

end Aeterna.Vfs
