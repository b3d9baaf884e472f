import Aeterna.Vfs.WellFormed

/-!
# Renaming

What `moveTree` does to the map: the node at `src` and everything below it, by the prefix of the
path, lies under `dst` afterwards, over what was there, and all else stays apart from the directories
made above `dst` (`getElem?_moveTree_of_moved`, `getElem?_moveTree_of_kept`). By names this is
`Lib.PathTree.graft`, and `MoveFits` is the exact condition for the result to be a tree
(`wellFormed_moveTree_iff`). Moved to a place where nothing lies, a subtree arrives as a whole and
nothing else changes (`rename_subtree`).
-/

namespace Aeterna.Vfs

open Lib.PathTree (Closed fillAbove prune graft closed_prune closed_graft_iff)

/-! ## Taking nodes out -/

/-- The tree without `src` and all that lies below it. -/
def outside (tree : Tree) (src : Path) : Tree := tree.filter fun k _ => !decide (Within src k)

theorem getElem?_outside (tree : Tree) (src k : Path) :
    (outside tree src)[k]? = if Within src k then none else tree[k]? := by
  rw [outside, Std.ExtTreeMap.getElem?_filter']
  split_ifs with h <;> cases tree[k]? <;> simp [h]

theorem getElem?_takeOut (src dst : Path) (state : Tree × List (Path × RamNode)) (key k : Path) :
    (takeOut src dst state key).1[k]? = if k = key then none else state.1[k]? := by
  unfold takeOut
  split
  · rw [getElem?_erase]
    simp only [eq_comm]
  · rename_i hnone
    split_ifs with hk
    · rw [hk, hnone]
    · rfl

theorem takeOut_moves (src dst : Path) (state : Tree × List (Path × RamNode)) (key : Path) :
    (takeOut src dst state key).2 =
      state.2 ++ (state.1[key]?.map fun node => (dst ++ key.drop src.length, node)).toList := by
  unfold takeOut
  split <;> rename_i h <;> simp [h]

/-- All nodes at `keys` are taken out and recorded under their new paths. -/
theorem foldl_takeOut (src dst : Path) (keys : List Path) (hkeys : keys.Nodup)
    (state : Tree × List (Path × RamNode)) :
    (∀ k : Path, (keys.foldl (takeOut src dst) state).1[k]? =
        if k ∈ keys then none else state.1[k]?) ∧
      ∀ p node, (p, node) ∈ (keys.foldl (takeOut src dst) state).2 ↔
        (p, node) ∈ state.2 ∨
          ∃ k ∈ keys, state.1[k]? = some node ∧ p = dst ++ k.drop src.length := by
  induction keys generalizing state with
  | nil => simp
  | cons key keys ih =>
    obtain ⟨hkey, hkeys⟩ := List.nodup_cons.mp hkeys
    obtain ⟨htree, hmoves⟩ := ih hkeys (takeOut src dst state key)
    rw [List.foldl_cons]
    constructor
    · intro k
      rw [htree, getElem?_takeOut]
      by_cases hk : k = key
      · simp [hk]
      · simp [hk]
    · intro p node
      rw [hmoves, takeOut_moves, List.mem_append, or_assoc]
      refine or_congr_right ?_
      simp only [getElem?_takeOut, List.mem_cons, exists_eq_or_imp]
      refine or_congr ?_ ?_
      · cases state.1[key]? with
        | none => simp
        | some other => simp [and_comm, eq_comm (a := node)]
      · refine exists_congr fun k => and_congr_right fun hk => ?_
        rw [if_neg]
        rintro rfl
        exact hkey hk

/-! ## The map after a move -/

variable {tree : Tree} {src dst : Path}

def movedKeys (tree : Tree) (src : Path) : List Path :=
  src :: (tree.erase src).keys.filter fun k => (asPrefix src).isPrefixOf k

theorem nodup_keys (tree : Tree) : tree.keys.Nodup :=
  tree.distinct_keys.imp fun h => by simpa using h

theorem mem_movedKeys (hsrc : src ∈ tree) {k : Path} :
    k ∈ movedKeys tree src ↔ Within src k ∧ k ∈ tree := by
  rw [movedKeys, List.mem_cons, List.mem_filter, Std.ExtTreeMap.mem_keys, mem_iff, Within, mem_iff]
  by_cases hk : k = src
  · subst hk
    simp [mem_iff.mp hsrc]
  · simp [hk, Ne.symm hk, and_comm]

theorem nodup_movedKeys (tree : Tree) (src : Path) : (movedKeys tree src).Nodup := by
  refine List.nodup_cons.mpr ⟨fun h => ?_, (nodup_keys _).filter _⟩
  have hmem := (List.mem_filter.mp h).1
  rw [Std.ExtTreeMap.mem_keys, mem_iff, getElem?_erase, if_pos rfl] at hmem
  exact hmem rfl

/-- A move takes out all that lies at or below `src`, makes the parents of `dst`, and stores every
node under its new path. -/
theorem moveTree_eq (hsrc : src ∈ tree) (dst : Path) :
    ∃ moves : List (Path × RamNode),
      moveTree tree src dst =
        moves.foldl (fun tree (path, node) => tree.insert path node)
          (ensureParent (outside tree src) dst) ∧
      ∀ p node, (p, node) ∈ moves ↔
        ∃ k, Within src k ∧ tree[k]? = some node ∧ p = dst ++ k.drop src.length := by
  obtain ⟨htree, hmoves⟩ := foldl_takeOut src dst _ (nodup_movedKeys tree src) (tree, [])
  obtain ⟨node, hnode⟩ := Option.ne_none_iff_exists'.mp (mem_iff.mp hsrc)
  have hfirst : (takeOut src dst (tree, []) src).1 = tree.erase src := by
    unfold takeOut
    simp [hnode]
  refine ⟨((movedKeys tree src).foldl (takeOut src dst) (tree, [])).2, ?_, fun p node => ?_⟩
  · have hout : outside tree src = ((movedKeys tree src).foldl (takeOut src dst) (tree, [])).1 := by
      apply Std.ExtTreeMap.ext_getElem?
      intro k
      rw [htree, getElem?_outside]
      by_cases hk : k ∈ tree <;> simp [mem_movedKeys hsrc, hk]
    rw [hout, movedKeys, ← hfirst]
    rfl
  · rw [hmoves]
    simp only [List.not_mem_nil, false_or, mem_movedKeys hsrc, and_assoc]
    refine exists_congr fun k => and_congr_right fun _ => ?_
    rw [and_iff_right_iff_imp]
    rintro ⟨hk, -⟩
    rw [mem_iff, hk]
    simp

theorem getElem?_moveTree_of_moved (hsrc : src ∈ tree) {s : Path} (hs : Within src (src ++ s))
    (hmem : src ++ s ∈ tree) : (moveTree tree src dst)[dst ++ s]? = tree[src ++ s]? := by
  obtain ⟨moves, he, hmoves⟩ := moveTree_eq hsrc dst
  obtain ⟨node, hnode⟩ := Option.ne_none_iff_exists'.mp (mem_iff.mp hmem)
  rw [he, hnode]
  refine foldl_insert_of_mem _ ((hmoves _ _).mpr ⟨src ++ s, hs, hnode, by simp⟩) ?_
  intro node' hnode'
  obtain ⟨k, hk, hk', hp⟩ := (hmoves _ _).mp hnode'
  -- a key under `src` is `src` and the rest that its new path ends in
  obtain ⟨s', rfl⟩ := hk.exists_append
  rw [List.drop_left] at hp
  rw [← List.append_cancel_left hp, hnode] at hk'
  exact (Option.some.inj hk').symm

theorem getElem?_moveTree_of_kept (hsrc : src ∈ tree) {k : Path}
    (hk : ∀ s, Within src (src ++ s) → src ++ s ∈ tree → k ≠ dst ++ s) :
    (moveTree tree src dst)[k]? = (ensureParent (outside tree src) dst)[k]? := by
  obtain ⟨moves, he, hmoves⟩ := moveTree_eq hsrc dst
  rw [he]
  refine foldl_insert_of_not_mem _ fun node hnode => ?_
  obtain ⟨k', hwithin, hk', hp⟩ := (hmoves _ _).mp hnode
  obtain ⟨s, rfl⟩ := hwithin.exists_append
  rw [List.drop_left] at hp
  exact hk s hwithin (by rw [mem_iff, hk']; simp) hp

theorem getElem?_moveTree_dst (hsrc : src ∈ tree) (dst : Path) :
    (moveTree tree src dst)[dst]? = tree[src]? := by
  have h : (moveTree tree src dst)[dst ++ []]? = tree[src ++ []]? :=
    getElem?_moveTree_of_moved hsrc (by rw [List.append_nil]; exact within_self src)
      (by rwa [List.append_nil])
  rwa [List.append_nil, List.append_nil] at h

/-! ## By names -/

section Names

variable {as bs : List Component}

theorem view_outside (has : as ≠ []) : view (outside tree (render as)) = prune (view tree) as := by
  funext q
  rw [view, getElem?_outside, prune]
  by_cases hq : as <+: q
  · rw [if_pos ((within_render_iff has).mpr hq), if_pos hq]
  · rw [if_neg fun h => hq ((within_render_iff has).mp h), if_neg hq, view]

theorem closed_outside (h : WellFormed tree) (has : as ≠ []) :
    Closed .dir (view (outside tree (render as))) := by
  rw [view_outside has]
  exact closed_prune (wellFormed_iff.mp h).2 has

theorem exists_names_of_moved (h : WellFormed tree) (has : as ≠ []) {s : Path}
    (hs : Within (render as) (render as ++ s)) (hmem : render as ++ s ∈ tree) :
    ∃ es, s = spell es ∧ view tree (as ++ es) ≠ none := by
  obtain ⟨fs, hfs⟩ := normal_iff.mp (h.normal _ hmem)
  rw [hfs] at hs hmem
  obtain ⟨es, rfl⟩ := (within_render_iff has).mp hs
  rw [render_append has] at hfs
  exact ⟨es, List.append_cancel_left hfs, mem_iff.mp hmem⟩

theorem view_moveTree (h : WellFormed tree) (has : as ≠ []) (hbs : bs ≠ [])
    (hsrc : render as ∈ tree) :
    view (moveTree tree (render as) (render bs)) = graft .dir (view tree) as bs := by
  funext q
  by_cases hq : bs <+: q ∧ view tree (as ++ q.drop bs.length) ≠ none
  · obtain ⟨⟨es, rfl⟩, hes⟩ := hq
    rw [List.drop_left] at hes
    rw [Lib.PathTree.graft_append hes, view, render_append hbs, view, render_append has]
    refine getElem?_moveTree_of_moved hsrc ?_ ?_ <;> rw [← render_append has]
    · exact (within_render_iff has).mpr (List.prefix_append as es)
    · exact mem_iff.mpr hes
  · rw [graft, if_neg hq, ← view_outside has, ← view_ensureParent (closed_outside h has)]
    refine getElem?_moveTree_of_kept hsrc fun s hs hmem he => hq ?_
    obtain ⟨es, rfl, hes⟩ := exists_names_of_moved h has hs hmem
    rw [← render_append hbs] at he
    rw [render_injective he, List.drop_left]
    exact ⟨List.prefix_append bs es, hes⟩

theorem normal_moveTree (h : WellFormed tree) (has : as ≠ []) (hbs : bs ≠ [])
    (hsrc : render as ∈ tree) :
    ∀ k ∈ moveTree tree (render as) (render bs), Normal k := by
  intro k hk
  by_cases hmoved : ∃ s, Within (render as) (render as ++ s) ∧ render as ++ s ∈ tree ∧
      k = render bs ++ s
  · obtain ⟨s, hs, hmem, rfl⟩ := hmoved
    obtain ⟨es, rfl, -⟩ := exists_names_of_moved h has hs hmem
    rw [← render_append hbs]
    exact normal_render _
  · rw [mem_iff, getElem?_moveTree_of_kept hsrc fun s hs hmem he => hmoved ⟨s, hs, hmem, he⟩,
      getElem?_ensureParent (closed_outside h has)] at hk
    rcases filled_ne_none hk with hmem | ⟨ds, rfl⟩
    · rw [mem_iff, getElem?_outside] at hmem
      split_ifs at hmem
      · exact absurd rfl hmem
      · exact h.normal k (mem_iff.mpr hmem)
    · exact normal_render ds

end Names

/-! ## When a move keeps the tree -/

/-- What moving `src` onto another path below the root needs: a normal path, only directories among
what stays above it, and no file that comes to lie above something that stays. -/
def MoveFits (tree : Tree) (src dst : Path) : Prop :=
  Normal dst ∧ (∀ k ∈ tree, Above k dst → ¬ Within src k → tree[k]? = some .dir) ∧
    ∀ k ∈ tree, Within src k → tree[k]? ≠ some .dir →
      ∀ e ∈ tree, ¬ Within src e → ¬ Above (dst ++ k.drop src.length) e

theorem wellFormed_moveTree_iff (h : WellFormed tree) (hsrc : src ∈ tree) (hs : src ≠ rootPath)
    (hd : dst ≠ rootPath) : WellFormed (moveTree tree src dst) ↔ MoveFits tree src dst := by
  obtain ⟨hn, hT⟩ := wellFormed_iff.mp h
  by_cases hdst : Normal dst
  · obtain ⟨as, rfl⟩ := normal_iff.mp (hn src hsrc)
    obtain ⟨bs, rfl⟩ := normal_iff.mp hdst
    have has : as ≠ [] := fun he => hs (render_eq_root.mpr he)
    have hbs : bs ≠ [] := fun he => hd (render_eq_root.mpr he)
    rw [wellFormed_iff, and_iff_right (normal_moveTree h has hbs hsrc),
      view_moveTree h has hbs hsrc, closed_graft_iff hT (mem_iff.mp hsrc) has hbs, MoveFits,
      and_iff_right hdst]
    simp only [forall_mem_iff hn, above_render_iff, within_render_iff has]
    refine and_congr ?_ ?_
    · exact forall_congr' fun q => ⟨fun h a b c => h b c a, fun h a b c => h c a b⟩
    · constructor
      · rintro hland _ hk ⟨es, rfl⟩ hleaf e he hstay hab
        rw [render_append has, List.drop_left, ← render_append hbs, above_render_iff] at hab
        exact hland es hk hleaf e he hstay hab
      · intro hland es hk hleaf e he hstay hab
        refine hland (as ++ es) hk (List.prefix_append as es) hleaf e he hstay ?_
        rwa [render_append has, List.drop_left, ← render_append hbs, above_render_iff]
  · refine iff_of_false (fun hwf => hdst (hwf.normal dst ?_)) fun hm => hdst hm.1
    rw [mem_iff, getElem?_moveTree_dst hsrc]
    exact mem_iff.mp hsrc

/-- Directories are only made on the way to `p`, the root apart. -/
theorem mem_of_mem_mkdirFuel {fuel : ℕ} {p k : Path} (h : k ∈ mkdirFuel fuel tree p) :
    k ∈ tree ∨ (k ≠ rootPath ∧ Within k p) := by
  induction fuel generalizing p with
  | zero => exact Or.inl h
  | succ fuel ih =>
    rw [mkdirFuel] at h
    by_cases hp : p = rootPath ∨ p = []
    · rw [if_pos hp] at h
      exact Or.inl h
    rw [if_neg hp] at h
    have hlast : ∀ t : Tree, k ∈ (if p ∈ t then t else t.insert p .dir) → k = p ∨ k ∈ t := by
      intro t ht
      split_ifs at ht
      · exact Or.inr ht
      · rw [mem_iff, getElem?_insert] at ht
        split_ifs at ht with hk
        · exact Or.inl hk.symm
        · exact Or.inr (mem_iff.mpr ht)
    rcases hlast _ h with rfl | h
    · exact Or.inr ⟨fun hk => hp (Or.inl hk), within_self k⟩
    split_ifs at h with hpar
    · refine (ih h).imp_right fun hk => ⟨hk.1, hk.2.trans (Or.inr ?_)⟩
      exact asPrefix_parent hpar.1
    · exact Or.inl h

theorem mem_of_mem_ensureParent {p k : Path} (h : k ∈ ensureParent tree p) :
    k ∈ tree ∨ (k ≠ rootPath ∧ Within k p) := by
  unfold ensureParent at h
  dsimp only at h
  split_ifs at h with hpar
  · refine (mem_of_mem_mkdirFuel h).imp_right fun ⟨hroot, hw⟩ => ⟨hroot, hw.trans (Or.inr ?_)⟩
    exact asPrefix_parent hpar.1
  · exact Or.inl h

theorem exists_longest_moved (hsrc : src ∈ tree) :
    ∃ s, Within src (src ++ s) ∧ src ++ s ∈ tree ∧
      ∀ s', Within src (src ++ s') → src ++ s' ∈ tree → s'.length ≤ s.length := by
  have hself : src ∈ (movedKeys tree src).toFinset :=
    List.mem_toFinset.mpr ((mem_movedKeys hsrc).mpr ⟨within_self src, hsrc⟩)
  obtain ⟨k, hk, hmax⟩ := Finset.exists_max_image _ List.length ⟨src, hself⟩
  obtain ⟨hw, hmem⟩ := (mem_movedKeys hsrc).mp (List.mem_toFinset.mp hk)
  obtain ⟨s, rfl⟩ := hw.exists_append
  refine ⟨s, hw, hmem, fun s' hw' hmem' => ?_⟩
  have hle := hmax (src ++ s') (List.mem_toFinset.mpr ((mem_movedKeys hsrc).mpr ⟨hw', hmem'⟩))
  simpa using hle

theorem moveTree_ne (hsrc : src ∈ tree) (hne : src ≠ dst) : moveTree tree src dst ≠ tree := by
  intro he
  obtain ⟨s, hs, hmem, hmax⟩ := exists_longest_moved hsrc
  -- moved below itself, the longest path gives a longer one
  have hout : ¬ Within src dst := by
    intro hw
    obtain ⟨t, rfl⟩ := hw.exists_append
    have ht : t ≠ [] := by
      rintro rfl
      exact hne (List.append_nil src).symm
    have hhead : t.head? = some '/' := (within_append_iff.mp hw).resolve_left ht
    have hmoved : (moveTree tree src (src ++ t))[src ++ t ++ s]? = tree[src ++ s]? :=
      getElem?_moveTree_of_moved hsrc hs hmem
    rw [he, List.append_assoc] at hmoved
    have hle := hmax (t ++ s)
      (within_append_iff.mpr (Or.inr (by rw [List.head?_append, hhead]; rfl)))
      (by rw [mem_iff, hmoved]; exact mem_iff.mp hmem)
    have := List.length_pos_iff.mpr ht
    rw [List.length_append] at hle
    omega
  -- so the longest path is gone, unless a moved one landed on it
  have hland : ∀ s', Within src (src ++ s') → src ++ s' ∈ tree → src ++ s ≠ dst ++ s' := by
    intro s' hs' hmem' heq
    have hle := hmax s' hs' hmem'
    rcases List.append_eq_append_iff.mp heq with ⟨t, rfl, rfl⟩ | ⟨t, rfl, rfl⟩
    · refine hout (within_append_iff.mpr ?_)
      cases t with
      | nil => exact Or.inl rfl
      | cons c t => exact Or.inr (by simpa using within_append_iff.mp hs)
    · obtain rfl : t = [] := by
        rw [List.length_append] at hle
        exact List.length_eq_zero_iff.mp (by omega)
      exact hne (List.append_nil dst)
  have hkept := getElem?_moveTree_of_kept hsrc hland
  rw [he] at hkept
  rw [mem_iff, hkept, ← mem_iff] at hmem
  rcases mem_of_mem_ensureParent hmem with h | h
  · rw [mem_iff, getElem?_outside, if_pos hs] at h
    exact h rfl
  · exact hout (hs.trans h.2)

theorem not_wellFormed_moveTree_root (h : WellFormed tree) (hd : dst ≠ rootPath) :
    ¬ WellFormed (moveTree tree rootPath dst) := by
  intro hwf
  have hsrc : rootPath ∈ tree := by rw [mem_iff, h.root]; simp
  have hroot : rootPath ∈ moveTree tree rootPath dst := by rw [mem_iff, hwf.root]; simp
  rw [mem_iff, getElem?_moveTree_of_kept hsrc] at hroot
  · have hout := (mem_of_mem_ensureParent (mem_iff.mpr hroot)).resolve_right fun h => h.1 rfl
    rw [mem_iff, getElem?_outside] at hout
    exact hout rfl
  · intro s hs hmem he
    rcases hs with hs | hs
    · obtain rfl : s = [] := by simpa using hs
      exact hd (by simpa using he.symm)
    · exact not_asPrefix_root (h.normal _ hmem) hs

/-- Only a directory without contents can be moved onto the root. -/
theorem wellFormed_moveTree_onto_root_iff (h : WellFormed tree) (hsrc : src ∈ tree)
    (hs : src ≠ rootPath) :
    WellFormed (moveTree tree src rootPath) ↔
      tree[src]? = some .dir ∧ ∀ k ∈ tree, ¬ Above src k := by
  constructor
  · intro hwf
    refine ⟨by rw [← getElem?_moveTree_dst hsrc rootPath, hwf.root], fun k hk hab => ?_⟩
    obtain ⟨x, rfl⟩ := hab.asPrefix hs
    rw [asPrefix, List.append_assoc] at hk
    have hmoved : (moveTree tree src rootPath)[rootPath ++ (['/'] ++ x)]? ≠ none := by
      rw [getElem?_moveTree_of_moved hsrc (Or.inr ⟨x, by simp [asPrefix]⟩) hk]
      exact mem_iff.mp hk
    exact not_asPrefix_root (hwf.normal _ (mem_iff.mpr hmoved)) ⟨x, rfl⟩
  · rintro ⟨hdir, hempty⟩
    have hbelow : ∀ k ∈ tree, ¬ asPrefix src <+: k := fun k hk hp =>
      hempty k hk (above_of_asPrefix hp)
    have herase : moveTree tree src rootPath = tree.erase src := by
      apply Std.ExtTreeMap.ext_getElem?
      intro k
      rw [getElem?_erase]
      by_cases hk : k = rootPath
      · rw [hk, getElem?_moveTree_dst hsrc, hdir, if_neg hs, h.root]
      · rw [getElem?_moveTree_of_kept hsrc]
        · show (outside tree src)[k]? = _
          rw [getElem?_outside]
          by_cases hks : k = src
          · rw [if_pos (hks ▸ within_self k), if_pos hks.symm]
          · rw [if_neg (Ne.symm hks)]
            split_ifs with hw
            · by_contra hne
              exact hbelow k (mem_iff.mpr (Ne.symm hne)) (hw.resolve_left hks)
            · rfl
        · intro s hw hmem
          rcases hw with hw | hw
          · obtain rfl : s = [] := by simpa using hw
            simpa using hk
          · exact absurd hw (hbelow _ hmem)
    rw [herase]
    exact wellFormed_erase h hs hbelow

/-! ## What is left at the old place -/

theorem parent_within {p : Path} (hs : Normal src) (hroot : src ≠ rootPath) (hp : Normal p)
    (hw : Within src p) (hne : p ≠ src) : Normal (parent p) ∧ Within src (parent p) := by
  obtain ⟨as, rfl⟩ := normal_iff.mp hs
  obtain ⟨ps, rfl⟩ := normal_iff.mp hp
  have has : as ≠ [] := fun he => hroot (render_eq_root.mpr he)
  have hpre := (within_render_iff has).mp hw
  rcases List.eq_nil_or_concat ps with rfl | ⟨qs, c, rfl⟩
  · exact absurd (List.prefix_nil.mp hpre) has
  rw [List.concat_eq_append] at hpre hne ⊢
  rw [parent_render]
  refine ⟨normal_render qs, (within_render_iff has).mpr ?_⟩
  refine (List.prefix_concat_iff.mp hpre).resolve_left fun he => hne ?_
  rw [he]

theorem ne_root_of_within {p : Path} (hs : Normal src) (hroot : src ≠ rootPath)
    (hw : Within src p) : p ≠ rootPath := by
  rintro rfl
  exact hroot (eq_root_of_within_root hs.ne_nil hw)

theorem mem_insert_or_mem {k p : Path} (h : k ∈ tree ∨ k = p) :
    k ∈ if p ∈ tree then tree else tree.insert p .dir := by
  split_ifs with hp
  · exact h.elim id fun he => he ▸ hp
  · rw [mem_iff, getElem?_insert]
    split_ifs with he
    · simp
    · exact mem_iff.mp (h.resolve_right fun hk => he hk.symm)

section Gone

variable (hs : Normal src) (hroot : src ≠ rootPath) (hgone : ∀ k ∈ tree, ¬ Within src k)

include hs hroot hgone

theorem mem_mkdirFuel_of_within {fuel : ℕ} {p : Path} (hp : Normal p) (hw : Within src p)
    (hlen : p.length ≤ fuel) : src ∈ mkdirFuel fuel tree p := by
  induction fuel generalizing p with
  | zero =>
    obtain rfl : p = [] := List.length_eq_zero_iff.mp (Nat.le_zero.mp hlen)
    exact absurd hp not_normal_nil
  | succ fuel ih =>
    rw [mkdirFuel, if_neg (not_or.mpr ⟨ne_root_of_within hs hroot hw, hp.ne_nil⟩)]
    refine mem_insert_or_mem ?_
    by_cases hne : p = src
    · exact Or.inr hne.symm
    obtain ⟨hpar, hwpar⟩ := parent_within hs hroot hp hw hne
    have hparroot := ne_root_of_within hs hroot hwpar
    have hshort := (asPrefix_parent hparroot).length_le
    rw [asPrefix, List.length_append, List.length_singleton] at hshort
    rw [if_pos ⟨hparroot, fun hmem => hgone _ hmem hwpar⟩]
    exact Or.inl (ih hpar hwpar (by omega))

theorem mem_ensureParent_of_within {p : Path} (hp : Normal p) (hw : Within src p) (hne : p ≠ src) :
    src ∈ ensureParent tree p := by
  obtain ⟨hpar, hwpar⟩ := parent_within hs hroot hp hw hne
  rw [ensureParent, if_pos ⟨ne_root_of_within hs hroot hwpar, fun hmem => hgone _ hmem hwpar⟩]
  exact mem_mkdirFuel_of_within hs hroot hgone hpar hwpar le_rfl

end Gone

/-- A move leaves nothing at `src` unless `dst` lies below it, or `dst` lies above it and a node
below `src` is moved onto it. -/
theorem getElem?_moveTree_src_iff (hsrc : src ∈ tree) (hs : Normal src) (hd : Normal dst)
    (hne : src ≠ dst) :
    (moveTree tree src dst)[src]? = none ↔
      ¬ Within src dst ∧ (Within dst src → src ++ src.drop dst.length ∉ tree) := by
  by_cases hland : ∃ s, Within src (src ++ s) ∧ src ++ s ∈ tree ∧ src = dst ++ s
  · obtain ⟨s, hw, hmem, he⟩ := hland
    have hmoved : (moveTree tree src dst)[dst ++ s]? = tree[src ++ s]? :=
      getElem?_moveTree_of_moved hsrc hw hmem
    rw [← he] at hmoved
    refine iff_of_false (fun hnone => mem_iff.mp hmem (hmoved.symm.trans hnone)) fun hfree => ?_
    · refine hfree.2 ?_ ?_
      · have hwd : Within dst (dst ++ s) := within_append_iff.mpr (within_append_iff.mp hw)
        rwa [← he] at hwd
      · have hdrop : src.drop dst.length = s := by rw [he, List.drop_left]
        rwa [hdrop]
  · have hkept : (moveTree tree src dst)[src]? = (ensureParent (outside tree src) dst)[src]? :=
      getElem?_moveTree_of_kept hsrc fun s hw hmem he => hland ⟨s, hw, hmem, he⟩
    have hgone : ∀ k ∈ outside tree src, ¬ Within src k := by
      intro k hk hw
      rw [mem_iff, getElem?_outside, if_pos hw] at hk
      exact hk rfl
    rw [hkept]
    constructor
    · intro hnone
      refine ⟨fun hw => ?_, fun hwd hmem => hland ?_⟩
      · have hroot : src ≠ rootPath := by
          rintro rfl
          exact not_asPrefix_root hd (hw.resolve_left hne.symm)
        exact mem_iff.mp (mem_ensureParent_of_within hs hroot hgone hd hw hne.symm) hnone
      · obtain ⟨s, he⟩ := hwd.exists_append
        have hdrop : src.drop dst.length = s := by rw [he, List.drop_left]
        rw [hdrop] at hmem
        refine ⟨s, within_append_iff.mpr ?_, hmem, he⟩
        rw [he] at hwd
        exact within_append_iff.mp hwd
    · rintro ⟨hw, -⟩
      by_contra hin
      rcases mem_of_mem_ensureParent (mem_iff.mpr hin) with hk | hk
      · exact hgone src hk (within_self src)
      · exact hw hk.2

/-! ## What a move to a free place leaves where -/

theorem getElem?_ensureParent_outside (h : WellFormed tree) (hsrc : src ∈ tree)
    (hs : src ≠ rootPath) (hd : Normal dst) (k : Path) :
    (ensureParent (outside tree src) dst)[k]? =
      if Normal k ∧ Above k dst ∧ (outside tree src)[k]? = none then some .dir
      else (outside tree src)[k]? := by
  obtain ⟨as, rfl⟩ := normal_iff.mp (h.normal src hsrc)
  obtain ⟨bs, rfl⟩ := normal_iff.mp hd
  have has : as ≠ [] := fun he => hs (render_eq_root.mpr he)
  rw [getElem?_ensureParent (closed_outside h has)]
  by_cases hk : Normal k
  · obtain ⟨cs, rfl⟩ := normal_iff.mp hk
    have hab : (∃ ds, Lib.PathTree.Above ds bs ∧ render cs = render ds) ↔
        Above (render cs) (render bs) := by
      rw [above_render_iff]
      constructor
      · rintro ⟨ds, hds, he⟩
        rwa [render_injective he]
      · intro hcs
        exact ⟨cs, hcs, rfl⟩
    simp only [filled, hab, hk, true_and]
  · rw [if_neg fun hn => hk hn.1]
    refine filled_of_not fun ds _ he => hk ?_
    rw [he]
    exact normal_render ds

section Free

variable (h : WellFormed tree) (hsrc : src ∈ tree) (hs : src ≠ rootPath) (hd : Normal dst)

include h hsrc hs hd

theorem getElem?_moveTree_append (hfree : ∀ k ∈ tree, ¬ Within dst k) {s : Path}
    (hw : s = [] ∨ s.head? = some '/') :
    (moveTree tree src dst)[dst ++ s]? = tree[src ++ s]? := by
  by_cases hmem : src ++ s ∈ tree
  · exact getElem?_moveTree_of_moved hsrc (within_append_iff.mpr hw) hmem
  -- nothing was there, nothing came, and a path below `dst` is not above it
  have hland : ∀ t, Within src (src ++ t) → src ++ t ∈ tree → dst ++ s ≠ dst ++ t := by
    intro t _ ht he
    exact hmem (List.append_cancel_left he ▸ ht)
  have hnone : tree[dst ++ s]? = none := by
    by_contra hne
    exact hfree _ (mem_iff.mpr hne) (within_append_iff.mpr hw)
  have hgone : (outside tree src)[dst ++ s]? = none := by
    rw [getElem?_outside, hnone, ite_self]
  have hab : ¬ Above (dst ++ s) dst := by
    rintro ⟨hne, hroot | hp⟩
    · refine hfree rootPath ?_ (hroot ▸ within_append_iff.mpr hw)
      rw [mem_iff, h.root]
      simp
    · have hlen := hp.length_le
      simp only [asPrefix, List.length_append, List.length_singleton] at hlen
      omega
  have hold : tree[src ++ s]? = none := by
    by_contra hne
    exact hmem (mem_iff.mpr hne)
  rw [getElem?_moveTree_of_kept hsrc hland, getElem?_ensureParent_outside h hsrc hs hd,
    if_neg fun hn => hab hn.2.1, hgone, hold]

theorem getElem?_moveTree_of_within (hfree : ∀ k ∈ tree, ¬ Within dst k)
    (hout : ¬ Within src dst) {k : Path} (hk : Within src k) :
    (moveTree tree src dst)[k]? = none := by
  have hland : ∀ t, Within src (src ++ t) → src ++ t ∈ tree → k ≠ dst ++ t := by
    rintro t ht - rfl
    have hdk : Within dst (dst ++ t) := within_append_iff.mpr (within_append_iff.mp ht)
    rcases hk.total hdk with hw | hw
    · exact hout hw
    · exact hfree src hsrc hw
  have hab : ¬ Above k dst := by
    rintro ⟨hne, rfl | hp⟩
    · exact hs (eq_root_of_within_root (h.normal src hsrc).ne_nil hk)
    · exact hout (hk.trans (Or.inr hp))
  rw [getElem?_moveTree_of_kept hsrc hland, getElem?_ensureParent_outside h hsrc hs hd,
    if_neg fun hn => hab hn.2.1, getElem?_outside, if_pos hk]

theorem getElem?_moveTree_of_apart {k : Path} (hk : ¬ Within src k) (hkd : ¬ Within dst k) :
    (moveTree tree src dst)[k]? =
      if Normal k ∧ Above k dst ∧ tree[k]? = none then some .dir else tree[k]? := by
  have hland : ∀ t, Within src (src ++ t) → src ++ t ∈ tree → k ≠ dst ++ t := by
    rintro t ht - rfl
    exact hkd (within_append_iff.mpr (within_append_iff.mp ht))
  have hsame : (outside tree src)[k]? = tree[k]? := by rw [getElem?_outside, if_neg hk]
  rw [getElem?_moveTree_of_kept hsrc hland, getElem?_ensureParent_outside h hsrc hs hd, hsame]

end Free

/-- A rename to a place where nothing lies moves the subtree and makes the directories missing above
it, and touches nothing else. -/
theorem rename_subtree {tree : Tree} {src dst : Path} (h : WellFormed tree) (hsrc : Normal src)
    (hdst : Normal dst) (hs : src ≠ rootPath) (hmem : src ∈ tree)
    (hfree : ∀ k ∈ tree, ¬ Within dst k) (hout : ¬ Within src dst) :
    (rename tree src dst).2 = true ∧
      (∀ s, s = [] ∨ s.head? = some '/' →
        (rename tree src dst).1[dst ++ s]? = tree[src ++ s]?) ∧
      (∀ k, Within src k → k ∉ (rename tree src dst).1) ∧
      ∀ k, ¬ Within src k → ¬ Within dst k →
        (rename tree src dst).1[k]? =
          if Normal k ∧ Above k dst ∧ tree[k]? = none then some .dir else tree[k]? := by
  have hne : src ≠ dst := by
    rintro rfl
    exact hout (within_self src)
  have hmove : rename tree src dst = (moveTree tree src dst, true) := by
    unfold rename
    rw [normalize_of_normal hsrc, normalize_of_normal hdst]
    rw [if_neg hne, if_neg (not_not.mpr hmem)]
  rw [hmove]
  refine ⟨rfl, fun s => getElem?_moveTree_append h hmem hs hdst hfree, fun k hk hin => ?_,
    fun k => getElem?_moveTree_of_apart h hmem hs hdst⟩
  exact mem_iff.mp hin (getElem?_moveTree_of_within h hmem hs hdst hfree hout hk)

/-- A directory with one file. -/
def oneDir : Tree :=
  (((∅ : Tree).insert rootPath .dir).insert "/a".toList .dir).insert "/a/x".toList (.file [7])

theorem rename_subtree_oneDir :
    (rename oneDir "/a".toList "/b/c".toList).1["/b/c/x".toList]? = some (.file [7]) ∧
      (rename oneDir "/a".toList "/b/c".toList).1["/b".toList]? = some .dir := by
  have hchecked : WellFormed oneDir ∧ "/a".toList ∈ oneDir ∧
      (∀ k ∈ oneDir.keys, ¬ Within "/b/c".toList k) ∧
      oneDir["/a".toList ++ "/x".toList]? = some (.file [7]) ∧ oneDir["/b".toList]? = none := by
    decide +kernel
  obtain ⟨hwf, hmem, hkeys, hfile, hnone⟩ := hchecked
  obtain ⟨-, hmoved, -, hothers⟩ := @rename_subtree oneDir "/a".toList "/b/c".toList hwf (by decide)
    (by decide) (by decide) hmem (fun k hk => hkeys k (Std.ExtTreeMap.mem_keys.mpr hk)) (by decide)
  constructor
  · exact (hmoved "/x".toList (by decide)).trans hfile
  · rw [hothers "/b".toList (by decide) (by decide), if_pos ⟨by decide, by decide, hnone⟩]

end Aeterna.Vfs
