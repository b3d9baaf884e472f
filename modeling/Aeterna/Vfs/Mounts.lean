import Aeterna.Lib.Run
import Aeterna.Vfs.Rename

/-!
# The mount table

`mount` keeps the table ordered by the length of the paths, the longest first, and `resolve` takes
the first mount point that matches. On a table that was filled by `mount`, this is the longest mount
path that is the path itself or lies above it (`resolve_iff_owns`).

`rename` looks both paths up in the table but gives the second one to the file system of the first.
`moves_iff` says when this still moves the node to where it should go.
-/

namespace Aeterna.Vfs

/-! ## The table -/

/-- A path prefix and the file system behind it. -/
structure MountPoint (F : Type*) where
  path : Path
  fs : F
  deriving DecidableEq

def maxMounts : ℕ := 16

/-- `str::len`, in bytes. -/
def byteLength (path : Path) : ℕ := (path.map Char.utf8Size).sum

variable {F : Type*}

def LongerFirst (a b : MountPoint F) : Prop := byteLength b.path ≤ byteLength a.path

instance : DecidableRel (LongerFirst (F := F)) := fun a b =>
  inferInstanceAs (Decidable (byteLength b.path ≤ byteLength a.path))

/-- The table is sorted again after each push; the sort is stable. -/
def mount (mounts : List (MountPoint F)) (path : Path) (fs : F) : List (MountPoint F) × Bool :=
  if ∃ m ∈ mounts, m.path = path then (mounts, false)
  else if mounts.length ≥ maxMounts then (mounts, false)
  else (List.insertionSort LongerFirst (mounts ++ [⟨path, fs⟩]), true)

/-- The first match in the table, with the path inside its file system. -/
def resolve : List (MountPoint F) → Path → Option (F × Path)
  | [], _ => none
  | m :: mounts, path =>
    if path = m.path then some (m.fs, rootPath)
    else if m.path = rootPath then some (m.fs, path)
    else if m.path.isPrefixOf path then
      let rest := path.drop m.path.length
      if rest = [] ∨ rest.head? = some '/' then
        some (m.fs, if rest = [] then rootPath else rest)
      else resolve mounts path
    else resolve mounts path

/-! ## What a mount point matches -/

/-- `p` is `path` or lies above it, by components. -/
def Covers (p path : Path) : Prop := p = rootPath ∨ Within p path

instance (p path : Path) : Decidable (Covers p path) := inferInstanceAs (Decidable (_ ∨ _))

/-- The path inside the file system mounted at `p`. -/
def relative (p path : Path) : Path :=
  if path = p then rootPath else if p = rootPath then path else path.drop p.length

theorem append_relative {p path : Path} (hw : Within p path) (hne : path ≠ p)
    (hp : p ≠ rootPath) : p ++ relative p path = path := by
  obtain ⟨s, rfl⟩ := hw.exists_append
  rw [relative, if_neg hne, if_neg hp, List.drop_left]

theorem head?_relative {p path : Path} (hpath : path.head? = some '/') (hc : Covers p path) :
    (relative p path).head? = some '/' := by
  by_cases hne : path = p
  · rw [relative, if_pos hne]
    rfl
  by_cases hp : p = rootPath
  · rwa [relative, if_neg hne, if_pos hp]
  obtain ⟨s, rfl⟩ := (hc.resolve_left hp).exists_append
  rw [relative, if_neg hne, if_neg hp, List.drop_left]
  refine (within_append_iff.mp (hc.resolve_left hp)).resolve_left ?_
  rintro rfl
  exact hne (List.append_nil p)

theorem resolve_eq_find? (mounts : List (MountPoint F)) (path : Path) :
    resolve mounts path =
      (mounts.find? fun m => Covers m.path path).map fun m => (m.fs, relative m.path path) := by
  induction mounts with
  | nil => rfl
  | cons m mounts ih =>
    rw [resolve]
    by_cases hself : path = m.path
    · have hc : Covers m.path path := Or.inr (Or.inl hself)
      rw [if_pos hself, List.find?_cons_of_pos (by simpa using hc), Option.map_some, relative,
        if_pos hself]
    rw [if_neg hself]
    by_cases hroot : m.path = rootPath
    · have hc : Covers m.path path := Or.inl hroot
      rw [if_pos hroot, List.find?_cons_of_pos (by simpa using hc), Option.map_some, relative,
        if_neg hself, if_pos hroot]
    rw [if_neg hroot]
    by_cases hw : Within m.path path
    · obtain ⟨s, rfl⟩ := hw.exists_append
      have hs : s ≠ [] := by
        rintro rfl
        exact hself (List.append_nil m.path)
      have hpre : m.path.isPrefixOf (m.path ++ s) = true :=
        List.isPrefixOf_iff_prefix.mpr (List.prefix_append _ _)
      have hc : Covers m.path (m.path ++ s) := Or.inr hw
      rw [List.find?_cons_of_pos (by simpa using hc), Option.map_some, relative, if_neg hself,
        if_neg hroot, if_pos hpre]
      rw [List.drop_left, if_pos (within_append_iff.mp hw), if_neg hs]
    · have hskip : ¬ Covers m.path path := fun hc => hw (hc.resolve_left hroot)
      rw [List.find?_cons_of_neg (by simpa using hskip), ← ih]
      by_cases hpre : m.path.isPrefixOf path = true
      · obtain ⟨s, rfl⟩ := List.isPrefixOf_iff_prefix.mp hpre
        rw [if_pos hpre]
        rw [List.drop_left, if_neg fun hrest => hw (within_append_iff.mpr hrest)]
      · rw [if_neg hpre]

/-! ## Tables that `mount` fills -/

/-- The root, or a path with a slash first and none last. -/
def MountPath (p : Path) : Prop := p = rootPath ∨ p.head? = some '/' ∧ p.getLast? ≠ some '/'

instance (p : Path) : Decidable (MountPath p) := inferInstanceAs (Decidable (_ ∨ _))

theorem byteLength_append (p q : Path) : byteLength (p ++ q) = byteLength p + byteLength q := by
  rw [byteLength, List.map_append, List.sum_append, byteLength, byteLength]

theorem byteLength_pos {p : Path} (h : p ≠ []) : 0 < byteLength p := by
  obtain ⟨c, p, rfl⟩ := List.exists_cons_of_ne_nil h
  have := Char.utf8Size_pos c
  rw [byteLength, List.map_cons, List.sum_cons]
  omega

theorem length_lt_of_byteLength_le {p q path : Path} (hp : p <+: path) (hq : q <+: path)
    (hle : byteLength p ≤ byteLength q) (hne : p ≠ q) : p.length < q.length := by
  by_contra hlen
  obtain ⟨s, rfl⟩ := List.prefix_of_prefix_length_le hq hp (not_lt.mp hlen)
  have hs : s ≠ [] := by
    rintro rfl
    exact hne (List.append_nil q)
  have hpos := byteLength_pos hs
  rw [byteLength_append] at hle
  omega

/-- What `mount` keeps up. -/
structure Ordered (mounts : List (MountPoint F)) : Prop where
  sorted : mounts.Pairwise LongerFirst
  paths : ∀ m ∈ mounts, MountPath m.path
  nodup : (mounts.map MountPoint.path).Nodup

theorem ordered_nil : Ordered ([] : List (MountPoint F)) :=
  ⟨List.Pairwise.nil, by simp, by simp⟩

instance : Std.Total (LongerFirst (F := F)) := ⟨fun _ _ => le_total _ _⟩

instance : IsTrans (MountPoint F) LongerFirst := ⟨fun _ _ _ hab hbc => le_trans hbc hab⟩

theorem Ordered.mount {mounts : List (MountPoint F)} (h : Ordered mounts) {path : Path}
    (hpath : MountPath path) (fs : F) : Ordered (mount mounts path fs).1 := by
  unfold Vfs.mount
  split_ifs with hdup hfull
  · exact h
  · exact h
  have hperm := List.perm_insertionSort LongerFirst (mounts ++ [⟨path, fs⟩])
  refine ⟨List.pairwise_insertionSort _ _, fun m hm => ?_, ?_⟩
  · rcases List.mem_append.mp (hperm.mem_iff.mp hm) with hm | hm
    · exact h.paths m hm
    · rw [List.mem_singleton.mp hm]
      exact hpath
  · rw [(hperm.map MountPoint.path).nodup_iff, List.map_append, List.nodup_append]
    refine ⟨h.nodup, List.nodup_singleton _, ?_⟩
    rintro _ hp _ hq rfl
    obtain ⟨m, hm, hmp⟩ := List.mem_map.mp hp
    exact hdup ⟨m, hm, hmp.trans (List.mem_singleton.mp hq)⟩

/-- One call of `mount`; a refused one leaves the table. -/
def mountStep (mounts : List (MountPoint F)) (call : Path × F) : List (MountPoint F) :=
  (mount mounts call.1 call.2).1

theorem ordered_run {mounts : List (MountPoint F)} (h : Ordered mounts)
    {calls : List (Path × F)} (hcalls : ∀ c ∈ calls, MountPath c.1) :
    Ordered (Lib.run mountStep mounts calls) := by
  induction calls generalizing mounts with
  | nil => exact h
  | cons c calls ih =>
    obtain ⟨hc, hrest⟩ := List.forall_mem_cons.mp hcalls
    exact ih (h.mount hc c.2) hrest

/-! ## The longest match -/

/-- `m` is the mount point a path belongs to, with the longest path of all that cover it, and `rel`
is the path inside its file system. -/
structure Owns (mounts : List (MountPoint F)) (path : Path) (m : MountPoint F) (rel : Path) :
    Prop where
  mem : m ∈ mounts
  covers : Covers m.path path
  longest : ∀ m' ∈ mounts, Covers m'.path path → m' ≠ m → m'.path.length < m.path.length
  absolute : rel.head? = some '/'
  atMount : path = m.path → rel = rootPath
  atRoot : m.path = rootPath → rel = path
  below : path ≠ m.path → m.path ≠ rootPath → m.path ++ rel = path

section Owns

variable {mounts : List (MountPoint F)} {path : Path}

theorem Covers.isPrefix {p : Path} (hc : Covers p path) (hpath : path.head? = some '/') :
    p <+: path := by
  rcases hc with rfl | hw
  · cases path with
    | nil => cases hpath
    | cons c path =>
      obtain rfl : c = '/' := by simpa using hpath
      exact ⟨path, rfl⟩
  · obtain ⟨s, rfl⟩ := hw.exists_append
    exact List.prefix_append p s

theorem Owns.unique {m m' : MountPoint F} {rel rel' : Path} (h : Owns mounts path m rel)
    (h' : Owns mounts path m' rel') : m = m' ∧ rel = rel' := by
  obtain rfl : m = m' := by
    by_contra hne
    have hlt := h.longest m' h'.mem h'.covers (Ne.symm hne)
    have hlt' := h'.longest m h.mem h.covers hne
    omega
  refine ⟨rfl, ?_⟩
  by_cases hself : path = m.path
  · rw [h.atMount hself, h'.atMount hself]
  by_cases hroot : m.path = rootPath
  · rw [h.atRoot hroot, h'.atRoot hroot]
  · exact List.append_cancel_left ((h.below hself hroot).trans (h'.below hself hroot).symm)

/-- The first match is the longest, since the table is ordered. -/
theorem owns_of_find? (ho : Ordered mounts) (hpath : path.head? = some '/') {m : MountPoint F}
    (hm : mounts.find? (fun m => Covers m.path path) = some m) :
    Owns mounts path m (relative m.path path) := by
  obtain ⟨hc, before, after, rfl, hbefore⟩ := List.find?_eq_some_iff_append.mp hm
  have hc : Covers m.path path := by simpa using hc
  refine ⟨by simp, hc, fun m' hm' hc' hne => ?_, head?_relative hpath hc, fun hself => ?_,
    fun hroot => ?_, fun hne hroot => append_relative (hc.resolve_left hroot) hne hroot⟩
  · have hafter : m' ∈ after := by
      rcases List.mem_append.mp hm' with hin | hin
      · exact absurd hc' (by simpa using hbefore m' hin)
      · exact (List.mem_cons.mp hin).resolve_left hne
    have hle : byteLength m'.path ≤ byteLength m.path :=
      (List.pairwise_cons.mp (List.pairwise_append.mp ho.sorted).2.1).1 m' hafter
    refine length_lt_of_byteLength_le (hc'.isPrefix hpath) (hc.isPrefix hpath) hle fun he => ?_
    have hnodup := ho.nodup
    rw [List.map_append] at hnodup
    exact (List.nodup_cons.mp (List.nodup_append.mp hnodup).2.1).1
      (he ▸ List.mem_map_of_mem hafter)
  · rw [relative, if_pos hself]
  · by_cases hself : path = m.path
    · rw [relative, if_pos hself, hself, hroot]
    · rw [relative, if_neg hself, if_pos hroot]

theorem resolve_eq_some_iff (ho : Ordered mounts) (hpath : path.head? = some '/') {fs : F}
    {rel : Path} :
    resolve mounts path = some (fs, rel) ↔ ∃ m, m.fs = fs ∧ Owns mounts path m rel := by
  rw [resolve_eq_find?]
  constructor
  · intro h
    obtain ⟨m, hm, he⟩ := Option.map_eq_some_iff.mp h
    obtain ⟨rfl, rfl⟩ := Prod.mk.inj he
    exact ⟨m, rfl, owns_of_find? ho hpath hm⟩
  · rintro ⟨m, rfl, hm⟩
    cases hfind : mounts.find? fun m => Covers m.path path with
    | none =>
      exact absurd hm.covers (by simpa using List.find?_eq_none.mp hfind m hm.mem)
    | some m' =>
      obtain ⟨rfl, rfl⟩ := (owns_of_find? ho hpath hfind).unique hm
      rfl

end Owns

theorem resolve_eq_none_iff (mounts : List (MountPoint F)) (path : Path) :
    resolve mounts path = none ↔ ∀ m ∈ mounts, ¬ Covers m.path path := by
  rw [resolve_eq_find?]
  simp

/-- `resolve` finds the longest mount path that covers a path by components. -/
theorem resolve_iff_owns (calls : List (Path × F)) (hcalls : ∀ c ∈ calls, MountPath c.1)
    (path : Path) (hpath : path.head? = some '/') :
    (∀ fs rel, resolve (Lib.run mountStep [] calls) path = some (fs, rel) ↔
        ∃ m, m.fs = fs ∧ Owns (Lib.run mountStep [] calls) path m rel) ∧
      (resolve (Lib.run mountStep [] calls) path = none ↔
        ∀ m ∈ Lib.run mountStep [] calls, ¬ Covers m.path path) ∧
      ¬ Covers "/tmp".toList "/tmpfile".toList :=
  ⟨fun _ _ => resolve_eq_some_iff (ordered_run ordered_nil hcalls) hpath,
    resolve_eq_none_iff _ path, by decide⟩

theorem resolve_iff_owns_boot :
    resolve (Lib.run mountStep [] [("/".toList, 0), ("/tmp".toList, 1)]) "/tmpfile".toList =
      some (0, "/tmpfile".toList) := by
  refine ((resolve_iff_owns [("/".toList, 0), ("/tmp".toList, 1)] (by decide) "/tmpfile".toList
    (by decide)).1 0 "/tmpfile".toList).mpr ⟨⟨rootPath, 0⟩, rfl, ?_⟩
  exact ⟨by decide, Or.inl rfl, by decide, by decide, by decide, fun _ => rfl, by decide⟩

/-! ## Renaming across the table -/

/-- The implementors of the trait. Each is one instance, apart from the proxies for servers. -/
inductive FileSystem where
  | ramfs
  | procfs
  | aeternafs
  | userfs (serverPid channelId : ℕ)
  deriving DecidableEq

/-- Only RamFS overrides the default of the trait, which refuses. -/
def FileSystem.rename : FileSystem → Tree → Path → Path → Tree × Bool
  | .ramfs, tree, src, dst => Vfs.rename tree src dst
  | _, tree, _, _ => (tree, false)

/-- `rename` of the mounted tree; the file system that `dst` resolves to is dropped. -/
def renameMounted (mounts : List (MountPoint FileSystem)) (tree : Tree) (src dst : Path) :
    Tree × Bool :=
  match resolve mounts src with
  | some (fs, relSrc) =>
    match resolve mounts dst with
    | some (_, relDst) => fs.rename tree relSrc relDst
    | none => (tree, false)
  | none => (tree, false)

/-- The RamFS node at an absolute path. -/
def nodeAt (mounts : List (MountPoint FileSystem)) (tree : Tree) (path : Path) : Option RamNode :=
  match resolve mounts path with
  | some (.ramfs, rel) => tree[normalize rel]?
  | _ => none

/-- What a rename is for: if it succeeds, the node of `src` is found at `dst` and nothing at `src`;
between two file systems it is refused and changes nothing. -/
def Moves (mounts : List (MountPoint FileSystem)) (tree : Tree) (src dst : Path) : Prop :=
  ((renameMounted mounts tree src dst).2 = true →
      ∃ node, nodeAt mounts tree src = some node ∧
        nodeAt mounts (renameMounted mounts tree src dst).1 dst = some node ∧
        nodeAt mounts (renameMounted mounts tree src dst).1 src = none) ∧
    ∀ f g relSrc relDst, resolve mounts src = some (f, relSrc) →
      resolve mounts dst = some (g, relDst) → f ≠ g →
        renameMounted mounts tree src dst = (tree, false)

/-- The paths inside the file systems differ, and if RamFS has a node at the first, the second is in
RamFS too, not below the first, nor above it with a node that would be moved onto the first. -/
def Apart (tree : Tree) (g : FileSystem) (relSrc relDst : Path) : Prop :=
  relSrc ≠ relDst ∧ (relSrc ∈ tree → g = .ramfs ∧ ¬ Within relSrc relDst ∧
    (Within relDst relSrc → relSrc ++ relSrc.drop relDst.length ∉ tree))

theorem normal_of_resolve {mounts : List (MountPoint F)} {path rel : Path} {fs : F}
    (hpath : Normal path) (h : resolve mounts path = some (fs, rel)) : Normal rel := by
  rw [resolve_eq_find?] at h
  obtain ⟨m, hm, he⟩ := Option.map_eq_some_iff.mp h
  obtain ⟨-, rfl⟩ := Prod.mk.inj he
  have hc : Covers m.path path := by simpa using List.find?_some hm
  by_cases hself : path = m.path
  · rw [relative, if_pos hself]
    exact normal_root
  by_cases hroot : m.path = rootPath
  · rwa [relative, if_neg hself, if_pos hroot]
  exact hpath.of_suffix ⟨m.path, append_relative (hc.resolve_left hroot) hself hroot⟩
    (head?_relative hpath.head? hc)

section Renaming

variable {mounts : List (MountPoint FileSystem)} {tree : Tree} {src dst relSrc relDst : Path}
  {g : FileSystem}

theorem renameMounted_of_ramfs (hsrc : resolve mounts src = some (.ramfs, relSrc))
    (hdst : resolve mounts dst = some (g, relDst)) :
    renameMounted mounts tree src dst = rename tree relSrc relDst := by
  simp only [renameMounted, hsrc, hdst, FileSystem.rename]

theorem nodeAt_of_ramfs (hn : Normal relSrc) (hsrc : resolve mounts src = some (.ramfs, relSrc)) :
    nodeAt mounts tree src = tree[relSrc]? := by
  simp only [nodeAt, hsrc, normalize_of_normal hn]

theorem moves_of_not_ramfs
    (h : ∀ relSrc g relDst, resolve mounts src = some (.ramfs, relSrc) →
      resolve mounts dst ≠ some (g, relDst)) : Moves mounts tree src dst := by
  have hrefuse : renameMounted mounts tree src dst = (tree, false) := by
    unfold renameMounted
    split
    · rename_i fs relSrc hsrc
      split
      · rename_i g relDst hdst
        cases fs with
        | ramfs => exact absurd hdst (h relSrc g relDst hsrc)
        | procfs => rfl
        | aeternafs => rfl
        | userfs serverPid channelId => rfl
      · rfl
    · rfl
  rw [Moves, hrefuse]
  exact ⟨nofun, fun _ _ _ _ _ _ _ => rfl⟩

theorem moves_iff_apart (hs : Normal relSrc) (hd : Normal relDst)
    (hsrc : resolve mounts src = some (.ramfs, relSrc))
    (hdst : resolve mounts dst = some (g, relDst)) :
    Moves mounts tree src dst ↔ Apart tree g relSrc relDst := by
  have hcall : renameMounted mounts tree src dst = rename tree relSrc relDst :=
    renameMounted_of_ramfs hsrc hdst
  rw [rename, normalize_of_normal hs, normalize_of_normal hd] at hcall
  by_cases hne : relSrc = relDst
  · rw [if_pos hne] at hcall
    refine iff_of_false (fun hm => ?_) fun ha => ha.1 hne
    obtain ⟨node, hbefore, -, hafter⟩ := hm.1 (by rw [hcall])
    rw [hcall, hbefore] at hafter
    cases hafter
  rw [if_neg hne] at hcall
  by_cases hmem : relSrc ∈ tree
  · rw [if_neg (not_not.mpr hmem)] at hcall
    have hleft := getElem?_moveTree_src_iff hmem hs hd hne
    obtain ⟨node, hnode⟩ := Option.ne_none_iff_exists'.mp (mem_iff.mp hmem)
    rw [Moves, hcall, nodeAt_of_ramfs hs hsrc, nodeAt_of_ramfs hs hsrc, hleft]
    constructor
    · rintro ⟨hmoved, hother⟩
      refine ⟨hne, fun _ => ⟨?_, (hmoved rfl).choose_spec.2.2⟩⟩
      by_contra hg
      have hrefused := hother .ramfs g relSrc relDst hsrc hdst (Ne.symm hg)
      cases congrArg Prod.snd hrefused
    · rintro ⟨-, hapart⟩
      obtain ⟨rfl, hfree⟩ := hapart hmem
      refine ⟨fun _ => ⟨node, hnode, ?_, hfree⟩, fun f g _ _ hf hg hfg => ?_⟩
      · rw [nodeAt_of_ramfs hd hdst, getElem?_moveTree_dst hmem, hnode]
      · rw [hsrc] at hf
        rw [hdst] at hg
        cases hf
        cases hg
        exact absurd rfl hfg
  · rw [if_pos hmem] at hcall
    rw [Moves, hcall]
    exact iff_of_true ⟨nofun, fun _ _ _ _ _ _ _ => rfl⟩ ⟨hne, fun hin => absurd hin hmem⟩

end Renaming

/-- A rename of normal paths does what it is for exactly if, where it starts in RamFS, the paths
inside the file systems are `Apart`. -/
theorem moves_iff (mounts : List (MountPoint FileSystem)) (tree : Tree) {src dst : Path}
    (hsrc : Normal src) (hdst : Normal dst) :
    Moves mounts tree src dst ↔
      ∀ relSrc g relDst, resolve mounts src = some (.ramfs, relSrc) →
        resolve mounts dst = some (g, relDst) → Apart tree g relSrc relDst := by
  constructor
  · intro hm relSrc g relDst hs hd
    exact (moves_iff_apart (normal_of_resolve hsrc hs) (normal_of_resolve hdst hd) hs hd).mp hm
  · intro h
    by_cases hram : ∃ relSrc g relDst, resolve mounts src = some (.ramfs, relSrc) ∧
        resolve mounts dst = some (g, relDst)
    · obtain ⟨relSrc, g, relDst, hs, hd⟩ := hram
      exact (moves_iff_apart (normal_of_resolve hsrc hs) (normal_of_resolve hdst hd) hs hd).mpr
        (h relSrc g relDst hs hd)
    · exact moves_of_not_ramfs fun relSrc g relDst hs hd => hram ⟨relSrc, g, relDst, hs, hd⟩

def bootMounts : List (MountPoint FileSystem) :=
  Lib.run mountStep [] [("/".toList, .ramfs), ("/proc".toList, .procfs)]

theorem moves_withinRamfs : Moves bootMounts oneDir "/a".toList "/b/c".toList := by
  refine (moves_iff bootMounts oneDir (by decide) (by decide)).mpr ?_
  intro relSrc g relDst hs hd
  cases hs
  cases hd
  exact ⟨by decide, fun _ => ⟨rfl, by decide, by decide⟩⟩

/-- `/a` is to go to `/proc/b`; it is moved to `/b` of RamFS, and the call reports success. -/
theorem not_moves_toProc : Normal "/a".toList ∧ Normal "/proc/b".toList ∧
    ¬ Above "/a".toList "/proc/b".toList ∧ ¬ Moves bootMounts oneDir "/a".toList "/proc/b".toList := by
  refine ⟨by decide, by decide, by decide, fun hm => ?_⟩
  have hrefused := hm.2 .ramfs .procfs "/a".toList "/b".toList (by decide) (by decide) (by decide)
  exact absurd (congrArg Prod.snd hrefused) (by decide +kernel)

end Aeterna.Vfs
