import Aeterna.Vfs.AeternaFs.Files
import Aeterna.Vfs.AeternaFs.Ownership

/-!
# What the inodes of AeternaFS mean

`State.files` reads the files and directories off the volume, and path lookup and `read_file` are
functions of it (`State.lookupPath_files`, `State.readFile_files`). On a sound volume an operation on
one inode changes one node: a node depends on its own blocks, and no other inode holds them.
-/

namespace Aeterna.Vfs.AeternaFs

open Lib Lib.Bytes Lib.Buffer Lib.Slots

/-! ## Nodes -/

def blockSlots (g : SectorSize) (data : Data) : List Data :=
  (List.range (g.bytes / 32)).map (dirent data)

/-- The slots of a directory, block by block. -/
def slotsOf (g : SectorSize) (block : ℕ → Data) (inode : Inode) : List Data :=
  inode.liveBlocks.flatMap fun b => blockSlots g (block b)

def nodeOf (g : SectorSize) (block : ℕ → Data) (inode : Inode) : Node :=
  if inode.isReg then .file (readChunks block g.bytes inode.size.toNat inode.liveBlocks [])
  else if inode.isDir then .dir (slotsOf g block inode)
  else .other

def State.files {g : SectorSize} (st : State g) : Files :=
  ⟨st.view.ready, st.view.inodeUsed, fun i => nodeOf g st.view.block (st.view.inode i)⟩

section NodeOf

variable {g : SectorSize} {block block' : ℕ → Data} {inode : Inode}

theorem nodeOf_reg (h : inode.isReg = true) :
    nodeOf g block inode =
      .file (readChunks block g.bytes inode.size.toNat inode.liveBlocks []) :=
  if_pos h

theorem not_reg_of_dir (h : inode.isDir = true) : inode.isReg = false := by
  unfold Inode.isReg
  rw [of_decide_eq_true h]
  decide

theorem nodeOf_dir (h : inode.isDir = true) :
    nodeOf g block inode = .dir (slotsOf g block inode) := by
  unfold nodeOf
  rw [if_neg (by rw [not_reg_of_dir h]; decide), if_pos h]

theorem nodeOf_modeFree (h : inode.mode = modeFree) : nodeOf g block inode = .other := by
  unfold nodeOf Inode.isReg Inode.isDir
  rw [h, if_neg (by decide), if_neg (by decide)]

theorem isDir_of_nodeOf {slots : List Data} (h : nodeOf g block inode = .dir slots) :
    inode.isDir = true ∧ slots = slotsOf g block inode := by
  unfold nodeOf at h
  split_ifs at h with hreg hdir
  exact ⟨hdir, (Node.dir.inj h).symm⟩

theorem isReg_of_nodeOf {content : Data} (h : nodeOf g block inode = .file content) :
    inode.isReg = true := by
  unfold nodeOf at h
  split_ifs at h with hreg hdir
  exact hreg

theorem readChunks_congr {ss size : ℕ} {bs : List ℕ} (h : ∀ b ∈ bs, block b = block' b)
    (result : Data) : readChunks block ss size bs result = readChunks block' ss size bs result := by
  induction bs generalizing result with
  | nil => rfl
  | cons b bs ih =>
    rw [readChunks, readChunks, h b List.mem_cons_self,
      ih fun c hc => h c (List.mem_cons_of_mem b hc)]

/-- A node depends on the blocks of its inode only. -/
theorem nodeOf_congr (h : ∀ b ∈ inode.liveBlocks, block b = block' b) :
    nodeOf g block inode = nodeOf g block' inode := by
  have hslots : slotsOf g block inode = slotsOf g block' inode :=
    List.flatMap_congr fun b hb => by rw [h b hb]
  unfold nodeOf
  rw [readChunks_congr h, hslots]

theorem pointer_of_mem_liveBlocks {b : ℕ} (h : b ∈ inode.liveBlocks) :
    ∃ k, inode.pointer k = some b := by
  obtain ⟨p, hp, rfl⟩ := List.mem_map.mp h
  have hne : p ≠ 0 := by simpa using List.mem_takeWhile_imp hp
  obtain ⟨k, hk, rfl⟩ := List.mem_iff_getElem.mp (List.takeWhile_subset _ hp)
  rw [Vector.length_toList] at hk
  exact ⟨⟨k, hk⟩, Inode.pointer_eq_some.mpr ⟨hne, rfl⟩⟩

end NodeOf

/-! ## Frames -/

namespace State

variable {g : SectorSize} {st st' : State g}

theorem used_eq (i : ℕ) : st.files.used i = st.view.inodeUsed i := rfl

theorem ready_eq : st.ready = st.view.ready := rfl

theorem node_eq (i : ℕ) : st.files.node i = nodeOf g st.view.block (st.view.inode i) := rfl

/-- What is written to the inode `i`, to blocks that no inode holds and to those that `i` holds
changes node `i` only. -/
theorem files_update (st : State g) {st' : State g} (i : ℕ) (hready : st'.view.ready = st.view.ready)
    (hinode : ∀ j ≠ i, st'.view.inode j = st.view.inode j)
    (hblock : ∀ j ≠ i, ∀ k b, st.view.held (j, k) = some b → st'.view.block b = st.view.block b) :
    st'.files = ⟨st.files.ready, st'.view.inodeUsed, Function.update st.files.node i
      (nodeOf g st'.view.block (st'.view.inode i))⟩ := by
  refine Files.ext hready rfl (funext fun j => ?_)
  dsimp only
  rw [Function.update_apply]
  split_ifs with hj
  · rw [hj, node_eq]
  · rw [node_eq, hinode j hj]
    refine nodeOf_congr fun b hb => ?_
    obtain ⟨k, hk⟩ := pointer_of_mem_liveBlocks hb
    exact hblock j hj k b hk

theorem files_grown {bs : List ℕ} (hv : st.view.Sound) (h : Grown st.view st'.view bs) :
    st'.files = st.files := by
  refine Files.ext h.ready h.inodeUsed (funext fun j => ?_)
  rw [node_eq, h.inode]
  refine nodeOf_congr fun b hb => h.block b fun hmem => ?_
  obtain ⟨k, hk⟩ := pointer_of_mem_liveBlocks hb
  exact h.not_held hv hmem (j, k) hk

theorem files_flush (st : State g) : st.flushSuperblock.files = st.files := by
  unfold files
  rw [view_flushSuperblock]

/-! ## Lookups -/

theorem node_of_not_valid {i : ℕ} (h : ¬ ValidIno i) : st.files.node i = .other := by
  have hfree : st.view.inode i = .free := by
    show (st.readInodeRaw i).getD .free = .free
    rw [readInodeRaw_of_not_valid st h, Option.getD_none]
  rw [node_eq, hfree, nodeOf_modeFree rfl]

theorem findSlot_eq (inode : Inode) (p : Data → Bool) :
    (st.findSlot inode p).map (fun found => dirent (st.view.block found.1) found.2) =
      (slotsOf g st.view.block inode).find? p := by
  unfold findSlot slotsOf
  rw [List.find?_flatMap, List.map_findSome?]
  congr 1
  funext b
  rw [Function.comp_apply, Option.map_map, blockSlots, List.find?_map]
  rfl

theorem dirLookup_eq (d : ℕ) (name : Path) :
    st.dirLookup d name = st.files.dirLookup d name := by
  unfold dirLookup Files.dirLookup
  by_cases hd : ValidIno d
  · rw [readInodeRaw_of_valid st hd, node_eq]
    dsimp only
    by_cases hdir : (st.view.inode d).isDir = true
    · rw [nodeOf_dir hdir, if_neg (by rw [hdir]; decide)]
      dsimp only
      rw [← findSlot_eq, Option.map_map]
      rfl
    · rw [if_pos (by simpa using hdir)]
      cases hnode : nodeOf g st.view.block (st.view.inode d) with
      | dir slots => exact absurd (isDir_of_nodeOf hnode).1 hdir
      | file content => rfl
      | other => rfl
  · rw [readInodeRaw_of_not_valid st hd, node_of_not_valid hd]

theorem lookupPath_files (path : Path) : st.lookupPath path = st.files.lookup (names path) := by
  have hdir : st.dirLookup = st.files.dirLookup := funext fun d => funext fun n => dirLookup_eq d n
  rw [lookupPath_eq, hdir, Files.lookup]

theorem readFile_files (path : Path) :
    st.readFile path =
      if st.files.ready then (st.files.lookup (names path)).bind st.files.content else none := by
  have hcontent (i : ℕ) : ((st.readInodeRaw i).bind fun inode =>
      if !inode.isReg then none
      else some (readChunks st.readBlock g.bytes inode.size.toNat inode.liveBlocks [])) =
        st.files.content i := by
    unfold Files.content
    by_cases hi : ValidIno i
    · rw [readInodeRaw_of_valid st hi, node_eq, Option.bind_some]
      by_cases hreg : (st.view.inode i).isReg = true
      · rw [nodeOf_reg hreg, if_neg (by rw [hreg]; decide)]
        rfl
      · rw [if_pos (by simpa using hreg)]
        cases hnode : nodeOf g st.view.block (st.view.inode i) with
        | file content => exact absurd (isReg_of_nodeOf hnode) hreg
        | dir slots => rfl
        | other => rfl
    · rw [readInodeRaw_of_not_valid st hi, node_of_not_valid hi]
      rfl
  unfold readFile
  cases hready : st.ready with
  | false =>
    have hfiles : st.files.ready = false := hready
    rw [hfiles]
    rfl
  | true =>
    have hfiles : st.files.ready = true := hready
    rw [hfiles, ← lookupPath_files]
    exact bind_congr fun i => hcontent i

end State

/-! ## Slots -/

section Slots

variable {g : SectorSize} {block : ℕ → Data} {inode : Inode}

theorem length_blockSlots (data : Data) : (blockSlots g data).length = g.bytes / 32 := by
  rw [blockSlots, List.length_map, List.length_range]

theorem blockSlots_splice {data bytes : Data} (hlen : data.length = g.bytes) {slot : ℕ}
    (hslot : slot < g.bytes / 32) (hbytes : bytes.length ≤ 32) :
    blockSlots g (splice data (slot * 32) bytes) =
      (blockSlots g data).set slot (splice (dirent data slot) 0 bytes) := by
  have hfits := State.slot_fits hslot hbytes
  unfold blockSlots
  apply List.ext_getElem
  · simp
  · intro s hs _
    rw [List.getElem_set, List.getElem_map, List.getElem_map, List.getElem_range]
    split_ifs with h
    · subst h
      exact slice_splice_front hbytes (by rw [hlen]; exact State.slot_fits hslot le_rfl)
    · exact slice_splice_of_disjoint (by rw [hlen]; exact hfits) (by omega)

theorem slotsOf_splice (hnodup : inode.liveBlocks.Nodup) {b : ℕ} (hb : b ∈ inode.liveBlocks)
    (hlen : (block b).length = g.bytes) {slot : ℕ} (hslot : slot < g.bytes / 32) {bytes : Data}
    (hbytes : bytes.length ≤ 32) :
    ∃ p, (slotsOf g block inode)[p]? = some (dirent (block b) slot) ∧
      slotsOf g (Function.update block b (splice (block b) (slot * 32) bytes)) inode =
        (slotsOf g block inode).set p (splice (dirent (block b) slot) 0 bytes) := by
  have hlt : slot < (blockSlots g (block b)).length := by rwa [length_blockSlots]
  have hother (c : ℕ) (_ : c ∈ inode.liveBlocks) (hc : c ≠ b) :
      blockSlots g (Function.update block b (splice (block b) (slot * 32) bytes) c) =
        blockSlots g (block c) := by
    rw [Function.update_of_ne hc]
  have hself : blockSlots g (Function.update block b (splice (block b) (slot * 32) bytes) b) =
      (blockSlots g (block b)).set slot (splice (dirent (block b) slot) 0 bytes) := by
    rw [Function.update_self, blockSlots_splice hlen hslot hbytes]
  obtain ⟨p, hp, hset⟩ := flatMap_set hb hnodup hother hlt hself
  refine ⟨p, ?_, hset⟩
  rw [slotsOf, hp, blockSlots, List.getElem?_map, List.getElem?_range hslot]
  rfl

theorem blockSlots_zero :
    blockSlots g (List.replicate g.bytes 0) = List.replicate (g.bytes / 32) freeSlot := by
  apply List.eq_replicate_iff.mpr
  refine ⟨length_blockSlots _, fun raw hraw => ?_⟩
  obtain ⟨slot, hslot, rfl⟩ := List.mem_map.mp hraw
  have hfits := State.slot_fits (List.mem_range.mp hslot) (le_refl 32)
  rw [dirent, slice, List.drop_replicate, List.take_replicate, Nat.min_eq_left (by omega), freeSlot]

theorem bytes_div_pos : 1 < g.bytes / 32 := by cases g <;> decide

theorem blockSlots_newBlock (c : ℕ) {name : Path} (h : (pathBytes name).length ≤ 27) :
    blockSlots g (splice (List.replicate g.bytes 0) 0 (leBytes 4 c ++ pathBytes name)) =
      (List.replicate (g.bytes / 32) freeSlot).set 0 (entryBytes c name) := by
  have hpos : 0 < g.bytes / 32 := Nat.zero_lt_of_lt bytes_div_pos
  have hfree : dirent (List.replicate g.bytes 0) 0 = freeSlot := by
    rw [dirent, slice, List.drop_replicate, List.take_replicate, Nat.min_eq_left (by omega),
      freeSlot]
  have hentry := State.length_entry c h
  rw [blockSlots_splice List.length_replicate hpos (by omega), hfree, splice_freeSlot c h,
    blockSlots_zero]

theorem slotsOf_append {inode' : Inode} {b c : ℕ} {name : Path}
    (h : (pathBytes name).length ≤ 27) (hlive : inode'.liveBlocks = inode.liveBlocks ++ [b])
    {block' : ℕ → Data} (hblock : ∀ d ∈ inode.liveBlocks, block' d = block d)
    (hnew : block' b = splice (List.replicate g.bytes 0) 0 (leBytes 4 c ++ pathBytes name)) :
    Inserted (slotsOf g block inode) (slotsOf g block' inode') (entryBytes c name) := by
  have hold : inode.liveBlocks.flatMap (fun d => blockSlots g (block' d)) = slotsOf g block inode :=
    List.flatMap_congr fun d hd => by rw [hblock d hd]
  refine ⟨g.bytes / 32, (slotsOf g block inode).length, ?_, ?_⟩
  · rw [List.getElem?_append_right le_rfl, Nat.sub_self, List.getElem?_replicate,
      if_pos (Nat.zero_lt_of_lt bytes_div_pos)]
  · rw [List.set_append_right _ _ le_rfl, Nat.sub_self, slotsOf, hlive, List.flatMap_append, hold,
      List.flatMap_singleton, hnew, blockSlots_newBlock c h]

end Slots

/-! ## Live blocks -/

section LiveBlocks

variable {inode inode' : Inode}

theorem liveBlocks_eq_take {n : ℕ} (hbefore : ∀ k : Fin 8, (k : ℕ) < n → inode.direct.get k ≠ 0)
    (hat : ∀ k : Fin 8, (k : ℕ) = n → inode.direct.get k = 0) :
    inode.liveBlocks = (inode.direct.toList.take n).map UInt32.toNat := by
  have hget {i : ℕ} {x : UInt32} (h : inode.direct.toList[i]? = some x) :
      ∃ k : Fin 8, (k : ℕ) = i ∧ inode.direct.get k = x := by
    obtain ⟨hi, hx⟩ := List.getElem?_eq_some_iff.mp h
    rw [Vector.length_toList] at hi
    exact ⟨⟨i, hi⟩, rfl, hx⟩
  unfold Inode.liveBlocks
  rw [takeWhile_eq_take (n := n)]
  · intro i x hi hx
    obtain ⟨k, rfl, rfl⟩ := hget hx
    exact bne_iff_ne.mpr (hbefore k hi)
  · intro x hx
    obtain ⟨k, hk, rfl⟩ := hget hx
    rw [hat k hk]
    rfl

theorem getElem?_direct {k : ℕ} (hk : k < 8) :
    inode.direct.toList[k]? = some inode.direct[k] := by
  rw [List.getElem?_eq_getElem (by rw [Vector.length_toList]; exact hk), Vector.getElem_toList]

theorem liveBlocks_set {v v' : Volume} (hv : v.Sound) {b : ℕ} (hgrown : Grown v v' [b]) {k : Fin 8}
    (hpoint : State.Pointed inode inode' k [b]) (hcompact : inode.Compact)
    (hk : inode.direct.get k = 0) (hbefore : ∀ l < k, inode.direct.get l ≠ 0) :
    inode'.liveBlocks = inode.liveBlocks ++ [b] := by
  have hb := List.mem_singleton_self b
  have hself : inode'.direct.get k = UInt32.ofNat b := by
    rw [hpoint.direct k, if_pos (by simp), Nat.sub_self]
    rfl
  have hother (l : Fin 8) (hl : l ≠ k) : inode'.direct.get l = inode.direct.get l := by
    rw [hpoint.direct l, if_neg (by rw [List.length_singleton]; omega)]
  have hlive : inode.liveBlocks = (inode.direct.toList.take k).map UInt32.toNat :=
    liveBlocks_eq_take hbefore fun l hl => Fin.ext hl ▸ hk
  have hlive' : inode'.liveBlocks = (inode'.direct.toList.take (k + 1)).map UInt32.toNat := by
    refine liveBlocks_eq_take (fun l hl => ?_) fun l hl => ?_
    · by_cases hlk : l = k
      · rw [hlk, hself]
        exact hgrown.ofNat_ne_zero hv hb
      · rw [hother l hlk]
        exact hbefore l (Fin.lt_def.mpr (by omega))
    · have hlk : l ≠ k := fun h => by rw [h] at hl; omega
      rw [hother l hlk]
      exact hcompact k l (Fin.le_def.mpr (by omega)) hk
  have htake : inode'.direct.toList.take k = inode.direct.toList.take k := by
    apply List.ext_getElem
    · simp
    · intro i hi _
      rw [List.length_take] at hi
      rw [List.getElem_take, List.getElem_take]
      exact hother ⟨i, by omega⟩ fun h => by rw [← h] at hi; simp at hi
  rw [hlive, hlive', List.take_add_one, getElem?_direct k.isLt, Option.toList_some, List.map_append,
    List.map_singleton]
  congr 2
  rw [← hgrown.toNat_ofNat hv hb]
  exact congrArg UInt32.toNat hself

theorem liveBlocks_of_pointed {v v' : Volume} (hv : v.Sound) {bs : List ℕ}
    (hgrown : Grown v v' bs) (hlen : bs.length ≤ 8) (hpoint : State.Pointed inode inode' 0 bs)
    (hzero : ∀ k : Fin 8, inode.direct.get k = 0) : inode'.liveBlocks = bs := by
  have hnew (k : Fin 8) (hk : (k : ℕ) < bs.length) :
      inode'.direct.get k = UInt32.ofNat bs[k] := by
    rw [hpoint.direct k, if_pos ⟨Nat.zero_le _, by omega⟩, Nat.sub_zero,
      List.getD_eq_getElem bs 0 hk]
    rfl
  have hlive : inode'.liveBlocks = (inode'.direct.toList.take bs.length).map UInt32.toNat := by
    refine liveBlocks_eq_take (fun k hk => ?_) fun k hk => ?_
    · rw [hnew k hk]
      exact hgrown.ofNat_ne_zero hv (List.getElem_mem hk)
    · rw [hpoint.direct k, if_neg (by omega), hzero k]
  rw [hlive]
  apply List.ext_getElem
  · simp [hlen]
  · intro i hi hi'
    rw [List.getElem_map, List.getElem_take]
    have hi8 := congrArg UInt32.toNat (hnew ⟨i, by omega⟩ hi')
    exact hi8.trans (hgrown.toNat_ofNat hv (List.getElem_mem hi'))

theorem nodup_liveBlocks {v : Volume} (hv : v.Sound) (i : ℕ) : (v.inode i).liveBlocks.Nodup := by
  have hget {a : ℕ} (ha : a < (v.inode i).liveBlocks.length) :
      ∃ k : Fin 8, (k : ℕ) = a ∧ v.held (i, k) = some (v.inode i).liveBlocks[a] := by
    have hlive : a < ((v.inode i).direct.toList.takeWhile (· != 0)).length := by
      simpa [Inode.liveBlocks] using ha
    have hinit := List.takeWhile_prefix (l := (v.inode i).direct.toList) (· != 0)
    have ha8 : a < 8 := by
      have := lt_of_lt_of_le hlive hinit.length_le
      rwa [Vector.length_toList] at this
    have heq : ((v.inode i).direct.toList.takeWhile (· != 0))[a] = (v.inode i).direct[a] := by
      rw [hinit.getElem hlive, Vector.getElem_toList]
    have hne := List.mem_takeWhile_imp (List.getElem_mem hlive)
    refine ⟨⟨a, ha8⟩, rfl, Inode.pointer_eq_some.mpr ⟨?_, ?_⟩⟩
    · rw [heq] at hne
      exact bne_iff_ne.mp hne
    · simp only [Inode.liveBlocks, List.getElem_map, heq]
      rfl
  refine List.pairwise_iff_getElem.mpr fun a b ha hb hab heq => ?_
  obtain ⟨k, hk, hka⟩ := hget ha
  obtain ⟨l, hl, hlb⟩ := hget hb
  have hkl := hv.holding.inj (i, k) (i, l) _ (heq ▸ hka) hlb
  have := congrArg (fun p : ℕ × Fin 8 => (p.2 : ℕ)) hkl
  dsimp only at this
  omega

end LiveBlocks

/-! ## Files -/

theorem readChunks_holds {block : ℕ → Data} {ss : ℕ} {bs : List ℕ} {rest : Data}
    (h : State.Holds block ss bs rest) (result : Data) :
    readChunks block ss (result.length + rest.length) bs result = result ++ rest := by
  induction bs generalizing rest result with
  | nil =>
    rw [h, readChunks, List.append_nil]
  | cons b bs ih =>
    obtain ⟨hne, hb, hrest⟩ := h
    have hmin : min (result.length + rest.length - result.length) ss = (rest.take ss).length := by
      rw [Nat.add_sub_cancel_left, List.length_take, Nat.min_comm]
    have htake : (block b).take (min (result.length + rest.length - result.length) ss) =
        rest.take ss := by
      rw [hmin, hb, Device.fit, List.take_take, Nat.min_self, List.take_left]
    have hsize : result.length + rest.length =
        (result ++ rest.take ss).length + (rest.drop ss).length := by
      rw [List.length_append, List.length_drop]
      omega
    rw [readChunks, htake]
    split_ifs with hdone
    · rw [List.length_append] at hdone
      rw [List.take_of_length_le (by omega)]
    · rw [hsize, ih hrest, List.append_assoc, List.take_append_drop]

namespace State

variable {g : SectorSize} {st : State g}

theorem nodeOf_blank {block : ℕ → Data} {inode : Inode} (hreg : inode.isReg = true)
    (hzero : ∀ k : Fin 8, inode.direct.get k = 0) : nodeOf g block inode = .file [] := by
  have hlive : inode.liveBlocks = [] :=
    liveBlocks_eq_take (n := 0) (fun k hk => absurd hk (Nat.not_lt_zero _)) fun k _ => hzero k
  rw [nodeOf_reg hreg, hlive]
  rfl

theorem truncate_files (hv : st.view.Sound) {ino : ℕ} (h : ValidIno ino)
    (hreg : (st.view.inode ino).isReg = true) :
    (st.truncate ino).files =
        st.files.set ino (.file []) ∧
      ((st.truncate ino).view.inode ino).isReg = true ∧
      ∀ k : Fin 8, ((st.truncate ino).view.inode ino).direct.get k = 0 := by
  obtain ⟨st', hst', -, used, hview, -⟩ := release_spec hv h { st.view.inode ino with
    direct := Vector.replicate 8 0, size := 0 } fun k => Vector.getElem_replicate _
  have htrunc : st.truncate ino = st' := by
    unfold truncate
    rw [readInodeRaw_of_valid st h, ← hst']
    exact if_pos hreg
  have hinode : st'.view.inode ino =
      { st.view.inode ino with direct := Vector.replicate 8 0, size := 0 } := by
    rw [hview]
    exact Function.update_self ino _ _
  have hzero (k : Fin 8) : (st'.view.inode ino).direct.get k = 0 := by
    rw [hinode]
    exact Vector.getElem_replicate _
  have hreg' : (st'.view.inode ino).isReg = true := by
    rw [hinode]
    exact hreg
  rw [htrunc]
  refine ⟨?_, hreg', hzero⟩
  rw [files_update st ino, nodeOf_blank hreg' hzero, hview]
  · rfl
  · rw [hview]
  · intro j hj
    rw [hview]
    exact Function.update_of_ne hj _ _
  · intro j _ k b _
    rw [hview]

theorem writeData_files (hv : st.view.Sound) {ino : ℕ} (h : ValidIno ino)
    (hreg : (st.view.inode ino).isReg = true)
    (hzero : ∀ k : Fin 8, (st.view.inode ino).direct.get k = 0) (data : Data) :
    ∃ content, (st.writeData ino data).2.files =
        st.files.set ino (.file content) ∧
      ((st.writeData ino data).1 = true → data.length ≤ 8 * g.bytes → content = data) := by
  have hblank : st.files.node ino = .file [] := nodeOf_blank hreg hzero
  unfold writeData
  rw [readInodeRaw_of_valid st h]
  dsimp only
  obtain ⟨bs, hgrown, hlen, hresult⟩ :=
    writeChunks_spec hv (List.finRange 8) (st.view.inode ino) data 0 (by intro t ht; simp)
  generalize writeChunks (List.finRange 8) st (st.view.inode ino) data = result at *
  obtain ⟨out, st'⟩ := result
  rcases hresult with rfl | ⟨inode, rfl, hpoint, hholds⟩
  · refine ⟨[], ?_, fun hfalse => absurd hfalse Bool.false_ne_true⟩
    rw [Files.set_eq_self _ hblank]
    exact files_grown hv hgrown
  · dsimp only
    have hview := view_writeInodeRaw st' h { inode with size := UInt64.ofNat data.length }
    generalize (st'.writeInodeRaw ino { inode with size := UInt64.ofNat data.length }).2 = st'' at *
    have hinode : st''.view.inode ino = { inode with size := UInt64.ofNat data.length } := by
      rw [hview]
      exact Function.update_self ino _ _
    have hreg' : (st''.view.inode ino).isReg = true := by
      rw [hinode]
      rw [hpoint.mode]
      exact hreg
    have hlive : (st''.view.inode ino).liveBlocks = bs := by
      rw [hinode]
      exact liveBlocks_of_pointed hv hgrown hlen (hpoint.resize _) hzero
    have hblock : st''.view.block = st'.view.block := by rw [hview]
    refine ⟨readChunks st'.view.block g.bytes (st''.view.inode ino).size.toNat bs [], ?_, ?_⟩
    · rw [files_flush, files_update st ino, nodeOf_reg hreg', hlive]
      · rw [hview, hgrown.inodeUsed]
        rfl
      · rw [hview]
        exact hgrown.ready
      · intro j hj
        rw [hview, ← hgrown.inode]
        exact Function.update_of_ne hj _ _
      · intro j _ k b hb
        rw [hblock]
        exact hgrown.block b fun hmem => hgrown.not_held hv hmem (j, k) hb
    · intro _ hfits
      have hsize : (st''.view.inode ino).size.toNat = ([] : Data).length + data.length := by
        have hbound : 8 * g.bytes < 2 ^ 64 := by cases g <;> decide
        rw [hinode, List.length_nil, Nat.zero_add]
        exact UInt64.toNat_ofNat_of_lt' (lt_of_le_of_lt hfits hbound)
      rw [hsize, readChunks_holds (hholds hfits), List.nil_append]

/-! ## Directory operations -/

theorem nodeOf_emptyDir (block : ℕ → Data) (nlinks : UInt16) :
    nodeOf g block (.empty modeDir nlinks) = .dir [] := by
  have hdir : (Inode.empty modeDir nlinks).isDir = true := by
    show decide (modeDir &&& 0xF000 = modeDir) = true
    decide
  rw [nodeOf_dir hdir]
  rfl

theorem files_writeSlot (hv : st.view.Sound) {st' : State g} {d blk slot : ℕ} {bytes : Data}
    (hdir : (st.view.inode d).isDir = true) (hblk : blk ∈ (st.view.inode d).liveBlocks)
    (hslot : slot < g.bytes / 32) (hbytes : bytes.length ≤ 32)
    (hview : st'.view = { st.view with
      block := Function.update st.view.block blk
        (splice (st.view.block blk) (slot * 32) bytes) }) :
    ∃ slots p, st.files.node d = .dir slots ∧ slots[p]? = some (dirent (st.view.block blk) slot) ∧
      st'.files = st.files.set d
        (.dir (slots.set p (splice (dirent (st.view.block blk) slot) 0 bytes))) := by
  obtain ⟨p, hp, hset⟩ := slotsOf_splice (nodup_liveBlocks hv d) hblk (length_block st blk) hslot
    hbytes
  obtain ⟨k, hk⟩ := pointer_of_mem_liveBlocks hblk
  have hinode : st'.view.inode = st.view.inode := by rw [hview]
  refine ⟨slotsOf g st.view.block (st.view.inode d), p, nodeOf_dir hdir, hp, ?_⟩
  rw [files_update st d, hinode, nodeOf_dir hdir, hview]
  · rw [hset]
    rfl
  · rw [hview]
  · exact fun j _ => by rw [hinode]
  · intro j hj l b hb
    have hne : b ≠ blk := by
      rintro rfl
      exact hj (congrArg Prod.fst (hv.holding.inj (j, l) (d, k) b hb hk))
    rw [hview]
    exact Function.update_of_ne hne _ _

theorem dirAddEntry_files (hv : st.view.Sound) {d : ℕ} (name : Path) (c : ℕ)
    (hformed : ∀ slots, st.files.node d = .dir slots → ∀ raw ∈ slots, Formed raw) :
    st.dirAddEntry d name c = (false, st) ∨
      (pathBytes name).length ≤ 27 ∧ (st.dirAddEntry d name c).1 = true ∧
        ∃ slots slots', st.files.node d = .dir slots ∧
          Inserted slots slots' (entryBytes c name) ∧
          (st.dirAddEntry d name c).2.files =
            st.files.set d (.dir slots') := by
  rcases dirAddEntry_cases hv d name c with hfalse | ⟨⟨hd, hdir, hname⟩, htrue, hcases⟩
  · exact Or.inl hfalse
  refine Or.inr ⟨hname, htrue, ?_⟩
  rcases hcases with ⟨blk, slot, hfind, hview⟩ |
    ⟨b, k, st', inode, -, hk, hbefore, hgrown, hpoint, hview⟩
  · obtain ⟨hblk, hslot, hfree⟩ := findSlot_some hfind
    have hentry := length_entry c hname
    have hbytes : (leBytes 4 c ++ pathBytes name ++ [0]).length ≤ 32 := by
      rw [List.length_append, List.length_singleton]
      omega
    obtain ⟨slots, p, hnode, hp, hfiles⟩ := files_writeSlot hv hdir hblk hslot hbytes hview
    have hraw := (hformed slots hnode _ (List.mem_of_getElem? hp)).eq_freeSlot hfree
    rw [hraw] at hp hfiles
    refine ⟨slots, _, hnode, ⟨0, p, ?_, ?_⟩, hfiles⟩
    · rw [List.replicate_zero, List.append_nil]
      exact hp
    · rw [List.replicate_zero, List.append_nil, splice_freeSlot_zero c hname]
  · generalize (st.dirAddEntry d name c).2 = st'' at *
    have hinode : st''.view.inode d = inode := by
      rw [hview]
      exact Function.update_self d _ _
    have hdir' : inode.isDir = true := by
      unfold Inode.isDir at hdir ⊢
      rw [hpoint.mode]
      exact hdir
    have hheld {j : ℕ} {l : Fin 8} {b' : ℕ} (hb' : st.view.held (j, l) = some b') :
        st''.view.block b' = st.view.block b' := by
      have hne : b' ≠ b := by
        rintro rfl
        exact hgrown.not_held hv (List.mem_singleton_self b') (j, l) hb'
      rw [hview]
      dsimp only
      rw [Function.update_of_ne hne]
      exact hgrown.block b' fun hmem => hne (List.mem_singleton.mp hmem)
    have hlive := liveBlocks_set hv hgrown hpoint (hv.compact d) hk hbefore
    have hinserted : Inserted (slotsOf g st.view.block (st.view.inode d))
        (slotsOf g st''.view.block inode) (entryBytes c name) := by
      refine slotsOf_append hname hlive (fun b' hb' => ?_) ?_
      · obtain ⟨l, hl⟩ := pointer_of_mem_liveBlocks hb'
        exact hheld (j := d) (l := l) hl
      · rw [hview]
        exact Function.update_self b _ _
    refine ⟨_, _, nodeOf_dir hdir, hinserted, ?_⟩
    rw [files_update st d, hinode, nodeOf_dir hdir']
    · rw [hview]
      rw [hgrown.inodeUsed]
      rfl
    · rw [hview]
      exact hgrown.ready
    · intro j hj
      rw [hview, ← hgrown.inode]
      exact Function.update_of_ne hj _ _
    · exact fun j _ l b' hb' => hheld hb'

theorem valid_of_node {i : ℕ} (h : st.files.node i ≠ .other) : ValidIno i := by
  by_contra hi
  exact h (node_of_not_valid hi)

theorem dirRemoveEntry_files (hv : st.view.Sound) {d : ℕ} {name : Path} {slots : List Data}
    {raw : Data} (hnode : st.files.node d = .dir slots)
    (hfind : slots.find? (isNamed name) = some raw) :
    ∃ p, slots[p]? = some raw ∧ (st.dirRemoveEntry d name).2.files =
      st.files.set d (.dir (slots.set p freeSlot)) := by
  have hd : ValidIno d := valid_of_node (by rw [hnode]; exact Node.noConfusion)
  obtain ⟨hdir, rfl⟩ := isDir_of_nodeOf hnode
  rw [← findSlot_eq] at hfind
  obtain ⟨⟨blk, slot⟩, hslot, rfl⟩ := Option.map_eq_some_iff.mp hfind
  rcases dirRemoveEntry_cases st d name with ⟨-, hnone⟩ | ⟨blk', slot', hslot', hview⟩
  · rw [hnone hd hdir] at hslot
    exact absurd hslot.symm (Option.some_ne_none _)
  · rw [hslot] at hslot'
    obtain ⟨rfl, rfl⟩ := Prod.mk.inj (Option.some.inj hslot')
    obtain ⟨hblk, hlt, -⟩ := findSlot_some hslot
    obtain ⟨slots, p, hnode', hp, hfiles⟩ := files_writeSlot hv hdir hblk hlt (by simp) hview
    rw [hnode] at hnode'
    obtain rfl := Node.dir.inj hnode'
    have hlen : (dirent (st.view.block blk) slot).length = 32 :=
      length_slice (by rw [length_block]; exact slot_fits hlt le_rfl)
    have hclear : splice (dirent (st.view.block blk) slot) 0 (List.replicate 32 0) = freeSlot := by
      rw [splice, List.take_zero, List.nil_append, List.length_replicate,
        List.drop_of_length_le (by omega), List.append_nil, freeSlot]
    rw [hclear] at hfiles
    exact ⟨p, hp, hfiles⟩

theorem files_newInode {st' : State g} {i : ℕ} {inode : Inode}
    (hview : st'.view = { st.view with
      inodeUsed := Function.update st.view.inodeUsed i true
      inode := Function.update st.view.inode i inode }) :
    st'.files = st.files.create i (nodeOf g st.view.block inode) := by
  have hinode : st'.view.inode i = inode := by
    rw [hview]
    exact Function.update_self i _ _
  rw [files_update st i, hinode, hview]
  · rfl
  · rw [hview]
  · intro j hj
    rw [hview]
    exact Function.update_of_ne hj _ _
  · intro j _ k b _
    rw [hview]

end State

end Aeterna.Vfs.AeternaFs
