import Aeterna.Vfs.AeternaFs.Nodes

/-!
# Room on the volume

`alloc_block` fails when every block is marked, and each caller has its own way of giving up. With
`Volume.freeBlocks` counting the blocks that are left, the loop of `write_file` ends when they are
enough for the data (`State.writeChunks_isSome`), and an entry comes into a directory that has a free
slot, or a free pointer and a block for it (`State.dirAddEntry_true`).
-/

namespace Aeterna.Vfs.AeternaFs

open Lib Lib.Bytes Lib.Buffer

def Volume.freeBlocks (v : Volume) : ℕ :=
  ((Finset.range v.total).filter fun b => v.blockUsed b = false).card

theorem Grown.freeBlocks {v v' : Volume} {bs : List ℕ} (h : Grown v v' bs) :
    v'.freeBlocks + bs.length = v.freeBlocks := by
  have hsub : bs.toFinset ⊆ (Finset.range v.total).filter fun b => v.blockUsed b = false := by
    intro b hb
    rw [Finset.mem_filter, Finset.mem_range]
    exact h.free b (List.mem_toFinset.mp hb)
  have hfree : ((Finset.range v'.total).filter fun b => v'.blockUsed b = false) =
      ((Finset.range v.total).filter fun b => v.blockUsed b = false) \ bs.toFinset := by
    ext b
    simp only [Finset.mem_sdiff, Finset.mem_filter, Finset.mem_range, List.mem_toFinset, h.total,
      h.blockUsed, Bool.or_eq_false_iff, decide_eq_false_iff_not, and_assoc]
  rw [Volume.freeBlocks, Volume.freeBlocks, hfree, ← List.toFinset_card_of_nodup h.nodup,
    Finset.card_sdiff_add_card_eq_card hsub]

namespace State

variable {g : SectorSize} {st st' : State g}

theorem freeBlocks_eq_zero (h : ∀ b < st.view.total, st.view.blockUsed b = true) :
    st.view.freeBlocks = 0 := by
  refine Finset.card_eq_zero.mpr (Finset.filter_eq_empty_iff.mpr fun b hb => ?_)
  rw [h b (Finset.mem_range.mp hb)]
  exact Bool.true_eq_false_eq_False

theorem allocBlock_of_freeBlocks (hv : st.view.Sound) (h : 0 < st.view.freeBlocks) :
    ∃ b st', st.allocBlock = (some b, st') ∧ Grown st.view st'.view [b] := by
  rcases allocBlock_grown hv with ⟨-, hused⟩ | halloc
  · rw [freeBlocks_eq_zero hused] at h
    exact absurd h (Nat.lt_irrefl 0)
  · exact halloc

/-! ## Files -/

theorem writeChunks_isSome (hv : st.view.Sound) (ks : List (Fin 8)) (inode : Inode) (data : Data)
    (h : data.length ≤ st.view.freeBlocks * g.bytes) :
    ∃ inode', (writeChunks ks st inode data).1 = some inode' := by
  induction ks generalizing st inode data with
  | nil => exact ⟨inode, rfl⟩
  | cons k ks ih =>
    rw [writeChunks]
    split_ifs with hrest
    · exact ⟨inode, rfl⟩
    have hpos : 0 < st.view.freeBlocks := by
      refine Nat.pos_of_ne_zero fun hzero => hrest ?_
      rw [hzero, Nat.zero_mul] at h
      exact List.length_eq_zero_iff.mp (Nat.le_zero.mp h)
    obtain ⟨b, st', halloc, hgrown⟩ := allocBlock_of_freeBlocks hv hpos
    rw [halloc]
    have hgrown' := hgrown.writeBlock (List.mem_singleton_self b) (data.take g.bytes)
    refine ih (hgrown'.sound hv) _ _ ?_
    rw [← hgrown'.freeBlocks, List.length_singleton, Nat.succ_mul] at h
    rw [List.length_drop]
    omega

theorem writeData_true (hv : st.view.Sound) {ino : ℕ} (hino : ValidIno ino) {data : Data}
    (h : data.length ≤ st.view.freeBlocks * g.bytes) : (st.writeData ino data).1 = true := by
  obtain ⟨inode, hsome⟩ := writeChunks_isSome hv (List.finRange 8) (st.view.inode ino) data h
  unfold writeData
  rw [readInodeRaw_of_valid st hino]
  dsimp only
  generalize writeChunks (List.finRange 8) st (st.view.inode ino) data = result at *
  obtain ⟨out, st'⟩ := result
  obtain rfl : out = some inode := hsome
  rfl

/-! ## Directories -/

def HasFreeSlot (st : State g) (d : ℕ) : Prop :=
  ∃ slots, st.files.node d = .dir slots ∧ ∃ raw ∈ slots, isFree raw = true

/-- Directory `d` can take an entry of this name, with `n` blocks to spare if it has to grow. -/
structure Room (st : State g) (d : ℕ) (name : Path) (n : ℕ) : Prop where
  valid : ValidIno d
  dir : (st.view.inode d).isDir = true
  name_le : (pathBytes name).length ≤ 27
  place : st.HasFreeSlot d ∨
    (∃ k : Fin 8, (st.view.inode d).direct.get k = 0) ∧ n < st.view.freeBlocks

theorem Room.transport {d n m : ℕ} {name : Path} (h : st.Room d name (n + m))
    (hinode : st'.view.inode d = st.view.inode d) (hnode : st'.files.node d = st.files.node d)
    (hfree : st.view.freeBlocks ≤ st'.view.freeBlocks + m) : st'.Room d name n where
  valid := h.valid
  dir := by
    rw [hinode]
    exact h.dir
  name_le := h.name_le
  place := by
    unfold HasFreeSlot
    rw [hinode, hnode]
    refine h.place.imp_right fun ⟨hk, hlt⟩ => ⟨hk, ?_⟩
    omega

theorem findSlot_of_hasFreeSlot {d : ℕ} (h : st.HasFreeSlot d) :
    st.findSlot (st.view.inode d) isFree ≠ none := by
  obtain ⟨slots, hnode, raw, hraw, hfree⟩ := h
  obtain ⟨-, rfl⟩ := isDir_of_nodeOf hnode
  intro hnone
  have hfind : _ = (slotsOf g st.view.block (st.view.inode d)).find? isFree := findSlot_eq _ _
  rw [hnone, Option.map_none] at hfind
  exact List.find?_eq_none.mp hfind.symm raw hraw hfree

theorem dirAddEntry_true (hv : st.view.Sound) {d : ℕ} {name : Path} (h : st.Room d name 0) (c : ℕ) :
    (st.dirAddEntry d name c).1 = true := by
  unfold dirAddEntry
  rw [readInodeRaw_of_valid st h.valid]
  dsimp only
  rw [if_neg (by rw [h.dir]; decide), if_neg (Nat.not_lt.mpr h.name_le)]
  cases hfind : st.findSlot (st.view.inode d) isFree with
  | some found => rfl
  | none =>
    obtain ⟨⟨k, hk⟩, hpos⟩ := h.place.resolve_left fun hslot => findSlot_of_hasFreeSlot hslot hfind
    dsimp only
    cases hzero : (List.finRange 8).find? fun k => (st.view.inode d).direct.get k == 0 with
    | none =>
      have hne := List.find?_eq_none.mp hzero k (List.mem_finRange k)
      exact absurd (beq_iff_eq.mpr hk) hne
    | some k =>
      obtain ⟨b, st', halloc, -⟩ := allocBlock_of_freeBlocks hv hpos
      dsimp only
      rw [halloc]

/-- An entry takes a block only in a directory without a free slot, which has one from then on. -/
theorem dirAddEntry_freeBlocks (hv : st.view.Sound) (d : ℕ) (name : Path) (c : ℕ) :
    (st.dirAddEntry d name c).2.view.freeBlocks = st.view.freeBlocks ∨
      ¬ st.HasFreeSlot d ∧ (st.dirAddEntry d name c).2.HasFreeSlot d ∧
        (st.dirAddEntry d name c).2.view.freeBlocks + 1 = st.view.freeBlocks := by
  rcases dirAddEntry_cases hv d name c with hfalse | ⟨⟨hd, hdir, hname⟩, -, hcases⟩
  · rw [hfalse]
    exact Or.inl rfl
  rcases hcases with ⟨blk, slot, -, hview⟩ |
    ⟨b, k, st', inode, hnone, hk, hbefore, hgrown, hpoint, hview⟩
  · rw [hview]
    exact Or.inl rfl
  · refine Or.inr ⟨fun hslot => findSlot_of_hasFreeSlot hslot hnone, ?_, ?_⟩
    · generalize (st.dirAddEntry d name c).2 = st'' at *
      have hinode : st''.view.inode d = inode := by
        rw [hview]
        exact Function.update_self d _ _
      have hblock : st''.view.block b =
          splice (List.replicate g.bytes 0) 0 (leBytes 4 c ++ pathBytes name) := by
        rw [hview]
        exact Function.update_self b _ _
      have hdir' : inode.isDir = true := by
        unfold Inode.isDir at hdir ⊢
        rw [hpoint.mode]
        exact hdir
      have hlive := liveBlocks_set hv hgrown hpoint (hv.compact d) hk hbefore
      refine ⟨_, nodeOf_dir (hinode.symm ▸ hdir'), freeSlot, ?_, by decide⟩
      rw [slotsOf, hinode, hlive, List.flatMap_append, List.flatMap_singleton, hblock,
        blockSlots_newBlock c hname]
      refine List.mem_append_right _ (List.mem_of_getElem? (i := 1) ?_)
      rw [List.getElem?_set_ne (by decide), List.getElem?_replicate, if_pos bytes_div_pos]
    · rw [hview]
      exact hgrown.freeBlocks

/-- Two entries of another directory take one block at most. -/
theorem Room.after_two {d n : ℕ} {name : Path} (h : st.Room d name (n + 1)) (hv : st.view.Sound)
    {i : ℕ} (hdi : d ≠ i) (name₁ name₂ : Path) (c₁ c₂ : ℕ)
    (hnode : ((st.dirAddEntry i name₁ c₁).2.dirAddEntry i name₂ c₂).2.files.node d =
      st.files.node d) :
    ((st.dirAddEntry i name₁ c₁).2.dirAddEntry i name₂ c₂).2.Room d name n := by
  have hv₁ := dirAddEntry_sound hv i name₁ c₁
  refine h.transport ?_ hnode ?_
  · rw [dirAddEntry_inode hv₁ hdi, dirAddEntry_inode hv hdi]
  · rcases dirAddEntry_freeBlocks hv i name₁ c₁ with hone | ⟨-, hslot, hone⟩
    · rcases dirAddEntry_freeBlocks hv₁ i name₂ c₂ with htwo | ⟨-, -, htwo⟩ <;> omega
    · rcases dirAddEntry_freeBlocks hv₁ i name₂ c₂ with htwo | ⟨hno, -⟩
      · omega
      · exact absurd hslot hno

end State

end Aeterna.Vfs.AeternaFs
