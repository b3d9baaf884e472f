import Aeterna.Lib.Holding
import Aeterna.Vfs.AeternaFs.Operations

/-!
# Block ownership in AeternaFS

A volume is `Sound` when every pointer of an inode, live or not, names a block of its own that is
marked in the bitmap, and the pointers of an inode are set from the first on. New blocks come out of
the bitmap (`Grown`), are held by nothing while a call is under way, and are then given to one inode
(`Pointed`); `step_sound` says that no call, whether it succeeds or gives up half-way, leaves a
volume that is not sound.
-/

namespace Aeterna.Vfs.AeternaFs

open Lib Lib.Bytes Lib.Buffer

/-! ## Sound volumes -/

namespace Inode

def pointer (i : Inode) (k : Fin 8) : Option ℕ :=
  if i.direct.get k = 0 then none else some (i.direct.get k).toNat

/-- The pointers that are 0 come last. -/
def Compact (i : Inode) : Prop := ∀ j k : Fin 8, j ≤ k → i.direct.get j = 0 → i.direct.get k = 0

theorem pointer_eq_some {i : Inode} {k : Fin 8} {b : ℕ} :
    i.pointer k = some b ↔ i.direct.get k ≠ 0 ∧ (i.direct.get k).toNat = b := by
  unfold pointer
  split_ifs with h
  · exact ⟨fun hb => hb.elim, fun hb => absurd h hb.1⟩
  · rw [Option.some.injEq]
    exact ⟨fun hb => ⟨h, hb⟩, fun hb => hb.2⟩

theorem pointer_eq_none {i : Inode} {k : Fin 8} : i.pointer k = none ↔ i.direct.get k = 0 := by
  unfold pointer
  split_ifs with h
  · exact ⟨fun _ => h, fun _ => rfl⟩
  · exact ⟨fun hb => hb.elim, fun hb => absurd hb h⟩

end Inode

namespace Volume

variable (v : Volume)

def Used (b : ℕ) : Prop := b < v.total ∧ v.blockUsed b = true

/-- What the pointers of the inodes hold. -/
def held (p : ℕ × Fin 8) : Option ℕ := (v.inode p.1).pointer p.2

/-- The invariant of the bitmap and the pointers: block 0 is never free, so that no pointer to an
allocated block is 0. -/
structure Sound : Prop where
  total_le : v.total ≤ maxBlocks
  zero_used : v.Used 0
  compact : ∀ i, (v.inode i).Compact
  holding : Holding v.Used v.held

end Volume

namespace Volume.Sound

variable {v v' : Volume}

theorem mono (h : v.Sound) (htotal : v'.total = v.total) (hinode : v'.inode = v.inode)
    (hused : ∀ b, v.blockUsed b = true → v'.blockUsed b = true) : v'.Sound where
  total_le := htotal ▸ h.total_le
  zero_used := ⟨htotal ▸ h.zero_used.1, hused 0 h.zero_used.2⟩
  compact := hinode ▸ h.compact
  holding := by
    have hheld : v'.held = v.held := by
      unfold Volume.held
      rw [hinode]
    rw [hheld]
    exact h.holding.mono fun b hb => ⟨htotal ▸ hb.1, hused b hb.2⟩

theorem lt_maxBlocks (h : v.Sound) {i : ℕ} {k : Fin 8} {b : ℕ}
    (hb : (v.inode i).pointer k = some b) : b < maxBlocks :=
  lt_of_lt_of_le (h.holding.used_of_held (i, k) b hb).1 h.total_le

theorem held_update {i : ℕ} {inode : Inode} (hinode : v'.inode = Function.update v.inode i inode)
    (p : ℕ × Fin 8) : v'.held p = if p.1 = i then inode.pointer p.2 else v.held p := by
  unfold Volume.held
  rw [hinode, Function.update_apply]
  split_ifs <;> rfl

theorem compact_update (h : v.Sound) {i : ℕ} {inode : Inode}
    (hinode : v'.inode = Function.update v.inode i inode) (hcompact : inode.Compact) (j : ℕ) :
    (v'.inode j).Compact := by
  rw [hinode, Function.update_apply]
  split_ifs
  · exact hcompact
  · exact h.compact j

theorem setInode (h : v.Sound) {i : ℕ} {inode : Inode} (htotal : v'.total = v.total)
    (hused : v'.blockUsed = v.blockUsed) (hinode : v'.inode = Function.update v.inode i inode)
    (hcompact : inode.Compact)
    (htake : ∀ k b, inode.pointer k = some b →
      (v.inode i).pointer k = some b ∨ Floating v.Used v.held b)
    (hinj : ∀ k l b, Floating v.Used v.held b → inode.pointer k = some b →
      inode.pointer l = some b → k = l) : v'.Sound where
  total_le := htotal ▸ h.total_le
  zero_used := ⟨htotal ▸ h.zero_used.1, hused ▸ h.zero_used.2⟩
  compact := h.compact_update hinode hcompact
  holding := by
    have hUsed : v'.Used = v.Used := by
      unfold Volume.Used
      rw [htotal, hused]
    rw [hUsed]
    refine h.holding.assign (fun p b hp => ?_) fun p q b hfloat hp hq => ?_
    · rw [held_update hinode] at hp
      split_ifs at hp with hpi
      · subst hpi
        exact htake p.2 b hp
      · exact Or.inl hp
    · rw [held_update hinode] at hp hq
      split_ifs at hp with hpi
      · split_ifs at hq with hqi
        · exact Prod.ext (hpi.trans hqi.symm) (hinj p.2 q.2 b hfloat hp hq)
        · exact absurd hq (hfloat.2 q)
      · exact absurd hp (hfloat.2 p)

/-- An inode that lets go of its blocks, which may then be free. -/
theorem clear (h : v.Sound) {i : ℕ} {inode : Inode} (htotal : v'.total = v.total)
    (hinode : v'.inode = Function.update v.inode i inode)
    (hzero : ∀ k : Fin 8, inode.direct.get k = 0)
    (hused : ∀ b, v.blockUsed b = true → (∀ k, (v.inode i).pointer k ≠ some b) →
      v'.blockUsed b = true) : v'.Sound where
  total_le := htotal ▸ h.total_le
  zero_used := by
    refine ⟨htotal ▸ h.zero_used.1, hused 0 h.zero_used.2 fun k hk => ?_⟩
    obtain ⟨hne, heq⟩ := Inode.pointer_eq_some.mp hk
    exact hne (UInt32.toNat_inj.mp heq)
  compact := h.compact_update hinode fun _ k _ _ => hzero k
  holding := by
    refine h.holding.clear (S := fun p => p.1 = i) (fun p hp => ?_) (fun p hp => ?_) ?_
    · rw [held_update hinode, if_pos hp]
      exact Inode.pointer_eq_none.mpr (hzero p.2)
    · rw [held_update hinode, if_neg hp]
    · exact fun b hb hS => ⟨htotal ▸ hb.1, hused b hb.2 fun k => hS (i, k) rfl⟩

end Volume.Sound

/-! ## Growing volumes -/

/-- The blocks `bs` have been taken and written, nothing else has changed. -/
structure Grown (v v' : Volume) (bs : List ℕ) : Prop where
  free : ∀ b ∈ bs, b < v.total ∧ v.blockUsed b = false
  nodup : bs.Nodup
  ready : v'.ready = v.ready
  total : v'.total = v.total
  blockUsed : ∀ b, v'.blockUsed b = (v.blockUsed b || decide (b ∈ bs))
  inodeUsed : v'.inodeUsed = v.inodeUsed
  inode : v'.inode = v.inode
  block : ∀ b ∉ bs, v'.block b = v.block b

namespace Grown

variable {v v' v'' : Volume} {bs : List ℕ}

theorem refl (v : Volume) : Grown v v [] where
  free := by simp
  nodup := List.nodup_nil
  ready := rfl
  total := rfl
  blockUsed := by simp
  inodeUsed := rfl
  inode := rfl
  block _ _ := rfl

theorem sound (h : Grown v v' bs) (hv : v.Sound) : v'.Sound :=
  hv.mono h.total h.inode fun b hb => by rw [h.blockUsed, hb, Bool.true_or]

theorem held (h : Grown v v' bs) : v'.held = v.held := by
  unfold Volume.held
  rw [h.inode]

theorem not_held (h : Grown v v' bs) (hv : v.Sound) {b : ℕ} (hb : b ∈ bs) (p : ℕ × Fin 8) :
    v.held p ≠ some b := by
  intro hp
  have hused := (hv.holding.used_of_held p b hp).2
  rw [(h.free b hb).2] at hused
  exact Bool.false_ne_true hused

theorem floating (h : Grown v v' bs) (hv : v.Sound) {b : ℕ} (hb : b ∈ bs) :
    Floating v'.Used v'.held b := by
  refine ⟨⟨h.total ▸ (h.free b hb).1, ?_⟩, fun p => ?_⟩
  · rw [h.blockUsed, decide_eq_true hb, Bool.or_true]
  · rw [h.held]
    exact h.not_held hv hb p

theorem ne_zero (h : Grown v v' bs) (hv : v.Sound) {b : ℕ} (hb : b ∈ bs) : b ≠ 0 := by
  rintro rfl
  have hused := hv.zero_used.2
  rw [(h.free 0 hb).2] at hused
  exact Bool.false_ne_true hused

theorem toNat_ofNat (h : Grown v v' bs) (hv : v.Sound) {b : ℕ} (hb : b ∈ bs) :
    (UInt32.ofNat b).toNat = b := by
  have hlt := lt_of_lt_of_le (h.free b hb).1 hv.total_le
  exact UInt32.toNat_ofNat_of_lt' (lt_trans hlt (by decide))

theorem ofNat_ne_zero (h : Grown v v' bs) (hv : v.Sound) {b : ℕ} (hb : b ∈ bs) :
    UInt32.ofNat b ≠ 0 := by
  intro hzero
  apply h.ne_zero hv hb
  rw [← h.toNat_ofNat hv hb, hzero]
  rfl

theorem trans {cs : List ℕ} (h : Grown v v' bs) (h' : Grown v' v'' cs) :
    Grown v v'' (bs ++ cs) where
  free b hb := by
    rcases List.mem_append.mp hb with hb | hb
    · exact h.free b hb
    · have hfree := h'.free b hb
      rw [h.total, h.blockUsed, Bool.or_eq_false_iff] at hfree
      exact ⟨hfree.1, hfree.2.1⟩
  nodup := by
    refine List.nodup_append.mpr ⟨h.nodup, h'.nodup, fun b hb c hc hbc => ?_⟩
    have hfree := (h'.free c hc).2
    rw [← hbc, h.blockUsed, decide_eq_true hb, Bool.or_true] at hfree
    exact Bool.false_ne_true hfree.symm
  ready := h'.ready.trans h.ready
  total := h'.total.trans h.total
  blockUsed b := by
    rw [h'.blockUsed, h.blockUsed, Bool.or_assoc, ← Bool.decide_or]
    simp only [List.mem_append]
  inodeUsed := h'.inodeUsed.trans h.inodeUsed
  inode := h'.inode.trans h.inode
  block b hb := by
    rw [List.mem_append, not_or] at hb
    rw [h'.block b hb.2, h.block b hb.1]

theorem writeBlock {g : SectorSize} {st : State g} (h : Grown v st.view bs) {b : ℕ} (hb : b ∈ bs)
    (data : Data) : Grown v (st.writeBlock b data).view bs := by
  rw [State.view_writeBlock]
  refine { h with block := fun c hc => ?_ }
  dsimp only
  have hcb : c ≠ b := fun hcb => hc (hcb ▸ hb)
  rw [Function.update_of_ne hcb]
  exact h.block c hc

end Grown

namespace State

variable {g : SectorSize} {st : State g}

theorem view_flushSuperblock (st : State g) : st.flushSuperblock.view = st.view :=
  view_writeLba_zero st _

theorem allocBlock_grown (hv : st.view.Sound) :
    (st.allocBlock = (none, st) ∧ ∀ b < st.view.total, st.view.blockUsed b = true) ∨
      ∃ b st', st.allocBlock = (some b, st') ∧ Grown st.view st'.view [b] := by
  rcases allocBlock_cases st hv.total_le with hnone | ⟨b, st', halloc, hlt, hfree, -, hview⟩
  · exact Or.inl hnone
  · refine Or.inr ⟨b, st', halloc, ?_⟩
    rw [hview]
    refine ⟨?_, List.nodup_singleton b, rfl, rfl, fun c => ?_, rfl, rfl, fun c hc => ?_⟩
    · intro c hc
      rw [List.mem_singleton.mp hc]
      exact ⟨hlt, hfree⟩
    · dsimp only
      rw [Function.update_apply]
      split_ifs with hcb <;> simp [hcb]
    · exact Function.update_of_ne (fun hcb => hc (List.mem_singleton.mpr hcb)) _ _

/-! ## The write loop -/

/-- The inode after the pointers from `j` on have been set to `bs`. -/
structure Pointed (inode inode' : Inode) (j : ℕ) (bs : List ℕ) : Prop where
  mode : inode'.mode = inode.mode
  direct : ∀ k : Fin 8, inode'.direct.get k =
    if j ≤ k ∧ k < j + bs.length then UInt32.ofNat (bs.getD (k - j) 0) else inode.direct.get k

theorem Pointed.resize {inode inode' : Inode} {j : ℕ} {bs : List ℕ}
    (h : Pointed inode inode' j bs) (size : UInt64) :
    Pointed inode { inode' with size := size } j bs :=
  ⟨h.mode, h.direct⟩

/-- The blocks hold the data piece by piece. -/
def Holds (block : ℕ → Data) (ss : ℕ) : List ℕ → Data → Prop
  | [], rest => rest = []
  | b :: bs, rest =>
    rest ≠ [] ∧ block b = Device.fit ss (rest.take ss) ∧ Holds block ss bs (rest.drop ss)

/-- The loop takes a block for each piece of the data, as far as the pointers go. -/
theorem writeChunks_spec (hv : st.view.Sound) (ks : List (Fin 8)) (inode : Inode) (data : Data)
    (j : ℕ) (hks : ∀ t (ht : t < ks.length), (ks[t] : ℕ) = j + t) :
    ∃ bs, Grown st.view (writeChunks ks st inode data).2.view bs ∧ bs.length ≤ ks.length ∧
      ((writeChunks ks st inode data).1 = none ∨
        ∃ inode', (writeChunks ks st inode data).1 = some inode' ∧ Pointed inode inode' j bs ∧
          (data.length ≤ ks.length * g.bytes →
            Holds (writeChunks ks st inode data).2.view.block g.bytes bs data)) := by
  have hpointed {inode : Inode} {j : ℕ} : Pointed inode inode j [] :=
    ⟨rfl, fun k => by rw [if_neg (by rw [List.length_nil]; omega)]⟩
  induction ks generalizing st inode data j with
  | nil =>
    refine ⟨[], Grown.refl _, le_rfl, Or.inr ⟨inode, rfl, hpointed, fun hlen => ?_⟩⟩
    rw [List.length_nil, Nat.zero_mul, Nat.le_zero] at hlen
    exact List.length_eq_zero_iff.mp hlen
  | cons k ks ih =>
    rw [writeChunks]
    split_ifs with hrest
    · exact ⟨[], Grown.refl _, Nat.zero_le _, Or.inr ⟨inode, rfl, hpointed, fun _ => hrest⟩⟩
    rcases allocBlock_grown hv with ⟨halloc, -⟩ | ⟨b, st', halloc, hgrown⟩
    · rw [halloc]
      exact ⟨[], Grown.refl _, Nat.zero_le _, Or.inl rfl⟩
    · rw [halloc]
      have hgrown' := hgrown.writeBlock (List.mem_singleton_self b) (data.take g.bytes)
      have hself : (st'.writeBlock b (data.take g.bytes)).view.block b =
          Device.fit g.bytes (data.take g.bytes) := by
        rw [view_writeBlock]
        exact Function.update_self b _ _
      have hk : (k : ℕ) = j := hks 0 (Nat.zero_lt_succ _)
      have hks' : ∀ t (ht : t < ks.length), (ks[t] : ℕ) = j + 1 + t := by
        intro t ht
        have := hks (t + 1) (Nat.succ_lt_succ ht)
        rw [List.getElem_cons_succ] at this
        omega
      obtain ⟨bs, hbs, hlen, hresult⟩ := ih (hgrown'.sound hv) _ _ _ hks'
      refine ⟨b :: bs, hgrown'.trans hbs, Nat.succ_le_succ hlen, hresult.imp_right ?_⟩
      rintro ⟨inode', hsome, hpoint, hholds⟩
      refine ⟨inode', hsome, ⟨hpoint.mode, fun l => ?_⟩, fun hfits => ⟨hrest, ?_, hholds ?_⟩⟩
      · rw [hpoint.direct l, Inode.direct_setDirect, List.length_cons]
        by_cases hl : (l : ℕ) = j
        · have hlk : l = k := Fin.ext (hl.trans hk.symm)
          rw [if_neg (by omega), if_pos hlk, if_pos (by omega), hl, Nat.sub_self]
          rfl
        · have hlk : l ≠ k := fun h => hl (h ▸ hk)
          rw [if_neg hlk]
          by_cases hrange : j + 1 ≤ l ∧ (l : ℕ) < j + 1 + bs.length
          · rw [if_pos hrange, if_pos (by omega), show (l : ℕ) - j = l - (j + 1) + 1 by omega]
            rfl
          · rw [if_neg hrange, if_neg (by omega)]
      · have hb : b ∉ bs := by
          have hnodup := (hgrown'.trans hbs).nodup
          exact (List.nodup_cons.mp hnodup).1
        rw [hbs.block b hb, hself]
      · rw [List.length_drop]
        rw [List.length_cons, Nat.succ_mul] at hfits
        omega

/-- Pointers to new blocks, set from the first pointer that is 0 or before it. -/
theorem Pointed.sound {v v' v'' : Volume} {i j : ℕ} {inode : Inode} {bs : List ℕ}
    (hpoint : Pointed (v.inode i) inode j bs) (hv : v.Sound) (hgrown : Grown v v' bs)
    (hj : ∀ k : Fin 8, (k : ℕ) < j → (v.inode i).direct.get k ≠ 0) (htotal : v''.total = v'.total)
    (hused : v''.blockUsed = v'.blockUsed)
    (hinode : v''.inode = Function.update v'.inode i inode) : v''.Sound := by
  have hnew {k : Fin 8} (hk : j ≤ k ∧ (k : ℕ) < j + bs.length) :
      ∃ h : k - j < bs.length, bs.getD (k - j) 0 = bs[k - j] :=
    ⟨by omega, List.getD_eq_getElem bs 0 (by omega)⟩
  have hmem {k : Fin 8} (hk : j ≤ k ∧ (k : ℕ) < j + bs.length) : bs.getD (k - j) 0 ∈ bs := by
    obtain ⟨h, heq⟩ := hnew hk
    rw [heq]
    exact List.getElem_mem h
  -- a pointer is a new one or the one that was there
  have hpointer {k : Fin 8} {b : ℕ} (hk : inode.pointer k = some b) :
      (j ≤ k ∧ (k : ℕ) < j + bs.length) ∧ bs.getD (k - j) 0 = b ∨
        v'.held (i, k) = some b := by
    rw [Inode.pointer_eq_some, hpoint.direct k] at hk
    split_ifs at hk with hrange
    · left
      rw [hgrown.toNat_ofNat hv (hmem hrange)] at hk
      exact ⟨hrange, hk.2⟩
    · right
      rw [hgrown.held]
      exact Inode.pointer_eq_some.mpr hk
  refine (hgrown.sound hv).setInode htotal hused hinode ?_ ?_ ?_
  · intro l m hlm hl
    rw [hpoint.direct l] at hl
    split_ifs at hl with hrange
    · exact absurd hl (hgrown.ofNat_ne_zero hv (hmem hrange))
    · have hlj : ¬ (l : ℕ) < j := fun hlj => hj l hlj hl
      rw [hpoint.direct m, if_neg (by omega)]
      exact hv.compact i l m hlm hl
  · intro k b hk
    rcases hpointer hk with ⟨hrange, rfl⟩ | hold
    · exact Or.inr (hgrown.floating hv (hmem hrange))
    · exact Or.inl hold
  · intro k l b hfloat hk hl
    rcases hpointer hk with ⟨hk, hbk⟩ | hold
    · rcases hpointer hl with ⟨hl, hbl⟩ | hold
      · obtain ⟨hkn, hk'⟩ := hnew hk
        obtain ⟨hln, hl'⟩ := hnew hl
        have hsame : bs[k - j] = bs[l - j] := by rw [← hk', ← hl', hbk, hbl]
        have hkl := hgrown.nodup.getElem_inj_iff.mp hsame
        exact Fin.ext (by omega)
      · exact absurd hold (hfloat.2 (i, l))
    · exact absurd hold (hfloat.2 (i, k))

/-! ## Freeing -/

theorem view_releaseBlocks (st : State g) {pointers : List UInt32}
    (h : ∀ p ∈ pointers, p ≠ 0 → p.toNat < maxBlocks) :
    (st.releaseBlocks pointers).view = { st.view with
      blockUsed := fun b => st.view.blockUsed b && !pointers.any fun p => p != 0 && p.toNat == b }
    := by
  unfold releaseBlocks
  induction pointers generalizing st with
  | nil => simp
  | cons p pointers ih =>
    have htail : ∀ q ∈ pointers, q ≠ 0 → q.toNat < maxBlocks :=
      fun q hq => h q (List.mem_cons_of_mem p hq)
    rw [List.foldl_cons, ih _ htail]
    by_cases hp : p = 0
    · simp [hp]
    · have hfree := view_freeBlock st (h p List.mem_cons_self hp)
      rw [if_pos (by simpa using hp), hfree]
      refine Volume.ext rfl rfl (funext fun b => ?_) rfl rfl rfl
      by_cases hb : b = p.toNat
      · simp [hb, hp]
      · have hne : (p.toNat == b) = false := beq_false_of_ne (Ne.symm hb)
        simp [hb, hne]

theorem release_spec (hv : st.view.Sound) {ino : ℕ} (h : ValidIno ino) (inode : Inode)
    (hzero : ∀ k : Fin 8, inode.direct.get k = 0) :
    ∃ st', ((st.releaseBlocks (st.view.inode ino).direct.toList).writeInodeRaw ino inode).2 = st' ∧
      st'.view.Sound ∧ ∃ used, st'.view = { st.view with
        blockUsed := used, inode := Function.update st.view.inode ino inode } ∧
      ∀ b, (st.view.blockUsed b = false ∨ ∃ k, (st.view.inode ino).pointer k = some b) →
        used b = false := by
  have hpointer {p : UInt32} (hp : p ∈ (st.view.inode ino).direct.toList) (hne : p ≠ 0) :
      ∃ k, (st.view.inode ino).pointer k = some p.toNat := by
    obtain ⟨k, hk, rfl⟩ := List.mem_iff_getElem.mp hp
    rw [Vector.length_toList] at hk
    exact ⟨⟨k, hk⟩, Inode.pointer_eq_some.mpr ⟨hne, rfl⟩⟩
  have hview := view_releaseBlocks st
    fun p (hp : p ∈ (st.view.inode ino).direct.toList) hne =>
      (hpointer hp hne).elim fun k hk => hv.lt_maxBlocks hk
  refine ⟨_, rfl, ?_, _, by rw [view_writeInodeRaw _ h, hview], fun b hb => ?_⟩
  · rw [view_writeInodeRaw _ h, hview]
    refine hv.clear rfl rfl hzero fun b hb hnone => ?_
    rw [Bool.and_eq_true, Bool.not_eq_true', List.any_eq_false]
    refine ⟨hb, fun p hp hpb => ?_⟩
    rw [Bool.and_eq_true, bne_iff_ne, beq_iff_eq] at hpb
    obtain ⟨k, hk⟩ := hpointer hp hpb.1
    exact hnone k (hpb.2 ▸ hk)
  · rw [Bool.and_eq_false_iff, Bool.not_eq_false', List.any_eq_true]
    refine hb.imp_right fun ⟨k, hk⟩ => ?_
    obtain ⟨hne, hb⟩ := Inode.pointer_eq_some.mp hk
    refine ⟨_, Vector.mem_toList_iff.mpr (Vector.getElem_mem k.isLt), ?_⟩
    rw [Bool.and_eq_true, bne_iff_ne, beq_iff_eq]
    exact ⟨hne, hb⟩

/-! ## Directory entries -/

theorem findSlot_some {inode : Inode} {p : Data → Bool} {blk slot : ℕ}
    (h : st.findSlot inode p = some (blk, slot)) :
    blk ∈ inode.liveBlocks ∧ slot < g.bytes / 32 ∧ p (dirent (st.view.block blk) slot) = true := by
  obtain ⟨b, hb, hmap⟩ := List.exists_of_findSome?_eq_some h
  obtain ⟨s, hs, heq⟩ := Option.map_eq_some_iff.mp hmap
  obtain ⟨rfl, rfl⟩ := Prod.mk.inj heq
  have hp := List.find?_some hs
  exact ⟨hb, List.mem_range.mp (List.mem_of_find?_eq_some hs), hp⟩

theorem length_entry (c : ℕ) {name : Path} (h : (pathBytes name).length ≤ 27) :
    (leBytes 4 c ++ pathBytes name).length ≤ 31 := by
  rw [List.length_append, length_leBytes]
  omega

theorem slot_fits {slot n : ℕ} (hslot : slot < g.bytes / 32) (hn : n ≤ 32) :
    slot * 32 + n ≤ g.bytes := by
  omega

theorem find?_zero {inode : Inode} {k : Fin 8}
    (h : (List.finRange 8).find? (fun k => inode.direct.get k == 0) = some k) :
    inode.direct.get k = 0 ∧ ∀ l < k, inode.direct.get l ≠ 0 := by
  obtain ⟨hk, i, hi, rfl, hbefore⟩ := List.find?_eq_some_iff_getElem.mp h
  refine ⟨beq_iff_eq.mp hk, fun l hl => ?_⟩
  have hlt : (l : ℕ) < i := by
    rw [Fin.lt_def, List.getElem_finRange] at hl
    exact hl
  have := hbefore l hlt
  simpa using this

theorem view_writeSlot (st : State g) (blk : ℕ) {slot : ℕ} (hslot : slot < g.bytes / 32)
    {entry : Data} (hlen : entry.length ≤ 32) :
    (st.writeBlock blk (splice (st.readBlock blk) (slot * 32) entry)).view = { st.view with
      block := Function.update st.view.block blk
        (splice (st.view.block blk) (slot * 32) entry) } := by
  have hfits : slot * 32 + entry.length ≤ (st.view.block blk).length := by
    rw [length_block]
    exact slot_fits hslot hlen
  rw [view_writeBlock, readBlock_eq, Device.fit_of_length]
  rw [length_splice hfits, length_block]

theorem pointed_set (inode : Inode) (k : Fin 8) (b : ℕ) (size : UInt64) :
    Pointed inode { inode.setDirect k (UInt32.ofNat b) with size := size } k [b] := by
  refine ⟨rfl, fun l => ?_⟩
  dsimp only
  rw [Inode.direct_setDirect, List.length_singleton]
  by_cases hlk : l = k
  · rw [if_pos hlk, if_pos (by omega), hlk, Nat.sub_self]
    rfl
  · rw [if_neg hlk, if_neg (by omega)]

theorem dirAddEntry_cases (hv : st.view.Sound) (d : ℕ) (name : Path) (c : ℕ) :
    st.dirAddEntry d name c = (false, st) ∨
      (ValidIno d ∧ (st.view.inode d).isDir = true ∧ (pathBytes name).length ≤ 27) ∧
        (st.dirAddEntry d name c).1 = true ∧
        ((∃ blk slot, st.findSlot (st.view.inode d) isFree = some (blk, slot) ∧
            (st.dirAddEntry d name c).2.view = { st.view with
              block := Function.update st.view.block blk
                (splice (st.view.block blk) (slot * 32) (leBytes 4 c ++ pathBytes name ++ [0])) }) ∨
          ∃ (b : ℕ) (k : Fin 8) (st' : State g) (inode : Inode),
            st.findSlot (st.view.inode d) isFree = none ∧ (st.view.inode d).direct.get k = 0 ∧
            (∀ l < k, (st.view.inode d).direct.get l ≠ 0) ∧ Grown st.view st'.view [b] ∧
            Pointed (st.view.inode d) inode k [b] ∧
            (st.dirAddEntry d name c).2.view = { st'.view with
              inode := Function.update st'.view.inode d inode
              block := Function.update st'.view.block b
                (splice (List.replicate g.bytes 0) 0 (leBytes 4 c ++ pathBytes name)) }) := by
  unfold dirAddEntry
  by_cases hd : ValidIno d
  · rw [readInodeRaw_of_valid st hd]
    dsimp only
    by_cases hdir : (st.view.inode d).isDir = true
    · rw [if_neg (by rw [hdir]; decide)]
      by_cases hname : (pathBytes name).length ≤ 27
      · have hentry := length_entry c hname
        rw [if_neg (by omega), List.take_of_length_le hname]
        cases hfind : st.findSlot (st.view.inode d) isFree with
        | some found =>
          obtain ⟨blk, slot⟩ := found
          obtain ⟨-, hslot, -⟩ := findSlot_some hfind
          refine Or.inr ⟨⟨hd, hdir, hname⟩, rfl, Or.inl ⟨blk, slot, rfl, ?_⟩⟩
          exact view_writeSlot st blk hslot
            (by rw [List.length_append, List.length_singleton]; omega)
        | none =>
          cases hzero : (List.finRange 8).find? fun k => (st.view.inode d).direct.get k == 0 with
          | none => exact Or.inl rfl
          | some k =>
            rcases allocBlock_grown hv with ⟨halloc, -⟩ | ⟨b, st', halloc, hgrown⟩
            · rw [halloc]
              exact Or.inl rfl
            · rw [halloc]
              obtain ⟨hk, hbefore⟩ := find?_zero hzero
              have hpoint := pointed_set (st.view.inode d) k b
                ((st.view.inode d).size + UInt64.ofNat g.bytes)
              refine Or.inr ⟨⟨hd, hdir, hname⟩, rfl,
                Or.inr ⟨b, k, st', _, rfl, hk, hbefore, hgrown, hpoint, ?_⟩⟩
              rw [view_writeBlock, view_writeInodeRaw st' hd, Device.fit_of_length]
              rw [length_splice, List.length_replicate]
              rw [List.length_replicate]
              have hsize : 32 ≤ g.bytes := by cases g <;> decide
              omega
      · rw [if_pos (by omega)]
        exact Or.inl rfl
    · rw [if_pos (by simpa using hdir)]
      exact Or.inl rfl
  · rw [readInodeRaw_of_not_valid st hd]
    exact Or.inl rfl

theorem dirAddEntry_sound (hv : st.view.Sound) (d : ℕ) (name : Path) (c : ℕ) :
    (st.dirAddEntry d name c).2.view.Sound := by
  rcases dirAddEntry_cases hv d name c with
    hfalse | ⟨-, -, ⟨blk, slot, -, hview⟩ | ⟨b, k, st', inode, -, -, hbefore, hgrown, hpoint, hview⟩⟩
  · rw [hfalse]
    exact hv
  · rw [hview]
    exact hv.mono rfl rfl fun _ hb => hb
  · rw [hview]
    exact hpoint.sound hv hgrown (fun l hl => hbefore l hl) rfl rfl rfl

theorem dirAddEntry_inode (hv : st.view.Sound) {d j : ℕ} (hj : j ≠ d) (name : Path) (c : ℕ) :
    (st.dirAddEntry d name c).2.view.inode j = st.view.inode j := by
  rcases dirAddEntry_cases hv d name c with
    hfalse | ⟨-, -, ⟨blk, slot, -, hview⟩ | ⟨b, k, st', inode, -, -, -, hgrown, -, hview⟩⟩
  · rw [hfalse]
  · rw [hview]
  · rw [hview, ← hgrown.inode]
    exact Function.update_of_ne hj _ _

theorem dirRemoveEntry_cases (st : State g) (d : ℕ) (name : Path) :
    st.dirRemoveEntry d name = (false, st) ∧
        (ValidIno d → (st.view.inode d).isDir = true →
          st.findSlot (st.view.inode d) (isNamed name) = none) ∨
      ∃ blk slot, st.findSlot (st.view.inode d) (isNamed name) = some (blk, slot) ∧
        (st.dirRemoveEntry d name).2.view = { st.view with
          block := Function.update st.view.block blk
            (splice (st.view.block blk) (slot * 32) (List.replicate 32 0)) } := by
  unfold dirRemoveEntry
  by_cases hd : ValidIno d
  · rw [readInodeRaw_of_valid st hd]
    dsimp only
    by_cases hdir : (st.view.inode d).isDir = true
    · rw [if_neg (by rw [hdir]; decide)]
      cases hfind : st.findSlot (st.view.inode d) (isNamed name) with
      | none => exact Or.inl ⟨rfl, fun _ _ => rfl⟩
      | some found =>
        obtain ⟨blk, slot⟩ := found
        obtain ⟨-, hslot, -⟩ := findSlot_some hfind
        refine Or.inr ⟨blk, slot, rfl, ?_⟩
        exact view_writeSlot st blk hslot (List.length_replicate.le)
    · rw [if_pos (by simpa using hdir)]
      exact Or.inl ⟨rfl, fun _ h => absurd h hdir⟩
  · rw [readInodeRaw_of_not_valid st hd]
    exact Or.inl ⟨rfl, fun h => absurd h hd⟩

theorem dirRemoveEntry_sound (hv : st.view.Sound) (d : ℕ) (name : Path) :
    (st.dirRemoveEntry d name).2.view.Sound := by
  rcases dirRemoveEntry_cases st d name with ⟨hfalse, -⟩ | ⟨blk, slot, -, hview⟩
  · rw [hfalse]
    exact hv
  · rw [hview]
    exact hv.mono rfl rfl fun _ hb => hb

/-! ## The operations -/

theorem truncate_sound (hv : st.view.Sound) (ino : ℕ) : (st.truncate ino).view.Sound := by
  unfold truncate
  by_cases h : ValidIno ino
  · rw [readInodeRaw_of_valid st h]
    dsimp only
    split_ifs
    · obtain ⟨st', hst', hsound, -⟩ := release_spec hv h { st.view.inode ino with
        direct := Vector.replicate 8 0, size := 0 } fun k => Vector.getElem_replicate _
      rw [hst']
      exact hsound
    · exact hv
  · rw [readInodeRaw_of_not_valid st h]
    exact hv

theorem writeData_sound (hv : st.view.Sound) (ino : ℕ) (data : Data) :
    (st.writeData ino data).2.view.Sound := by
  unfold writeData
  by_cases h : ValidIno ino
  · rw [readInodeRaw_of_valid st h]
    dsimp only
    obtain ⟨bs, hgrown, -, hresult⟩ :=
      writeChunks_spec hv (List.finRange 8) (st.view.inode ino) data 0 (by intro t ht; simp)
    generalize writeChunks (List.finRange 8) st (st.view.inode ino) data = result at *
    obtain ⟨out, st'⟩ := result
    rcases hresult with rfl | ⟨inode, rfl, hpoint, -⟩
    · exact hgrown.sound hv
    · rw [view_flushSuperblock, view_writeInodeRaw st' h]
      exact (hpoint.resize _).sound hv hgrown (fun k hk => absurd hk (by omega)) rfl rfl rfl
  · rw [readInodeRaw_of_not_valid st h]
    exact hv

theorem newInode_cases (st : State g) (mode nlinks : UInt16) :
    (st.allocInode = (none, st) ∧
        ∀ i, inodeRoot < i → i < maxInodes → st.view.inodeUsed i = true) ∨
      ∃ i st₁ st₂, st.allocInode = (some i, st₁) ∧
        st₁.writeInodeRaw i (.empty mode nlinks) = (true, st₂) ∧ inodeRoot < i ∧ ValidIno i ∧
        st.view.inodeUsed i = false ∧ (st.view.Sound → st₂.view.Sound) ∧
        st₂.view = { st.view with
          inodeUsed := Function.update st.view.inodeUsed i true
          inode := Function.update st.view.inode i (.empty mode nlinks) } := by
  rcases allocInode_cases st with hnone | ⟨i, st₁, halloc, hroot, hlt, hfree, hview⟩
  · exact Or.inl hnone
  · have hi : ValidIno i := ⟨Nat.ne_zero_of_lt hroot, hlt⟩
    have hview₂ := view_writeInodeRaw st₁ hi (.empty mode nlinks)
    rw [hview] at hview₂
    refine Or.inr ⟨i, st₁, _, halloc, writeInodeRaw_pair st₁ hi _, hroot, hi, hfree, ?_, hview₂⟩
    intro hv
    rw [hview₂]
    exact hv.clear rfl rfl (fun k => Vector.getElem_replicate _) fun _ hb _ => hb

theorem createFile_sound (hv : st.view.Sound) (parentPath filename : Path) :
    (st.createFile parentPath filename).2.view.Sound := by
  unfold createFile
  cases st.lookupPath parentPath with
  | none => exact hv
  | some parent =>
    rcases newInode_cases st modeReg 1 with
      ⟨halloc, -⟩ | ⟨i, st₁, st₂, halloc, hwrite, -, -, -, hsound, -⟩
    · rw [halloc]
      exact hv
    · rw [halloc]
      dsimp only
      rw [hwrite]
      dsimp only
      have hadd := dirAddEntry_sound (hsound hv) parent filename i
      generalize st₂.dirAddEntry parent filename i = added at hadd
      obtain ⟨_ | _, st₃⟩ := added <;> exact hadd

theorem writeFile_sound (hv : st.view.Sound) (path : Path) (data : Data) :
    (st.writeFile path data).2.view.Sound := by
  unfold writeFile
  split_ifs
  · exact hv
  dsimp only
  cases st.lookupPath path with
  | some ino => exact writeData_sound (truncate_sound hv ino) ino data
  | none =>
    have hcreate := createFile_sound hv (splitPath path).1 (splitPath path).2
    generalize st.createFile (splitPath path).1 (splitPath path).2 = created at hcreate
    obtain ⟨_ | i, st'⟩ := created
    · exact hcreate
    · exact writeData_sound hcreate i data

theorem mkdirAt_sound (hv : st.view.Sound) (path : Path) (parent : ℕ) (dirname : Path) :
    (st.mkdirAt path parent dirname).2.view.Sound := by
  unfold mkdirAt
  split_ifs
  · exact hv
  · rcases newInode_cases st modeDir 2 with
      ⟨halloc, -⟩ | ⟨i, st₁, st₂, halloc, hwrite, -, -, -, hsound, -⟩
    · rw [halloc]
      exact hv
    · rw [halloc]
      dsimp only
      rw [hwrite]
      rw [view_flushSuperblock]
      exact dirAddEntry_sound (dirAddEntry_sound (dirAddEntry_sound (hsound hv) ..) ..) ..

theorem mkdir_sound (hv : st.view.Sound) (path : Path) : (st.mkdir path).2.view.Sound :=
  mkdir_rule (P := fun st => st.view.Sound) (fun _ _ _ hv _ _ => mkdirAt_sound hv ..) hv path

theorem remove_sound (hv : st.view.Sound) (path : Path) : (st.remove path).2.view.Sound := by
  unfold remove
  split_ifs
  · exact hv
  cases st.lookupPath path with
  | none => exact hv
  | some ino =>
    dsimp only
    by_cases h : ValidIno ino
    · rw [readInodeRaw_of_valid st h]
      dsimp only
      obtain ⟨st', hst', hsound, -⟩ := release_spec hv h { st.view.inode ino with
        direct := Vector.replicate 8 0, mode := modeFree } fun k => Vector.getElem_replicate _
      rw [hst', view_flushSuperblock]
      have hfreed : (st'.freeInode ino).view.Sound := by
        rw [view_freeInode _ h.2]
        exact hsound.mono rfl rfl fun _ hb => hb
      split
      · exact dirRemoveEntry_sound hfreed _ _
      · exact hfreed
    · rw [readInodeRaw_of_not_valid st h]
      exact hv

end State

theorem step_sound {g : SectorSize} {st : State g} (hv : st.view.Sound) (a : Action) :
    (step st a).view.Sound := by
  cases a with
  | writeFile path data => exact State.writeFile_sound hv path data
  | appendFile path data => exact State.writeFile_sound hv path _
  | writeAt path offset data => exact State.writeFile_sound hv path _
  | touch path =>
    show (st.touch path).2.view.Sound
    unfold State.touch
    split_ifs
    · exact hv
    · exact State.writeFile_sound hv path []
  | mkdir path => exact State.mkdir_sound hv path
  | remove path => exact State.remove_sound hv path

end Aeterna.Vfs.AeternaFs
