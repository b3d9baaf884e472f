import Aeterna.Lib.Run
import Aeterna.Vfs.DiskSync
import Aeterna.Vfs.Rename

/-!
# Deferred write-back

Changes of the tree reach the disk later: a mutation only marks the file system dirty, in two
variables, and `deferred_tick` flushes it when it is dirty and the mutation noted last is old
enough. `mark_dirty` sets both variables, with `u64::MAX` in the second for "none pending"; a flush
that succeeds clears both. `rename` sets the first one only.

A change is remembered (`Remembered`) if both variables say so, and is then flushed once no
mutation has been made for `DEFERRED_SYNC_TICKS`. Along a run this holds exactly when every rename
that moves something finds a mutation pending already (`always_remembered_iff`).
-/

namespace Aeterna.Vfs

/-! ## The dirty state -/

def deferredSyncTicks : UInt64 := 1000

/-- The value of `LAST_DIRTY_TICK` when no mutation is pending, `u64::MAX`. -/
def noTick : UInt64 := UInt64.ofNat (2 ^ 64 - 1)

/-- One of the functions that change the tree, with its answer. -/
def call (tree : Tree) : Op → Tree × Bool
  | .writeFile path data => writeFile tree path data
  | .writeAt path offset data => writeAt tree path offset data
  | .appendFile path data => appendFile tree path data
  | .touch path => touch tree path
  | .mkdir path => mkdir tree path
  | .remove path => remove tree path
  | .rename src dst => rename tree src dst

namespace SyncState

def markDirty (s : SyncState) (now : UInt64) : SyncState :=
  { s with dirty := true, lastDirtyTick := now }

/-- A rename that moves a node. -/
def Moves (s : SyncState) : Op → Prop
  | .rename src dst =>
    normalize src ≠ normalize dst ∧ ∃ tree, s.tree = some tree ∧ normalize src ∈ tree
  | _ => False

/-- A call that changes the file system at time `now`. -/
def mutate (s : SyncState) (now : UInt64) (op : Op) : Bool × SyncState :=
  match s.tree, op with
  | none, .rename src dst => (decide (normalize src = normalize dst), s)
  | none, _ => (false, s)
  | some tree, .rename src dst =>
    if normalize src = normalize dst then (true, s)
    else if normalize src ∉ tree then (false, s)
    else
      -- the tick of the mutation is not noted
      (true, { s with tree := some (rename tree src dst).1, dirty := true })
  | some tree, op =>
    let (tree, ok) := call tree op
    let s := { s with tree := some tree }
    (ok, if ok then s.markDirty now else s)

def deferredTick (s : SyncState) (now : UInt64) (drivers : Drivers) : SyncState :=
  if ¬ s.dirty then s
  else if s.lastDirtyTick = noTick ∨ now - s.lastDirtyTick < deferredSyncTicks then s
  else (syncFilesystem s drivers).2

/-- `deferred_tick` called now attempts a flush. -/
def SyncDue (s : SyncState) (now : UInt64) : Prop :=
  s.dirty = true ∧ s.lastDirtyTick ≠ noTick ∧ ¬ now - s.lastDirtyTick < deferredSyncTicks

instance (s : SyncState) (now : UInt64) : Decidable (s.SyncDue now) :=
  inferInstanceAs (Decidable (_ ∧ _))

theorem deferredTick_eq (s : SyncState) (now : UInt64) (drivers : Drivers) :
    s.deferredTick now drivers =
      if s.SyncDue now then (syncFilesystem s drivers).2 else s := by
  unfold deferredTick
  by_cases hd : s.dirty = true
  · by_cases ht : s.lastDirtyTick = noTick ∨ now - s.lastDirtyTick < deferredSyncTicks
    · rw [if_neg (not_not.mpr hd), if_pos ht, if_neg]
      rintro ⟨-, hl, hn⟩
      exact ht.elim hl hn
    · rw [if_neg (not_not.mpr hd), if_neg ht, if_pos ⟨hd, not_or.mp ht⟩]
  · rw [if_pos hd, if_neg fun h => hd h.1]

end SyncState

theorem call_of_false {tree : Tree} {op : Op} (h : (call tree op).2 = false) :
    (call tree op).1 = tree := by
  cases op with
  | writeFile path data => simp [call, writeFile] at h
  | writeAt path offset data =>
    unfold call writeAt at h ⊢
    dsimp only at h ⊢
    split at h <;> simp_all
  | appendFile path data =>
    unfold call appendFile at h
    dsimp only at h
    split at h <;> cases h
  | touch path =>
    unfold call touch at h
    dsimp only at h
    split_ifs at h
  | mkdir path => simp [call, mkdir] at h
  | remove path =>
    unfold call remove at h ⊢
    dsimp only at h ⊢
    split_ifs at h ⊢
    · rfl
    · rfl
    · apply Std.ExtTreeMap.ext_getElem?
      intro k
      rw [getElem?_erase]
      split_ifs with hk
      · rw [← hk]
        exact (Std.ExtTreeMap.getElem?_eq_none_of_contains_eq_false h).symm
      · rfl
  | rename src dst =>
    unfold call rename at h ⊢
    dsimp only at h ⊢
    split_ifs at h ⊢
    rfl

/-- What a flush does to the tree and the dirty state of a dirty file system. -/
structure FlushOf (s : SyncState) (r : Bool × SyncState) : Prop where
  tree : r.2.tree = s.tree
  done : r.1 = true → r.2.dirty = false ∧ r.2.lastDirtyTick = noTick
  failed : r.1 = false → r.2.dirty = s.dirty ∧ r.2.lastDirtyTick = s.lastDirtyTick

theorem flushOf_flushImage (s : SyncState) (drivers : Drivers) (buffer : Data) (sectors : ℕ) :
    FlushOf s (flushImage s drivers buffer sectors) := by
  unfold flushImage
  dsimp only
  split_ifs
  · exact ⟨rfl, nofun, fun _ => ⟨rfl, rfl⟩⟩
  · exact ⟨rfl, fun _ => ⟨rfl, rfl⟩, nofun⟩
  · exact ⟨rfl, nofun, fun _ => ⟨rfl, rfl⟩⟩

theorem flushOf_syncFilesystem {s : SyncState} (hd : s.dirty = true) (drivers : Drivers) :
    FlushOf s (syncFilesystem s drivers) := by
  have refused : FlushOf s (false, s) := ⟨rfl, nofun, fun _ => ⟨rfl, rfl⟩⟩
  unfold syncFilesystem
  rw [if_neg (not_not.mpr hd)]
  cases htree : s.tree with
  | none => exact refused
  | some tree =>
    dsimp only
    split_ifs
    · exact refused
    cases medBuffer s.medCapacity (sectorsNeeded tree * 512) drivers.framesFree with
    | none => exact refused
    | some cap =>
      have kept : FlushOf s (false, { s with tree := some tree, medCapacity := some cap }) :=
        ⟨htree.symm, nofun, fun _ => ⟨rfl, rfl⟩⟩
      dsimp only
      cases serializeRamfsInto tree cap (sectorsNeeded tree) with
      | none => exact kept
      | some image =>
        dsimp only
        split_ifs
        · exact kept
        · obtain ⟨h₁, h₂, h₃⟩ := flushOf_flushImage
            { s with tree := some tree, medCapacity := some cap } drivers
            (bufferOf image cap (sectorsNeeded tree)) (sectorsNeeded tree)
          exact ⟨h₁.trans htree.symm, h₂, h₃⟩

theorem syncFilesystem_clean {s : SyncState} (hd : s.dirty = false) (drivers : Drivers) :
    syncFilesystem s drivers = (true, s) := by
  unfold syncFilesystem
  rw [if_pos (by rw [hd]; exact Bool.false_ne_true)]

/-! ## Runs -/

/-- The file system and the timer, with the tree of the last flush that wrote and the time of the
last call that answered yes. -/
structure WriteBack where
  fs : SyncState
  clock : UInt64
  synced : Option Tree
  changedAt : UInt64

namespace WriteBack

inductive Action where
  | mutate (op : Op)
  | tick
  | deferredTick (drivers : Drivers)
  | sync (drivers : Drivers)

/-- `sync_filesystem` is called. -/
def flush (s : WriteBack) (drivers : Drivers) : WriteBack :=
  let (ok, fs) := syncFilesystem s.fs drivers
  { s with fs := fs, synced := if s.fs.dirty ∧ ok then s.fs.tree else s.synced }

def step (s : WriteBack) : Action → WriteBack
  | .mutate op =>
    let (ok, fs) := s.fs.mutate s.clock op
    { s with fs := fs, changedAt := if ok then s.clock else s.changedAt }
  | .tick => { s with clock := s.clock + 1 }
  | .deferredTick drivers => if s.fs.SyncDue s.clock then s.flush drivers else s
  | .sync drivers => s.flush drivers

/-- The tree has just been read from the disk or written to it. -/
def start (tree : Tree) (disk : Disk) (clock : UInt64) : WriteBack where
  fs := ⟨some tree, false, noTick, 0, none, disk⟩
  clock := clock
  synced := some tree
  changedAt := clock

theorem step_deferredTick_fs (s : WriteBack) (drivers : Drivers) :
    (s.step (.deferredTick drivers)).fs = s.fs.deferredTick s.clock drivers := by
  rw [SyncState.deferredTick_eq, step]
  split_ifs <;> rfl

/-- A tree that is not the one on the disk will be flushed. -/
def Remembered (s : WriteBack) : Prop :=
  s.fs.tree ≠ s.synced → s.fs.dirty = true ∧ s.fs.lastDirtyTick ≠ noTick ∧
    (deferredSyncTicks ≤ s.clock - s.changedAt → s.fs.SyncDue s.clock)

/-- The timer has not reached its last value. -/
def ClockRuns (s : WriteBack) (_ : Action) : Prop := s.clock ≠ noTick

instance (s : WriteBack) (a : Action) : Decidable (ClockRuns s a) :=
  inferInstanceAs (Decidable (_ ≠ _))

/-- A rename that moves something finds a mutation pending. -/
def RenamesPending (s : WriteBack) : Action → Prop
  | .mutate op => s.fs.Moves op → s.fs.lastDirtyTick ≠ noTick
  | _ => True

/-- The pending mutation is not after the last one. -/
structure Timed (s : WriteBack) : Prop where
  changed : s.changedAt ≤ s.clock
  pending : s.fs.lastDirtyTick ≠ noTick → s.fs.lastDirtyTick ≤ s.changedAt

variable {s : WriteBack}

theorem Timed.syncDue (h : Timed s) (hd : s.fs.dirty = true) (hl : s.fs.lastDirtyTick ≠ noTick)
    (hold : deferredSyncTicks ≤ s.clock - s.changedAt) : s.fs.SyncDue s.clock := by
  refine ⟨hd, hl, ?_⟩
  have hle := h.pending hl
  have hc := h.changed
  rw [UInt64.le_iff_toNat_le, UInt64.toNat_sub_of_le _ _ hc] at hold
  rw [UInt64.not_lt, UInt64.le_iff_toNat_le, UInt64.toNat_sub_of_le _ _ (UInt64.le_trans hle hc)]
  rw [UInt64.le_iff_toNat_le] at hle
  omega

/-- With the times in order, the flush is due when the two variables say that it is pending. -/
theorem Timed.remembered_iff (h : Timed s) :
    Remembered s ↔
      (s.fs.tree ≠ s.synced → s.fs.dirty = true ∧ s.fs.lastDirtyTick ≠ noTick) :=
  ⟨fun hr hne => ⟨(hr hne).1, (hr hne).2.1⟩,
    fun hr hne => ⟨(hr hne).1, (hr hne).2, h.syncDue (hr hne).1 (hr hne).2⟩⟩

/-! ## Mutations -/

theorem mutate_eq {fs : SyncState} {tree : Tree} (htree : fs.tree = some tree) {op : Op}
    (hop : ∀ src dst, op ≠ .rename src dst) (now : UInt64) :
    fs.mutate now op = ((call tree op).2,
      if (call tree op).2 then { fs with tree := some (call tree op).1 }.markDirty now
      else { fs with tree := some (call tree op).1 }) := by
  unfold SyncState.mutate
  rw [htree]
  cases op with
  | rename src dst => exact absurd rfl (hop src dst)
  | _ => rfl

theorem mutate_rename {fs : SyncState} {tree : Tree} (htree : fs.tree = some tree)
    (src dst : Path) (now : UInt64) :
    fs.mutate now (.rename src dst) =
      if normalize src = normalize dst then (true, fs)
      else if normalize src ∉ tree then (false, fs)
      else (true, { fs with tree := some (rename tree src dst).1, dirty := true }) := by
  unfold SyncState.mutate
  rw [htree]

/-- What a mutation can do: nothing, note itself in both variables, or move a node and set the
flag only. -/
theorem mutate_cases (fs : SyncState) (now : UInt64) (op : Op) :
    (¬ fs.Moves op ∧ (fs.mutate now op).2 = fs) ∨
      (¬ fs.Moves op ∧ (fs.mutate now op).1 = true ∧
        ∃ tree', (fs.mutate now op).2 = { fs with tree := some tree' }.markDirty now) ∨
      (fs.Moves op ∧ (fs.mutate now op).1 = true ∧
        ∃ tree', some tree' ≠ fs.tree ∧
          (fs.mutate now op).2 = { fs with tree := some tree', dirty := true }) := by
  cases htree : fs.tree with
  | none =>
    have hstay : ¬ fs.Moves op := by
      cases op with
      | rename src dst =>
        rintro ⟨-, tree, ht, -⟩
        simp [htree] at ht
      | _ => exact id
    refine Or.inl ⟨hstay, ?_⟩
    unfold SyncState.mutate
    rw [htree]
    cases op <;> rfl
  | some tree =>
    by_cases hop : ∀ src dst, op ≠ .rename src dst
    · have hstay : ¬ fs.Moves op := by
        cases op with
        | rename src dst => exact absurd rfl (hop src dst)
        | _ => exact id
      rw [mutate_eq htree hop]
      cases hok : (call tree op).2 with
      | true => exact Or.inr (Or.inl ⟨hstay, rfl, _, rfl⟩)
      | false =>
        refine Or.inl ⟨hstay, ?_⟩
        show { fs with tree := some (call tree op).1 } = fs
        rw [call_of_false hok, ← htree]
    · push Not at hop
      obtain ⟨src, dst, rfl⟩ := hop
      rw [mutate_rename htree]
      by_cases hsame : normalize src = normalize dst
      · rw [if_pos hsame]
        exact Or.inl ⟨fun h => h.1 hsame, rfl⟩
      rw [if_neg hsame]
      by_cases hmem : normalize src ∈ tree
      · rw [if_neg (not_not.mpr hmem)]
        refine Or.inr (Or.inr ⟨⟨hsame, tree, htree, hmem⟩, rfl, _, ?_, rfl⟩)
        rw [rename, if_neg hsame, if_neg (not_not.mpr hmem)]
        exact fun h => moveTree_ne hmem hsame (Option.some.inj h)
      · rw [if_pos hmem]
        refine Or.inl ⟨fun ⟨_, tree', ht, hm⟩ => hmem ?_, rfl⟩
        rw [htree, Option.some.injEq] at ht
        rwa [ht]

theorem step_mutate_of_ok {op : Op} {fs : SyncState}
    (hok : (s.fs.mutate s.clock op).1 = true) (hfs : (s.fs.mutate s.clock op).2 = fs) :
    s.step (.mutate op) = { s with fs := fs, changedAt := s.clock } := by
  dsimp only [step]
  rw [if_pos hok, hfs]

/-! ## The times -/

theorem Timed.mutate (h : Timed s) (op : Op) : Timed (s.step (.mutate op)) := by
  have hnow : s.fs.lastDirtyTick ≠ noTick → s.fs.lastDirtyTick ≤ s.clock :=
    fun hl => UInt64.le_trans (h.pending hl) h.changed
  rcases mutate_cases s.fs s.clock op with ⟨-, hfs⟩ | ⟨-, hok, tree', hfs⟩ | ⟨-, hok, tree', -, hfs⟩
  · dsimp only [step]
    rw [hfs]
    split_ifs
    · exact ⟨UInt64.le_refl _, hnow⟩
    · exact h
  · rw [step_mutate_of_ok hok hfs]
    exact ⟨UInt64.le_refl _, fun _ => UInt64.le_refl _⟩
  · rw [step_mutate_of_ok hok hfs]
    exact ⟨UInt64.le_refl _, hnow⟩

theorem Timed.flush (h : Timed s) (drivers : Drivers) : Timed (s.flush drivers) := by
  refine ⟨h.changed, ?_⟩
  dsimp only [WriteBack.flush]
  cases hd : s.fs.dirty with
  | false =>
    rw [syncFilesystem_clean hd]
    exact h.pending
  | true =>
    obtain ⟨-, hdone, hfailed⟩ := flushOf_syncFilesystem hd drivers
    cases hok : (syncFilesystem s.fs drivers).1 with
    | true => exact fun hl => absurd (hdone hok).2 hl
    | false =>
      rw [(hfailed hok).2]
      exact h.pending

theorem Timed.tick (h : Timed s) (hclock : s.clock ≠ noTick) : Timed (s.step .tick) := by
  refine ⟨UInt64.le_trans h.changed ?_, h.pending⟩
  have hlt : s.clock.toNat ≠ 2 ^ 64 - 1 := fun he => hclock (UInt64.toNat_inj.mp he)
  have := s.clock.toNat_lt
  show s.clock.toNat ≤ (s.clock + 1).toNat
  rw [UInt64.toNat_add, UInt64.toNat_one]
  omega

theorem Timed.step (h : Timed s) (a : Action) (ha : ClockRuns s a) : Timed (s.step a) := by
  cases a with
  | mutate op => exact h.mutate op
  | tick => exact h.tick ha
  | deferredTick drivers =>
    dsimp only [WriteBack.step]
    split_ifs
    · exact h.flush drivers
    · exact h
  | sync drivers => exact h.flush drivers

theorem timed_start (tree : Tree) (disk : Disk) (clock : UInt64) :
    Timed (start tree disk clock) := ⟨UInt64.le_refl _, fun hl => absurd rfl hl⟩

/-! ## What is remembered -/

/-- A flush keeps what is pending or makes it the tree on the disk. -/
theorem pending_flush (drivers : Drivers)
    (h : s.fs.tree ≠ s.synced → s.fs.dirty = true ∧ s.fs.lastDirtyTick ≠ noTick) :
    (s.flush drivers).fs.tree ≠ (s.flush drivers).synced →
      (s.flush drivers).fs.dirty = true ∧ (s.flush drivers).fs.lastDirtyTick ≠ noTick := by
  dsimp only [flush]
  cases hd : s.fs.dirty with
  | false =>
    rw [syncFilesystem_clean hd, if_neg (by simp)]
    exact hd ▸ h
  | true =>
    obtain ⟨htree, -, hfailed⟩ := flushOf_syncFilesystem hd drivers
    rw [htree]
    cases hok : (syncFilesystem s.fs drivers).1 with
    | true =>
      exact fun hne => absurd rfl hne
    | false =>
      rw [(hfailed hok).1, (hfailed hok).2]
      exact h

theorem remembered_step_iff (ht : Timed s) (h : Remembered s) (a : Action)
    (ha : ClockRuns s a) : Remembered (s.step a) ↔ RenamesPending s a := by
  rw [(ht.step a ha).remembered_iff]
  rw [ht.remembered_iff] at h
  cases a with
  | mutate op =>
    rcases mutate_cases s.fs s.clock op with ⟨hm, hfs⟩ | ⟨hm, hok, tree', hfs⟩ |
      ⟨hm, hok, tree', hne, hfs⟩
    · refine iff_of_true ?_ fun hmoves => absurd hmoves hm
      dsimp only [step]
      rwa [hfs]
    · refine iff_of_true ?_ fun hmoves => absurd hmoves hm
      rw [step_mutate_of_ok hok hfs]
      exact fun _ => ⟨rfl, ha⟩
    · rw [step_mutate_of_ok hok hfs]
      constructor
      · intro hr _ hl
        have hsynced : s.fs.tree = s.synced := by
          by_contra hs
          exact (h hs).2 hl
        exact (hr (hsynced ▸ hne)).2 hl
      · exact fun hp _ => ⟨rfl, hp hm⟩
  | tick => exact iff_of_true h trivial
  | deferredTick drivers =>
    refine iff_of_true ?_ trivial
    dsimp only [step]
    split_ifs
    · exact pending_flush drivers h
    · exact h
  | sync drivers => exact iff_of_true (pending_flush drivers h) trivial

/-- **Deferred write-back.** While the timer has not run out, a run remembers every change of the
tree exactly when each rename that moves something finds a mutation pending. -/
theorem always_remembered_iff (tree : Tree) (disk : Disk) (clock : UInt64) (as : List Action)
    (hclock : Lib.EachStep step ClockRuns (start tree disk clock) as) :
    Lib.Always step Remembered (start tree disk clock) as ↔
      Lib.EachStep step RenamesPending (start tree disk clock) as :=
  Lib.always_iff_eachStep_of_invariant (timed_start tree disk clock) (fun hne => absurd rfl hne)
    (fun _ a ht ha => ht.step a ha) (fun _ a ht h ha => remembered_step_iff ht h a ha) hclock

/-- A root with the file `/a`, just flushed. -/
def flushedFile : WriteBack :=
  start ((∅ : Tree).insert rootPath .dir |>.insert "/a".toList (.file [1]))
    (fun _ => Vector.replicate 512 0) 0

/-- A rename behind a write is remembered with it. -/
theorem remembered_writeRename :
    Lib.Always step Remembered flushedFile
      [.mutate (.writeFile "/a".toList [2]), .mutate (.rename "/a".toList "/b".toList), .tick] := by
  refine (always_remembered_iff _ _ _ _ ?_).mpr ?_
  · decide +kernel
  · exact ⟨fun h => h.elim, fun _ => by decide +kernel, trivial, trivial⟩

/-- A rename right after a flush leaves `u64::MAX` in `LAST_DIRTY_TICK`. -/
theorem not_remembered_rename :
    ¬ Lib.Always step Remembered flushedFile
      [.mutate (.rename "/a".toList "/b".toList)] := by
  rintro ⟨-, h⟩
  refine (h fun he => ?_).2.1 (by decide +kernel)
  have hat := congrArg (fun tree : Option Tree => tree.bind (·["/a".toList]?)) he
  exact absurd hat (by decide +kernel)

end WriteBack

end Aeterna.Vfs
