import Aeterna.Vfs.Persist
import Aeterna.Vfs.WriteBack

/-!
# A flush among other tasks

`sync_filesystem` can be preempted between its steps. `Phase` is how far it has come, with its
local variables; `advance` is its next step, and without interruption the steps make up
`syncFilesystem` (`run_advance`). The last step clears the dirty flag and does not look at the tree
again, so the disk is current whenever the flag is clear exactly if every flush that gets there
finds the tree that it took its snapshot of (`always_current_iff`).
-/

namespace Aeterna.Vfs

open Lib.Bytes

/-! ## The steps -/

inductive Phase where
  /-- no flush is in progress -/
  | idle
  /-- the flush has found the flag set -/
  | entered
  | snapshotted (tree : Tree)
  | serialized (tree : Tree) (buffer : Data) (sectors : ℕ)
  | written (tree : Tree) (sectors : ℕ)

/-- The snapshot of a flush in progress. -/
def Phase.snapshot : Phase → Option Tree
  | .idle | .entered => none
  | .snapshotted tree | .serialized tree .. | .written tree _ => some tree

/-- The file system with the flush in progress. -/
structure Shared where
  fs : SyncState
  phase : Phase

namespace Shared

/-- The next step of the flush, which begins one if none is in progress. -/
def advance (s : Shared) (drivers : Drivers) : Shared :=
  match s.phase with
  | .idle => if s.fs.dirty then { s with phase := .entered } else s
  | .entered =>
    match s.fs.tree with
    | none => { s with phase := .idle }
    | some tree => { s with phase := if tree.isEmpty then .idle else .snapshotted tree }
  | .snapshotted tree =>
    let sectors := sectorsNeeded tree
    match medBuffer s.fs.medCapacity (sectors * 512) drivers.framesFree with
    | none => { s with phase := .idle }
    | some cap =>
      let fs := { s.fs with medCapacity := some cap }
      match serializeRamfsInto tree cap sectors with
      | none => ⟨fs, .idle⟩
      | some image =>
        ⟨fs, if image = [] then .idle else .serialized tree (bufferOf image cap sectors) sectors⟩
  | .serialized tree buffer sectors =>
    if ¬ drivers.written then ⟨{ s.fs with disk := drivers.torn }, .idle⟩
    else
      let disk := s.fs.disk.write lbaBase (sectors % 2 ^ 32) buffer
      ⟨{ s.fs with disk := disk }, .written tree sectors⟩
  | .written _ sectors =>
    if ¬ drivers.verified ∨ leValue ((s.fs.disk.read lbaBase 1).take 8) ≠ superMagic then
      { s with phase := .idle }
    else
      ⟨{ s.fs with dirty := false, lastDirtyTick := noTick, lastSnapshotBytes := sectors * 512 },
        .idle⟩

inductive Action where
  | mutate (now : UInt64) (op : Op)
  | advance (drivers : Drivers)

/-- Another task changes the file system, or the flush goes on. -/
def step (s : Shared) : Action → Shared
  | .mutate now op => { s with fs := (s.fs.mutate now op).2 }
  | .advance drivers => s.advance drivers

/-- `s'` is where at most `k` steps of the flush lead without interruption. -/
def Leads (drivers : Drivers) (k : ℕ) (s s' : Shared) : Prop :=
  ∃ n ≤ k, 0 < n ∧ Lib.run step s (List.replicate n (.advance drivers)) = s'

variable {drivers : Drivers} {s s' : Shared} {k : ℕ}

theorem leads_of_advance (h : s.advance drivers = s') : Leads drivers (k + 1) s s' :=
  ⟨1, by omega, by decide, h⟩

theorem Leads.cons (h : Leads drivers k (s.advance drivers) s') : Leads drivers (k + 1) s s' := by
  obtain ⟨n, hn, -, hrun⟩ := h
  exact ⟨n + 1, by omega, by omega, hrun⟩

theorem leads_serialized {fs : SyncState} {tree : Tree} {buffer : Data} {sectors : ℕ} :
    Leads drivers 2 ⟨fs, .serialized tree buffer sectors⟩
      ⟨(flushImage fs drivers buffer sectors).2, .idle⟩ := by
  by_cases hwritten : drivers.written = true
  · refine Leads.cons (leads_of_advance ?_)
    simp only [advance, flushImage, hwritten, not_true_eq_false, if_false]
    split_ifs <;> rfl
  · refine leads_of_advance ?_
    simp only [advance, flushImage, if_pos hwritten]

/-- Uninterrupted, the steps are the flush. -/
theorem run_advance (fs : SyncState) (drivers : Drivers) :
    Leads drivers 5 ⟨fs, .idle⟩ ⟨(syncFilesystem fs drivers).2, .idle⟩ := by
  unfold syncFilesystem
  by_cases hd : fs.dirty = true
  · rw [if_neg (not_not.mpr hd)]
    apply Leads.cons
    rw [show advance ⟨fs, .idle⟩ drivers = ⟨fs, .entered⟩ from if_pos hd]
    cases htree : fs.tree with
    | none => exact leads_of_advance (by simp only [advance, htree])
    | some tree =>
      by_cases hempty : tree.isEmpty = true
      · exact leads_of_advance (by simp only [advance, htree, hempty, if_true])
      apply Leads.cons
      simp only [advance, htree, hempty, Bool.false_eq_true, if_false]
      cases hbuf : medBuffer fs.medCapacity (sectorsNeeded tree * 512) drivers.framesFree with
      | none => exact leads_of_advance (by simp only [advance, hbuf])
      | some cap =>
        cases himage : serializeRamfsInto tree cap (sectorsNeeded tree) with
        | none => exact leads_of_advance (by simp only [advance, hbuf, himage, ← htree])
        | some image =>
          by_cases hnil : image = []
          · exact leads_of_advance (by simp only [advance, hbuf, himage, hnil, if_true, ← htree])
          apply Leads.cons
          simp only [advance, hbuf, himage, hnil, ← htree]
          exact leads_serialized
  · rw [if_pos hd]
    exact leads_of_advance (if_neg hd)

/-! ## What is on the disk -/

/-- When no flush is in progress and the flag is clear, the disk has the tree. -/
def Current (s : Shared) : Prop :=
  s.phase = .idle → s.fs.dirty = false → readBack s.fs.disk = s.fs.tree

/-- The tree is within the limits of the image. -/
def WithinLimits (s : Shared) (_ : Action) : Prop :=
  ∀ tree, s.fs.tree = some tree → Fits tree ∧ requiredSize tree ≤ maxFsBytes

/-- A flush that clears the flag finds the tree of its snapshot. -/
def Undisturbed (s : Shared) : Action → Prop
  | .advance drivers => ∀ tree sectors, s.phase = .written tree sectors →
      drivers.verified = true → s.fs.tree = some tree
  | .mutate .. => True

/-- What a flush in progress has done so far. -/
def InProgress (fs : SyncState) : Phase → Prop
  | .idle => True
  | .entered => fs.dirty = true
  | .snapshotted tree => fs.dirty = true ∧ Fits tree ∧ requiredSize tree ≤ maxFsBytes
  | .serialized tree buffer sectors => fs.dirty = true ∧ ∀ disk : Disk,
      readBack (disk.write lbaBase (sectors % 2 ^ 32) buffer) = some tree
  | .written tree _ => fs.dirty = true ∧ readBack fs.disk = some tree

theorem magic_of_readBack {disk : Disk} {tree : Tree} (h : readBack disk = some tree) :
    leValue ((disk.read lbaBase 1).take 8) = superMagic := by
  obtain ⟨buf, hbuf, -⟩ := Option.bind_eq_some_iff.mp h
  exact (readFromDisk_eq_some_iff.mp hbuf).1

theorem mutate_keeps (fs : SyncState) (now : UInt64) (op : Op) :
    (fs.mutate now op).2 = fs ∨
      ((fs.mutate now op).2.dirty = true ∧ (fs.mutate now op).2.disk = fs.disk) := by
  rcases WriteBack.mutate_cases fs now op with ⟨-, h⟩ | ⟨-, -, tree', h⟩ | ⟨-, -, tree', -, h⟩
  · exact Or.inl h
  · exact Or.inr (by rw [h]; exact ⟨rfl, rfl⟩)
  · exact Or.inr (by rw [h]; exact ⟨rfl, rfl⟩)

theorem InProgress.congr {fs fs' : SyncState} {phase : Phase} (h : InProgress fs phase)
    (hdirty : fs'.dirty = true) (hdisk : fs'.disk = fs.disk) : InProgress fs' phase := by
  cases phase with
  | idle => trivial
  | entered => exact hdirty
  | snapshotted tree => exact ⟨hdirty, h.2⟩
  | serialized tree buffer sectors => exact ⟨hdirty, h.2⟩
  | written tree sectors => exact ⟨hdirty, hdisk ▸ h.2⟩

theorem inProgress_mutate (h : InProgress s.fs s.phase) (now : UInt64) (op : Op) :
    InProgress (s.fs.mutate now op).2 s.phase := by
  rcases mutate_keeps s.fs now op with he | ⟨hdirty, hdisk⟩
  · rwa [he]
  · exact h.congr hdirty hdisk

/-- The serialized buffer puts the snapshot on any disk. -/
theorem readBack_write_bufferOf {tree : Tree} {cap : ℕ} {image : Data}
    (hfits : Fits tree ∧ requiredSize tree ≤ maxFsBytes) (hcap : sectorsNeeded tree * 512 ≤ cap)
    (himage : serializeRamfsInto tree cap (sectorsNeeded tree) = some image) (disk : Disk) :
    readBack (disk.write lbaBase (sectorsNeeded tree % 2 ^ 32)
      (bufferOf image cap (sectorsNeeded tree))) = some tree := by
  rw [serializeRamfsInto_eq (le_trans (requiredSize_le_sectorsNeeded tree) hcap),
    Option.some.injEq] at himage
  rw [← himage, bufferOf_imageOf]
  have hback := readBack_flushed disk hfits.2 hcap
  rwa [(clipTree_eq_iff tree).mpr hfits.1] at hback

/-- One step of the flush: how far it is then, and the dirty flag. Only the last step clears it. -/
theorem inProgress_advance (h : InProgress s.fs s.phase)
    (hlim : ∀ tree, s.fs.tree = some tree → Fits tree ∧ requiredSize tree ≤ maxFsBytes)
    (drivers : Drivers) : InProgress (s.advance drivers).fs (s.advance drivers).phase := by
  obtain ⟨fs, phase⟩ := s
  cases phase with
  | idle =>
    dsimp only [advance]
    split_ifs with hd
    · exact hd
    · trivial
  | entered =>
    dsimp only [advance]
    cases htree : fs.tree with
    | none => trivial
    | some tree =>
      dsimp only
      split_ifs
      · trivial
      · exact ⟨h, hlim tree htree⟩
  | snapshotted tree =>
    dsimp only [advance]
    cases hbuf : medBuffer fs.medCapacity (sectorsNeeded tree * 512) drivers.framesFree with
    | none => trivial
    | some cap =>
      dsimp only
      cases himage : serializeRamfsInto tree cap (sectorsNeeded tree) with
      | none => trivial
      | some image =>
        dsimp only
        split_ifs
        · trivial
        · exact ⟨h.1, readBack_write_bufferOf h.2 (medBuffer_ge hbuf) himage⟩
  | serialized tree buffer sectors =>
    dsimp only [advance]
    split_ifs
    · exact ⟨h.1, h.2 fs.disk⟩
    · trivial
  | written tree sectors =>
    dsimp only [advance]
    split_ifs <;> trivial

theorem inProgress_step (h : InProgress s.fs s.phase) (a : Action) (ha : WithinLimits s a) :
    InProgress (s.step a).fs (s.step a).phase := by
  cases a with
  | mutate now op => exact inProgress_mutate h now op
  | advance drivers => exact inProgress_advance h ha drivers

theorem advance_of_not_written (h : InProgress s.fs s.phase)
    (hphase : ∀ tree sectors, s.phase ≠ .written tree sectors) (drivers : Drivers) :
    s.advance drivers = s ∨ (s.advance drivers).fs.dirty = true := by
  obtain ⟨fs, phase⟩ := s
  cases phase with
  | idle =>
    dsimp only [advance]
    split_ifs with hd
    · exact Or.inr hd
    · exact Or.inl rfl
  | entered =>
    refine Or.inr ?_
    dsimp only [advance]
    split <;> exact h
  | snapshotted tree =>
    refine Or.inr ?_
    dsimp only [advance]
    split
    · exact h.1
    · split <;> exact h.1
  | serialized tree buffer sectors =>
    refine Or.inr ?_
    dsimp only [advance]
    split_ifs <;> exact h.1
  | written tree sectors => exact absurd rfl (hphase tree sectors)

theorem current_advance_iff (hj : InProgress s.fs s.phase) (h : Current s) (drivers : Drivers) :
    Current (s.advance drivers) ↔ Undisturbed s (.advance drivers) := by
  by_cases hphase : ∀ tree sectors, s.phase ≠ .written tree sectors
  · refine iff_of_true ?_ fun tree sectors hs => absurd hs (hphase tree sectors)
    rcases advance_of_not_written hj hphase drivers with he | hdirty
    · rwa [he]
    · intro _ hclean
      rw [hdirty] at hclean
      cases hclean
  · push Not at hphase
    obtain ⟨tree, sectors, hs⟩ := hphase
    rw [hs] at hj
    have hmagic := magic_of_readBack hj.2
    cases hv : drivers.verified with
    | false =>
      have hadv : s.advance drivers = { s with phase := .idle } := by
        simp only [advance, hs, hv, Bool.false_eq_true, not_false_eq_true, true_or, if_true]
      refine iff_of_true ?_ fun _ _ _ hv' => by rw [hv] at hv'; cases hv'
      rw [hadv]
      intro _ hclean
      exact absurd (hj.1.symm.trans hclean) (by decide)
    | true =>
      have hadv : s.advance drivers =
          ⟨{ s.fs with dirty := false, lastDirtyTick := noTick,
                       lastSnapshotBytes := sectors * 512 }, .idle⟩ := by
        simp only [advance, hs, hv, hmagic, ne_eq, not_true_eq_false, or_self, if_false]
      rw [hadv]
      constructor
      · intro hcur tree' sectors' hs' _
        rw [hs] at hs'
        cases hs'
        exact (hcur rfl rfl).symm.trans hj.2
      · intro hund _ _
        exact hj.2.trans (hund tree sectors hs hv).symm

theorem current_step_iff (hj : InProgress s.fs s.phase) (h : Current s) (a : Action) :
    Current (s.step a) ↔ Undisturbed s a := by
  cases a with
  | mutate now op =>
    refine iff_of_true ?_ trivial
    dsimp only [step]
    rcases mutate_keeps s.fs now op with he | ⟨hdirty, -⟩
    · rwa [he]
    · intro _ hclean
      rw [hdirty] at hclean
      cases hclean
  | advance drivers => exact current_advance_iff hj h drivers

/-- **Lost updates.** Beginning with the tree on the disk and with trees within the limits of the
image, a run keeps the disk current whenever the flag is clear and no flush is in progress exactly
when every flush that clears the flag finds the tree of its snapshot. -/
theorem always_current_iff (fs : SyncState) (hfs : readBack fs.disk = fs.tree)
    (as : List Action) (hlim : Lib.EachStep step WithinLimits ⟨fs, .idle⟩ as) :
    Lib.Always step Current ⟨fs, .idle⟩ as ↔ Lib.EachStep step Undisturbed ⟨fs, .idle⟩ as :=
  Lib.always_iff_eachStep_of_invariant (J := fun s => InProgress s.fs s.phase) trivial
    (fun _ _ => hfs) (fun _ a hj ha => inProgress_step hj a ha)
    (fun _ a hj h _ => current_step_iff hj h a) hlim

/-! ## Which runs lose nothing -/

theorem tree_advance (s : Shared) (drivers : Drivers) :
    (s.advance drivers).fs.tree = s.fs.tree := by
  unfold advance
  split
  · split_ifs <;> rfl
  · split <;> rfl
  · dsimp only
    split
    · rfl
    · split <;> rfl
  · split_ifs <;> rfl
  · split_ifs <;> rfl

theorem snapshot_advance {drivers : Drivers} {tree : Tree}
    (h : (s.advance drivers).phase.snapshot = some tree) :
    s.phase.snapshot = some tree ∨ s.fs.tree = some tree := by
  obtain ⟨fs, phase⟩ := s
  cases phase with
  | idle =>
    dsimp only [advance] at h
    split_ifs at h <;> cases h
  | entered =>
    dsimp only [advance] at h
    cases htree : fs.tree with
    | none => simp only [htree] at h; cases h
    | some tree' =>
      simp only [htree] at h
      split_ifs at h
      · cases h
      · exact Or.inr h
  | snapshotted tree' =>
    dsimp only [advance] at h
    split at h
    · cases h
    · split at h
      · cases h
      · split_ifs at h
        · cases h
        · exact Or.inl h
  | serialized tree' buffer sectors =>
    dsimp only [advance] at h
    split_ifs at h
    · exact Or.inl h
    · cases h
  | written tree' sectors =>
    dsimp only [advance] at h
    split_ifs at h <;> cases h

/-- Other tasks change the file system only while no flush has taken its snapshot. -/
def BetweenFlushes (s : Shared) : Action → Prop
  | .mutate .. => s.phase.snapshot = none
  | .advance _ => True

theorem undisturbed_of_betweenFlushes {fs : SyncState} {as : List Action}
    (h : Lib.EachStep step BetweenFlushes ⟨fs, .idle⟩ as) :
    Lib.EachStep step Undisturbed ⟨fs, .idle⟩ as := by
  refine Lib.eachStep_of_eachStep
    (P := fun s => ∀ tree, s.phase.snapshot = some tree → s.fs.tree = some tree) nofun ?_ ?_ h
  · intro s a hs ha tree htree
    cases a with
    | mutate now op =>
      have hnone : s.phase.snapshot = none := ha
      rw [show (s.step (.mutate now op)).phase = s.phase from rfl, hnone] at htree
      cases htree
    | advance drivers =>
      exact (tree_advance s drivers).trans ((snapshot_advance htree).elim (hs tree) id)
  · intro s a hs _
    cases a with
    | mutate now op => trivial
    | advance drivers => exact fun tree sectors hphase _ => hs tree (by rw [hphase]; rfl)

/-- With frames to spare and a sound disk the snapshot is written, whatever the tree is by then. -/
theorem run_snapshotted (fs : SyncState) {tree : Tree}
    (hlim : Fits tree ∧ requiredSize tree ≤ maxFsBytes) :
    ∃ s, Lib.run step ⟨fs, .snapshotted tree⟩ (List.replicate 3 (.advance sound)) = s ∧
      s.phase = .idle ∧ s.fs.dirty = false ∧ s.fs.tree = fs.tree ∧
      readBack s.fs.disk = some tree := by
  obtain ⟨cap, hbuf⟩ := exists_medBuffer fs.medCapacity (sectorsNeeded tree * 512)
  have hcap := medBuffer_ge hbuf
  have himage := serializeRamfsInto_eq (le_trans (requiredSize_le_sectorsNeeded tree) hcap)
    (sectorsNeeded tree)
  have hback := readBack_write_bufferOf hlim hcap himage fs.disk
  have hmagic := magic_of_readBack hback
  refine ⟨_, rfl, ?_⟩
  simp only [List.replicate_succ, List.replicate_zero, Lib.run_cons, Lib.run_nil, step, advance,
    show sound.framesFree = true from rfl, show sound.written = true from rfl,
    show sound.verified = true from rfl, hbuf, himage, imageOf_ne_nil, hmagic, if_false,
    not_true_eq_false, ne_eq, or_self]
  exact ⟨trivial, trivial, trivial, hback⟩

/-- A change between the snapshot and the end of the flush is lost. -/
theorem not_current_of_change {fs : SyncState} {tree : Tree} (hdirty : fs.dirty = true)
    (htree : fs.tree = some tree) (hne : tree.isEmpty = false)
    (hlim : Fits tree ∧ requiredSize tree ≤ maxFsBytes) {now : UInt64} {op : Op}
    (hop : (fs.mutate now op).2.tree ≠ some tree) :
    ¬ Current (Lib.run step ⟨fs, .idle⟩ (List.replicate 2 (.advance sound) ++
      .mutate now op :: List.replicate 3 (.advance sound))) := by
  have hsnap : Lib.run step ⟨fs, .idle⟩ (List.replicate 2 (.advance sound)) =
      ⟨fs, .snapshotted tree⟩ := by
    simp only [List.replicate_succ, List.replicate_zero, Lib.run_cons, Lib.run_nil, step, advance,
      hdirty, htree, hne, if_true, if_false, Bool.false_eq_true]
  obtain ⟨s, hs, hidle, hclean, hstree, hback⟩ :=
    run_snapshotted (fs.mutate now op).2 hlim
  rw [Lib.run_append, hsnap]
  show ¬ Current (Lib.run step ⟨(fs.mutate now op).2, .snapshotted tree⟩ _)
  rw [hs]
  intro h
  rw [← hstree, ← h hidle hclean] at hop
  exact hop hback

/-! ### A write during a flush -/

/-- One file, which is on the disk, and the flag set. -/
def touched (data : Data) : SyncState :=
  { unsynced (oneFile data) with
    disk := flushed (fun _ => Vector.replicate 512 0) (oneFile data) 512 }

/-- A write by another task after `n` of the five steps of a flush. -/
def writeAfter (n : ℕ) (data : Data) : List Action :=
  List.replicate n (.advance sound) ++
    .mutate 0 (.writeFile "/big".toList data) :: List.replicate (5 - n) (.advance sound)

theorem readBack_touched {data : Data} (h : data.length ≤ 64) :
    readBack (touched data).disk = (touched data).tree := by
  have hsize := requiredSize_oneFile_le data
  have hneeded : sectorsNeeded (oneFile data) = 1 := by
    unfold sectorsNeeded
    omega
  have hmax : 109 ≤ maxFsBytes ∧ 64 ≤ maxFile := by decide
  have hback := readBack_flushed (fun _ => Vector.replicate 512 0)
    (show requiredSize (oneFile data) ≤ maxFsBytes by omega)
    (show sectorsNeeded (oneFile data) * 512 ≤ 512 by omega)
  rwa [(clipTree_eq_iff _).mpr (fits_oneFile (by omega))] at hback

theorem writeFile_oneFile (data data' : Data) :
    (writeFile (oneFile data) "/big".toList data').1 = oneFile data' := by
  have hpath : normalize "/big".toList = "/big".toList := by decide +kernel
  have hparent : parent "/big".toList = rootPath := by decide +kernel
  apply Std.ExtTreeMap.ext_getElem?
  intro k
  simp only [writeFile, insertFile, ensureParent, hpath, hparent, ne_eq, not_true_eq_false,
    false_and, if_false, getElem?_insert, getElem?_oneFile]
  split_ifs <;> rfl

theorem withinLimits_writeAfter {data data' : Data} (h : data.length ≤ 64)
    (h' : data'.length ≤ 64) (n : ℕ) :
    Lib.EachStep step WithinLimits ⟨touched data, .idle⟩ (writeAfter n data') := by
  have hmax : 109 ≤ maxFsBytes ∧ 64 ≤ maxFile := by decide
  -- the tree is always one of the two
  refine Lib.eachStep_of_eachStep
    (P := fun s => ∃ d : Data, d.length ≤ 64 ∧ s.fs.tree = some (oneFile d)) ⟨data, h, rfl⟩ ?_ ?_
    (Lib.eachStep_of_forall_mem fun _ ha => ha)
  · rintro s a ⟨d, hd, htree⟩ ha
    cases a with
    | mutate now op =>
      obtain ⟨rfl, rfl⟩ : now = 0 ∧ op = .writeFile "/big".toList data' := by
        simpa [writeAfter] using ha
      refine ⟨data', h', ?_⟩
      show (s.fs.mutate 0 _).2.tree = _
      rw [WriteBack.mutate_eq htree (fun _ _ h => by cases h)]
      exact congrArg some (writeFile_oneFile d data')
    | advance drivers => exact ⟨d, hd, (tree_advance s drivers).trans htree⟩
  · rintro s a ⟨d, hd, htree⟩ - tree ht
    rw [htree, Option.some.injEq] at ht
    rw [← ht]
    have := requiredSize_oneFile_le d
    exact ⟨fits_oneFile (by omega), by omega⟩

/-- A write right after the snapshot: the flag is clear and the disk has the old file. -/
theorem not_current_writeAfterSnapshot :
    readBack (touched [1]).disk = (touched [1]).tree ∧
      Lib.EachStep step WithinLimits ⟨touched [1], .idle⟩ (writeAfter 2 [2]) ∧
      ¬ Lib.Always step Current ⟨touched [1], .idle⟩ (writeAfter 2 [2]) := by
  refine ⟨readBack_touched (by decide),
    withinLimits_writeAfter (by decide) (by decide) 2, fun h => ?_⟩
  have hsize := requiredSize_oneFile_le [1]
  refine not_current_of_change rfl rfl (isEmpty_oneFile [1])
    ⟨fits_oneFile (by decide), le_trans hsize (by decide)⟩ ?_ h.last
  intro he
  have hat := congrArg (fun tree : Option Tree => tree.bind (·["/big".toList]?)) he
  exact absurd hat (by decide +kernel)

/-- A write before the flush is flushed. -/
theorem always_current_writeBefore :
    Lib.Always step Current ⟨touched [1], .idle⟩ (writeAfter 0 [2]) :=
  (always_current_iff (touched [1]) (readBack_touched (by decide)) (writeAfter 0 [2])
    (withinLimits_writeAfter (by decide) (by decide) 0)).mpr
    (undisturbed_of_betweenFlushes ⟨rfl, trivial, trivial, trivial, trivial, trivial, trivial⟩)

end Shared

end Aeterna.Vfs
