import Aeterna.Mm.Exclusive
import Aeterna.Sched.Syscall

/-!
# The memory system calls

`mmap`, `munmap` and `dma_alloc` with the memory they hand out. Frames come from the bump allocator
of `mm/physical`; the heap is the `linked_list_allocator` crate over one run of frames, and what it
answers to an allocation is part of the call (`Answers` says what it may answer).

Addresses are physical; the direct map adds the offset `hhdm`. On the physical addresses of the
machine (`Sane.narrow`) the sizes that a call serves with less memory than it was asked for are
known exactly: `reserves_run_iff`. Whether `munmap` gives back what `mmap` took is `inverts_mmap_iff`.
-/

namespace Aeterna.Sched

open Scheduler
open Aeterna.Mm (Pmm PhysRegion Paged)

/-! ## The calls -/

structure Layout where
  size : UInt64
  align : UInt64
  deriving DecidableEq

inductive Origin where
  | frames
  | heap (layout : Layout)
  deriving DecidableEq

/-- A successful call: the address it returned, where that is in physical memory, and what the call
took from an allocator. -/
structure Grant where
  address : UInt64
  start : ℕ
  taken : Lib.Range
  origin : Origin

/-- The scheduler and the memory: the frame allocator, the frames it has handed out, the memory of
the heap, its blocks in use, and the offset of the direct map. -/
structure MemState (F : Type) where
  sched : Scheduler F
  pmm : Pmm
  frames : List Lib.Range
  arena : Lib.Range
  blocks : List Lib.Range
  hhdm : UInt64

namespace MemState

variable {F : Type}

/-- A call of the frame allocator. What it takes lies between the address it returns and where it
leaves the pointer. -/
def takeFrames (k : MemState F) (c : Mm.Call) : Option (UInt64 × Lib.Range) × MemState F :=
  match k.pmm.call c with
  | (some a, pmm) =>
    let taken := ⟨a.toNat, pmm.nextFreeFrame.toNat - a.toNat⟩
    (some (a, taken), { k with pmm, frames := k.frames ++ [taken] })
  | (none, pmm) => (none, { k with pmm })

def account (k : MemState F) (bytes : UInt64) : MemState F :=
  { k with sched := addMemoryUsage k.sched (currentPid k.sched) bytes }

/-- `answer` is the block the heap finds, if it is asked. -/
def mmap (k : MemState F) (size flags : UInt64) (answer : Option Lib.Range) :
    MemState F × Reply × Option Grant :=
  if size = 0 then (k, .error .invalidArgument, none)
  else if flags &&& 1 ≠ 0 then
    match k.takeFrames (.allocHugeFrames 1) with
    | (some (phys, taken), k) =>
      (k.account hugeFrameSize, .ret (phys + k.hhdm).toInt64,
        some ⟨phys + k.hhdm, phys.toNat, taken, .frames⟩)
    | (none, k) => (k, .error .outOfMemory, none)
  else
    let layout := ⟨roundUp size 64, 64⟩
    if layoutOk layout.size layout.align then
      match answer with
      | some block =>
        let ptr := UInt64.ofNat block.start + k.hhdm
        if ptr = 0 then (k, .error .outOfMemory, none)
        else
          ({ k.account layout.size with blocks := k.blocks ++ [block] }, .ret ptr.toInt64,
            some ⟨ptr, block.start, block, .heap layout⟩)
      | none => (k, .error .outOfMemory, none)
    else (k, .error .invalidArgument, none)

def dmaAlloc (k : MemState F) (size : UInt64) : MemState F × Reply × Option Grant :=
  if hasCapability k.sched .device ∨ hasCapability k.sched .system then
    let count := (size + 4095) / 4096
    match k.takeFrames (.allocFrames count) with
    | (some (phys, taken), k) =>
      (k.account (count * 4096), .ret phys.toInt64, some ⟨phys, phys.toNat, taken, .frames⟩)
    | (none, k) => (k, .error .outOfMemory, none)
  else (k, .error .permissionDenied, none)

/-- With the call of `dealloc` it makes. -/
def munmap (k : MemState F) (addr size : UInt64) :
    MemState F × Reply × Option (UInt64 × Layout) :=
  if addr = 0 ∨ size = 0 then (k, .error .invalidArgument, none)
  else
    let align := if size % 0x200000 = 0 then 0x200000 else 64
    let layout := ⟨roundUp size align, align⟩
    if layoutOk layout.size layout.align then
      ({ k with
          sched := subMemoryUsage k.sched (currentPid k.sched) layout.size
          blocks := k.blocks.filter fun b => UInt64.ofNat b.start + k.hhdm ≠ addr },
        .error .success, some (addr, layout))
    else (k, .error .invalidArgument, none)

def HeapFull (k : MemState F) (answer : Option Lib.Range) : Prop :=
  ∀ block, answer = some block → UInt64.ofNat block.start + k.hhdm = 0

theorem mmap_heap_cases (k : MemState F) {size flags : UInt64} (answer : Option Lib.Range)
    (hsize : size ≠ 0) (hflag : ¬ flags &&& 1 ≠ 0) :
    ((k.mmap size flags answer).2.2 = none ∧ (k.mmap size flags answer).1 = k ∧
      (layoutOk (roundUp size 64) 64 = false ∨ k.HeapFull answer)) ∨
    ∃ block, answer = some block ∧ UInt64.ofNat block.start + k.hhdm ≠ 0 ∧
      layoutOk (roundUp size 64) 64 = true ∧
      (k.mmap size flags answer).2.2 = some ⟨UInt64.ofNat block.start + k.hhdm, block.start, block,
        .heap ⟨roundUp size 64, 64⟩⟩ ∧
      (k.mmap size flags answer).1 =
        { k.account (roundUp size 64) with blocks := k.blocks ++ [block] } := by
  rw [mmap, if_neg hsize, if_neg hflag]
  dsimp only
  cases hok : layoutOk (roundUp size 64) 64 with
  | false => exact Or.inl ⟨rfl, rfl, Or.inl rfl⟩
  | true =>
    cases answer with
    | none => exact Or.inl ⟨rfl, rfl, Or.inr nofun⟩
    | some block =>
      by_cases hnull : UInt64.ofNat block.start + k.hhdm = 0
      · refine Or.inl ?_
        simp only [hnull, if_true, true_and]
        refine Or.inr ?_
        rintro _ ⟨⟩
        exact hnull
      · refine Or.inr ⟨block, rfl, hnull, rfl, ?_⟩
        simp only [hnull, if_true, if_false, and_self]

/-! The handlers of the dispatch table are these calls, with what the allocators answer. -/

theorem takeFrames_fst (k : MemState F) (c : Mm.Call) :
    (k.takeFrames c).1.map Prod.fst = (k.pmm.call c).1 := by
  unfold takeFrames
  cases h : k.pmm.call c with
  | mk found pmm => cases found <;> rfl

theorem takeFrames_sched (k : MemState F) (c : Mm.Call) : (k.takeFrames c).2.sched = k.sched := by
  unfold takeFrames
  cases h : k.pmm.call c with
  | mk found pmm => cases found <;> rfl

theorem takeFrames_hhdm (k : MemState F) (c : Mm.Call) : (k.takeFrames c).2.hhdm = k.hhdm := by
  unfold takeFrames
  cases h : k.pmm.call c with
  | mk found pmm => cases found <;> rfl

theorem takeFrames_of_none {k : MemState F} {count : UInt64}
    (h : (k.takeFrames (.allocFrames count)).1 = none) :
    (k.takeFrames (.allocFrames count)).2 = k := by
  have hcall : k.pmm.call (.allocFrames count) =
      k.pmm.allocRun k.pmm.frameStart (count * Mm.frameSize) count := rfl
  unfold takeFrames at h ⊢
  rw [hcall, Pmm.allocRun] at h ⊢
  cases hfit : Pmm.firstFit k.pmm.frameStart (count * Mm.frameSize) k.pmm.regions with
  | none => rfl
  | some a =>
    rw [hfit] at h
    cases h

theorem syscallMmap_eq (srv : Services) (k : MemState F) (size flags : UInt64)
    (answer : Option Lib.Range)
    (hhuge : srv.hugeFrame = (k.pmm.call (.allocHugeFrames 1)).1.map (· + k.hhdm))
    (hheap : ∀ n, srv.allocZeroed n = answer.elim 0 fun block => UInt64.ofNat block.start + k.hhdm) :
    syscallMmap srv k.sched size flags =
      ((k.mmap size flags answer).1.sched, (k.mmap size flags answer).2.1) := by
  unfold syscallMmap mmap
  split_ifs with hzero hflag
  · rfl
  · rw [hhuge, ← takeFrames_fst]
    have hsched := takeFrames_sched k (.allocHugeFrames 1)
    have hhhdm := takeFrames_hhdm k (.allocHugeFrames 1)
    generalize k.takeFrames (.allocHugeFrames 1) = result at hsched hhhdm ⊢
    obtain ⟨found, k'⟩ := result
    cases found with
    | none => rw [← hsched]; rfl
    | some found =>
      simp only [account] at hsched hhhdm ⊢
      rw [hsched, ← hhhdm]
      rfl
  · by_cases hlayout : layoutOk (roundUp size 64) 64 = true
    · rw [if_pos hlayout, if_pos hlayout]
      have hptr := hheap (roundUp size 64)
      cases answer with
      | none => exact if_pos hptr
      | some block =>
        by_cases hnull : srv.allocZeroed (roundUp size 64) = 0
        · have hnull' : UInt64.ofNat block.start + k.hhdm = 0 := hptr.symm.trans hnull
          dsimp only
          rw [if_pos hnull, if_pos hnull']
        · have hnull' : ¬ UInt64.ofNat block.start + k.hhdm = 0 := fun he => hnull (hptr.trans he)
          dsimp only
          rw [if_neg hnull, if_neg hnull', hptr]
          rfl
    · rw [if_neg hlayout, if_neg hlayout]

theorem syscallDmaAlloc_eq (srv : Services) (k : MemState F) (size : UInt64)
    (hframes : ∀ count, srv.frames count = (k.pmm.call (.allocFrames count)).1) :
    syscallDmaAlloc srv k.sched size =
      ((k.dmaAlloc size).1.sched, (k.dmaAlloc size).2.1) := by
  unfold syscallDmaAlloc dmaAlloc
  split_ifs with hcap
  · dsimp only
    rw [hframes, ← takeFrames_fst]
    have hsched := takeFrames_sched k (.allocFrames ((size + 4095) / 4096))
    generalize k.takeFrames (.allocFrames ((size + 4095) / 4096)) = result at hsched ⊢
    obtain ⟨found, k'⟩ := result
    cases found with
    | none => rw [← hsched]; rfl
    | some found =>
      simp only [account] at hsched ⊢
      rw [hsched]
      rfl
  · rfl

theorem syscallMunmap_eq (k : MemState F) (addr size : UInt64) :
    syscallMunmap k.sched addr size = ((k.munmap addr size).1.sched, (k.munmap addr size).2.1) := by
  unfold syscallMunmap munmap
  by_cases hzero : addr = 0 ∨ size = 0
  · rw [if_pos hzero, if_pos hzero]
  · rw [if_neg hzero, if_neg hzero]
    generalize (if size % 0x200000 = 0 then (0x200000 : UInt64) else 64) = align
    by_cases hlayout : layoutOk (roundUp size align) align = true
    · simp only [hlayout, if_true]
    · simp only [hlayout]
      rfl

end MemState

/-! ## Memory that is reserved -/

section Reserve

variable {F : Type}

/-- What happens to the memory: the two calls, other calls of the frame allocator, and other use of
the heap. -/
inductive MemAction where
  | mmap (size flags : UInt64) (answer : Option Lib.Range)
  | dmaAlloc (size : UInt64)
  | frames (c : Mm.Call)
  | heapAlloc (block : Lib.Range)
  | heapFree (block : Lib.Range)

namespace MemState

def step (k : MemState F) : MemAction → MemState F
  | .mmap size flags answer => (k.mmap size flags answer).1
  | .dmaAlloc size => (k.dmaAlloc size).1
  | .frames c => (k.takeFrames c).2
  | .heapAlloc block => { k with blocks := k.blocks ++ [block] }
  | .heapFree block => { k with blocks := k.blocks.erase block }

/-- The `size` bytes from the returned address on lie in what the call took, and in nothing that was
handed out before and not freed. -/
def Reserved (k : MemState F) (size : UInt64) (result : Option Grant) : Prop :=
  ∀ g, result = some g → (Lib.Range.mk g.start size.toNat).bytes ⊆ g.taken.bytes ∧
    ∀ r ∈ k.frames ++ k.blocks, Disjoint (Lib.Range.mk g.start size.toNat).bytes r.bytes

/-- The call gives what it was asked for. -/
def Reserves (k : MemState F) : MemAction → Prop
  | .mmap size flags answer => k.Reserved size (k.mmap size flags answer).2.2
  | .dmaAlloc size => k.Reserved size (k.dmaAlloc size).2.2
  | _ => True

/-- A block of the heap's memory that is not in use. -/
def FreshBlock (k : MemState F) (block : Lib.Range) : Prop :=
  k.arena.start ≤ block.start ∧ block.stop ≤ k.arena.stop ∧
    ∀ b ∈ k.blocks, Disjoint block.bytes b.bytes

/-- What the heap and the other users of the frame allocator are trusted with: a block is fresh and
at least as long as its layout, and the other counts do not overflow. -/
def Answers (k : MemState F) : MemAction → Prop
  | .mmap size _ answer => ∀ block, answer = some block →
      (roundUp size 64).toNat ≤ block.len ∧ k.FreshBlock block
  | .dmaAlloc _ => True
  | .frames c => k.pmm.NoOverflow c
  | .heapAlloc block => k.FreshBlock block
  | .heapFree _ => True

def NoHugeRoom (k : MemState F) : Prop :=
  ∀ r ∈ k.pmm.regions, ¬ k.pmm.hugeStart r + Mm.hugeFrameSize ≤ r.stop

/-- The bytes of the frames that a size needs. -/
def frameBytes (size : UInt64) : ℕ := (size.toNat + 4095) / 4096 * 4096

/-- From its start in the region the request runs past the last address and round to the region
again. -/
def Wraps (k : MemState F) (size : UInt64) (r : PhysRegion) : Prop :=
  2 ^ 64 ≤ (k.pmm.frameStart r).toNat + frameBytes size ∧
    (k.pmm.frameStart r).toNat + frameBytes size - 2 ^ 64 ≤ r.stop.toNat

/-- The requests that get what they ask for, or nothing: with huge pages at most one, from the heap
a size that can be rounded up, and by frames one that wraps in no region. -/
def Honors (k : MemState F) : MemAction → Prop
  | .mmap size flags answer => size = 0 ∨
      if flags &&& 1 ≠ 0 then size.toNat ≤ 2 ^ 21 ∨ k.NoHugeRoom
      else size.toNat ≤ 2 ^ 64 - 64 ∨ k.HeapFull answer
  | .dmaAlloc size => ¬ (hasCapability k.sched .device ∨ hasCapability k.sched .system) ∨
      ∀ r ∈ k.pmm.regions, ¬ k.Wraps size r
  | _ => True

/-- The memory between two calls: physical addresses have 52 bits, and everything the frame allocator
has handed out lies below its pointer. -/
structure Sane (k : MemState F) : Prop where
  narrow : ∀ r ∈ k.pmm.regions, r.base.toNat + r.length.toNat ≤ 2 ^ 52
  next : k.pmm.nextFreeFrame.toNat ≤ 2 ^ 52
  paged : Paged k.pmm
  ledger : Lib.Ledger k.pmm.nextFreeFrame.toNat (k.arena :: k.frames)
  inside : ∀ b ∈ k.blocks, k.arena.start ≤ b.start ∧ b.stop ≤ k.arena.stop

variable {k : MemState F}

/-! ### Frames -/

theorem firstFits_of_forall {guard : PhysRegion → Prop} {startIn : PhysRegion → UInt64}
    {bytes : UInt64} {rs : List PhysRegion}
    (h : ∀ r ∈ rs, Mm.AddFits r.base r.length ∧ guard r ∧ Mm.AddFits (startIn r) bytes) :
    Pmm.FirstFits guard startIn bytes rs := by
  induction rs with
  | nil => trivial
  | cons r rs ih =>
    obtain ⟨⟨hstop, hguard, hsum⟩, hrest⟩ := List.forall_mem_cons.mp h
    exact ⟨hstop, hguard, hsum, fun _ => ih hrest⟩

theorem Sane.frameStart_le (h : Sane k) {r : PhysRegion} (hr : r ∈ k.pmm.regions) :
    (k.pmm.frameStart r).toNat ≤ 2 ^ 52 := by
  have hnarrow := h.narrow r hr
  have hnext := h.next
  unfold Pmm.frameStart
  split_ifs
  · exact hnext
  · omega

theorem Sane.noOverflow_frames (h : Sane k) {count : UInt64}
    (hcount : count.toNat * 4096 < 2 ^ 64 - 2 ^ 52) : k.pmm.NoOverflow (.allocFrames count) := by
  have hbytes : (count * Mm.frameSize).toNat = count.toNat * 4096 :=
    Lib.Word.toNat_mul_of_lt (lt_of_lt_of_le hcount (by omega))
  refine ⟨lt_of_lt_of_le hcount (by omega), firstFits_of_forall fun r hr => ⟨?_, trivial, ?_⟩⟩
  · have hnarrow := h.narrow r hr
    exact lt_of_le_of_lt hnarrow (by norm_num)
  · have hstart := h.frameStart_le hr
    rw [Mm.AddFits]
    omega

theorem alignUp_le {x : UInt64} (hx : x.toNat ≤ 2 ^ 52) :
    (Lib.Word.alignUp Mm.hugeFrameSize x).toNat ≤ 2 ^ 52 + 2 ^ 21 := by
  have hsize : Mm.hugeFrameSize.toNat = 2 ^ 21 := rfl
  rw [Lib.Word.toNat_alignUp hsize (by rw [hsize]; omega)]
  omega

theorem Sane.noOverflow_huge (h : Sane k) : k.pmm.NoOverflow (.allocHugeFrames 1) := by
  have hsize : Mm.hugeFrameSize.toNat = 2 ^ 21 := rfl
  have hnext := h.next
  refine ⟨by decide, firstFits_of_forall fun r hr => ?_⟩
  have hnarrow := h.narrow r hr
  have hbase : r.base.toNat ≤ 2 ^ 52 := by omega
  have hstart : (k.pmm.hugeStart r).toNat ≤ 2 ^ 52 + 2 ^ 21 := by
    unfold Pmm.hugeStart
    dsimp only
    split_ifs
    · exact alignUp_le hnext
    · exact alignUp_le hbase
  refine ⟨lt_of_le_of_lt hnarrow (by norm_num), ⟨?_, fun _ => ?_⟩, ?_⟩
  · rw [Mm.AddFits]
    omega
  · rw [Mm.AddFits]
    omega
  · rw [Mm.AddFits, one_mul]
    omega

/-- A call that does not overflow takes exactly its bytes, above all that was handed out. -/
theorem Sane.takeFrames (h : Sane k) {c : Mm.Call} (hc : k.pmm.NoOverflow c) :
    Sane (k.takeFrames c).2 ∧
      ((k.takeFrames c).1 = none ∨ ∃ a, (k.takeFrames c).1 = some (a, ⟨a.toNat, c.bytes.toNat⟩) ∧
        k.pmm.nextFreeFrame.toNat ≤ a.toNat) := by
  unfold MemState.takeFrames
  rcases Mm.call_cases h.paged hc with ⟨a, s', he, hg⟩ | ⟨s', he, hr⟩
  · have hlen : s'.nextFreeFrame.toNat - a.toNat = c.bytes.toNat := by
      rw [hg.next]
      omega
    simp only [he, hlen]
    refine ⟨⟨?_, ?_, ?_, ?_, h.inside⟩, Or.inr ⟨a, rfl, hg.above⟩⟩
    · rw [hg.regions]
      exact h.narrow
    · obtain ⟨r, hr, -, hstop⟩ := hg.inside
      rw [hg.next]
      exact hstop.trans (h.narrow r hr)
    · have halign := hg.aligned_frame
      have hmul := Mm.frames_mul hc
      refine ⟨?_, by rw [hg.regions]; exact h.paged.base⟩
      rw [hg.next]
      omega
    · rw [hg.next]
      exact h.ledger.grant (g := ⟨a.toNat, c.bytes.toNat⟩) hg.above
  · simp only [he]
    refine ⟨⟨?_, ?_, ?_, h.ledger.raise hr.next, h.inside⟩, Or.inl trivial⟩
    · rw [hr.regions]
      exact h.narrow
    · rcases hr.jump with hj | ⟨r, hr', hj⟩
      · rw [hj]
        exact h.next
      · have hnarrow := h.narrow r hr'
        rw [hj]
        omega
    · exact ⟨h.paged.base_or_next hr.jump, by rw [hr.regions]; exact h.paged.base⟩

theorem Sane.stop_le (h : Sane k) {r : Lib.Range} (hr : r ∈ k.frames ++ k.blocks) :
    r.stop ≤ k.pmm.nextFreeFrame.toNat := by
  rcases List.mem_append.mp hr with hr | hr
  · exact h.ledger.below r (List.mem_cons_of_mem k.arena hr)
  · exact (h.inside r hr).2.trans (h.ledger.below k.arena List.mem_cons_self)

theorem Sane.reserved_frames (h : Sane k) {address a size : UInt64} {n : ℕ} {origin : Origin}
    (ha : k.pmm.nextFreeFrame.toNat ≤ a.toNat) :
    k.Reserved size (some ⟨address, a.toNat, ⟨a.toNat, n⟩, origin⟩) ↔ size.toNat ≤ n := by
  constructor
  · intro hres
    exact Lib.Range.bytes_subset_iff.mp (hres _ rfl).1
  · rintro hle _ ⟨⟩
    refine ⟨Lib.Range.bytes_subset_iff.mpr hle, fun r hr => ?_⟩
    exact (Lib.Range.disjoint_bytes ((h.stop_le hr).trans ha)).symm

theorem reserved_none (size : UInt64) : k.Reserved size none := nofun

/-! ### Huge frames -/

theorem takeFrames_huge_eq_none :
    (k.takeFrames (.allocHugeFrames 1)).1 = none ↔ k.NoHugeRoom := by
  rw [← Option.map_eq_none_iff (f := Prod.fst), takeFrames_fst, NoHugeRoom, ← Pmm.firstFit_eq_none]
  show (k.pmm.allocRun k.pmm.hugeStart (1 * Mm.hugeFrameSize) _).1 = none ↔ _
  rw [one_mul, Pmm.allocRun]
  cases Pmm.firstFit k.pmm.hugeStart Mm.hugeFrameSize k.pmm.regions with
  | none => exact iff_of_true rfl rfl
  | some a => exact iff_of_false nofun nofun

theorem Sane.reserves_huge (h : Sane k) {size flags : UInt64} (answer : Option Lib.Range)
    (hsize : size ≠ 0) (hflag : flags &&& 1 ≠ 0) :
    k.Reserved size (k.mmap size flags answer).2.2 ↔ size.toNat ≤ 2 ^ 21 ∨ k.NoHugeRoom := by
  rw [mmap, if_neg hsize, if_pos hflag, ← takeFrames_huge_eq_none]
  obtain ⟨-, hnone | ⟨a, hsome, ha⟩⟩ := h.takeFrames h.noOverflow_huge
  · refine iff_of_true ?_ (Or.inr hnone)
    generalize k.takeFrames (.allocHugeFrames 1) = result at hnone ⊢
    obtain ⟨found, k'⟩ := result
    cases hnone
    exact reserved_none size
  · rw [hsome, or_iff_left (Option.some_ne_none _)]
    generalize k.takeFrames (.allocHugeFrames 1) = result at hsome ⊢
    obtain ⟨found, k'⟩ := result
    cases hsome
    exact h.reserved_frames ha

/-! ### Heap blocks -/

theorem le_roundUp {size : UInt64} (h : size.toNat ≤ 2 ^ 64 - 64)
    (hok : layoutOk (roundUp size 64) 64 = true) : size.toNat ≤ (roundUp size 64).toNat := by
  rcases Nat.lt_or_eq_of_le h with hlt | heq
  · have hsum : size.toNat + (64 : UInt64).toNat < 2 ^ 64 := by
      rw [show (64 : UInt64).toNat = 64 from rfl]
      omega
    exact Lib.Word.le_alignUp (k := 6) rfl hsum
  · obtain rfl : size = 0xFFFFFFFFFFFFFFC0 := UInt64.toNat_inj.mp heq
    exact absurd hok (by decide)

theorem roundUp_eq_zero {size : UInt64} (h : 2 ^ 64 - 64 < size.toNat) : roundUp size 64 = 0 := by
  have hlt := UInt64.toNat_lt size
  have hsum : (size + 64 - 1).toNat < 64 := by
    have h64 : (64 : UInt64).toNat = 64 := rfl
    have h1 : (1 : UInt64).toNat = 1 := rfl
    rw [UInt64.toNat_sub, UInt64.toNat_add]
    omega
  apply UInt64.toNat_inj.mp
  rw [roundUp, Lib.Word.toNat_and_not_mask (k := 6) _ rfl]
  show (size + 64 - 1).toNat / 64 * 64 = 0
  rw [Nat.div_eq_of_lt hsum]

theorem Sane.reserves_heap (h : Sane k) {size flags : UInt64} {answer : Option Lib.Range}
    (ha : k.Answers (.mmap size flags answer)) (hsize : size ≠ 0) (hflag : ¬ flags &&& 1 ≠ 0) :
    k.Reserved size (k.mmap size flags answer).2.2 ↔
      size.toNat ≤ 2 ^ 64 - 64 ∨ k.HeapFull answer := by
  rcases mmap_heap_cases k answer hsize hflag with ⟨hgrant, -, hwhy⟩ |
    ⟨block, rfl, hptr, hok, hgrant, -⟩
  · rw [hgrant]
    refine iff_of_true (reserved_none size) (hwhy.imp_left fun hbad => ?_)
    by_contra hwrap
    rw [roundUp_eq_zero (not_le.mp hwrap)] at hbad
    exact absurd hbad (by decide)
  · obtain ⟨hlen, hstart, hstop, hfresh⟩ := ha block rfl
    have hfull : ¬ k.HeapFull (some block) := fun hf => hptr (hf block rfl)
    rw [hgrant, or_iff_left hfull]
    by_cases hwrap : size.toNat ≤ 2 ^ 64 - 64
    · refine iff_of_true ?_ hwrap
      rintro _ ⟨⟩
      have hle := (le_roundUp hwrap hok).trans hlen
      have hsub : (Lib.Range.mk block.start size.toNat).bytes ⊆ block.bytes :=
        Lib.Range.bytes_subset_iff.mpr hle
      refine ⟨hsub, fun r hr => Set.disjoint_of_subset_left hsub ?_⟩
      rcases List.mem_append.mp hr with hr | hr
      · have hapart := (List.pairwise_cons.mp h.ledger.disjoint).1 r hr
        exact Set.disjoint_of_subset_left (Set.Ico_subset_Ico hstart hstop) hapart
      · exact hfresh r hr
    · refine iff_of_false (fun hres => hwrap ?_) hwrap
      have hle : size.toNat ≤ block.len := Lib.Range.bytes_subset_iff.mp (hres _ rfl).1
      have harena := h.ledger.below k.arena List.mem_cons_self
      have hnext := h.next
      rw [Lib.Range.stop] at hstop
      omega

/-! ### Frames for devices -/

theorem frameBytes_le (size : UInt64) : frameBytes size ≤ 2 ^ 64 := by
  have hlt := UInt64.toNat_lt size
  unfold frameBytes
  omega

theorem le_frameBytes (size : UInt64) : size.toNat ≤ frameBytes size := by
  unfold frameBytes
  omega

/-- The bytes that are asked for, with the sum that can wrap. -/
theorem toNat_count (size : UInt64) :
    ((size + 4095) / 4096).toNat * 4096 = frameBytes size % 2 ^ 64 := by
  have hadd : (size + 4095).toNat = (size.toNat + 4095) % 2 ^ 64 := UInt64.toNat_add size 4095
  have hdiv : ((size + 4095) / 4096).toNat = (size + 4095).toNat / 4096 :=
    UInt64.toNat_div (size + 4095) 4096
  rw [frameBytes]
  omega

theorem bytes_count (size : UInt64) :
    (Mm.Call.allocFrames ((size + 4095) / 4096)).bytes.toNat = frameBytes size % 2 ^ 64 := by
  have hcount := toNat_count size
  rw [Mm.Call.bytes, Lib.Word.toNat_mul_of_lt]
  · exact hcount
  · show _ * 4096 < 2 ^ 64
    omega

/-- A request for most of the address space is met only by wrapping. -/
theorem Sane.fits_iff_wraps (h : Sane k) {size : UInt64} (hbig : 2 ^ 64 - 2 ^ 52 ≤ frameBytes size)
    {r : PhysRegion} (hr : r ∈ k.pmm.regions) :
    k.pmm.frameStart r + (Mm.Call.allocFrames ((size + 4095) / 4096)).bytes ≤ r.stop ↔
      k.Wraps size r := by
  have hstart := h.frameStart_le hr
  have hnarrow := h.narrow r hr
  have hstop : r.stop.toNat = r.base.toNat + r.length.toNat :=
    Mm.stop_toNat (lt_of_le_of_lt hnarrow (by norm_num))
  have hle := frameBytes_le size
  rw [UInt64.le_iff_toNat_le, UInt64.toNat_add, bytes_count, Wraps]
  omega

theorem takeFrames_eq_none_iff (count : UInt64) :
    (k.takeFrames (.allocFrames count)).1 = none ↔
      ∀ r ∈ k.pmm.regions,
        ¬ k.pmm.frameStart r + (Mm.Call.allocFrames count).bytes ≤ r.stop := by
  rw [← Option.map_eq_none_iff (f := Prod.fst), takeFrames_fst, ← Pmm.firstFit_eq_none]
  show (k.pmm.allocRun k.pmm.frameStart (count * Mm.frameSize) count).1 = none ↔ _
  rw [Pmm.allocRun]
  show _ ↔ Pmm.firstFit k.pmm.frameStart (count * Mm.frameSize) k.pmm.regions = none
  cases Pmm.firstFit k.pmm.frameStart (count * Mm.frameSize) k.pmm.regions with
  | none => exact iff_of_true rfl rfl
  | some a => exact iff_of_false nofun nofun

/-- A call of `alloc_frames` takes what lies before where it leaves the pointer. -/
theorem takeFrames_eq_some {count : UInt64} {found : UInt64 × Lib.Range}
    (h : (k.takeFrames (.allocFrames count)).1 = some found) :
    found.2 = ⟨found.1.toNat, (found.1 + (Mm.Call.allocFrames count).bytes).toNat -
      found.1.toNat⟩ ∧ ∃ r ∈ k.pmm.regions, found.1 = k.pmm.frameStart r ∧
        k.pmm.frameStart r + (Mm.Call.allocFrames count).bytes ≤ r.stop := by
  unfold takeFrames at h
  have hcall : k.pmm.call (.allocFrames count) =
      k.pmm.allocRun k.pmm.frameStart (count * Mm.frameSize) count := rfl
  rw [hcall, Pmm.allocRun] at h
  cases hfit : Pmm.firstFit k.pmm.frameStart (count * Mm.frameSize) k.pmm.regions with
  | none =>
    rw [hfit] at h
    cases h
  | some a =>
    rw [hfit] at h
    cases h
    exact ⟨rfl, Pmm.exists_of_firstFit hfit⟩

theorem Sane.reserved_dma (h : Sane k) (size : UInt64) :
    k.Reserved size ((k.takeFrames (.allocFrames ((size + 4095) / 4096))).1.map fun found =>
      ⟨found.1, found.1.toNat, found.2, .frames⟩) ↔ ∀ r ∈ k.pmm.regions, ¬ k.Wraps size r := by
  have hcount := toNat_count size
  have hbytes := bytes_count size
  have hle := le_frameBytes size
  rcases lt_or_ge (frameBytes size) (2 ^ 64 - 2 ^ 52) with hsmall | hbig
  · have hmod : frameBytes size % 2 ^ 64 = frameBytes size := Nat.mod_eq_of_lt (by omega)
    rw [hmod] at hcount hbytes
    refine iff_of_true ?_ fun r hr hw => ?_
    · obtain ⟨-, hnone | ⟨a, hsome, ha⟩⟩ := h.takeFrames (h.noOverflow_frames (by rwa [hcount]))
      · rw [hnone]
        exact reserved_none size
      · rw [hsome, hbytes]
        exact (h.reserved_frames ha).mpr hle
    · have hstart := h.frameStart_le hr
      have hwrap := hw.1
      omega
  · have hwraps : (∀ r ∈ k.pmm.regions, ¬ k.Wraps size r) ↔
        (k.takeFrames (.allocFrames ((size + 4095) / 4096))).1 = none := by
      rw [takeFrames_eq_none_iff]
      exact forall₂_congr fun r hr => not_congr (h.fits_iff_wraps hbig hr).symm
    rw [hwraps]
    cases hfound : (k.takeFrames (.allocFrames ((size + 4095) / 4096))).1 with
    | none => exact iff_of_true (reserved_none size) rfl
    | some found =>
      -- the pointer comes out at or below the address that is returned
      refine iff_of_false (fun hres => ?_) (Option.some_ne_none _)
      obtain ⟨htaken, r, hr, hstart, hfit⟩ := takeFrames_eq_some hfound
      have hpast := ((h.fits_iff_wraps hbig hr).mp hfit).1
      have hsub := (hres _ rfl).1
      dsimp only at hsub
      rw [htaken, Lib.Range.bytes_subset_iff, UInt64.toNat_add, hstart] at hsub
      have hmost := frameBytes_le size
      have hsize : 2 ^ 63 < size.toNat := by
        have hround : frameBytes size < size.toNat + 4096 := by
          unfold frameBytes
          omega
        omega
      omega

theorem dmaAlloc_grant (k : MemState F) (size : UInt64)
    (hcap : hasCapability k.sched .device ∨ hasCapability k.sched .system) :
    (k.dmaAlloc size).2.2 = (k.takeFrames (.allocFrames ((size + 4095) / 4096))).1.map fun found =>
      ⟨found.1, found.1.toNat, found.2, .frames⟩ := by
  rw [dmaAlloc, if_pos hcap]
  dsimp only
  generalize k.takeFrames (.allocFrames ((size + 4095) / 4096)) = result
  obtain ⟨found, k'⟩ := result
  cases found with
  | none => rfl
  | some found => rfl

/-! ### Runs -/

theorem Sane.reserves_iff (h : Sane k) {a : MemAction} (ha : k.Answers a) :
    k.Reserves a ↔ k.Honors a := by
  cases a with
  | mmap size flags answer =>
    by_cases hsize : size = 0
    · refine iff_of_true ?_ (Or.inl hsize)
      rw [Reserves, mmap, if_pos hsize]
      exact reserved_none size
    rw [Honors, or_iff_right hsize]
    by_cases hflag : flags &&& 1 ≠ 0
    · rw [if_pos hflag]
      exact h.reserves_huge answer hsize hflag
    · rw [if_neg hflag]
      exact h.reserves_heap ha hsize hflag
  | dmaAlloc size =>
    by_cases hcap : hasCapability k.sched .device ∨ hasCapability k.sched .system
    · rw [Reserves, Honors, dmaAlloc_grant k size hcap, or_iff_right (not_not.mpr hcap)]
      exact h.reserved_dma size
    · refine iff_of_true ?_ (Or.inl hcap)
      rw [Reserves, dmaAlloc, if_neg hcap]
      exact reserved_none size
  | frames c => exact Iff.rfl
  | heapAlloc block => exact Iff.rfl
  | heapFree block => exact Iff.rfl

theorem Sane.congr (h : Sane k) {k' : MemState F} (hpmm : k'.pmm = k.pmm)
    (hframes : k'.frames = k.frames) (harena : k'.arena = k.arena)
    (hblocks : ∀ b ∈ k'.blocks, k.arena.start ≤ b.start ∧ b.stop ≤ k.arena.stop) : Sane k' := by
  refine ⟨?_, ?_, ?_, ?_, ?_⟩
  · rw [hpmm]
    exact h.narrow
  · rw [hpmm]
    exact h.next
  · rw [hpmm]
    exact h.paged
  · rw [hpmm, hframes, harena]
    exact h.ledger
  · rw [harena]
    exact hblocks

theorem FreshBlock.inside (h : Sane k) {block : Lib.Range} (hf : k.FreshBlock block) :
    ∀ b ∈ k.blocks ++ [block], k.arena.start ≤ b.start ∧ b.stop ≤ k.arena.stop := by
  intro b hb
  rcases List.mem_append.mp hb with hb | hb
  · exact h.inside b hb
  · rw [List.mem_singleton.mp hb]
    exact ⟨hf.1, hf.2.1⟩

theorem Sane.account (h : Sane k) (bytes : UInt64) : Sane (k.account bytes) :=
  h.congr rfl rfl rfl h.inside

theorem Sane.mmap (h : Sane k) {size flags : UInt64} {answer : Option Lib.Range}
    (ha : k.Answers (.mmap size flags answer)) : Sane (k.mmap size flags answer).1 := by
  by_cases hsize : size = 0
  · rw [MemState.mmap, if_pos hsize]
    exact h
  by_cases hflag : flags &&& 1 ≠ 0
  · rw [MemState.mmap, if_neg hsize, if_pos hflag]
    obtain ⟨hsane, -⟩ := h.takeFrames h.noOverflow_huge
    generalize k.takeFrames (.allocHugeFrames 1) = result at hsane ⊢
    obtain ⟨found, k'⟩ := result
    cases found with
    | none => exact hsane
    | some found => exact hsane.account hugeFrameSize
  · rcases mmap_heap_cases k answer hsize hflag with ⟨-, hsame, -⟩ | ⟨block, rfl, -, -, -, hnew⟩
    · rw [hsame]
      exact h
    · rw [hnew]
      exact h.congr rfl rfl rfl ((ha block rfl).2.inside h)

theorem Sane.dmaAlloc (h : Sane k) {size : UInt64} (hh : k.Honors (.dmaAlloc size)) :
    Sane (k.dmaAlloc size).1 := by
  by_cases hcap : hasCapability k.sched .device ∨ hasCapability k.sched .system
  · have hwraps := hh.resolve_left (not_not.mpr hcap)
    have hsane : Sane (k.takeFrames (.allocFrames ((size + 4095) / 4096))).2 := by
      rcases lt_or_ge (frameBytes size) (2 ^ 64 - 2 ^ 52) with hsmall | hbig
      · refine (h.takeFrames (h.noOverflow_frames ?_)).1
        rwa [toNat_count, Nat.mod_eq_of_lt (by omega)]
      · have hnone := (takeFrames_eq_none_iff ((size + 4095) / 4096)).mpr fun r hr =>
          mt (h.fits_iff_wraps hbig hr).mp (hwraps r hr)
        rw [takeFrames_of_none hnone]
        exact h
    rw [MemState.dmaAlloc, if_pos hcap]
    dsimp only
    generalize k.takeFrames (.allocFrames ((size + 4095) / 4096)) = result at hsane ⊢
    obtain ⟨found, k'⟩ := result
    cases found with
    | none => exact hsane
    | some found => exact hsane.account _
  · rw [MemState.dmaAlloc, if_neg hcap]
    exact h

theorem Sane.step (h : Sane k) {a : MemAction} (ha : k.Answers a) (hh : k.Honors a) :
    Sane (k.step a) := by
  cases a with
  | mmap size flags answer => exact h.mmap ha
  | dmaAlloc size => exact h.dmaAlloc hh
  | frames c => exact (h.takeFrames ha).1
  | heapAlloc block => exact h.congr rfl rfl rfl (FreshBlock.inside h ha)
  | heapFree block =>
    exact h.congr rfl rfl rfl fun b hb => h.inside b (List.mem_of_mem_erase hb)

/-- In a run of calls each call gives what it was asked for exactly if each is a request that is
honoured. -/
theorem reserves_run_iff (k : MemState F) (h : Sane k) (as : List MemAction)
    (hanswers : Lib.EachStep step Answers k as) :
    Lib.EachStep step Reserves k as ↔ Lib.EachStep step Honors k as :=
  Lib.eachStep_iff_of_invariant h (fun _ _ hs ha hh => hs.step ha hh)
    (fun _ _ hs ha => hs.reserves_iff ha) hanswers

/-! ### The memory after boot -/

/-- After `mm::physical::init`, with `count` frames from `a` on for the heap. -/
def afterBoot (sched : Scheduler F) (memmap : List Mm.MemmapEntry) (count a hhdm : UInt64) :
    MemState F where
  sched := sched
  pmm := ((Pmm.boot.init (some memmap)).call (.allocFrames count)).2
  frames := []
  arena := ⟨a.toNat, count.toNat * 4096⟩
  blocks := []
  hhdm := hhdm

theorem sane_afterBoot {sched : Scheduler F} {memmap : List Mm.MemmapEntry} {count a : UInt64}
    (hmap : Mm.ValidMap memmap)
    (hnarrow : ∀ r ∈ Mm.usableRegions memmap, r.base.toNat + r.length.toNat ≤ 2 ^ 52)
    (hcount : count.toNat * 4096 ≤ 2 ^ 52)
    (ha : ((Pmm.boot.init (some memmap)).call (.allocFrames count)).1 = some a) (hhdm : UInt64) :
    Sane (afterBoot sched memmap count a hhdm) := by
  have hbook := Mm.bookInv_start hmap
  obtain ⟨r, hr, -, hregions, hnext, -⟩ := Mm.init_spec hmap
  -- the same state before the heap is there
  have hstart : Sane (F := F) ⟨sched, Pmm.boot.init (some memmap), [], ⟨0, 0⟩, [], hhdm⟩ := by
    refine ⟨by rw [hregions]; exact hnarrow, ?_, hbook.paged, ?_, by simp⟩
    · have hle := hnarrow r hr
      rw [hnext]
      omega
    · exact ⟨by simp [Lib.Range.stop], by simp, by simp⟩
  have hc : (Pmm.boot.init (some memmap)).NoOverflow (.allocFrames count) :=
    hstart.noOverflow_frames (by omega)
  have hbytes : (Mm.Call.allocFrames count).bytes.toNat = count.toNat * 4096 :=
    Lib.Word.toNat_mul_of_lt hc.1
  rcases Mm.call_cases (s := Pmm.boot.init (some memmap)) hbook.paged hc with
    ⟨a', s', he, hg⟩ | ⟨s', he, -⟩
  · rw [he] at ha
    cases ha
    have hsane := (hstart.takeFrames hc).1
    rw [takeFrames, he] at hsane
    refine ⟨?_, ?_, ?_, ?_, by simp [afterBoot]⟩ <;> simp only [afterBoot, he]
    · exact hsane.narrow
    · exact hsane.next
    · exact hsane.paged
    · have hgrant := (Lib.Ledger.nil _).grant (g := ⟨a.toNat, count.toNat * 4096⟩) hg.above
      have hstop : (Lib.Range.mk a.toNat (count.toNat * 4096)).stop = s'.nextFreeFrame.toNat := by
        rw [Lib.Range.stop, hg.next, hbytes]
      rwa [hstop] at hgrant
  · rw [he] at ha
    cases ha

/-- 16 frames of the heap at 2 MiB, and 7 MiB behind them. -/
def smallMachine : MemState Frame :=
  afterBoot (start 0 false) Mm.smallMap 16 0x200000 0xFFFF800000000000

theorem sane_smallMachine : Sane smallMachine := by
  refine sane_afterBoot ⟨by decide, by decide, by decide⟩ (by decide) (by decide) (by decide) _

/-- A block of 128 bytes and two frames. -/
def honestCalls : List MemAction := [.mmap 100 0 (some ⟨0x200000, 128⟩), .dmaAlloc 5000]

theorem reserves_honestCalls : Lib.EachStep step Reserves smallMachine honestCalls := by
  refine (reserves_run_iff smallMachine sane_smallMachine honestCalls ?_).mpr ?_
  · refine ⟨?_, trivial, trivial⟩
    rintro _ ⟨⟩
    exact ⟨by decide, by decide, by decide, nofun⟩
  · refine ⟨Or.inr (Or.inl (by decide)), Or.inr ?_, trivial⟩
    unfold Wraps
    decide +kernel

/-- Four MiB of huge pages are asked for; the call succeeds and takes two. -/
theorem not_reserves_hugePages : ¬ smallMachine.Reserves (.mmap 0x400000 1 none) := by
  intro h
  have hgrant : ((smallMachine.mmap 0x400000 1 none).2.2.map fun g => (g.start, g.taken)) =
      some (0x400000, ⟨0x400000, 0x200000⟩) := by decide +kernel
  obtain ⟨g, hg, he⟩ := Option.map_eq_some_iff.mp hgrant
  obtain ⟨hstart, htaken⟩ := Prod.mk.inj he
  have hsub := (h g hg).1
  rw [hstart, htaken, Lib.Range.bytes_subset_iff] at hsub
  exact absurd hsub (by decide)

end MemState

end Reserve

/-! ## Giving memory back -/

section Release

variable {F : Type}

theorem findPid_modifySlot {f : TaskControlBlock F → TaskControlBlock F}
    (hf : ∀ t, (f t).pid = t.pid) (s : Scheduler F) (i : Slot) (pid : TaskId) :
    (s.modifySlot i f).findPid pid = s.findPid pid := by
  unfold findPid
  congr 1
  funext j
  rw [modifySlot_tasks]
  split_ifs
  · cases s.tasks j with
    | none => rfl
    | some t => simp only [Option.map_some, hf]
  · rfl

theorem currentPid_modifySlot {f : TaskControlBlock F → TaskControlBlock F}
    (hf : ∀ t, (f t).pid = t.pid) (s : Scheduler F) (i : Slot) :
    currentPid (s.modifySlot i f) = currentPid s := by
  unfold currentPid
  rw [modifySlot_current, modifySlot_tasks]
  split_ifs
  · cases s.tasks s.current with
    | none => rfl
    | some t => exact hf t
  · rfl

theorem currentPid_addMemoryUsage (s : Scheduler F) (pid : TaskId) (bytes : UInt64) :
    currentPid (addMemoryUsage s pid bytes) = currentPid s := by
  unfold addMemoryUsage
  rcases modifyPid_cases s pid fun t =>
      { t with memoryBytes := saturatingAdd t.memoryBytes bytes } with ⟨-, he⟩ | ⟨i, -, he⟩
  · rw [he]
  · rw [he]
    apply currentPid_modifySlot
    intro t
    rfl

theorem saturatingSub_saturatingAdd_iff (a b : UInt64) :
    saturatingSub (saturatingAdd a b) b = a ↔ a.toNat + b.toNat < 2 ^ 64 := by
  unfold saturatingSub saturatingAdd
  have hb := UInt64.toNat_lt b
  split_ifs with hsum hle hle
  · refine iff_of_true ?_ hsum
    exact UInt64.add_sub_cancel a b
  · refine absurd ?_ hle
    rw [UInt64.le_iff_toNat_le, Lib.Word.toNat_add_of_lt hsum]
    omega
  · refine iff_of_false (fun he => hsum ?_) hsum
    have hmax : (UInt64.ofNat (2 ^ 64 - 1)).toNat = 2 ^ 64 - 1 := by decide
    have hnat := congrArg UInt64.toNat he
    rw [UInt64.toNat_sub_of_le _ _ hle] at hnat
    omega
  · refine absurd ?_ hle
    have hmax : (UInt64.ofNat (2 ^ 64 - 1)).toNat = 2 ^ 64 - 1 := by decide
    rw [UInt64.le_iff_toNat_le]
    omega

/-- The accounts are as before exactly if the sum was not cut off. -/
theorem memoryBytes_restored_iff (s : Scheduler F) (pid : TaskId) (bytes : UInt64) :
    (∀ i, ((subMemoryUsage (addMemoryUsage s pid bytes) pid bytes).tasks i).map (·.memoryBytes) =
        (s.tasks i).map (·.memoryBytes)) ↔
      ∀ i t, s.findPid pid = some i → s.tasks i = some t →
        t.memoryBytes.toNat + bytes.toNat < 2 ^ 64 := by
  unfold subMemoryUsage addMemoryUsage
  cases hfind : s.findPid pid with
  | none =>
    refine iff_of_true (fun i => ?_) nofun
    rw [modifyPid, modifyPid, hfind]
    rw [hfind]
  | some i =>
    obtain ⟨t, ht, -⟩ := findPid_spec hfind
    have hfind' := findPid_modifySlot (f := fun t =>
      { t with memoryBytes := saturatingAdd t.memoryBytes bytes }) (fun _ => rfl) s i pid
    rw [modifyPid, modifyPid, hfind]
    rw [hfind', hfind]
    constructor
    · rintro h _ t' ⟨⟩ ht'
      have hi := h i
      rw [modifySlot_tasks, if_pos rfl, modifySlot_tasks, if_pos rfl, ht'] at hi
      exact (saturatingSub_saturatingAdd_iff _ _).mp (Option.some.inj hi)
    · intro h j
      rw [modifySlot_tasks, modifySlot_tasks]
      by_cases hj : j = i
      · rw [if_pos hj, if_pos hj, hj, ht]
        exact congrArg some ((saturatingSub_saturatingAdd_iff _ _).mpr (h i t rfl ht))
      · rw [if_neg hj, if_neg hj]

namespace MemState

/-- `munmap` of what `mmap` returned goes to the allocator the memory came from, with its layout,
and restores the accounts. -/
def Inverts (k : MemState F) (size flags : UInt64) (answer : Option Lib.Range) : Prop :=
  ∀ g, (k.mmap size flags answer).2.2 = some g →
    (∃ layout, g.origin = .heap layout ∧
      ((k.mmap size flags answer).1.munmap g.address size).2.2 = some (g.address, layout)) ∧
    ∀ i, (((k.mmap size flags answer).1.munmap g.address size).1.sched.tasks i).map
        (·.memoryBytes) = (k.sched.tasks i).map (·.memoryBytes)

/-- The request fails, or it is for the heap, not a multiple of 2 MiB, and the account of the task
does not saturate. -/
def Invertible (k : MemState F) (size flags : UInt64) (answer : Option Lib.Range) : Prop :=
  size = 0 ∨
    if flags &&& 1 ≠ 0 then k.NoHugeRoom
    else layoutOk (roundUp size 64) 64 = false ∨ k.HeapFull answer ∨
      size % 0x200000 ≠ 0 ∧ ∀ i t, k.sched.findPid (currentPid k.sched) = some i →
        k.sched.tasks i = some t → t.memoryBytes.toNat + (roundUp size 64).toNat < 2 ^ 64

variable {k : MemState F} {size flags : UInt64} {answer : Option Lib.Range}

theorem inverts_huge_iff (hsize : size ≠ 0) (hflag : flags &&& 1 ≠ 0) :
    k.Inverts size flags answer ↔ k.NoHugeRoom := by
  rw [← takeFrames_huge_eq_none]
  constructor
  · intro h
    by_contra hsome
    obtain ⟨found, hfound⟩ := Option.ne_none_iff_exists'.mp hsome
    have hgrant : ∃ g, (k.mmap size flags answer).2.2 = some g ∧ g.origin = .frames := by
      rw [mmap, if_neg hsize, if_pos hflag]
      generalize k.takeFrames (.allocHugeFrames 1) = result at hfound ⊢
      obtain ⟨found', k'⟩ := result
      cases hfound
      exact ⟨_, rfl, rfl⟩
    obtain ⟨g, hg, horigin⟩ := hgrant
    obtain ⟨⟨layout, hheap, -⟩, -⟩ := h g hg
    rw [horigin] at hheap
    cases hheap
  · intro hnone g hg
    rw [mmap, if_neg hsize, if_pos hflag] at hg
    generalize k.takeFrames (.allocHugeFrames 1) = result at hnone hg
    obtain ⟨found, k'⟩ := result
    cases hnone
    cases hg

theorem munmap_of_aligned {k : MemState F} {addr : UInt64} (haddr : addr ≠ 0) (hsize : size ≠ 0)
    (halign : size % 0x200000 = 0) {n : UInt64} :
    (k.munmap addr size).2.2 ≠ some (addr, ⟨n, 64⟩) := by
  rw [munmap, if_neg (not_or.mpr ⟨haddr, hsize⟩)]
  simp only [if_pos halign]
  split_ifs
  · intro he
    have halign : (0x200000 : UInt64) = 64 :=
      congrArg (·.align) (Prod.mk.inj (Option.some.inj he)).2
    exact absurd halign (by decide)
  · exact nofun

theorem munmap_of_not_aligned {k : MemState F} {addr : UInt64} (haddr : addr ≠ 0)
    (hsize : size ≠ 0) (halign : ¬ size % 0x200000 = 0)
    (hok : layoutOk (roundUp size 64) 64 = true) :
    (k.munmap addr size).2.2 = some (addr, ⟨roundUp size 64, 64⟩) ∧
      (k.munmap addr size).1.sched =
        subMemoryUsage k.sched (currentPid k.sched) (roundUp size 64) := by
  rw [munmap, if_neg (not_or.mpr ⟨haddr, hsize⟩)]
  simp only [if_neg halign, if_pos hok, and_self]

theorem inverts_heap_iff (hsize : size ≠ 0) (hflag : ¬ flags &&& 1 ≠ 0) :
    k.Inverts size flags answer ↔ layoutOk (roundUp size 64) 64 = false ∨ k.HeapFull answer ∨
      size % 0x200000 ≠ 0 ∧ ∀ i t, k.sched.findPid (currentPid k.sched) = some i →
        k.sched.tasks i = some t → t.memoryBytes.toNat + (roundUp size 64).toNat < 2 ^ 64 := by
  unfold Inverts
  rcases mmap_heap_cases k answer hsize hflag with ⟨hgrant, -, hwhy⟩ |
    ⟨block, rfl, hptr, hok, hgrant, hnew⟩
  · rw [hgrant]
    exact iff_of_true nofun (hwhy.imp_right Or.inl)
  have hfull : ¬ k.HeapFull (some block) := fun hf => hptr (hf block rfl)
  rw [or_iff_right (by simp [hok]), or_iff_right hfull, hgrant, hnew]
  by_cases halign : size % 0x200000 = 0
  · refine iff_of_false (fun h => ?_) fun h => h.1 halign
    obtain ⟨⟨layout, horigin, hfree⟩, -⟩ := h _ rfl
    cases horigin
    exact munmap_of_aligned hptr hsize halign hfree
  · obtain ⟨hfree, hsched⟩ := munmap_of_not_aligned
      hptr hsize halign hok
    have hpid : currentPid (k.account (roundUp size 64)).sched = currentPid k.sched :=
      currentPid_addMemoryUsage k.sched (currentPid k.sched) (roundUp size 64)
    have hrestored := memoryBytes_restored_iff k.sched (currentPid k.sched) (roundUp size 64)
    rw [and_iff_right halign, ← hrestored]
    constructor
    · intro h i
      have hi := (h _ rfl).2 i
      rw [hsched] at hi
      rwa [hpid] at hi
    · rintro h _ ⟨⟩
      refine ⟨⟨_, rfl, hfree⟩, fun i => ?_⟩
      rw [hsched]
      rw [hpid]
      exact h i

/-- `munmap` inverts `mmap` for the sizes and flags that are `Invertible`, and for no others. -/
theorem inverts_mmap_iff (k : MemState F) (size flags : UInt64) (answer : Option Lib.Range) :
    k.Inverts size flags answer ↔ k.Invertible size flags answer := by
  unfold Invertible
  by_cases hsize : size = 0
  · refine iff_of_true (fun g hg => ?_) (Or.inl hsize)
    rw [mmap, if_pos hsize] at hg
    cases hg
  rw [or_iff_right hsize]
  by_cases hflag : flags &&& 1 ≠ 0
  · rw [if_pos hflag]
    exact inverts_huge_iff hsize hflag
  · rw [if_neg hflag]
    exact inverts_heap_iff hsize hflag

/-- A huge page comes from the frame allocator and is given to the heap. -/
theorem not_inverts_hugePage : ¬ smallMachine.Inverts 0x1000 1 none := by
  intro h
  have hgrant : ((smallMachine.mmap 0x1000 1 none).2.2.map (·.origin)) = some .frames := by
    decide +kernel
  obtain ⟨g, hg, horigin⟩ := Option.map_eq_some_iff.mp hgrant
  obtain ⟨⟨layout, hheap, -⟩, -⟩ := h g hg
  rw [horigin] at hheap
  cases hheap

end MemState

end Release

end Aeterna.Sched
