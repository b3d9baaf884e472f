import Aeterna.Lib.Run
import Aeterna.Lib.Word

/-!
# The physical frame allocator

The allocator of `mm/physical`: `init` copies the usable entries of the boot memory map and puts
the bump pointer at the first large enough region above 1 MiB, and `allocFrame`, `allocFrames` and
`allocHugeFrames` move the pointer forward through the regions in the order of the map. Addresses
are `u64` and wrap as in a build without overflow checks; `NoOverflow` says that a call's address
arithmetic stays in range.
-/

namespace Aeterna.Mm

def frameSize : UInt64 := 4096

def hugeFrameSize : UInt64 := 2 * 1024 * 1024

def maxRegions : ℕ := 64

/-- The type of a usable entry of the memory map. -/
def memmapUsable : UInt64 := 0

structure MemmapEntry where
  base : UInt64
  length : UInt64
  typ : UInt64
  deriving DecidableEq, Repr

/-- A contiguous region of usable physical memory. -/
structure PhysRegion where
  base : UInt64
  length : UInt64
  deriving DecidableEq, Repr

def PhysRegion.stop (r : PhysRegion) : UInt64 := r.base + r.length

/-- The statics of the allocator; `regions` is the used part of `REGIONS`. -/
structure Pmm where
  regions : List PhysRegion
  totalMemory : UInt64
  usableMemory : UInt64
  nextFreeFrame : UInt64
  framesAllocated : UInt64
  deriving DecidableEq, Repr

namespace Pmm

/-! ## Initialisation -/

def boot : Pmm := ⟨[], 0, 0, 0, 0⟩

/-- One round of the loop over the memory map. -/
def addEntry (s : Pmm) (e : MemmapEntry) : Pmm :=
  let s := { s with totalMemory := s.totalMemory + e.length }
  if e.typ = memmapUsable then
    let s := { s with usableMemory := s.usableMemory + e.length }
    if s.regions.length < maxRegions then
      { s with regions := s.regions ++ [⟨e.base, e.length⟩] }
    else s
  else s

/-- A region that `init` accepts as the place of the bump pointer. -/
def startsHigh (r : PhysRegion) : Bool := 0x100000 ≤ r.base && frameSize ≤ r.length

/-- `init`; `memmap` is what the boot loader answered. -/
def init (s : Pmm) (memmap : Option (List MemmapEntry)) : Pmm :=
  match memmap with
  | none => s
  | some entries =>
    let s' := entries.foldl addEntry { s with regions := [], totalMemory := 0, usableMemory := 0 }
    match s'.regions.find? startsHigh with
    | some r => { s' with nextFreeFrame := r.base }
    | none => s'

/-! ## Allocation -/

/-- Take `bytes` from `start`, which counts as `frames` frames. -/
def take (s : Pmm) (start bytes frames : UInt64) : Pmm :=
  { s with
    nextFreeFrame := start + bytes
    framesAllocated := s.framesAllocated + frames }

/-- The loop of `alloc_frame` over the remaining regions. A region above the pointer moves the
pointer to its base even when the frame does not fit there. -/
def allocFrameFrom (s : Pmm) : List PhysRegion → Option UInt64 × Pmm
  | [] => (none, s)
  | r :: rs =>
    if r.base ≤ s.nextFreeFrame ∧ s.nextFreeFrame + frameSize ≤ r.stop then
      (some s.nextFreeFrame, s.take s.nextFreeFrame frameSize 1)
    else if s.nextFreeFrame < r.base then
      let s := { s with nextFreeFrame := r.base }
      if s.nextFreeFrame + frameSize ≤ r.stop then
        (some s.nextFreeFrame, s.take s.nextFreeFrame frameSize 1)
      else allocFrameFrom s rs
    else allocFrameFrom s rs

def allocFrame (s : Pmm) : Option UInt64 × Pmm := s.allocFrameFrom s.regions

/-- The loop of `alloc_frames` and `alloc_huge_frames`: the first region in which `bytes` bytes fit
from the start that `startIn` chooses there. -/
def firstFit (startIn : PhysRegion → UInt64) (bytes : UInt64) : List PhysRegion → Option UInt64
  | [] => none
  | r :: rs => if startIn r + bytes ≤ r.stop then some (startIn r) else firstFit startIn bytes rs

theorem firstFit_eq_none {startIn : PhysRegion → UInt64} {bytes : UInt64} {rs : List PhysRegion} :
    firstFit startIn bytes rs = none ↔ ∀ r ∈ rs, ¬ startIn r + bytes ≤ r.stop := by
  induction rs with
  | nil => simp [firstFit]
  | cons r rs ih =>
    rw [firstFit, List.forall_mem_cons, ← ih]
    split
    · rename_i h
      simp [h]
    · rename_i h
      simp [h]

theorem exists_of_firstFit {startIn : PhysRegion → UInt64} {bytes a : UInt64}
    {rs : List PhysRegion} (h : firstFit startIn bytes rs = some a) :
    ∃ r ∈ rs, a = startIn r ∧ startIn r + bytes ≤ r.stop := by
  induction rs with
  | nil => cases h
  | cons r rs ih =>
    rw [firstFit] at h
    split_ifs at h with hfit
    · cases h
      exact ⟨r, List.mem_cons_self, rfl, hfit⟩
    · obtain ⟨q, hq, he⟩ := ih h
      exact ⟨q, List.mem_cons_of_mem r hq, he⟩

def allocRun (s : Pmm) (startIn : PhysRegion → UInt64) (bytes frames : UInt64) :
    Option UInt64 × Pmm :=
  match firstFit startIn bytes s.regions with
  | some start => (some start, s.take start bytes frames)
  | none => (none, s)

/-- Where `alloc_frames` starts in a region. -/
def frameStart (s : Pmm) (r : PhysRegion) : UInt64 :=
  if r.base ≤ s.nextFreeFrame then s.nextFreeFrame else r.base

def allocFrames (s : Pmm) (count : UInt64) : Option UInt64 × Pmm :=
  s.allocRun s.frameStart (count * frameSize) count

/-- Where `alloc_huge_frames` starts in a region. -/
def hugeStart (s : Pmm) (r : PhysRegion) : UInt64 :=
  let start := Lib.Word.alignUp hugeFrameSize s.nextFreeFrame
  if r.base ≤ start then start else Lib.Word.alignUp hugeFrameSize r.base

def allocHugeFrames (s : Pmm) (count : UInt64) : Option UInt64 × Pmm :=
  s.allocRun s.hugeStart (count * hugeFrameSize) (count * (hugeFrameSize / frameSize))

end Pmm

/-! ## Runs of calls -/

inductive Call where
  | allocFrame
  | allocFrames (count : UInt64)
  | allocHugeFrames (count : UInt64)
  deriving DecidableEq, Repr

def Call.bytes : Call → UInt64
  | .allocFrame => frameSize
  | .allocFrames count => count * frameSize
  | .allocHugeFrames count => count * hugeFrameSize

def Call.align : Call → ℕ
  | .allocHugeFrames _ => 2 ^ 21
  | _ => 2 ^ 12

def Pmm.call (s : Pmm) : Call → Option UInt64 × Pmm
  | .allocFrame => s.allocFrame
  | .allocFrames count => s.allocFrames count
  | .allocHugeFrames count => s.allocHugeFrames count

/-- The allocator and the calls that succeeded, with the address each of them returned. -/
structure Book where
  pmm : Pmm
  grants : List (Call × UInt64)
  deriving DecidableEq, Repr

namespace Book

/-- The state after `init` on a fresh kernel. -/
def start (memmap : List MemmapEntry) : Book := ⟨Pmm.boot.init (some memmap), []⟩

def step (b : Book) (c : Call) : Book :=
  match b.pmm.call c with
  | (some a, pmm) => ⟨pmm, b.grants ++ [(c, a)]⟩
  | (none, pmm) => ⟨pmm, b.grants⟩

end Book

/-! ## Arithmetic that stays in range

The conditions follow the loops: only what the code evaluates is asked to stay below `2 ^ 64`. -/

def AddFits (a b : UInt64) : Prop := a.toNat + b.toNat < 2 ^ 64

instance (a b : UInt64) : Decidable (AddFits a b) :=
  inferInstanceAs (Decidable (a.toNat + b.toNat < 2 ^ 64))

namespace Pmm

/-- The sums of `alloc_frame`. -/
def FrameFits (next : UInt64) : List PhysRegion → Prop
  | [] => True
  | r :: rs => AddFits r.base r.length ∧
    if r.base ≤ next then
      AddFits next frameSize ∧ (¬ next + frameSize ≤ r.stop → FrameFits next rs)
    else
      AddFits r.base frameSize ∧ (¬ r.base + frameSize ≤ r.stop → FrameFits r.base rs)

/-- The sums of `firstFit`; `guard` is what the choice of the start evaluates. -/
def FirstFits (guard : PhysRegion → Prop) (startIn : PhysRegion → UInt64) (bytes : UInt64) :
    List PhysRegion → Prop
  | [] => True
  | r :: rs => AddFits r.base r.length ∧ guard r ∧ AddFits (startIn r) bytes ∧
    (¬ startIn r + bytes ≤ r.stop → FirstFits guard startIn bytes rs)

/-- The sums of `hugeStart`. -/
def HugeStartFits (s : Pmm) (r : PhysRegion) : Prop :=
  AddFits s.nextFreeFrame hugeFrameSize ∧
    (Lib.Word.alignUp hugeFrameSize s.nextFreeFrame < r.base → AddFits r.base hugeFrameSize)

/-- No address or byte count that the call computes overflows. -/
def NoOverflow (s : Pmm) : Call → Prop
  | .allocFrame => FrameFits s.nextFreeFrame s.regions
  | .allocFrames count => count.toNat * frameSize.toNat < 2 ^ 64 ∧
      FirstFits (fun _ => True) s.frameStart (count * frameSize) s.regions
  | .allocHugeFrames count => count.toNat * hugeFrameSize.toNat < 2 ^ 64 ∧
      FirstFits s.HugeStartFits s.hugeStart (count * hugeFrameSize) s.regions

instance decFrameFits (next : UInt64) : (rs : List PhysRegion) → Decidable (FrameFits next rs)
  | [] => inferInstanceAs (Decidable True)
  | r :: rs =>
    have := decFrameFits next rs
    have := decFrameFits r.base rs
    inferInstanceAs (Decidable (_ ∧ ite _ _ _))

instance decFirstFits (guard : PhysRegion → Prop) [DecidablePred guard]
    (startIn : PhysRegion → UInt64) (bytes : UInt64) :
    (rs : List PhysRegion) → Decidable (FirstFits guard startIn bytes rs)
  | [] => inferInstanceAs (Decidable True)
  | _ :: rs =>
    have := decFirstFits guard startIn bytes rs
    inferInstanceAs (Decidable (_ ∧ _ ∧ _ ∧ (_ → _)))

instance (s : Pmm) : DecidablePred s.HugeStartFits :=
  fun _ => inferInstanceAs (Decidable (_ ∧ (_ → _)))

instance (s : Pmm) : (c : Call) → Decidable (s.NoOverflow c)
  | .allocFrame => decFrameFits s.nextFreeFrame s.regions
  | .allocFrames _ => inferInstanceAs (Decidable (_ ∧ FirstFits _ _ _ _))
  | .allocHugeFrames _ => inferInstanceAs (Decidable (_ ∧ FirstFits _ _ _ _))

end Pmm

end Aeterna.Mm
