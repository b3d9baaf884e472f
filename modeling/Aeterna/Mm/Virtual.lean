import Aeterna.Lib.Radix
import Aeterna.Mm.FrameSource

/-!
# Page tables

The four-level page tables of `mm/virtual`. Physical memory is seen as tables of 512 entries at
frame addresses, which is all that the functions here read and write through the direct map;
`mapPage` allocates missing tables, `unmapPage` clears a leaf, `translate` walks, and
`createAddressSpace` and `syncKernelMappings` copy the upper half of the top-level table.
-/

namespace Aeterna.Mm

/-! ## Entries -/

def flagPresent : UInt64 := 1

def flagWritable : UInt64 := 2

def flagUser : UInt64 := 4

def flagHuge : UInt64 := 0x80

abbrev PageTableEntry := UInt64

namespace PageTableEntry

def isPresent (e : PageTableEntry) : Bool := e &&& flagPresent != 0

def isHuge (e : PageTableEntry) : Bool := e &&& flagHuge != 0

def addr (e : PageTableEntry) : UInt64 := e &&& addrMask

/-- The entry that `set` stores. -/
def mk (physAddr flags : UInt64) : PageTableEntry := (physAddr &&& addrMask) ||| flags

end PageTableEntry

/-- The index of an entry in a table. -/
abbrev Index := Fin 512

/-- The tables in physical memory, by frame address. -/
abbrev Memory := UInt64 → Index → PageTableEntry

def emptyTable : Index → PageTableEntry := fun _ => 0

/-! ## Addresses -/

/-- The nine bits of a virtual address from bit `shift` on. -/
def indexAt (virt shift : UInt64) : Index := Fin.ofNat 512 ((virt >>> shift) &&& 0x1FF).toNat

def pml4Index (virt : UInt64) : Index := indexAt virt 39

def pdptIndex (virt : UInt64) : Index := indexAt virt 30

def pdIndex (virt : UInt64) : Index := indexAt virt 21

def ptIndex (virt : UInt64) : Index := indexAt virt 12

def pageOffset (virt : UInt64) : UInt64 := virt &&& 0xFFF

/-- The statics of the manager, CR3 and the memory it works on. -/
structure Vmm (σ : Type) where
  mem : Memory
  frames : σ
  cr3 : UInt64
  kernelPml4 : UInt64

def translate (mem : Memory) (pml4 virt : UInt64) : Option UInt64 :=
  let e4 := mem pml4 (pml4Index virt)
  if !e4.isPresent then none else
  let e3 := mem e4.addr (pdptIndex virt)
  if !e3.isPresent then none else
  if e3.isHuge then some (e3.addr + (virt &&& 0x3FFFFFFF)) else
  let e2 := mem e3.addr (pdIndex virt)
  if !e2.isPresent then none else
  if e2.isHuge then some (e2.addr + (virt &&& 0x1FFFFF)) else
  let e1 := mem e2.addr (ptIndex virt)
  if !e1.isPresent then none else
  some (e1.addr + pageOffset virt)

namespace Vmm

variable {σ : Type}

def readCr3 (s : Vmm σ) : UInt64 := s.cr3 &&& addrMask

/-- `init`: the boot table becomes the source of the kernel half. -/
def init (s : Vmm σ) : Vmm σ := { s with kernelPml4 := s.readCr3 }

def writeCr3 (s : Vmm σ) (pml4 : UInt64) : Vmm σ := { s with cr3 := pml4 }

def setEntry (s : Vmm σ) (table : UInt64) (i : Index) (e : PageTableEntry) : Vmm σ :=
  { s with mem := Lib.Radix.setEntry s.mem table i e }

/-- The row of `dst` after its entries 256 to 511 have been copied from `src`. -/
def copyUpper (dst src : Index → PageTableEntry) : Index → PageTableEntry :=
  fun i => if 256 ≤ i.val then src i else dst i

def unmapPage (s : Vmm σ) (pml4 virt : UInt64) : Option UInt64 × Vmm σ :=
  let e4 := s.mem pml4 (pml4Index virt)
  if !e4.isPresent then (none, s) else
  let e3 := s.mem e4.addr (pdptIndex virt)
  if !e3.isPresent || e3.isHuge then (none, s) else
  let e2 := s.mem e3.addr (pdIndex virt)
  if !e2.isPresent || e2.isHuge then (none, s) else
  let e1 := s.mem e2.addr (ptIndex virt)
  if !e1.isPresent then (none, s) else
  (some e1.addr, s.setEntry e2.addr (ptIndex virt) 0)

/-- The table whose upper half a new address space gets. -/
def kernelSource (s : Vmm σ) : UInt64 := if s.kernelPml4 ≠ 0 then s.kernelPml4 else s.readCr3

def syncKernelMappings (s : Vmm σ) (task : UInt64) : Vmm σ :=
  if s.kernelPml4 = 0 ∨ task = s.kernelPml4 then s
  else { s with
    mem := Lib.Radix.setRow s.mem task (copyUpper (s.mem task) (s.mem s.kernelPml4)) }

variable [FrameSource σ]

def allocTableFrame (s : Vmm σ) : Option UInt64 × Vmm σ :=
  match FrameSource.allocFrame s.frames with
  | (some f, frames) =>
    (some f, { s with mem := Lib.Radix.setRow s.mem f emptyTable, frames := frames })
  | (none, frames) => (none, { s with frames := frames })

/-- The step of `map_page` at one table: allocate the table that entry `i` should point to if the
entry is not present. The answer is false when there is no frame for it. -/
def ensureTable (s : Vmm σ) (table : UInt64) (i : Index) : Bool × Vmm σ :=
  if !(s.mem table i).isPresent then
    match s.allocTableFrame with
    | (some f, s) => (true, s.setEntry table i (.mk f (flagPresent ||| flagWritable ||| flagUser)))
    | (none, s) => (false, s)
  else (true, s)

def mapPage (s : Vmm σ) (pml4 virt phys flags : UInt64) : Bool × Vmm σ :=
  let flags := flags ||| flagPresent
  match s.ensureTable pml4 (pml4Index virt) with
  | (false, s) => (false, s)
  | (true, s) =>
    let pdpt := (s.mem pml4 (pml4Index virt)).addr
    match s.ensureTable pdpt (pdptIndex virt) with
    | (false, s) => (false, s)
    | (true, s) =>
      if (s.mem pdpt (pdptIndex virt)).isHuge then (false, s) else
      let pd := (s.mem pdpt (pdptIndex virt)).addr
      match s.ensureTable pd (pdIndex virt) with
      | (false, s) => (false, s)
      | (true, s) =>
        if (s.mem pd (pdIndex virt)).isHuge then (false, s) else
        let pt := (s.mem pd (pdIndex virt)).addr
        (true, s.setEntry pt (ptIndex virt) (.mk phys flags))

/-- `map_page_current`; the TLB is not modelled. -/
def mapPageCurrent (s : Vmm σ) (virt phys flags : UInt64) : Bool × Vmm σ :=
  s.mapPage s.readCr3 virt phys flags

def createAddressSpace (s : Vmm σ) : Option UInt64 × Vmm σ :=
  match s.allocTableFrame with
  | (none, s) => (none, s)
  | (some new, s) =>
    (some new, { s with
      mem := Lib.Radix.setRow s.mem new (copyUpper (s.mem new) (s.mem s.kernelSource)) })

end Vmm

end Aeterna.Mm
