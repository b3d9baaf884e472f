import Mathlib

/-!
# Partitions as block devices

`PartitionDevice` of `drivers/block.rs`: a request relative to a partition is checked against its
size and goes to the disk behind it. The check adds without looking at the overflow, so that a
request far beyond the end can reach the sectors before the partition (`confined_iff`).
-/

namespace Aeterna.Drivers.Block

structure PartitionDevice where
  startLba : UInt64
  sizeLba : UInt64
  ss : UInt64

/-- What the disk is asked for. It goes through its sectors in order, in batches. -/
inductive Command where
  | readSectors (lba : UInt64) (count : UInt32)
  | writeSectors (lba : UInt64) (count : UInt32)
  deriving DecidableEq

def Command.sectors : Command → List UInt64
  | readSectors lba count | writeSectors lba count =>
    (List.range count.toNat).map fun i => lba + UInt64.ofNat i

/-- The request for a buffer of `len` bytes that is passed on, if any; a partition without a sector
size stops the kernel at the division. -/
def PartitionDevice.forward (command : UInt64 → UInt32 → Command) (p : PartitionDevice)
    (relativeLba len : UInt64) : Option Command :=
  if p.ss = 0 then none
  else if relativeLba + len / p.ss > p.sizeLba then none
  else some (command (p.startLba + relativeLba) (len / p.ss).toUInt32)

def PartitionDevice.read : PartitionDevice → UInt64 → UInt64 → Option Command :=
  forward .readSectors

def PartitionDevice.write : PartitionDevice → UInt64 → UInt64 → Option Command :=
  forward .writeSectors

/-- A read or write that is passed on touches only sectors of the partition. -/
def Confined (p : PartitionDevice) (relativeLba len : UInt64) : Prop :=
  ∀ command, p.read relativeLba len = some command ∨ p.write relativeLba len = some command →
    ∀ lba ∈ command.sectors, p.startLba ≤ lba ∧ lba.toNat < p.startLba.toNat + p.sizeLba.toNat

/-- The request is passed on, with the sum that is checked taken modulo `2 ^ 64`. -/
def Accepted (p : PartitionDevice) (relativeLba len : UInt64) : Prop :=
  p.ss ≠ 0 ∧ relativeLba + len / p.ss ≤ p.sizeLba

theorem forward_eq_some_iff {command : UInt64 → UInt32 → Command} {p : PartitionDevice}
    {relativeLba len : UInt64} {c : Command} :
    p.forward command relativeLba len = some c ↔ Accepted p relativeLba len ∧
      command (p.startLba + relativeLba) (len / p.ss).toUInt32 = c := by
  unfold PartitionDevice.forward Accepted
  split_ifs with hss hsize
  · exact iff_of_false nofun fun h => h.1.1 hss
  · exact iff_of_false nofun fun h => UInt64.not_lt.mpr h.1.2 hsize
  · rw [Option.some.injEq, and_iff_right ⟨hss, UInt64.not_lt.mp hsize⟩]

/-- A sector of the request lies in the partition when its distance from the start, modulo `2 ^ 64`,
is below the size. -/
theorem mem_partition_iff {start size rel : UInt64} {i : ℕ}
    (hfit : start.toNat + size.toNat < 2 ^ 64) :
    start ≤ start + rel + UInt64.ofNat i ∧
        (start + rel + UInt64.ofNat i).toNat < start.toNat + size.toNat ↔
      (rel.toNat + i) % 2 ^ 64 < size.toNat := by
  have hsum : (start + rel + UInt64.ofNat i).toNat =
      (start.toNat + (rel.toNat + i)) % 2 ^ 64 := by
    rw [UInt64.toNat_add, UInt64.toNat_add, UInt64.toNat_ofNat']
    omega
  rw [UInt64.le_iff_toNat_le, hsum]
  omega

theorem confined_iff_forall (p : PartitionDevice)
    (hfit : p.startLba.toNat + p.sizeLba.toNat < 2 ^ 64) (relativeLba len : UInt64) :
    Confined p relativeLba len ↔ (Accepted p relativeLba len →
      ∀ i < (len / p.ss).toUInt32.toNat, (relativeLba.toNat + i) % 2 ^ 64 < p.sizeLba.toNat) := by
  unfold Confined PartitionDevice.read PartitionDevice.write
  simp only [forward_eq_some_iff, ← and_or_left]
  constructor
  · intro h haccepted i hi
    rw [← mem_partition_iff hfit]
    exact h _ ⟨haccepted, Or.inl rfl⟩ _ (List.mem_map.mpr ⟨i, List.mem_range.mpr hi, rfl⟩)
  · rintro h _ ⟨haccepted, rfl | rfl⟩ lba hlba
    all_goals
      obtain ⟨i, hi, rfl⟩ := List.mem_map.mp hlba
      exact (mem_partition_iff hfit).mpr (h haccepted i (List.mem_range.mp hi))

/-- **Confinement.** On a partition that ends below `2 ^ 64` a request stays inside exactly when it
is refused, or no sector is left of its count in 32 bits, or these sectors end within the
partition. -/
theorem confined_iff (p : PartitionDevice) (hfit : p.startLba.toNat + p.sizeLba.toNat < 2 ^ 64)
    (relativeLba len : UInt64) :
    Confined p relativeLba len ↔ ¬Accepted p relativeLba len ∨ (len / p.ss).toUInt32.toNat = 0 ∨
      relativeLba.toNat + (len / p.ss).toUInt32.toNat ≤ p.sizeLba.toNat := by
  rw [confined_iff_forall p hfit, imp_iff_not_or]
  refine or_congr_right ?_
  generalize (len / p.ss).toUInt32.toNat = count
  have hrel := relativeLba.toNat_lt
  constructor
  · intro h
    by_contra hneither
    rw [not_or, Nat.not_le] at hneither
    -- The first sector is inside, so the one at the end of the partition is reached without a wrap.
    have hfirst := h 0 (Nat.pos_of_ne_zero hneither.1)
    have hend := h (p.sizeLba.toNat - relativeLba.toNat) (by omega)
    omega
  · rintro (hzero | hle) i hi
    · omega
    · omega

/-- A request that starts one sector before the partition. -/
theorem not_confined_wrap : ¬Confined ⟨2048, 100, 512⟩ 0xFFFFFFFFFFFFFFFF 512 := by
  intro h
  have hbefore := h (.readSectors 2047 1) (by decide) 2047 (by decide)
  exact absurd hbefore.1 (by decide)

theorem confined_iff_inside : Confined ⟨2048, 100, 512⟩ 99 512 :=
  (confined_iff ⟨2048, 100, 512⟩ (by decide) 99 512).mpr (Or.inr (Or.inr (by decide)))

end Aeterna.Drivers.Block
