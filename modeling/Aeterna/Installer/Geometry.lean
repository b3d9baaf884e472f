import Mathlib

/-!
# The geometry of the EFI system partition

The computation in `do_install` that picks the cluster size and the size of the file allocation
tables of the FAT32 partition. The table size is the formula for tables of 16-bit entries; with the
32-bit entries of FAT32 a table of `fatSec` sectors has 128 entries in each, about half of what the
clusters need. `covers_iff` is the exact extent of it: the tables are large enough for partitions of
34 to 160 sectors and for no other.
-/

namespace Aeterna.Installer

/-- The reserved sectors at the front of the partition. -/
def rsvd : ℕ := 32

/-- The number of file allocation tables. -/
def nfat : ℕ := 2

def sub32 (a b : ℕ) : ℕ := (a + 2 ^ 32 - b) % 2 ^ 32

/-- The sectors of one table, for clusters of `spc` sectors. -/
def fatSectors (total spc : ℕ) : ℕ :=
  let tmp2 := 256 * spc + nfat
  (sub32 total rsvd + tmp2 - 1) % 2 ^ 32 / tmp2

/-- The first sector of the data region, from the start of the partition. -/
def dataStart (total spc : ℕ) : ℕ := rsvd + fatSectors total spc * nfat

/-- The loop that halves the cluster size until there are enough clusters; `fuel` bounds its
passes. -/
def spcLoop (total : ℕ) : ℕ → ℕ → ℕ
  | 0, s => s
  | fuel + 1, s =>
    if (total - dataStart total s) / s ≥ 65600 ∨ s = 1 then s else spcLoop total fuel (s / 2)

structure Geometry where
  total : ℕ
  spc : ℕ
  fatSec : ℕ
  dataRel : ℕ
  dataClusters : ℕ
  deriving DecidableEq

/-- The geometry of a partition of `espSectors` sectors. -/
def geometry (espSectors : ℕ) : Geometry :=
  let total := espSectors % 2 ^ 32
  let spc := spcLoop total 4 8
  let dataRel := dataStart total spc
  ⟨total, spc, fatSectors total spc, dataRel, sub32 total dataRel / spc⟩

/-- No subtraction of the computation goes below zero. -/
def NoUnderflow (espSectors : ℕ) : Prop :=
  rsvd ≤ (geometry espSectors).total ∧ (geometry espSectors).dataRel ≤ (geometry espSectors).total

instance (espSectors : ℕ) : Decidable (NoUnderflow espSectors) :=
  inferInstanceAs (Decidable (_ ∧ _))

/-- The sector of a table that holds the entry of cluster `c`, as `write_chain` computes it. -/
def entrySector (c : ℕ) : ℕ := c * 4 / 512

/-- Each table has an entry for every cluster, so that none of them is in another place. -/
def Geometry.Covers (g : Geometry) : Prop :=
  g.dataClusters + 2 ≤ 128 * g.fatSec ∧
    ∀ c, 2 ≤ c → c < g.dataClusters + 2 → entrySector c < g.fatSec

theorem Geometry.covers_of_le {g : Geometry} (h : g.dataClusters + 2 ≤ 128 * g.fatSec) :
    g.Covers := by
  refine ⟨h, fun c _ hc => ?_⟩
  unfold entrySector
  omega

/-- What the loop stops at: a cluster size that gives enough clusters, or the smallest. -/
theorem spcLoop_cases (total : ℕ) :
    (∃ s ∈ [8, 4, 2], spcLoop total 4 8 = s ∧ 65600 ≤ (total - dataStart total s) / s) ∨
      spcLoop total 4 8 = 1 := by
  simp only [spcLoop, Nat.reduceDiv, or_true, if_true]
  split_ifs with h8 h4 h2
  · exact Or.inl ⟨8, by simp, rfl, h8.resolve_right (by decide)⟩
  · exact Or.inl ⟨4, by simp, rfl, h4.resolve_right (by decide)⟩
  · exact Or.inl ⟨2, by simp, rfl, h2.resolve_right (by decide)⟩
  · exact Or.inr rfl

theorem sub32_of_le {a b : ℕ} (h : b ≤ a) (ha : a < 2 ^ 32) : sub32 a b = a - b := by
  unfold sub32
  omega

theorem fatSectors_eq {total : ℕ} (htotal : total < 2 ^ 32) (hrsvd : rsvd ≤ total) (spc : ℕ) :
    fatSectors total spc =
      (total - 32 + (256 * spc + 2) - 1) % 2 ^ 32 / (256 * spc + 2) := by
  rw [fatSectors, sub32_of_le hrsvd htotal]
  rfl

/-- With more than one sector in a cluster the tables are too small: they have entries for about
half of the clusters. -/
theorem not_le_of_large {total s : ℕ} (hs : s ∈ [8, 4, 2]) (htotal : total < 2 ^ 32)
    (hrsvd : rsvd ≤ total) (hdata : dataStart total s ≤ total)
    (hclusters : 65600 ≤ (total - dataStart total s) / s) :
    ¬ sub32 total (dataStart total s) / s + 2 ≤ 128 * fatSectors total s := by
  rw [sub32_of_le hdata htotal]
  have hfat := fatSectors_eq htotal hrsvd s
  unfold dataStart rsvd nfat at *
  generalize fatSectors total s = f at *
  simp only [List.mem_cons, List.not_mem_nil, or_false] at hs
  rcases hs with rfl | rfl | rfl <;> omega

/-- With one sector in a cluster they are large enough for 2 to 128 sectors behind the reserved
ones. -/
theorem le_iff_of_one {total : ℕ} (htotal : total < 2 ^ 32) (hrsvd : rsvd ≤ total)
    (hdata : dataStart total 1 ≤ total) :
    sub32 total (dataStart total 1) / 1 + 2 ≤ 128 * fatSectors total 1 ↔
      34 ≤ total ∧ total ≤ 160 := by
  rw [sub32_of_le hdata htotal]
  have hfat := fatSectors_eq htotal hrsvd 1
  unfold dataStart rsvd nfat at *
  generalize fatSectors total 1 = f at *
  omega

/-- The tables cover the clusters exactly if the partition has 34 to 160 sectors. -/
theorem covers_iff {espSectors : ℕ} (h : NoUnderflow espSectors) :
    (geometry espSectors).Covers ↔ 34 ≤ espSectors % 2 ^ 32 ∧ espSectors % 2 ^ 32 ≤ 160 := by
  obtain ⟨hrsvd, hdata⟩ := h
  have htotal : espSectors % 2 ^ 32 < 2 ^ 32 := Nat.mod_lt _ (by decide)
  unfold geometry Geometry.Covers at *
  dsimp only at *
  generalize espSectors % 2 ^ 32 = total at *
  rcases spcLoop_cases total with ⟨s, hs, hspc, hclusters⟩ | hspc
  · rw [hspc] at hdata ⊢
    have hfail := not_le_of_large hs htotal hrsvd hdata hclusters
    constructor
    · rintro ⟨hle, -⟩
      exact absurd hle hfail
    · rintro ⟨-, hsmall⟩
      have hpos : (total - dataStart total s) / s ≤ total :=
        Nat.le_trans (Nat.div_le_self _ _) (Nat.sub_le _ _)
      omega
  · rw [hspc] at hdata ⊢
    have hiff := le_iff_of_one htotal hrsvd hdata
    constructor
    · rintro ⟨hle, -⟩
      exact hiff.mp hle
    · intro hsize
      exact Geometry.covers_of_le
        (g := ⟨total, 1, fatSectors total 1, dataStart total 1,
          sub32 total (dataStart total 1) / 1⟩) (hiff.mpr hsize)

/-- A partition of 100 sectors. -/
theorem covers_hundredSectors : (geometry 100).Covers :=
  (covers_iff (by decide)).mpr (by decide)

/-- The recommended partition of 256 MiB has 130808 clusters and tables of 65408 entries. -/
theorem not_covers_recommended : NoUnderflow (256 * 2048) ∧ ¬ (geometry (256 * 2048)).Covers := by
  refine ⟨by decide, ?_⟩
  rintro ⟨hle, -⟩
  revert hle
  decide

end Aeterna.Installer
