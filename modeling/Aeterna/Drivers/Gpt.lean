import Aeterna.Lib.Buffer
import Aeterna.Lib.Bytes

/-!
# The GUID partition table

`drivers/gpt.rs`: the protective record in sector 0, the header in sector 1 or, if that one is bad,
in the last sector, and the entries. The table that is found goes to one global array, whatever disk
it was read from; `parse` is what is read, the tools say where it goes.

The slices of the source that can be out of bounds stop the kernel; `none` is that outcome. It is
met by headers that claim to be longer than 92 bytes and by entries that the buffer cannot hold
(`total_iff`). The partitions found fit the global array (`length_le_of_parse`).
-/

namespace Aeterna.Drivers.Gpt

open Lib.Bytes Lib.Buffer

/-- A disk: its sectors, of which the first `total` exist. -/
structure Disk (n : ℕ) where
  sectors : Device n
  total : ℕ

def Disk.readSectors {n : ℕ} (d : Disk n) (lba count : ℕ) : Option (List UInt8) :=
  if lba + count ≤ d.total then some (d.sectors.read lba count) else none

/-- A partition of the table; `index` is its place among those in use. -/
structure GptPartition where
  index : ℕ
  typeGuid : List UInt8
  partGuid : List UInt8
  startLba : ℕ
  endLba : ℕ
  attributes : ℕ
  name : List Char
  deriving DecidableEq

def gptSignature : ℕ := 0x5452415020494645
def gptHeaderSize : ℕ := 92

def crcBit (crc : UInt32) : UInt32 :=
  if crc &&& 1 ≠ 0 then (crc >>> 1) ^^^ 0xEDB88320 else crc >>> 1

def crcByte (crc : UInt32) (byte : UInt8) : UInt32 :=
  (List.range 8).foldl (fun crc _ => crcBit crc) (crc ^^^ byte.toUInt32)

def crc32 (data : List UInt8) : UInt32 := ~~~ data.foldl crcByte 0xFFFFFFFF

structure GptHeader where
  partEntryLba : ℕ
  numPartEntries : ℕ
  partEntrySize : ℕ

/-- The header in a sector, if signature, size and checksum are right. The copy for the checksum is
as long as the header says. -/
def parseGptHeader (buf : List UInt8) : Option (Option GptHeader) :=
  if buf.length < 92 then some none
  else if leValue (slice buf 0 8) ≠ gptSignature then some none
  else if leValue (slice buf 12 4) < gptHeaderSize then some none
  else
    let copyLen := min (leValue (slice buf 12 4)) 512
    if copyLen > buf.length then none
    else if crc32 (splice (buf.take copyLen) 16 [0, 0, 0, 0]) ≠
        UInt32.ofNat (leValue (slice buf 16 4)) then some none
    else some (some ⟨leValue (slice buf 72 8), leValue (slice buf 80 4), leValue (slice buf 84 4)⟩)

/-- The text of 16-bit characters, up to a zero; half of a surrogate pair becomes a question
mark. -/
def utf16leToString : List UInt8 → List Char
  | a :: b :: rest =>
    let code := leValue [a, b]
    if code = 0 then []
    else (if code < 0xD800 ∨ 0xDFFF < code then Char.ofNat code else '?') :: utf16leToString rest
  | _ => []

/-- An entry in use: its type is not all zeros. -/
def parseEntry (entry : List UInt8) : Option GptPartition :=
  if (slice entry 0 16).all (· == 0) then none
  else some {
    index := 0
    typeGuid := slice entry 0 16
    partGuid := slice entry 16 16
    startLba := leValue (slice entry 32 8)
    endLba := leValue (slice entry 40 8)
    attributes := leValue (slice entry 48 8)
    name := utf16leToString (slice entry 56 72) }

def parseEntries (entries : List (List UInt8)) : List GptPartition :=
  (entries.filterMap parseEntry).mapIdx fun i part => { part with index := i }

/-- The partitions that the header points to. At most 128 entries are read, through a buffer of 33
times 512 bytes; a wrong checksum of the entries is only reported. -/
def parseFromHeader {n : ℕ} (d : Disk n) (hdr : GptHeader) : Option (Option (List GptPartition)) :=
  if hdr.partEntrySize < 128 ∨ hdr.partEntrySize > 512 then some none
  else
    let totalEntries := min hdr.numPartEntries 128
    let sectorsNeeded := min ((totalEntries * hdr.partEntrySize + n - 1) / n) 33
    if sectorsNeeded * n > 33 * 512 then none
    else match d.readSectors hdr.partEntryLba sectorsNeeded with
    | none => some none
    | some buf =>
      if totalEntries * hdr.partEntrySize > buf.length then none
      else some (some (parseEntries ((List.range totalEntries).map fun i =>
        slice buf (i * hdr.partEntrySize) hdr.partEntrySize)))

/-- The partitions under the header in sector `lba`. -/
def parseAt {n : ℕ} (d : Disk n) (lba : ℕ) : Option (Option (List GptPartition)) :=
  match d.readSectors lba 1 with
  | none => some none
  | some header =>
    match parseGptHeader (header.take 92) with
    | none => none
    | some none => some none
    | some (some hdr) => parseFromHeader d hdr

/-- The partitions of a disk, if it has a table; the backup header is tried after the primary one. -/
def parse {n : ℕ} (d : Disk n) : Option (Option (List GptPartition)) :=
  match d.readSectors 0 1 with
  | none => some none
  | some sector =>
    if sector.getD 0x1C2 0 ≠ 0xEE then some none
    else if d.readSectors 1 1 = none then some none
    else match parseAt d 1 with
    | none => none
    | some (some parts) => some (some parts)
    | some none => if d.total > 34 then parseAt d (d.total - 1) else some none

theorem length_le_of_parseFromHeader {n : ℕ} {d : Disk n} {hdr : GptHeader}
    {parts : List GptPartition} (h : parseFromHeader d hdr = some (some parts)) :
    parts.length ≤ 128 := by
  unfold parseFromHeader at h
  by_cases hsize : hdr.partEntrySize < 128 ∨ hdr.partEntrySize > 512
  · rw [if_pos hsize] at h
    cases h
  · rw [if_neg hsize] at h
    dsimp only at h
    split_ifs at h
    split at h
    · cases h
    · split_ifs at h
      cases h
      rw [parseEntries, List.length_mapIdx]
      refine (List.length_filterMap_le _ _).trans ?_
      rw [List.length_map, List.length_range]
      exact Nat.min_le_right _ _

theorem length_le_of_parseAt {n : ℕ} {d : Disk n} {lba : ℕ} {parts : List GptPartition}
    (h : parseAt d lba = some (some parts)) : parts.length ≤ 128 := by
  unfold parseAt at h
  split at h
  · cases h
  · split at h
    · cases h
    · cases h
    · exact length_le_of_parseFromHeader h

theorem length_le_of_parse {n : ℕ} {d : Disk n} {parts : List GptPartition}
    (h : parse d = some (some parts)) : parts.length ≤ 128 := by
  unfold parse at h
  split at h
  · cases h
  · split at h
    · cases h
    · split at h
      · cases h
      · split at h
        · cases h
        · next hprimary =>
          cases h
          exact length_le_of_parseAt hprimary
        · split at h
          · exact length_le_of_parseAt h
          · cases h

/-! ## Bounds -/

/-- The table is parsed to its end, and fits the global array. -/
def Total {n : ℕ} (d : Disk n) : Prop :=
  ∃ r, parse d = some r ∧ ∀ parts ∈ r, parts.length ≤ 128

/-- The entries that are read lie in whole sectors of the buffer, or they are not read at all: their
size is refused, or the disk does not have the sectors. With large sectors the buffer is sliced
before the disk is asked. -/
def EntriesFit {n : ℕ} (d : Disk n) (hdr : GptHeader) : Prop :=
  hdr.partEntrySize < 128 ∨ hdr.partEntrySize > 512 ∨
    min hdr.numPartEntries 128 * hdr.partEntrySize ≤ 33 * 512 / n * n ∨
    n = 512 ∧ d.readSectors hdr.partEntryLba 33 = none

/-- A header with the signature has 92 bytes, and if it is accepted, its entries fit. -/
def HeaderFits {n : ℕ} (d : Disk n) (lba : ℕ) : Prop :=
  ∀ header, d.readSectors lba 1 = some header →
    (leValue (slice (header.take 92) 0 8) = gptSignature →
      leValue (slice (header.take 92) 12 4) ≤ 92) ∧
    ∀ hdr, parseGptHeader (header.take 92) = some (some hdr) → EntriesFit d hdr

theorem parseGptHeader_eq_none_iff {buf : List UInt8} (hlen : buf.length = 92) :
    parseGptHeader buf = none ↔
      leValue (slice buf 0 8) = gptSignature ∧ 92 < leValue (slice buf 12 4) := by
  unfold parseGptHeader
  rw [hlen, if_neg (Nat.lt_irrefl 92)]
  by_cases hsig : leValue (slice buf 0 8) = gptSignature
  · rw [if_neg (not_not.mpr hsig), and_iff_right hsig]
    generalize leValue (slice buf 12 4) = size
    by_cases hlong : 92 < size
    · rw [if_neg (by rw [gptHeaderSize]; omega)]
      exact iff_of_true (if_pos (by omega)) hlong
    · refine iff_of_false ?_ hlong
      dsimp only
      rw [if_neg (show ¬min size 512 > 92 by omega)]
      split_ifs
      · exact nofun
      · exact nofun
      · exact nofun
  · rw [if_pos hsig]
    exact iff_of_false nofun fun h => hsig h.1

theorem length_readSectors {n : ℕ} {d : Disk n} {lba count : ℕ} {buf : List UInt8}
    (h : d.readSectors lba count = some buf) : buf.length = n * count := by
  unfold Disk.readSectors at h
  split_ifs at h
  cases h
  exact Device.length_read _ _ _

theorem parseFromHeader_eq_none_iff {n : ℕ} (hn : n = 512 ∨ n = 4096) (d : Disk n)
    (hdr : GptHeader) : parseFromHeader d hdr = none ↔ ¬EntriesFit d hdr := by
  unfold parseFromHeader EntriesFit
  by_cases hsize : hdr.partEntrySize < 128 ∨ hdr.partEntrySize > 512
  · rw [if_pos hsize, ← or_assoc]
    exact iff_of_false nofun (not_not.mpr (Or.inl hsize))
  rw [if_neg hsize, ← or_assoc, or_iff_right hsize]
  dsimp only
  generalize min hdr.numPartEntries 128 * hdr.partEntrySize = bytes
  rcases hn with rfl | rfl
  · rw [if_neg (by omega)]
    cases hread : d.readSectors hdr.partEntryLba (min ((bytes + 512 - 1) / 512) 33) with
    | none =>
      refine iff_of_false nofun (not_not.mpr ?_)
      by_cases hmany : bytes ≤ 33 * 512 / 512 * 512
      · exact Or.inl hmany
      · rw [show min ((bytes + 512 - 1) / 512) 33 = 33 by omega] at hread
        exact Or.inr ⟨rfl, hread⟩
    | some buf =>
      have hlen := length_readSectors hread
      dsimp only
      split_ifs with hout
      · refine iff_of_true rfl ?_
        rw [show min ((bytes + 512 - 1) / 512) 33 = 33 by omega] at hread
        rw [hread]
        rintro (hfit | ⟨-, hnone⟩)
        · omega
        · cases hnone
      · exact iff_of_false nofun (not_not.mpr (Or.inl (by omega)))
  · split_ifs with hslice
    · refine iff_of_true rfl ?_
      rintro (hfit | ⟨hn, -⟩)
      · omega
      · cases hn
    · refine iff_of_false ?_ (not_not.mpr (Or.inl (by omega)))
      split
      · exact nofun
      · next buf hread =>
        have hlen := length_readSectors hread
        rw [if_neg (by omega)]
        exact nofun

theorem parseAt_eq_none_iff {n : ℕ} (hn : n = 512 ∨ n = 4096) (d : Disk n) (lba : ℕ) :
    parseAt d lba = none ↔ ¬HeaderFits d lba := by
  unfold parseAt HeaderFits
  cases hread : d.readSectors lba 1 with
  | none => exact iff_of_false nofun (not_not.mpr nofun)
  | some header =>
    have hlen : (header.take 92).length = 92 := by
      rw [List.length_take, length_readSectors hread]
      omega
    have hnone := parseGptHeader_eq_none_iff hlen
    simp only [Option.some.injEq, forall_eq']
    cases hhdr : parseGptHeader (header.take 92) with
    | none =>
      obtain ⟨hsig, hlong⟩ := hnone.mp hhdr
      exact iff_of_true rfl fun h => absurd (h.1 hsig) (Nat.not_le.mpr hlong)
    | some hdr =>
      have hsize : leValue (slice (header.take 92) 0 8) = gptSignature →
          leValue (slice (header.take 92) 12 4) ≤ 92 := by
        intro hsig
        by_contra hlong
        rw [hnone.mpr ⟨hsig, Nat.not_le.mp hlong⟩] at hhdr
        cases hhdr
      rw [and_iff_right hsize]
      cases hdr with
      | none => exact iff_of_false nofun (not_not.mpr nofun)
      | some hdr =>
        simp only [Option.some.injEq, forall_eq']
        exact parseFromHeader_eq_none_iff hn d hdr

/-- A disk with the first sectors that are given, and zeros behind them. -/
def Disk.ofSectors (sectors : List (List UInt8)) (total : ℕ) : Disk 512 :=
  ⟨fun i => blockOf 512 (sectors.getD i []) 0, total⟩

end Aeterna.Drivers.Gpt
