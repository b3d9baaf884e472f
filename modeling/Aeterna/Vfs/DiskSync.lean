import Aeterna.Lib.Bytes
import Aeterna.Vfs.RamFs

/-!
# The disk image of the file system

The persistence of `vfs/disk_sync.rs`: the tree is serialized into a flat image, a header and one
record for each node in the order of the paths, written to the disk from sector 2048 on, and read
back at boot. `syncFilesystem` is the flush, with what the drivers answer as an input;
`readFromDisk` and `deserializeRamfs` are the two halves of the recovery.
-/

namespace Aeterna.Vfs

open Lib.Bytes

/-! ## The format -/

def superMagic : ℕ := 0x41455445524E41

/-- The text `AETERNA_FS`. -/
def magic : Data := [0x41, 0x45, 0x54, 0x45, 0x52, 0x4E, 0x41, 0x5F, 0x46, 0x53]

def version : ℕ := 1
def tagFile : UInt8 := 0
def tagDir : UInt8 := 1
def lbaBase : ℕ := 2048
def maxFsBytes : ℕ := 8 * 1024 * 1024

def pathBytes (path : Path) : Data := (String.ofList path).toUTF8.data.toList

/-- The path with these UTF-8 bytes. -/
def parsePath (bytes : Data) : Option Path := (String.fromUTF8? ⟨bytes.toArray⟩).map String.toList

abbrev Entry := Path × RamNode

def entrySize : Entry → ℕ
  | (path, .file data) => 2 + (pathBytes path).length + 1 + (4 + data.length)
  | (path, .dir) => 2 + (pathBytes path).length + 1

/-- The size of the image of a tree, before padding. -/
def requiredSize (tree : Tree) : ℕ :=
  8 + 4 + magic.length + 4 + 4 + (tree.toList.map entrySize).sum

/-! ## Writing -/

/-- A buffer of `cap` bytes with `out` written so far. -/
structure RawWriter where
  cap : ℕ
  out : Data

namespace RawWriter

def remaining (w : RawWriter) : ℕ := w.cap - w.out.length

def write (w : RawWriter) (data : Data) : Option RawWriter :=
  if data.length > w.remaining then none else some { w with out := w.out ++ data }

def writeU32 (w : RawWriter) (v : ℕ) : Option RawWriter := w.write (leBytes 4 v)

def writeU64 (w : RawWriter) (v : ℕ) : Option RawWriter := w.write (leBytes 8 v)

end RawWriter

/-- Writes one node and counts it. A path too long for its length field is passed over, and a file
is cut at half the image size. -/
def serializeEntry (state : RawWriter × ℕ) : Entry → Option (RawWriter × ℕ)
  | (path, node) => do
    let (w, count) := state
    let bytes := pathBytes path
    if bytes.length > 65535 then return (w, count)
    let w ← w.write (leBytes 2 bytes.length)
    let w ← w.write bytes
    match node with
    | .dir =>
      let w ← w.write [tagDir]
      return (w, count + 1)
    | .file data =>
      let dataLen := min data.length (maxFsBytes / 2)
      let w ← w.write [tagFile]
      let w ← w.writeU32 dataLen
      let w ← w.write (data.take dataLen)
      return (w, count + 1)

/-- `bytes` in place of what `buf` has at `offset`. -/
def patch (buf : Data) (offset : ℕ) (bytes : Data) : Data :=
  buf.take offset ++ bytes ++ buf.drop (offset + bytes.length)

/-- The image, written into a buffer of `cap` bytes. -/
def serializeRamfsInto (tree : Tree) (cap totalSectors : ℕ) : Option Data := do
  let w := RawWriter.mk cap []
  let w ← w.writeU64 superMagic
  let w ← w.writeU32 totalSectors
  let w ← w.write magic
  let w ← w.writeU32 version
  let countOffset := w.out.length
  let w ← w.writeU32 0
  let (w, count) ← tree.toList.foldlM serializeEntry (w, 0)
  return patch w.out countOffset (leBytes 4 count)

/-! ## Reading -/

/-- One node from the front of the image, and what follows it. -/
def parseEntry (rest : Data) : Option (Entry × Data) :=
  if rest.length < 2 then none
  else
    let pathLen := leValue (rest.take 2)
    let rest := rest.drop 2
    if rest.length < pathLen then none
    else match parsePath (rest.take pathLen), rest.drop pathLen with
    | some path, tag :: rest =>
      if tag = tagDir then some ((path, .dir), rest)
      else if tag = tagFile then
        if rest.length < 4 then none
        else
          let dataLen := leValue (rest.take 4)
          let rest := rest.drop 4
          if rest.length < dataLen then none
          else some ((path, .file (rest.take dataLen)), rest.drop dataLen)
      else none
    | _, _ => none

/-- Reads up to `count` nodes into the tree and stops at the first that is cut short or malformed. -/
def parseEntries : ℕ → Data → Tree → Tree
  | 0, _, tree => tree
  | count + 1, rest, tree =>
    match parseEntry rest with
    | some ((path, node), rest) => parseEntries count rest (tree.insert path node)
    | none => tree

def deserializeRamfs (buf : Data) : Option Tree :=
  if buf.length < 8 + 4 + magic.length + 4 + 4 then none
  else if leValue (buf.take 8) ≠ superMagic then none
  else if (buf.drop 12).take magic.length ≠ magic then none
  else if leValue ((buf.drop 22).take 4) ≠ version then none
  else some (parseEntries (leValue ((buf.drop 26).take 4)) (buf.drop 30) ∅)

/-! ## The disk -/

/-- A disk of 512-byte sectors that keeps what is written to it. -/
abbrev Disk := Device 512

/-- The read loop, in batches of 128 sectors: `done` sectors are in `buf`. -/
def readBatches (disk : Disk) (sectorCount : ℕ) : ℕ → ℕ → Data → Data
  | 0, _, buf => buf
  | fuel + 1, done, buf =>
    if done < sectorCount then
      let batch := min (sectorCount - done) 128
      readBatches disk sectorCount fuel (done + batch) (buf ++ disk.read (lbaBase + done) batch)
    else buf

def readFromDisk (disk : Disk) : Option Data :=
  let hdr := disk.read lbaBase 1
  if leValue (hdr.take 8) ≠ superMagic then none
  else
    let sectorCount := leValue ((hdr.drop 8).take 4)
    if sectorCount = 0 ∨ sectorCount > maxFsBytes / 512 then none
    else some (readBatches disk sectorCount sectorCount 0 [])

/-! ## The flush -/

/-- The file system and its disk. `medCapacity` is the size of the serialization buffer kept from
earlier flushes. -/
structure SyncState where
  tree : Option Tree
  dirty : Bool
  lastDirtyTick : UInt64
  lastSnapshotBytes : ℕ
  medCapacity : Option ℕ
  disk : Disk

/-- What the frame allocator and the disk driver answer during a flush; `torn` is the disk that a
failed write leaves. -/
structure Drivers where
  framesFree : Bool
  written : Bool
  torn : Disk
  verified : Bool

def sectorsNeeded (tree : Tree) : ℕ := max ((requiredSize tree + 512 - 1) / 512) 1

/-- The buffer to serialize into: the one kept, if it is large enough, or new frames. -/
def medBuffer (kept : Option ℕ) (totalBytes : ℕ) (framesFree : Bool) : Option ℕ :=
  let fresh := if framesFree then some ((totalBytes + 4095) / 4096 * 4096) else none
  match kept with
  | some cap => if cap ≥ totalBytes then some cap else fresh
  | none => fresh

/-- The buffer after serialization: the image with the sector count patched in, then zeros. -/
def bufferOf (image : Data) (cap sectors : ℕ) : Data :=
  patch image 8 (leBytes 4 sectors) ++ List.replicate (cap - image.length) 0

/-- Writes a serialized image and checks its first sector. The sector count is a 32-bit number. -/
def flushImage (s : SyncState) (drivers : Drivers) (buffer : Data) (sectors : ℕ) :
    Bool × SyncState :=
  if ¬ drivers.written then (false, { s with disk := drivers.torn })
  else
    let disk := s.disk.write lbaBase (sectors % 2 ^ 32) buffer
    let s := { s with disk := disk }
    if ¬ drivers.verified ∨ leValue ((disk.read lbaBase 1).take 8) ≠ superMagic then (false, s)
    else
      (true, { s with dirty := false, lastDirtyTick := UInt64.ofNat (2 ^ 64 - 1),
                      lastSnapshotBytes := sectors * 512 })

def syncFilesystem (s : SyncState) (drivers : Drivers) : Bool × SyncState :=
  if ¬ s.dirty then (true, s)
  else match s.tree with
  | none => (false, s)
  | some tree =>
    if tree.isEmpty then (false, s)
    else
      let sectors := sectorsNeeded tree
      match medBuffer s.medCapacity (sectors * 512) drivers.framesFree with
      | none => (false, s)
      | some cap =>
        let s := { s with medCapacity := some cap }
        match serializeRamfsInto tree cap sectors with
        | none => (false, s)
        | some image =>
          if image = [] then (false, s)
          else flushImage s drivers (bufferOf image cap sectors) sectors

end Aeterna.Vfs
