import Aeterna.Drivers.Gpt
import Aeterna.Installer.Geometry

/-!
# The installer

`do_install` of `installer.rs`: the protective record, the partition table with its backup, the
FAT32 file system of the EFI system partition with the boot files, and the identity record of the
root partition. A step of the installation is a list of sector writes; between two steps the
installer looks for an abort, and some writes end it when they fail (`doInstall`).
-/

namespace Aeterna.Installer

open Lib.Bytes Lib.Buffer

/-! ## What is installed where -/

/-- The selected disk. -/
structure VDisk where
  index : UInt64
  sectors : ℕ
  sizeMb : ℕ
  sectors_lt : sectors < 2 ^ 64

/-- A boot module that becomes a file; its size fits the field of a directory entry. -/
structure Module where
  data : List UInt8
  length_lt : data.length < 2 ^ 32

/-- What the menu and the boot loader hand to `do_install`. -/
structure Setup where
  disk : VDisk
  espSizeMb : ℕ
  hostname : List UInt8
  locale : List UInt8
  efi : Module
  kernel : Module

def minSectors : ℕ := 204800

/-- The sizes of the EFI system partition that the menu offers. -/
def espSizes : List ℕ := [256, 512, 128, 64]

namespace Setup

variable (s : Setup)

def espStart : ℕ := 2048
def espSectors : ℕ := s.espSizeMb * 2048
def espEnd : ℕ := espStart + s.espSectors - 1
def rootStart : ℕ := s.espEnd + 1
def rootEnd : ℕ := s.disk.sectors - 34

/-- The first sector after the table, as the header says. -/
def firstUsable : ℕ := 34
def lastUsable : ℕ := s.disk.sectors - 34

end Setup

/-! ## Buffers -/

def zeros (n : ℕ) : List UInt8 := List.replicate n 0

def sector (fields : List (ℕ × List UInt8)) : List UInt8 := splices (zeros 512) fields

def w16 (buf : List UInt8) (o v : ℕ) : List UInt8 := splice buf o (leBytes 2 v)
def w32 (buf : List UInt8) (o v : ℕ) : List UInt8 := splice buf o (leBytes 4 v)

/-- The bytes of a text of ASCII characters. -/
def ascii (text : String) : List UInt8 := text.toList.map fun c => UInt8.ofNat c.toNat

def crc32 (data : List UInt8) : UInt32 := ~~~ data.foldl Drivers.Gpt.crcByte 0xFFFFFFFF

def makeUuid (a b : UInt64) : List UInt8 :=
  let x := (a * 0x5DEECE66D + b) ^^^ 0xAE05AE05AE05AE05
  let y := x * 0x6C078965 + 1
  let u := leBytes 8 x.toNat ++ leBytes 8 y.toNat
  let u := u.set 6 ((u.getD 6 0 &&& 0x0F) ||| 0x40)
  u.set 8 ((u.getD 8 0 &&& 0x3F) ||| 0x80)

/-! ## Writes -/

inductive Target where
  | table
  | esp
  | root
  deriving DecidableEq

/-- A write of one sector. What is written may depend on what the disk holds; `fatal` if a failure
ends the installation. -/
structure Write where
  target : Target
  lba : ℕ
  bytes : Device 512 → List UInt8
  fatal : Bool

def Write.plain (target : Target) (lba : ℕ) (sector : List UInt8) : Write :=
  ⟨target, lba, fun _ => sector, false⟩

/-- Write of `sector` that ends the installation if it fails. -/
def Write.checked (target : Target) (lba : ℕ) (sector : List UInt8) : Write :=
  ⟨target, lba, fun _ => sector, true⟩

/-! ## The partition table -/

def espGuid : List UInt8 :=
  [0x28, 0x73, 0x2A, 0xC1, 0x1F, 0xF8, 0xD2, 0x11, 0xBA, 0x4B, 0x00, 0xA0, 0xC9, 0x3E, 0xC9, 0x3B]

def linuxGuid : List UInt8 :=
  [0xAF, 0x3D, 0xC6, 0x0F, 0x83, 0x84, 0x72, 0x47, 0x8E, 0x79, 0x3D, 0x69, 0xD8, 0x47, 0x7D, 0xE4]

/-- The name of an entry, in 16-bit characters, as far as there is room. -/
def writeName (entry : List UInt8) (name : List Char) : List UInt8 :=
  name.zipIdx.foldl (fun e (c, i) => if 56 + i * 2 + 1 < 128 then w16 e (56 + i * 2) c.toNat else e)
    entry

def tableEntry (typeGuid partGuid : List UInt8) (startLba endLba : ℕ) (name : String) :
    List UInt8 :=
  writeName (splices (zeros 128)
    [(0, typeGuid), (16, partGuid), (32, leBytes 8 startLba), (40, leBytes 8 endLba),
      (48, leBytes 8 0)]) name.toList

namespace Setup

variable (s : Setup)

/-- The protective record. -/
def mbr : List UInt8 :=
  sector [(446, [0, 0, 2, 0, 0xEE, 0xFF, 0xFF, 0xFF]), (454, leBytes 4 1),
    (458, leBytes 4 (min (s.disk.sectors - 1) 0xFFFFFFFF)), (510, [0x55, 0xAA])]

def diskGuid : List UInt8 := makeUuid (s.disk.index * 3) 0xFF
def espPartGuid : List UInt8 := makeUuid (s.disk.index * 3) 0
def rootPartGuid : List UInt8 := makeUuid (s.disk.index * 3) 1

def espEntry : List UInt8 := tableEntry espGuid s.espPartGuid espStart s.espEnd "EFI System"
def rootEntry : List UInt8 := tableEntry linuxGuid s.rootPartGuid s.rootStart s.rootEnd "AETERNA"

/-- The 32 sectors of entries. -/
def entries : List UInt8 := splice (splice (zeros (32 * 512)) 0 s.espEntry) 128 s.rootEntry

def bakEntriesLba : ℕ := s.disk.sectors - 33

/-- The fields of the primary header, with a zero for its checksum. -/
def headerFields : List (ℕ × List UInt8) :=
  [(0, ascii "EFI PART"), (8, leBytes 4 0x00010000), (12, leBytes 4 92), (16, leBytes 4 0),
    (20, leBytes 4 0), (24, leBytes 8 1), (32, leBytes 8 (s.disk.sectors - 1)),
    (40, leBytes 8 firstUsable), (48, leBytes 8 s.lastUsable), (56, s.diskGuid),
    (72, leBytes 8 2), (80, leBytes 4 128), (84, leBytes 4 128),
    (88, leBytes 4 (crc32 s.entries).toNat)]

def sealHeader (hdr : List UInt8) : List UInt8 := w32 hdr 16 (crc32 (hdr.take 92)).toNat

def primaryHeader : List UInt8 := sealHeader (sector s.headerFields)

/-- The backup is the primary header with the places exchanged. -/
def backupHeader : List UInt8 :=
  sealHeader (splices s.primaryHeader
    [(16, leBytes 4 0), (24, leBytes 8 (s.disk.sectors - 1)), (32, leBytes 8 1),
      (72, leBytes 8 s.bakEntriesLba)])

def writeMbr : List Write := [.checked .table 0 s.mbr]

def writeEntries : List Write :=
  (List.range 32).map (fun i => .checked .table (2 + i) (slice s.entries (i * 512) 512)) ++
    (List.range 32).map fun i =>
      .plain .table (s.bakEntriesLba + i) (slice s.entries (i * 512) 512)

def writeHeaders : List Write :=
  [.checked .table 1 s.primaryHeader, .plain .table (s.disk.sectors - 1) s.backupHeader]

/-- The table is written at the front of the disk and, with failures passed over, at its end. -/
theorem mem_tableWrites {s : Setup} {w : Write}
    (hw : w ∈ s.writeMbr ++ s.writeEntries ++ s.writeHeaders) :
    w.target = .table ∧ (w.lba < 34 ∨
      w.fatal = false ∧ w.lba < s.disk.sectors - 33 + 33) := by
  unfold writeMbr writeEntries writeHeaders at hw
  simp only [List.mem_append, List.mem_cons, List.not_mem_nil, or_false, List.mem_map,
    List.mem_range] at hw
  rcases hw with (rfl | ⟨i, hi, rfl⟩ | ⟨i, hi, rfl⟩) | rfl | rfl
  · exact ⟨rfl, Or.inl (show 0 < 34 by omega)⟩
  · exact ⟨rfl, Or.inl (show 2 + i < 34 by omega)⟩
  · exact ⟨rfl, Or.inr ⟨rfl, show s.disk.sectors - 33 + i < _ by omega⟩⟩
  · exact ⟨rfl, Or.inl (show 1 < 34 by omega)⟩
  · exact ⟨rfl, Or.inr ⟨rfl, show s.disk.sectors - 1 < _ by omega⟩⟩

end Setup

/-! ## FAT32 -/

def dirEnt (dir : List UInt8) (off : ℕ) (name : String) (attr : UInt8) (clust size : ℕ) :
    List UInt8 :=
  splices dir [(off, ascii name), (off + 11, [attr]), (off + 20, leBytes 2 (clust / 65536)),
    (off + 26, leBytes 2 (clust % 65536)), (off + 28, leBytes 4 size)]

def dotEnts (dir : List UInt8) (my parent : ℕ) : List UInt8 :=
  dirEnt (dirEnt dir 0 ".          " 0x10 my 0) 32 "..         " 0x10 parent 0

def lfnChecksum (sn : List UInt8) : UInt8 :=
  sn.foldl (fun sum b => (if sum &&& 1 ≠ 0 then (0x80 : UInt8) else 0) + (sum >>> 1) + b) 0

/-- A character of a long name: a zero ends it, and the rest is filled up. -/
def lfnChar (name : List ℕ) (i : ℕ) : ℕ :=
  if i < name.length then name.getD i 0 else if i = name.length then 0 else 0xFFFF

def lfnEntry (dir : List UInt8) (off : ℕ) (seq : UInt8) (name : List ℕ) (cksum : UInt8) :
    List UInt8 :=
  let start := ((seq &&& 0x3F).toNat - 1) * 13
  let chars := fun first count =>
    (List.range count).flatMap fun i => leBytes 2 (lfnChar name (start + first + i))
  splice dir off ([seq] ++ chars 0 5 ++ [0x0F, 0x00, cksum] ++ chars 5 6 ++ [0, 0] ++ chars 11 2)

/-- The sectors of a file of `size` bytes that one pass of the cluster loop writes. -/
def clusterWrites (data : List UInt8) (off lba rem : ℕ) : List Write :=
  let full := rem / 512
  (List.range full).map (fun i => .plain .esp (lba + i) (slice data (off + i * 512) 512)) ++
    if rem % 512 > 0 then
      [.plain .esp (lba + full) (sector [(0, slice data (off + full * 512) (rem % 512))])]
    else []

/-- The clusters of a file, from cluster `start` on; `clba` is the first sector of a cluster. -/
def writeClusters (data : List UInt8) (start nc spc : ℕ) (clba : ℕ → ℕ) : List Write :=
  (List.range nc).flatMap fun ci =>
    let off := ci * (spc * 512)
    if off ≥ data.length then []
    else clusterWrites data off (clba (start + ci)) (min (data.length - off) (spc * 512))

/-- The entries of a chain of clusters, in both tables. -/
def writeChain (fat1 fat2 start nc : ℕ) : List Write :=
  (List.range nc).flatMap fun i =>
    let c := start + i
    let val := if i = nc - 1 then 0x0FFFFFFF else c + 1
    [fat1, fat2].map fun fb =>
      ⟨.esp, fb + entrySector c, fun d => w32 (d.read (fb + entrySector c) 1) (c * 4 % 512) val,
        false⟩

def buildLimineConf : List UInt8 :=
  ascii ("timeout: 5\nserial: yes\n\n/AETERNA Microkernel\n\tprotocol: limine\n" ++
    "\tkernel_path: boot():/boot/KERNEL\n")

namespace Setup

variable (s : Setup)

def geom : Geometry := geometry s.espSectors

def vbr : List UInt8 :=
  sector [(0, [0xEB, 0x58, 0x90]), (3, ascii "AETERNA "), (11, leBytes 2 512),
    (13, [UInt8.ofNat s.geom.spc]), (14, leBytes 2 rsvd), (16, [UInt8.ofNat nfat]),
    (17, leBytes 2 0), (19, leBytes 2 0), (21, [0xF8]), (22, leBytes 2 0), (24, leBytes 2 63),
    (26, leBytes 2 255), (28, leBytes 4 espStart), (32, leBytes 4 s.geom.total),
    (36, leBytes 4 s.geom.fatSec), (40, leBytes 2 0), (42, leBytes 2 0), (44, leBytes 4 2),
    (48, leBytes 2 1), (50, leBytes 2 6), (64, [0x80]), (66, [0x29]), (67, leBytes 4 0xAE05AE05),
    (71, ascii "AETERNA ESP"), (82, ascii "FAT32   "), (510, [0x55, 0xAA])]

def fsInfo : List UInt8 :=
  sector [(0, leBytes 4 0x41615252), (484, leBytes 4 0x61417272),
    (488, leBytes 4 (s.geom.dataClusters - 8)), (492, leBytes 4 8), (510, [0x55, 0xAA])]

/-- The first sector of a table: the entries 0 to 2. -/
def fat0 : List UInt8 :=
  sector [(0, leBytes 4 0x0FFFFFF8), (4, leBytes 4 0x0FFFFFFF), (8, leBytes 4 0x0FFFFFFF)]

def fat1Lba : ℕ := espStart + rsvd
def fat2Lba : ℕ := fat1Lba + s.geom.fatSec

def writeFat : List Write :=
  [.checked .esp espStart s.vbr, .plain .esp (espStart + 1) s.fsInfo,
    .plain .esp (espStart + 6) s.vbr, .plain .esp (espStart + 7) s.fsInfo] ++
  ([fat1Lba, s.fat2Lba].flatMap fun fc =>
    (List.range s.geom.fatSec).map fun i => .plain .esp (fc + i) (zeros 512)) ++
  [.plain .esp fat1Lba fat0, .plain .esp s.fat2Lba fat0]

/-- The first sector of cluster `c`; cluster 2 is the first of the data region. -/
def clba (c : ℕ) : ℕ := espStart + s.geom.dataRel + (c - 2) * s.geom.spc

def rootC : ℕ := 2
def efiDc : ℕ := 3
def bootDc : ℕ := 4
def sysbC : ℕ := 5
def confC : ℕ := 6
def efiC : ℕ := 7

def clustersOf (m : Module) : ℕ :=
  let cb := s.geom.spc * 512
  if m.data.length > 0 then (m.data.length + cb - 1) / cb else 1

def efiNc : ℕ := s.clustersOf s.efi
def kerC : ℕ := efiC + s.efiNc
def kerNc : ℕ := s.clustersOf s.kernel

def shortName : String := "LIMINE~1CON"

def rootDir : List UInt8 :=
  let d := sector [(0, ascii "AETERNA ESP"), (11, [0x08])]
  let d := dirEnt d 32 "EFI        " 0x10 efiDc 0
  let d := dirEnt d 64 "BOOT       " 0x10 sysbC 0
  let d := lfnEntry d 96 0x41 ("limine.conf".toList.map Char.toNat) (lfnChecksum (ascii shortName))
  dirEnt d 128 shortName 0x20 confC buildLimineConf.length

def efiDir : List UInt8 := dirEnt (dotEnts (zeros 512) efiDc rootC) 64 "BOOT       " 0x10 bootDc 0

def bootDir : List UInt8 :=
  dirEnt (dotEnts (zeros 512) bootDc efiDc) 64 "BOOTX64 EFI" 0x20 efiC s.efi.data.length

def sysbDir : List UInt8 :=
  dirEnt (dotEnts (zeros 512) sysbC rootC) 64 "KERNEL     " 0x20 s.kerC s.kernel.data.length

def chain (start nc : ℕ) : List Write := writeChain fat1Lba s.fat2Lba start nc

def writeTree : List Write :=
  ([rootC, efiDc, bootDc, sysbC].flatMap fun c =>
    (List.range s.geom.spc).map fun i => .plain .esp (s.clba c + i) (zeros 512)) ++
  [.plain .esp (s.clba rootC) rootDir, .plain .esp (s.clba efiDc) efiDir,
    .plain .esp (s.clba bootDc) s.bootDir, .plain .esp (s.clba sysbC) s.sysbDir] ++
  ([rootC, efiDc, bootDc, sysbC].flatMap fun c => s.chain c 1)

/-- A boot file and its chain; an empty one is left out. -/
def writeFile (m : Module) (start nc : ℕ) : List Write :=
  if m.data.length > 0 then
    writeClusters m.data start nc s.geom.spc s.clba ++ s.chain start nc
  else []

def writeConf : List Write :=
  let full := buildLimineConf.length / 512
  s.chain confC 1 ++
  (List.range full).map (fun i =>
    .plain .esp (s.clba confC + i) (slice buildLimineConf (i * 512) 512)) ++
  if buildLimineConf.length % 512 > 0 ∨ full = 0 then
    [.plain .esp (s.clba confC + full) (sector [(0, buildLimineConf.drop (full * 512))])]
  else []

/-! ## The root partition -/

def identity : List UInt8 :=
  sector [(0, ascii "AETERNA "), (8, (ascii "1.1.0").take 16), (24, (ascii "x86_64").take 8),
    (32, (ascii "2026-03-07").take 16), (48, s.hostname.take 32), (80, s.locale.take 16),
    (96, leBytes 8 espStart), (104, leBytes 8 s.rootStart), (112, leBytes 8 s.disk.sizeMb),
    (510, [0xAE, 0x05])]

def writeIdentity : List Write := [.checked .root s.rootStart s.identity]

/-- The steps, with a look for an abort after each but the last. -/
def steps : List (List Write) :=
  [s.writeMbr, s.writeEntries, s.writeHeaders, s.writeFat, s.writeTree,
    s.writeFile s.efi efiC s.efiNc, s.writeFile s.kernel s.kerC s.kerNc,
    s.writeConf ++ s.writeIdentity]

/-- A disk of `sectors` sectors with the recommended partition, no boot files. -/
def recommended (sectors : ℕ) (h : sectors < 2 ^ 64) : Setup where
  disk := ⟨0, sectors, sectors / 2048, h⟩
  espSizeMb := 256
  hostname := ascii "aeterna"
  locale := ascii "en_US.UTF-8"
  efi := ⟨[], by decide⟩
  kernel := ⟨[], by decide⟩

end Setup

/-! ## The run -/

/-- The disk during the installation, with the sectors written so far. -/
structure Session where
  disk : Device 512
  written : List (Target × ℕ)

namespace Session

/-- A write fails beyond the end of the disk. -/
def write (total : ℕ) (t : Session) (w : Write) : Bool × Session :=
  if w.lba < total then
    (true, ⟨t.disk.write w.lba 1 (w.bytes t.disk), t.written ++ [(w.target, w.lba)]⟩)
  else (false, t)

/-- The writes of a step, up to a fatal failure. -/
def writeAll (total : ℕ) (t : Session) : List Write → Bool × Session
  | [] => (true, t)
  | w :: ws =>
    let (ok, t) := t.write total w
    if ok = false ∧ w.fatal then (false, t) else writeAll total t ws

/-- The steps, up to a failure or an abort; `aborts` says whether there is one after each step. -/
def runSteps (total : ℕ) (t : Session) (aborts : ℕ → Bool) : List (List Write) → Session
  | [] => t
  | ws :: steps =>
    let (ok, t) := t.writeAll total ws
    if ok = false ∨ aborts 0 = true then t
    else runSteps total t (fun n => aborts (n + 1)) steps

end Session

def doInstall (s : Setup) (aborts : ℕ → Bool) (disk : Device 512) : Session :=
  Session.runSteps s.disk.sectors ⟨disk, []⟩ aborts s.steps

end Aeterna.Installer
