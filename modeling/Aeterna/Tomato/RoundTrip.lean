import Aeterna.Tomato.Archive
import Aeterna.Vfs.Image

/-!
# Packages come back as they were packed

What `tmt_pack` makes is verified, its header, its paths and its files are read back, and installing
it puts every file where it belongs (`Bundle.round_trip`).

A blob is the concatenation of its fields, so a field is read back by its offset
(`Bundle.slice_blob`); the checksum is the hash of the blob with zeros in its place, which is what
`tmt_verify` hashes again. Both loops over the payload take one entry off its front
(`extracted_payloadEntry`, `listed_payloadEntry`).
-/

namespace Aeterna.Tomato

open Aeterna.Vfs (Tree Path Data normalize mkdir pathBytes parsePath parsePath_pathBytes fileAt
  readFile_eq fileAt_mkdir fileAt_mkdirParent fileAt_writeFile)
open Aeterna.Vfs.RootMount
open Lib.Bytes Lib.Buffer

/-! ## Fields -/

theorem length_nullPadded {size : ℕ} (hsize : 0 < size) (text : List Char) :
    (nullPadded size text).length = size := by
  unfold nullPadded
  rw [List.length_append, List.length_take, List.length_replicate]
  omega

theorem takeWhile_nullPadded {size : ℕ} {text : List Char} (hlen : (pathBytes text).length < size)
    (hzero : 0 ∉ pathBytes text) :
    (nullPadded size text).takeWhile (· != 0) = pathBytes text := by
  have hmin : min (pathBytes text).length (size - 1) = (pathBytes text).length := by omega
  have hpad : size - (pathBytes text).length = size - (pathBytes text).length - 1 + 1 := by omega
  unfold nullPadded
  dsimp only
  rw [hmin, List.take_length, List.takeWhile_append_of_pos, hpad, List.replicate_succ,
    List.takeWhile_cons_of_neg (by decide), List.append_nil]
  intro b hb
  rw [bne_iff_ne]
  rintro rfl
  exact hzero hb

@[simp] theorem length_sha256Hash (data : Data) : (sha256Hash data).length = 32 :=
  Lib.Fips180.length_bytes _

theorem ofNat_leValue_leBytes (x : UInt32) : UInt32.ofNat (leValue (leBytes 4 x.toNat)) = x := by
  rw [leValue_leBytes_of_lt x.toNat_lt, UInt32.ofNat_toNat]

/-! ## The loops over the payload -/

section Payload

variable {file : Path × Data} {rest : Data}

theorem length_payloadEntry (file : Path × Data) :
    (payloadEntry file).length = 8 + (pathBytes file.1).length + file.2.length := by
  unfold payloadEntry
  simp only [List.length_append, length_leBytes]
  omega

theorem payloadEntry_append (file : Path × Data) (rest : Data) :
    payloadEntry file ++ rest = leBytes 4 (pathBytes file.1).length ++
      (pathBytes file.1 ++ (leBytes 4 file.2.length ++ (file.2 ++ rest))) := by
  unfold payloadEntry
  simp only [List.append_assoc]

/-- The lengths of the entry fit their fields. -/
structure EntryFits (file : Path × Data) : Prop where
  path : (pathBytes file.1).length < 2 ^ 32
  data : file.2.length < 2 ^ 32

theorem extracted_payloadEntry (h : EntryFits file) (rest : Data) :
    extracted (payloadEntry file ++ rest) = file :: extracted rest := by
  have hlen : ¬ (payloadEntry file ++ rest).length < 8 := by
    rw [List.length_append, length_payloadEntry]
    omega
  rw [extracted, if_neg hlen]
  rw [payloadEntry_append, take_leBytes_append, drop_leBytes_append,
    leValue_leBytes_of_lt h.path, if_neg (by simp), List.take_left, parsePath_pathBytes]
  dsimp only
  rw [List.drop_left, if_neg (by simp), take_leBytes_append, drop_leBytes_append,
    leValue_leBytes_of_lt h.data, if_neg (by simp), List.take_left, List.drop_left]

theorem listed_payloadEntry (h : EntryFits file) (rest : Data) :
    listed (payloadEntry file ++ rest) = file.1 :: listed rest := by
  have hlen : ¬ (payloadEntry file ++ rest).length < 8 := by
    rw [List.length_append, length_payloadEntry]
    omega
  rw [listed, if_neg hlen]
  dsimp only
  rw [payloadEntry_append, take_leBytes_append, drop_leBytes_append, leValue_leBytes_of_lt h.path,
    if_neg (by simp), List.take_left, parsePath_pathBytes, List.drop_left, take_leBytes_append,
    leValue_leBytes_of_lt h.data, ← List.drop_drop, drop_leBytes_append, List.drop_left]
  rfl

theorem entryFits_of_mem {files : List (Path × Data)}
    (h : (payloadSection files).length < 2 ^ 32) (hmem : file ∈ files) : EntryFits file := by
  have hle : (payloadEntry file).length ≤ (payloadSection files).length := by
    unfold payloadSection
    rw [List.length_flatMap]
    exact List.le_sum_of_mem (List.mem_map_of_mem hmem)
  rw [length_payloadEntry] at hle
  exact ⟨by omega, by omega⟩

theorem loop_payloadSection {β : Type} {loop : Data → List β} {item : Path × Data → β}
    (hnil : loop [] = [])
    (hround : ∀ {file}, EntryFits file → ∀ rest,
      loop (payloadEntry file ++ rest) = item file :: loop rest)
    {files : List (Path × Data)} (h : ∀ f ∈ files, EntryFits f) :
    loop (payloadSection files) = files.map item := by
  induction files with
  | nil => exact hnil
  | cons file files ih =>
    have hcons : payloadSection (file :: files) = payloadEntry file ++ payloadSection files :=
      List.flatMap_cons
    rw [hcons, hround (h file List.mem_cons_self),
      ih fun f hf => h f (List.mem_cons_of_mem file hf), List.map_cons]

theorem extracted_payloadSection {files : List (Path × Data)} (h : ∀ f ∈ files, EntryFits f) :
    extracted (payloadSection files) = files := by
  have hnil : extracted [] = [] := by rw [extracted, if_pos (by decide)]
  exact (loop_payloadSection hnil extracted_payloadEntry h).trans (List.map_id files)

theorem listed_payloadSection {files : List (Path × Data)} (h : ∀ f ∈ files, EntryFits f) :
    listed (payloadSection files) = files.map Prod.fst := by
  have hnil : listed [] = [] := by rw [listed, if_pos (by decide)]
  exact loop_payloadSection hnil listed_payloadEntry h

end Payload

/-! ## What is extracted -/

section Extract

variable {k : Path}

/-- What one extracted file does to the contents at a node. -/
def overwritten (k : Path) (old : Option Data) (file : Path × Data) : Option Data :=
  if file.1 ≠ devAudio ∧ k = normalize file.1 then some file.2 else old

theorem fileAt_extract (tree : Tree) (file : Path × Data) (k : Path) :
    fileAt (extract tree file) k = overwritten k (fileAt tree k) file := by
  unfold extract overwritten
  by_cases haudio : file.1 = devAudio
  · have hsame : (writeFile (mkdirParent tree file.1) file.1 file.2).1 =
        mkdirParent tree file.1 := by
      unfold writeFile
      rw [if_pos haudio]
    rw [hsame, fileAt_mkdirParent, if_neg fun h => h.1 haudio]
  · rw [fileAt_writeFile haudio, fileAt_mkdirParent]
    by_cases hk : k = normalize file.1
    · rw [if_pos hk, if_pos ⟨haudio, hk⟩]
    · rw [if_neg hk, if_neg fun h => hk h.2]

theorem fileAt_foldl_extract (files : List (Path × Data)) (tree : Tree) (k : Path) :
    fileAt (files.foldl extract tree) k = files.foldl (overwritten k) (fileAt tree k) := by
  induction files generalizing tree with
  | nil => rfl
  | cons file files ih => rw [List.foldl_cons, List.foldl_cons, ih, fileAt_extract]

theorem fileAt_ensureDirs (tree : Tree) (k : Path) :
    fileAt (ensureDirs tree) k = fileAt tree k := by
  unfold ensureDirs
  generalize databaseDirs = dirs
  induction dirs generalizing tree with
  | nil => rfl
  | cons dir dirs ih => rw [List.foldl_cons, ih, fileAt_mkdir]

/-- The files after an install from a package: the last one extracted at a node, and the record. -/
theorem fileAt_unpack (tree : Tree) (hdr : TmtHeader) (payload : Data) (vfsPath k : Path) :
    fileAt (unpack tree hdr payload vfsPath) k =
      if k = normalize (recordPath hdr.name) then
        some (pathBytes (extractedRecord hdr vfsPath))
      else (extracted payload).foldl (overwritten k) (fileAt tree k) := by
  unfold unpack
  rw [fileAt_writeFile (recordPath_ne_devAudio hdr.name), fileAt_foldl_extract, fileAt_ensureDirs]

theorem foldl_overwritten_of_not_mem {files : List (Path × Data)}
    (h : k ∉ files.map fun f => Vfs.normalize f.1) (old : Option Data) :
    files.foldl (overwritten k) old = old := by
  induction files generalizing old with
  | nil => rfl
  | cons file files ih =>
    rw [List.map_cons, List.mem_cons, not_or] at h
    rw [List.foldl_cons, ih h.2]
    exact if_neg fun hw => h.1 hw.2

theorem foldl_overwritten_of_mem {files : List (Path × Data)} {file : Path × Data}
    (hpaths : (files.map fun f => Vfs.normalize f.1).Nodup) (hmem : file ∈ files)
    (haudio : file.1 ≠ devAudio) (old : Option Data) :
    files.foldl (overwritten (normalize file.1)) old = some file.2 := by
  induction files generalizing old with
  | nil => exact absurd hmem List.not_mem_nil
  | cons first files ih =>
    rw [List.map_cons, List.nodup_cons] at hpaths
    rw [List.foldl_cons]
    rcases List.mem_cons.mp hmem with rfl | hmem
    · rw [foldl_overwritten_of_not_mem hpaths.1]
      exact if_pos ⟨haudio, rfl⟩
    · exact ih hpaths.2 hmem _

end Extract

/-! ## Round trip -/

/-- What can go into a package. The paths need not be normalized: no two of them stand for one node,
and none for the package's record. -/
structure Bundle where
  name : Name
  version : List Char
  arch : UInt32
  metadata : List (List Char × List Char)
  files : List (Path × Data)
  name_length : (pathBytes name).length ≤ 63
  name_zero : 0 ∉ pathBytes name
  version_length : (pathBytes version).length ≤ 31
  version_zero : 0 ∉ pathBytes version
  metadata_length : (metaSection metadata).length < 2 ^ 32
  files_length : (payloadSection files).length < 2 ^ 32
  paths_nodup : (files.map fun f => Vfs.normalize f.1).Nodup
  paths_record : ∀ f ∈ files, normalize f.1 ≠ normalize (recordPath name)
  paths_audio : ∀ f ∈ files, f.1 ≠ devAudio

namespace Bundle

variable (b : Bundle)

def fields : List Data :=
  blobFields b.name b.version b.arch (metaSection b.metadata) (payloadSection b.files)

/-- The package file. -/
def blob : Data := tmtPack b.name b.version b.arch b.metadata b.files

def header : TmtHeader where
  version := 1
  flags := 0
  arch := b.arch
  name := b.name
  pkgVersion := b.version
  metaLen := UInt32.ofNat (metaSection b.metadata).length
  payloadLen := UInt32.ofNat (payloadSection b.files).length
  checksum := sha256Hash b.fields.flatten

theorem blob_eq : b.blob = splice b.fields.flatten 124 (sha256Hash b.fields.flatten) := rfl

theorem length_fields : b.fields.flatten.length =
    156 + (metaSection b.metadata).length + (payloadSection b.files).length := by
  have hname : (nullPadded 64 b.name).length = 64 := length_nullPadded (by decide) _
  have hversion : (nullPadded 32 b.version).length = 32 := length_nullPadded (by decide) _
  have hmagic : tmtMagic.length = 8 := rfl
  unfold fields blobFields
  simp only [List.flatten_cons, List.flatten_nil, List.length_append, length_leBytes,
    List.length_replicate, List.length_nil]
  omega

theorem checksum_fits : 124 + (sha256Hash b.fields.flatten).length ≤ b.fields.flatten.length := by
  rw [length_sha256Hash, length_fields]
  omega

theorem length_blob : b.blob.length =
    156 + (metaSection b.metadata).length + (payloadSection b.files).length := by
  rw [blob_eq, length_splice b.checksum_fits, length_fields]

theorem slice_blob (front : List Data) {back : List Data} {bytes : Data} {offset len : ℕ}
    (hfields : b.fields = front ++ bytes :: back) (hoffset : offset = (front.map List.length).sum)
    (hlen : bytes.length = len) (hdisjoint : offset + len ≤ 124 ∨ 156 ≤ offset) :
    slice b.blob offset len = bytes := by
  rw [blob_eq,
    slice_splice_of_disjoint b.checksum_fits (by rw [length_sha256Hash]; exact hdisjoint)]
  exact slice_flatten front hfields hoffset hlen.symm

theorem slice_checksum : slice b.blob 124 32 = sha256Hash b.fields.flatten := by
  have hinside := slice_splice_inside (a := 0) (m := 32) b.checksum_fits (by simp)
  rw [blob_eq, hinside, slice, List.drop_zero, List.take_of_length_le (by simp)]

theorem slice_magic : slice b.blob 0 8 = tmtMagic := b.slice_blob [] rfl rfl rfl (by decide)

theorem not_length_lt : ¬ b.blob.length < tmtHeaderSize := by
  rw [length_blob, tmtHeaderSize]
  omega

theorem tmtVerify_blob : tmtVerify b.blob = true := by
  have hzeros : slice b.fields.flatten 124 32 = List.replicate 32 0 := by
    refine slice_flatten [_, _, _, _, _, _, _, _] rfl ?_ rfl
    simp [length_nullPadded, tmtMagic]
  have hhashed : splice b.blob 124 (List.replicate 32 0) = b.fields.flatten := by
    rw [blob_eq, splice_splice_self b.checksum_fits (by simp), ← hzeros,
      splice_slice_self (by rw [length_fields]; omega)]
  unfold tmtVerify
  rw [if_neg b.not_length_lt, if_neg (not_not.mpr b.slice_magic), hhashed, slice_checksum]
  exact decide_eq_true rfl

theorem tmtParseHeader_blob : tmtParseHeader b.blob = some b.header := by
  have hname : (nullPadded 64 b.name).length = 64 := length_nullPadded (by decide) _
  have hversion : (nullPadded 32 b.version).length = 32 := length_nullPadded (by decide) _
  have hmagic : tmtMagic.length = 8 := rfl
  have h8 : slice b.blob 8 4 = leBytes 4 tmtVersion :=
    b.slice_blob [_] rfl rfl rfl (by decide)
  have h12 : slice b.blob 12 4 = leBytes 4 0 := b.slice_blob [_, _] rfl rfl rfl (by decide)
  have h16 : slice b.blob 16 4 = leBytes 4 b.arch.toNat :=
    b.slice_blob [_, _, _] rfl rfl (by simp) (by decide)
  have h20 : slice b.blob 20 64 = nullPadded 64 b.name :=
    b.slice_blob [_, _, _, _] rfl (by simp [hmagic]) hname (by decide)
  have h84 : slice b.blob 84 32 = nullPadded 32 b.version :=
    b.slice_blob [_, _, _, _, _] rfl (by simp [hmagic, hname]) hversion (by decide)
  have h116 : slice b.blob 116 4 = leBytes 4 (metaSection b.metadata).length :=
    b.slice_blob [_, _, _, _, _, _] rfl (by simp [hmagic, hname, hversion]) (by simp) (by decide)
  have h120 : slice b.blob 120 4 = leBytes 4 (payloadSection b.files).length :=
    b.slice_blob [_, _, _, _, _, _, _] rfl (by simp [hmagic, hname, hversion]) (by simp) (by decide)
  unfold tmtParseHeader
  rw [if_neg b.not_length_lt]
  simp only [u32At, textAt, h8, h12, h16, h20, h84, h116, h120, slice_checksum]
  rw [takeWhile_nullPadded (Nat.lt_succ_of_le b.name_length) b.name_zero,
    takeWhile_nullPadded (Nat.lt_succ_of_le b.version_length) b.version_zero, parsePath_pathBytes,
    parsePath_pathBytes, ofNat_leValue_leBytes,
    leValue_leBytes_of_lt (show (metaSection b.metadata).length < 256 ^ 4 from b.metadata_length),
    leValue_leBytes_of_lt (show (payloadSection b.files).length < 256 ^ 4 from b.files_length)]
  rfl

theorem toNat_metaLen : b.header.metaLen.toNat = (metaSection b.metadata).length :=
  UInt32.toNat_ofNat_of_lt' b.metadata_length

theorem toNat_payloadLen : b.header.payloadLen.toNat = (payloadSection b.files).length :=
  UInt32.toNat_ofNat_of_lt' b.files_length

theorem slice_payload :
    slice b.blob (tmtHeaderSize + b.header.metaLen.toNat) b.header.payloadLen.toNat =
      payloadSection b.files := by
  have hname : (nullPadded 64 b.name).length = 64 := length_nullPadded (by decide) _
  have hversion : (nullPadded 32 b.version).length = 32 := length_nullPadded (by decide) _
  rw [toNat_metaLen, toNat_payloadLen]
  refine b.slice_blob [_, _, _, _, _, _, _, _, _, _] rfl ?_ rfl (.inr (Nat.le_add_right _ _))
  simp [tmtMagic, tmtHeaderSize]
  omega

theorem sections_fit :
    tmtHeaderSize + b.header.metaLen.toNat + b.header.payloadLen.toNat = b.blob.length := by
  rw [length_blob, toNat_metaLen, toNat_payloadLen, tmtHeaderSize]

theorem entryFits {file : Path × Data} (h : file ∈ b.files) : EntryFits file :=
  entryFits_of_mem b.files_length h

theorem tmtListContents_blob : tmtListContents b.blob = b.files.map Prod.fst := by
  unfold tmtListContents
  rw [tmtParseHeader_blob]
  dsimp only
  rw [sections_fit, if_neg (lt_irrefl _), slice_payload,
    listed_payloadSection fun f hf => b.entryFits hf]

theorem tmtInstall_blob {tree : Tree} {vfsPath : Path} (h : readFile tree vfsPath = some b.blob) :
    tmtInstall tree vfsPath = (unpack tree b.header (payloadSection b.files) vfsPath, true) := by
  have hfit := b.sections_fit
  unfold tmtInstall
  rw [h]
  dsimp only
  rw [if_pos b.tmtVerify_blob, tmtParseHeader_blob]
  dsimp only
  rw [if_neg (by omega), if_neg (by omega), slice_payload]

/-- **Round trip.** A packed blob is verified, header and contents are read back, and installing it
from a file writes every file of the package. -/
theorem round_trip :
    tmtVerify (tmtPack b.name b.version b.arch b.metadata b.files) = true ∧
      (∃ hdr, tmtParseHeader (tmtPack b.name b.version b.arch b.metadata b.files) = some hdr ∧
        hdr.name = b.name ∧ hdr.pkgVersion = b.version ∧ hdr.arch = b.arch ∧
        hdr.metaLen.toNat = (metaSection b.metadata).length ∧
        hdr.payloadLen.toNat = (payloadSection b.files).length) ∧
      tmtListContents (tmtPack b.name b.version b.arch b.metadata b.files) =
        b.files.map Prod.fst ∧
      ∀ (tree : Tree) (vfsPath : Path),
        readFile tree vfsPath =
          some (tmtPack b.name b.version b.arch b.metadata b.files) →
        (tmtInstall tree vfsPath).2 = true ∧
          ∀ f ∈ b.files, readFile (tmtInstall tree vfsPath).1 f.1 = some f.2 := by
  refine ⟨b.tmtVerify_blob,
    ⟨b.header, b.tmtParseHeader_blob, rfl, rfl, rfl, b.toNat_metaLen, b.toNat_payloadLen⟩,
    b.tmtListContents_blob, fun tree vfsPath h => ?_⟩
  rw [b.tmtInstall_blob h]
  refine ⟨rfl, fun f hf => ?_⟩
  have hrecord : normalize f.1 ≠ normalize (recordPath b.header.name) := b.paths_record f hf
  rw [readFile_eq, fileAt_unpack, if_neg hrecord,
    extracted_payloadSection fun f hf => b.entryFits hf,
    foldl_overwritten_of_mem b.paths_nodup hf (b.paths_audio f hf)]

/-- A package with an empty file and one of three bytes. -/
def demo : Bundle where
  name := "demo".toList
  version := "0.1".toList
  arch := 1
  metadata := [("desc".toList, "two files".toList)]
  files := [("/opt/demo/a".toList, []), ("/opt/demo/b".toList, [1, 2, 3])]
  name_length := by decide +kernel
  name_zero := by decide +kernel
  version_length := by decide +kernel
  version_zero := by decide +kernel
  metadata_length := by decide +kernel
  files_length := by decide +kernel
  paths_nodup := by decide +kernel
  paths_record := by decide +kernel
  paths_audio := by decide +kernel

/-- The package file in the tree after boot. -/
def demoTree : Tree := (writeFile Vfs.init "/demo.tmt".toList demo.blob).1

theorem readFile_demoTree : readFile demoTree "/demo.tmt".toList = some demo.blob := by
  rw [readFile_eq, demoTree, fileAt_writeFile (by decide), if_pos rfl]

/-- Installing the demo package writes its two files. -/
theorem round_trip_demo :
    readFile demoTree "/demo.tmt".toList = some demo.blob ∧
      ∀ f ∈ demo.files, readFile (tmtInstall demoTree "/demo.tmt".toList).1 f.1 = some f.2 :=
  ⟨readFile_demoTree, (demo.round_trip.2.2.2 _ _ readFile_demoTree).2⟩

end Bundle

end Aeterna.Tomato
