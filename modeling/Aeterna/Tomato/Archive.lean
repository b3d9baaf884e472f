import Aeterna.Tomato.Database
import Aeterna.Tomato.Sha256

/-!
# The package format

The `.tmt` files of `userland/tomato`. `tmtPack` makes one from its metadata and files; `tmtVerify`
checks the hash, `tmtParseHeader` reads the header, `tmtListContents` and `tmtInstall` walk over the
payload. The two walks are separate loops in the source and go apart on a payload with a path that
is not UTF-8: one passes over the whole entry, the other only over the path.
-/

namespace Aeterna.Tomato

open Aeterna.Vfs (Tree Path Data pathBytes parsePath)
open Aeterna.Vfs.RootMount
open Lib.Bytes Lib.Buffer

def tmtMagic : Data := [0x54, 0x4D, 0x54, 0x01, 0, 0, 0, 0]

def tmtVersion : ℕ := 1

def tmtHeaderSize : ℕ := 156

structure TmtHeader where
  version : UInt32
  flags : UInt32
  arch : UInt32
  name : Name
  pkgVersion : List Char
  metaLen : UInt32
  payloadLen : UInt32
  checksum : Data
  deriving DecidableEq

/-! ## Packing -/

/-- A text in a field of `size` bytes that ends in a zero. -/
def nullPadded (size : ℕ) (text : List Char) : Data :=
  let bytes := pathBytes text
  let len := min bytes.length (size - 1)
  bytes.take len ++ List.replicate (size - len) 0

def metaSection (metadata : List (List Char × List Char)) : Data :=
  metadata.flatMap fun (k, v) => pathBytes k ++ [0x3D] ++ pathBytes v ++ [0x0A]

def payloadEntry (file : Path × Data) : Data :=
  let path := pathBytes file.1
  leBytes 4 path.length ++ path ++ leBytes 4 file.2.length ++ file.2

def payloadSection (files : List (Path × Data)) : Data := files.flatMap payloadEntry

/-- The parts of a blob one after the other, with zeros for the checksum. -/
def blobFields (name version : List Char) (arch : UInt32) (metaBytes payload : Data) :
    List Data :=
  [tmtMagic, leBytes 4 tmtVersion, leBytes 4 0, leBytes 4 arch.toNat, nullPadded 64 name,
    nullPadded 32 version, leBytes 4 metaBytes.length, leBytes 4 payload.length,
    List.replicate 32 0, metaBytes, payload]

def tmtPack (name version : List Char) (arch : UInt32) (metadata : List (List Char × List Char))
    (files : List (Path × Data)) : Data :=
  let blob := (blobFields name version arch (metaSection metadata) (payloadSection files)).flatten
  splice blob 124 (sha256Hash blob)

/-! ## Reading -/

def tmtVerify (data : Data) : Bool :=
  if data.length < tmtHeaderSize then false
  else if slice data 0 8 ≠ tmtMagic then false
  else sha256Hash (splice data 124 (List.replicate 32 0)) = slice data 124 32

def u32At (data : Data) (offset : ℕ) : UInt32 := UInt32.ofNat (leValue (slice data offset 4))

/-- The text of a field, up to its first zero. -/
def textAt (data : Data) (offset size : ℕ) : List Char :=
  (parsePath ((slice data offset size).takeWhile (· != 0))).getD ['?']

def tmtParseHeader (data : Data) : Option TmtHeader :=
  if data.length < tmtHeaderSize then none
  else if slice data 0 8 ≠ tmtMagic then none
  else some
    { version := u32At data 8
      flags := u32At data 12
      arch := u32At data 16
      name := textAt data 20 64
      pkgVersion := textAt data 84 32
      metaLen := u32At data 116
      payloadLen := u32At data 120
      checksum := slice data 124 32 }

/-- The entries that the loop of `tmt_install` extracts, from where it stands. -/
def extracted (payload : Data) : List (Path × Data) :=
  if payload.length < 8 then []
  else
    let pathLen := leValue (payload.take 4)
    let rest := payload.drop 4
    if rest.length < pathLen then []
    else match parsePath (rest.take pathLen) with
    | none => extracted (rest.drop pathLen)
    | some path =>
      let rest := rest.drop pathLen
      if rest.length < 4 then []
      else
        let dataLen := leValue (rest.take 4)
        let rest := rest.drop 4
        if rest.length < dataLen then []
        else (path, rest.take dataLen) :: extracted (rest.drop dataLen)
termination_by payload.length
decreasing_by all_goals simp only [List.length_drop]; omega

/-- The paths that the loop of `tmt_list_contents` finds, from where it stands. -/
def listed (payload : Data) : List Path :=
  if payload.length < 8 then []
  else
    let pathLen := leValue (payload.take 4)
    let rest := payload.drop 4
    if rest.length < pathLen then []
    else
      let path := parsePath (rest.take pathLen)
      let rest := rest.drop pathLen
      if rest.length < 4 then path.toList
      else
        let dataLen := leValue (rest.take 4)
        path.toList ++ listed (rest.drop (4 + dataLen))
termination_by payload.length
decreasing_by simp only [List.length_drop]; omega

def tmtListContents (data : Data) : List Path :=
  match tmtParseHeader data with
  | none => []
  | some hdr =>
    let payloadStart := tmtHeaderSize + hdr.metaLen.toNat
    if payloadStart + hdr.payloadLen.toNat > data.length then []
    else listed (slice data payloadStart hdr.payloadLen.toNat)

/-! ## Installing -/

/-- Makes the directory of a file and writes the file. -/
def extract (tree : Tree) (file : Path × Data) : Tree :=
  (writeFile (mkdirParent tree file.1) file.1 file.2).1

/-- The text of the record that an extracted package gets. -/
def extractedRecord (hdr : TmtHeader) (vfsPath : Path) : List Char :=
  "name=".toList ++ hdr.name ++ "\nversion=".toList ++ hdr.pkgVersion ++
    "\ninstalled_from=".toList ++ vfsPath ++ ['\n']

/-- Extracts the payload of a verified package and writes its record. -/
def unpack (tree : Tree) (hdr : TmtHeader) (payload : Data) (vfsPath : Path) : Tree :=
  let tree := (extracted payload).foldl extract (ensureDirs tree)
  (writeFile tree (recordPath hdr.name) (pathBytes (extractedRecord hdr vfsPath))).1

def tmtInstall (tree : Tree) (vfsPath : Path) : Tree × Bool :=
  match readFile tree vfsPath with
  | none => (tree, false)
  | some data =>
    if tmtVerify data then
      match tmtParseHeader data with
      | none => (tree, false)
      | some hdr =>
        let metaEnd := tmtHeaderSize + hdr.metaLen.toNat
        if metaEnd > data.length then (tree, false)
        else if metaEnd + hdr.payloadLen.toNat > data.length then (tree, false)
        else (unpack tree hdr (slice data metaEnd hdr.payloadLen.toNat) vfsPath, true)
    else (tree, false)

end Aeterna.Tomato
