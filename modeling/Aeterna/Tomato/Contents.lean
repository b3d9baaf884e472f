import Aeterna.Tomato.Archive

/-!
# Listing and extracting

`tmt_list_contents` lists a path as soon as it has read it, `tmt_install` extracts a file when all of
its entry is there. As long as the paths are UTF-8 both walks stand at the same places, and they
find the same paths when no entry is cut off (`extracted_eq_listed_iff`).
-/

namespace Aeterna.Tomato

open Aeterna.Vfs (Tree Path Data parsePath readFile_eq fileAt_writeFile)
open Aeterna.Vfs.RootMount
open Lib.Bytes Lib.Buffer

/-- Every path on the walk is UTF-8, unless no length can follow it. -/
def utf8Paths (payload : Data) : Bool :=
  if payload.length < 8 then true
  else
    let pathLen := leValue (payload.take 4)
    let rest := payload.drop 4
    if rest.length < pathLen then true
    else
      let path := parsePath (rest.take pathLen)
      let rest := rest.drop pathLen
      if rest.length < 4 then true
      else
        let dataLen := leValue (rest.take 4)
        path.isSome && utf8Paths (rest.drop (4 + dataLen))
termination_by payload.length
decreasing_by simp only [List.length_drop]; omega

/-- No entry with a path ends before its data. -/
def whole (payload : Data) : Bool :=
  if payload.length < 8 then true
  else
    let pathLen := leValue (payload.take 4)
    let rest := payload.drop 4
    if rest.length < pathLen then true
    else
      let path := parsePath (rest.take pathLen)
      let rest := rest.drop pathLen
      if rest.length < 4 then path.isNone
      else
        let dataLen := leValue (rest.take 4)
        decide (4 + dataLen ≤ rest.length) && whole (rest.drop (4 + dataLen))
termination_by payload.length
decreasing_by simp only [List.length_drop]; omega

theorem extracted_of_lt {payload : Data} (h : payload.length < 8) : extracted payload = [] := by
  rw [extracted, if_pos h]

theorem listed_of_lt {payload : Data} (h : payload.length < 8) : listed payload = [] := by
  rw [listed, if_pos h]

theorem extracted_eq_listed_iff {payload : Data} (h : utf8Paths payload = true) :
    (extracted payload).map Prod.fst = listed payload ↔ whole payload = true := by
  fun_induction utf8Paths payload with
  | case1 payload hlt => simp [extracted_of_lt hlt, listed_of_lt hlt, whole, hlt]
  | case2 payload hlt pathLen rest hpath =>
    rw [extracted, listed, whole, if_neg hlt, if_neg hlt, if_neg hlt]
    dsimp only
    rw [if_pos hpath, if_pos hpath, if_pos hpath]
    simp
  | case3 payload hlt pathLen rest hpath rest' hshort =>
    rw [extracted, listed, whole, if_neg hlt, if_neg hlt, if_neg hlt]
    dsimp only
    rw [if_neg hpath, if_neg hpath, if_neg hpath, if_pos hshort, if_pos hshort]
    cases parsePath (rest.take pathLen) with
    | none =>
      dsimp only
      rw [extracted_of_lt (hshort.trans (by decide))]
      simp
    | some path =>
      dsimp only
      rw [if_pos hshort]
      simp
  | case4 payload hlt pathLen rest hpath path rest' hshort dataLen ih =>
    obtain ⟨hsome, hrest⟩ := (Bool.and_eq_true_iff).mp h
    obtain ⟨p, hp⟩ := Option.isSome_iff_exists.mp hsome
    have hp : parsePath (rest.take pathLen) = some p := hp
    rw [extracted, listed, whole, if_neg hlt, if_neg hlt, if_neg hlt]
    dsimp only
    rw [if_neg hpath, if_neg hpath, if_neg hpath, hp]
    dsimp only
    rw [if_neg hshort, if_neg hshort, if_neg hshort]
    have hlen : (rest'.drop 4).length = rest'.length - 4 := List.length_drop
    by_cases hcut : (rest'.drop 4).length < dataLen
    · -- the listing has the path, and nothing behind it
      have hend : listed (rest'.drop (4 + dataLen)) = [] := listed_of_lt (by
        rw [List.length_drop]
        omega)
      rw [if_pos hcut]
      show [] = [p] ++ listed (rest'.drop (4 + dataLen)) ↔ (decide (4 + dataLen ≤ rest'.length) && _) = true
      rw [hend, decide_eq_false (by omega)]
      simp
    · rw [if_neg hcut, List.map_cons]
      show p :: (extracted ((rest'.drop 4).drop dataLen)).map Prod.fst =
        [p] ++ listed (rest'.drop (4 + dataLen)) ↔
        (decide (4 + dataLen ≤ rest'.length) && whole (rest'.drop (4 + dataLen))) = true
      rw [List.drop_drop, decide_eq_true (by omega), Bool.true_and, ← ih hrest, List.singleton_append,
        List.cons.injEq, and_iff_right rfl]

def payloadOf (data : Data) (hdr : TmtHeader) : Data :=
  slice data (tmtHeaderSize + hdr.metaLen.toNat) hdr.payloadLen.toNat

section Install

variable {tree : Tree} {vfsPath : Path} {data : Data} {hdr : TmtHeader}

theorem tmtInstall_eq (hread : readFile tree vfsPath = some data)
    (hhdr : tmtParseHeader data = some hdr) :
    tmtInstall tree vfsPath = if tmtVerify data ∧
      tmtHeaderSize + hdr.metaLen.toNat + hdr.payloadLen.toNat ≤ data.length then
      (unpack tree hdr (payloadOf data hdr) vfsPath, true) else (tree, false) := by
  unfold tmtInstall
  rw [hread]
  dsimp only
  rw [hhdr, ite_and]
  refine if_congr Iff.rfl ?_ rfl
  dsimp only
  split_ifs
  · omega
  · rfl
  · omega
  · rfl
  · rfl
  · omega

/-- A blob that is installed, with UTF-8 paths: the files that are extracted are those listed if no
entry is cut off. -/
theorem extracted_eq_tmtListContents_iff (hread : readFile tree vfsPath = some data)
    (hhdr : tmtParseHeader data = some hdr) (hinstall : (tmtInstall tree vfsPath).2 = true)
    (hutf8 : utf8Paths (payloadOf data hdr) = true) :
    (tmtInstall tree vfsPath).1 = unpack tree hdr (payloadOf data hdr) vfsPath ∧
      ((extracted (payloadOf data hdr)).map Prod.fst = tmtListContents data ↔
        whole (payloadOf data hdr) = true) := by
  rw [tmtInstall_eq hread hhdr] at hinstall ⊢
  split_ifs at hinstall ⊢ with h
  refine ⟨rfl, ?_⟩
  have hlist : tmtListContents data = listed (payloadOf data hdr) := by
    unfold tmtListContents
    rw [hhdr]
    exact if_neg (by omega)
  rw [hlist]
  exact extracted_eq_listed_iff hutf8

end Install

/-- A blob with a payload and a checksum. -/
def smallBlob (payload checksum : Data) : Data :=
  splice (blobFields ['a'] ['1'] 0 [] payload).flatten 124 checksum

def smallTree (data : Data) : Tree := (writeFile Vfs.init "/a.tmt".toList data).1

theorem readFile_smallTree (data : Data) :
    readFile (smallTree data) "/a.tmt".toList = some data := by
  rw [readFile_eq, smallTree, fileAt_writeFile (by decide), if_pos rfl]

def smallHeader (payloadLen : UInt32) (checksum : Data) : TmtHeader :=
  ⟨1, 0, 0, ['a'], ['1'], 0, payloadLen, checksum⟩

/-- A file of one byte. -/
def wholeBlob : Data := smallBlob [1, 0, 0, 0, 0x61, 1, 0, 0, 0, 0x62]
  [0x7e, 0x9e, 0xff, 0x2d, 0xc5, 0xca, 0x9e, 0xb6, 0x2b, 0x3d, 0x1c, 0xc9, 0xf1, 0xe7, 0xe0, 0xc6,
    0xf8, 0xe1, 0xe2, 0x7a, 0x6d, 0x57, 0x22, 0xc2, 0x53, 0xf4, 0xf2, 0x82, 0x2d, 0xe7, 0x1f, 0xd7]

/-- A file that says five bytes and has none. -/
def cutBlob : Data := smallBlob [1, 0, 0, 0, 0x61, 5, 0, 0, 0]
  [0xf5, 0xad, 0x8e, 0xbf, 0x3e, 0xc6, 0xb1, 0x84, 0xcb, 0x64, 0xbf, 0x52, 0xd6, 0x45, 0x91, 0x56,
    0xbb, 0x98, 0x8c, 0x86, 0x36, 0x2d, 0xc, 0xbe, 0x40, 0xd9, 0x40, 0x9e, 0xb5, 0x5, 0x35, 0x55]

theorem extracted_eq_tmtListContents_whole :
    (tmtInstall (smallTree wholeBlob) "/a.tmt".toList).1 =
        unpack (smallTree wholeBlob) (smallHeader 10 (slice wholeBlob 124 32))
          (payloadOf wholeBlob (smallHeader 10 (slice wholeBlob 124 32))) "/a.tmt".toList ∧
      ((extracted (payloadOf wholeBlob (smallHeader 10 (slice wholeBlob 124 32)))).map Prod.fst =
          tmtListContents wholeBlob ↔
        whole (payloadOf wholeBlob (smallHeader 10 (slice wholeBlob 124 32))) = true) := by
  have hhdr : tmtParseHeader wholeBlob = some (smallHeader 10 (slice wholeBlob 124 32)) := by
    decide +kernel
  refine extracted_eq_tmtListContents_iff (readFile_smallTree wholeBlob) hhdr ?_ (by decide +kernel)
  rw [tmtInstall_eq (readFile_smallTree wholeBlob) hhdr, if_pos (by decide +kernel)]

/-- It is listed and not extracted. -/
theorem tmtListContents_cutBlob :
    tmtVerify cutBlob = true ∧ tmtListContents cutBlob = [['a']] ∧
      tmtInstall (smallTree cutBlob) "/a.tmt".toList =
        (unpack (smallTree cutBlob) (smallHeader 9 (slice cutBlob 124 32))
          (payloadOf cutBlob (smallHeader 9 (slice cutBlob 124 32))) "/a.tmt".toList, true) ∧
      extracted (payloadOf cutBlob (smallHeader 9 (slice cutBlob 124 32))) = [] := by
  have hhdr : tmtParseHeader cutBlob = some (smallHeader 9 (slice cutBlob 124 32)) := by
    decide +kernel
  have hverify : tmtVerify cutBlob = true := by decide +kernel
  refine ⟨hverify, by decide +kernel, ?_, by decide +kernel⟩
  rw [tmtInstall_eq (readFile_smallTree cutBlob) hhdr, if_pos ⟨hverify, by decide +kernel⟩]

end Aeterna.Tomato
