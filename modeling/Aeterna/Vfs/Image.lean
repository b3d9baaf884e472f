import Aeterna.Vfs.DiskSync

/-!
# The image codec

In a buffer that holds `requiredSize` bytes, `serializeRamfsInto` writes the header and the records
of the nodes whose path fits (`serializeRamfsInto_eq`), and `deserializeRamfs` reads `clipTree` back
from it, whatever follows (`deserializeRamfs_image`): the tree without the nodes whose path is too
long and with every file cut at half the image size. A tree that needs neither is read back as it
was (`deserializeRamfs_serializeRamfsInto`). Whatever the bytes, what is read from them is no larger
than they are (`requiredSize_le_of_deserialize`).
-/

namespace Aeterna.Vfs

open Lib.Bytes

/-! ## Paths as bytes -/

theorem parsePath_pathBytes (path : Path) : parsePath (pathBytes path) = some path := by
  unfold parsePath pathBytes
  have harray : (⟨(String.ofList path).toUTF8.data.toList.toArray⟩ : ByteArray) =
      (String.ofList path).toByteArray := by
    rfl
  rw [harray, String.fromUTF8?, dif_pos (String.ofList path).isValidUTF8]
  exact congrArg some String.toList_ofList

theorem pathBytes_of_parsePath {bytes : Data} {path : Path} (h : parsePath bytes = some path) :
    pathBytes path = bytes := by
  obtain ⟨text, htext, rfl⟩ := Option.map_eq_some_iff.mp h
  unfold String.fromUTF8? at htext
  split_ifs at htext with hvalid
  cases htext
  unfold pathBytes
  rw [String.ofList_toList]
  rfl

/-! ## Records -/

theorem requiredSize_eq (tree : Tree) :
    requiredSize tree = 30 + (tree.toList.map entrySize).sum := rfl

def fitsPath (e : Entry) : Bool := decide ((pathBytes e.1).length ≤ 65535)

/-- The longest file a record holds. -/
def maxFile : ℕ := maxFsBytes / 2

def clipNode : RamNode → RamNode
  | .file data => .file (data.take maxFile)
  | .dir => .dir

/-- The bytes of a node in the image, after its path. -/
def encodeNode : RamNode → Data
  | .dir => [tagDir]
  | .file data =>
    tagFile :: (leBytes 4 (min data.length maxFile) ++ data.take (min data.length maxFile))

def encodeEntry (e : Entry) : Data :=
  leBytes 2 (pathBytes e.1).length ++ pathBytes e.1 ++ encodeNode e.2

theorem length_encodeEntry_le (e : Entry) : (encodeEntry e).length ≤ entrySize e := by
  obtain ⟨path, node⟩ := e
  cases node with
  | dir =>
    simp only [encodeEntry, encodeNode, entrySize, List.length_append, length_leBytes,
      List.length_singleton]
    omega
  | file data =>
    simp only [encodeEntry, encodeNode, entrySize, List.length_append, List.length_cons,
      length_leBytes, List.length_take]
    omega

theorem length_encodeEntry_ge (e : Entry) : 3 ≤ (encodeEntry e).length := by
  obtain ⟨path, node⟩ := e
  cases node with
  | dir => simp [encodeEntry, encodeNode]; omega
  | file data => simp [encodeEntry, encodeNode]; omega

/-! ## Writing -/

theorem RawWriter.write_eq {cap : ℕ} {out data : Data} (h : out.length + data.length ≤ cap) :
    (⟨cap, out⟩ : RawWriter).write data = some ⟨cap, out ++ data⟩ := by
  unfold RawWriter.write RawWriter.remaining
  rw [if_neg (by dsimp only; omega)]

theorem serializeEntry_of_fits {cap count : ℕ} {out : Data} {e : Entry} (hfits : fitsPath e = true)
    (h : out.length + entrySize e ≤ cap) :
    serializeEntry (⟨cap, out⟩, count) e = some (⟨cap, out ++ encodeEntry e⟩, count + 1) := by
  obtain ⟨path, node⟩ := e
  have hlen : ¬ (pathBytes path).length > 65535 := by simpa [fitsPath] using hfits
  cases node with
  | dir =>
    simp only [entrySize] at h
    simp (disch := simp; omega) only [serializeEntry, if_neg hlen, RawWriter.write_eq,
      Option.bind_eq_bind, Option.bind_some, pure]
    simp [encodeEntry, encodeNode]
  | file data =>
    simp only [entrySize] at h
    simp (disch := simp; omega) only [serializeEntry, if_neg hlen, RawWriter.write_eq,
      RawWriter.writeU32, Option.bind_eq_bind, Option.bind_some, pure]
    simp [encodeEntry, encodeNode, maxFile]

theorem serializeEntry_of_not_fits {state : RawWriter × ℕ} {e : Entry}
    (hfits : fitsPath e ≠ true) : serializeEntry state e = some state := by
  obtain ⟨path, node⟩ := e
  have hlen : (pathBytes path).length > 65535 := by simpa [fitsPath] using hfits
  simp only [serializeEntry, if_pos hlen]
  rfl

theorem foldlM_serializeEntry {cap count : ℕ} {out : Data} (es : List Entry)
    (h : out.length + (es.map entrySize).sum ≤ cap) :
    es.foldlM serializeEntry (⟨cap, out⟩, count) =
      some (⟨cap, out ++ (es.filter fitsPath).flatMap encodeEntry⟩,
        count + (es.filter fitsPath).length) := by
  induction es generalizing out count with
  | nil => simp
  | cons e es ih =>
    rw [List.map_cons, List.sum_cons] at h
    have hsize := length_encodeEntry_le e
    rw [List.foldlM_cons]
    by_cases hfits : fitsPath e = true
    · rw [serializeEntry_of_fits hfits (by omega), Option.bind_eq_bind, Option.bind_some,
        ih (by rw [List.length_append]; omega), List.filter_cons_of_pos hfits]
      simp [Nat.add_assoc, Nat.add_comm 1]
    · rw [serializeEntry_of_not_fits hfits, Option.bind_eq_bind, Option.bind_some, ih (by omega),
        List.filter_cons_of_neg hfits]

theorem patch_append {a b b' c : Data} (h : b.length = b'.length) :
    patch (a ++ b ++ c) a.length b' = a ++ b' ++ c := by
  have htake : (a ++ b ++ c).take a.length = a := by rw [List.append_assoc, List.take_left]
  have hdrop : (a ++ b ++ c).drop (a.length + b'.length) = c := by
    rw [← h, ← List.length_append, List.drop_left]
  rw [patch, htake, hdrop]

def header (sectors count : ℕ) : Data :=
  leBytes 8 superMagic ++ leBytes 4 sectors ++ magic ++ leBytes 4 version ++ leBytes 4 count

@[simp] theorem length_header (sectors count : ℕ) : (header sectors count).length = 30 := by
  simp [header, magic]

def recorded (tree : Tree) : List Entry := tree.toList.filter fitsPath

def imageOf (tree : Tree) (sectors : ℕ) : Data :=
  header sectors (recorded tree).length ++ (recorded tree).flatMap encodeEntry

theorem imageOf_append (tree : Tree) (sectors : ℕ) (rest : Data) :
    imageOf tree sectors ++ rest =
      leBytes 8 superMagic ++ (leBytes 4 sectors ++ (magic ++ (leBytes 4 version ++
        (leBytes 4 (recorded tree).length ++
          ((recorded tree).flatMap encodeEntry ++ rest))))) := by
  simp only [imageOf, header, List.append_assoc]

theorem serializeRamfsInto_eq {tree : Tree} {cap : ℕ} (h : requiredSize tree ≤ cap)
    (sectors : ℕ) : serializeRamfsInto tree cap sectors = some (imageOf tree sectors) := by
  have hmagic : magic.length = 10 := rfl
  rw [requiredSize_eq] at h
  simp (disch := simp [hmagic]; omega) only [serializeRamfsInto, RawWriter.writeU64,
    RawWriter.writeU32, RawWriter.write_eq, Option.bind_eq_bind, Option.bind_some]
  rw [foldlM_serializeEntry _ (by simp [hmagic]; omega)]
  rw [Option.bind_some]
  refine congrArg some ?_
  dsimp only
  rw [Nat.zero_add]
  rfl

/-! ## Reading -/

/-- What a record reads back as. -/
def clipEntry (e : Entry) : Entry := (e.1, clipNode e.2)

theorem parseEntry_encodeEntry {e : Entry} (hfits : fitsPath e = true) (rest : Data) :
    parseEntry (encodeEntry e ++ rest) = some (clipEntry e, rest) := by
  obtain ⟨path, node⟩ := e
  have hlen : (pathBytes path).length ≤ 65535 := by simpa [fitsPath] using hfits
  have hvalue : leValue (leBytes 2 (pathBytes path).length) = (pathBytes path).length :=
    leValue_leBytes_of_lt (by omega)
  have hsplit : encodeEntry (path, node) ++ rest =
      leBytes 2 (pathBytes path).length ++ (pathBytes path ++ (encodeNode node ++ rest)) := by
    simp [encodeEntry]
  unfold parseEntry
  rw [hsplit, if_neg (by rw [List.length_append, length_leBytes]; omega)]
  rw [take_leBytes_append, drop_leBytes_append, hvalue,
    if_neg (by rw [List.length_append]; omega), List.take_left, List.drop_left,
    parsePath_pathBytes]
  cases node with
  | dir => rfl
  | file data =>
    have hm : leValue (leBytes 4 (min data.length maxFile)) = min data.length maxFile :=
      leValue_leBytes_of_lt (lt_of_le_of_lt (min_le_right _ _) (by decide))
    have htake : (data.take (min data.length maxFile)).length = min data.length maxFile := by
      simp
    have hclip : data.take (min data.length maxFile) = data.take maxFile := by
      rw [min_comm, ← List.take_eq_take_min]
    simp only [encodeNode, List.cons_append, List.append_assoc]
    rw [if_neg (by decide), if_pos trivial,
      if_neg (by rw [List.length_append, length_leBytes]; omega), take_leBytes_append,
      drop_leBytes_append, hm, if_neg (by rw [List.length_append, htake]; omega),
      List.take_left' htake, List.drop_left' htake, hclip]
    rfl

theorem parseEntries_encode (es : List Entry) (hfits : ∀ e ∈ es, fitsPath e = true) (rest : Data)
    (tree : Tree) :
    parseEntries es.length (es.flatMap encodeEntry ++ rest) tree =
      (es.map clipEntry).foldl (fun tree (path, node) => tree.insert path node) tree := by
  induction es generalizing tree with
  | nil => rfl
  | cons e es ih =>
    rw [List.flatMap_cons, List.append_assoc, List.length_cons, parseEntries,
      parseEntry_encodeEntry (hfits e List.mem_cons_self)]
    exact ih (fun e' he' => hfits e' (List.mem_cons_of_mem _ he')) _

def ofEntries (es : List Entry) : Tree :=
  es.foldl (fun tree (path, node) => tree.insert path node) ∅

/-- The tree that the image of `tree` holds. -/
def clipTree (tree : Tree) : Tree := ofEntries ((recorded tree).map clipEntry)

theorem deserializeRamfs_image {tree : Tree} (sectors : ℕ) (rest : Data)
    (hcount : (recorded tree).length < 256 ^ 4) :
    deserializeRamfs (imageOf tree sectors ++ rest) = some (clipTree tree) := by
  have hcount' : leValue (leBytes 4 (recorded tree).length) = (recorded tree).length :=
    leValue_leBytes_of_lt hcount
  have hmagicLen : magic.length = 10 := rfl
  have hlen : ¬ (imageOf tree sectors ++ rest).length < 8 + 4 + magic.length + 4 + 4 := by
    rw [imageOf, List.length_append, List.length_append, length_header]
    omega
  unfold deserializeRamfs
  rw [if_neg hlen, imageOf_append]
  generalize hX : (recorded tree).flatMap encodeEntry ++ rest = X
  generalize hbuf : leBytes 8 superMagic ++ (leBytes 4 sectors ++ (magic ++ (leBytes 4 version ++
    (leBytes 4 (recorded tree).length ++ X)))) = buf
  -- the header field by field, each from the one before it
  have h12 : buf.drop 12 =
      magic ++ (leBytes 4 version ++ (leBytes 4 (recorded tree).length ++ X)) := by
    rw [← hbuf, show 12 = 8 + 4 from rfl, ← List.drop_drop, drop_leBytes_append,
      drop_leBytes_append]
  have h22 : buf.drop 22 = leBytes 4 version ++ (leBytes 4 (recorded tree).length ++ X) := by
    rw [show 22 = 12 + magic.length from rfl, ← List.drop_drop, h12, List.drop_left]
  have h26 : buf.drop 26 = leBytes 4 (recorded tree).length ++ X := by
    rw [show 26 = 22 + 4 from rfl, ← List.drop_drop, h22, drop_leBytes_append]
  have h30 : buf.drop 30 = X := by
    rw [show 30 = 26 + 4 from rfl, ← List.drop_drop, h26, drop_leBytes_append]
  have h8 : buf.take 8 = leBytes 8 superMagic := by rw [← hbuf, take_leBytes_append]
  rw [h8, h12, h22, h26, h30, take_leBytes_append, take_leBytes_append, hcount', ← hX,
    parseEntries_encode (recorded tree) fun e he => (List.mem_filter.mp he).2]
  rfl

/-! ## What the image holds -/

theorem mem_recorded {tree : Tree} {path : Path} {node : RamNode} :
    (path, node) ∈ recorded tree ↔
      tree[path]? = some node ∧ (pathBytes path).length ≤ 65535 := by
  rw [recorded]
  simp [fitsPath]

theorem getElem?_clipTree (tree : Tree) (path : Path) :
    (clipTree tree)[path]? =
      if (pathBytes path).length ≤ 65535 then tree[path]?.map clipNode else none := by
  have hmem : ∀ node, (path, node) ∈ (recorded tree).map clipEntry ↔
      ∃ old, (tree[path]? = some old ∧ (pathBytes path).length ≤ 65535) ∧ clipNode old = node := by
    intro node
    simp only [List.mem_map, Prod.exists, clipEntry, Prod.mk.injEq]
    constructor
    · rintro ⟨p, old, hold, rfl, rfl⟩
      exact ⟨old, mem_recorded.mp hold, rfl⟩
    · rintro ⟨old, hold, rfl⟩
      exact ⟨path, old, mem_recorded.mpr hold, rfl, rfl⟩
  unfold clipTree ofEntries
  cases hold : tree[path]? with
  | none =>
    rw [foldl_insert_of_not_mem]
    · simp
    · intro node hnode
      obtain ⟨old, ⟨h, -⟩, -⟩ := (hmem node).mp hnode
      simp [hold] at h
  | some old =>
    split_ifs with hlen
    · refine foldl_insert_of_mem _ ((hmem _).mpr ⟨old, ⟨hold, hlen⟩, rfl⟩) fun node' hnode' => ?_
      obtain ⟨old', ⟨h, -⟩, rfl⟩ := (hmem node').mp hnode'
      rw [hold] at h
      rw [Option.some.inj h]
    · rw [foldl_insert_of_not_mem]
      · simp
      · intro node hnode
        obtain ⟨-, ⟨-, h⟩, -⟩ := (hmem node).mp hnode
        exact hlen h

structure Fits (tree : Tree) : Prop where
  paths : ∀ path ∈ tree, (pathBytes path).length ≤ 65535
  files : ∀ (path : Path) (data : Data), tree[path]? = some (.file data) → data.length ≤ maxFile

theorem clipTree_eq_iff (tree : Tree) : clipTree tree = tree ↔ Fits tree := by
  constructor
  · intro h
    have hpath : ∀ path ∈ tree, (pathBytes path).length ≤ 65535 := by
      intro path hp
      by_contra hlong
      have hnone := getElem?_clipTree tree path
      rw [if_neg hlong, h] at hnone
      exact mem_iff.mp hp hnone
    refine ⟨hpath, fun path data hdata => ?_⟩
    have hmem : path ∈ tree := by rw [mem_iff, hdata]; simp
    have hclip := getElem?_clipTree tree path
    rw [if_pos (hpath path hmem), h, hdata, Option.map_some, Option.some.injEq, clipNode,
      RamNode.file.injEq] at hclip
    rw [hclip]
    exact List.length_take_le _ _
  · intro h
    apply Std.ExtTreeMap.ext_getElem?
    intro path
    rw [getElem?_clipTree]
    cases hnode : tree[path]? with
    | none => simp
    | some node =>
      rw [if_pos (h.paths path (by rw [mem_iff, hnode]; simp)), Option.map_some]
      cases node with
      | dir => rfl
      | file data => rw [clipNode, List.take_of_length_le (h.files path data hnode)]

/-! ## The size of what is read -/

theorem length_of_parseEntry {rest rest' : Data} {e : Entry}
    (h : parseEntry rest = some (e, rest')) :
    rest.length = entrySize e + rest'.length := by
  unfold parseEntry at h
  dsimp only at h
  split_ifs at h with hshort hcut
  generalize leValue (rest.take 2) = pathLen at h hcut
  rw [List.length_drop] at hcut
  split at h
  case h_2 => cases h
  case h_1 path tag rest₁ hpath hrest =>
    -- the bytes of the path are those it was read from
    have hbytes : (pathBytes path).length = pathLen := by
      rw [pathBytes_of_parsePath hpath, List.length_take, List.length_drop]
      omega
    have hlen : rest.length = 2 + pathLen + 1 + rest₁.length := by
      have := congrArg List.length hrest
      rw [List.length_drop, List.length_drop, List.length_cons] at this
      omega
    split_ifs at h with hdir hfile hshort' hcut'
    · cases h
      rw [hlen, entrySize, hbytes]
    · cases h
      simp only [entrySize, List.length_take, List.length_drop]
      omega

/-- What is read into the tree is a list of records that were there. -/
theorem parseEntries_eq_foldl (count : ℕ) (rest : Data) (tree : Tree) :
    ∃ es : List Entry, (es.map entrySize).sum ≤ rest.length ∧
      parseEntries count rest tree =
        es.foldl (fun tree (path, node) => tree.insert path node) tree := by
  induction count generalizing rest tree with
  | zero => exact ⟨[], by simp, rfl⟩
  | succ count ih =>
    rw [parseEntries]
    cases he : parseEntry rest with
    | none => exact ⟨[], by simp, rfl⟩
    | some r =>
      obtain ⟨⟨path, node⟩, rest'⟩ := r
      obtain ⟨es, hsum, hes⟩ := ih rest' (tree.insert path node)
      refine ⟨(path, node) :: es, ?_, hes⟩
      rw [List.map_cons, List.sum_cons, length_of_parseEntry he]
      omega

theorem mem_of_getElem?_ofEntries {es : List Entry} {path : Path} {node : RamNode}
    (h : (ofEntries es)[path]? = some node) : (path, node) ∈ es := by
  induction es using List.reverseRecOn with
  | nil => simp [ofEntries] at h
  | append_singleton es e ih =>
    obtain ⟨p, n⟩ := e
    rw [ofEntries, List.foldl_append, List.foldl_cons, List.foldl_nil, getElem?_insert] at h
    split_ifs at h with hp
    · cases h
      simp [hp]
    · exact List.mem_append_left _ (ih h)

theorem nodup_toList (tree : Tree) : tree.toList.Nodup := by
  refine Std.ExtTreeMap.distinct_keys_toList.imp fun {a b} hne heq => hne ?_
  rw [heq]
  exact Std.ReflCmp.compare_self

theorem requiredSize_ofEntries_le (es : List Entry) :
    requiredSize (ofEntries es) ≤ 30 + (es.map entrySize).sum := by
  have hsub : (ofEntries es).toList ⊆ es := by
    rintro ⟨path, node⟩ h
    rw [Std.ExtTreeMap.mem_toList_iff_getElem?_eq_some] at h
    exact mem_of_getElem?_ofEntries h
  -- no path is twice in the tree, so its records are some of the list's
  obtain ⟨l, hperm, hl⟩ := List.Nodup.subperm (nodup_toList (ofEntries es)) hsub
  have hsum : ((ofEntries es).toList.map entrySize).sum ≤ (es.map entrySize).sum := by
    rw [← (hperm.map entrySize).sum_eq]
    exact (hl.map entrySize).sum_le_sum fun _ _ => Nat.zero_le _
  rw [requiredSize_eq]
  omega

theorem requiredSize_le_of_deserialize {buf : Data} {tree : Tree}
    (h : deserializeRamfs buf = some tree) : requiredSize tree ≤ buf.length := by
  unfold deserializeRamfs at h
  split_ifs at h with hshort
  have hmagic : magic.length = 10 := rfl
  obtain ⟨es, hsum, hes⟩ :=
    parseEntries_eq_foldl (leValue ((buf.drop 26).take 4)) (buf.drop 30) ∅
  rw [Option.some.injEq, hes] at h
  subst h
  rw [List.length_drop] at hsum
  calc requiredSize (ofEntries es) ≤ 30 + (es.map entrySize).sum := requiredSize_ofEntries_le es
    _ ≤ buf.length := by omega

/-! ## The round trip -/

theorem Fits.recorded_eq {tree : Tree} (h : Fits tree) : recorded tree = tree.toList := by
  refine List.filter_eq_self.mpr ?_
  rintro ⟨path, node⟩ hmem
  rw [Std.ExtTreeMap.mem_toList_iff_getElem?_eq_some] at hmem
  have hpath : path ∈ tree := by rw [mem_iff, hmem]; simp
  simpa [fitsPath] using h.paths path hpath

theorem length_encodeEntry {path : Path} {node : RamNode}
    (h : ∀ data, node = .file data → data.length ≤ maxFile) :
    (encodeEntry (path, node)).length = entrySize (path, node) := by
  cases node with
  | dir =>
    simp only [encodeEntry, encodeNode, entrySize, List.length_append, length_leBytes,
      List.length_singleton]
  | file data =>
    have hdata := h data rfl
    simp only [encodeEntry, encodeNode, entrySize, List.length_append, List.length_cons,
      length_leBytes, List.length_take]
    omega

theorem Fits.length_imageOf {tree : Tree} (h : Fits tree) (sectors : ℕ) :
    (imageOf tree sectors).length = requiredSize tree := by
  have hsizes : tree.toList.map (fun e => (encodeEntry e).length) =
      tree.toList.map entrySize := by
    refine List.map_congr_left ?_
    rintro ⟨path, node⟩ hmem
    rw [Std.ExtTreeMap.mem_toList_iff_getElem?_eq_some] at hmem
    exact length_encodeEntry fun data hdata => h.files path data (hdata ▸ hmem)
  rw [imageOf, List.length_append, length_header, h.recorded_eq, List.length_flatMap, hsizes,
    requiredSize_eq]

/-- A tree that fits is written in exactly `requiredSize` bytes and read back from them, whatever
number of zeros follows. -/
theorem deserializeRamfs_serializeRamfsInto {tree : Tree} {cap : ℕ} (hfits : Fits tree)
    (hcount : tree.size < 2 ^ 32) (hcap : requiredSize tree ≤ cap) (sectors zeros : ℕ) :
    ∃ image, serializeRamfsInto tree cap sectors = some image ∧
      image.length = requiredSize tree ∧
      deserializeRamfs (image ++ List.replicate zeros 0) = some tree := by
  have hrecorded : (recorded tree).length < 256 ^ 4 := by
    rw [hfits.recorded_eq, Std.ExtTreeMap.length_toList]
    exact hcount
  refine ⟨imageOf tree sectors, serializeRamfsInto_eq hcap sectors, hfits.length_imageOf sectors, ?_⟩
  rw [deserializeRamfs_image sectors _ hrecorded, (clipTree_eq_iff tree).mpr hfits]

/-- The root and one file in it. -/
def oneFile (data : Data) : Tree := ofEntries [(rootPath, .dir), ("/big".toList, .file data)]

theorem getElem?_oneFile (data : Data) (path : Path) :
    (oneFile data)[path]? =
      if "/big".toList = path then some (.file data)
      else if rootPath = path then some .dir else none := by
  simp only [oneFile, ofEntries, List.foldl_cons, List.foldl_nil, getElem?_insert]
  simp

theorem requiredSize_oneFile_le (data : Data) : requiredSize (oneFile data) ≤ 45 + data.length := by
  have hle := requiredSize_ofEntries_le [(rootPath, .dir), ("/big".toList, .file data)]
  have hroot : (pathBytes rootPath).length = 1 := by decide +kernel
  have hbig : (pathBytes "/big".toList).length = 4 := by decide +kernel
  simp only [List.map_cons, List.map_nil, List.sum_cons, List.sum_nil, entrySize] at hle
  unfold oneFile
  omega

theorem fits_oneFile {data : Data} (h : data.length ≤ maxFile) : Fits (oneFile data) := by
  refine ⟨fun path hpath => ?_, fun path data' hdata => ?_⟩
  · rw [mem_iff, getElem?_oneFile] at hpath
    split_ifs at hpath with hbig hroot
    · rw [← hbig]
      decide +kernel
    · rw [← hroot]
      decide +kernel
    · exact absurd rfl hpath
  · rw [getElem?_oneFile] at hdata
    split_ifs at hdata with hbig hroot
    · cases hdata
      exact h
    · cases hdata

theorem size_oneFile_le (data : Data) : (oneFile data).size ≤ 2 := by
  refine le_trans Std.ExtTreeMap.size_insert_le (Nat.succ_le_succ ?_)
  exact le_trans Std.ExtTreeMap.size_insert_le (by simp)

/-- One small file, in a buffer of one sector. -/
theorem deserializeRamfs_serializeRamfsInto_oneFile :
    ∃ image, serializeRamfsInto (oneFile [7]) 512 1 = some image ∧
      image.length = requiredSize (oneFile [7]) ∧
      deserializeRamfs (image ++ List.replicate 100 0) = some (oneFile [7]) :=
  deserializeRamfs_serializeRamfsInto (fits_oneFile (by decide))
    (lt_of_le_of_lt (size_oneFile_le _) (by decide))
    (le_trans (requiredSize_oneFile_le _) (by decide)) 1 100

end Aeterna.Vfs
