import Aeterna.Lib.Buffer
import Aeterna.Lib.Bytes

/-!
# Names in DNS queries

`encode_name` and `build_query` of `net/dns.rs`, over the bytes of a name. The encoder passes over a
label that has no byte or more than 63, so that the query of such a name asks for another one; only
a query that does not fit the buffer is refused (`faithful_iff`). The encoder leaves no room for the
four bytes that come after the name, which can be out of bounds (`inBounds_iff`).
-/

namespace Aeterna.Net.Dns

open Lib.Bytes Lib.Buffer

abbrev Bytes := List UInt8

def dot : UInt8 := 0x2E

/-- A label that has a length byte. -/
def Valid (label : Bytes) : Prop := label ≠ [] ∧ label.length ≤ 63

instance : DecidablePred Valid := fun _ => inferInstanceAs (Decidable (_ ∧ _))

/-! ## Building a query -/

/-- The loop of `encode_name` from `pos` on, with the length that it returns. -/
def encodeLabels (buf : Bytes) (pos : ℕ) : List Bytes → ℕ × Bytes
  | [] => if pos ≥ buf.length then (0, buf) else (pos + 1, splice buf pos [0])
  | label :: labels =>
    if label = [] ∨ label.length > 63 then encodeLabels buf pos labels
    else if pos + 1 + label.length ≥ buf.length then (0, buf)
    else encodeLabels (splice (splice buf pos [UInt8.ofNat label.length]) (pos + 1) label)
      (pos + 1 + label.length) labels

def encodeName (name buf : Bytes) : ℕ × Bytes := encodeLabels buf 0 (name.splitOn dot)

def queryHeader (queryId : UInt16) : Bytes :=
  beBytes 2 queryId.toNat ++ [0x01, 0x00, 0x00, 0x01, 0, 0, 0, 0, 0, 0]

/-- The length of the query and the buffer; nothing when a byte after the name lies out of its
bounds. -/
def buildQuery (name : Bytes) (queryId : UInt16) (buf : Vector UInt8 512) : Option (ℕ × Bytes) :=
  let buf := splice buf.toList 0 (queryHeader queryId)
  let (nameLen, tail) := encodeName name (buf.drop 12)
  let buf := buf.take 12 ++ tail
  if nameLen = 0 then some (0, buf)
  else if 12 + nameLen + 4 > buf.length then none
  else some (12 + nameLen + 4, splice buf (12 + nameLen) [0, 1, 0, 1])

/-! ## Names -/

/-- The labels of a name, which may end with a dot. -/
def labels (name : Bytes) : List Bytes :=
  (if name.getLast? = some dot then name.dropLast else name).splitOn dot

/-- Labels with their lengths in front. -/
def wire (labels : List Bytes) : Bytes := labels.flatMap fun label => UInt8.ofNat label.length :: label

/-- A name of RFC 1035 without pointers, and what follows it. -/
def decodeName : Bytes → Option (List Bytes × Bytes)
  | [] => none
  | len :: bytes =>
    if len = 0 then some ([], bytes)
    else if len.toNat > 63 ∨ bytes.length < len.toNat then none
    else (decodeName (bytes.drop len.toNat)).map fun r => (bytes.take len.toNat :: r.1, r.2)
termination_by bytes => bytes.length
decreasing_by
  rw [List.length_drop, List.length_cons]
  omega

/-- The question of a query: its name, and four bytes for its type and class. -/
def question (query : Bytes) : Option (List Bytes × Bytes) := decodeName (query.drop 12)

def Encodable (name : Bytes) : Prop := ∀ label ∈ labels name, Valid label

instance : DecidablePred Encodable := fun _ => inferInstanceAs (Decidable (∀ _ ∈ _, _))

/-- A query that is built asks for the address of the name, and none is built for a name that cannot
be encoded. -/
def Faithful (name : Bytes) : Prop :=
  ∀ queryId buf,
    (∀ len query, buildQuery name queryId buf = some (len, query) → len ≠ 0 →
      question (query.take len) = some (labels name, [0, 1, 0, 1])) ∧
    (¬Encodable name → ∃ query, buildQuery name queryId buf = some (0, query))

/-! ## What is built -/

theorem Valid.toNat_lengthByte {label : Bytes} (h : Valid label) :
    (UInt8.ofNat label.length).toNat = label.length := by
  rw [UInt8.toNat_ofNat', Nat.mod_eq_of_lt (Nat.lt_of_le_of_lt h.2 (by decide))]

theorem Valid.lengthByte_ne_zero {label : Bytes} (h : Valid label) :
    UInt8.ofNat label.length ≠ 0 := by
  intro hzero
  have hbyte := h.toNat_lengthByte
  rw [hzero] at hbyte
  exact (List.length_pos_iff.mpr h.1).ne hbyte

theorem decodeName_wire {ls : List Bytes} (h : ∀ label ∈ ls, Valid label) (rest : Bytes) :
    decodeName (wire ls ++ 0 :: rest) = some (ls, rest) := by
  induction ls with
  | nil =>
    show decodeName (0 :: rest) = _
    rw [decodeName, if_pos rfl]
  | cons label ls ih =>
    obtain ⟨hlabel, hls⟩ := List.forall_mem_cons.mp h
    have hwire : wire (label :: ls) ++ 0 :: rest =
        UInt8.ofNat label.length :: (label ++ (wire ls ++ 0 :: rest)) := by
      simp [wire]
    rw [hwire, decodeName, if_neg hlabel.lengthByte_ne_zero, hlabel.toNat_lengthByte, if_neg, List.drop_left, List.take_left, ih hls]
    · rfl
    · rw [List.length_append]
      have hle := hlabel.2
      omega

theorem filter_splitOn (name : Bytes) :
    (name.splitOn dot).filter Valid = (labels name).filter Valid := by
  unfold labels
  split_ifs with h
  · obtain ⟨front, rfl⟩ : ∃ front, name = front ++ [dot] :=
      ⟨name.dropLast, (List.dropLast_append_getLast? dot h).symm⟩
    rw [List.dropLast_concat, List.splitOn_append_cons_self, List.filter_append]
    simp [Valid]
  · rfl

theorem length_wire_cons (label : Bytes) (ls : List Bytes) :
    (wire (label :: ls)).length = 1 + label.length + (wire ls).length := by
  rw [wire, List.flatMap_cons, List.length_append, List.length_cons, Nat.add_comm label.length, wire]

theorem not_valid_iff {label : Bytes} : ¬Valid label ↔ label = [] ∨ label.length > 63 := by
  rw [Valid, not_and_or, not_not, not_le]

theorem encodeLabels_cons {label : Bytes} (h : Valid label) (buf : Bytes) (pos : ℕ)
    (ls : List Bytes) :
    encodeLabels buf pos (label :: ls) =
      if pos + 1 + label.length ≥ buf.length then (0, buf)
      else encodeLabels (splice buf pos (UInt8.ofNat label.length :: label))
        (pos + 1 + label.length) ls := by
  rw [encodeLabels, if_neg fun hbad => not_valid_iff.mpr hbad h]
  split_ifs with hroom
  · rfl
  · have hsplice : splice (splice buf pos [UInt8.ofNat label.length]) (pos + 1) label =
        splice buf pos (UInt8.ofNat label.length :: label) :=
      splice_splice (by rw [List.length_singleton]; omega) rfl
    rw [hsplice]

theorem encodeLabels_filter (buf : Bytes) (pos : ℕ) (ls : List Bytes) :
    encodeLabels buf pos ls = encodeLabels buf pos (ls.filter Valid) := by
  induction ls generalizing buf pos with
  | nil => rfl
  | cons label ls ih =>
    by_cases hv : Valid label
    · rw [List.filter_cons_of_pos (by simpa using hv), encodeLabels_cons hv, encodeLabels_cons hv, ih]
    · rw [List.filter_cons_of_neg (by simpa using hv), encodeLabels, if_pos (not_valid_iff.mp hv), ih]

/-- The loop gives up when no byte is left after the labels, and writes them otherwise. -/
theorem encodeLabels_eq {buf : Bytes} {pos : ℕ} {ls : List Bytes} (hv : ∀ label ∈ ls, Valid label) :
    encodeLabels buf pos ls = (0, (encodeLabels buf pos ls).2) ∧
        buf.length ≤ pos + (wire ls).length ∨
      encodeLabels buf pos ls = (pos + (wire ls).length + 1, splice buf pos (wire ls ++ [0])) ∧
        pos + (wire ls).length < buf.length := by
  induction ls generalizing buf pos with
  | nil =>
    rw [encodeLabels]
    split_ifs with hroom
    · exact Or.inl ⟨rfl, hroom⟩
    · exact Or.inr ⟨rfl, Nat.not_le.mp hroom⟩
  | cons label ls ih =>
    obtain ⟨hlabel, hls⟩ := List.forall_mem_cons.mp hv
    rw [encodeLabels_cons hlabel, length_wire_cons]
    split_ifs with hroom
    · exact Or.inl ⟨rfl, by omega⟩
    · have hfits : pos + (UInt8.ofNat label.length :: label).length ≤ buf.length := by
        rw [List.length_cons]
        omega
      have hsplice : splice (splice buf pos (UInt8.ofNat label.length :: label))
          (pos + 1 + label.length) (wire ls ++ [0]) = splice buf pos (wire (label :: ls) ++ [0]) := by
        rw [splice_splice hfits (by rw [List.length_cons]; omega), ← List.append_assoc]
        rfl
      rw [← hsplice, ← Nat.add_assoc pos, ← Nat.add_assoc pos, ← length_splice hfits]
      exact ih hls

/-- The query of a name is refused, or runs out of the buffer, or holds its valid labels. -/
theorem buildQuery_cases (name : Bytes) (queryId : UInt16) (buf : Vector UInt8 512) :
    500 ≤ (wire ((labels name).filter Valid)).length ∧
        (∃ query, buildQuery name queryId buf = some (0, query)) ∨
      (wire ((labels name).filter Valid)).length < 500 ∧
        (495 < (wire ((labels name).filter Valid)).length ∧ buildQuery name queryId buf = none ∨
          (wire ((labels name).filter Valid)).length ≤ 495 ∧ ∃ len query, len ≠ 0 ∧
            buildQuery name queryId buf = some (len, query) ∧
            question (query.take len) = some ((labels name).filter Valid, [0, 1, 0, 1])) := by
  have hvalid : ∀ label ∈ (labels name).filter Valid, Valid label := by
    intro label hlabel
    simpa using (List.mem_filter.mp hlabel).2
  generalize hls : (labels name).filter Valid = ls at hvalid ⊢
  have hstart : (splice buf.toList 0 (queryHeader queryId)).length = 512 := by
    rw [length_splice (by simp [queryHeader]), Vector.length_toList]
  unfold buildQuery encodeName
  dsimp only
  generalize splice buf.toList 0 (queryHeader queryId) = start at hstart ⊢
  have htail : (start.drop 12).length = 500 := by rw [List.length_drop, hstart]
  rw [encodeLabels_filter, filter_splitOn, hls]
  rcases encodeLabels_eq hvalid with ⟨heq, hle⟩ | ⟨heq, hlt⟩ <;> rw [heq]
  · rw [htail, Nat.zero_add] at hle
    exact Or.inl ⟨hle, _, if_pos rfl⟩
  · rw [htail, Nat.zero_add] at hlt
    have hlen : (wire ls ++ [0]).length = (wire ls).length + 1 := List.length_append
    have hname : start.take 12 ++ splice (start.drop 12) 0 (wire ls ++ [0]) =
        splice start 12 (wire ls ++ [0]) := by
      simp [splice, List.drop_drop]
    refine Or.inr ⟨hlt, ?_⟩
    dsimp only
    rw [hname, if_neg (Nat.succ_ne_zero _), length_splice (by omega), hstart]
    split_ifs with hroom
    · exact Or.inl ⟨by omega, rfl⟩
    · refine Or.inr ⟨by omega, _, _, by omega, rfl, ?_⟩
      have hquery : splice (splice start 12 (wire ls ++ [0])) (12 + (0 + (wire ls).length + 1))
          [0, 1, 0, 1] = splice start 12 (wire ls ++ 0 :: [0, 1, 0, 1]) := by
        rw [splice_splice (by omega) (by omega), List.append_assoc]
        rfl
      have hslice : slice (splice start 12 (wire ls ++ 0 :: [0, 1, 0, 1])) (12 + 0)
          ((wire ls).length + 5) = wire ls ++ 0 :: [0, 1, 0, 1] := by
        rw [slice_splice_inside (by simp; omega) (by simp)]
        exact List.take_of_length_le (by simp)
      have hcount : 12 + (0 + (wire ls).length + 1) + 4 - 12 = (wire ls).length + 5 := by omega
      rw [question, hquery, List.drop_take, hcount]
      rw [slice] at hslice
      rw [hslice, decodeName_wire hvalid]

/-- **Names in queries.** A query asks for its name, and none is built for a name with a label that
cannot be encoded, exactly when every label can be, or the others do not fit the buffer. -/
theorem faithful_iff (name : Bytes) :
    Faithful name ↔ Encodable name ∨ 500 ≤ (wire ((labels name).filter Valid)).length := by
  constructor
  · intro h
    by_contra hneither
    rw [not_or, not_le] at hneither
    obtain ⟨query, hquery⟩ := (h 0 (Vector.replicate 512 0)).2 hneither.1
    rcases buildQuery_cases name 0 (Vector.replicate 512 0) with
      ⟨hlong, -⟩ | ⟨-, ⟨-, hnone⟩ | ⟨-, len, query', hlen, hbuilt, -⟩⟩
    · omega
    · exact absurd (hnone.symm.trans hquery) nofun
    · rw [hbuilt] at hquery
      exact hlen (congrArg Prod.fst (Option.some.inj hquery))
  · intro h queryId buf
    rcases buildQuery_cases name queryId buf with ⟨hlong, query, hquery⟩ | ⟨hshort, hbuilt⟩
    · refine ⟨fun len query' hquery' hlen => ?_, fun _ => ⟨query, hquery⟩⟩
      rw [hquery] at hquery'
      exact absurd (congrArg Prod.fst (Option.some.inj hquery')).symm hlen
    · have hname := h.resolve_right (by omega)
      have hall : (labels name).filter Valid = labels name :=
        List.filter_eq_self.mpr fun label hlabel => decide_eq_true (hname label hlabel)
      refine ⟨fun len query hquery _ => ?_, fun hnot => absurd hname hnot⟩
      rcases hbuilt with ⟨-, hnone⟩ | ⟨-, len', query', -, hquery', hquestion⟩
      · exact absurd (hnone.symm.trans hquery) nofun
      · rw [hquery'] at hquery
        obtain ⟨rfl, rfl⟩ := Prod.mk.inj (Option.some.inj hquery)
        rw [hquestion, hall]

/-- A label of 64 bytes is left out: the query for such a host of `b` is one for `b` itself. -/
theorem not_faithful_longLabel :
    ¬Encodable (List.replicate 64 0x61 ++ [dot, 0x62]) ∧
      (buildQuery (List.replicate 64 0x61 ++ [dot, 0x62]) 1 (Vector.replicate 512 0)).map
        (fun r => question (r.2.take r.1)) = some (some ([[0x62]], [0, 1, 0, 1])) := by
  decide +kernel

/-! ## Bounds -/

/-- A store of bytes from `pos` on, which panics unless all of them lie in the buffer. -/
def store (buf : Bytes) (pos : ℕ) (bytes : Bytes) : Option Bytes :=
  if pos + bytes.length ≤ buf.length then some (splice buf pos bytes) else none

def storeLabels (buf : Bytes) (pos : ℕ) : List Bytes → Option (ℕ × Bytes)
  | [] => if pos ≥ buf.length then some (0, buf) else (store buf pos [0]).map fun buf => (pos + 1, buf)
  | label :: labels =>
    if label = [] ∨ label.length > 63 then storeLabels buf pos labels
    else if pos + 1 + label.length ≥ buf.length then some (0, buf)
    else do
      let buf ← store buf pos [UInt8.ofNat label.length]
      let buf ← store buf (pos + 1) label
      storeLabels buf (pos + 1 + label.length) labels

def storeQuery (name : Bytes) (queryId : UInt16) (buf : Vector UInt8 512) : Option (ℕ × Bytes) := do
  let buf ← store buf.toList 0 (queryHeader queryId)
  let (nameLen, tail) ← storeLabels (buf.drop 12) 0 (name.splitOn dot)
  let buf := buf.take 12 ++ tail
  if nameLen = 0 then some (0, buf)
  else do
    let buf ← store buf (12 + nameLen) [0, 1]
    let buf ← store buf (12 + nameLen + 2) [0, 1]
    some (12 + nameLen + 4, buf)

def InBounds (name : Bytes) : Prop :=
  ∀ queryId buf, (storeQuery name queryId buf).isSome

theorem store_bind {α : Type} {buf bytes : Bytes} {pos : ℕ} (h : pos + bytes.length ≤ buf.length)
    (f : Bytes → Option α) : store buf pos bytes >>= f = f (splice buf pos bytes) := by
  rw [store, if_pos h]
  rfl

theorem storeLabels_eq (buf : Bytes) (pos : ℕ) (ls : List Bytes) :
    storeLabels buf pos ls = some (encodeLabels buf pos ls) := by
  induction ls generalizing buf pos with
  | nil =>
    rw [storeLabels, encodeLabels]
    split_ifs with hroom
    · rfl
    · rw [store, if_pos (show pos + [(0 : UInt8)].length ≤ _ from Nat.not_le.mp hroom)]
      rfl
  | cons label ls ih =>
    rw [storeLabels, encodeLabels]
    split_ifs with hbad hroom
    · exact ih _ _
    · rfl
    · have hone : pos + [UInt8.ofNat label.length].length ≤ buf.length := by
        rw [List.length_singleton]
        omega
      have hlabel : pos + 1 + label.length ≤
          (splice buf pos [UInt8.ofNat label.length]).length := by
        rw [length_splice hone]
        omega
      rw [store_bind hone, store_bind hlabel, ih]

theorem storeQuery_eq (name : Bytes) (queryId : UInt16) (buf : Vector UInt8 512) :
    storeQuery name queryId buf = buildQuery name queryId buf := by
  unfold storeQuery buildQuery encodeName
  rw [store_bind (by simp [queryHeader]), storeLabels_eq]
  dsimp only [Option.bind_eq_bind, Option.bind_some]
  generalize encodeLabels _ 0 (name.splitOn dot) = encoded
  generalize (splice buf.toList 0 (queryHeader queryId)).take 12 ++ encoded.2 = out
  split_ifs with hzero hroom
  · rfl
  · by_cases htype : 12 + encoded.1 + [(0 : UInt8), 1].length ≤ out.length
    · rw [← Option.bind_eq_bind, store_bind htype, store, length_splice htype, if_neg]
      · rfl
      · rw [List.length_cons, List.length_singleton]
        omega
    · rw [store, if_neg htype]
      rfl
  · have htype : 12 + encoded.1 + [(0 : UInt8), 1].length ≤ out.length := by
      rw [List.length_cons, List.length_singleton]
      omega
    have hclass : 12 + encoded.1 + 2 + [(0 : UInt8), 1].length ≤
        (splice out (12 + encoded.1) [0, 1]).length := by
      rw [length_splice htype, List.length_cons, List.length_singleton]
      omega
    rw [← Option.bind_eq_bind, store_bind htype, store_bind hclass,
      splice_splice htype (show 12 + encoded.1 + 2 = _ from rfl)]
    rfl

/-- **Bounds of a query.** All stores lie in the buffer exactly when the labels that are encoded
take at most 495 bytes, or so many that the encoder itself gives up. -/
theorem inBounds_iff (name : Bytes) :
    InBounds name ↔ (wire ((labels name).filter Valid)).length ≤ 495 ∨
      500 ≤ (wire ((labels name).filter Valid)).length := by
  constructor
  · intro h
    by_contra hneither
    rw [not_or, not_le, not_le] at hneither
    have hsome := h 0 (Vector.replicate 512 0)
    rw [storeQuery_eq] at hsome
    rcases buildQuery_cases name 0 (Vector.replicate 512 0) with
      ⟨hlong, -⟩ | ⟨-, ⟨-, hnone⟩ | ⟨hshort, -⟩⟩
    · omega
    · rw [hnone] at hsome
      cases hsome
    · omega
  · intro h queryId buf
    rw [storeQuery_eq]
    rcases buildQuery_cases name queryId buf with
      ⟨-, query, hquery⟩ | ⟨hlt, ⟨hgt, -⟩ | ⟨-, len, query, -, hquery, -⟩⟩
    · rw [hquery]
      rfl
    · omega
    · rw [hquery]
      rfl

/-- Seven labels of 63 bytes and one of 47: the name ends 3 bytes before the end of the buffer. -/
theorem not_inBounds_fullName :
    storeQuery ((List.replicate 7 (List.replicate 63 0x61 ++ [dot])).flatten ++
      List.replicate 47 0x61) 1 (Vector.replicate 512 0) = none := by
  decide +kernel

end Aeterna.Net.Dns
