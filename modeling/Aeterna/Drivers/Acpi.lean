import Mathlib
import Aeterna.Lib.Bytes
import Aeterna.Lib.Reader

/-!
# The sleep types of soft off

`parse_s5_from_dsdt` of `src/acpi/mod.rs` looks for the package `_S5_` in the AML code of the DSDT
and takes its first two integers, which go to the power management registers at shutdown. No table
makes it read out of bounds. The search stops 20 bytes before the end of the table, so that a package
that starts there is not found (`finds_iff`).
-/

namespace Aeterna.Drivers.Acpi

open Lib.Bytes Lib.Buffer Lib.Reader

abbrev Bytes := List UInt8

/-! ## The search -/

/-- The loop over the bytes after the first one of a package length, with as many to come as its
first argument says. -/
def pkgLoop (aml : Bytes) (offset byteCount : ℕ) : ℕ → ℕ → ℕ → Checked (ℕ × ℕ)
  | 0, _, len => answer (some (offset + 1 + byteCount, len))
  | more + 1, i, len =>
    if offset + 1 + i ≥ aml.length then answer (some (offset + 1 + byteCount, len))
    else do
      let b ← index aml (offset + 1 + i)
      pkgLoop aml offset byteCount more (i + 1) (len ||| b.toNat <<< (4 + 8 * i))

/-- The position after a package length, and the length. -/
def parsePkgLength (aml : Bytes) (offset : ℕ) : Checked (ℕ × ℕ) :=
  if offset ≥ aml.length then answer (some (offset, 0))
  else do
    let lead ← index aml offset
    let byteCount := (lead >>> 6 &&& 0x03).toNat
    if byteCount = 0 then answer (some (offset + 1, (lead &&& 0x3F).toNat))
    else pkgLoop aml offset byteCount byteCount 0 (lead &&& 0x0F).toNat

/-- A constant of `n` bytes after its prefix, and the position after it. -/
def readConst (aml : Bytes) (offset n next : ℕ) : Checked (UInt64 × ℕ) :=
  if offset + n < aml.length then do
    let bytes ← indices aml (offset + 1) n
    answer (some (UInt64.ofNat (leValue bytes), offset + 1 + n))
  else answer (some (0, next))

def readAmlInteger (aml : Bytes) (offset : ℕ) : Checked (UInt64 × ℕ) :=
  if offset ≥ aml.length then answer (some (0, offset))
  else do
    let b ← index aml offset
    if b = 0x0A then readConst aml offset 1 (offset + 1)
    else if b = 0x0B then readConst aml offset 2 (offset + 3)
    else if b = 0x0C then readConst aml offset 4 (offset + 5)
    else if b = 0x00 then answer (some (0, offset + 1))
    else if b = 0x01 then answer (some (1, offset + 1))
    else if b = 0xFF then answer (some (0xFFFFFFFFFFFFFFFF, offset + 1))
    else answer (some (b.toUInt64, offset + 1))

def s5Name : Bytes := [0x5F, 0x53, 0x35, 0x5F]

/-- The first two integers of the package whose length is at a position. -/
def packageTypes (aml : Bytes) (start : ℕ) : Checked (UInt16 × UInt16) := do
  let (dataStart, _) ← parsePkgLength aml start
  if dataStart ≥ aml.length then answer none
  else if dataStart + 1 ≥ aml.length then answer none
  else do
    let (slpTypa, next) ← readAmlInteger aml (dataStart + 1)
    let (slpTypb, _) ← readAmlInteger aml next
    answer (some (slpTypa.toUInt16, slpTypb.toUInt16))

/-- One pass of the loop: the two sleep types, or nothing if the search goes on. -/
def s5At (aml : Bytes) (i : ℕ) : Checked (UInt16 × UInt16) := do
  let b ← index aml i
  if b = 0x08 ∧ i + 5 < aml.length then do
    let name ← range aml (i + 1) (i + 5)
    if name = s5Name ∧ i + 5 < aml.length then do
      let op ← index aml (i + 5)
      if op = 0x12 then packageTypes aml (i + 5 + 1) else answer none
    else answer none
  else answer none

/-- The loop from position `i` on. A panic ends it. -/
def scanFrom (aml : Bytes) : ℕ → ℕ → Option (UInt16 × UInt16)
  | 0, _ => some (5, 5)
  | n + 1, i =>
    match (s5At aml i).run with
    | none => none
    | some none => scanFrom aml n (i + 1)
    | some (some types) => some types

/-- The two sleep types for the AML code of a table, which follows a header of 36 bytes. -/
def parseS5FromDsdt (aml : Bytes) : Option (UInt16 × UInt16) :=
  if 36 + aml.length < 36 + 8 then some (5, 5)
  else scanFrom aml (aml.length - 20) 0

/-! ## Packages -/

inductive Const where
  | zero
  | one
  | ones
  | byte (v : UInt8)
  | word (v : UInt16)
  | dword (v : UInt32)

namespace Const

def encode : Const → Bytes
  | zero => [0x00]
  | one => [0x01]
  | ones => [0xFF]
  | byte v => 0x0A :: leBytes 1 v.toNat
  | word v => 0x0B :: leBytes 2 v.toNat
  | dword v => 0x0C :: leBytes 4 v.toNat

def value : Const → UInt64
  | zero => 0
  | one => 1
  | ones => 0xFFFFFFFFFFFFFFFF
  | byte v => UInt64.ofNat v.toNat
  | word v => UInt64.ofNat v.toNat
  | dword v => UInt64.ofNat v.toNat

end Const

/-- A package with its length, its number of elements and the first two of them. -/
structure Package where
  lead : UInt8
  more : Bytes
  numElements : UInt8
  slpTypa : Const
  slpTypb : Const
  more_length : more.length = (lead >>> 6 &&& 0x03).toNat

namespace Package

def encode (p : Package) : Bytes :=
  p.lead :: (p.more ++ p.numElements :: (p.slpTypa.encode ++ p.slpTypb.encode))

def types (p : Package) : UInt16 × UInt16 :=
  (p.slpTypa.value.toUInt16, p.slpTypb.value.toUInt16)

end Package

def pattern : Bytes := 0x08 :: (s5Name ++ [0x12])

def Occurs (aml : Bytes) (i : ℕ) : Prop := pattern <+: aml.drop i

/-- The first occurrence of the pattern is at `i` and is followed by the package. -/
def FirstPackage (aml : Bytes) (i : ℕ) (p : Package) : Prop :=
  (∀ j < i, ¬ Occurs aml j) ∧ pattern ++ p.encode <+: aml.drop i

/-- The search reads only inside the table, finds the package after the first occurrence, and
gives the defaults if the pattern does not occur. -/
def Finds (aml : Bytes) : Prop :=
  ∃ types, parseS5FromDsdt aml = some types ∧
    (∀ i p, FirstPackage aml i p → types = p.types) ∧
    ((∀ i, ¬ Occurs aml i) → types = (5, 5))

theorem bind_answer {α β : Type} (v : α) (f : α → Checked β) :
    answer (some v) >>= f = f v := rfl

/-! ## Bounds -/

theorem exists_answer_pkgLoop (aml : Bytes) (offset byteCount more i len : ℕ) :
    ∃ len', pkgLoop aml offset byteCount more i len =
      answer (some (offset + 1 + byteCount, len')) := by
  induction more generalizing i len with
  | zero => exact ⟨len, rfl⟩
  | succ more ih =>
    rw [pkgLoop]
    split_ifs with hend
    · exact ⟨len, rfl⟩
    · obtain ⟨len', hloop⟩ := ih (i + 1) _
      exact ⟨len', answer_some_bind (index_eq (Nat.not_le.mp hend)) hloop⟩

theorem exists_answer_parsePkgLength {aml : Bytes} {offset : ℕ} (h : offset < aml.length) :
    ∃ len, parsePkgLength aml offset =
      answer (some (offset + 1 + (aml[offset] >>> 6 &&& 0x03).toNat, len)) := by
  obtain ⟨len, hloop⟩ := exists_answer_pkgLoop aml offset (aml[offset] >>> 6 &&& 0x03).toNat
    (aml[offset] >>> 6 &&& 0x03).toNat 0 (aml[offset] &&& 0x0F).toNat
  rw [parsePkgLength, if_neg (Nat.not_le.mpr h), index_eq h, bind_answer]
  dsimp only
  split_ifs with hzero
  · rw [hzero]
    exact ⟨_, rfl⟩
  · exact ⟨len, hloop⟩

theorem exists_answer_readConst (aml : Bytes) (offset n next : ℕ) :
    ∃ r, readConst aml offset n next = answer (some r) := by
  rw [readConst]
  split_ifs with h
  · exact ⟨_, answer_some_bind (indices_eq (by omega)) rfl⟩
  · exact ⟨_, rfl⟩

theorem exists_answer_readAmlInteger (aml : Bytes) (offset : ℕ) :
    ∃ r, readAmlInteger aml offset = answer (some r) := by
  rw [readAmlInteger]
  split_ifs with hend
  · exact ⟨_, rfl⟩
  · rw [index_eq (Nat.not_le.mp hend), bind_answer]
    split_ifs <;> first | exact ⟨_, rfl⟩ | exact exists_answer_readConst _ _ _ _

theorem exists_answer_packageTypes (aml : Bytes) (start : ℕ) :
    ∃ r, packageTypes aml start = answer r := by
  have hlength : ∃ r, parsePkgLength aml start = answer (some r) := by
    by_cases hend : start < aml.length
    · exact ⟨_, (exists_answer_parsePkgLength hend).choose_spec⟩
    · exact ⟨_, if_pos (Nat.not_lt.mp hend)⟩
  obtain ⟨⟨dataStart, len⟩, hlength⟩ := hlength
  rw [packageTypes, hlength, bind_answer]
  dsimp only
  split_ifs
  · exact ⟨_, rfl⟩
  · exact ⟨_, rfl⟩
  · obtain ⟨a, ha⟩ := exists_answer_readAmlInteger aml (dataStart + 1)
    obtain ⟨b, hb⟩ := exists_answer_readAmlInteger aml a.2
    exact ⟨_, answer_some_bind ha (answer_some_bind hb rfl)⟩

theorem occurs_iff {aml : Bytes} {i : ℕ} (h : i + 5 < aml.length) :
    Occurs aml i ↔
      aml[i] = 0x08 ∧ (aml.drop (i + 1)).take 4 = s5Name ∧ aml[i + 5] = 0x12 := by
  have hdrop : aml.drop i =
      aml[i] :: ((aml.drop (i + 1)).take 4 ++ aml[i + 5] :: aml.drop (i + 5 + 1)) := by
    rw [← List.drop_eq_getElem_cons h, List.drop_eq_getElem_cons (by omega : i < aml.length)]
    conv_lhs => rw [← List.take_append_drop 4 (aml.drop (i + 1)), List.drop_drop]
  have hlen : ((aml.drop (i + 1)).take 4).length = s5Name.length := by
    rw [List.length_take, List.length_drop]
    exact Nat.min_eq_left (by omega)
  rw [Occurs, hdrop, pattern, List.cons_prefix_cons, eq_comm]
  refine and_congr_right fun _ => ⟨?_, ?_⟩
  · rintro ⟨rest, hrest⟩
    rw [List.append_assoc] at hrest
    obtain ⟨hname, hop⟩ := List.append_inj hrest hlen.symm
    exact ⟨hname.symm, (List.cons.inj hop).1.symm⟩
  · rintro ⟨hname, hop⟩
    rw [hname, hop]
    exact ⟨aml.drop (i + 5 + 1), by rw [List.append_assoc]; rfl⟩

/-- The search looks at the package where the pattern occurs and goes on elsewhere. -/
theorem s5At_eq {aml : Bytes} {i : ℕ} (h : i + 5 < aml.length) [Decidable (Occurs aml i)] :
    s5At aml i = if Occurs aml i then packageTypes aml (i + 5 + 1) else answer none := by
  have hiff := occurs_iff h
  rw [s5At, index_eq (by omega : i < aml.length), bind_answer]
  by_cases hb : aml[i] = 0x08
  · rw [if_pos ⟨hb, h⟩, range_eq (by omega) (by omega), bind_answer,
      show i + 5 - (i + 1) = 4 by omega]
    by_cases hname : (aml.drop (i + 1)).take 4 = s5Name
    · rw [if_pos ⟨hname, h⟩, index_eq h, bind_answer]
      by_cases hop : aml[i + 5] = 0x12
      · rw [if_pos hop, if_pos (hiff.mpr ⟨hb, hname, hop⟩)]
      · rw [if_neg hop, if_neg fun ho => hop (hiff.mp ho).2.2]
    · rw [if_neg fun hc => hname hc.1, if_neg fun ho => hname (hiff.mp ho).2.1]
  · rw [if_neg fun hc => hb hc.1, if_neg fun ho => hb (hiff.mp ho).1]

theorem s5At_of_not_occurs {aml : Bytes} {i : ℕ} (h : i + 5 < aml.length) (ho : ¬ Occurs aml i) :
    s5At aml i = answer none := by
  classical
  rw [s5At_eq h, if_neg ho]

theorem exists_answer_s5At {aml : Bytes} {i : ℕ} (h : i + 5 < aml.length) :
    ∃ r, s5At aml i = answer r := by
  classical
  rw [s5At_eq h]
  split_ifs
  · exact exists_answer_packageTypes aml _
  · exact ⟨none, rfl⟩

theorem scanFrom_skip {aml : Bytes} {n i k : ℕ} (h : i + k + n + 20 ≤ aml.length)
    (hno : ∀ j < k, ¬ Occurs aml (i + j)) :
    scanFrom aml (k + n) i = scanFrom aml n (i + k) := by
  induction k generalizing i with
  | zero => rw [Nat.zero_add, Nat.add_zero]
  | succ k ih =>
    have hfirst := s5At_of_not_occurs (by omega : i + 5 < aml.length) (hno 0 k.succ_pos)
    have hrest := ih (i := i + 1) (by omega) fun j hj => by
      rw [show i + 1 + j = i + (j + 1) by omega]
      exact hno _ (Nat.succ_lt_succ hj)
    rw [show k + 1 + n = k + n + 1 by omega, scanFrom, hfirst]
    rw [show i + (k + 1) = i + 1 + k by omega]
    exact hrest

theorem exists_scanFrom {aml : Bytes} {n i : ℕ} (h : i + n + 20 ≤ aml.length) :
    ∃ types, scanFrom aml n i = some types := by
  induction n generalizing i with
  | zero => exact ⟨(5, 5), rfl⟩
  | succ n ih =>
    obtain ⟨_ | types, hstep⟩ := exists_answer_s5At (by omega : i + 5 < aml.length)
    · rw [scanFrom, hstep]
      exact ih (by omega)
    · rw [scanFrom, hstep]
      exact ⟨types, rfl⟩

/-! ## Occurrences -/

theorem readConst_append {aml front rest : Bytes} {offset : ℕ} {b : UInt8} {n v : ℕ}
    (haml : aml = front ++ (b :: leBytes n v ++ rest)) (hoffset : offset = front.length)
    (hv : v < 256 ^ n) (next : ℕ) :
    readConst aml offset n next =
      answer (some (UInt64.ofNat v, offset + (b :: leBytes n v).length)) := by
  have haml' : aml = (front ++ [b]) ++ (leBytes n v ++ rest) := by
    rw [haml, List.append_assoc]
    rfl
  have hlen : aml.length = offset + 1 + n + rest.length := by
    rw [haml', hoffset]
    simp only [List.length_append, List.length_singleton, length_leBytes]
    omega
  rw [readConst, if_pos (by omega), List.length_cons, length_leBytes]
  refine answer_some_bind (indices_append haml' ?_ (length_leBytes n v)) ?_
  · rw [hoffset, List.length_append, List.length_singleton]
  · rw [leValue_leBytes_of_lt hv]
    congr 3
    omega

theorem readAmlInteger_append {aml front rest : Bytes} {offset : ℕ} (c : Const)
    (haml : aml = front ++ (c.encode ++ rest)) (hoffset : offset = front.length) :
    readAmlInteger aml offset = answer (some (c.value, offset + c.encode.length)) := by
  have hlt : offset < aml.length := by
    rw [haml, hoffset]
    cases c <;> simp [Const.encode]
  rw [readAmlInteger, if_neg (Nat.not_le.mpr hlt)]
  cases c with
  | zero => exact answer_some_bind (index_append haml hoffset) rfl
  | one => exact answer_some_bind (index_append haml hoffset) rfl
  | ones => exact answer_some_bind (index_append haml hoffset) rfl
  | byte v =>
    refine answer_some_bind (index_append haml hoffset) ?_
    rw [if_pos rfl]
    exact readConst_append haml hoffset v.toNat_lt _
  | word v =>
    refine answer_some_bind (index_append haml hoffset) ?_
    rw [if_neg (by decide), if_pos rfl]
    exact readConst_append haml hoffset v.toNat_lt _
  | dword v =>
    refine answer_some_bind (index_append haml hoffset) ?_
    rw [if_neg (by decide), if_neg (by decide), if_pos rfl]
    exact readConst_append haml hoffset v.toNat_lt _

theorem packageTypes_append {aml front rest : Bytes} {start : ℕ} (p : Package)
    (haml : aml = front ++ (p.encode ++ rest)) (hstart : start = front.length) :
    packageTypes aml start = answer (some p.types) := by
  have hlt : start < aml.length := by
    rw [haml, hstart]
    simp [Package.encode]
  have hlead : aml[start] = p.lead := by
    simp [haml, hstart, Package.encode]
  obtain ⟨len, hlength⟩ := exists_answer_parsePkgLength hlt
  rw [hlead, ← p.more_length] at hlength
  have haml' : aml = (front ++ p.lead :: p.more ++ [p.numElements]) ++
      (p.slpTypa.encode ++ (p.slpTypb.encode ++ rest)) := by
    rw [haml, Package.encode]
    simp
  have hfront : (front ++ p.lead :: p.more ++ [p.numElements]).length =
      start + 1 + p.more.length + 1 := by
    rw [hstart]
    simp only [List.length_append, List.length_cons, List.length_nil]
    omega
  have haml'' : aml = (front ++ p.lead :: p.more ++ [p.numElements] ++ p.slpTypa.encode) ++
      (p.slpTypb.encode ++ rest) := by
    rw [haml']
    simp only [List.append_assoc]
  have hbound : start + 1 + p.more.length + 1 < aml.length := by
    rw [haml', List.length_append, hfront]
    cases p.slpTypa <;> simp [Const.encode]
  rw [packageTypes, hlength, bind_answer]
  dsimp only
  rw [if_neg (by omega), if_neg (by omega)]
  refine answer_some_bind (readAmlInteger_append _ haml' hfront.symm) ?_
  refine answer_some_bind (readAmlInteger_append _ haml'' ?_) rfl
  rw [List.length_append, hfront]

/-! ## What the search finds -/

theorem exists_parseS5FromDsdt (aml : Bytes) : ∃ types, parseS5FromDsdt aml = some types := by
  rw [parseS5FromDsdt]
  split_ifs with hsmall
  · exact ⟨(5, 5), rfl⟩
  · by_cases hlen : 20 ≤ aml.length
    · exact exists_scanFrom (by omega)
    · rw [Nat.sub_eq_zero_of_le (by omega)]
      exact ⟨(5, 5), rfl⟩

theorem parseS5FromDsdt_of_not_occurs {aml : Bytes}
    (hno : ∀ j, j + 20 < aml.length → ¬ Occurs aml j) : parseS5FromDsdt aml = some (5, 5) := by
  rw [parseS5FromDsdt]
  split_ifs with hsmall
  · rfl
  · by_cases hlen : 20 ≤ aml.length
    · have hskip : scanFrom aml (aml.length - 20 + 0) 0 = scanFrom aml 0 (0 + (aml.length - 20)) :=
        scanFrom_skip (by omega) fun j hj => hno _ (by omega)
      exact hskip
    · rw [Nat.sub_eq_zero_of_le (by omega)]
      rfl

theorem FirstPackage.occurs {aml : Bytes} {i : ℕ} {p : Package} (h : FirstPackage aml i p) :
    Occurs aml i :=
  (List.prefix_append pattern p.encode).trans h.2

theorem FirstPackage.packageTypes_eq {aml : Bytes} {i : ℕ} {p : Package}
    (h : FirstPackage aml i p) (hi : i ≤ aml.length) :
    packageTypes aml (i + 5 + 1) = answer (some p.types) := by
  obtain ⟨rest, hrest⟩ := h.2
  have haml : aml = aml.take i ++ pattern ++ (p.encode ++ rest) := by
    conv_lhs => rw [← List.take_append_drop i aml, ← hrest]
    simp only [List.append_assoc]
  refine packageTypes_append p haml ?_
  rw [List.length_append, List.length_take_of_le hi]
  rfl

theorem FirstPackage.parseS5FromDsdt_eq {aml : Bytes} {i : ℕ} {p : Package}
    (h : FirstPackage aml i p) (hi : i + 20 < aml.length) :
    parseS5FromDsdt aml = some p.types := by
  classical
  have hskip : scanFrom aml (i + (aml.length - 20 - i - 1 + 1)) 0 =
      scanFrom aml (aml.length - 20 - i - 1 + 1) (0 + i) :=
    scanFrom_skip (by omega) fun j hj => by
      rw [Nat.zero_add]
      exact h.1 j hj
  have hstep : s5At aml i = answer (some p.types) := by
    rw [s5At_eq (by omega), if_pos h.occurs, h.packageTypes_eq (by omega)]
  rw [parseS5FromDsdt, if_neg (by omega),
    show aml.length - 20 = i + (aml.length - 20 - i - 1 + 1) by omega, hskip, Nat.zero_add,
    scanFrom, hstep]
  rfl

/-- The sleep types are those of the first package unless it starts in the last 20 bytes of the
table, where only one with the values of the defaults comes out right. -/
theorem finds_iff (aml : Bytes) :
    Finds aml ↔ ∀ i p, FirstPackage aml i p → i + 20 < aml.length ∨ p.types = (5, 5) := by
  have hlate : ∀ i p, FirstPackage aml i p → ¬ i + 20 < aml.length →
      parseS5FromDsdt aml = some (5, 5) := fun i p h hi =>
    parseS5FromDsdt_of_not_occurs fun j hj => h.1 j (by omega)
  constructor
  · rintro ⟨types, htypes, hfirst, -⟩ i p h
    by_cases hi : i + 20 < aml.length
    · exact Or.inl hi
    · right
      rw [← hfirst i p h]
      exact Option.some.inj (htypes.symm.trans (hlate i p h hi))
  · intro hfits
    obtain ⟨types, htypes⟩ := exists_parseS5FromDsdt aml
    refine ⟨types, htypes, fun i p h => ?_, fun hno => ?_⟩
    · by_cases hi : i + 20 < aml.length
      · exact Option.some.inj (htypes.symm.trans (h.parseS5FromDsdt_eq hi))
      · rw [(hfits i p h).resolve_left hi]
        exact Option.some.inj (htypes.symm.trans (hlate i p h hi))
    · exact Option.some.inj
        (htypes.symm.trans (parseS5FromDsdt_of_not_occurs fun j _ => hno j))

/-- A package of two byte constants 7. -/
def sevens : Package where
  lead := 0x06
  more := []
  numElements := 2
  slpTypa := .byte 7
  slpTypb := .byte 7
  more_length := by decide

/-- In a table with only this package the search does not look at any byte. -/
theorem not_finds_sevens :
    FirstPackage (pattern ++ sevens.encode) 0 sevens ∧
      parseS5FromDsdt (pattern ++ sevens.encode) = some (5, 5) ∧
      ¬ Finds (pattern ++ sevens.encode) := by
  have hfirst : FirstPackage (pattern ++ sevens.encode) 0 sevens :=
    ⟨fun j hj => absurd hj (Nat.not_lt_zero j), List.prefix_rfl⟩
  have hparse : parseS5FromDsdt (pattern ++ sevens.encode) = some (5, 5) := by decide
  refine ⟨hfirst, hparse, ?_⟩
  rintro ⟨types, htypes, hall, -⟩
  rw [hparse, hall 0 sevens hfirst] at htypes
  exact absurd htypes (by decide)

end Aeterna.Drivers.Acpi
