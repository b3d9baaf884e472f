import Mathlib.Data.List.Forall2
import Mathlib.Data.List.TakeWhile

/-!
# Addresses and the hosts file

`parse_ipv4_bytes` of `net/resolver.rs`, against the documented literals, and `format_ip` of
`net/mod.rs`. The parser takes numbers with leading zeros, which its documentation excludes
(`documented_iff`); all that `format_ip` writes is read back. `parse_hosts_bytes` and
`entries_lookup` find the entries of a hosts file, whatever its layout (`hosts_file`).
-/

namespace Aeterna.Net.Resolver

abbrev Bytes := List UInt8

def dot : UInt8 := 0x2E

/-! ## Addresses -/

def isDigit (b : UInt8) : Bool := 0x30 ≤ b && b ≤ 0x39

def digit (b : UInt8) : ℕ := (b - 0x30).toNat

/-- The loop over the bytes; `ip` are the numbers that are complete. -/
def ipv4Loop (ip : List UInt8) (octet : ℕ) (hasDigit : Bool) : Bytes → Option (List UInt8)
  | [] => if !hasDigit ∨ ip.length ≠ 3 then none else some (ip ++ [UInt8.ofNat octet])
  | b :: s =>
    if isDigit b then
      if octet * 10 + digit b > 255 then none else ipv4Loop ip (octet * 10 + digit b) true s
    else if b = dot then
      if !hasDigit ∨ ip.length ≥ 3 then none
      else ipv4Loop (ip ++ [UInt8.ofNat octet]) 0 false s
    else none

def parseIpv4Bytes (s : Bytes) : Option (List UInt8) := ipv4Loop [] 0 false s

def octetText (n : UInt8) : Bytes :=
  if n ≥ 100 then [0x30 + n / 100, 0x30 + n % 100 / 10, 0x30 + n % 100 % 10]
  else if n ≥ 10 then [0x30 + n / 10, 0x30 + n % 10]
  else [0x30 + n]

/-- The bytes that are written to the buffer, one after the other. -/
def formatIp (ip : Vector UInt8 4) : Bytes := [dot].intercalate (ip.toList.map octetText)

/-! ## Literals -/

def valueFrom (octet : ℕ) (part : Bytes) : ℕ := part.foldl (fun octet b => octet * 10 + digit b) octet

/-- The rest of a number of which `octet` is read; `started` if that is at least one digit. -/
def NumberFrom (octet : ℕ) (started : Bool) (part : Bytes) (n : UInt8) : Prop :=
  (started ∨ part ≠ []) ∧ (∀ b ∈ part, isDigit b) ∧ valueFrom octet part = n.toNat

/-- A decimal number of at most 255. -/
abbrev Number : Bytes → UInt8 → Prop := NumberFrom 0 false

/-- Four numbers with dots between them. -/
def Dotted (s : Bytes) (ip : List UInt8) : Prop :=
  (s.splitOn dot).length = 4 ∧ List.Forall₂ Number (s.splitOn dot) ip

/-- No number of more than one digit starts with a zero. -/
def NoLeadingZeros (s : Bytes) : Prop :=
  ∀ part ∈ s.splitOn dot, part.head? = some 0x30 → part.length = 1

instance : DecidablePred NoLeadingZeros := fun _ => inferInstanceAs (Decidable (∀ _ ∈ _, _))

/-- Exactly the literals without leading zeros are accepted, with their numbers. -/
def Documented (s : Bytes) : Prop :=
  ∀ ip, parseIpv4Bytes s = some ip ↔ Dotted s ip ∧ NoLeadingZeros s

theorem le_valueFrom (octet : ℕ) (part : Bytes) : octet ≤ valueFrom octet part := by
  induction part generalizing octet with
  | nil => exact le_rfl
  | cons b part ih =>
    have hnext := ih (octet * 10 + digit b)
    rw [valueFrom, List.foldl_cons]
    exact le_trans (by omega) hnext

theorem numberFrom_nil {octet : ℕ} (hle : octet ≤ 255) {started : Bool} {n : UInt8} :
    NumberFrom octet started [] n ↔ started ∧ n = UInt8.ofNat octet := by
  have hvalue : octet = n.toNat ↔ n = UInt8.ofNat octet := by
    rw [← UInt8.toNat_inj, UInt8.toNat_ofNat', Nat.mod_eq_of_lt (Nat.lt_succ_of_le hle), eq_comm]
  simp [NumberFrom, valueFrom, hvalue]

theorem numberFrom_cons {octet : ℕ} {started : Bool} {b : UInt8} {part : Bytes} {n : UInt8} :
    NumberFrom octet started (b :: part) n ↔
      isDigit b ∧ NumberFrom (octet * 10 + digit b) true part n := by
  simp [NumberFrom, valueFrom, and_assoc]

theorem splitOn_cons {b : UInt8} {s part : Bytes} {parts : List Bytes}
    (h : s.splitOn dot = part :: parts) :
    (b :: s).splitOn dot = if b = dot then [] :: part :: parts else (b :: part) :: parts := by
  rw [List.splitOn_cons_eq_if_modifyHead, h]
  simp only [beq_iff_eq, List.modifyHead_cons]

/-- The loop goes on with the number that is begun, and takes one for each dot that follows. -/
theorem ipv4Loop_eq_some_iff {s part : Bytes} {parts : List Bytes}
    (hsplit : s.splitOn dot = part :: parts) {ip out : List UInt8} {octet : ℕ} {hasDigit : Bool}
    (hle : octet ≤ 255) :
    ipv4Loop ip octet hasDigit s = some out ↔ ip.length + parts.length = 3 ∧
      ∃ n ns, out = ip ++ n :: ns ∧ NumberFrom octet hasDigit part n ∧
        List.Forall₂ Number parts ns := by
  induction s generalizing ip octet hasDigit part parts with
  | nil =>
    cases (List.splitOn_nil dot).symm.trans hsplit
    simp only [ipv4Loop, numberFrom_nil hle, List.forall₂_nil_left_iff, List.length_nil]
    cases hasDigit <;> simp [eq_comm, and_comm]
  | cons b s ih =>
    obtain ⟨part', parts', hs⟩ := List.exists_cons_of_ne_nil (List.splitOn_ne_nil dot s)
    rw [splitOn_cons hs] at hsplit
    rw [ipv4Loop]
    by_cases hdigit : isDigit b
    · have hdot : b ≠ dot := by
        rintro rfl
        cases hdigit
      rw [if_neg hdot] at hsplit
      cases hsplit
      simp only [numberFrom_cons, hdigit, true_and, if_true]
      split_ifs with hbig
      · refine iff_of_false nofun ?_
        rintro ⟨-, n, ns, -, ⟨-, -, hvalue⟩, -⟩
        have hge := le_valueFrom (octet * 10 + digit b) part'
        have hlt := n.toNat_lt
        omega
      · exact ih hs (by omega)
    · rw [if_neg hdigit]
      split_ifs at hsplit ⊢ with hdot hstop
      · cases hsplit
        refine iff_of_false nofun ?_
        rintro ⟨hlen, n, ns, -, hnumber, -⟩
        rw [numberFrom_nil hle] at hnumber
        rw [List.length_cons] at hlen
        simp only [hnumber.1, Bool.not_true, Bool.false_eq_true, false_or] at hstop
        omega
      · cases hsplit
        rw [not_or, Bool.not_eq_true', Bool.not_eq_false] at hstop
        simp only [ih hs (Nat.zero_le 255), numberFrom_nil hle, hstop.1, true_and,
          List.forall₂_cons_left_iff, List.length_append, List.length_cons, List.length_nil]
        constructor
        · rintro ⟨hlen, n, ns, rfl, hnumber, hrest⟩
          exact ⟨by omega, _, n :: ns, by simp, rfl, n, ns, hnumber, hrest, rfl⟩
        · rintro ⟨hlen, _, _, rfl, rfl, n, ns, hnumber, hrest, rfl⟩
          exact ⟨by omega, n, ns, by simp, hnumber, hrest⟩
      · cases hsplit
        refine iff_of_false nofun ?_
        rintro ⟨-, n, ns, -, hnumber, -⟩
        exact hdigit (numberFrom_cons.mp hnumber).1

/-- Leading zeros or not, dotted numbers are what the parser takes. -/
theorem parseIpv4Bytes_eq_some_iff {s : Bytes} {ip : List UInt8} :
    parseIpv4Bytes s = some ip ↔ Dotted s ip := by
  obtain ⟨part, parts, hs⟩ := List.exists_cons_of_ne_nil (List.splitOn_ne_nil dot s)
  rw [parseIpv4Bytes, ipv4Loop_eq_some_iff hs (Nat.zero_le 255), Dotted, hs]
  simp only [List.length_nil, Nat.zero_add, List.length_cons, Nat.reduceEqDiff, List.nil_append,
    List.forall₂_cons_left_iff]
  refine and_congr_right fun _ => ?_
  constructor
  · rintro ⟨n, ns, rfl, hnumber, hrest⟩
    exact ⟨n, ns, hnumber, hrest, rfl⟩
  · rintro ⟨n, ns, hnumber, hrest, rfl⟩
    exact ⟨n, ns, rfl, hnumber, hrest⟩

theorem numberFrom_digit {d : UInt8} (h : d.toNat < 10) {octet : ℕ} {started : Bool} {part : Bytes}
    {n : UInt8} (hrest : NumberFrom (octet * 10 + d.toNat) true part n) :
    NumberFrom octet started ((0x30 + d) :: part) n := by
  have hsum : (0x30 + d).toNat = 48 + d.toNat := by
    rw [UInt8.toNat_add, Nat.mod_eq_of_lt]
    · rfl
    · exact Nat.lt_trans (Nat.add_lt_add_left h 48) (by decide)
  have hdigit : digit (0x30 + d) = d.toNat := by
    rw [digit, UInt8.add_comm, UInt8.add_sub_cancel]
  rw [numberFrom_cons, hdigit]
  refine ⟨?_, hrest⟩
  simp only [isDigit, Bool.and_eq_true, decide_eq_true_eq, UInt8.le_iff_toNat_le, hsum,
    UInt8.reduceToNat]
  omega

theorem number_octetText (n : UInt8) : Number (octetText n) n := by
  have hlt := n.toNat_lt
  unfold octetText
  split_ifs with hhundred hten <;> simp only [ge_iff_le, UInt8.le_iff_toNat_le] at *
  · refine numberFrom_digit ?_ (numberFrom_digit ?_ (numberFrom_digit ?_ ⟨Or.inl rfl, nofun, ?_⟩)) <;>
      simp [valueFrom] <;> omega
  · refine numberFrom_digit ?_ (numberFrom_digit ?_ ⟨Or.inl rfl, nofun, ?_⟩) <;>
      simp [valueFrom] at * <;> omega
  · refine numberFrom_digit ?_ ⟨Or.inl rfl, nofun, ?_⟩
    · simpa using hten
    · simp [valueFrom]

theorem dotted_formatIp (ip : Vector UInt8 4) : Dotted (formatIp ip) ip.toList := by
  have hsplit : (formatIp ip).splitOn dot = ip.toList.map octetText := by
    refine List.splitOn_intercalate dot ?_ ?_
    · intro part hpart hmem
      obtain ⟨n, -, rfl⟩ := List.mem_map.mp hpart
      cases (number_octetText n).2.1 dot hmem
    · rw [Ne, List.map_eq_nil_iff, ← List.length_eq_zero_iff, Vector.length_toList]
      decide
  rw [Dotted, hsplit, List.length_map, Vector.length_toList, List.forall₂_map_left_iff]
  exact ⟨rfl, List.forall₂_same.mpr fun n _ => number_octetText n⟩

theorem parseIpv4Bytes_formatIp (ip : Vector UInt8 4) :
    parseIpv4Bytes (formatIp ip) = some ip.toList :=
  parseIpv4Bytes_eq_some_iff.mpr (dotted_formatIp ip)

/-- **Addresses as text.** Exactly the documented literals are accepted unless the text is four
dotted numbers of which one has a leading zero; every address is read back from its text. -/
theorem documented_iff (s : Bytes) (ip : Vector UInt8 4) :
    (Documented s ↔ ((∃ ip, Dotted s ip) → NoLeadingZeros s)) ∧
      parseIpv4Bytes (formatIp ip) = some ip.toList := by
  refine ⟨?_, parseIpv4Bytes_formatIp ip⟩
  simp only [Documented, parseIpv4Bytes_eq_some_iff, iff_self_and, forall_exists_index]

/-- The text `01.2.3.4` is accepted. -/
theorem not_documented_leadingZero :
    parseIpv4Bytes [0x30, 0x31, dot, 0x32, dot, 0x33, dot, 0x34] = some [1, 2, 3, 4] ∧
      ¬NoLeadingZeros [0x30, 0x31, dot, 0x32, dot, 0x33, dot, 0x34] := by
  decide

/-! ## The hosts file -/

structure HostsEntry where
  ip : List UInt8
  names : List String

def isWs (b : UInt8) : Bool := b == 0x20 || b == 0x09

def splitWs (data : Bytes) : List Bytes :=
  match _h : data.dropWhile isWs with
  | [] => []
  | b :: rest => (b :: rest.takeWhile (!isWs ·)) :: splitWs (rest.dropWhile (!isWs ·))
termination_by data.length
decreasing_by
  have hle := (List.dropWhile_suffix (l := rest) (!isWs ·)).length_le
  have hle' := (List.dropWhile_suffix (l := data) isWs).length_le
  rw [_h, List.length_cons] at hle'
  omega

def stripCr (line : Bytes) : Bytes := if line.getLast? = some 0x0D then line.dropLast else line

def fromUtf8 (bytes : Bytes) : Option String := String.fromUTF8? ⟨bytes.toArray⟩

/-- The body of the loop over the lines. -/
def parseLine (rawLine : Bytes) : Option HostsEntry :=
  let line := (stripCr rawLine).dropWhile isWs
  if line = [] ∨ line.head? = some 0x23 then none
  else
    match splitWs (line.takeWhile (· != 0x23)) with
    | [] => none
    | ipBytes :: tokens =>
      if ipBytes.contains 0x3A then none
      else match parseIpv4Bytes ipBytes with
      | none => none
      | some ip =>
        let names := tokens.filterMap fun nameBytes => (fromUtf8 nameBytes).filter (· ≠ "")
        if names = [] then none else some ⟨ip, names⟩

def parseHostsBytes (data : Bytes) : List HostsEntry := (data.splitOn 0x0A).filterMap parseLine

def asciiLower (b : UInt8) : UInt8 := if 0x41 ≤ b ∧ b ≤ 0x5A then b + 0x20 else b

def utf8 (s : String) : Bytes := s.toUTF8.data.toList

def eqIgnoreAsciiCase (a b : String) : Bool := (utf8 a).map asciiLower == (utf8 b).map asciiLower

/-- The loop over the names of an entry. -/
def hasName (name : String) : List String → Bool
  | [] => false
  | n :: names => if eqIgnoreAsciiCase n name then true else hasName name names

def entriesLookup (name : String) : List HostsEntry → Option (List UInt8)
  | [] => none
  | entry :: entries => if hasName name entry.names then some entry.ip else entriesLookup name entries

/-! ## Rendered files -/

/-- Blanks and tabs. -/
abbrev Blanks := { ws : Bytes // ∀ b ∈ ws, isWs b }

/-- A byte of a token: no white space, and no comment sign. -/
def plain (b : UInt8) : Bool := !isWs b && b != 0x0A && b != 0x0D && b != 0x23

/-- Blanks, at least one, and then the name that they set off. -/
structure Field where
  blanks : Blanks
  name : String
  separated : blanks.val ≠ []
  nonempty : utf8 name ≠ []
  plain : ∀ b ∈ utf8 name, plain b

def fieldsText (fields : List Field) : Bytes := fields.flatMap fun f => f.blanks.val ++ utf8 f.name

/-- What stands on a line, up to a comment. -/
inductive Content where
  | blank
  | entry (ip : Vector UInt8 4) (names : List Field) (hnames : names ≠ [])
  | ipv6 (address : Bytes) (haddress : 0x3A ∈ address ∧ ∀ b ∈ address, plain b) (names : List Field)

def Content.text : Content → Bytes
  | blank => []
  | entry ip names _ => formatIp ip ++ fieldsText names
  | ipv6 address _ names => address ++ fieldsText names

def Content.hostsEntry : Content → Option HostsEntry
  | entry ip names _ => some ⟨ip.toList, names.map Field.name⟩
  | _ => none

structure Line where
  lead : Blanks
  content : Content
  trail : Blanks
  comment : Option { text : Bytes // 0x0A ∉ text }
  crlf : Bool

/-- The comment of a line and its carriage return. -/
def Line.tail (line : Line) : Bytes :=
  (match line.comment with | none => [] | some text => 0x23 :: text.val) ++
    if line.crlf then [0x0D] else []

def Line.text (line : Line) : Bytes :=
  line.lead.val ++ (line.content.text ++ line.trail.val) ++ line.tail

/-- A file of these lines; it ends with a line end when the last of them is empty. -/
def render (lines : List Line) : Bytes := [0x0A].intercalate (lines.map Line.text)

/-! ## Tokens -/

theorem fromUtf8_utf8 (s : String) : fromUtf8 (utf8 s) = some s := by
  have harray : (⟨(utf8 s).toArray⟩ : ByteArray) = s.toByteArray := rfl
  rw [fromUtf8, harray, String.fromUTF8?, dif_pos s.isValidUTF8]
  rfl

theorem ne_of_plain {b : UInt8} (h : plain b) : isWs b = false ∧ b ≠ 0x0A ∧ b ≠ 0x0D ∧ b ≠ 0x23 := by
  simpa [plain, and_assoc] using h

theorem ne_of_isWs {b : UInt8} (h : isWs b) : b ≠ 0x0A ∧ b ≠ 0x0D ∧ b ≠ 0x23 := by
  refine ⟨?_, ?_, ?_⟩ <;> rintro rfl <;> cases h

theorem bytes_of_ipv4Loop {s : Bytes} {ip out : List UInt8} {octet : ℕ} {hasDigit : Bool}
    (h : ipv4Loop ip octet hasDigit s = some out) : ∀ b ∈ s, isDigit b ∨ b = dot := by
  induction s generalizing ip octet hasDigit with
  | nil => nofun
  | cons c s ih =>
    rw [ipv4Loop] at h
    split_ifs at h with hdigit _ hdot
    · exact List.forall_mem_cons.mpr ⟨Or.inl hdigit, ih h⟩
    · exact List.forall_mem_cons.mpr ⟨Or.inr hdot, ih h⟩

theorem plain_of_parseIpv4Bytes {s : Bytes} {ip : List UInt8} (h : parseIpv4Bytes s = some ip) :
    s ≠ [] ∧ ∀ b ∈ s, plain b ∧ b ≠ 0x3A := by
  constructor
  · rintro rfl
    cases h
  · intro b hb
    simp only [plain, isWs, Bool.and_eq_true, Bool.not_eq_true', Bool.or_eq_false_iff,
      beq_eq_false_iff_ne, bne_iff_ne]
    refine ⟨⟨⟨⟨⟨?_, ?_⟩, ?_⟩, ?_⟩, ?_⟩, ?_⟩
    all_goals
      rintro rfl
      rcases bytes_of_ipv4Loop h _ hb with hdigit | hdot
      · cases hdigit
      · cases hdot

theorem dropWhile_isWs_append {ws rest : Bytes} {b : UInt8} (hws : ∀ b ∈ ws, isWs b)
    (hb : isWs b = false) : (ws ++ b :: rest).dropWhile isWs = b :: rest := by
  rw [List.dropWhile_append_of_pos hws, List.dropWhile_cons_of_neg (by rw [hb]; nofun)]

theorem splitWs_blanks {ws : Bytes} (hws : ∀ b ∈ ws, isWs b) : splitWs ws = [] := by
  have hnil : ws.dropWhile isWs = [] := by
    rw [← List.append_nil ws, List.dropWhile_append_of_pos hws, List.dropWhile_nil]
  rw [splitWs]
  split
  · rfl
  · next hcons => rw [hnil] at hcons; cases hcons

theorem splitWs_token {ws token rest : Bytes} (hws : ∀ b ∈ ws, isWs b) (hne : token ≠ [])
    (htoken : ∀ b ∈ token, plain b) (hrest : ∀ b ∈ rest.head?, isWs b) :
    splitWs (ws ++ (token ++ rest)) = token :: splitWs rest := by
  obtain ⟨b, token, rfl⟩ := List.exists_cons_of_ne_nil hne
  obtain ⟨hb, htoken⟩ := List.forall_mem_cons.mp htoken
  have hcons : (ws ++ b :: (token ++ rest)).dropWhile isWs = b :: (token ++ rest) :=
    dropWhile_isWs_append hws (ne_of_plain hb).1
  have hall : ∀ b ∈ token, (!isWs b) = true := fun b hmem => by
    rw [(ne_of_plain (htoken b hmem)).1]
    rfl
  rw [splitWs]
  split
  · next hnil => rw [List.cons_append, hcons] at hnil; cases hnil
  · next c tail htail =>
    rw [List.cons_append, hcons] at htail
    cases htail
    rw [List.takeWhile_append_of_pos hall, List.dropWhile_append_of_pos hall]
    cases rest with
    | nil => rw [List.takeWhile_nil, List.append_nil, List.dropWhile_nil]
    | cons c rest =>
      rw [List.takeWhile_cons, List.dropWhile_cons, hrest c rfl]
      simp

theorem head?_fieldsText (fields : List Field) {trail : Bytes} (htrail : ∀ b ∈ trail, isWs b) :
    ∀ b ∈ (fieldsText fields ++ trail).head?, isWs b := by
  cases fields with
  | nil => exact fun b hb => htrail b (List.mem_of_mem_head? hb)
  | cons f fields =>
    obtain ⟨c, ws, hws⟩ := List.exists_cons_of_ne_nil f.separated
    intro b hb
    refine f.blanks.property b ?_
    rw [hws]
    simp only [fieldsText, List.flatMap_cons, hws, List.cons_append, List.head?_cons] at hb
    cases hb
    exact List.mem_cons_self

theorem splitWs_fieldsText (fields : List Field) {trail : Bytes} (htrail : ∀ b ∈ trail, isWs b) :
    splitWs (fieldsText fields ++ trail) = fields.map fun f => utf8 f.name := by
  induction fields with
  | nil => exact splitWs_blanks htrail
  | cons f fields ih =>
    rw [List.map_cons, ← ih, ← splitWs_token f.blanks.property f.nonempty f.plain
      (head?_fieldsText fields htrail)]
    simp [fieldsText]

/-! ## Lines -/

/-- Without a carriage return before it, what is left of the end of a line is a comment. -/
theorem stripCr_tail (line : Line) {body : Bytes} (hbody : ∀ b ∈ body, b ≠ 0x0D) :
    ∃ tail, stripCr (body ++ line.tail) = body ++ tail ∧ ∀ b ∈ tail.head?, b = 0x23 := by
  unfold Line.tail
  cases line.comment with
  | none =>
    refine ⟨[], ?_, nofun⟩
    rw [List.nil_append, List.append_nil]
    split_ifs
    · rw [stripCr, List.getLast?_concat, if_pos rfl, List.dropLast_concat]
    · rw [List.append_nil, stripCr, if_neg]
      exact fun hlast => hbody _ (List.mem_of_getLast? hlast) rfl
  | some text =>
    dsimp only
    rw [List.cons_append, stripCr]
    generalize text.val ++ _ = rest
    split_ifs with hlast
    · obtain rfl | ⟨rest, c, rfl⟩ := List.eq_nil_or_concat' rest
      · rw [List.getLast?_concat] at hlast
        cases hlast
      · refine ⟨0x23 :: rest, ?_, by simp⟩
        rw [← List.cons_append, ← List.append_assoc, List.dropLast_concat]
    · exact ⟨_, rfl, by simp⟩

/-- The bytes of a line before its comment are neither line ends nor comment signs. -/
def Inline (text : Bytes) : Prop := ∀ b ∈ text, b ≠ 0x0A ∧ b ≠ 0x0D ∧ b ≠ 0x23

theorem inline_append {as bs : Bytes} (ha : Inline as) (hb : Inline bs) : Inline (as ++ bs) :=
  List.forall_mem_append.mpr ⟨ha, hb⟩

theorem inline_blanks (ws : Blanks) : Inline ws.val := fun b hb => ne_of_isWs (ws.property b hb)

theorem inline_plain {text : Bytes} (h : ∀ b ∈ text, plain b) : Inline text :=
  fun b hb => (ne_of_plain (h b hb)).2

theorem inline_fieldsText (fields : List Field) : Inline (fieldsText fields) := by
  intro b hb
  obtain ⟨f, -, hf⟩ := List.mem_flatMap.mp hb
  exact inline_append (inline_blanks f.blanks) (inline_plain f.plain) b hf

theorem inline_text (content : Content) : Inline content.text := by
  cases content with
  | blank => nofun
  | entry ip names hnames =>
    have hip := (plain_of_parseIpv4Bytes (parseIpv4Bytes_formatIp ip)).2
    exact inline_append (inline_plain fun b hb => (hip b hb).1) (inline_fieldsText names)
  | ipv6 address haddress names =>
    exact inline_append (inline_plain haddress.2) (inline_fieldsText names)

theorem filterMap_utf8 (fields : List Field) :
    (fields.map fun f => utf8 f.name).filterMap
      (fun nameBytes => (fromUtf8 nameBytes).filter (· ≠ "")) = fields.map Field.name := by
  rw [List.filterMap_map, ← List.filterMap_eq_map]
  refine List.filterMap_congr fun f _ => ?_
  have hne : f.name ≠ "" := by
    intro hempty
    apply f.nonempty
    rw [hempty]
    rfl
  rw [Function.comp_apply, fromUtf8_utf8]
  simp [hne]

theorem parseLine_fields {rawLine first tail : Bytes} {lead trail : Blanks} {fields : List Field}
    (hraw : stripCr rawLine = lead.val ++ (first ++ fieldsText fields ++ trail.val) ++ tail)
    (hne : first ≠ []) (hfirst : ∀ b ∈ first, plain b) (htail : ∀ b ∈ tail.head?, b = 0x23) :
    parseLine rawLine = if first.contains 0x3A then none else
      match parseIpv4Bytes first with
      | none => none
      | some ip => if fields.map Field.name = [] then none else some ⟨ip, fields.map Field.name⟩ := by
  have hinline : Inline (first ++ fieldsText fields ++ trail.val) :=
    inline_append (inline_append (inline_plain hfirst) (inline_fieldsText fields))
      (inline_blanks trail)
  have hall : ∀ b ∈ first ++ fieldsText fields ++ trail.val, (b != 0x23) = true :=
    fun b hb => bne_iff_ne.mpr (hinline b hb).2.2
  have hcut : tail.takeWhile (· != 0x23) = [] := by
    cases tail with
    | nil => rfl
    | cons b tail => rw [htail b rfl, List.takeWhile_cons_of_neg (by decide)]
  have htokens : splitWs (first ++ fieldsText fields ++ trail.val) =
      first :: fields.map fun f => utf8 f.name := by
    rw [List.append_assoc, ← splitWs_fieldsText fields trail.property]
    exact @splitWs_token [] _ _ nofun hne hfirst (head?_fieldsText fields trail.property)
  obtain ⟨b, rest, hcons⟩ := List.exists_cons_of_ne_nil hne
  have hb := ne_of_plain (hfirst b (hcons ▸ List.mem_cons_self))
  have hline : (stripCr rawLine).dropWhile isWs =
      first ++ fieldsText fields ++ trail.val ++ tail := by
    rw [hraw, List.append_assoc, hcons]
    exact dropWhile_isWs_append lead.property hb.1
  have hstart : ¬(first ++ fieldsText fields ++ trail.val ++ tail = [] ∨
      (first ++ fieldsText fields ++ trail.val ++ tail).head? = some 0x23) := by
    rw [hcons]
    simpa using hb.2.2.2
  unfold parseLine
  rw [hline]
  dsimp only
  rw [if_neg hstart, List.takeWhile_append_of_pos hall, hcut, List.append_nil, htokens]
  dsimp only
  rw [filterMap_utf8]

theorem Line.inline_body (line : Line) :
    Inline (line.lead.val ++ (line.content.text ++ line.trail.val)) :=
  inline_append (inline_blanks line.lead)
    (inline_append (inline_text line.content) (inline_blanks line.trail))

theorem Line.newline_not_mem (line : Line) : 0x0A ∉ line.text := by
  rw [Line.text, Line.tail]
  intro hmem
  rcases List.mem_append.mp hmem with hmem | hmem
  · exact (line.inline_body _ hmem).1 rfl
  · rcases List.mem_append.mp hmem with hmem | hmem
    · split at hmem
      · cases hmem
      · next text _ => exact text.property (List.mem_of_ne_of_mem (by decide) hmem)
    · split_ifs at hmem
      · cases List.mem_singleton.mp hmem
      · cases hmem

theorem parseLine_text (line : Line) : parseLine line.text = line.content.hostsEntry := by
  obtain ⟨tail, hstrip, htail⟩ := stripCr_tail line fun b hb => (line.inline_body b hb).2.1
  rw [Line.text]
  cases hcontent : line.content with
  | blank =>
    rw [hcontent] at hstrip
    have hline : (stripCr (line.lead.val ++ (Content.blank.text ++ line.trail.val) ++
        line.tail)).dropWhile isWs = tail := by
      rw [hstrip, List.append_assoc, List.dropWhile_append_of_pos line.lead.property, Content.text,
        List.nil_append, List.dropWhile_append_of_pos line.trail.property]
      cases tail with
      | nil => rfl
      | cons b tail => rw [htail b rfl, List.dropWhile_cons_of_neg (by decide)]
    unfold parseLine
    rw [hline]
    refine if_pos ?_
    cases tail with
    | nil => exact Or.inl rfl
    | cons b tail => exact Or.inr (congrArg some (htail b rfl))
  | entry ip names hnames =>
    have hip := parseIpv4Bytes_formatIp ip
    obtain ⟨hne, hplain⟩ := plain_of_parseIpv4Bytes hip
    have hcolon : ¬(formatIp ip).contains 0x3A := by
      rw [List.contains_iff_mem]
      exact fun hmem => (hplain _ hmem).2 rfl
    rw [hcontent] at hstrip
    rw [parseLine_fields hstrip hne (fun b hb => (hplain b hb).1) htail, if_neg hcolon, hip]
    exact if_neg (by simpa using hnames)
  | ipv6 address haddress names =>
    rw [hcontent] at hstrip
    rw [parseLine_fields hstrip (List.ne_nil_of_mem haddress.1) haddress.2 htail]
    exact if_pos (List.contains_iff_mem.mpr haddress.1)

theorem parseHostsBytes_render (lines : List Line) :
    parseHostsBytes (render lines) = lines.filterMap fun line => line.content.hostsEntry := by
  unfold parseHostsBytes render
  by_cases hne : lines = []
  · rw [hne]
    rfl
  · have hno : ∀ text ∈ lines.map Line.text, 0x0A ∉ text := by
      intro text htext
      obtain ⟨line, -, rfl⟩ := List.mem_map.mp htext
      exact line.newline_not_mem
    rw [List.splitOn_intercalate 0x0A hno (by simpa using hne), List.filterMap_map]
    exact List.filterMap_congr fun line _ => parseLine_text line

theorem hasName_eq (name : String) (names : List String) :
    hasName name names = names.any (eqIgnoreAsciiCase · name) := by
  induction names with
  | nil => rfl
  | cons n names ih =>
    rw [hasName, List.any_cons, ih]
    cases eqIgnoreAsciiCase n name <;> rfl

theorem entriesLookup_eq (name : String) (entries : List HostsEntry) :
    entriesLookup name entries =
      (entries.find? fun e => e.names.any (eqIgnoreAsciiCase · name)).map HostsEntry.ip := by
  induction entries with
  | nil => rfl
  | cons e entries ih =>
    rw [entriesLookup, hasName_eq, List.find?_cons, ih]
    cases e.names.any (eqIgnoreAsciiCase · name) <;> rfl

/-- **The hosts file.** The entries of a file are found in their order, whatever its layout, and a
lookup finds the first one with the name. -/
theorem hosts_file (lines : List Line) :
    parseHostsBytes (render lines) = lines.filterMap (fun line => line.content.hostsEntry) ∧
      ∀ name, entriesLookup name (parseHostsBytes (render lines)) =
        ((lines.filterMap fun line => line.content.hostsEntry).find? fun e =>
          e.names.any (eqIgnoreAsciiCase · name)).map HostsEntry.ip := by
  refine ⟨parseHostsBytes_render lines, fun name => ?_⟩
  rw [parseHostsBytes_render, entriesLookup_eq]

end Aeterna.Net.Resolver
