import Mathlib

/-!
# Expansion of variables in the shell

The script interpreter (`expand_vars` and `eval_arith` of `userspace/plum/bash.rs`) and the
interactive shell (`expand_variables` of `userspace/plum/mod.rs`) each scan a text for references to
variables. The interpreter copies the characters between them, the shell their bytes, each taken for
a character: they agree on references between ASCII characters and on no other text
(`agree_iff_ascii`).
-/

namespace Aeterna.Plum

abbrev Text := List Char

/-! ## Texts -/

def isWhitespace (c : Char) : Bool :=
  let n := c.toNat
  (9 ≤ n && n ≤ 13) || n == 0x20 || n == 0x85 || n == 0xA0 || n == 0x1680 ||
    (0x2000 ≤ n && n ≤ 0x200A) || n == 0x2028 || n == 0x2029 || n == 0x202F || n == 0x205F ||
    n == 0x3000

def trim (t : Text) : Text :=
  ((t.dropWhile isWhitespace).reverse.dropWhile isWhitespace).reverse

theorem length_trim (t : Text) : (trim t).length ≤ t.length := by
  rw [trim, List.length_reverse]
  refine (List.length_dropWhile_le _ _).trans ?_
  rw [List.length_reverse]
  exact List.length_dropWhile_le _ _

def isAsciiDigit (c : Char) : Bool := 48 ≤ c.toNat && c.toNat ≤ 57

def isNameChar (c : Char) : Bool := c.isAlphanum || c == '_'

/-- The text before and after the first `pat`. -/
def splitOnce (pat : Text) : Text → Option (Text × Text)
  | [] => if pat = [] then some ([], []) else none
  | c :: t =>
    if pat.isPrefixOf (c :: t) then some ([], (c :: t).drop pat.length)
    else (splitOnce pat t).map fun (before, after) => (c :: before, after)

/-- What `next` makes of the characters of a text: it takes a character and what follows, and
returns what remains. -/
def scanWith {β : Type} (next : Char → Text → β × Text) : ℕ → Text → List β
  | 0, _ => []
  | _ + 1, [] => []
  | n + 1, c :: t => (next c t).1 :: scanWith next n (next c t).2

section Scan

variable {β : Type} {next : Char → Text → β × Text}
  (hnext : ∀ c t, (next c t).2.length ≤ t.length)
include hnext

theorem scanWith_of_le {n m : ℕ} {t : Text} (hn : t.length ≤ n) (hm : t.length ≤ m) :
    scanWith next n t = scanWith next m t := by
  induction n generalizing m t with
  | zero =>
    obtain rfl := List.length_eq_zero_iff.mp (Nat.le_zero.mp hn)
    cases m <;> rfl
  | succ n ih =>
    cases t with
    | nil => cases m <;> rfl
    | cons c t =>
      obtain ⟨m, rfl⟩ := Nat.exists_eq_add_of_lt (lt_of_lt_of_le (Nat.succ_pos _) hm)
      rw [List.length_cons] at hn hm
      have hle := hnext c t
      rw [Nat.zero_add, scanWith, scanWith]
      exact congrArg _ (ih (by omega) (by omega))

theorem scanWith_cons (c : Char) (t : Text) :
    scanWith next (c :: t).length (c :: t) =
      (next c t).1 :: scanWith next (next c t).2.length (next c t).2 := by
  rw [List.length_cons, scanWith, scanWith_of_le hnext (hnext c t) le_rfl]

end Scan

/-! ## Numbers -/

def i64Max : ℕ := 2 ^ 63 - 1

def trimMatches (q : Char) (t : Text) : Text :=
  ((t.dropWhile (· == q)).reverse.dropWhile (· == q)).reverse

/-- The digits at the front of a text, as a number that saturates. -/
def leadingNumber (t : Text) : ℕ :=
  (t.takeWhile isAsciiDigit).foldl
    (fun n c => min (min (n * 10) i64Max + (c.toNat - 48)) i64Max) 0

def parseInt (t : Text) : Option ℤ :=
  let t := trimMatches '\'' (trimMatches '"' (trim t))
  let neg := t.head? = some '-'
  let t := if neg then t.drop 1 else t
  if t.takeWhile isAsciiDigit = [] then none
  else some (if neg then -(leadingNumber t : ℤ) else leadingNumber t)

def intToStr (n : ℤ) : Text :=
  if n < 0 then '-' :: Nat.toDigits 10 n.natAbs else Nat.toDigits 10 n.natAbs

/-- A number as an `i64`. -/
def wrap (n : ℤ) : ℤ := n.bmod (2 ^ 64)

/-! ## The interpreter -/

/-- Why an evaluation has no value: a slice that is not at the ends of characters, a division that
overflows, or no more fuel. -/
inductive Stop where
  | slice
  | overflow
  | fuel
  deriving DecidableEq

abbrev Eval := Except Stop

structure Vars where
  locals : Text → Option Text
  env : Text → Option Text
  exitCode : ℤ

def getVar (v : Vars) (name : Text) : Text :=
  match v.locals name with
  | some value => value
  | none => if name = ['?'] then intToStr v.exitCode else (v.env name).getD []

/-- A piece of a text: a character, an expression, a reference, the status, or an expression whose
last byte is not a character. -/
inductive Piece where
  | lit (c : Char)
  | arith (expr : Text)
  | var (name : Text)
  | status
  | cut
  deriving DecidableEq

/-- An expression that is not closed ends one byte before the end of the text. -/
def unclosed (t : Text) : Piece :=
  match t.getLast? with
  | none => .arith []
  | some c => if c.utf8Size = 1 then .arith t.dropLast else .cut

/-- One pass of the loop of `expand_vars`. -/
def piece (c : Char) (t : Text) : Piece × Text :=
  if c = '$' then
    match t with
    | '(' :: '(' :: r =>
      match splitOnce [')', ')'] r with
      | some (expr, rest) => (.arith expr, rest)
      | none => (unclosed r, [])
    | '{' :: r => (.var (r.takeWhile (· ≠ '}')), (r.dropWhile (· ≠ '}')).drop 1)
    | '?' :: r => (.status, r)
    | d :: r =>
      if isNameChar d then (.var ((d :: r).takeWhile isNameChar), (d :: r).dropWhile isNameChar)
      else (.lit c, d :: r)
    | [] => (.lit c, [])
  else (.lit c, t)

def scan (t : Text) : List Piece := scanWith piece t.length t

/-- The text of a piece; `arith` evaluates expressions. -/
def expandPiece (arith : Text → Eval ℤ) (v : Vars) : Piece → Eval Text
  | .lit c => pure [c]
  | .arith expr => do return intToStr (← arith expr)
  | .var name => pure (getVar v name)
  | .status => pure (intToStr v.exitCode)
  | .cut => throw .slice

def expandPieces (arith : Text → Eval ℤ) (v : Vars) : List Piece → Eval Text
  | [] => pure []
  | p :: ps => do
    let t ← expandPiece arith v p
    let rest ← expandPieces arith v ps
    return t ++ rest

/-- The text before and after the last `op`, unless it is at the front. -/
def splitLast (op : Char) (t : Text) : Option (Text × Text) :=
  let after := (t.reverse.takeWhile (· ≠ op)).reverse
  let before := ((t.reverse.dropWhile (· ≠ op)).drop 1).reverse
  if op ∈ t ∧ before ≠ [] then some (before, after) else none

def operators : List Char := ['+', '-', '*', '/', '%']

/-- The operator at which an expression is taken apart, and its operands. -/
def splitExpr (t : Text) : Option (Char × Text × Text) :=
  operators.findSome? fun op => (splitLast op t).map (op, ·)

def applyOp (op : Char) (l r : ℤ) : Eval ℤ :=
  if op = '+' then pure (wrap (l + r))
  else if op = '-' then pure (wrap (l - r))
  else if op = '*' then pure (wrap (l * r))
  else if r = 0 then pure 0
  else if l = -2 ^ 63 ∧ r = -1 then throw .overflow
  else pure (if op = '/' then l.tdiv r else l.tmod r)

/-- `fuel` bounds the nesting of the calls. -/
def evalArith : ℕ → Vars → Text → Eval ℤ
  | 0, _, _ => throw .fuel
  | fuel + 1, v, expr => do
    let s := trim (← expandPieces (evalArith fuel v) v (scan expr))
    match splitExpr s with
    | some (op, a, b) => do
      let l ← evalArith fuel v a
      let r ← evalArith fuel v b
      applyOp op l r
    | none => return (parseInt s).getD 0

def expandVars (fuel : ℕ) (v : Vars) (t : Text) : Eval Text :=
  expandPieces (evalArith fuel v) v (scan t)

/-! ## The interactive shell -/

/-- The bytes of a character, each taken for a character. -/
def latin1 (c : Char) : Text := (String.utf8EncodeChar c).map fun b => Char.ofNat b.toNat

/-- One pass of the loop of `expand_variables`. -/
def shellPiece (env : Text → Option Text) (c : Char) (t : Text) : Text × Text :=
  if c = '$' then
    match t with
    | '{' :: r => ((env (r.takeWhile (· ≠ '}'))).getD [], (r.dropWhile (· ≠ '}')).drop 1)
    | '?' :: r => ((env ['?']).getD ['0'], r)
    | d :: r =>
      ((env ((d :: r).takeWhile isNameChar)).getD [], (d :: r).dropWhile isNameChar)
    | [] => (latin1 c, [])
  else (latin1 c, t)

def expandVariables (env : Text → Option Text) (t : Text) : Text :=
  (scanWith (shellPiece env) t.length t).flatten

/-! ## Agreement -/

theorem length_drop_takeWhile (p : Char → Bool) (t : Text) :
    ((t.dropWhile p).drop 1).length ≤ t.length :=
  (List.drop_sublist _ _).length_le.trans (List.length_dropWhile_le _ _)

theorem splitOnce_eq {pat t a b : Text} (h : splitOnce pat t = some (a, b)) :
    t = a ++ (pat ++ b) := by
  induction t generalizing a with
  | nil =>
    unfold splitOnce at h
    split_ifs at h with hpat
    cases h
    rw [hpat]
    rfl
  | cons c t ih =>
    unfold splitOnce at h
    split_ifs at h with hpat
    · cases h
      exact (List.prefix_iff_eq_append.mp (List.isPrefixOf_iff_prefix.mp hpat)).symm
    · obtain ⟨⟨a', b'⟩, hsplit, heq⟩ := Option.map_eq_some_iff.mp h
      cases heq
      rw [ih hsplit]
      rfl

theorem length_splitOnce {pat t a b : Text} (h : splitOnce pat t = some (a, b)) :
    b.length ≤ t.length := by
  rw [splitOnce_eq h, List.length_append, List.length_append]
  omega

theorem length_piece (c : Char) (t : Text) : (piece c t).2.length ≤ t.length := by
  unfold piece
  split_ifs
  · split
    · split
      case h_1 hsplit =>
        have hle := length_splitOnce hsplit
        simp only [List.length_cons]
        omega
      · exact Nat.zero_le _
    · exact (length_drop_takeWhile _ _).trans (Nat.le_succ _)
    · exact Nat.le_succ _
    · split_ifs
      · exact List.length_dropWhile_le _ _
      · exact le_rfl
    · exact le_rfl
  · exact le_rfl

theorem length_shellPiece (env : Text → Option Text) (c : Char) (t : Text) :
    (shellPiece env c t).2.length ≤ t.length := by
  unfold shellPiece
  split_ifs
  · split
    · exact (length_drop_takeWhile _ _).trans (Nat.le_succ _)
    · exact Nat.le_succ _
    · exact List.length_dropWhile_le _ _
    · exact le_rfl
  · exact le_rfl

theorem scan_cons (c : Char) (t : Text) : scan (c :: t) = (piece c t).1 :: scan (piece c t).2 :=
  scanWith_cons length_piece c t

theorem expandVariables_cons (env : Text → Option Text) (c : Char) (t : Text) :
    expandVariables env (c :: t) =
      (shellPiece env c t).1 ++ expandVariables env (shellPiece env c t).2 := by
  rw [expandVariables, scanWith_cons (length_shellPiece env), List.flatten_cons]
  rfl

/-- A text of characters other than the dollar sign, `$NAME` and `${NAME}`. -/
inductive Refs : Text → Prop
  | nil : Refs []
  | lit {c : Char} {t : Text} (hc : c ≠ '$') (ht : Refs t) : Refs (c :: t)
  | name {n t : Text} (hn : n ≠ []) (hname : ∀ c ∈ n, isNameChar c) (ht : Refs t) :
    Refs ('$' :: (n ++ t))
  | braced {n t : Text} (hn : n ≠ []) (hname : ∀ c ∈ n, isNameChar c) (ht : Refs t) :
    Refs ('$' :: '{' :: (n ++ '}' :: t))

theorem Refs.dropWhile {t : Text} (h : Refs t) : Refs (t.dropWhile isNameChar) := by
  induction h with
  | nil => exact .nil
  | @lit c t hc ht ih =>
    rw [List.dropWhile_cons]
    split_ifs
    · exact ih
    · exact .lit hc ht
  | name hn hname ht => exact .name hn hname ht
  | braced hn hname ht => exact .braced hn hname ht

abbrev IsAscii (c : Char) : Prop := c.toNat < 128

theorem range_of_isNameChar {c : Char} (h : isNameChar c) : 48 ≤ c.toNat ∧ IsAscii c := by
  simp only [isNameChar, Char.isAlphanum, Char.isAlpha, Char.isUpper, Char.isLower, Char.isDigit,
    Bool.or_eq_true, Bool.and_eq_true, decide_eq_true_eq, beq_iff_eq] at h
  obtain ((⟨h, h'⟩ | ⟨h, h'⟩) | ⟨h, h'⟩) | rfl := h
  · exact ⟨le_trans (by decide) h, lt_of_le_of_lt h' (by decide)⟩
  · exact ⟨le_trans (by decide) h, lt_of_le_of_lt h' (by decide)⟩
  · exact ⟨h, lt_of_le_of_lt h' (by decide)⟩
  · decide

theorem utf8Size_eq_one_iff {c : Char} : c.utf8Size = 1 ↔ IsAscii c := by
  rw [Char.utf8Size_eq_one_iff, UInt32.le_iff_toNat_le]
  exact Nat.lt_succ_iff.symm

theorem latin1_of_isAscii {c : Char} (h : IsAscii c) : latin1 c = [c] := by
  have hbyte : c.val.toUInt8.toNat = c.toNat := by
    rw [UInt32.toNat_toUInt8]
    exact Nat.mod_eq_of_lt (lt_of_lt_of_le h (by decide))
  rw [latin1, String.utf8EncodeChar_eq_singleton (utf8Size_eq_one_iff.mpr h), List.map_singleton,
    hbyte, Char.ofNat_toNat]

theorem one_lt_length_latin1 {c : Char} (h : ¬ IsAscii c) : 1 < (latin1 c).length := by
  rw [latin1, List.length_map, String.length_utf8EncodeChar]
  have hone := mt utf8Size_eq_one_iff.mp h
  have hpos := c.utf8Size_pos
  omega

theorem piece_name {d : Char} (h : isNameChar d) (r : Text) :
    piece '$' (d :: r) =
      (.var ((d :: r).takeWhile isNameChar), (d :: r).dropWhile isNameChar) := by
  unfold piece
  rw [if_pos rfl]
  split
  case h_1 heq => cases heq; exact absurd h (by decide)
  case h_2 heq => cases heq; exact absurd h (by decide)
  case h_3 heq => cases heq; exact absurd h (by decide)
  case h_4 heq => cases heq; exact if_pos h
  case h_5 heq => cases heq

theorem shellPiece_name {d : Char} (h : isNameChar d) (r : Text) (env : Text → Option Text) :
    shellPiece env '$' (d :: r) =
      ((env ((d :: r).takeWhile isNameChar)).getD [], (d :: r).dropWhile isNameChar) := by
  unfold shellPiece
  rw [if_pos rfl]
  split
  case h_1 heq => cases heq; exact absurd h (by decide)
  case h_2 heq => cases heq; exact absurd h (by decide)
  case h_3 heq => cases heq; rfl
  case h_4 heq => cases heq

theorem forall_mem_append_isAscii {n t : Text} (hname : ∀ c ∈ n, isNameChar c) :
    (∀ c ∈ n ++ t, IsAscii c) ↔ ∀ c ∈ t, IsAscii c := by
  rw [List.forall_mem_append]
  exact and_iff_right fun c hc => (range_of_isNameChar (hname c hc)).2

theorem forall_mem_dropWhile_isAscii (t : Text) :
    (∀ c ∈ t, IsAscii c) ↔ ∀ c ∈ t.dropWhile isNameChar, IsAscii c := by
  conv_lhs => rw [← List.takeWhile_append_dropWhile (p := isNameChar) (l := t)]
  exact forall_mem_append_isAscii fun c hc => List.mem_takeWhile_imp hc

/-- A reference is read alike by the two scanners. -/
theorem Refs.piece_eq {t : Text} (h : Refs ('$' :: t)) (env : Text → Option Text) :
    ∃ n rest, n ≠ ['?'] ∧ piece '$' t = (.var n, rest) ∧
      shellPiece env '$' t = ((env n).getD [], rest) ∧ Refs rest ∧
      ((∀ c ∈ t, IsAscii c) ↔ ∀ c ∈ rest, IsAscii c) := by
  have hstatus : ∀ n : Text, (∀ c ∈ n, isNameChar c) → n ≠ ['?'] := fun n hname heq =>
    absurd (hname '?' (heq ▸ List.mem_singleton_self _)) (by decide)
  generalize ht : '$' :: t = u at h
  cases h with
  | nil => cases ht
  | lit hc => cases ht; exact absurd rfl hc
  | @name n r hn hname hr =>
    obtain rfl : t = n ++ r := (List.cons.inj ht).2
    obtain ⟨d, n, rfl⟩ := List.exists_cons_of_ne_nil hn
    have hd : isNameChar d := hname d List.mem_cons_self
    refine ⟨_, _, hstatus _ fun c hc => List.mem_takeWhile_imp hc, piece_name hd (n ++ r),
      shellPiece_name hd (n ++ r) env, ?_, forall_mem_dropWhile_isAscii _⟩
    rw [← List.cons_append, List.dropWhile_append_of_pos hname]
    exact hr.dropWhile
  | @braced n r hn hname hr =>
    obtain rfl : t = '{' :: (n ++ '}' :: r) := (List.cons.inj ht).2
    have hne : ∀ c ∈ n, decide (c ≠ '}') = true := fun c hc => by
      refine decide_eq_true fun heq => ?_
      exact absurd (hname c hc) (heq ▸ by decide)
    have htake : (n ++ '}' :: r).takeWhile (· ≠ '}') = n := by
      rw [List.takeWhile_append_of_pos hne, List.takeWhile_cons_of_neg (by decide), List.append_nil]
    have hdrop : ((n ++ '}' :: r).dropWhile (· ≠ '}')).drop 1 = r := by
      rw [List.dropWhile_append_of_pos hne, List.dropWhile_cons_of_neg (by decide)]
      rfl
    refine ⟨n, r, hstatus n hname, ?_, ?_, hr, ?_⟩
    · rw [piece, if_pos rfl]
      exact congrArg₂ (fun a b => (Piece.var a, b)) htake hdrop
    · rw [shellPiece, if_pos rfl]
      exact congrArg₂ (fun a b => ((env a).getD [], b)) htake hdrop
    · rw [List.forall_mem_cons, forall_mem_append_isAscii hname, List.forall_mem_cons]
      exact ⟨fun h => h.2.2, fun h => ⟨by decide, by decide, h⟩⟩

theorem expandVars_cons (fuel : ℕ) (v : Vars) (c : Char) (t : Text) :
    expandVars fuel v (c :: t) = do
      let s ← expandPiece (evalArith fuel v) v (piece c t).1
      let rest ← expandVars fuel v (piece c t).2
      return s ++ rest := by
  rw [expandVars, scan_cons]
  rfl

theorem expandVars_lit {c : Char} (hc : c ≠ '$') {fuel : ℕ} {v : Vars} {t s : Text}
    (h : expandVars fuel v t = .ok s) : expandVars fuel v (c :: t) = .ok (c :: s) := by
  rw [expandVars_cons, piece.eq_def, if_neg hc]
  dsimp only
  rw [h]
  rfl

theorem expandVariables_lit {c : Char} (hc : c ≠ '$') (env : Text → Option Text) (t : Text) :
    expandVariables env (c :: t) = latin1 c ++ expandVariables env t := by
  rw [expandVariables_cons, shellPiece.eq_def, if_neg hc]

/-- The variables of a script that has none of its own. -/
def shared (env : Text → Option Text) (exitCode : ℤ) : Vars := ⟨fun _ => none, env, exitCode⟩

theorem getVar_shared {n : Text} (hn : n ≠ ['?']) (env : Text → Option Text) (exitCode : ℤ) :
    getVar (shared env exitCode) n = (env n).getD [] := by
  rw [getVar, shared]
  exact if_neg hn

section Compare

variable (env : Text → Option Text) (exitCode : ℤ) (fuel : ℕ)

/-- The interpreter keeps every literal, and the shell makes more than one of a literal that is not
ASCII. -/
theorem Refs.compare {t : Text} (h : Refs t) :
    ∃ s, expandVars fuel (shared env exitCode) t = .ok s ∧
      ((∀ c ∈ t, IsAscii c) → expandVariables env t = s) ∧
      ((¬ ∀ c ∈ t, IsAscii c) → s.length < (expandVariables env t).length) := by
  induction hlen : t.length using Nat.strong_induction_on generalizing t with
  | _ l ih =>
    subst hlen
    cases t with
    | nil => exact ⟨[], rfl, fun _ => rfl, fun h => absurd (by simp) h⟩
    | cons c t =>
      by_cases hc : c = '$'
      · subst hc
        obtain ⟨n, rest, hn, hpiece, hshell, hrest, hascii⟩ := h.piece_eq env
        have hle := length_piece '$' t
        rw [hpiece] at hle
        obtain ⟨s, hs, heq, hlt⟩ := ih rest.length (Nat.lt_succ_of_le hle) hrest rfl
        refine ⟨(env n).getD [] ++ s, ?_, fun h => ?_, fun h => ?_⟩
        · rw [expandVars_cons, hpiece, hs]
          exact congrArg (fun a => Except.ok (a ++ s)) (getVar_shared hn env exitCode)
        · rw [expandVariables_cons, hshell, heq (hascii.mp (List.forall_mem_cons.mp h).2)]
        · rw [expandVariables_cons, hshell, List.length_append, List.length_append]
          refine Nat.add_lt_add_left (hlt fun hall => h ?_) _
          exact List.forall_mem_cons.mpr ⟨by decide, hascii.mpr hall⟩
      · have ht : Refs t := by
          cases h with
          | lit _ ht => exact ht
          | name => exact absurd rfl hc
          | braced => exact absurd rfl hc
        obtain ⟨s, hs, heq, hlt⟩ := ih t.length (Nat.lt_succ_self _) ht rfl
        refine ⟨c :: s, expandVars_lit hc hs, fun h => ?_, fun h => ?_⟩
        · obtain ⟨hca, hta⟩ := List.forall_mem_cons.mp h
          rw [expandVariables_lit hc, latin1_of_isAscii hca, heq hta]
          rfl
        · rw [expandVariables_lit hc, List.length_append, List.length_cons]
          by_cases hca : IsAscii c
          · have hlt := hlt fun hta => h (List.forall_mem_cons.mpr ⟨hca, hta⟩)
            rw [latin1_of_isAscii hca, List.length_singleton]
            omega
          · have hone := one_lt_length_latin1 hca
            by_cases hta : ∀ c ∈ t, IsAscii c
            · rw [heq hta]
              omega
            · have hlt := hlt hta
              omega

theorem expandVars_of_no_dollar {v : Vars} {t : Text} (h : '$' ∉ t) :
    expandVars fuel v t = .ok t := by
  induction t with
  | nil => rfl
  | cons c t ih =>
    rw [List.mem_cons, not_or] at h
    exact expandVars_lit (Ne.symm h.1) (ih h.2)

/-- On literals and references the interpreter and the shell agree, and both keep a text without
references, when the text is ASCII. -/
theorem agree_iff_ascii {t : Text} (h : Refs t) :
    (expandVars fuel (shared env exitCode) t = .ok (expandVariables env t) ∧
      ('$' ∉ t → expandVars fuel (shared env exitCode) t = .ok t ∧ expandVariables env t = t)) ↔
      ∀ c ∈ t, IsAscii c := by
  obtain ⟨s, hs, heq, hlt⟩ := h.compare env exitCode fuel
  refine ⟨fun ⟨hagree, _⟩ => ?_, fun hascii => ⟨?_, fun hno => ?_⟩⟩
  · by_contra hnot
    rw [hs] at hagree
    have hlt := hlt hnot
    rw [← Except.ok.inj hagree] at hlt
    exact lt_irrefl _ hlt
  · rw [hs, heq hascii]
  · have hkeep := expandVars_of_no_dollar fuel (v := shared env exitCode) hno
    refine ⟨hkeep, ?_⟩
    rw [heq hascii]
    exact Except.ok.inj (hs.symm.trans hkeep)

theorem agree_iff_ascii_greeting :
    expandVars 0 (shared (fun _ => some ['b', 'o', 'b']) 0) ['h', 'i', ' ', '$', 'U'] =
      .ok (expandVariables (fun _ => some ['b', 'o', 'b']) ['h', 'i', ' ', '$', 'U']) :=
  have hname : Refs ['$', 'U'] := .name (n := ['U']) (by decide) (by simp [isNameChar]) .nil
  ((agree_iff_ascii _ 0 0 (.lit (by decide) (.lit (by decide) (.lit (by decide) hname)))).mpr
    (by simp [IsAscii])).1

/-- The shell takes the two bytes of `é` for characters. -/
theorem not_agree_e_acute :
    Refs ['é'] ∧ expandVars 0 (shared (fun _ => none) 0) ['é'] = .ok ['é'] ∧
      expandVariables (fun _ => none) ['é'] = ['Ã', '©'] :=
  ⟨.lit (by decide +kernel) .nil, expandVars_of_no_dollar 0 (by decide +kernel),
    by decide +kernel⟩

end Compare

end Aeterna.Plum
