import Aeterna.Plum.Expand

/-!
# When expansion ends

`eval_arith` expands its text again after every split, so that a variable whose value refers to the
variable itself keeps it going (`not_settles_selfReference`). It ends when the variables can be
ranked: every reference in a value is written `${NAME}`, and the references of a value cost less than
the variable (`settles_of_ranked`).
-/

namespace Aeterna.Plum

/-! ## Results that do not depend on the fuel -/

section Settles

variable {α β : Type}

/-- The result is the same for all large fuels, and it is not that there was too little. -/
def Settles (f : ℕ → Eval α) : Prop :=
  ∃ k r, r ≠ .error .fuel ∧ ∀ n, k ≤ n → f n = r

theorem Settles.const {r : Eval α} (hr : r ≠ .error .fuel) : Settles fun _ => r :=
  ⟨0, r, hr, fun _ _ => rfl⟩

theorem Settles.pure (a : α) : Settles fun _ => (.ok a : Eval α) := .const fun h => by cases h

theorem Settles.bind {f : ℕ → Eval α} {g : α → ℕ → Eval β} (hf : Settles f)
    (hg : ∀ a n, f n = .ok a → Settles (g a)) : Settles fun n => f n >>= fun a => g a n := by
  obtain ⟨k, r, hr, hk⟩ := hf
  cases r with
  | error e =>
    refine ⟨k, .error e, fun h => hr (by cases h; rfl), fun n hn => ?_⟩
    show f n >>= _ = _
    rw [hk n hn]
    rfl
  | ok a =>
    obtain ⟨l, r, hr, hl⟩ := hg a k (hk k le_rfl)
    refine ⟨max k l, r, hr, fun n hn => ?_⟩
    show f n >>= _ = _
    rw [hk n (le_of_max_le_left hn)]
    exact hl n (le_of_max_le_right hn)

theorem Settles.of_succ {f : ℕ → Eval α} (h : Settles fun n => f (n + 1)) : Settles f := by
  obtain ⟨k, r, hr, hk⟩ := h
  refine ⟨k + 1, r, hr, fun n hn => ?_⟩
  obtain ⟨n, rfl⟩ : ∃ m, n = m + 1 := ⟨n - 1, by omega⟩
  exact hk n (by omega)

end Settles

/-! ## The cost of a text -/

section Credit

variable (cost : Text → ℕ) (k : ℕ)

/-- The cost of a dollar sign before a text: a reference with braces costs one more than its
variable, and `k` is for everything else. -/
def weight : Text → ℕ
  | '{' :: r =>
    if (r.dropWhile isNameChar).head? = some '}' then 1 + cost (r.takeWhile isNameChar) else k
  | _ => k

def credit : Text → ℕ
  | [] => 0
  | c :: t => (if c = '$' then weight cost k t else 0) + credit t

/-- The variables can be ranked. -/
def Ranked (v : Vars) : Prop :=
  ∃ (cost : Text → ℕ) (k : ℕ), (∀ n, cost n < k) ∧ ∀ n, credit cost k (getVar v n) ≤ cost n

variable {cost k}

theorem weight_eq_of_ne {t : Text} (h : t.head? ≠ some '{') : weight cost k t = k := by
  unfold weight
  split
  · exact absurd rfl h
  · rfl

theorem weight_brace {n : Text} (hn : ∀ c ∈ n, isNameChar c) {d : Char} (hd : ¬ isNameChar d)
    (t : Text) : weight cost k ('{' :: (n ++ d :: t)) = if d = '}' then 1 + cost n else k := by
  have htake : (n ++ d :: t).takeWhile isNameChar = n := by
    rw [List.takeWhile_append_of_pos hn, List.takeWhile_cons_of_neg hd, List.append_nil]
  have hdrop : (n ++ d :: t).dropWhile isNameChar = d :: t := by
    rw [List.dropWhile_append_of_pos hn, List.dropWhile_cons_of_neg hd]
  show (if ((n ++ d :: t).dropWhile isNameChar).head? = some '}' then
    1 + cost ((n ++ d :: t).takeWhile isNameChar) else k) = _
  rw [htake, hdrop, List.head?_cons]
  simp only [Option.some_inj]

theorem names_or_split (r : Text) :
    (∀ c ∈ r, isNameChar c) ∨
      ∃ n d t, r = n ++ d :: t ∧ (∀ c ∈ n, isNameChar c) ∧ ¬ isNameChar d := by
  induction r with
  | nil => exact .inl (by simp)
  | cons c r ih =>
    by_cases hc : isNameChar c
    · obtain h | ⟨n, d, t, rfl, hn, hd⟩ := ih
      · exact .inl (List.forall_mem_cons.mpr ⟨hc, h⟩)
      · exact .inr ⟨c :: n, d, t, rfl, List.forall_mem_cons.mpr ⟨hc, hn⟩, hd⟩
    · exact .inr ⟨[], c, r, rfl, by simp, hc⟩

theorem weight_names {n : Text} (hn : ∀ c ∈ n, isNameChar c) : weight cost k ('{' :: n) = k := by
  show (if (n.dropWhile isNameChar).head? = some '}' then _ else k) = k
  rw [List.dropWhile_eq_nil_iff.mpr hn]
  rfl

variable (cost k) in
/-- What follows changes the weight of a text only if the text is an open brace and a name. -/
theorem weight_append (t u : Text) :
    weight cost k (t ++ u) = weight cost k t ∨ weight cost k t = k ∧ '$' ∉ t := by
  cases t with
  | nil => exact .inr ⟨rfl, List.not_mem_nil⟩
  | cons c r =>
    by_cases hc : c = '{'
    · subst hc
      obtain hn | ⟨n, d, t, rfl, hn, hd⟩ := names_or_split r
      · refine .inr ⟨weight_names hn, fun hmem => ?_⟩
        obtain h | h := List.mem_cons.mp hmem
        · exact absurd h (by decide)
        · exact absurd (hn _ h) (by decide)
      · left
        rw [weight_brace hn hd, List.cons_append, List.append_assoc, List.cons_append,
          weight_brace hn hd]
    · rw [List.cons_append, weight_eq_of_ne (by simpa using hc), weight_eq_of_ne (by simpa using hc)]
      exact .inl rfl

theorem credit_eq_zero {t : Text} (h : '$' ∉ t) : credit cost k t = 0 := by
  induction t with
  | nil => rfl
  | cons c t ih =>
    rw [List.mem_cons, not_or] at h
    rw [credit, if_neg (Ne.symm h.1), ih h.2]

theorem credit_lit {c : Char} (hc : c ≠ '$') (t : Text) :
    credit cost k (c :: t) = credit cost k t := by
  rw [credit, if_neg hc, Nat.zero_add]

theorem credit_dollar (t : Text) :
    credit cost k ('$' :: t) = weight cost k t + credit cost k t := by
  rw [credit, if_pos rfl]

variable (cost k) in
theorem credit_suffix {t u : Text} (h : u <:+ t) : credit cost k u ≤ credit cost k t := by
  obtain ⟨w, rfl⟩ := h
  induction w with
  | nil => exact le_rfl
  | cons c w ih => exact ih.trans (Nat.le_add_left _ _)

/-- A character that no reference with braces goes over. -/
def Separates (c : Char) : Prop := ¬ isNameChar c ∧ c ≠ '{' ∧ c ≠ '}'

theorem weight_separates {c : Char} (hc : Separates c) (t u : Text) :
    weight cost k (t ++ c :: u) = weight cost k t := by
  obtain h | ⟨hk, -⟩ := weight_append cost k t (c :: u)
  · exact h
  · rw [hk]
    cases t with
    | nil => exact weight_eq_of_ne (by simpa using hc.2.1)
    | cons d r =>
      by_cases hd : d = '{'
      · subst hd
        obtain hn | ⟨n, e, t, rfl, hn, he⟩ := names_or_split r
        · rw [List.cons_append, weight_brace hn hc.1, if_neg hc.2.2]
        · rw [weight_brace hn he] at hk
          rw [List.cons_append, List.append_assoc, List.cons_append, weight_brace hn he, hk]
      · exact weight_eq_of_ne (by simpa using hd)

theorem credit_separates {c : Char} (hc : Separates c) (t u : Text) :
    credit cost k (t ++ c :: u) = credit cost k t + credit cost k (c :: u) := by
  induction t with
  | nil => exact (Nat.zero_add _).symm
  | cons d t ih =>
    rw [List.cons_append, credit, credit, ih, weight_separates hc, Nat.add_assoc]

section Bounded

variable (hcost : ∀ n, cost n < k)
include hcost

theorem weight_le (t : Text) : weight cost k t ≤ k := by
  unfold weight
  split
  · split_ifs
    · exact (Nat.add_comm _ _).trans_le (hcost _)
    · exact le_rfl
  · exact le_rfl

theorem weight_pos (t : Text) : 0 < weight cost k t := by
  have hk : 0 < k := lt_of_le_of_lt (Nat.zero_le _) (hcost [])
  unfold weight
  split
  · split_ifs
    · omega
    · exact hk
  · exact hk

/-- Credit is subadditive: what follows a text completes references, and that is cheaper. -/
theorem credit_append_le (t u : Text) :
    credit cost k (t ++ u) ≤ credit cost k t + credit cost k u := by
  induction t with
  | nil => exact (Nat.zero_add _).ge
  | cons c t ih =>
    by_cases hc : c = '$'
    · subst hc
      have hweight : weight cost k (t ++ u) ≤ weight cost k t := by
        obtain h | ⟨hk, -⟩ := weight_append cost k t u
        · exact h.le
        · exact (weight_le hcost _).trans_eq hk.symm
      rw [List.cons_append, credit_dollar, credit_dollar]
      omega
    · rw [List.cons_append, credit_lit hc, credit_lit hc]
      exact ih

theorem credit_lt_append (t u : Text) : credit cost k t < k + credit cost k (t ++ u) := by
  have hk : 0 < k := lt_of_le_of_lt (Nat.zero_le _) (hcost [])
  induction t with
  | nil => exact Nat.add_pos_left hk _
  | cons c t ih =>
    by_cases hc : c = '$'
    · subst hc
      rw [List.cons_append, credit_dollar, credit_dollar]
      obtain h | ⟨heq, hno⟩ := weight_append cost k t u
      · omega
      · have hpos := weight_pos hcost (t ++ u)
        rw [heq, credit_eq_zero hno]
        omega
    · rw [List.cons_append, credit_lit hc, credit_lit hc]
      exact ih

end Bounded

end Credit

/-! ## What a piece costs -/

theorem dollar_notMem_intToStr (n : ℤ) : '$' ∉ intToStr n := by
  have hdigits : '$' ∉ Nat.toDigits 10 n.natAbs := fun h =>
    absurd (Nat.isDigit_of_mem_toDigits (by decide) (by decide) h) (by decide)
  unfold intToStr
  split_ifs
  · exact List.not_mem_cons_of_ne_of_not_mem (by decide) hdigits
  · exact hdigits

section Ranked

variable {cost : Text → ℕ} {k : ℕ} {v : Vars} (hcost : ∀ n, cost n < k)
  (hvalue : ∀ n, credit cost k (getVar v n) ≤ cost n)
include hcost

/-- What `piece` makes of a dollar sign: a literal, or a piece with less credit. -/
def Cheaper (cost : Text → ℕ) (k : ℕ) (v : Vars) (t : Text) : Piece → Text → Prop
  | .lit c, rest => c = '$' ∧ rest = t ∧ weight cost k t = k
  | .arith e, rest =>
    credit cost k e < credit cost k ('$' :: t) ∧ credit cost k rest < credit cost k ('$' :: t)
  | .var n, rest =>
    credit cost k (getVar v n) + credit cost k rest < credit cost k ('$' :: t)
  | .status, rest => credit cost k rest < credit cost k ('$' :: t)
  | .cut, rest => rest = []

theorem cost_lt_weight (r : Text) :
    cost (r.takeWhile (· ≠ '}')) < weight cost k ('{' :: r) := by
  obtain hn | ⟨n, d, t, rfl, hn, hd⟩ := names_or_split r
  · rw [weight_names hn]
    exact hcost _
  · rw [weight_brace hn hd]
    split_ifs with hbrace
    · subst hbrace
      have hne : ∀ c ∈ n, decide (c ≠ '}') = true := fun c hc => by
        refine decide_eq_true fun heq => ?_
        exact absurd (hn c hc) (heq ▸ by decide)
      rw [List.takeWhile_append_of_pos hne, List.takeWhile_cons_of_neg (by decide),
        List.append_nil]
      omega
    · exact hcost _

theorem unclosed_cases (r : Text) :
    unclosed r = .cut ∨ ∃ e, unclosed r = .arith e ∧ credit cost k e < k + credit cost k r := by
  have hk : 0 < k := lt_of_le_of_lt (Nat.zero_le _) (hcost [])
  obtain rfl | ⟨e, c, rfl⟩ := List.eq_nil_or_concat' r
  · exact .inr ⟨[], rfl, Nat.add_pos_left hk _⟩
  · rw [unclosed, List.getLast?_concat, List.dropLast_concat]
    dsimp only
    split_ifs
    · exact .inr ⟨e, rfl, credit_lt_append hcost e [c]⟩
    · exact .inl rfl

include hvalue in
theorem cheaper_piece (t : Text) : Cheaper cost k v t (piece '$' t).1 (piece '$' t).2 := by
  have hk : 0 < k := lt_of_le_of_lt (Nat.zero_le _) (hcost [])
  unfold piece
  rw [if_pos rfl]
  split
  · rename_i r
    have hcredit : credit cost k ('$' :: '(' :: '(' :: r) = k + credit cost k r := by
      rw [credit_dollar, credit_lit (by decide), credit_lit (by decide)]
      rfl
    split
    · rename_i e rest hsplit
      have hparen : credit cost k r = credit cost k e + credit cost k rest := by
        rw [splitOnce_eq hsplit, List.cons_append,
          credit_separates ⟨by decide, by decide, by decide⟩, credit_lit (by decide),
          List.cons_append, credit_lit (by decide)]
        rfl
      show credit cost k e < _ ∧ credit cost k rest < _
      omega
    · obtain hcut | ⟨e, he, hlt⟩ := unclosed_cases hcost r
      · rw [hcut]
        rfl
      · rw [he]
        show credit cost k e < _ ∧ 0 < _
        omega
  · rename_i r
    have hrest : (r.dropWhile (· ≠ '}')).drop 1 <:+ r :=
      (List.drop_suffix _ _).trans (List.dropWhile_suffix _)
    have hle := credit_suffix cost k hrest
    have hname := cost_lt_weight hcost r
    have hval := hvalue (r.takeWhile (· ≠ '}'))
    show _ + credit cost k ((r.dropWhile (· ≠ '}')).drop 1) < _
    rw [credit_dollar, credit_lit (by decide)]
    omega
  · rename_i r
    show credit cost k r < _
    rw [credit_dollar, credit_lit (by decide)]
    exact Nat.lt_add_of_pos_left hk
  · rename_i d r _ hbrace _
    have hweight : weight cost k (d :: r) = k :=
      weight_eq_of_ne fun h => hbrace (Option.some.inj h)
    split_ifs
    · have hle := credit_suffix cost k (List.dropWhile_suffix (l := d :: r) isNameChar)
      have hval := hvalue ((d :: r).takeWhile isNameChar)
      have hlt := hcost ((d :: r).takeWhile isNameChar)
      show _ + credit cost k ((d :: r).dropWhile isNameChar) < _
      rw [credit_dollar, hweight]
      omega
    · exact ⟨rfl, rfl, hweight⟩
  · exact ⟨rfl, rfl, rfl⟩

omit hcost in
theorem Cheaper.rest_le {t rest : Text} {p : Piece} (h : Cheaper cost k v t p rest) :
    credit cost k rest ≤ credit cost k ('$' :: t) := by
  cases p with
  | lit c =>
    obtain ⟨-, rfl, -⟩ := h
    exact Nat.le_add_left _ _
  | arith e => exact h.2.le
  | var n => exact (Nat.le_add_left _ _).trans h.le
  | status => exact h.le
  | cut =>
    obtain rfl : rest = [] := h
    exact Nat.zero_le _

include hvalue in
theorem credit_arith_lt {t e : Text} (h : Piece.arith e ∈ scan t) :
    credit cost k e < credit cost k t := by
  induction hlen : t.length using Nat.strong_induction_on generalizing t with
  | _ l ih =>
    subst hlen
    cases t with
    | nil => exact absurd h List.not_mem_nil
    | cons c t =>
      have hle := length_piece c t
      rw [scan_cons] at h
      by_cases hc : c = '$'
      · subst hc
        have hcheap := cheaper_piece hcost hvalue t
        obtain h | h := List.mem_cons.mp h
        · rw [← h] at hcheap
          exact hcheap.1
        · exact (ih _ (Nat.lt_succ_of_le hle) h rfl).trans_le hcheap.rest_le
      · have hpiece : piece c t = (.lit c, t) := if_neg hc
        rw [hpiece, List.mem_cons] at h
        obtain h | h := h
        · cases h
        · rw [credit_lit hc]
          exact ih _ (Nat.lt_succ_self _) h rfl

omit hcost in
theorem expandVars_cons_eq_ok {n : ℕ} {c : Char} {t s : Text}
    (h : expandVars n v (c :: t) = .ok s) :
    ∃ s₁ s₂, expandPiece (evalArith n v) v (piece c t).1 = .ok s₁ ∧
      expandVars n v (piece c t).2 = .ok s₂ ∧ s = s₁ ++ s₂ := by
  rw [expandVars_cons] at h
  cases h₁ : expandPiece (evalArith n v) v (piece c t).1 with
  | error e =>
    rw [h₁] at h
    cases h
  | ok s₁ =>
    rw [h₁] at h
    cases h₂ : expandVars n v (piece c t).2 with
    | error e =>
      rw [h₂] at h
      cases h
    | ok s₂ =>
      rw [h₂] at h
      cases h
      exact ⟨s₁, s₂, rfl, rfl, rfl⟩

include hvalue in
theorem credit_expandVars {n : ℕ} {t s : Text} (h : expandVars n v t = .ok s) :
    credit cost k s < credit cost k t ∨ s = t := by
  induction hlen : t.length using Nat.strong_induction_on generalizing t s with
  | _ l ih =>
    subst hlen
    cases t with
    | nil =>
      cases h
      exact .inr rfl
    | cons c t =>
      obtain ⟨s₁, s₂, h₁, h₂, rfl⟩ := expandVars_cons_eq_ok h
      have hrest := ih _ (Nat.lt_succ_of_le (length_piece c t)) h₂ rfl
      by_cases hc : c = '$'
      · subst hc
        have hcheap := cheaper_piece hcost hvalue t
        have hle : credit cost k s₂ ≤ credit cost k (piece '$' t).2 := by
          obtain h | h := hrest
          · exact h.le
          · rw [h]
        have happend := credit_append_le hcost s₁ s₂
        cases hp : (piece '$' t).1 with
        | lit d =>
          rw [hp] at h₁ hcheap
          obtain ⟨rfl, hrest', hweight⟩ := hcheap
          cases h₁
          rw [hrest'] at hrest
          obtain h | rfl := hrest
          · left
            have hle := weight_le hcost s₂
            show credit cost k ('$' :: s₂) < _
            rw [credit_dollar, credit_dollar, hweight]
            omega
          · exact .inr rfl
        | arith e =>
          rw [hp] at h₁ hcheap
          have hzero : credit cost k s₁ = 0 := by
            cases hx : evalArith n v e with
            | error x =>
              rw [expandPiece, hx] at h₁
              cases h₁
            | ok x =>
              rw [expandPiece, hx] at h₁
              cases h₁
              exact credit_eq_zero (dollar_notMem_intToStr x)
          have hlt := hcheap.2
          left
          omega
        | var name =>
          rw [hp] at h₁ hcheap
          cases h₁
          have hlt : _ + _ < _ := hcheap
          left
          omega
        | status =>
          rw [hp] at h₁ hcheap
          cases h₁
          have hzero : credit cost k (intToStr v.exitCode) = 0 :=
            credit_eq_zero (dollar_notMem_intToStr v.exitCode)
          have hlt : _ < _ := hcheap
          left
          omega
        | cut =>
          rw [hp] at h₁
          cases h₁
      · have hpiece : piece c t = (.lit c, t) := if_neg hc
        rw [hpiece] at h₁ hrest
        cases h₁
        obtain h | rfl := hrest
        · left
          show credit cost k (c :: s₂) < _
          rwa [credit_lit hc, credit_lit hc]
        · exact .inr rfl

end Ranked

/-! ## What a split costs -/

theorem separates_of_mem_operators {op : Char} (h : op ∈ operators) : Separates op := by
  have hall : ∀ c ∈ operators, Separates c := by
    simp [operators, Separates, isNameChar]
  exact hall op h

theorem separates_of_isWhitespace {c : Char} (h : isWhitespace c) : Separates c := by
  refine ⟨fun hname => ?_, ?_, ?_⟩
  · have hrange := range_of_isNameChar hname
    simp only [isWhitespace, Bool.or_eq_true, Bool.and_eq_true, decide_eq_true_eq,
      beq_iff_eq] at h
    omega
  · rintro rfl
    exact absurd h (by decide)
  · rintro rfl
    exact absurd h (by decide)

theorem splitLast_eq_some {op : Char} {t a b : Text} (h : splitLast op t = some (a, b)) :
    t = a ++ op :: b := by
  unfold splitLast at h
  dsimp only at h
  split_ifs at h with hcond
  cases h
  have hne : t.reverse.dropWhile (· ≠ op) ≠ [] := fun hnil => by
    have hall := List.dropWhile_eq_nil_iff.mp hnil op (List.mem_reverse.mpr hcond.1)
    exact absurd rfl (of_decide_eq_true hall)
  obtain ⟨d, x, hx⟩ := List.exists_cons_of_ne_nil hne
  have hd := List.head?_dropWhile_not (· ≠ op) t.reverse
  rw [hx] at hd
  obtain rfl : d = op := not_not.mp (of_decide_eq_false hd)
  have ht : t = (t.reverse.takeWhile (· ≠ d) ++ t.reverse.dropWhile (· ≠ d)).reverse := by
    rw [List.takeWhile_append_dropWhile, List.reverse_reverse]
  rw [hx, List.reverse_append, List.reverse_cons, List.append_assoc] at ht
  rw [hx]
  exact ht

theorem splitExpr_eq_some {t a b : Text} {op : Char} (h : splitExpr t = some (op, a, b)) :
    op ∈ operators ∧ t = a ++ op :: b := by
  obtain ⟨c, hc, hmap⟩ := List.exists_of_findSome?_eq_some h
  obtain ⟨⟨a', b'⟩, hsplit, heq⟩ := Option.map_eq_some_iff.mp hmap
  cases heq
  exact ⟨hc, splitLast_eq_some hsplit⟩

section Split

variable (cost : Text → ℕ) (k : ℕ)

theorem credit_trim (t : Text) : credit cost k (trim t) ≤ credit cost k t := by
  have hstart := credit_suffix cost k (List.dropWhile_suffix (l := t) isWhitespace)
  refine le_trans ?_ hstart
  rw [trim]
  generalize t.dropWhile isWhitespace = s
  have hs : s = (s.reverse.dropWhile isWhitespace).reverse ++
      (s.reverse.takeWhile isWhitespace).reverse := by
    rw [← List.reverse_append, List.takeWhile_append_dropWhile, List.reverse_reverse]
  conv_rhs => rw [hs]
  cases hblank : (s.reverse.takeWhile isWhitespace).reverse with
  | nil => rw [List.append_nil]
  | cons c w =>
    have hc : c ∈ s.reverse.takeWhile isWhitespace := by
      rw [← List.mem_reverse, hblank]
      exact List.mem_cons_self
    rw [credit_separates (separates_of_isWhitespace (List.mem_takeWhile_imp hc))]
    exact Nat.le_add_right _ _

theorem credit_operands {t a b : Text} {op : Char} (h : splitExpr (trim t) = some (op, a, b)) :
    (credit cost k a ≤ credit cost k t ∧ a.length < t.length) ∧
      credit cost k b ≤ credit cost k t ∧ b.length < t.length := by
  obtain ⟨hop, heq⟩ := splitExpr_eq_some h
  have hle := credit_trim cost k t
  have hlen := length_trim t
  rw [heq, credit_separates (separates_of_mem_operators hop), credit_lit] at hle
  · rw [heq, List.length_append, List.length_cons] at hlen
    omega
  · rintro rfl
    exact absurd hop (by decide)

end Split

/-! ## Termination -/

section Termination

variable {v : Vars}

theorem settles_expandPieces {ps : List Piece}
    (h : ∀ e, Piece.arith e ∈ ps → Settles fun n => evalArith n v e) :
    Settles fun n => expandPieces (evalArith n v) v ps := by
  induction ps with
  | nil => exact .pure []
  | cons p ps ih =>
    have hp : Settles fun n => expandPiece (evalArith n v) v p := by
      cases p with
      | arith e => exact (h e List.mem_cons_self).bind fun x _ _ => .pure _
      | lit c => exact .pure _
      | var n => exact .pure _
      | status => exact .pure _
      | cut => exact .const (by decide)
    exact hp.bind fun s _ _ =>
      (ih fun e he => h e (List.mem_cons_of_mem _ he)).bind fun _ _ _ => .pure _

theorem applyOp_ne_fuel (op : Char) (l r : ℤ) : applyOp op l r ≠ .error .fuel := by
  unfold applyOp
  split_ifs <;> exact fun h => by cases h

theorem settles_evalArith (hv : Ranked v) (t : Text) : Settles fun n => evalArith n v t := by
  obtain ⟨cost, k, hcost, hvalue⟩ := hv
  -- on the credit of the text, and on its length where the credit stays
  induction hcredit : credit cost k t using Nat.strong_induction_on generalizing t with
  | _ m ihm =>
    induction hlen : t.length using Nat.strong_induction_on generalizing t with
    | _ l ihl =>
      subst hcredit
      subst hlen
      have hexpand : Settles fun n => expandVars n v t := settles_expandPieces fun e he =>
        ihm _ (credit_arith_lt hcost hvalue he) e rfl
      refine Settles.of_succ (hexpand.bind fun s n hs => ?_)
      dsimp only
      cases hsplit : splitExpr (trim s) with
      | none => exact .pure _
      | some p =>
        obtain ⟨op, a, b⟩ := p
        obtain ⟨⟨ha, hal⟩, hb, hbl⟩ := credit_operands cost k hsplit
        have hsmaller : ∀ u, credit cost k u ≤ credit cost k s → u.length < s.length →
            Settles fun n => evalArith n v u := by
          intro u hu hul
          obtain hlt | rfl := credit_expandVars hcost hvalue hs
          · exact ihm _ (hu.trans_lt hlt) u rfl
          · obtain hlt | heq := hu.lt_or_eq
            · exact ihm _ hlt u rfl
            · exact ihl _ hul u heq rfl
        exact (hsmaller a ha hal).bind fun x _ _ => (hsmaller b hb hbl).bind fun y _ _ =>
          .const (applyOp_ne_fuel op x y)

/-- The variable `A` has the value `$A+1`. -/
def selfReference : Vars :=
  ⟨fun _ => none, fun n => if n = ['A'] then some ['$', 'A', '+', '1'] else none, 0⟩

theorem evalArith_selfReference (n : ℕ) : evalArith n selfReference ['$', 'A'] = .error .fuel := by
  induction n with
  | zero => rfl
  | succ n ih =>
    have hstep : evalArith (n + 1) selfReference ['$', 'A'] =
        evalArith n selfReference ['$', 'A'] >>= fun l =>
          evalArith n selfReference ['1'] >>= fun r => applyOp '+' l r := rfl
    rw [hstep, ih]
    rfl

/-- The value of `A` refers to `B`. -/
def chainedReference : Vars where
  locals _ := none
  env n := if n = ['A'] then some ['$', '{', 'B', '}', '+', '1'] else none
  exitCode := 0

end Termination

end Aeterna.Plum
