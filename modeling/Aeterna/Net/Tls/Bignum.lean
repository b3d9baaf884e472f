import Mathlib
import Aeterna.Lib.Limbs

/-!
# Numbers of any size

`net/tls/bignum.rs`, the arithmetic: little-endian 32-bit words without zeros at the top. That no
top word is zero is a field of `BigNum`, and every function of the file ends in `trim`.
Each function has one theorem about the number `toNat`; from them `modExp` raises to a power
modulo any modulus (`modExp_spec`).
-/

namespace Aeterna.Net.Tls

open Lib.Bytes Lib.Limbs Lib.Word

/-! ## Zeros at the front -/

/-- Zeros at the front are dropped, but the last element stays. -/
def dropZeros {α : Type*} [Zero α] [DecidableEq α] : List α → List α
  | x :: y :: l => if x = 0 then dropZeros (y :: l) else x :: y :: l
  | l => l

section DropZeros

variable {α : Type*} [Zero α] [DecidableEq α]

theorem dropZeros_eq (l : List α) : ∃ n, l = List.replicate n 0 ++ dropZeros l := by
  fun_induction dropZeros l with
  | case1 y l ih =>
    obtain ⟨n, hn⟩ := ih
    exact ⟨n + 1, congrArg (0 :: ·) hn⟩
  | case2 x y l hx => exact ⟨0, rfl⟩
  | case3 l => exact ⟨0, rfl⟩

theorem dropZeros_ne_nil {l : List α} (h : l ≠ []) : dropZeros l ≠ [] := by
  fun_induction dropZeros l with
  | case1 y l ih => exact ih (List.cons_ne_nil _ _)
  | case2 x y l hx => exact h
  | case3 l => exact h

theorem head_dropZeros {l : List α} (h : 1 < (dropZeros l).length) :
    (dropZeros l).head? ≠ some 0 := by
  fun_induction dropZeros l with
  | case1 y l ih => exact ih h
  | case2 x y l hx => simpa using hx
  | case3 l hl =>
    obtain ⟨x, y, rest, rfl⟩ : ∃ x y rest, l = x :: y :: rest := by
      match l, h with
      | x :: y :: rest, _ => exact ⟨x, y, rest, rfl⟩
    exact absurd rfl (hl x y rest)

end DropZeros

/-! ## The type -/

/-- The words of a number, lowest first, at least one. -/
structure BigNum where
  limbs : List UInt32
  limbs_ne_nil : limbs ≠ []
  trimmed : 1 < limbs.length → limbs.getLast? ≠ some 0

def trim (limbs : List UInt32) : List UInt32 := (dropZeros limbs.reverse).reverse

theorem nat_trim (limbs : List UInt32) : nat (trim limbs) = nat limbs := by
  obtain ⟨n, hn⟩ := dropZeros_eq limbs.reverse
  have hlimbs : limbs = trim limbs ++ List.replicate n 0 := by
    have hrev := congrArg List.reverse hn
    rwa [List.reverse_reverse, List.reverse_append, List.reverse_replicate] at hrev
  conv_rhs => rw [hlimbs, nat_append, nat_replicate_zero, Nat.mul_zero, Nat.add_zero]

namespace BigNum

/-- The words after `trim`. -/
def ofLimbs (limbs : List UInt32) (h : limbs ≠ []) : BigNum where
  limbs := trim limbs
  limbs_ne_nil := by
    rw [trim, Ne, List.reverse_eq_nil_iff]
    exact dropZeros_ne_nil (by rwa [Ne, List.reverse_eq_nil_iff])
  trimmed := by
    rw [trim, List.length_reverse, List.getLast?_reverse]
    exact head_dropZeros

def toNat (a : BigNum) : ℕ := nat a.limbs

@[simp] theorem toNat_ofLimbs (limbs : List UInt32) (h : limbs ≠ []) :
    (ofLimbs limbs h).toNat = nat limbs := nat_trim limbs

theorem length_pos (a : BigNum) : 0 < a.limbs.length := List.length_pos_iff.mpr a.limbs_ne_nil

theorem toNat_lt (a : BigNum) : a.toNat < 2 ^ (32 * a.limbs.length) := nat_lt a.limbs

theorem limbs_eq (a : BigNum) :
    ∃ low top, a.limbs = low ++ [top] ∧ a.limbs.length = low.length + 1 ∧
      a.toNat = nat low + 2 ^ (32 * low.length) * top.toNat ∧ (low ≠ [] → top ≠ 0) := by
  have hlimbs : a.limbs = a.limbs.dropLast ++ [a.limbs.getLast a.limbs_ne_nil] :=
    (List.dropLast_append_getLast a.limbs_ne_nil).symm
  refine ⟨_, _, hlimbs, (congrArg List.length hlimbs).trans List.length_append,
    (congrArg nat hlimbs).trans (nat_append _ _), fun hlow htop => ?_⟩
  have hlen : 1 < a.limbs.length := by
    have hpos := List.length_pos_iff.mpr hlow
    rw [List.length_dropLast] at hpos
    omega
  apply a.trimmed hlen
  rw [List.getLast?_eq_some_getLast a.limbs_ne_nil, htop]

theorem pow_le_toNat (a : BigNum) (h : 1 < a.limbs.length) :
    2 ^ (32 * (a.limbs.length - 1)) ≤ a.toNat := by
  obtain ⟨low, top, -, hlen, hval, htop⟩ := a.limbs_eq
  have hlow : low ≠ [] := by
    rintro rfl
    rw [hlen] at h
    exact lt_irrefl 1 h
  have hone : 1 ≤ top.toNat := Nat.pos_of_ne_zero fun hz => htop hlow (UInt32.toNat_inj.mp hz)
  rw [hval, hlen, Nat.add_sub_cancel]
  exact le_trans (Nat.le_mul_of_pos_right _ hone) (Nat.le_add_left _ _)

theorem length_le_of_toNat_le {a b : BigNum} (h : a.toNat ≤ b.toNat) :
    a.limbs.length ≤ b.limbs.length := by
  by_contra hlt
  have hb := b.length_pos
  have hpow := a.pow_le_toNat (by omega)
  have hle : 2 ^ (32 * b.limbs.length) ≤ 2 ^ (32 * (a.limbs.length - 1)) :=
    Nat.pow_le_pow_right (by norm_num) (by omega)
  have hlt := b.toNat_lt
  omega

/-! ## Bytes -/

def zero : BigNum := ⟨[0], by decide, by decide⟩

def wordsOfBe (padded : List UInt8) : List UInt32 :=
  (List.range (padded.length / 4)).reverse.map fun i =>
    UInt32.ofNat (beValue ((padded.drop (4 * i)).take 4))

def padWords (data : List UInt8) : List UInt8 :=
  List.replicate ((4 - data.length % 4) % 4) 0 ++ data

theorem length_padWords (data : List UInt8) : ∃ n, (padWords data).length = 4 * n := by
  rw [padWords, List.length_append, List.length_replicate]
  exact ⟨((4 - data.length % 4) % 4 + data.length) / 4, by omega⟩

theorem nat_wordsOfBe {padded : List UInt8} {n : ℕ} (h : padded.length = 4 * n) :
    nat (wordsOfBe padded) = beValue padded := by
  have hwords : (List.range (padded.length / 4)).reverse.map
      (fun i => UInt32.ofNat (beValue ((padded.drop (4 * i)).take 4))) =
      (List.range n).map fun k => UInt32.ofNat (leValue ((padded.reverse.drop (4 * k)).take 4)) := by
    rw [h, Nat.mul_div_cancel_left _ (by norm_num)]
    apply List.ext_getElem
    · simp
    · intro k hk _
      have hk' : k < n := by simpa using hk
      simp only [List.getElem_map, List.getElem_reverse, List.getElem_range, List.length_range]
      have hfrom : min (4 * n - 4 * k) (4 * n) - 4 = 4 * (n - 1 - k) := by omega
      have hto : 4 * n - 4 * k = 4 * (n - 1 - k) + 4 := by omega
      rw [beValue, List.drop_reverse, List.take_reverse, List.length_take, h, hfrom, hto,
        List.take_drop]
  rw [wordsOfBe, hwords, nat_words_of_bytes (by rwa [List.length_reverse])]
  rfl

theorem wordsOfBe_padWords_ne_nil {data : List UInt8} (h : data ≠ []) :
    wordsOfBe (padWords data) ≠ [] := by
  have hpos := List.length_pos_iff.mpr h
  rw [Ne, ← List.length_eq_zero_iff, wordsOfBe, List.length_map, List.length_reverse,
    List.length_range, padWords, List.length_append, List.length_replicate]
  omega

def fromBeBytes (data : List UInt8) : BigNum :=
  if h : data = [] then zero
  else ofLimbs (wordsOfBe (padWords data)) (wordsOfBe_padWords_ne_nil h)

@[simp] theorem toNat_fromBeBytes (data : List UInt8) : (fromBeBytes data).toNat = beValue data := by
  rw [fromBeBytes]
  split_ifs with h
  · rw [h]
    rfl
  · obtain ⟨n, hn⟩ := length_padWords data
    rw [toNat_ofLimbs, nat_wordsOfBe hn, padWords, beValue_append, beValue_replicate_zero,
      Nat.mul_zero, Nat.zero_add]

def toBeBytes (a : BigNum) : List UInt8 :=
  dropZeros (a.limbs.reverse.flatMap fun w => beBytes 4 w.toNat)

def toBeBytesPadded (a : BigNum) (len : ℕ) : List UInt8 :=
  let raw := a.toBeBytes
  if len ≤ raw.length then raw.drop (raw.length - len)
  else List.replicate (len - raw.length) 0 ++ raw

theorem beValue_toBeBytes (a : BigNum) : beValue a.toBeBytes = a.toNat := by
  have hall : beValue (a.limbs.reverse.flatMap fun w => beBytes 4 w.toNat) = a.toNat := by
    have hrev : (a.limbs.reverse.flatMap fun w => beBytes 4 w.toNat) =
        (a.limbs.flatMap fun w => leBytes 4 w.toNat).reverse := by
      rw [List.reverse_flatMap]
      rfl
    rw [hrev, beValue, List.reverse_reverse, leValue_flatMap, toNat]
  obtain ⟨n, hn⟩ := dropZeros_eq (a.limbs.reverse.flatMap fun w => beBytes 4 w.toNat)
  rw [hn, beValue_append, beValue_replicate_zero, Nat.mul_zero, Nat.zero_add] at hall
  exact hall

@[simp] theorem length_toBeBytesPadded (a : BigNum) (len : ℕ) :
    (a.toBeBytesPadded len).length = len := by
  rw [toBeBytesPadded]
  split_ifs with h
  · rw [List.length_drop]
    omega
  · rw [List.length_append, List.length_replicate]
    omega

theorem beValue_toBeBytesPadded {a : BigNum} {len : ℕ} (h : a.toNat < 256 ^ len) :
    beValue (a.toBeBytesPadded len) = a.toNat := by
  have hraw := a.beValue_toBeBytes
  rw [toBeBytesPadded]
  split_ifs with hlen
  · have hdrop : (a.toBeBytes.drop (a.toBeBytes.length - len)).length = len := by
      rw [List.length_drop]
      omega
    rw [← List.take_append_drop (a.toBeBytes.length - len) a.toBeBytes, beValue_append, hdrop]
      at hraw
    rcases Nat.eq_zero_or_pos (beValue (a.toBeBytes.take (a.toBeBytes.length - len))) with hz | hpos
    · rwa [hz, Nat.mul_zero, Nat.zero_add] at hraw
    · have hle := Nat.le_mul_of_pos_right (256 ^ len) hpos
      omega
  · rw [beValue_append, beValue_replicate_zero, Nat.mul_zero, Nat.zero_add, hraw]

/-! ## Bits -/

def leadingZeros (w : UInt32) : ℕ := if w = 0 then 32 else 31 - w.toNat.log2

def bitLen (a : BigNum) : ℕ :=
  let n := a.limbs.length
  if n = 0 then 0
  else
    let top := a.limbs.getD (n - 1) 0
    if top = 0 then 0 else (n - 1) * 32 + (32 - leadingZeros top)

def isZero (a : BigNum) : Bool := a.limbs.all (· == 0)

theorem sub_leadingZeros {w : UInt32} (h : w ≠ 0) : 32 - leadingZeros w = Nat.size w.toNat := by
  have hne : w.toNat ≠ 0 := fun hz => h (UInt32.toNat_inj.mp hz)
  have hlow : w.toNat.log2 < Nat.size w.toNat := Nat.lt_size.mpr (Nat.log2_self_le hne)
  have hhigh : Nat.size w.toNat ≤ w.toNat.log2 + 1 := Nat.size_le.mpr Nat.lt_log2_self
  have hword : Nat.size w.toNat ≤ 32 := Nat.size_le.mpr w.toNat_lt
  rw [leadingZeros, if_neg h]
  omega

theorem size_add_mul {low high w : ℕ} (hlow : low < 2 ^ w) (hhigh : high ≠ 0) :
    Nat.size (low + 2 ^ w * high) = w + Nat.size high := by
  have hpos := Nat.size_pos.mpr (Nat.pos_of_ne_zero hhigh)
  apply le_antisymm
  · rw [Nat.size_le, pow_add]
    have hlt : high + 1 ≤ 2 ^ Nat.size high := Nat.lt_size_self high
    calc low + 2 ^ w * high < 2 ^ w * (high + 1) := by rw [Nat.mul_succ]; omega
      _ ≤ 2 ^ w * 2 ^ Nat.size high := Nat.mul_le_mul_left _ hlt
  · obtain ⟨m, hm⟩ := Nat.exists_eq_succ_of_ne_zero hpos.ne'
    rw [hm, Nat.add_succ, Nat.succ_le_iff, Nat.lt_size, pow_add]
    have hle : 2 ^ m ≤ high := Nat.lt_size.mp (by omega)
    exact le_trans (Nat.mul_le_mul_left _ hle) (Nat.le_add_left _ _)

theorem bitLen_eq (a : BigNum) : a.bitLen = Nat.size a.toNat := by
  obtain ⟨low, top, hlimbs, hlen, hval, htop⟩ := a.limbs_eq
  have hget : a.limbs.getD (a.limbs.length - 1) 0 = top := by
    rw [hlen, hlimbs, Nat.add_sub_cancel, List.getD_append_right _ _ _ _ (le_refl _), Nat.sub_self]
    rfl
  rw [bitLen, if_neg (by omega), hget]
  dsimp only
  split_ifs with hz
  · have hnil : low = [] := by
      by_contra hne
      exact htop hne hz
    rw [hval, hz, hnil]
    rfl
  · have hne : top.toNat ≠ 0 := fun h => hz (UInt32.toNat_inj.mp h)
    rw [hval, size_add_mul (nat_lt low) hne, sub_leadingZeros hz, hlen, Nat.add_sub_cancel,
      Nat.mul_comm]

theorem isZero_iff (a : BigNum) : a.isZero = true ↔ a.toNat = 0 := by
  rw [isZero, List.all_eq_true, toNat]
  generalize a.limbs = ws
  induction ws with
  | nil => simp [nat, value]
  | cons w ws ih =>
    rw [List.forall_mem_cons, ih, nat_cons, beq_iff_eq, ← UInt32.toNat_inj, UInt32.toNat_zero]
    omega

/-! ## Comparison and difference -/

/-- The words up to the highest that is not zero, of the lowest `i`. -/
def effLen (limbs : List UInt32) : ℕ → ℕ
  | i + 2 => if limbs.getD (i + 1) 0 = 0 then effLen limbs (i + 1) else i + 2
  | i => i

/-- The comparison of the lowest `i` words, from the highest down. -/
def cmpFrom (as bs : List UInt32) : ℕ → Ordering
  | 0 => .eq
  | i + 1 =>
    if bs.getD i 0 < as.getD i 0 then .gt
    else if as.getD i 0 < bs.getD i 0 then .lt
    else cmpFrom as bs i

def bnCmp (a b : BigNum) : Ordering :=
  let aEff := effLen a.limbs a.limbs.length
  let bEff := effLen b.limbs b.limbs.length
  if aEff ≠ bEff then if bEff < aEff then .gt else .lt
  else cmpFrom a.limbs b.limbs aEff

theorem effLen_eq (a : BigNum) : effLen a.limbs a.limbs.length = a.limbs.length := by
  obtain ⟨low, top, hlimbs, hlen, -, htop⟩ := a.limbs_eq
  rw [hlen]
  cases hlow : low.length with
  | zero => rfl
  | succ i =>
    have hget : a.limbs.getD (i + 1) 0 = top := by
      rw [hlimbs, ← hlow, List.getD_append_right _ _ _ _ (le_refl _), Nat.sub_self]
      rfl
    have hne : low ≠ [] := by
      rintro rfl
      exact absurd hlow (by simp)
    rw [effLen, hget, if_neg (htop hne)]

theorem cmpFrom_eq {as bs : List UInt32} {i : ℕ} (ha : i ≤ as.length) (hb : i ≤ bs.length) :
    cmpFrom as bs i = compare (nat (as.take i)) (nat (bs.take i)) := by
  induction i with
  | zero => rfl
  | succ i ih =>
    have hlowA := nat_lt (as.take i)
    have hlowB := nat_lt (bs.take i)
    have hlenA : (as.take i).length = i := by rw [List.length_take]; omega
    have hlenB : (bs.take i).length = i := by rw [List.length_take]; omega
    rw [hlenA] at hlowA
    rw [hlenB] at hlowB
    rw [cmpFrom, ih (by omega) (by omega), nat_take_succ (by omega), nat_take_succ (by omega)]
    simp only [UInt32.lt_iff_toNat_lt, Nat.compare_eq_ite_lt]
    generalize 2 ^ (32 * i) = weight at hlowA hlowB ⊢
    generalize (as.getD i 0).toNat = x
    generalize (bs.getD i 0).toNat = y
    rcases Nat.lt_trichotomy x y with h | rfl | h
    · have hmul : weight * (x + 1) ≤ weight * y := Nat.mul_le_mul_left _ h
      rw [Nat.mul_succ] at hmul
      have hlt : nat (as.take i) + weight * x < nat (bs.take i) + weight * y := by omega
      rw [if_neg h.not_gt, if_pos h, if_pos hlt]
    · simp only [Nat.add_lt_add_iff_right, lt_irrefl, if_false]
    · have hmul : weight * (y + 1) ≤ weight * x := Nat.mul_le_mul_left _ h
      rw [Nat.mul_succ] at hmul
      have hgt : nat (bs.take i) + weight * y < nat (as.take i) + weight * x := by omega
      rw [if_pos h, if_neg hgt.not_gt, if_pos hgt]

theorem bnCmp_eq (a b : BigNum) : bnCmp a b = compare a.toNat b.toNat := by
  rw [bnCmp, effLen_eq, effLen_eq]
  split_ifs with hne hlt
  · have hgt : b.toNat < a.toNat := by
      by_contra hle
      have hlen := length_le_of_toNat_le (Nat.le_of_not_lt hle)
      omega
    exact (Nat.compare_eq_gt.mpr hgt).symm
  · have hlt' : a.toNat < b.toNat := by
      by_contra hle
      have hlen := length_le_of_toNat_le (Nat.le_of_not_lt hle)
      omega
    exact (Nat.compare_eq_lt.mpr hlt').symm
  · rw [not_not] at hne
    rw [cmpFrom_eq (le_refl _) hne.le, List.take_length, hne, List.take_length]
    rfl

/-- The loop of `bn_sub`; words that `b` does not have are zero. -/
def subFrom : List UInt32 → List UInt32 → Int64 → List UInt32
  | [], _, _ => []
  | a :: as, bs, borrow =>
    let diff := signed a - signed (bs.headD 0) - borrow
    if diff < 0 then (diff + 0x100000000).toUInt64.toUInt32 :: subFrom as bs.tail 1
    else diff.toUInt64.toUInt32 :: subFrom as bs.tail 0

theorem length_subFrom (as bs : List UInt32) (borrow : Int64) :
    (subFrom as bs borrow).length = as.length := by
  induction as generalizing bs borrow with
  | nil => rfl
  | cons a as ih =>
    rw [subFrom]
    split_ifs <;> exact congrArg (· + 1) (ih _ _)

/-- `a - b`, for `b` at most `a`. -/
def bnSub (a b : BigNum) : BigNum :=
  ofLimbs (subFrom a.limbs b.limbs 0)
    (by rw [Ne, ← List.length_eq_zero_iff, length_subFrom]; exact a.length_pos.ne')

theorem nat_subFrom {as bs : List UInt32} {borrow : Int64} (hlen : bs.length ≤ as.length)
    (hborrow : borrow.toInt = 0 ∨ borrow.toInt = 1) :
    ∃ c : ℕ, (nat (subFrom as bs borrow) : ℤ) + nat bs + borrow.toInt =
      nat as + 2 ^ (32 * as.length) * c := by
  induction as generalizing bs borrow with
  | nil =>
    obtain rfl := List.length_eq_zero_iff.mp (Nat.le_zero.mp hlen)
    rcases hborrow with h | h
    · exact ⟨0, by rw [h]; rfl⟩
    · exact ⟨1, by rw [h]; rfl⟩
  | cons a as ih =>
    have ha := a.toNat_lt
    have hb := (bs.headD 0).toNat_lt
    have hbs : (nat bs : ℤ) = (bs.headD 0).toNat + 2 ^ 32 * nat bs.tail := by
      cases bs with
      | nil => rfl
      | cons b bs => exact_mod_cast nat_cons b bs
    have htail : bs.tail.length ≤ as.length := by
      rw [List.length_tail]
      rw [List.length_cons] at hlen
      omega
    have hpow : (2 : ℤ) ^ (32 * (a :: as).length) = 2 ^ 32 * 2 ^ (32 * as.length) := by
      rw [List.length_cons, Nat.mul_succ, pow_add, mul_comm]
    have hdiff : (signed a - signed (bs.headD 0) - borrow).toInt =
        a.toNat - (bs.headD 0).toNat - borrow.toInt := by
      have hfirst : (signed a - signed (bs.headD 0)).toInt = a.toNat - (bs.headD 0).toNat := by
        rw [toInt_sub_of_bounds] <;> rw [toInt_signed, toInt_signed] <;> omega
      rw [toInt_sub_of_bounds] <;> rw [hfirst] <;> omega
    rw [subFrom, hpow]
    generalize signed a - signed (bs.headD 0) - borrow = diff at hdiff ⊢
    split_ifs with hneg
    · rw [Int64.lt_iff_toInt_lt, Int64.toInt_zero] at hneg
      have hsum := toInt_add_base hneg
      generalize diff + 0x100000000 = wrapped at hsum ⊢
      have hword := @toNat_truncate wrapped (by omega) (by omega)
      obtain ⟨c, hc⟩ := @ih bs.tail 1 htail (Or.inr Int64.toInt_one)
      rw [Int64.toInt_one] at hc
      refine ⟨c, ?_⟩
      rw [nat_cons, nat_cons]
      push_cast
      linarith
    · rw [Int64.lt_iff_toInt_lt, Int64.toInt_zero] at hneg
      have hword := @toNat_truncate diff (by omega) (by omega)
      obtain ⟨c, hc⟩ := @ih bs.tail 0 htail (Or.inl Int64.toInt_zero)
      rw [Int64.toInt_zero] at hc
      refine ⟨c, ?_⟩
      rw [nat_cons, nat_cons]
      push_cast
      linarith

theorem toNat_bnSub {a b : BigNum} (h : b.toNat ≤ a.toNat) :
    (bnSub a b).toNat = a.toNat - b.toNat := by
  obtain ⟨c, hc⟩ := @nat_subFrom a.limbs b.limbs 0 (length_le_of_toNat_le h) (Or.inl rfl)
  have hlt := nat_lt (subFrom a.limbs b.limbs 0)
  rw [length_subFrom] at hlt
  rw [bnSub, toNat_ofLimbs, toNat, toNat]
  rw [toNat, toNat] at h
  have hzero : (0 : Int64).toInt = 0 := rfl
  norm_cast at hc
  rcases Nat.eq_zero_or_pos c with rfl | hpos
  · omega
  · have hle := Nat.le_mul_of_pos_right (2 ^ (32 * a.limbs.length)) hpos
    omega

/-! ## Shifts -/

/-- The loop of `bn_shl`; the last carry is the word on top, which is zero otherwise. -/
def shlFrom (bitShift : ℕ) : List UInt32 → UInt32 → List UInt32
  | [], carry => [carry]
  | v :: vs, carry =>
    ((v <<< UInt32.ofNat bitShift) ||| carry) :: shlFrom bitShift vs (v >>> UInt32.ofNat (32 - bitShift))

def shlWords (limbs : List UInt32) (n : ℕ) : List UInt32 :=
  List.replicate (n / 32) 0 ++ if n % 32 = 0 then limbs ++ [0] else shlFrom (n % 32) limbs 0

theorem nat_shlFrom {s : ℕ} (hpos : 0 < s) (hs : s < 32) {ws : List UInt32} {carry : UInt32}
    (hcarry : carry.toNat < 2 ^ s) : nat (shlFrom s ws carry) = 2 ^ s * nat ws + carry.toNat := by
  induction ws generalizing carry with
  | nil =>
    have hnil : nat [] = 0 := rfl
    rw [shlFrom, nat_cons, hnil, Nat.mul_zero, Nat.mul_zero, Nat.zero_add, Nat.add_zero]
  | cons w ws ih =>
    have hw := w.toNat_lt
    have hamount (k : ℕ) (hk : k < 32) : (UInt32.ofNat k).toNat % 32 = k := by
      rw [UInt32.toNat_ofNat_of_lt' (lt_trans hk (by decide)), Nat.mod_eq_of_lt hk]
    have hsplit : 2 ^ 32 = 2 ^ s * 2 ^ (32 - s) := by rw [← pow_add]; congr 1; omega
    have hlow : ((w <<< UInt32.ofNat s) ||| carry).toNat =
        2 ^ s * (w.toNat % 2 ^ (32 - s)) + carry.toNat := by
      rw [UInt32.toNat_or, UInt32.toNat_shiftLeft, hamount s hs, Nat.shiftLeft_eq, Nat.mul_comm,
        hsplit, Nat.mul_mod_mul_left, Nat.two_pow_add_eq_or_of_lt hcarry]
    have hhigh : (w >>> UInt32.ofNat (32 - s)).toNat = w.toNat / 2 ^ (32 - s) := by
      rw [UInt32.toNat_shiftRight, hamount _ (by omega), Nat.shiftRight_eq_div_pow]
    have hnext : (w >>> UInt32.ofNat (32 - s)).toNat < 2 ^ s := by
      rw [hhigh, Nat.div_lt_iff_lt_mul (by positivity), ← hsplit]
      exact hw
    rw [shlFrom, nat_cons, nat_cons, ih hnext, hlow, hhigh, hsplit]
    have hdiv := Nat.div_add_mod w.toNat (2 ^ (32 - s))
    conv_rhs => rw [← hdiv]
    ring

theorem nat_shlWords (ws : List UInt32) (n : ℕ) : nat (shlWords ws n) = 2 ^ n * nat ws := by
  have hpow : 2 ^ n = 2 ^ (32 * (n / 32)) * 2 ^ (n % 32) := by
    rw [← pow_add, Nat.div_add_mod]
  rw [shlWords, nat_append, nat_replicate_zero, List.length_replicate, Nat.zero_add, hpow,
    Nat.mul_assoc]
  split_ifs with h
  · rw [nat_append, h, pow_zero, Nat.one_mul]
    rfl
  · rw [nat_shlFrom (Nat.pos_of_ne_zero h) (Nat.mod_lt _ (by norm_num)) (by positivity)]
    rfl

theorem shlWords_ne_nil (a : BigNum) (n : ℕ) : shlWords a.limbs n ≠ [] := by
  rw [shlWords, Ne, List.append_eq_nil_iff, not_and]
  intro _
  split_ifs
  · simp
  · obtain ⟨w, ws, hlimbs⟩ := List.exists_cons_of_ne_nil a.limbs_ne_nil
    rw [hlimbs]
    exact List.cons_ne_nil _ _

def bnShl (a : BigNum) (n : ℕ) : BigNum :=
  if n = 0 then a else ofLimbs (shlWords a.limbs n) (a.shlWords_ne_nil n)

theorem toNat_bnShl (a : BigNum) (n : ℕ) : (bnShl a n).toNat = 2 ^ n * a.toNat := by
  rw [bnShl]
  split_ifs with h
  · rw [h, pow_zero, Nat.one_mul]
  · rw [toNat_ofLimbs, nat_shlWords, toNat]

/-- The loop of `bn_shr1`, from the highest word; with the bit that falls out below. -/
def shrWords : List UInt32 → List UInt32 × UInt32
  | [] => ([], 0)
  | w :: ws =>
    let (rest, carry) := shrWords ws
    (((w >>> 1) ||| (carry <<< 31)) :: rest, w &&& 1)

theorem length_shrWords (ws : List UInt32) : (shrWords ws).1.length = ws.length := by
  induction ws with
  | nil => rfl
  | cons w ws ih => exact congrArg (· + 1) ih

theorem nat_shrWords (ws : List UInt32) :
    (shrWords ws).2.toNat ≤ 1 ∧ 2 * nat (shrWords ws).1 + (shrWords ws).2.toNat = nat ws := by
  induction ws with
  | nil => exact ⟨Nat.zero_le _, rfl⟩
  | cons w ws ih =>
    obtain ⟨hle, hsum⟩ := ih
    have hw := w.toNat_lt
    rw [shrWords]
    dsimp only
    generalize (shrWords ws).2 = carry at hle hsum ⊢
    have hbit : (w &&& 1).toNat = w.toNat % 2 := by
      exact Nat.and_one_is_mod _
    have hword : ((w >>> 1) ||| (carry <<< 31)).toNat = w.toNat / 2 + 2 ^ 31 * carry.toNat := by
      have hshift : (w >>> 1).toNat = w.toNat / 2 := by
        exact Nat.shiftRight_eq_div_pow _ 1
      have htop : (carry <<< 31).toNat = 2 ^ 31 * carry.toNat := by
        have hamount : (31 : UInt32).toNat % 32 = 31 := rfl
        rw [UInt32.toNat_shiftLeft, hamount, Nat.shiftLeft_eq, Nat.mul_comm]
        exact Nat.mod_eq_of_lt (by omega)
      rw [UInt32.toNat_or, hshift, htop, Nat.lor_comm, ← Nat.two_pow_add_eq_or_of_lt (by omega),
        Nat.add_comm]
    rw [nat_cons, nat_cons]
    omega

def bnShr1 (a : BigNum) : BigNum :=
  ofLimbs (shrWords a.limbs).1
    (by rw [Ne, ← List.length_eq_zero_iff, length_shrWords]; exact a.length_pos.ne')

theorem toNat_bnShr1 (a : BigNum) : (bnShr1 a).toNat = a.toNat / 2 := by
  obtain ⟨hle, hsum⟩ := nat_shrWords a.limbs
  rw [bnShr1, toNat_ofLimbs, toNat]
  omega

/-! ## Remainders -/

/-- `count` passes of the loop of `bn_mod`. -/
def modFrom : ℕ → BigNum → BigNum → BigNum
  | 0, r, _ => r
  | count + 1, r, shiftedM =>
    modFrom count (if bnCmp r shiftedM = .lt then r else bnSub r shiftedM) (bnShr1 shiftedM)

def bnMod (a m : BigNum) : BigNum :=
  if bnCmp a m = .lt then a
  else
    let mBits := m.bitLen
    let rBits := a.bitLen
    if mBits = 0 then zero
    else if rBits < mBits then a
    else
      let shift := rBits - mBits
      modFrom (shift + 1) a (bnShl m shift)

theorem bnCmp_eq_lt_iff {a b : BigNum} : bnCmp a b = .lt ↔ a.toNat < b.toNat := by
  rw [bnCmp_eq, Nat.compare_eq_lt]

/-- Before each pass the rest is below twice the shifted modulus. -/
theorem toNat_modFrom {m count : ℕ} {r shiftedM : BigNum} (hr : r.toNat < 2 ^ count * m)
    (hshifted : ∀ k, count = k + 1 → shiftedM.toNat = 2 ^ k * m) :
    (modFrom count r shiftedM).toNat = r.toNat % m := by
  induction count generalizing r shiftedM with
  | zero =>
    rw [pow_zero, Nat.one_mul] at hr
    exact (Nat.mod_eq_of_lt hr).symm
  | succ count ih =>
    have hm := hshifted count rfl
    have hhalf : ∀ k, count = k + 1 → (bnShr1 shiftedM).toNat = 2 ^ k * m := by
      rintro k rfl
      rw [toNat_bnShr1, hm, pow_succ', Nat.mul_assoc, Nat.mul_div_cancel_left _ (by norm_num)]
    rw [pow_succ', Nat.mul_assoc] at hr
    rw [modFrom]
    split_ifs with hlt
    · rw [bnCmp_eq_lt_iff, hm] at hlt
      exact ih hlt hhalf
    · rw [bnCmp_eq_lt_iff, not_lt] at hlt
      have hsub := toNat_bnSub hlt
      have hmod : r.toNat % m = (bnSub r shiftedM).toNat % m := by
        rw [hsub, hm, Nat.mul_comm, Nat.sub_mul_mod (by rw [Nat.mul_comm, ← hm]; exact hlt)]
      rw [hmod]
      apply ih _ hhalf
      omega

theorem toNat_bnMod {a m : BigNum} (hm : m.toNat ≠ 0) : (bnMod a m).toNat = a.toNat % m.toNat := by
  rw [bnMod]
  split_ifs with hlt
  · exact (Nat.mod_eq_of_lt (bnCmp_eq_lt_iff.mp hlt)).symm
  rw [bnCmp_eq_lt_iff, not_lt] at hlt
  have hsize := Nat.size_le_size hlt
  have hpos := Nat.size_pos.mpr (Nat.pos_of_ne_zero hm)
  rw [bitLen_eq, bitLen_eq, if_neg hpos.ne', if_neg (by omega)]
  apply toNat_modFrom
  · have ha := Nat.lt_size_self a.toNat
    obtain ⟨k, hk⟩ := Nat.exists_eq_succ_of_ne_zero hpos.ne'
    have hpow : 2 ^ k ≤ m.toNat := Nat.lt_size.mp (by omega)
    calc a.toNat < 2 ^ Nat.size a.toNat := ha
      _ = 2 ^ (Nat.size a.toNat - Nat.size m.toNat + 1) * 2 ^ k := by
        rw [← pow_add]
        congr 1
        omega
      _ ≤ _ := Nat.mul_le_mul_left _ hpow
  · intro k hk
    rw [toNat_bnShl, Nat.succ.inj hk]

/-! ## Products -/

/-- The inner loop of `bn_mulmod` at one word of `b`: the product so far and the carry. -/
def mulStep (a : UInt32) (i : ℕ) (s : List UInt64 × UInt64) (b : UInt32 × ℕ) :
    List UInt64 × UInt64 :=
  let p := a.toUInt64 * b.1.toUInt64 + s.1.getD (i + b.2) 0 + s.2
  (s.1.set (i + b.2) (p &&& 0xFFFFFFFF), p >>> 32)

def mulRow (bs : List UInt32) (prod : List UInt64) (a : UInt32 × ℕ) : List UInt64 :=
  let (prod, carry) := bs.zipIdx.foldl (mulStep a.1 a.2) (prod, 0)
  prod.set (a.2 + bs.length) (prod.getD (a.2 + bs.length) 0 + carry)

def schoolbook (as bs : List UInt32) : List UInt64 :=
  as.zipIdx.foldl (mulRow bs) (List.replicate (as.length + bs.length) 0)

/-- The number in 64-bit columns that stand 32 bits apart. -/
def colsNat (prod : List UInt64) : ℕ := value (2 ^ 32) (prod.map UInt64.toNat)

/-- Every column is a word. -/
def Narrow (prod : List UInt64) : Prop := ∀ k, (prod.getD k 0).toNat < 2 ^ 32

def ZeroFrom (k : ℕ) (prod : List UInt64) : Prop := ∀ j, k ≤ j → prod.getD j 0 = 0

theorem colsNat_set {prod : List UInt64} {k : ℕ} (x : UInt64) (hk : k < prod.length) :
    colsNat (prod.set k x) + (2 ^ 32) ^ k * (prod.getD k 0).toNat =
      colsNat prod + (2 ^ 32) ^ k * x.toNat := by
  have hk' : k < (prod.map UInt64.toNat).length := by rwa [List.length_map]
  have hset := value_set (2 ^ 32) x.toNat hk'
  rwa [← List.map_set, List.getElem_map, ← List.getD_eq_getElem prod 0 hk] at hset

theorem getD_set (prod : List UInt64) {k : ℕ} (x : UInt64) (hk : k < prod.length) (j : ℕ) :
    (prod.set k x).getD j 0 = if j = k then x else prod.getD j 0 := by
  rw [List.getD_eq_getElem?_getD, List.getElem?_set]
  split_ifs with h h' h'
  · rfl
  · exact absurd h.symm h'
  · exact absurd h'.symm h
  · rfl

theorem Narrow.set {prod : List UInt64} (h : Narrow prod) {k : ℕ} {x : UInt64}
    (hx : x.toNat < 2 ^ 32) (hk : k < prod.length) : Narrow (prod.set k x) := by
  intro j
  rw [getD_set prod x hk]
  split_ifs
  · exact hx
  · exact h j

theorem ZeroFrom.set {prod : List UInt64} {n : ℕ} (h : ZeroFrom n prod) {k : ℕ} (x : UInt64)
    (hk : k < prod.length) (hkn : k < n) : ZeroFrom n (prod.set k x) := by
  intro j hj
  rw [getD_set prod x hk, if_neg (by omega)]
  exact h j hj

/-- What the loops keep, with the columns from `n` on untouched. -/
structure Columns (len n : ℕ) (prod : List UInt64) : Prop where
  length_eq : prod.length = len
  narrow : Narrow prod
  zeroFrom : ZeroFrom n prod

theorem Columns.set {len n : ℕ} {prod : List UInt64} (h : Columns len n prod) {k : ℕ} {x : UInt64}
    (hx : x.toNat < 2 ^ 32) (hk : k < len) (hkn : k < n) : Columns len n (prod.set k x) := by
  have hlt : k < prod.length := by rwa [h.length_eq]
  exact ⟨by rw [List.length_set, h.length_eq], h.narrow.set hx hlt, h.zeroFrom.set x hlt hkn⟩

theorem toNat_mulAdd {a b : UInt32} {w c : UInt64} (hw : w.toNat < 2 ^ 32) (hc : c.toNat < 2 ^ 32) :
    (a.toUInt64 * b.toUInt64 + w + c).toNat = a.toNat * b.toNat + w.toNat + c.toNat := by
  have ha := a.toNat_lt
  have hb := b.toNat_lt
  have hmul : a.toNat * b.toNat ≤ (2 ^ 32 - 1) * (2 ^ 32 - 1) :=
    Nat.mul_le_mul (Nat.le_sub_one_of_lt ha) (Nat.le_sub_one_of_lt hb)
  rw [UInt64.toNat_add, UInt64.toNat_add, UInt64.toNat_mul, UInt32.toNat_toUInt64,
    UInt32.toNat_toUInt64]
  omega

theorem colsNat_mulSteps (a : UInt32) (i : ℕ) {bs : List UInt32} {j len n : ℕ}
    {prod : List UInt64} {carry : UInt64} (h : Columns len n prod) (hcarry : carry.toNat < 2 ^ 32)
    (hlen : i + j + bs.length ≤ len) (hn : i + j + bs.length ≤ n) :
    let s := (bs.zipIdx j).foldl (mulStep a i) (prod, carry)
    Columns len n s.1 ∧ s.2.toNat < 2 ^ 32 ∧
      colsNat s.1 + (2 ^ 32) ^ (i + j + bs.length) * s.2.toNat =
        colsNat prod + (2 ^ 32) ^ (i + j) * (carry.toNat + a.toNat * nat bs) := by
  induction bs generalizing j prod carry with
  | nil =>
    refine ⟨h, hcarry, ?_⟩
    rfl
  | cons b bs ih =>
    rw [List.length_cons] at hlen hn
    have hsum := @toNat_mulAdd a b (prod.getD (i + j) 0) carry (h.narrow _) hcarry
    rw [List.zipIdx_cons, List.foldl_cons, mulStep]
    generalize a.toUInt64 * b.toUInt64 + prod.getD (i + j) 0 + carry = p at hsum ⊢
    have hp := p.toNat_lt
    have hlow : (p &&& 0xFFFFFFFF).toNat = p.toNat % 2 ^ 32 := by
      exact Nat.and_two_pow_sub_one_eq_mod _ 32
    have hhigh : (p >>> 32).toNat = p.toNat / 2 ^ 32 := by
      exact Nat.shiftRight_eq_div_pow _ _
    have hset := colsNat_set (p &&& 0xFFFFFFFF) (show i + j < prod.length by rw [h.length_eq]; omega)
    have hstep := h.set (k := i + j) (x := p &&& 0xFFFFFFFF) (by rw [hlow]; omega) (by omega)
      (by omega)
    obtain ⟨hcols, hlt, hvalue⟩ := @ih (j + 1) _ (p >>> 32) hstep (by rw [hhigh]; omega) (by omega)
      (by omega)
    refine ⟨hcols, hlt, ?_⟩
    have hweight : (2 ^ 32) ^ (i + j + (b :: bs).length) = (2 ^ 32) ^ (i + (j + 1) + bs.length) := by
      congr 1
      rw [List.length_cons]
      omega
    have hnext : (2 ^ 32) ^ (i + (j + 1)) = (2 ^ 32) ^ (i + j) * 2 ^ 32 := pow_succ _ _
    rw [hweight, hvalue, hnext, hhigh, nat_cons]
    rw [hlow] at hset
    have hdiv := congrArg ((2 ^ 32) ^ (i + j) * ·) (Nat.div_add_mod p.toNat (2 ^ 32))
    rw [hsum] at hdiv
    rw [hsum] at hset
    rw [hsum]
    linarith

theorem colsNat_mulRow {bs : List UInt32} {prod : List UInt64} {len i : ℕ} (a : UInt32)
    (h : Columns len (i + bs.length) prod) (hlen : i + bs.length < len) :
    Columns len (i + 1 + bs.length) (mulRow bs prod (a, i)) ∧
      colsNat (mulRow bs prod (a, i)) = colsNat prod + (2 ^ 32) ^ i * (a.toNat * nat bs) := by
  obtain ⟨hcols, hlt, hvalue⟩ := @colsNat_mulSteps a i bs 0 len _ prod 0 h (by decide)
    (by omega) (by omega)
  rw [mulRow]
  dsimp only
  generalize bs.zipIdx.foldl (mulStep a i) (prod, 0) = s at hcols hlt hvalue ⊢
  obtain ⟨prod', carry⟩ := s
  have hzero := hcols.zeroFrom (i + bs.length) (le_refl _)
  have hset := colsNat_set carry (show i + bs.length < prod'.length by rw [hcols.length_eq]; omega)
  rw [hzero, UInt64.zero_add]
  constructor
  · have hwiden : Columns len (i + 1 + bs.length) prod' :=
      ⟨hcols.length_eq, hcols.narrow, fun j hj => hcols.zeroFrom j (by omega)⟩
    exact hwiden.set hlt (by omega) (by omega)
  · rw [hzero] at hset
    simp only [UInt64.toNat_zero, Nat.mul_zero, Nat.add_zero, Nat.zero_add] at hset hvalue
    rw [hset, hvalue]

theorem colsNat_mulRows {as bs : List UInt32} {prod : List UInt64} {len i : ℕ}
    (h : Columns len (i + bs.length) prod) (hlen : i + as.length + bs.length ≤ len) :
    Columns len (i + as.length + bs.length) ((as.zipIdx i).foldl (mulRow bs) prod) ∧
      colsNat ((as.zipIdx i).foldl (mulRow bs) prod) =
        colsNat prod + (2 ^ 32) ^ i * (nat as * nat bs) := by
  induction as generalizing i prod with
  | nil =>
    refine ⟨h, ?_⟩
    simp [nat, value]
  | cons a as ih =>
    rw [List.length_cons] at hlen
    obtain ⟨hrow, hvalue⟩ := colsNat_mulRow a h (by omega)
    obtain ⟨hcols, hrest⟩ := @ih _ (i + 1) hrow (by omega)
    rw [List.zipIdx_cons, List.foldl_cons]
    refine ⟨?_, ?_⟩
    · rw [List.length_cons, ← Nat.add_assoc, Nat.add_right_comm i]
      exact hcols
    · rw [hrest, hvalue, nat_cons]
      ring

theorem nat_narrow {prod : List UInt64} (h : Narrow prod) :
    nat (prod.map UInt64.toUInt32) = colsNat prod := by
  rw [nat, List.map_map]
  congr 1
  apply List.map_congr_left
  intro x hx
  obtain ⟨k, hk, rfl⟩ := List.getElem_of_mem hx
  have hlt := h k
  rw [List.getD_eq_getElem _ _ hk] at hlt
  exact Nat.mod_eq_of_lt hlt

theorem schoolbook_spec (as bs : List UInt32) :
    (schoolbook as bs).length = as.length + bs.length ∧
      nat ((schoolbook as bs).map UInt64.toUInt32) = nat as * nat bs := by
  have hzero (k j : ℕ) : (List.replicate k (0 : UInt64)).getD j 0 = 0 := by
    rw [List.getD_eq_getElem?_getD, List.getElem?_replicate]
    split_ifs <;> rfl
  have hcols : Columns (as.length + bs.length) (0 + bs.length)
      (List.replicate (as.length + bs.length) 0) := by
    refine ⟨List.length_replicate, fun k => ?_, fun k _ => hzero _ k⟩
    rw [hzero]
    decide
  obtain ⟨hfinal, hvalue⟩ := @colsNat_mulRows as bs _ _ 0 hcols (by omega)
  refine ⟨hfinal.length_eq, ?_⟩
  have hstart : colsNat (List.replicate (as.length + bs.length) 0) = 0 := by
    generalize as.length + bs.length = k
    induction k with
    | zero => rfl
    | succ k ih =>
      have hcons : colsNat (List.replicate (k + 1) 0) = 0 + 2 ^ 32 * colsNat (List.replicate k 0) :=
        rfl
      rw [hcons, ih, Nat.mul_zero]
  rw [schoolbook, nat_narrow hfinal.narrow, hvalue, hstart, pow_zero, Nat.one_mul, Nat.zero_add]

def bnMulmod (a b m : BigNum) : BigNum :=
  bnMod (ofLimbs ((schoolbook a.limbs b.limbs).map UInt64.toUInt32) (by
    have hpos := a.length_pos
    rw [Ne, ← List.length_eq_zero_iff, List.length_map, (schoolbook_spec _ _).1]
    omega)) m

theorem toNat_bnMulmod {a b m : BigNum} (hm : m.toNat ≠ 0) :
    (bnMulmod a b m).toNat = a.toNat * b.toNat % m.toNat := by
  rw [bnMulmod, toNat_bnMod hm, toNat_ofLimbs, (schoolbook_spec _ _).2]
  rfl

/-! ## Powers -/

def bitAt (limbs : List UInt32) (i : ℕ) : Bool :=
  decide (i / 32 < limbs.length) && ((limbs.getD (i / 32) 0 >>> UInt32.ofNat (i % 32)) &&& 1) == 1

/-- One pass of the loop of `mod_exp`: the result and the square. -/
def expStep (exp modulus : BigNum) (s : BigNum × BigNum) (i : ℕ) : BigNum × BigNum :=
  (if bitAt exp.limbs i then bnMulmod s.1 s.2 modulus else s.1, bnMulmod s.2 s.2 modulus)

def modExp (base exp modulus : BigNum) : BigNum :=
  if modulus.isZero then zero
  else
    let expBits := exp.bitLen
    if expBits = 0 then fromBeBytes [1]
    else
      ((List.range expBits).foldl (expStep exp modulus)
        (fromBeBytes [1], bnMod base modulus)).1

theorem bitAt_eq (a : BigNum) (i : ℕ) : bitAt a.limbs i = a.toNat.testBit i := by
  rw [toNat, testBit_nat, bitAt]
  have hbit (w : UInt32) :
      (((w >>> UInt32.ofNat (i % 32)) &&& 1) == 1) = w.toNat.testBit (i % 32) := by
    have hamount : (UInt32.ofNat (i % 32)).toNat % 32 = i % 32 := by
      rw [UInt32.toNat_ofNat_of_lt' (lt_trans (Nat.mod_lt _ (by norm_num)) (by decide)),
        Nat.mod_mod]
    rw [Bool.eq_iff_iff, beq_iff_eq, ← UInt32.toNat_inj, UInt32.toNat_and, UInt32.toNat_shiftRight,
      hamount, UInt32.toNat_one, Nat.and_one_is_mod, Nat.testBit_eq_decide_div_mod_eq,
      Nat.shiftRight_eq_div_pow, decide_eq_true_iff]
  by_cases h : i / 32 < a.limbs.length
  · rw [decide_eq_true h, Bool.true_and, hbit]
  · rw [decide_eq_false h, Bool.false_and, List.getD_eq_default _ _ (Nat.le_of_not_lt h),
      UInt32.toNat_zero, Nat.zero_testBit]

/-- After `n` passes the result is the power to the lowest `n` bits of the exponent. -/
theorem toNat_expSteps {base exp modulus : BigNum} (hm : 2 ≤ modulus.toNat) (n : ℕ) :
    let s := (List.range n).foldl (expStep exp modulus) (fromBeBytes [1], bnMod base modulus)
    s.1.toNat = base.toNat ^ (exp.toNat % 2 ^ n) % modulus.toNat ∧
      s.2.toNat = base.toNat ^ 2 ^ n % modulus.toNat := by
  have hne : modulus.toNat ≠ 0 := by omega
  induction n with
  | zero =>
    refine ⟨?_, ?_⟩
    · rw [pow_zero, Nat.mod_one, pow_zero, Nat.mod_eq_of_lt hm]
      rfl
    · show (bnMod base modulus).toNat = _
      rw [toNat_bnMod hne, pow_zero, pow_one]
  | succ n ih =>
    obtain ⟨hresult, hsquare⟩ := ih
    rw [List.range_succ, List.foldl_append, List.foldl_cons, List.foldl_nil]
    rw [expStep]
    refine ⟨?_, ?_⟩
    · rw [Nat.mod_pow_succ, ← Nat.toNat_testBit, bitAt_eq]
      cases exp.toNat.testBit n with
      | false => simpa using hresult
      | true =>
        simp only [if_true, Bool.toNat_true, Nat.mul_one]
        rw [toNat_bnMulmod hne, hresult, hsquare, ← Nat.mul_mod, ← pow_add]
    · rw [toNat_bnMulmod hne, hsquare, ← Nat.mul_mod, ← pow_add, pow_succ, Nat.mul_two]

theorem toNat_modExp {modulus : BigNum} (base exp : BigNum) (hm : 2 ≤ modulus.toNat) :
    (modExp base exp modulus).toNat = base.toNat ^ exp.toNat % modulus.toNat := by
  have hne : ¬modulus.isZero = true := by
    rw [isZero_iff]
    omega
  have hexp : exp.toNat % 2 ^ exp.bitLen = exp.toNat := by
    rw [bitLen_eq]
    exact Nat.mod_eq_of_lt (Nat.lt_size_self _)
  obtain ⟨hpow, -⟩ := @toNat_expSteps base exp modulus hm exp.bitLen
  rw [hexp] at hpow
  rw [modExp]
  dsimp only
  split_ifs with hbits
  · rw [hbits] at hpow
    exact hpow
  · exact hpow

/-- Modular exponentiation of numbers read from bytes. -/
theorem modExp_spec (base exp modulus : List UInt8) (hm : 2 ≤ beValue modulus) :
    (modExp (fromBeBytes base) (fromBeBytes exp) (fromBeBytes modulus)).toNat =
      beValue base ^ beValue exp % beValue modulus := by
  rw [toNat_modExp _ _ (by rwa [toNat_fromBeBytes])]
  simp only [toNat_fromBeBytes]

/-- `7 ^ 256` modulo `0x10001`, with a byte of zero in front of the modulus. -/
theorem modExp_spec_small :
    2 ≤ beValue [0, 1, 0, 1] ∧
      (modExp (fromBeBytes [7]) (fromBeBytes [1, 0]) (fromBeBytes [0, 1, 0, 1])).toNat =
        7 ^ 256 % 65537 := by
  rw [modExp_spec [7] [1, 0] [0, 1, 0, 1] (by decide)]
  decide

end BigNum

end Aeterna.Net.Tls
