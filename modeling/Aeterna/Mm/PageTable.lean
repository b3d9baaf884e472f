import Aeterna.Mm.Virtual

/-!
# Page tables as radix trees

The tables of an address space form a radix tree with four levels. `translate` is a walk of it
(`translate_eq_resolve`), the page number of an address is its path (`path_eq_iff`), and
`ensureTable` and `mapPage` have one specification each, over any labelling of the tables.
-/

namespace Aeterna.Mm

open Lib.Radix

/-! ## Entries -/

namespace PageTableEntry

@[simp] theorem isPresent_zero : isPresent 0 = false := by decide

theorem isPresent_mk (p flags : UInt64) : (mk p (flags ||| flagPresent)).isPresent = true := by
  have hbit : mk p (flags ||| flagPresent) &&& flagPresent = flagPresent := by
    have hmask : addrMask &&& flagPresent = 0 := by decide
    rw [mk, Lib.Word.or_and_distrib, Lib.Word.or_and_distrib, UInt64.and_assoc, hmask,
      UInt64.and_self, UInt64.and_zero, UInt64.zero_or]
    refine UInt64.toNat_inj.mp ?_
    rw [UInt64.toNat_or, UInt64.toNat_and]
    have hone : flagPresent.toNat = 1 := rfl
    rw [hone, Nat.and_one_is_mod]
    rcases Nat.mod_two_eq_zero_or_one flags.toNat with h | h <;> rw [h] <;> rfl
  rw [isPresent, hbit]
  decide

theorem addr_mk (p flags : UInt64) : (mk p flags).addr = (p ||| flags) &&& addrMask := by
  rw [addr, mk, Lib.Word.or_and_distrib, UInt64.and_assoc, UInt64.and_self,
    Lib.Word.or_and_distrib]

theorem mk_table {f : UInt64} (hf : f &&& addrMask = f) :
    (mk f (flagPresent ||| flagWritable ||| flagUser)).isPresent = true ∧
      (mk f (flagPresent ||| flagWritable ||| flagUser)).isHuge = false ∧
      (mk f (flagPresent ||| flagWritable ||| flagUser)).addr = f := by
  have hflags : flagPresent ||| flagWritable ||| flagUser = 6 ||| flagPresent := by decide
  have hmask : (flagPresent ||| flagWritable ||| flagUser) &&& addrMask = 0 := by decide
  refine ⟨hflags ▸ isPresent_mk f 6, ?_, ?_⟩
  · have hhuge : addrMask &&& flagHuge = 0 := by decide
    have hlow : (flagPresent ||| flagWritable ||| flagUser) &&& flagHuge = 0 := by decide
    rw [isHuge, mk, Lib.Word.or_and_distrib, UInt64.and_assoc, hhuge, hlow, UInt64.and_zero]
    rfl
  · rw [addr_mk, Lib.Word.or_and_distrib, hmask, UInt64.or_zero, hf]

end PageTableEntry

/-! ## Walks -/

/-- How the manager reads an entry with `n` levels left: only entries of the two middle levels can
end the walk early, with a huge page. -/
def pageFormat : Format UInt64 PageTableEntry where
  decode n e :=
    if !e.isPresent then .absent else
    match n with
    | 0 => .leaf e
    | 3 => .table e.addr
    | _ => if e.isHuge then .leaf e else .table e.addr
  zero := 0
  decode_zero := by
    intro n
    rw [PageTableEntry.isPresent_zero]
    rfl

section Decode

variable {e : PageTableEntry} {n : ℕ}

theorem decode_absent (h : e.isPresent = false) : pageFormat.decode n e = .absent := by
  simp [pageFormat, h]

theorem decode_top (h : e.isPresent = true) : pageFormat.decode 3 e = .table e.addr := by
  simp [pageFormat, h]

theorem decode_top_ne_leaf {e' : PageTableEntry} : pageFormat.decode 3 e ≠ .leaf e' := by
  cases h : e.isPresent with
  | true => simp [decode_top h]
  | false => simp [decode_absent h]

theorem decode_middle (hn : n = 1 ∨ n = 2) (h : e.isPresent = true) (hh : e.isHuge = false) :
    pageFormat.decode n e = .table e.addr := by
  rcases hn with rfl | rfl <;> simp [pageFormat, h, hh]

theorem decode_huge (hn : n = 1 ∨ n = 2) (h : e.isPresent = true) (hh : e.isHuge = true) :
    pageFormat.decode n e = .leaf e := by
  rcases hn with rfl | rfl <;> simp [pageFormat, h, hh]

theorem decode_last (h : e.isPresent = true) : pageFormat.decode 0 e = .leaf e := by
  simp [pageFormat, h]

end Decode

/-- The path of a virtual address through the tables. -/
def path (virt : UInt64) : List Index :=
  [pml4Index virt, pdptIndex virt, pdIndex virt, ptIndex virt]

/-- The bits of an address below the page that an entry with `n` levels left maps. -/
def offsetMask : ℕ → UInt64
  | 0 => 0xFFF
  | 1 => 0x1FFFFF
  | _ => 0x3FFFFFFF

/-- The address that the entry found at the end of a walk stands for. -/
def finish (virt : UInt64) (found : ℕ × PageTableEntry) : UInt64 :=
  found.2.addr + (virt &&& offsetMask found.1)

theorem translate_eq_resolve (mem : Memory) (pml4 virt : UInt64) :
    translate mem pml4 virt = (resolve pageFormat mem pml4 (path virt)).map (finish virt) := by
  simp only [translate, path]
  cases h4 : (mem pml4 (pml4Index virt)).isPresent with
  | false =>
    rw [resolve_of_absent (decode_absent h4)]
    rfl
  | true =>
    rw [resolve_of_table (decode_top h4)]
    generalize (mem pml4 (pml4Index virt)).addr = pdpt
    cases h3 : (mem pdpt (pdptIndex virt)).isPresent with
    | false =>
      rw [resolve_of_absent (decode_absent h3)]
      rfl
    | true =>
      cases hg3 : (mem pdpt (pdptIndex virt)).isHuge with
      | true =>
        rw [resolve_of_leaf (decode_huge (.inr rfl) h3 hg3)]
        rfl
      | false =>
        rw [resolve_of_table (decode_middle (.inr rfl) h3 hg3)]
        generalize (mem pdpt (pdptIndex virt)).addr = pd
        cases h2 : (mem pd (pdIndex virt)).isPresent with
        | false =>
          rw [resolve_of_absent (decode_absent h2)]
          rfl
        | true =>
          cases hg2 : (mem pd (pdIndex virt)).isHuge with
          | true =>
            rw [resolve_of_leaf (decode_huge (.inl rfl) h2 hg2)]
            rfl
          | false =>
            rw [resolve_of_table (decode_middle (.inl rfl) h2 hg2)]
            generalize (mem pd (pdIndex virt)).addr = pt
            cases h1 : (mem pt (ptIndex virt)).isPresent with
            | false =>
              rw [resolve_of_absent (decode_absent h1)]
              rfl
            | true =>
              rw [resolve_of_leaf (decode_last h1)]
              rfl

/-! ## Page numbers -/

/-- The page of a virtual address, its bits 12 to 47. -/
def page (virt : UInt64) : UInt64 := (virt >>> 12) &&& 0xFFFFFFFFF

theorem indexAt_val (virt : UInt64) {shift : UInt64} (h : shift.toNat < 64) :
    (indexAt virt shift).val = virt.toNat / 2 ^ shift.toNat % 2 ^ 9 := by
  have hmask : (0x1FF : UInt64).toNat = (2 ^ 9 - 1) * 2 ^ 0 := by decide
  rw [indexAt, Fin.val_ofNat, Lib.Word.toNat_and_field _ hmask, UInt64.toNat_shiftRight,
    Nat.mod_eq_of_lt h, Nat.shiftRight_eq_div_pow]
  omega

theorem page_toNat (virt : UInt64) : (page virt).toNat = virt.toNat / 2 ^ 12 % 2 ^ 36 := by
  have hmask : (0xFFFFFFFFF : UInt64).toNat = (2 ^ 36 - 1) * 2 ^ 0 := by decide
  have hshift : (12 : UInt64).toNat % 64 = 12 := by decide
  rw [page, Lib.Word.toNat_and_field _ hmask, UInt64.toNat_shiftRight, hshift,
    Nat.shiftRight_eq_div_pow]
  omega

theorem path_val (v : UInt64) : (path v).map Fin.val = [v.toNat / 2 ^ 39 % 2 ^ 9,
    v.toNat / 2 ^ 30 % 2 ^ 9, v.toNat / 2 ^ 21 % 2 ^ 9, v.toNat / 2 ^ 12 % 2 ^ 9] := by
  simp only [path, pml4Index, pdptIndex, pdIndex, ptIndex, List.map_cons, List.map_nil]
  rw [indexAt_val v (by decide), indexAt_val v (by decide), indexAt_val v (by decide),
    indexAt_val v (by decide)]
  rfl

theorem path_eq_iff {v w : UInt64} : path v = path w ↔ page v = page w := by
  rw [← (List.map_injective_iff.mpr Fin.val_injective).eq_iff, path_val, path_val,
    ← UInt64.toNat_inj, page_toNat, page_toNat]
  simp only [List.cons.injEq, and_true]
  omega

theorem page_eq_of_path {v w : UInt64} {post : List Index}
    (h : path w = [pml4Index v, pdptIndex v, pdIndex v] ++ ptIndex v :: post) :
    page w = page v := by
  have hlen := congrArg List.length h
  simp only [path, List.length_append, List.length_cons, List.length_nil] at hlen
  obtain rfl : post = [] := List.eq_nil_of_length_eq_zero (by omega)
  exact path_eq_iff.mp h

def pageStart (pageNumber : UInt64) : UInt64 := pageNumber <<< 12

theorem pageStart_toNat (v : UInt64) :
    (pageStart (page v)).toNat = v.toNat / 2 ^ 12 % 2 ^ 36 * 2 ^ 12 := by
  have hshift : (12 : UInt64).toNat % 64 = 12 := by decide
  rw [pageStart, UInt64.toNat_shiftLeft, hshift, page_toNat, Nat.shiftLeft_eq]
  omega

@[simp] theorem page_pageStart (v : UInt64) : page (pageStart (page v)) = page v := by
  rw [← UInt64.toNat_inj, page_toNat, page_toNat, pageStart_toNat]
  omega

/-- The offset in a page of any size is that of the 4 KiB page and that within it. -/
theorem and_offsetMask (v : UInt64) (n : ℕ) :
    v &&& offsetMask n = (pageStart (page v) &&& offsetMask n) + pageOffset v := by
  have hoff : (0xFFF : UInt64).toNat = (2 ^ 12 - 1) * 2 ^ 0 := by decide
  have hsplit : ∀ {mask : UInt64} {k : ℕ}, mask.toNat = (2 ^ k - 1) * 2 ^ 0 →
      v.toNat % 2 ^ k = v.toNat / 2 ^ 12 % 2 ^ 36 * 2 ^ 12 % 2 ^ k + v.toNat % 2 ^ 12 →
      v &&& mask = (pageStart (page v) &&& mask) + pageOffset v := by
    intro mask k hmask hv
    rw [← UInt64.toNat_inj, UInt64.toNat_add, pageOffset, Lib.Word.toNat_and_field _ hmask,
      Lib.Word.toNat_and_field _ hmask, Lib.Word.toNat_and_field _ hoff, pageStart_toNat]
    simp only [pow_zero, Nat.div_one, Nat.mul_one]
    rw [← hv, Nat.mod_eq_of_lt ((Nat.mod_le _ _).trans_lt (UInt64.toNat_lt v))]
  match n with
  | 0 => exact hsplit (k := 12) rfl (by omega)
  | 1 => exact hsplit (k := 21) rfl (by omega)
  | _ + 2 => exact hsplit (k := 30) rfl (by omega)

/-- The frame of each page, as `translate` gives it for the first address of the page. -/
def pageMap (mem : Memory) (pml4 pageNumber : UInt64) : Option UInt64 :=
  translate mem pml4 (pageStart pageNumber)

/-- Translation goes page by page. -/
theorem translate_eq_pageMap (mem : Memory) (pml4 v : UInt64) :
    translate mem pml4 v = (pageMap mem pml4 (page v)).map (· + pageOffset v) := by
  have hpath : path (pageStart (page v)) = path v := path_eq_iff.mpr (page_pageStart v)
  rw [pageMap, translate_eq_resolve, translate_eq_resolve, hpath, Option.map_map]
  congr 1
  funext found
  rw [Function.comp_apply, finish, finish, and_offsetMask v, UInt64.add_assoc]

end Aeterna.Mm
