import Aeterna.Mm.AddressSpace

/-!
# Ranges of pages

`map_range` maps one page after the other and stops at the first that `map_page` refuses: the pages
before it stay mapped (`mapRange_outcome`).

`count_user_pages` adds up the pages of the lower half, with 512 for an entry that maps 2 MiB and
`512 * 512` for one that maps 1 GiB. It counts the paths on which a walk finds a page
(`countUserPages_eq`).
-/

namespace Aeterna.Mm

open Lib.Radix

/-! ## Mapping a range -/

section Mapping

variable {σ : Type} [FrameSource σ] {s : Vmm σ} {r : UInt64}

/-- Page `i` of the range that begins at `start`. -/
def pageAt (start : UInt64) (i : ℕ) : UInt64 := start + UInt64.ofNat i * 4096

/-- The loop of `map_range` over the numbers of the pages. -/
def Vmm.mapPages (s : Vmm σ) (pml4 virtStart physStart flags : UInt64) : List ℕ → Bool × Vmm σ
  | [] => (true, s)
  | i :: is =>
    match s.mapPage pml4 (pageAt virtStart i) (pageAt physStart i) flags with
    | (false, s) => (false, s)
    | (true, s) => s.mapPages pml4 virtStart physStart flags is

def Vmm.mapRange (s : Vmm σ) (pml4 virtStart physStart pageCount flags : UInt64) : Bool × Vmm σ :=
  s.mapPages pml4 virtStart physStart flags (List.range pageCount.toNat)

/-- The tables of the lower half of `r` belong to it alone, and no table in use is free. -/
def WellFormed (s : Vmm σ) (r : UInt64) : Prop :=
  ∃ Tag, Labelled owners Tag s ∧ Tag r (.user r [])

theorem SpacesInv.wellFormed {Tag : UInt64 → Owner → Prop} {t : Spaces σ} (h : SpacesInv Tag t)
    (hr : r ∈ t.roots) : WellFormed t.vmm r := ⟨Tag, h.labelled, h.roots r hr⟩

/-- `map_page` changes the translation of one page, if it answers true. -/
theorem mapPage_translate (h : WellFormed s r) {virt flags : UInt64} (hv : LowerHalf virt)
    (hflags : flags &&& addrMask = 0) (phys : UInt64) :
    WellFormed (s.mapPage r virt phys flags).2 r ∧
      ∀ w, translate (s.mapPage r virt phys flags).2.mem r w =
        if (s.mapPage r virt phys flags).1 = true ∧ page w = page virt then
          some ((phys &&& addrMask) + pageOffset w)
        else translate s.mem r w := by
  obtain ⟨Tag, hlabelled, hr⟩ := h
  obtain ⟨Tag', s₁, hg, -, hout⟩ := mapPage_spec hlabelled hr (pathLabels_user r hv) phys flags
  rcases hout with he | ⟨pt, hpt, hreach, he⟩ <;> rw [he]
  · refine ⟨⟨Tag', hg.labelled, hg.mono hr⟩, fun w => ?_⟩
    rw [if_neg (fun hc => Bool.false_ne_true hc.1), translate_eq_resolve, translate_eq_resolve,
      hg.walks hr (tracks_user r w)]
  · refine ⟨⟨Tag', labelled_setLeaf hg.labelled hpt trivial rfl _ _, hg.mono hr⟩, fun w => ?_⟩
    rw [translate_eq_resolve, translate_eq_resolve]
    by_cases hw : page w = page virt
    · have haddr : (PageTableEntry.mk phys (flags ||| flagPresent)).addr = phys &&& addrMask := by
        have hpresent : flagPresent &&& addrMask = 0 := by decide
        rw [PageTableEntry.addr_mk, Lib.Word.or_and_distrib, Lib.Word.or_and_distrib, hflags,
          hpresent, UInt64.or_zero, UInt64.or_zero]
      have hleaf := resolve_setLeaf hreach (.mk phys (flags ||| flagPresent))
      rw [PageTableEntry.isPresent_mk, if_pos rfl] at hleaf
      rw [if_pos ⟨rfl, hw⟩, path_eq_iff.mpr hw]
      refine (congrArg _ hleaf).trans ?_
      rw [Option.map_some, finish, haddr]
      rfl
    · rw [if_neg (fun hc => hw hc.2),
        walks_setLeaf hg.labelled hpt (hg.mono hr) (fun hc => hw hc.2), hg.walks hr (tracks_user r w)]

/-- After the loop a page has the frame of one of the pages mapped, or what it had before. -/
theorem mapPages_outcome {virt flags : UInt64} (phys : UInt64) (hflags : flags &&& addrMask = 0)
    {is : List ℕ} (h : WellFormed s r) (hv : ∀ i ∈ is, LowerHalf (pageAt virt i)) :
    ∃ n ≤ is.length, ((s.mapPages r virt phys flags is).1 = true ↔ n = is.length) ∧
      ∀ w, (∃ i ∈ is.take n, page w = page (pageAt virt i) ∧
          translate (s.mapPages r virt phys flags is).2.mem r w =
            some ((pageAt phys i &&& addrMask) + pageOffset w)) ∨
        (∀ i ∈ is.take n, page w ≠ page (pageAt virt i)) ∧
          translate (s.mapPages r virt phys flags is).2.mem r w = translate s.mem r w := by
  induction is generalizing s with
  | nil => exact ⟨0, le_rfl, by simp [Vmm.mapPages], fun w => .inr ⟨by simp, rfl⟩⟩
  | cons i is ih =>
    obtain ⟨hwf, htranslate⟩ := mapPage_translate h (hv i List.mem_cons_self) hflags (pageAt phys i)
    rw [Vmm.mapPages]
    generalize s.mapPage r (pageAt virt i) (pageAt phys i) flags = out at hwf htranslate ⊢
    obtain ⟨_ | _, s₁⟩ := out
    · refine ⟨0, Nat.zero_le _, by simp, fun w => .inr ⟨by simp, ?_⟩⟩
      exact (htranslate w).trans (if_neg fun hc => Bool.false_ne_true hc.1)
    · obtain ⟨n, hn, hok, hwalks⟩ := ih hwf fun j hj => hv j (List.mem_cons_of_mem i hj)
      refine ⟨n + 1, Nat.succ_le_succ hn, by simpa using hok, fun w => ?_⟩
      rw [List.take_succ_cons]
      rcases hwalks w with ⟨j, hj, hw, hres⟩ | ⟨hno, hres⟩
      · exact .inl ⟨j, List.mem_cons_of_mem i hj, hw, hres⟩
      · rw [htranslate w] at hres
        by_cases hw : page w = page (pageAt virt i)
        · exact .inl ⟨i, List.mem_cons_self, hw, hres.trans (if_pos ⟨rfl, hw⟩)⟩
        · refine .inr ⟨List.forall_mem_cons.mpr ⟨hw, hno⟩, ?_⟩
          exact hres.trans (if_neg fun hc => hw hc.2)

/-- The first `n` pages of the range are mapped, and all else is as it was. -/
structure MapsFirst (s s' : Vmm σ) (r virt phys : UInt64) (n : ℕ) : Prop where
  mapped : ∀ i < n, ∀ w, page w = page (pageAt virt i) →
    translate s'.mem r w = some ((pageAt phys i &&& addrMask) + pageOffset w)
  others : ∀ w, (∀ i < n, page w ≠ page (pageAt virt i)) →
    translate s'.mem r w = translate s.mem r w

theorem pageAt_toNat {virt : UInt64} {i : ℕ} (h : virt.toNat + i * 4096 < 2 ^ 47) :
    (pageAt virt i).toNat = virt.toNat + i * 4096 := by
  have hi : (UInt64.ofNat i).toNat = i := UInt64.toNat_ofNat_of_lt (show _ < 2 ^ 64 by omega)
  have hsize : (4096 : UInt64).toNat = 4096 := rfl
  rw [pageAt, UInt64.toNat_add, UInt64.toNat_mul, hi, hsize]
  omega

end Mapping

/-- Thirteen address spaces: three frames are left. -/
def thirteenSpaces : Spaces Allocator :=
  Lib.run Spaces.step (Spaces.start emptyKernel) (List.replicate 13 .create)

theorem wellFormed_thirteenSpaces : WellFormed thirteenSpaces.vmm 0x100000 := by
  have hlower : ∀ a ∈ List.replicate 13 SpaceOp.create, a.Lower := by decide
  have halways := Lib.always_of_eachStep (P := fun s : Spaces Allocator => ∃ Tag, SpacesInv Tag s)
    (G := fun _ => SpaceOp.Lower) ⟨_, spacesInv_start bootTables_emptyKernel⟩
    (fun s a h ha => spacesInv_step h ha) (Lib.eachStep_of_forall_mem hlower)
  obtain ⟨Tag, hinv⟩ := halways.last
  exact hinv.wellFormed (by decide +kernel)

/-- The loop over the entries of a page table. -/
def countPages (mem : Memory) (pt count : UInt64) : UInt64 :=
  (List.finRange 512).foldl (fun count i => if (mem pt i).isPresent then count + 1 else count) count

/-- The loop over the entries of a table whose huge entries map `span` pages. -/
def countTables (mem : Memory) (span : UInt64) (below : UInt64 → UInt64 → UInt64)
    (table count : UInt64) : UInt64 :=
  (List.finRange 512).foldl (fun count i =>
    let e := mem table i
    if !e.isPresent then count
    else if e.isHuge then count + span
    else below e.addr count) count

def countUserPages (mem : Memory) (pml4 : UInt64) : UInt64 :=
  (List.finRange 256).foldl (fun count i4 =>
    let e := mem pml4 (i4.castLE (by decide))
    if !e.isPresent then count
    else countTables mem (512 * 512) (countTables mem 512 (countPages mem)) e.addr count) 0

section Counting

variable {mem : Memory}

/-- One for a path on which a walk finds a page. -/
def found (mem : Memory) (t : UInt64) (is : List Index) : ℕ :=
  if (resolve pageFormat mem t is).isSome then 1 else 0

theorem foldl_count {n : ℕ} {f : UInt64 → Fin n → UInt64} {g : Fin n → ℕ}
    (h : ∀ c i, f c i = c + UInt64.ofNat (g i)) (c : UInt64) :
    (List.finRange n).foldl f c = c + UInt64.ofNat (∑ i, g i) := by
  rw [Fin.sum_univ_def]
  induction List.finRange n generalizing c with
  | nil => simp
  | cons i is ih => rw [List.foldl_cons, ih, h, List.map_cons, List.sum_cons, UInt64.ofNat_add,
      UInt64.add_assoc]

theorem countPages_eq (mem : Memory) (t c : UInt64) :
    countPages mem t c = c + UInt64.ofNat (∑ i, found mem t [i]) := by
  refine foldl_count (fun c i => ?_) c
  cases hp : (mem t i).isPresent with
  | true => simp [found, resolve, decode_last hp]
  | false => simp [found, resolve, decode_absent hp]

/-- With what is below its entries counted right, a table of a middle level is. -/
theorem countTables_eq {P : Type} [Fintype P] {q : P → List Index} {n : ℕ} (hn : n = 1 ∨ n = 2)
    (hlen : ∀ p, (q p).length = n) (span : UInt64) (hspan : span = UInt64.ofNat (Fintype.card P))
    {below : UInt64 → UInt64 → UInt64}
    (hbelow : ∀ t c, below t c = c + UInt64.ofNat (∑ p, found mem t (q p))) (t c : UInt64) :
    countTables mem span below t c =
      c + UInt64.ofNat (∑ x : Index × P, found mem t (x.1 :: q x.2)) := by
  rw [Fintype.sum_prod_type]
  refine foldl_count (fun c i => ?_) c
  cases hp : (mem t i).isPresent with
  | false => simp [found, resolve, hlen, decode_absent hp, hp]
  | true =>
    cases hh : (mem t i).isHuge with
    | true => simp [found, resolve, hlen, decode_huge hn hp hh, hp, hh, hspan]
    | false => simp [found, resolve, hlen, decode_middle hn hp hh, hp, hh, hbelow]

/-- The path of four indices, the first in the lower half. -/
def lowerPath (x : Fin 256 × Index × Index × Index) : List Index :=
  [x.1.castLE (by decide), x.2.1, x.2.2.1, x.2.2.2]

theorem countUserPages_sum (mem : Memory) (pml4 : UInt64) :
    countUserPages mem pml4 = UInt64.ofNat (∑ x, found mem pml4 (lowerPath x)) := by
  have htwo := countTables_eq (.inl rfl) (fun _ => rfl) 512 (by simp) (countPages_eq mem)
  have hthree := countTables_eq (.inr rfl) (fun _ => rfl) (512 * 512) (by simp) htwo
  rw [Fintype.sum_prod_type, ← UInt64.zero_add (UInt64.ofNat _)]
  refine foldl_count (fun c i => ?_) 0
  cases hp : (mem pml4 (i.castLE (by decide))).isPresent with
  | false => simp [found, lowerPath, resolve, decode_absent hp, hp]
  | true =>
    have hwalk : ∀ y, found mem pml4 (lowerPath (i, y)) =
        found mem (mem pml4 (i.castLE (by decide))).addr [y.1, y.2.1, y.2.2] := fun y => by
      rw [found, found, lowerPath, resolve_of_table (decode_top hp)]
    dsimp only
    rw [hp, hthree]
    simp only [hwalk, Bool.not_true, Bool.false_eq_true, if_false]

end Counting

/-! ## Addresses -/

/-- The first address of the page on a path. -/
def lowerAddr (x : Fin 256 × Index × Index × Index) : UInt64 :=
  UInt64.ofNat (x.1 * 2 ^ 39 + x.2.1 * 2 ^ 30 + x.2.2.1 * 2 ^ 21 + x.2.2.2 * 2 ^ 12)

theorem lowerAddr_toNat (x : Fin 256 × Index × Index × Index) : (lowerAddr x).toNat =
    x.1 * 2 ^ 39 + x.2.1 * 2 ^ 30 + x.2.2.1 * 2 ^ 21 + x.2.2.2 * 2 ^ 12 :=
  UInt64.toNat_ofNat_of_lt (show _ < 2 ^ 64 by omega)

theorem path_lowerAddr (x : Fin 256 × Index × Index × Index) : path (lowerAddr x) = lowerPath x := by
  apply List.map_injective_iff.mpr Fin.val_injective
  rw [path_val, lowerAddr_toNat]
  simp only [lowerPath, List.map_cons, List.map_nil, List.cons.injEq, and_true, Fin.val_castLE]
  omega

theorem lowerAddr_injective : Function.Injective lowerAddr := by
  intro x y h
  have hpath : lowerPath x = lowerPath y := by rw [← path_lowerAddr, ← path_lowerAddr, h]
  simp only [lowerPath, List.cons.injEq, and_true, Fin.castLE_inj] at hpath
  exact Prod.ext hpath.1 (Prod.ext hpath.2.1 (Prod.ext hpath.2.2.1 hpath.2.2.2))

theorem exists_lowerAddr {v : UInt64} (hv : v.toNat < 2 ^ 47) (halign : v.toNat % 4096 = 0) :
    ∃ x, lowerAddr x = v := by
  refine ⟨⟨⟨v.toNat / 2 ^ 39, by omega⟩, ⟨v.toNat / 2 ^ 30 % 512, by omega⟩,
    ⟨v.toNat / 2 ^ 21 % 512, by omega⟩, ⟨v.toNat / 2 ^ 12 % 512, by omega⟩⟩, ?_⟩
  rw [← UInt64.toNat_inj, lowerAddr_toNat]
  dsimp only
  omega

/-- **User page accounting.** `count_user_pages` is the number of 4 KiB-aligned addresses of the
lower half that translate, in any memory. -/
theorem countUserPages_eq (mem : Memory) (pml4 : UInt64) :
    (countUserPages mem pml4).toNat =
      {v : UInt64 | v.toNat < 2 ^ 47 ∧ v.toNat % 4096 = 0 ∧ (translate mem pml4 v).isSome}.ncard := by
  have himage : {v : UInt64 | v.toNat < 2 ^ 47 ∧ v.toNat % 4096 = 0 ∧
      (translate mem pml4 v).isSome} =
      lowerAddr '' {x | (resolve pageFormat mem pml4 (lowerPath x)).isSome} := by
    ext v
    constructor
    · rintro ⟨hv, halign, hsome⟩
      obtain ⟨x, rfl⟩ := exists_lowerAddr hv halign
      rw [translate_eq_resolve, path_lowerAddr, Option.isSome_map] at hsome
      exact ⟨x, hsome, rfl⟩
    · rintro ⟨x, hx, rfl⟩
      have hlt := x.1.isLt
      refine ⟨?_, ?_, ?_⟩
      · rw [lowerAddr_toNat]
        omega
      · rw [lowerAddr_toNat]
        omega
      · rw [translate_eq_resolve, path_lowerAddr, Option.isSome_map]
        exact hx
  have hsum : ∑ x, found mem pml4 (lowerPath x) =
      {x | (resolve pageFormat mem pml4 (lowerPath x)).isSome}.ncard := by
    rw [Set.ncard_eq_toFinset_card', Set.toFinset_ofPred, Finset.card_filter]
    rfl
  have hle : ∑ x, found mem pml4 (lowerPath x) ≤ 256 * (512 * (512 * 512)) := by
    rw [hsum, Set.ncard_eq_toFinset_card']
    refine (Finset.card_le_univ _).trans (le_of_eq ?_)
    simp
  rw [countUserPages_sum, himage, Set.ncard_image_of_injective _ lowerAddr_injective, ← hsum]
  exact UInt64.toNat_ofNat_of_lt (lt_of_le_of_lt hle (by decide))

end Aeterna.Mm
