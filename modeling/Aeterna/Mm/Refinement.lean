import Aeterna.Mm.AddressSpace

/-!
# An address space is a partial map

What an address space is for: a partial map from 48-bit virtual pages to frames, which mapping and
unmapping a page update at that page. The page tables refine it: along every run of calls on
lower-half addresses, `translate` is lookup in the map, and `unmapPage` answers what the map held.
-/

namespace Aeterna.Mm

open Lib.Radix

/-- The frame of each page of an address space. -/
abbrev PageMap := UInt64 → Option UInt64

def PageMap.lookup (m : PageMap) (virt : UInt64) : Option UInt64 :=
  (m (page virt)).map (· + pageOffset virt)

/-- A new address space: nothing in the user half, and the kernel half of the source. -/
def PageMap.fresh {σ : Type} (vmm : Vmm σ) : PageMap := fun pageNumber =>
  if LowerHalf (pageStart pageNumber) then none
  else pageMap vmm.mem vmm.kernelSource pageNumber

/-- The address spaces with the maps that they should implement. -/
structure Shadowed (σ : Type) where
  spaces : Spaces σ
  maps : UInt64 → PageMap

namespace Shadowed

variable {σ : Type}

/-- Every address of every space translates as its map says. -/
def Refines (s : Shadowed σ) : Prop :=
  ∀ r ∈ s.spaces.roots, ∀ v, translate s.spaces.vmm.mem r v = (s.maps r).lookup v

variable [FrameSource σ]

def start (vmm : Vmm σ) : Shadowed σ := ⟨Spaces.start vmm, fun _ _ => none⟩

/-- The update that a call means, given what it answered. -/
def mapsAfter (s : Shadowed σ) : SpaceOp → UInt64 → PageMap
  | .create =>
    match s.spaces.vmm.createAddressSpace.1 with
    | some r => Function.update s.maps r (PageMap.fresh s.spaces.vmm)
    | none => s.maps
  | .map space virt phys flags =>
    match s.spaces.roots[space]? with
    | some r =>
      if (s.spaces.vmm.mapPage r virt phys flags).1 then
        Function.update s.maps r (Function.update (s.maps r) (page virt) (some phys))
      else s.maps
    | none => s.maps
  | .unmap space virt =>
    match s.spaces.roots[space]? with
    | some r => Function.update s.maps r (Function.update (s.maps r) (page virt) none)
    | none => s.maps

def step (s : Shadowed σ) (a : SpaceOp) : Shadowed σ := ⟨s.spaces.step a, s.mapsAfter a⟩

/-- `unmap_page` answers the frame that the map holds. -/
def AnswersUnmap (s : Shadowed σ) : SpaceOp → Prop
  | .unmap space virt => ∀ r, s.spaces.roots[space]? = some r →
      (s.spaces.vmm.unmapPage r virt).1 = s.maps r (page virt)
  | _ => True

end Shadowed

/-- A call on a lower-half address that maps a page frame with flags outside the address field. -/
def SpaceOp.Valid : SpaceOp → Prop
  | .create => True
  | .map _ virt phys flags => LowerHalf virt ∧ phys.toNat % 2 ^ 12 = 0 ∧ phys.toNat < 2 ^ 52 ∧
      flags &&& addrMask = 0
  | .unmap _ virt => LowerHalf virt

instance : (a : SpaceOp) → Decidable a.Valid
  | .create => inferInstanceAs (Decidable True)
  | .map _ _ _ _ => inferInstanceAs (Decidable (_ ∧ _ ∧ _ ∧ _))
  | .unmap _ virt => inferInstanceAs (Decidable (LowerHalf virt))

theorem SpaceOp.Valid.lower {a : SpaceOp} (h : a.Valid) : a.Lower := by
  cases a with
  | create => trivial
  | map _ _ _ _ => exact h.1
  | unmap _ _ => exact h

theorem addr_leaf {phys flags : UInt64} (hp : phys &&& addrMask = phys)
    (hf : flags &&& addrMask = 0) :
    (PageTableEntry.mk phys (flags ||| flagPresent)).addr = phys := by
  have hone : flagPresent &&& addrMask = 0 := by decide
  rw [PageTableEntry.addr_mk, Lib.Word.or_and_distrib, Lib.Word.or_and_distrib, hp, hf, hone,
    UInt64.or_zero, UInt64.or_zero]

theorem lowerHalf_congr {v w : UInt64} (h : page v = page w) : LowerHalf v ↔ LowerHalf w := by
  rw [LowerHalf, LowerHalf, (List.cons.inj (path_eq_iff.mpr h)).1]

namespace Shadowed

variable {σ : Type} {s : Shadowed σ} {Tag : UInt64 → Owner → Prop}

/-- A call that is seen only in the page of `virt` in `r` updates the map there. -/
theorem refines_of_walksExcept {vmm : Vmm σ} {r virt : UInt64} (hr : s.Refines)
    (hwalks : WalksExcept r virt s.spaces ⟨vmm, s.spaces.roots⟩) {frame : Option UInt64}
    (hframe : ∀ w, page w = page virt → translate vmm.mem r w = frame.map (· + pageOffset w)) :
    Refines ⟨⟨vmm, s.spaces.roots⟩,
      Function.update s.maps r (Function.update (s.maps r) (page virt) frame)⟩ := by
  intro r' hr' w
  show translate vmm.mem r' w = (Function.update s.maps r _ r').lookup w
  by_cases hsame : r' = r ∧ page w = page virt
  · obtain ⟨rfl, hpage⟩ := hsame
    rw [Function.update_self, PageMap.lookup, hpage, Function.update_self]
    exact hframe w hpage
  · have hmap : (Function.update s.maps r (Function.update (s.maps r) (page virt) frame)) r'
        (page w) = s.maps r' (page w) := by
      by_cases hr'' : r' = r
      · subst hr''
        rw [Function.update_self, Function.update_of_ne fun hc => hsame ⟨rfl, hc⟩]
      · rw [Function.update_of_ne hr'']
    have hwalk := hwalks r' hr' w hsame
    simp only at hwalk
    rw [PageMap.lookup, hmap, translate_eq_resolve, hwalk, ← translate_eq_resolve]
    exact hr r' hr' w

variable [FrameSource σ]

theorem refines_create (h : SpacesInv Tag s.spaces) (hr : s.Refines) :
    (s.step .create).Refines := by
  rcases create_outcome h with ⟨vmm, he, -, hmem⟩ | ⟨r, vmm, he, hnew, -, hwalks, hroot⟩
  · simp only [step, Spaces.step, mapsAfter, Refines, he, hmem]
    exact hr
  · have hstep : s.step .create = ⟨⟨vmm, s.spaces.roots ++ [r]⟩,
        Function.update s.maps r (PageMap.fresh s.spaces.vmm)⟩ := by
      simp only [step, Spaces.step, mapsAfter, he]
    rw [hstep]
    intro r' hr' v
    show translate vmm.mem r' v = (Function.update s.maps r _ r').lookup v
    rcases List.mem_append.mp hr' with hold | hnew'
    · have hne : r' ≠ r := fun hc => hnew (hc ▸ hold)
      rw [Function.update_of_ne hne, ← hr r' hold v, translate_eq_resolve, translate_eq_resolve,
        hwalks r' hold v]
    · rw [List.mem_singleton.mp hnew', Function.update_self, PageMap.lookup, PageMap.fresh,
        translate_eq_resolve, hroot v, if_congr (lowerHalf_congr (page_pageStart v)) rfl rfl]
      split_ifs with hv
      · rfl
      · rw [← translate_eq_resolve, translate_eq_pageMap]

theorem refines_map (h : SpacesInv Tag s.spaces) (hr : s.Refines) {space : ℕ}
    {virt phys flags : UInt64} (ha : (SpaceOp.map space virt phys flags).Valid) :
    (s.step (.map space virt phys flags)).Refines := by
  obtain ⟨hv, halign, hlt, hflags⟩ := ha
  cases hroot : s.spaces.roots[space]? with
  | none =>
    simp only [step, Spaces.step, mapsAfter, hroot]
    exact hr
  | some r =>
    have hmem := List.mem_of_getElem? hroot
    obtain ⟨-, -, hwalks, hres⟩ := map_outcome h hmem hv phys flags
    simp only [step, Spaces.step, mapsAfter, hroot]
    split_ifs with hok
    · refine refines_of_walksExcept hr hwalks fun w hpage => ?_
      rw [translate_eq_resolve, path_eq_iff.mpr hpage, hres, if_pos hok, Option.map_some,
        Option.map_some, finish, addr_leaf (and_addrMask_eq halign hlt) hflags]
      rfl
    · -- a failed call is an update with the old frame
      have hsame : s.maps = Function.update s.maps r
          (Function.update (s.maps r) (page virt) (s.maps r (page virt))) := by
        rw [Function.update_eq_self, Function.update_eq_self]
      rw [hsame]
      refine refines_of_walksExcept hr hwalks fun w hpage => ?_
      rw [translate_eq_resolve, path_eq_iff.mpr hpage, hres, if_neg hok, ← path_eq_iff.mpr hpage,
        ← translate_eq_resolve, hr r hmem w, PageMap.lookup, hpage]

theorem refines_unmap (h : SpacesInv Tag s.spaces) (hr : s.Refines) {space : ℕ} {virt : UInt64}
    (hv : LowerHalf virt) : (s.step (.unmap space virt)).Refines := by
  cases hroot : s.spaces.roots[space]? with
  | none =>
    simp only [step, Spaces.step, mapsAfter, hroot]
    exact hr
  | some r =>
    obtain ⟨-, hwalks, hres, -⟩ := unmap_outcome h (List.mem_of_getElem? hroot) hv
    simp only [step, Spaces.step, mapsAfter, hroot]
    refine refines_of_walksExcept hr hwalks fun w hpage => ?_
    rw [translate_eq_resolve, path_eq_iff.mpr hpage, hres]
    rfl

theorem answersUnmap (h : SpacesInv Tag s.spaces) (hr : s.Refines) {a : SpaceOp} (ha : a.Lower) :
    s.AnswersUnmap a := by
  cases a with
  | create => trivial
  | map _ _ _ _ => trivial
  | unmap space virt =>
    intro r hroot
    have hmem := List.mem_of_getElem? hroot
    obtain ⟨-, -, -, hanswer⟩ := unmap_outcome h hmem ha
    have hlookup := hr r hmem virt
    rw [translate_eq_resolve, PageMap.lookup] at hlookup
    rw [hanswer]
    rcases hres : resolve pageFormat s.spaces.vmm.mem r (path virt) with _ | ⟨n, e⟩ <;>
      rw [hres] at hlookup
    · exact (Option.map_eq_none_iff.mp hlookup.symm).symm
    · -- the walk ended at the last level, so the answer is the frame without the offset
      have hn := level_of_resolve h (h.roots r hmem) rfl (fun i hi => by cases hi; exact ha) hres
      subst hn
      obtain ⟨frame, hframe, hsum⟩ := Option.map_eq_some_iff.mp hlookup.symm
      have hcancel : frame = e.addr := (UInt64.add_left_inj _).mp hsum
      rw [hframe, hcancel]
      rfl

/-- The tables have owners and the maps say what they translate to. -/
def ShadowInv (s : Shadowed σ) : Prop := (∃ Tag, SpacesInv Tag s.spaces) ∧ s.Refines

theorem shadowInv_step (h : s.ShadowInv) {a : SpaceOp} (ha : a.Valid) : (s.step a).ShadowInv := by
  obtain ⟨⟨Tag, hinv⟩, hr⟩ := h
  refine ⟨spacesInv_step ⟨Tag, hinv⟩ ha.lower, ?_⟩
  cases a with
  | create => exact refines_create hinv hr
  | map space virt phys flags => exact refines_map hinv hr ha
  | unmap space virt => exact refines_unmap hinv hr ha

/-- **Refinement.** Along every run of calls on lower-half addresses of created address spaces, every
address of every space translates as its partial map says, where a successful `map_page` updates
the map at one page, a failed one leaves it, and `unmap_page` answers what it removes. -/
theorem refines_run (vmm : Vmm σ) (as : List SpaceOp) (hboot : BootTables vmm)
    (has : ∀ a ∈ as, a.Valid) :
    Lib.Always step Refines (start vmm) as ∧ Lib.EachStep step AnswersUnmap (start vmm) as := by
  have hstart : (start vmm).ShadowInv := ⟨⟨_, spacesInv_start hboot⟩, fun _ hr => by cases hr⟩
  have hstep : ∀ (s : Shadowed σ) (a : SpaceOp), s.ShadowInv → a.Valid → (s.step a).ShadowInv :=
    fun s a h ha => shadowInv_step h ha
  have hvalid : Lib.EachStep step (fun _ a => a.Valid) (start vmm) as :=
    Lib.eachStep_of_forall_mem has
  constructor
  · exact (Lib.always_of_eachStep hstart hstep hvalid).imp fun s h => h.2
  · refine Lib.eachStep_of_eachStep hstart hstep (fun s a h ha => ?_) hvalid
    obtain ⟨⟨Tag, hinv⟩, hr⟩ := h
    exact answersUnmap hinv hr ha.lower

theorem refines_run_twoSpaces :
    (Lib.run step (start emptyKernel) twoSpaces).maps 0x101000 (page 0x400123) = some 0x6000 ∧
      Lib.Always step Refines (start emptyKernel) twoSpaces ∧
      Lib.EachStep step AnswersUnmap (start emptyKernel) twoSpaces :=
  ⟨by decide +kernel, refines_run emptyKernel twoSpaces bootTables_emptyKernel (by decide)⟩

end Shadowed

end Aeterna.Mm
