import Aeterna.Mm.AddressSpace

/-!
# Kernel mappings across address spaces

The kernel half of an address space is a copy of the top-level entries of the boot table, taken
when the space is created and again before every switch to it. A kernel page that is mapped while
some space is current lives below one top-level entry: it is seen everywhere if the boot table has
that entry, and it is lost at the next switch if only the current space has it.
-/

namespace Aeterna.Mm

open Lib.Radix

/-! ## Runs -/

/-- A virtual address of the kernel half. -/
structure UpperAddr where
  virt : UInt64
  upper : 256 ≤ (pml4Index virt).val

/-- The manager, the address spaces created so far, and the kernel pages that
`map_page_current` reported as mapped, with their frames. -/
structure Kernel (σ : Type) where
  vmm : Vmm σ
  roots : List UInt64
  reported : UInt64 → Option UInt64

/-- A step of the kernel; a switch without a number goes to the boot table. -/
inductive KernelOp where
  | create
  | map (virt : UpperAddr) (phys flags : UInt64)
  | switch (space : Option ℕ)

/-- The frame that the leaf written by `map_page` holds. -/
def mappedFrame (phys flags : UInt64) : UInt64 := (PageTableEntry.mk phys (flags ||| flagPresent)).addr

namespace Kernel

variable {σ : Type}

/-- A context switch: refresh the kernel half of the target, then load it. -/
def switchTo (s : Kernel σ) (target : UInt64) : Kernel σ :=
  { s with vmm := (s.vmm.syncKernelMappings target).writeCr3 target }

/-- The reported mappings hold in the current address space. -/
def MappingsHold (s : Kernel σ) : Prop :=
  ∀ (v : UpperAddr) (f : UInt64), s.reported (page v.virt) = some f →
    translate s.vmm.mem s.vmm.readCr3 v.virt = some (f + pageOffset v.virt)

/-- A kernel page is mapped under the boot table, or below a top-level entry that it has. -/
def SharesEntry (s : Kernel σ) (v : UpperAddr) : Prop :=
  s.vmm.readCr3 = s.vmm.kernelPml4 ∨
    (s.vmm.mem s.vmm.kernelPml4 (pml4Index v.virt)).isPresent = true

instance (s : Kernel σ) (v : UpperAddr) : Decidable (s.SharesEntry v) :=
  inferInstanceAs (Decidable (_ ∨ _))

variable [FrameSource σ]

def start (vmm : Vmm σ) : Kernel σ := ⟨vmm.init, [], fun _ => none⟩

def step (s : Kernel σ) : KernelOp → Kernel σ
  | .create =>
    match s.vmm.createAddressSpace with
    | (some r, vmm) => { s with vmm := vmm, roots := s.roots ++ [r] }
    | (none, vmm) => { s with vmm := vmm }
  | .map v phys flags =>
    match s.vmm.mapPageCurrent v.virt phys flags with
    | (true, vmm) => { s with
        vmm := vmm
        reported := Function.update s.reported (page v.virt) (some (mappedFrame phys flags)) }
    | (false, vmm) => { s with vmm := vmm }
  | .switch none => s.switchTo s.vmm.kernelPml4
  | .switch (some space) =>
    match s.roots[space]? with
    | some r => s.switchTo r
    | none => s

/-- A successful mapping is not made in a top-level entry of the current space alone. -/
def Keeps (s : Kernel σ) : KernelOp → Prop
  | .map v phys flags => (s.vmm.mapPageCurrent v.virt phys flags).1 = true → s.SharesEntry v
  | _ => True

instance (s : Kernel σ) : (a : KernelOp) → Decidable (s.Keeps a)
  | .map _ _ _ => inferInstanceAs (Decidable (_ → _))
  | .create => inferInstanceAs (Decidable True)
  | .switch _ => inferInstanceAs (Decidable True)

end Kernel

/-! ## Labels of the kernel half -/

/-- A top-level table, or a table of the kernel half below the path `p`. -/
inductive KernelOwner where
  | root (r : UInt64)
  | shared (p : List Index)
  deriving DecidableEq

def KernelOwner.sub : KernelOwner → Index → Option KernelOwner
  | .root _, i => if 256 ≤ i.val then some (.shared [i]) else none
  | .shared p, i => if p.length < 3 then some (.shared (p ++ [i])) else none

def KernelOwner.level : KernelOwner → ℕ
  | .root _ => 3
  | .shared p => 3 - p.length

def kernelOwners : Scheme Index KernelOwner where
  sub := KernelOwner.sub
  level := KernelOwner.level
  Excl _ := True
  level_sub := by
    intro l i l' h
    cases l with
    | root r =>
      simp only [KernelOwner.sub] at h
      split_ifs at h
      cases h
      rfl
    | shared p =>
      simp only [KernelOwner.sub] at h
      split_ifs at h with hp
      cases h
      simp only [KernelOwner.level, List.length_append, List.length_singleton]
      omega

theorem sub_root (r : UInt64) {i : Index} (h : 256 ≤ i.val) :
    kernelOwners.sub (.root r) i = some (.shared [i]) := if_pos h

theorem pathLabels_kernel (r : UInt64) (v : UpperAddr) :
    PathLabels kernelOwners (.root r) v.virt
      (.shared [pml4Index v.virt, pdptIndex v.virt, pdIndex v.virt]) where
  level := rfl
  exclRoot := trivial
  below := ⟨.shared [pml4Index v.virt], .shared [pml4Index v.virt, pdptIndex v.virt],
    sub_root r v.upper, rfl, rfl, trivial, trivial, trivial⟩

theorem tracks_kernelRoot (r : UInt64) (v : UpperAddr) :
    kernelOwners.Tracks (.root r) (path v.virt) := by
  refine ⟨rfl, fun _ => ⟨.shared [pml4Index v.virt], sub_root r v.upper, rfl, fun _ => ?_⟩⟩
  refine ⟨.shared [pml4Index v.virt, pdptIndex v.virt], rfl, rfl, fun _ => ?_⟩
  exact ⟨.shared [pml4Index v.virt, pdptIndex v.virt, pdIndex v.virt], rfl, rfl,
    fun hc => absurd rfl hc⟩

theorem follow_root {r : UInt64} {pre : List Index} {l : KernelOwner}
    (h : kernelOwners.follow (.root r) pre = some l) :
    (pre = [] ∧ l = .root r) ∨ (pre ≠ [] ∧ l = .shared pre) := by
  have hshared : ∀ (q is : List Index), kernelOwners.follow (.shared q) is = some l →
      l = .shared (q ++ is) := by
    intro q is
    induction is generalizing q with
    | nil =>
      intro hf
      cases hf
      rw [List.append_nil]
    | cons j is ih =>
      intro hf
      rw [Scheme.follow] at hf
      simp only [kernelOwners, KernelOwner.sub] at hf
      split_ifs at hf with hlen
      · rw [ih (q ++ [j]) hf, List.append_assoc, List.singleton_append]
      · cases hf
  cases pre with
  | nil =>
    cases h
    exact .inl ⟨rfl, rfl⟩
  | cons i pre =>
    refine .inr ⟨List.cons_ne_nil i pre, ?_⟩
    by_cases hi : 256 ≤ i.val
    · rw [kernelOwners.follow_cons (sub_root r hi)] at h
      exact hshared [i] pre h
    · rw [Scheme.follow] at h
      simp only [kernelOwners, KernelOwner.sub, if_neg hi] at h
      cases h

/-! ## The top-level tables -/

namespace Kernel

variable {σ : Type} {s s' : Kernel σ} {Tag : UInt64 → KernelOwner → Prop}

/-- The boot table and the created spaces. -/
def tops (s : Kernel σ) : List UInt64 := s.vmm.kernelPml4 :: s.roots

theorem kernelPml4_mem_tops (s : Kernel σ) : s.vmm.kernelPml4 ∈ s.tops := List.mem_cons_self

/-- A step that the boot table does not notice. -/
structure BootSame (s s' : Kernel σ) : Prop where
  reported : s'.reported = s.reported
  kernelPml4 : s'.vmm.kernelPml4 = s.vmm.kernelPml4
  row : s'.vmm.mem s.vmm.kernelPml4 = s.vmm.mem s.vmm.kernelPml4
  walks : ∀ w : UpperAddr, resolve pageFormat s'.vmm.mem s.vmm.kernelPml4 (path w.virt) =
    resolve pageFormat s.vmm.mem s.vmm.kernelPml4 (path w.virt)

theorem BootSame.refl (s : Kernel σ) : BootSame s s := ⟨rfl, rfl, rfl, fun _ => rfl⟩

/-- The boot table has the reported mappings. -/
def BootMapped (s : Kernel σ) : Prop :=
  ∀ (v : UpperAddr) (f : UInt64), s.reported (page v.virt) = some f →
    translate s.vmm.mem s.vmm.kernelPml4 v.virt = some (f + pageOffset v.virt)

theorem bootMapped_of_bootSame (h : BootSame s s') (hm : s.BootMapped) : s'.BootMapped := by
  intro v f hf
  rw [h.reported] at hf
  rw [h.kernelPml4, translate_eq_resolve, h.walks v, ← translate_eq_resolve]
  exact hm v f hf

/-- A reported mapping that only the current space has: the boot table lacks the entry above it. -/
def Doomed (s : Kernel σ) : Prop :=
  s.vmm.readCr3 ≠ s.vmm.kernelPml4 ∧ ∃ v : UpperAddr, (s.reported (page v.virt)).isSome ∧
    (s.vmm.mem s.vmm.kernelPml4 (pml4Index v.virt)).isPresent = false

theorem doomed_of_bootSame (hsame : BootSame s s') (hread : s'.vmm.readCr3 = s.vmm.readCr3)
    (hd : s.Doomed) : s'.Doomed := by
  obtain ⟨hcur, v, hsome, hp⟩ := hd
  refine ⟨by rw [hread, hsame.kernelPml4]; exact hcur, v, by rw [hsame.reported]; exact hsome, ?_⟩
  rw [hsame.kernelPml4, hsame.row]
  exact hp

variable [FrameSource σ]

/-- Between two steps: the top-level tables are labelled, one of them is current, and it has every
kernel entry that the boot table has. -/
structure TopsInv (Tag : UInt64 → KernelOwner → Prop) (s : Kernel σ) : Prop where
  labelled : Labelled kernelOwners Tag s.vmm
  nonzero : s.vmm.kernelPml4 ≠ 0
  tag : ∀ r ∈ s.tops, Tag r (.root r)
  aligned : ∀ r ∈ s.tops, r &&& addrMask = r
  current : s.vmm.readCr3 ∈ s.tops
  synced : ∀ i : Index, 256 ≤ i.val → (s.vmm.mem s.vmm.kernelPml4 i).isPresent = true →
    s.vmm.mem s.vmm.readCr3 i = s.vmm.mem s.vmm.kernelPml4 i

theorem topsInv_reported (h : TopsInv Tag s) (reported : UInt64 → Option UInt64) :
    TopsInv Tag { s with reported := reported } :=
  ⟨h.labelled, h.nonzero, h.tag, h.aligned, h.current, h.synced⟩

/-- Below an entry that the boot table has, the current space sees what the boot table sees. -/
theorem resolve_current (h : TopsInv Tag s) (v : UpperAddr)
    (hp : (s.vmm.mem s.vmm.kernelPml4 (pml4Index v.virt)).isPresent = true) :
    resolve pageFormat s.vmm.mem s.vmm.readCr3 (path v.virt) =
      resolve pageFormat s.vmm.mem s.vmm.kernelPml4 (path v.virt) :=
  resolve_cons_congr (h.synced _ v.upper hp) fun _ _ => rfl

theorem isPresent_of_resolve {mem : Memory} {r virt : UInt64} {found : ℕ × PageTableEntry}
    (h : resolve pageFormat mem r (path virt) = some found) :
    (mem r (pml4Index virt)).isPresent = true := by
  cases hp : (mem r (pml4Index virt)).isPresent with
  | true => rfl
  | false =>
    rw [path, resolve_of_absent (decode_absent hp)] at h
    cases h

theorem tag_of_kernelEntry (h : TopsInv Tag s) {i : Index} {u : UInt64} (hi : 256 ≤ i.val)
    (hu : pageFormat.decode 3 (s.vmm.mem s.vmm.kernelPml4 i) = .table u) : Tag u (.shared [i]) :=
  h.labelled.tagged.child (h.tag _ s.kernelPml4_mem_tops) (sub_root _ hi) hu

/-- A row whose kernel half is that of the boot table points to tables of the right labels. -/
theorem row_of_copyUpper (h : TopsInv Tag s) {r : UInt64} {row : Index → PageTableEntry}
    {i : Index} {l : KernelOwner} {u : UInt64} (hl : kernelOwners.sub (.root r) i = some l)
    (hu : pageFormat.decode 3 (Vmm.copyUpper row (s.vmm.mem s.vmm.kernelPml4) i) = .table u) :
    Tag u l := by
  by_cases hi : 256 ≤ i.val
  · rw [sub_root r hi] at hl
    cases hl
    rw [Vmm.copyUpper, if_pos hi] at hu
    exact tag_of_kernelEntry h hi hu
  · cases (if_neg hi).symm.trans hl

/-! ## Creating and switching -/

theorem create_outcome (h : TopsInv Tag s) :
    ∃ Tag', TopsInv Tag' (s.step .create) ∧ BootSame s (s.step .create) ∧
      (s.step .create).vmm.readCr3 = s.vmm.readCr3 := by
  have hsource : s.vmm.kernelSource = s.vmm.kernelPml4 := if_pos h.nonzero
  have hkernel := h.tag _ s.kernelPml4_mem_tops
  have hused : ¬ FrameSource.Free s.vmm.frames s.vmm.kernelSource := by
    rw [hsource]
    exact fun hf => h.labelled.fresh hf hkernel
  rcases createAddressSpace_cases hused with ⟨frames, he, hfree⟩ | ⟨f, frames, he, hf, hnf, hfree⟩
  · have hstep : s.step .create = { s with vmm := { s.vmm with frames := frames } } := by
      simp only [step, he]
    rw [hstep]
    refine ⟨Tag, ?_, ⟨rfl, rfl, rfl, fun _ => rfl⟩, rfl⟩
    exact ⟨labelled_frames h.labelled hfree, h.nonzero, h.tag, h.aligned, h.current, h.synced⟩
  · have hfresh : ∀ l, ¬ Tag f l := fun l => h.labelled.fresh hf
    have hne : ∀ r ∈ s.tops, r ≠ f := fun r hr hc => hfresh _ (hc ▸ h.tag r hr)
    have hfill := h.labelled.tagged.fill hfresh (.root f)
      (Vmm.copyUpper emptyTable (s.vmm.mem s.vmm.kernelPml4)) (row_of_copyUpper h)
    have hstep : s.step .create = { s with
        vmm := { s.vmm with
          mem := setRow s.vmm.mem f (Vmm.copyUpper emptyTable (s.vmm.mem s.vmm.kernelPml4))
          frames := frames }
        roots := s.roots ++ [f] } := by
      rw [hsource] at he
      simp only [step, he]
    have hrow : setRow s.vmm.mem f (Vmm.copyUpper emptyTable (s.vmm.mem s.vmm.kernelPml4))
        s.vmm.kernelPml4 = s.vmm.mem s.vmm.kernelPml4 :=
      setRow_of_ne (hne _ s.kernelPml4_mem_tops) _
    rw [hstep]
    refine ⟨withTag Tag f (.root f), ⟨⟨hfill, not_withTag_of_free h.labelled hnf hfree⟩,
      h.nonzero, ?_, ?_, ?_, ?_⟩, ⟨rfl, rfl, hrow, ?_⟩, rfl⟩
    · intro r hr
      rcases List.mem_append.mp (show r ∈ s.tops ++ [f] from hr) with hr | hr
      · exact withTag_of_tag (h.tag r hr)
      · rw [List.mem_singleton.mp hr]
        exact withTag_self f _
    · intro r hr
      rcases List.mem_append.mp (show r ∈ s.tops ++ [f] from hr) with hr | hr
      · exact h.aligned r hr
      · rw [List.mem_singleton.mp hr]
        exact FrameSource.and_addrMask hf
    · exact List.mem_append.mpr (.inl h.current)
    · intro i hi hp
      simp only [hrow] at hp ⊢
      exact (congrFun (setRow_of_ne (hne _ h.current) _) i).trans (h.synced i hi hp)
    · exact fun w => h.labelled.tagged.resolve_fill hfresh hkernel (tracks_kernelRoot _ w)

/-- `sync_kernel_mappings` gives the target the kernel half of the boot table. -/
theorem sync_outcome (h : TopsInv Tag s) {r : UInt64} (hr : r ∈ s.tops) :
    ∃ mem, s.vmm.syncKernelMappings r = { s.vmm with mem := mem } ∧
      Tagged pageFormat kernelOwners mem Tag ∧
      mem s.vmm.kernelPml4 = s.vmm.mem s.vmm.kernelPml4 ∧
      (∀ i : Index, 256 ≤ i.val → mem r i = s.vmm.mem s.vmm.kernelPml4 i) ∧
      ∀ w : UpperAddr, resolve pageFormat mem s.vmm.kernelPml4 (path w.virt) =
        resolve pageFormat s.vmm.mem s.vmm.kernelPml4 (path w.virt) := by
  have hkernel := h.tag _ s.kernelPml4_mem_tops
  by_cases hk : r = s.vmm.kernelPml4
  · refine ⟨s.vmm.mem, if_pos (.inr hk), h.labelled.tagged, rfl, fun i _ => by rw [hk], fun _ => rfl⟩
  · refine ⟨_, if_neg (fun hc => hc.elim h.nonzero hk), ?_, setRow_of_ne (Ne.symm hk) _, ?_, ?_⟩
    · exact h.labelled.tagged.refill (h.tag r hr) trivial (row_of_copyUpper h)
    · intro i hi
      rw [setRow_self, Vmm.copyUpper, if_pos hi]
    · intro w
      refine h.labelled.tagged.resolve_congr hkernel (tracks_kernelRoot _ w) ?_
      intro pre j post u m hp hf hu
      have hne : u ≠ r := by
        rintro rfl
        cases h.labelled.tagged.excl (h.tag u hr) trivial hu
        rcases follow_root hf with ⟨-, hm⟩ | ⟨-, hm⟩
        · cases hm
          exact hk rfl
        · cases hm
      rw [setRow_of_ne hne]

/-- A switch makes the target current, with the kernel half of the boot table. -/
theorem switchTo_outcome (h : TopsInv Tag s) {r : UInt64} (hr : r ∈ s.tops) :
    TopsInv Tag (s.switchTo r) ∧ BootSame s (s.switchTo r) ∧ (s.switchTo r).vmm.readCr3 = r ∧
      ∀ i : Index, 256 ≤ i.val →
        (s.switchTo r).vmm.mem r i = s.vmm.mem s.vmm.kernelPml4 i := by
  obtain ⟨mem, he, htagged, hrow, htarget, hwalks⟩ := sync_outcome h hr
  have hstep : s.switchTo r = { s with vmm := ⟨mem, s.vmm.frames, r, s.vmm.kernelPml4⟩ } := by
    rw [switchTo, he]
    rfl
  have hcr3 : (s.switchTo r).vmm.readCr3 = r := by
    exact h.aligned r hr
  rw [hstep] at hcr3 ⊢
  refine ⟨⟨⟨htagged, h.labelled.fresh⟩, h.nonzero, h.tag, h.aligned, ?_, ?_⟩,
    ⟨rfl, rfl, hrow, hwalks⟩, hcr3, htarget⟩
  · rw [hcr3]
    exact hr
  · rw [hcr3]
    intro i hi _
    exact (htarget i hi).trans (congrFun hrow i).symm

/-! ## Mapping -/

theorem setLeaf_of_mem_tops (h : TopsInv Tag s) {pt r : UInt64} {a b c : Index}
    (hpt : Tag pt (.shared [a, b, c])) (hr : r ∈ s.tops) (i j : Index) (e : PageTableEntry) :
    (s.vmm.setEntry pt i e).mem r j = s.vmm.mem r j := by
  have hne : r ≠ pt := ne_of_level h.labelled (h.tag r hr) hpt trivial (fun hc => by cases hc)
  exact setEntry_of_ne (fun hc => hne hc.1) e

theorem topsInv_setLeaf (h : TopsInv Tag s) {pt : UInt64} {a b c : Index}
    (hpt : Tag pt (.shared [a, b, c])) (i : Index) (e : PageTableEntry) :
    TopsInv Tag { s with vmm := s.vmm.setEntry pt i e } where
  labelled := labelled_setLeaf h.labelled hpt trivial rfl i e
  nonzero := h.nonzero
  tag := h.tag
  aligned := h.aligned
  current := h.current
  synced := by
    intro j hj hp
    have hkernel := setLeaf_of_mem_tops h hpt s.kernelPml4_mem_tops i j e
    have hcurrent := setLeaf_of_mem_tops h hpt h.current i j e
    exact hcurrent.trans ((h.synced j hj (hkernel ▸ hp)).trans hkernel.symm)

/-- `map_page_current` leaves the top-level tables in order; the boot table sees at most the new
page, and only if it has the entry above it. -/
theorem map_outcome (h : TopsInv Tag s) (v : UpperAddr) (phys flags : UInt64) :
    ∃ Tag' ok vmm, s.vmm.mapPageCurrent v.virt phys flags = (ok, vmm) ∧
      TopsInv Tag' { s with vmm := vmm } ∧ vmm.kernelPml4 = s.vmm.kernelPml4 ∧
      vmm.readCr3 = s.vmm.readCr3 ∧
      (∀ i, s.vmm.readCr3 ≠ s.vmm.kernelPml4 →
        vmm.mem s.vmm.kernelPml4 i = s.vmm.mem s.vmm.kernelPml4 i) ∧
      (∀ w : UpperAddr, ok = false ∨ page w.virt ≠ page v.virt →
        resolve pageFormat vmm.mem s.vmm.kernelPml4 (path w.virt) =
          resolve pageFormat s.vmm.mem s.vmm.kernelPml4 (path w.virt)) ∧
      (ok = true → resolve pageFormat vmm.mem s.vmm.readCr3 (path v.virt) =
        some (0, .mk phys (flags ||| flagPresent))) := by
  have hcurrent := h.tag _ h.current
  have hkernel := h.tag _ s.kernelPml4_mem_tops
  obtain ⟨Tag', s₁, hg, htop, hout⟩ :=
    mapPage_spec h.labelled hcurrent (pathLabels_kernel _ v) phys flags
  have hread : s₁.readCr3 = s.vmm.readCr3 := by rw [Vmm.readCr3, Vmm.readCr3, hg.cr3]
  have hrow : ∀ i, s.vmm.readCr3 ≠ s.vmm.kernelPml4 →
      s₁.mem s.vmm.kernelPml4 i = s.vmm.mem s.vmm.kernelPml4 i :=
    fun i hne => htop hkernel rfl fun hc => hne hc.1.symm
  have hsynced : ∀ i : Index, 256 ≤ i.val → (s₁.mem s.vmm.kernelPml4 i).isPresent = true →
      s₁.mem s.vmm.readCr3 i = s₁.mem s.vmm.kernelPml4 i := by
    intro i hi hp
    by_cases hne : s.vmm.readCr3 = s.vmm.kernelPml4
    · rw [hne]
    · rw [hrow i hne] at hp ⊢
      have hold := h.synced i hi hp
      rw [hg.keep hcurrent (hold ▸ hp), hold]
  have hinv : TopsInv Tag' { s with vmm := s₁ } := by
    refine ⟨hg.labelled, ?_, ?_, ?_, ?_, ?_⟩ <;> simp only [tops, hg.kernelPml4, hread]
    · exact h.nonzero
    · exact fun r hr => hg.mono (h.tag r hr)
    · exact h.aligned
    · exact h.current
    · exact hsynced
  rcases hout with he | ⟨pt, hpt, hreach, he⟩
  · refine ⟨Tag', false, s₁, he, hinv, hg.kernelPml4, hread, hrow, fun w _ => ?_, fun hc => by cases hc⟩
    exact hg.walks hkernel (tracks_kernelRoot _ w)
  · have hrow' : ∀ i, (s₁.setEntry pt (ptIndex v.virt) (.mk phys (flags ||| flagPresent))).mem
        s.vmm.kernelPml4 i = s₁.mem s.vmm.kernelPml4 i := fun i => by
      refine setLeaf_of_mem_tops hinv hpt ?_ _ i _
      simp only [tops, hg.kernelPml4]
      exact List.mem_cons_self
    refine ⟨Tag', true, _, he, topsInv_setLeaf hinv hpt _ _, hg.kernelPml4, hread,
      fun i hne => (hrow' i).trans (hrow i hne), ?_, fun _ => ?_⟩
    · rintro w (hc | hpage)
      · cases hc
      refine (resolve_setLeaf_of_ne hg.labelled hpt trivial (hg.mono hkernel)
        (tracks_kernelRoot _ w) ?_ _).trans (hg.walks hkernel (tracks_kernelRoot _ w))
      intro pre post hp hf
      rcases follow_root hf with ⟨-, hm⟩ | ⟨-, hm⟩
      · cases hm
      · cases hm
        exact hpage (page_eq_of_path hp)
    · refine (resolve_setLeaf hreach _).trans ?_
      rw [PageTableEntry.isPresent_mk]
      rfl

/-! ## Mappings that last -/

theorem mappingsHold_of_bootMapped (h : TopsInv Tag s) (hm : s.BootMapped) : s.MappingsHold := by
  intro v f hf
  have htrans := hm v f hf
  have htrans' := htrans
  rw [translate_eq_resolve] at htrans
  obtain ⟨found, hfound, -⟩ := Option.map_eq_some_iff.mp htrans
  rw [translate_eq_resolve, resolve_current h v (isPresent_of_resolve hfound),
    ← translate_eq_resolve]
  exact htrans'

theorem topsInv_step (h : ∃ Tag, TopsInv Tag s) (a : KernelOp) : ∃ Tag, TopsInv Tag (s.step a) := by
  obtain ⟨Tag, h⟩ := h
  match a with
  | .create => exact (create_outcome h).imp fun _ hc => hc.1
  | .map v phys flags =>
    obtain ⟨Tag', ok, vmm, he, hinv, -⟩ := map_outcome h v phys flags
    refine ⟨Tag', ?_⟩
    simp only [step, he]
    cases ok with
    | true => exact topsInv_reported hinv _
    | false => exact hinv
  | .switch none => exact ⟨Tag, (switchTo_outcome h s.kernelPml4_mem_tops).1⟩
  | .switch (some space) =>
    simp only [step]
    cases hr : s.roots[space]? with
    | none => exact ⟨Tag, h⟩
    | some r =>
      exact ⟨Tag, (switchTo_outcome h (List.mem_cons_of_mem _ (List.mem_of_getElem? hr))).1⟩

theorem bootMapped_step (h : ∃ Tag, TopsInv Tag s) (hm : s.BootMapped) {a : KernelOp}
    (hk : s.Keeps a) : (s.step a).BootMapped := by
  obtain ⟨Tag, h⟩ := h
  match a with
  | .create =>
    obtain ⟨-, -, hsame, -⟩ := create_outcome h
    exact bootMapped_of_bootSame hsame hm
  | .switch none =>
    exact bootMapped_of_bootSame (switchTo_outcome h s.kernelPml4_mem_tops).2.1 hm
  | .switch (some space) =>
    simp only [step]
    cases hr : s.roots[space]? with
    | none => exact hm
    | some r =>
      exact bootMapped_of_bootSame
        (switchTo_outcome h (List.mem_cons_of_mem _ (List.mem_of_getElem? hr))).2.1 hm
  | .map v phys flags =>
    obtain ⟨Tag', ok, vmm, he, hinv, hkernel, hread, hrow, hwalks, hleaf⟩ :=
      map_outcome h v phys flags
    simp only [step, Keeps, he] at hk ⊢
    cases ok with
    | false =>
      intro w f hf
      simp only [hkernel]
      rw [translate_eq_resolve, hwalks w (.inl rfl), ← translate_eq_resolve]
      exact hm w f hf
    | true =>
      -- the boot table reaches the new leaf, directly or through the entry it shares
      have hboot : resolve pageFormat vmm.mem s.vmm.kernelPml4 (path v.virt) =
          some (0, .mk phys (flags ||| flagPresent)) := by
        by_cases hcur : s.vmm.readCr3 = s.vmm.kernelPml4
        · rw [← hcur]
          exact hleaf rfl
        · have hp := (hk rfl).resolve_left hcur
          rw [← hrow _ hcur] at hp
          have hsame := resolve_current hinv v (by simp only [hkernel]; exact hp)
          simp only [hkernel, hread] at hsame
          rw [← hsame]
          exact hleaf rfl
      intro w f hf
      simp only [hkernel] at hf ⊢
      by_cases hpage : page w.virt = page v.virt
      · rw [hpage, Function.update_self] at hf
        cases hf
        rw [translate_eq_resolve, path_eq_iff.mpr hpage, hboot]
        rfl
      · rw [Function.update_of_ne hpage] at hf
        rw [translate_eq_resolve, hwalks w (.inr hpage), ← translate_eq_resolve]
        exact hm w f hf

/-! ## Mappings that are lost -/

theorem doomed_of_not_keeps (h : TopsInv Tag s) {a : KernelOp} (hk : ¬ s.Keeps a) :
    (s.step a).Doomed := by
  match a with
  | .create => exact absurd trivial hk
  | .switch _ => exact absurd trivial hk
  | .map v phys flags =>
    obtain ⟨Tag', ok, vmm, he, -, hkernel, hread, hrow, -⟩ := map_outcome h v phys flags
    simp only [Keeps, he, Classical.not_imp, SharesEntry, not_or] at hk
    obtain ⟨rfl, hcur, hp⟩ := hk
    simp only [step, he, Doomed, hkernel, hread]
    refine ⟨hcur, v, ?_, ?_⟩
    · rw [Function.update_self]
      rfl
    · rw [hrow _ hcur]
      simpa using hp

theorem not_mappingsHold_switchTo (h : TopsInv Tag s) (hd : s.Doomed) {r : UInt64}
    (hr : r ∈ s.tops) : ¬ (s.switchTo r).MappingsHold := by
  obtain ⟨-, v, hsome, hp⟩ := hd
  obtain ⟨-, hsame, hread, htarget⟩ := switchTo_outcome h hr
  obtain ⟨f, hf⟩ := Option.isSome_iff_exists.mp hsome
  intro hm
  have htrans := hm v f (by rw [hsame.reported]; exact hf)
  have habsent : ((s.switchTo r).vmm.mem r (pml4Index v.virt)).isPresent = false := by
    rw [htarget _ v.upper]
    exact hp
  rw [hread, translate_eq_resolve, path, resolve_of_absent (decode_absent habsent)] at htrans
  cases htrans

theorem doomed_map (h : TopsInv Tag s) (hd : s.Doomed) (v : UpperAddr) (phys flags : UInt64) :
    (s.step (.map v phys flags)).Doomed := by
  obtain ⟨Tag', ok, vmm, he, -, hkernel, hread, hrow, -⟩ := map_outcome h v phys flags
  obtain ⟨hcur, w, hsome, hp⟩ := hd
  have habsent : (vmm.mem vmm.kernelPml4 (pml4Index w.virt)).isPresent = false := by
    rw [hkernel, hrow _ hcur]
    exact hp
  have hcur' : vmm.readCr3 ≠ vmm.kernelPml4 := by
    rw [hread, hkernel]
    exact hcur
  simp only [step, he]
  cases ok with
  | false => exact ⟨hcur', w, hsome, habsent⟩
  | true =>
    refine ⟨hcur', w, ?_, habsent⟩
    show (Function.update s.reported (page v.virt) _ (page w.virt)).isSome
    by_cases hpage : page w.virt = page v.virt
    · rw [hpage, Function.update_self]
      rfl
    · rw [Function.update_of_ne hpage]
      exact hsome

theorem doomed_step (h : TopsInv Tag s) (hd : s.Doomed) (a : KernelOp) :
    (s.step a).Doomed ∨ ¬ (s.step a).MappingsHold := by
  match a with
  | .create =>
    obtain ⟨-, -, hsame, hread⟩ := create_outcome h
    exact .inl (doomed_of_bootSame hsame hread hd)
  | .map v phys flags => exact .inl (doomed_map h hd v phys flags)
  | .switch none => exact .inr (not_mappingsHold_switchTo h hd s.kernelPml4_mem_tops)
  | .switch (some space) =>
    simp only [step]
    cases hr : s.roots[space]? with
    | none => exact .inl hd
    | some r =>
      exact .inr (not_mappingsHold_switchTo h hd
        (List.mem_cons_of_mem _ (List.mem_of_getElem? hr)))

theorem not_always_of_doomed {as : List KernelOp} (hinv : ∃ Tag, TopsInv Tag s) (hd : s.Doomed) :
    ¬ Lib.Always step MappingsHold s (as ++ [.switch none]) := by
  induction as generalizing s with
  | nil =>
    obtain ⟨Tag, h⟩ := hinv
    exact fun hall => not_mappingsHold_switchTo h hd s.kernelPml4_mem_tops hall.2
  | cons a as ih =>
    rintro ⟨-, hall⟩
    obtain ⟨Tag, h⟩ := hinv
    rcases doomed_step h hd a with hd' | hlost
    · exact ih (topsInv_step ⟨Tag, h⟩ a) hd' hall
    · exact hlost hall.head

theorem eachStep_keeps_of_always {as : List KernelOp} (hinv : ∃ Tag, TopsInv Tag s)
    (hall : Lib.Always step MappingsHold s (as ++ [.switch none])) :
    Lib.EachStep step Keeps s as := by
  induction as generalizing s with
  | nil => trivial
  | cons a as ih =>
    obtain ⟨Tag, h⟩ := hinv
    have hinv' := topsInv_step ⟨Tag, h⟩ a
    have hk : s.Keeps a := by
      by_contra hk
      exact not_always_of_doomed hinv' (doomed_of_not_keeps h hk) hall.2
    exact ⟨hk, ih hinv' hall.2⟩

/-! ## Runs from boot -/

/-- What the boot loader is trusted with: the kernel half of the current table is a tree whose
tables are in use and different from the top-level table. -/
structure BootTree (vmm : Vmm σ) : Prop where
  nonzero : vmm.readCr3 ≠ 0
  used : ¬ FrameSource.Free vmm.frames vmm.readCr3
  tables : ∀ {i : Index} {p t}, 256 ≤ i.val →
    tableAt pageFormat vmm.mem 3 vmm.readCr3 (i :: p) = some t →
    ¬ FrameSource.Free vmm.frames t ∧ t ≠ vmm.readCr3
  tree : ∀ {i j : Index} {p q t}, 256 ≤ i.val → 256 ≤ j.val →
    tableAt pageFormat vmm.mem 3 vmm.readCr3 (i :: p) = some t →
    tableAt pageFormat vmm.mem 3 vmm.readCr3 (j :: q) = some t → i :: p = j :: q

def bootLabel (vmm : Vmm σ) (t : UInt64) : KernelOwner → Prop
  | .root r => t = vmm.readCr3 ∧ r = vmm.readCr3
  | .shared p => ∃ i q, p = i :: q ∧ 256 ≤ i.val ∧
      tableAt pageFormat vmm.mem 3 vmm.readCr3 p = some t

theorem tagged_bootLabel {vmm : Vmm σ} (h : BootTree vmm) :
    Tagged pageFormat kernelOwners vmm.mem (bootLabel vmm) where
  child := by
    intro t l i l' u ht hl' hu
    cases l with
    | root r =>
      obtain ⟨rfl, rfl⟩ := ht
      by_cases hi : 256 ≤ i.val
      · cases (sub_root _ hi).symm.trans hl'
        exact ⟨i, [], rfl, hi, tableAt_append (p := []) rfl hu⟩
      · cases (if_neg hi).symm.trans hl'
    | shared p =>
      obtain ⟨j, q, rfl, hj, hat⟩ := ht
      have hsub := hl'
      simp only [kernelOwners, KernelOwner.sub] at hsub
      split_ifs at hsub
      cases hsub
      exact ⟨j, q ++ [i], rfl, hj, tableAt_append hat hu⟩
  excl := by
    intro t l l' ht _ ht'
    cases l with
    | root r =>
      obtain ⟨rfl, rfl⟩ := ht
      cases l' with
      | root r' => rw [ht'.2]
      | shared p =>
        obtain ⟨j, q, rfl, hj, hat⟩ := ht'
        exact absurd rfl (h.tables hj hat).2
    | shared p =>
      obtain ⟨j, q, rfl, hj, hat⟩ := ht
      cases l' with
      | root r' => exact absurd ht'.1 (h.tables hj hat).2
      | shared p' =>
        obtain ⟨k, q', rfl, hk, hat'⟩ := ht'
        rw [h.tree hk hj hat' hat]

theorem labelled_bootLabel {vmm : Vmm σ} (h : BootTree vmm) :
    Labelled kernelOwners (bootLabel vmm) vmm where
  tagged := tagged_bootLabel h
  fresh := by
    intro f l hf ht
    cases l with
    | root r => exact h.used (ht.1 ▸ hf)
    | shared p =>
      obtain ⟨j, q, rfl, hj, hat⟩ := ht
      exact (h.tables hj hat).1 hf

theorem topsInv_start {vmm : Vmm σ} (h : BootTree vmm) : TopsInv (bootLabel vmm) (start vmm) := by
  have haligned : vmm.readCr3 &&& addrMask = vmm.readCr3 := by
    rw [Vmm.readCr3, UInt64.and_assoc, UInt64.and_self]
  have hmem : ∀ r ∈ (start vmm).tops, r = vmm.readCr3 := fun r hr => List.mem_singleton.mp hr
  obtain ⟨htagged, hfresh⟩ := labelled_bootLabel h
  refine ⟨⟨htagged, hfresh⟩, h.nonzero, ?_, ?_, List.mem_cons_self, fun _ _ _ => rfl⟩
  · exact fun r hr => ⟨hmem r hr, hmem r hr⟩
  · intro r hr
    rw [hmem r hr]
    exact haligned

/-- **Kernel mappings.** A run from boot, and any switch after it, has every reported kernel mapping
in the space that is current exactly when each successful mapping was made under the boot table
or below a top-level entry that the boot table has. -/
theorem mappingsHold_iff (vmm : Vmm σ) (as : List KernelOp) (hboot : BootTree vmm) :
    (∀ space, Lib.Always step MappingsHold (start vmm) (as ++ [.switch space])) ↔
      Lib.EachStep step Keeps (start vmm) as := by
  have hinv : ∃ Tag, TopsInv Tag (start vmm) := ⟨_, topsInv_start hboot⟩
  constructor
  · exact fun hall => eachStep_keeps_of_always hinv (hall none)
  · intro heach space
    have heach' : Lib.EachStep step Keeps (start vmm) (as ++ [.switch space]) :=
      (Lib.eachStep_append _ as _).mpr ⟨heach, trivial, trivial⟩
    have hmapped : (start vmm).BootMapped := fun v f hf => by cases hf
    have halways := Lib.always_of_eachStep (P := fun s => (∃ Tag, TopsInv Tag s) ∧ s.BootMapped)
      ⟨hinv, hmapped⟩ (fun s a h hk => ⟨topsInv_step h.1 a, bootMapped_step h.1 h.2 hk⟩) heach'
    exact halways.imp fun s h => by
      obtain ⟨⟨Tag, h⟩, hm⟩ := h
      exact mappingsHold_of_bootMapped h hm

theorem bootTree_emptyKernel : BootTree emptyKernel where
  nonzero := by decide
  used := fun hf => absurd hf.1 (by decide)
  tables := fun _ hat => by
    rw [tableAt_emptyKernel] at hat
    cases hat
  tree := fun _ _ hat _ => by
    rw [tableAt_emptyKernel] at hat
    cases hat

/-- A page in the last top-level entry. -/
def topPage : UpperAddr := ⟨0xFFFFFF8000000000, by decide⟩

def nextPage : UpperAddr := ⟨0xFFFFFF8000001000, by decide⟩

/-- A page mapped under the boot table and its neighbour mapped in a space. -/
theorem mappingsHold_iff_nextPage :
    Lib.EachStep step Keeps (start emptyKernel)
        [.create, .map topPage 0x5000 3, .switch (some 0), .map nextPage 0x6000 3] ∧
      Lib.Always step MappingsHold (start emptyKernel)
        ([.create, .map topPage 0x5000 3, .switch (some 0), .map nextPage 0x6000 3] ++
          [.switch none]) :=
  have heach : Lib.EachStep step Keeps (start emptyKernel)
      [.create, .map topPage 0x5000 3, .switch (some 0), .map nextPage 0x6000 3] := by
    decide +kernel
  ⟨heach, (mappingsHold_iff emptyKernel _ bootTree_emptyKernel).mpr heach none⟩

/-- A page mapped in a space, in a top-level entry that the boot table lacks, is gone when the
kernel switches back. -/
theorem not_mappingsHold_topPage :
    ¬ Lib.Always step MappingsHold (start emptyKernel)
      [.create, .switch (some 0), .map topPage 0x5000 3, .switch none] := by
  intro h
  have hlast := h.last topPage 0x5000 (by decide +kernel)
  cases hlast

end Kernel

end Aeterna.Mm
