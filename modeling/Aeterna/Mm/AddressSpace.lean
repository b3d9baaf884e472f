import Aeterna.Mm.MapPage

/-!
# Address spaces

Address spaces are created, mapped and unmapped in any order. The tables of their lower halves are
labelled by the space and the path that leads to them, and belong to it alone; the tables of the
kernel half are shared, and no call on a lower-half address writes them. A call on one space
therefore changes no translation of another.
-/

namespace Aeterna.Mm

open Lib.Radix

/-! ## Runs -/

/-- A virtual address of the user half: bit 47 is clear. -/
def LowerHalf (virt : UInt64) : Prop := (pml4Index virt).val < 256

instance (virt : UInt64) : Decidable (LowerHalf virt) :=
  inferInstanceAs (Decidable ((pml4Index virt).val < 256))

/-- The manager and the address spaces created so far. -/
structure Spaces (σ : Type) where
  vmm : Vmm σ
  roots : List UInt64

/-- A call; `space` counts the created address spaces. -/
inductive SpaceOp where
  | create
  | map (space : ℕ) (virt phys flags : UInt64)
  | unmap (space : ℕ) (virt : UInt64)
  deriving DecidableEq, Repr

def SpaceOp.target : SpaceOp → Option ℕ
  | .create => none
  | .map space _ _ _ => some space
  | .unmap space _ => some space

def SpaceOp.Lower : SpaceOp → Prop
  | .create => True
  | .map _ virt _ _ => LowerHalf virt
  | .unmap _ virt => LowerHalf virt

instance : (a : SpaceOp) → Decidable a.Lower
  | .create => inferInstanceAs (Decidable True)
  | .map _ virt _ _ => inferInstanceAs (Decidable (LowerHalf virt))
  | .unmap _ virt => inferInstanceAs (Decidable (LowerHalf virt))

namespace Spaces

variable {σ : Type} [FrameSource σ]

def step (s : Spaces σ) : SpaceOp → Spaces σ
  | .create =>
    match s.vmm.createAddressSpace with
    | (some r, vmm) => ⟨vmm, s.roots ++ [r]⟩
    | (none, vmm) => ⟨vmm, s.roots⟩
  | .map space virt phys flags =>
    match s.roots[space]? with
    | some r => ⟨(s.vmm.mapPage r virt phys flags).2, s.roots⟩
    | none => s
  | .unmap space virt =>
    match s.roots[space]? with
    | some r => ⟨(s.vmm.unmapPage r virt).2, s.roots⟩
    | none => s

/-- The state before the first address space. -/
def start (vmm : Vmm σ) : Spaces σ := ⟨vmm, []⟩

end Spaces

/-! ## Owners of tables -/

/-- The owner of a table: a user table of the space `r`, reached by the path `p`; a table of the
kernel half with `n` levels below it; or the top-level table that the kernel half is copied from. -/
inductive Owner where
  | user (r : UInt64) (p : List Index)
  | kernel (n : ℕ)
  | source
  deriving DecidableEq

def Owner.sub : Owner → Index → Option Owner
  | .user r [], i => if i.val < 256 then some (.user r [i]) else some (.kernel 2)
  | .user r p, i => if p.length < 3 then some (.user r (p ++ [i])) else none
  | .kernel (n + 1), _ => some (.kernel n)
  | .kernel 0, _ => none
  | .source, i => if i.val < 256 then none else some (.kernel 2)

def Owner.level : Owner → ℕ
  | .user _ p => 3 - p.length
  | .kernel n => n
  | .source => 3

/-- Only user tables have a single owner. -/
def owners : Scheme Index Owner where
  sub := Owner.sub
  level := Owner.level
  Excl
    | .user _ _ => True
    | _ => False
  level_sub := by
    intro l i l' h
    match l with
    | .user r [] =>
      simp only [Owner.sub] at h
      split_ifs at h <;> cases h <;> rfl
    | .user r (j :: p) =>
      simp only [Owner.sub] at h
      split_ifs at h with hp
      cases h
      simp only [Owner.level, List.length_append, List.length_singleton]
      omega
    | .kernel (n + 1) => cases h; rfl
    | .kernel 0 => cases h
    | .source =>
      simp only [Owner.sub] at h
      split_ifs at h
      cases h
      rfl

theorem sub_root_lower (r : UInt64) {i : Index} (h : i.val < 256) :
    owners.sub (.user r []) i = some (.user r [i]) := if_pos h

theorem sub_root_upper (r : UInt64) {i : Index} (h : ¬ i.val < 256) :
    owners.sub (.user r []) i = some (.kernel 2) := if_neg h

theorem sub_user (r : UInt64) (j : Index) (p : List Index) (i : Index) :
    owners.sub (.user r (j :: p)) i =
      if (j :: p).length < 3 then some (.user r (j :: p ++ [i])) else none := rfl

theorem pathLabels_user (r : UInt64) {virt : UInt64} (h : LowerHalf virt) :
    PathLabels owners (.user r []) virt
      (.user r [pml4Index virt, pdptIndex virt, pdIndex virt]) where
  level := rfl
  exclRoot := trivial
  below := ⟨.user r [pml4Index virt], .user r [pml4Index virt, pdptIndex virt],
    sub_root_lower r h, rfl, rfl, trivial, trivial, trivial⟩

theorem tracks_kernel : ∀ {n : ℕ} {is : List Index}, is.length = n + 1 →
    owners.Tracks (.kernel n) is
  | n, i :: is, h => by
    refine ⟨?_, fun hnil => ?_⟩
    · exact (Nat.succ.inj h).symm
    · match n, is with
      | 0, [] => exact absurd rfl hnil
      | n + 1, is => exact ⟨.kernel n, rfl, tracks_kernel (Nat.succ.inj h)⟩

theorem tracks_user (r virt : UInt64) : owners.Tracks (.user r []) (path virt) := by
  refine ⟨rfl, fun _ => ?_⟩
  by_cases h : LowerHalf virt
  · refine ⟨.user r [pml4Index virt], sub_root_lower r h, rfl, fun _ => ?_⟩
    refine ⟨.user r [pml4Index virt, pdptIndex virt], rfl, rfl, fun _ => ?_⟩
    exact ⟨.user r [pml4Index virt, pdptIndex virt, pdIndex virt], rfl, rfl,
      fun hc => absurd rfl hc⟩
  · exact ⟨.kernel 2, sub_root_upper r h, tracks_kernel rfl⟩

theorem follow_user_eq {r r' : UInt64} {pre p : List Index}
    (h : owners.follow (.user r []) pre = some (.user r' p)) : r' = r ∧ p = pre := by
  have hkernel : ∀ (n : ℕ) (is : List Index), owners.follow (.kernel n) is ≠ some (.user r' p) := by
    intro n is
    induction is generalizing n with
    | nil => intro hc; cases hc
    | cons j is ih =>
      cases n with
      | zero => intro hc; cases hc
      | succ n => exact fun hc => ih n hc
  have huser : ∀ (k : Index) (q is : List Index),
      owners.follow (.user r (k :: q)) is = some (.user r' p) → r' = r ∧ p = k :: q ++ is := by
    intro k q is
    induction is generalizing q with
    | nil =>
      intro hf
      cases hf
      exact ⟨rfl, (List.append_nil _).symm⟩
    | cons j is ih =>
      intro hf
      rw [Scheme.follow, sub_user] at hf
      split_ifs at hf with hlen
      · obtain ⟨hr, hp⟩ := ih (q ++ [j]) hf
        exact ⟨hr, by rw [hp]; simp⟩
      · cases hf
  cases pre with
  | nil =>
    cases h
    exact ⟨rfl, rfl⟩
  | cons j pre =>
    by_cases hj : j.val < 256
    · rw [owners.follow_cons (sub_root_lower r hj)] at h
      exact huser j [] pre h
    · rw [owners.follow_cons (sub_root_upper r hj)] at h
      exact absurd h (hkernel 2 pre)

/-! ## The invariant of runs -/

variable {σ : Type} {s : Spaces σ} {Tag : UInt64 → Owner → Prop}

/-- The two states agree on every walk of every space, but for the page of `virt` in `r`. -/
def WalksExcept (r virt : UInt64) (s s' : Spaces σ) : Prop :=
  ∀ r' ∈ s.roots, ∀ w, ¬ (r' = r ∧ page w = page virt) →
    resolve pageFormat s'.vmm.mem r' (path w) = resolve pageFormat s.vmm.mem r' (path w)

theorem translate_of_walksExcept {s' : Spaces σ} {r virt : UInt64} (h : WalksExcept r virt s s')
    (hv : LowerHalf virt) {r' w : UInt64} (hr' : r' ∈ s.roots) (hne : r ≠ r' ∨ ¬ LowerHalf w) :
    translate s'.vmm.mem r' w = translate s.vmm.mem r' w := by
  rw [translate_eq_resolve, translate_eq_resolve, h r' hr' w]
  rintro ⟨rfl, hpage⟩
  rcases hne with hne | hw
  · exact hne rfl
  · have hindex := (List.cons.inj (path_eq_iff.mpr hpage)).1
    exact hw (by rw [LowerHalf, hindex]; exact hv)

variable [FrameSource σ]

/-- Between two calls: the tables have owners, every created space is its own, and user tables hold
no huge pages. -/
structure SpacesInv (Tag : UInt64 → Owner → Prop) (s : Spaces σ) : Prop where
  labelled : Labelled owners Tag s.vmm
  roots : ∀ r ∈ s.roots, Tag r (.user r [])
  source : Tag s.vmm.kernelSource .source
  plain : ∀ {t r p} i e, Tag t (.user r p) → p.length < 3 →
    pageFormat.decode (3 - p.length) (s.vmm.mem t i) ≠ .leaf e

theorem plain_of_grows {Tag' : UInt64 → Owner → Prop} {vmm : Vmm σ} (h : SpacesInv Tag s)
    (hg : Grows owners Tag s.vmm Tag' vmm) {t r : UInt64} {p : List Index} (i : Index)
    (e : PageTableEntry) (ht : Tag' t (.user r p)) (hp : p.length < 3) :
    pageFormat.decode (3 - p.length) (vmm.mem t i) ≠ .leaf e := by
  rcases hg.entry i ht with ⟨ht', he⟩ | he | ⟨f, hf, he⟩ <;> rw [he]
  · exact h.plain i e ht' hp
  · exact fun hc => by cases hc
  · rw [decode_tableEntry hf (by omega)]
    exact fun hc => by cases hc

theorem spacesInv_grows {Tag' : UInt64 → Owner → Prop} {vmm : Vmm σ} (h : SpacesInv Tag s)
    (hg : Grows owners Tag s.vmm Tag' vmm) : SpacesInv Tag' ⟨vmm, s.roots⟩ where
  labelled := hg.labelled
  roots r hr := hg.mono (h.roots r hr)
  source := by
    have hsource : vmm.kernelSource = s.vmm.kernelSource := by
      rw [Vmm.kernelSource, Vmm.kernelSource, Vmm.readCr3, Vmm.readCr3, hg.cr3, hg.kernelPml4]
    rw [hsource]
    exact hg.mono h.source
  plain i e ht hp := plain_of_grows h hg i e ht hp

theorem walks_grows {Tag' : UInt64 → Owner → Prop} {vmm : Vmm σ} (h : SpacesInv Tag s)
    (hg : Grows owners Tag s.vmm Tag' vmm) {r : UInt64} (hr : r ∈ s.roots) (w : UInt64) :
    resolve pageFormat vmm.mem r (path w) = resolve pageFormat s.vmm.mem r (path w) :=
  hg.walks (h.roots r hr) (tracks_user r w)

theorem walks_setLeaf {vmm : Vmm σ} (h : Labelled owners Tag vmm) {r r' virt w pt : UInt64}
    (hpt : Tag pt (.user r [pml4Index virt, pdptIndex virt, pdIndex virt]))
    (hr' : Tag r' (.user r' [])) (hne : ¬ (r' = r ∧ page w = page virt)) (e : PageTableEntry) :
    resolve pageFormat (vmm.setEntry pt (ptIndex virt) e).mem r' (path w) =
      resolve pageFormat vmm.mem r' (path w) := by
  refine resolve_setLeaf_of_ne h hpt trivial hr' (tracks_user r' w) (fun pre post hp hf => ?_) e
  obtain ⟨rfl, hpre⟩ := follow_user_eq hf
  rw [← hpre] at hp
  exact hne ⟨rfl, page_eq_of_path hp⟩

theorem leaf_outcome (h : SpacesInv Tag s) {r virt pt : UInt64}
    (hpt : Tag pt (.user r [pml4Index virt, pdptIndex virt, pdIndex virt])) (e : PageTableEntry) :
    SpacesInv Tag ⟨s.vmm.setEntry pt (ptIndex virt) e, s.roots⟩ ∧
      WalksExcept r virt s ⟨s.vmm.setEntry pt (ptIndex virt) e, s.roots⟩ := by
  refine ⟨⟨labelled_setLeaf h.labelled hpt trivial rfl _ e, h.roots, h.source, ?_⟩, ?_⟩
  · intro t r' p i e' ht hp
    have hne : t ≠ pt := by
      rintro rfl
      cases h.labelled.tagged.excl hpt trivial ht
      exact absurd hp (by simp)
    have hsame : (s.vmm.setEntry pt (ptIndex virt) e).mem t i = s.vmm.mem t i :=
      setEntry_of_ne (fun hc => hne hc.1) e
    rw [hsame]
    exact h.plain i e' ht hp
  · exact fun r' hr' w hne => walks_setLeaf h.labelled hpt (h.roots r' hr') hne e

/-- What `map_page` on a lower-half address of a created space does. -/
theorem map_outcome (h : SpacesInv Tag s) {r virt : UInt64} (hr : r ∈ s.roots)
    (hv : LowerHalf virt) (phys flags : UInt64) :
    ∃ Tag', SpacesInv Tag' ⟨(s.vmm.mapPage r virt phys flags).2, s.roots⟩ ∧
      WalksExcept r virt s ⟨(s.vmm.mapPage r virt phys flags).2, s.roots⟩ ∧
      resolve pageFormat (s.vmm.mapPage r virt phys flags).2.mem r (path virt) =
        if (s.vmm.mapPage r virt phys flags).1 then
          some (0, .mk phys (flags ||| flagPresent))
        else resolve pageFormat s.vmm.mem r (path virt) := by
  obtain ⟨Tag', vmm, hg, -, hout⟩ :=
    mapPage_spec h.labelled (h.roots r hr) (pathLabels_user r hv) phys flags
  have hinv := spacesInv_grows h hg
  rcases hout with he | ⟨pt, hpt, hreach, he⟩ <;> rw [he]
  · exact ⟨Tag', hinv, fun r' hr' w _ => walks_grows h hg hr' w, walks_grows h hg hr virt⟩
  · obtain ⟨hinv', hwalks⟩ := leaf_outcome hinv hpt (.mk phys (flags ||| flagPresent))
    refine ⟨Tag', hinv', fun r' hr' w hne => ?_, ?_⟩
    · rw [hwalks r' hr' w hne]
      exact walks_grows h hg hr' w
    · refine (resolve_setLeaf hreach _).trans ?_
      rw [PageTableEntry.isPresent_mk]
      rfl

/-- Only the last level of the user half maps pages. -/
theorem level_of_resolve (h : SpacesInv Tag s) {t r : UInt64} {p is : List Index} {n : ℕ}
    {e : PageTableEntry} (ht : Tag t (.user r p)) (hlen : p.length + is.length = 4)
    (hlow : ∀ i, (p ++ is).head? = some i → i.val < 256)
    (hres : resolve pageFormat s.vmm.mem t is = some (n, e)) : n = 0 := by
  induction is generalizing t p with
  | nil => cases hres
  | cons i is ih =>
    rw [List.length_cons] at hlen
    by_cases hlast : is = []
    · subst hlast
      rw [resolve] at hres
      cases hd : pageFormat.decode 0 (s.vmm.mem t i) with
      | absent => simp [hd] at hres
      | table u => simp [hd] at hres
      | leaf e' =>
        simp only [List.length_nil, hd, Option.some.injEq, Prod.mk.injEq] at hres
        exact hres.1.symm
    · have hpos := List.length_pos_of_ne_nil hlast
      have hsub : owners.sub (.user r p) i = some (.user r (p ++ [i])) := by
        cases p with
        | nil => exact sub_root_lower r (hlow i rfl)
        | cons j p => rw [sub_user, if_pos (by omega)]
      have hlevel : is.length = 3 - p.length := by omega
      cases hd : pageFormat.decode is.length (s.vmm.mem t i) with
      | absent =>
        rw [resolve_of_absent hd] at hres
        cases hres
      | leaf e' => exact absurd (hlevel ▸ hd) (h.plain i e' ht (by omega))
      | table u =>
        rw [resolve_of_table hd] at hres
        refine ih (h.labelled.tagged.child ht hsub ?_) ?_ ?_ hres
        · rw [hlevel] at hd
          exact hd
        · rw [List.length_append, List.length_singleton]
          omega
        · simpa using hlow

theorem unmap_outcome (h : SpacesInv Tag s) {r virt : UInt64} (hr : r ∈ s.roots)
    (hv : LowerHalf virt) :
    SpacesInv Tag ⟨(s.vmm.unmapPage r virt).2, s.roots⟩ ∧
      WalksExcept r virt s ⟨(s.vmm.unmapPage r virt).2, s.roots⟩ ∧
      resolve pageFormat (s.vmm.unmapPage r virt).2.mem r (path virt) = none ∧
      (s.vmm.unmapPage r virt).1 =
        (resolve pageFormat s.vmm.mem r (path virt)).map fun found => found.2.addr := by
  rcases unmapPage_spec h.labelled (h.roots r hr) (pathLabels_user r hv) with
    ⟨he, hnone⟩ | ⟨pt, e, hpt, hreach, hres, he⟩ <;> rw [he]
  · have hres : resolve pageFormat s.vmm.mem r (path virt) = none := by
      rcases hres : resolve pageFormat s.vmm.mem r (path virt) with _ | ⟨n, e⟩
      · rfl
      · have hn := level_of_resolve h (h.roots r hr) rfl (fun i hi => by cases hi; exact hv) hres
        exact absurd (hn ▸ hres) (hnone e)
    rw [hres]
    exact ⟨h, fun _ _ _ _ => rfl, rfl, rfl⟩
  · obtain ⟨hinv, hwalks⟩ := leaf_outcome h hpt 0
    refine ⟨hinv, hwalks, ?_, by rw [hres]; rfl⟩
    refine (resolve_setLeaf hreach _).trans ?_
    rfl

/-- What `create_address_space` does: an address space with an empty user half and the kernel half
of the source, and no change to the others. -/
theorem create_outcome (h : SpacesInv Tag s) :
    (∃ vmm, s.vmm.createAddressSpace = (none, vmm) ∧ SpacesInv Tag ⟨vmm, s.roots⟩ ∧
      vmm.mem = s.vmm.mem) ∨
    (∃ r vmm, s.vmm.createAddressSpace = (some r, vmm) ∧ r ∉ s.roots ∧
      SpacesInv (withTag Tag r (.user r [])) ⟨vmm, s.roots ++ [r]⟩ ∧
      (∀ r' ∈ s.roots, ∀ w, resolve pageFormat vmm.mem r' (path w) =
        resolve pageFormat s.vmm.mem r' (path w)) ∧
      (∀ w, resolve pageFormat vmm.mem r (path w) = if LowerHalf w then none else
        resolve pageFormat s.vmm.mem s.vmm.kernelSource (path w))) := by
  have hsource : ¬ FrameSource.Free s.vmm.frames s.vmm.kernelSource :=
    fun hf => h.labelled.fresh hf h.source
  rcases createAddressSpace_cases hsource with ⟨frames, he, hfree⟩ | ⟨f, frames, he, hf, hnf, hfree⟩
  · exact .inl ⟨_, he, ⟨labelled_frames h.labelled hfree, h.roots, h.source, h.plain⟩, rfl⟩
  have hfresh : ∀ l, ¬ Tag f l := fun l => h.labelled.fresh hf
  have hchild : ∀ {i u}, ¬ i.val < 256 →
      pageFormat.decode 3 (s.vmm.mem s.vmm.kernelSource i) = .table u → Tag u (.kernel 2) :=
    fun hi hu => h.labelled.tagged.child h.source (if_neg hi) hu
  have hfill := h.labelled.tagged.fill hfresh (.user f [])
    (Vmm.copyUpper emptyTable (s.vmm.mem s.vmm.kernelSource)) fun {i l' u} hl' hu => by
      by_cases hi : i.val < 256
      · rw [Vmm.copyUpper, if_neg (by omega), emptyTable] at hu
        cases hu
      · rw [sub_root_upper f hi] at hl'
        cases hl'
        rw [Vmm.copyUpper, if_pos (by omega)] at hu
        exact hchild hi hu
  refine .inr ⟨f, _, he, fun hc => hfresh _ (h.roots f hc),
    ⟨⟨hfill, not_withTag_of_free h.labelled hnf hfree⟩, ?_, ?_, ?_⟩, ?_, ?_⟩
  · intro r hr
    rcases List.mem_append.mp hr with hr | hr
    · exact withTag_of_tag (h.roots r hr)
    · rw [List.mem_singleton.mp hr]
      exact withTag_self f _
  · exact withTag_of_tag h.source
  · rintro t r p i e (ht | ⟨rfl, hm⟩) hp
    · have hne : t ≠ f := fun hc => hfresh _ (hc ▸ ht)
      simp only [setRow_of_ne hne]
      exact h.plain i e ht hp
    · cases hm
      exact decode_top_ne_leaf
  · exact fun r hr w => h.labelled.tagged.resolve_fill hfresh (h.roots r hr) (tracks_user r w)
  · intro w
    split_ifs with hw
    · have hentry : PageTableEntry.isPresent (setRow s.vmm.mem f (Vmm.copyUpper emptyTable
          (s.vmm.mem s.vmm.kernelSource)) f (pml4Index w)) = false := by
        rw [setRow_self, Vmm.copyUpper, if_neg (Nat.not_le.mpr hw)]
        exact PageTableEntry.isPresent_zero
      exact resolve_of_absent (decode_absent hentry)
    · have hentry : setRow s.vmm.mem f (Vmm.copyUpper emptyTable (s.vmm.mem s.vmm.kernelSource)) f
          (pml4Index w) = s.vmm.mem s.vmm.kernelSource (pml4Index w) := by
        rw [setRow_self, Vmm.copyUpper, if_pos (Nat.le_of_not_lt hw)]
      refine resolve_cons_congr hentry fun u hu => ?_
      exact h.labelled.tagged.resolve_fill hfresh (hchild hw hu) (tracks_kernel rfl)

/-! ## Isolation -/

/-- The tables that the boot loader left in use: no frame of the kernel half is free. -/
structure BootTables (vmm : Vmm σ) : Prop where
  source : ¬ FrameSource.Free vmm.frames vmm.kernelSource
  tables : ∀ {i p t}, ¬ i.val < 256 →
    tableAt pageFormat vmm.mem 3 vmm.kernelSource (i :: p) = some t →
    ¬ FrameSource.Free vmm.frames t

/-- The owners at boot: the tables that the kernel half reaches. -/
def bootTag (vmm : Vmm σ) : UInt64 → Owner → Prop
  | _, .user _ _ => False
  | t, .kernel n => ∃ i p, ¬ i.val < 256 ∧ p.length + n = 2 ∧
      tableAt pageFormat vmm.mem 3 vmm.kernelSource (i :: p) = some t
  | t, .source => t = vmm.kernelSource

theorem tagged_bootTag {τ : Type} (vmm : Vmm τ) :
    Tagged pageFormat owners vmm.mem (bootTag vmm) where
  child := by
    intro t l i l' u ht hl' hu
    match l with
    | .user _ _ => exact ht.elim
    | .kernel 0 => cases hl'
    | .kernel (n + 1) =>
      cases hl'
      obtain ⟨j, p, hj, hlen, hat⟩ := ht
      refine ⟨j, p ++ [i], hj, by rw [List.length_append, List.length_singleton]; omega, ?_⟩
      refine tableAt_append hat ?_
      rw [List.length_cons, show 3 - (p.length + 1) = n + 1 by omega]
      exact hu
    | .source =>
      cases ht
      by_cases hi : i.val < 256
      · cases (if_pos hi).symm.trans hl'
      · cases (if_neg hi).symm.trans hl'
        exact ⟨i, [], hi, rfl, tableAt_append (p := []) rfl hu⟩
  excl := by
    intro t l l' ht hx _
    match l with
    | .user _ _ => exact ht.elim
    | .kernel _ => exact hx.elim
    | .source => exact hx.elim

theorem labelled_bootTag {vmm : Vmm σ} (h : BootTables vmm) :
    Labelled owners (bootTag vmm) vmm where
  tagged := tagged_bootTag vmm
  fresh := by
    intro f l hf ht
    match l with
    | .user _ _ => exact ht
    | .kernel n =>
      obtain ⟨i, p, hi, -, hat⟩ := ht
      exact h.tables hi hat hf
    | .source =>
      cases ht
      exact h.source hf

theorem spacesInv_start {vmm : Vmm σ} (h : BootTables vmm) :
    SpacesInv (bootTag vmm) (Spaces.start vmm) where
  labelled := labelled_bootTag h
  roots := fun _ hr => by cases hr
  source := rfl
  plain := fun _ _ ht => ht.elim

theorem spacesInv_step (h : ∃ Tag, SpacesInv Tag s) {a : SpaceOp} (ha : a.Lower) :
    ∃ Tag, SpacesInv Tag (s.step a) := by
  obtain ⟨Tag, h⟩ := h
  cases a with
  | create =>
    simp only [Spaces.step]
    rcases create_outcome h with ⟨vmm, he, hinv, -⟩ | ⟨r, vmm, he, -, hinv, -⟩ <;> rw [he]
    · exact ⟨Tag, hinv⟩
    · exact ⟨_, hinv⟩
  | map space virt phys flags =>
    simp only [Spaces.step]
    cases hr : s.roots[space]? with
    | none => exact ⟨Tag, h⟩
    | some r =>
      obtain ⟨Tag', hinv, -⟩ := map_outcome h (List.mem_of_getElem? hr) ha phys flags
      exact ⟨Tag', hinv⟩
  | unmap space virt =>
    simp only [Spaces.step]
    cases hr : s.roots[space]? with
    | none => exact ⟨Tag, h⟩
    | some r => exact ⟨Tag, (unmap_outcome h (List.mem_of_getElem? hr) ha).1⟩

/-- The call changes no translation of a lower-half address in a space that it does not name, and
no translation of an upper-half address. -/
def Isolated (s : Spaces σ) (a : SpaceOp) : Prop :=
  ∀ r ∈ s.roots, ∀ w, (a.target.bind fun k => s.roots[k]?) ≠ some r ∨ ¬ LowerHalf w →
    translate (s.step a).vmm.mem r w = translate s.vmm.mem r w

theorem isolated_step (h : ∃ Tag, SpacesInv Tag s) {a : SpaceOp} (ha : a.Lower) :
    Isolated s a := by
  obtain ⟨Tag, h⟩ := h
  intro r hr w hne
  cases a with
  | create =>
    simp only [Spaces.step]
    rcases create_outcome h with ⟨vmm, he, -, hmem⟩ | ⟨r', vmm, he, -, -, hwalks, -⟩ <;> rw [he]
    · simp only [hmem]
    · rw [translate_eq_resolve, translate_eq_resolve, hwalks r hr w]
  | map space virt phys flags =>
    simp only [SpaceOp.target, Option.bind_some, Spaces.step] at hne ⊢
    cases hr' : s.roots[space]? with
    | none => rfl
    | some r' =>
      obtain ⟨-, -, hwalks, -⟩ := map_outcome h (List.mem_of_getElem? hr') ha phys flags
      rw [hr'] at hne
      exact translate_of_walksExcept hwalks ha hr (hne.imp_left fun hc he => hc (congrArg some he))
  | unmap space virt =>
    simp only [SpaceOp.target, Option.bind_some, Spaces.step] at hne ⊢
    cases hr' : s.roots[space]? with
    | none => rfl
    | some r' =>
      obtain ⟨-, hwalks, -⟩ := unmap_outcome h (List.mem_of_getElem? hr') ha
      rw [hr'] at hne
      exact translate_of_walksExcept hwalks ha hr (hne.imp_left fun hc he => hc (congrArg some he))

/-- **Isolation.** In every run of calls on lower-half addresses of created address spaces, with any
physical addresses and flags, no call changes what another space or the kernel half sees. -/
theorem isolated_run (vmm : Vmm σ) (as : List SpaceOp) (hboot : BootTables vmm)
    (has : ∀ a ∈ as, a.Lower) : Lib.EachStep Spaces.step Isolated (Spaces.start vmm) as := by
  apply Lib.eachStep_of_eachStep (P := fun s : Spaces σ => ∃ Tag, SpacesInv Tag s)
  · exact ⟨_, spacesInv_start hboot⟩
  · exact fun s a h ha => spacesInv_step h ha
  · exact fun s a h ha => isolated_step h ha
  · exact Lib.eachStep_of_forall_mem has

/-- A kernel with an empty top-level table at `0x1000` and sixteen free frames above 1 MiB. -/
def emptyKernel : Vmm Allocator where
  mem := fun _ _ => 0
  frames :=
    { pmm := Pmm.boot.init (some [⟨0x100000, 0x10000, 0⟩])
      paged := ⟨by decide, by decide⟩
      next_le := by decide
      stop_le := by decide }
  cr3 := 0x1000
  kernelPml4 := 0x1000

theorem tableAt_emptyKernel (r : UInt64) (i : Index) (p : List Index) :
    tableAt pageFormat emptyKernel.mem 3 r (i :: p) = none := by
  have hentry : pageFormat.decode 3 (emptyKernel.mem r i) = .absent :=
    decode_absent PageTableEntry.isPresent_zero
  rw [tableAt, hentry]

theorem bootTables_emptyKernel : BootTables emptyKernel where
  source := fun hf => absurd hf.1 (by decide)
  tables := fun _ hat => by
    rw [tableAt_emptyKernel] at hat
    cases hat

/-- Two spaces map the same page to different frames, and the first unmaps it. -/
def twoSpaces : List SpaceOp :=
  [.create, .create, .map 0 0x400000 0x5000 7, .map 1 0x400000 0x6000 7, .unmap 0 0x400000]

theorem isolated_run_twoSpaces :
    translate (Lib.run Spaces.step (Spaces.start emptyKernel) twoSpaces).vmm.mem 0x101000 0x400123 =
        some 0x6123 ∧
      Lib.EachStep Spaces.step Isolated (Spaces.start emptyKernel) twoSpaces :=
  ⟨by decide +kernel, isolated_run emptyKernel twoSpaces bootTables_emptyKernel (by decide)⟩

end Aeterna.Mm
