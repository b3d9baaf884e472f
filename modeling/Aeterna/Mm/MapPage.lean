import Aeterna.Mm.PageTable

/-!
# What mapping and unmapping do to the tables

Over a labelling of the tables in use, `ensureTable` may only grow the tree by empty tables
(`Grows`), which changes no walk; `mapPage` and `unmapPage` in addition write one leaf. The
specifications hold for any labelling scheme whose labels along the path of the address are
exclusive, so the user half and the kernel half share them.
-/

namespace Aeterna.Mm

open Lib.Radix

variable {σ : Type} [FrameSource σ] {L : Type} {S : Scheme Index L} {Tag Tag' : UInt64 → L → Prop}
  {s s' : Vmm σ}

/-- The labelling fits the memory, and no labelled table is free. -/
structure Labelled (S : Scheme Index L) (Tag : UInt64 → L → Prop) (s : Vmm σ) : Prop where
  tagged : Tagged pageFormat S s.mem Tag
  fresh : ∀ {f l}, FrameSource.Free s.frames f → ¬ Tag f l

def tableEntry (f : UInt64) : PageTableEntry := .mk f (flagPresent ||| flagWritable ||| flagUser)

def IsTableEntry (e : PageTableEntry) : Prop := ∃ f, f &&& addrMask = f ∧ e = tableEntry f

/-- The tree has grown by empty tables only. -/
structure Grows (S : Scheme Index L) (Tag : UInt64 → L → Prop) (s : Vmm σ) (Tag' : UInt64 → L → Prop)
    (s' : Vmm σ) : Prop where
  mono : ∀ {t l}, Tag t l → Tag' t l
  labelled : Labelled S Tag' s'
  walks : ∀ {t l is}, Tag t l → S.Tracks l is →
    resolve pageFormat s'.mem t is = resolve pageFormat s.mem t is
  keep : ∀ {t l i}, Tag t l → (s.mem t i).isPresent = true → s'.mem t i = s.mem t i
  entry : ∀ {t l} i, Tag' t l →
    (Tag t l ∧ s'.mem t i = s.mem t i) ∨ s'.mem t i = 0 ∨ IsTableEntry (s'.mem t i)
  cr3 : s'.cr3 = s.cr3
  kernelPml4 : s'.kernelPml4 = s.kernelPml4

theorem Grows.refl (h : Labelled S Tag s) : Grows S Tag s Tag s where
  mono := id
  labelled := h
  walks _ _ := rfl
  keep _ _ := rfl
  entry _ ht := .inl ⟨ht, rfl⟩
  cr3 := rfl
  kernelPml4 := rfl

theorem Grows.trans {Tag₁ Tag₂ Tag₃ : UInt64 → L → Prop} {s₁ s₂ s₃ : Vmm σ}
    (h : Grows S Tag₁ s₁ Tag₂ s₂) (h' : Grows S Tag₂ s₂ Tag₃ s₃) : Grows S Tag₁ s₁ Tag₃ s₃ where
  mono ht := h'.mono (h.mono ht)
  labelled := h'.labelled
  walks ht his := (h'.walks (h.mono ht) his).trans (h.walks ht his)
  keep ht hp := by
    have he := h.keep ht hp
    rw [h'.keep (h.mono ht) (he ▸ hp), he]
  entry i ht := by
    rcases h'.entry i ht with ⟨ht₂, he⟩ | hz
    · rw [he]
      exact h.entry i ht₂
    · exact .inr hz
  cr3 := h'.cr3.trans h.cr3
  kernelPml4 := h'.kernelPml4.trans h.kernelPml4

/-! ## Allocating tables -/

/-- `alloc_table_frame` fails, or empties a frame that no label covers. -/
theorem allocTableFrame_cases (s : Vmm σ) :
    (∃ frames, s.allocTableFrame = (none, { s with frames := frames }) ∧
      ∀ {g}, FrameSource.Free frames g → FrameSource.Free s.frames g) ∨
    (∃ f frames, s.allocTableFrame =
        (some f, { s with mem := setRow s.mem f emptyTable, frames := frames }) ∧
      FrameSource.Free s.frames f ∧ ¬ FrameSource.Free frames f ∧
      ∀ {g}, FrameSource.Free frames g → FrameSource.Free s.frames g) := by
  unfold Vmm.allocTableFrame
  rcases ha : FrameSource.allocFrame s.frames with ⟨_ | f, frames⟩
  · exact .inl ⟨frames, rfl, fun hg => FrameSource.free_of_free (by rw [ha]; exact hg)⟩
  · exact .inr ⟨f, frames, rfl, FrameSource.free_of_some ha, FrameSource.not_free_of_some ha,
      fun hg => FrameSource.free_of_free (by rw [ha]; exact hg)⟩

/-- `create_address_space` fails, or fills a fresh frame with the upper half of the source. -/
theorem createAddressSpace_cases (hs : ¬ FrameSource.Free s.frames s.kernelSource) :
    (∃ frames, s.createAddressSpace = (none, { s with frames := frames }) ∧
      ∀ {g}, FrameSource.Free frames g → FrameSource.Free s.frames g) ∨
    (∃ f frames, s.createAddressSpace = (some f, { s with
        mem := setRow s.mem f (Vmm.copyUpper emptyTable (s.mem s.kernelSource)),
        frames := frames }) ∧
      FrameSource.Free s.frames f ∧ ¬ FrameSource.Free frames f ∧
      ∀ {g}, FrameSource.Free frames g → FrameSource.Free s.frames g) := by
  unfold Vmm.createAddressSpace
  rcases allocTableFrame_cases s with ⟨frames, he, hfree⟩ | ⟨f, frames, he, hf, hnf, hfree⟩ <;>
    simp only [he]
  · exact .inl ⟨frames, rfl, hfree⟩
  · have hne : s.kernelSource ≠ f := fun hc => hs (hc ▸ hf)
    refine .inr ⟨f, frames, ?_, hf, hnf, hfree⟩
    -- the kernel source is read through the state in which the new table is still empty
    have hsource : Vmm.kernelSource { s with mem := setRow s.mem f emptyTable, frames := frames } =
        s.kernelSource := rfl
    rw [hsource, setRow_self, setRow_of_ne hne, setRow_setRow]

theorem labelled_frames (h : Labelled S Tag s) {frames : σ}
    (hf : ∀ {g}, FrameSource.Free frames g → FrameSource.Free s.frames g) :
    Labelled S Tag { s with frames := frames } :=
  ⟨h.tagged, fun hg => h.fresh (hf hg)⟩

/-- A frame that is taken may get a label. -/
theorem not_withTag_of_free (h : Labelled S Tag s) {frames : σ} {f : UInt64} {l : L}
    (hnf : ¬ FrameSource.Free frames f)
    (hfree : ∀ {g}, FrameSource.Free frames g → FrameSource.Free s.frames g) {g : UInt64} {m : L}
    (hg : FrameSource.Free frames g) : ¬ withTag Tag f l g m := by
  rintro (hm | ⟨rfl, rfl⟩)
  · exact h.fresh (hfree hg) hm
  · exact hnf hg

/-- The memory after entry `i` of `t` has been pointed to the empty table `f`. -/
def attach (mem : Memory) (t : UInt64) (i : Index) (f : UInt64) : Memory :=
  setEntry (setRow mem f emptyTable) t i (tableEntry f)

theorem decode_tableEntry {f : UInt64} {n : ℕ} (hf : f &&& addrMask = f) (hn : 0 < n ∧ n ≤ 3) :
    pageFormat.decode n (tableEntry f) = .table f := by
  obtain ⟨hpresent, hhuge, haddr⟩ := PageTableEntry.mk_table hf
  have hcases : n = 3 ∨ n = 1 ∨ n = 2 := by omega
  unfold tableEntry
  rcases hcases with rfl | h12
  · rw [decode_top hpresent, haddr]
  · rw [decode_middle h12 hpresent hhuge, haddr]

/-- A fresh table is attached at an absent entry: first the frame becomes an empty table of its own
label, then the entry points to it. -/
theorem grows_attach (h : Labelled S Tag s) {t f : UInt64} {l l' : L} {i : Index} {frames : σ}
    (ht : Tag t l) (hx : S.Excl l) (hl' : S.sub l i = some l') (hlevel : S.level l ≤ 3)
    (hp : (s.mem t i).isPresent = false) (hf : FrameSource.Free s.frames f)
    (hnf : ¬ FrameSource.Free frames f)
    (hfree : ∀ {g}, FrameSource.Free frames g → FrameSource.Free s.frames g) :
    Grows S Tag s (withTag Tag f l') { s with mem := attach s.mem t i f, frames := frames } := by
  have hfresh : ∀ m, ¬ Tag f m := fun m => h.fresh hf
  have hne : ∀ {u m}, Tag u m → u ≠ f := fun hu hc => hfresh _ (hc ▸ hu)
  have hlow := S.level_sub hl'
  have hdecode := decode_tableEntry (n := S.level l) (FrameSource.and_addrMask hf) (by omega)
  have hfill : Tagged pageFormat S (setRow s.mem f emptyTable) (withTag Tag f l') :=
    h.tagged.fill hfresh l' _ fun _ hu => by
      rw [emptyTable] at hu
      cases hu
  have hset : Tagged pageFormat S (attach s.mem t i f) (withTag Tag f l') := by
    refine hfill.set (withTag_of_tag ht) hx fun {m u} hm hu => ?_
    rw [hdecode] at hu
    cases hu
    rw [hl'] at hm
    cases hm
    exact withTag_self f l'
  exact
    { mono := withTag_of_tag
      labelled := ⟨hset, not_withTag_of_free h hnf hfree⟩
      walks := by
        intro u m is hu his
        refine (hfill.resolve_link (withTag_of_tag ht) hx (hne ht).symm ?_ hdecode (fun j => ?_)
          (withTag_of_tag hu) his).trans (h.tagged.resolve_fill hfresh hu his)
        · rw [setRow_of_ne (hne ht), decode_absent hp]
        · rw [setRow_self]
          rfl
      keep := by
        intro u m j hu hpu
        have hcell : ¬ (u = t ∧ j = i) := by
          rintro ⟨rfl, rfl⟩
          rw [hp] at hpu
          cases hpu
        simp only [attach]
        rw [setEntry_of_ne hcell, setRow_of_ne (hne hu)]
      entry := by
        intro u m j hu
        simp only [attach]
        by_cases hcell : u = t ∧ j = i
        · rw [hcell.1, hcell.2, setEntry_self]
          exact .inr (.inr ⟨f, FrameSource.and_addrMask hf, rfl⟩)
        · rw [setEntry_of_ne hcell]
          rcases hu with hu | ⟨rfl, rfl⟩
          · rw [setRow_of_ne (hne hu)]
            exact .inl ⟨hu, rfl⟩
          · rw [setRow_self]
            exact .inr (.inl rfl)
      cr3 := rfl
      kernelPml4 := rfl }

theorem ensureTable_spec (h : Labelled S Tag s) {t : UInt64} {l l' : L} {i : Index} (ht : Tag t l)
    (hx : S.Excl l) (hl' : S.sub l i = some l') (hlevel : S.level l ≤ 3) :
    ∃ Tag', Grows S Tag s Tag' (s.ensureTable t i).2 ∧
      ((s.ensureTable t i).1 = true → ((s.ensureTable t i).2.mem t i).isPresent = true) ∧
      ∀ {u m j}, Tag u m → ¬ (u = t ∧ j = i) → (s.ensureTable t i).2.mem u j = s.mem u j := by
  unfold Vmm.ensureTable
  cases hp : (s.mem t i).isPresent with
  | true => exact ⟨Tag, .refl h, fun _ => hp, fun _ _ => rfl⟩
  | false =>
    rcases allocTableFrame_cases s with ⟨frames, he, hfree⟩ | ⟨f, frames, he, hf, hnf, hfree⟩ <;>
      simp only [he]
    · refine ⟨Tag, ?_, (fun hc => by cases hc), fun _ _ => rfl⟩
      exact { Grows.refl h with labelled := labelled_frames h hfree }
    · refine ⟨withTag Tag f l', grows_attach h ht hx hl' hlevel hp hf hnf hfree, fun _ => ?_, ?_⟩
      · have hentry : attach s.mem t i f t i = tableEntry f := setEntry_self t i _
        show (attach s.mem t i f t i).isPresent = true
        rw [hentry]
        exact (PageTableEntry.mk_table (FrameSource.and_addrMask hf)).1
      · intro u m j hu hcell
        have hne : u ≠ f := fun hc => h.fresh hf (hc ▸ hu)
        show attach s.mem t i f u j = s.mem u j
        rw [attach, setEntry_of_ne hcell, setRow_of_ne hne]

/-! ## Mapping and unmapping -/

/-- The labels of the tables on the path of `virt` from a root labelled `l`: all of them exclusive,
`l₁` that of the page table. -/
structure PathLabels (S : Scheme Index L) (l : L) (virt : UInt64) (l₁ : L) : Prop where
  level : S.level l = 3
  exclRoot : S.Excl l
  below : ∃ l₃ l₂, S.sub l (pml4Index virt) = some l₃ ∧ S.sub l₃ (pdptIndex virt) = some l₂ ∧
    S.sub l₂ (pdIndex virt) = some l₁ ∧ S.Excl l₃ ∧ S.Excl l₂ ∧ S.Excl l₁

/-- The root `r` leads to the page table `pt` of `virt`, whatever is written in `pt`. -/
def Reaches (mem : Memory) (r virt pt : UInt64) : Prop :=
  ∀ mem' : Memory, (∀ t i, t ≠ pt → mem' t i = mem t i) →
    resolve pageFormat mem' r (path virt) = resolve pageFormat mem' pt [ptIndex virt]

theorem reaches_of_chain {mem : Memory} {r virt t₃ t₂ pt : UInt64}
    (h₄ : pageFormat.decode 3 (mem r (pml4Index virt)) = .table t₃)
    (h₃ : pageFormat.decode 2 (mem t₃ (pdptIndex virt)) = .table t₂)
    (h₂ : pageFormat.decode 1 (mem t₂ (pdIndex virt)) = .table pt)
    (hr : r ≠ pt) (ht₃ : t₃ ≠ pt) (ht₂ : t₂ ≠ pt) : Reaches mem r virt pt := by
  intro mem' hmem
  rw [path, resolve_of_table (u := t₃) (by rw [hmem _ _ hr]; exact h₄),
    resolve_of_table (u := t₂) (by rw [hmem _ _ ht₃]; exact h₃),
    resolve_of_table (u := pt) (by rw [hmem _ _ ht₂]; exact h₂)]

theorem ne_of_level (h : Labelled S Tag s) {t u : UInt64} {l m : L} (ht : Tag t l) (hu : Tag u m)
    (hx : S.Excl m) (hlevel : S.level l ≠ S.level m) : t ≠ u := by
  rintro rfl
  exact hlevel (congrArg S.level (h.tagged.excl hu hx ht))

/-- `map_page` grows the tree, writing at most one entry of a top-level table, and when it answers
true it has also written the leaf. -/
theorem mapPage_spec (h : Labelled S Tag s) {r virt : UInt64} {l l₁ : L} (hr : Tag r l)
    (hpath : PathLabels S l virt l₁) (phys flags : UInt64) :
    ∃ Tag' s₁, Grows S Tag s Tag' s₁ ∧
      (∀ {u m j}, Tag u m → S.level m = 3 → ¬ (u = r ∧ j = pml4Index virt) →
        s₁.mem u j = s.mem u j) ∧
      (s.mapPage r virt phys flags = (false, s₁) ∨
        ∃ pt, Tag' pt l₁ ∧ Reaches s₁.mem r virt pt ∧
          s.mapPage r virt phys flags =
            (true, s₁.setEntry pt (ptIndex virt) (.mk phys (flags ||| flagPresent)))) := by
  obtain ⟨hlevel, hxr, l₃, l₂, hl₃, hl₂, hl₁, hx₃, hx₂, hx₁⟩ := hpath
  have hlev₃ := S.level_sub hl₃
  have hlev₂ := S.level_sub hl₂
  have hlev₁ := S.level_sub hl₁
  unfold Vmm.mapPage
  obtain ⟨Tag₁, hg₁, hp₁, hf₁⟩ := ensureTable_spec h hr hxr hl₃ (by omega)
  rcases he₁ : s.ensureTable r (pml4Index virt) with ⟨_ | _, s₁⟩ <;> rw [he₁] at hg₁ hp₁ hf₁
  · exact ⟨Tag₁, s₁, hg₁, fun hu _ hne => hf₁ hu hne, .inl rfl⟩
  have hd₄ := decode_top (hp₁ rfl)
  have ht₃ : Tag₁ _ l₃ := hg₁.labelled.tagged.child (hg₁.mono hr) hl₃ (by rw [hlevel]; exact hd₄)
  simp only
  generalize (s₁.mem r (pml4Index virt)).addr = pdpt at hd₄ ht₃ ⊢
  obtain ⟨Tag₂, hg₂, hp₂, hf₂⟩ := ensureTable_spec hg₁.labelled ht₃ hx₃ hl₂ (by omega)
  rcases he₂ : s₁.ensureTable pdpt (pdptIndex virt) with ⟨_ | _, s₂⟩ <;>
    rw [he₂] at hg₂ hp₂ hf₂
  all_goals
    -- the tables below the root have lower levels than any top-level table
    have htop₂ : ∀ {u m j}, Tag u m → S.level m = 3 → ¬ (u = r ∧ j = pml4Index virt) →
        s₂.mem u j = s.mem u j := fun hu hm hne => by
      have hut := ne_of_level hg₁.labelled (hg₁.mono hu) ht₃ hx₃ (by omega)
      rw [hf₂ (hg₁.mono hu) fun hc => hut hc.1, hf₁ hu hne]
  · exact ⟨Tag₂, s₂, hg₁.trans hg₂, htop₂, .inl rfl⟩
  simp only
  cases hh₃ : (s₂.mem pdpt (pdptIndex virt)).isHuge with
  | true => exact ⟨Tag₂, s₂, hg₁.trans hg₂, htop₂, .inl rfl⟩
  | false =>
  have hd₃ := decode_middle (.inr rfl) (hp₂ rfl) hh₃
  have ht₂ : Tag₂ _ l₂ := hg₂.labelled.tagged.child (hg₂.mono ht₃) hl₂
    (by rw [show S.level l₃ = 2 by omega]; exact hd₃)
  generalize (s₂.mem pdpt (pdptIndex virt)).addr = pd at hd₃ ht₂ ⊢
  obtain ⟨Tag₃, hg₃, hp₃, hf₃⟩ := ensureTable_spec hg₂.labelled ht₂ hx₂ hl₁ (by omega)
  rcases he₃ : s₂.ensureTable pd (pdIndex virt) with ⟨_ | _, s₃⟩ <;>
    rw [he₃] at hg₃ hp₃ hf₃
  all_goals
    have htop₃ : ∀ {u m j}, Tag u m → S.level m = 3 → ¬ (u = r ∧ j = pml4Index virt) →
        s₃.mem u j = s.mem u j := fun hu hm hne => by
      have hu₂ := hg₂.mono (hg₁.mono hu)
      have hut := ne_of_level hg₂.labelled hu₂ ht₂ hx₂ (by omega)
      rw [hf₃ hu₂ fun hc => hut hc.1, htop₂ hu hm hne]
  · exact ⟨Tag₃, s₃, (hg₁.trans hg₂).trans hg₃, htop₃, .inl rfl⟩
  simp only
  cases hh₂ : (s₃.mem pd (pdIndex virt)).isHuge with
  | true => exact ⟨Tag₃, s₃, (hg₁.trans hg₂).trans hg₃, htop₃, .inl rfl⟩
  | false =>
  have hd₂ := decode_middle (.inl rfl) (hp₃ rfl) hh₂
  have ht₁ : Tag₃ _ l₁ := hg₃.labelled.tagged.child (hg₃.mono ht₂) hl₁
    (by rw [show S.level l₂ = 1 by omega]; exact hd₂)
  generalize (s₃.mem pd (pdIndex virt)).addr = pt at hd₂ ht₁ ⊢
  -- the entries that were made present above stay as they are while the lower tables are added
  refine ⟨Tag₃, s₃, (hg₁.trans hg₂).trans hg₃, htop₃, .inr ⟨pt, ht₁, ?_, rfl⟩⟩
  have hg₂₃ := hg₂.trans hg₃
  rw [← hg₂₃.keep (hg₁.mono hr) (hp₁ rfl)] at hd₄
  rw [← hg₃.keep (hg₂.mono ht₃) (hp₂ rfl)] at hd₃
  refine reaches_of_chain hd₄ hd₃ hd₂ ?_ ?_ ?_
  · exact ne_of_level hg₃.labelled (hg₂₃.mono (hg₁.mono hr)) ht₁ hx₁ (by omega)
  · exact ne_of_level hg₃.labelled (hg₂₃.mono ht₃) ht₁ hx₁ (by omega)
  · exact ne_of_level hg₃.labelled (hg₃.mono ht₂) ht₁ hx₁ (by omega)

/-- `unmap_page` answers none and changes nothing, or clears the leaf that it answers. -/
theorem unmapPage_spec (h : Labelled S Tag s) {r virt : UInt64} {l l₁ : L} (hr : Tag r l)
    (hpath : PathLabels S l virt l₁) :
    (s.unmapPage r virt = (none, s) ∧ ∀ e, resolve pageFormat s.mem r (path virt) ≠ some (0, e)) ∨
      ∃ pt e, Tag pt l₁ ∧ Reaches s.mem r virt pt ∧
        resolve pageFormat s.mem r (path virt) = some (0, e) ∧
        s.unmapPage r virt = (some e.addr, s.setEntry pt (ptIndex virt) 0) := by
  obtain ⟨hlevel, hxr, l₃, l₂, hl₃, hl₂, hl₁, hx₃, hx₂, hx₁⟩ := hpath
  have hlev₃ := S.level_sub hl₃
  have hlev₂ := S.level_sub hl₂
  have hlev₁ := S.level_sub hl₁
  simp only [Vmm.unmapPage, path]
  cases hp₄ : (s.mem r (pml4Index virt)).isPresent with
  | false =>
    rw [resolve_of_absent (decode_absent hp₄)]
    exact .inl ⟨rfl, fun e he => by cases he⟩
  | true =>
  have hd₄ := decode_top hp₄
  have ht₃ : Tag _ l₃ := h.tagged.child hr hl₃ (by rw [hlevel]; exact hd₄)
  rw [resolve_of_table hd₄]
  generalize (s.mem r (pml4Index virt)).addr = pdpt at hd₄ ht₃ ⊢
  cases hp₃ : (s.mem pdpt (pdptIndex virt)).isPresent with
  | false =>
    rw [resolve_of_absent (decode_absent hp₃)]
    exact .inl ⟨rfl, fun e he => by cases he⟩
  | true =>
  cases hh₃ : (s.mem pdpt (pdptIndex virt)).isHuge with
  | true =>
    rw [resolve_of_leaf (decode_huge (.inr rfl) hp₃ hh₃)]
    exact .inl ⟨rfl, fun e he => by cases he⟩
  | false =>
  have hd₃ := decode_middle (.inr rfl) hp₃ hh₃
  have ht₂ : Tag _ l₂ := h.tagged.child ht₃ hl₂ (by rw [show S.level l₃ = 2 by omega]; exact hd₃)
  rw [resolve_of_table hd₃]
  generalize (s.mem pdpt (pdptIndex virt)).addr = pd at hd₃ ht₂ ⊢
  cases hp₂ : (s.mem pd (pdIndex virt)).isPresent with
  | false =>
    rw [resolve_of_absent (decode_absent hp₂)]
    exact .inl ⟨rfl, fun e he => by cases he⟩
  | true =>
  cases hh₂ : (s.mem pd (pdIndex virt)).isHuge with
  | true =>
    rw [resolve_of_leaf (decode_huge (.inl rfl) hp₂ hh₂)]
    exact .inl ⟨rfl, fun e he => by cases he⟩
  | false =>
  have hd₂ := decode_middle (.inl rfl) hp₂ hh₂
  have ht₁ : Tag _ l₁ := h.tagged.child ht₂ hl₁ (by rw [show S.level l₂ = 1 by omega]; exact hd₂)
  rw [resolve_of_table hd₂]
  generalize (s.mem pd (pdIndex virt)).addr = pt at hd₂ ht₁ ⊢
  cases hp₁ : (s.mem pt (ptIndex virt)).isPresent with
  | false =>
    rw [resolve_of_absent (decode_absent hp₁)]
    exact .inl ⟨rfl, fun e he => by cases he⟩
  | true =>
    rw [resolve_of_leaf (decode_last hp₁)]
    refine .inr ⟨pt, _, ht₁, reaches_of_chain hd₄ hd₃ hd₂ ?_ ?_ ?_, rfl, rfl⟩
    · exact ne_of_level h hr ht₁ hx₁ (by omega)
    · exact ne_of_level h ht₃ ht₁ hx₁ (by omega)
    · exact ne_of_level h ht₂ ht₁ hx₁ (by omega)

/-! ## Writing a leaf -/

theorem labelled_setLeaf (h : Labelled S Tag s) {pt : UInt64} {l₁ : L} (ht : Tag pt l₁)
    (hx : S.Excl l₁) (hlevel : S.level l₁ = 0) (i : Index) (e : PageTableEntry) :
    Labelled S Tag (s.setEntry pt i e) where
  tagged := h.tagged.set ht hx fun hm _ => by
    have := S.level_sub hm
    omega
  fresh := h.fresh

theorem resolve_setLeaf {mem : Memory} {r virt pt : UInt64} (h : Reaches mem r virt pt)
    (e : PageTableEntry) :
    resolve pageFormat (setEntry mem pt (ptIndex virt) e) r (path virt) =
      if e.isPresent then some (0, e) else none := by
  have hentry : setEntry mem pt (ptIndex virt) e pt (ptIndex virt) = e := setEntry_self _ _ _
  rw [h (setEntry mem pt (ptIndex virt) e) fun t i ht => setEntry_of_ne (fun hc => ht hc.1) e]
  cases he : e.isPresent with
  | true => rw [resolve_of_leaf (e := e) (by rw [hentry]; exact decode_last he)]; rfl
  | false => rw [resolve_of_absent (by rw [hentry]; exact decode_absent he)]; rfl

/-- Writing a leaf changes no walk but those that end with its label and index. -/
theorem resolve_setLeaf_of_ne (h : Labelled S Tag s) {t pt : UInt64} {l l₁ : L} {is : List Index}
    {i : Index} (hpt : Tag pt l₁) (hx : S.Excl l₁) (ht : Tag t l) (his : S.Tracks l is)
    (hne : ∀ pre post, is = pre ++ i :: post → S.follow l pre ≠ some l₁) (e : PageTableEntry) :
    resolve pageFormat (s.setEntry pt i e).mem t is = resolve pageFormat s.mem t is :=
  h.tagged.resolve_set_of_ne hpt hx ht his hne

end Aeterna.Mm
