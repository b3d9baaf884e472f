import Aeterna.Lib.Ledger
import Aeterna.Mm.Physical

/-!
# Exclusive use of physical frames

Every successful call of the allocator returns a range that starts at or above the bump pointer,
lies in one region of the boot memory map, and leaves the pointer at its end (`Granted`). A run of
calls therefore hands out ranges that do not meet.
-/

namespace Aeterna.Mm

/-! ## What a call returns -/

/-- The number of 4 KiB frames a call asks for. -/
def Call.frames : Call → UInt64
  | .allocFrame => 1
  | .allocFrames count => count
  | .allocHugeFrames count => count * (hugeFrameSize / frameSize)

/-- The range `[a, a + bytes)` lies in the region. -/
def PhysRegion.Holds (r : PhysRegion) (a bytes : UInt64) : Prop :=
  r.base.toNat ≤ a.toNat ∧ a.toNat + bytes.toNat ≤ r.base.toNat + r.length.toNat

/-- The call `c` took the range from `a` on, at or above the pointer. -/
structure Granted (s : Pmm) (c : Call) (a : UInt64) (s' : Pmm) : Prop where
  above : s.nextFreeFrame.toNat ≤ a.toNat
  aligned : a.toNat % c.align = 0
  inside : ∃ r ∈ s.regions, r.Holds a c.bytes
  regions : s'.regions = s.regions
  next : s'.nextFreeFrame.toNat = a.toNat + c.bytes.toNat
  frames : s'.framesAllocated = s.framesAllocated + c.frames

/-- A failed call moved the pointer at most forward, to the base of a region. -/
structure Refused (s s' : Pmm) : Prop where
  regions : s'.regions = s.regions
  next : s.nextFreeFrame.toNat ≤ s'.nextFreeFrame.toNat
  jump : s'.nextFreeFrame = s.nextFreeFrame ∨ ∃ r ∈ s.regions, s'.nextFreeFrame = r.base
  frames : s'.framesAllocated = s.framesAllocated

/-- The pointer and every region base are multiples of the frame size. -/
structure Paged (s : Pmm) : Prop where
  next : s.nextFreeFrame.toNat % 2 ^ 12 = 0
  base : ∀ r ∈ s.regions, r.base.toNat % 2 ^ 12 = 0

theorem Paged.base_or_next {s : Pmm} (hs : Paged s) {a : UInt64}
    (ha : a = s.nextFreeFrame ∨ ∃ r ∈ s.regions, a = r.base) : a.toNat % 2 ^ 12 = 0 := by
  rcases ha with rfl | ⟨r, hr, rfl⟩
  · exact hs.next
  · exact hs.base r hr

theorem stop_toNat {r : PhysRegion} (h : AddFits r.base r.length) :
    r.stop.toNat = r.base.toNat + r.length.toNat :=
  Lib.Word.toNat_add_of_lt h

theorem holds_of_le_stop {r : PhysRegion} {a bytes : UInt64} (hr : AddFits r.base r.length)
    (ha : AddFits a bytes) (hb : r.base ≤ a) (hle : a + bytes ≤ r.stop) : r.Holds a bytes := by
  rw [UInt64.le_iff_toNat_le] at hb hle
  rw [Lib.Word.toNat_add_of_lt ha, stop_toNat hr] at hle
  exact ⟨hb, hle⟩

@[simp] theorem take_regions (s : Pmm) (start bytes frames : UInt64) :
    (s.take start bytes frames).regions = s.regions := by
  simp only [Pmm.take]

/-! ## Single frames -/

/-- What the loop of `alloc_frame` does from the region list `rs` on. -/
theorem allocFrameFrom_cases (s : Pmm) (rs : List PhysRegion)
    (h : Pmm.FrameFits s.nextFreeFrame rs) :
    (∃ a, s.allocFrameFrom rs = (some a, s.take a frameSize 1) ∧
      (a = s.nextFreeFrame ∨ ∃ r ∈ rs, a = r.base) ∧
      s.nextFreeFrame.toNat ≤ a.toNat ∧ AddFits a frameSize ∧ ∃ r ∈ rs, r.Holds a frameSize) ∨
    (∃ n, s.allocFrameFrom rs = (none, { s with nextFreeFrame := n }) ∧
      (n = s.nextFreeFrame ∨ ∃ r ∈ rs, n = r.base) ∧ s.nextFreeFrame.toNat ≤ n.toNat) := by
  induction rs generalizing s with
  | nil => exact .inr ⟨s.nextFreeFrame, rfl, .inl rfl, le_rfl⟩
  | cons r rs ih =>
    obtain ⟨hstop, h⟩ := h
    by_cases hb : r.base ≤ s.nextFreeFrame
    · rw [if_pos hb] at h
      obtain ⟨hsum, hrest⟩ := h
      by_cases hfit : s.nextFreeFrame + frameSize ≤ r.stop
      · refine .inl ⟨s.nextFreeFrame, ?_, .inl rfl, le_rfl, hsum, r, List.mem_cons_self,
          holds_of_le_stop hstop hsum hb hfit⟩
        rw [Pmm.allocFrameFrom, if_pos ⟨hb, hfit⟩]
      · have hskip : s.allocFrameFrom (r :: rs) = s.allocFrameFrom rs := by
          rw [Pmm.allocFrameFrom, if_neg fun hc => hfit hc.2, if_neg (UInt64.not_lt.mpr hb)]
        rw [hskip]
        rcases ih s (hrest hfit) with ⟨a, he, ha, hle, hs, r', hr', hin⟩ | ⟨n, he, hn, hle⟩
        · exact .inl ⟨a, he, ha.imp_right fun ⟨q, hq, e⟩ => ⟨q, List.mem_cons_of_mem r hq, e⟩, hle,
            hs, r', List.mem_cons_of_mem r hr', hin⟩
        · exact .inr ⟨n, he, hn.imp_right fun ⟨q, hq, e⟩ => ⟨q, List.mem_cons_of_mem r hq, e⟩, hle⟩
    · rw [if_neg hb] at h
      obtain ⟨hsum, hrest⟩ := h
      have hlt : s.nextFreeFrame < r.base := UInt64.not_le.mp hb
      have hle : s.nextFreeFrame.toNat ≤ r.base.toNat :=
        (UInt64.lt_iff_toNat_lt.mp hlt).le
      by_cases hfit : r.base + frameSize ≤ r.stop
      · refine .inl ⟨r.base, ?_, .inr ⟨r, List.mem_cons_self, rfl⟩, hle, hsum, r,
          List.mem_cons_self, holds_of_le_stop hstop hsum (UInt64.le_refl _) hfit⟩
        rw [Pmm.allocFrameFrom, if_neg fun hc => hb hc.1, if_pos hlt]
        exact if_pos hfit
      · have hskip : s.allocFrameFrom (r :: rs) =
            Pmm.allocFrameFrom { s with nextFreeFrame := r.base } rs := by
          rw [Pmm.allocFrameFrom, if_neg fun hc => hb hc.1, if_pos hlt]
          exact if_neg hfit
        rw [hskip]
        have hmem : ∀ n, (n = r.base ∨ ∃ q ∈ rs, n = q.base) → ∃ q ∈ r :: rs, n = q.base := by
          rintro n (e | ⟨q, hq, e⟩)
          · exact ⟨r, List.mem_cons_self, e⟩
          · exact ⟨q, List.mem_cons_of_mem r hq, e⟩
        rcases ih { s with nextFreeFrame := r.base } (hrest hfit) with
          ⟨a, he, ha, hge, hs, r', hr', hin⟩ | ⟨n, he, hn, hge⟩
        · exact .inl ⟨a, he, .inr (hmem a ha), hle.trans hge, hs, r',
            List.mem_cons_of_mem r hr', hin⟩
        · exact .inr ⟨n, he, .inr (hmem n hn), hle.trans hge⟩

/-! ## Runs of frames -/

theorem firstFit_some {guard : PhysRegion → Prop} {startIn : PhysRegion → UInt64} {bytes a : UInt64}
    {rs : List PhysRegion} (h : Pmm.FirstFits guard startIn bytes rs)
    (ha : Pmm.firstFit startIn bytes rs = some a) :
    ∃ r ∈ rs, a = startIn r ∧ guard r ∧ AddFits r.base r.length ∧ AddFits a bytes ∧
      a + bytes ≤ r.stop := by
  induction rs with
  | nil => cases ha
  | cons r rs ih =>
    obtain ⟨hstop, hguard, hsum, hrest⟩ := h
    rw [Pmm.firstFit] at ha
    split_ifs at ha with hfit
    · cases ha
      exact ⟨r, List.mem_cons_self, rfl, hguard, hstop, hsum, hfit⟩
    · obtain ⟨q, hq, hq'⟩ := ih (hrest hfit) ha
      exact ⟨q, List.mem_cons_of_mem r hq, hq'⟩

/-- `alloc_frames` and `alloc_huge_frames` grant what they find when the chosen starts lie in their
region, at or above the pointer, and are aligned. -/
theorem allocRun_cases (s : Pmm) (c : Call) {guard : PhysRegion → Prop}
    {startIn : PhysRegion → UInt64}
    (hfits : Pmm.FirstFits guard startIn c.bytes s.regions)
    (hstart : ∀ r ∈ s.regions, guard r → s.nextFreeFrame.toNat ≤ (startIn r).toNat ∧
      r.base.toNat ≤ (startIn r).toNat ∧ (startIn r).toNat % c.align = 0) :
    (∃ a s', s.allocRun startIn c.bytes c.frames = (some a, s') ∧ Granted s c a s') ∨
      (∃ s', s.allocRun startIn c.bytes c.frames = (none, s') ∧ Refused s s') := by
  unfold Pmm.allocRun
  cases hff : Pmm.firstFit startIn c.bytes s.regions with
  | none => exact .inr ⟨s, rfl, rfl, le_rfl, .inl rfl, rfl⟩
  | some a =>
    obtain ⟨r, hr, rfl, hguard, hstop, hsum, hfit⟩ := firstFit_some hfits hff
    obtain ⟨habove, hbase, halign⟩ := hstart r hr hguard
    exact .inl ⟨startIn r, _, rfl, habove, halign,
      ⟨r, hr, holds_of_le_stop hstop hsum (UInt64.le_iff_toNat_le.mpr hbase) hfit⟩, rfl,
      Lib.Word.toNat_add_of_lt hsum, rfl⟩

theorem frameStart_spec {s : Pmm} (hs : Paged s) {r : PhysRegion} (hr : r ∈ s.regions) :
    s.nextFreeFrame.toNat ≤ (s.frameStart r).toNat ∧ r.base.toNat ≤ (s.frameStart r).toNat ∧
      (s.frameStart r).toNat % 2 ^ 12 = 0 := by
  unfold Pmm.frameStart
  split_ifs with hb
  · exact ⟨le_rfl, UInt64.le_iff_toNat_le.mp hb, hs.next⟩
  · exact ⟨(UInt64.lt_iff_toNat_lt.mp (UInt64.not_le.mp hb)).le, le_rfl, hs.base r hr⟩

theorem hugeStart_spec {s : Pmm} {r : PhysRegion} (h : s.HugeStartFits r) :
    s.nextFreeFrame.toNat ≤ (s.hugeStart r).toNat ∧ r.base.toNat ≤ (s.hugeStart r).toNat ∧
      (s.hugeStart r).toNat % 2 ^ 21 = 0 := by
  have hsize : hugeFrameSize.toNat = 2 ^ 21 := rfl
  obtain ⟨hnext, hjump⟩ := h
  have hle := Lib.Word.le_alignUp hsize hnext
  simp only [Pmm.hugeStart]
  split_ifs with hb
  · exact ⟨hle, UInt64.le_iff_toNat_le.mp hb, Lib.Word.alignUp_mod hsize hnext⟩
  · have hlt := UInt64.not_le.mp hb
    have hbase := Lib.Word.le_alignUp hsize (hjump hlt)
    rw [UInt64.lt_iff_toNat_lt] at hlt
    exact ⟨by omega, hbase, Lib.Word.alignUp_mod hsize (hjump hlt)⟩

/-- Every call either grants a range above the pointer or fails and leaves the grants alone. -/
theorem call_cases {s : Pmm} (hs : Paged s) {c : Call} (h : s.NoOverflow c) :
    (∃ a s', s.call c = (some a, s') ∧ Granted s c a s') ∨
      (∃ s', s.call c = (none, s') ∧ Refused s s') := by
  cases c with
  | allocFrame =>
    rcases allocFrameFrom_cases s s.regions h with ⟨a, he, ha, hle, hsum, hin⟩ | ⟨n, he, hn, hle⟩
    · exact .inl ⟨a, s.take a frameSize 1, he, hle, hs.base_or_next ha, hin,
        take_regions s a frameSize 1, Lib.Word.toNat_add_of_lt hsum, rfl⟩
    · exact .inr ⟨{ s with nextFreeFrame := n }, he, rfl, hle, hn, rfl⟩
  | allocFrames count =>
    exact allocRun_cases s (.allocFrames count) h.2 fun r hr _ => frameStart_spec hs hr
  | allocHugeFrames count =>
    exact allocRun_cases s (.allocHugeFrames count) h.2 fun r _ hg => hugeStart_spec hg

theorem Granted.aligned_frame {s s' : Pmm} {c : Call} {a : UInt64} (h : Granted s c a s') :
    a.toNat % 2 ^ 12 = 0 := by
  have halign := h.aligned
  cases c with
  | allocHugeFrames count =>
    rw [Call.align] at halign
    omega
  | allocFrame => exact halign
  | allocFrames count => exact halign

theorem frames_mul {s : Pmm} {c : Call} (h : s.NoOverflow c) :
    c.frames.toNat * 4096 = c.bytes.toNat := by
  have hsize : frameSize.toNat = 4096 := rfl
  have hhuge : hugeFrameSize.toNat = 512 * 4096 := rfl
  cases c with
  | allocFrame => rfl
  | allocFrames count =>
    rw [Call.bytes, Call.frames, Lib.Word.toNat_mul_of_lt h.1, hsize]
  | allocHugeFrames count =>
    obtain ⟨hcount, -⟩ := h
    have hratio : (hugeFrameSize / frameSize).toNat = 512 := by decide
    have hframes : count.toNat * (hugeFrameSize / frameSize).toNat < 2 ^ 64 :=
      lt_of_le_of_lt (Nat.mul_le_mul_left _ (by rw [hratio, hhuge]; decide)) hcount
    rw [Call.bytes, Call.frames, Lib.Word.toNat_mul_of_lt hcount,
      Lib.Word.toNat_mul_of_lt hframes, hratio, hhuge, Nat.mul_assoc]

/-! ## The regions that init keeps -/

/-- The usable entries of a memory map, as regions. -/
def usableRegions (memmap : List MemmapEntry) : List PhysRegion :=
  (memmap.filter (·.typ = memmapUsable)).map fun e => ⟨e.base, e.length⟩

theorem mem_usableRegions {memmap : List MemmapEntry} {r : PhysRegion} :
    r ∈ usableRegions memmap ↔
      ∃ e ∈ memmap, e.typ = memmapUsable ∧ e.base = r.base ∧ e.length = r.length := by
  cases r
  simp [usableRegions, and_assoc]

theorem foldl_addEntry (memmap : List MemmapEntry) (s : Pmm) (hs : s.regions.length ≤ maxRegions) :
    (memmap.foldl Pmm.addEntry s).regions =
        (s.regions ++ usableRegions memmap).take maxRegions ∧
      (memmap.foldl Pmm.addEntry s).nextFreeFrame = s.nextFreeFrame ∧
      (memmap.foldl Pmm.addEntry s).framesAllocated = s.framesAllocated := by
  induction memmap generalizing s with
  | nil => simp [usableRegions, List.take_of_length_le hs]
  | cons e memmap ih =>
    rw [List.foldl_cons]
    by_cases hu : e.typ = memmapUsable
    · by_cases hlen : s.regions.length < maxRegions
      · have hstep : (s.addEntry e).regions = s.regions ++ [⟨e.base, e.length⟩] := by
          simp [Pmm.addEntry, hu, hlen]
        obtain ⟨hr, hn, hf⟩ := ih (s.addEntry e) (by simpa [hstep] using Nat.succ_le_of_lt hlen)
        rw [hr, hn, hf, hstep]
        simp [Pmm.addEntry, usableRegions, hu, hlen]
      · have hfull : s.regions.length = maxRegions := by omega
        have hstep : (s.addEntry e).regions = s.regions := by simp [Pmm.addEntry, hu, hlen]
        obtain ⟨hr, hn, hf⟩ := ih (s.addEntry e) (by rw [hstep]; exact hs)
        rw [hr, hn, hf]
        simp [Pmm.addEntry, hu, hlen, List.take_append_of_le_length hfull.ge]
    · have hstep : (s.addEntry e).regions = s.regions := by simp [Pmm.addEntry, hu]
      obtain ⟨hr, hn, hf⟩ := ih (s.addEntry e) (by rw [hstep]; exact hs)
      rw [hr, hn, hf]
      simp [Pmm.addEntry, usableRegions, hu]

/-- What the boot loader is trusted with: usable entries are page aligned, fit in `REGIONS`, and one
of them has a frame at or above 1 MiB. -/
structure ValidMap (memmap : List MemmapEntry) : Prop where
  aligned : ∀ e ∈ memmap, e.typ = memmapUsable → e.base.toNat % 2 ^ 12 = 0
  few : (usableRegions memmap).length ≤ maxRegions
  high : ∃ e ∈ memmap, e.typ = memmapUsable ∧ 0x100000 ≤ e.base.toNat ∧ 4096 ≤ e.length.toNat

theorem startsHigh_iff {r : PhysRegion} :
    Pmm.startsHigh r = true ↔ 0x100000 ≤ r.base.toNat ∧ 4096 ≤ r.length.toNat := by
  simp only [Pmm.startsHigh, Bool.and_eq_true, decide_eq_true_eq]
  exact Iff.rfl

/-- `init` on a valid map keeps all usable regions and puts the pointer on the base of one of them,
at or above 1 MiB. -/
theorem init_spec {memmap : List MemmapEntry} (h : ValidMap memmap) :
    ∃ r ∈ usableRegions memmap, 0x100000 ≤ r.base.toNat ∧
      (Pmm.boot.init (some memmap)).regions = usableRegions memmap ∧
      (Pmm.boot.init (some memmap)).nextFreeFrame = r.base ∧
      (Pmm.boot.init (some memmap)).framesAllocated = 0 := by
  obtain ⟨hr, -, hf⟩ := foldl_addEntry memmap Pmm.boot (Nat.zero_le _)
  rw [Pmm.boot, List.nil_append, List.take_of_length_le h.few] at hr
  obtain ⟨e, he, hu, hbase, hlength⟩ := h.high
  have hmem : (⟨e.base, e.length⟩ : PhysRegion) ∈ usableRegions memmap :=
    mem_usableRegions.mpr ⟨e, he, hu, rfl, rfl⟩
  obtain ⟨r, hfind⟩ : ∃ r, (usableRegions memmap).find? Pmm.startsHigh = some r :=
    Option.isSome_iff_exists.mp
      (List.find?_isSome.mpr ⟨_, hmem, startsHigh_iff.mpr ⟨hbase, hlength⟩⟩)
  refine ⟨r, List.mem_of_find?_eq_some hfind, (startsHigh_iff.mp (List.find?_some hfind)).1, ?_⟩
  rw [← hr] at hfind
  unfold Pmm.init
  simp only [Pmm.boot] at hf hfind ⊢
  simp only [hfind]
  exact ⟨hr, trivial, hf⟩

/-! ## Exclusivity -/

/-- The bytes of a successful call. -/
def grantRange (g : Call × UInt64) : Lib.Range := ⟨g.2.toNat, g.1.bytes.toNat⟩

/-- What the callers of the allocator rely on. -/
structure Exclusive (memmap : List MemmapEntry) (b : Book) : Prop where
  disjoint : (b.grants.map grantRange).Pairwise fun x y => Disjoint x.bytes y.bytes
  inside : ∀ g ∈ b.grants, ∃ e ∈ memmap, e.typ = memmapUsable ∧ e.base.toNat ≤ g.2.toNat ∧
    g.2.toNat + g.1.bytes.toNat ≤ e.base.toNat + e.length.toNat
  high : ∀ g ∈ b.grants, 0x100000 ≤ g.2.toNat
  aligned : ∀ g ∈ b.grants, g.2.toNat % g.1.align = 0
  accounted : b.pmm.framesAllocated.toNat * 4096 = (b.grants.map fun g => g.1.bytes.toNat).sum

/-- The allocator between two calls: the grants lie below the pointer. -/
structure BookInv (memmap : List MemmapEntry) (b : Book) : Prop extends Exclusive memmap b where
  regions : b.pmm.regions = usableRegions memmap
  paged : Paged b.pmm
  nextHigh : 0x100000 ≤ b.pmm.nextFreeFrame.toNat
  ledger : Lib.Ledger b.pmm.nextFreeFrame.toNat (b.grants.map grantRange)

theorem bookInv_start {memmap : List MemmapEntry} (h : ValidMap memmap) :
    BookInv memmap (Book.start memmap) := by
  obtain ⟨r, hr, hhigh, hregions, hnext, hframes⟩ := init_spec h
  have hbase : ∀ q ∈ usableRegions memmap, q.base.toNat % 2 ^ 12 = 0 := by
    intro q hq
    obtain ⟨e, he, hu, hb, -⟩ := mem_usableRegions.mp hq
    exact hb ▸ h.aligned e he hu
  unfold Book.start
  exact
    { disjoint := .nil
      inside := by simp
      high := by simp
      aligned := by simp
      accounted := by simp [hframes]
      regions := hregions
      paged := ⟨by rw [hnext]; exact hbase r hr, fun q hq => hbase q (hregions ▸ hq)⟩
      nextHigh := by rw [hnext]; exact hhigh
      ledger := .nil _ }

theorem bookInv_refused {memmap : List MemmapEntry} {b : Book} {s' : Pmm} (h : BookInv memmap b)
    (hr : Refused b.pmm s') : BookInv memmap ⟨s', b.grants⟩ where
  toExclusive := { h.toExclusive with accounted := by rw [hr.frames]; exact h.accounted }
  regions := hr.regions.trans h.regions
  paged := ⟨h.paged.base_or_next hr.jump, by rw [hr.regions]; exact h.paged.base⟩
  nextHigh := h.nextHigh.trans hr.next
  ledger := h.ledger.raise hr.next

theorem framesAllocated_granted {memmap : List MemmapEntry} {b : Book} {c : Call} {a : UInt64}
    {s' : Pmm} (h : BookInv memmap b) (hc : b.pmm.NoOverflow c) (hg : Granted b.pmm c a s') :
    s'.framesAllocated.toNat = b.pmm.framesAllocated.toNat + c.frames.toNat := by
  have hmul := frames_mul hc
  have htotal := (h.ledger.grant (g := grantRange (c, a)) hg.above).total
  have hnext := hg.next
  have hlt := UInt64.toNat_lt s'.nextFreeFrame
  have hacc := h.accounted
  rw [List.map_append, List.sum_append] at htotal
  simp only [List.map_map, Lib.Range.stop, grantRange] at htotal
  rw [hg.frames]
  refine Lib.Word.toNat_add_of_lt ?_
  have hsum : (b.grants.map (Lib.Range.len ∘ grantRange)).sum =
      (b.grants.map fun g => g.1.bytes.toNat).sum := rfl
  omega

theorem bookInv_granted {memmap : List MemmapEntry} {b : Book} {c : Call} {a : UInt64} {s' : Pmm}
    (h : BookInv memmap b) (hc : b.pmm.NoOverflow c) (hg : Granted b.pmm c a s') :
    BookInv memmap ⟨s', b.grants ++ [(c, a)]⟩ := by
  have hall : ∀ {P : Call × UInt64 → Prop}, (∀ g ∈ b.grants, P g) → P (c, a) →
      ∀ g ∈ b.grants ++ [(c, a)], P g := by
    intro P hP ha g hmem
    rcases List.mem_append.mp hmem with hmem | hmem
    · exact hP g hmem
    · rwa [List.mem_singleton.mp hmem]
  have hledger : Lib.Ledger s'.nextFreeFrame.toNat ((b.grants ++ [(c, a)]).map grantRange) := by
    rw [hg.next, List.map_append]
    exact h.ledger.grant (g := grantRange (c, a)) hg.above
  exact
    { disjoint := hledger.disjoint
      inside := by
        refine hall h.inside ?_
        obtain ⟨r, hr, hlo, hhi⟩ := hg.inside
        obtain ⟨e, he, hu, hb, hl⟩ := mem_usableRegions.mp (h.regions ▸ hr)
        exact ⟨e, he, hu, hb ▸ hlo, hb ▸ hl ▸ hhi⟩
      high := hall h.high (h.nextHigh.trans hg.above)
      aligned := hall h.aligned hg.aligned
      accounted := by
        rw [framesAllocated_granted h hc hg, Nat.add_mul, h.accounted, frames_mul hc]
        simp
      regions := hg.regions.trans h.regions
      paged := by
        have halign := hg.aligned_frame
        have hmul := frames_mul hc
        refine ⟨?_, by rw [hg.regions]; exact h.paged.base⟩
        rw [hg.next]
        omega
      nextHigh := by
        rw [hg.next]
        exact (h.nextHigh.trans hg.above).trans (Nat.le_add_right _ _)
      ledger := hledger }

theorem bookInv_step {memmap : List MemmapEntry} {b : Book} (h : BookInv memmap b) {c : Call}
    (hc : b.pmm.NoOverflow c) : BookInv memmap (b.step c) := by
  unfold Book.step
  rcases call_cases h.paged hc with ⟨a, s', he, hg⟩ | ⟨s', he, hr⟩ <;> simp only [he]
  · exact bookInv_granted h hc hg
  · exact bookInv_refused h hr

/-- **Exclusive frames.** After `init` on a valid memory map, a run of calls whose address
arithmetic does not overflow hands out disjoint, aligned ranges of usable memory above 1 MiB, and
counts them. The counts may be zero, and the usable regions may overlap. -/
theorem exclusive_run (memmap : List MemmapEntry) (cs : List Call) (hmap : ValidMap memmap)
    (hcs : Lib.EachStep Book.step (fun b c => b.pmm.NoOverflow c) (Book.start memmap) cs) :
    Exclusive memmap (Lib.run Book.step (Book.start memmap) cs) := by
  have hinv := Lib.always_of_eachStep (bookInv_start hmap)
    (fun _ _ h hc => bookInv_step h hc) hcs
  exact hinv.last.toExclusive

/-- Low memory, a hole, and two usable regions above 1 MiB, the first with a single frame. -/
def smallMap : List MemmapEntry :=
  [⟨0, 0xA0000, 0⟩, ⟨0xA0000, 0x60000, 1⟩, ⟨0x100000, 0x1000, 0⟩, ⟨0x200000, 0x800000, 0⟩]

theorem exclusive_run_smallMap :
    ValidMap smallMap ∧ (Lib.run Book.step (Book.start smallMap)
        [.allocFrame, .allocHugeFrames 2, .allocFrame, .allocFrames 3, .allocFrames 0x800]).grants =
      [(.allocFrame, 0x100000), (.allocHugeFrames 2, 0x200000), (.allocFrame, 0x600000),
        (.allocFrames 3, 0x601000)] ∧
      Exclusive smallMap (Lib.run Book.step (Book.start smallMap)
        [.allocFrame, .allocHugeFrames 2, .allocFrame, .allocFrames 3, .allocFrames 0x800]) :=
  have hmap : ValidMap smallMap := ⟨by decide, by decide, by decide⟩
  ⟨hmap, by decide, exclusive_run smallMap _ hmap (by decide)⟩

end Aeterna.Mm
