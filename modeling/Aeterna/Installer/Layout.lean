import Aeterna.Installer.Install

/-!
# Every write in its partition

The installer takes disks from 100 MiB on and an EFI system partition of up to 512 MiB, and looks
at neither the size of the disk nor that of the boot files before it writes. The table is valid and
every sector stays in its partition exactly if the partitions and the files fit
(`inPlace_iff_fits`); the smallest disk with the recommended partition is one where they do not.
-/

namespace Aeterna.Installer

open Lib.Bytes Lib.Buffer

/-! ## What a run writes -/

namespace Session

theorem mem_written_writeAll {total : ℕ} {t : Session} {ws : List Write} {p : Target × ℕ}
    (h : p ∈ (t.writeAll total ws).2.written) :
    p ∈ t.written ∨ ∃ w ∈ ws, p = (w.target, w.lba) := by
  induction ws generalizing t with
  | nil => exact Or.inl h
  | cons w ws ih =>
    have hone : ∀ q ∈ (t.write total w).2.written, q ∈ t.written ∨ q = (w.target, w.lba) := by
      intro q hq
      unfold write at hq
      split_ifs at hq
      · simpa using hq
      · exact Or.inl hq
    have hstep : p ∈ (t.write total w).2.written ∨ ∃ v ∈ ws, p = (v.target, v.lba) := by
      simp only [writeAll] at h
      split_ifs at h
      · exact Or.inl h
      · exact ih h
    rcases hstep with hp | ⟨v, hv, hp⟩
    · rcases hone p hp with hp | hp
      · exact Or.inl hp
      · exact Or.inr ⟨w, List.mem_cons_self, hp⟩
    · exact Or.inr ⟨v, List.mem_cons_of_mem w hv, hp⟩

theorem mem_written_runSteps {total : ℕ} {t : Session} {aborts : ℕ → Bool}
    {steps : List (List Write)} {p : Target × ℕ}
    (h : p ∈ (t.runSteps total aborts steps).written) :
    p ∈ t.written ∨ ∃ w ∈ steps.flatten, p = (w.target, w.lba) := by
  induction steps generalizing t aborts with
  | nil => exact Or.inl h
  | cons ws steps ih =>
    have hstep : p ∈ (t.writeAll total ws).2.written ∨
        ∃ v ∈ steps.flatten, p = (v.target, v.lba) := by
      simp only [runSteps] at h
      split_ifs at h
      · exact Or.inl h
      · exact ih h
    rcases hstep with hp | ⟨v, hv, hp⟩
    · rcases mem_written_writeAll hp with hp | ⟨w, hw, hp⟩
      · exact Or.inl hp
      · exact Or.inr ⟨w, List.mem_append_left _ hw, hp⟩
    · exact Or.inr ⟨v, List.mem_append_right _ hv, hp⟩

theorem written_writeAll {total : ℕ} {t : Session} {ws : List Write}
    (h : ∀ w ∈ ws, w.fatal = true → w.lba < total) :
    (t.writeAll total ws).1 = true ∧ t.written ⊆ (t.writeAll total ws).2.written ∧
      ∀ w ∈ ws, w.lba < total → (w.target, w.lba) ∈ (t.writeAll total ws).2.written := by
  induction ws generalizing t with
  | nil => exact ⟨rfl, List.Subset.refl _, by simp⟩
  | cons w ws ih =>
    have hgo : ¬ ((t.write total w).1 = false ∧ w.fatal = true) := by
      rintro ⟨hfail, hfatal⟩
      rw [write, if_pos (h w List.mem_cons_self hfatal)] at hfail
      cases hfail
    have hkept : t.written ⊆ (t.write total w).2.written := by
      unfold write
      split_ifs
      · exact List.subset_append_left _ _
      · exact List.Subset.refl _
    obtain ⟨hok, hsub, hall⟩ := ih (t := (t.write total w).2)
      fun v hv => h v (List.mem_cons_of_mem w hv)
    have heq : t.writeAll total (w :: ws) = (t.write total w).2.writeAll total ws := by
      simp only [writeAll]
      rw [if_neg hgo]
    rw [heq]
    refine ⟨hok, List.Subset.trans hkept hsub, fun v hv hlt => ?_⟩
    rcases List.mem_cons.mp hv with rfl | hv
    · apply hsub
      rw [write, if_pos hlt]
      simp
    · exact hall v hv hlt

theorem written_runSteps {total : ℕ} {t : Session} {steps : List (List Write)}
    (h : ∀ w ∈ steps.flatten, w.fatal = true → w.lba < total) :
    t.written ⊆ (t.runSteps total (fun _ => false) steps).written ∧
      ∀ w ∈ steps.flatten, w.lba < total →
        (w.target, w.lba) ∈ (t.runSteps total (fun _ => false) steps).written := by
  induction steps generalizing t with
  | nil => exact ⟨List.Subset.refl _, by simp⟩
  | cons ws steps ih =>
    have hws : ∀ w ∈ ws, w.fatal = true → w.lba < total :=
      fun w hw => h w (List.mem_append_left _ hw)
    obtain ⟨hok, hsub, hall⟩ := written_writeAll (t := t) hws
    obtain ⟨hsub', hall'⟩ := ih (t := (t.writeAll total ws).2)
      fun w hw => h w (List.mem_append_right _ hw)
    have heq : t.runSteps total (fun _ => false) (ws :: steps) =
        (t.writeAll total ws).2.runSteps total (fun _ => false) steps := by
      simp only [runSteps]
      rw [if_neg (by simp [hok])]
    rw [heq]
    refine ⟨List.Subset.trans hsub hsub', fun w hw hlt => ?_⟩
    rcases List.mem_append.mp hw with hw | hw
    · exact hsub' (hall w hw hlt)
    · exact hall' w hw hlt

end Session

/-! ## The sectors of a file -/

/-- Sector `j` of a file, filled up with zeros. -/
def fileSector (data : List UInt8) (j : ℕ) : List UInt8 :=
  splice (zeros 512) 0 (slice data (j * 512) 512)

theorem mem_clusterWrites {data : List UInt8} {off lba rem : ℕ} {w : Write}
    (hle : off * 512 + rem ≤ data.length) (hlast : rem % 512 = 0 ∨ off * 512 + rem = data.length)
    (h : w ∈ clusterWrites data (off * 512) lba rem) :
    w.target = .esp ∧ w.fatal = false ∧ ∃ i, i * 512 < rem ∧ w.lba = lba + i ∧
      ∀ d, w.bytes d = fileSector data (off + i) := by
  rcases List.mem_append.mp h with h | h
  · obtain ⟨i, hi, rfl⟩ := List.mem_map.mp h
    have hlt := List.mem_range.mp hi
    refine ⟨rfl, rfl, i, by omega, rfl, fun d => ?_⟩
    have hfits : ∀ a, a + rem ≤ data.length → a + i * 512 + 512 ≤ data.length :=
      fun a ha => by omega
    have hlen : (slice data (off * 512 + i * 512) 512).length = 512 := length_slice (hfits _ hle)
    rw [fileSector, Nat.add_mul,
      splice_to_end (by rw [hlen, zeros, List.length_replicate]), List.take_zero, List.nil_append]
    rfl
  · split_ifs at h with hpart
    · obtain rfl := List.mem_singleton.mp h
      refine ⟨rfl, rfl, rem / 512, by omega, rfl, fun d => ?_⟩
      have hslice : slice data ((off + rem / 512) * 512) 512 =
          slice data (off * 512 + rem / 512 * 512) (rem % 512) := by
        rw [slice, slice, Nat.add_mul, List.take_of_length_le (by rw [List.length_drop]; omega),
          List.take_of_length_le (by rw [List.length_drop]; omega)]
      rw [fileSector, hslice]
      rfl
    · simp at h

theorem exists_mem_clusterWrites (data : List UInt8) (off lba : ℕ) {rem i : ℕ}
    (h : i * 512 < rem) :
    ∃ w ∈ clusterWrites data off lba rem, w.target = .esp ∧ w.lba = lba + i := by
  unfold clusterWrites
  by_cases hfull : i < rem / 512
  · have hmem : i ∈ List.range (rem / 512) := List.mem_range.mpr hfull
    exact ⟨_, List.mem_append_left _ (List.mem_map_of_mem hmem), rfl, rfl⟩
  · have hi : i = rem / 512 := by omega
    dsimp only
    rw [if_pos (by omega), hi]
    exact ⟨_, List.mem_append_right _ (List.mem_singleton.mpr rfl), rfl, rfl⟩

section Clusters

variable {data : List UInt8} {start nc spc : ℕ} {clba : ℕ → ℕ}

theorem mem_writeClusters (hclba : ∀ i, clba (start + i) = clba start + i * spc) {w : Write}
    (h : w ∈ writeClusters data start nc spc clba) :
    w.target = .esp ∧ w.fatal = false ∧ ∃ j, j * 512 < data.length ∧ w.lba = clba start + j ∧
      ∀ d, w.bytes d = fileSector data j := by
  obtain ⟨ci, hci, hw⟩ := List.mem_flatMap.mp h
  dsimp only at hw
  split_ifs at hw with hoff
  · simp at hw
  · rw [← Nat.mul_assoc] at hw hoff
    obtain ⟨htarget, hfatal, i, hi, hlba, hbytes⟩ :=
      mem_clusterWrites (by omega) (by omega) hw
    refine ⟨htarget, hfatal, ci * spc + i, ?_, ?_, hbytes⟩
    · have hinside : ∀ off, ¬ off ≥ data.length →
          i * 512 < min (data.length - off) (spc * 512) → off + i * 512 < data.length :=
        fun off h₁ h₂ => by omega
      rw [Nat.add_mul]
      exact hinside _ hoff hi
    · rw [hlba, hclba, Nat.add_assoc]

theorem exists_mem_writeClusters (hclba : ∀ i, clba (start + i) = clba start + i * spc)
    (hspc : 0 < spc) {j : ℕ} (hj : j * 512 < data.length) (hnc : data.length ≤ nc * (spc * 512)) :
    ∃ w ∈ writeClusters data start nc spc clba, w.target = .esp ∧ w.lba = clba start + j := by
  have hsplit : j / spc * spc + j % spc = j := Nat.div_add_mod' j spc
  have hmod : j % spc < spc := Nat.mod_lt j hspc
  have hbytes : j * 512 = j / spc * (spc * 512) + j % spc * 512 := by
    conv_lhs => rw [← hsplit]
    rw [Nat.add_mul, Nat.mul_assoc]
  have hci : j / spc < nc := by
    by_contra hge
    have hle : nc * (spc * 512) ≤ j / spc * (spc * 512) :=
      Nat.mul_le_mul_right _ (Nat.le_of_not_lt hge)
    omega
  have hrow : j % spc * 512 < spc * 512 := (Nat.mul_lt_mul_right (by omega)).mpr hmod
  have hrem : j % spc * 512 < min (data.length - j / spc * (spc * 512)) (spc * 512) :=
    lt_min (Nat.lt_sub_iff_add_lt'.mpr (hbytes ▸ hj)) hrow
  obtain ⟨w, hw, htarget, hlba⟩ := exists_mem_clusterWrites data (j / spc * (spc * 512))
    (clba (start + j / spc)) hrem
  refine ⟨w, List.mem_flatMap.mpr ⟨j / spc, List.mem_range.mpr hci, ?_⟩, htarget, ?_⟩
  · have hoff : ¬ j / spc * (spc * 512) ≥ data.length :=
      Nat.not_le.mpr (lt_of_le_of_lt (Nat.le_add_right _ _) (hbytes ▸ hj))
    rwa [if_neg hoff]
  · rw [hlba, hclba, Nat.add_assoc, hsplit]

end Clusters

theorem mem_writeChain {fat1 fat2 start nc : ℕ} {w : Write}
    (h : w ∈ writeChain fat1 fat2 start nc) :
    w.target = .esp ∧ w.fatal = false ∧ ∃ i < nc, w.lba = fat1 + entrySector (start + i) ∨
      w.lba = fat2 + entrySector (start + i) := by
  obtain ⟨i, hi, hw⟩ := List.mem_flatMap.mp h
  have hlt := List.mem_range.mp hi
  simp only [List.map_cons, List.map_nil, List.mem_cons, List.not_mem_nil, or_false] at hw
  rcases hw with rfl | rfl
  · exact ⟨rfl, rfl, i, hlt, Or.inl rfl⟩
  · exact ⟨rfl, rfl, i, hlt, Or.inr rfl⟩

/-! ## The partitions the menu offers -/

/-- What the geometry leaves room for in a partition of `n` sectors: the directories and the
configuration, and the entries of all clusters. -/
structure Geometry.Roomy (g : Geometry) (n : ℕ) : Prop where
  spc_pos : 0 < g.spc
  spc_le : g.spc ≤ 8
  dataRel_eq : g.dataRel = 32 + 2 * g.fatSec
  dirs : g.dataRel + 5 * g.spc ≤ n
  tables : 32 + g.fatSec + entrySector (n / g.spc + 2) < n

theorem roomy_of_offered {mb : ℕ} (h : mb ∈ espSizes) :
    (geometry (mb * 2048)).Roomy (mb * 2048) := by
  simp only [espSizes, List.mem_cons, List.not_mem_nil, or_false] at h
  rcases h with rfl | rfl | rfl | rfl <;> constructor <;> decide

namespace Setup

variable {s : Setup}

def InEsp (s : Setup) (lba : ℕ) : Prop := espStart ≤ lba ∧ lba ≤ s.espEnd

def InRoot (s : Setup) (lba : ℕ) : Prop := s.rootStart ≤ lba ∧ lba ≤ s.rootEnd

/-- The partitions lie between the two copies of the table, apart from each other. -/
structure TableValid (s : Setup) : Prop where
  esp : firstUsable ≤ espStart ∧ espStart ≤ s.espEnd ∧ s.espEnd ≤ s.lastUsable
  root : firstUsable ≤ s.rootStart ∧ s.rootStart ≤ s.rootEnd ∧ s.rootEnd ≤ s.lastUsable
  disjoint : ∀ lba, ¬ (s.InEsp lba ∧ s.InRoot lba)

/-- A sector written for a partition lies in it. -/
def Placed (s : Setup) : Target × ℕ → Prop
  | (.table, _) => True
  | (.esp, lba) => s.InEsp lba
  | (.root, lba) => s.InRoot lba

/-- No sector was written outside the partition it is for. -/
def InPlace (s : Setup) (t : Session) : Prop := ∀ p ∈ t.written, s.Placed p

/-- The sector after the last of a file, from the start of the partition. -/
def fileEnd (s : Setup) (start : ℕ) (m : Module) : ℕ :=
  s.geom.dataRel + (start - 2) * s.geom.spc + (m.data.length + 511) / 512

/-- The root partition has a sector, and the boot files fit behind the directories. -/
structure Fits (s : Setup) : Prop where
  partitions : espStart + s.espSectors ≤ s.disk.sectors - 34
  efi : s.efi.data ≠ [] → s.fileEnd efiC s.efi ≤ s.espSectors
  kernel : s.kernel.data ≠ [] → s.fileEnd s.kerC s.kernel ≤ s.espSectors

theorem inEsp_add (k : ℕ) : s.InEsp (espStart + k) ↔ k < s.espSectors := by
  unfold InEsp espEnd espStart
  omega

theorem rootStart_eq : s.rootStart = espStart + s.espSectors := by
  unfold rootStart espEnd espStart
  omega

theorem tableValid_iff (hsize : 0 < s.espSectors) :
    s.TableValid ↔ espStart + s.espSectors ≤ s.disk.sectors - 34 := by
  constructor
  · intro h
    have hroot := h.root.2.1
    rwa [rootStart_eq] at hroot
  · intro h
    refine ⟨?_, ?_, ?_⟩
    · unfold firstUsable lastUsable espEnd
      unfold espStart at *
      omega
    · unfold firstUsable lastUsable rootEnd
      rw [rootStart_eq]
      unfold espStart at *
      omega
    · rintro lba ⟨hesp, hroot⟩
      have hlt := hroot.1
      unfold rootStart at hlt
      exact absurd hesp.2 (by omega)

theorem clba_add {c : ℕ} (hc : 2 ≤ c) (i : ℕ) : s.clba (c + i) = s.clba c + i * s.geom.spc := by
  unfold clba
  rw [Nat.sub_add_comm hc, Nat.add_mul]
  exact (Nat.add_assoc _ _ _).symm

theorem clustersOf_bounds (hspc : 0 < s.geom.spc) {m : Module} (hm : m.data ≠ []) :
    m.data.length ≤ s.clustersOf m * (s.geom.spc * 512) ∧
      s.clustersOf m * s.geom.spc < (m.data.length + 511) / 512 + s.geom.spc := by
  have hlen : 0 < m.data.length := List.length_pos_iff.mpr hm
  unfold clustersOf
  rw [if_pos hlen]
  generalize hq : (m.data.length + s.geom.spc * 512 - 1) / (s.geom.spc * 512) = q
  have hdiv := Nat.div_add_mod' (m.data.length + s.geom.spc * 512 - 1) (s.geom.spc * 512)
  have hmod := Nat.mod_lt (m.data.length + s.geom.spc * 512 - 1)
    (show 0 < s.geom.spc * 512 by omega)
  rw [hq, ← Nat.mul_assoc] at hdiv
  rw [← Nat.mul_assoc]
  omega

/-! ## The writes of the steps -/

/-- A write that stays in the EFI system partition. -/
def Stays (s : Setup) (w : Write) : Prop := w.target = .esp ∧ s.InEsp w.lba

theorem Stays.of_lt {w : Write} {k : ℕ} (htarget : w.target = .esp) (hlba : w.lba = espStart + k)
    (h : k < s.espSectors) : s.Stays w := ⟨htarget, hlba ▸ (inEsp_add k).mpr h⟩

theorem stays_chain (hroom : s.geom.Roomy s.espSectors) {start nc : ℕ}
    (hc : ∀ i < nc, (start + i - 2) * s.geom.spc < s.espSectors) {w : Write}
    (hw : w ∈ s.chain start nc) : s.Stays w := by
  obtain ⟨htarget, -, i, hi, hlba⟩ := mem_writeChain hw
  have hcluster : start + i ≤ s.espSectors / s.geom.spc + 2 := by
    have hle := (Nat.le_div_iff_mul_le hroom.spc_pos).mpr (Nat.le_of_lt (hc i hi))
    omega
  have hentry : entrySector (start + i) ≤ entrySector (s.espSectors / s.geom.spc + 2) :=
    Nat.div_le_div_right (Nat.mul_le_mul_right 4 hcluster)
  have htables := hroom.tables
  refine ⟨htarget, ?_⟩
  rcases hlba with hlba | hlba
  · rw [hlba, fat1Lba, Nat.add_assoc, inEsp_add, rsvd]
    omega
  · rw [hlba, fat2Lba, fat1Lba, Nat.add_assoc, Nat.add_assoc, inEsp_add, rsvd]
    omega

theorem stays_writeFat (hroom : s.geom.Roomy s.espSectors) {w : Write} (hw : w ∈ s.writeFat) :
    s.Stays w := by
  have hdirs := hroom.dirs
  have hrel := hroom.dataRel_eq
  have hspc := hroom.spc_pos
  unfold writeFat at hw
  simp only [List.mem_append, List.mem_cons, List.not_mem_nil, or_false, List.mem_flatMap,
    List.mem_map, List.mem_range] at hw
  rcases hw with ((rfl | rfl | rfl | rfl) | ⟨fc, rfl | rfl, i, hi, rfl⟩) | rfl | rfl
  · exact .of_lt (k := 0) rfl rfl (by omega)
  · exact .of_lt rfl rfl (by omega)
  · exact .of_lt rfl rfl (by omega)
  · exact .of_lt rfl rfl (by omega)
  · exact .of_lt (k := 32 + i) rfl (Nat.add_assoc _ _ _) (by omega)
  · refine .of_lt (k := 32 + (s.geom.fatSec + i)) rfl ?_ (by omega)
    exact (Nat.add_assoc _ _ _).trans (Nat.add_assoc _ _ _)
  · exact .of_lt (k := 32) rfl rfl (by omega)
  · exact .of_lt (k := 32 + s.geom.fatSec) rfl (Nat.add_assoc _ _ _) (by omega)

theorem clba_inside (hroom : s.geom.Roomy s.espSectors) {c i : ℕ} (hc : c ≤ 6)
    (hi : i < s.geom.spc) :
    ∃ k < s.espSectors, s.clba c + i = espStart + k := by
  have hdirs := hroom.dirs
  refine ⟨s.geom.dataRel + (c - 2) * s.geom.spc + i, ?_, ?_⟩
  · have hle : (c - 2) * s.geom.spc ≤ 4 * s.geom.spc := Nat.mul_le_mul_right _ (by omega)
    omega
  · unfold clba
    rw [Nat.add_assoc, Nat.add_assoc, Nat.add_assoc]

theorem stays_chain_one (hroom : s.geom.Roomy s.espSectors) {c : ℕ} (hc : c ≤ 6) {w : Write}
    (hw : w ∈ s.chain c 1) : s.Stays w := by
  have hdirs := hroom.dirs
  have hspc := hroom.spc_pos
  refine stays_chain hroom (fun i hi => ?_) hw
  have hle : (c + i - 2) * s.geom.spc ≤ 4 * s.geom.spc := Nat.mul_le_mul_right _ (by omega)
  omega

theorem stays_writeTree (hroom : s.geom.Roomy s.espSectors) {w : Write} (hw : w ∈ s.writeTree) :
    s.Stays w := by
  have hcluster : ∀ c ∈ [rootC, efiDc, bootDc, sysbC], c ≤ 6 := by decide
  have hfirst : ∀ c ≤ 6, ∀ sector, s.Stays (.plain .esp (s.clba c) sector) := by
    intro c hc sector
    obtain ⟨k, hk, hlba⟩ := clba_inside hroom hc hroom.spc_pos
    rw [Nat.add_zero] at hlba
    exact .of_lt rfl hlba hk
  unfold writeTree at hw
  rw [List.mem_append, List.mem_append] at hw
  rcases hw with (hw | hw) | hw
  · obtain ⟨c, hc, hw⟩ := List.mem_flatMap.mp hw
    obtain ⟨i, hi, rfl⟩ := List.mem_map.mp hw
    obtain ⟨k, hk, hlba⟩ := clba_inside hroom (hcluster c hc) (List.mem_range.mp hi)
    exact .of_lt rfl hlba hk
  · simp only [List.mem_cons, List.not_mem_nil, or_false] at hw
    rcases hw with rfl | rfl | rfl | rfl
    · exact hfirst rootC (by decide) _
    · exact hfirst efiDc (by decide) _
    · exact hfirst bootDc (by decide) _
    · exact hfirst sysbC (by decide) _
  · obtain ⟨c, hc, hw⟩ := List.mem_flatMap.mp hw
    exact stays_chain_one hroom (hcluster c hc) hw

theorem stays_writeConf (hroom : s.geom.Roomy s.espSectors) {w : Write} (hw : w ∈ s.writeConf) :
    s.Stays w := by
  have hfull : buildLimineConf.length / 512 = 0 := by decide
  unfold writeConf at hw
  rw [hfull] at hw
  simp only [List.range_zero, List.map_nil, List.append_nil, List.mem_append] at hw
  rcases hw with hw | hw
  · exact stays_chain_one hroom (by decide) hw
  · rw [if_pos (Or.inr trivial), List.mem_singleton] at hw
    obtain ⟨k, hk, hlba⟩ := clba_inside (c := confC) hroom (by decide) hroom.spc_pos
    rw [hw]
    exact .of_lt rfl hlba hk

theorem stays_writeFile (hroom : s.geom.Roomy s.espSectors) {m : Module} {start : ℕ}
    (hstart : 2 ≤ start) (hfits : m.data ≠ [] → s.fileEnd start m ≤ s.espSectors) {w : Write}
    (hw : w ∈ s.writeFile m start (s.clustersOf m)) : s.Stays w := by
  unfold writeFile at hw
  split_ifs at hw with hlen
  · have hne : m.data ≠ [] := List.length_pos_iff.mp hlen
    have hend := hfits hne
    unfold fileEnd at hend
    rcases List.mem_append.mp hw with hw | hw
    · obtain ⟨htarget, -, j, hj, hlba, -⟩ := mem_writeClusters (clba_add hstart) hw
      refine .of_lt (k := s.geom.dataRel + (start - 2) * s.geom.spc + j) htarget ?_ (by omega)
      rw [hlba, clba, Nat.add_assoc, Nat.add_assoc, Nat.add_assoc]
    · -- the first sector of every cluster of the file holds bytes of it
      obtain ⟨-, hbound⟩ := clustersOf_bounds hroom.spc_pos hne
      refine stays_chain hroom (fun i hi => ?_) hw
      have hmul : (i + 1) * s.geom.spc ≤ s.clustersOf m * s.geom.spc :=
        Nat.mul_le_mul_right _ hi
      rw [Nat.sub_add_comm hstart, Nat.add_mul]
      rw [Nat.add_mul, Nat.one_mul] at hmul
      omega
  · simp at hw

theorem writeFile_fatal {m : Module} {start nc : ℕ} (hstart : 2 ≤ start) {w : Write}
    (hw : w ∈ s.writeFile m start nc) : w.fatal = false := by
  unfold writeFile at hw
  split_ifs at hw
  · rcases List.mem_append.mp hw with hw | hw
    · exact (mem_writeClusters (clba_add hstart) hw).2.1
    · exact (mem_writeChain hw).2.1
  · simp at hw

/-- The writes of an installation, by what is known about them. -/
theorem mem_steps (hroom : s.geom.Roomy s.espSectors) {w : Write} (hw : w ∈ s.steps.flatten) :
    w ∈ s.writeMbr ++ s.writeEntries ++ s.writeHeaders ∨ s.Stays w ∨
      w ∈ s.writeFile s.efi efiC s.efiNc ∨ w ∈ s.writeFile s.kernel s.kerC s.kerNc ∨
      w ∈ s.writeIdentity := by
  simp only [steps, List.flatten_cons, List.flatten_nil, List.append_nil, List.mem_append] at hw
  rcases hw with hw | hw | hw | hw | hw | hw | hw | hw | hw
  · exact Or.inl (by simp [hw])
  · exact Or.inl (by simp [hw])
  · exact Or.inl (by simp [hw])
  · exact Or.inr (Or.inl (stays_writeFat hroom hw))
  · exact Or.inr (Or.inl (stays_writeTree hroom hw))
  · exact Or.inr (Or.inr (Or.inl hw))
  · exact Or.inr (Or.inr (Or.inr (Or.inl hw)))
  · exact Or.inr (Or.inl (stays_writeConf hroom hw))
  · exact Or.inr (Or.inr (Or.inr (Or.inr hw)))

theorem two_le_kerC : 2 ≤ s.kerC := Nat.le_add_right_of_le (by decide)

/-- Without an abort every sector that is on the disk gets written. -/
theorem written_doInstall (hroom : s.geom.Roomy s.espSectors)
    (hparts : espStart + s.espSectors ≤ s.disk.sectors - 34) (disk : Device 512) {w : Write}
    (hw : w ∈ s.steps.flatten) (hlt : w.lba < s.disk.sectors) :
    (w.target, w.lba) ∈ (doInstall s (fun _ => false) disk).written := by
  refine (Session.written_runSteps fun v hv hfatal => ?_).2 w hw hlt
  have hespStart : espStart = 2048 := rfl
  rcases mem_steps hroom hv with hv | hv | hv | hv | hv
  · have hlba := (mem_tableWrites hv).2.resolve_right fun h => by simp [h.1] at hfatal
    omega
  · have hend := hv.2.2
    unfold espEnd at hend
    omega
  · rw [writeFile_fatal (by decide) hv] at hfatal
    cases hfatal
  · rw [writeFile_fatal two_le_kerC hv] at hfatal
    cases hfatal
  · rw [List.mem_singleton.mp hv]
    show s.rootStart < s.disk.sectors
    rw [rootStart_eq]
    omega

theorem Stays.placed {w : Write} (h : s.Stays w) : s.Placed (w.target, w.lba) := by
  rw [h.1]
  exact h.2

theorem inPlace_of_fits (hroom : s.geom.Roomy s.espSectors) (h : s.Fits) (aborts : ℕ → Bool)
    (disk : Device 512) : s.InPlace (doInstall s aborts disk) := by
  intro p hp
  rcases Session.mem_written_runSteps hp with hp | ⟨w, hw, rfl⟩
  · simp at hp
  rcases mem_steps hroom hw with hw | hw | hw | hw | hw
  · rw [(mem_tableWrites hw).1]
    trivial
  · exact hw.placed
  · exact (stays_writeFile hroom (by decide) h.efi hw).placed
  · exact (stays_writeFile hroom two_le_kerC h.kernel hw).placed
  · rw [List.mem_singleton.mp hw]
    refine ⟨le_refl s.rootStart, ?_⟩
    show s.rootStart ≤ s.rootEnd
    rw [rootStart_eq]
    exact h.partitions

/-- A file that does not end in the partition is written to a sector behind it. -/
theorem fileEnd_le_of_inPlace (hroom : s.geom.Roomy s.espSectors)
    (hparts : espStart + s.espSectors ≤ s.disk.sectors - 34) {disk : Device 512}
    (hplace : s.InPlace (doInstall s (fun _ => false) disk)) {m : Module} {start : ℕ}
    (hstart : 2 ≤ start) (hnear : s.geom.dataRel + (start - 2) * s.geom.spc ≤ s.espSectors + 8)
    (hmem : ∀ w ∈ s.writeFile m start (s.clustersOf m), w ∈ s.steps.flatten) (hne : m.data ≠ []) :
    s.fileEnd start m ≤ s.espSectors := by
  by_contra hend
  have hlen : 0 < m.data.length := List.length_pos_iff.mpr hne
  unfold fileEnd at hend
  generalize hbase : s.geom.dataRel + (start - 2) * s.geom.spc = base at hend hnear
  -- the first sector of the file that is not in the partition
  obtain ⟨w, hw, htarget, hlba⟩ := exists_mem_writeClusters (clba_add hstart) hroom.spc_pos
    (show (s.espSectors - base) * 512 < m.data.length by omega)
    (clustersOf_bounds hroom.spc_pos hne).1
  have hfile : w ∈ s.writeFile m start (s.clustersOf m) := by
    rw [writeFile, if_pos hlen]
    exact List.mem_append_left _ hw
  have hwhere : w.lba = espStart + (base + (s.espSectors - base)) := by
    rw [hlba, clba, ← hbase, Nat.add_assoc, Nat.add_assoc, Nat.add_assoc]
  have hespStart : espStart = 2048 := rfl
  have hwritten := written_doInstall hroom hparts disk (hmem w hfile) (by omega)
  have hin := hplace _ hwritten
  rw [htarget, hwhere] at hin
  have hlt := (inEsp_add _).mp hin
  omega

/-- On a disk and with a partition that the menu accepts, the table is valid and every write stays
in its partition exactly if partitions and files fit. -/
theorem inPlace_iff_fits (s : Setup) (hdisk : minSectors ≤ s.disk.sectors)
    (hsize : s.espSizeMb ∈ espSizes) :
    (s.TableValid ∧ ∀ aborts disk, s.InPlace (doInstall s aborts disk)) ↔ s.Fits := by
  have hroom : s.geom.Roomy s.espSectors := roomy_of_offered hsize
  have hdirs := hroom.dirs
  have hspc := hroom.spc_le
  have hvalid := tableValid_iff (s := s) (by have := hroom.spc_pos; omega)
  constructor
  · rintro ⟨htable, hplace⟩
    have hparts := hvalid.mp htable
    have hrun := hplace (fun _ => false) fun _ => Vector.replicate 512 0
    have hefi : s.efi.data ≠ [] → s.fileEnd efiC s.efi ≤ s.espSectors :=
      fileEnd_le_of_inPlace hroom hparts hrun (by decide) (by unfold efiC; omega)
        fun w hw => by simp [steps, efiNc, hw]
    refine ⟨hparts, hefi, fileEnd_le_of_inPlace hroom hparts hrun two_le_kerC ?_
      fun w hw => by simp [steps, kerNc, hw]⟩
    -- the kernel starts in the cluster after the loader's last
    have hstart : (s.kerC - 2) * s.geom.spc = 5 * s.geom.spc + s.efiNc * s.geom.spc := by
      rw [← Nat.add_mul, kerC, efiC, Nat.sub_add_comm (by decide)]
    rw [hstart]
    by_cases hne : s.efi.data = []
    · have hone : s.efiNc = 1 := by simp [efiNc, clustersOf, hne]
      rw [hone, Nat.one_mul]
      omega
    · have hend := hefi hne
      have hbound := (clustersOf_bounds hroom.spc_pos hne).2
      unfold fileEnd efiC at hend
      unfold efiNc
      omega
  · intro h
    exact ⟨hvalid.mpr h.partitions, inPlace_of_fits hroom h⟩

/-- A disk of 1 GiB. -/
theorem inPlace_iff_fits_large :
    (recommended 2097152 (by decide)).TableValid ∧ ∀ aborts disk,
      (recommended 2097152 (by decide)).InPlace
        (doInstall (recommended 2097152 (by decide)) aborts disk) :=
  (inPlace_iff_fits _ (by decide) (by decide)).mpr
    ⟨by decide, fun h => absurd rfl h, fun h => absurd rfl h⟩

/-- The smallest disk: the EFI system partition alone is larger. -/
theorem not_tableValid_smallest :
    minSectors ≤ (recommended 204800 (by decide)).disk.sectors ∧
      (recommended 204800 (by decide)).espSizeMb ∈ espSizes ∧
      ¬ ((recommended 204800 (by decide)).TableValid ∧ ∀ aborts disk,
        (recommended 204800 (by decide)).InPlace
          (doInstall (recommended 204800 (by decide)) aborts disk)) := by
  refine ⟨by decide, by decide, ?_⟩
  rintro ⟨htable, -⟩
  have hle := htable.esp.2.2
  revert hle
  decide

end Setup

end Aeterna.Installer
