import Aeterna.Mm.Exclusive

/-!
# Frames for page tables

The virtual memory manager asks for single frames and relies on getting fresh ones. `FrameSource`
is that contract: a frame that was returned is not free any more, and no call frees one. The
allocator of `mm/physical` meets it as long as its regions lie below `2 ^ 52`.
-/

namespace Aeterna.Mm

/-- The bits of a page table entry that hold a physical frame address. -/
def addrMask : UInt64 := 0x000FFFFFFFFFF000

/-- A source of page frames with the set of frames that it may still return. -/
class FrameSource (σ : Type) where
  allocFrame : σ → Option UInt64 × σ
  Free : σ → UInt64 → Prop
  free_of_some : ∀ {s s' f}, allocFrame s = (some f, s') → Free s f
  not_free_of_some : ∀ {s s' f}, allocFrame s = (some f, s') → ¬ Free s' f
  free_of_free : ∀ {s f}, Free (allocFrame s).2 f → Free s f
  and_addrMask : ∀ {s f}, Free s f → f &&& addrMask = f

/-- A page-aligned address below `2 ^ 52` is its own address field. -/
theorem and_addrMask_eq {a : UInt64} (ha : a.toNat % 2 ^ 12 = 0) (hlt : a.toNat < 2 ^ 52) :
    a &&& addrMask = a := by
  have hmask : addrMask.toNat = (2 ^ 40 - 1) * 2 ^ 12 := by decide
  refine UInt64.toNat_inj.mp ?_
  rw [Lib.Word.toNat_and_field a hmask]
  omega

/-! ## The physical allocator as a frame source -/

/-- An initialised physical allocator whose regions are within the 52-bit physical address space. -/
structure Allocator where
  pmm : Pmm
  paged : Paged pmm
  next_le : pmm.nextFreeFrame.toNat ≤ 2 ^ 52
  stop_le : ∀ r ∈ pmm.regions, r.base.toNat + r.length.toNat ≤ 2 ^ 52

theorem frameFits_of_le {next : UInt64} {rs : List PhysRegion} (hnext : next.toNat ≤ 2 ^ 52)
    (hrs : ∀ r ∈ rs, r.base.toNat + r.length.toNat ≤ 2 ^ 52) : Pmm.FrameFits next rs := by
  have hsize : frameSize.toNat = 4096 := rfl
  induction rs generalizing next with
  | nil => trivial
  | cons r rs ih =>
    have hr := hrs r List.mem_cons_self
    have hrest : ∀ q ∈ rs, q.base.toNat + q.length.toNat ≤ 2 ^ 52 :=
      fun q hq => hrs q (List.mem_cons_of_mem r hq)
    refine ⟨lt_of_le_of_lt hr (by decide), ?_⟩
    split_ifs
    · exact ⟨lt_of_le_of_lt (Nat.add_le_add_right hnext _) (by rw [hsize]; decide),
        fun _ => ih hnext hrest⟩
    · have hbase : r.base.toNat ≤ 2 ^ 52 := (Nat.le_add_right _ _).trans hr
      exact ⟨lt_of_le_of_lt (Nat.add_le_add_right hbase _) (by rw [hsize]; decide),
        fun _ => ih hbase hrest⟩

namespace Allocator

theorem allocFrame_cases (s : Allocator) :
    (∃ a s', s.pmm.allocFrame = (some a, s') ∧ Granted s.pmm .allocFrame a s') ∨
      (∃ s', s.pmm.allocFrame = (none, s') ∧ Refused s.pmm s') :=
  call_cases s.paged (c := .allocFrame) (frameFits_of_le s.next_le s.stop_le)

theorem stop_le_of_granted (s : Allocator) {a : UInt64} {s' : Pmm}
    (h : Granted s.pmm .allocFrame a s') : a.toNat + 4096 ≤ 2 ^ 52 := by
  obtain ⟨r, hr, -, hstop⟩ := h.inside
  exact hstop.trans (s.stop_le r hr)

/-- `alloc_frame` keeps the allocator within the physical address space. -/
def allocFrame (s : Allocator) : Option UInt64 × Allocator :=
  (s.pmm.allocFrame.1,
    { pmm := s.pmm.allocFrame.2
      paged := by
        rcases s.allocFrame_cases with ⟨a, s', he, hg⟩ | ⟨s', he, hr⟩ <;> simp only [he]
        · have halign := hg.aligned_frame
          refine ⟨?_, by rw [hg.regions]; exact s.paged.base⟩
          have hbytes : Call.allocFrame.bytes.toNat = 4096 := rfl
          rw [hg.next, hbytes]
          omega
        · exact ⟨s.paged.base_or_next hr.jump, by rw [hr.regions]; exact s.paged.base⟩
      next_le := by
        rcases s.allocFrame_cases with ⟨a, s', he, hg⟩ | ⟨s', he, hr⟩ <;> simp only [he]
        · rw [hg.next]
          exact s.stop_le_of_granted hg
        · rcases hr.jump with h | ⟨r, hmem, h⟩ <;> rw [h]
          · exact s.next_le
          · exact (Nat.le_add_right _ _).trans (s.stop_le r hmem)
      stop_le := by
        rcases s.allocFrame_cases with ⟨a, s', he, hg⟩ | ⟨s', he, hr⟩ <;> simp only [he]
        · rw [hg.regions]
          exact s.stop_le
        · rw [hr.regions]
          exact s.stop_le })

theorem granted_of_allocFrame {s s' : Allocator} {f : UInt64} (h : s.allocFrame = (some f, s')) :
    Granted s.pmm .allocFrame f s'.pmm := by
  have hf : s.pmm.allocFrame.1 = some f := congrArg Prod.fst h
  have hp : s.pmm.allocFrame.2 = s'.pmm := congrArg (fun r => r.2.pmm) h
  rcases s.allocFrame_cases with ⟨a, p, he, hg⟩ | ⟨p, he, -⟩ <;> rw [he] at hf hp
  · cases hf
    cases hp
    exact hg
  · cases hf

/-- The frames at or above the bump pointer. -/
instance : FrameSource Allocator where
  allocFrame := allocFrame
  Free s f := s.pmm.nextFreeFrame.toNat ≤ f.toNat ∧ f.toNat % 2 ^ 12 = 0 ∧ f.toNat + 4096 ≤ 2 ^ 52
  free_of_some := by
    intro s s' f h
    have hg := granted_of_allocFrame h
    exact ⟨hg.above, hg.aligned_frame, s.stop_le_of_granted hg⟩
  not_free_of_some := by
    rintro s s' f h ⟨hle, -, -⟩
    have hbytes : Call.allocFrame.bytes.toNat = 4096 := rfl
    rw [(granted_of_allocFrame h).next, hbytes] at hle
    omega
  free_of_free := by
    rintro s f ⟨hle, hf⟩
    refine ⟨?_, hf⟩
    rcases s.allocFrame_cases with ⟨a, p, he, hg⟩ | ⟨p, he, hr⟩ <;>
      simp only [allocFrame, he] at hle
    · exact (hg.above.trans (hg.next ▸ Nat.le_add_right _ _)).trans hle
    · exact hr.next.trans hle
  and_addrMask := fun ⟨_, hmod, hlt⟩ => and_addrMask_eq hmod (by omega)

end Allocator

end Aeterna.Mm
