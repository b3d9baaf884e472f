import Mathlib
import Aeterna.Lib.Ring
import Aeterna.Lib.Calls

/-!
# The shared memory ring

`core/ipc/smr.rs`: a ring of 128 descriptors between two execution domains. `head` and `tail` count
the descriptors that were ever pushed and popped, modulo 2^32; the cell of a descriptor is its number
modulo 128. Since 128 divides 2^32 the cells go on in order when a counter wraps, so the ring is a
bounded queue whatever the counters start from (`SmrRing.results_eq_queue`).
-/

namespace Aeterna.Ipc

open Lib.Ring

/-! ## The ring -/

structure DescriptorMetadata where
  tag : UInt64
  flags : UInt64

structure SmrDescriptor where
  physAddr : UInt64
  length : UInt64
  permissions : UInt32
  generation : UInt32
  metadata : DescriptorMetadata

def smrCapacity : ℕ := 128

structure SmrRing where
  head : UInt32
  tail : UInt32
  descriptors : ℕ → SmrDescriptor

namespace SmrRing

def tryPush (r : SmrRing) (desc : SmrDescriptor) : Bool × SmrRing :=
  let h := r.head
  let t := r.tail
  if UInt32.ofNat smrCapacity ≤ h - t then (false, r)
  else
    (true, { r with
      descriptors := Function.update r.descriptors (h.toNat % smrCapacity) desc
      head := h + 1 })

def tryPop (r : SmrRing) : Option SmrDescriptor × SmrRing :=
  let t := r.tail
  let h := r.head
  if t = h then (none, r)
  else (some (r.descriptors (t.toNat % smrCapacity)), { r with tail := t + 1 })

end SmrRing

/-! ## Calls -/

inductive Call where
  | push (desc : SmrDescriptor)
  | pop

inductive Result where
  | pushed (ok : Bool)
  | popped (desc : Option SmrDescriptor)

def SmrRing.call (r : SmrRing) : Call → Result × SmrRing
  | .push desc => ((r.tryPush desc).1 |> .pushed, (r.tryPush desc).2)
  | .pop => (r.tryPop.1 |> .popped, r.tryPop.2)

/-- A queue of at most 128 descriptors, the oldest first. -/
def queueCall (q : List SmrDescriptor) : Call → Result × List SmrDescriptor
  | .push desc => if q.length = smrCapacity then (.pushed false, q) else (.pushed true, q ++ [desc])
  | .pop => (.popped q.head?, q.tail)

/-! ## Refinement -/

namespace SmrRing

variable {r : SmrRing}

def count (r : SmrRing) : ℕ := (r.head - r.tail).toNat

/-- The descriptors in the ring, the oldest first. -/
def contents (r : SmrRing) : List SmrDescriptor :=
  window smrCapacity r.descriptors r.tail.toNat r.count

theorem head_toNat (r : SmrRing) : r.head.toNat = (r.tail.toNat + r.count) % 2 ^ 32 := by
  have hhead := r.head.toNat_lt
  have htail := r.tail.toNat_lt
  rw [count, UInt32.toNat_sub]
  omega

theorem head_cell (r : SmrRing) :
    r.head.toNat % smrCapacity = (r.tail.toNat + r.count) % smrCapacity := by
  rw [r.head_toNat, smrCapacity]
  omega

theorem full_iff (r : SmrRing) :
    UInt32.ofNat smrCapacity ≤ r.head - r.tail ↔ smrCapacity ≤ r.count := by
  rw [UInt32.le_iff_toNat_le]
  rfl

theorem empty_iff (r : SmrRing) : r.tail = r.head ↔ r.count = 0 := by
  have hhead := r.head_toNat
  have htail := r.tail.toNat_lt
  rw [← UInt32.toNat_inj]
  have hcount : r.count < 2 ^ 32 := (r.head - r.tail).toNat_lt
  omega

/-- The ring holds the elements of the queue, and not more than fit. -/
structure Represents (r : SmrRing) (q : List SmrDescriptor) : Prop where
  contents : r.contents = q
  bound : r.count ≤ smrCapacity

theorem Represents.length_eq {q : List SmrDescriptor} (h : r.Represents q) :
    q.length = r.count := by
  rw [← h.contents]
  exact length_window

/-- After a push there is one more, unless the counter would go all the way round. -/
theorem count_push (h : r.count < smrCapacity) (descriptors : ℕ → SmrDescriptor) :
    (⟨r.head + 1, r.tail, descriptors⟩ : SmrRing).count = r.count + 1 := by
  have hhead := r.head_toNat
  have htail := r.tail.toNat_lt
  rw [smrCapacity] at h
  rw [count, UInt32.toNat_sub, UInt32.toNat_add, UInt32.toNat_one, hhead]
  dsimp only
  omega

theorem count_pop (h : r.count ≠ 0) :
    ({ r with tail := r.tail + 1 } : SmrRing).count + 1 = r.count := by
  have hhead := r.head_toNat
  have htail := r.tail.toNat_lt
  have hcount : r.count < 2 ^ 32 := (r.head - r.tail).toNat_lt
  rw [count, UInt32.toNat_sub, UInt32.toNat_add, UInt32.toNat_one]
  dsimp only
  omega

theorem tryPush_represents {q : List SmrDescriptor} (h : r.Represents q) (desc : SmrDescriptor) :
    (r.call (.push desc)).1 = (queueCall q (.push desc)).1 ∧
      (r.call (.push desc)).2.Represents (queueCall q (.push desc)).2 := by
  have hbound := h.bound
  unfold SmrRing.call tryPush queueCall
  dsimp only
  rw [h.length_eq]
  by_cases hfull : smrCapacity ≤ r.count
  · rw [if_pos (r.full_iff.mpr hfull), if_pos (le_antisymm hbound hfull)]
    exact ⟨rfl, h⟩
  · have hroom : r.count < smrCapacity := Nat.lt_of_not_le hfull
    rw [if_neg (mt r.full_iff.mp hfull), if_neg (Nat.ne_of_lt hroom)]
    refine ⟨rfl, ?_, ?_⟩
    · rw [SmrRing.contents, count_push hroom]
      dsimp only
      rw [r.head_cell, window_update desc hroom, ← h.contents]
      rfl
    · rw [count_push hroom]
      exact hroom

theorem tryPop_represents {q : List SmrDescriptor} (h : r.Represents q) :
    (r.call .pop).1 = (queueCall q .pop).1 ∧
      (r.call .pop).2.Represents (queueCall q .pop).2 := by
  have hbound := h.bound
  unfold SmrRing.call tryPop queueCall
  dsimp only
  by_cases hempty : r.count = 0
  · have hq : q = [] := List.length_eq_zero_iff.mp (h.length_eq.trans hempty)
    subst hq
    rw [if_pos (r.empty_iff.mpr hempty)]
    exact ⟨rfl, h⟩
  · have hcount := count_pop hempty
    rw [if_neg (mt r.empty_iff.mp hempty)]
    -- the oldest descriptor and the rest
    have hsplit : q = r.descriptors (r.tail.toNat % smrCapacity) ::
        ({ r with tail := r.tail + 1 } : SmrRing).contents := by
      have htail : (r.tail + 1).toNat % smrCapacity =
          (r.tail.toNat % smrCapacity + 1) % smrCapacity % smrCapacity := by
        rw [UInt32.toNat_add, UInt32.toNat_one, smrCapacity]
        omega
      rw [← h.contents, SmrRing.contents, SmrRing.contents, ← hcount,
        window_congr (Nat.mod_mod r.tail.toNat smrCapacity).symm,
        window_cons (Nat.mod_lt _ (by decide)), window_congr htail]
    have hbound' : ({ r with tail := r.tail + 1 } : SmrRing).count ≤ smrCapacity := by omega
    rw [hsplit]
    exact ⟨rfl, rfl, hbound'⟩

/-- The ring is a queue of 128 descriptors, from wherever its counters start. -/
theorem results_eq_queue (start : UInt32) (descriptors : ℕ → SmrDescriptor) (calls : List Call) :
    Lib.results SmrRing.call ⟨start, start, descriptors⟩ calls =
      Lib.results queueCall [] calls := by
  have hstart : (⟨start, start, descriptors⟩ : SmrRing).Represents [] := by
    have hcount : (⟨start, start, descriptors⟩ : SmrRing).count = 0 := by
      rw [count, UInt32.sub_self]
      rfl
    refine ⟨?_, ?_⟩
    · rw [SmrRing.contents, hcount]
      rfl
    · rw [hcount]
      exact Nat.zero_le _
  refine Lib.results_eq (fun r q a h => ?_) hstart calls
  cases a with
  | push desc => exact tryPush_represents h desc
  | pop => exact tryPop_represents h

end SmrRing

end Aeterna.Ipc
