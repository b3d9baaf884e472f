import Mathlib
import Aeterna.Lib.Ring
import Aeterna.Lib.Run
import Aeterna.Term.Keyboard

/-!
# Scancodes through the ring

Scancodes come in by the keyboard interrupt and by `kb_buffer_write`, and go out by `kb_irq_read`.
The counters run freely and no store looks whether the ring is full. While it is not, the unread
scancodes are a window of the ring, and what has been read with the window is what has come in
(`Inv.step`). A store to a full ring replaces the oldest scancode by the newest, which is then read
twice.
-/

namespace Aeterna.Term

namespace KbBuffer

/-- A scancode of the USB keyboard is stored by the same statements as in the interrupt. -/
def kbBufferWrite (b : KbBuffer) (scancode : UInt8) : KbBuffer := b.store scancode

/-- The number of stores since the last one that has been read. -/
def unread (b : KbBuffer) : ℕ := (b.write - b.read).toNat

/-- The unread scancodes, oldest first. -/
def contents (b : KbBuffer) : List UInt8 := Lib.Ring.window 256 b.buf b.read.toNat b.unread

theorem toNat_slot (n : UInt64) : (n &&& (kbBufferSize - 1)).toNat = n.toNat % 256 := by
  have hmask : (kbBufferSize - 1).toNat = 2 ^ 8 - 1 := rfl
  rw [UInt64.toNat_and, hmask, Nat.and_two_pow_sub_one_eq_mod]

theorem write_slot (b : KbBuffer) : b.write.toNat % 256 = (b.read.toNat + b.unread) % 256 := by
  have hwrite := b.write.toNat_lt
  have hread := b.read.toNat_lt
  rw [unread, UInt64.toNat_sub]
  omega

theorem unread_write_succ {b : KbBuffer} (h : b.unread < 256) (buf : ℕ → UInt8) :
    unread { b with buf := buf, write := b.write + 1 } = b.unread + 1 := by
  have hsub : b.write + 1 - b.read = b.write - b.read + 1 := by grind
  unfold unread at h ⊢
  rw [hsub, UInt64.toNat_add]
  exact Nat.mod_eq_of_lt (by rw [UInt64.toNat_one]; omega)

theorem contents_store {b : KbBuffer} (h : b.unread < 256) (scancode : UInt8) :
    (b.store scancode).contents = b.contents ++ [scancode] := by
  have hunread : (b.store scancode).unread = b.unread + 1 := unread_write_succ h _
  rw [contents, hunread, store, toNat_slot, write_slot]
  exact Lib.Ring.window_update scancode h

theorem unread_eq_zero_iff (b : KbBuffer) : b.unread = 0 ↔ b.read = b.write := by
  unfold unread
  constructor
  · intro h
    have hzero : b.write - b.read = 0 := UInt64.toNat_inj.mp h
    grind
  · intro h
    rw [h, sub_self]
    rfl

theorem kbIrqRead_cases (b : KbBuffer) :
    b.kbIrqRead = (none, b) ∨ ∃ scancode b', b.kbIrqRead = (some scancode, b') ∧
      b.contents = scancode :: b'.contents := by
  unfold kbIrqRead
  split
  · exact .inl rfl
  · rename_i hne
    right
    have hpos : b.unread ≠ 0 := fun h => hne ((unread_eq_zero_iff b).mp h)
    have hunread : b.unread = unread { b with read := b.read + 1 } + 1 := by
      have hsub : b.write - b.read = b.write - (b.read + 1) + 1 := by grind
      unfold unread at hpos ⊢
      dsimp only
      have hlt := (b.write - (b.read + 1)).toNat_lt
      rw [hsub, UInt64.toNat_add] at hpos ⊢
      rw [UInt64.toNat_one] at hpos ⊢
      omega
    refine ⟨_, _, rfl, ?_⟩
    rw [toNat_slot, contents, hunread, Lib.Ring.window_congr (Nat.mod_mod _ _).symm,
      Lib.Ring.window_cons (Nat.mod_lt _ (by omega))]
    congr 1
    apply Lib.Ring.window_congr
    have hread := b.read.toNat_lt
    have hsucc : (b.read + 1).toNat = (b.read.toNat + 1) % 2 ^ 64 := UInt64.toNat_add _ _
    rw [hsucc]
    omega

end KbBuffer

/-! ## Runs -/

/-- The ring, with the scancodes that have come in and those that have been read. -/
structure Scancodes where
  buffer : KbBuffer
  arrived : List UInt8
  returned : List UInt8

namespace Scancodes

inductive Action where
  /-- the keyboard interrupt -/
  | irq (scancode : UInt8)
  /-- `kb_buffer_write` -/
  | inject (scancode : UInt8)
  /-- `kb_irq_read` -/
  | read

def boot : Scancodes := ⟨.new, [], []⟩

def step (s : Scancodes) : Action → Scancodes
  | .irq scancode =>
    { s with buffer := s.buffer.store scancode, arrived := s.arrived ++ [scancode] }
  | .inject scancode =>
    { s with buffer := s.buffer.kbBufferWrite scancode, arrived := s.arrived ++ [scancode] }
  | .read =>
    { s with
      buffer := s.buffer.kbIrqRead.2, returned := s.returned ++ s.buffer.kbIrqRead.1.toList }

/-- A scancode comes in only while fewer than 256 are unread. -/
def HasRoom (s : Scancodes) : Action → Prop
  | .irq _ | .inject _ => s.buffer.unread < 256
  | .read => True

instance (s : Scancodes) : DecidablePred s.HasRoom
  | .irq _ | .inject _ => inferInstanceAs (Decidable (_ < _))
  | .read => inferInstanceAs (Decidable True)

/-- Nothing is lost: what has come in is what has been read and then what is unread. -/
def Inv (s : Scancodes) : Prop := s.arrived = s.returned ++ s.buffer.contents

variable {s : Scancodes}

theorem Inv.step (h : s.Inv) (a : Action) (ha : s.HasRoom a) : (s.step a).Inv := by
  have hstore : ∀ scancode, s.buffer.unread < 256 →
      s.arrived ++ [scancode] = s.returned ++ (s.buffer.store scancode).contents := by
    intro scancode hroom
    rw [KbBuffer.contents_store hroom, ← List.append_assoc, ← h]
  cases a with
  | irq scancode => exact hstore scancode ha
  | inject scancode => exact hstore scancode ha
  | read =>
    obtain hnone | ⟨scancode, b, hsome, hcontents⟩ := s.buffer.kbIrqRead_cases
    · simp only [Inv, Scancodes.step, hnone, Option.toList_none, List.append_nil]
      exact h
    · simp only [Inv, Scancodes.step, hsome, Option.toList_some, List.append_assoc]
      rw [h, hcontents]
      rfl

/-- Along every run that stores only while there is room, the scancodes returned are a subsequence
of those that came in. -/
theorem returned_sublist_run (as : List Action) (h : Lib.EachStep step HasRoom boot as) :
    Lib.Always step (fun s => s.returned.Sublist s.arrived) boot as := by
  have hinv : Lib.Always step Inv boot as :=
    Lib.always_of_eachStep rfl (fun s a hs ha => Inv.step hs a ha) h
  apply hinv.imp
  intro s hs
  rw [hs]
  exact List.sublist_append_left _ _

/-- A key of each source, read at once. -/
def twoKeys : List Action := [.irq 0x1E, .inject 0x30, .read, .read, .read]

theorem returned_sublist_twoKeys :
    Lib.EachStep step HasRoom boot twoKeys ∧ (Lib.run step boot twoKeys).returned = [0x1E, 0x30] ∧
      Lib.Always step (fun s => s.returned.Sublist s.arrived) boot twoKeys :=
  ⟨by decide +kernel, by decide +kernel, returned_sublist_run twoKeys (by decide +kernel)⟩

/-- 257 scancodes, the last one another than the rest, and then two reads. -/
def lappedRun : List Action := List.replicate 256 (.irq 0x1E) ++ [.irq 0x30, .read, .read]

theorem not_returned_sublist_lapped :
    ¬ Lib.Always step (fun s => s.returned.Sublist s.arrived) boot lappedRun := by
  decide +kernel

end Scancodes

end Aeterna.Term
