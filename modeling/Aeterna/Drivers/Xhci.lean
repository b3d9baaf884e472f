import Mathlib
import Aeterna.Lib.Run

/-!
# The rings of the USB host controller

`src/xhci/mod.rs`: the driver puts transfer request blocks on the command ring (`send_command`) and
on the transfer ring (`enqueue_xfer_trb`). The last block of a ring is a Link that leads back to its
start, and the cycle bit of a block says in which lap it was written. The controller takes a block
only if its cycle bit is the controller's cycle state, and inverts the state at the Link.

The driver inverts its own cycle at the end of a lap, but never the cycle bit of the Link. The
controller therefore passes the Link after the first lap and not after the second one: it takes two
laps of blocks (`takesAll_run`) and no more.
-/

namespace Aeterna.Drivers.Xhci

/-! ## Blocks -/

structure Trb where
  paramLo : UInt32
  paramHi : UInt32
  status : UInt32
  control : UInt32
  deriving DecidableEq

namespace Trb

def zero : Trb := ⟨0, 0, 0, 0⟩

def typeShift : UInt32 := 10
def trbLink : UInt32 := 6 <<< typeShift
def trbNoOpCmd : UInt32 := 23 <<< typeShift
def trbCycle : UInt32 := 1
def toggleCycle : UInt32 := 2

def link (phys : UInt64) : Trb where
  paramLo := phys.toUInt32
  paramHi := (phys >>> 32).toUInt32
  status := 0
  control := trbLink ||| trbCycle ||| toggleCycle

def withCycle (t : Trb) (cycle : UInt32) : Trb :=
  { t with control := t.control &&& ~~~1 ||| cycle }

/-- What a block says, apart from its cycle bit. -/
def content (t : Trb) : Trb := { t with control := t.control &&& ~~~1 }

/-- The type field of the block is that of a Link. -/
def IsLink (t : Trb) : Prop := t.control &&& 0x3F <<< typeShift = trbLink

instance (t : Trb) : Decidable t.IsLink := inferInstanceAs (Decidable (_ = _))

variable {t : Trb} {cycle : UInt32}

theorem and_control_withCycle {mask : UInt32} (hmask : ~~~1 &&& mask = mask)
    (hcycle : cycle &&& mask = 0) :
    (t.withCycle cycle).control &&& mask = t.control &&& mask := by
  apply UInt32.toBitVec_inj.mp
  have hmask' := congrArg UInt32.toBitVec hmask
  have hcycle' := congrArg UInt32.toBitVec hcycle
  calc (t.control.toBitVec &&& ~~~1#32 ||| cycle.toBitVec) &&& mask.toBitVec
      = t.control.toBitVec &&& (~~~1#32 &&& mask.toBitVec) ||| cycle.toBitVec &&& mask.toBitVec := by
        rw [BitVec.and_or_distrib_right, BitVec.and_assoc]
    _ = t.control.toBitVec &&& mask.toBitVec ||| 0#32 := congrArg₂ _ (congrArg _ hmask') hcycle'
    _ = t.control.toBitVec &&& mask.toBitVec := BitVec.or_zero

theorem control_withCycle (hcycle : cycle = 0 ∨ cycle = 1) :
    (t.withCycle cycle).control &&& trbCycle = cycle := by
  apply UInt32.toBitVec_inj.mp
  ext i hi
  rcases hcycle with rfl | rfl <;> simp [withCycle, trbCycle] <;> grind

theorem content_withCycle (hcycle : cycle = 0 ∨ cycle = 1) :
    (t.withCycle cycle).content = t.content := by
  have hcontrol : (t.withCycle cycle).control &&& ~~~1 = t.control &&& ~~~1 :=
    and_control_withCycle rfl (by rcases hcycle with rfl | rfl <;> rfl)
  unfold content
  rw [hcontrol]
  rfl

theorem isLink_withCycle (hcycle : cycle = 0 ∨ cycle = 1) :
    (t.withCycle cycle).IsLink ↔ t.IsLink := by
  unfold IsLink
  rw [and_control_withCycle rfl (by rcases hcycle with rfl | rfl <;> rfl)]

end Trb

/-! ## The driver -/

/-- A ring, with the index of the next block to write. -/
structure TrbRing where
  trbs : ℕ → Trb
  enqueue : ℕ
  cycle : UInt32

namespace TrbRing

/-- The ring of `size` blocks at an address. -/
def init (size : ℕ) (phys : UInt64) : TrbRing where
  trbs := Function.update (fun _ => Trb.zero) (size - 1) (Trb.link phys)
  enqueue := 0
  cycle := 1

/-- Goes on at the start of the ring when the Link is next. -/
def wrap (size : ℕ) (r : TrbRing) : TrbRing :=
  if size - 1 ≤ r.enqueue then { r with enqueue := 0, cycle := r.cycle ^^^ 1 } else r

/-- Writes a block. The functions of the source call themselves once after wrapping. -/
def put (size : ℕ) (r : TrbRing) (t : Trb) : TrbRing :=
  let r := r.wrap size
  { r with
    trbs := Function.update r.trbs r.enqueue (t.withCycle r.cycle), enqueue := r.enqueue + 1 }

variable {size : ℕ} {r : TrbRing}

theorem put_of_lt (h : r.enqueue < size - 1) (t : Trb) : r.put size t =
    ⟨Function.update r.trbs r.enqueue (t.withCycle r.cycle), r.enqueue + 1, r.cycle⟩ := by
  rw [put, wrap, if_neg (not_le.mpr h)]

theorem put_of_le (h : size - 1 ≤ r.enqueue) (t : Trb) : r.put size t =
    ⟨Function.update r.trbs 0 (t.withCycle (r.cycle ^^^ 1)), 1, r.cycle ^^^ 1⟩ := by
  rw [put, wrap, if_pos h]

end TrbRing

def cmdRingSize : ℕ := 64
def xferRingSize : ℕ := 64

def sendCommand : TrbRing → Trb → TrbRing := TrbRing.put cmdRingSize

def enqueueXferTrb : TrbRing → Trb → TrbRing := TrbRing.put xferRingSize

/-! ## The controller -/

structure Consumer where
  index : ℕ
  cycleState : UInt32
  taken : List Trb
  deriving DecidableEq

/-- What the controller takes next, if anything. -/
def Consumer.next (c : Consumer) (trbs : ℕ → Trb) : Option Consumer :=
  let t := trbs c.index
  if t.control &&& Trb.trbCycle ≠ c.cycleState then none
  else if t.IsLink then
    some { c with
      index := 0
      cycleState :=
        if t.control &&& Trb.toggleCycle ≠ 0 then c.cycleState ^^^ 1 else c.cycleState }
  else some { c with index := c.index + 1, taken := c.taken ++ [t] }

section Next

variable {c : Consumer} {trbs : ℕ → Trb} {t : Trb} {cycle : UInt32}

theorem Consumer.next_eq_none (ht : trbs c.index = t.withCycle cycle)
    (hcycle : cycle = 0 ∨ cycle = 1) (hne : cycle ≠ c.cycleState) : c.next trbs = none := by
  rw [Consumer.next, ht, Trb.control_withCycle hcycle]
  exact if_pos hne

theorem Consumer.next_eq_some (ht : trbs c.index = t.withCycle cycle)
    (hcycle : cycle = 0 ∨ cycle = 1) (heq : cycle = c.cycleState) (hlink : ¬ t.IsLink) :
    c.next trbs = some ⟨c.index + 1, c.cycleState, c.taken ++ [t.withCycle cycle]⟩ := by
  rw [Consumer.next, ht, Trb.control_withCycle hcycle]
  exact (if_neg (not_not.mpr heq)).trans
    (if_neg (mt (Trb.isLink_withCycle hcycle).mp hlink))

/-- The Link is passed in the first lap, and only there. -/
theorem Consumer.next_link {phys : UInt64} (ht : trbs c.index = Trb.link phys) :
    c.next trbs = if c.cycleState = 1 then some ⟨0, 0, c.taken⟩ else none := by
  have hcontrol : (Trb.link phys).control = 0x1803 := by
    simp only [Trb.link]
    decide
  have hlink : (Trb.link phys).IsLink := by
    rw [Trb.IsLink, hcontrol]
    decide
  rw [Consumer.next, ht]
  simp only [hcontrol, if_pos hlink]
  rw [show (0x1803 : UInt32) &&& Trb.trbCycle = 1 by decide,
    if_pos (show (0x1803 : UInt32) &&& Trb.toggleCycle ≠ 0 by decide)]
  by_cases h : c.cycleState = 1
  · rw [if_pos h, if_neg (not_not.mpr h.symm), h]
    rfl
  · rw [if_neg h, if_pos (Ne.symm h)]

end Next

/-- A ring between the driver and the controller, with the blocks that were issued. -/
structure Channel where
  ring : TrbRing
  consumer : Consumer
  issued : List Trb

namespace Channel

inductive Action where
  /-- the driver writes a block -/
  | issue (t : Trb)
  /-- the controller takes what it can take next -/
  | take

def init (size : ℕ) (phys : UInt64) : Channel := ⟨.init size phys, ⟨0, 1, []⟩, []⟩

def next (s : Channel) : Option Consumer := s.consumer.next s.ring.trbs

def step (put : TrbRing → Trb → TrbRing) (s : Channel) : Action → Channel
  | .issue t => { s with ring := put s.ring t, issued := s.issued ++ [t] }
  | .take => { s with consumer := s.next.getD s.consumer }

/-- The driver issues a block that is no Link, at a place whose block the controller has taken. -/
def KeepsUp (size : ℕ) (s : Channel) : Action → Prop
  | .issue t => ¬ t.IsLink ∧ s.issued.length < s.consumer.taken.length + (size - 1)
  | .take => True

/-- Only blocks of the first two laps are issued. -/
def TwoLaps (size : ℕ) (s : Channel) : Action → Prop
  | .issue _ => s.issued.length < 2 * (size - 1)
  | .take => True

instance (size : ℕ) (s : Channel) : DecidablePred (s.KeepsUp size)
  | .issue _ => inferInstanceAs (Decidable (_ ∧ _))
  | .take => inferInstanceAs (Decidable True)

instance (size : ℕ) (s : Channel) : DecidablePred (s.TwoLaps size)
  | .issue _ => inferInstanceAs (Decidable (_ < _))
  | .take => inferInstanceAs (Decidable True)

/-- What was taken is what was issued, from the front on, and all of it when nothing is left to
take. -/
def TakesAll (s : Channel) : Prop :=
  s.consumer.taken.map Trb.content <+: s.issued.map Trb.content ∧
    (s.next = none → s.consumer.taken.map Trb.content = s.issued.map Trb.content)

instance : DecidablePred TakesAll := fun _ => inferInstanceAs (Decidable (_ ∧ (_ → _)))

/-! ## Two laps -/

/-- The block at a place before the Link after some were issued: that of the second lap, of the
first one, or none. -/
def written (last : ℕ) (issued : List Trb) (i : ℕ) : Trb :=
  if last + i < issued.length then (issued.getD (last + i) .zero).withCycle 0
  else if i < issued.length then (issued.getD i .zero).withCycle 1
  else .zero

/-- In the first two laps the places before the Link hold what was issued last at each of them, and
the controller stands behind what it has taken. -/
structure Inv (size : ℕ) (phys : UInt64) (s : Channel) : Prop where
  proper : ∀ t ∈ s.issued, ¬ t.IsLink
  issued_le : s.issued.length ≤ 2 * (size - 1)
  taken_le : s.consumer.taken.length ≤ s.issued.length
  keeps_up : s.issued.length ≤ s.consumer.taken.length + (size - 1)
  enqueue : s.ring.enqueue =
    if s.issued.length ≤ size - 1 then s.issued.length else s.issued.length - (size - 1)
  cycle : s.ring.cycle = if s.issued.length ≤ size - 1 then 1 else 0
  link : s.ring.trbs (size - 1) = Trb.link phys
  slots : ∀ i < size - 1, s.ring.trbs i = written (size - 1) s.issued i
  position : s.consumer.taken.length ≤ size - 1 ∧ s.consumer.index = s.consumer.taken.length ∧
      s.consumer.cycleState = 1 ∨
    size - 1 ≤ s.consumer.taken.length ∧
      s.consumer.index = s.consumer.taken.length - (size - 1) ∧ s.consumer.cycleState = 0
  taken : s.consumer.taken.map Trb.content =
    (s.issued.map Trb.content).take s.consumer.taken.length

variable {size : ℕ} {phys : UInt64} {s : Channel}

theorem inv_init (size : ℕ) (phys : UInt64) : (init size phys).Inv size phys where
  proper := fun t ht => absurd ht List.not_mem_nil
  issued_le := Nat.zero_le _
  taken_le := le_rfl
  keeps_up := Nat.zero_le _
  enqueue := rfl
  cycle := rfl
  link := by simp [init, TrbRing.init]
  slots := fun i hi => by simp [init, TrbRing.init, written, hi.ne]
  position := .inl ⟨Nat.zero_le _, rfl, rfl⟩
  taken := rfl

theorem written_append {last i : ℕ} (issued : List Trb) (t : Trb)
    (hi : i ≠ issued.length) (hlast : last + i ≠ issued.length) :
    written last (issued ++ [t]) i = written last issued i := by
  have hlen : (issued ++ [t]).length = issued.length + 1 := by simp
  have hget : ∀ k < issued.length, (issued ++ [t]).getD k .zero = issued.getD k .zero :=
    fun k hk => List.getD_append _ _ _ _ hk
  unfold written
  by_cases h : last + i < issued.length
  · rw [if_pos (by omega), if_pos h, hget _ h]
  · rw [if_neg (by omega), if_neg h]
    by_cases h' : i < issued.length
    · rw [if_pos (by omega), if_pos h', hget _ h']
    · rw [if_neg (by omega), if_neg h']

/-- In the first two laps a block goes to the place of its number. -/
theorem Inv.put (h : s.Inv size phys) (t : Trb) (hlap : s.issued.length < 2 * (size - 1)) :
    ∃ i cycle, s.ring.put size t =
        ⟨Function.update s.ring.trbs i (t.withCycle cycle), i + 1, cycle⟩ ∧
      (s.issued.length = i ∧ i < size - 1 ∧ cycle = 1 ∨
        s.issued.length = size - 1 + i ∧ i < size - 1 ∧ cycle = 0) := by
  have henqueue := h.enqueue
  have hcycle := h.cycle
  rcases lt_trichotomy s.issued.length (size - 1) with hlt | heq | hgt
  · rw [if_pos hlt.le] at henqueue hcycle
    exact ⟨_, _, TrbRing.put_of_lt (by omega) t, .inl ⟨henqueue.symm, by omega, hcycle⟩⟩
  · rw [if_pos heq.le] at henqueue hcycle
    refine ⟨0, _, TrbRing.put_of_le (by omega) t, .inr ⟨heq, by omega, ?_⟩⟩
    rw [hcycle]
    rfl
  · rw [if_neg (not_le.mpr hgt)] at henqueue hcycle
    exact ⟨_, _, TrbRing.put_of_lt (by omega) t, .inr ⟨by omega, by omega, hcycle⟩⟩

theorem Inv.issue (h : s.Inv size phys) {t : Trb} (ht : ¬ t.IsLink)
    (hlap : s.issued.length < 2 * (size - 1))
    (hroom : s.issued.length < s.consumer.taken.length + (size - 1)) :
    (s.step (TrbRing.put size) (.issue t)).Inv size phys := by
  have hlen : (s.issued ++ [t]).length = s.issued.length + 1 := by simp
  have hget : (s.issued ++ [t]).getD s.issued.length .zero = t := by simp
  have htaken := h.taken_le
  obtain ⟨i, cycle, hput, hplace⟩ := h.put t hlap
  simp only [step, hput]
  constructor
  case proper =>
    intro u hu
    rcases List.mem_append.mp hu with hu | hu
    · exact h.proper u hu
    · rwa [List.mem_singleton.mp hu]
  case issued_le => dsimp only; omega
  case taken_le => dsimp only; omega
  case keeps_up => dsimp only; omega
  case enqueue => dsimp only; rw [hlen]; split <;> omega
  case cycle =>
    dsimp only
    rw [hlen]
    rcases hplace with ⟨he, hi, rfl⟩ | ⟨he, hi, rfl⟩
    · rw [if_pos (by omega)]
    · rw [if_neg (by omega)]
  case link =>
    dsimp only
    rw [Function.update_of_ne (by omega), h.link]
  case slots =>
    intro k hk
    dsimp only
    by_cases hki : k = i
    · subst hki
      rw [Function.update_self, written, hlen]
      rcases hplace with ⟨he, hi, rfl⟩ | ⟨he, hi, rfl⟩
      · rw [if_neg (by omega), if_pos (by omega), ← he, hget]
      · rw [if_pos (by omega), ← he, hget]
    · rw [Function.update_of_ne hki, h.slots k hk,
        written_append _ _ (by omega) (by omega)]
  case position => exact h.position
  case taken =>
    dsimp only
    rw [h.taken, List.map_append, List.take_append_of_le_length (by simpa using htaken)]

/-- The controller takes the block with the number of those it has taken. -/
theorem Inv.taken_succ (h : s.Inv size phys) {t : Trb} {cycle : UInt32}
    (hcycle : cycle = 0 ∨ cycle = 1)
    (hlt : s.consumer.taken.length < s.issued.length)
    (ht : s.issued.getD s.consumer.taken.length .zero = t) :
    (s.consumer.taken ++ [t.withCycle cycle]).map Trb.content =
      (s.issued.map Trb.content).take (s.consumer.taken.length + 1) := by
  rw [List.getD_eq_getElem _ _ hlt] at ht
  rw [List.take_add_one, List.map_append, h.taken, List.map_singleton,
    Trb.content_withCycle hcycle, List.getElem?_map, List.getElem?_eq_getElem hlt, ht]
  rfl

/-- The block with the number of those taken, found where the controller stands, is taken. -/
theorem Inv.take (h : s.Inv size phys) (hlt : s.consumer.taken.length < s.issued.length)
    (hcycle : s.consumer.cycleState = 0 ∨ s.consumer.cycleState = 1)
    (ht : s.ring.trbs s.consumer.index =
      (s.issued.getD s.consumer.taken.length .zero).withCycle s.consumer.cycleState)
    (hlap : s.consumer.cycleState = 1 → s.consumer.taken.length < size - 1) :
    ∃ c, s.next = some c ∧ Inv size phys { s with consumer := c } := by
  have hkeeps := h.keeps_up
  have hlink : ¬ (s.issued.getD s.consumer.taken.length .zero).IsLink := by
    rw [List.getD_eq_getElem _ _ hlt]
    exact h.proper _ (List.getElem_mem hlt)
  have hlen : ∀ t : Trb, (s.consumer.taken ++ [t]).length = s.consumer.taken.length + 1 := by simp
  refine ⟨_, Consumer.next_eq_some ht hcycle rfl hlink, ?_⟩
  refine { h with taken_le := ?_, keeps_up := ?_, position := ?_, taken := ?_ }
  all_goals
    dsimp only
    rw [hlen]
  · exact hlt
  · omega
  · rcases h.position with ⟨hn, hindex, hstate⟩ | ⟨hn, hindex, hstate⟩
    · exact .inl ⟨hlap hstate, by omega, hstate⟩
    · exact .inr ⟨by omega, by omega, hstate⟩
  · exact h.taken_succ hcycle hlt rfl

/-- In the first two laps the controller finds everything that was issued. -/
theorem Inv.next_cases (h : s.Inv size phys) :
    s.next = none ∧ s.consumer.taken.length = s.issued.length ∨
      ∃ c, s.next = some c ∧ Inv size phys { s with consumer := c } := by
  have hle := h.issued_le
  have htaken := h.taken_le
  have hkeeps := h.keeps_up
  rcases h.position with ⟨hn, hindex, hstate⟩ | ⟨hn, hindex, hstate⟩
  · rcases hn.eq_or_lt with heq | hlt
    · -- at the Link, in the first lap
      have hnext := Consumer.next_link (hindex ▸ heq ▸ h.link)
      rw [if_pos hstate] at hnext
      refine .inr ⟨_, hnext, { h with position := ?_ }⟩
      exact .inr ⟨heq.ge, by dsimp only; omega, rfl⟩
    · have hslot := h.slots _ hlt
      rw [written, if_neg (by omega)] at hslot
      by_cases hissued : s.consumer.taken.length < s.issued.length
      · rw [if_pos hissued, ← hindex] at hslot
        exact .inr (h.take hissued (.inr hstate) (by rw [hslot, hindex, hstate]) fun _ => hlt)
      · rw [if_neg hissued, ← hindex] at hslot
        have hzero : Trb.zero = Trb.zero.withCycle 0 := by decide
        exact .inl ⟨Consumer.next_eq_none (hslot.trans hzero) (.inl rfl) (by rw [hstate]; decide),
          by omega⟩
  · rcases Nat.lt_or_ge s.consumer.taken.length (2 * (size - 1)) with hlt | hge
    · have hslot := h.slots (s.consumer.taken.length - (size - 1)) (by omega)
      rw [written, Nat.add_sub_cancel' hn, ← hindex] at hslot
      by_cases hissued : s.consumer.taken.length < s.issued.length
      · rw [if_pos hissued] at hslot
        exact .inr (h.take hissued (.inl hstate) (by rw [hslot, hstate])
          fun hone => absurd (hstate.symm.trans hone) (by decide))
      · rw [if_neg hissued, if_pos (by omega)] at hslot
        exact .inl ⟨Consumer.next_eq_none hslot (.inr rfl) (by rw [hstate]; decide), by omega⟩
    · -- at the Link, in the second lap
      have hlast : s.consumer.index = size - 1 := by omega
      have hnext := Consumer.next_link (hlast ▸ h.link)
      rw [if_neg (by rw [hstate]; decide)] at hnext
      exact .inl ⟨hnext, by omega⟩

theorem Inv.takesAll (h : s.Inv size phys) : s.TakesAll := by
  refine ⟨h.taken ▸ List.take_prefix _ _, fun hnone => ?_⟩
  obtain ⟨-, hlen⟩ | ⟨c, hsome, -⟩ := h.next_cases
  · rw [h.taken, hlen, List.take_of_length_le (by rw [List.length_map])]
  · exact absurd (hsome.symm.trans hnone) (by simp)

theorem Inv.step (h : s.Inv size phys) (a : Action) (hkeeps : s.KeepsUp size a)
    (hlaps : s.TwoLaps size a) : (s.step (TrbRing.put size) a).Inv size phys := by
  cases a with
  | issue t => exact h.issue hkeeps.1 hlaps hkeeps.2
  | take =>
    obtain ⟨hnone, -⟩ | ⟨c, hsome, hinv⟩ := h.next_cases
    · rw [Channel.step, hnone]
      exact h
    · rw [Channel.step, hsome]
      exact hinv

end Channel

/-! ## The two rings -/

inductive Queue where
  | command
  | transfer

namespace Queue

def size : Queue → ℕ
  | command => cmdRingSize
  | transfer => xferRingSize

def put : Queue → TrbRing → Trb → TrbRing
  | command => sendCommand
  | transfer => enqueueXferTrb

theorem put_eq (q : Queue) : q.put = TrbRing.put q.size := by cases q <;> rfl

end Queue

open Channel in
/-- Along every run of driver and controller in which the controller keeps up, it takes exactly
what is issued if that is no more than two laps of blocks. -/
theorem takesAll_run (q : Queue) (phys : UInt64) (as : List Action)
    (hkeeps : Lib.EachStep (step q.put) (KeepsUp q.size) (init q.size phys) as)
    (hlaps : Lib.EachStep (step q.put) (TwoLaps q.size) (init q.size phys) as) :
    Lib.Always (step q.put) TakesAll (init q.size phys) as := by
  rw [q.put_eq] at hkeeps hlaps ⊢
  have hinv : Lib.Always (step (TrbRing.put q.size)) (Inv q.size phys) (init q.size phys) as :=
    Lib.always_of_eachStep (inv_init q.size phys) (fun s a hs ha => hs.step a ha.1 ha.2)
      (Lib.eachStep_and hkeeps hlaps)
  exact hinv.imp fun s hs => hs.takesAll

def noOp : Trb := ⟨0, 0, 0, Trb.trbNoOpCmd⟩

/-- Commands, each of them followed by two steps of the controller: one may pass the Link. -/
def commands (n : ℕ) : List Channel.Action :=
  (List.replicate n [.issue noOp, .take, .take]).flatten

open Channel in
theorem takesAll_twoLaps :
    Lib.EachStep (step sendCommand) (TwoLaps cmdRingSize) (init cmdRingSize 0x1000)
        (commands 126) ∧
      (Lib.run (step sendCommand) (init cmdRingSize 0x1000) (commands 126)).consumer.taken.length =
        126 ∧
      Lib.Always (step sendCommand) TakesAll (init cmdRingSize 0x1000) (commands 126) :=
  have h : Lib.EachStep (step sendCommand) (TwoLaps cmdRingSize) (init cmdRingSize 0x1000)
      (commands 126) := by decide +kernel
  ⟨h, by decide +kernel, takesAll_run .command 0x1000 (commands 126) (by decide +kernel) h⟩

open Channel in
/-- The first command of the third lap is not taken. -/
theorem not_takesAll_thirdLap :
    Lib.EachStep (step sendCommand) (KeepsUp cmdRingSize) (init cmdRingSize 0x1000)
        (commands 127) ∧
      ¬ Lib.Always (step sendCommand) TakesAll (init cmdRingSize 0x1000) (commands 127) :=
  ⟨by decide +kernel, by decide +kernel⟩

end Aeterna.Drivers.Xhci
