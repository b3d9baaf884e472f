import Aeterna.Mm.Physical
import Aeterna.Ipc.Smr

/-!
# The channel table

`create_channel` of `core/ipc/userspace_ipc.rs`: it takes the frames of the ring first and looks for
a free slot of the table after that. The frame allocator cannot take frames back, so a call that
finds the table full has consumed memory. `Channels.failsCleanly_iff` says which calls fail without
a trace, and `Channels.atomic_iff` the same of whole runs.

To those who send and receive, the table with its rings is a queue for each channel
(`Exchange.results_eq_mailboxes`).
-/

namespace Aeterna.Ipc

open Aeterna.Mm (Pmm PhysRegion frameSize)

def maxChannels : ℕ := 16

inductive ChannelState where
  | free
  | active
  deriving DecidableEq, Repr

structure SmrChannel where
  state : ChannelState
  ownerPid : UInt32
  ringPhys : UInt64
  ringVirt : UInt64
  deriving DecidableEq, Repr

/-- The statics of the channel manager, the frame allocator and the offset of the direct map. -/
structure Channels where
  channels : Fin maxChannels → Option SmrChannel
  nextChannelId : UInt32
  pmm : Pmm
  hhdmOffset : UInt64

/-- A descriptor is aligned to a cache line, which it fills. -/
def descriptorSize : UInt64 := 64

def smrRegionSize : UInt64 := 64 + descriptorSize * UInt64.ofNat smrCapacity

def framesNeeded : UInt64 := (smrRegionSize + 4095) / 4096

namespace Channels

def freeSlot (s : Channels) : Option (Fin maxChannels) :=
  (List.finRange maxChannels).find? fun i => (s.channels i).isNone

/-- Returns the id of the new channel, or 0. -/
def createChannel (s : Channels) (ownerPid : UInt32) : UInt32 × Channels :=
  match s.pmm.allocFrames framesNeeded with
  | (none, pmm) => (0, { s with pmm := pmm })
  | (some phys, pmm) =>
    let s := { s with pmm := pmm }
    match s.freeSlot with
    | none => (0, s)
    | some i =>
      let channel := ⟨.active, ownerPid, phys, phys + s.hhdmOffset⟩
      (s.nextChannelId, { s with
        channels := Function.update s.channels i (some channel)
        nextChannelId := s.nextChannelId + 1 })

def step (s : Channels) (ownerPid : UInt32) : Channels := (s.createChannel ownerPid).2

/-! ## Calls that fail -/

/-- If the call returns 0 the table and the number of frames are as they were. -/
def FailsCleanly (s : Channels) (ownerPid : UInt32) : Prop :=
  (s.createChannel ownerPid).1 = 0 →
    (s.step ownerPid).channels = s.channels ∧
      (s.step ownerPid).pmm.framesAllocated = s.pmm.framesAllocated

/-- No region has room for the frames of a ring. -/
def NoRoom (s : Channels) : Prop :=
  ∀ r ∈ s.pmm.regions, ¬ s.pmm.frameStart r + framesNeeded * frameSize ≤ r.stop

/-- There is no room, or there is a free slot and the next id is not the one that means failure. -/
def Ready (s : Channels) : Prop :=
  s.NoRoom ∨ (∃ i, s.channels i = none) ∧ s.nextChannelId ≠ 0

theorem allocFrames_cases (s : Channels) :
    (s.NoRoom ∧ s.pmm.allocFrames framesNeeded = (none, s.pmm)) ∨
      (¬ s.NoRoom ∧ ∃ phys, s.pmm.allocFrames framesNeeded =
        (some phys, s.pmm.take phys (framesNeeded * frameSize) framesNeeded)) := by
  unfold Pmm.allocFrames Pmm.allocRun NoRoom
  rw [← Pmm.firstFit_eq_none]
  cases Pmm.firstFit s.pmm.frameStart (framesNeeded * frameSize) s.pmm.regions with
  | none => exact .inl ⟨rfl, rfl⟩
  | some phys => exact .inr ⟨Option.some_ne_none phys, phys, rfl⟩

theorem freeSlot_eq_none {s : Channels} : s.freeSlot = none ↔ ¬ ∃ i, s.channels i = none := by
  simp [freeSlot]

theorem channels_of_freeSlot {s : Channels} {i : Fin maxChannels} (h : s.freeSlot = some i) :
    s.channels i = none := by
  simpa using List.find?_some h

theorem take_frames_ne (s : Pmm) (phys : UInt64) :
    (s.take phys (framesNeeded * frameSize) framesNeeded).framesAllocated ≠ s.framesAllocated := by
  intro h
  have hthree : framesNeeded = 0 := by
    simpa [Pmm.take] using h
  exact absurd hthree (by decide)

/-- A call fails without a trace exactly when there is no room for the ring, or a slot for it. -/
theorem failsCleanly_iff (s : Channels) (ownerPid : UInt32) :
    s.FailsCleanly ownerPid ↔ s.Ready := by
  unfold FailsCleanly step Ready
  rcases s.allocFrames_cases with ⟨hroom, halloc⟩ | ⟨hroom, phys, halloc⟩
  · rw [createChannel, halloc]
    dsimp only
    exact iff_of_true (fun _ => ⟨rfl, rfl⟩) (.inl hroom)
  · have hframes := take_frames_ne s.pmm phys
    rw [createChannel, halloc]
    dsimp only
    cases hslot : (freeSlot { s with
        pmm := s.pmm.take phys (framesNeeded * frameSize) framesNeeded }) with
    | none =>
      refine iff_of_false (fun h => hframes (h rfl).2) fun h => ?_
      exact freeSlot_eq_none.mp hslot (h.resolve_left hroom).1
    | some i =>
      have hfree := channels_of_freeSlot hslot
      by_cases hid : s.nextChannelId = 0
      · refine iff_of_false (fun h => hframes (h hid).2) fun h => ?_
        exact (h.resolve_left hroom).2 hid
      · exact iff_of_true (fun h => absurd h hid) (.inr ⟨⟨i, hfree⟩, hid⟩)

/-- Every call of the run that fails leaves the table and the number of frames as they were. -/
def Atomic (s : Channels) (calls : List UInt32) : Prop :=
  Lib.EachStep step FailsCleanly s calls

/-- A run is atomic exactly when each of its calls finds no room, or a slot. -/
theorem atomic_iff (s : Channels) (calls : List UInt32) :
    s.Atomic calls ↔ Lib.EachStep step (fun s _ => s.Ready) s calls :=
  Lib.eachStep_congr (P := fun _ => True) trivial (fun _ _ _ => trivial)
    fun s ownerPid _ => s.failsCleanly_iff ownerPid

/-- An empty table, and one mebibyte of free memory. -/
def fresh : Channels where
  channels _ := none
  nextChannelId := 1
  pmm := ⟨[⟨0x100000, 0x100000⟩], 0x100000, 0x100000, 0x100000, 0⟩
  hhdmOffset := 0xffff800000000000

/-- The seventeenth channel is refused, and its three frames are gone. -/
theorem not_atomic_seventeen : ¬ fresh.Atomic (List.replicate 17 1) := by
  intro h
  have hlast := ((Lib.eachStep_append fresh (List.replicate 16 1) [1]).mp h).2.1
  have hzero : ((Lib.run step fresh (List.replicate 16 1)).createChannel 1).1 = 0 := by
    decide +kernel
  have hbefore : (Lib.run step fresh (List.replicate 16 1)).pmm.framesAllocated = 48 := by
    decide +kernel
  have hafter : ((Lib.run step fresh (List.replicate 16 1)).step 1).pmm.framesAllocated = 51 := by
    decide +kernel
  have hsame := (hlast hzero).2
  rw [hbefore, hafter] at hsame
  exact absurd hsame (by decide)

end Channels

/-! ## Messages -/

section Calls

variable {S : Type} (create : S → UInt32 → UInt32 × S) (ring : S → UInt32 → Call → Option Result × S)

def sendToChannel (s : S) (channelId : UInt32) (physAddr length : UInt64) : Int × S :=
  match ring s channelId (.push ⟨physAddr, length, 0x03, 0, ⟨0, 0⟩⟩) with
  | (some (.pushed true), s) => (0, s)
  | (_, s) => (-1, s)

def recvFromChannel (s : S) (channelId : UInt32) : (UInt64 × UInt64) × S :=
  match ring s channelId .pop with
  | (some (.popped (some desc)), s) => ((desc.physAddr, desc.length), s)
  | (_, s) => ((0, 0), s)

inductive Request where
  | create (ownerPid : UInt32)
  | send (channelId : UInt32) (physAddr length : UInt64)
  | recv (channelId : UInt32)

inductive Reply where
  | created (channelId : UInt32)
  | sent (code : Int)
  | received (desc : UInt64 × UInt64)

/-- `ring` is a call on the ring of a channel, if there is one with the id. -/
def serve (s : S) : Request → Reply × S
  | .create ownerPid => (create s ownerPid).map .created id
  | .send channelId physAddr length =>
    (sendToChannel ring s channelId physAddr length).map .sent id
  | .recv channelId => (recvFromChannel ring s channelId).map .received id

end Calls

/-- The channels and the memory of their rings: the id in the header, and the ring. The frames of
two rings do not overlap (`Mm.Exclusive`), so the memory is given by slot. -/
structure Exchange where
  table : Channels
  rings : Fin maxChannels → UInt32 × SmrRing

/-- What the channels are for: a queue for every id that was handed out, 1 up to `count`. -/
structure Mailboxes where
  pmm : Pmm
  count : ℕ
  queue : ℕ → List SmrDescriptor

namespace Mailboxes

def create (t : Mailboxes) (_ : UInt32) : UInt32 × Mailboxes :=
  match t.pmm.allocFrames framesNeeded with
  | (none, pmm) => (0, { t with pmm := pmm })
  | (some _, pmm) =>
    if t.count < maxChannels then
      (UInt32.ofNat (t.count + 1), ⟨pmm, t.count + 1, Function.update t.queue (t.count + 1) []⟩)
    else (0, { t with pmm := pmm })

def ring (t : Mailboxes) (channelId : UInt32) (c : Call) : Option Result × Mailboxes :=
  let id := channelId.toNat
  if 0 < id ∧ id ≤ t.count then
    let (result, q) := queueCall (t.queue id) c
    (some result, { t with queue := Function.update t.queue id q })
  else (none, t)

end Mailboxes

namespace Exchange

/-- A new ring is empty, with the id in its header. -/
def create (s : Exchange) (ownerPid : UInt32) : UInt32 × Exchange :=
  let (id, table) := s.table.createChannel ownerPid
  match (s.table.pmm.allocFrames framesNeeded).1, s.table.freeSlot with
  | some _, some i =>
    (id, ⟨table, Function.update s.rings i (id, ⟨0, 0, fun _ => ⟨0, 0, 0, 0, ⟨0, 0⟩⟩⟩)⟩)
  | _, _ => (id, ⟨table, s.rings⟩)

def holds (s : Exchange) (channelId : UInt32) (i : Fin maxChannels) : Bool :=
  match s.table.channels i with
  | some ch => (s.rings i).1 == channelId && ch.state == .active
  | none => false

def find (s : Exchange) (channelId : UInt32) : Option (Fin maxChannels) :=
  (List.finRange maxChannels).find? (s.holds channelId)

def ring (s : Exchange) (channelId : UInt32) (c : Call) : Option Result × Exchange :=
  match s.find channelId with
  | some i =>
    let (result, r) := (s.rings i).2.call c
    (some result, { s with rings := Function.update s.rings i ((s.rings i).1, r) })
  | none => (none, s)

/-- The slots are taken in order, and slot `i` holds the channel `i + 1`. -/
structure Refines (s : Exchange) (t : Mailboxes) : Prop where
  pmm : s.table.pmm = t.pmm
  count : t.count ≤ maxChannels
  next : s.table.nextChannelId = UInt32.ofNat (t.count + 1)
  free : ∀ i, (s.table.channels i).isNone ↔ t.count ≤ i.val
  taken : ∀ i ch, s.table.channels i = some ch → ch.state = .active ∧
    (s.rings i).1.toNat = i + 1 ∧ (s.rings i).2.Represents (t.queue (i + 1))

namespace Refines

variable {s : Exchange} {t : Mailboxes}

theorem not_free (h : Refines s t) {i : Fin maxChannels} (hi : i.val < t.count) :
    (s.table.channels i).isNone = false :=
  Bool.eq_false_iff.mpr (mt (h.free i).mp (Nat.not_le_of_lt hi))

theorem holds_iff (h : Refines s t) (channelId : UInt32) (i : Fin maxChannels) :
    s.holds channelId i ↔ i.val < t.count ∧ i.val + 1 = channelId.toNat := by
  have hfree := h.free i
  unfold holds
  cases hch : s.table.channels i with
  | none => simp_all
  | some ch =>
    obtain ⟨hactive, hid, -⟩ := h.taken i ch hch
    simp_all [← hid, UInt32.toNat_inj]

theorem find_eq_some (h : Refines s t) (channelId : UInt32) (i : Fin maxChannels) :
    s.find channelId = some i ↔ i.val < t.count ∧ i.val + 1 = channelId.toNat := by
  rw [find, ← Fin.find?_eq_find?_finRange, Fin.find?_eq_some_iff, h.holds_iff]
  refine and_iff_left_of_imp fun hi j hj => Bool.eq_false_iff.mpr fun hj' => ?_
  have hid := ((h.holds_iff channelId j).mp hj').2
  omega

theorem ring (h : Refines s t) (channelId : UInt32) (c : Call) :
    (s.ring channelId c).1 = (t.ring channelId c).1 ∧
      Refines (s.ring channelId c).2 (t.ring channelId c).2 := by
  unfold Exchange.ring Mailboxes.ring
  cases hfind : s.find channelId with
  | none =>
    have hnot : ¬ (0 < channelId.toNat ∧ channelId.toNat ≤ t.count) := by
      intro hid
      have hi : channelId.toNat - 1 < maxChannels := by have := h.count; omega
      grind [h.find_eq_some channelId ⟨_, hi⟩]
    rw [if_neg hnot]
    exact ⟨rfl, h⟩
  | some i =>
    obtain ⟨hi, hid⟩ := (h.find_eq_some channelId i).mp hfind
    rw [← hid, if_pos ⟨Nat.succ_pos _, hi⟩]
    have hcall {r : SmrRing} {q} (hr : r.Represents q) :
        (r.call c).1 = (queueCall q c).1 ∧ (r.call c).2.Represents (queueCall q c).2 := by
      cases c with
      | push desc => exact SmrRing.tryPush_represents hr desc
      | pop => exact SmrRing.tryPop_represents hr
    obtain ⟨ch, hch⟩ := Option.isSome_iff_exists.mp (Option.isNone_eq_false_iff.mp (h.not_free hi))
    have hring := hcall (h.taken i ch hch).2.2
    refine ⟨congrArg some hring.1, { h with taken := fun j ch hch => ?_ }⟩
    have hold := h.taken j ch hch
    by_cases hji : j = i
    · simp_all
    · have hval : j.val ≠ i := fun he => hji (Fin.ext he)
      simpa [hji, hval] using hold

theorem freeSlot (h : Refines s t) (pmm : Pmm) :
    Channels.freeSlot { s.table with pmm := pmm } =
      if hroom : t.count < maxChannels then some ⟨t.count, hroom⟩ else none := by
  rw [Channels.freeSlot, ← Fin.find?_eq_find?_finRange]
  split_ifs with hroom
  · exact Fin.find?_eq_some_iff.mpr ⟨(h.free _).mpr le_rfl, fun _ => h.not_free⟩
  · exact Fin.find?_eq_none_iff.mpr fun j => h.not_free (by omega)

theorem create (h : Refines s t) (ownerPid : UInt32) :
    (s.create ownerPid).1 = (t.create ownerPid).1 ∧
      Refines (s.create ownerPid).2 (t.create ownerPid).2 := by
  unfold Exchange.create Mailboxes.create Channels.createChannel
  rw [h.pmm, h.freeSlot s.table.pmm]
  rcases t.pmm.allocFrames framesNeeded with ⟨_ | phys, pmm⟩
  · exact ⟨rfl, { h with pmm := rfl }⟩
  dsimp only
  rw [h.freeSlot pmm]
  split_ifs with hroom
  · have hnext : s.table.nextChannelId.toNat = t.count + 1 := by
      rw [h.next, UInt32.toNat_ofNat_of_lt' (Nat.lt_of_le_of_lt hroom (by decide))]
    refine ⟨h.next, rfl, hroom, ?_, fun i => ?_, fun i ch hch => ?_⟩
    · simp only [h.next, UInt32.ofNat_add]
      rfl
    · grind [h.free i]
    · by_cases hlast : i = ⟨t.count, hroom⟩
      · subst hlast
        cases (Function.update_self ..).symm.trans hch
        simpa using ⟨hnext, rfl, by decide⟩
      · grind [h.taken i ch]
  · exact ⟨rfl, { h with pmm := rfl }⟩

end Refines

/-- **Channels.** Whatever is created, sent and received, the callers are answered as if there were
a queue for every channel: nothing is lost, repeated or reordered, or gets into another channel. -/
theorem results_eq_mailboxes (pmm : Pmm) (hhdmOffset : UInt64)
    (rings : Fin maxChannels → UInt32 × SmrRing) (requests : List Request) :
    Lib.results (serve create ring) ⟨⟨fun _ => none, 1, pmm, hhdmOffset⟩, rings⟩ requests =
      Lib.results (serve Mailboxes.create Mailboxes.ring) ⟨pmm, 0, fun _ => []⟩ requests := by
  refine Lib.results_eq (fun s t request (h : Refines s t) => ?_) ?_ requests
  · cases request with
    | create ownerPid =>
      obtain ⟨hreply, hrefines⟩ := h.create ownerPid
      exact ⟨congrArg Reply.created hreply, hrefines⟩
    | send channelId physAddr length =>
      have hring := h.ring channelId (.push ⟨physAddr, length, 0x03, 0, ⟨0, 0⟩⟩)
      grind [serve, sendToChannel]
    | recv channelId =>
      have hring := h.ring channelId .pop
      grind [serve, recvFromChannel]
  · exact ⟨rfl, Nat.zero_le _, rfl, fun _ => iff_of_true rfl (Nat.zero_le _), nofun⟩

end Exchange

end Aeterna.Ipc
