import Mathlib
import Aeterna.Lib.Run

/-!
# Commands and completions of the NVMe driver

`drivers/nvme.rs`: a command is put on the submission queue, and `io_submit_poll` polls the entry at
the head of the completion queue until its phase bit is the expected one or 3 seconds are over. The
controller completes the commands in their order, each after any delay. The driver does not look at
the command id of the entry: while no command has timed out the entry is that of the command
(`matches_run`), and after a time-out it is that of an earlier one.
-/

namespace Aeterna.Drivers.Nvme

def ioQDepth : ℕ := 32

/-- The opcode, id, starting block and number of blocks less one of a command. -/
structure SqEntry where
  opcode : UInt8
  cid : UInt16
  lba : UInt64
  nlb : UInt32

def SqEntry.zero : SqEntry := ⟨0, 0, 0, 0⟩

/-- The result of a command and the fields of `dw3`. -/
structure CqEntry where
  dw0 : UInt32
  cid : UInt16
  phase : Bool
  status : UInt16

def CqEntry.zero : CqEntry := ⟨0, 0, false, 0⟩

/-- The next place in a queue and the phase of its entries, which changes with every lap. -/
def advance (place : ℕ × Bool) : ℕ × Bool :=
  ((place.1 + 1) % ioQDepth, if (place.1 + 1) % ioQDepth = 0 then !place.2 else place.2)

/-! ## The calls -/

inductive Request where
  | readSectors (lba : UInt64) (count : UInt32) (len : ℕ)
  | writeSectors (lba : UInt64) (count : UInt32) (len : ℕ)
  | flush

/-- The commands that a call still has to give: the batches from `done` on, or a flush. -/
inductive Job where
  | transfer (opcode : UInt8) (lba : UInt64) (count done : ℕ)
  | flush
  | none

def ioRead : UInt8 := 0x02
def ioWrite : UInt8 := 0x01

/-- A call whose buffer is too short returns at once. -/
def Request.job (sectorSize : ℕ) : Request → Job
  | readSectors lba count len =>
    if len < count.toNat * sectorSize then .none else .transfer ioRead lba count.toNat 0
  | writeSectors lba count len =>
    if len < count.toNat * sectorSize then .none else .transfer ioWrite lba count.toNat 0
  | flush => .flush

/-- The next command of a call, without its id, and what then remains. -/
def Job.next (sectorSize : ℕ) : Job → Option (SqEntry × Job)
  | .transfer opcode lba count done =>
    if done < count then
      let batch := min (count - done) (8192 / sectorSize)
      some (⟨opcode, 0, lba + UInt64.ofNat done, UInt32.ofNat batch - 1⟩,
        .transfer opcode lba count (done + batch))
    else Option.none
  | .flush => some (.zero, .none)
  | .none => Option.none

/-! ## Driver and controller -/

/-- Where the driver is: between commands of a call, or polling for one. -/
inductive Driver where
  | running (job : Job)
  | polling (cmd : SqEntry) (job : Job)

def Driver.polled : Driver → Option SqEntry
  | running _ => none
  | polling cmd _ => some cmd

/-- The queues, the variables of the driver, and those of the controller: the ids of the commands
that it has not completed, and the place and phase of its next entry. -/
structure State where
  sectorSize : ℕ
  sq : ℕ → SqEntry
  cq : ℕ → CqEntry
  sqTail : ℕ
  cqHead : ℕ
  phase : Bool
  cmdIdSeq : UInt16
  driver : Driver
  pending : List UInt16
  cqTail : ℕ
  cqPhase : Bool

inductive Action where
  | call (r : Request)
  /-- the driver gives a command, or polls once; `expired` says that the deadline is over -/
  | drive (expired : Bool)
  /-- the controller completes a command -/
  | complete (dw0 : UInt32) (status : UInt16)

namespace State

/-- The queues after initialisation, whose commands have used some ids. -/
def init (sectorSize : ℕ) (cmdIdSeq : UInt16) : State where
  sectorSize := sectorSize
  sq := fun _ => .zero
  cq := fun _ => .zero
  sqTail := 0
  cqHead := 0
  phase := true
  cmdIdSeq := cmdIdSeq
  driver := .running .none
  pending := []
  cqTail := 0
  cqPhase := true

/-- `next_cid`, and the first half of `io_submit_poll`. The doorbell tells the controller. -/
def submit (s : State) (cmd : SqEntry) (job : Job) : State :=
  let cmd := { cmd with cid := s.cmdIdSeq }
  { s with
    cmdIdSeq := max (s.cmdIdSeq + 1) 1
    sq := Function.update s.sq s.sqTail cmd
    sqTail := (s.sqTail + 1) % ioQDepth
    pending := s.pending ++ [cmd.cid]
    driver := .polling cmd job }

/-- The entry that the driver takes for its command, if one is there. -/
def answer (s : State) : Option CqEntry :=
  if (s.cq s.cqHead).phase = s.phase then some (s.cq s.cqHead) else none

def step (s : State) : Action → State
  | .call r =>
    match s.driver with
    | .running .none => { s with driver := .running (r.job s.sectorSize) }
    | _ => s
  | .drive expired =>
    match s.driver with
    | .running job =>
      match job.next s.sectorSize with
      | some (cmd, job) => s.submit cmd job
      | none => { s with driver := .running .none }
    | .polling _ job =>
      match s.answer with
      | some entry =>
        { s with
          cqHead := (advance (s.cqHead, s.phase)).1
          phase := (advance (s.cqHead, s.phase)).2
          driver := .running (if entry.status = 0 then job else .none) }
      | none => if expired then { s with driver := .running .none } else s
  | .complete dw0 status =>
    match s.pending with
    | [] => s
    | cid :: pending =>
      -- the queue is full: the head that the driver has told is next
      if (s.cqTail + 1) % ioQDepth = s.cqHead then s
      else
        { s with
          cq := Function.update s.cq s.cqTail ⟨dw0, cid, s.cqPhase, status⟩
          cqTail := (advance (s.cqTail, s.cqPhase)).1
          cqPhase := (advance (s.cqTail, s.cqPhase)).2
          pending := pending }

/-- The entry that the driver takes is that of the command it polls for. -/
def Matches (s : State) : Action → Prop
  | .drive _ => ∀ cmd ∈ s.driver.polled, ∀ entry ∈ s.answer, entry.cid = cmd.cid
  | .call _ | .complete _ _ => True

/-- The step does not give up a command. -/
def InTime (s : State) : Action → Prop
  | .drive expired => s.driver.polled.isSome → expired → s.answer.isSome
  | .call _ | .complete _ _ => True

instance (s : State) : DecidablePred s.Matches
  | .drive _ => inferInstanceAs (Decidable (∀ cmd ∈ _, ∀ entry ∈ _, _ = _))
  | .call _ | .complete _ _ => inferInstanceAs (Decidable True)

instance (s : State) : DecidablePred s.InTime
  | .drive _ => inferInstanceAs (Decidable (_ → _ → _))
  | .call _ | .complete _ _ => inferInstanceAs (Decidable True)

/-! ## Runs without a time-out -/

/-- The driver and the controller are at the same place and nothing is under way. -/
def Level (s : State) : Prop :=
  s.pending = [] ∧ (s.cqTail, s.cqPhase) = (s.cqHead, s.phase)

/-- The command with this id is under way: not completed, or completed at the head. -/
def Awaits (s : State) (cid : UInt16) : Prop :=
  s.pending = [cid] ∧ (s.cqTail, s.cqPhase) = (s.cqHead, s.phase) ∨
    s.pending = [] ∧ (s.cqTail, s.cqPhase) = advance (s.cqHead, s.phase) ∧
      (s.cq s.cqHead).cid = cid

structure Inv (s : State) : Prop where
  tail_lt : s.cqTail < ioQDepth
  head_lt : s.cqHead < ioQDepth
  phases : ∀ i < ioQDepth,
    (s.cq i).phase = if i < s.cqTail then s.cqPhase else !s.cqPhase
  sync : match s.driver with
    | .running _ => s.Level
    | .polling cmd _ => s.Awaits cmd.cid

variable {s : State}

theorem inv_init (sectorSize : ℕ) (cmdIdSeq : UInt16) : (init sectorSize cmdIdSeq).Inv where
  tail_lt := Nat.zero_lt_succ 31
  head_lt := Nat.zero_lt_succ 31
  phases := fun _ _ => rfl
  sync := ⟨rfl, rfl⟩

theorem Inv.answer_of_level (h : s.Inv)
    (hlevel : (s.cqTail, s.cqPhase) = (s.cqHead, s.phase)) : s.answer = none := by
  obtain ⟨htail, hphase⟩ := Prod.mk.inj hlevel
  have hentry := h.phases s.cqHead h.head_lt
  rw [htail, if_neg (lt_irrefl _), hphase] at hentry
  rw [answer, hentry]
  exact if_neg (by simp)

theorem Inv.answer_of_advance (h : s.Inv)
    (hadvance : (s.cqTail, s.cqPhase) = advance (s.cqHead, s.phase)) :
    s.answer = some (s.cq s.cqHead) := by
  have hhead := h.head_lt
  obtain ⟨htail, hphase⟩ := Prod.mk.inj hadvance
  have hentry := h.phases s.cqHead hhead
  dsimp only at htail hphase
  rw [htail, hphase] at hentry
  refine if_pos (hentry.trans ?_)
  unfold ioQDepth at hhead ⊢
  split_ifs <;> first | rfl | omega | simp

theorem Inv.matches (h : s.Inv) (a : Action) : s.Matches a := by
  cases a with
  | drive expired =>
    intro cmd hcmd entry hentry
    have hsync := h.sync
    cases hdriver : s.driver with
    | running job =>
      rw [hdriver] at hcmd
      cases hcmd
    | polling cmd' job =>
      rw [hdriver] at hcmd hsync
      cases hcmd
      rcases hsync with ⟨-, hlevel⟩ | ⟨-, hadvance, hcid⟩
      · rw [h.answer_of_level hlevel] at hentry
        cases hentry
      · rw [h.answer_of_advance hadvance] at hentry
        cases hentry
        exact hcid
  | call r => trivial
  | complete dw0 status => trivial

theorem Inv.submit (h : s.Inv) (hlevel : s.Level) (cmd : SqEntry) (job : Job) :
    (s.submit cmd job).Inv :=
  ⟨h.tail_lt, h.head_lt, h.phases,
    .inl ⟨congrArg (· ++ [s.cmdIdSeq]) hlevel.1, hlevel.2⟩⟩

theorem Inv.complete (h : s.Inv) {cmd : SqEntry} {job : Job} (hdriver : s.driver = .polling cmd job)
    (hpending : s.pending = [cmd.cid])
    (hlevel : (s.cqTail, s.cqPhase) = (s.cqHead, s.phase)) (dw0 : UInt32) (status : UInt16) :
    (s.step (.complete dw0 status)).Inv := by
  have hhead := h.head_lt
  have htail := (Prod.mk.inj hlevel).1
  have hroom : (s.cqTail + 1) % ioQDepth ≠ s.cqHead := by
    unfold ioQDepth at hhead ⊢
    omega
  simp only [step, hpending, if_neg hroom]
  refine ⟨Nat.mod_lt _ (by decide), hhead, ?_, ?_⟩
  · intro i hi
    have hphase := h.phases i hi
    rw [htail] at hphase ⊢
    unfold advance ioQDepth at *
    dsimp only
    by_cases hne : i = s.cqHead
    · subst hne
      rw [Function.update_self]
      dsimp only
      split_ifs <;> first | rfl | omega | simp
    · rw [Function.update_of_ne hne, hphase]
      split_ifs <;> first | rfl | omega | simp
  · simp only [hdriver]
    refine .inr ⟨rfl, by rw [hlevel], ?_⟩
    simp only [htail, Function.update_self]

theorem Inv.step (h : s.Inv) (a : Action) (ha : s.InTime a) : (s.step a).Inv := by
  have hsync := h.sync
  cases hdriver : s.driver with
  | running job =>
    rw [hdriver] at hsync
    cases a with
    | call r =>
      simp only [State.step, hdriver]
      split
      · exact ⟨h.tail_lt, h.head_lt, h.phases, hsync⟩
      · exact h
    | drive expired =>
      simp only [State.step, hdriver]
      split
      · exact h.submit hsync _ _
      · exact ⟨h.tail_lt, h.head_lt, h.phases, hsync⟩
    | complete dw0 status =>
      simp only [State.step, hsync.1]
      exact h
  | polling cmd job =>
    rw [hdriver] at hsync
    cases a with
    | call r =>
      simp only [State.step, hdriver]
      exact h
    | drive expired =>
      rcases hsync with ⟨-, hlevel⟩ | ⟨hpending, hadvance, -⟩
      · have hnone := h.answer_of_level hlevel
        have hexpired : expired = false := by
          cases expired with
          | false => rfl
          | true =>
            have hsome := ha (by rw [hdriver]; rfl) rfl
            rw [hnone] at hsome
            cases hsome
        simp only [State.step, hdriver, hnone, hexpired]
        exact h
      · simp only [State.step, hdriver, h.answer_of_advance hadvance]
        exact ⟨h.tail_lt, Nat.mod_lt _ (by decide), h.phases, hpending, hadvance⟩
    | complete dw0 status =>
      rcases hsync with ⟨hpending, hlevel⟩ | ⟨hpending, -, -⟩
      · exact h.complete hdriver hpending hlevel dw0 status
      · simp only [State.step, hpending]
        exact h

/-- Along every run of calls and completions in which no command times out, every entry that
`io_submit_poll` takes is that of its command. -/
theorem matches_run (sectorSize : ℕ) (cmdIdSeq : UInt16) (as : List Action)
    (h : Lib.EachStep step InTime (init sectorSize cmdIdSeq) as) :
    Lib.EachStep step Matches (init sectorSize cmdIdSeq) as :=
  Lib.eachStep_of_eachStep (inv_init sectorSize cmdIdSeq) (fun _ a hs ha => hs.step a ha)
    (fun _ a hs _ => hs.matches a) h

/-- A read of 20 sectors, which are two commands, and a flush. -/
def readAndFlush : List Action :=
  [.call (.readSectors 100 20 10240), .drive false, .drive false, .complete 0 0, .drive false,
    .drive false, .complete 0 0, .drive false, .drive false, .call .flush, .drive false,
    .complete 0 0, .drive true]

theorem matches_readAndFlush :
    Lib.EachStep step InTime (init 512 5) readAndFlush ∧
      (Lib.run step (init 512 5) readAndFlush).cqHead = 3 ∧
      Lib.EachStep step Matches (init 512 5) readAndFlush :=
  ⟨by decide +kernel, by decide +kernel, matches_run 512 5 readAndFlush (by decide +kernel)⟩

/-- A flush times out and is completed afterwards. -/
def lateCompletion : List Action :=
  [.call .flush, .drive false, .drive true, .complete 0 0, .call .flush, .drive false, .drive false]

theorem not_matches_lateCompletion : ¬ Lib.EachStep step Matches (init 512 5) lateCompletion := by
  decide +kernel

end State

end Aeterna.Drivers.Nvme
