import Mathlib
import Aeterna.Lib.Run

/-!
# The task scheduler

The scheduler of `core/scheduler/mod.rs`: a table of 64 task control blocks, the slot of the
current task and the next process id. Every function that changes the table is here, with the
timer interrupt `onTimerIrq` last; `step` puts them together as one transition system.

The words of a saved register frame are never inspected by the scheduler, only copied, so the
model is generic in the type `F` of frames; `Frame` is the kernel's own.
-/

namespace Aeterna.Sched

/-! ## The data model -/

inductive TaskState where
  | ready
  | running
  | waiting
  | dead
  deriving DecidableEq, Repr

/-- Task priority levels, lowest first. -/
inductive Priority where
  | idle
  | normal
  | system
  | realTime
  | compute
  deriving DecidableEq, Repr

def Priority.toNat : Priority → ℕ
  | .idle => 0
  | .normal => 1
  | .system => 2
  | .realTime => 3
  | .compute => 4

instance : LE Priority := ⟨fun p q => p.toNat ≤ q.toNat⟩

instance : DecidableLE Priority := fun p q => inferInstanceAs (Decidable (p.toNat ≤ q.toNat))

inductive Capability where
  | fsRead
  | fsWrite
  | framebuf
  | serial
  | memHuge
  | spawn
  | net
  | system
  | device
  | vfsServer
  | ioPort
  deriving DecidableEq, Repr

abbrev TaskId := UInt32

abbrev maxTasks : ℕ := 64

/-- An index into the task table. -/
abbrev Slot := Fin maxTasks

instance : NeZero maxTasks := ⟨by decide⟩

abbrev frameWords : ℕ := 21

/-- The registers an interrupt pushes: `r15` to `rax`, error code, `rip`, `cs`, `rflags`, `rsp`,
`ss`. -/
abbrev Frame := Vector UInt64 frameWords

structure TaskControlBlock (F : Type) where
  pid : TaskId
  priority : Priority
  state : TaskState
  cr3 : UInt64
  cpuTicks : UInt64
  memoryBytes : UInt64
  stackPointer : UInt64
  instructionPointer : UInt64
  frame : F
  hasFrame : Bool
  name : List UInt8
  nameLen : UInt8
  capabilities : List Capability
  preemptionDisabled : Bool
  medId : Option UInt64

/-- The scheduler's statics, the CR3 register and the initialisation flag of the virtual memory
manager. -/
structure Scheduler (F : Type) where
  tasks : Slot → Option (TaskControlBlock F)
  current : Slot
  nextPid : TaskId
  initialized : Bool
  cr3 : UInt64
  vmmInit : Bool

/-- What a frame type offers the scheduler: the frame a new task starts from. -/
class RegFrame (F : Type) where
  /-- The first frame of the task `pid` in slot `i`. -/
  initial : (i : Slot) → (pid : TaskId) → Priority → (entryPoint stackPointer : UInt64) → F
  /-- The zeroed frame of the idle task. -/
  zero : F

def kernelCs : UInt64 := 0x08
def kernelDs : UInt64 := 0x10
def userDs : UInt64 := 0x1B
def userCs : UInt64 := 0x23

/-- The frame `spawn_named` builds for `iretq`: words 16 to 20 are `rip`, `cs`, `rflags`, `rsp`,
`ss`. -/
def initialFrame (priority : Priority) (entryPoint stackPointer : UInt64) : Frame :=
  let frame := Vector.replicate frameWords (0 : UInt64)
  let frame := frame.set 16 entryPoint
  let frame := frame.set 18 0x202
  let frame := frame.set 19 stackPointer
  if priority = .normal then
    (frame.set 17 userCs).set 20 userDs
  else
    (frame.set 17 kernelCs).set 20 kernelDs

instance : RegFrame Frame where
  initial _ _ := initialFrame
  zero := Vector.replicate frameWords 0

/-! ## Small functions -/

variable {F : Type}

def saturatingAdd (a b : UInt64) : UInt64 :=
  if a.toNat + b.toNat < 2 ^ 64 then a + b else UInt64.ofNat (2 ^ 64 - 1)

def saturatingSub (a b : UInt64) : UInt64 := if b ≤ a then a - b else 0

/-- The name field of a task: the first 24 bytes, padded with zeros, and how many there are. -/
def fillName (src : List UInt8) : List UInt8 × UInt8 :=
  let n := min src.length 24
  (src.take n ++ List.replicate (24 - n) 0, UInt8.ofNat n)

/-- The kernel before `init`: an empty table. -/
def boot (cr3 : UInt64) (vmmInit : Bool) : Scheduler F where
  tasks _ := none
  current := 0
  nextPid := 1
  initialized := false
  cr3 := cr3
  vmmInit := vmmInit

namespace Scheduler

def setTask (s : Scheduler F) (i : Slot) (t : Option (TaskControlBlock F)) : Scheduler F :=
  { s with tasks := Function.update s.tasks i t }

/-- Change the task of a slot in place, if there is one. -/
def modifySlot (s : Scheduler F) (i : Slot) (f : TaskControlBlock F → TaskControlBlock F) :
    Scheduler F :=
  match s.tasks i with
  | some t => s.setTask i (some (f t))
  | none => s

/-- The first slot whose task has the given pid: the search loop of the functions that take a
pid. -/
def findPid (s : Scheduler F) (pid : TaskId) : Option Slot :=
  (List.finRange maxTasks).find? fun i =>
    match s.tasks i with
    | some t => t.pid == pid
    | none => false

/-- Change the task with the given pid in place; says whether there is one. -/
def modifyPid (s : Scheduler F) (pid : TaskId) (f : TaskControlBlock F → TaskControlBlock F) :
    Scheduler F × Bool :=
  match s.findPid pid with
  | some i => (s.modifySlot i f, true)
  | none => (s, false)

end Scheduler

open Scheduler

/-! ## The operations -/

section Spawn

variable [RegFrame F]

def idleTask (cr3 : UInt64) : TaskControlBlock F where
  pid := 0
  priority := .idle
  state := .running
  cr3 := cr3
  cpuTicks := 0
  memoryBytes := 0
  stackPointer := 0
  instructionPointer := 0
  frame := RegFrame.zero
  hasFrame := false
  name := (fillName "idle".toUTF8.toList).1
  nameLen := (fillName "idle".toUTF8.toList).2
  capabilities := [.serial, .system]
  preemptionDisabled := false
  medId := none

def init (s : Scheduler F) : Scheduler F :=
  { s.setTask 0 (some (idleTask s.cr3)) with current := 0, nextPid := 1, initialized := true }

/-- The task `spawn_named` puts into the free slot `i`. -/
def newTask (i : Slot) (pid : TaskId) (name : List UInt8) (priority : Priority)
    (entryPoint stackPointer memoryBytes cr3 : UInt64) : TaskControlBlock F where
  pid := pid
  priority := priority
  state := .ready
  cr3 := cr3
  cpuTicks := 0
  memoryBytes := memoryBytes
  stackPointer := stackPointer
  instructionPointer := entryPoint
  frame := RegFrame.initial i pid priority entryPoint stackPointer
  hasFrame := entryPoint != 0 && stackPointer != 0
  name := (fillName name).1
  nameLen := (fillName name).2
  capabilities :=
    if priority = .system ∨ priority = .compute then [.serial, .spawn, .memHuge] else [.serial]
  preemptionDisabled := false
  medId := none

/-- The first free slot from 1 on. -/
def freeSlot (s : Scheduler F) : Option Slot :=
  (List.finRange maxTasks).find? fun i => i != 0 && (s.tasks i).isNone

/-- `space` is what `create_address_space` returns, should it be called. -/
def spawnNamed (s : Scheduler F) (name : List UInt8) (priority : Priority)
    (entryPoint stackPointer memoryBytes : UInt64) (space : Option UInt64) :
    Scheduler F × Option TaskId :=
  if s.initialized then
    match freeSlot s with
    | some i =>
      let pid := s.nextPid
      let cr3 := if s.vmmInit then space.getD s.cr3 else s.cr3
      let t := newTask i pid name priority entryPoint stackPointer memoryBytes cr3
      ({ s.setTask i (some t) with nextPid := s.nextPid + 1 }, some pid)
    | none => (s, none)
  else (s, none)

end Spawn

def hasCapability (s : Scheduler F) (cap : Capability) : Bool :=
  match s.tasks s.current with
  | some t => t.capabilities.contains cap
  | none => false

def grantCapability (s : Scheduler F) (pid : TaskId) (cap : Capability) : Scheduler F × Bool :=
  if hasCapability s .system then
    s.modifyPid pid fun t =>
      if t.capabilities.contains cap then t
      else { t with capabilities := t.capabilities ++ [cap] }
  else (s, false)

def addMemoryUsage (s : Scheduler F) (pid : TaskId) (bytes : UInt64) : Scheduler F :=
  (s.modifyPid pid fun t => { t with memoryBytes := saturatingAdd t.memoryBytes bytes }).1

def subMemoryUsage (s : Scheduler F) (pid : TaskId) (bytes : UInt64) : Scheduler F :=
  (s.modifyPid pid fun t => { t with memoryBytes := saturatingSub t.memoryBytes bytes }).1

def exitCurrent (s : Scheduler F) : Scheduler F :=
  s.modifySlot s.current fun t => { t with state := .dead }

def exitPid (s : Scheduler F) (pid : TaskId) : Scheduler F × Bool :=
  s.modifyPid pid fun t => { t with state := .dead }

def currentPid (s : Scheduler F) : TaskId :=
  match s.tasks s.current with
  | some t => t.pid
  | none => 0

/-- What a signal does to the state of the task it reaches: 18 is SIGCONT, 19 is SIGSTOP, any
other number terminates. -/
def signalState (signal : UInt32) (state : TaskState) : TaskState :=
  if signal = 18 then if state = .waiting then .ready else state
  else if signal = 19 then .waiting
  else .dead

/-- Tasks 0 and 1 are not signalled. -/
def signalTask (signal : UInt32) (t : TaskControlBlock F) : TaskControlBlock F :=
  if 1 < t.pid then { t with state := signalState signal t.state } else t

def signalThread (s : Scheduler F) (slot : ℕ) (signal : UInt32) : Scheduler F :=
  if h : slot < maxTasks then s.modifySlot ⟨slot, h⟩ (signalTask signal) else s

def signalPid (s : Scheduler F) (pid : TaskId) (signal : UInt32) : Scheduler F × Bool :=
  if 1 < pid then s.modifyPid pid (signalTask signal) else (s, false)

def tick (s : Scheduler F) : Scheduler F :=
  if s.initialized then
    s.modifySlot s.current fun t => { t with cpuTicks := saturatingAdd t.cpuTicks 1 }
  else s

/-- Up to the `hlt`: the interrupts that follow are steps of their own. -/
def sysYield (s : Scheduler F) : Scheduler F :=
  if s.initialized then
    s.modifySlot s.current fun t => if t.state = .running then { t with state := .ready } else t
  else s

def setPreemptionDisabled (s : Scheduler F) (disabled : Bool) : Scheduler F :=
  s.modifySlot s.current fun t => { t with preemptionDisabled := disabled }

def setIsVfsServer (s : Scheduler F) (isServer : Bool) : Scheduler F :=
  if isServer then (grantCapability s (currentPid s) .vfsServer).1 else s

def setMedId (s : Scheduler F) (medId : UInt64) : Scheduler F :=
  s.modifySlot s.current fun t => { t with medId := some medId }

/-! ## The timer interrupt -/

/-- The state of the selection loop: the table it reaps, the best slot and its priority. -/
structure Scan (F : Type) where
  tasks : Slot → Option (TaskControlBlock F)
  best : Option Slot
  bestPrio : Priority

/-- One round of the selection loop, at the slot `idx`. -/
def scanSlot (cur : Slot) (sc : Scan F) (idx : Slot) : Scan F :=
  match sc.tasks idx with
  | none => sc
  | some task =>
    if task.state = .dead then
      if idx ≠ 0 ∧ idx ≠ cur then { sc with tasks := Function.update sc.tasks idx none } else sc
    else if task.state = .ready ∨ task.state = .running then
      if sc.bestPrio ≤ task.priority then
        { sc with best := some idx, bestPrio := task.priority }
      else sc
    else sc

/-- The slots in the order the loop visits them: `cur + 1` up to `cur + 64`, modulo 64. -/
def scanOrder (cur : Slot) : List Slot :=
  (List.finRange maxTasks).map fun k => cur + 1 + k

/-- Select the next task and reap the dead ones on the way. -/
def nextReadySlot (s : Scheduler F) : Scan F :=
  (scanOrder s.current).foldl (scanSlot s.current) ⟨s.tasks, none, .idle⟩

/-- What the interrupt handler leaves behind: the contents of `saved_state`, and the page table
root that `sync_kernel_mappings` was called for. -/
structure IrqOut (F : Type) where
  regs : F
  synced : Option UInt64

/-- The current task keeps the processor: a compute task inside its quantum of 1000 ticks, or
preemption disabled. -/
def keepsCpu (t : TaskControlBlock F) : Bool :=
  let isCompute := t.priority == .compute
  let quantumExceeded := t.cpuTicks % 1000 == 0
  let forcePreempt := !isCompute || quantumExceeded
  !forcePreempt || t.preemptionDisabled

/-- Save the interrupted registers into the current task. -/
def saveFrame (savedState : UInt64) (regs : F) (t : TaskControlBlock F) : TaskControlBlock F :=
  { t with
    stackPointer := savedState
    frame := regs
    hasFrame := true
    state := if t.state = .running then .ready else t.state }

def setRunning (t : TaskControlBlock F) : TaskControlBlock F := { t with state := .running }

/-- Give the processor to the task of `next`. -/
def switchTo (s : Scheduler F) (next : Slot) (regs : F) : Scheduler F × IrqOut F :=
  match s.tasks next with
  | none => (s, ⟨regs, none⟩)
  | some t =>
    let s' := { s.setTask next (some (setRunning t)) with current := next }
    let regs' := if t.hasFrame then t.frame else regs
    if t.cr3 ≠ 0 ∧ t.cr3 ≠ s.cr3 then
      ({ s' with cr3 := t.cr3 }, ⟨regs', if s.vmmInit then some t.cr3 else none⟩)
    else (s', ⟨regs', none⟩)

def reschedule (s : Scheduler F) (regs : F) : Scheduler F × IrqOut F :=
  let sc := nextReadySlot s
  let s := { s with tasks := sc.tasks }
  match sc.best with
  | none => (s.modifySlot s.current setRunning, ⟨regs, none⟩)
  | some next =>
    if next = s.current then (s.modifySlot s.current setRunning, ⟨regs, none⟩)
    else switchTo s next regs

/-- `savedState` is the address of the interrupted registers and `regs` the registers there. -/
def onTimerIrq (s : Scheduler F) (savedState : UInt64) (regs : F) : Scheduler F × IrqOut F :=
  if s.initialized then
    match s.tasks s.current with
    | none => reschedule s regs
    | some t =>
      let t := { t with cpuTicks := saturatingAdd t.cpuTicks 1 }
      if keepsCpu t then (s.setTask s.current (some t), ⟨regs, none⟩)
      else reschedule (s.setTask s.current (some (saveFrame savedState regs t))) regs
  else (s, ⟨regs, none⟩)

/-! ## The transition system -/

/-- One call of a scheduler function, with what the environment supplies. -/
inductive Action (F : Type) where
  | spawnNamed (name : List UInt8) (priority : Priority)
      (entryPoint stackPointer memoryBytes : UInt64) (space : Option UInt64)
  | exitCurrent (code : UInt64)
  | exitPid (pid : TaskId)
  | signalThread (slot : ℕ) (signal : UInt32)
  | signalPid (pid : TaskId) (signal : UInt32)
  | grantCapability (pid : TaskId) (cap : Capability)
  | addMemoryUsage (pid : TaskId) (bytes : UInt64)
  | subMemoryUsage (pid : TaskId) (bytes : UInt64)
  | tick
  | sysYield
  | setPreemptionDisabled (disabled : Bool)
  | setIsVfsServer (isServer : Bool)
  | setMedId (medId : UInt64)
  | onTimerIrq (savedState : UInt64) (regs : F)

def step [RegFrame F] (s : Scheduler F) : Action F → Scheduler F
  | .spawnNamed name priority entryPoint stackPointer memoryBytes space =>
    (Sched.spawnNamed s name priority entryPoint stackPointer memoryBytes space).1
  | .exitCurrent _ => Sched.exitCurrent s
  | .exitPid pid => (Sched.exitPid s pid).1
  | .signalThread slot signal => Sched.signalThread s slot signal
  | .signalPid pid signal => (Sched.signalPid s pid signal).1
  | .grantCapability pid cap => (Sched.grantCapability s pid cap).1
  | .addMemoryUsage pid bytes => Sched.addMemoryUsage s pid bytes
  | .subMemoryUsage pid bytes => Sched.subMemoryUsage s pid bytes
  | .tick => Sched.tick s
  | .sysYield => Sched.sysYield s
  | .setPreemptionDisabled disabled => Sched.setPreemptionDisabled s disabled
  | .setIsVfsServer isServer => Sched.setIsVfsServer s isServer
  | .setMedId medId => Sched.setMedId s medId
  | .onTimerIrq savedState regs => (Sched.onTimerIrq s savedState regs).1

/-- The state after `init`, the start of every run. -/
def start [RegFrame F] (cr3 : UInt64) (vmmInit : Bool) : Scheduler F := init (boot cr3 vmmInit)

end Aeterna.Sched
