import Aeterna.Sched.Scan

/-!
# System calls

`dispatch` of `core/syscall/mod.rs` and the handlers of its table, as functions of the scheduler.
What the rest of the kernel answers during one call (memory, files, channels, ports, allocators)
is `Services`; the registers of the caller are `SyscallArgs`.

`dispatch_cases` says once what a call without the system capability can do to the task table: it
spawns (`syscallSpawn_cases`), or it changes at most one task, in place and without touching its
capabilities (`Quiet`). The two handlers that grant, `cap_delegate` and `vfs_register`, are quiet
for such a caller because `grant_capability` asks for the system capability itself.
-/

namespace Aeterna.Sched

open Scheduler

/-! ## Arguments, results, environment -/

inductive SyscallError where
  | success
  | invalidSyscall
  | permissionDenied
  | invalidArgument
  | notFound
  | busy
  | outOfMemory
  | notSupported
  | ioError
  | noSuchProcess
  deriving DecidableEq, Repr

def SyscallError.code : SyscallError → Int64
  | .success => 0
  | .invalidSyscall => -1
  | .permissionDenied => -2
  | .invalidArgument => -3
  | .notFound => -4
  | .busy => -5
  | .outOfMemory => -6
  | .notSupported => -7
  | .ioError => -8
  | .noSuchProcess => -9

structure SyscallArgs where
  number : UInt64
  arg1 : UInt64
  arg2 : UInt64
  arg3 : UInt64
  arg4 : UInt64
  arg5 : UInt64

/-- How a handler ends: with a value in `rax`, in the `hlt` loop of `exit`, or before another
round of the loop of `waitpid`. -/
inductive Reply where
  | ret (value : Int64)
  | halt
  | again
  deriving DecidableEq

def Reply.error (e : SyscallError) : Reply := .ret e.code

/-- What the rest of the kernel answers during one call. -/
structure Services where
  /-- The bytes of user memory at an address, for a length. -/
  memory : UInt64 → UInt64 → List UInt8
  /-- The key `poll_key` returns. -/
  key : Option Char
  fsWrite : UInt64 → List UInt8 → Int64
  fsRead : UInt64 → UInt64 → Int64
  fsOpen : List UInt8 → UInt64 → Int64
  fsClose : UInt64 → Int64
  totalMemory : UInt64
  usableMemory : UInt64
  timerTicks : UInt64
  /-- The result of `create_address_space`. -/
  space : Option UInt64
  /-- The result of `alloc_huge_frame`, as a virtual address. -/
  hugeFrame : Option UInt64
  /-- The pointer `alloc_zeroed` returns for a size. -/
  allocZeroed : UInt64 → UInt64
  /-- The result of `alloc_frames` for a count. -/
  frames : UInt64 → Option UInt64
  /-- The value read from a port, for a width in bytes. -/
  portIn : UInt16 → ℕ → UInt64
  /-- The id `create_channel` returns, 0 for failure. -/
  channel : UInt32
  sendToChannel : UInt32 → UInt64 → UInt64 → Int64
  recvFromChannel : UInt32 → UInt64

/-- The bytes are text, as `core::str::from_utf8` decides. -/
def isUtf8 (bytes : List UInt8) : Bool := (String.fromUTF8? ⟨bytes.toArray⟩).isSome

/-- `Layout::from_size_align` accepts: the size rounded up to the alignment fits an `isize`. -/
def layoutOk (size align : UInt64) : Bool := size ≤ 0x7FFFFFFFFFFFFFFF - (align - 1)

/-- Round up to a multiple of a power of two, with the wrap-around of the machine. -/
def roundUp (size align : UInt64) : UInt64 := (size + align - 1) &&& ~~~(align - 1)

def hugeFrameSize : UInt64 := 0x200000

/-! ## The handlers -/

variable {F : Type}

def isAlive (t : TaskControlBlock F) : Bool := t.state != .dead

def taskCount (s : Scheduler F) : ℕ :=
  ((List.finRange maxTasks).filter fun i => (s.tasks i).any isAlive).length

def syscallExit (s : Scheduler F) : Scheduler F × Reply := (exitCurrent s, .halt)

def syscallWrite (k : Services) (s : Scheduler F) (fd buf len : UInt64) : Scheduler F × Reply :=
  if fd = 1 ∨ fd = 2 then (s, .ret len.toInt64)
  else (s, .ret (k.fsWrite fd (k.memory buf len)))

def syscallRead (k : Services) (s : Scheduler F) (fd len : UInt64) : Scheduler F × Reply :=
  if fd = 0 then (s, .ret (if k.key.isSome ∧ 1 ≤ len then 1 else 0))
  else (s, .ret (k.fsRead fd len))

def syscallOpen (k : Services) (s : Scheduler F) (path len flags : UInt64) :
    Scheduler F × Reply :=
  if isUtf8 (k.memory path len) then (s, .ret (k.fsOpen (k.memory path len) flags))
  else (s, .error .invalidArgument)

def syscallClose (k : Services) (s : Scheduler F) (fd : UInt64) : Scheduler F × Reply :=
  (s, .ret (k.fsClose fd))

def syscallYield (s : Scheduler F) : Scheduler F × Reply :=
  (if s.initialized then tick s else s, .error .success)

/-- One round of the loop of `wait_pid`: while the task is alive, yield and look again. -/
def syscallWaitpid (s : Scheduler F) (pid : UInt64) : Scheduler F × Reply :=
  if (List.finRange maxTasks).any fun i =>
      (s.tasks i).any fun t => t.pid == pid.toUInt32 && isAlive t then
    (sysYield s, .again)
  else (s, .error .success)

def syscallGetpid (s : Scheduler F) : Scheduler F × Reply :=
  (s, .ret (currentPid s).toUInt64.toInt64)

def priorityOf (priority : UInt64) : Priority :=
  if priority = 0 then .idle
  else if priority = 1 then .normal
  else if priority = 2 then .system
  else if priority = 3 then .realTime
  else .compute

def syscallSpawn [RegFrame F] (k : Services) (s : Scheduler F) (name len priority : UInt64) :
    Scheduler F × Reply :=
  if isUtf8 (k.memory name len) then
    match spawnNamed s (k.memory name len) (priorityOf priority) 0 0 0 k.space with
    | (s', some pid) => (s', .ret pid.toUInt64.toInt64)
    | (s', none) => (s', .error .busy)
  else (s, .error .invalidArgument)

def syscallPreemptControl (s : Scheduler F) (disable : UInt64) : Scheduler F × Reply :=
  (setPreemptionDisabled s (disable != 0), .ret 0)

def syscallSysinfo (k : Services) (s : Scheduler F) (infoType : UInt64) : Scheduler F × Reply :=
  if infoType = 0 then (s, .ret k.totalMemory.toInt64)
  else if infoType = 1 then (s, .ret k.usableMemory.toInt64)
  else if infoType = 2 then (s, .ret (Int64.ofNat (taskCount s)))
  else (s, .error .invalidArgument)

def syscallUptime (k : Services) (s : Scheduler F) : Scheduler F × Reply :=
  (s, .ret k.timerTicks.toInt64)

def syscallGetTasks (s : Scheduler F) : Scheduler F × Reply :=
  (s, .ret (Int64.ofNat (taskCount s)))

def syscallMmap (k : Services) (s : Scheduler F) (size flags : UInt64) : Scheduler F × Reply :=
  if size = 0 then (s, .error .invalidArgument)
  else if flags &&& 1 ≠ 0 then
    match k.hugeFrame with
    | some virt => (addMemoryUsage s (currentPid s) hugeFrameSize, .ret virt.toInt64)
    | none => (s, .error .outOfMemory)
  else
    let allocSize := roundUp size 64
    if layoutOk allocSize 64 then
      if k.allocZeroed allocSize = 0 then (s, .error .outOfMemory)
      else
        (addMemoryUsage s (currentPid s) allocSize, .ret (k.allocZeroed allocSize).toInt64)
    else (s, .error .invalidArgument)

def syscallMunmap (s : Scheduler F) (addr size : UInt64) : Scheduler F × Reply :=
  if addr = 0 ∨ size = 0 then (s, .error .invalidArgument)
  else
    let align := if size % 0x200000 = 0 then 0x200000 else 64
    let allocSize := roundUp size align
    if layoutOk allocSize align then
      (subMemoryUsage s (currentPid s) allocSize, .error .success)
    else (s, .error .invalidArgument)

def portWidth (size : UInt64) : Option ℕ :=
  if size = 1 then some 1 else if size = 2 then some 2 else if size = 4 then some 4 else none

def syscallIoportIn (k : Services) (s : Scheduler F) (port size : UInt64) :
    Scheduler F × Reply :=
  if hasCapability s .device then
    match portWidth size with
    | some width =>
      (s, .ret (UInt64.ofNat ((k.portIn port.toUInt16 width).toNat % 256 ^ width)).toInt64)
    | none => (s, .error .invalidArgument)
  else (s, .error .permissionDenied)

def syscallIoportOut (s : Scheduler F) (size : UInt64) : Scheduler F × Reply :=
  if hasCapability s .device then
    match portWidth size with
    | some _ => (s, .ret 0)
    | none => (s, .error .invalidArgument)
  else (s, .error .permissionDenied)

/-- Up to the `hlt` of `sys_yield`. -/
def syscallIrqWait (s : Scheduler F) : Scheduler F × Reply :=
  if hasCapability s .device then (sysYield s, .ret 0) else (s, .error .permissionDenied)

/-- The capabilities that can be delegated, by number. -/
def delegable (cap : UInt64) : Option Capability :=
  if cap = 31 then some .fsRead
  else if cap = 32 then some .fsWrite
  else if cap = 37 then some .net
  else if cap = 38 then some .system
  else if cap = 39 then some .device
  else none

def syscallCapDelegate (s : Scheduler F) (target cap : UInt64) : Scheduler F × Reply :=
  match delegable cap with
  | none => (s, .error .invalidArgument)
  | some cap =>
    if hasCapability s cap then
      match grantCapability s target.toUInt32 cap with
      | (s', true) => (s', .ret 0)
      | (s', false) => (s', .error .noSuchProcess)
    else (s, .error .permissionDenied)

def syscallMedAssign (s : Scheduler F) (medId : UInt64) : Scheduler F × Reply :=
  if hasCapability s .system ∨ hasCapability s .memHuge then (setMedId s medId, .ret 0)
  else (s, .error .permissionDenied)

def syscallVfsRegister (k : Services) (s : Scheduler F) (path len : UInt64) :
    Scheduler F × Reply :=
  if hasCapability s .vfsServer ∨ hasCapability s .system then
    if isUtf8 (k.memory path len) then
      if k.channel = 0 then (s, .error .outOfMemory)
      else (setIsVfsServer s true, .ret k.channel.toUInt64.toInt64)
    else (s, .error .invalidArgument)
  else (s, .error .permissionDenied)

def syscallDevDetach (s : Scheduler F) : Scheduler F × Reply :=
  if hasCapability s .device then (s, .ret 0) else (s, .error .permissionDenied)

def syscallSmrCreate (k : Services) (s : Scheduler F) : Scheduler F × Reply :=
  if k.channel = 0 then (s, .error .outOfMemory) else (s, .ret k.channel.toUInt64.toInt64)

def syscallSmrSend (k : Services) (s : Scheduler F) (channel phys len : UInt64) :
    Scheduler F × Reply :=
  (s, .ret (k.sendToChannel channel.toUInt32 phys len))

def syscallSmrRecv (k : Services) (s : Scheduler F) (channel : UInt64) : Scheduler F × Reply :=
  (s, .ret (k.recvFromChannel channel.toUInt32).toInt64)

def syscallDmaAlloc (k : Services) (s : Scheduler F) (size : UInt64) : Scheduler F × Reply :=
  if hasCapability s .device ∨ hasCapability s .system then
    let count := (size + 4095) / 4096
    match k.frames count with
    | some phys => (addMemoryUsage s (currentPid s) (count * 4096), .ret phys.toInt64)
    | none => (s, .error .outOfMemory)
  else (s, .error .permissionDenied)

/-! ## The dispatch table -/

variable [RegFrame F]

/-- A handler: a function of the environment, the scheduler and the registers. -/
abbrev SyscallFn (F : Type) := Services → Scheduler F → SyscallArgs → Scheduler F × Reply

def dispatchTable : List (UInt64 × SyscallFn F) :=
  [(0, fun _ s _ => syscallExit s),
   (1, fun k s a => syscallWrite k s a.arg1 a.arg2 a.arg3),
   (2, fun k s a => syscallRead k s a.arg1 a.arg3),
   (3, fun k s a => syscallOpen k s a.arg1 a.arg2 a.arg3),
   (4, fun k s a => syscallClose k s a.arg1),
   (20, fun _ s _ => syscallYield s),
   (22, fun _ s _ => syscallGetpid s),
   (23, fun k s a => syscallSpawn k s a.arg1 a.arg2 a.arg3),
   (24, fun _ s a => syscallPreemptControl s a.arg1),
   (32, fun _ s a => syscallWaitpid s a.arg1),
   (40, fun k s a => syscallMmap k s a.arg2 a.arg3),
   (41, fun _ s a => syscallMunmap s a.arg1 a.arg2),
   (50, fun k s a => syscallSysinfo k s a.arg1),
   (51, fun k s _ => syscallUptime k s),
   (52, fun _ s _ => syscallGetTasks s),
   (60, fun k s a => syscallIoportIn k s a.arg1 a.arg2),
   (61, fun _ s a => syscallIoportOut s a.arg2),
   (62, fun _ s _ => syscallIrqWait s),
   (70, fun _ s a => syscallCapDelegate s a.arg1 a.arg2),
   (80, fun _ s a => syscallMedAssign s a.arg1),
   (100, fun k s a => syscallVfsRegister k s a.arg1 a.arg2),
   (110, fun _ s _ => syscallDevDetach s),
   (120, fun k s _ => syscallSmrCreate k s),
   (121, fun k s a => syscallSmrSend k s a.arg1 a.arg2 a.arg3),
   (122, fun k s a => syscallSmrRecv k s a.arg1),
   (130, fun k s a => syscallDmaAlloc k s a.arg1)]

def dispatch (k : Services) (s : Scheduler F) (args : SyscallArgs) : Scheduler F × Reply :=
  match dispatchTable.find? fun entry => entry.1 == args.number with
  | some entry => entry.2 k s args
  | none => (s, .error .invalidSyscall)

/-! ## What a call does to the task table -/

omit [RegFrame F]

/-- At most one task changes, in place, and keeps its capabilities. -/
def Quiet (s s' : Scheduler F) : Prop :=
  s' = s ∨ ∃ i f, (∀ t, (f t).capabilities = t.capabilities) ∧ s' = s.modifySlot i f

theorem quiet_modifySlot {f : TaskControlBlock F → TaskControlBlock F} (s : Scheduler F)
    (i : Slot) (hf : ∀ t, (f t).capabilities = t.capabilities) : Quiet s (s.modifySlot i f) :=
  Or.inr ⟨i, f, hf, rfl⟩

theorem quiet_modifyPid {f : TaskControlBlock F → TaskControlBlock F} (s : Scheduler F)
    (pid : TaskId) (hf : ∀ t, (f t).capabilities = t.capabilities) :
    Quiet s (s.modifyPid pid f).1 := by
  rcases modifyPid_cases s pid f with ⟨-, h⟩ | ⟨i, -, h⟩
  · exact Or.inl h
  · rw [h]
    exact quiet_modifySlot s i hf

theorem quiet_tick (s : Scheduler F) : Quiet s (tick s) := by
  unfold tick
  split_ifs
  · exact quiet_modifySlot s s.current fun _ => rfl
  · exact Or.inl rfl

theorem quiet_sysYield (s : Scheduler F) : Quiet s (sysYield s) := by
  unfold sysYield
  split_ifs
  · refine quiet_modifySlot s s.current fun t => ?_
    split_ifs <;> rfl
  · exact Or.inl rfl

theorem quiet_addMemoryUsage (s : Scheduler F) (pid : TaskId) (bytes : UInt64) :
    Quiet s (addMemoryUsage s pid bytes) := quiet_modifyPid s pid fun _ => rfl

theorem quiet_subMemoryUsage (s : Scheduler F) (pid : TaskId) (bytes : UInt64) :
    Quiet s (subMemoryUsage s pid bytes) := quiet_modifyPid s pid fun _ => rfl

theorem grantCapability_of_not_system {s : Scheduler F} (hs : hasCapability s .system = false)
    (pid : TaskId) (cap : Capability) : grantCapability s pid cap = (s, false) := by
  unfold grantCapability
  rw [hs]
  rfl

section Handlers

variable (k : Services) (s : Scheduler F) (a : SyscallArgs)

theorem quiet_syscallYield : Quiet s (syscallYield s).1 := by
  unfold syscallYield
  split_ifs
  · exact quiet_tick s
  · exact Or.inl rfl

theorem quiet_syscallWaitpid (pid : UInt64) : Quiet s (syscallWaitpid s pid).1 := by
  unfold syscallWaitpid
  split_ifs
  · exact quiet_sysYield s
  · exact Or.inl rfl

theorem quiet_syscallIrqWait : Quiet s (syscallIrqWait s).1 := by
  unfold syscallIrqWait
  split_ifs
  · exact quiet_sysYield s
  · exact Or.inl rfl

theorem quiet_syscallMmap (size flags : UInt64) : Quiet s (syscallMmap k s size flags).1 := by
  unfold syscallMmap
  split
  · exact Or.inl rfl
  split
  · cases k.hugeFrame with
    | none => exact Or.inl rfl
    | some virt => exact quiet_addMemoryUsage s _ _
  · dsimp only
    split_ifs
    · exact Or.inl rfl
    · exact quiet_addMemoryUsage s _ _
    · exact Or.inl rfl

theorem quiet_syscallMunmap (addr size : UInt64) : Quiet s (syscallMunmap s addr size).1 := by
  unfold syscallMunmap
  split
  · exact Or.inl rfl
  dsimp only
  generalize (if size % 0x200000 = 0 then (0x200000 : UInt64) else 64) = align
  split
  · exact quiet_subMemoryUsage s _ _
  · exact Or.inl rfl

theorem quiet_syscallMedAssign (medId : UInt64) : Quiet s (syscallMedAssign s medId).1 := by
  unfold syscallMedAssign
  split_ifs
  · exact quiet_modifySlot s s.current fun _ => rfl
  · exact Or.inl rfl

theorem quiet_syscallDmaAlloc (size : UInt64) : Quiet s (syscallDmaAlloc k s size).1 := by
  unfold syscallDmaAlloc
  split_ifs
  · dsimp only
    cases k.frames ((size + 4095) / 4096) with
    | none => exact Or.inl rfl
    | some phys => exact quiet_addMemoryUsage s _ _
  · exact Or.inl rfl

variable {s} in
theorem quiet_syscallCapDelegate (hs : hasCapability s .system = false) (target cap : UInt64) :
    Quiet s (syscallCapDelegate s target cap).1 := by
  unfold syscallCapDelegate
  cases delegable cap with
  | none => exact Or.inl rfl
  | some c =>
    simp only [grantCapability_of_not_system hs]
    split_ifs <;> exact Or.inl rfl

variable {s} in
theorem quiet_syscallVfsRegister (hs : hasCapability s .system = false) (path len : UInt64) :
    Quiet s (syscallVfsRegister k s path len).1 := by
  unfold syscallVfsRegister setIsVfsServer
  simp only [grantCapability_of_not_system hs]
  split_ifs <;> exact Or.inl rfl

end Handlers

variable [RegFrame F] {k : Services} {s : Scheduler F}

/-- Every handler but `spawn` is quiet for a caller without the system capability. -/
theorem quiet_handler (hs : hasCapability s .system = false) (a : SyscallArgs) :
    ∀ entry ∈ dispatchTable (F := F), entry.1 ≠ 23 → Quiet s (entry.2 k s a).1 := by
  simp only [dispatchTable, List.forall_mem_cons, List.not_mem_nil, false_imp_iff, implies_true,
    and_true]
  refine ⟨fun _ => quiet_modifySlot s s.current fun _ => rfl, fun _ => ?_, fun _ => ?_, fun _ => ?_,
    fun _ => Or.inl rfl, fun _ => quiet_syscallYield s, fun _ => Or.inl rfl,
    fun h => absurd rfl h, fun _ => quiet_modifySlot s s.current fun _ => rfl,
    fun _ => quiet_syscallWaitpid s _, fun _ => quiet_syscallMmap k s _ _,
    fun _ => quiet_syscallMunmap s _ _, fun _ => ?_, fun _ => Or.inl rfl, fun _ => Or.inl rfl,
    fun _ => ?_, fun _ => ?_, fun _ => quiet_syscallIrqWait s,
    fun _ => quiet_syscallCapDelegate hs _ _, fun _ => quiet_syscallMedAssign s _,
    fun _ => quiet_syscallVfsRegister k hs _ _, fun _ => ?_, fun _ => ?_, fun _ => Or.inl rfl,
    fun _ => Or.inl rfl, fun _ => quiet_syscallDmaAlloc k s _⟩
  -- the handlers left only read the scheduler
  · unfold syscallWrite; split_ifs <;> exact Or.inl rfl
  · unfold syscallRead; split_ifs <;> exact Or.inl rfl
  · unfold syscallOpen; split_ifs <;> exact Or.inl rfl
  · unfold syscallSysinfo; split_ifs <;> exact Or.inl rfl
  · unfold syscallIoportIn; split_ifs <;> [split; skip] <;> exact Or.inl rfl
  · unfold syscallIoportOut; split_ifs <;> [split; skip] <;> exact Or.inl rfl
  · unfold syscallDevDetach; split_ifs <;> exact Or.inl rfl
  · unfold syscallSmrCreate; split_ifs <;> exact Or.inl rfl

theorem dispatch_spawn {a : SyscallArgs} (h : a.number = 23) :
    dispatch k s a = syscallSpawn k s a.arg1 a.arg2 a.arg3 := by
  unfold dispatch
  rw [h]
  rfl

theorem dispatch_cases (hs : hasCapability s .system = false) (a : SyscallArgs) :
    a.number = 23 ∨ (a.number ≠ 23 ∧ Quiet s (dispatch k s a).1) := by
  by_cases h : a.number = 23
  · exact Or.inl h
  · refine Or.inr ⟨h, ?_⟩
    unfold dispatch
    cases hf : (dispatchTable (F := F)).find? fun entry => entry.1 == a.number with
    | none => exact Or.inl rfl
    | some entry =>
      have hnum : entry.1 = a.number := by simpa using List.find?_some hf
      exact quiet_handler hs a entry (List.mem_of_find?_eq_some hf) (hnum ▸ h)

end Aeterna.Sched
