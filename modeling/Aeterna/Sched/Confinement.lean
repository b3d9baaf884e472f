import Aeterna.Sched.Syscall

/-!
# Capability confinement

Tasks without the system capability make system calls and the timer switches between them. Next
to the scheduler a run carries where each task comes from: `Traced.origin i` is the slot whose
task, at the start of the run, is the task of slot `i` or the one it descends from.

No capability is gained along a run exactly when every spawn stays within what that first task
held (`confined_iff_spawns_covered`). The guard is not vacuous: a new task gets its capabilities
from the priority number the caller passes, and `syscall_spawn` asks for none of them.
-/

namespace Aeterna.Sched

open Scheduler

variable {F : Type}

/-! ## Capabilities of a slot -/

/-- The capabilities of the task in a slot, none for a free slot. -/
def capsAt (s : Scheduler F) (i : Slot) : List Capability :=
  match s.tasks i with
  | some t => t.capabilities
  | none => []

theorem capsAt_of_none {s : Scheduler F} {i : Slot} (h : s.tasks i = none) : capsAt s i = [] := by
  unfold capsAt; rw [h]

theorem capsAt_of_some {s : Scheduler F} {i : Slot} {t : TaskControlBlock F}
    (h : s.tasks i = some t) : capsAt s i = t.capabilities := by
  unfold capsAt; rw [h]

theorem capsAt_congr {s s' : Scheduler F} {i : Slot} (h : s'.tasks i = s.tasks i) :
    capsAt s' i = capsAt s i := by
  unfold capsAt; rw [h]

theorem capsAt_modifySlot (s : Scheduler F) (i j : Slot)
    {f : TaskControlBlock F → TaskControlBlock F}
    (hf : ∀ t, (f t).capabilities = t.capabilities) :
    capsAt (s.modifySlot i f) j = capsAt s j := by
  unfold capsAt
  rw [modifySlot_tasks]
  by_cases hj : j = i
  · cases s.tasks j with
    | none => simp [hj]
    | some t => simp [hj, hf t]
  · simp [hj]

theorem capsAt_quiet {s s' : Scheduler F} (h : Quiet s s') (i : Slot) :
    capsAt s' i = capsAt s i := by
  rcases h with rfl | ⟨j, f, hf, rfl⟩
  · rfl
  · exact capsAt_modifySlot s j i hf

theorem hasCapability_eq_false {s : Scheduler F} {t : TaskControlBlock F} {cap : Capability}
    (ht : s.tasks s.current = some t) (hcap : cap ∉ t.capabilities) :
    hasCapability s cap = false := by
  unfold hasCapability
  rw [ht]
  simpa using hcap

/-! ## The timer grants nothing -/

theorem capsAt_reap_subset (s : Scheduler F) (i : Slot) :
    capsAt { s with tasks := reap s.current s.tasks } i ⊆ capsAt s i := by
  rcases reap_cases s.current i s.tasks with h | ⟨h, -⟩
  · rw [capsAt_congr h]
    exact List.Subset.refl _
  · rw [capsAt_of_none h]
    exact List.nil_subset _

theorem capsAt_reschedule_subset (s : Scheduler F) (regs : F) (i : Slot) :
    capsAt (reschedule s regs).1 i ⊆ capsAt s i := by
  rcases reschedule_cases s regs with ⟨h, -⟩ | ⟨n, t, -, -, ht, htasks, -⟩
  · rw [h]
    show capsAt (stayed s) i ⊆ _
    unfold stayed
    rw [capsAt_modifySlot (f := setRunning) _ _ _ fun _ => rfl]
    exact capsAt_reap_subset s i
  · by_cases hi : i = n
    · have : (reschedule s regs).1.tasks i = some (setRunning t) := by
        rw [htasks, hi, Function.update_self]
      rw [capsAt_of_some this, hi, capsAt_of_some ht]
      exact List.Subset.refl _
    · have : (reschedule s regs).1.tasks i = reap s.current s.tasks i := by
        rw [htasks, Function.update_of_ne hi]
      exact (capsAt_congr (s := { s with tasks := reap s.current s.tasks }) this) ▸
        capsAt_reap_subset s i

theorem capsAt_setTask_same {s : Scheduler F} {j : Slot} {t : TaskControlBlock F}
    (ht : s.tasks j = some t) (u : TaskControlBlock F) (hcap : u.capabilities = t.capabilities)
    (i : Slot) : capsAt (s.setTask j (some u)) i = capsAt s i := by
  unfold capsAt
  rw [setTask_tasks]
  by_cases hi : i = j
  · simp [hi, ht, hcap]
  · simp [hi]

theorem capsAt_onTimerIrq_subset (s : Scheduler F) (savedState : UInt64) (regs : F) (i : Slot) :
    capsAt (onTimerIrq s savedState regs).1 i ⊆ capsAt s i := by
  cases ht : s.tasks s.current with
  | none =>
    unfold onTimerIrq
    rw [ht]
    split_ifs
    · exact capsAt_reschedule_subset s regs i
    · exact List.Subset.refl _
  | some t =>
    rcases onTimerIrq_cases savedState regs ht with ⟨h, -⟩ | ⟨h, -⟩ | ⟨h, -⟩
    · rw [h]
      exact List.Subset.refl _
    · rw [h, capsAt_setTask_same ht { t with cpuTicks := saturatingAdd t.cpuTicks 1 } rfl]
      exact List.Subset.refl _
    · rw [h, ← capsAt_setTask_same ht (interrupted savedState regs t) rfl]
      exact capsAt_reschedule_subset _ regs i

/-! ## What a spawn grants -/

/-- The capabilities a new task gets from its priority. -/
def spawnCapabilities (priority : Priority) : List Capability :=
  if priority = .system ∨ priority = .compute then [.serial, .spawn, .memHuge] else [.serial]

def HasRoom (s : Scheduler F) : Prop := s.initialized = true ∧ ∃ i, i ≠ 0 ∧ s.tasks i = none

instance (s : Scheduler F) : Decidable (HasRoom s) :=
  inferInstanceAs (Decidable (s.initialized = true ∧ ∃ i, i ≠ 0 ∧ s.tasks i = none))

section Spawn

variable [RegFrame F] {s : Scheduler F} {k : Services} {name len : UInt64} (priority : UInt64)

theorem capabilities_newTask (i : Slot) (pid : TaskId) (name : List UInt8) (priority : Priority)
    (entryPoint stackPointer memoryBytes cr3 : UInt64) :
    (newTask (F := F) i pid name priority entryPoint stackPointer memoryBytes cr3).capabilities =
      spawnCapabilities priority := rfl

theorem syscallSpawn_of_hasRoom (hname : isUtf8 (k.memory name len) = true) (hroom : HasRoom s) :
    ∃ i, s.tasks i = none ∧
      capsAt (syscallSpawn k s name len priority).1 i = spawnCapabilities (priorityOf priority) ∧
      ∀ j, j ≠ i → (syscallSpawn k s name len priority).1.tasks j = s.tasks j := by
  obtain ⟨hinit, j, hj0, hj⟩ := hroom
  have hne : freeSlot s ≠ none := by
    intro h
    have := List.find?_eq_none.mp h j (List.mem_finRange j)
    simp [hj, hj0] at this
  obtain ⟨i, hi⟩ := Option.ne_none_iff_exists'.mp hne
  have hfree := List.find?_some hi
  simp only [Bool.and_eq_true, Option.isNone_iff_eq_none] at hfree
  refine ⟨i, hfree.2, ?_, fun j hj => ?_⟩
  · simp only [syscallSpawn, hname, spawnNamed, hinit, hi, if_true]
    rw [capsAt_of_some (t := newTask i s.nextPid (k.memory name len) (priorityOf priority) 0 0 0
      (if s.vmmInit then k.space.getD s.cr3 else s.cr3)) (by simp)]
    exact capabilities_newTask ..
  · simp [syscallSpawn, hname, spawnNamed, hinit, hi, hj]

theorem syscallSpawn_of_not (h : ¬ (isUtf8 (k.memory name len) = true ∧ HasRoom s)) :
    (syscallSpawn k s name len priority).1 = s := by
  unfold syscallSpawn
  split_ifs with hname
  · rcases spawnNamed_cases s (k.memory name len) (priorityOf priority) 0 0 0 k.space with
      hs | ⟨i, cr3, hfree, hi, hs⟩
    · rw [hs]
    · by_cases hinit : s.initialized = true
      · exact absurd ⟨hname, hinit, i, hi, hfree⟩ h
      · have : spawnNamed s (k.memory name len) (priorityOf priority) 0 0 0 k.space = (s, none) := by
          unfold spawnNamed
          rw [if_neg hinit]
        rw [this]
  · rfl

end Spawn

/-! ## Runs with lineage -/

/-- A system call of the current task, or a timer interrupt. -/
inductive Event (F : Type) where
  | syscall (k : Services) (args : SyscallArgs)
  | timer (savedState : UInt64) (regs : F)

/-- The scheduler, with the slot each task's line had at the start of the run. -/
structure Traced (F : Type) where
  sched : Scheduler F
  origin : Slot → Slot

namespace Traced

/-- At the start of a run every task is its own ancestor. -/
def start (s : Scheduler F) : Traced F := ⟨s, id⟩

def step [RegFrame F] (w : Traced F) : Event F → Traced F
  | .syscall k args =>
    -- a slot that was free before the call can only be filled by the caller
    ⟨(dispatch k w.sched args).1,
      fun i => if w.sched.tasks i |>.isNone then w.origin w.sched.current else w.origin i⟩
  | .timer savedState regs => ⟨(onTimerIrq w.sched savedState regs).1, w.origin⟩

end Traced

/-- A call is made by a task, and that task does not hold the system capability. -/
def Unprivileged (w : Traced F) : Event F → Prop
  | .syscall _ _ => ∃ t ∈ w.sched.tasks w.sched.current, Capability.system ∉ t.capabilities
  | .timer _ _ => True

instance (w : Traced F) (e : Event F) : Decidable (Unprivileged w e) :=
  match e with
  | .syscall _ _ => inferInstanceAs (Decidable (∃ t ∈ w.sched.tasks w.sched.current, _))
  | .timer _ _ => inferInstanceAs (Decidable True)

/-- Every capability of a task was held at the start by the first task of its line. -/
def Confined (s₀ : Scheduler F) (w : Traced F) : Prop :=
  ∀ i, capsAt w.sched i ⊆ capsAt s₀ (w.origin i)

instance (s₀ : Scheduler F) : DecidablePred (Confined s₀) := fun w =>
  inferInstanceAs (Decidable (∀ i, capsAt w.sched i ⊆ capsAt s₀ (w.origin i)))

theorem confined_start (s : Scheduler F) : Confined s (Traced.start s) :=
  fun _ => List.Subset.refl _

/-- A spawn that finds room gives the new task nothing that the first task of the caller's line
did not hold at the start. -/
def SpawnCovered (s₀ : Scheduler F) (w : Traced F) : Event F → Prop
  | .syscall k args =>
    args.number = 23 → isUtf8 (k.memory args.arg1 args.arg2) = true → HasRoom w.sched →
      spawnCapabilities (priorityOf args.arg3) ⊆ capsAt s₀ (w.origin w.sched.current)
  | .timer _ _ => True

instance (s₀ : Scheduler F) (w : Traced F) (e : Event F) : Decidable (SpawnCovered s₀ w e) :=
  match e with
  | .syscall k args =>
    inferInstanceAs (Decidable (args.number = 23 → isUtf8 (k.memory args.arg1 args.arg2) = true →
      HasRoom w.sched → _ ⊆ capsAt s₀ (w.origin w.sched.current)))
  | .timer _ _ => inferInstanceAs (Decidable True)

variable [RegFrame F] {s₀ : Scheduler F} {w : Traced F}

theorem confined_syscall_of_capsAt {k : Services} {args : SyscallArgs} (hw : Confined s₀ w)
    (h : ∀ i, capsAt (dispatch k w.sched args).1 i = capsAt w.sched i) :
    Confined s₀ (w.step (.syscall k args)) := by
  intro i
  show capsAt (dispatch k w.sched args).1 i ⊆ _
  rw [h]
  cases hi : w.sched.tasks i with
  | none =>
    rw [capsAt_of_none hi]
    exact List.nil_subset _
  | some t =>
    simp only [Traced.step, hi, Option.isNone_some, Bool.false_eq_true, if_false]
    exact hw i

/-- A spawn with room keeps confinement exactly when the new task is covered. -/
theorem confined_spawn_iff {k : Services} {args : SyscallArgs} (hw : Confined s₀ w)
    (hnum : args.number = 23) (hname : isUtf8 (k.memory args.arg1 args.arg2) = true)
    (hroom : HasRoom w.sched) :
    Confined s₀ (w.step (.syscall k args)) ↔
      spawnCapabilities (priorityOf args.arg3) ⊆ capsAt s₀ (w.origin w.sched.current) := by
  obtain ⟨i, hfree, hcaps, hrest⟩ := syscallSpawn_of_hasRoom args.arg3 hname hroom
  have hsched : (w.step (.syscall k args)).sched =
      (syscallSpawn k w.sched args.arg1 args.arg2 args.arg3).1 := by
    simp only [Traced.step, dispatch_spawn hnum]
  have hnew : (w.step (.syscall k args)).origin i = w.origin w.sched.current := by
    simp [Traced.step, hfree]
  constructor
  · intro h
    have := h i
    rwa [hsched, hcaps, hnew] at this
  · intro h j
    by_cases hj : j = i
    · subst hj
      rwa [hsched, hcaps, hnew]
    · rw [hsched, capsAt_congr (hrest j hj)]
      cases hjt : w.sched.tasks j with
      | none =>
        rw [capsAt_of_none hjt]
        exact List.nil_subset _
      | some t =>
        simp only [Traced.step, hjt, Option.isNone_some, Bool.false_eq_true, if_false]
        exact hw j

theorem confined_step_iff {e : Event F} (hw : Confined s₀ w) (he : Unprivileged w e) :
    Confined s₀ (w.step e) ↔ SpawnCovered s₀ w e := by
  cases e with
  | timer savedState regs =>
    refine iff_of_true (fun i => ?_) trivial
    exact List.Subset.trans (capsAt_onTimerIrq_subset w.sched savedState regs i) (hw i)
  | syscall k args =>
    obtain ⟨t, ht, hsys⟩ := he
    rcases dispatch_cases (k := k) (hasCapability_eq_false ht hsys) args with hnum | ⟨hnum, hquiet⟩
    · by_cases h : isUtf8 (k.memory args.arg1 args.arg2) = true ∧ HasRoom w.sched
      · rw [confined_spawn_iff hw hnum h.1 h.2]
        exact ⟨fun hc _ _ _ => hc, fun hc => hc hnum h.1 h.2⟩
      · refine iff_of_true (confined_syscall_of_capsAt hw fun i => ?_) fun _ hname hroom =>
          absurd ⟨hname, hroom⟩ h
        rw [dispatch_spawn hnum, syscallSpawn_of_not args.arg3 h]
    · exact iff_of_true (confined_syscall_of_capsAt hw fun i => capsAt_quiet hquiet i)
        fun h => absurd h hnum

/-- **Along a run of calls by tasks without the system capability no capability is gained exactly
when every spawn is covered**: the capabilities that go with the priority number passed were held,
at the start, by the first task of the caller's line. -/
theorem confined_iff_spawns_covered (s : Scheduler F) (es : List (Event F))
    (hes : Lib.EachStep Traced.step Unprivileged (Traced.start s) es) :
    Lib.Always Traced.step (Confined s) (Traced.start s) es ↔
      Lib.EachStep Traced.step (SpawnCovered s) (Traced.start s) es :=
  Lib.always_iff_eachStep_of_eachStep (confined_start s)
    (fun _ _ hw he => confined_step_iff hw he) hes

/-! ## A task that spawns more than it holds -/

/-- Services that answer nothing: empty memory, no key, no frame, no channel. -/
def noServices : Services where
  memory _ _ := []
  key := none
  fsWrite _ _ := -1
  fsRead _ _ := -1
  fsOpen _ _ := -1
  fsClose _ := -1
  totalMemory := 0
  usableMemory := 0
  timerTicks := 0
  space := none
  hugeFrame := none
  allocZeroed _ := 0
  frames _ := none
  portIn _ _ := 0
  channel := 0
  sendToChannel _ _ _ := -1
  recvFromChannel _ := 0

/-- A kernel that runs one user task: spawned with normal priority, switched to by the timer. -/
def userTask : Scheduler Frame :=
  Lib.run step (start 0x1000 false)
    [.spawnNamed "sh".toUTF8.toList .normal 0x400000 0x7000 0 none,
     .onTimerIrq 0 RegFrame.zero]

/-- `spawn` with an empty name and the given priority number. -/
def spawnCall (priority : UInt64) : Event Frame :=
  .syscall noServices ⟨23, 0, 0, priority, 0, 0⟩

/-- The user task holds the serial port only; spawning with priority number 2 makes a task that
may spawn and map huge pages. -/
theorem spawn_system_amplifies :
    Lib.EachStep Traced.step Unprivileged (Traced.start userTask) [spawnCall 2] ∧
      capsAt userTask userTask.current = [.serial] ∧
      capsAt (Lib.run Traced.step (Traced.start userTask) [spawnCall 2]).sched 2 =
        [.serial, .spawn, .memHuge] ∧
      ¬ Lib.Always Traced.step (Confined userTask) (Traced.start userTask) [spawnCall 2] := by
  decide +kernel

/-- Spawning with priority number 1 stays within what the caller holds. -/
theorem spawn_normal_confined :
    Lib.Always Traced.step (Confined userTask) (Traced.start userTask)
      [spawnCall 1, .timer 0 RegFrame.zero, spawnCall 1] :=
  (confined_iff_spawns_covered userTask [spawnCall 1, .timer 0 RegFrame.zero, spawnCall 1]
    (by decide +kernel)).mpr (by decide +kernel)

end Aeterna.Sched
