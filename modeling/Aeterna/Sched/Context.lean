import Aeterna.Sched.Table

/-!
# Who owns which register context

The scheduler copies register frames without looking at them, so it can be run on frames that
carry a tag: the task control block, slot and pid, whose continuation the frame is. `Machine` is
that run: the tagged scheduler, the tag of the context the processor is executing, and for each
slot the context its task was last interrupted with, or started from.

`ContextIntegrity` says that whenever the timer interrupt switches to a task it leaves that task's
own last context in `saved_state`, and that no two tasks own the same continuation. It fails when
the interrupt selects a task without a saved frame: then the restore alone is skipped and the old
context goes on under the new task's name. `RestoresFrame` excludes this, and is exact
(`contextIntegrity_iff`). `eraseOwner_run` connects the tagged scheduler with the untagged one.
-/

namespace Aeterna.Sched

open Scheduler

variable {F : Type}

/-! ## The tagged machine -/

/-- A task control block, as the owner of a register context. -/
abbrev Owner := Slot × TaskId

instance [RegFrame F] : RegFrame (F × Owner) where
  initial i pid priority entryPoint stackPointer :=
    (RegFrame.initial i pid priority entryPoint stackPointer, i, pid)
  zero := (RegFrame.zero, 0, 0)

/-- The action on tagged frames, when the processor executes a context of `cpu`. -/
def Action.tag (cpu : Owner) : Action F → Action (F × Owner)
  | .spawnNamed name priority entryPoint stackPointer memoryBytes space =>
    .spawnNamed name priority entryPoint stackPointer memoryBytes space
  | .exitCurrent code => .exitCurrent code
  | .exitPid pid => .exitPid pid
  | .signalThread slot signal => .signalThread slot signal
  | .signalPid pid signal => .signalPid pid signal
  | .grantCapability pid cap => .grantCapability pid cap
  | .addMemoryUsage pid bytes => .addMemoryUsage pid bytes
  | .subMemoryUsage pid bytes => .subMemoryUsage pid bytes
  | .tick => .tick
  | .sysYield => .sysYield
  | .setPreemptionDisabled disabled => .setPreemptionDisabled disabled
  | .setIsVfsServer isServer => .setIsVfsServer isServer
  | .setMedId medId => .setMedId medId
  | .onTimerIrq savedState regs => .onTimerIrq savedState (regs, cpu)

structure Machine (F : Type) where
  sched : Scheduler (F × Owner)
  /-- The owner of the context the processor is executing. -/
  cpu : Owner
  /-- The context the task of each slot was last interrupted with, or started from. -/
  ctx : Slot → F × Owner

namespace Machine

section Step

variable [RegFrame F]

/-- The contexts after a step: a new task has its initial frame, an interrupted one the registers
it was interrupted with. -/
def nextCtx (m : Machine F) : Action F → Slot → F × Owner
  | .spawnNamed name priority entryPoint stackPointer memoryBytes space => fun i =>
    if (m.sched.tasks i).isNone ∧
        ((spawnNamed m.sched name priority entryPoint stackPointer memoryBytes
          space).1.tasks i).isSome then
      (RegFrame.initial i m.sched.nextPid priority entryPoint stackPointer, i, m.sched.nextPid)
    else m.ctx i
  | .onTimerIrq _ regs => Function.update m.ctx m.sched.current (regs, m.cpu)
  | _ => m.ctx

/-- The processor resumes with the frame the interrupt handler leaves in `saved_state`. -/
def nextCpu (m : Machine F) : Action F → Owner
  | .onTimerIrq savedState regs => (onTimerIrq m.sched savedState (regs, m.cpu)).2.regs.2
  | _ => m.cpu

def step (m : Machine F) (a : Action F) : Machine F where
  sched := Sched.step m.sched (a.tag m.cpu)
  cpu := m.nextCpu a
  ctx := m.nextCtx a

/-- The machine after `init`: the processor executes the idle task. -/
def start (cr3 : UInt64) (vmmInit : Bool) : Machine F where
  sched := Sched.start cr3 vmmInit
  cpu := (0, 0)
  ctx _ := RegFrame.zero

end Step

/-- The owner of the continuation of slot `i`: of the context on the processor for the current
slot, of the saved frame for any other. -/
def owner (m : Machine F) (i : Slot) : Option Owner :=
  (m.sched.tasks i).map fun t => if i = m.sched.current then m.cpu else t.frame.2

/-- A timer interrupt that changes the current slot leaves the new task's last context in
`saved_state`. -/
def SwitchesFaithfully (m : Machine F) : Action F → Prop
  | .onTimerIrq savedState regs =>
    let r := onTimerIrq m.sched savedState (regs, m.cpu)
    r.1.current ≠ m.sched.current → r.2.regs = m.ctx r.1.current
  | _ => True

/-- The processor executes the current task's own continuation, and no two tasks own the same
one. -/
structure OwnContexts (m : Machine F) : Prop where
  current : ∀ t, m.sched.tasks m.sched.current = some t → m.cpu = (m.sched.current, t.pid)
  distinct : ∀ i j o, m.owner i = some o → m.owner j = some o → i = j

/-- The timer interrupt does not select another task that has no saved frame. -/
def RestoresFrame (m : Machine F) : Action F → Prop
  | .onTimerIrq savedState regs => m.sched.initialized = true → ¬ SkipsSwitch m.sched →
      ∀ t, m.sched.tasks m.sched.current = some t → ∀ n u,
      (nextReadySlot (m.sched.setTask m.sched.current
        (some (interrupted savedState (regs, m.cpu) t)))).best = some n →
      n ≠ m.sched.current → m.sched.tasks n = some u → u.hasFrame = true
  | _ => True

/-! ## The invariant -/

/-- Off the processor every task keeps its own last context; the processor executes the current
task's. -/
structure CtxInv (m : Machine F) : Prop where
  slots : SlotInv m.sched
  current : ∀ t, m.sched.tasks m.sched.current = some t → m.cpu = (m.sched.current, t.pid)
  saved : ∀ i t, i ≠ m.sched.current → m.sched.tasks i = some t →
    t.frame = m.ctx i ∧ t.frame.2 = (i, t.pid)

theorem CtxInv.ownContexts {m : Machine F} (h : CtxInv m) : OwnContexts m where
  current := h.current
  distinct := by
    -- the slot is part of the owner
    have key : ∀ i o, m.owner i = some o → o.1 = i := by
      intro i o ho
      obtain ⟨t, ht, rfl⟩ := Option.map_eq_some_iff.mp ho
      split_ifs with hi
      · rw [hi] at ht
        rw [h.current t ht, hi]
      · rw [(h.saved i t hi ht).2]
    intro i j o hi hj
    rw [← key i o hi, ← key j o hj]

theorem ctxInv_modifySlot {m : Machine F} {f : TaskControlBlock (F × Owner) →
    TaskControlBlock (F × Owner)} (h : CtxInv m) (hf : Tame f) (i : Slot) :
    CtxInv { m with sched := m.sched.modifySlot i f } where
  slots := slotInv_modifySlot h.slots hf i
  current := by
    intro t ht
    simp only [modifySlot_current, modifySlot_tasks] at ht ⊢
    split_ifs at ht
    · obtain ⟨u, hu, rfl⟩ := Option.map_eq_some_iff.mp ht
      rw [hf.pid]
      exact h.current u hu
    · exact h.current t ht
  saved := by
    intro j t hj ht
    simp only [modifySlot_current, modifySlot_tasks] at hj ht
    split_ifs at ht
    · obtain ⟨u, hu, rfl⟩ := Option.map_eq_some_iff.mp ht
      rw [hf.frame, hf.pid]
      exact h.saved j u hj hu
    · exact h.saved j t hj ht

/-! ## The timer interrupt -/

/-- What does not move the processor to another task keeps the invariant. -/
theorem ctxInv_same_slot {m : Machine F} (h : CtxInv m) {s' : Scheduler (F × Owner)}
    (c : F × Owner) (hs : SlotInv s') (hcur : s'.current = m.sched.current)
    (htasks : ∀ i u, s'.tasks i = some u →
      ∃ t, m.sched.tasks i = some t ∧ t.pid = u.pid ∧ (i ≠ m.sched.current → u.frame = t.frame)) :
    CtxInv ⟨s', m.cpu, Function.update m.ctx m.sched.current c⟩ where
  slots := hs
  current := by
    intro u hu
    simp only [hcur] at hu ⊢
    obtain ⟨t, ht, hp, -⟩ := htasks _ u hu
    rw [← hp]
    exact h.current t ht
  saved := by
    intro i u hi hu
    simp only [hcur] at hi hu ⊢
    obtain ⟨t, ht, hp, hf⟩ := htasks i u hu
    rw [hf hi, ← hp, Function.update_of_ne hi]
    exact h.saved i t hi ht

/-- The processor stays with the interrupted task when it skips the switch. -/
theorem ctxInv_skipped {m : Machine F} (h : CtxInv m) {t t' : TaskControlBlock (F × Owner)}
    (c : F × Owner) (ht : m.sched.tasks m.sched.current = some t) (hpid : t'.pid = t.pid)
    (hs : SlotInv (m.sched.setTask m.sched.current (some t'))) :
    CtxInv ⟨m.sched.setTask m.sched.current (some t'), m.cpu,
      Function.update m.ctx m.sched.current c⟩ := by
  refine ctxInv_same_slot h _ hs rfl fun i u hu => ?_
  rw [setTask_tasks] at hu
  split_ifs at hu with hic
  · cases hu
    exact ⟨t, hic ▸ ht, hpid.symm, fun hne => absurd hic hne⟩
  · exact ⟨u, hu, rfl, fun _ => rfl⟩

/-- The processor stays with the interrupted task when no other is selected. -/
theorem ctxInv_stayed {m : Machine F} (h : CtxInv m) {t : TaskControlBlock (F × Owner)}
    (savedState : UInt64) (regs c : F × Owner) (ht : m.sched.tasks m.sched.current = some t)
    (hs : SlotInv (stayed (m.sched.setTask m.sched.current
      (some (interrupted savedState regs t))))) :
    CtxInv ⟨stayed (m.sched.setTask m.sched.current (some (interrupted savedState regs t))), m.cpu,
      Function.update m.ctx m.sched.current c⟩ := by
  refine ctxInv_same_slot h _ hs (by simp [stayed]) fun i u hu => ?_
  simp only [stayed, modifySlot_tasks, setTask_current] at hu
  split_ifs at hu with hic
  · subst hic
    simp only [reap_current, setTask_tasks, if_true, Option.map_some, Option.some.injEq] at hu
    exact ⟨t, ht, by rw [← hu]; rfl, fun hne => absurd rfl hne⟩
  · have hu' := reap_eq_some hu
    rw [setTask_tasks, if_neg hic] at hu'
    exact ⟨u, hu', rfl, fun _ => rfl⟩

/-- Switching to a task with a saved frame: the processor resumes that task's own last context. -/
theorem ctxInv_switch {m : Machine F} (h : CtxInv m) {t u : TaskControlBlock (F × Owner)}
    {n : Slot} {s' : Scheduler (F × Owner)} (savedState : UInt64) (regs : F)
    (ht : m.sched.tasks m.sched.current = some t) (hn : n ≠ m.sched.current)
    (hu : m.sched.tasks n = some u) (hs : SlotInv s') (hcur : s'.current = n)
    (htasks : s'.tasks = Function.update (reap m.sched.current (m.sched.setTask m.sched.current
      (some (interrupted savedState (regs, m.cpu) t))).tasks) n (some (setRunning u))) :
    CtxInv ⟨s', u.frame.2, Function.update m.ctx m.sched.current (regs, m.cpu)⟩ where
  slots := hs
  current := by
    intro v hv
    simp only [hcur, htasks, Function.update_self, Option.some.injEq] at hv ⊢
    rw [← hv]
    exact (h.saved n u hn hu).2
  saved := by
    intro i v hi hv
    simp only [hcur, htasks] at hi hv ⊢
    rw [Function.update_of_ne hi] at hv
    have hv' := reap_eq_some hv
    rw [setTask_tasks] at hv'
    split_ifs at hv' with hic
    · cases hv'
      subst hic
      rw [Function.update_self]
      exact ⟨rfl, h.current t ht⟩
    · rw [Function.update_of_ne hic]
      exact h.saved i v hic hv'

variable [RegFrame F]

theorem step_onTimerIrq (m : Machine F) (savedState : UInt64) (regs : F) :
    m.step (.onTimerIrq savedState regs) =
      ⟨(onTimerIrq m.sched savedState (regs, m.cpu)).1,
        (onTimerIrq m.sched savedState (regs, m.cpu)).2.regs.2,
        Function.update m.ctx m.sched.current (regs, m.cpu)⟩ := rfl

/-- A timer interrupt resumes the right context exactly when it meets the condition. -/
theorem onTimerIrq_outcome {m : Machine F} (h : CtxInv m) (savedState : UInt64) (regs : F) :
    (RestoresFrame m (.onTimerIrq savedState regs) ∧
      SwitchesFaithfully m (.onTimerIrq savedState regs) ∧
      CtxInv (m.step (.onTimerIrq savedState regs))) ∨
    (¬ RestoresFrame m (.onTimerIrq savedState regs) ∧
      ¬ OwnContexts (m.step (.onTimerIrq savedState regs))) := by
  obtain ⟨t, ht⟩ := Option.isSome_iff_exists.mp h.slots.current
  have hslots := slotInv_onTimerIrq h.slots savedState (regs, m.cpu)
  rw [step_onTimerIrq]
  rcases onTimerIrq_cases savedState (regs, m.cpu) ht with ⟨he, hi⟩ | ⟨he, hk⟩ | ⟨he, hi, hk⟩
  · left
    refine ⟨fun hi' => by simp [hi'] at hi, by simp [SwitchesFaithfully, he], ?_⟩
    rw [he]
    exact ctxInv_same_slot h _ h.slots rfl fun i u hu => ⟨u, hu, rfl, fun _ => rfl⟩
  · left
    refine ⟨fun _ hk' => absurd hk hk', by simp [SwitchesFaithfully, he], ?_⟩
    rw [he] at hslots ⊢
    exact ctxInv_skipped h _ ht rfl hslots
  · rw [he] at hslots
    rcases reschedule_cases (m.sched.setTask m.sched.current
      (some (interrupted savedState (regs, m.cpu) t))) (regs, m.cpu) with ⟨hr, hself, -⟩ |
      ⟨n, u, hbest, hn, hu, htasks, hcur, -, hregs⟩
    · left
      rw [hr] at he hslots
      refine ⟨?_, by simp [SwitchesFaithfully, he, stayed], ?_⟩
      · intro _ _ t' ht' n u hbest hn _
        rw [ht] at ht'
        cases ht'
        exact absurd (hself n hbest) hn
      · rw [he]
        exact ctxInv_stayed h savedState _ _ ht hslots
    · have hn' : n ≠ m.sched.current := hn
      have hu' : m.sched.tasks n = some u := by simpa [hn'] using hu
      by_cases hf : u.hasFrame = true
      · left
        rw [if_pos hf] at hregs
        refine ⟨?_, ?_, ?_⟩
        · intro _ _ t' ht' n' u'' hbest' hn'' hu''
          rw [ht] at ht'
          cases ht'
          rw [hbest] at hbest'
          cases hbest'
          rw [hu'] at hu''
          cases hu''
          exact hf
        · simp only [SwitchesFaithfully, he, hregs, hcur]
          exact fun _ => (h.saved n u hn' hu').1
        · rw [he, hregs]
          exact ctxInv_switch h savedState regs ht hn' hu' hslots hcur htasks
      · right
        refine ⟨fun hg => hf (hg hi hk t ht n u hbest hn' hu'), fun ho => ?_⟩
        -- the old context goes on in the slot of the new task
        have hcpu := ho.current (setRunning u) (by simp [he, hcur, htasks])
        rw [if_neg hf] at hregs
        simp only [he, hregs, hcur] at hcpu
        rw [h.current t ht] at hcpu
        exact hn' (congrArg Prod.fst hcpu).symm

/-! ## Runs -/

theorem ctxInv_spawnNamed {m : Machine F} (h : CtxInv m) (name : List UInt8) (priority : Priority)
    (entryPoint stackPointer memoryBytes : UInt64) (space : Option UInt64) :
    CtxInv (m.step (.spawnNamed name priority entryPoint stackPointer memoryBytes space)) := by
  have hslots := slotInv_step m.sched
    (.spawnNamed name priority entryPoint stackPointer memoryBytes space) h.slots
  simp only [step, Action.tag, nextCtx, Sched.step] at hslots ⊢
  rcases spawnNamed_cases m.sched name priority entryPoint stackPointer memoryBytes space with he |
    ⟨i, cr3, hi, -, he⟩
  · rw [he] at hslots ⊢
    refine ⟨h.slots, h.current, fun j t hj ht => ?_⟩
    have ht' : m.sched.tasks j = some t := ht
    simp only [ht']
    exact h.saved j t hj ht
  · have hne : i ≠ m.sched.current := by
      rintro rfl
      simpa [hi] using h.slots.current
    rw [he] at hslots ⊢
    refine ⟨hslots, ?_, ?_⟩
    · intro t ht
      simp only [setTask_tasks, setTask_current, hne.symm] at ht ⊢
      exact h.current t ht
    · intro j t hj ht
      simp only [setTask_tasks] at hj ht ⊢
      by_cases hji : j = i
      · subst hji
        rw [if_pos rfl] at ht
        cases ht
        simp only [hi]
        exact ⟨rfl, rfl⟩
      · rw [if_neg hji] at ht
        simp only [ht]
        exact h.saved j t hj ht

theorem ctxInv_tame {m : Machine F} (h : CtxInv m) {a : Action F}
    (ht : TameStep m.sched (Sched.step m.sched (a.tag m.cpu))) (hcpu : m.nextCpu a = m.cpu)
    (hctx : m.nextCtx a = m.ctx) : CtxInv (m.step a) := by
  have hstep : m.step a = { m with sched := Sched.step m.sched (a.tag m.cpu) } := by
    simp only [step, hcpu, hctx]
  rw [hstep]
  rcases ht with he | ⟨i, f, hf, he⟩ <;> rw [he]
  · exact h
  · exact ctxInv_modifySlot h hf i

theorem step_outcome (m : Machine F) (a : Action F) (h : CtxInv m) :
    (RestoresFrame m a ∧ SwitchesFaithfully m a ∧ CtxInv (m.step a)) ∨
      (¬ RestoresFrame m a ∧ ¬ OwnContexts (m.step a)) := by
  rcases step_cases m.sched (a.tag m.cpu) with ⟨ht, -⟩ | ⟨_, _, _, _, _, _, he⟩ | ⟨_, _, he⟩
  · cases a with
    | spawnNamed name priority entryPoint stackPointer memoryBytes space =>
      exact Or.inl ⟨trivial, trivial, ctxInv_spawnNamed h _ _ _ _ _ _⟩
    | onTimerIrq savedState regs => exact onTimerIrq_outcome h savedState regs
    | _ => exact Or.inl ⟨trivial, trivial, ctxInv_tame h ht rfl rfl⟩
  · cases a with
    | spawnNamed name priority entryPoint stackPointer memoryBytes space =>
      exact Or.inl ⟨trivial, trivial, ctxInv_spawnNamed h _ _ _ _ _ _⟩
    | _ => cases he
  · cases a with
    | onTimerIrq savedState regs => exact onTimerIrq_outcome h savedState regs
    | _ => cases he

theorem ctxInv_start (cr3 : UInt64) (vmmInit : Bool) :
    CtxInv (start cr3 vmmInit : Machine F) where
  slots := (countInv_start cr3 vmmInit).table.toSlotInv
  current := by
    intro t ht
    simp only [start, Sched.start, init, setTask_tasks, if_true, Option.some.injEq] at ht ⊢
    rw [← ht]
    rfl
  saved := by
    intro i t hi ht
    simp only [start, Sched.start, init, setTask_tasks] at hi ht
    rw [if_neg hi] at ht
    cases ht

/-- Every switch of the run leaves the new task's own last context in `saved_state`, and in every
state the processor executes the current task's continuation and no two tasks own the same one. -/
def ContextIntegrity (m : Machine F) (as : List (Action F)) : Prop :=
  Lib.EachStep step SwitchesFaithfully m as ∧ Lib.Always step OwnContexts m as

/-- **Register contexts.** A run from `init` keeps every task on its own continuation exactly when
no timer interrupt selects another task that has no saved frame. -/
theorem contextIntegrity_iff (cr3 : UInt64) (vmmInit : Bool) (as : List (Action F)) :
    ContextIntegrity (start cr3 vmmInit) as ↔
      Lib.EachStep step RestoresFrame (start cr3 vmmInit) as := by
  have key : ∀ (as : List (Action F)) (m : Machine F), CtxInv m →
      (ContextIntegrity m as ↔ Lib.EachStep step RestoresFrame m as) := by
    intro as
    induction as with
    | nil => exact fun m h => iff_of_true ⟨trivial, h.ownContexts⟩ trivial
    | cons a as ih =>
      intro m h
      rcases step_outcome m a h with ⟨hg, hs, hinv⟩ | ⟨hg, ho⟩
      · refine Iff.trans ?_ (and_iff_right hg).symm
        rw [← ih _ hinv]
        constructor
        · rintro ⟨⟨-, h₁⟩, -, h₂⟩
          exact ⟨h₁, h₂⟩
        · rintro ⟨h₁, h₂⟩
          exact ⟨⟨hs, h₁⟩, h.ownContexts, h₂⟩
      · exact iff_of_false (fun hc => ho hc.2.2.head) fun h => hg h.1
  exact key as _ (ctxInv_start cr3 vmmInit)

/-- A service is spawned the way `seed` does it, and the timer fires. -/
def spawnService : List (Action Frame) :=
  [.spawnNamed [] .system 0 0 0 none, .onTimerIrq 0 (Vector.replicate frameWords 7)]

/-- The service takes over the registers of the idle task. -/
theorem not_contextIntegrity_spawnService :
    ¬ ContextIntegrity (start 0 false : Machine Frame) spawnService := by
  rintro ⟨⟨-, hswitch, -⟩, -⟩
  exact absurd (hswitch (by decide)) (by decide)

end Machine

/-! ## Forgetting the tags -/

section Erase

variable {G : Type} (f : F → G)

def TaskControlBlock.map (t : TaskControlBlock F) : TaskControlBlock G :=
  ⟨t.pid, t.priority, t.state, t.cr3, t.cpuTicks, t.memoryBytes, t.stackPointer,
    t.instructionPointer, f t.frame, t.hasFrame, t.name, t.nameLen, t.capabilities,
    t.preemptionDisabled, t.medId⟩

def Scheduler.map (s : Scheduler F) : Scheduler G :=
  ⟨fun i => (s.tasks i).map (TaskControlBlock.map f), s.current, s.nextPid, s.initialized, s.cr3,
    s.vmmInit⟩

def Scan.map (sc : Scan F) : Scan G :=
  ⟨fun i => (sc.tasks i).map (TaskControlBlock.map f), sc.best, sc.bestPrio⟩

theorem map_update (tasks : Slot → Option (TaskControlBlock F)) (i : Slot)
    (t : Option (TaskControlBlock F)) :
    (fun j => (Function.update tasks i t j).map (TaskControlBlock.map f)) =
      Function.update (fun j => (tasks j).map (TaskControlBlock.map f)) i
        (t.map (TaskControlBlock.map f)) := by
  funext j
  by_cases h : j = i
  · subst h; simp
  · simp [Function.update_of_ne h]

theorem map_setTask (s : Scheduler F) (i : Slot) (t : Option (TaskControlBlock F)) :
    (s.setTask i t).map f = (s.map f).setTask i (t.map (TaskControlBlock.map f)) := by
  simp only [setTask, Scheduler.map, map_update]

theorem map_modifySlot {g : TaskControlBlock F → TaskControlBlock F}
    {g' : TaskControlBlock G → TaskControlBlock G} (hg : ∀ t, (g t).map f = g' (t.map f))
    (s : Scheduler F) (i : Slot) : (s.modifySlot i g).map f = (s.map f).modifySlot i g' := by
  have htask : (s.map f).tasks i = (s.tasks i).map (TaskControlBlock.map f) := rfl
  unfold modifySlot
  rw [htask]
  cases hs : s.tasks i with
  | none => rfl
  | some t => simp only [Option.map_some, map_setTask, hg]

theorem findPid_map (s : Scheduler F) (pid : TaskId) : (s.map f).findPid pid = s.findPid pid := by
  unfold findPid
  congr 1
  funext i
  simp only [Scheduler.map]
  cases s.tasks i <;> rfl

theorem map_modifyPid {g : TaskControlBlock F → TaskControlBlock F}
    {g' : TaskControlBlock G → TaskControlBlock G} (hg : ∀ t, (g t).map f = g' (t.map f))
    (s : Scheduler F) (pid : TaskId) :
    (s.modifyPid pid g).1.map f = ((s.map f).modifyPid pid g').1 := by
  unfold modifyPid
  rw [findPid_map]
  cases s.findPid pid with
  | none => rfl
  | some i => exact map_modifySlot f hg s i

theorem map_grantCapability (s : Scheduler F) (pid : TaskId) (cap : Capability) :
    (grantCapability s pid cap).1.map f = (grantCapability (s.map f) pid cap).1 := by
  have hcap : hasCapability (s.map f) .system = hasCapability s .system := by
    simp only [hasCapability, Scheduler.map]
    cases s.tasks s.current <;> rfl
  unfold grantCapability
  rw [hcap]
  split_ifs
  · refine map_modifyPid f (fun t => ?_) s pid
    have hc : (t.map f).capabilities = t.capabilities := rfl
    rw [hc]
    split_ifs <;> rfl
  · rfl

theorem map_signalTask (signal : UInt32) (t : TaskControlBlock F) :
    (signalTask signal t).map f = signalTask signal (t.map f) := by
  have hp : (t.map f).pid = t.pid := rfl
  unfold signalTask
  rw [hp]
  split_ifs <;> rfl

theorem scanSlot_map (cur : Slot) (sc : Scan F) (idx : Slot) :
    (scanSlot cur sc idx).map f = scanSlot cur (sc.map f) idx := by
  have htask : (sc.map f).tasks idx = (sc.tasks idx).map (TaskControlBlock.map f) := rfl
  have hprio : (sc.map f).bestPrio = sc.bestPrio := rfl
  unfold scanSlot
  rw [htask, hprio]
  cases ht : sc.tasks idx with
  | none => rfl
  | some t =>
    simp only [Option.map_some, TaskControlBlock.map]
    split_ifs <;> simp only [Scan.map, map_update, Option.map_none]

theorem nextReadySlot_map (s : Scheduler F) :
    nextReadySlot (s.map f) = (nextReadySlot s).map f := by
  have fold : ∀ (l : List Slot) (sc : Scan F),
      l.foldl (scanSlot s.current) (sc.map f) = (l.foldl (scanSlot s.current) sc).map f := by
    intro l
    induction l with
    | nil => exact fun _ => rfl
    | cons i l ih =>
      intro sc
      rw [List.foldl_cons, ← scanSlot_map, ih, List.foldl_cons]
  exact fold _ ⟨s.tasks, none, .idle⟩

theorem reschedule_map (s : Scheduler F) (regs : F) :
    (reschedule s regs).1.map f = (reschedule (s.map f) (f regs)).1 := by
  have stay : ∀ tasks : Slot → Option (TaskControlBlock F),
      ({ s with tasks := tasks }.modifySlot s.current setRunning).map f =
        { s.map f with tasks := fun i => (tasks i).map (TaskControlBlock.map f) }.modifySlot
          s.current setRunning :=
    fun tasks => map_modifySlot f (fun _ => rfl) _ _
  unfold reschedule
  rw [nextReadySlot_map]
  simp only [Scan.map]
  cases (nextReadySlot s).best with
  | none => exact stay _
  | some n =>
    have hcur : (s.map f).current = s.current := rfl
    simp only [hcur]
    split_ifs with hn
    · exact stay _
    · simp only [switchTo]
      cases (nextReadySlot s).tasks n with
      | none => rfl
      | some t =>
        simp only [Option.map_some, TaskControlBlock.map, Scheduler.map, setTask]
        split_ifs <;> simp [map_update, setRunning, TaskControlBlock.map]

theorem onTimerIrq_map (s : Scheduler F) (savedState : UInt64) (regs : F) :
    (onTimerIrq s savedState regs).1.map f = (onTimerIrq (s.map f) savedState (f regs)).1 := by
  have hinit : (s.map f).initialized = s.initialized := rfl
  have htask : (s.map f).tasks (s.map f).current =
      (s.tasks s.current).map (TaskControlBlock.map f) := rfl
  have hkeeps : ∀ t : TaskControlBlock F, keepsCpu (t.map f) = keepsCpu t := fun _ => rfl
  unfold onTimerIrq
  rw [hinit, htask]
  split_ifs
  · cases s.tasks s.current with
    | none => exact reschedule_map f s regs
    | some t =>
      have hticks : { t.map f with cpuTicks := saturatingAdd (t.map f).cpuTicks 1 } =
          { t with cpuTicks := saturatingAdd t.cpuTicks 1 }.map f := rfl
      simp only [Option.map_some, hticks, hkeeps]
      split_ifs
      · exact map_setTask f s s.current _
      · rw [reschedule_map, map_setTask]
        rfl
  · rfl

end Erase

/-- The scheduler of the machine without the owner tags. -/
def Machine.eraseOwner (m : Machine F) : Scheduler F := m.sched.map Prod.fst

section EraseRun

variable [RegFrame F]

theorem eraseOwner_spawnNamed (s : Scheduler (F × Owner)) (name : List UInt8)
    (priority : Priority) (entryPoint stackPointer memoryBytes : UInt64)
    (space : Option UInt64) :
    (spawnNamed s name priority entryPoint stackPointer memoryBytes space).1.map Prod.fst =
      (spawnNamed (s.map Prod.fst) name priority entryPoint stackPointer memoryBytes space).1 := by
  have hfree : freeSlot (s.map Prod.fst) = freeSlot s := by
    simp only [freeSlot, Scheduler.map, Option.isNone_map]
  have hinit : (s.map Prod.fst).initialized = s.initialized := rfl
  unfold spawnNamed
  rw [hfree, hinit]
  cases s.initialized with
  | false => rfl
  | true =>
    cases freeSlot s with
    | none => rfl
    | some i =>
      have := map_setTask Prod.fst s i (some (newTask i s.nextPid name priority entryPoint
        stackPointer memoryBytes (if s.vmmInit then space.getD s.cr3 else s.cr3)))
      exact congrArg (fun r : Scheduler F => { r with nextPid := s.nextPid + 1 }) this

theorem eraseOwner_step (m : Machine F) (a : Action F) :
    (m.step a).eraseOwner = step m.eraseOwner a := by
  unfold Machine.eraseOwner Machine.step
  cases a with
  | spawnNamed name priority entryPoint stackPointer memoryBytes space =>
    exact eraseOwner_spawnNamed m.sched name priority entryPoint stackPointer memoryBytes space
  | exitCurrent code => exact map_modifySlot Prod.fst (fun _ => rfl) m.sched _
  | exitPid pid => exact map_modifyPid Prod.fst (fun _ => rfl) m.sched pid
  | signalThread slot signal =>
    simp only [Action.tag, step, signalThread]
    split_ifs
    · exact map_modifySlot Prod.fst (map_signalTask Prod.fst signal) m.sched _
    · rfl
  | signalPid pid signal =>
    simp only [Action.tag, step, signalPid]
    split_ifs
    · exact map_modifyPid Prod.fst (map_signalTask Prod.fst signal) m.sched pid
    · rfl
  | grantCapability pid cap => exact map_grantCapability Prod.fst m.sched pid cap
  | addMemoryUsage pid bytes => exact map_modifyPid Prod.fst (fun _ => rfl) m.sched pid
  | subMemoryUsage pid bytes => exact map_modifyPid Prod.fst (fun _ => rfl) m.sched pid
  | tick =>
    have hi : (m.sched.map Prod.fst).initialized = m.sched.initialized := rfl
    simp only [step, tick, hi]
    split_ifs
    · exact map_modifySlot Prod.fst (fun _ => rfl) m.sched _
    · rfl
  | sysYield =>
    have hi : (m.sched.map Prod.fst).initialized = m.sched.initialized := rfl
    simp only [step, sysYield, hi]
    split_ifs
    · refine map_modifySlot Prod.fst (fun t => ?_) m.sched _
      have hs : (t.map Prod.fst).state = t.state := rfl
      rw [hs]
      split_ifs <;> rfl
    · rfl
  | setPreemptionDisabled disabled => exact map_modifySlot Prod.fst (fun _ => rfl) m.sched _
  | setIsVfsServer isServer =>
    have hpid : currentPid (m.sched.map Prod.fst) = currentPid m.sched := by
      simp only [currentPid, Scheduler.map]
      cases m.sched.tasks m.sched.current <;> rfl
    simp only [Action.tag, step, setIsVfsServer, hpid]
    split_ifs
    · exact map_grantCapability Prod.fst m.sched _ _
    · rfl
  | setMedId medId => exact map_modifySlot Prod.fst (fun _ => rfl) m.sched _
  | onTimerIrq savedState regs => exact onTimerIrq_map Prod.fst m.sched savedState _

/-- The tagged machine runs the scheduler: without the tags its states are the scheduler's. -/
theorem eraseOwner_run (cr3 : UInt64) (vmmInit : Bool) (as : List (Action F)) :
    (Lib.run Machine.step (Machine.start cr3 vmmInit) as).eraseOwner =
      Lib.run step (start cr3 vmmInit) as := by
  have key : ∀ (as : List (Action F)) (m : Machine F),
      (Lib.run Machine.step m as).eraseOwner = Lib.run step m.eraseOwner as := by
    intro as
    induction as with
    | nil => exact fun _ => rfl
    | cons a as ih =>
      intro m
      rw [Lib.run_cons, ih, eraseOwner_step, Lib.run_cons]
  have hstart : (Machine.start cr3 vmmInit : Machine F).eraseOwner = start cr3 vmmInit := by
    have := map_setTask Prod.fst (boot cr3 vmmInit) 0
      (some (idleTask cr3 : TaskControlBlock (F × Owner)))
    exact congrArg (fun r : Scheduler F => { r with initialized := true }) this
  rw [key, hstart]

end EraseRun

end Aeterna.Sched
