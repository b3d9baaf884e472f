import Aeterna.Sched.Model

/-!
# The selection loop and the shape of a step

`nextReadySlot` is a fold over the slots. Its table is the old one without the dead tasks
(`nextReadySlot_tasks`); it selects a runnable task (`nextReadySlot_best`) and finds none only
when there is none (`nextReadySlot_best_eq_none`).

The rest of the module says once what a step can do to the table: change one task in place
(`Tame`), fill a free slot (`spawnNamed_cases`) or run the timer interrupt
(`onTimerIrq_cases`, `reschedule_cases`).
-/

namespace Aeterna.Sched

open Scheduler

variable {F : Type}

/-! ## Slots -/

@[simp] theorem setTask_tasks (s : Scheduler F) (i j : Slot) (t : Option (TaskControlBlock F)) :
    (s.setTask i t).tasks j = if j = i then t else s.tasks j := by
  simp [setTask, Function.update_apply]

@[simp] theorem setTask_current (s : Scheduler F) (i : Slot) (t : Option (TaskControlBlock F)) :
    (s.setTask i t).current = s.current := rfl

@[simp] theorem setTask_nextPid (s : Scheduler F) (i : Slot) (t : Option (TaskControlBlock F)) :
    (s.setTask i t).nextPid = s.nextPid := rfl

theorem modifySlot_tasks (s : Scheduler F) (i j : Slot)
    (f : TaskControlBlock F → TaskControlBlock F) :
    (s.modifySlot i f).tasks j = if j = i then (s.tasks j).map f else s.tasks j := by
  unfold modifySlot
  by_cases h : j = i
  · subst h
    cases hs : s.tasks j <;> simp [hs]
  · cases hs : s.tasks i <;> simp [h]

@[simp] theorem modifySlot_current (s : Scheduler F) (i : Slot)
    (f : TaskControlBlock F → TaskControlBlock F) : (s.modifySlot i f).current = s.current := by
  unfold modifySlot; split <;> rfl

@[simp] theorem modifySlot_nextPid (s : Scheduler F) (i : Slot)
    (f : TaskControlBlock F → TaskControlBlock F) : (s.modifySlot i f).nextPid = s.nextPid := by
  unfold modifySlot; split <;> rfl

theorem findPid_spec {s : Scheduler F} {pid : TaskId} {i : Slot} (h : s.findPid pid = some i) :
    ∃ t, s.tasks i = some t ∧ t.pid = pid := by
  have := List.find?_some h
  cases hs : s.tasks i with
  | none => simp [hs] at this
  | some t => exact ⟨t, rfl, by simpa [hs] using this⟩

theorem modifyPid_cases (s : Scheduler F) (pid : TaskId)
    (f : TaskControlBlock F → TaskControlBlock F) :
    (s.findPid pid = none ∧ (s.modifyPid pid f).1 = s) ∨
      ∃ i, s.findPid pid = some i ∧ (s.modifyPid pid f).1 = s.modifySlot i f := by
  unfold modifyPid
  cases h : s.findPid pid with
  | none => exact Or.inl ⟨rfl, rfl⟩
  | some i => exact Or.inr ⟨i, rfl, rfl⟩

/-! ## The selection loop -/

def isDead (o : Option (TaskControlBlock F)) : Bool :=
  match o with
  | some t => t.state == .dead
  | none => false

/-- The slot holds a task the loop can select. -/
def isRunnable (o : Option (TaskControlBlock F)) : Bool :=
  match o with
  | some t => t.state == .ready || t.state == .running
  | none => false

theorem isDead_iff {o : Option (TaskControlBlock F)} :
    isDead o = true ↔ ∃ t, o = some t ∧ t.state = .dead := by
  cases o <;> simp [isDead]

theorem isRunnable_iff {o : Option (TaskControlBlock F)} :
    isRunnable o = true ↔ ∃ t, o = some t ∧ (t.state = .ready ∨ t.state = .running) := by
  cases o <;> simp [isRunnable]

theorem not_isRunnable_of_isDead {o : Option (TaskControlBlock F)} (h : isDead o = true) :
    isRunnable o = false := by
  obtain ⟨t, rfl, ht⟩ := isDead_iff.mp h
  simp [isRunnable, ht]

/-- The table without the dead tasks, apart from the idle and the current slot. -/
def reap (cur : Slot) (tasks : Slot → Option (TaskControlBlock F)) (i : Slot) :
    Option (TaskControlBlock F) :=
  if i ≠ 0 ∧ i ≠ cur ∧ isDead (tasks i) then none else tasks i

theorem reap_current (cur : Slot) (tasks : Slot → Option (TaskControlBlock F)) :
    reap cur tasks cur = tasks cur := by
  simp [reap]

theorem reap_of_isRunnable {cur i : Slot} {tasks : Slot → Option (TaskControlBlock F)}
    (h : isRunnable (tasks i) = true) : reap cur tasks i = tasks i := by
  have hd : isDead (tasks i) = false := by
    by_contra hd
    rw [not_isRunnable_of_isDead (by simpa using hd)] at h
    simp at h
  simp [reap, hd]

theorem reap_eq_some {cur i : Slot} {tasks : Slot → Option (TaskControlBlock F)}
    {t : TaskControlBlock F} (h : reap cur tasks i = some t) : tasks i = some t := by
  unfold reap at h
  split_ifs at h
  exact h

theorem reap_cases (cur i : Slot) (tasks : Slot → Option (TaskControlBlock F)) :
    reap cur tasks i = tasks i ∨ (reap cur tasks i = none ∧ isDead (tasks i) = true) := by
  unfold reap
  split_ifs with h
  · exact Or.inr ⟨rfl, h.2.2⟩
  · exact Or.inl rfl

theorem mem_scanOrder (cur i : Slot) : i ∈ scanOrder cur := by
  refine List.mem_map.mpr ⟨i - (cur + 1), List.mem_finRange _, ?_⟩
  ext
  simp only [maxTasks] at *
  omega

theorem scanSlot_tasks (cur : Slot) (sc : Scan F) (idx i : Slot) :
    (scanSlot cur sc idx).tasks i = if i = idx then reap cur sc.tasks i else sc.tasks i := by
  unfold scanSlot reap
  by_cases hi : i = idx
  · subst hi
    cases ht : sc.tasks i with
    | none => simp [ht, isDead]
    | some t =>
      by_cases hd : t.state = .dead
      · by_cases hc : i ≠ 0 ∧ i ≠ cur
        · simp [isDead, hd, hc]
        · simp [isDead, hd, hc, ht]
      · simp only [isDead, if_false]
        split_ifs <;> simp_all
  · cases ht : sc.tasks idx with
    | none => simp [hi]
    | some t =>
      simp only [if_false]
      split_ifs <;> simp [hi]

theorem foldl_scanSlot_tasks (cur : Slot) (l : List Slot) (sc : Scan F) (i : Slot) :
    (l.foldl (scanSlot cur) sc).tasks i = if i ∈ l then reap cur sc.tasks i else sc.tasks i := by
  induction l generalizing sc with
  | nil => simp
  | cons j l ih =>
    rw [List.foldl_cons, ih]
    -- a slot visited twice is reaped once: what is left after reaping is not dead
    have hidem : reap cur (scanSlot cur sc j).tasks i = reap cur sc.tasks i := by
      simp only [reap, scanSlot_tasks]
      split_ifs <;> simp_all [isDead]
    rw [hidem, scanSlot_tasks]
    by_cases hj : i = j <;> by_cases hl : i ∈ l <;> simp [hj, hl]

theorem nextReadySlot_tasks (s : Scheduler F) :
    (nextReadySlot s).tasks = reap s.current s.tasks := by
  funext i
  rw [nextReadySlot, foldl_scanSlot_tasks, if_pos (mem_scanOrder _ _)]

/-- The choice after one round: the slot itself, or what was chosen before. -/
theorem scanSlot_best (cur : Slot) (sc : Scan F) (idx : Slot) :
    ((scanSlot cur sc idx).best = some idx ∧ isRunnable (sc.tasks idx) = true) ∨
      ((scanSlot cur sc idx).best = sc.best ∧ (scanSlot cur sc idx).bestPrio = sc.bestPrio ∧
        (sc.bestPrio = .idle → isRunnable (sc.tasks idx) = false)) := by
  unfold scanSlot
  cases ht : sc.tasks idx with
  | none => exact Or.inr ⟨rfl, rfl, fun _ => rfl⟩
  | some t =>
    by_cases hd : t.state = .dead
    · refine Or.inr ⟨?_, ?_, fun _ => by simp [isRunnable, hd]⟩ <;>
        simp only [hd] <;> split_ifs <;> rfl
    · by_cases hr : t.state = .ready ∨ t.state = .running
      · by_cases hp : sc.bestPrio ≤ t.priority
        · exact Or.inl ⟨by simp [hd, hr, hp], by simpa [isRunnable] using hr⟩
        · refine Or.inr ⟨by simp [hd, hr, hp], by simp [hd, hr, hp], fun hidle => ?_⟩
          -- the idle priority is the lowest one, so the comparison cannot fail
          exact absurd (by rw [hidle]; exact Nat.zero_le _) hp
      · exact Or.inr ⟨by simp [hd, hr], by simp [hd, hr], fun _ => by simpa [isRunnable] using hr⟩

theorem isRunnable_scanSlot (cur : Slot) (sc : Scan F) (idx i : Slot) :
    isRunnable ((scanSlot cur sc idx).tasks i) = isRunnable (sc.tasks i) := by
  rw [scanSlot_tasks]
  split_ifs with h
  · rcases reap_cases cur i sc.tasks with h' | ⟨h', hd⟩
    · rw [h']
    · rw [h', not_isRunnable_of_isDead hd]; rfl
  · rfl

theorem foldl_scanSlot_best (cur : Slot) (l : List Slot) (sc : Scan F) (n : Slot)
    (h : (l.foldl (scanSlot cur) sc).best = some n) :
    sc.best = some n ∨ isRunnable (sc.tasks n) = true := by
  induction l generalizing sc with
  | nil => exact Or.inl h
  | cons j l ih =>
    rcases ih _ h with hb | hr
    · rcases scanSlot_best cur sc j with ⟨hj, hr⟩ | ⟨hj, -, -⟩
      · rw [hj] at hb
        cases hb
        exact Or.inr hr
      · exact Or.inl (hj ▸ hb)
    · rw [isRunnable_scanSlot] at hr
      exact Or.inr hr

theorem nextReadySlot_best {s : Scheduler F} {n : Slot} (h : (nextReadySlot s).best = some n) :
    isRunnable (s.tasks n) = true := by
  rcases foldl_scanSlot_best _ _ _ _ h with h' | h'
  · simp at h'
  · exact h'

theorem foldl_scanSlot_best_eq_none (cur : Slot) (l : List Slot) (sc : Scan F)
    (hp : sc.best = none → sc.bestPrio = .idle) :
    (l.foldl (scanSlot cur) sc).best = none ↔
      sc.best = none ∧ ∀ i ∈ l, isRunnable (sc.tasks i) = false := by
  induction l generalizing sc with
  | nil => simp
  | cons j l ih =>
    rw [List.foldl_cons, ih]
    · simp only [isRunnable_scanSlot, List.forall_mem_cons]
      rcases scanSlot_best cur sc j with ⟨hj, hr⟩ | ⟨hj, -, hr⟩
      · simp [hj, hr]
      · rw [hj]
        constructor
        · rintro ⟨hb, hl⟩
          exact ⟨hb, hr (hp hb), hl⟩
        · rintro ⟨hb, -, hl⟩
          exact ⟨hb, hl⟩
    · rcases scanSlot_best cur sc j with ⟨hj, -⟩ | ⟨hj, hj', -⟩
      · simp [hj]
      · rw [hj, hj']
        exact hp

theorem nextReadySlot_best_eq_none (s : Scheduler F) :
    (nextReadySlot s).best = none ↔ ∀ i, isRunnable (s.tasks i) = false := by
  rw [nextReadySlot, foldl_scanSlot_best_eq_none _ _ _ fun _ => rfl]
  simp [mem_scanOrder]

/-! ## The timer interrupt -/

/-- The current task goes on: nothing is runnable, or it is selected itself. -/
def stayed (s : Scheduler F) : Scheduler F :=
  { s with tasks := reap s.current s.tasks }.modifySlot s.current setRunning

/-- What `reschedule` can do: let the current task go on, or switch to another runnable task. -/
theorem reschedule_cases (s : Scheduler F) (regs : F) :
    (reschedule s regs = (stayed s, ⟨regs, none⟩) ∧
      (∀ n, (nextReadySlot s).best = some n → n = s.current) ∧
      ((∀ i, isRunnable (s.tasks i) = false) ∨ isRunnable (s.tasks s.current) = true)) ∨
    ∃ n t, (nextReadySlot s).best = some n ∧ n ≠ s.current ∧ s.tasks n = some t ∧
      (reschedule s regs).1.tasks =
        Function.update (reap s.current s.tasks) n (some (setRunning t)) ∧
      (reschedule s regs).1.current = n ∧ (reschedule s regs).1.nextPid = s.nextPid ∧
      (reschedule s regs).2.regs = if t.hasFrame then t.frame else regs := by
  unfold reschedule
  simp only [nextReadySlot_tasks]
  cases hb : (nextReadySlot s).best with
  | none => exact Or.inl ⟨rfl, by simp, Or.inl ((nextReadySlot_best_eq_none s).mp hb)⟩
  | some n =>
    have hr := nextReadySlot_best hb
    by_cases hn : n = s.current
    · subst hn
      exact Or.inl ⟨by simp [stayed], fun n hn => (Option.some.inj hn).symm, Or.inr hr⟩
    · obtain ⟨t, ht, -⟩ := isRunnable_iff.mp hr
      have hreap : reap s.current s.tasks n = some t := by rw [reap_of_isRunnable hr, ht]
      refine Or.inr ⟨n, t, rfl, hn, ht, ?_⟩
      simp only [if_false, switchTo, hreap]
      split_ifs <;> exact ⟨rfl, rfl, rfl, rfl⟩

/-- The current task when the interrupt reaches the selection loop. -/
def interrupted (savedState : UInt64) (regs : F) (t : TaskControlBlock F) : TaskControlBlock F :=
  saveFrame savedState regs { t with cpuTicks := saturatingAdd t.cpuTicks 1 }

@[simp] theorem interrupted_pid (savedState : UInt64) (regs : F) (t : TaskControlBlock F) :
    (interrupted savedState regs t).pid = t.pid := rfl

/-- The interrupt leaves the running task alone: the guard before the selection loop. -/
def SkipsSwitch (s : Scheduler F) : Prop :=
  ∀ t, s.tasks s.current = some t →
    keepsCpu { t with cpuTicks := saturatingAdd t.cpuTicks 1 } = true

theorem onTimerIrq_cases {s : Scheduler F} {t : TaskControlBlock F} (savedState : UInt64)
    (regs : F) (ht : s.tasks s.current = some t) :
    (onTimerIrq s savedState regs = (s, ⟨regs, none⟩) ∧ s.initialized = false) ∨
    (onTimerIrq s savedState regs =
        (s.setTask s.current (some { t with cpuTicks := saturatingAdd t.cpuTicks 1 }),
          ⟨regs, none⟩) ∧ SkipsSwitch s) ∨
    (onTimerIrq s savedState regs =
        reschedule (s.setTask s.current (some (interrupted savedState regs t))) regs ∧
      s.initialized = true ∧ ¬ SkipsSwitch s) := by
  unfold onTimerIrq
  by_cases hi : s.initialized
  · simp only [hi, if_true, ht]
    by_cases hk : keepsCpu { t with cpuTicks := saturatingAdd t.cpuTicks 1 } = true
    · refine Or.inr (Or.inl ⟨by rw [if_pos hk], fun t' ht' => ?_⟩)
      rw [ht] at ht'
      cases ht'
      exact hk
    · exact Or.inr (Or.inr ⟨by rw [if_neg hk]; rfl, trivial, fun h => hk (h t ht)⟩)
  · exact Or.inl ⟨by simp [hi], by simpa using hi⟩

/-! ## The other operations -/

/-- A change of a task that keeps its identity and registers and never lets it run. -/
structure Tame (f : TaskControlBlock F → TaskControlBlock F) : Prop where
  pid : ∀ t, (f t).pid = t.pid
  frame : ∀ t, (f t).frame = t.frame
  hasFrame : ∀ t, (f t).hasFrame = t.hasFrame
  running : ∀ t, (f t).state = .running → t.state = .running

theorem tame_signalTask (signal : UInt32) : Tame (signalTask (F := F) signal) := by
  constructor <;> intro t <;> unfold signalTask <;> split_ifs <;> try rfl
  · unfold signalState
    split_ifs <;> simp
  · exact id

/-- The step changes at most one task, in place. -/
def TameStep (s s' : Scheduler F) : Prop := s' = s ∨ ∃ i f, Tame f ∧ s' = s.modifySlot i f

theorem tameStep_modifySlot {f : TaskControlBlock F → TaskControlBlock F} (s : Scheduler F)
    (i : Slot) (hf : Tame f) : TameStep s (s.modifySlot i f) := Or.inr ⟨i, f, hf, rfl⟩

theorem tameStep_modifyPid {f : TaskControlBlock F → TaskControlBlock F} (s : Scheduler F)
    (pid : TaskId) (hf : Tame f) : TameStep s (s.modifyPid pid f).1 := by
  rcases modifyPid_cases s pid f with ⟨-, h⟩ | ⟨i, -, h⟩
  · exact Or.inl h
  · rw [h]
    exact tameStep_modifySlot s i hf

theorem tameStep_grantCapability (s : Scheduler F) (pid : TaskId) (cap : Capability) :
    TameStep s (grantCapability s pid cap).1 := by
  unfold grantCapability
  split_ifs
  · apply tameStep_modifyPid
    constructor <;> intro t <;> split_ifs <;> first | rfl | exact id
  · exact Or.inl rfl

variable [RegFrame F]

/-- What a spawn does: it fills a free slot with a new task under the next pid, or nothing. -/
theorem spawnNamed_cases (s : Scheduler F) (name : List UInt8) (priority : Priority)
    (entryPoint stackPointer memoryBytes : UInt64) (space : Option UInt64) :
    spawnNamed s name priority entryPoint stackPointer memoryBytes space = (s, none) ∨
    ∃ i cr3, s.tasks i = none ∧ i ≠ 0 ∧
      spawnNamed s name priority entryPoint stackPointer memoryBytes space =
        ({ s.setTask i (some (newTask i s.nextPid name priority entryPoint stackPointer
            memoryBytes cr3)) with nextPid := s.nextPid + 1 }, some s.nextPid) := by
  unfold spawnNamed
  by_cases hi : s.initialized
  · simp only [hi]
    cases hf : freeSlot s with
    | none => exact Or.inl rfl
    | some i =>
      have hfree := List.find?_some hf
      simp only [Bool.and_eq_true, bne_iff_ne, Option.isNone_iff_eq_none] at hfree
      exact Or.inr ⟨i, _, hfree.2, hfree.1, rfl⟩
  · exact Or.inl (by simp [hi])

def spawned (s : Scheduler F) : Action F → ℕ
  | .spawnNamed name priority entryPoint stackPointer memoryBytes space =>
    (spawnNamed s name priority entryPoint stackPointer memoryBytes space).2.toList.length
  | _ => 0

/-- Every operation but a spawn and the timer interrupt changes at most one task, in place. -/
theorem step_cases (s : Scheduler F) (a : Action F) :
    (TameStep s (step s a) ∧ spawned s a = 0) ∨
      (∃ name priority entryPoint stackPointer memoryBytes space,
        a = .spawnNamed name priority entryPoint stackPointer memoryBytes space) ∨
      ∃ savedState regs, a = .onTimerIrq savedState regs := by
  cases a with
  | spawnNamed name priority entryPoint stackPointer memoryBytes space =>
    exact Or.inr (Or.inl ⟨_, _, _, _, _, _, rfl⟩)
  | onTimerIrq savedState regs => exact Or.inr (Or.inr ⟨_, _, rfl⟩)
  | exitCurrent code => exact Or.inl ⟨tameStep_modifySlot s s.current (by constructor <;> simp), rfl⟩
  | exitPid pid => exact Or.inl ⟨tameStep_modifyPid s pid (by constructor <;> simp), rfl⟩
  | signalThread i signal =>
    simp only [step, signalThread]
    split_ifs
    · exact Or.inl ⟨tameStep_modifySlot s _ (tame_signalTask signal), rfl⟩
    · exact Or.inl ⟨Or.inl rfl, rfl⟩
  | signalPid pid signal =>
    simp only [step, signalPid]
    split_ifs
    · exact Or.inl ⟨tameStep_modifyPid s pid (tame_signalTask signal), rfl⟩
    · exact Or.inl ⟨Or.inl rfl, rfl⟩
  | grantCapability pid cap => exact Or.inl ⟨tameStep_grantCapability s pid cap, rfl⟩
  | addMemoryUsage pid bytes => exact Or.inl ⟨tameStep_modifyPid s pid (by constructor <;> simp), rfl⟩
  | subMemoryUsage pid bytes => exact Or.inl ⟨tameStep_modifyPid s pid (by constructor <;> simp), rfl⟩
  | tick =>
    simp only [step, tick]
    split_ifs
    · exact Or.inl ⟨tameStep_modifySlot s s.current (by constructor <;> simp), rfl⟩
    · exact Or.inl ⟨Or.inl rfl, rfl⟩
  | sysYield =>
    simp only [step, sysYield]
    split_ifs
    · refine Or.inl ⟨tameStep_modifySlot s s.current ?_, rfl⟩
      constructor <;> intro t <;> split_ifs <;> simp
    · exact Or.inl ⟨Or.inl rfl, rfl⟩
  | setPreemptionDisabled disabled =>
    exact Or.inl ⟨tameStep_modifySlot s s.current (by constructor <;> simp), rfl⟩
  | setIsVfsServer isServer =>
    simp only [step, setIsVfsServer]
    split_ifs
    · exact Or.inl ⟨tameStep_grantCapability s _ .vfsServer, rfl⟩
    · exact Or.inl ⟨Or.inl rfl, rfl⟩
  | setMedId medId => exact Or.inl ⟨tameStep_modifySlot s s.current (by constructor <;> simp), rfl⟩

end Aeterna.Sched
