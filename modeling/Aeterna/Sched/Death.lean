import Aeterna.Sched.Table

/-!
# Death is final, when it is

A dead task stays in its slot until a later selection reaps it. `DeathIsFinal` says that in the
meantime it stays dead. Two steps break it: SIGSTOP makes a dead task wait, and the timer
interrupt lets a dead current task run on when nothing is runnable. `SparesDead` is the condition
on one step that excludes exactly these, and a run keeps its dead exactly when each of its steps
meets it (`deathIsFinal_iff`).
-/

namespace Aeterna.Sched

open Scheduler

variable {F : Type}

/-! ## One step -/

/-- Every dead task stays dead under its pid or is reaped. -/
def DeadStays (s s' : Scheduler F) : Prop :=
  ∀ i t, s.tasks i = some t → t.state = .dead →
    s'.tasks i = none ∨ ∃ t', s'.tasks i = some t' ∧ t'.state = .dead ∧ t'.pid = t.pid

theorem deadStays_of_tasks_eq {s s' : Scheduler F}
    (h : ∀ i t, s.tasks i = some t → t.state = .dead → s'.tasks i = some t) : DeadStays s s' :=
  fun i t ht hd => Or.inr ⟨t, h i t ht hd, hd, rfl⟩

theorem DeadStays.refl (s : Scheduler F) : DeadStays s s :=
  deadStays_of_tasks_eq fun _ _ ht _ => ht

theorem deadStays_modifySlot_iff {f : TaskControlBlock F → TaskControlBlock F} (s : Scheduler F)
    (i : Slot) (hf : ∀ t, (f t).pid = t.pid) :
    DeadStays s (s.modifySlot i f) ↔
      ∀ t, s.tasks i = some t → t.state = .dead → (f t).state = .dead := by
  constructor
  · intro h t ht hd
    rcases h i t ht hd with hn | ⟨t', ht', hd', -⟩
    · simp [modifySlot_tasks, ht] at hn
    · simp only [modifySlot_tasks, ht, if_true, Option.map_some, Option.some.injEq] at ht'
      rwa [ht']
  · intro h j t ht hd
    by_cases hj : j = i
    · subst hj
      exact Or.inr ⟨f t, by simp [modifySlot_tasks, ht], h t ht hd, hf t⟩
    · exact Or.inr ⟨t, by simp [modifySlot_tasks, hj, ht], hd, rfl⟩

theorem deadStays_modifySlot {f : TaskControlBlock F → TaskControlBlock F} (s : Scheduler F)
    (i : Slot) (hf : ∀ t, (f t).pid = t.pid)
    (hd : ∀ t, t.state = .dead → (f t).state = .dead) : DeadStays s (s.modifySlot i f) :=
  (deadStays_modifySlot_iff s i hf).mpr fun t _ => hd t

theorem deadStays_modifyPid {f : TaskControlBlock F → TaskControlBlock F} (s : Scheduler F)
    (pid : TaskId) (hf : ∀ t, (f t).pid = t.pid)
    (hd : ∀ t, t.state = .dead → (f t).state = .dead) : DeadStays s (s.modifyPid pid f).1 := by
  rcases modifyPid_cases s pid f with ⟨-, h⟩ | ⟨i, -, h⟩ <;> rw [h]
  · exact .refl s
  · exact deadStays_modifySlot s i hf hd

/-- A signal revives a dead task exactly when it is SIGSTOP and the task takes signals. -/
theorem signalTask_dead_iff {signal : UInt32} {t : TaskControlBlock F} (hd : t.state = .dead) :
    (signalTask signal t).state = .dead ↔ ¬ (signal = 19 ∧ 1 < t.pid) := by
  unfold signalTask signalState
  by_cases hp : 1 < t.pid
  · by_cases h18 : signal = 18
    · simp [hp, h18, hd]
    · by_cases h19 : signal = 19
      · simp [hp, h19]
      · simp [hp, h18, h19]
  · simp [hp, hd]

/-! ## The timer interrupt -/

/-- The interrupt revives the current task: it is dead, and nothing is runnable. -/
def Revives (s : Scheduler F) : Prop :=
  s.initialized = true ∧ ¬ SkipsSwitch s ∧ isDead (s.tasks s.current) = true ∧
    ∀ i, isRunnable (s.tasks i) = false

theorem deadStays_reschedule_iff {s : Scheduler F} {t : TaskControlBlock F} (regs : F)
    (ht : s.tasks s.current = some t) :
    DeadStays s (reschedule s regs).1 ↔
      ¬ (t.state = .dead ∧ ∀ i, isRunnable (s.tasks i) = false) := by
  -- a dead task away from the current slot is kept or reaped, whatever is selected
  have away : ∀ (tasks : Slot → Option (TaskControlBlock F)) i u, s.tasks i = some u →
      u.state = .dead → tasks i = reap s.current s.tasks i →
      tasks i = none ∨ ∃ t', tasks i = some t' ∧ t'.state = .dead ∧ t'.pid = u.pid := by
    intro tasks i u hu hd he
    rcases reap_cases s.current i s.tasks with h | ⟨h, -⟩
    · exact Or.inr ⟨u, by rw [he, h, hu], hd, rfl⟩
    · exact Or.inl (he.trans h)
  rcases reschedule_cases s regs with ⟨h, -, hwhy⟩ | ⟨n, u, hbest, hn, hu, htasks, -, -, -⟩
  · have hcur : (stayed s).tasks s.current = some (setRunning t) := by
      simp [stayed, modifySlot_tasks, reap_current, ht]
    rw [h]
    constructor
    · rintro hs ⟨hd, -⟩
      rcases hs s.current t ht hd with hn | ⟨t', ht', hd', -⟩
      · simp [hcur] at hn
      · rw [hcur] at ht'
        cases ht'
        simp [setRunning] at hd'
    · intro hnot i u hu hd
      by_cases hi : i = s.current
      · -- the current task is dead, so it was not selected and something else is runnable
        subst hi
        have htd : t.state = .dead := by
          rw [ht] at hu
          cases hu
          exact hd
        rcases hwhy with hnone | hrun
        · exact absurd ⟨htd, hnone⟩ hnot
        · simp [isRunnable, ht, htd] at hrun
      · exact away _ i u hu hd (by simp [stayed, modifySlot_tasks, hi])
  · have hrun := nextReadySlot_best hbest
    constructor
    · rintro - ⟨-, hnone⟩
      simp [hnone n] at hrun
    · intro _ i v hv hd
      have hi : i ≠ n := by
        rintro rfl
        simp [isRunnable, hv, hd] at hrun
      exact away _ i v hv hd (by rw [htasks, Function.update_of_ne hi])

theorem interrupted_dead_iff (savedState : UInt64) (regs : F) (t : TaskControlBlock F) :
    (interrupted savedState regs t).state = .dead ↔ t.state = .dead := by
  unfold interrupted saveFrame
  dsimp only
  split_ifs with h
  · simp [h]
  · rfl

section Interrupted

variable {s : Scheduler F} {t : TaskControlBlock F} (savedState : UInt64) (regs : F)
  (ht : s.tasks s.current = some t)

include ht

theorem deadStays_interrupted_iff (r : Scheduler F) :
    DeadStays (s.setTask s.current (some (interrupted savedState regs t))) r ↔ DeadStays s r := by
  constructor
  · intro h i u hu hd
    by_cases hi : i = s.current
    · subst hi
      rw [ht] at hu
      cases hu
      have hdead := (interrupted_dead_iff savedState regs t).mpr hd
      exact h _ (interrupted savedState regs t) (by simp) hdead
    · exact h i u (by simp [hi, hu]) hd
  · intro h i u hu hd
    rw [setTask_tasks] at hu
    split_ifs at hu with hi
    · cases hu
      exact hi ▸ h s.current t ht ((interrupted_dead_iff savedState regs t).mp hd)
    · exact h i u hu hd

theorem isRunnable_interrupted (hd : t.state = .dead) (i : Slot) :
    isRunnable ((s.setTask s.current (some (interrupted savedState regs t))).tasks i) =
      isRunnable (s.tasks i) := by
  by_cases h : i = s.current
  · subst h
    simp [ht, isRunnable, hd, (interrupted_dead_iff savedState regs t).mpr hd]
  · simp [h]

end Interrupted

theorem deadStays_onTimerIrq_iff {s : Scheduler F} (hs : SlotInv s) (savedState : UInt64)
    (regs : F) : DeadStays s (onTimerIrq s savedState regs).1 ↔ ¬ Revives s := by
  obtain ⟨t, ht⟩ := Option.isSome_iff_exists.mp hs.current
  rcases onTimerIrq_cases savedState regs ht with ⟨he, hi⟩ | ⟨he, hk⟩ | ⟨he, hi, hk⟩ <;> rw [he]
  · refine iff_of_true (.refl s) fun h => ?_
    simp [h.1] at hi
  · refine iff_of_true (fun i u hu hd => Or.inr ?_) fun h => h.2.1 hk
    by_cases hcur : i = s.current
    · subst hcur
      rw [ht] at hu
      cases hu
      exact ⟨{ t with cpuTicks := saturatingAdd t.cpuTicks 1 }, by simp, hd, rfl⟩
    · exact ⟨u, by simp [hcur, hu], hd, rfl⟩
  · have hcur : (s.setTask s.current (some (interrupted savedState regs t))).tasks s.current =
        some (interrupted savedState regs t) := by simp
    rw [← deadStays_interrupted_iff savedState regs ht, deadStays_reschedule_iff regs hcur,
      not_iff_not]
    constructor
    · rintro ⟨hd, hall⟩
      have hd' := (interrupted_dead_iff savedState regs t).mp hd
      exact ⟨hi, hk, by simp [isDead, ht, hd'],
        fun i => isRunnable_interrupted savedState regs ht hd' i ▸ hall i⟩
    · rintro ⟨-, -, hd, hall⟩
      have hd' : t.state = .dead := by simpa [isDead, ht] using hd
      exact ⟨(interrupted_dead_iff savedState regs t).mpr hd',
        fun i => (isRunnable_interrupted savedState regs ht hd' i).trans (hall i)⟩

/-! ## Runs -/

/-- The condition on one step under which it revives no dead task. -/
def SparesDead (s : Scheduler F) : Action F → Prop
  | .signalThread slot signal => ∀ (h : slot < maxTasks) (t : TaskControlBlock F),
      s.tasks ⟨slot, h⟩ = some t → t.state = .dead → ¬ (signal = 19 ∧ 1 < t.pid)
  | .signalPid pid signal => ∀ i t, s.findPid pid = some i → s.tasks i = some t →
      t.state = .dead → ¬ (signal = 19 ∧ 1 < t.pid)
  | .onTimerIrq _ _ => ¬ Revives s
  | _ => True

theorem deadStays_grantCapability (s : Scheduler F) (pid : TaskId) (cap : Capability) :
    DeadStays s (grantCapability s pid cap).1 := by
  unfold grantCapability
  split_ifs
  · apply deadStays_modifyPid <;> intro t <;> split_ifs <;> simp
  · exact .refl s

variable [RegFrame F]

theorem deadStays_spawnNamed (s : Scheduler F) (name : List UInt8) (priority : Priority)
    (entryPoint stackPointer memoryBytes : UInt64) (space : Option UInt64) :
    DeadStays s (spawnNamed s name priority entryPoint stackPointer memoryBytes space).1 := by
  rcases spawnNamed_cases s name priority entryPoint stackPointer memoryBytes space with he |
    ⟨i, cr3, hi, -, he⟩ <;> rw [he] <;> refine deadStays_of_tasks_eq fun j t ht _ => ?_
  · exact ht
  · have hj : j ≠ i := by
      rintro rfl
      simp [hi] at ht
    simp [hj, ht]

/-- `SparesDead` is exact. -/
theorem deadStays_step_iff (s : Scheduler F) (a : Action F) (hs : SlotInv s) :
    DeadStays s (step s a) ↔ SparesDead s a := by
  cases a with
  | spawnNamed name priority entryPoint stackPointer memoryBytes space =>
    exact iff_of_true (deadStays_spawnNamed _ _ _ _ _ _ _) trivial
  | exitCurrent code =>
    exact iff_of_true (deadStays_modifySlot s s.current (fun _ => rfl) fun _ _ => rfl) trivial
  | exitPid pid =>
    exact iff_of_true (deadStays_modifyPid s pid (fun _ => rfl) fun _ _ => rfl) trivial
  | signalThread slot signal =>
    simp only [step, signalThread, SparesDead]
    split_ifs with h
    · rw [deadStays_modifySlot_iff s _ (tame_signalTask signal).pid]
      refine ⟨fun hall _ t ht hd => (signalTask_dead_iff hd).mp (hall t ht hd),
        fun hall t ht hd => (signalTask_dead_iff hd).mpr (hall h t ht hd)⟩
    · exact iff_of_true (.refl s) fun h' => absurd h' h
  | signalPid pid signal =>
    simp only [step, signalPid, SparesDead]
    split_ifs with hpid
    · rcases modifyPid_cases s pid (signalTask signal) with ⟨hf, he⟩ | ⟨i, hf, he⟩ <;> rw [he, hf]
      · exact iff_of_true (.refl s) (by simp)
      · rw [deadStays_modifySlot_iff s i (tame_signalTask signal).pid]
        constructor
        · rintro hall j t hj ht hd
          cases hj
          exact (signalTask_dead_iff hd).mp (hall t ht hd)
        · exact fun hall t ht hd => (signalTask_dead_iff hd).mpr (hall i t rfl ht hd)
    · refine iff_of_true (.refl s) fun i t hi ht _ h => ?_
      -- the task found for a pid has that pid, so it takes no signal
      obtain ⟨t', ht', hp⟩ := findPid_spec hi
      rw [ht] at ht'
      cases ht'
      exact hpid (hp ▸ h.2)
  | grantCapability pid cap => exact iff_of_true (deadStays_grantCapability s pid cap) trivial
  | addMemoryUsage pid bytes =>
    exact iff_of_true (deadStays_modifyPid s pid (fun _ => rfl) fun _ h => h) trivial
  | subMemoryUsage pid bytes =>
    exact iff_of_true (deadStays_modifyPid s pid (fun _ => rfl) fun _ h => h) trivial
  | tick =>
    refine iff_of_true ?_ trivial
    simp only [step, tick]
    split_ifs
    · exact deadStays_modifySlot s s.current (fun _ => rfl) fun _ h => h
    · exact .refl s
  | sysYield =>
    refine iff_of_true ?_ trivial
    simp only [step, sysYield]
    split_ifs
    · refine deadStays_modifySlot s s.current (fun t => ?_) fun t h => ?_
      · split_ifs <;> rfl
      · rw [if_neg (by simp [h])]
        exact h
    · exact .refl s
  | setPreemptionDisabled disabled =>
    exact iff_of_true (deadStays_modifySlot s s.current (fun _ => rfl) fun _ h => h) trivial
  | setIsVfsServer isServer =>
    refine iff_of_true ?_ trivial
    simp only [step, setIsVfsServer]
    split_ifs
    · exact deadStays_grantCapability s _ _
    · exact .refl s
  | setMedId medId =>
    exact iff_of_true (deadStays_modifySlot s s.current (fun _ => rfl) fun _ h => h) trivial
  | onTimerIrq savedState regs => exact deadStays_onTimerIrq_iff hs savedState regs

/-- Once a task is dead it stays dead, under its pid, for as long as its slot is occupied. -/
def DeathIsFinal (s : Scheduler F) (as : List (Action F)) : Prop :=
  ∀ pre mid post, as = pre ++ mid ++ post →
    ∀ i t, (Lib.run step s pre).tasks i = some t → t.state = .dead →
      (∀ m, m <+: mid → ((Lib.run step s (pre ++ m)).tasks i).isSome) →
        ∃ t', (Lib.run step s (pre ++ mid)).tasks i = some t' ∧ t'.state = .dead ∧
          t'.pid = t.pid

theorem deathIsFinal_iff_eachStep (s : Scheduler F) (as : List (Action F)) :
    DeathIsFinal s as ↔ Lib.EachStep step (fun s a => DeadStays s (step s a)) s as := by
  rw [Lib.eachStep_iff_forall_split]
  constructor
  · rintro h pre a post rfl i t ht hd
    by_cases hn : step (Lib.run step s pre) a |>.tasks i |>.isSome
    · right
      have := h pre [a] post (by simp) i t ht hd fun m hm => by
        rcases List.prefix_cons_iff.mp hm with rfl | ⟨m', rfl, hm'⟩
        · simp [ht]
        · rw [List.prefix_nil.mp hm', Lib.run_append]
          exact hn
      rwa [Lib.run_append] at this
    · left
      simpa using hn
  · intro h pre mid
    induction mid generalizing pre with
    | nil => exact fun post has i t ht hd _ => ⟨t, by simpa using ht, hd, rfl⟩
    | cons a mid ih =>
      intro post has i t ht hd hocc
      have hstep := h pre a (mid ++ post) (by simpa using has) i t ht hd
      have hrun : ∀ m, Lib.run step s (pre ++ a :: m) = Lib.run step s (pre ++ [a] ++ m) := by
        simp
      -- the slot is still occupied after the first step, so the task was not reaped
      obtain ⟨t₁, ht₁, hd₁, hp₁⟩ : ∃ t', (Lib.run step s (pre ++ [a])).tasks i = some t' ∧
          t'.state = .dead ∧ t'.pid = t.pid := by
        have hsome := hocc [a] (by simp)
        rw [Lib.run_append] at hsome ⊢
        rcases hstep with hn | hs
        · rw [Lib.run_cons, Lib.run_nil, hn] at hsome
          simp at hsome
        · exact hs
      obtain ⟨t₂, ht₂, hd₂, hp₂⟩ := ih (pre ++ [a]) post (by simpa using has) i t₁ ht₁ hd₁
        fun m hm => hrun m ▸ hocc (a :: m) (List.cons_prefix_cons.mpr ⟨rfl, hm⟩)
      exact ⟨t₂, hrun mid ▸ ht₂, hd₂, hp₂.trans hp₁⟩

/-- **Death.** A run from `init` keeps its dead exactly when none of its steps is a SIGSTOP for a
dead task or a timer interrupt that finds the current task dead and nothing runnable. -/
theorem deathIsFinal_iff (cr3 : UInt64) (vmmInit : Bool) (as : List (Action F)) :
    DeathIsFinal (start cr3 vmmInit) as ↔
      Lib.EachStep step SparesDead (start cr3 vmmInit) as := by
  rw [deathIsFinal_iff_eachStep]
  exact Lib.eachStep_congr (countInv_start cr3 vmmInit).table.toSlotInv slotInv_step
    deadStays_step_iff

/-- Two tasks are spawned and the second is terminated. -/
def killSecond : List (Action Frame) :=
  [.spawnNamed [] .normal 1 1 0 none, .spawnNamed [] .normal 1 1 0 none, .exitPid 2]

/-- SIGSTOP brings the terminated task back. -/
theorem not_deathIsFinal_sigstop :
    ¬ DeathIsFinal (start 0 false) (killSecond ++ [.signalPid 2 19]) := by
  intro h
  have hdead : ((Lib.run step (start 0 false) killSecond).tasks 2).map (·.state) = some .dead := by
    decide
  obtain ⟨t, ht, hd⟩ := Option.map_eq_some_iff.mp hdead
  obtain ⟨t', ht', hd', -⟩ := h killSecond [.signalPid 2 19] [] (by simp) 2 t ht hd fun m hm => by
    rcases List.prefix_cons_iff.mp hm with rfl | ⟨m', rfl, hm'⟩
    · simp [ht]
    · rw [List.prefix_nil.mp hm']
      decide
  have hwait : ((Lib.run step (start 0 false) (killSecond ++ [.signalPid 2 19])).tasks 2).map
      (·.state) = some .waiting := by
    decide
  simp [ht', hd'] at hwait

end Aeterna.Sched
