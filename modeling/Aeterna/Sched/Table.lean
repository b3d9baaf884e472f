import Aeterna.Sched.Scan

/-!
# The task table along every run

Along every run from `init` the current slot is occupied, no task but the current one is running
and no two tasks have the same pid (`always_tableInv`), as long as the pid counter does not wrap.

Apart from a spawn no step makes up a pid (`PidsFrom`), so uniqueness only needs an argument for
the counter: every pid in the table is below it.
-/

namespace Aeterna.Sched

open Scheduler

variable {F : Type}

/-! ## The invariant -/

/-- The current slot is occupied and only its task is running. -/
structure SlotInv (s : Scheduler F) : Prop where
  current : (s.tasks s.current).isSome
  running : ∀ i t, s.tasks i = some t → t.state = .running → i = s.current

structure TableInv (s : Scheduler F) : Prop extends SlotInv s where
  /-- Two slots never hold the same pid. -/
  pid : ∀ i j t u, s.tasks i = some t → s.tasks j = some u → t.pid = u.pid → i = j

/-- Every task of `s'` is a task of `s` in the same slot under the same pid. -/
def PidsFrom (s s' : Scheduler F) : Prop :=
  ∀ i u, s'.tasks i = some u → ∃ t, s.tasks i = some t ∧ t.pid = u.pid

theorem PidsFrom.refl (s : Scheduler F) : PidsFrom s s := fun _ u h => ⟨u, h, rfl⟩

theorem PidsFrom.trans {s₁ s₂ s₃ : Scheduler F} (h : PidsFrom s₁ s₂) (h' : PidsFrom s₂ s₃) :
    PidsFrom s₁ s₃ := by
  intro i u hu
  obtain ⟨t, ht, htu⟩ := h' i u hu
  obtain ⟨t', ht', htt⟩ := h i t ht
  exact ⟨t', ht', htt.trans htu⟩

theorem pidsFrom_modifySlot {f : TaskControlBlock F → TaskControlBlock F} (s : Scheduler F)
    (i : Slot) (hf : ∀ t, (f t).pid = t.pid) : PidsFrom s (s.modifySlot i f) := by
  intro j u hu
  rw [modifySlot_tasks] at hu
  split_ifs at hu
  · obtain ⟨t, ht, rfl⟩ := Option.map_eq_some_iff.mp hu
    exact ⟨t, ht, (hf t).symm⟩
  · exact ⟨u, hu, rfl⟩

theorem pidsFrom_setTask {s : Scheduler F} {i : Slot} {t u : TaskControlBlock F}
    (ht : s.tasks i = some t) (hu : t.pid = u.pid) : PidsFrom s (s.setTask i (some u)) := by
  intro j v hv
  rw [setTask_tasks] at hv
  split_ifs at hv with hj
  · cases hv
    exact ⟨t, hj ▸ ht, hu⟩
  · exact ⟨v, hv, rfl⟩

theorem tableInv_pid_of_pidsFrom {s s' : Scheduler F} (h : TableInv s) (hp : PidsFrom s s') :
    ∀ i j t u, s'.tasks i = some t → s'.tasks j = some u → t.pid = u.pid → i = j := by
  intro i j t u ht hu htu
  obtain ⟨t', ht', htt⟩ := hp i t ht
  obtain ⟨u', hu', huu⟩ := hp j u hu
  exact h.pid i j t' u' ht' hu' (htt.trans (htu.trans huu.symm))

/-! ## Changes in place -/

theorem slotInv_modifySlot {s : Scheduler F} {f : TaskControlBlock F → TaskControlBlock F}
    (h : SlotInv s) (hf : Tame f) (i : Slot) : SlotInv (s.modifySlot i f) where
  current := by
    rw [modifySlot_current, modifySlot_tasks]
    have := h.current
    split_ifs <;> simpa using this
  running := by
    intro j u hu hr
    rw [modifySlot_current]
    rw [modifySlot_tasks] at hu
    split_ifs at hu
    · obtain ⟨t, ht, rfl⟩ := Option.map_eq_some_iff.mp hu
      exact h.running j t ht (hf.running t hr)
    · exact h.running j u hu hr

/-! ## The timer interrupt -/

theorem pidsFrom_reschedule (s : Scheduler F) (regs : F) :
    PidsFrom s (reschedule s regs).1 := by
  rcases reschedule_cases s regs with ⟨h, -⟩ | ⟨n, t, -, -, ht, htasks, -, -, -⟩
  · rw [h]
    have hreap : PidsFrom s { s with tasks := reap s.current s.tasks } :=
      fun i u hu => ⟨u, reap_eq_some hu, rfl⟩
    exact hreap.trans (pidsFrom_modifySlot _ _ fun _ => rfl)
  · intro i u hu
    rw [htasks, Function.update_apply] at hu
    split_ifs at hu with hi
    · cases hu
      exact ⟨t, hi ▸ ht, rfl⟩
    · exact ⟨u, reap_eq_some hu, rfl⟩

theorem reschedule_nextPid (s : Scheduler F) (regs : F) :
    (reschedule s regs).1.nextPid = s.nextPid := by
  rcases reschedule_cases s regs with ⟨h, -⟩ | ⟨n, t, -, -, -, -, -, h, -⟩
  · rw [h]; simp [stayed]
  · exact h

theorem slotInv_reschedule {s : Scheduler F} (regs : F) (hcur : (s.tasks s.current).isSome)
    (hrun : ∀ i t, s.tasks i = some t → t.state ≠ .running) :
    SlotInv (reschedule s regs).1 := by
  rcases reschedule_cases s regs with ⟨h, -⟩ | ⟨n, t, -, -, -, htasks, hcurrent, -, -⟩
  · rw [h]
    refine ⟨by simpa [stayed, modifySlot_tasks, reap_current] using hcur, fun i t ht hr => ?_⟩
    simp only [stayed, modifySlot_current, modifySlot_tasks] at ht ⊢
    split_ifs at ht with hi
    · exact hi
    · exact absurd hr (hrun i t (reap_eq_some ht))
  · refine ⟨by simp [htasks, hcurrent], fun i u hu hr => ?_⟩
    rw [htasks, Function.update_apply] at hu
    rw [hcurrent]
    split_ifs at hu with hi
    · exact hi
    · exact absurd hr (hrun i u (reap_eq_some hu))

theorem interrupted_state_ne (savedState : UInt64) (regs : F) (t : TaskControlBlock F) :
    (interrupted savedState regs t).state ≠ .running := by
  unfold interrupted saveFrame
  dsimp only
  split_ifs with h
  · simp
  · exact h

theorem slotInv_onTimerIrq {s : Scheduler F} (h : SlotInv s) (savedState : UInt64) (regs : F) :
    SlotInv (onTimerIrq s savedState regs).1 := by
  obtain ⟨t, ht⟩ := Option.isSome_iff_exists.mp h.current
  rcases onTimerIrq_cases savedState regs ht with ⟨he, -⟩ | ⟨he, -⟩ | ⟨he, -⟩ <;> rw [he]
  · exact h
  · refine ⟨by simp, fun i u hu hr => ?_⟩
    rw [setTask_tasks] at hu
    split_ifs at hu with hi
    · exact hi
    · exact h.running i u hu hr
  · refine slotInv_reschedule regs (by simp) fun i u hu hr => ?_
    rw [setTask_tasks] at hu
    split_ifs at hu with hi
    · cases hu
      exact interrupted_state_ne _ _ _ hr
    · exact hi (h.running i u hu hr)

theorem pidsFrom_onTimerIrq {s : Scheduler F} (h : SlotInv s) (savedState : UInt64) (regs : F) :
    PidsFrom s (onTimerIrq s savedState regs).1 ∧
      (onTimerIrq s savedState regs).1.nextPid = s.nextPid := by
  obtain ⟨t, ht⟩ := Option.isSome_iff_exists.mp h.current
  rcases onTimerIrq_cases savedState regs ht with ⟨he, -⟩ | ⟨he, -⟩ | ⟨he, -⟩ <;> rw [he]
  · exact ⟨PidsFrom.refl s, rfl⟩
  · exact ⟨pidsFrom_setTask ht rfl, rfl⟩
  · refine ⟨?_, by simp [reschedule_nextPid]⟩
    exact (pidsFrom_setTask ht (interrupted_pid savedState regs t).symm).trans
      (pidsFrom_reschedule _ regs)

/-! ## The pid counter -/

/-- The table invariant with the counter: `n` tasks were created so far. -/
structure CountInv (n : ℕ) (s : Scheduler F) : Prop where
  table : TableInv s
  nextPid : s.nextPid.toNat = n + 1
  bound : ∀ i t, s.tasks i = some t → t.pid.toNat ≤ n

theorem countInv_of_pidsFrom {n : ℕ} {s s' : Scheduler F} (h : CountInv n s) (ht : TableInv s')
    (hp : PidsFrom s s') (hn : s'.nextPid = s.nextPid) : CountInv n s' where
  table := ht
  nextPid := hn ▸ h.nextPid
  bound := by
    intro i u hu
    obtain ⟨t, hti, htu⟩ := hp i u hu
    exact htu ▸ h.bound i t hti

theorem slotInv_spawn {s : Scheduler F} (h : SlotInv s) (i : Slot) {t : TaskControlBlock F}
    (hstate : t.state ≠ .running) (pid : TaskId) :
    SlotInv { s.setTask i (some t) with nextPid := pid } where
  current := by
    have hc := h.current
    simp only [setTask_tasks, setTask_current]
    split_ifs with he
    · rfl
    · exact hc
  running := by
    intro j u hu hr
    simp only [setTask_tasks] at hu
    split_ifs at hu with hj
    · cases hu
      exact absurd hr hstate
    · exact h.running j u hu hr

theorem countInv_spawn {n : ℕ} {s : Scheduler F} (h : CountInv n s) {i : Slot}
    {t : TaskControlBlock F} (hpid : t.pid = s.nextPid)
    (hstate : t.state ≠ .running) (hn : n + 1 < 2 ^ 32 - 1) :
    CountInv (n + 1) { s.setTask i (some t) with nextPid := s.nextPid + 1 } where
  table :=
    { slotInv_spawn h.table.toSlotInv i hstate _ with
      pid := by
        intro j k u v hu hv huv
        simp only [setTask_tasks] at hu hv
        split_ifs at hu hv with hj hk hk
        · rw [hj, hk]
        · -- the new pid is above every pid of the table
          cases hu
          have := h.bound k v hv
          rw [← huv, hpid, h.nextPid] at this
          omega
        · cases hv
          have := h.bound j u hu
          rw [huv, hpid, h.nextPid] at this
          omega
        · exact h.table.pid j k u v hu hv huv }
  nextPid := by
    show (s.nextPid + 1).toNat = n + 1 + 1
    rw [UInt32.toNat_add, h.nextPid, UInt32.toNat_one, Nat.mod_eq_of_lt (by omega)]
  bound := by
    intro j u hu
    simp only [setTask_tasks] at hu
    split_ifs at hu with hj
    · cases hu
      rw [hpid, h.nextPid]
    · exact (h.bound j u hu).trans (Nat.le_succ n)

/-! ## Runs -/

variable [RegFrame F]

def spawnCount : Scheduler F → List (Action F) → ℕ
  | _, [] => 0
  | s, a :: as => spawned s a + spawnCount (step s a) as

/-- The part of the invariant that needs no bound on the number of tasks. -/
theorem slotInv_step (s : Scheduler F) (a : Action F) (h : SlotInv s) : SlotInv (step s a) := by
  rcases step_cases s a with ⟨ht, -⟩ | ⟨name, priority, entryPoint, stackPointer, memoryBytes,
    space, rfl⟩ | ⟨savedState, regs, rfl⟩
  · rcases ht with he | ⟨i, f, hf, he⟩ <;> rw [he]
    · exact h
    · exact slotInv_modifySlot h hf i
  · rcases spawnNamed_cases s name priority entryPoint stackPointer memoryBytes space with he |
      ⟨i, cr3, -, -, he⟩
    · simpa [step, he] using h
    · simp only [step, he]
      exact slotInv_spawn h i (by simp [newTask]) _
  · exact slotInv_onTimerIrq h savedState regs

theorem countInv_step {n : ℕ} {s : Scheduler F} {a : Action F} (h : CountInv n s)
    (hn : n + spawned s a < 2 ^ 32 - 1) : CountInv (n + spawned s a) (step s a) := by
  rcases step_cases s a with ⟨ht, h0⟩ | ⟨name, priority, entryPoint, stackPointer, memoryBytes, space,
    rfl⟩ | ⟨savedState, regs, rfl⟩
  · rw [h0, Nat.add_zero]
    rcases ht with he | ⟨i, f, hf, he⟩ <;> rw [he]
    · exact h
    · have hp := pidsFrom_modifySlot s i hf.pid
      exact countInv_of_pidsFrom h
        ⟨slotInv_modifySlot h.table.toSlotInv hf i, tableInv_pid_of_pidsFrom h.table hp⟩ hp (by simp)
  · rcases spawnNamed_cases s name priority entryPoint stackPointer memoryBytes space with he |
      ⟨i, cr3, -, -, he⟩
    · simpa [spawned, step, he] using h
    · simp only [spawned, step, he, Option.toList_some, List.length_singleton] at hn ⊢
      exact countInv_spawn h rfl (by simp [newTask]) hn
  · obtain ⟨hp, hn'⟩ := pidsFrom_onTimerIrq h.table.toSlotInv savedState regs
    exact countInv_of_pidsFrom h
      ⟨slotInv_onTimerIrq h.table.toSlotInv savedState regs, tableInv_pid_of_pidsFrom h.table hp⟩
      hp hn'

theorem countInv_start (cr3 : UInt64) (vmmInit : Bool) :
    CountInv 0 (start cr3 vmmInit : Scheduler F) where
  table :=
    { current := by simp [start, init]
      running := by
        intro i t ht _
        simp only [start, init, boot, setTask_tasks] at ht
        split_ifs at ht with hi
        exact hi
      pid := by
        intro i j t u ht hu _
        simp only [start, init, boot, setTask_tasks] at ht hu
        split_ifs at ht hu with hi hj
        rw [hi, hj] }
  nextPid := rfl
  bound := by
    intro i t ht
    simp only [start, init, boot, setTask_tasks] at ht
    split_ifs at ht
    cases ht
    exact Nat.le_refl 0

theorem always_tableInv_of_countInv {as : List (Action F)} : ∀ {n : ℕ} {s : Scheduler F},
    CountInv n s → n + spawnCount s as < 2 ^ 32 - 1 → Lib.Always step TableInv s as := by
  induction as with
  | nil => exact fun h _ => h.table
  | cons a as ih =>
    intro n s h hn
    rw [spawnCount, ← Nat.add_assoc] at hn
    exact ⟨h.table, ih (countInv_step h (by omega)) hn⟩

/-- **The task table.** In every state of every run from `init` that creates fewer than
`2 ^ 32 - 1` tasks, the current slot is occupied, at most the current task is running and the pids
are distinct. -/
theorem always_tableInv (cr3 : UInt64) (vmmInit : Bool) (as : List (Action F))
    (h : spawnCount (start cr3 vmmInit) as < 2 ^ 32 - 1) :
    Lib.Always step TableInv (start cr3 vmmInit) as :=
  always_tableInv_of_countInv (countInv_start cr3 vmmInit) (by omega)

/-- The second of two tasks is stopped and the first is switched in, then exits. -/
def stopAndExit : List (Action Frame) :=
  [.spawnNamed [] .normal 1 1 0 none, .spawnNamed [] .normal 1 1 0 none, .signalPid 2 19,
    .onTimerIrq 1 (Vector.replicate 21 7), .exitCurrent 0]

theorem always_tableInv_stopAndExit :
    spawnCount (start 0 false) stopAndExit = 2 ∧
      Lib.Always step TableInv (start 0 false) stopAndExit :=
  ⟨by decide, always_tableInv 0 false stopAndExit (by decide)⟩

end Aeterna.Sched
