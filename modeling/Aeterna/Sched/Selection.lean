import Aeterna.Sched.Scan

/-!
# Which task runs next

The selection loop keeps the last task of the highest priority in the order in which it visits the
slots (`nextReadySlot_best_eq_argmax`). It visits the current slot last, so the current task is
selected whenever no runnable task has a higher priority (`nextReadySlot_best_eq_current`), also when
others of its priority are waiting for their turn.
-/

namespace Aeterna.Sched

open Scheduler

variable {F : Type}

/-! ## The loop as an argmax -/

def slotPriority (tasks : Slot → Option (TaskControlBlock F)) (i : Slot) : ℕ :=
  match tasks i with
  | some t => t.priority.toNat
  | none => 0

theorem slotPriority_of_eq_some {tasks : Slot → Option (TaskControlBlock F)} {i : Slot}
    {t : TaskControlBlock F} (h : tasks i = some t) : slotPriority tasks i = t.priority.toNat := by
  rw [slotPriority, h]

/-- The slots of a list that can be selected, the last one first. -/
def candidates (tasks : Slot → Option (TaskControlBlock F)) (l : List Slot) : List Slot :=
  l.reverse.filter fun i => isRunnable (tasks i)

theorem candidates_concat (tasks : Slot → Option (TaskControlBlock F)) (l : List Slot) (j : Slot) :
    candidates tasks (l ++ [j]) =
      if isRunnable (tasks j) then j :: candidates tasks l else candidates tasks l := by
  rw [candidates, List.reverse_concat, List.filter_cons]
  rfl

theorem scanSlot_of_not_runnable (cur : Slot) {sc : Scan F} {idx : Slot}
    (h : isRunnable (sc.tasks idx) = false) :
    (scanSlot cur sc idx).best = sc.best ∧ (scanSlot cur sc idx).bestPrio = sc.bestPrio := by
  rcases scanSlot_best cur sc idx with ⟨-, hr⟩ | ⟨hbest, hprio, -⟩
  · exact absurd (hr.symm.trans h) (by decide)
  · exact ⟨hbest, hprio⟩

theorem scanSlot_of_runnable {cur : Slot} {sc : Scan F} {idx : Slot} {t : TaskControlBlock F}
    (ht : sc.tasks idx = some t) (h : t.state = .ready ∨ t.state = .running) :
    scanSlot cur sc idx = if sc.bestPrio ≤ t.priority then
      { sc with best := some idx, bestPrio := t.priority } else sc := by
  have hdead : t.state ≠ .dead := by
    rcases h with h | h <;> rw [h] <;> decide
  rw [scanSlot, ht]
  dsimp only
  rw [if_neg hdead, if_pos h]

theorem isRunnable_foldl (cur : Slot) (tasks : Slot → Option (TaskControlBlock F)) (l : List Slot)
    (j : Slot) :
    let sc := l.foldl (scanSlot cur) ⟨tasks, none, .idle⟩
    isRunnable (sc.tasks j) = isRunnable (tasks j) ∧
      (isRunnable (tasks j) = true → sc.tasks j = tasks j) := by
  intro sc
  have htasks : sc.tasks j = if j ∈ l then reap cur tasks j else tasks j :=
    foldl_scanSlot_tasks cur l _ j
  rw [htasks]
  split
  · rcases reap_cases cur j tasks with h | ⟨h, hd⟩
    · exact ⟨by rw [h], fun _ => h⟩
    · rw [h, not_isRunnable_of_isDead hd]
      exact ⟨rfl, fun h => absurd h (by decide)⟩
  · exact ⟨rfl, fun _ => rfl⟩

/-- The loop keeps the last slot of the highest priority, and that priority. -/
theorem foldl_scanSlot_argmax (cur : Slot) (tasks : Slot → Option (TaskControlBlock F))
    (l : List Slot) :
    let sc := l.foldl (scanSlot cur) ⟨tasks, none, .idle⟩
    sc.best = (candidates tasks l).argmax (slotPriority tasks) ∧
      sc.bestPrio.toNat = (sc.best.map (slotPriority tasks)).getD 0 := by
  induction l using List.reverseRecOn with
  | nil => exact ⟨rfl, rfl⟩
  | append_singleton l j ih =>
    intro sc'
    obtain ⟨hrunnable, hsame⟩ := isRunnable_foldl cur tasks l j
    have hstep : sc' = scanSlot cur (l.foldl (scanSlot cur) ⟨tasks, none, .idle⟩) j :=
      List.foldl_concat ..
    generalize l.foldl (scanSlot cur) ⟨tasks, none, .idle⟩ = sc at ih hrunnable hsame hstep
    obtain ⟨hbest, hprio⟩ := ih
    rw [hstep, candidates_concat]
    by_cases hj : isRunnable (tasks j) = true
    · obtain ⟨t, ht, hstate⟩ := isRunnable_iff.mp hj
      have hj' := slotPriority_of_eq_some ht
      rw [scanSlot_of_runnable ((hsame hj).trans ht) hstate, if_pos hj, List.argmax_cons, ← hbest]
      cases hb : sc.best with
      | none =>
        rw [hb] at hprio
        have hle : sc.bestPrio ≤ t.priority := by
          show sc.bestPrio.toNat ≤ t.priority.toNat
          rw [hprio]
          exact Nat.zero_le _
        rw [if_pos hle]
        exact ⟨rfl, hj'.symm⟩
      | some n =>
        rw [hb] at hprio
        have hiff : sc.bestPrio ≤ t.priority ↔ ¬ slotPriority tasks j < slotPriority tasks n := by
          rw [not_lt, hj']
          show sc.bestPrio.toNat ≤ t.priority.toNat ↔ _
          rw [hprio]
          rfl
        dsimp only
        by_cases hlt : slotPriority tasks j < slotPriority tasks n
        · rw [if_neg (fun h => hiff.mp h hlt), if_pos hlt]
          exact ⟨hb, by rw [hb]; exact hprio⟩
        · rw [if_pos (hiff.mpr hlt), if_neg hlt]
          exact ⟨rfl, hj'.symm⟩
    · rw [Bool.not_eq_true] at hj
      obtain ⟨hbest', hprio'⟩ := scanSlot_of_not_runnable cur (hrunnable.trans hj)
      rw [hbest', hprio', hj]
      exact ⟨hbest, hprio⟩

theorem nextReadySlot_best_eq_argmax (s : Scheduler F) :
    (nextReadySlot s).best =
      (candidates s.tasks (scanOrder s.current)).argmax (slotPriority s.tasks) :=
  (foldl_scanSlot_argmax s.current s.tasks (scanOrder s.current)).1

theorem mem_candidates {s : Scheduler F} {i : Slot} :
    i ∈ candidates s.tasks (scanOrder s.current) ↔ isRunnable (s.tasks i) = true := by
  rw [candidates, List.mem_filter, List.mem_reverse]
  exact and_iff_right (mem_scanOrder s.current i)

theorem exists_scanOrder_eq (cur : Slot) : ∃ l, scanOrder cur = l ++ [cur] := by
  have hlast : cur + 1 + Fin.last 63 = cur := by
    ext
    simp only [Fin.val_add, Fin.val_last, maxTasks] at *
    omega
  refine ⟨((List.finRange 63).map Fin.castSucc).map fun k => cur + 1 + k, ?_⟩
  rw [scanOrder, List.finRange_succ_last, List.map_append, List.map_singleton, hlast]

theorem nextReadySlot_maximal {s : Scheduler F} {n i : Slot} (h : (nextReadySlot s).best = some n)
    (hi : isRunnable (s.tasks i) = true) : slotPriority s.tasks i ≤ slotPriority s.tasks n := by
  rw [nextReadySlot_best_eq_argmax, List.argmax_eq_some_iff] at h
  exact h.2.1 i (mem_candidates.mpr hi)

/-- The current task is selected whenever none that is runnable has a higher priority. -/
theorem nextReadySlot_best_eq_current (s : Scheduler F) :
    (nextReadySlot s).best = some s.current ↔ isRunnable (s.tasks s.current) = true ∧
      ∀ i, isRunnable (s.tasks i) = true →
        slotPriority s.tasks i ≤ slotPriority s.tasks s.current := by
  constructor
  · intro h
    exact ⟨nextReadySlot_best h, fun i hi => nextReadySlot_maximal h hi⟩
  · rintro ⟨hcur, hmax⟩
    obtain ⟨l, hl⟩ := exists_scanOrder_eq s.current
    have hhead : candidates s.tasks (scanOrder s.current) = s.current :: candidates s.tasks l := by
      rw [hl, candidates_concat, if_pos hcur]
    rw [nextReadySlot_best_eq_argmax, List.argmax_eq_some_iff]
    refine ⟨mem_candidates.mpr hcur, fun i hi => hmax i (mem_candidates.mp hi), fun i _ _ => ?_⟩
    rw [hhead, List.idxOf_cons_self]
    exact Nat.zero_le _

/-! ## Turns -/

/-- What the selection loop is for: a runnable task of the highest priority, none exactly if there is
none; only dead tasks are removed; and another ready task of that priority gets its turn. -/
structure Selects (s : Scheduler F) : Prop where
  none_iff : (nextReadySlot s).best = none ↔ ∀ i t, s.tasks i = some t →
    t.state ≠ .ready ∧ t.state ≠ .running
  best : ∀ n, (nextReadySlot s).best = some n → ∃ t, s.tasks n = some t ∧
    (t.state = .ready ∨ t.state = .running) ∧
    (∀ i u, s.tasks i = some u → u.state = .ready ∨ u.state = .running →
      u.priority ≤ t.priority) ∧
    ∀ i u, i ≠ s.current → s.tasks i = some u → u.state = .ready → u.priority = t.priority →
      n ≠ s.current
  removes : ∀ i, (nextReadySlot s).tasks i = s.tasks i ∨
    (nextReadySlot s).tasks i = none ∧ i ≠ 0 ∧ i ≠ s.current ∧
      ∃ t, s.tasks i = some t ∧ t.state = .dead

/-- The current task is runnable, none has a higher priority, and another one that is ready has the
same. -/
def HoldsTurn (s : Scheduler F) : Prop :=
  ∃ t, s.tasks s.current = some t ∧ (t.state = .ready ∨ t.state = .running) ∧
    (∀ i u, s.tasks i = some u → u.state = .ready ∨ u.state = .running →
      u.priority ≤ t.priority) ∧
    ∃ i u, i ≠ s.current ∧ s.tasks i = some u ∧ u.state = .ready ∧ u.priority = t.priority

theorem isRunnable_eq_false_iff {o : Option (TaskControlBlock F)} :
    isRunnable o = false ↔ ∀ t, o = some t → t.state ≠ .ready ∧ t.state ≠ .running := by
  cases o <;> simp [isRunnable]

theorem le_of_slotPriority_le {s : Scheduler F} {i j : Slot} {t u : TaskControlBlock F}
    (hi : s.tasks i = some t) (hj : s.tasks j = some u)
    (h : slotPriority s.tasks i ≤ slotPriority s.tasks j) : t.priority ≤ u.priority := by
  rwa [slotPriority_of_eq_some hi, slotPriority_of_eq_some hj] at h

theorem nextReadySlot_of_holdsTurn {s : Scheduler F} (h : HoldsTurn s) :
    (nextReadySlot s).best = some s.current := by
  obtain ⟨t, ht, hstate, hmax, -⟩ := h
  rw [nextReadySlot_best_eq_current]
  refine ⟨isRunnable_iff.mpr ⟨t, ht, hstate⟩, fun i hi => ?_⟩
  obtain ⟨u, hu, hstate'⟩ := isRunnable_iff.mp hi
  rw [slotPriority_of_eq_some hu, slotPriority_of_eq_some ht]
  exact hmax i u hu hstate'

/-- The loop selects as it should exactly when the current task does not hold on to its turn. -/
theorem selects_iff (s : Scheduler F) : Selects s ↔ ¬ HoldsTurn s := by
  constructor
  · intro h hturn
    obtain ⟨t, ht, -, -, hothers⟩ := h.best s.current (nextReadySlot_of_holdsTurn hturn)
    obtain ⟨t', ht', -, -, i, u, hi, hu, hready, hprio⟩ := hturn
    obtain rfl : t = t' := Option.some.inj (ht.symm.trans ht')
    exact hothers i u hi hu hready hprio rfl
  · intro hturn
    refine ⟨?_, fun n hn => ?_, fun i => ?_⟩
    · rw [nextReadySlot_best_eq_none]
      exact forall_congr' fun i => isRunnable_eq_false_iff
    · obtain ⟨t, ht, hstate⟩ := isRunnable_iff.mp (nextReadySlot_best hn)
      have hmax : ∀ i u, s.tasks i = some u → u.state = .ready ∨ u.state = .running →
          u.priority ≤ t.priority := fun i u hu hstate' =>
        le_of_slotPriority_le hu ht (nextReadySlot_maximal hn (isRunnable_iff.mpr ⟨u, hu, hstate'⟩))
      refine ⟨t, ht, hstate, hmax, fun i u hi hu hready hprio hcur => hturn ?_⟩
      subst hcur
      exact ⟨t, ht, hstate, hmax, i, u, hi, hu, hready, hprio⟩
    · rw [nextReadySlot_tasks]
      by_cases hreap : i ≠ 0 ∧ i ≠ s.current ∧ isDead (s.tasks i) = true
      · refine .inr ⟨?_, hreap.1, hreap.2.1, isDead_iff.mp hreap.2.2⟩
        rw [reap, if_pos hreap]
      · left
        rw [reap, if_neg hreap]

/-- Two tasks of the same priority, and the interrupt that starts the second. -/
def twoTasks : List (Action Frame) :=
  [.spawnNamed [] .normal 1 1 0 none, .spawnNamed [] .normal 1 1 0 none,
    .onTimerIrq 0 RegFrame.zero]

/-- The second task is selected again although the first one is ready. -/
theorem not_selects_twoTasks : ¬ Selects (Lib.run step (start 0 false) twoTasks) := by
  intro h
  have hbest : (nextReadySlot (Lib.run step (start 0 false) twoTasks)).best = some 2 := by
    decide +kernel
  have hcurrent : (Lib.run step (start 0 false) twoTasks).current = 2 := by decide
  have hfirst : ((Lib.run step (start 0 false) twoTasks).tasks 1).map
      (fun t => (t.state, t.priority)) = some (.ready, .normal) := by decide
  have hsecond : ((Lib.run step (start 0 false) twoTasks).tasks 2).map (·.priority) =
      some .normal := by decide
  obtain ⟨u, hu, hu'⟩ := Option.map_eq_some_iff.mp hfirst
  obtain ⟨t, ht, -, -, hothers⟩ := h.best 2 hbest
  rw [ht] at hsecond
  have hprio : u.priority = t.priority :=
    (congrArg Prod.snd hu').trans (Option.some.inj hsecond).symm
  have hne : (1 : Slot) ≠ (Lib.run step (start 0 false) twoTasks).current := by
    decide
  exact hothers 1 u hne hu (congrArg Prod.fst hu') hprio hcurrent.symm

/-! ## A finished task -/

/-- The interrupt passes the processor to a task that is not dead. -/
def GivesUp (s : Scheduler F) (savedState : UInt64) (regs : F) : Prop :=
  let s' := (onTimerIrq s savedState regs).1
  s'.current ≠ s.current ∧ ∃ t, s'.tasks s'.current = some t ∧ t.state ≠ .dead

theorem keepsCpu_eq_false_iff (t : TaskControlBlock F) :
    keepsCpu t = false ↔
      t.preemptionDisabled = false ∧ (t.priority = .compute → t.cpuTicks % 1000 = 0) := by
  unfold keepsCpu
  simp only [Bool.or_eq_false_iff, Bool.not_eq_false', Bool.or_eq_true, Bool.not_eq_true',
    beq_eq_false_iff_ne, beq_iff_eq]
  tauto

/-- A finished task gives up the processor exactly when the interrupt gets to the selection loop,
which the priority, the ticks and the preemption flag of the finished task decide. -/
theorem givesUp_iff {s : Scheduler F} {t u : TaskControlBlock F} {i : Slot}
    (ht : s.tasks s.current = some t) (hdead : t.state = .dead) (hi : i ≠ s.current)
    (hu : s.tasks i = some u) (hready : u.state = .ready) (savedState : UInt64) (regs : F) :
    GivesUp s savedState regs ↔ s.initialized = true ∧ t.preemptionDisabled = false ∧
      (t.priority = .compute → saturatingAdd t.cpuTicks 1 % 1000 = 0) := by
  have hkeeps := keepsCpu_eq_false_iff { t with cpuTicks := saturatingAdd t.cpuTicks 1 }
  rw [← hkeeps]
  rcases onTimerIrq_cases savedState regs ht with ⟨heq, hinit⟩ | ⟨heq, hskips⟩ | ⟨heq, hinit, hskips⟩
  · refine iff_of_false (fun h => h.1 ?_) fun h => absurd (hinit.symm.trans h.1) (by decide)
    rw [heq]
  · refine iff_of_false (fun h => h.1 ?_) fun h => absurd ((hskips t ht).symm.trans h.2) (by decide)
    rw [heq]
    rfl
  · have hkeep : keepsCpu { t with cpuTicks := saturatingAdd t.cpuTicks 1 } = false := by
      refine Bool.eq_false_iff.mpr fun h => hskips fun t' ht' => ?_
      obtain rfl : t = t' := Option.some.inj (ht.symm.trans ht')
      exact h
    refine iff_of_true ?_ ⟨hinit, hkeep⟩
    unfold GivesUp
    rw [heq]
    -- the finished task is saved as a dead one, which the loop cannot select
    have hsaved : (s.setTask s.current (some (interrupted savedState regs t))).tasks s.current =
        some (interrupted savedState regs t) := by
      rw [setTask_tasks, if_pos rfl]
    have hstate : (interrupted savedState regs t).state = .dead := by
      simp [interrupted, saveFrame, hdead]
    have hnot : isRunnable ((s.setTask s.current (some (interrupted savedState regs t))).tasks
        s.current) = false :=
      not_isRunnable_of_isDead (isDead_iff.mpr ⟨_, hsaved, hstate⟩)
    have hother : isRunnable ((s.setTask s.current (some (interrupted savedState regs t))).tasks
        i) = true := by
      rw [setTask_tasks, if_neg hi]
      exact isRunnable_iff.mpr ⟨u, hu, .inl hready⟩
    rcases reschedule_cases (s.setTask s.current (some (interrupted savedState regs t))) regs with
      ⟨-, -, hnone | hcur⟩ | ⟨n, v, -, hn, -, htasks, hcurrent, -, -⟩
    · exact absurd ((hnone i).symm.trans hother) (by decide)
    · exact absurd (hnot.symm.trans hcur) (by decide)
    · refine ⟨fun h => hn (hcurrent.symm.trans h), setRunning v, ?_, nofun⟩
      rw [htasks, hcurrent, Function.update_self]

/-- A compute task and a normal one; the compute task is started and ends. -/
def finishCompute : List (Action Frame) :=
  [.spawnNamed [] .compute 1 1 0 none, .spawnNamed [] .normal 1 1 0 none,
    .onTimerIrq 0 RegFrame.zero, .exitCurrent 0]

/-- A finished compute task keeps the processor. -/
theorem not_givesUp_finishCompute :
    let s := Lib.run step (start 0 false) finishCompute
    (s.tasks s.current).map (·.state) = some .dead ∧ (s.tasks 2).map (·.state) = some .ready ∧
      2 ≠ s.current ∧ ¬ GivesUp s 0 RegFrame.zero := by
  intro s
  have hcurrent : (onTimerIrq s 0 RegFrame.zero).1.current = s.current := by decide +kernel
  exact ⟨by decide +kernel, by decide +kernel, by decide +kernel, fun h => h.1 hcurrent⟩

/-- The same with a normal task. -/
def finishNormal : List (Action Frame) := twoTasks ++ [.exitCurrent 0]

theorem givesUp_finishNormal :
    GivesUp (Lib.run step (start 0 false) finishNormal) 0 RegFrame.zero := by
  have hcurrent : ((Lib.run step (start 0 false) finishNormal).tasks
      (Lib.run step (start 0 false) finishNormal).current).map
        (fun t => (t.state, t.preemptionDisabled, t.priority)) =
      some (.dead, false, .normal) := by decide +kernel
  have hother : ((Lib.run step (start 0 false) finishNormal).tasks 1).map (·.state) =
      some .ready := by decide +kernel
  obtain ⟨t, ht, hfields⟩ := Option.map_eq_some_iff.mp hcurrent
  obtain ⟨u, hu, hready⟩ := Option.map_eq_some_iff.mp hother
  obtain ⟨hdead, hpreempt, hprio⟩ : t.state = .dead ∧ t.preemptionDisabled = false ∧
      t.priority = .normal := by
    simpa only [Prod.mk.injEq] using hfields
  refine (givesUp_iff ht hdead (by decide +kernel) hu hready 0 RegFrame.zero).mpr
    ⟨by decide +kernel, hpreempt, fun h => absurd (hprio.symm.trans h) (by decide)⟩

end Aeterna.Sched
