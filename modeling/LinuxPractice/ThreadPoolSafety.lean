import LinuxPractice.ThreadPool

/-!
# ThreadPool runs every task once and in order

`HandlerTask` looks at its condition again after every return from `Sleep`, so
a worker reaches `tasks_.front()` only while it holds the mutex over a queue it
has just seen not to be empty. What it takes stays with it until it has run.
-/
namespace ThreadPool

open Transition Transition.System Threads

variable {P W T : Type} {s t : State P W T} {log : List (Event W T)}

/-- What the queue has to be for a worker at `k`. -/
def Faces (tasks : List T) (k : WorkPc T) : Prop :=
  (k.takes = true → tasks ≠ []) ∧ ∀ v, k.copied = some v → tasks.head? = some v

theorem faces_of_not_takes {tasks : List T} {k : WorkPc T} (hk : k.takes = false) :
    Faces tasks k := by
  constructor
  · intro h
    rw [hk] at h
    cases h
  · intro v hv
    rw [WorkPc.takes_of_copied hv] at hk
    cases hk

theorem Faces.append {tasks : List T} {k : WorkPc T} (h : Faces tasks k) (v : T) :
    Faces (tasks ++ [v]) k := by
  constructor
  · intro _
    simp
  · intro u hu
    simp [h.2 u hu]

theorem Faces.wake {tasks : List T} {k : WorkPc T} (h : Faces tasks k) : Faces tasks k.wake := by
  unfold Faces
  rw [WorkPc.takes_wake, WorkPc.copied_wake]
  exact h

/-- The mutex is held by the one thread inside, and no worker reads an empty queue. -/
structure Locked (s : State P W T) : Prop where
  mutex : Exclusive PushPc.holds WorkPc.holds s.pusher s.worker s.mutex
  front : ∀ c, Faces s.tasks (s.worker c)
  defined : s.undefined = false

theorem locked_init : Locked (init P W T) where
  mutex := ⟨by intro p; simp [init], by intro c; simp [init]⟩
  front := fun _ => faces_of_not_takes rfl
  defined := rfl

/-- A worker moves while the queue stays as it is. -/
theorem Locked.front_move [DecidableEq W] (hi : Locked s) (c : W) {k : WorkPc T}
    (hk : Faces s.tasks k) (d : W) : Faces s.tasks (Function.update s.worker c k d) :=
  (Function.forall_update_iff s.worker (p := fun _ k => Faces s.tasks k)).mpr
    ⟨hk, fun d _ => hi.front d⟩ d

/-- Whoever else faced the queue would hold the mutex too. -/
theorem Locked.not_takes (hi : Locked s) {c d : W} (hc : (s.worker c).holds = true) (hd : d ≠ c) :
    (s.worker d).takes = false := by
  by_contra htakes
  have hholds := WorkPc.holds_of_takes (Bool.not_eq_false _ ▸ htakes)
  exact hd (hi.mutex.right.unique Sum.inr_injective hholds hc)

variable [DecidableEq P] [Fintype W] [DecidableEq W]

omit [DecidableEq P] [Fintype W] in
theorem Locked.work {c : W} (hi : Locked s) (h : WorkStep s c t) : Locked t := by
  cases h with
  | lock hpc hfree =>
    exact ⟨(hfree ▸ hi.mutex).acquire_right c rfl, hi.front_move c (faces_of_not_takes rfl),
      hi.defined⟩
  | sleep hpc hempty =>
    exact ⟨hi.mutex.release_right (by simp [hpc]) rfl, hi.front_move c (faces_of_not_takes rfl),
      hi.defined⟩
  | pass hpc htask =>
    refine ⟨hi.mutex.stay_right (by simp [hpc]), hi.front_move c ⟨fun _ => htask, ?_⟩, hi.defined⟩
    intro v hv
    cases hv
  | front v rest hpc hq =>
    refine ⟨hi.mutex.stay_right (by simp [hpc]), hi.front_move c ⟨?_, ?_⟩, hi.defined⟩
    · simp [hq]
    · intro u hu
      cases hu
      simp [hq]
  | pop v first rest hpc hq =>
    refine ⟨hi.mutex.stay_right (by simp [hpc]), ?_, hi.defined⟩
    intro d
    by_cases hd : d = c
    · subst hd
      exact faces_of_not_takes (by simp)
    · apply faces_of_not_takes
      simpa [hd] using hi.not_takes (c := c) (by simp [hpc]) hd
  | undefine hpc hq => exact absurd hq ((hi.front c).1 hpc)
  | unlock v hpc =>
    exact ⟨hi.mutex.release_right (by simp [hpc]) rfl, hi.front_move c (faces_of_not_takes rfl),
      hi.defined⟩
  | run v hpc =>
    exact ⟨hi.mutex.stay_right (by simp [hpc]), hi.front_move c (faces_of_not_takes rfl),
      hi.defined⟩

theorem Locked.push {p : P} (hi : Locked s) (h : PushStep s p t) : Locked t := by
  cases h with
  | lock v hpc hfree => exact ⟨(hfree ▸ hi.mutex).acquire_left p rfl, hi.front, hi.defined⟩
  | push v hpc =>
    exact ⟨hi.mutex.stay_left (by simp [hpc]), fun c => (hi.front c).append v, hi.defined⟩
  | wakeUp w hpc hw =>
    refine ⟨⟨hi.mutex.left.stay (by simp [hpc]), ?_⟩, ?_, hi.defined⟩
    · exact hi.mutex.right.congr (wakeAll_congr WorkPc.holds_wake)
    · exact fun c => wakeAll_keeps (Q := Faces s.tasks) (fun _ => Faces.wake) (hi.front c)
  | unlock hpc => exact ⟨hi.mutex.release_left (by simp [hpc]) rfl, hi.front, hi.defined⟩

theorem Locked.step {a : Action P W T} (hi : Locked s) (h : step s a = some t) : Locked t := by
  rcases step_cases h with ⟨p, _, _, -, hp⟩ | ⟨c, -, hc⟩ | ⟨c, -, rfl⟩
  · exact hi.push hp
  · exact hi.work hc
  · exact ⟨hi.mutex.stay_right (WorkPc.holds_wake _), hi.front_move c (hi.front c).wake,
      hi.defined⟩

/-- The queue and the workers together account for every pushed task. -/
structure Ledger (s : State P W T) (log : List (Event W T)) : Prop extends Locked s where
  order : taken log ++ s.tasks = pushed log
  served : ∀ c, takenBy log c = ranBy log c ++ (s.worker c).pending

omit [DecidableEq P] [Fintype W] in
theorem ledger_init : Ledger (init P W T) [] where
  toLocked := locked_init
  order := rfl
  served := fun _ => rfl

omit [DecidableEq P] [Fintype W] in
/-- A worker moves with the same task, if any, in its hands. -/
theorem Ledger.served_move (hi : Ledger s log) {c : W} {k : WorkPc T}
    (hk : k.pending = (s.worker c).pending) (d : W) :
    takenBy log d = ranBy log d ++ (Function.update s.worker c k d).pending := by
  rw [hi.served d]
  by_cases hd : d = c
  · subst hd
    rw [Function.update_self, hk]
  · rw [Function.update_of_ne hd]

theorem Ledger.push {p : P} {input : T} {w : Finset W} (hi : Ledger s log)
    (h : PushStep s p t) : Ledger t (log ++ (event s (.push p input w)).toList) := by
  have hlocked := hi.toLocked.push h
  cases h with
  | lock v hpc hfree =>
    simp only [event, hpc, Option.toList_none, List.append_nil]
    exact ⟨hlocked, hi.order, hi.served⟩
  | push v hpc =>
    simp only [event, hpc, Option.toList_some]
    refine ⟨hlocked, ?_, ?_⟩
    · simp [← hi.order]
    · intro c
      simp [hi.served c]
  | wakeUp w hpc hw =>
    simp only [event, hpc, Option.toList_none, List.append_nil]
    refine ⟨hlocked, hi.order, ?_⟩
    intro c
    refine wakeAll_keeps (Q := fun k : WorkPc T => takenBy log c = ranBy log c ++ k.pending) ?_
      (hi.served c)
    intro k hk
    rw [WorkPc.pending_wake]
    exact hk
  | unlock hpc =>
    simp only [event, hpc, Option.toList_none, List.append_nil]
    exact ⟨hlocked, hi.order, hi.served⟩

omit [DecidableEq P] [Fintype W] in
theorem Ledger.work {c : W} (hi : Ledger s log) (h : WorkStep s c t) :
    Ledger t (log ++ (event s (.work c : Action P W T)).toList) := by
  have hlocked := hi.toLocked.work h
  cases h with
  | lock hpc hfree =>
    have hnone : event s (.work c : Action P W T) = none := by
      cases hpc with
      | inl h => simp [event, h]
      | inr h => simp [event, h]
    simp only [hnone, Option.toList_none, List.append_nil]
    refine ⟨hlocked, hi.order, hi.served_move ?_⟩
    cases hpc with
    | inl h => simp [h]
    | inr h => simp [h]
  | sleep hpc hempty =>
    simp only [event, hpc, Option.toList_none, List.append_nil]
    exact ⟨hlocked, hi.order, hi.served_move (by simp [hpc])⟩
  | pass hpc htask =>
    simp only [event, hpc, Option.toList_none, List.append_nil]
    exact ⟨hlocked, hi.order, hi.served_move (by simp [hpc])⟩
  | front v rest hpc hq =>
    simp only [event, hpc, Option.toList_none, List.append_nil]
    exact ⟨hlocked, hi.order, hi.served_move (by simp [hpc])⟩
  | pop v first rest hpc hq =>
    have hfront : first = v := by
      have := (hi.front c).2 v (by simp [hpc])
      simpa [hq] using this
    simp only [event, hpc, Option.toList_some]
    refine ⟨hlocked, ?_, ?_⟩
    · have horder := hi.order
      rw [hq, hfront] at horder
      simp [← horder]
    · intro d
      by_cases hd : d = c
      · subst hd
        simp [hi.served d, hpc]
      · simp [hi.served d, hd, Ne.symm hd]
  | undefine hpc hq => exact absurd hq ((hi.front c).1 hpc)
  | unlock v hpc =>
    simp only [event, hpc, Option.toList_none, List.append_nil]
    exact ⟨hlocked, hi.order, hi.served_move (by simp [hpc])⟩
  | run v hpc =>
    simp only [event, hpc, Option.toList_some]
    refine ⟨hlocked, ?_, ?_⟩
    · simp [hi.order]
    · intro d
      by_cases hd : d = c
      · subst hd
        simp [hi.served d, hpc]
      · simp [hi.served d, hd, Ne.symm hd]

theorem Ledger.step {a : Action P W T} (hi : Ledger s log) (h : step s a = some t) :
    Ledger t (log ++ (event s a).toList) := by
  have hlocked := hi.toLocked.step h
  rcases step_cases h with ⟨p, _, _, rfl, hp⟩ | ⟨c, rfl, hc⟩ | ⟨c, rfl, rfl⟩
  · exact hi.push hp
  · exact hi.work hc
  · simp only [event, Option.toList_none, List.append_nil]
    exact ⟨hlocked, hi.order, hi.served_move (WorkPc.pending_wake _)⟩

omit [DecidableEq P] [Fintype W] [DecidableEq W] in
theorem pending_cases {k : WorkPc T} (h : k.pending ≠ []) : ∃ v, k = .unlock v ∨ k = .run v := by
  cases k with
  | unlock v => exact ⟨v, .inl rfl⟩
  | run v => exact ⟨v, .inr rfl⟩
  | lock | check | waiting | woken | front | pop => exact absurd rfl h

/-- A worker with a task in its hands is not kept from running it. -/
theorem Locked.step_pending (hi : Locked s) {c : W} (hc : (s.worker c).pending ≠ []) :
    ∃ t, ThreadPool.step s (.work c) = some t := by
  obtain ⟨v, hv | hv⟩ := pending_cases hc
  · simp [ThreadPool.step, hi.defined, stepWork, hv]
  · simp [ThreadPool.step, hi.defined, stepWork, hv]

theorem ledger (h : ((system P W T).logged event).Reachable anyStep (s, log)) : Ledger s log :=
  logged_invariant h ledger_init fun _ _ _ _ hi hs => hi.step hs

/-- Any number of pushing threads and workers, in any interleaving, with spurious returns
from `Sleep`. -/
theorem every_task_once (h : ((system P W T).logged event).Reachable anyStep (s, log)) :
    s.undefined = false ∧ (∀ c, (s.worker c).takes = true → s.tasks ≠ []) ∧
      taken log ++ s.tasks = pushed log ∧
      ∀ c, takenBy log c = ranBy log c ++ (s.worker c).pending ∧
        ((s.worker c).pending ≠ [] → ∃ t, step s (.work c) = some t) := by
  have hi := ledger h
  refine ⟨hi.defined, fun c => (hi.front c).1, hi.order, ?_⟩
  intro c
  exact ⟨hi.served c, hi.toLocked.step_pending⟩

/-- Two tasks for two workers; one of them was asleep and returned for no reason. -/
def twoTasksRun : List (Action Unit Bool Nat) :=
  List.replicate 2 (Action.work false) ++ [.spurious false] ++
    List.replicate 4 (Action.push () 1 ∅) ++ List.replicate 4 (Action.push () 2 ∅) ++
    List.replicate 6 (Action.work false) ++ List.replicate 5 (Action.work true)

def twoTasksEnd : State Unit Bool Nat × List (Event Bool Nat) :=
  (((system Unit Bool Nat).logged event).run (init Unit Bool Nat, []) twoTasksRun).get (by decide)

theorem every_task_once_two :
    twoTasksEnd.2 = [.pushed 1, .pushed 2, .took false 1, .ran false 1, .took true 2] ∧
      taken twoTasksEnd.2 ++ twoTasksEnd.1.tasks = pushed twoTasksEnd.2 := by
  refine ⟨by decide, ?_⟩
  have hrun : ((system Unit Bool Nat).logged event).Reachable anyStep twoTasksEnd :=
    reachable_of_run _
  exact (every_task_once hrun).2.2.1

end ThreadPool
