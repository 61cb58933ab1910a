import LinuxPractice.Transition
import LinuxPractice.Threads

/-!
# ThreadPool: workers that sleep on one condition variable

`ThreadPool.hpp` with any number of threads calling `Push` and any number of
workers in `HandlerTask`. `Sleep` gives up the mutex and falls asleep in one
step; the return from it is a later step that takes the mutex back. A task runs
after `Unlock`.
-/
namespace ThreadPool

open Transition Threads

/-- Where a thread stands in `Push`. -/
inductive PushPc (T : Type) where
  | idle : PushPc T
  | push : T → PushPc T
  | wakeUp : PushPc T
  | unlock : PushPc T
  deriving DecidableEq, Repr

/-- Where a worker stands in `HandlerTask`; `check` is the condition of the `while`. -/
inductive WorkPc (T : Type) where
  | lock : WorkPc T
  | check : WorkPc T
  | waiting : WorkPc T
  | woken : WorkPc T
  | front : WorkPc T
  | pop : T → WorkPc T
  | unlock : T → WorkPc T
  | run : T → WorkPc T
  deriving DecidableEq, Repr

namespace PushPc
variable {T : Type}

/-- Holding `mutex_`. -/
@[simp] def holds : PushPc T → Bool
  | .push _ | .wakeUp | .unlock => true
  | .idle => false

/-- Between `tasks_.push` and `WakeUp`. -/
@[simp] def announces : PushPc T → Bool
  | .wakeUp => true
  | _ => false

theorem holds_of_announces {k : PushPc T} (h : k.announces = true) : k.holds = true := by
  cases k <;> simp at h ⊢

end PushPc

namespace WorkPc
variable {T : Type}

/-- Holding `mutex_`. -/
@[simp] def holds : WorkPc T → Bool
  | .check | .front | .pop _ | .unlock _ => true
  | _ => false

/-- Asleep on `cond_` and not signalled. -/
@[simp] def asleep : WorkPc T → Bool
  | .waiting => true
  | _ => false

/-- At `tasks_.front()` or `tasks_.pop()`. -/
@[simp] def takes : WorkPc T → Bool
  | .front | .pop _ => true
  | _ => false

/-- The copy of the front made for the `pop` to come. -/
@[simp] def copied : WorkPc T → Option T
  | .pop t => some t
  | _ => none

/-- Taken from the queue and not run yet. -/
@[simp] def pending : WorkPc T → List T
  | .unlock t | .run t => [t]
  | _ => []

@[simp] def wake : WorkPc T → WorkPc T
  | .waiting => .woken
  | k => k

variable {k : WorkPc T}

theorem holds_wake (k : WorkPc T) : k.wake.holds = k.holds := by cases k <;> rfl

theorem asleep_wake (k : WorkPc T) : k.wake.asleep = false := by cases k <;> rfl

theorem takes_wake (k : WorkPc T) : k.wake.takes = k.takes := by cases k <;> rfl

theorem copied_wake (k : WorkPc T) : k.wake.copied = k.copied := by cases k <;> rfl

theorem pending_wake (k : WorkPc T) : k.wake.pending = k.pending := by cases k <;> rfl

theorem holds_of_takes (h : k.takes = true) : k.holds = true := by
  cases k <;> simp at h ⊢

theorem takes_of_copied {t : T} (h : k.copied = some t) : k.takes = true := by
  cases k <;> simp at h ⊢

end WorkPc

/-- `undefined` is set when `front()` or `pop()` meets an empty queue; the run then has no
further steps. -/
structure State (P W T : Type) where
  tasks : List T
  mutex : Option (P ⊕ W)
  pusher : P → PushPc T
  worker : W → WorkPc T
  undefined : Bool

/-- A step of one thread. A thread that starts a `Push` brings the task; one at its `WakeUp`
brings the workers that the signal wakes. -/
inductive Action (P W T : Type) where
  | push : P → T → Finset W → Action P W T
  | work : W → Action P W T
  | spurious : W → Action P W T

/-- `pushed` and `took` are the changes of `tasks_`, `ran` is the call of a task. -/
inductive Event (W T : Type) where
  | pushed : T → Event W T
  | took : W → T → Event W T
  | ran : W → T → Event W T
  deriving DecidableEq, Repr

section Model

variable {P W T : Type} [DecidableEq P] [Fintype W] [DecidableEq W]

def init (P W T : Type) : State P W T where
  tasks := []
  mutex := none
  pusher := fun _ => .idle
  worker := fun _ => .lock
  undefined := false

def stepPush (s : State P W T) (p : P) (input : T) (w : Finset W) : Option (State P W T) :=
  match s.pusher p with
  | .idle =>
    match s.mutex with
    | none =>
      some { s with
        mutex := some (.inl p)
        pusher := Function.update s.pusher p (.push input) }
    | some _ => none
  | .push t =>
    some { s with tasks := s.tasks ++ [t], pusher := Function.update s.pusher p .wakeUp }
  | .wakeUp =>
    if Wakes (fun c => (s.worker c).asleep) w then
      some { s with
        pusher := Function.update s.pusher p .unlock
        worker := wakeAll WorkPc.wake w s.worker }
    else none
  | .unlock => some { s with mutex := none, pusher := Function.update s.pusher p .idle }

def stepWork (s : State P W T) (c : W) : Option (State P W T) :=
  match s.worker c with
  | .lock =>
    match s.mutex with
    | none => some { s with mutex := some (.inr c), worker := Function.update s.worker c .check }
    | some _ => none
  | .check =>
    if s.tasks.isEmpty then
      some { s with mutex := none, worker := Function.update s.worker c .waiting }
    else some { s with worker := Function.update s.worker c .front }
  | .waiting => none
  | .woken =>
    match s.mutex with
    | none => some { s with mutex := some (.inr c), worker := Function.update s.worker c .check }
    | some _ => none
  | .front =>
    match s.tasks with
    | [] => some { s with undefined := true }
    | t :: _ => some { s with worker := Function.update s.worker c (.pop t) }
  | .pop t =>
    match s.tasks with
    | [] => some { s with undefined := true }
    | _ :: rest =>
      some { s with tasks := rest, worker := Function.update s.worker c (.unlock t) }
  | .unlock t => some { s with mutex := none, worker := Function.update s.worker c (.run t) }
  | .run _ => some { s with worker := Function.update s.worker c .lock }

def step (s : State P W T) (a : Action P W T) : Option (State P W T) :=
  if s.undefined then none
  else match a with
    | .push p input w => stepPush s p input w
    | .work c => stepWork s c
    | .spurious c =>
      if (s.worker c).asleep then
        some { s with worker := Function.update s.worker c (s.worker c).wake }
      else none

def system (P W T : Type) [DecidableEq P] [Fintype W] [DecidableEq W] :
    System (State P W T) (Action P W T) where
  init := init P W T
  step := step

def event (s : State P W T) : Action P W T → Option (Event W T)
  | .push p _ _ =>
    match s.pusher p with
    | .push t => some (.pushed t)
    | _ => none
  | .work c =>
    match s.worker c with
    | .pop t => some (.took c t)
    | .run t => some (.ran c t)
    | _ => none
  | .spurious _ => none

/-- The steps of `Push`. -/
inductive PushStep (s : State P W T) (p : P) : State P W T → Prop
  | lock (v : T) (hpc : s.pusher p = .idle) (hfree : s.mutex = none) :
      PushStep s p { s with
        mutex := some (.inl p), pusher := Function.update s.pusher p (.push v) }
  | push (v : T) (hpc : s.pusher p = .push v) :
      PushStep s p { s with
        tasks := s.tasks ++ [v], pusher := Function.update s.pusher p .wakeUp }
  | wakeUp (w : Finset W) (hpc : s.pusher p = .wakeUp)
      (hw : Wakes (fun c => (s.worker c).asleep) w) :
      PushStep s p { s with
        pusher := Function.update s.pusher p .unlock
        worker := wakeAll WorkPc.wake w s.worker }
  | unlock (hpc : s.pusher p = .unlock) :
      PushStep s p { s with mutex := none, pusher := Function.update s.pusher p .idle }

/-- The steps of `HandlerTask`. -/
inductive WorkStep (s : State P W T) (c : W) : State P W T → Prop
  | lock (hpc : s.worker c = .lock ∨ s.worker c = .woken) (hfree : s.mutex = none) :
      WorkStep s c { s with
        mutex := some (.inr c), worker := Function.update s.worker c .check }
  | sleep (hpc : s.worker c = .check) (hempty : s.tasks = []) :
      WorkStep s c { s with mutex := none, worker := Function.update s.worker c .waiting }
  | pass (hpc : s.worker c = .check) (htask : s.tasks ≠ []) :
      WorkStep s c { s with worker := Function.update s.worker c .front }
  | front (t : T) (rest : List T) (hpc : s.worker c = .front) (hq : s.tasks = t :: rest) :
      WorkStep s c { s with worker := Function.update s.worker c (.pop t) }
  | pop (t first : T) (rest : List T) (hpc : s.worker c = .pop t) (hq : s.tasks = first :: rest) :
      WorkStep s c { s with
        tasks := rest, worker := Function.update s.worker c (.unlock t) }
  | undefine (hpc : (s.worker c).takes = true) (hq : s.tasks = []) :
      WorkStep s c { s with undefined := true }
  | unlock (t : T) (hpc : s.worker c = .unlock t) :
      WorkStep s c { s with mutex := none, worker := Function.update s.worker c (.run t) }
  | run (t : T) (hpc : s.worker c = .run t) :
      WorkStep s c { s with worker := Function.update s.worker c .lock }

variable {s t : State P W T}

theorem stepPush_cases {p : P} {input : T} {w : Finset W} (h : stepPush s p input w = some t) :
    PushStep s p t := by
  unfold stepPush at h
  cases hpc : s.pusher p with
  | idle =>
    simp only [hpc] at h
    split at h <;> cases h
    exact .lock input hpc ‹_›
  | push v =>
    simp only [hpc] at h
    cases h
    exact .push v hpc
  | wakeUp =>
    simp only [hpc] at h
    split at h <;> cases h
    exact .wakeUp w hpc ‹_›
  | unlock =>
    simp only [hpc] at h
    cases h
    exact .unlock hpc

omit [DecidableEq P] [Fintype W] in
theorem stepWork_cases {c : W} (h : stepWork s c = some t) : WorkStep s c t := by
  unfold stepWork at h
  cases hpc : s.worker c with
  | lock =>
    simp only [hpc] at h
    split at h <;> cases h
    exact .lock (.inl hpc) ‹_›
  | check =>
    simp only [hpc, List.isEmpty_iff] at h
    split at h <;> cases h
    · exact .sleep hpc ‹_›
    · exact .pass hpc ‹_›
  | waiting =>
    simp only [hpc] at h
    cases h
  | woken =>
    simp only [hpc] at h
    split at h <;> cases h
    exact .lock (.inr hpc) ‹_›
  | front =>
    simp only [hpc] at h
    split at h <;> cases h
    · exact .undefine (by simp [hpc]) ‹_›
    · exact .front _ _ hpc ‹_›
  | pop v =>
    simp only [hpc] at h
    split at h <;> cases h
    · exact .undefine (by simp [hpc]) ‹_›
    · exact .pop v _ _ hpc ‹_›
  | unlock v =>
    simp only [hpc] at h
    cases h
    exact .unlock v hpc
  | run v =>
    simp only [hpc] at h
    cases h
    exact .run v hpc

/-- A step is one of `Push`, one of `HandlerTask`, or a spurious wake-up. -/
theorem step_cases {a : Action P W T} (h : step s a = some t) :
    (∃ p input w, a = .push p input w ∧ PushStep s p t) ∨
    (∃ c, a = .work c ∧ WorkStep s c t) ∨
    (∃ c, a = .spurious c ∧
      t = { s with worker := Function.update s.worker c (s.worker c).wake }) := by
  unfold step at h
  split at h
  · cases h
  · cases a with
    | push p input w => exact .inl ⟨p, input, w, rfl, stepPush_cases h⟩
    | work c => exact .inr (.inl ⟨c, rfl, stepWork_cases h⟩)
    | spurious c =>
      simp only at h
      split at h <;> cases h
      exact .inr (.inr ⟨c, rfl, rfl⟩)

end Model

section Log

variable {W T : Type} (log : List (Event W T)) (c d : W) (v : T)

def pushed : List T := log.filterMap fun | .pushed t => some t | _ => none

def taken : List T := log.filterMap fun | .took _ t => some t | _ => none

@[simp] theorem pushed_pushed : pushed (log ++ [Event.pushed v]) = pushed log ++ [v] := by
  simp [pushed]

@[simp] theorem pushed_took : pushed (log ++ [Event.took c v]) = pushed log := by simp [pushed]

@[simp] theorem pushed_ran : pushed (log ++ [Event.ran c v]) = pushed log := by simp [pushed]

@[simp] theorem taken_pushed : taken (log ++ [Event.pushed v]) = taken log := by simp [taken]

@[simp] theorem taken_took : taken (log ++ [Event.took c v]) = taken log ++ [v] := by simp [taken]

@[simp] theorem taken_ran : taken (log ++ [Event.ran c v]) = taken log := by simp [taken]

variable [DecidableEq W]

def takenBy : List T :=
  log.filterMap fun | .took d t => if d = c then some t else none | _ => none

def ranBy : List T :=
  log.filterMap fun | .ran d t => if d = c then some t else none | _ => none

@[simp] theorem takenBy_pushed : takenBy (log ++ [Event.pushed v]) c = takenBy log c := by
  simp [takenBy]

@[simp] theorem takenBy_took :
    takenBy (log ++ [Event.took d v]) c = takenBy log c ++ if d = c then [v] else [] := by
  by_cases h : d = c <;> simp [takenBy, h]

@[simp] theorem takenBy_ran : takenBy (log ++ [Event.ran d v]) c = takenBy log c := by
  simp [takenBy]

@[simp] theorem ranBy_pushed : ranBy (log ++ [Event.pushed v]) c = ranBy log c := by
  simp [ranBy]

@[simp] theorem ranBy_took : ranBy (log ++ [Event.took d v]) c = ranBy log c := by
  simp [ranBy]

@[simp] theorem ranBy_ran :
    ranBy (log ++ [Event.ran d v]) c = ranBy log c ++ if d = c then [v] else [] := by
  by_cases h : d = c <;> simp [ranBy, h]

end Log

end ThreadPool
