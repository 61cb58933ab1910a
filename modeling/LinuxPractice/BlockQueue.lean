import LinuxPractice.Transition
import LinuxPractice.Threads

/-!
# BlockQueue: one mutex, two condition variables, two water marks

`BlockQueue.hpp` with any number of threads looping on `push` and on `pop`.
`pthread_cond_wait` gives up the mutex and falls asleep in one step, and takes
the mutex back in a later one; between the two a signal or a spurious wake-up
must have come, and any other thread may run.
-/
namespace BlockQueue

open Transition Threads

/-- The integers the constructor fixes. -/
structure Config where
  maxcap : Nat
  lowWater : Nat
  highWater : Nat
  deriving DecidableEq, Repr

/-- The constructor; `_maxcap*2` has no value when it leaves `int`. -/
def construct (maxcap : Nat) : Option Config :=
  if maxcap * 2 ≤ 2147483647 then some ⟨maxcap, maxcap / 3, maxcap * 2 / 3⟩ else none

/-- Where a producer stands in `push`. `woken` is inside `pthread_cond_wait`, waiting for
the mutex. -/
inductive PushPc (T : Type) where
  | idle : PushPc T
  | check : T → PushPc T
  | waiting : T → PushPc T
  | woken : T → PushPc T
  | enqueue : T → PushPc T
  | signal : PushPc T
  | unlock : PushPc T
  deriving DecidableEq, Repr

/-- Where a consumer stands in `pop`; `drop` is the call of `_q.pop()`. -/
inductive PopPc (T : Type) where
  | idle : PopPc T
  | check : PopPc T
  | waiting : PopPc T
  | woken : PopPc T
  | front : PopPc T
  | drop : T → PopPc T
  | signal : T → PopPc T
  | unlock : T → PopPc T
  deriving DecidableEq, Repr

namespace PushPc
variable {T : Type}

/-- Holding `_mutex`. -/
@[simp] def holds : PushPc T → Bool
  | .check _ | .enqueue _ | .signal | .unlock => true
  | _ => false

/-- Asleep on `p_cond` and not signalled. -/
@[simp] def asleep : PushPc T → Bool
  | .waiting _ => true
  | _ => false

@[simp] def signals : PushPc T → Bool
  | .signal => true
  | _ => false

@[simp] def enqueues : PushPc T → Bool
  | .enqueue _ => true
  | _ => false

@[simp] def wake : PushPc T → PushPc T
  | .waiting v => .woken v
  | k => k

variable {k : PushPc T}

theorem holds_wake (k : PushPc T) : k.wake.holds = k.holds := by cases k <;> rfl

theorem asleep_wake (k : PushPc T) : k.wake.asleep = false := by cases k <;> rfl

theorem enqueues_wake (k : PushPc T) : k.wake.enqueues = k.enqueues := by cases k <;> rfl

theorem holds_of_enqueues (h : k.enqueues = true) : k.holds = true := by
  cases k <;> simp at h ⊢

theorem not_signals_of_asleep (h : k.asleep = true) : k.signals = false := by
  cases k <;> simp at h ⊢

end PushPc

namespace PopPc
variable {T : Type}

/-- Holding `_mutex`. -/
@[simp] def holds : PopPc T → Bool
  | .check | .front | .drop _ | .signal _ | .unlock _ => true
  | _ => false

/-- Asleep on `c_cond` and not signalled. -/
@[simp] def asleep : PopPc T → Bool
  | .waiting => true
  | _ => false

/-- At `_q.front()` or `_q.pop()`. -/
@[simp] def takes : PopPc T → Bool
  | .front | .drop _ => true
  | _ => false

@[simp] def signals : PopPc T → Bool
  | .signal _ => true
  | _ => false

@[simp] def wake : PopPc T → PopPc T
  | .waiting => .woken
  | k => k

variable {k : PopPc T}

theorem holds_wake (k : PopPc T) : k.wake.holds = k.holds := by cases k <;> rfl

theorem asleep_wake (k : PopPc T) : k.wake.asleep = false := by cases k <;> rfl

theorem takes_wake (k : PopPc T) : k.wake.takes = k.takes := by cases k <;> rfl

theorem holds_of_takes (h : k.takes = true) : k.holds = true := by
  cases k <;> simp at h ⊢

theorem not_asleep_of_takes (h : k.takes = true) : k.asleep = false := by
  cases k <;> simp at h ⊢

theorem not_signals_of_asleep (h : k.asleep = true) : k.signals = false := by
  cases k <;> simp at h ⊢

end PopPc

/-- `undefined` is set when `front()` or `pop()` meets an empty queue; the run then has no
further steps. -/
structure State (P C T : Type) where
  q : List T
  mutex : Option (P ⊕ C)
  producer : P → PushPc T
  consumer : C → PopPc T
  undefined : Bool

/-- A step of one thread. A producer that starts a call brings its argument; a thread at its
signal brings the sleepers that the signal wakes. -/
inductive Action (P C T : Type) where
  | push : P → T → Finset C → Action P C T
  | pop : C → Finset P → Action P C T
  | spuriousPush : P → Action P C T
  | spuriousPop : C → Action P C T

namespace Action
variable {P C T : Type}

/-- Not a spurious wake-up. -/
@[simp] def regular : Action P C T → Bool
  | .push .. | .pop .. => true
  | .spuriousPush _ | .spuriousPop _ => false

end Action

/-- No step is a spurious wake-up. -/
def regularStep {P C T : Type} : State P C T → Action P C T → Prop := fun _ a => a.regular = true

section Model

variable {P C T : Type} [Fintype P] [DecidableEq P] [Fintype C] [DecidableEq C]

def init (P C T : Type) : State P C T where
  q := []
  mutex := none
  producer := fun _ => .idle
  consumer := fun _ => .idle
  undefined := false

def stepPush (cfg : Config) (s : State P C T) (p : P) (input : T) (w : Finset C) :
    Option (State P C T) :=
  match s.producer p with
  | .idle =>
    match s.mutex with
    | none =>
      some { s with
        mutex := some (.inl p)
        producer := Function.update s.producer p (.check input) }
    | some _ => none
  | .check v =>
    if s.q.length = cfg.maxcap then
      some { s with mutex := none, producer := Function.update s.producer p (.waiting v) }
    else some { s with producer := Function.update s.producer p (.enqueue v) }
  | .waiting _ => none
  | .woken v =>
    match s.mutex with
    | none =>
      -- back to the condition of the `while`
      some { s with
        mutex := some (.inl p)
        producer := Function.update s.producer p (.check v) }
    | some _ => none
  | .enqueue v =>
    some { s with q := s.q ++ [v], producer := Function.update s.producer p .signal }
  | .signal =>
    if cfg.highWater < s.q.length then
      if Wakes (fun c => (s.consumer c).asleep) w then
        some { s with
          producer := Function.update s.producer p .unlock
          consumer := wakeAll PopPc.wake w s.consumer }
      else none
    else some { s with producer := Function.update s.producer p .unlock }
  | .unlock => some { s with mutex := none, producer := Function.update s.producer p .idle }

def stepPop (cfg : Config) (s : State P C T) (c : C) (w : Finset P) : Option (State P C T) :=
  match s.consumer c with
  | .idle =>
    match s.mutex with
    | none =>
      some { s with mutex := some (.inr c), consumer := Function.update s.consumer c .check }
    | some _ => none
  | .check =>
    if s.q.length = 0 then
      some { s with mutex := none, consumer := Function.update s.consumer c .waiting }
    else some { s with consumer := Function.update s.consumer c .front }
  | .waiting => none
  | .woken =>
    match s.mutex with
    | none =>
      -- the condition of the `if` is not looked at again
      some { s with mutex := some (.inr c), consumer := Function.update s.consumer c .front }
    | some _ => none
  | .front =>
    match s.q with
    | [] => some { s with undefined := true }
    | out :: _ => some { s with consumer := Function.update s.consumer c (.drop out) }
  | .drop out =>
    match s.q with
    | [] => some { s with undefined := true }
    | _ :: rest =>
      some { s with q := rest, consumer := Function.update s.consumer c (.signal out) }
  | .signal out =>
    if s.q.length < cfg.lowWater then
      if Wakes (fun p => (s.producer p).asleep) w then
        some { s with
          producer := wakeAll PushPc.wake w s.producer
          consumer := Function.update s.consumer c (.unlock out) }
      else none
    else some { s with consumer := Function.update s.consumer c (.unlock out) }
  | .unlock _ => some { s with mutex := none, consumer := Function.update s.consumer c .idle }

def step (cfg : Config) (s : State P C T) (a : Action P C T) : Option (State P C T) :=
  if s.undefined then none
  else match a with
    | .push p input w => stepPush cfg s p input w
    | .pop c w => stepPop cfg s c w
    | .spuriousPush p =>
      if (s.producer p).asleep then
        some { s with producer := Function.update s.producer p (s.producer p).wake }
      else none
    | .spuriousPop c =>
      if (s.consumer c).asleep then
        some { s with consumer := Function.update s.consumer c (s.consumer c).wake }
      else none

def system (P C T : Type) [Fintype P] [DecidableEq P] [Fintype C] [DecidableEq C] (cfg : Config) :
    System (State P C T) (Action P C T) where
  init := init P C T
  step := step cfg

/-- The steps of `push`. -/
inductive PushStep (cfg : Config) (s : State P C T) (p : P) : State P C T → Prop
  | lock (v : T) (hpc : s.producer p = .idle) (hfree : s.mutex = none) :
      PushStep cfg s p { s with
        mutex := some (.inl p), producer := Function.update s.producer p (.check v) }
  | sleep (v : T) (hpc : s.producer p = .check v) (hfull : s.q.length = cfg.maxcap) :
      PushStep cfg s p { s with
        mutex := none, producer := Function.update s.producer p (.waiting v) }
  | pass (v : T) (hpc : s.producer p = .check v) (hroom : s.q.length ≠ cfg.maxcap) :
      PushStep cfg s p { s with producer := Function.update s.producer p (.enqueue v) }
  | relock (v : T) (hpc : s.producer p = .woken v) (hfree : s.mutex = none) :
      PushStep cfg s p { s with
        mutex := some (.inl p), producer := Function.update s.producer p (.check v) }
  | enqueue (v : T) (hpc : s.producer p = .enqueue v) :
      PushStep cfg s p { s with
        q := s.q ++ [v], producer := Function.update s.producer p .signal }
  | wake (w : Finset C) (hpc : s.producer p = .signal) (hhigh : cfg.highWater < s.q.length)
      (hw : Wakes (fun c => (s.consumer c).asleep) w) :
      PushStep cfg s p { s with
        producer := Function.update s.producer p .unlock
        consumer := wakeAll PopPc.wake w s.consumer }
  | quiet (hpc : s.producer p = .signal) (hhigh : ¬ cfg.highWater < s.q.length) :
      PushStep cfg s p { s with producer := Function.update s.producer p .unlock }
  | unlock (hpc : s.producer p = .unlock) :
      PushStep cfg s p { s with mutex := none, producer := Function.update s.producer p .idle }

/-- The steps of `pop`. -/
inductive PopStep (cfg : Config) (s : State P C T) (c : C) : State P C T → Prop
  | lock (hpc : s.consumer c = .idle) (hfree : s.mutex = none) :
      PopStep cfg s c { s with
        mutex := some (.inr c), consumer := Function.update s.consumer c .check }
  | sleep (hpc : s.consumer c = .check) (hempty : s.q = []) :
      PopStep cfg s c { s with
        mutex := none, consumer := Function.update s.consumer c .waiting }
  | pass (hpc : s.consumer c = .check) (hitem : s.q ≠ []) :
      PopStep cfg s c { s with consumer := Function.update s.consumer c .front }
  | relock (hpc : s.consumer c = .woken) (hfree : s.mutex = none) :
      PopStep cfg s c { s with
        mutex := some (.inr c), consumer := Function.update s.consumer c .front }
  | front (out : T) (rest : List T) (hpc : s.consumer c = .front) (hq : s.q = out :: rest) :
      PopStep cfg s c { s with consumer := Function.update s.consumer c (.drop out) }
  | drop (out first : T) (rest : List T) (hpc : s.consumer c = .drop out)
      (hq : s.q = first :: rest) :
      PopStep cfg s c { s with
        q := rest, consumer := Function.update s.consumer c (.signal out) }
  | undefine (hpc : (s.consumer c).takes = true) (hq : s.q = []) :
      PopStep cfg s c { s with undefined := true }
  | wake (out : T) (w : Finset P) (hpc : s.consumer c = .signal out)
      (hlow : s.q.length < cfg.lowWater) (hw : Wakes (fun p => (s.producer p).asleep) w) :
      PopStep cfg s c { s with
        producer := wakeAll PushPc.wake w s.producer
        consumer := Function.update s.consumer c (.unlock out) }
  | quiet (out : T) (hpc : s.consumer c = .signal out) (hlow : ¬ s.q.length < cfg.lowWater) :
      PopStep cfg s c { s with consumer := Function.update s.consumer c (.unlock out) }
  | unlock (out : T) (hpc : s.consumer c = .unlock out) :
      PopStep cfg s c { s with mutex := none, consumer := Function.update s.consumer c .idle }

variable {cfg : Config} {s t : State P C T}

omit [Fintype P] in
theorem stepPush_cases {p : P} {input : T} {w : Finset C}
    (h : stepPush cfg s p input w = some t) : PushStep cfg s p t := by
  unfold stepPush at h
  cases hpc : s.producer p with
  | idle =>
    simp only [hpc] at h
    split at h <;> cases h
    exact .lock input hpc ‹_›
  | check v =>
    simp only [hpc] at h
    split at h <;> cases h
    · exact .sleep v hpc ‹_›
    · exact .pass v hpc ‹_›
  | waiting v =>
    simp only [hpc] at h
    cases h
  | woken v =>
    simp only [hpc] at h
    split at h <;> cases h
    exact .relock v hpc ‹_›
  | enqueue v =>
    simp only [hpc] at h
    cases h
    exact .enqueue v hpc
  | signal =>
    simp only [hpc] at h
    split at h
    · split at h <;> cases h
      exact .wake w hpc ‹_› ‹_›
    · cases h
      exact .quiet hpc ‹_›
  | unlock =>
    simp only [hpc] at h
    cases h
    exact .unlock hpc

omit [Fintype C] in
theorem stepPop_cases {c : C} {w : Finset P} (h : stepPop cfg s c w = some t) :
    PopStep cfg s c t := by
  unfold stepPop at h
  cases hpc : s.consumer c with
  | idle =>
    simp only [hpc] at h
    split at h <;> cases h
    exact .lock hpc ‹_›
  | check =>
    simp only [hpc, List.length_eq_zero_iff] at h
    split at h <;> cases h
    · exact .sleep hpc ‹_›
    · exact .pass hpc ‹_›
  | waiting =>
    simp only [hpc] at h
    cases h
  | woken =>
    simp only [hpc] at h
    split at h <;> cases h
    exact .relock hpc ‹_›
  | front =>
    simp only [hpc] at h
    split at h <;> cases h
    · exact .undefine (by simp [hpc]) ‹_›
    · exact .front _ _ hpc ‹_›
  | drop out =>
    simp only [hpc] at h
    split at h <;> cases h
    · exact .undefine (by simp [hpc]) ‹_›
    · exact .drop out _ _ hpc ‹_›
  | signal out =>
    simp only [hpc] at h
    split at h
    · split at h <;> cases h
      exact .wake out w hpc ‹_› ‹_›
    · cases h
      exact .quiet out hpc ‹_›
  | unlock out =>
    simp only [hpc] at h
    cases h
    exact .unlock out hpc

/-- A step is one of `push`, one of `pop`, or a spurious wake-up. -/
theorem step_cases {a : Action P C T} (h : step cfg s a = some t) :
    (∃ p input w, a = .push p input w ∧ PushStep cfg s p t) ∨
    (∃ c w, a = .pop c w ∧ PopStep cfg s c t) ∨
    (∃ p, a = .spuriousPush p ∧
      t = { s with producer := Function.update s.producer p (s.producer p).wake }) ∨
    (∃ c, a = .spuriousPop c ∧
      t = { s with consumer := Function.update s.consumer c (s.consumer c).wake }) := by
  unfold step at h
  split at h
  · cases h
  · cases a with
    | push p input w => exact .inl ⟨p, input, w, rfl, stepPush_cases h⟩
    | pop c w => exact .inr (.inl ⟨c, w, rfl, stepPop_cases h⟩)
    | spuriousPush p =>
      simp only at h
      split at h <;> cases h
      exact .inr (.inr (.inl ⟨p, rfl, rfl⟩))
    | spuriousPop c =>
      simp only at h
      split at h <;> cases h
      exact .inr (.inr (.inr ⟨c, rfl, rfl⟩))

end Model

end BlockQueue
