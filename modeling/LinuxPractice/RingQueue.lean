import LinuxPractice.Transition
import LinuxPractice.Threads
import LinuxPractice.Ring

/-!
# RingQueue: two semaphores, two mutexes, one ring

`RingQueue.hpp` with any number of threads looping on `Push` and on `Pop`. Each
semaphore and mutex operation, the slot access and the advance of an index are
steps of their own, so every interleaving of them is a run.
-/
namespace RingQueue

open Transition Transition.System Threads

/-- Where a producer stands: the next statement of `Push`, `wait` being `P(pspace_sem)`. -/
inductive PushPc (T : Type) where
  | wait : PushPc T
  | lock : T → PushPc T
  | write : T → PushPc T
  | advance : PushPc T
  | unlock : PushPc T
  | post : PushPc T
  deriving DecidableEq, Repr

/-- Where a consumer stands in `Pop`. -/
inductive PopPc where
  | wait | lock | read | advance | unlock | post
  deriving DecidableEq, Repr

namespace PushPc
variable {T : Type}

/-- Between `P(pspace_sem)` and `V(cdata_sem)`. -/
@[simp] def inFlight : PushPc T → Bool
  | .wait => false
  | _ => true

/-- Between `Lock(p_mutex)` and `Unlock(p_mutex)`. -/
@[simp] def holds : PushPc T → Bool
  | .write _ | .advance | .unlock => true
  | _ => false

/-- A place was taken and `p_step` not advanced yet. -/
@[simp] def early : PushPc T → Bool
  | .lock _ | .write _ | .advance => true
  | _ => false

/-- `p_step` was advanced and the entry not announced yet. -/
@[simp] def late : PushPc T → Bool
  | .unlock | .post => true
  | _ => false

/-- The slot was written and `p_step` not advanced yet. -/
@[simp] def advancing : PushPc T → Bool
  | .advance => true
  | _ => false

/-- In the critical section with `p_step` still naming the thread's own slot. -/
@[simp] def atSlot : PushPc T → Bool
  | .write _ | .advance => true
  | _ => false

/-- The value about to be stored. -/
@[simp] def writing : PushPc T → Option T
  | .write v => some v
  | _ => none

variable {k : PushPc T}

theorem early_of_atSlot (h : k.atSlot = true) : k.early = true := by
  cases k <;> simp at h ⊢

theorem early_of_advancing (h : k.advancing = true) : k.early = true := by
  cases k <;> simp at h ⊢

theorem holds_of_advancing (h : k.advancing = true) : k.holds = true := by
  cases k <;> simp at h ⊢

/-- A thread in flight is on one side of the advance or on the other. -/
theorem inFlight_eq (k : PushPc T) : k.inFlight.toNat = k.early.toNat + k.late.toNat := by
  cases k <;> rfl

end PushPc

namespace PopPc

@[simp] def inFlight : PopPc → Bool
  | .wait => false
  | _ => true

@[simp] def holds : PopPc → Bool
  | .read | .advance | .unlock => true
  | _ => false

@[simp] def early : PopPc → Bool
  | .lock | .read | .advance => true
  | _ => false

@[simp] def late : PopPc → Bool
  | .unlock | .post => true
  | _ => false

@[simp] def advancing : PopPc → Bool
  | .advance => true
  | _ => false

@[simp] def atSlot : PopPc → Bool
  | .read | .advance => true
  | _ => false

/-- About to read the slot. -/
@[simp] def reading : PopPc → Bool
  | .read => true
  | _ => false

variable {k : PopPc}

theorem early_of_atSlot (h : k.atSlot = true) : k.early = true := by
  cases k <;> simp at h ⊢

theorem holds_of_advancing (h : k.advancing = true) : k.holds = true := by
  cases k <;> simp at h ⊢

theorem inFlight_eq (k : PopPc) : k.inFlight.toNat = k.early.toNat + k.late.toNat := by
  cases k <;> rfl

end PopPc

structure State (P C T : Type) where
  ringqueue : List T
  cStep : Nat
  pStep : Nat
  cdataSem : Nat
  pspaceSem : Nat
  cMutex : Option C
  pMutex : Option P
  producer : P → PushPc T
  consumer : C → PopPc

/-- The next step of one thread; a producer that starts a call brings its argument. -/
inductive Action (P C T : Type) where
  | push : P → T → Action P C T
  | pop : C → Action P C T
  deriving DecidableEq, Repr

section Model

variable {P C T : Type} [DecidableEq P] [DecidableEq C]

/-- The constructor; the vector holds `cap` copies of the default value. -/
def init (P C : Type) (cap : Nat) (default : T) : State P C T where
  ringqueue := List.replicate cap default
  cStep := 0
  pStep := 0
  cdataSem := 0
  pspaceSem := cap
  cMutex := none
  pMutex := none
  producer := fun _ => .wait
  consumer := fun _ => .wait

def stepPush (cap : Nat) (s : State P C T) (p : P) (input : T) : Option (State P C T) :=
  match s.producer p with
  | .wait =>
    if 0 < s.pspaceSem then
      some { s with
        pspaceSem := s.pspaceSem - 1
        producer := Function.update s.producer p (.lock input) }
    else none
  | .lock v =>
    match s.pMutex with
    | none => some { s with pMutex := some p, producer := Function.update s.producer p (.write v) }
    | some _ => none
  | .write v =>
    some { s with
      ringqueue := s.ringqueue.set s.pStep v
      producer := Function.update s.producer p .advance }
  | .advance =>
    some { s with
      pStep := (s.pStep + 1) % cap
      producer := Function.update s.producer p .unlock }
  | .unlock => some { s with pMutex := none, producer := Function.update s.producer p .post }
  | .post =>
    some { s with
      cdataSem := s.cdataSem + 1
      producer := Function.update s.producer p .wait }

def stepPop (cap : Nat) (s : State P C T) (c : C) : Option (State P C T) :=
  match s.consumer c with
  | .wait =>
    if 0 < s.cdataSem then
      some { s with
        cdataSem := s.cdataSem - 1
        consumer := Function.update s.consumer c .lock }
    else none
  | .lock =>
    match s.cMutex with
    | none => some { s with cMutex := some c, consumer := Function.update s.consumer c .read }
    | some _ => none
  | .read => some { s with consumer := Function.update s.consumer c .advance }
  | .advance =>
    some { s with
      cStep := (s.cStep + 1) % cap
      consumer := Function.update s.consumer c .unlock }
  | .unlock => some { s with cMutex := none, consumer := Function.update s.consumer c .post }
  | .post =>
    some { s with
      pspaceSem := s.pspaceSem + 1
      consumer := Function.update s.consumer c .wait }

def step (cap : Nat) (s : State P C T) : Action P C T → Option (State P C T)
  | .push p v => stepPush cap s p v
  | .pop c => stepPop cap s c

def system (P C : Type) [DecidableEq P] [DecidableEq C] (cap : Nat) (default : T) :
    System (State P C T) (Action P C T) where
  init := init P C cap default
  step := step cap

/-- What an action does to the slots; `got none` would be a read outside the vector. -/
inductive Event (T : Type) where
  | wrote : T → Event T
  | got : Option T → Event T
  deriving DecidableEq, Repr

/-- The slot access of an action, if it is one. -/
def event (s : State P C T) : Action P C T → Option (Event T)
  | .push p _ => (s.producer p).writing.map .wrote
  | .pop c => if (s.consumer c).reading then some (.got s.ringqueue[s.cStep]?) else none

end Model

/-- The values written, in the order of the writes. -/
def wrotes {T : Type} (log : List (Event T)) : List T :=
  log.filterMap fun | .wrote v => some v | .got _ => none

/-- What the slot reads returned, in their order. -/
def gots {T : Type} (log : List (Event T)) : List (Option T) :=
  log.filterMap fun | .wrote _ => none | .got v => some v

section Log
variable {T : Type} (log : List (Event T)) (v : T) (w : Option T)

@[simp] theorem wrotes_wrote : wrotes (log ++ [.wrote v]) = wrotes log ++ [v] := by simp [wrotes]
@[simp] theorem wrotes_got : wrotes (log ++ [.got w]) = wrotes log := by simp [wrotes]
@[simp] theorem gots_wrote : gots (log ++ [.wrote v]) = gots log := by simp [gots]
@[simp] theorem gots_got : gots (log ++ [.got w]) = gots log ++ [w] := by simp [gots]

end Log

end RingQueue
