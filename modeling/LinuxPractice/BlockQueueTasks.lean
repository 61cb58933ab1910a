import LinuxPractice.BlockQueueOrder
import LinuxPractice.PthreadTask

/-!
# The producers and consumers of BlockQueue

`Productor` and `Consumer` of `blockQueue/main.cc`, any number of each. Between
two calls a producer announces the task it has pushed, and a consumer runs the
task it has popped and prints it. Which text of two threads comes first on the
terminal is open; each thread's own texts are in order.
-/
namespace BlockQueueTasks

open CppString NetServer PthreadTask Transition Transition.System

/-- Where a producer stands outside `push`. -/
inductive ProductorPc where
  | draw : ProductorPc
  | push : DrawnTask → ProductorPc
  | print : DrawnTask → ProductorPc
  deriving DecidableEq

/-- Where a consumer stands outside `pop`; what it prints has been run. -/
inductive ConsumerPc where
  | pop : ConsumerPc
  | run : DrawnTask → ConsumerPc
  | print : Task → ConsumerPc
  deriving DecidableEq

structure State (P C : Type) where
  bq : BlockQueue.State P C DrawnTask
  productor : P → ProductorPc
  consumer : C → ConsumerPc
  died : Bool

/-- A step of a thread, with the values of `rand()` and the sleepers that it may need; or a return
from a wait for no reason. -/
inductive Action (P C : Type) where
  | productor : P → Nat × Nat × Nat → Finset C → Action P C
  | consumer : C → Finset P → Action P C
  | spuriousPush : P → Action P C
  | spuriousPop : C → Action P C

/-- What a consumer writes: `GetTask` and `GetResult` of the task it has run. -/
def printout (t : Task) : Bytes × Bytes := (t.getTask, t.getResult)

/-- What a producer writes. -/
def announcement (t : DrawnTask) : Bytes := t.1.getTask

/-- What a consumer is to write about a task. -/
def answer (t : DrawnTask) : Bytes × Bytes := printout t.1.answered

section Model

variable {P C : Type} [Fintype P] [DecidableEq P] [Fintype C] [DecidableEq C]

def init (P C : Type) : State P C where
  bq := BlockQueue.init P C DrawnTask
  productor := fun _ => .draw
  consumer := fun _ => .pop
  died := false

def stepProductor (cfg : BlockQueue.Config) (s : State P C) (p : P) (r : Nat × Nat × Nat)
    (w : Finset C) : Option (State P C) :=
  match s.productor p with
  | .draw =>
    some { s with productor := Function.update s.productor p (.push (draw r.1 r.2.1 r.2.2)) }
  | .push t =>
    (BlockQueue.step cfg s.bq (.push p t w)).map fun bq =>
      { s with
        bq := bq
        productor := match s.bq.producer p with
          | .unlock => Function.update s.productor p (.print t)
          | _ => s.productor }
  | .print _ => some { s with productor := Function.update s.productor p .draw }

def stepConsumer (undef : Undefined) (cfg : BlockQueue.Config) (s : State P C) (c : C)
    (w : Finset P) : Option (State P C) :=
  match s.consumer c with
  | .pop =>
    (BlockQueue.step cfg s.bq (.pop c w)).map fun bq =>
      { s with
        bq := bq
        consumer := match s.bq.consumer c with
          | .unlock out => Function.update s.consumer c (.run out)
          | _ => s.consumer }
  | .run t =>
    match t.1.run undef with
    | .ok t => some { s with consumer := Function.update s.consumer c (.print t) }
    | .error _ => some { s with died := true }
  | .print _ => some { s with consumer := Function.update s.consumer c .pop }

def step (undef : Undefined) (cfg : BlockQueue.Config) (s : State P C) (a : Action P C) :
    Option (State P C) :=
  if s.died || s.bq.undefined then none
  else match a with
    | .productor p r w => stepProductor cfg s p r w
    | .consumer c w => stepConsumer undef cfg s c w
    | .spuriousPush p =>
      (BlockQueue.step cfg s.bq (.spuriousPush p)).map fun bq => { s with bq := bq }
    | .spuriousPop c =>
      (BlockQueue.step cfg s.bq (.spuriousPop c)).map fun bq => { s with bq := bq }

def system (P C : Type) [Fintype P] [DecidableEq P] [Fintype C] [DecidableEq C] (undef : Undefined)
    (cfg : BlockQueue.Config) : System (State P C) (Action P C) where
  init := init P C
  step := step undef cfg

inductive Event (P C : Type) where
  | pushed : P → DrawnTask → Event P C
  | announced : P → Bytes → Event P C
  | popped : C → DrawnTask → Event P C
  | printed : C → Bytes × Bytes → Event P C
  deriving DecidableEq

/-- What a step does to the queue or writes. -/
def event (s : State P C) : Action P C → Option (Event P C)
  | .productor p _ _ =>
    match s.productor p with
    | .draw => none
    | .push _ =>
      match s.bq.producer p with
      | .enqueue v => some (.pushed p v)
      | _ => none
    | .print t => some (.announced p (announcement t))
  | .consumer c _ =>
    match s.consumer c with
    | .pop =>
      match s.bq.consumer c, s.bq.q with
      | .drop out, _ :: _ => some (.popped c out)
      | _, _ => none
    | .run _ => none
    | .print t => some (.printed c (printout t))
  | .spuriousPush _ | .spuriousPop _ => none

end Model

/-- The task a producer is about to enqueue. -/
def value {T : Type} : BlockQueue.PushPc T → Option T
  | .check v | .waiting v | .woken v | .enqueue v => some v
  | _ => none

/-- The task a step of `push` enqueues. -/
def enqueued {T : Type} : BlockQueue.PushPc T → Option T
  | .enqueue v => some v
  | _ => none

/-- The task a step of `pop` removes. -/
def dropped {T : Type} : BlockQueue.PopPc T → List T → Option T
  | .drop out, _ :: _ => some out
  | _, _ => none

/-- Inside `push` a producer has its own task, and elsewhere it is not in `push`. -/
def ProductorPc.Fits : ProductorPc → BlockQueue.PushPc DrawnTask → Prop
  | .push t, k => ∀ v, value k = some v → v = t
  | .draw, k | .print _, k => k = .idle

def ConsumerPc.Fits : ConsumerPc → BlockQueue.PopPc DrawnTask → Prop
  | .pop, _ => True
  | .run _, k | .print _, k => k = .idle

/-- The announcement of a task that is in the queue already. -/
def ProductorPc.due : ProductorPc → BlockQueue.PushPc DrawnTask → List Bytes
  | .push t, .signal | .push t, .unlock => [announcement t]
  | .print t, _ => [announcement t]
  | _, _ => []

/-- The printout of a task that is no more in the queue. -/
def ConsumerPc.due : ConsumerPc → BlockQueue.PopPc DrawnTask → List (Bytes × Bytes)
  | .pop, .signal t | .pop, .unlock t | .run t, _ => [answer t]
  | .print t, _ => [printout t]
  | _, _ => []

theorem ProductorPc.Fits.wake {k : ProductorPc} {i : BlockQueue.PushPc DrawnTask}
    (h : k.Fits i) : k.Fits i.wake := by
  cases k with
  | push t => cases i <;> exact h
  | draw => cases h; rfl
  | print t => cases h; rfl

theorem ConsumerPc.Fits.wake {k : ConsumerPc} {i : BlockQueue.PopPc DrawnTask}
    (h : k.Fits i) : k.Fits i.wake := by
  cases k with
  | pop => trivial
  | run t => cases h; rfl
  | print t => cases h; rfl

theorem ProductorPc.due_wake (k : ProductorPc) (i : BlockQueue.PushPc DrawnTask) :
    k.due i.wake = k.due i := by
  cases k with
  | push t => cases i <;> rfl
  | draw => rfl
  | print t => rfl

theorem ConsumerPc.due_wake (k : ConsumerPc) (i : BlockQueue.PopPc DrawnTask) :
    k.due i.wake = k.due i := by
  cases k with
  | pop => cases i <;> rfl
  | run t => rfl
  | print t => rfl

section Calls

variable {P C : Type} {cfg : BlockQueue.Config} {bq bq' : BlockQueue.State P C DrawnTask}

/-- Where a producer stands after a step of `push`. -/
def ProductorPc.after (t : DrawnTask) : BlockQueue.PushPc DrawnTask → ProductorPc
  | .unlock => .print t
  | _ => .push t

def ConsumerPc.after : BlockQueue.PopPc DrawnTask → ConsumerPc
  | .unlock out => .run out
  | _ => .pop

section Push

variable [DecidableEq P] [Fintype C] [DecidableEq C] {p : P} {t : DrawnTask} {w : Finset C}

theorem stepPush_fits (h : BlockQueue.stepPush cfg bq p t w = some bq')
    (hfits : (ProductorPc.push t).Fits (bq.producer p)) :
    (ProductorPc.after t (bq.producer p)).Fits (bq'.producer p) := by
  unfold BlockQueue.stepPush at h
  cases hpc : bq.producer p with
  | idle =>
    simp only [hpc] at h
    split at h <;> cases h
    intro v hv
    simpa [value] using hv.symm
  | check u =>
    obtain rfl : u = t := hfits u (by rw [hpc]; rfl)
    simp only [hpc] at h
    split at h <;> cases h
    · intro v hv
      simpa [value] using hv.symm
    · intro v hv
      simpa [value] using hv.symm
  | waiting u => simp [hpc] at h
  | woken u =>
    obtain rfl : u = t := hfits u (by rw [hpc]; rfl)
    simp only [hpc] at h
    split at h <;> cases h
    intro v hv
    simpa [value] using hv.symm
  | enqueue u =>
    simp only [hpc] at h
    cases h
    intro v hv
    simp [value] at hv
  | signal =>
    simp only [hpc] at h
    split at h
    · split at h <;> cases h
      intro v hv
      simp [value] at hv
    · cases h
      intro v hv
      simp [value] at hv
  | unlock =>
    simp only [hpc] at h
    cases h
    simp [ProductorPc.after, ProductorPc.Fits]

/-- What is due is announced later, unless the step enqueues the task. -/
theorem stepPush_due (h : BlockQueue.stepPush cfg bq p t w = some bq')
    (hfits : (ProductorPc.push t).Fits (bq.producer p)) :
    (ProductorPc.after t (bq.producer p)).due (bq'.producer p) =
      (ProductorPc.push t).due (bq.producer p) ++
        (enqueued (bq.producer p)).toList.map announcement := by
  cases BlockQueue.stepPush_cases h with
  | lock v hpc | pass v hpc | sleep v hpc | relock v hpc =>
    simp [hpc, ProductorPc.after, ProductorPc.due, enqueued]
  | enqueue v hpc =>
    obtain rfl : v = t := hfits v (by rw [hpc]; rfl)
    simp [hpc, ProductorPc.after, ProductorPc.due, enqueued]
  | wake w hpc | quiet hpc | unlock hpc =>
    simp [hpc, ProductorPc.after, ProductorPc.due, enqueued]

theorem pushStep_others (h : BlockQueue.PushStep cfg bq p bq') :
    (∀ q, q ≠ p → bq'.producer q = bq.producer q) ∧
      ∀ c, bq'.consumer c = bq.consumer c ∨ bq'.consumer c = (bq.consumer c).wake := by
  refine ⟨fun q hq => ?_, fun c => ?_⟩
  · cases h <;> simp [hq]
  · cases h with
    | wake w hpc hhigh hw =>
      simp only [Threads.wakeAll]
      split
      · exact .inr rfl
      · exact .inl rfl
    | lock | sleep | pass | relock | enqueue | quiet | unlock => exact .inl rfl

end Push

section Pop

variable [Fintype P] [DecidableEq P] [DecidableEq C] {c : C} {w : Finset P}

theorem popStep_fits (h : BlockQueue.PopStep cfg bq c bq') :
    (ConsumerPc.after (bq.consumer c)).Fits (bq'.consumer c) := by
  cases h with
  | unlock out hpc => simp [hpc, ConsumerPc.after, ConsumerPc.Fits]
  | undefine hpc hq =>
    cases hk : bq.consumer c with
    | front | drop out => trivial
    | idle | check | waiting | woken | signal out | unlock out => simp [hk] at hpc
  | lock hpc | sleep hpc | pass hpc | relock hpc | front out rest hpc | drop out first rest hpc
  | wake out w hpc | quiet out hpc => simp [hpc, ConsumerPc.after, ConsumerPc.Fits]

/-- What is due is printed later, unless the step takes the task from the queue. -/
theorem popStep_due (h : BlockQueue.PopStep cfg bq c bq') :
    (ConsumerPc.after (bq.consumer c)).due (bq'.consumer c) =
      ConsumerPc.pop.due (bq.consumer c) ++
        (dropped (bq.consumer c) bq.q).toList.map answer := by
  cases h with
  | drop out first rest hpc hq => simp [hpc, hq, ConsumerPc.after, ConsumerPc.due, dropped]
  | undefine hpc hq =>
    cases hk : bq.consumer c with
    | front | drop out => simp [hq, ConsumerPc.after, ConsumerPc.due, dropped]
    | idle | check | waiting | woken | signal out | unlock out => simp [hk] at hpc
  | lock hpc | sleep hpc | pass hpc | relock hpc | front out rest hpc | wake out w hpc
  | quiet out hpc | unlock out hpc => simp [hpc, ConsumerPc.after, ConsumerPc.due, dropped]

theorem popStep_others (h : BlockQueue.PopStep cfg bq c bq') :
    (∀ d, d ≠ c → bq'.consumer d = bq.consumer d) ∧
      ∀ p, bq'.producer p = bq.producer p ∨ bq'.producer p = (bq.producer p).wake := by
  refine ⟨fun d hd => ?_, fun p => ?_⟩
  · cases h <;> simp [hd]
  · cases h with
    | wake out w hpc hlow hw =>
      simp only [Threads.wakeAll]
      split
      · exact .inr rfl
      · exact .inl rfl
    | lock | sleep | pass | relock | front | drop | undefine | quiet | unlock => exact .inl rfl

end Pop

end Calls

section Log

variable {P C : Type} [DecidableEq P] [DecidableEq C]

/-- What becomes of the queue. -/
def queueLog (log : List (Event P C)) : List (BlockQueue.Event DrawnTask) :=
  log.filterMap fun
    | .pushed _ t => some (.pushed t)
    | .popped _ t => some (.popped t)
    | _ => none

def pushedBy (log : List (Event P C)) (p : P) : List DrawnTask :=
  log.filterMap fun | .pushed q t => if q = p then some t else none | _ => none

def announcedBy (log : List (Event P C)) (p : P) : List Bytes :=
  log.filterMap fun | .announced q text => if q = p then some text else none | _ => none

def poppedBy (log : List (Event P C)) (c : C) : List DrawnTask :=
  log.filterMap fun | .popped d t => if d = c then some t else none | _ => none

def printedBy (log : List (Event P C)) (c : C) : List (Bytes × Bytes) :=
  log.filterMap fun | .printed d texts => if d = c then some texts else none | _ => none

variable (log l : List (Event P C)) (p : P) (c : C)

omit [DecidableEq P] [DecidableEq C] in
@[simp] theorem queueLog_append : queueLog (log ++ l) = queueLog log ++ queueLog l :=
  List.filterMap_append

omit [DecidableEq C] in
@[simp] theorem pushedBy_append : pushedBy (log ++ l) p = pushedBy log p ++ pushedBy l p :=
  List.filterMap_append

omit [DecidableEq C] in
@[simp] theorem announcedBy_append :
    announcedBy (log ++ l) p = announcedBy log p ++ announcedBy l p :=
  List.filterMap_append

omit [DecidableEq P] in
@[simp] theorem poppedBy_append : poppedBy (log ++ l) c = poppedBy log c ++ poppedBy l c :=
  List.filterMap_append

omit [DecidableEq P] in
@[simp] theorem printedBy_append : printedBy (log ++ l) c = printedBy log c ++ printedBy l c :=
  List.filterMap_append

end Log

section Run

variable {P C : Type} [DecidableEq P] [DecidableEq C] {undef : Undefined} {cfg : BlockQueue.Config}
  {s t : State P C} {log : List (Event P C)}

/-- A producer has announced what it has pushed but for what is due. -/
def Announced (s : State P C) (log : List (Event P C)) (p : P) : Prop :=
  (s.productor p).Fits (s.bq.producer p) ∧
    (pushedBy log p).map announcement =
      announcedBy log p ++ (s.productor p).due (s.bq.producer p)

/-- A consumer has printed what it has popped, and run, but for what is due. -/
def Printed (s : State P C) (log : List (Event P C)) (c : C) : Prop :=
  (s.consumer c).Fits (s.bq.consumer c) ∧
    (poppedBy log c).map answer =
      printedBy log c ++ (s.consumer c).due (s.bq.consumer c)

structure Ledger (cfg : BlockQueue.Config) (s : State P C) (log : List (Event P C)) : Prop where
  ordered : BlockQueue.Ordered cfg s.bq (queueLog log)
  announced : ∀ p, Announced s log p
  printed : ∀ c, Printed s log c
  alive : s.died = false

omit [DecidableEq C] in
/-- A producer that at most is woken, while the record says nothing of it. -/
theorem Announced.keep {p : P} {log' : List (Event P C)} (h : Announced s log p)
    (hphase : t.productor p = s.productor p)
    (hinner : t.bq.producer p = s.bq.producer p ∨ t.bq.producer p = (s.bq.producer p).wake)
    (hpushed : pushedBy log' p = pushedBy log p)
    (hannounced : announcedBy log' p = announcedBy log p) : Announced t log' p := by
  obtain ⟨hfits, hdue⟩ := h
  rw [Announced, hphase, hpushed, hannounced]
  rcases hinner with hinner | hinner
  · rw [hinner]
    exact ⟨hfits, hdue⟩
  · rw [hinner, ProductorPc.due_wake]
    exact ⟨hfits.wake, hdue⟩

omit [DecidableEq P] in
theorem Printed.keep {c : C} {log' : List (Event P C)} (h : Printed s log c)
    (hphase : t.consumer c = s.consumer c)
    (hinner : t.bq.consumer c = s.bq.consumer c ∨ t.bq.consumer c = (s.bq.consumer c).wake)
    (hpopped : poppedBy log' c = poppedBy log c)
    (hprinted : printedBy log' c = printedBy log c) : Printed t log' c := by
  obtain ⟨hfits, hdue⟩ := h
  rw [Printed, hphase, hpopped, hprinted]
  rcases hinner with hinner | hinner
  · rw [hinner]
    exact ⟨hfits, hdue⟩
  · rw [hinner, ConsumerPc.due_wake]
    exact ⟨hfits.wake, hdue⟩

theorem ledger_init (cfg : BlockQueue.Config) : Ledger cfg (init P C) [] where
  ordered := BlockQueue.ordered_init cfg
  announced := fun _ => ⟨rfl, rfl⟩
  printed := fun _ => ⟨trivial, rfl⟩
  alive := rfl

section Steps

variable {l : List (Event P C)}

/-- A step outside the queue. -/
theorem Ledger.outside (hi : Ledger cfg s log) (hbq : t.bq = s.bq) (halive : t.died = false)
    (hqueue : queueLog l = []) (hannounced : ∀ p, Announced t (log ++ l) p)
    (hprinted : ∀ c, Printed t (log ++ l) c) : Ledger cfg t (log ++ l) where
  ordered := by
    rw [hbq, queueLog_append, hqueue, List.append_nil]
    exact hi.ordered
  announced := hannounced
  printed := hprinted
  alive := halive

variable [Fintype P] [Fintype C]

/-- A producer draws, or announces what it has pushed. -/
theorem Ledger.productor_outside {p : P} {r : Nat × Nat × Nat} {w : Finset C}
    (hi : Ledger cfg s log) (hpc : ∀ u, s.productor p ≠ .push u)
    (h : stepProductor cfg s p r w = some t) :
    Ledger cfg t (log ++ (event s (.productor p r w)).toList) := by
  obtain ⟨hfits, hdue⟩ := hi.announced p
  unfold stepProductor at h
  cases hk : s.productor p with
  | draw =>
    rw [hk] at hfits hdue
    simp only [hk] at h
    cases h
    simp only [event, hk, Option.toList_none, List.append_nil]
    have hall : ∀ q, Announced { s with
        productor := Function.update s.productor p (.push (draw r.1 r.2.1 r.2.2)) } log q := by
      intro q
      by_cases hq : q = p
      · subst hq
        rw [ProductorPc.Fits] at hfits
        simp [Announced, hfits, ProductorPc.Fits, value, ProductorPc.due, hdue]
      · exact (hi.announced q).keep (by simp [hq]) (.inl rfl) rfl rfl
    exact ⟨hi.ordered, hall, hi.printed, hi.alive⟩
  | push u => exact absurd hk (hpc u)
  | print u =>
    rw [hk] at hfits hdue
    simp only [hk] at h
    cases h
    simp only [event, hk, Option.toList_some]
    refine hi.outside (by rfl) hi.alive rfl ?_ ?_
    · intro q
      by_cases hq : q = p
      · subst hq
        rw [ProductorPc.Fits] at hfits
        simpa [Announced, hfits, ProductorPc.Fits, ProductorPc.due, pushedBy, announcedBy] using
          hdue
      · exact (hi.announced q).keep (by simp [hq]) (.inl rfl) (by simp [pushedBy])
          (by simp [announcedBy, Ne.symm hq])
    · intro c
      exact (hi.printed c).keep rfl (.inl rfl) (by simp [poppedBy]) (by simp [printedBy])

/-- A producer inside `push`. -/
theorem Ledger.productor_inside {p : P} {u : DrawnTask} {r : Nat × Nat × Nat} {w : Finset C}
    {bq : BlockQueue.State P C DrawnTask} (hi : Ledger cfg s log) (hk : s.productor p = .push u)
    (h : BlockQueue.step cfg s.bq (.push p u w) = some bq) :
    Ledger cfg { s with
      bq := bq, productor := Function.update s.productor p (.after u (s.bq.producer p)) }
      (log ++ (event s (.productor p r w)).toList) := by
  obtain ⟨hfits, hdue⟩ := hi.announced p
  rw [hk] at hfits hdue
  have hstep : BlockQueue.stepPush cfg s.bq p u w = some bq := by
    unfold BlockQueue.step at h
    split at h
    · cases h
    · exact h
  obtain ⟨hproducers, hconsumers⟩ := pushStep_others (BlockQueue.stepPush_cases hstep)
  have hevent : event s (.productor p r w) = (enqueued (s.bq.producer p)).map (.pushed p) := by
    simp only [event, hk]
    cases s.bq.producer p <;> rfl
  rw [hevent]
  refine ⟨?_, fun q => ?_, fun c => ?_, hi.alive⟩
  · have hordered := hi.ordered.step h
    have hqueue : queueLog (log ++ ((enqueued (s.bq.producer p)).map (Event.pushed p)).toList) =
        queueLog log ++ (BlockQueue.event s.bq (.push p u w)).toList := by
      rw [queueLog_append]
      simp only [BlockQueue.event]
      cases s.bq.producer p <;> rfl
    rwa [hqueue]
  · by_cases hq : q = p
    · subst hq
      refine ⟨by simpa using stepPush_fits hstep hfits, ?_⟩
      simp only [Function.update_self, stepPush_due hstep hfits]
      cases enqueued (s.bq.producer q) with
      | none => simpa using hdue
      | some v =>
        have hpushed : pushedBy [(Event.pushed q v : Event P C)] q = [v] := by simp [pushedBy]
        have hannounced : announcedBy [(Event.pushed q v : Event P C)] q = [] := rfl
        simp [hpushed, hannounced, hdue]
    · refine (hi.announced q).keep (by simp [hq]) (.inl (hproducers q hq)) ?_ ?_
      · cases enqueued (s.bq.producer p) <;> simp [pushedBy, Ne.symm hq]
      · cases enqueued (s.bq.producer p) <;> simp [announcedBy]
  · refine Printed.keep (hi.printed c) (by rfl) (hconsumers c) ?_ ?_
    · cases enqueued (s.bq.producer p) <;> simp [poppedBy]
    · cases enqueued (s.bq.producer p) <;> simp [printedBy]

/-- A consumer inside `pop`. -/
theorem Ledger.consumer_inside {c : C} {w : Finset P} {bq : BlockQueue.State P C DrawnTask}
    (hi : Ledger cfg s log) (hk : s.consumer c = .pop)
    (h : BlockQueue.step cfg s.bq (.pop c w) = some bq) :
    Ledger cfg { s with
      bq := bq, consumer := Function.update s.consumer c (.after (s.bq.consumer c)) }
      (log ++ (event s (.consumer c w)).toList) := by
  obtain ⟨-, hdue⟩ := hi.printed c
  rw [hk] at hdue
  have hstep : BlockQueue.PopStep cfg s.bq c bq := by
    unfold BlockQueue.step at h
    split at h
    · cases h
    · exact BlockQueue.stepPop_cases h
  obtain ⟨hconsumers, hproducers⟩ := popStep_others hstep
  have hevent : event s (.consumer c w) = (dropped (s.bq.consumer c) s.bq.q).map (.popped c) := by
    simp only [event, hk]
    cases s.bq.consumer c <;> cases s.bq.q <;> rfl
  rw [hevent]
  refine ⟨?_, fun p => ?_, fun d => ?_, hi.alive⟩
  · have hordered := hi.ordered.step h
    have hqueue : queueLog (log ++
        ((dropped (s.bq.consumer c) s.bq.q).map (Event.popped c)).toList) =
        queueLog log ++ (BlockQueue.event s.bq (.pop c w)).toList := by
      rw [queueLog_append]
      simp only [BlockQueue.event]
      cases s.bq.consumer c <;> cases s.bq.q <;> rfl
    rwa [hqueue]
  · refine Announced.keep (hi.announced p) (by rfl) (hproducers p) ?_ ?_
    · cases dropped (s.bq.consumer c) s.bq.q <;> simp [pushedBy]
    · cases dropped (s.bq.consumer c) s.bq.q <;> simp [announcedBy]
  · by_cases hd : d = c
    · subst hd
      refine ⟨by simpa using popStep_fits hstep, ?_⟩
      simp only [Function.update_self, popStep_due hstep]
      cases dropped (s.bq.consumer d) s.bq.q with
      | none => simpa using hdue
      | some v =>
        have hpopped : poppedBy [(Event.popped d v : Event P C)] d = [v] := by simp [poppedBy]
        have hprinted : printedBy [(Event.popped d v : Event P C)] d = [] := rfl
        simp [hpopped, hprinted, hdue]
    · refine (hi.printed d).keep (by simp [hd]) (.inl (hconsumers d hd)) ?_ ?_
      · cases dropped (s.bq.consumer c) s.bq.q <;> simp [poppedBy, Ne.symm hd]
      · cases dropped (s.bq.consumer c) s.bq.q <;> simp [printedBy]

/-- A consumer runs its task, which cannot fail, or prints it. -/
theorem Ledger.consumer_outside {c : C} {w : Finset P} (hi : Ledger cfg s log)
    (hpc : s.consumer c ≠ .pop) (h : stepConsumer undef cfg s c w = some t) :
    Ledger cfg t (log ++ (event s (.consumer c w)).toList) := by
  obtain ⟨hfits, hdue⟩ := hi.printed c
  unfold stepConsumer at h
  cases hk : s.consumer c with
  | pop => exact absurd hk hpc
  | run u =>
    rw [hk] at hfits hdue
    simp only [hk, u.2.run undef] at h
    cases h
    simp only [event, hk, Option.toList_none, List.append_nil]
    refine ⟨hi.ordered, hi.announced, fun d => ?_, hi.alive⟩
    by_cases hd : d = c
    · subst hd
      simpa [Printed, ConsumerPc.Fits, ConsumerPc.due, answer] using And.intro hfits hdue
    · exact (hi.printed d).keep (by simp [hd]) (.inl rfl) rfl rfl
  | print u =>
    rw [hk] at hfits hdue
    simp only [hk] at h
    cases h
    simp only [event, hk, Option.toList_some]
    refine hi.outside (by rfl) hi.alive rfl ?_ ?_
    · intro p
      exact (hi.announced p).keep rfl (.inl rfl) (by simp [pushedBy]) (by simp [announcedBy])
    · intro d
      by_cases hd : d = c
      · subst hd
        rw [ConsumerPc.Fits] at hfits
        have hpopped : poppedBy [(Event.printed d (printout u) : Event P C)] d = [] := rfl
        have hprinted : printedBy [(Event.printed d (printout u) : Event P C)] d =
            [printout u] := by
          simp [printedBy]
        simp [Printed, ConsumerPc.Fits, hfits, ConsumerPc.due, hpopped, hprinted, hdue]
      · exact (hi.printed d).keep (by simp [hd]) (.inl rfl) (by simp [poppedBy])
          (by simp [printedBy, Ne.symm hd])

/-- A return from a wait for no reason only wakes. -/
theorem Ledger.spurious {a : BlockQueue.Action P C DrawnTask}
    {bq : BlockQueue.State P C DrawnTask} (hi : Ledger cfg s log) (ha : a.regular = false)
    (h : BlockQueue.step cfg s.bq a = some bq) : Ledger cfg { s with bq := bq } log := by
  have hordered := hi.ordered.step h
  rcases BlockQueue.step_cases h with ⟨p, u, w, rfl, -⟩ | ⟨c, w, rfl, -⟩ | ⟨p, rfl, rfl⟩ |
    ⟨c, rfl, rfl⟩
  · cases ha
  · cases ha
  · simp only [BlockQueue.event, Option.toList_none, List.append_nil] at hordered
    refine ⟨hordered, fun q => Announced.keep (hi.announced q) rfl ?_ rfl rfl, hi.printed, hi.alive⟩
    by_cases hq : q = p
    · subst hq
      exact .inr (by simp)
    · exact .inl (by simp [hq])
  · simp only [BlockQueue.event, Option.toList_none, List.append_nil] at hordered
    refine ⟨hordered, hi.announced, fun d => Printed.keep (hi.printed d) rfl ?_ rfl rfl, hi.alive⟩
    by_cases hd : d = c
    · subst hd
      exact .inr (by simp)
    · exact .inl (by simp [hd])

omit [DecidableEq C] [Fintype P] [Fintype C] in
theorem productor_after {p : P} {u : DrawnTask} (hk : s.productor p = .push u) :
    (match s.bq.producer p with
      | .unlock => Function.update s.productor p (.print u)
      | _ => s.productor) = Function.update s.productor p (.after u (s.bq.producer p)) := by
  have hsame : Function.update s.productor p (.push u) = s.productor := by
    rw [← hk, Function.update_eq_self]
  cases s.bq.producer p with
  | unlock => rfl
  | idle | check | waiting | woken | enqueue | signal => exact hsame.symm

omit [DecidableEq P] [Fintype P] [Fintype C] in
theorem consumer_after {c : C} (hk : s.consumer c = .pop) :
    (match s.bq.consumer c with
      | .unlock out => Function.update s.consumer c (.run out)
      | _ => s.consumer) = Function.update s.consumer c (.after (s.bq.consumer c)) := by
  have hsame : Function.update s.consumer c .pop = s.consumer := by
    rw [← hk, Function.update_eq_self]
  cases s.bq.consumer c with
  | unlock out => rfl
  | idle | check | waiting | woken | front | drop | signal => exact hsame.symm

theorem Ledger.step {a : Action P C} (hi : Ledger cfg s log)
    (h : step undef cfg s a = some t) : Ledger cfg t (log ++ (event s a).toList) := by
  unfold BlockQueueTasks.step at h
  split at h
  · cases h
  · cases a with
    | productor p r w =>
      cases hk : s.productor p with
      | push u =>
        simp only [stepProductor, hk] at h
        obtain ⟨bq, hbq, rfl⟩ := Option.map_eq_some_iff.mp h
        rw [productor_after hk]
        exact hi.productor_inside hk hbq
      | draw => exact hi.productor_outside (by simp [hk]) h
      | print u => exact hi.productor_outside (by simp [hk]) h
    | consumer c w =>
      cases hk : s.consumer c with
      | pop =>
        simp only [stepConsumer, hk] at h
        obtain ⟨bq, hbq, rfl⟩ := Option.map_eq_some_iff.mp h
        rw [consumer_after hk]
        exact hi.consumer_inside hk hbq
      | run u => exact hi.consumer_outside (by simp [hk]) h
      | print u => exact hi.consumer_outside (by simp [hk]) h
    | spuriousPush p =>
      obtain ⟨bq, hbq, rfl⟩ := Option.map_eq_some_iff.mp h
      simp only [event, Option.toList_none, List.append_nil]
      exact hi.spurious rfl hbq
    | spuriousPop c =>
      obtain ⟨bq, hbq, rfl⟩ := Option.map_eq_some_iff.mp h
      simp only [event, Option.toList_none, List.append_nil]
      exact hi.spurious rfl hbq

theorem ledger (h : ((system P C undef cfg).logged event).Reachable anyStep (s, log)) :
    Ledger cfg s log :=
  logged_invariant h (ledger_init cfg) fun _ _ _ _ hi hs => hi.step hs

end Steps

omit [DecidableEq P] in
/-- What a consumer has popped is what the queue has lost. -/
theorem mem_pops {c : C} {u : DrawnTask} (h : u ∈ poppedBy log c) :
    u ∈ BlockQueue.pops (queueLog log) := by
  obtain ⟨e, he, hu⟩ := List.mem_filterMap.mp h
  cases e with
  | popped d v =>
    simp only at hu
    split at hu
    · cases hu
      refine List.mem_filterMap.mpr ⟨.popped u, ?_, rfl⟩
      exact List.mem_filterMap.mpr ⟨.popped d u, he, rfl⟩
    · cases hu
  | pushed | announced | printed => cases hu

/-- Any number of producers and consumers in any interleaving, spurious wake-ups included, up to
where a `pop` meets an empty queue: no consumer dies of its task, each thread writes about its own
tasks in their order, and what a consumer prints is the exact result of a task that was pushed. -/
theorem every_task_printed [Fintype P] [Fintype C]
    (h : ((system P C undef cfg).logged event).Reachable anyStep (s, log)) :
    s.died = false ∧
      BlockQueue.pops (queueLog log) ++ s.bq.q = BlockQueue.pushes (queueLog log) ∧
      (∀ p, (pushedBy log p).map announcement =
        announcedBy log p ++ (s.productor p).due (s.bq.producer p)) ∧
      (∀ c, (poppedBy log c).map answer =
        printedBy log c ++ (s.consumer c).due (s.bq.consumer c)) ∧
      ∀ c, ∀ texts ∈ printedBy log c, ∃ u ∈ BlockQueue.pushes (queueLog log),
        texts = (u.1.answered.getTask, u.1.answered.getResult) ∧
        NetReplies.exact u.1.request = .ok u.1.answered.result.toInt ∧
        u.1.answered.exitcode = 0 := by
  have hi := ledger h
  refine ⟨hi.alive, hi.ordered.order, fun p => (hi.announced p).2, fun c => (hi.printed c).2, ?_⟩
  intro c texts htexts
  have hmem : texts ∈ (poppedBy log c).map answer := by
    rw [(hi.printed c).2]
    exact List.mem_append_left _ htexts
  obtain ⟨u, hu, rfl⟩ := List.mem_map.mp hmem
  have hpushed : u ∈ BlockQueue.pushes (queueLog log) := by
    rw [← hi.ordered.order]
    exact List.mem_append_left _ (mem_pops hu)
  exact ⟨u, hpushed, rfl, u.2.answered_exact⟩

end Run

/-- A producer draws `7%2`, and a consumer prints what it comes to. -/
def modRun : List (Action Unit Unit) :=
  List.replicate 7 (Action.productor () (6, 1, 4) ∅) ++ List.replicate 8 (Action.consumer () ∅)

def modEnd : State Unit Unit × List (Event Unit Unit) :=
  (((system Unit Unit wrapOrTrap ⟨5, 1, 3⟩).logged event).run (init Unit Unit, []) modRun).get
    (by decide)

theorem every_task_printed_mod :
    modEnd.2.getLast? = some (.printed () ([55, 37, 50, 61, 63],
      [55, 37, 50, 61, 49, 91, 99, 111, 100, 101, 58, 32, 48, 93])) ∧
      BlockQueue.pops (queueLog modEnd.2) ++ modEnd.1.bq.q =
        BlockQueue.pushes (queueLog modEnd.2) := by
  refine ⟨by decide, ?_⟩
  have hreach : ((system Unit Unit wrapOrTrap ⟨5, 1, 3⟩).logged event).Reachable anyStep modEnd :=
    reachable_of_run _
  exact (every_task_printed hreach).2.1

end BlockQueueTasks
