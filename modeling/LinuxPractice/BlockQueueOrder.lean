import LinuxPractice.BlockQueueSafety

/-!
# BlockQueue is bounded and first in, first out

A producer holds the mutex from the test that found room to its enqueue, a
consumer from the `front()` it copies to the `pop()` that removes it. Wake-ups
of any kind only move threads that stand elsewhere.
-/
namespace BlockQueue

open Transition Transition.System Threads

variable {P C T : Type} {cfg : Config} {s t : State P C T}

structure Bounded (cfg : Config) (s : State P C T) : Prop extends Locked s where
  length_le : s.q.length ≤ cfg.maxcap
  room : ∀ p, (s.producer p).enqueues = true → s.q.length < cfg.maxcap

theorem bounded_init (cfg : Config) : Bounded cfg (init P C T) where
  toLocked := locked_init
  length_le := by simp [init]
  room := by simp [init]

theorem PopStep.length_le [DecidableEq C] [Fintype P] [DecidableEq P] {c : C}
    (h : PopStep cfg s c t) : t.q.length ≤ s.q.length := by
  cases h with
  | drop out first rest hpc hq => simp [hq]
  | lock | sleep | pass | relock | front | undefine | wake | quiet | unlock => exact Nat.le_refl _

theorem PopStep.enqueues_eq [DecidableEq C] [Fintype P] [DecidableEq P] {c : C}
    (h : PopStep cfg s c t) (p : P) : (t.producer p).enqueues = (s.producer p).enqueues := by
  cases h with
  | wake out w hpc hq hw => exact wakeAll_congr PushPc.enqueues_wake p
  | lock | sleep | pass | relock | front | drop | undefine | quiet | unlock => rfl

section Push

variable [DecidableEq P] {p : P}

/-- A producer that moves while the queue stays as it is. -/
theorem Bounded.room_move (hi : Bounded cfg s) {k : PushPc T}
    (hk : k.enqueues = true → s.q.length < cfg.maxcap) : ∀ u,
    (Function.update s.producer p k u).enqueues = true → s.q.length < cfg.maxcap := by
  intro u hu
  by_cases hup : u = p
  · subst hup
    exact hk (by simpa using hu)
  · exact hi.room u (by simpa [hup] using hu)

variable [Fintype C] [DecidableEq C]

theorem Bounded.push_room (hi : Bounded cfg s) (h : PushStep cfg s p t) : ∀ u,
    (t.producer u).enqueues = true → t.q.length < cfg.maxcap := by
  cases h with
  | pass v hpc hroom =>
    have hle := hi.length_le
    exact hi.room_move fun _ => by omega
  | enqueue v hpc =>
    -- nobody else is inside the critical section
    intro u hu
    have hup : u ≠ p := by
      intro he
      subst he
      simp at hu
    have henq : (s.producer u).enqueues = true := by simpa [hup] using hu
    have hboth : u = p := by
      apply hi.producers.unique Sum.inl_injective
      · exact PushPc.holds_of_enqueues henq
      · simp [hpc]
    exact absurd hboth hup
  | lock | sleep | relock | wake | quiet | unlock => exact hi.room_move (by simp)

theorem Bounded.push (hi : Bounded cfg s) (h : PushStep cfg s p t) : Bounded cfg t where
  toLocked := hi.toLocked.push h
  length_le := by
    cases h with
    | enqueue v hpc =>
      have hroom := hi.room p (by simp [hpc])
      simp
      omega
    | lock | sleep | pass | relock | wake | quiet | unlock => exact hi.length_le
  room := hi.push_room h

end Push

variable [DecidableEq P] [DecidableEq C]

theorem Bounded.pop [Fintype P] (hi : Bounded cfg s) {c : C} (h : PopStep cfg s c t) :
    Bounded cfg t where
  toLocked := hi.toLocked.pop h
  length_le := h.length_le.trans hi.length_le
  room := by
    intro p hp
    rw [h.enqueues_eq p] at hp
    exact Nat.lt_of_le_of_lt h.length_le (hi.room p hp)

theorem Bounded.step [Fintype P] [Fintype C] {a : Action P C T} (hi : Bounded cfg s)
    (h : step cfg s a = some t) : Bounded cfg t := by
  have hlocked := hi.toLocked.step h
  rcases step_cases h with ⟨p, input, w, -, hp⟩ | ⟨c, w, -, hc⟩ | ⟨p, -, rfl⟩ | ⟨c, -, rfl⟩
  · exact hi.push hp
  · exact hi.pop hc
  · refine ⟨hlocked, hi.length_le, hi.room_move fun hk => hi.room p ?_⟩
    rwa [PushPc.enqueues_wake] at hk
  · exact ⟨hlocked, hi.length_le, hi.room⟩

inductive Event (T : Type) where
  | pushed : T → Event T
  | popped : T → Event T
  deriving DecidableEq, Repr

/-- The effect of a step on `_q`: the value that `push` stores, or the value that `pop` is
about to return when it removes the front. -/
def event (s : State P C T) : Action P C T → Option (Event T)
  | .push p _ _ =>
    match s.producer p with
    | .enqueue v => some (.pushed v)
    | _ => none
  | .pop c _ =>
    match s.consumer c, s.q with
    | .drop out, _ :: _ => some (.popped out)
    | _, _ => none
  | .spuriousPush _ | .spuriousPop _ => none

/-- The values pushed, in the order of push's critical sections. -/
def pushes (log : List (Event T)) : List T :=
  log.filterMap fun | .pushed v => some v | .popped _ => none

/-- The values that `pop` returns, in the order of its critical sections. -/
def pops (log : List (Event T)) : List T :=
  log.filterMap fun | .pushed _ => none | .popped v => some v

section Log
variable (log : List (Event T)) (v : T)

@[simp] theorem pushes_pushed : pushes (log ++ [.pushed v]) = pushes log ++ [v] := by simp [pushes]
@[simp] theorem pushes_popped : pushes (log ++ [.popped v]) = pushes log := by simp [pushes]
@[simp] theorem pops_pushed : pops (log ++ [.pushed v]) = pops log := by simp [pops]
@[simp] theorem pops_popped : pops (log ++ [.popped v]) = pops log ++ [v] := by simp [pops]

end Log

theorem PopPc.drop_of_wake {k : PopPc T} {out : T} (h : k.wake = .drop out) : k = .drop out := by
  cases k <;> simp at h ⊢
  exact h

/-- A consumer that has copied the front still finds it there. -/
def HoldsFront (s : State P C T) : Prop := ∀ c out, s.consumer c = .drop out → s.q.head? = some out

/-- What was popped and what waits is what was pushed. -/
structure Ordered (cfg : Config) (s : State P C T) (log : List (Event T)) : Prop
    extends Bounded cfg s where
  front : HoldsFront s
  order : pops log ++ s.q = pushes log

omit [DecidableEq P] [DecidableEq C] in
theorem ordered_init (cfg : Config) : Ordered cfg (init P C T) [] where
  toBounded := bounded_init cfg
  front := by intro c out hc; simp [init] at hc
  order := rfl

omit [DecidableEq P] in
/-- A consumer that moves while the queue stays as it is. -/
theorem HoldsFront.move (hi : HoldsFront s) (c : C) {k : PopPc T}
    (hk : ∀ out, k = .drop out → s.q.head? = some out) : ∀ u out,
    Function.update s.consumer c k u = .drop out → s.q.head? = some out := by
  intro u out hu
  by_cases huc : u = c
  · subst huc
    exact hk out (by simpa using hu)
  · exact hi u out (by simpa [huc] using hu)

theorem HoldsFront.push [Fintype C] (hi : HoldsFront s) {p : P} (h : PushStep cfg s p t) :
    HoldsFront t := by
  cases h with
  | enqueue v hpc =>
    intro c out hc
    have hhead := hi c out hc
    simp [hhead]
  | wake w hpc hhigh hw =>
    intro c
    refine wakeAll_keeps (Q := fun k => ∀ out, k = PopPc.drop out → s.q.head? = some out) ?_ (hi c)
    intro k hk out hout
    exact hk out (PopPc.drop_of_wake hout)
  | lock | sleep | pass | relock | quiet | unlock => exact hi

theorem HoldsFront.pop [Fintype P] (hl : Locked s) (hi : HoldsFront s) {c : C}
    (h : PopStep cfg s c t) : HoldsFront t := by
  cases h with
  | front out rest hpc hq =>
    apply hi.move c
    intro v hv
    cases hv
    simp [hq]
  | drop out first rest hpc hq =>
    -- whoever else has copied the front would hold the mutex too
    intro u v hu
    have huc : u ≠ c := by
      intro he
      subst he
      simp at hu
    have hdrop : s.consumer u = .drop v := by simpa [huc] using hu
    have hboth : u = c := by
      apply hl.consumers.unique Sum.inr_injective
      · simp [hdrop]
      · simp [hpc]
    exact absurd hboth huc
  | undefine hpc hq => exact hi
  | lock | sleep | pass | relock | wake | quiet | unlock => exact hi.move c (by simp)

section Steps

variable {log : List (Event T)}

omit [DecidableEq C] in
theorem PushStep.order [Fintype C] [DecidableEq C] {p : P} (h : PushStep cfg s p t)
    (ho : pops log ++ s.q = pushes log) (input : T) (w : Finset C) :
    pops (log ++ (event s (.push p input w)).toList) ++ t.q =
      pushes (log ++ (event s (.push p input w)).toList) := by
  cases h with
  | enqueue v hpc => simp [event, hpc, ← ho]
  | lock v hpc | sleep v hpc | pass v hpc | relock v hpc | wake w hpc | quiet hpc | unlock hpc =>
    simpa [event, hpc] using ho

theorem PopStep.order [Fintype P] {c : C} (h : PopStep cfg s c t) (hf : HoldsFront s)
    (ho : pops log ++ s.q = pushes log) (w : Finset P) :
    pops (log ++ (event s (.pop c w)).toList) ++ t.q =
      pushes (log ++ (event s (.pop c w)).toList) := by
  cases h with
  | drop out first rest hpc hq =>
    have hfirst : first = out := by simpa [hq] using hf c out hpc
    simpa [event, hpc, hq, hfirst] using ho
  | undefine hpc hq => simpa [event, hq] using ho
  | lock hpc | sleep hpc | pass hpc | relock hpc | front out rest hpc | wake out w hpc
  | quiet out hpc | unlock out hpc => simpa [event, hpc] using ho

theorem Ordered.step [Fintype P] [Fintype C] {a : Action P C T} (hi : Ordered cfg s log)
    (h : step cfg s a = some t) : Ordered cfg t (log ++ (event s a).toList) := by
  have hbounded := hi.toBounded.step h
  rcases step_cases h with ⟨p, input, w, rfl, hp⟩ | ⟨c, w, rfl, hc⟩ | ⟨p, rfl, rfl⟩ | ⟨c, rfl, rfl⟩
  · exact ⟨hbounded, hi.front.push hp, hp.order hi.order input w⟩
  · exact ⟨hbounded, hi.front.pop hi.toLocked hc, hc.order hi.front hi.order w⟩
  · exact ⟨hbounded, hi.front, by simpa [event] using hi.order⟩
  · refine ⟨hbounded, ?_, by simpa [event] using hi.order⟩
    exact hi.front.move c fun out hout => hi.front c out (PopPc.drop_of_wake hout)

end Steps

/-- In every run, spurious wake-ups included, up to where a `pop` meets an empty queue: the queue
holds at most `maxcap` values, and they are those pushed and not yet popped, in order. -/
theorem pops_then_queue [Fintype P] [Fintype C] (cfg : Config) {log : List (Event T)}
    (h : ((system P C T cfg).logged event).Reachable anyStep (s, log)) :
    s.q.length ≤ cfg.maxcap ∧ pops log ++ s.q = pushes log := by
  have hi : Ordered cfg s log := by
    apply logged_invariant h
    · exact ordered_init cfg
    · intro s a t log hi hs
      exact hi.step hs
  exact ⟨hi.length_le, hi.order⟩

/-- Two producers fill a queue of one place, the second sleeping until a consumer makes room. -/
def refillRun : List (Action Bool Unit Nat) :=
  List.replicate 5 (Action.push false 7 ∅) ++ List.replicate 2 (Action.push true 8 ∅) ++
    [.spuriousPush true] ++ List.replicate 2 (Action.push true 0 ∅) ++
    [.spuriousPush true] ++ List.replicate 6 (Action.pop () ∅) ++
    List.replicate 5 (Action.push true 0 ∅)

def refillEnd : State Bool Unit Nat × List (Event Nat) :=
  (((system Bool Unit Nat ⟨1, 0, 0⟩).logged event).run (init Bool Unit Nat, []) refillRun).get
    (by decide)

theorem pops_then_queue_refill :
    pops refillEnd.2 = [7] ∧ refillEnd.1.q = [8] ∧
      refillEnd.1.q.length ≤ 1 ∧ pops refillEnd.2 ++ refillEnd.1.q = pushes refillEnd.2 := by
  have hreach : ((system Bool Unit Nat ⟨1, 0, 0⟩).logged event).Reachable anyStep refillEnd :=
    reachable_of_run _
  exact ⟨by decide, by decide, pops_then_queue ⟨1, 0, 0⟩ hreach⟩

end BlockQueue
