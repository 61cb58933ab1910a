import LinuxPractice.BlockQueue

/-!
# BlockQueue: mutual exclusion, and who may find the queue empty

`push` looks at its condition again after `pthread_cond_wait`, `pop` does not.
A consumer therefore reaches `_q.front()` with whatever queue it finds when it
gets the mutex back.
-/
namespace BlockQueue

open Transition Transition.System Threads

variable {P C T : Type} {cfg : Config} {s t : State P C T}

/-- The mutex belongs to the one thread inside. -/
structure Locked (s : State P C T) : Prop where
  producers : Owns Sum.inl PushPc.holds s.producer s.mutex
  consumers : Owns Sum.inr PopPc.holds s.consumer s.mutex

theorem locked_init : Locked (init P C T) where
  producers := by intro p; simp [init]
  consumers := by intro c; simp [init]

theorem locked_iff :
    Locked s ↔ Exclusive PushPc.holds PopPc.holds s.producer s.consumer s.mutex :=
  ⟨fun h => ⟨h.producers, h.consumers⟩, fun h => ⟨h.left, h.right⟩⟩

theorem Locked.release_push [DecidableEq P] (hi : Locked s) {p : P} (hp : (s.producer p).holds = true)
    {k : PushPc T} (hk : k.holds = false) :
    Locked { s with mutex := none, producer := Function.update s.producer p k } :=
  locked_iff.mpr ((locked_iff.mp hi).release_left hp hk)

theorem Locked.release_pop [DecidableEq C] (hi : Locked s) {c : C} (hc : (s.consumer c).holds = true)
    {k : PopPc T} (hk : k.holds = false) :
    Locked { s with mutex := none, consumer := Function.update s.consumer c k } :=
  locked_iff.mpr ((locked_iff.mp hi).release_right hc hk)

theorem Locked.acquire_push [DecidableEq P] (hi : Locked s) (hfree : s.mutex = none) (p : P)
    {k : PushPc T} (hk : k.holds = true) :
    Locked { s with mutex := some (.inl p), producer := Function.update s.producer p k } := by
  have hexclusive := locked_iff.mp hi
  rw [hfree] at hexclusive
  exact locked_iff.mpr (hexclusive.acquire_left p hk)

theorem Locked.acquire_pop [DecidableEq C] (hi : Locked s) (hfree : s.mutex = none) (c : C)
    {k : PopPc T} (hk : k.holds = true) :
    Locked { s with mutex := some (.inr c), consumer := Function.update s.consumer c k } := by
  have hexclusive := locked_iff.mp hi
  rw [hfree] at hexclusive
  exact locked_iff.mpr (hexclusive.acquire_right c hk)

variable [DecidableEq P] [DecidableEq C]

theorem Locked.push [Fintype C] (hi : Locked s) {p : P} (h : PushStep cfg s p t) : Locked t := by
  cases h with
  | lock v hpc hfree => exact hi.acquire_push hfree p (by simp)
  | sleep v hpc hfull => exact hi.release_push (by simp [hpc]) (by simp)
  | pass v hpc hroom => exact { hi with producers := hi.producers.stay (by simp [hpc]) }
  | relock v hpc hfree => exact hi.acquire_push hfree p (by simp)
  | enqueue v hpc => exact { hi with producers := hi.producers.stay (by simp [hpc]) }
  | wake w hpc hhigh hw =>
    constructor
    · exact hi.producers.stay (by simp [hpc])
    · exact hi.consumers.congr (wakeAll_congr PopPc.holds_wake)
  | quiet hpc hhigh => exact { hi with producers := hi.producers.stay (by simp [hpc]) }
  | unlock hpc => exact hi.release_push (by simp [hpc]) (by simp)

theorem Locked.pop [Fintype P] (hi : Locked s) {c : C} (h : PopStep cfg s c t) : Locked t := by
  cases h with
  | lock hpc hfree => exact hi.acquire_pop hfree c (by simp)
  | sleep hpc hempty => exact hi.release_pop (by simp [hpc]) (by simp)
  | pass hpc hitem => exact { hi with consumers := hi.consumers.stay (by simp [hpc]) }
  | relock hpc hfree => exact hi.acquire_pop hfree c (by simp)
  | front out rest hpc hq => exact { hi with consumers := hi.consumers.stay (by simp [hpc]) }
  | drop out first rest hpc hq => exact { hi with consumers := hi.consumers.stay (by simp [hpc]) }
  | undefine hpc hq => exact { hi with }
  | wake out w hpc hlow hw =>
    constructor
    · exact hi.producers.congr (wakeAll_congr PushPc.holds_wake)
    · exact hi.consumers.stay (by simp [hpc])
  | quiet out hpc hlow => exact { hi with consumers := hi.consumers.stay (by simp [hpc]) }
  | unlock out hpc => exact hi.release_pop (by simp [hpc]) (by simp)

theorem Locked.step [Fintype P] [Fintype C] {a : Action P C T} (hi : Locked s)
    (h : step cfg s a = some t) : Locked t := by
  rcases step_cases h with ⟨p, input, w, -, hp⟩ | ⟨c, w, -, hc⟩ | ⟨p, -, rfl⟩ | ⟨c, -, rfl⟩
  · exact hi.push hp
  · exact hi.pop hc
  · exact { hi with producers := hi.producers.stay (PushPc.holds_wake _) }
  · exact { hi with consumers := hi.consumers.stay (PopPc.holds_wake _) }

/-- No consumer is at `_q.front()` or `_q.pop()` of an empty queue. -/
def TakesItem (s : State P C T) : Prop := ∀ c, (s.consumer c).takes = true → s.q ≠ []

/-- The step is not a consumer's return from `pthread_cond_wait` to an empty queue. -/
def ReturnsToItem (s : State P C T) : Action P C T → Prop
  | .pop c _ => s.consumer c = .woken → s.q ≠ []
  | _ => True

omit [DecidableEq P] in
/-- A consumer moves while the queue stays as it is. -/
theorem TakesItem.move (hi : TakesItem s) (c : C) {k : PopPc T}
    (hk : k.takes = true → s.q ≠ []) : ∀ u,
    (Function.update s.consumer c k u).takes = true → s.q ≠ [] := by
  intro u hu
  by_cases huc : u = c
  · subst huc
    exact hk (by simpa using hu)
  · exact hi u (by simpa [huc] using hu)

theorem TakesItem.push [Fintype C] (hi : TakesItem s) {p : P} (h : PushStep cfg s p t) :
    TakesItem t := by
  cases h with
  | enqueue v hpc =>
    intro c _
    simp
  | wake w hpc hhigh hw =>
    intro c hc
    exact hi c ((wakeAll_congr PopPc.takes_wake c).symm.trans hc)
  | lock | sleep | pass | relock | quiet | unlock => exact hi

theorem TakesItem.pop [Fintype P] (hl : Locked s) (hi : TakesItem s) {c : C}
    (h : PopStep cfg s c t) (hret : s.consumer c = .woken → s.q ≠ []) : TakesItem t := by
  cases h with
  | lock hpc hfree => exact hi.move c (by simp)
  | sleep hpc hempty => exact hi.move c (by simp)
  | pass hpc hitem => exact hi.move c fun _ => hitem
  | relock hpc hfree => exact hi.move c fun _ => hret hpc
  | front out rest hpc hq => exact hi.move c fun _ => by simp [hq]
  | drop out first rest hpc hq =>
    -- whoever else takes an item would hold the mutex too
    intro u hu
    have huc : u ≠ c := by
      intro he
      subst he
      simp at hu
    have htakes : (s.consumer u).takes = true := by simpa [huc] using hu
    have hboth : u = c := by
      apply hl.consumers.unique Sum.inr_injective
      · exact PopPc.holds_of_takes htakes
      · simp [hpc]
    exact absurd hboth huc
  | undefine hpc hq => exact absurd hq (hi c hpc)
  | wake out w hpc hlow hw => exact hi.move c (by simp)
  | quiet out hpc hlow => exact hi.move c (by simp)
  | unlock out hpc => exact hi.move c (by simp)

variable [Fintype P] [Fintype C]

theorem takesItem_iff {a : Action P C T} (hl : Locked s) (hi : TakesItem s)
    (h : step cfg s a = some t) : TakesItem t ↔ ReturnsToItem s a := by
  constructor
  · intro ht
    cases a with
    | pop c w =>
      intro hwoken
      unfold step at h
      split at h
      · cases h
      · simp only [stepPop, hwoken] at h
        split at h <;> cases h
        exact ht c (by simp)
    | push | spuriousPush | spuriousPop => trivial
  · intro hret
    rcases step_cases h with ⟨p, _, _, rfl, hp⟩ | ⟨c, _, rfl, hc⟩ | ⟨p, rfl, rfl⟩ | ⟨c, rfl, rfl⟩
    · exact hi.push hp
    · exact hi.pop hl hc hret
    · exact hi
    · exact hi.move c fun hk => hi c ((PopPc.takes_wake _).symm.trans hk)

/-- In a run no consumer ever is at `front()` or `pop()` of an empty queue exactly if none
returns from `pthread_cond_wait` to one. -/
theorem takesItem_throughout_iff (cfg : Config) (as : List (Action P C T)) :
    (system P C T cfg).Throughout TakesItem (init P C T) as ↔
      (system P C T cfg).Admits ReturnsToItem (init P C T) as := by
  apply throughout_iff_admits (J := Locked)
  · intro s a t hl hs
    exact hl.step hs
  · intro s a t hl hi hs
    exact takesItem_iff hl hi hs
  · exact locked_init
  · intro c hc
    simp [init] at hc

/-- A consumer falls asleep, wakes up for no reason and takes the front of nothing. -/
def spuriousRun : List (Action Unit Unit Nat) :=
  List.replicate 2 (Action.pop () ∅) ++ [.spuriousPop (), .pop () ∅]

/-- The sleeper is signalled, and another consumer takes all four items before it has the
mutex again. -/
def overtakenRun : List (Action Unit Bool Nat) :=
  List.replicate 2 (Action.pop false ∅) ++ List.replicate 20 (Action.push () 7 {false}) ++
    List.replicate 24 (Action.pop true ∅) ++ [.pop false ∅]

def spuriousEnd : State Unit Unit Nat :=
  ((system Unit Unit Nat ⟨5, 1, 3⟩).run (init Unit Unit Nat) spuriousRun).get (by decide)

def overtakenEnd : State Unit Bool Nat :=
  ((system Unit Bool Nat ⟨5, 1, 3⟩).run (init Unit Bool Nat) overtakenRun).get (by decide)

/-- With the default capacity, by a spurious wake-up and also without one. -/
theorem takes_from_empty_queue :
    construct 5 = some ⟨5, 1, 3⟩ ∧
    ((system Unit Unit Nat ⟨5, 1, 3⟩).Reachable anyStep spuriousEnd ∧ ¬ TakesItem spuriousEnd) ∧
    (system Unit Bool Nat ⟨5, 1, 3⟩).Reachable regularStep overtakenEnd ∧
      ¬ TakesItem overtakenEnd := by
  refine ⟨by decide, ⟨?_, ?_⟩, ?_, ?_⟩
  · exact reachable_of_run _
  · intro h
    exact h () (by decide) (by decide)
  · have hregular : ∀ a ∈ overtakenRun, a.regular = true := by decide
    exact leads_of_run (fun a ha _ => hregular a ha) (Option.some_get _).symm
  · intro h
    exact h false (by decide) (by decide)

end BlockQueue
