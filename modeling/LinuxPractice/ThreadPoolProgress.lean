import LinuxPractice.ThreadPoolSafety

/-!
# ThreadPool never loses a wake-up

A worker falls asleep only at an empty queue. Whoever makes the queue
non-empty is on its way to `WakeUp`, and a signal leaves some worker awake.
-/
namespace ThreadPool

open Transition Transition.System Threads

variable {P W T : Type} [DecidableEq P] [Fintype W] [DecidableEq W] {s t : State P W T}

/-- A waiting task has a worker awake, or a pusher that is about to signal. -/
def Alert (s : State P W T) : Prop :=
  s.tasks ≠ [] → (∃ c, (s.worker c).asleep = false) ∨ ∃ p, (s.pusher p).announces = true

theorem Alert.push [Inhabited W] {p : P} (hi : Alert s) (h : PushStep s p t) : Alert t := by
  intro hq
  cases h with
  | push v hpc => exact .inr ⟨p, by simp⟩
  | wakeUp w hpc hw => exact .inl (exists_awake WorkPc.asleep_wake hw)
  | lock v hpc hfree =>
    cases hi hq with
    | inl hawake => exact .inl hawake
    | inr hsignal => exact .inr (exists_update hsignal (by simp [hpc]) _)
  | unlock hpc =>
    cases hi hq with
    | inl hawake => exact .inl hawake
    | inr hsignal => exact .inr (exists_update hsignal (by simp [hpc]) _)

omit [DecidableEq P] [Fintype W] in
/-- A worker that moves is awake afterwards, unless it found nothing to do. -/
theorem WorkStep.alert {c : W} (h : WorkStep s c t) : Alert t := by
  intro hq
  cases h with
  | sleep hpc hempty => exact absurd hempty hq
  | undefine hpc hempty => exact absurd hempty hq
  | lock | pass | front | pop | unlock | run => exact .inl ⟨c, by simp⟩

theorem Alert.step [Inhabited W] {a : Action P W T} (hi : Alert s) (h : step s a = some t) :
    Alert t := by
  rcases step_cases h with ⟨p, _, _, -, hp⟩ | ⟨c, -, hc⟩ | ⟨c, -, rfl⟩
  · exact hi.push hp
  · exact hc.alert
  · refine fun _ => .inl ⟨c, ?_⟩
    simp only [Function.update_self, WorkPc.asleep_wake]

theorem alert [Inhabited W] (h : (system P W T).Reachable anyStep s) : Alert s := by
  apply h.invariant
  · exact fun hq => absurd rfl hq
  · exact fun _ _ _ hi _ hs => hi.step hs

/-- Any number of pushing threads, at least one worker, any interleaving: a task waits only
for a worker that is awake, unless its pusher still has to signal. -/
theorem no_lost_wakeup [Inhabited W] (h : (system P W T).Reachable anyStep s)
    (htask : s.tasks ≠ []) (hpast : ∀ p, (s.pusher p).announces = false) :
    ∃ c, (s.worker c).asleep = false := by
  cases alert h htask with
  | inl hawake => exact hawake
  | inr hsignal =>
    obtain ⟨p, hp⟩ := hsignal
    rw [hpast p] at hp
    cases hp

/-- Both workers sleep, two tasks are pushed, and the first signal wakes one of them. -/
def signalRun : List (Action Unit Bool Nat) :=
  List.replicate 2 (Action.work false) ++ List.replicate 2 (Action.work true) ++
    List.replicate 4 (Action.push () 1 {true}) ++ List.replicate 4 (Action.push () 2 {false})

def signalEnd : State Unit Bool Nat :=
  ((system Unit Bool Nat).run (init Unit Bool Nat) signalRun).get (by decide)

theorem no_lost_wakeup_two : signalEnd.tasks = [1, 2] ∧ ∃ c, (signalEnd.worker c).asleep = false := by
  refine ⟨by decide, no_lost_wakeup (s := signalEnd) ?_ (by decide) (by decide)⟩
  exact reachable_of_run _

/-- A thread in the middle of `Push`, or a worker, can step. -/
def Moves (s : State P W T) : Prop :=
  (∃ p input w t, (s.pusher p).holds = true ∧ step s (.push p input w) = some t) ∨
    ∃ c t, step s (.work c) = some t

/-- The thread that holds the mutex can step. -/
theorem Locked.owner_moves (hi : Locked s) (hheld : s.mutex ≠ none) (input : T) : Moves s := by
  cases hm : s.mutex with
  | none => exact absurd hm hheld
  | some owner =>
    cases owner with
    | inl p =>
      have hp := (hi.mutex.left p).mpr hm
      have hw := wakes_all fun c => (s.worker c).asleep
      refine .inl ⟨p, input, Finset.univ.filter fun c => (s.worker c).asleep = true, ?_⟩
      cases hpc : s.pusher p with
      | idle => simp [hpc] at hp
      | push | unlock => simp [ThreadPool.step, hi.defined, stepPush, hpc]
      | wakeUp =>
        simp only [PushPc.holds, ThreadPool.step, hi.defined, Bool.false_eq_true, if_false,
          stepPush, hpc, if_pos hw, Option.some.injEq, true_and, exists_eq']
    | inr c =>
      have hc := (hi.mutex.right c).mpr hm
      refine .inr ⟨c, ?_⟩
      cases hpc : s.worker c with
      | check =>
        by_cases hq : s.tasks.isEmpty = true <;>
          simp [ThreadPool.step, hi.defined, stepWork, hpc, hq]
      | front | pop => cases hq : s.tasks <;> simp [ThreadPool.step, hi.defined, stepWork, hpc, hq]
      | unlock => simp [ThreadPool.step, hi.defined, stepWork, hpc]
      | lock | waiting | woken | run => simp [hpc] at hc

/-- A worker that is awake, or the thread it waits for, can step. -/
theorem Locked.awake_moves (hi : Locked s) {c : W} (hc : (s.worker c).asleep = false) (input : T) :
    Moves s := by
  by_cases hm : s.mutex = none
  · cases hpc : s.worker c with
    | waiting => simp [hpc] at hc
    | lock | woken | unlock | run =>
      exact .inr ⟨c, by simp [ThreadPool.step, hi.defined, stepWork, hpc, hm]⟩
    | check | front | pop =>
      have := (hi.mutex.right c).mp (by simp [hpc])
      simp [hm] at this
  · exact hi.owner_moves hm input

/-- The pool is never stuck with tasks in its queue. -/
theorem moves_of_task [Inhabited W] (h : (system P W T).Reachable anyStep s)
    (htask : s.tasks ≠ []) : Moves s := by
  have hl : Locked s := h.invariant locked_init fun _ _ _ hi _ hs => hi.step hs
  have input := s.tasks.head htask
  cases alert h htask with
  | inl hawake =>
    obtain ⟨c, hc⟩ := hawake
    exact hl.awake_moves hc input
  | inr hsignal =>
    obtain ⟨p, hp⟩ := hsignal
    have howner := (hl.mutex.left p).mp (PushPc.holds_of_announces hp)
    exact hl.owner_moves (by simp [howner]) input

end ThreadPool
