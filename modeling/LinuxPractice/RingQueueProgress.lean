import LinuxPractice.RingQueueSafety

/-!
# RingQueue never stops

Each side takes its semaphore before its mutex, so a thread that holds a mutex
is past every wait. With both mutexes free a thread in flight can go on; with
nobody in flight all the tokens are back in the two semaphores.
-/
namespace RingQueue

open Transition Transition.System Threads

variable {P C T : Type} {cap W R : Nat} {s : State P C T}

/-- The two places where `Push` may have to wait. -/
def PushBlocked (s : State P C T) (p : P) : Prop :=
  s.producer p = .wait ∧ s.pspaceSem = 0 ∨ (∃ v, s.producer p = .lock v) ∧ s.pMutex ≠ none

/-- The two places where `Pop` may have to wait. -/
def PopBlocked (s : State P C T) (c : C) : Prop :=
  s.consumer c = .wait ∧ s.cdataSem = 0 ∨ s.consumer c = .lock ∧ s.cMutex ≠ none

theorem PushBlocked.not_holds {p : P} (h : PushBlocked s p) : (s.producer p).holds = false := by
  rcases h with ⟨hpc, -⟩ | ⟨⟨v, hpc⟩, -⟩ <;> simp [hpc]

theorem PopBlocked.not_holds {c : C} (h : PopBlocked s c) : (s.consumer c).holds = false := by
  rcases h with ⟨hpc, -⟩ | ⟨hpc, -⟩ <;> simp [hpc]

/-- With its mutex free a producer waits for a token only, and has none. -/
theorem PushBlocked.no_token {p : P} (h : PushBlocked s p) (hfree : s.pMutex = none) :
    (s.producer p).inFlight = false ∧ s.pspaceSem = 0 := by
  rcases h with ⟨hpc, hsem⟩ | ⟨-, hheld⟩
  · exact ⟨by simp [hpc], hsem⟩
  · exact absurd hfree hheld

theorem PopBlocked.no_token {c : C} (h : PopBlocked s c) (hfree : s.cMutex = none) :
    (s.consumer c).inFlight = false ∧ s.cdataSem = 0 := by
  rcases h with ⟨hpc, hsem⟩ | ⟨-, hheld⟩
  · exact ⟨by simp [hpc], hsem⟩
  · exact absurd hfree hheld

theorem stepPush_eq_none [DecidableEq P] {p : P} {v : T} :
    stepPush cap s p v = none ↔ PushBlocked s p := by
  unfold PushBlocked stepPush
  cases hpc : s.producer p with
  | wait => simp
  | lock v => cases hm : s.pMutex <;> simp
  | write v | advance | unlock | post => simp

theorem stepPop_eq_none [DecidableEq C] {c : C} :
    stepPop cap s c = none ↔ PopBlocked s c := by
  unfold PopBlocked stepPop
  cases hpc : s.consumer c with
  | wait => simp
  | lock => cases hm : s.cMutex <;> simp
  | read | advance | unlock | post => simp

/-- The threads are not all blocked. -/
theorem Tokens.not_all_blocked [Fintype P] [Fintype C] [Inhabited P] [Inhabited C]
    (hi : Tokens cap s W R) (hcap : 1 ≤ cap) (hp : ∀ p, PushBlocked s p)
    (hc : ∀ c, PopBlocked s c) : False := by
  have hpfree := hi.producers.eq_none fun p => (hp p).not_holds
  have hcfree := hi.consumers.eq_none fun c => (hc c).not_holds
  have hpushing : count PushPc.inFlight s.producer = 0 :=
    count_eq_zero fun p => ((hp p).no_token hpfree).1
  have hpopping : count PopPc.inFlight s.consumer = 0 :=
    count_eq_zero fun c => ((hc c).no_token hcfree).1
  have hspace := ((hp default).no_token hpfree).2
  have hdata := ((hc default).no_token hcfree).2
  have hsum := hi.sum
  omega

/-- In every reachable state some producer, whatever it pushes, or some consumer has a step. -/
theorem some_thread_steps [DecidableEq P] [DecidableEq C] [Fintype P] [Fintype C] [Inhabited P]
    [Inhabited C] (hcap : 1 ≤ cap) (default : T)
    (h : (system P C cap default).Reachable anyStep s) :
    (∃ p, ∀ v, (step cap s (.push p v)).isSome) ∨ ∃ c, (step cap s (.pop c)).isSome := by
  obtain ⟨W, R, hi⟩ := tokens_of_reachable h
  by_contra hstuck
  simp only [not_or, not_exists, not_forall, Option.not_isSome_iff_eq_none] at hstuck
  apply hi.not_all_blocked hcap
  · intro p
    obtain ⟨v, hv⟩ := hstuck.1 p
    exact stepPush_eq_none.mp hv
  · intro c
    exact stepPop_eq_none.mp (hstuck.2 c)

theorem some_thread_steps_busy :
    (∃ p, ∀ v, (step 2 busyState (.push p v)).isSome) ∨
      ∃ c, (step 2 busyState (.pop c)).isSome := by
  have hreach : (system Bool Unit 2 0).Reachable anyStep busyState := reachable_of_run _
  exact some_thread_steps (by decide) 0 hreach

end RingQueue
