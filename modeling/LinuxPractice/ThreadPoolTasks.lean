import LinuxPractice.ThreadPoolSafety

/-!
# ThreadPool holds every task in one place

A task that was pushed is with the thread that pushes it, in the queue, or with
the worker that took it, until that worker has run it.
-/
namespace ThreadPool

open Threads

variable {P W T : Type}

/-- The task a thread is about to put into the queue. -/
def PushPc.carried : PushPc T → Multiset T
  | .push t => {t}
  | _ => 0

def WorkPc.carried (k : WorkPc T) : Multiset T := k.pending

theorem WorkPc.carried_wake (k : WorkPc T) : k.wake.carried = k.carried := by
  rw [carried, pending_wake, carried]

variable [Fintype P] [Fintype W]

/-- The tasks that were pushed and have not run. -/
def held (s : State P W T) : Multiset T :=
  ∑ p, (s.pusher p).carried + s.tasks + ∑ c, (s.worker c).carried

/-- The task that a step brings in. -/
def begun (s : State P W T) : Action P W T → Multiset T
  | .push p v _ =>
    match s.pusher p with
    | .idle => {v}
    | _ => 0
  | _ => 0

/-- The task that a step has run. -/
def done (s : State P W T) : Action P W T → Multiset T
  | .work c =>
    match s.worker c with
    | .run v => {v}
    | _ => 0
  | _ => 0

variable [DecidableEq P] [DecidableEq W] {s t : State P W T}

omit [DecidableEq P] in
theorem held_work_congr {c : W} {k : WorkPc T} (hk : k.carried = (s.worker c).carried)
    (tasks : List T) : ∑ p, (s.pusher p).carried + tasks +
      ∑ d, (Function.update s.worker c k d).carried =
        ∑ p, (s.pusher p).carried + tasks + ∑ d, (s.worker d).carried := by
  have hsum := sum_update WorkPc.carried (rfl : s.worker c = _) k
  rw [hk] at hsum
  rw [add_right_cancel hsum]

omit [Fintype W] [DecidableEq W] in
theorem held_push_congr {p : P} {k : PushPc T} (hk : k.carried = (s.pusher p).carried) :
    ∑ q, (Function.update s.pusher p k q).carried = ∑ q, (s.pusher q).carried := by
  have hsum := sum_update PushPc.carried (rfl : s.pusher p = _) k
  rw [hk] at hsum
  exact add_right_cancel hsum

theorem held_stepPush {p : P} {v : T} {w : Finset W} (h : stepPush s p v w = some t) :
    held t = held s + begun s (.push p v w) := by
  unfold stepPush at h
  cases hpc : s.pusher p with
  | idle =>
    simp only [hpc] at h
    split at h <;> cases h
    have hsum : _ + (0 : Multiset T) = _ + {v} := sum_update PushPc.carried hpc (.push v)
    rw [add_zero] at hsum
    simp only [held, begun, hpc, hsum, add_right_comm]
  | push u =>
    simp only [hpc] at h
    cases h
    have hsum : _ + ({u} : Multiset T) = _ + 0 := sum_update PushPc.carried hpc .wakeUp
    rw [add_zero] at hsum
    simp only [held, begun, hpc, ← hsum, ← Multiset.coe_add, Multiset.coe_singleton, add_zero]
    rw [add_right_comm _ ({u} : Multiset T), add_assoc _ (s.tasks : Multiset T) {u}]
  | wakeUp =>
    simp only [hpc] at h
    split at h <;> cases h
    have hwoken : ∑ c, (wakeAll WorkPc.wake w s.worker c).carried =
        ∑ c, (s.worker c).carried := by
      apply Finset.sum_congr rfl
      intro c _
      exact wakeAll_keeps (Q := fun k : WorkPc T => k.carried = (s.worker c).carried)
        (fun k hk => (WorkPc.carried_wake k).trans hk) rfl
    simp only [held, begun, hpc, hwoken, add_zero]
    rw [held_push_congr (by rw [hpc]; rfl)]
  | unlock =>
    simp only [hpc] at h
    cases h
    simp only [held, begun, hpc, add_zero]
    rw [held_push_congr (by rw [hpc]; rfl)]

omit [DecidableEq P] in
theorem held_workStep {c : W} (hi : Locked s) (h : WorkStep s c t) :
    held t + done s (.work c : Action P W T) = held s := by
  cases h with
  | lock hpc hfree =>
    have hdone : done s (.work c : Action P W T) = 0 := by
      cases hpc with
      | inl h => simp [done, h]
      | inr h => simp [done, h]
    have hk : WorkPc.carried (.check : WorkPc T) = (s.worker c).carried := by
      cases hpc with
      | inl h => rw [h]; rfl
      | inr h => rw [h]; rfl
    rw [hdone, add_zero]
    exact held_work_congr hk s.tasks
  | sleep hpc hempty =>
    simp only [done, hpc, add_zero]
    exact held_work_congr (by rw [hpc]; rfl) s.tasks
  | pass hpc htask =>
    simp only [done, hpc, add_zero]
    exact held_work_congr (by rw [hpc]; rfl) s.tasks
  | front v rest hpc hq =>
    simp only [done, hpc, add_zero]
    exact held_work_congr (by rw [hpc]; rfl) s.tasks
  | pop v first rest hpc hq =>
    have hfront : first = v := by
      have := (hi.front c).2 v (by simp [hpc])
      simpa [hq] using this
    have hsum : _ + (0 : Multiset T) = _ + {v} := sum_update WorkPc.carried hpc (.unlock v)
    rw [add_zero] at hsum
    simp only [held, done, hpc, add_zero, hsum, hq, hfront, ← Multiset.cons_coe,
      ← Multiset.singleton_add]
    abel
  | undefine hpc hq => exact absurd hq ((hi.front c).1 hpc)
  | unlock v hpc =>
    simp only [done, hpc, add_zero]
    exact held_work_congr (by rw [hpc]; rfl) s.tasks
  | run v hpc =>
    have hsum : _ + ({v} : Multiset T) = _ + 0 := sum_update WorkPc.carried hpc .lock
    rw [add_zero] at hsum
    simp only [held, done, hpc, ← hsum, add_assoc]

/-- A step of the pool takes in one task, or has run one, or leaves them all where they are. -/
theorem held_step {a : Action P W T} (hi : Locked s) (h : step s a = some t) :
    held t + done s a = held s + begun s a := by
  cases a with
  | push p v w =>
    have hstep : stepPush s p v w = some t := by simpa [step, hi.defined] using h
    simpa [done] using held_stepPush hstep
  | work c =>
    have hstep : stepWork s c = some t := by simpa [step, hi.defined] using h
    simpa [begun] using held_workStep hi (stepWork_cases hstep)
  | spurious c =>
    simp only [step, hi.defined, Bool.false_eq_true, if_false] at h
    split at h <;> cases h
    simp only [done, begun, add_zero]
    exact held_work_congr (WorkPc.carried_wake _) s.tasks

omit [DecidableEq P] in
/-- A worker's task is one of those the pool holds, and what the others hold is the rest. -/
theorem exists_rest {c : W} {v : T} (hc : (s.worker c).pending = [v]) :
    ∃ rest, held s = v ::ₘ rest ∧ ∀ d u, d ≠ c → (s.worker d).pending = [u] → u ∈ rest := by
  refine ⟨∑ p, (s.pusher p).carried + s.tasks +
    ∑ d ∈ Finset.univ.erase c, (s.worker d).carried, ?_, ?_⟩
  · rw [held, ← Finset.add_sum_erase Finset.univ _ (Finset.mem_univ c), WorkPc.carried, hc]
    exact add_left_comm _ ({v} : Multiset T) _
  · intro d u hd hu
    refine Multiset.mem_add.mpr (.inr (Multiset.mem_sum.mpr ⟨d, by simp [hd], ?_⟩))
    rw [WorkPc.carried, hu]
    exact Multiset.mem_singleton_self u

omit [Fintype P] in
/-- A worker runs the task it ran before, or the one it has just let go of the mutex with. -/
theorem run_of_step {a : Action P W T} {c : W} {v : T} (h : step s a = some t)
    (hc : t.worker c = .run v) : s.worker c = .run v ∨ s.worker c = .unlock v := by
  rcases step_cases h with ⟨p, _, _, -, hp⟩ | ⟨d, -, hd⟩ | ⟨d, -, rfl⟩
  · cases hp with
    | wakeUp w hpc hw =>
      simp only [wakeAll] at hc
      split at hc
      · cases hk : s.worker c <;> rw [hk] at hc <;> cases hc
        exact .inl rfl
      · exact .inl hc
    | lock | push | unlock => exact .inl hc
  · by_cases he : c = d
    · subst he
      cases hd with
      | undefine => exact .inl hc
      | unlock u hpc =>
        simp only [Function.update_self] at hc
        cases hc
        exact .inr hpc
      | lock | sleep | pass | front | pop | run => simp at hc
    · left
      cases hd <;> simpa [he] using hc
  · by_cases he : c = d
    · subst he
      simp only [Function.update_self] at hc
      cases hk : s.worker c <;> rw [hk] at hc <;> cases hc
      exact .inl rfl
    · simp only [Function.update_of_ne he] at hc
      exact .inl hc

omit [Fintype P] in
/-- A worker goes on running its task until it takes a step itself. -/
theorem run_step {a : Action P W T} {c : W} {v : T} (h : step s a = some t)
    (hc : s.worker c = .run v) (ha : a ≠ .work c) : t.worker c = .run v := by
  rcases step_cases h with ⟨p, _, _, -, hp⟩ | ⟨d, rfl, hd⟩ | ⟨d, -, rfl⟩
  · cases hp with
    | wakeUp w hpc hw =>
      simp only [wakeAll, hc]
      split <;> rfl
    | lock | push | unlock => exact hc
  · have he : c ≠ d := by
      rintro rfl
      exact ha rfl
    cases hd <;> simpa [he] using hc
  · by_cases he : c = d
    · subst he
      simp [hc]
    · simp [he, hc]

omit [Fintype P] in
theorem pusher_step {a : Action P W T} (h : step s a = some t) (ha : ∀ p v w, a ≠ .push p v w) :
    t.pusher = s.pusher := by
  rcases step_cases h with ⟨p, v, w, rfl, -⟩ | ⟨d, -, hd⟩ | ⟨d, -, rfl⟩
  · exact absurd rfl (ha p v w)
  · cases hd <;> rfl
  · rfl

omit [Fintype P] [Fintype W] [DecidableEq P] [DecidableEq W] in
theorem done_eq_zero {a : Action P W T} (hout : ∀ c v, s.worker c = .run v → a ≠ .work c) :
    done s a = 0 := by
  cases a with
  | push | spurious => rfl
  | work c =>
    cases hc : s.worker c with
    | run v => exact absurd rfl (hout c v hc)
    | lock | check | waiting | woken | front | pop | unlock => simp [done, hc]

omit [Fintype P] in
theorem step_run {c : W} {v : T} (hc : s.worker c = .run v) (h : step s (.work c) = some t) :
    t = { s with worker := Function.update s.worker c .lock } := by
  unfold step at h
  split at h
  · cases h
  · simpa [stepWork, hc] using h.symm

end ThreadPool
