import LinuxPractice.BlockQueueProgress

/-!
# BlockQueue: the capacities at which it can stop for ever

With `low_water = 0` no `pop` ever signals a producer. The run below fills the
queue, puts every producer to sleep, empties it and puts every consumer to
sleep, for any number of threads.
-/
namespace BlockQueue

open Transition Transition.System Threads

variable {P C T : Type} [Fintype P] [DecidableEq P] [Fintype C] [DecidableEq C]
  {cfg : Config} {q : List T} {f : P → PushPc T} {g : C → PopPc T} {v : T}

/-- Nobody is inside the critical section. -/
def rest (q : List T) (f : P → PushPc T) (g : C → PopPc T) : State P C T := ⟨q, none, f, g, false⟩

theorem leads_replicate {s t : State P C T} {a : Action P C T} (n : Nat) (ha : a.regular = true)
    (h : (system P C T cfg).run s (List.replicate n a) = some t) :
    (system P C T cfg).Leads regularStep s t := by
  apply leads_of_run _ h
  intro b hb _
  obtain rfl := List.eq_of_mem_replicate hb
  exact ha

/-- One call of `push` while no consumer sleeps. -/
theorem push_call {p : P} (hp : f p = .idle) (hroom : q.length ≠ cfg.maxcap)
    (hg : ∀ c, (g c).asleep = false) :
    (system P C T cfg).Leads regularStep (rest q f g) (rest (q ++ [v]) f g) := by
  have hback : Function.update f p .idle = f := by
    rw [← hp]
    exact Function.update_eq_self p f
  have hw := wakes_empty hg
  apply leads_replicate (a := .push p v ∅) 5 rfl
  by_cases hhigh : cfg.highWater < q.length + 1
  · simp [-PopPc.asleep, System.run, system, step, stepPush, rest, hp, hroom, hhigh, hw, hback]
  · simp [System.run, system, step, stepPush, rest, hp, hroom, hhigh, hback]

/-- A producer falls asleep at a full queue. -/
theorem push_sleeps {p : P} (hp : f p = .idle) (hfull : q.length = cfg.maxcap) :
    (system P C T cfg).Leads regularStep (rest q f g)
      (rest q (Function.update f p (.waiting v)) g) := by
  apply leads_replicate (a := .push p v ∅) 2 rfl
  simp [System.run, system, step, stepPush, rest, hp, hfull]

/-- One call of `pop` that signals nobody. -/
theorem pop_call (hlow : cfg.lowWater = 0) {c : C} (hc : g c = .idle) :
    (system P C T cfg).Leads regularStep (rest (v :: q) f g) (rest q f g) := by
  have hback : Function.update g c .idle = g := by
    rw [← hc]
    exact Function.update_eq_self c g
  apply leads_replicate (a := .pop c ∅) 6 rfl
  simp [System.run, system, step, stepPop, rest, hc, hlow, hback]

/-- A consumer falls asleep at an empty queue. -/
theorem pop_sleeps {c : C} (hc : g c = .idle) :
    (system P C T cfg).Leads regularStep (rest [] f g)
      (rest [] f (Function.update g c .waiting)) := by
  apply leads_replicate (a := .pop c ∅) 2 rfl
  simp [System.run, system, step, stepPop, rest, hc]

theorem fill [Inhabited P] (n : Nat) (hn : n ≤ cfg.maxcap) :
    (system P C T cfg).Leads regularStep (rest [] (fun _ => .idle) fun _ => .idle)
      (rest (List.replicate n v) (fun _ => .idle) fun _ => .idle) := by
  induction n with
  | zero => exact .refl
  | succ n ih =>
    have hroom : (List.replicate n v).length ≠ cfg.maxcap := by
      rw [List.length_replicate]
      omega
    have hpush := push_call (f := fun _ : P => PushPc.idle) (g := fun _ : C => PopPc.idle)
      (p := default) (v := v) rfl hroom fun _ => rfl
    rw [List.replicate_succ']
    exact (ih (by omega)).trans hpush

theorem producers_sleep (hfull : q.length = cfg.maxcap) :
    (system P C T cfg).Leads regularStep (rest q (fun _ => .idle) g)
      (rest q (fun _ => .waiting v) g) := by
  apply move_all (R := fun f => (system P C T cfg).Leads regularStep
    (rest q (fun _ => .idle) g) (rest q f g))
  · exact .refl
  · intro f p h hp
    exact h.trans (push_sleeps hp hfull)

theorem drain (hlow : cfg.lowWater = 0) [Inhabited C] :
    (system P C T cfg).Leads regularStep (rest q f fun _ => .idle) (rest [] f fun _ => .idle) := by
  induction q with
  | nil => exact .refl
  | cons x q ih => exact (pop_call hlow (c := default) rfl).trans ih

theorem consumers_sleep :
    (system P C T cfg).Leads regularStep (rest [] f fun _ => .idle)
      (rest [] f fun _ => .waiting) := by
  apply move_all (R := fun g => (system P C T cfg).Leads regularStep
    (rest [] f fun _ => .idle) (rest [] f g))
  · exact .refl
  · intro g c h hc
    exact h.trans (pop_sleeps hc)

/-- Every thread asleep at an empty queue. -/
theorem all_sleep_of_lowWater_eq_zero (hlow : cfg.lowWater = 0) [Inhabited P] [Inhabited C] (v : T) :
    (system P C T cfg).Reachable regularStep (rest [] (fun _ => .waiting v) fun _ => .waiting) := by
  have hfill := fill (P := P) (C := C) (v := v) cfg.maxcap (Nat.le_refl _)
  have hproducers : (system P C T cfg).Leads regularStep
      (rest (List.replicate cfg.maxcap v) (fun _ => .idle) fun _ => .idle)
      (rest (List.replicate cfg.maxcap v) (fun _ => .waiting v) fun _ => .idle) :=
    producers_sleep List.length_replicate
  exact ((hfill.trans hproducers).trans (drain hlow)).trans consumers_sleep

/-- Once all sleep nothing happens any more. -/
theorem step_of_allAsleep {s : State P C T} (h : AllAsleep s) {a : Action P C T}
    (ha : a.regular = true) : step cfg s a = none := by
  unfold step
  split
  · rfl
  · cases a with
    | push p input w =>
      have hp := h.1 p
      cases hpc : s.producer p <;> simp [hpc] at hp
      simp [stepPush, hpc]
    | pop c w =>
      have hc := h.2 c
      cases hpc : s.consumer c <;> simp [hpc] at hc
      simp [stepPop, hpc]
    | spuriousPush p | spuriousPop c => cases ha

theorem construct_eq_some_iff {maxcap : Nat} : construct maxcap = some cfg ↔
    maxcap ≤ 1073741823 ∧ cfg = ⟨maxcap, maxcap / 3, maxcap * 2 / 3⟩ := by
  unfold construct
  split
  · have hle : maxcap ≤ 1073741823 := by omega
    simp [hle, eq_comm]
  · have hgt : ¬ maxcap ≤ 1073741823 := by omega
    simp [hgt]

/-- The constructor is defined, and some thread has a step and not every thread sleeps unsignalled.
Left out are spurious wake-ups and the states behind a `front()` or `pop()` of an empty queue. -/
def DeadlockFree (P C T : Type) [Fintype P] [DecidableEq P] [Fintype C] [DecidableEq C]
    (maxcap : Nat) : Prop :=
  ∃ cfg, construct maxcap = some cfg ∧ ∀ s : State P C T,
    (system P C T cfg).Reachable regularStep s → s.undefined = false →
      (∃ a : Action P C T, a.regular = true ∧ (step cfg s a).isSome = true) ∧ ¬ AllAsleep s

theorem deadlockFree_iff (P C T : Type) [Fintype P] [DecidableEq P] [Inhabited P]
    [Fintype C] [DecidableEq C] [Inhabited C] [Inhabited T] (maxcap : Nat) :
    DeadlockFree P C T maxcap ↔ 3 ≤ maxcap ∧ maxcap ≤ 1073741823 := by
  constructor
  · intro h
    obtain ⟨cfg, hcfg, hfree⟩ := h
    obtain ⟨hle, rfl⟩ := construct_eq_some_iff.mp hcfg
    refine ⟨?_, hle⟩
    by_contra hsmall
    have hlow : maxcap / 3 = 0 := by omega
    have hreach : (system P C T ⟨maxcap, maxcap / 3, maxcap * 2 / 3⟩).Reachable regularStep
        (rest [] (fun _ => .waiting default) fun _ => .waiting) :=
      all_sleep_of_lowWater_eq_zero hlow default
    have hnot := (hfree _ hreach rfl).2
    exact hnot ⟨fun _ => rfl, fun _ => rfl⟩
  · intro h
    refine ⟨_, construct_eq_some_iff.mpr ⟨h.2, rfl⟩, ?_⟩
    intro s hreach hdef
    have halert := alert_of_reachable (by simp only; omega) (by simp only; omega) hreach
    have hawake := halert.not_allAsleep
    exact ⟨halert.progress _ hdef hawake, hawake⟩

/-- Capacity one: a value is pushed, the producer sleeps at the full queue, the value is popped
without a signal, the consumer sleeps at the empty queue. -/
def stuckRun : List (Action Unit Unit Nat) :=
  List.replicate 7 (Action.push () 7 ∅) ++ List.replicate 8 (Action.pop () ∅)

def stuckEnd : State Unit Unit Nat :=
  ((system Unit Unit Nat ⟨1, 0, 0⟩).run (init Unit Unit Nat) stuckRun).get (by decide)

theorem stuck_at_capacity_one :
    ¬ DeadlockFree Unit Unit Nat 1 ∧ construct 1 = some ⟨1, 0, 0⟩ ∧
    (system Unit Unit Nat ⟨1, 0, 0⟩).Reachable regularStep stuckEnd ∧
    stuckEnd.undefined = false ∧ AllAsleep stuckEnd ∧
    ∀ a : Action Unit Unit Nat, a.regular = true → step ⟨1, 0, 0⟩ stuckEnd a = none := by
  have hregular : ∀ a ∈ stuckRun, a.regular = true := by decide
  have hasleep : AllAsleep stuckEnd := ⟨by decide, by decide⟩
  have hcfg : construct 1 = some ⟨1, 0, 0⟩ := by decide
  have hreach : (system Unit Unit Nat ⟨1, 0, 0⟩).Reachable regularStep stuckEnd :=
    leads_of_run (fun a ha _ => hregular a ha) (Option.some_get _).symm
  refine ⟨?_, hcfg, hreach, by decide, hasleep, fun a ha => step_of_allAsleep hasleep ha⟩
  intro h
  obtain ⟨cfg, hcfg', hfree⟩ := h
  obtain rfl := Option.some.inj (hcfg.symm.trans hcfg')
  exact (hfree stuckEnd hreach (by decide)).2 hasleep

end BlockQueue
