import LinuxPractice.RingQueue

/-!
# RingQueue keeps its two sides apart

`Tokens` counts the completed writes `W` and reads `R`: the semaphores and the
threads between wait and post account for every slot, and the two indices are
`W` and `R` taken round the ring. `Fifo` adds the values written and read.
-/
namespace RingQueue

open Transition Transition.System Threads

variable {P C T : Type} [DecidableEq P] [DecidableEq C] [Fintype P] [Fintype C]
  {cap W R : Nat} {s t : State P C T}

/-- Every slot is free, taken by a thread, or holds an entry. -/
structure Tokens (cap : Nat) (s : State P C T) (W R : Nat) : Prop where
  size : s.ringqueue.length = cap
  pStep : s.pStep = W % cap
  cStep : s.cStep = R % cap
  producers : Owns id PushPc.holds s.producer s.pMutex
  consumers : Owns id PopPc.holds s.consumer s.cMutex
  space : s.pspaceSem + W + count PushPc.early s.producer + count PopPc.late s.consumer = cap + R
  data : s.cdataSem + R + count PopPc.early s.consumer + count PushPc.late s.producer = W

omit [DecidableEq P] [DecidableEq C] in
theorem tokens_init (cap : Nat) (default : T) : Tokens cap (init P C cap default) 0 0 where
  size := by simp [init]
  pStep := by simp [init]
  cStep := by simp [init]
  producers := by intro p; simp [init]
  consumers := by intro c; simp [init]
  space := by
    rw [count_eq_zero fun _ => rfl, count_eq_zero fun _ => rfl]
    simp [init]
  data := by
    rw [count_eq_zero fun _ => rfl, count_eq_zero fun _ => rfl]
    simp [init]

omit [DecidableEq C] in
/-- A producer's move keeps the accounts when the semaphores and `W` change by
what the thread itself stands for. -/
theorem Tokens.move_producer (hi : Tokens cap s W R) {p : P} {k : PushPc T}
    (hpc : s.producer p = k) (k' : PushPc T) (space data W' : Nat)
    (hspace : space + W' + k'.early.toNat = s.pspaceSem + W + k.early.toNat)
    (hdata : data + W + k'.late.toNat = s.cdataSem + W' + k.late.toNat) :
    space + W' + count PushPc.early (Function.update s.producer p k') +
        count PopPc.late s.consumer = cap + R ∧
      data + R + count PopPc.early s.consumer +
        count PushPc.late (Function.update s.producer p k') = W' := by
  have hearly := count_move PushPc.early hpc k'
  have hlate := count_move PushPc.late hpc k'
  have := hi.space
  have := hi.data
  omega

omit [DecidableEq P] in
theorem Tokens.move_consumer (hi : Tokens cap s W R) {c : C} {k : PopPc}
    (hpc : s.consumer c = k) (k' : PopPc) (space data R' : Nat)
    (hspace : space + R + k'.late.toNat = s.pspaceSem + R' + k.late.toNat)
    (hdata : data + R' + k'.early.toNat = s.cdataSem + R + k.early.toNat) :
    space + W + count PushPc.early s.producer +
        count PopPc.late (Function.update s.consumer c k') = cap + R' ∧
      data + R' + count PopPc.early (Function.update s.consumer c k') +
        count PushPc.late s.producer = W := by
  have hearly := count_move PopPc.early hpc k'
  have hlate := count_move PopPc.late hpc k'
  have := hi.space
  have := hi.data
  omega

omit [DecidableEq C] in
theorem Tokens.stepPush {p : P} {input : T} (hi : Tokens cap s W R)
    (h : stepPush cap s p input = some t) :
    Tokens cap t (W + (s.producer p).advancing.toNat) R := by
  cases hpc : s.producer p with
  | wait =>
    simp only [RingQueue.stepPush, hpc] at h
    split at h
    · cases h
      have hmove := hi.move_producer hpc (.lock input) (s.pspaceSem - 1) s.cdataSem W
        (by simp; omega) (by simp)
      exact { hi with
        producers := hi.producers.stay (by simp [hpc])
        space := hmove.1
        data := hmove.2 }
    · cases h
  | lock v =>
    simp only [RingQueue.stepPush, hpc] at h
    split at h
    · rename_i hfree
      cases h
      have hmove := hi.move_producer hpc (.write v) _ _ W rfl rfl
      have hown := hi.producers
      rw [hfree] at hown
      exact { hi with
        producers := hown.acquire Function.injective_id (by simp)
        space := hmove.1
        data := hmove.2 }
    · cases h
  | write v =>
    simp only [RingQueue.stepPush, hpc] at h
    cases h
    have hmove := hi.move_producer hpc .advance _ _ W rfl rfl
    exact { hi with
      size := by simp [hi.size]
      producers := hi.producers.stay (by simp [hpc])
      space := hmove.1
      data := hmove.2 }
  | advance =>
    simp only [RingQueue.stepPush, hpc] at h
    cases h
    have hmove := hi.move_producer hpc .unlock s.pspaceSem s.cdataSem (W + 1)
      (by simp; omega) (by simp; omega)
    exact { hi with
      pStep := by simp [hi.pStep]
      producers := hi.producers.stay (by simp [hpc])
      space := hmove.1
      data := hmove.2 }
  | unlock =>
    simp only [RingQueue.stepPush, hpc] at h
    cases h
    have hmove := hi.move_producer hpc .post _ _ W rfl rfl
    exact { hi with
      producers := hi.producers.release Function.injective_id (by simp [hpc]) (by simp)
      space := hmove.1
      data := hmove.2 }
  | post =>
    simp only [RingQueue.stepPush, hpc] at h
    cases h
    have hmove := hi.move_producer hpc .wait s.pspaceSem (s.cdataSem + 1) W
      (by simp) (by simp; omega)
    exact { hi with
      producers := hi.producers.stay (by simp [hpc])
      space := hmove.1
      data := hmove.2 }

omit [DecidableEq P] in
theorem Tokens.stepPop {c : C} (hi : Tokens cap s W R) (h : stepPop cap s c = some t) :
    Tokens cap t W (R + (s.consumer c).advancing.toNat) := by
  cases hpc : s.consumer c with
  | wait =>
    simp only [RingQueue.stepPop, hpc] at h
    split at h
    · cases h
      have hmove := hi.move_consumer hpc .lock s.pspaceSem (s.cdataSem - 1) R
        (by simp) (by simp; omega)
      exact { hi with
        consumers := hi.consumers.stay (by simp [hpc])
        space := hmove.1
        data := hmove.2 }
    · cases h
  | lock =>
    simp only [RingQueue.stepPop, hpc] at h
    split at h
    · rename_i hfree
      cases h
      have hmove := hi.move_consumer hpc .read _ _ R rfl rfl
      have hown := hi.consumers
      rw [hfree] at hown
      exact { hi with
        consumers := hown.acquire Function.injective_id (by simp)
        space := hmove.1
        data := hmove.2 }
    · cases h
  | read =>
    simp only [RingQueue.stepPop, hpc] at h
    cases h
    have hmove := hi.move_consumer hpc .advance _ _ R rfl rfl
    exact { hi with
      consumers := hi.consumers.stay (by simp [hpc])
      space := hmove.1
      data := hmove.2 }
  | advance =>
    simp only [RingQueue.stepPop, hpc] at h
    cases h
    have hmove := hi.move_consumer hpc .unlock s.pspaceSem s.cdataSem (R + 1)
      (by simp; omega) (by simp; omega)
    exact { hi with
      cStep := by simp [hi.cStep]
      consumers := hi.consumers.stay (by simp [hpc])
      space := hmove.1
      data := hmove.2 }
  | unlock =>
    simp only [RingQueue.stepPop, hpc] at h
    cases h
    have hmove := hi.move_consumer hpc .post _ _ R rfl rfl
    exact { hi with
      consumers := hi.consumers.release Function.injective_id (by simp [hpc]) (by simp)
      space := hmove.1
      data := hmove.2 }
  | post =>
    simp only [RingQueue.stepPop, hpc] at h
    cases h
    have hmove := hi.move_consumer hpc .wait (s.pspaceSem + 1) s.cdataSem R
      (by simp; omega) (by simp)
    exact { hi with
      consumers := hi.consumers.stay (by simp [hpc])
      space := hmove.1
      data := hmove.2 }

theorem Tokens.step {a : Action P C T} (hi : Tokens cap s W R) (h : step cap s a = some t) :
    ∃ W' R', Tokens cap t W' R' := by
  cases a with
  | push p v => exact ⟨_, _, hi.stepPush h⟩
  | pop c => exact ⟨_, _, hi.stepPop h⟩

theorem tokens_of_reachable {default : T} (h : (system P C cap default).Reachable anyStep s) :
    ∃ W R, Tokens cap s W R := by
  apply h.invariant ⟨0, 0, tokens_init cap default⟩
  intro s a t hi _ hs
  obtain ⟨W, R, hi⟩ := hi
  exact hi.step hs

omit [DecidableEq P] [DecidableEq C] in
theorem Tokens.sum (hi : Tokens cap s W R) :
    s.cdataSem + s.pspaceSem +
      (count PushPc.inFlight s.producer + count PopPc.inFlight s.consumer) = cap := by
  have hspace := hi.space
  have hdata := hi.data
  rw [count_add PushPc.inFlight_eq, count_add PopPc.inFlight_eq]
  omega

omit [DecidableEq P] [DecidableEq C] in
/-- A producer that has taken a place finds less than one round between the indices. -/
theorem Tokens.room (hi : Tokens cap s W R) {p : P} (hp : (s.producer p).early = true) :
    W < R + cap := by
  have hspace := hi.space
  have hpos := count_pos (f := PushPc.early) hp
  omega

omit [DecidableEq P] [DecidableEq C] in
/-- A consumer that has taken an entry finds one. -/
theorem Tokens.available (hi : Tokens cap s W R) {c : C} (hc : (s.consumer c).early = true) :
    R < W := by
  have hdata := hi.data
  have hpos := count_pos (f := PopPc.early) hc
  omega

omit [DecidableEq P] [DecidableEq C] in
theorem Tokens.slots_ne (hi : Tokens cap s W R) {p : P} {c : C}
    (hp : (s.producer p).atSlot = true) (hc : (s.consumer c).atSlot = true) :
    s.pStep ≠ s.cStep := by
  have hroom : W < R + cap := hi.room (PushPc.early_of_atSlot hp)
  have havail : R < W := hi.available (PopPc.early_of_atSlot hc)
  rw [hi.pStep, hi.cStep]
  exact (Ring.mod_ne havail hroom).symm

/-- In every reachable state the tokens add up to `cap`, both indices lie in the
vector, and a slot being written is not the slot being read. -/
theorem sides_apart (hcap : 1 ≤ cap) (default : T)
    (h : (system P C cap default).Reachable anyStep s) :
    (s.cdataSem + s.pspaceSem +
        (count PushPc.inFlight s.producer + count PopPc.inFlight s.consumer) = cap ∧
      s.pStep < cap ∧ s.cStep < cap) ∧
    ∀ p c, (s.producer p).atSlot = true → (s.consumer c).atSlot = true → s.pStep ≠ s.cStep := by
  obtain ⟨W, R, hi⟩ := tokens_of_reachable h
  refine ⟨⟨hi.sum, ?_, ?_⟩, fun p c hp hc => hi.slots_ne hp hc⟩
  · rw [hi.pStep]
    exact Nat.mod_lt _ hcap
  · rw [hi.cStep]
    exact Nat.mod_lt _ hcap

/-- One value pushed, then a producer and a consumer inside their critical sections. -/
def busyRun : List (Action Bool Unit Nat) :=
  List.replicate 6 (Action.push false 7) ++ List.replicate 2 (Action.push true 8) ++
    List.replicate 2 (Action.pop ())

def busyState : State Bool Unit Nat :=
  ((system Bool Unit 2 0).run (init Bool Unit 2 0) busyRun).get (by decide)

theorem sides_apart_busy :
    (busyState.cdataSem + busyState.pspaceSem +
        (count PushPc.inFlight busyState.producer + count PopPc.inFlight busyState.consumer) = 2 ∧
      busyState.pStep < 2 ∧ busyState.cStep < 2) ∧
    busyState.pStep ≠ busyState.cStep := by
  have hreach : (system Bool Unit 2 0).Reachable anyStep busyState := reachable_of_run _
  have h := sides_apart (by decide) 0 hreach
  exact ⟨h.1, h.2 true () (by decide) (by decide)⟩

end RingQueue
