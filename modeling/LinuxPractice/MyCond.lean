import LinuxPractice.Transition
import LinuxPractice.Threads

/-!
# Counting on a condition variable

`Count` of `mycond.cc` and `condition/mycond.cc`, run by any number of threads,
and the broadcasts of `main`, which does not take the mutex. Nothing stands in
front of `pthread_cond_wait`: a thread that returns from it, for whatever
reason, prints the next number and sleeps again.
-/
namespace MyCond

open Transition Transition.System Threads

/-- Where a thread stands. `woken` is inside `pthread_cond_wait`, waiting for the mutex; `write n`
has read `cnt`, and `print n` has stored what `cnt++` makes of it. -/
inductive Pc where
  | lock : Pc
  | wait : Pc
  | waiting : Pc
  | woken : Pc
  | read : Pc
  | write : Int → Pc
  | print : Int → Pc
  | unlock : Pc
  deriving DecidableEq, Repr

namespace Pc

/-- Holding `mutex`. -/
@[simp] def inside : Pc → Bool
  | .wait | .read | .write _ | .print _ | .unlock => true
  | _ => false

@[simp] def asleep : Pc → Bool
  | .waiting => true
  | _ => false

@[simp] def wake : Pc → Pc
  | .waiting => .woken
  | k => k

/-- The number is counted and not printed yet. -/
@[simp] def prints : Pc → Bool
  | .print _ => true
  | _ => false

/-- What a thread that stands here may rely on. -/
@[simp] def Fits (cnt : Int) : Pc → Prop
  | .write n => n = cnt
  | .print n => n + 1 = cnt
  | _ => True

/-- The wake-ups that are not printed yet. -/
@[simp] def owed : Pc → Nat
  | .woken | .read | .write _ | .print _ => 1
  | _ => 0

/-- The steps up to sleep. -/
def rank : Pc → Nat
  | .waiting => 0
  | .wait => 1
  | .lock => 2
  | .unlock => 3
  | .print _ => 4
  | .write _ => 5
  | .read => 6
  | .woken => 7

theorem inside_wake (k : Pc) : k.wake.inside = k.inside := by cases k <;> rfl

theorem prints_wake (k : Pc) : k.wake.prints = k.prints := by cases k <;> rfl

theorem inside_of_prints {k : Pc} (h : k.prints = true) : k.inside = true := by
  cases k <;> simp at h ⊢

theorem Fits.wake {k : Pc} {cnt : Int} (h : k.Fits cnt) : k.wake.Fits cnt := by
  cases k <;> exact h

theorem fits_of_outside {k : Pc} (h : k.inside = false) (cnt : Int) : k.Fits cnt := by
  cases k <;> simp at h ⊢

theorem owed_wake (k : Pc) : k.wake.owed = k.owed + k.asleep.toNat := by cases k <;> rfl

end Pc

/-- INT_MAX, after which `cnt++` has no value. -/
def intMax : Int := 2147483647

structure State (T : Type) where
  cnt : Int
  mutex : Option T
  pc : T → Pc
  undefined : Bool

/-- A step of a thread, a broadcast, or a return from the wait for no reason. -/
inductive Action (T : Type) where
  | count : T → Action T
  | broadcast : Action T
  | spurious : T → Action T
  deriving DecidableEq, Repr

section Model

variable {T : Type} [DecidableEq T]

def init (T : Type) : State T where
  cnt := 0
  mutex := none
  pc := fun _ => .lock
  undefined := false

def State.goto (s : State T) (t : T) (k : Pc) : State T := { s with pc := Function.update s.pc t k }

@[simp] theorem State.goto_cnt (s : State T) (t : T) (k : Pc) : (s.goto t k).cnt = s.cnt := rfl
@[simp] theorem State.goto_mutex (s : State T) (t : T) (k : Pc) :
    (s.goto t k).mutex = s.mutex := rfl
@[simp] theorem State.goto_undefined (s : State T) (t : T) (k : Pc) :
    (s.goto t k).undefined = s.undefined := rfl
@[simp] theorem State.goto_pc (s : State T) (t : T) (k : Pc) :
    (s.goto t k).pc = Function.update s.pc t k := rfl

/-- One step of the thread `t` in `Count`. -/
def stepCount (s : State T) (t : T) : Option (State T) :=
  match s.pc t with
  | .lock =>
    match s.mutex with
    | none => some ({ s with mutex := some t }.goto t .wait)
    | some _ => none
  | .wait => some ({ s with mutex := none }.goto t .waiting)
  | .waiting => none
  | .woken =>
    match s.mutex with
    | none => some ({ s with mutex := some t }.goto t .read)
    | some _ => none
  | .read => some (s.goto t (.write s.cnt))
  | .write n =>
    if n = intMax then some { s with undefined := true }
    else some ({ s with cnt := n + 1 }.goto t (.print n))
  | .print _ => some (s.goto t .unlock)
  | .unlock => some ({ s with mutex := none }.goto t .lock)

def step (s : State T) (a : Action T) : Option (State T) :=
  if s.undefined then none
  else match a with
    | .count t => stepCount s t
    | .broadcast => some { s with pc := fun t => (s.pc t).wake }
    | .spurious t => if (s.pc t).asleep then some (s.goto t (s.pc t).wake) else none

def system (T : Type) [DecidableEq T] : System (State T) (Action T) where
  init := init T
  step := step

/-- What is printed, and who is woken. -/
inductive Event (T : Type) where
  | printed : T → Int → Event T
  | woken : (T → Bool) → Event T

def event (s : State T) : Action T → Option (Event T)
  | .count t =>
    match s.pc t with
    | .print n => some (.printed t n)
    | _ => none
  | .broadcast => some (.woken fun t => (s.pc t).asleep)
  | .spurious t => some (.woken fun u => u = t)

/-- The steps of `Count`. -/
inductive Step (s : State T) (t : T) : State T → Prop
  | lock (hpc : s.pc t = .lock) (hfree : s.mutex = none) :
      Step s t ({ s with mutex := some t }.goto t .wait)
  | wait (hpc : s.pc t = .wait) : Step s t ({ s with mutex := none }.goto t .waiting)
  | relock (hpc : s.pc t = .woken) (hfree : s.mutex = none) :
      Step s t ({ s with mutex := some t }.goto t .read)
  | read (hpc : s.pc t = .read) : Step s t (s.goto t (.write s.cnt))
  | overflow (n : Int) (hpc : s.pc t = .write n) (hmax : n = intMax) :
      Step s t { s with undefined := true }
  | write (n : Int) (hpc : s.pc t = .write n) (hmax : n ≠ intMax) :
      Step s t ({ s with cnt := n + 1 }.goto t (.print n))
  | print (n : Int) (hpc : s.pc t = .print n) : Step s t (s.goto t .unlock)
  | unlock (hpc : s.pc t = .unlock) : Step s t ({ s with mutex := none }.goto t .lock)

variable {s s' : State T} {t : T}

theorem stepCount_cases (h : stepCount s t = some s') : Step s t s' := by
  unfold stepCount at h
  cases hpc : s.pc t with
  | lock =>
    simp only [hpc] at h
    split at h <;> cases h
    exact .lock hpc ‹_›
  | wait =>
    simp only [hpc] at h
    cases h
    exact .wait hpc
  | waiting =>
    simp only [hpc] at h
    cases h
  | woken =>
    simp only [hpc] at h
    split at h <;> cases h
    exact .relock hpc ‹_›
  | read =>
    simp only [hpc] at h
    cases h
    exact .read hpc
  | write n =>
    simp only [hpc] at h
    split at h <;> cases h
    · exact .overflow n hpc ‹_›
    · exact .write n hpc ‹_›
  | print n =>
    simp only [hpc] at h
    cases h
    exact .print n hpc
  | unlock =>
    simp only [hpc] at h
    cases h
    exact .unlock hpc

/-- Only a sleeper, or a thread that waits for the mutex, has no step. -/
theorem stepCount_eq_none (h : stepCount s t = none) :
    s.pc t = .waiting ∨ (s.pc t).inside = false ∧ s.mutex ≠ none := by
  unfold stepCount at h
  cases hpc : s.pc t with
  | waiting => exact .inl rfl
  | lock | woken =>
    simp only [hpc] at h
    split at h <;> cases h
    exact .inr ⟨rfl, by simp [*]⟩
  | write n =>
    simp only [hpc] at h
    split at h <;> cases h
  | wait | read | print n | unlock =>
    simp only [hpc] at h
    cases h

end Model

/-- The numbers printed, in order. -/
def numbers {T : Type} (log : List (Event T)) : List Int :=
  log.filterMap fun | .printed _ n => some n | .woken _ => none

section Record

variable {T : Type} [DecidableEq T] (log : List (Event T)) (t u : T) (n : Int) (w : T → Bool)

/-- How often a thread has printed. -/
def printsOf : Nat := log.countP fun | .printed u _ => u = t | .woken _ => false

/-- How often a thread was woken. -/
def wakesOf : Nat := log.countP fun | .printed _ _ => false | .woken w => w t

omit [DecidableEq T] in
@[simp] theorem numbers_printed : numbers (log ++ [.printed t n]) = numbers log ++ [n] := by
  simp [numbers]
omit [DecidableEq T] in
@[simp] theorem numbers_woken : numbers (log ++ [.woken w]) = numbers log := by simp [numbers]
@[simp] theorem printsOf_printed :
    printsOf (log ++ [.printed u n]) t = printsOf log t + (decide (u = t)).toNat := by
  simp [printsOf, List.countP_append, List.countP_cons, Bool.toNat]
@[simp] theorem printsOf_woken : printsOf (log ++ [.woken w]) t = printsOf log t := by
  simp [printsOf]
omit [DecidableEq T] in
@[simp] theorem wakesOf_printed : wakesOf (log ++ [.printed u n]) t = wakesOf log t := by
  simp [wakesOf]
omit [DecidableEq T] in
@[simp] theorem wakesOf_woken :
    wakesOf (log ++ [.woken w]) t = wakesOf log t + (w t).toNat := by
  simp [wakesOf, List.countP_append, List.countP_cons, Bool.toNat]

end Record

/-- The first `k` numbers. -/
def countup (k : Nat) : List Int := (List.range k).map fun i => (i : Int)

theorem countup_succ (k : Nat) : countup (k + 1) = countup k ++ [(k : Int)] := by
  simp [countup, List.range_succ]

variable {T : Type} [DecidableEq T] [Fintype T] {s s' : State T} {log log' : List (Event T)} {t : T}
  {k : Pc}

structure Counting (s : State T) (log : List (Event T)) : Prop where
  owner : Owns id Pc.inside s.pc s.mutex
  fits : ∀ t, (s.pc t).Fits s.cnt
  total : (numbers log).length + count Pc.prints s.pc = s.cnt
  order : numbers log = countup (numbers log).length
  owed : ∀ t, wakesOf log t = printsOf log t + (s.pc t).owed

omit [DecidableEq T] in
theorem counting_init [DecidableEq T] : Counting (init T) [] where
  owner := by intro t; simp [init]
  fits := by simp [init]
  total := by
    rw [count_eq_zero fun _ => rfl]
    simp [init, numbers]
  order := by simp [numbers, countup]
  owed := by simp [init, wakesOf, printsOf]

omit [Fintype T] in
theorem fits_update {pc : T → Pc} {cnt : Int} (hi : ∀ u, (pc u).Fits cnt) (hk : k.Fits cnt)
    (u : T) : (Function.update pc t k u).Fits cnt := by
  by_cases hu : u = t
  · subst hu
    simpa using hk
  · simpa [hu] using hi u

theorem count_prints (h : (s.pc t).prints = k.prints) :
    count Pc.prints (Function.update s.pc t k) = count Pc.prints s.pc := by
  have hmove := count_update Pc.prints s.pc t k
  rw [h] at hmove
  omega

omit [Fintype T] in
theorem owed_update {f : T → Nat} (hi : ∀ u, wakesOf log u = f u + (s.pc u).owed)
    (hk : k.owed = (s.pc t).owed) (u : T) :
    wakesOf log u = f u + (Function.update s.pc t k u).owed := by
  by_cases hu : u = t
  · subst hu
    rw [Function.update_self, hk, hi]
  · rw [Function.update_of_ne hu, hi]

/-- A step that counts and prints nothing. -/
theorem Counting.move (hi : Counting s log) {mutex : Option T}
    (howner : Owns id Pc.inside (Function.update s.pc t k) mutex)
    (hprints : (s.pc t).prints = k.prints) (howed : k.owed = (s.pc t).owed) (hfit : k.Fits s.cnt) :
    Counting ({ s with mutex := mutex }.goto t k) log where
  owner := howner
  fits := fits_update hi.fits hfit
  total := by simpa [count_prints hprints] using hi.total
  order := hi.order
  owed := owed_update hi.owed howed

/-- The thread that counts is the only one inside, and nobody has a number to print. -/
theorem Counting.write (hi : Counting s log) {n : Int} (hpc : s.pc t = .write n) :
    Counting ({ s with cnt := n + 1 }.goto t (.print n)) log := by
  have hfit := hi.fits t
  simp only [hpc, Pc.Fits] at hfit
  have hmove := count_move Pc.prints hpc (.print n)
  have htotal := hi.total
  exact { hi with
    owner := hi.owner.stay (by simp [hpc])
    fits := by
      intro u
      by_cases hu : u = t
      · subst hu
        simp
      · have hout : (s.pc u).inside = false := by
          rw [← Bool.not_eq_true]
          intro hin
          exact hu (hi.owner.unique Function.injective_id hin (by simp [hpc]))
        rw [State.goto_pc, Function.update_of_ne hu]
        exact Pc.fits_of_outside hout _
    total := by
      simp at hmove ⊢
      omega
    owed := owed_update hi.owed (by simp [hpc]) }

/-- The number printed is the next one. -/
theorem Counting.print (hi : Counting s log) {n : Int} (hpc : s.pc t = .print n) :
    Counting (s.goto t .unlock) (log ++ [.printed t n]) := by
  have hfit := hi.fits t
  simp only [hpc, Pc.Fits] at hfit
  have hone : count Pc.prints s.pc = 1 := by
    apply le_antisymm
    · exact hi.owner.count_le_one Function.injective_id fun _ => Pc.inside_of_prints
    · exact count_pos (t := t) (by simp [hpc])
  have hmove := count_move Pc.prints hpc .unlock
  have htotal := hi.total
  have hnext : n = (numbers log).length := by omega
  exact {
    owner := hi.owner.stay (by simp [hpc])
    fits := fits_update hi.fits (by simp)
    total := by
      simp at hmove ⊢
      omega
    order := by simp [countup_succ, ← hi.order, hnext]
    owed := by
      intro u
      have howed := hi.owed u
      by_cases hu : u = t
      · subst hu
        simp [hpc] at howed ⊢
        omega
      · simpa [hu, Ne.symm hu] using howed }

theorem Counting.stepCount (hi : Counting s log) (h : Step s t s') :
    Counting s' (log ++ (event s (.count t)).toList) := by
  have howner := hi.owner
  cases h with
  | print n hpc =>
    simp only [event, hpc, Option.toList_some]
    exact hi.print hpc
  | write n hpc hmax =>
    simp only [event, hpc, Option.toList_none, List.append_nil]
    exact hi.write hpc
  | overflow n hpc hmax =>
    simp only [event, hpc, Option.toList_none, List.append_nil]
    exact ⟨hi.owner, hi.fits, hi.total, hi.order, hi.owed⟩
  | lock hpc hfree =>
    simp only [event, hpc, Option.toList_none, List.append_nil]
    rw [hfree] at howner
    exact hi.move (howner.acquire Function.injective_id (by simp)) (by simp [hpc]) (by simp [hpc])
      (by simp)
  | relock hpc hfree =>
    simp only [event, hpc, Option.toList_none, List.append_nil]
    rw [hfree] at howner
    exact hi.move (howner.acquire Function.injective_id (by simp)) (by simp [hpc]) (by simp [hpc])
      (by simp)
  | wait hpc | unlock hpc =>
    simp only [event, hpc, Option.toList_none, List.append_nil]
    exact hi.move (howner.release Function.injective_id (by simp [hpc]) (by simp)) (by simp [hpc])
      (by simp [hpc]) (by simp)
  | read hpc =>
    simp only [event, hpc, Option.toList_none, List.append_nil]
    exact hi.move (howner.stay (by simp [hpc])) (by simp [hpc]) (by simp [hpc]) (by simp)

/-- Threads are woken, each sleeper in `w` once. -/
theorem Counting.wake (hi : Counting s log) {pc : T → Pc} {w : T → Bool}
    (hpc : ∀ u, w u = true ∧ (s.pc u).asleep = true ∧ pc u = (s.pc u).wake ∨
      w u = false ∧ pc u = s.pc u) : Counting { s with pc := pc } (log ++ [.woken w]) := by
  have hinside : ∀ u, (pc u).inside = (s.pc u).inside := by
    intro u
    rcases hpc u with ⟨-, -, hu⟩ | ⟨-, hu⟩
    · rw [hu, Pc.inside_wake]
    · rw [hu]
  have hprints : ∀ u, (pc u).prints = (s.pc u).prints := by
    intro u
    rcases hpc u with ⟨-, -, hu⟩ | ⟨-, hu⟩
    · rw [hu, Pc.prints_wake]
    · rw [hu]
  exact {
    owner := hi.owner.congr hinside
    fits := by
      intro u
      show (pc u).Fits s.cnt
      rcases hpc u with ⟨-, -, hu⟩ | ⟨-, hu⟩
      · rw [hu]
        exact (hi.fits u).wake
      · rw [hu]
        exact hi.fits u
    total := by simpa only [numbers_woken, count, hprints] using hi.total
    order := by simpa using hi.order
    owed := by
      intro u
      show _ = _ + (pc u).owed
      rw [wakesOf_woken, printsOf_woken, hi.owed u]
      rcases hpc u with ⟨hw, hasleep, hu⟩ | ⟨hw, hu⟩
      · rw [hu, hw, Pc.owed_wake, hasleep, Nat.add_assoc]
      · rw [hu, hw, Bool.toNat_false, Nat.add_zero] }

theorem Counting.step {a : Action T} (hi : Counting s log) (h : step s a = some s') :
    Counting s' (log ++ (event s a).toList) := by
  unfold MyCond.step at h
  split at h
  · cases h
  · cases a with
    | count t => exact hi.stepCount (stepCount_cases h)
    | broadcast =>
      cases h
      simp only [event, Option.toList_some]
      apply hi.wake
      intro u
      cases hasleep : (s.pc u).asleep with
      | true => exact .inl ⟨rfl, rfl, rfl⟩
      | false =>
        refine .inr ⟨rfl, ?_⟩
        cases hu : s.pc u with
        | waiting => simp [hu] at hasleep
        | lock | wait | woken | read | write n | print n | unlock => rfl
    | spurious t =>
      simp only at h
      split at h <;> cases h
      rename_i hasleep
      simp only [event, Option.toList_some]
      apply hi.wake
      intro u
      by_cases hu : u = t
      · subst hu
        exact .inl ⟨by simp, hasleep, by simp⟩
      · exact .inr ⟨by simp [hu], by simp [hu]⟩

theorem counting (h : ((system T).logged event).Reachable anyStep (s, log)) : Counting s log :=
  logged_invariant h counting_init fun _ _ _ _ hi hs => hi.step hs

/-- Whoever is woken and whenever, broadcasts without the mutex and returns for no reason included:
the numbers printed are 0, 1, 2, … in this order, none twice and none left out, and each thread
prints once for every time it was woken. -/
theorem numbers_in_order (h : ((system T).logged event).Reachable anyStep (s, log)) :
    numbers log = countup (numbers log).length ∧ (numbers log).length ≤ s.cnt ∧
      s.cnt ≤ (numbers log).length + 1 ∧
      ∀ t, wakesOf log t = printsOf log t + (s.pc t).owed := by
  have hi := counting h
  have htotal := hi.total
  have hone : count Pc.prints s.pc ≤ 1 :=
    hi.owner.count_le_one Function.injective_id fun _ => Pc.inside_of_prints
  exact ⟨hi.order, by omega, by omega, hi.owed⟩

/-- Two threads sleep and are woken together; one of them is woken once more. -/
def threeNumbersRun : List (Action Bool) :=
  List.replicate 2 (Action.count true) ++ List.replicate 2 (Action.count false) ++
    [.broadcast] ++ List.replicate 7 (Action.count true) ++ List.replicate 4 (Action.count false) ++
    [.spurious true] ++ [.count false] ++ List.replicate 4 (Action.count true)

def threeNumbersEnd : State Bool × List (Event Bool) :=
  (((system Bool).logged event).run (init Bool, []) threeNumbersRun).get (by decide)

theorem numbers_in_order_three : numbers threeNumbersEnd.2 = [0, 1, 2] ∧
    wakesOf threeNumbersEnd.2 true = printsOf threeNumbersEnd.2 true := by
  have hreach : ((system Bool).logged event).Reachable anyStep threeNumbersEnd := reachable_of_run _
  have hall := numbers_in_order hreach
  exact ⟨by decide, hall.2.2.2 true⟩

/-- A step of a thread that nobody has to wake. -/
def quiet : State T × List (Event T) → Action T → Bool
  | _, .count _ => true
  | _, _ => false

/-- The steps that are left, at most. -/
def rank (s : State T) : Nat := (if s.undefined then 0 else 1) + ∑ t, (s.pc t).rank

/-- A thread that moves on. -/
theorem rank_goto {mutex : Option T} {cnt : Int} {k' : Pc} (hpc : s.pc t = k)
    (hlt : k'.rank < k.rank) : rank ({ s with cnt := cnt, mutex := mutex }.goto t k') < rank s := by
  have hsum := sum_update Pc.rank hpc k'
  apply Nat.add_lt_add_left
  show ∑ u, (Function.update s.pc t k' u).rank < _
  omega

theorem Step.rank_lt (h : Step s t s') (hdef : s.undefined = false) : rank s' < rank s := by
  cases h with
  | overflow n hpc hmax => simp [rank, hdef]
  | lock hpc | relock hpc | wait hpc | unlock hpc | read hpc | write n hpc | print n hpc =>
    exact rank_goto hpc (by simp [Pc.rank])

/-- Where no thread has a step, all are asleep. -/
theorem Counting.asleep_of_stuck (hi : Counting s log) (hstuck : ∀ t, MyCond.stepCount s t = none)
    (t : T) : s.pc t = .waiting := by
  have hfree : s.mutex = none := by
    apply hi.owner.eq_none
    intro u
    rcases stepCount_eq_none (hstuck u) with hpc | ⟨hout, -⟩
    · simp [hpc]
    · exact hout
  rcases stepCount_eq_none (hstuck t) with hpc | ⟨-, hheld⟩
  · exact hpc
  · exact absurd hfree hheld

/-- From any state a run without wake-ups has at most `rank` steps, and where it cannot go on every
thread is asleep and has printed for every time it was woken. -/
theorem wakes_are_answered {as : List (Action T)}
    (h : ((system T).logged event).Reachable anyStep (s, log))
    (hrun : (((system T).logged event).only quiet).run (s, log) as = some (s', log')) :
    as.length + rank s' ≤ rank s ∧
      (s'.undefined = false → (∀ t, step s' (.count t) = none) →
        ∀ t, s'.pc t = .waiting ∧ wakesOf log' t = printsOf log' t) := by
  constructor
  · have hlower : ∀ p a q, True → (((system T).logged event).only quiet).step p a = some q →
        True ∧ rank q.1 < rank p.1 := by
      rintro ⟨u, l⟩ a ⟨u', l'⟩ - hstep
      obtain ⟨hquiet, hstep⟩ := only_step.mp hstep
      obtain ⟨v, hv, he⟩ := Option.map_eq_some_iff.mp hstep
      cases he
      refine ⟨trivial, ?_⟩
      cases a with
      | broadcast | spurious => cases hquiet
      | count t =>
        have hv : step u (.count t) = some u' := hv
        unfold step at hv
        split at hv
        · cases hv
        · exact (stepCount_cases hv).rank_lt (Bool.not_eq_true _ ▸ ‹_›)
    exact run_length_le hlower trivial hrun
  · intro hdef hstuck
    have hreach : ((system T).logged event).Reachable anyStep (s', log') :=
      h.trans (leads_of_run (fun _ _ _ => trivial) (run_of_only hrun))
    have hi := counting hreach
    have hasleep := hi.asleep_of_stuck fun t => by simpa [step, hdef] using hstuck t
    intro t
    refine ⟨hasleep t, ?_⟩
    have howed := hi.owed t
    rw [hasleep t] at howed
    exact howed

/-- The first broadcast is over, and the thread that was woken has printed. -/
theorem wakes_are_answered_one :
    ∃ p : State Unit × List (Event Unit), p.1.pc () = .waiting ∧ wakesOf p.2 () = 1 ∧
      printsOf p.2 () = 1 := by
  let start : State Unit × List (Event Unit) :=
    (((system Unit).logged event).run (init Unit, [])
      [.count (), .count (), .broadcast]).get (by decide)
  let last : State Unit × List (Event Unit) :=
    ((((system Unit).logged event).only quiet).run start
      (List.replicate 7 (.count ()))).get (by decide)
  have hstart : ((system Unit).logged event).Reachable anyStep start := reachable_of_run _
  have hrun : (((system Unit).logged event).only quiet).run start
      (List.replicate 7 (.count ())) = some last := (Option.some_get _).symm
  have hall := (wakes_are_answered hstart hrun).2 (by decide) (by decide) ()
  have hwakes : wakesOf last.2 () = 1 := by decide
  exact ⟨last, hall.1, hwakes, hall.2 ▸ hwakes⟩

end MyCond
