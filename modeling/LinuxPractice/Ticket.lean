import LinuxPractice.Transition
import LinuxPractice.Threads

/-!
# Selling tickets under a LockGuard

`getTicket` of `ticket.cc` run by any number of threads. The guard's constructor
is `lock`; its destructor is `unlock` at the end of an iteration and `leave` on
the way out through `break`. The test, the sleep, the two reads of `tickets`,
the print and the store are steps of their own.
-/
namespace Ticket

open Transition Transition.System Threads

/-- Where a thread stands. `print n` has read the number it prints, `write n` has computed what
`--tickets` stores; `bye` is the `printf` behind the loop. -/
inductive Pc where
  | lock : Pc
  | test : Pc
  | sleep : Pc
  | load : Pc
  | print : Int → Pc
  | read : Pc
  | write : Int → Pc
  | unlock : Pc
  | leave : Pc
  | bye : Pc
  | done : Pc
  deriving DecidableEq, Repr

namespace Pc

/-- Between the guard's constructor and its destructor. -/
@[simp] def inside : Pc → Bool
  | .lock | .bye | .done => false
  | _ => true

/-- The ticket is printed and not taken off yet. -/
@[simp] def printed : Pc → Bool
  | .read | .write _ => true
  | _ => false

/-- What a thread that stands here may rely on. -/
@[simp] def Fits (tickets : Int) : Pc → Prop
  | .lock | .test | .unlock => True
  | .sleep | .load | .read => 0 < tickets
  | .print n => 0 < tickets ∧ n = tickets
  | .write n => 0 < tickets ∧ n = tickets - 1
  | .leave | .bye | .done => tickets = 0

variable {k : Pc} {tickets : Int}

theorem inside_of_printed (h : k.printed = true) : k.inside = true := by
  cases k <;> simp at h ⊢

/-- A printed ticket is still there. -/
theorem Fits.pos_of_printed (h : k.Fits tickets) (hk : k.printed = true) : 0 < tickets := by
  cases k <;> simp at h hk <;> omega

/-- A thread outside that finds tickets has not seen the end of them. -/
theorem Fits.eq_lock (h : k.Fits tickets) (hk : k.inside = false) (hpos : 0 < tickets) :
    k = .lock := by
  cases k <;> simp at h hk ⊢ <;> omega

end Pc

/-- What `getTicket` prints. -/
inductive Line (T : Type) where
  | ticket : T → Int → Line T
  | quit : T → Line T
  deriving DecidableEq, Repr

structure State (T : Type) where
  tickets : Int
  mutex : Option T
  out : List (Line T)
  pc : T → Pc

section Model

variable {T : Type} [DecidableEq T]

def init (T : Type) (N : Nat) : State T where
  tickets := N
  mutex := none
  out := []
  pc := fun _ => .lock

def State.goto (s : State T) (t : T) (k : Pc) : State T := { s with pc := Function.update s.pc t k }

@[simp] theorem State.goto_tickets (s : State T) (t : T) (k : Pc) :
    (s.goto t k).tickets = s.tickets := rfl
@[simp] theorem State.goto_mutex (s : State T) (t : T) (k : Pc) :
    (s.goto t k).mutex = s.mutex := rfl
@[simp] theorem State.goto_out (s : State T) (t : T) (k : Pc) : (s.goto t k).out = s.out := rfl
@[simp] theorem State.goto_pc (s : State T) (t : T) (k : Pc) :
    (s.goto t k).pc = Function.update s.pc t k := rfl

/-- One step of the thread `t` in `getTicket`. -/
def step (s : State T) (t : T) : Option (State T) :=
  match s.pc t with
  | .lock =>
    match s.mutex with
    | none => some ({ s with mutex := some t }.goto t .test)
    | some _ => none
  | .test => if 0 < s.tickets then some (s.goto t .sleep) else some (s.goto t .leave)
  | .sleep => some (s.goto t .load)
  | .load => some (s.goto t (.print s.tickets))
  | .print n => some ({ s with out := s.out ++ [Line.ticket t n] }.goto t .read)
  | .read => some (s.goto t (.write (s.tickets - 1)))
  | .write n => some ({ s with tickets := n }.goto t .unlock)
  | .unlock => some ({ s with mutex := none }.goto t .lock)
  | .leave => some ({ s with mutex := none }.goto t .bye)
  | .bye => some ({ s with out := s.out ++ [Line.quit t] }.goto t .done)
  | .done => none

def system (T : Type) [DecidableEq T] (N : Nat) : System (State T) T where
  init := init T N
  step := step

/-- The steps of `getTicket`. -/
inductive Step (s : State T) (t : T) : State T → Prop
  | lock (hpc : s.pc t = .lock) (hfree : s.mutex = none) :
      Step s t ({ s with mutex := some t }.goto t .test)
  | enough (hpc : s.pc t = .test) (hpos : 0 < s.tickets) : Step s t (s.goto t .sleep)
  | soldOut (hpc : s.pc t = .test) (hpos : ¬ 0 < s.tickets) : Step s t (s.goto t .leave)
  | sleep (hpc : s.pc t = .sleep) : Step s t (s.goto t .load)
  | load (hpc : s.pc t = .load) : Step s t (s.goto t (.print s.tickets))
  | print (n : Int) (hpc : s.pc t = .print n) :
      Step s t ({ s with out := s.out ++ [Line.ticket t n] }.goto t .read)
  | read (hpc : s.pc t = .read) : Step s t (s.goto t (.write (s.tickets - 1)))
  | write (n : Int) (hpc : s.pc t = .write n) :
      Step s t ({ s with tickets := n }.goto t .unlock)
  | unlock (hpc : s.pc t = .unlock) : Step s t ({ s with mutex := none }.goto t .lock)
  | leave (hpc : s.pc t = .leave) : Step s t ({ s with mutex := none }.goto t .bye)
  | bye (hpc : s.pc t = .bye) :
      Step s t ({ s with out := s.out ++ [Line.quit t] }.goto t .done)

variable {s s' : State T} {t : T}

theorem step_cases (h : step s t = some s') : Step s t s' := by
  unfold step at h
  cases hpc : s.pc t with
  | lock =>
    simp only [hpc] at h
    split at h <;> cases h
    exact .lock hpc ‹_›
  | test =>
    simp only [hpc] at h
    split at h <;> cases h
    · exact .enough hpc ‹_›
    · exact .soldOut hpc ‹_›
  | sleep =>
    simp only [hpc] at h
    cases h
    exact .sleep hpc
  | load =>
    simp only [hpc] at h
    cases h
    exact .load hpc
  | print n =>
    simp only [hpc] at h
    cases h
    exact .print n hpc
  | read =>
    simp only [hpc] at h
    cases h
    exact .read hpc
  | write n =>
    simp only [hpc] at h
    cases h
    exact .write n hpc
  | unlock =>
    simp only [hpc] at h
    cases h
    exact .unlock hpc
  | leave =>
    simp only [hpc] at h
    cases h
    exact .leave hpc
  | bye =>
    simp only [hpc] at h
    cases h
    exact .bye hpc
  | done =>
    simp only [hpc] at h
    cases h

/-- Only a thread that has quit, or one that waits for the guard, has no step. -/
theorem step_eq_none (h : step s t = none) :
    s.pc t = .done ∨ s.pc t = .lock ∧ s.mutex ≠ none := by
  unfold step at h
  cases hpc : s.pc t with
  | done => exact .inl rfl
  | lock =>
    simp only [hpc] at h
    split at h <;> cases h
    exact .inr ⟨rfl, by simp [*]⟩
  | test =>
    simp only [hpc] at h
    split at h <;> cases h
  | sleep | load | print n | read | write n | unlock | leave | bye =>
    simp only [hpc] at h
    cases h

end Model

/-- The ticket numbers of the printed lines, in order. -/
def numbers {T : Type} (out : List (Line T)) : List Int :=
  out.filterMap fun | .ticket _ n => some n | .quit _ => none

section Numbers
variable {T : Type} (out : List (Line T)) (t : T) (n : Int)

@[simp] theorem numbers_ticket : numbers (out ++ [.ticket t n]) = numbers out ++ [n] := by
  simp [numbers]
@[simp] theorem numbers_quit : numbers (out ++ [.quit t]) = numbers out := by simp [numbers]

end Numbers

/-- The first `k` of the numbers `N`, `N - 1`, … -/
def countdown (N k : Nat) : List Int := (List.range k).map fun i => (N : Int) - i

@[simp] theorem countdown_length (N k : Nat) : (countdown N k).length = k := by simp [countdown]

theorem countdown_succ (N k : Nat) : countdown N (k + 1) = countdown N k ++ [(N : Int) - k] := by
  simp [countdown, List.range_succ]

variable {T : Type} [DecidableEq T] [Fintype T] {N : Nat} {s s' : State T} {t : T} {k : Pc}

structure Selling (N : Nat) (s : State T) : Prop where
  owner : Owns id Pc.inside s.pc s.mutex
  nonneg : 0 ≤ s.tickets
  fits : ∀ t, (s.pc t).Fits s.tickets
  sold : s.tickets + (numbers s.out).length = N + count Pc.printed s.pc
  order : numbers s.out = countdown N (numbers s.out).length

omit [DecidableEq T] in
theorem selling_init (N : Nat) : Selling N (init T N) where
  owner := by intro t; simp [init]
  nonneg := by simp [init]
  fits := by simp [init]
  sold := by
    rw [count_eq_zero fun _ => rfl]
    simp [init, numbers]
  order := by simp [init, numbers, countdown]

omit [Fintype T] in
theorem fits_update {pc : T → Pc} {tickets : Int} (hi : ∀ u, (pc u).Fits tickets)
    (hk : k.Fits tickets) (u : T) : (Function.update pc t k u).Fits tickets := by
  by_cases hu : u = t
  · subst hu
    simpa using hk
  · simpa [hu] using hi u

omit [DecidableEq T] in
/-- The thread inside is the only one that may have printed a ticket without taking it off. -/
theorem Selling.none_printed (hi : Selling N s) (hin : (s.pc t).inside = true)
    (hpr : (s.pc t).printed = false) : count Pc.printed s.pc = 0 :=
  hi.owner.count_eq_zero Function.injective_id (fun _ => Pc.inside_of_printed) hin hpr

theorem count_printed (h : (s.pc t).printed = k.printed) :
    count Pc.printed (Function.update s.pc t k) = count Pc.printed s.pc := by
  have hmove := count_update Pc.printed s.pc t k
  rw [h] at hmove
  omega

/-- A step inside the critical section, or outside it, that leaves the data alone. -/
theorem Selling.stay (hi : Selling N s) (hin : k.inside = (s.pc t).inside)
    (hpr : (s.pc t).printed = k.printed) (hfit : k.Fits s.tickets) : Selling N (s.goto t k) where
  owner := hi.owner.stay hin
  nonneg := hi.nonneg
  fits := fits_update hi.fits hfit
  sold := by simpa [count_printed hpr] using hi.sold
  order := hi.order

theorem Selling.release (hi : Selling N s) (hin : (s.pc t).inside = true)
    (hpr : (s.pc t).printed = k.printed) (hk : k.inside = false) (hfit : k.Fits s.tickets) :
    Selling N ({ s with mutex := none }.goto t k) where
  owner := hi.owner.release Function.injective_id hin hk
  nonneg := hi.nonneg
  fits := fits_update hi.fits hfit
  sold := by simpa [count_printed hpr] using hi.sold
  order := hi.order

/-- The number printed is the next of the countdown. -/
theorem Selling.print (hi : Selling N s) {n : Int} (hpc : s.pc t = .print n) :
    Selling N ({ s with out := s.out ++ [Line.ticket t n] }.goto t .read) := by
  have hfit := hi.fits t
  simp only [hpc, Pc.Fits] at hfit
  have hnone := hi.none_printed (t := t) (by simp [hpc]) (by simp [hpc])
  have hmove := count_move Pc.printed hpc .read
  have hsold := hi.sold
  have hnext : n = (N : Int) - (numbers s.out).length := by omega
  exact { hi with
    owner := hi.owner.stay (by simp [hpc])
    fits := fits_update hi.fits (by simpa using hfit.1)
    sold := by
      simp at hmove ⊢
      omega
    order := by simp [countdown_succ, ← hi.order, hnext] }

theorem Selling.write (hi : Selling N s) {n : Int} (hpc : s.pc t = .write n) :
    Selling N ({ s with tickets := n }.goto t .unlock) := by
  have hfit := hi.fits t
  simp only [hpc, Pc.Fits] at hfit
  have hmove := count_move Pc.printed hpc .unlock
  have hsold := hi.sold
  -- with a ticket left the others are before the guard
  have hothers : ∀ u, u ≠ t → s.pc u = .lock := by
    intro u hu
    have hout : (s.pc u).inside = false := by
      rw [← Bool.not_eq_true]
      intro hin
      exact hu (hi.owner.unique Function.injective_id hin (by simp [hpc]))
    exact (hi.fits u).eq_lock hout hfit.1
  exact { hi with
    owner := hi.owner.stay (by simp [hpc])
    nonneg := by simp; omega
    fits := by
      intro u
      by_cases hu : u = t
      · subst hu
        simp
      · simp [hu, hothers u hu]
    sold := by
      simp at hmove ⊢
      omega }

theorem Selling.step (hi : Selling N s) (h : Step s t s') : Selling N s' := by
  have hfit := hi.fits t
  cases h with
  | lock hpc hfree =>
    have hown := hi.owner
    rw [hfree] at hown
    have hsame : count Pc.printed (Function.update s.pc t .test) = count Pc.printed s.pc :=
      count_printed (by simp [hpc])
    exact { hi with
      owner := hown.acquire Function.injective_id (by simp)
      fits := fits_update hi.fits (by simp)
      sold := by simpa [hsame] using hi.sold }
  | enough hpc hpos => exact hi.stay (by simp [hpc]) (by simp [hpc]) hpos
  | soldOut hpc hpos =>
    have hnonneg := hi.nonneg
    exact hi.stay (by simp [hpc]) (by simp [hpc]) (by simp; omega)
  | sleep hpc => exact hi.stay (by simp [hpc]) (by simp [hpc]) (by simpa [hpc] using hfit)
  | load hpc => exact hi.stay (by simp [hpc]) (by simp [hpc]) (by simpa [hpc] using hfit)
  | print n hpc => exact hi.print hpc
  | read hpc => exact hi.stay (by simp [hpc]) (by simp [hpc]) (by simpa [hpc] using hfit)
  | write n hpc => exact hi.write hpc
  | unlock hpc => exact hi.release (by simp [hpc]) (by simp [hpc]) (by simp) (by simp)
  | leave hpc =>
    exact hi.release (by simp [hpc]) (by simp [hpc]) (by simp) (by simpa [hpc] using hfit)
  | bye hpc =>
    have hsame : count Pc.printed (Function.update s.pc t .done) = count Pc.printed s.pc :=
      count_printed (by simp [hpc])
    exact { hi with
      owner := hi.owner.stay (by simp [hpc])
      fits := fits_update hi.fits (by simpa [hpc] using hfit)
      sold := by simpa [hsame] using hi.sold
      order := by simpa using hi.order }

theorem selling_of_reachable (h : (system T N).Reachable anyStep s) : Selling N s := by
  apply h.invariant (selling_init N)
  intro s t s' hi _ hs
  exact hi.step (step_cases hs)

omit [DecidableEq T] in
theorem Selling.none_printed_of_zero (hi : Selling N s) (hzero : s.tickets = 0) :
    count Pc.printed s.pc = 0 := by
  apply count_eq_zero
  intro t
  rw [← Bool.not_eq_true]
  intro hpr
  have hpos := (hi.fits t).pos_of_printed hpr
  omega

omit [DecidableEq T] in
theorem Selling.length_le (hi : Selling N s) : (numbers s.out).length ≤ N := by
  have hle : count Pc.printed s.pc ≤ 1 :=
    hi.owner.count_le_one Function.injective_id fun _ => Pc.inside_of_printed
  have hsold := hi.sold
  have hnonneg := hi.nonneg
  by_cases hzero : s.tickets = 0
  · have hnone := hi.none_printed_of_zero hzero
    omega
  · omega

omit [DecidableEq T] in
theorem Selling.all_sold (hi : Selling N s) (hpc : s.pc t = .done) :
    s.tickets = 0 ∧ numbers s.out = countdown N N := by
  have hzero : s.tickets = 0 := by simpa [hpc] using hi.fits t
  have hnone := hi.none_printed_of_zero hzero
  have hsold := hi.sold
  have hlen : (numbers s.out).length = N := by omega
  refine ⟨hzero, ?_⟩
  rw [hi.order, hlen]

/-- A run that cannot go on is over. -/
theorem Selling.done_of_stuck (hi : Selling N s) (hstuck : ∀ t, Ticket.step s t = none) (t : T) :
    s.pc t = .done := by
  have hfree : s.mutex = none := by
    apply hi.owner.eq_none
    intro u
    rcases step_eq_none (hstuck u) with hpc | ⟨hpc, -⟩ <;> simp [hpc]
  rcases step_eq_none (hstuck t) with hpc | ⟨-, hheld⟩
  · exact hpc
  · exact absurd hfree hheld

/-- The steps of a thread up to its end, were it to find no more tickets. -/
def Pc.left : Pc → Int
  | .unlock => 5
  | .lock => 4
  | .test => 3
  | .leave | .sleep => 2
  | .bye | .load => 1
  | .done | .print _ => 0
  | .read => -1
  | .write _ => -2

/-- A ticket costs eight steps. -/
def stepsLeft (s : State T) : Int := 8 * s.tickets + ∑ t, (s.pc t).left

theorem sum_left_update (pc : T → Pc) (t : T) (k : Pc) :
    ∑ u, (Function.update pc t k u).left + (pc t).left = ∑ u, (pc u).left + k.left := by
  have hcomp : (fun u => (Function.update pc t k u).left) =
      Function.update (fun u => (pc u).left) t k.left := by
    funext u
    by_cases hu : u = t
    · subst hu; simp
    · simp [hu]
  rw [hcomp, Finset.sum_update_of_mem (Finset.mem_univ t),
    ← Finset.add_sum_erase _ _ (Finset.mem_univ t), Finset.sdiff_singleton_eq_erase]
  omega

/-- A thread moves on and the tickets become `n`. -/
theorem stepsLeft_move {k : Pc} (hpc : s.pc t = k) (k' : Pc) (n : Int)
    (hone : 8 * n + k'.left + 1 = 8 * s.tickets + k.left) :
    8 * n + ∑ u, (Function.update s.pc t k' u).left + 1 = stepsLeft s := by
  have hsum := sum_left_update s.pc t k'
  rw [hpc] at hsum
  rw [stepsLeft]
  omega

theorem Step.stepsLeft (hi : Selling N s) (h : Step s t s') :
    Ticket.stepsLeft s' + 1 = Ticket.stepsLeft s := by
  have hfit := hi.fits t
  cases h with
  | write n hpc =>
    simp only [hpc, Pc.Fits] at hfit
    exact stepsLeft_move hpc _ _ (by simp only [Pc.left, State.goto_tickets]; omega)
  | lock hpc | enough hpc | soldOut hpc | sleep hpc | load hpc | print n hpc | read hpc
  | unlock hpc | leave hpc | bye hpc =>
    exact stepsLeft_move hpc _ _ (by simp only [Pc.left, State.goto_tickets]; omega)

theorem stepsLeft_run (hi : Selling N s) {ts : List T} (h : (system T N).run s ts = some s') :
    ts.length + stepsLeft s' = stepsLeft s := by
  induction ts generalizing s with
  | nil =>
    cases h
    simp
  | cons t ts ih =>
    obtain ⟨u, hu, hrest⟩ := Option.bind_eq_some_iff.mp h
    have hstep := step_cases hu
    have hone := hstep.stepsLeft hi
    have hlen := ih (hi.step hstep) hrest
    simp only [List.length_cons, Nat.cast_add, Nat.cast_one]
    omega

/-- A run in which all threads quit takes eight steps for each ticket and four for each thread. -/
theorem run_length {ts : List T} (h : (system T N).run (init T N) ts = some s)
    (hdone : ∀ t, s.pc t = .done) (t : T) : ts.length = 8 * N + 4 * Fintype.card T := by
  have hrun := stepsLeft_run (selling_init N) h
  have hreach : (system T N).Reachable anyStep s := leads_of_run (fun _ _ _ => trivial) h
  have hzero := (selling_of_reachable hreach).all_sold (hdone t)
  have hend : stepsLeft s = 0 := by simp [stepsLeft, hzero.1, hdone, Pc.left]
  have hstart : stepsLeft (init T N) = 8 * N + 4 * Fintype.card T := by
    simp [stepsLeft, init, Pc.left]
    omega
  omega

/-- The numbers printed are the first of `N`, `N - 1`, …, all of them once a thread has quit; the
mutex is free when all have, and until then some thread has a step. -/
theorem every_ticket_once (N : Nat) (h : (system T N).Reachable anyStep s) :
    (0 ≤ s.tickets ∧ ∃ k ≤ N, numbers s.out = countdown N k) ∧
    (∀ t, s.pc t = .done → s.tickets = 0 ∧ numbers s.out = countdown N N) ∧
    ((∀ t, s.pc t = .done) → s.mutex = none) ∧
    ((∀ t, step s t = none) → ∀ t, s.pc t = .done) := by
  have hi := selling_of_reachable h
  refine ⟨⟨hi.nonneg, _, hi.length_le, hi.order⟩, ?_, ?_, hi.done_of_stuck⟩
  · intro t hpc
    exact hi.all_sold hpc
  · intro hdone
    exact hi.owner.eq_none fun t => by simp [hdone t]

/-- Two threads sell one ticket each and quit. -/
def soldRun : List Bool :=
  List.replicate 8 true ++ List.replicate 8 false ++ List.replicate 3 false ++
    List.replicate 4 true ++ [false]

def soldEnd : State Bool := ((system Bool 2).run (init Bool 2) soldRun).get (by decide)

theorem every_ticket_once_sold : numbers soldEnd.out = [2, 1] ∧ soldEnd.mutex = none ∧
    soldRun.length = 8 * 2 + 4 * Fintype.card Bool := by
  have hreach : (system Bool 2).Reachable anyStep soldEnd := reachable_of_run _
  have hall := every_ticket_once 2 hreach
  have hrun : (system Bool 2).run (init Bool 2) soldRun = some soldEnd := (Option.some_get _).symm
  exact ⟨(hall.2.1 true (by decide)).2, hall.2.2.1 (by decide),
    run_length hrun (by decide) true⟩

end Ticket
