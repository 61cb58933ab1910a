import LinuxPractice.Transition
import LinuxPractice.Dispatch

/-!
# PollServer: one round of the loop

`PollServer.hpp` with a table of `n + 1` entries (`fd_max_num`). What `poll`,
`accept` and `read` return is up to the environment.
-/
namespace PollServer

open Transition Transition.System Passes Sockets Slots Dispatch

def pollin : UInt16 := 1

def eventnone : UInt16 := 0

theorem pollin_and_pollin : pollin &&& pollin ≠ 0 := by decide

structure PollFd where
  fd : Int
  events : UInt16
  revents : UInt16
  deriving DecidableEq, Repr

structure State (n : Nat) where
  rds : Fin (n + 1) → PollFd
  kernel : Kernel

def State.fds {n : Nat} (s : State n) : Fin (n + 1) → Int := fun i => (s.rds i).fd

/-- A round: the events that `poll` returns, and an outcome for every entry. -/
structure Action (n : Nat) where
  revents : Fin (n + 1) → UInt16
  outcome : Fin (n + 1) → Outcome

section Model

variable {n : Nat}

def accepter (s : State n) (sock : Int) : Option (State n) := do
  let kernel ← s.kernel.accept sock
  if sock < 0 then
    return { s with kernel := kernel }
  else
    match free s.fds with
    | none => return { s with kernel := kernel.close sock }
    | some pos =>
      return { rds := Function.update s.rds pos ⟨sock, pollin, eventnone⟩, kernel := kernel }

/-- The entry keeps its events. -/
def recver (s : State n) (fd : Int) (pos : Fin (n + 1)) (count : Int) : State n :=
  if count > 0 then s
  else
    { rds := Function.update s.rds pos { s.rds pos with fd := -1 }, kernel := s.kernel.close fd }

/-- The body of the loop of `Dispatcher`. -/
def visit (listensock : Int) (outcome : Fin (n + 1) → Outcome) (s : State n) (i : Fin (n + 1)) :
    Option (State n × List (Call n)) :=
  let fd := (s.rds i).fd
  if fd = -1 then some (s, [])
  else if (s.rds i).events &&& pollin ≠ 0 then
    if fd = listensock then (accepter s (outcome i).sock).map fun t => (t, [.accepter])
    else some (recver s fd i (outcome i).n, [.recver fd i])
  else some (s, [])

def dispatcher (listensock : Int) (outcome : Fin (n + 1) → Outcome) (s : State n) :
    Option (State n × List (Call n)) :=
  scan (visit listensock outcome) s (List.finRange (n + 1))

/-- `poll` reports something, and nothing for an entry without a descriptor. -/
def Polled (s : State n) (revents : Fin (n + 1) → UInt16) : Prop :=
  (∃ i, revents i ≠ 0) ∧ ∀ i, (s.rds i).fd < 0 → revents i = 0

instance (s : State n) (revents : Fin (n + 1) → UInt16) : Decidable (Polled s revents) :=
  inferInstanceAs (Decidable (_ ∧ _))

def poll (s : State n) (revents : Fin (n + 1) → UInt16) : State n :=
  { s with rds := fun i => { s.rds i with revents := revents i } }

/-- The state at the beginning of the loop of `Start`. -/
def start (n : Nat) (b : Boot) : State n where
  rds := only ⟨b.listensock, pollin, eventnone⟩ ⟨-1, eventnone, eventnone⟩
  kernel := b.kernel

def server (n : Nat) (b : Boot) : System (State n) (Action n) where
  init := start n b
  step := fun s a =>
    if Polled s a.revents then
      (dispatcher b.listensock a.outcome (poll s a.revents)).map Prod.fst
    else none

end Model

variable {n : Nat} {s t : State n} {b : Boot} {sock : Int}

def State.table (s : State n) : Table n := ⟨s.fds, s.kernel.files⟩

theorem fds_update (s : State n) (pos : Fin (n + 1)) (e : PollFd) (kernel : Kernel) :
    State.fds ⟨Function.update s.rds pos e, kernel⟩ = Function.update s.fds pos e.fd := by
  funext i
  by_cases hi : i = pos
  · subst hi
    simp [State.fds]
  · simp [State.fds, hi]

theorem table_update (s : State n) (pos : Fin (n + 1)) (e : PollFd) (kernel : Kernel) :
    State.table ⟨Function.update s.rds pos e, kernel⟩ =
      ⟨Function.update s.fds pos e.fd, kernel.files⟩ :=
  Table.ext (fds_update s pos e kernel) rfl

theorem accepter_accepts (h : accepter s sock = some t) : Accepts s.table sock t.table := by
  obtain ⟨kernel, hkernel, h⟩ := Option.bind_eq_some_iff.mp h
  split at h
  · cases h
    exact accepts_error hkernel ‹_›
  · split at h <;> cases h
    · exact accepts_full hkernel ‹_› ‹_›
    · rw [table_update]
      exact accepts_entered hkernel ‹_› ‹_›

theorem recver_table (s : State n) (i : Fin (n + 1)) (count : Int) :
    (recver s (s.rds i).fd i count).table = received s.table i count := by
  unfold recver received
  split
  · rfl
  · exact table_update s i _ _

/-- Every entry with a descriptor asks for it to be readable. -/
def Watches (s : State n) : Prop :=
  ∀ i, (s.rds i).fd ≠ -1 → (s.rds i).events &&& pollin ≠ 0

theorem Watches.update (h : Watches s) (pos : Fin (n + 1)) (e : PollFd) (kernel : Kernel)
    (he : e.fd ≠ -1 → e.events &&& pollin ≠ 0) :
    Watches { rds := Function.update s.rds pos e, kernel := kernel } := by
  intro i hi
  by_cases hip : i = pos
  · subst hip
    simp only [Function.update_self] at hi ⊢
    exact he hi
  · simp only [Function.update_of_ne hip] at hi ⊢
    exact h i hi

theorem watches_start (n : Nat) (b : Boot) : Watches (start n b) := by
  intro i hi
  by_cases hi0 : i = 0
  · subst hi0
    simpa [start] using pollin_and_pollin
  · simp [start, hi0] at hi

theorem Watches.accepter (h : Watches s) (ha : accepter s sock = some t) : Watches t := by
  obtain ⟨kernel, _, ha⟩ := Option.bind_eq_some_iff.mp ha
  split at ha
  · cases ha
    exact h
  · split at ha <;> cases ha
    · exact h
    · exact h.update _ _ _ (fun _ => pollin_and_pollin)

theorem Watches.recver (h : Watches s) (fd : Int) (pos : Fin (n + 1)) (count : Int) :
    Watches (recver s fd pos count) := by
  unfold PollServer.recver
  split
  · exact h
  · exact h.update _ _ _ (fun hne => absurd rfl hne)

/-- Every occupied entry is served, whatever `poll` has reported for it. -/
theorem serves (listensock : Int) (outcome : Fin (n + 1) → Outcome) :
    Serves listensock True outcome State.table Watches (visit listensock outcome) := by
  intro s i t calls hw h
  simp only [visit] at h
  split at h
  · cases h
    exact ⟨hw, .skip (.inl ‹_›)⟩
  · rename_i hfd
    rw [if_pos (hw i hfd)] at h
    split at h
    · obtain ⟨u, hu, h⟩ := Option.map_eq_some_iff.mp h
      cases h
      exact ⟨hw.accepter hu, .accepter trivial ‹_› _ (accepter_accepts hu)⟩
    · cases h
      rw [recver_table]
      exact ⟨hw.recver _ _ _, .recver trivial hfd ‹_›⟩

theorem start_table (n : Nat) (b : Boot) :
    (start n b).table = ⟨only b.listensock (-1), b.files⟩ :=
  Table.ext (comp_only PollFd.fd _ _) rfl

theorem holds (h : (server n b).Reachable anyStep s) :
    Watches s ∧ Holds b.listensock s.table := by
  apply h.invariant (I := fun s => Watches s ∧ Holds b.listensock s.table)
  · exact ⟨watches_start n b, start_table n b ▸ holds_boot b n⟩
  · intro s a t hi _ hs
    obtain ⟨-, calls, hu⟩ := round_eq_some hs
    exact (serves b.listensock a.outcome).holds (x := poll s a.revents) hi.1 hi.2 hu

end PollServer
