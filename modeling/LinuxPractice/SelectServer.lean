import LinuxPractice.Transition
import LinuxPractice.Dispatch

/-!
# SelectServer: one round of the loop

`SelectServer.hpp` with an array of `n + 1` slots (`fd_max_num`). What `accept`
and `read` return is up to the environment.
-/
namespace SelectServer

open Transition Transition.System Passes Sockets Slots Dispatch

structure State (n : Nat) where
  fdArray : Fin (n + 1) → Int
  kernel : Kernel

/-- A round: the set that `select` returns, and an outcome for every slot. -/
structure Action (n : Nat) where
  rfds : Finset Int
  outcome : Fin (n + 1) → Outcome

section Model

variable {n : Nat}

def accepter (s : State n) (sock : Int) : Option (State n) := do
  let kernel ← s.kernel.accept sock
  if sock < 0 then
    return { s with kernel := kernel }
  else
    match free s.fdArray with
    | none => return { s with kernel := kernel.close sock }
    | some pos =>
      return { fdArray := Function.update s.fdArray pos sock, kernel := kernel }

def recver (s : State n) (fd : Int) (pos : Fin (n + 1)) (count : Int) : State n :=
  if count > 0 then s
  else { fdArray := Function.update s.fdArray pos (-1), kernel := s.kernel.close fd }

/-- The body of the loop of `Dispatcher`. -/
def visit (listensock : Int) (a : Action n) (s : State n) (i : Fin (n + 1)) :
    Option (State n × List (Call n)) :=
  let fd := s.fdArray i
  if fd = -1 then some (s, [])
  else if listensock ∈ a.rfds then
    if fd = listensock then (accepter s (a.outcome i).sock).map fun t => (t, [.accepter])
    else some (recver s fd i (a.outcome i).n, [.recver fd i])
  else some (s, [])

def dispatcher (listensock : Int) (a : Action n) (s : State n) : Option (State n × List (Call n)) :=
  scan (visit listensock a) s (List.finRange (n + 1))

/-- `rfds` is a possible answer of `select`: some of the descriptors in the array. -/
def Selected (s : State n) (rfds : Finset Int) : Prop :=
  rfds.Nonempty ∧ ∀ fd ∈ rfds, fd ≠ -1 ∧ ∃ i, s.fdArray i = fd

instance (s : State n) (rfds : Finset Int) : Decidable (Selected s rfds) :=
  inferInstanceAs (Decidable (_ ∧ _))

/-- The state at the beginning of the loop of `Start`. -/
def start (n : Nat) (b : Boot) : State n where
  fdArray := only b.listensock (-1)
  kernel := b.kernel

def server (n : Nat) (b : Boot) : System (State n) (Action n) where
  init := start n b
  step := fun s a =>
    if Selected s a.rfds then (dispatcher b.listensock a s).map Prod.fst else none

end Model

variable {n : Nat} {s t : State n} {b : Boot} {sock : Int}

def State.table (s : State n) : Table n := ⟨s.fdArray, s.kernel.files⟩

theorem accepter_accepts (h : accepter s sock = some t) : Accepts s.table sock t.table := by
  obtain ⟨kernel, hkernel, h⟩ := Option.bind_eq_some_iff.mp h
  split at h
  · cases h
    exact accepts_error hkernel ‹_›
  · split at h <;> cases h
    · exact accepts_full hkernel ‹_› ‹_›
    · exact accepts_entered hkernel ‹_› ‹_›

theorem recver_table (s : State n) (i : Fin (n + 1)) (count : Int) :
    (recver s (s.fdArray i) i count).table = received s.table i count := by
  unfold recver received
  split <;> rfl

theorem serves (listensock : Int) (a : Action n) :
    Serves listensock (listensock ∈ a.rfds) a.outcome State.table (fun _ => True)
      (visit listensock a) := by
  intro s i t calls _ h
  refine ⟨trivial, ?_⟩
  simp only [visit] at h
  split at h
  · cases h
    exact .skip (.inl ‹_›)
  · split at h
    · split at h
      · obtain ⟨u, hu, h⟩ := Option.map_eq_some_iff.mp h
        cases h
        exact .accepter ‹_› ‹_› _ (accepter_accepts hu)
      · cases h
        rw [recver_table]
        exact .recver ‹_› ‹_› ‹_›
    · cases h
      exact .skip (.inr ‹_›)

theorem holds (h : (server n b).Reachable anyStep s) : Holds b.listensock s.table := by
  apply h.invariant (I := fun s => Holds b.listensock s.table) (holds_boot b n)
  intro s a t hi _ hs
  obtain ⟨-, calls, hu⟩ := round_eq_some hs
  exact ((serves b.listensock a).holds trivial hi hu).2

end SelectServer
