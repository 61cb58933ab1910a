import LinuxPractice.Descriptors
import LinuxPractice.Transition
import LinuxPractice.Passes
import LinuxPractice.Sockets

/-!
# EpollServer: one batch of events

`EpollServer.hpp` and `Epoller.hpp`. What `epoll_wait`, `accept` and `read`
return is up to the environment; `epoll_ctl` succeeds.
-/
namespace EpollServer

open Transition Transition.System Passes Sockets

def eventIn : UInt32 := 1

def eventOut : UInt32 := 4

structure Event where
  events : UInt32
  fd : Int
  deriving DecidableEq, Repr

inductive Oper where
  | add | del
  deriving DecidableEq, Repr

inductive Call where
  | accepter : Call
  | recver : Int → Call
  deriving DecidableEq

structure State where
  kernel : Kernel
  registered : Finset Int

def epollerUpdate (s : State) (oper : Oper) (sock : Int) : State :=
  match oper with
  | .del => { s with registered := s.registered.erase sock }
  | .add => { s with registered := insert sock s.registered }

def accepter (s : State) (sock : Int) : Option State := do
  let kernel ← s.kernel.accept sock
  if sock > 0 then
    return epollerUpdate { s with kernel := kernel } .add sock
  else
    return { s with kernel := kernel }

/-- The descriptor is removed from the epoll instance while it is still open. -/
def recver (s : State) (fd : Int) (count : Int) : State :=
  if count > 0 then s
  else
    let s := epollerUpdate s .del fd
    { s with kernel := s.kernel.close fd }

/-- The body of the loop of `Dispatcher`. -/
def visit (listensock : Int) (s : State) (e : Event × Outcome) : Option (State × List Call) :=
  let (rev, outcome) := e
  if rev.events &&& eventIn ≠ 0 then
    if rev.fd = listensock then (accepter s outcome.sock).map fun t => (t, [.accepter])
    else some (recver s rev.fd outcome.n, [.recver rev.fd])
  else if rev.events &&& eventOut ≠ 0 then some (s, [])
  else some (s, [])

def dispatcher (listensock : Int) (revs : List (Event × Outcome)) (s : State) :
    Option (State × List Call) :=
  scan (visit listensock) s revs

def num : Nat := 64

/-- `revs` is a possible answer of `epoll_wait`. -/
def Waited (s : State) (revs : List (Event × Outcome)) : Prop :=
  (revs ≠ [] ∧ revs.length ≤ num) ∧ (revs.map (·.1.fd)).Nodup ∧ ∀ e ∈ revs, e.1.fd ∈ s.registered

instance (s : State) (revs : List (Event × Outcome)) : Decidable (Waited s revs) :=
  inferInstanceAs (Decidable (_ ∧ _))

/-- The constructor opens the epoll instance and `Init` the listening socket, among whatever
the process has inherited. -/
def opened (inherited : Descriptors.Table Unit) : Descriptors.Table File × Nat :=
  let epoller := Descriptors.alloc (inherited.map (Option.map fun _ => .other)) .other
  Descriptors.alloc epoller.1 .listening

def boot (inherited : Descriptors.Table Unit) : Boot where
  listensock := (opened inherited).2
  files := fun fd => if 0 ≤ fd then Descriptors.get (opened inherited).1 fd.toNat else none
  listening := by
    simp [opened, Descriptors.alloc, Descriptors.get_put]
  range := by
    intro fd hfd
    split at hfd
    · assumption
    · exact absurd rfl hfd
  fresh := by
    intro fd id
    split
    · simp only [opened, Descriptors.alloc, Descriptors.get_put, Descriptors.get_map]
      split
      · simp
      · split <;> simp
    · simp

/-- The listening socket or something older has descriptor 0. -/
theorem boot_zero (inherited : Descriptors.Table Unit) : (boot inherited).files 0 ≠ none :=
  Descriptors.get_alloc_zero _ _

/-- The state at the beginning of the loop of `Start`. -/
def start (inherited : Descriptors.Table Unit) : State :=
  epollerUpdate ⟨(boot inherited).kernel, ∅⟩ .add (boot inherited).listensock

def server (inherited : Descriptors.Table Unit) : System State (List (Event × Outcome)) where
  init := start inherited
  step := fun s revs =>
    if Waited s revs then (dispatcher (boot inherited).listensock revs s).map Prod.fst else none

end EpollServer
