import LinuxPractice.Dictionary
import LinuxPractice.Sockets
import LinuxPractice.ThreadPoolTasks

/-!
# TcpServer: a dictionary behind a pool of workers

`Start` of `NetWork/TCP/TcpServer.hpp` (version 4), `Task::run` and
`Init::translation`. One thread accepts and pushes, the workers of the pool
serve, and a descriptor that a worker has closed may come back with another
connection.
-/
namespace TcpServer

open CppString Dictionary Sockets Threads

structure Task where
  sockfd : Int
  clientip : Bytes
  clientport : UInt16
  deriving DecidableEq, Repr

/-- Where a worker stands in `Task::run`. -/
inductive RunPc where
  | read : RunPc
  | write : Bytes → RunPc
  | close : RunPc
  deriving DecidableEq, Repr

/-- What the process can end with: a zero behind `buffer`, a descriptor printed as a string, or
SIGPIPE. -/
inductive Ended where
  | overrun : Ended
  | format : Ended
  | sigpipe : Ended
  deriving DecidableEq, Repr

/-- `sizeof(buffer)`. -/
def size : Nat := 4096

/-- The string that `buffer` holds after a read of `data` and `buffer[n] = 0`. -/
def cstring (data : Bytes) : Bytes := data.takeWhile (· != 0)

/-- `link` is what the accepting thread is about to push. -/
structure State (W : Type) where
  kernel : Kernel
  link : Option Task
  pool : ThreadPool.State Unit W Task
  serving : W → RunPc
  ended : Option Ended

/-- What `accept` returns and the address it fills in. -/
structure Accepted where
  sock : Int
  clientip : Bytes
  clientport : UInt16
  deriving DecidableEq, Repr

/-- What `read` and `write` meet: no data if `read` fails, and a client that has gone away. -/
structure Outcome where
  data : Option Bytes
  gone : Bool
  deriving DecidableEq, Repr

/-- A step of the accepting thread, of a worker, or a return from `Sleep` for no reason. The
accepting thread brings the workers that `WakeUp` wakes. -/
inductive Action (W : Type) where
  | start : Accepted → Finset W → Action W
  | work : W → Outcome → Action W
  | spurious : W → Action W

/-- What happened to a connection. -/
inductive Did where
  | accepted : Did
  | got : Bytes → Did
  | failed : Did
  | sent : Bytes → Did
  | closed : Did
  deriving DecidableEq, Repr

/-- The number of the connection; there is none behind any other descriptor. -/
abbrev Event := Option Nat × Did

section Model

variable {W : Type} [Fintype W] [DecidableEq W]

def boot (W : Type) (b : Boot) : State W where
  kernel := b.kernel
  link := none
  pool := ThreadPool.init Unit W Task
  serving := fun _ => .read
  ended := none

/-- What the pool is asked to do in a step that is one of the pool. -/
def Action.inner {W : Type} : Action W → ThreadPool.Action Unit W Task
  | .start o w => .push () ⟨o.sock, o.clientip, o.clientport⟩ w
  | .work c _ => .work c
  | .spurious c => .spurious c

/-- The pool takes its step. -/
def stepPool (s : State W) (a : ThreadPool.Action Unit W Task) : Option (State W) :=
  (ThreadPool.step s.pool a).map fun pool => { s with pool := pool }

def accept (s : State W) (o : Accepted) : Option (State W) :=
  (s.kernel.accept o.sock).map fun kernel =>
    if o.sock < 0 then s
    else { s with kernel := kernel, link := some ⟨o.sock, o.clientip, o.clientport⟩ }

/-- The loop of `Start`: `accept`, then `Push`. -/
def stepStart (s : State W) (o : Accepted) (w : Finset W) : Option (State W) :=
  match s.link, s.pool.pusher () with
  | some t, _ => (stepPool s (.push () t w)).map fun s => { s with link := none }
  | none, .idle => accept s o
  | none, _ => stepPool s (Action.start o w).inner

/-- `Task::run` by worker `c`. -/
def stepRun (dict : Dict) (s : State W) (c : W) (t : Task) (o : Outcome) : Option (State W) :=
  match s.serving c with
  | .read =>
    match o.data with
    | none => some { s with serving := Function.update s.serving c .close }
    | some data =>
      let buffer := data.take size
      if buffer = [] then some { s with ended := some .format }
      else if buffer.length < size then
        some { s with
          serving := Function.update s.serving c (.write (translation dict (cstring buffer))) }
      else some { s with ended := some .overrun }
  | .write _ =>
    if o.gone then some { s with ended := some .sigpipe }
    else some { s with serving := Function.update s.serving c .close }
  | .close =>
    (stepPool s (.work c)).map fun u =>
      { u with kernel := s.kernel.close t.sockfd, serving := Function.update s.serving c .read }

def stepWork (dict : Dict) (s : State W) (c : W) (o : Outcome) : Option (State W) :=
  match s.pool.worker c with
  | .run t => stepRun dict s c t o
  | _ => stepPool s (.work c)

def step (dict : Dict) (s : State W) (a : Action W) : Option (State W) :=
  if s.ended.isSome then none
  else match a with
    | .start o w => stepStart s o w
    | .work c o => stepWork dict s c o
    | .spurious c => stepPool s (.spurious c)

def system (W : Type) [Fintype W] [DecidableEq W] (dict : Dict) (b : Boot) :
    Transition.System (State W) (Action W) where
  init := boot W b
  step := step dict

/-- What `Task::run` does to the connection behind its descriptor. -/
def did (k : RunPc) (o : Outcome) : Option Did :=
  match k with
  | .read =>
    match o.data with
    | none => some .failed
    | some data =>
      let buffer := data.take size
      if buffer ≠ [] ∧ buffer.length < size then some (.got buffer) else none
  | .write text => if o.gone then none else some (.sent text)
  | .close => some .closed

def event (s : State W) : Action W → Option Event
  | .start o _ =>
    match s.link, s.pool.pusher () with
    | none, .idle => if o.sock < 0 then none else some (s.kernel.accepted, .accepted)
    | _, _ => none
  | .work c o =>
    match s.pool.worker c with
    | .run t => (did (s.serving c) o).map fun d => (s.kernel.conn t.sockfd, d)
    | _ => none
  | .spurious _ => none

end Model

end TcpServer
