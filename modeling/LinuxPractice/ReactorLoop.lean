import LinuxPractice.EpollServer
import LinuxPractice.ReactorDispatch

/-!
# Reactor: whole runs of the server

`Init` and `Loop` of `Reactor/TcpServer.hpp`, one system call or callback at a
time. What `epoll_wait` and `accept` return is up to the environment. A
`Connection` that is not put into the table takes the server with it when it is
destroyed, since each one owns the server through a pointer of its own.
-/
namespace ReactorLoop

open Reactor ReactorDispatch Sockets Transition Transition.System

/-- The one callback that is ever bound. -/
abbrev Callback := Unit

/-- Where the thread stands: at `epoll_wait`, at the test for reading of the next event, at the
test for writing, or in the `Accepter` of a connection. -/
inductive Pc where
  | wait : Pc
  | recv : List Event → Pc
  | send : Event → List Event → Pc
  | accepter : Int → Option Event → List Event → Pc
  deriving DecidableEq, Repr

structure State where
  kernel : Kernel
  server : Server Callback
  pc : Pc
  calls : List Call
  deleted : Bool

/-- `num`. -/
def num : Nat := 64

/-- What `epoll_wait` or `accept` returns, or a step that asks for nothing. -/
inductive Action where
  | epollWait : List Event → Action
  | accept : Int → Errno → Action
  | go : Action
  deriving DecidableEq, Repr

/-- The events of a batch are for descriptors that are watched. -/
def Waited (s : State) (revs : List Event) : Prop :=
  revs.length ≤ num ∧ (revs.map Event.fd).Nodup ∧ ∀ rev ∈ revs, s.server.interest rev.fd ≠ none

instance (s : State) (revs : List Event) : Decidable (Waited s revs) :=
  inferInstanceAs (Decidable (_ ∧ _))

/-- `AddConnection`; the new object dies with the call if there is one already. -/
def add (s : State) (sock : Int) (recvCb : Option Callback) : State :=
  { s with
    server := addConnection s.server sock eventIn recvCb none none
    deleted := s.deleted || (s.server.connections sock).isSome }

def start (b : Boot) : State :=
  add ⟨b.kernel, ⟨fun _ => none, fun _ => none⟩, .wait, [], false⟩ b.listensock (some ())

/-- Past the end of a callback or of a test that fails. -/
def next (rest : List Event) : Option Event → Pc
  | some rev => .send rev rest
  | none => .recv rest

/-- One test of `Dispatcher` and the call behind it. -/
def test (s : State) (mask : UInt32) (cb : Connection Callback → Option Callback)
    (call : Int → Call) (rev : Event) (after : Option Event) (rest : List Event) : State :=
  if Marked rev.events mask then
    match (s.server.connections rev.fd).bind fun c => (cb c).map fun _ => c with
    | some c => { s with pc := .accepter c.sock after rest, calls := s.calls ++ [call rev.fd] }
    | none => { s with pc := next rest after }
  else { s with pc := next rest after }

/-- One turn of the loop of `Accepter`. -/
def accepter (s : State) (after : Option Event) (rest : List Event) (sock : Int) (errno : Errno) :
    Option State :=
  (s.kernel.accept sock).map fun kernel =>
    let s := { s with kernel := kernel }
    if sock > 0 then add s sock none
    else if sock = 0 then
      if errno = .intr then s else { s with pc := next rest after }
    else s

def step (s : State) (a : Action) : Option State :=
  if s.deleted then none
  else match s.pc, a with
    | .wait, .epollWait revs => if Waited s revs then some { s with pc := .recv revs } else none
    | .recv [], .go => some { s with pc := .wait }
    | .recv (rev :: rest), .go =>
      some (test s eventIn Connection.recvCb .recv rev (some rev) rest)
    | .send rev rest, .go => some (test s eventOut Connection.sendCb .send rev none rest)
    | .accepter _ after rest, .accept sock errno => accepter s after rest sock errno
    | _, _ => none

def system (b : Boot) : System State Action where
  init := start b
  step := step

/-- What the table has for a descriptor. -/
def entry (b : Boot) (k : Kernel) (fd : Int) : Option (Connection Callback) :=
  if fd = b.listensock then some ⟨fd, some (), none, none⟩
  else if (k.conn fd).isSome ∧ 0 < fd then some ⟨fd, none, none, none⟩
  else none

/-- Where the run can be, and what it has called. -/
def Placed (b : Boot) (s : State) : Prop :=
  match s.pc with
  | .accepter fd _ _ => fd = b.listensock ∧ s.calls ≠ []
  | _ => True

structure Sound (b : Boot) (s : State) : Prop where
  listening : s.kernel.files b.listensock = some .listening
  older : ∀ fd, b.files fd ≠ none → s.kernel.files fd ≠ none
  numbered : s.kernel.Numbered
  connections : s.server.connections = entry b s.kernel
  interest : s.server.interest = fun fd => (entry b s.kernel fd).map fun _ => eventIn
  calls : ∀ call ∈ s.calls, call = .recv b.listensock
  placed : Placed b s
  alive : s.deleted = false

variable {b : Boot} {s t : State} {fd : Int}

theorem entry_start (b : Boot) (fd : Int) :
    entry b b.kernel fd = if fd = b.listensock then some ⟨fd, some (), none, none⟩ else none := by
  have hnone : b.kernel.conn fd = none := by
    rw [Option.eq_none_iff_forall_ne_some]
    intro id hid
    exact b.fresh fd id (Kernel.conn_eq_some_iff.mp hid)
  simp [entry, hnone]

theorem sound_start (b : Boot) : Sound b (start b) where
  listening := b.listening
  older := fun _ h => h
  numbered := b.numbered
  connections := by
    funext fd
    rw [show (start b).kernel = b.kernel from rfl, entry_start]
    by_cases hfd : fd = b.listensock
    · simp [start, add, addConnection, epollerAdd, hfd]
    · simp [start, add, addConnection, epollerAdd, hfd]
  interest := by
    funext fd
    rw [show (start b).kernel = b.kernel from rfl, entry_start]
    by_cases hfd : fd = b.listensock
    · simp [start, add, addConnection, epollerAdd, hfd]
    · simp [start, add, addConnection, epollerAdd, hfd]
  calls := by simp [start, add]
  placed := trivial
  alive := rfl

variable {sock : Int} {k : Kernel}

/-- A new connection under a positive number gets an entry, and nothing else changes. -/
theorem entry_accept (hlisten : k.files b.listensock = some .listening)
    (hfree : k.files sock = none) :
    entry b ⟨Function.update k.files sock (some (.conn k.accepted)), k.accepted + 1⟩ =
      if 0 < sock then Function.update (entry b k) sock (some ⟨sock, none, none, none⟩)
      else entry b k := by
  have hne : sock ≠ b.listensock := by
    rintro rfl
    rw [hlisten] at hfree
    cases hfree
  funext fd
  by_cases hfd : fd = sock
  · subst hfd
    by_cases hpos : 0 < fd
    · simp [entry, hne, hpos, Kernel.conn]
    · simp [entry, hpos]
  · have hconn : Kernel.conn ⟨Function.update k.files sock (some (.conn k.accepted)),
        k.accepted + 1⟩ fd = k.conn fd := by
      simp [Kernel.conn, hfd]
    by_cases hpos : 0 < sock
    · simp [entry, hconn, hpos, hfd]
    · simp [entry, hconn, hpos]

theorem entry_free (hlisten : k.files b.listensock = some .listening)
    (hfree : k.files sock = none) : entry b k sock = none := by
  have hne : sock ≠ b.listensock := by
    rintro rfl
    rw [hlisten] at hfree
    cases hfree
  simp [entry, hne, Kernel.conn, hfree]

/-- Only the listening socket has a callback, and only one for reading. -/
theorem callbacks (hi : Sound b s) {c : Connection Callback}
    {cb : Connection Callback → Option Callback}
    (hc : ((s.server.connections fd).bind fun c => (cb c).map fun _ => c) = some c) :
    s.server.connections fd = some c ∧ (cb c).isSome ∧
      (c = ⟨fd, some (), none, none⟩ ∧ fd = b.listensock ∨ c = ⟨fd, none, none, none⟩) := by
  obtain ⟨d, hd, hcb⟩ := Option.bind_eq_some_iff.mp hc
  obtain ⟨u, hu, rfl⟩ := Option.map_eq_some_iff.mp hcb
  refine ⟨hd, by simp [hu], ?_⟩
  rw [hi.connections, entry] at hd
  split at hd
  · cases hd
    exact .inl ⟨rfl, ‹_›⟩
  · split at hd <;> cases hd
    exact .inr rfl

theorem placed_next (b : Boot) (rest : List Event) (after : Option Event) :
    Placed b { s with pc := next rest after } := by
  cases after <;> trivial

theorem Sound.accepter {after : Option Event} {rest : List Event} {errno : Errno}
    (hi : Sound b s) (h : ReactorLoop.accepter s after rest sock errno = some t) : Sound b t := by
  obtain ⟨kernel, hk, rfl⟩ := Option.map_eq_some_iff.mp h
  obtain ⟨hneg, rfl⟩ | ⟨hsock, hfree, rfl⟩ := Kernel.accept_cases hk
  · have hpos : ¬ sock > 0 := by omega
    have hzero : sock ≠ 0 := by omega
    simpa only [hpos, hzero, if_false] using hi
  · have hlisten : Function.update s.kernel.files sock (some (.conn s.kernel.accepted))
        b.listensock = some .listening := by
      rw [Function.update_of_ne, hi.listening]
      intro he
      rw [← he, hi.listening] at hfree
      cases hfree
    have holder : ∀ fd, b.files fd ≠ none → Function.update s.kernel.files sock
        (some (.conn s.kernel.accepted)) fd ≠ none := by
      intro fd hfd
      by_cases he : fd = sock
      · simp [he]
      · simpa [he] using hi.older fd hfd
    have hentry := entry_accept hi.listening hfree
    have hnone : s.server.connections sock = none := by
      rw [hi.connections, entry_free hi.listening hfree]
    have hwatched : s.server.interest sock = none := by
      simp [hi.interest, entry_free hi.listening hfree]
    by_cases hpos : sock > 0
    · rw [if_pos hpos] at hentry ⊢
      refine ⟨hlisten, holder, hi.numbered.accepted sock, ?_, ?_, hi.calls, hi.placed, ?_⟩
      · funext fd
        simp [add, addConnection, epollerAdd, hnone, hwatched, hentry, hi.connections]
      · funext fd
        by_cases hfd : fd = sock
        · simp [add, addConnection, epollerAdd, hnone, hwatched, hentry, hfd]
        · simp [add, addConnection, epollerAdd, hnone, hwatched, hentry, hfd, hi.interest]
      · simp [add, hi.alive, hnone]
    · rw [if_neg hpos] at hentry ⊢
      have hsame : Sound b { s with
          kernel := ⟨Function.update s.kernel.files sock (some (.conn s.kernel.accepted)),
            s.kernel.accepted + 1⟩ } :=
        ⟨hlisten, holder, hi.numbered.accepted sock, hi.connections.trans hentry.symm,
          by rw [hentry]; exact hi.interest, hi.calls, hi.placed, hi.alive⟩
      split
      · split
        · exact hsame
        · exact { hsame with placed := placed_next b rest after }
      · exact hsame

/-- Whatever the test finds, the only callback it can come to is the `Accepter`. -/
theorem Sound.test {mask : UInt32} {cb : Connection Callback → Option Callback}
    {call : Int → Call} {rev : Event} {after : Option Event} {rest : List Event} (hi : Sound b s)
    (hcall : ∀ c, cb c ≠ none → (c = ⟨rev.fd, some (), none, none⟩ ∧ rev.fd = b.listensock ∨
      c = ⟨rev.fd, none, none, none⟩) → c.sock = b.listensock ∧ call rev.fd = .recv b.listensock) :
    Sound b (ReactorLoop.test s mask cb call rev after rest) := by
  unfold ReactorLoop.test
  split
  · split
    · rename_i c hc
      obtain ⟨-, hsome, hshape⟩ := callbacks hi hc
      obtain ⟨hsock, hrecv⟩ := hcall c (by simpa [Option.isSome_iff_ne_none] using hsome) hshape
      refine { hi with calls := ?_, placed := ⟨hsock, by simp⟩ }
      intro x hx
      rcases List.mem_append.mp hx with hx | hx
      · exact hi.calls x hx
      · rw [List.mem_singleton.mp hx, hrecv]
    · exact { hi with placed := placed_next b rest after }
  · exact { hi with placed := placed_next b rest after }

theorem Sound.step {a : Action} (hi : Sound b s) (h : step s a = some t) : Sound b t := by
  unfold ReactorLoop.step at h
  rw [if_neg (by simp [hi.alive])] at h
  split at h
  · split at h <;> cases h
    exact { hi with placed := trivial }
  · cases h
    exact { hi with placed := trivial }
  · cases h
    apply hi.test
    rintro c hcb (⟨rfl, hfd⟩ | rfl)
    · exact ⟨hfd, by rw [hfd]⟩
    · exact absurd rfl hcb
  · cases h
    apply hi.test
    rintro c hcb (⟨rfl, -⟩ | rfl)
    · exact absurd rfl hcb
    · exact absurd rfl hcb
  · exact hi.accepter h
  · cases h

theorem sound (h : (system b).Reachable anyStep s) : Sound b s :=
  h.invariant (sound_start b) fun _ _ _ hi _ hs => hi.step hs

/-- In every run `AddConnection` meets no entry, what the epoll instance watches is what is in the
table, the table has the listening socket and the accepted connections, and no callback but the
`Accepter` is called. -/
theorem table_is_watched (h : (system b).Reachable anyStep s) :
    s.deleted = false ∧ s.server.connections = entry b s.kernel ∧
      (s.server.interest = fun fd => (s.server.connections fd).map fun _ => eventIn) ∧
      ∀ call ∈ s.calls, call = .recv b.listensock := by
  have hi := sound h
  exact ⟨hi.alive, hi.connections, by rw [hi.connections]; exact hi.interest, hi.calls⟩

/-- A client on descriptor 5 is accepted, and a signal comes in. -/
def oneClientRun : List Action :=
  [.epollWait [⟨epollin, 4⟩], .go, .accept 5 .unset, .accept (-1) .intr]

/-- Three standard streams; the epoll instance and the listening socket come next. -/
def streams : Descriptors.Table Unit := [some (), some (), some ()]

def oneClientEnd : State :=
  ((system (EpollServer.boot streams)).run (start (EpollServer.boot streams)) oneClientRun).get
    (by decide)

theorem table_is_watched_one : oneClientEnd.server.interest 5 = some eventIn ∧
    oneClientEnd.server.connections = entry (EpollServer.boot streams) oneClientEnd.kernel :=
  ⟨by decide, (table_is_watched (b := EpollServer.boot streams) (reachable_of_run _)).2.1⟩

/-- The thread is in the `Accepter` from its first call on. -/
def Settled (b : Boot) (s : State) : Prop :=
  s.calls = [] ∧ (∀ fd after rest, s.pc ≠ .accepter fd after rest) ∨
    s.calls = [.recv b.listensock] ∧ ∃ after rest, s.pc = .accepter b.listensock after rest

theorem settled_next (rest : List Event) (after : Option Event) (h : s.calls = []) :
    Settled b { s with pc := next rest after } := by
  refine .inl ⟨h, fun fd after' rest' => ?_⟩
  cases after <;> simp [next]

theorem settled_test {mask : UInt32} {cb : Connection Callback → Option Callback}
    {call : Int → Call} {rev : Event} {after : Option Event} {rest : List Event}
    (hsound : Sound b (test s mask cb call rev after rest)) (h : s.calls = []) :
    Settled b (test s mask cb call rev after rest) := by
  unfold test at hsound ⊢
  split
  · rename_i hmark
    rw [if_pos hmark] at hsound
    split
    · rename_i c hc
      simp only [hc] at hsound
      have hcalls := hsound.calls (call rev.fd) (by simp)
      obtain ⟨hsock, -⟩ := hsound.placed
      exact .inr ⟨by simp [h, hcalls], after, rest, by rw [hsock]⟩
    · exact settled_next rest after h
  · exact settled_next rest after h

theorem settled_step {a : Action} (hi : Sound b s) (hzero : b.files 0 ≠ none) (hs : Settled b s)
    (h : step s a = some t) : Settled b t := by
  have hsound := hi.step h
  unfold step at h
  rw [if_neg (by simp [hi.alive])] at h
  rcases hs with ⟨hcalls, hout⟩ | ⟨hcalls, after, rest, hpc⟩
  · split at h
    · split at h <;> cases h
      exact .inl ⟨hcalls, by simp⟩
    · cases h
      exact .inl ⟨hcalls, by simp⟩
    · cases h
      exact settled_test hsound hcalls
    · cases h
      exact settled_test hsound hcalls
    · exact absurd ‹_› (hout _ _ _)
    · cases h
  · cases a with
    | epollWait revs =>
      simp only [hpc] at h
      cases h
    | go =>
      simp only [hpc] at h
      cases h
    | accept sock errno =>
      simp only [hpc] at h
      obtain ⟨kernel, hk, rfl⟩ := Option.map_eq_some_iff.mp h
      have hne : sock ≠ 0 := by
        rintro rfl
        obtain ⟨hneg, -⟩ | ⟨-, hfree, -⟩ := Kernel.accept_cases hk
        · omega
        · exact hi.older 0 hzero hfree
      refine .inr ?_
      simp only [hne, if_false]
      split
      · exact ⟨hcalls, after, rest, hpc⟩
      · exact ⟨hcalls, after, rest, hpc⟩

/-- Whatever descriptors the process has inherited: the first callback is the last one. The thread
never comes back from it to `epoll_wait`, and no client is ever read from or written to. -/
theorem never_back {inherited : Descriptors.Table Unit}
    (h : (system (EpollServer.boot inherited)).Reachable anyStep s) :
    s.calls = [] ∧ (∀ fd after rest, s.pc ≠ .accepter fd after rest) ∨
      s.calls = [.recv (EpollServer.boot inherited).listensock] ∧
        ∃ after rest, s.pc = .accepter (EpollServer.boot inherited).listensock after rest := by
  have hboth : Sound (EpollServer.boot inherited) s ∧ Settled (EpollServer.boot inherited) s := by
    have hstart : Settled (EpollServer.boot inherited) (start (EpollServer.boot inherited)) :=
      .inl ⟨rfl, by simp [start, add]⟩
    refine h.invariant (I := fun s => Sound (EpollServer.boot inherited) s ∧
      Settled (EpollServer.boot inherited) s) ⟨sound_start _, hstart⟩ ?_
    intro s a t ⟨hi, hs⟩ _ hstep
    exact ⟨hi.step hstep, settled_step hi (EpollServer.boot_zero inherited) hs hstep⟩
  exact hboth.2

theorem never_back_one : oneClientEnd.calls = [.recv 4] ∧
    (oneClientEnd.calls = [] ∧ (∀ fd after rest, oneClientEnd.pc ≠ .accepter fd after rest) ∨
      oneClientEnd.calls = [.recv (EpollServer.boot streams).listensock] ∧
        ∃ after rest, oneClientEnd.pc =
          .accepter (EpollServer.boot streams).listensock after rest) :=
  ⟨by decide, @never_back _ streams (reachable_of_run _)⟩

end ReactorLoop
