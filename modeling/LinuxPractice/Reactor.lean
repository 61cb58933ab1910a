import Mathlib
import LinuxPractice.Loops

/-!
# Reactor: the loop of the Accepter

`TcpServer.hpp` with the part of `Epoller.hpp` it uses. Callbacks are names of
some type. The listening socket does not block, so `accept` reports an empty
backlog by -1, which the loop has no branch for.
-/
namespace Reactor

open Loops

def epollin : UInt32 := 1
def epollout : UInt32 := 4
def epollerr : UInt32 := 8
def epollhup : UInt32 := 16
def epollet : UInt32 := 2147483648

def eventIn : UInt32 := epollin ||| epollet
def eventOut : UInt32 := epollout ||| epollet

/-- A callback that is `nullptr` is `none`. -/
structure Connection (κ : Type) where
  sock : Int
  recvCb : Option κ
  sendCb : Option κ
  exceptCb : Option κ
  deriving DecidableEq, Repr

/-- `interest` is what the epoll instance watches. -/
structure Server (κ : Type) where
  connections : Int → Option (Connection κ)
  interest : Int → Option UInt32

inductive Errno where
  | unset | wouldBlock | intr
  deriving DecidableEq, Repr

/-- What the calls of `accept` meet: a connection with its descriptor, or a signal. -/
inductive Pending where
  | conn : Int → Pending
  | interrupted : Pending
  deriving DecidableEq, Repr

/-- `accept` on a socket that does not block. -/
def accept : List Pending → Errno → Int × Errno × List Pending
  | [], _ => (-1, .wouldBlock, [])
  | .conn sock :: pending, errno => (sock, errno, pending)
  | .interrupted :: pending, _ => (-1, .intr, pending)

section

variable {κ : Type}

/-- `EPOLL_CTL_ADD` fails for a descriptor that is watched already. -/
def epollerAdd (s : Server κ) (sock : Int) (event : UInt32) : Server κ :=
  match s.interest sock with
  | some _ => s
  | none => { s with interest := Function.update s.interest sock (some event) }

/-- `emplace` keeps what is there. -/
def addConnection (s : Server κ) (sock : Int) (event : UInt32) (recvCb sendCb exceptCb : Option κ) :
    Server κ :=
  let connection : Connection κ := ⟨sock, recvCb, sendCb, exceptCb⟩
  let connections :=
    match s.connections sock with
    | some _ => s.connections
    | none => Function.update s.connections sock (some connection)
  epollerAdd { s with connections := connections } sock event

/-- `added` lists the calls of `AddConnection`. -/
structure Accepting (κ : Type) where
  server : Server κ
  pending : List Pending
  errno : Errno
  added : List Int

/-- One turn of the loop of `Accepter`. -/
def accepter (s : Accepting κ) : Turn (Accepting κ) (Accepting κ) :=
  let (sock, errno, pending) := accept s.pending s.errno
  let s := { s with pending := pending, errno := errno }
  if sock > 0 then
    .again { s with
      server := addConnection s.server sock eventIn none none none
      added := s.added ++ [sock] }
  else if sock = 0 then
    if errno = .wouldBlock then .leave s
    else if errno = .intr then .again s
    else .leave s
  else .again s

/-- The descriptors of the connections, in order. -/
def socks : List Pending → List Int
  | [] => []
  | .conn sock :: pending => sock :: socks pending
  | .interrupted :: pending => socks pending

/-- The descriptors are positive. -/
def Positive (pending : List Pending) : Prop := ∀ sock, .conn sock ∈ pending → 0 < sock

/-- `Accepter` returns, with every pending connection added once. -/
def Drains (s : Accepting κ) : Prop :=
  ∃ t, Returns accepter s t ∧ t.pending = [] ∧ t.added = s.added ++ socks s.pending

variable {s : Accepting κ}

theorem Positive.tail {pending : List Pending} (h : Positive pending) : Positive pending.tail :=
  fun sock hsock => h sock (List.mem_of_mem_tail hsock)

/-- No turn leaves the loop, and each takes one off the backlog. -/
theorem accepter_turn (h : Positive s.pending) : ∃ t, accepter s = .again t ∧
    t.pending = s.pending.tail ∧ t.added ++ socks t.pending = s.added ++ socks s.pending := by
  obtain ⟨server, pending, errno, added⟩ := s
  cases pending with
  | nil => exact ⟨⟨server, [], .wouldBlock, added⟩, rfl, rfl, rfl⟩
  | cons p pending =>
    cases p with
    | conn sock =>
      have hpos : sock > 0 := h sock List.mem_cons_self
      refine ⟨⟨addConnection server sock eventIn none none none, pending, errno, added ++ [sock]⟩,
        ?_, rfl, ?_⟩
      · simp [accepter, accept, hpos]
      · simp [socks]
    | interrupted => exact ⟨⟨server, pending, .intr, added⟩, rfl, rfl, rfl⟩

/-- The backlog is worked off, turn by turn. -/
theorem accepter_after (h : Positive s.pending) (n : Nat) (hn : s.pending.length ≤ n) :
    ∃ t, after accepter n s = some t ∧ t.pending = [] ∧ t.added = s.added ++ socks s.pending := by
  induction n generalizing s with
  | zero =>
    have hnil : s.pending = [] := List.length_eq_zero_iff.mp (Nat.le_zero.mp hn)
    exact ⟨s, rfl, hnil, by simp [hnil, socks]⟩
  | succ n ih =>
    obtain ⟨t, ht, htail, hadded⟩ := accepter_turn h
    have hpos : Positive t.pending := htail ▸ h.tail
    have hlen : t.pending.length ≤ n := by
      rw [htail, List.length_tail]
      omega
    obtain ⟨u, hu, hnil, hall⟩ := ih hpos hlen
    exact ⟨u, (after_again ht n).trans hu, hnil, hall.trans hadded⟩

theorem accepter_spins (h : Positive s.pending) : ¬ Ends accepter s := by
  refine not_ends (I := fun s : Accepting κ => Positive s.pending) ?_ h
  intro s hs
  obtain ⟨t, ht, htail, -⟩ := accepter_turn hs
  exact ⟨t, ht, htail ▸ hs.tail⟩

/-- Every connection is added once, and then the loop goes on for ever. -/
theorem never_drains (h : Positive s.pending) :
    (∀ n, s.pending.length ≤ n → ∃ t, after accepter n s = some t ∧ t.pending = [] ∧
      t.added = s.added ++ socks s.pending) ∧ ¬ Drains s := by
  refine ⟨accepter_after h, ?_⟩
  rintro ⟨t, ht, -⟩
  exact accepter_spins h ⟨t, ht⟩

/-- A server with its listening socket, whose callback is the `Accepter`. -/
def started : Server Unit :=
  addConnection ⟨fun _ => none, fun _ => none⟩ 3 eventIn (some ()) none none

def two : Accepting Unit := ⟨started, [.conn 5, .interrupted, .conn 6], .unset, []⟩

theorem never_drains_two : (∀ n, 3 ≤ n → ∃ t, after accepter n two = some t ∧ t.pending = [] ∧
    t.added = [5, 6]) ∧ ¬ Drains two := by
  apply never_drains (s := two)
  intro sock hsock
  simp only [two, List.mem_cons, Pending.conn.injEq, reduceCtorEq, List.not_mem_nil, or_false,
    false_or] at hsock
  omega

/-- Not even an empty backlog is noticed. -/
theorem empty_backlog_spins : ¬ Drains (⟨started, [], .unset, []⟩ : Accepting Unit) := by
  rintro ⟨t, ht, -⟩
  exact accepter_spins (fun _ hsock => absurd hsock List.not_mem_nil) ⟨t, ht⟩

end

end Reactor
