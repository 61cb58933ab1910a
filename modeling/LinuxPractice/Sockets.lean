import Mathlib

/-!
# Descriptors of a server

What a server has open: its listening socket, accepted connections and
anything else. Connections are numbered in the order in which
they were accepted; their descriptors may be used again.
-/
namespace Sockets

inductive File where
  | other : File
  | listening : File
  | conn : Nat → File
  deriving DecidableEq, Repr

structure Kernel where
  files : Int → Option File
  accepted : Nat

/-- `accept` returns `sock`: an error, or a descriptor that is not open. -/
def Kernel.accept (k : Kernel) (sock : Int) : Option Kernel :=
  if sock < 0 then some k
  else if k.files sock = none then
    some ⟨Function.update k.files sock (some (.conn k.accepted)), k.accepted + 1⟩
  else none

def Kernel.close (k : Kernel) (fd : Int) : Kernel :=
  { k with files := Function.update k.files fd none }

/-- What `accept` and `read` return if they are called. -/
structure Outcome where
  sock : Int
  n : Int
  deriving DecidableEq, Repr

/-- A server before its first connection. -/
structure Boot where
  listensock : Int
  files : Int → Option File
  listening : files listensock = some .listening
  range : ∀ fd, files fd ≠ none → 0 ≤ fd
  fresh : ∀ fd id, files fd ≠ some (.conn id)

def Boot.kernel (b : Boot) : Kernel := ⟨b.files, 0⟩

/-- The three standard streams and a listening socket. -/
def standard : Boot where
  listensock := 3
  files := fun fd =>
    if fd = 3 then some .listening else if 0 ≤ fd ∧ fd ≤ 2 then some .other else none
  listening := rfl
  range := by
    intro fd hfd
    split at hfd
    · omega
    · split at hfd
      · omega
      · exact absurd rfl hfd
  fresh := by
    intro fd id
    split
    · simp
    · split <;> simp

variable {k l : Kernel} {sock : Int}

theorem Kernel.accept_cases (h : k.accept sock = some l) :
    (sock < 0 ∧ l = k) ∨ (0 ≤ sock ∧ k.files sock = none ∧
      l = ⟨Function.update k.files sock (some (.conn k.accepted)), k.accepted + 1⟩) := by
  unfold accept at h
  split at h
  · cases h
    exact .inl ⟨‹_›, rfl⟩
  · split at h <;> cases h
    exact .inr ⟨by omega, ‹_›, rfl⟩

/-- A connection that is closed at once leaves nothing behind. -/
theorem Kernel.close_accept (h : k.accept sock = some l) (hsock : 0 ≤ sock) :
    (l.close sock).files = k.files := by
  obtain ⟨hneg, -⟩ | ⟨-, hfree, rfl⟩ := accept_cases h
  · omega
  · simp [close, ← hfree]

/-- Every open connection has a number of its own, and the next one is not taken. -/
structure Kernel.Numbered (k : Kernel) : Prop where
  below : ∀ fd id, k.files fd = some (.conn id) → id < k.accepted
  distinct : ∀ fd fd' id, k.files fd = some (.conn id) → k.files fd' = some (.conn id) → fd = fd'

theorem Boot.numbered (b : Boot) : b.kernel.Numbered where
  below fd id h := absurd h (b.fresh fd id)
  distinct fd _ id h := absurd h (b.fresh fd id)

theorem Kernel.Numbered.accepted (h : k.Numbered) (sock : Int) :
    Kernel.Numbered ⟨Function.update k.files sock (some (.conn k.accepted)), k.accepted + 1⟩ := by
  have hconn : ∀ fd id, Function.update k.files sock (some (.conn k.accepted)) fd =
      some (.conn id) → fd = sock ∧ id = k.accepted ∨ k.files fd = some (.conn id) := by
    intro fd id hid
    by_cases he : fd = sock
    · rw [he, Function.update_self] at hid
      cases hid
      exact .inl ⟨he, rfl⟩
    · rw [Function.update_of_ne he] at hid
      exact .inr hid
  constructor
  · intro fd id hid
    obtain ⟨-, rfl⟩ | hid := hconn fd id hid
    · exact Nat.lt_succ_self _
    · exact Nat.lt_succ_of_lt (h.below fd id hid)
  · intro fd fd' id hid hid'
    obtain ⟨rfl, rfl⟩ | hid := hconn fd id hid
    · obtain ⟨rfl, -⟩ | hid' := hconn fd' _ hid'
      · rfl
      · exact absurd (h.below fd' _ hid') (Nat.lt_irrefl _)
    · obtain ⟨-, rfl⟩ | hid' := hconn fd' id hid'
      · exact absurd (h.below fd _ hid) (Nat.lt_irrefl _)
      · exact h.distinct fd fd' id hid hid'

theorem Kernel.Numbered.close (h : k.Numbered) (fd : Int) : (k.close fd).Numbered := by
  have hconn : ∀ x id, (k.close fd).files x = some (.conn id) → k.files x = some (.conn id) := by
    intro x id hid
    by_cases he : x = fd
    · simp [Kernel.close, he] at hid
    · simpa [Kernel.close, he] using hid
  constructor
  · intro x id hid
    exact h.below x id (hconn x id hid)
  · intro x y id hid hid'
    exact h.distinct x y id (hconn x id hid) (hconn y id hid')

/-- The number of the connection behind a descriptor. -/
def Kernel.conn (k : Kernel) (fd : Int) : Option Nat :=
  match k.files fd with
  | some (.conn id) => some id
  | _ => none

theorem Kernel.conn_eq_some_iff {fd : Int} {id : Nat} :
    k.conn fd = some id ↔ k.files fd = some (.conn id) := by
  unfold conn
  split
  · rename_i h
    simp [h]
  · rename_i h
    simpa using fun hid => h id hid

theorem Kernel.conn_close (k : Kernel) (fd x : Int) :
    (k.close fd).conn x = if x = fd then none else k.conn x := by
  by_cases hx : x = fd
  · simp [conn, close, hx]
  · simp [conn, close, hx]

theorem Kernel.Numbered.conn_lt (h : k.Numbered) {fd : Int} {id : Nat}
    (hid : k.conn fd = some id) : id < k.accepted :=
  h.below fd id (conn_eq_some_iff.mp hid)

theorem Kernel.Numbered.conn_inj (h : k.Numbered) {fd fd' : Int} {id : Nat}
    (hid : k.conn fd = some id) (hid' : k.conn fd' = some id) : fd = fd' :=
  h.distinct fd fd' id (conn_eq_some_iff.mp hid) (conn_eq_some_iff.mp hid')

/-- What a log says of a connection. -/
def history {δ : Type} (log : List (Option Nat × δ)) (id : Nat) : List δ :=
  log.filterMap fun e => if e.1 = some id then some e.2 else none

@[simp] theorem history_append {δ : Type} (log : List (Option Nat × δ)) (e : Option Nat × δ)
    (id : Nat) :
    history (log ++ [e]) id = history log id ++ if e.1 = some id then [e.2] else [] := by
  by_cases h : e.1 = some id <;> simp [history, h]

/-- `held` has every open connection once, and nothing else. -/
structure Kernel.Held (k : Kernel) (held : Multiset Int) : Prop where
  nodup : held.Nodup
  mem : ∀ fd, fd ∈ held ↔ ∃ id, k.conn fd = some id

theorem Boot.held (b : Boot) : b.kernel.Held 0 where
  nodup := Multiset.nodup_zero
  mem fd := by
    simp only [Multiset.notMem_zero, false_iff, not_exists, Kernel.conn_eq_some_iff]
    exact b.fresh fd

variable {held : Multiset Int}

theorem Kernel.Held.accepted (h : k.Held held) (hfree : k.files sock = none) :
    Kernel.Held ⟨Function.update k.files sock (some (.conn k.accepted)), k.accepted + 1⟩
      (sock ::ₘ held) where
  nodup := by
    refine Multiset.nodup_cons.mpr ⟨?_, h.nodup⟩
    rw [h.mem]
    simp [Kernel.conn, hfree]
  mem fd := by
    rw [Multiset.mem_cons, h.mem]
    by_cases hfd : fd = sock
    · simp [Kernel.conn, hfd]
    · simp [Kernel.conn, hfd]

theorem Kernel.Held.close {fd : Int} (h : k.Held (fd ::ₘ held)) : (k.close fd).Held held where
  nodup := (Multiset.nodup_cons.mp h.nodup).2
  mem x := by
    rw [Kernel.conn_close]
    have hx := h.mem x
    rw [Multiset.mem_cons] at hx
    by_cases he : x = fd
    · simpa [he] using (Multiset.nodup_cons.mp h.nodup).1
    · simpa [he] using hx

end Sockets
