import LinuxPractice.Getline
import LinuxPractice.Pipes
import LinuxPractice.Threads
import LinuxPractice.Transition

/-!
# The server and the clients of a FIFO

`server.cc` and any number of processes that run `client.cc`. An `open` waits
until somebody has opened the other end, which may be gone again by then. Any
process may be killed, and what the server does not remove stays.
-/
namespace Fifo

open CppString Dictionary Getline Pipes Transition Transition.System

/-- The size of `buffer`. -/
def size : Nat := 1024

/-- The kernel's pipe buffer. -/
def capacity : Nat := 65536

/-- PIPE_BUF: a `write` of no more than this is not split. -/
def pipeBuf : Nat := 4096

def fifoCreatErr : Nat := 1
def fifoDeleteErr : Nat := 2
def fifoOpenErr : Nat := 3

/-- Where the server stands; `opening` has the opens for writing that it has seen. -/
inductive ServerPc where
  | mkfifo : ServerPc
  | openFifo : ServerPc
  | opening : Nat → ServerPc
  | read : ServerPc
  | print : Bytes → ServerPc
  | quit : ServerPc
  | close : ServerPc
  | unlink : ServerPc
  | exit : Nat → ServerPc
  | killed : ServerPc
  deriving DecidableEq, Repr

/-- Where a client stands; `write` has the rest of the line. -/
inductive ClientPc where
  | openFifo : ClientPc
  | opening : Nat → ClientPc
  | getline : ClientPc
  | write : Bytes → ClientPc
  | exit : ClientPc
  | killed : ClientPc
  deriving DecidableEq, Repr

/-- The end that a process has open. -/
@[simp] def ServerPc.readers : ServerPc → Nat
  | .opening _ | .read | .print _ | .quit | .close => 1
  | _ => 0

@[simp] def ClientPc.writers : ClientPc → Nat
  | .opening _ | .getline | .write _ => 1
  | _ => 0

def ServerPc.ended : ServerPc → Bool
  | .exit _ | .killed => true
  | _ => false

def ClientPc.ended : ClientPc → Bool
  | .exit | .killed => true
  | _ => false

/-- Where the server is after a call that failed. `exit` runs no destructor of `init`. -/
def ServerPc.failed : ServerPc → Option ServerPc
  | .mkfifo => some (.exit fifoCreatErr)
  | .openFifo => some (.exit fifoOpenErr)
  | .read => some .close
  | .unlink => some (.exit fifoDeleteErr)
  | _ => none

structure State (C : Type) where
  pipe : Pipe UInt8
  linked : Bool
  rCounter : Nat
  wCounter : Nat
  server : ServerPc
  client : C → ClientPc
  line : C → Bytes
  stdin : C → Stdin
  fault : Bool

/-- A step of a process, with the number of bytes the kernel transfers, a call of it that fails,
or its death; `kill none` is the server's. -/
inductive Action (C : Type) where
  | server : Nat → Action C
  | serverFails : Action C
  | client : C → Nat → Action C
  | clientFails : C → Action C
  | kill : Option C → Action C
  deriving DecidableEq, Repr

inductive Event (C : Type) where
  | entered : C → Bytes → Event C
  | wrote : C → Bytes → Event C
  | got : Bytes → Event C
  | printed : Bytes → Event C
  | eof : Event C
  deriving DecidableEq, Repr

section Model

variable {C : Type} [DecidableEq C]

def init (input : C → Bytes) : State C :=
  ⟨⟨[], 0, 0⟩, false, 0, 0, .mkfifo, fun _ => .openFifo, fun _ => [], fun c => ⟨input c, false⟩,
    false⟩

/-- What `cout` makes of the buffer. -/
def say (data : Bytes) : Bytes := data.takeWhile (· != 0)

/-- The server goes on, and there may be something to tell of it. -/
def stepServer (s : State C) (k : Nat) : Option (State C × Option (Event C)) :=
  match s.server with
  | .mkfifo => some ({ s with linked := true, server := .openFifo }, none)
  | .openFifo =>
    some ({ s with
      pipe := { s.pipe with readers := s.pipe.readers + 1 }
      rCounter := s.rCounter + 1
      server := if s.pipe.writers = 0 then .opening s.wCounter else .read }, none)
  | .opening w => if s.wCounter = w then none else some ({ s with server := .read }, none)
  | .read =>
    (s.pipe.read size k).map fun
      | ([], pipe) => ({ s with pipe := pipe, server := .quit }, some .eof)
      | (data, pipe) => ({ s with pipe := pipe, server := .print data }, some (.got data))
  | .print data =>
    if data.length < size then some ({ s with server := .read }, some (.printed (say data)))
    else some ({ s with fault := true }, none)
  | .quit => some ({ s with server := .close }, none)
  | .close =>
    some ({ s with
      pipe := { s.pipe with readers := s.pipe.readers - 1 }, server := .unlink }, none)
  | .unlink => some ({ s with linked := false, server := .exit 0 }, none)
  | .exit _ | .killed => none

def State.move (s : State C) (c : C) (k : ClientPc) : State C :=
  { s with client := Function.update s.client c k }

def stepClient (s : State C) (c : C) (k : Nat) : Option (State C × Option (Event C)) :=
  match s.client c with
  | .openFifo =>
    if s.linked then
      some ({ s with
        pipe := { s.pipe with writers := s.pipe.writers + 1 }
        wCounter := s.wCounter + 1
        client := Function.update s.client c
          (if s.pipe.readers = 0 then .opening s.rCounter else .getline) }, none)
    else some (s.move c .exit, none)
  | .opening r => if s.rCounter = r then none else some (s.move c .getline, none)
  | .getline =>
    let (line, stdin) := getline (s.line c) (s.stdin c)
    some ({ s with
      client := Function.update s.client c (.write line)
      line := Function.update s.line c line
      stdin := Function.update s.stdin c stdin }, some (.entered c line))
  | .write [] => some (s.move c .getline, none)
  | .write (b :: rest) =>
    if (s.line c).length ≤ pipeBuf ∧ k ≠ (b :: rest).length then none
    else (s.pipe.write capacity (b :: rest) k).map fun
      | .put pipe =>
        ({ s with
          pipe := pipe
          client := Function.update s.client c (.write ((b :: rest).drop k)) },
          some (.wrote c ((b :: rest).take k)))
      | .sigpipe =>
        ({ s with
          pipe := { s.pipe with writers := s.pipe.writers - 1 }
          client := Function.update s.client c .killed }, none)
  | .exit | .killed => none

def kill (s : State C) : Option C → Option (State C × Option (Event C))
  | none =>
    if s.server.ended then none
    else some ({ s with
      pipe := { s.pipe with readers := s.pipe.readers - s.server.readers }
      server := .killed }, none)
  | some c =>
    if (s.client c).ended then none
    else some ({ s with
      pipe := { s.pipe with writers := s.pipe.writers - (s.client c).writers }
      client := Function.update s.client c .killed }, none)

def act (s : State C) (a : Action C) : Option (State C × Option (Event C)) :=
  if s.fault then none
  else match a with
    | .server k => stepServer s k
    | .serverFails => s.server.failed.map fun k => ({ s with server := k }, none)
    | .client c k => stepClient s c k
    | .clientFails c => if s.client c = .openFifo then some (s.move c .exit, none) else none
    | .kill p => kill s p

def step (s : State C) (a : Action C) : Option (State C) := (act s a).map Prod.fst

def event (s : State C) (a : Action C) : Option (Event C) := (act s a).bind Prod.snd

def system (input : C → Bytes) : System (State C) (Action C) where
  init := init input
  step := step

end Model

variable {C : Type} [DecidableEq C] {input : C → Bytes} {s t : State C} {e : Option (Event C)}

inductive ServerStep (s : State C) : State C → Option (Event C) → Prop
  | mkfifo (hpc : s.server = .mkfifo) :
      ServerStep s { s with linked := true, server := .openFifo } none
  | openFifo (hpc : s.server = .openFifo) : ServerStep s { s with
      pipe := { s.pipe with readers := s.pipe.readers + 1 }
      rCounter := s.rCounter + 1
      server := if s.pipe.writers = 0 then .opening s.wCounter else .read } none
  | woken (w : Nat) (hpc : s.server = .opening w) (hne : s.wCounter ≠ w) :
      ServerStep s { s with server := .read } none
  | eof (hpc : s.server = .read) (hunread : s.pipe.unread = []) (hwriters : s.pipe.writers = 0) :
      ServerStep s { s with server := .quit } (some .eof)
  | got (data unread : Bytes) (hpc : s.server = .read) (hpos : 0 < data.length)
      (hlen : data.length ≤ size) (hunread : s.pipe.unread = data ++ unread) :
      ServerStep s { s with pipe := { s.pipe with unread := unread }, server := .print data }
        (some (.got data))
  | print (data : Bytes) (hpc : s.server = .print data) (hlen : data.length < size) :
      ServerStep s { s with server := .read } (some (.printed (say data)))
  | overrun (data : Bytes) (hpc : s.server = .print data) (hlen : ¬ data.length < size) :
      ServerStep s { s with fault := true } none
  | quit (hpc : s.server = .quit) : ServerStep s { s with server := .close } none
  | close (hpc : s.server = .close) : ServerStep s { s with
      pipe := { s.pipe with readers := s.pipe.readers - 1 }, server := .unlink } none
  | unlink (hpc : s.server = .unlink) :
      ServerStep s { s with linked := false, server := .exit 0 } none
  | failed (k : ServerPc) (hpc : s.server.failed = some k) :
      ServerStep s { s with server := k } none
  | killed (hpc : s.server.ended = false) : ServerStep s { s with
      pipe := { s.pipe with readers := s.pipe.readers - s.server.readers }
      server := .killed } none

inductive ClientStep (s : State C) (c : C) : State C → Option (Event C) → Prop
  | openFifo (hpc : s.client c = .openFifo) (hlinked : s.linked = true) :
      ClientStep s c { s with
        pipe := { s.pipe with writers := s.pipe.writers + 1 }
        wCounter := s.wCounter + 1
        client := Function.update s.client c
          (if s.pipe.readers = 0 then .opening s.rCounter else .getline) } none
  | failed (hpc : s.client c = .openFifo) : ClientStep s c (s.move c .exit) none
  | woken (r : Nat) (hpc : s.client c = .opening r) (hne : s.rCounter ≠ r) :
      ClientStep s c (s.move c .getline) none
  | getline (hpc : s.client c = .getline) : ClientStep s c
      { s with
        client := Function.update s.client c (.write (getline (s.line c) (s.stdin c)).1)
        line := Function.update s.line c (getline (s.line c) (s.stdin c)).1
        stdin := Function.update s.stdin c (getline (s.line c) (s.stdin c)).2 }
      (some (.entered c (getline (s.line c) (s.stdin c)).1))
  | finish (hpc : s.client c = .write []) : ClientStep s c (s.move c .getline) none
  | put (rest : Bytes) (k : Nat) (hpc : s.client c = .write rest)
      (hwhole : (s.line c).length ≤ pipeBuf → k = rest.length) (hpos : 0 < k)
      (hlen : k ≤ rest.length) : ClientStep s c
        { s with
          pipe := { s.pipe with unread := s.pipe.unread ++ rest.take k }
          client := Function.update s.client c (.write (rest.drop k)) }
        (some (.wrote c (rest.take k)))
  | sigpipe (rest : Bytes) (hpc : s.client c = .write rest) : ClientStep s c
      { s with
        pipe := { s.pipe with writers := s.pipe.writers - 1 }
        client := Function.update s.client c .killed } none
  | killed (hpc : (s.client c).ended = false) : ClientStep s c
      { s with
        pipe := { s.pipe with writers := s.pipe.writers - (s.client c).writers }
        client := Function.update s.client c .killed } none

omit [DecidableEq C] in
theorem stepServer_cases {k : Nat} (h : stepServer s k = some (t, e)) : ServerStep s t e := by
  unfold stepServer at h
  split at h
  next hpc => cases h; exact .mkfifo hpc
  next hpc => cases h; exact .openFifo hpc
  next w hpc =>
    split at h <;> cases h
    exact .woken w hpc ‹_›
  next hpc =>
    obtain ⟨⟨data, pipe⟩, hr, he⟩ := Option.map_eq_some_iff.mp h
    rcases Pipe.read_cases hr with ⟨hunread, hwriters, rfl, rfl⟩ |
      ⟨hpos, hlen, hunread, hreaders, hwriters⟩
    · cases he
      exact .eof hpc hunread hwriters
    · cases data with
      | nil => simp at hpos
      | cons b rest =>
        obtain ⟨unread, readers, writers⟩ := pipe
        simp only at hunread hreaders hwriters
        subst hreaders hwriters
        cases he
        exact .got _ _ hpc hpos hlen hunread
  next data hpc =>
    split at h <;> cases h
    · exact .print data hpc ‹_›
    · exact .overrun data hpc ‹_›
  next hpc => cases h; exact .quit hpc
  next hpc => cases h; exact .close hpc
  next hpc => cases h; exact .unlink hpc
  next => cases h
  next => cases h

theorem stepClient_cases {c : C} {k : Nat} (h : stepClient s c k = some (t, e)) :
    ClientStep s c t e := by
  unfold stepClient at h
  split at h
  next hpc =>
    split at h <;> cases h
    · exact .openFifo hpc ‹_›
    · exact .failed hpc
  next r hpc =>
    split at h <;> cases h
    exact .woken r hpc ‹_›
  next hpc => cases h; exact .getline hpc
  next hpc => cases h; exact .finish hpc
  next b rest hpc =>
    split at h
    · cases h
    · rename_i hwhole
      obtain ⟨w, hw, he⟩ := Option.map_eq_some_iff.mp h
      rcases Pipe.write_cases hw with ⟨-, rfl⟩ | ⟨-, hpos, hlen, -, rfl⟩
      · cases he
        exact .sigpipe _ hpc
      · cases he
        exact .put _ k hpc (fun hle => by simpa [hle] using hwhole) hpos hlen
  next => cases h
  next => cases h

theorem step_cases {a : Action C} (h : step s a = some t) :
    ServerStep s t (event s a) ∨ ∃ c, ClientStep s c t (event s a) := by
  obtain ⟨⟨u, e⟩, hact, rfl⟩ := Option.map_eq_some_iff.mp h
  have hevent : event s a = e := by simp [event, hact]
  rw [hevent]
  unfold act at hact
  split at hact
  · cases hact
  · cases a with
    | server k => exact .inl (stepServer_cases hact)
    | serverFails =>
      obtain ⟨k, hk, he⟩ := Option.map_eq_some_iff.mp hact
      cases he
      exact .inl (.failed k hk)
    | client c k => exact .inr ⟨c, stepClient_cases hact⟩
    | clientFails c =>
      simp only at hact
      split at hact <;> cases hact
      exact .inr ⟨c, .failed ‹_›⟩
    | kill p =>
      cases p with
      | none =>
        simp only [kill] at hact
        split at hact <;> cases hact
        rename_i hlive
        exact .inl (.killed (eq_false_of_ne_true hlive))
      | some c =>
        simp only [kill] at hact
        split at hact <;> cases hact
        rename_i hlive
        exact .inr ⟨c, .killed (eq_false_of_ne_true hlive)⟩

variable {log : List (Event C)}

/-- What was put into the pipe, in order, and what one client put there. -/
def wrote (log : List (Event C)) : Bytes :=
  log.flatMap fun | .wrote _ data => data | _ => []

def wroteBy (c : C) (log : List (Event C)) : List Bytes :=
  log.filterMap fun | .wrote d data => if d = c then some data else none | _ => none

/-- The lines that a client has read. -/
def enteredBy (c : C) (log : List (Event C)) : List Bytes :=
  log.filterMap fun | .entered d line => if d = c then some line else none | _ => none

/-- What the server took out of the pipe, and what it printed. -/
def got (log : List (Event C)) : List Bytes :=
  log.filterMap fun | .got data => some data | _ => none

def printed (log : List (Event C)) : List Bytes :=
  log.filterMap fun | .printed text => some text | _ => none

/-- What a client that goes on has still to write. -/
def ClientPc.left : ClientPc → Option Bytes
  | .write rest => some rest
  | .exit | .killed => none
  | _ => some []

/-- What a server that goes on has still to print. -/
def ServerPc.due : ServerPc → Option (List Bytes)
  | .print data => some [say data]
  | .killed => none
  | _ => some []

structure Kept (input : C → Bytes) (s : State C) (log : List (Event C)) : Prop where
  bytes : (got log).flatten ++ s.pipe.unread = wrote log
  printed : ∃ rest, (got log).map say = printed log ++ rest ∧ rest.length ≤ 1 ∧
    ∀ due, s.server.due = some due → rest = due
  entered : ∀ c, Reads (input c) (enteredBy c log) (s.line c) (s.stdin c)
  begun : ∀ c, (wroteBy c log).flatten <+: (enteredBy c log).flatten
  left : ∀ c rest, (s.client c).left = some rest →
    (wroteBy c log).flatten ++ rest = (enteredBy c log).flatten
  writing : ∀ c rest, s.client c = .write rest → s.line c ∈ enteredBy c log ∧
    (rest = s.line c ∨ rest = [] ∨ pipeBuf < (s.line c).length)
  whole : ∀ c, ∀ data ∈ wroteBy c log, data ≠ [] ∧
    (data ∈ enteredBy c log ∨ ∃ l ∈ enteredBy c log, pipeBuf < l.length)
  eof : ∀ front back, log = front ++ .eof :: back → (got front).flatten = wrote front

theorem kept_init (input : C → Bytes) : Kept input (init input) [] where
  bytes := rfl
  printed := ⟨[], rfl, Nat.zero_le _, fun due h => by cases h; rfl⟩
  entered := fun c => reads_init (input c)
  begun := by simp [wroteBy]
  left := by
    intro c rest h
    cases h
    rfl
  writing := by simp [init]
  whole := by simp [wroteBy]
  eof := by simp

/-- A step that neither reads nor writes nor prints. -/
theorem Kept.quiet (hi : Kept input s log) (hunread : t.pipe.unread = s.pipe.unread)
    (hline : t.line = s.line) (hstdin : t.stdin = s.stdin)
    (hdue : t.server.due = none ∨ t.server.due = s.server.due)
    (hclient : ∀ c, t.client c = s.client c ∨ (∀ rest, t.client c ≠ .write rest) ∧
      ((t.client c).left = none ∨ (t.client c).left = (s.client c).left)) : Kept input t log where
  bytes := by rw [hunread]; exact hi.bytes
  printed := by
    obtain ⟨rest, hrest, hlen, hall⟩ := hi.printed
    refine ⟨rest, hrest, hlen, fun due h => ?_⟩
    rcases hdue with hnone | hsame
    · simp [hnone] at h
    · exact hall due (hsame ▸ h)
  entered := by rw [hline, hstdin]; exact hi.entered
  begun := hi.begun
  left := by
    intro c rest h
    rcases hclient c with hsame | ⟨-, hnone | hsame⟩
    · exact hi.left c rest (hsame ▸ h)
    · simp [hnone] at h
    · exact hi.left c rest (hsame ▸ h)
  writing := by
    intro c rest h
    rw [hline]
    rcases hclient c with hsame | ⟨hno, -⟩
    · exact hi.writing c rest (hsame ▸ h)
    · exact absurd h (hno rest)
  whole := hi.whole
  eof := hi.eof

omit [DecidableEq C] in
theorem eof_append {P : List (Event C) → Prop} {e : Event C}
    (h : ∀ front back, log = front ++ .eof :: back → P front) (he : e = .eof → P log) :
    ∀ front back, log ++ [e] = front ++ .eof :: back → P front := by
  intro front back hlog
  rcases List.eq_nil_or_concat back with rfl | ⟨back, last, rfl⟩
  · obtain ⟨rfl, hlast⟩ := List.append_inj' hlog rfl
    exact he (List.singleton_inj.mp hlast)
  · have hback : log ++ [e] = front ++ .eof :: back ++ [last] := by simpa using hlog
    exact h front back (List.append_inj' hback rfl).1

/-- Nothing that the server does changes what the clients have said. -/
theorem Kept.said {e : Event C} (hi : Kept input s log) (hclient : t.client = s.client)
    (hline : t.line = s.line) (hstdin : t.stdin = s.stdin)
    (hentered : ∀ c, enteredBy c (log ++ [e]) = enteredBy c log)
    (hwrote : ∀ c, wroteBy c (log ++ [e]) = wroteBy c log)
    (hbytes : (got (log ++ [e])).flatten ++ t.pipe.unread = Fifo.wrote (log ++ [e]))
    (hprinted : ∃ rest, (got (log ++ [e])).map say = Fifo.printed (log ++ [e]) ++ rest ∧
      rest.length ≤ 1 ∧ ∀ due, t.server.due = some due → rest = due)
    (heof : e = .eof → (got log).flatten = Fifo.wrote log) : Kept input t (log ++ [e]) where
  bytes := hbytes
  printed := hprinted
  entered := by
    intro c
    rw [hentered, hline, hstdin]
    exact hi.entered c
  begun := by
    intro c
    rw [hentered, hwrote]
    exact hi.begun c
  left := by
    intro c
    rw [hentered, hwrote, hclient]
    exact hi.left c
  writing := by
    intro c
    rw [hentered, hclient, hline]
    exact hi.writing c
  whole := by
    intro c
    rw [hentered, hwrote]
    exact hi.whole c
  eof := eof_append hi.eof heof

theorem Kept.server (hi : Kept input s log) (h : ServerStep s t e) :
    Kept input t (log ++ e.toList) := by
  have hquiet : ∀ {t : State C}, t.pipe.unread = s.pipe.unread → t.line = s.line →
      t.stdin = s.stdin → t.client = s.client →
      (t.server.due = none ∨ t.server.due = s.server.due) → Kept input t (log ++ []) := by
    intro t hunread hline hstdin hclient hdue
    rw [List.append_nil]
    exact hi.quiet hunread hline hstdin hdue fun c => .inl (by rw [hclient])
  obtain ⟨rest, hrest, hlen, hall⟩ := hi.printed
  cases h with
  | mkfifo hpc => exact hquiet rfl rfl rfl rfl (.inr (by rw [hpc]; rfl))
  | openFifo hpc =>
    refine hquiet rfl rfl rfl rfl (.inr ?_)
    simp only [hpc]
    split <;> rfl
  | woken w hpc => exact hquiet rfl rfl rfl rfl (.inr (by rw [hpc]; rfl))
  | eof hpc hunread hwriters =>
    have hbytes := hi.bytes
    refine hi.said rfl rfl rfl (by simp [enteredBy]) (by simp [wroteBy])
      (by simpa [got, wrote] using hbytes) ⟨rest, by simpa [got, Fifo.printed] using hrest, hlen, ?_⟩
      fun _ => by simpa [hunread] using hbytes
    rintro due ⟨⟩
    exact hall [] (by rw [hpc]; rfl)
  | got data unread hpc hpos hsize hunread =>
    have hbytes := hi.bytes
    rw [hunread] at hbytes
    have hnil := hall [] (by rw [hpc]; rfl)
    subst hnil
    refine hi.said rfl rfl rfl (by simp [enteredBy]) (by simp [wroteBy])
      (by simpa [got, wrote] using hbytes)
      ⟨[say data], by simpa [got, Fifo.printed] using hrest, Nat.le_refl 1, ?_⟩ (by simp)
    rintro due ⟨⟩
    rfl
  | print data hpc hsize =>
    have hdata := hall [say data] (by rw [hpc]; rfl)
    subst hdata
    refine hi.said rfl rfl rfl (by simp [enteredBy]) (by simp [wroteBy])
      (by simpa [got, wrote] using hi.bytes)
      ⟨[], by simpa [got, Fifo.printed] using hrest, Nat.zero_le 1, ?_⟩ (by simp)
    rintro due ⟨⟩
    rfl
  | overrun data hpc hsize => exact hquiet rfl rfl rfl rfl (.inr rfl)
  | quit hpc => exact hquiet rfl rfl rfl rfl (.inr (by rw [hpc]; rfl))
  | close hpc => exact hquiet rfl rfl rfl rfl (.inr (by rw [hpc]; rfl))
  | unlink hpc => exact hquiet rfl rfl rfl rfl (.inr (by rw [hpc]; rfl))
  | failed k hk =>
    refine hquiet rfl rfl rfl rfl (.inr ?_)
    cases hpc : s.server <;> rw [hpc] at hk <;> cases hk <;> rfl
  | killed => exact hquiet rfl rfl rfl rfl (.inl rfl)

/-- A client that goes on without a read or a write, or ends. -/
theorem Kept.move {c : C} {k : ClientPc} (hi : Kept input s log)
    (hclient : t.client = Function.update s.client c k) (hk : ∀ rest, k ≠ .write rest)
    (hleft : k.left = none ∨ k.left = (s.client c).left)
    (hunread : t.pipe.unread = s.pipe.unread) (hline : t.line = s.line)
    (hstdin : t.stdin = s.stdin) (hserver : t.server = s.server) :
    Kept input t (log ++ []) := by
  rw [List.append_nil]
  refine hi.quiet hunread hline hstdin (.inr (by rw [hserver])) fun d => ?_
  rw [hclient]
  by_cases hd : d = c
  · subst hd
    simpa using .inr ⟨hk, hleft⟩
  · exact .inl (Function.update_of_ne hd _ _)

@[simp] theorem enteredBy_entered (c d : C) (line : Bytes) :
    enteredBy d (log ++ [.entered c line]) = enteredBy d log ++ if c = d then [line] else [] := by
  by_cases h : c = d <;> simp [enteredBy, h]

@[simp] theorem wroteBy_entered (c d : C) (line : Bytes) :
    wroteBy d (log ++ [.entered c line]) = wroteBy d log := by simp [wroteBy]

@[simp] theorem wroteBy_wrote (c d : C) (data : Bytes) :
    wroteBy d (log ++ [.wrote c data]) = wroteBy d log ++ if c = d then [data] else [] := by
  by_cases h : c = d <;> simp [wroteBy, h]

@[simp] theorem enteredBy_wrote (c d : C) (data : Bytes) :
    enteredBy d (log ++ [.wrote c data]) = enteredBy d log := by simp [enteredBy]

theorem Kept.getline {c : C} (hi : Kept input s log) (hpc : s.client c = .getline) :
    Kept input { s with
        client := Function.update s.client c (.write (getline (s.line c) (s.stdin c)).1)
        line := Function.update s.line c (getline (s.line c) (s.stdin c)).1
        stdin := Function.update s.stdin c (getline (s.line c) (s.stdin c)).2 }
      (log ++ [.entered c (getline (s.line c) (s.stdin c)).1]) where
  bytes := by simpa [got, wrote] using hi.bytes
  printed := by
    obtain ⟨rest, hrest, hlen, hall⟩ := hi.printed
    exact ⟨rest, by simpa [got, Fifo.printed] using hrest, hlen, hall⟩
  entered := by
    intro d
    rw [enteredBy_entered]
    by_cases hd : c = d
    · subst hd
      simpa using (hi.entered c).getline
    · simpa [hd, Ne.symm hd] using hi.entered d
  begun := by
    intro d
    rw [enteredBy_entered, wroteBy_entered, List.flatten_append]
    exact (hi.begun d).trans (List.prefix_append _ _)
  left := by
    intro d rest h
    rw [enteredBy_entered, wroteBy_entered]
    by_cases hd : c = d
    · subst hd
      simp only [Function.update_self] at h
      cases h
      simpa using hi.left c [] (by rw [hpc]; rfl)
    · simp only [Function.update_of_ne (Ne.symm hd)] at h
      simpa [hd] using hi.left d rest h
  writing := by
    intro d rest h
    rw [enteredBy_entered]
    by_cases hd : c = d
    · subst hd
      simp only [Function.update_self] at h
      cases h
      simp
    · simp only [Function.update_of_ne (Ne.symm hd)] at h ⊢
      simpa [hd] using hi.writing d rest h
  whole := by
    intro d data h
    rw [wroteBy_entered] at h
    rw [enteredBy_entered]
    obtain ⟨hne, hmem | ⟨l, hl, hlong⟩⟩ := hi.whole d data h
    · exact ⟨hne, .inl (List.mem_append_left _ hmem)⟩
    · exact ⟨hne, .inr ⟨l, List.mem_append_left _ hl, hlong⟩⟩
  eof := eof_append hi.eof (by simp)

theorem Kept.put {c : C} {rest : Bytes} {k : Nat} (hi : Kept input s log)
    (hpc : s.client c = .write rest) (hwhole : (s.line c).length ≤ pipeBuf → k = rest.length)
    (hpos : 0 < k) (hlen : k ≤ rest.length) :
    Kept input { s with
        pipe := { s.pipe with unread := s.pipe.unread ++ rest.take k }
        client := Function.update s.client c (.write (rest.drop k)) }
      (log ++ [.wrote c (rest.take k)]) := by
  obtain ⟨hline, hrest⟩ := hi.writing c rest hpc
  have hleft := hi.left c rest (by rw [hpc]; rfl)
  refine ⟨?_, ?_, ?_, fun d => ?_, fun d rest' h => ?_, fun d rest' h => ?_, fun d data h => ?_,
    eof_append hi.eof (by simp)⟩
  · have hbytes := hi.bytes
    simp only [got, wrote] at hbytes
    simp [got, wrote, ← hbytes]
  · obtain ⟨rest, hrest, hlen, hall⟩ := hi.printed
    exact ⟨rest, by simpa [got, Fifo.printed] using hrest, hlen, hall⟩
  · simpa using hi.entered
  · rw [enteredBy_wrote, wroteBy_wrote]
    by_cases hd : c = d
    · subst hd
      refine ⟨rest.drop k, ?_⟩
      simpa using hleft
    · simpa [hd] using hi.begun d
  · rw [enteredBy_wrote, wroteBy_wrote]
    by_cases hd : c = d
    · subst hd
      simp only [Function.update_self] at h
      cases h
      simpa using hleft
    · simp only [Function.update_of_ne (Ne.symm hd)] at h
      simpa [hd] using hi.left d rest' h
  · rw [enteredBy_wrote]
    by_cases hd : c = d
    · subst hd
      simp only [Function.update_self] at h
      cases h
      refine ⟨hline, ?_⟩
      by_cases hshort : (s.line c).length ≤ pipeBuf
      · exact .inr (.inl (List.drop_eq_nil_of_le (hwhole hshort).ge))
      · exact .inr (.inr (Nat.lt_of_not_le hshort))
    · simp only [Function.update_of_ne (Ne.symm hd)] at h
      exact hi.writing d rest' h
  · rw [wroteBy_wrote, List.mem_append] at h
    rw [enteredBy_wrote]
    rcases h with h | h
    · exact hi.whole d data h
    · split at h
      · rename_i hd
        subst hd
        rw [List.mem_singleton] at h
        subst h
        refine ⟨List.ne_nil_of_length_pos (by rw [List.length_take]; omega), ?_⟩
        by_cases hshort : (s.line c).length ≤ pipeBuf
        · rw [List.take_of_length_le (hwhole hshort).ge]
          rcases hrest with rfl | rfl | hlong
          · exact .inl hline
          · simp only [List.length_nil] at hlen
            omega
          · omega
        · exact .inr ⟨s.line c, hline, Nat.lt_of_not_le hshort⟩
      · simp at h

theorem Kept.client {c : C} (hi : Kept input s log) (h : ClientStep s c t e) :
    Kept input t (log ++ e.toList) := by
  cases h with
  | openFifo hpc hlinked =>
    refine hi.move rfl ?_ (.inr ?_) rfl rfl rfl rfl
    · split <;> simp
    · rw [hpc]
      split <;> rfl
  | failed hpc => exact hi.move rfl (by simp) (.inl rfl) rfl rfl rfl rfl
  | woken r hpc => exact hi.move rfl (by simp) (.inr (by rw [hpc]; rfl)) rfl rfl rfl rfl
  | getline hpc => exact hi.getline hpc
  | finish hpc => exact hi.move rfl (by simp) (.inr (by rw [hpc]; rfl)) rfl rfl rfl rfl
  | put rest k hpc hwhole hpos hlen => exact hi.put hpc hwhole hpos hlen
  | sigpipe rest hpc => exact hi.move rfl (by simp) (.inl rfl) rfl rfl rfl rfl
  | killed hpc => exact hi.move rfl (by simp) (.inl rfl) rfl rfl rfl rfl

theorem kept (h : ((system input).logged event).Reachable anyStep (s, log)) : Kept input s log := by
  refine logged_invariant h (kept_init input) fun s a t log hi hs => ?_
  rcases step_cases hs with hserver | ⟨c, hclient⟩
  · exact hi.server hserver
  · exact hi.client hclient

/-- What was written has been read or is in the pipe, in this order, and every client has written
the lines of its input, in order, but nothing else, except that what is not finished by an end of
line comes over and over again. Lines of up to PIPE_BUF bytes are not torn by other clients. The
server prints each piece that it reads before it reads the next one, and when it hears that all
have quit, it has read everything. -/
theorem heard_in_order (h : ((system input).logged event).Reachable anyStep (s, log)) :
    (got log).flatten ++ s.pipe.unread = wrote log ∧
      (∀ c, ∃ n, (wroteBy c log).flatten <+:
        ((lines (input c) ++ List.replicate n (unfinished (input c))).take n).flatten) ∧
      (∀ c, (∀ l ∈ lines (input c), l.length ≤ pipeBuf) →
        ∀ data ∈ wroteBy c log, data ∈ lines (input c)) ∧
      (∃ rest, (got log).map say = printed log ++ rest ∧ rest.length ≤ 1) ∧
      ∀ front back, log = front ++ .eof :: back → (got front).flatten = wrote front := by
  have hi := kept h
  refine ⟨hi.bytes, fun c => ⟨_, (hi.entered c).eq ▸ hi.begun c⟩, ?_, ?_, hi.eof⟩
  · intro c hshort data hdata
    obtain ⟨hne, hmem | ⟨l, hl, hlong⟩⟩ := hi.whole c data hdata
    · exact ((hi.entered c).mem hmem).resolve_right hne
    · rcases (hi.entered c).mem hl with hl | rfl
      · exact absurd (hshort l hl) (Nat.not_le_of_lt hlong)
      · exact absurd hlong (Nat.not_lt_zero _)
  · obtain ⟨rest, hrest, hlen, -⟩ := hi.printed
    exact ⟨rest, hrest, hlen⟩

/-- Two clients, whose inputs are `a` and an end of line, and `b`. -/
def twoInputs : Bool → Bytes := fun c => if c then [97, newline] else [98]

/-- Both open, write, and are killed, and the server reads three bytes and then the end. -/
def twoRun : List (Action Bool) :=
  [.server 0, .client true 0, .server 0, .client true 0, .client false 0] ++
    [.client true 0, .client false 0, .client true 1, .client false 1, .client false 0,
      .client false 0, .client false 1, .kill (some true), .kill (some false)] ++
    [.server 2, .server 0, .server 1, .server 0, .server 0, .server 0]

theorem heard_in_order_two :
    let p := (((system twoInputs).logged event).run (init twoInputs, []) twoRun).get (by decide)
    printed p.2 = [[97, 98], [98]] ∧
      (got p.2).flatten ++ p.1.pipe.unread = wrote p.2 := by
  have hrun : (((system twoInputs).logged event).run (init twoInputs, []) twoRun).isSome := by
    decide
  exact ⟨by decide, (heard_in_order (reachable_of_run hrun)).1⟩

end Fifo
