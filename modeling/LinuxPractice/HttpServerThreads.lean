import LinuxPractice.HttpServer
import LinuxPractice.Sockets
import LinuxPractice.Transition

/-!
# HttpServer: one thread for every connection

`Start`, `ThreadRun` and the calls that `HandlerHttp` makes around a request,
with any number of threads. A thread is named after the connection it was
created for. `pthread_create` may fail, which `Start` does not look at; a
request that has no response, or a client that is gone, ends the process.
-/
namespace HttpServerThreads

open CppString HttpServer Sockets Transition Transition.System

/-- What the thread of a connection finds when it looks. -/
structure Env where
  files : Files
  alloc : Nat → Bool

/-- Where a thread stands, with `td->sockfd`; in `failed` its request has no response. -/
inductive Thread where
  | absent : Thread
  | recv : Int → Thread
  | send : Int → Bytes → Thread
  | close : Int → Thread
  | failed : Int → Thread
  | finished : Thread
  deriving DecidableEq, Repr

@[simp] def Thread.sockfd : Thread → Option Int
  | .recv fd | .send fd _ | .close fd | .failed fd => some fd
  | .absent | .finished => none

inductive Ended where
  | failed : Failure → Ended
  | sigpipe : Ended
  deriving DecidableEq, Repr

/-- `link` is the descriptor that `Start` is to create a thread for, and its connection. -/
structure State where
  kernel : Kernel
  link : Option (Int × Nat)
  thread : Nat → Thread
  ended : Option Ended

/-- A step of `Start` or of a thread, with what the call returns: a descriptor, whether there is a
thread, the bytes received, and how many are sent, if the client is there. -/
inductive Action where
  | accept : Int → Action
  | create : Bool → Action
  | recv : Nat → Bytes → Action
  | send : Nat → Option Nat → Action
  | close : Nat → Action
  deriving DecidableEq, Repr

inductive Did where
  | accepted : Did
  | orphaned : Did
  | got : Bytes → Did
  | sent : Bytes → Did
  | closed : Did
  deriving DecidableEq, Repr

/-- What was done, and to which connection, if any. -/
abbrev Event := Option Nat × Did

/-- `sizeof(buffer)-1`. -/
def size : Nat := 1023

def init (b : Boot) : State := ⟨b.kernel, none, fun _ => .absent, none⟩

def State.goto (s : State) (id : Nat) (k : Thread) : State :=
  { s with thread := Function.update s.thread id k }

def stepAccept (s : State) (sock : Int) : Option State :=
  match s.link with
  | some _ => none
  | none =>
    (s.kernel.accept sock).map fun kernel =>
      { s with kernel := kernel, link := if sock < 0 then none else some (sock, s.kernel.accepted) }

/-- Without a thread `td` is lost, and its descriptor with it. -/
def stepCreate (s : State) (ok : Bool) : Option State :=
  match s.link with
  | some (fd, id) => some { (if ok then s.goto id (.recv fd) else s) with link := none }
  | none => none

def stepRecv (env : Nat → Env) (s : State) (id : Nat) (data : Bytes) : Option State :=
  match s.thread id with
  | .recv fd =>
    if data.length ≤ size then
      match handlerHttp (env id).files (env id).alloc data with
      | .ok none => some (s.goto id (.close fd))
      | .ok (some reply) => some (s.goto id (.send fd reply))
      | .error f => some { s.goto id (.failed fd) with ended := some (.failed f) }
    else none
  | _ => none

def stepSend (s : State) (id : Nat) (taken : Option Nat) : Option State :=
  match s.thread id with
  | .send fd _ =>
    match taken with
    | some _ => some (s.goto id (.close fd))
    | none => some { s with ended := some .sigpipe }
  | _ => none

def stepClose (s : State) (id : Nat) : Option State :=
  match s.thread id with
  | .close fd => some { s.goto id .finished with kernel := s.kernel.close fd }
  | _ => none

def step (env : Nat → Env) (s : State) (a : Action) : Option State :=
  if s.ended.isSome then none
  else match a with
    | .accept sock => stepAccept s sock
    | .create ok => stepCreate s ok
    | .recv id data => stepRecv env s id data
    | .send id taken => stepSend s id taken
    | .close id => stepClose s id

def system (env : Nat → Env) (b : Boot) : System State Action where
  init := init b
  step := step env

def event (s : State) : Action → Option Event
  | .accept sock => if sock < 0 then none else some (some s.kernel.accepted, .accepted)
  | .create ok =>
    match s.link with
    | some (fd, _) => if ok then none else some (s.kernel.conn fd, .orphaned)
    | none => none
  | .recv id data => (s.thread id).sockfd.map fun fd => (s.kernel.conn fd, .got data)
  | .send id taken =>
    match s.thread id, taken with
    | .send fd reply, some k => some (s.kernel.conn fd, .sent (reply.take k))
    | _, _ => none
  | .close id => (s.thread id).sockfd.map fun fd => (s.kernel.conn fd, .closed)

variable {env : Nat → Env} {s t : State}

inductive Step (env : Nat → Env) (s : State) : State → Option Event → Prop
  | refuse : Step env s s none
  | accept (sock : Int) (hlink : s.link = none) (hfree : s.kernel.files sock = none) :
      Step env s { s with
        kernel := ⟨Function.update s.kernel.files sock (some (.conn s.kernel.accepted)),
          s.kernel.accepted + 1⟩
        link := some (sock, s.kernel.accepted) } (some (some s.kernel.accepted, .accepted))
  | create (fd : Int) (id : Nat) (hlink : s.link = some (fd, id)) :
      Step env s { s.goto id (.recv fd) with link := none } none
  | orphan (fd : Int) (id : Nat) (hlink : s.link = some (fd, id)) :
      Step env s { s with link := none } (some (s.kernel.conn fd, .orphaned))
  | hangUp (fd : Int) (id : Nat) (data : Bytes) (hpc : s.thread id = .recv fd)
      (hreply : handlerHttp (env id).files (env id).alloc data = .ok none) :
      Step env s (s.goto id (.close fd)) (some (s.kernel.conn fd, .got data))
  | respond (fd : Int) (id : Nat) (data reply : Bytes) (hpc : s.thread id = .recv fd)
      (hreply : handlerHttp (env id).files (env id).alloc data = .ok (some reply)) :
      Step env s (s.goto id (.send fd reply)) (some (s.kernel.conn fd, .got data))
  | fail (fd : Int) (id : Nat) (data : Bytes) (f : Failure) (hpc : s.thread id = .recv fd)
      (hreply : handlerHttp (env id).files (env id).alloc data = .error f) :
      Step env s { s.goto id (.failed fd) with ended := some (.failed f) }
        (some (s.kernel.conn fd, .got data))
  | send (fd : Int) (id k : Nat) (reply : Bytes) (hpc : s.thread id = .send fd reply) :
      Step env s (s.goto id (.close fd)) (some (s.kernel.conn fd, .sent (reply.take k)))
  | sigpipe : Step env s { s with ended := some .sigpipe } none
  | close (fd : Int) (id : Nat) (hpc : s.thread id = .close fd) :
      Step env s { s.goto id .finished with kernel := s.kernel.close fd }
        (some (s.kernel.conn fd, .closed))

theorem step_cases {a : Action} (h : step env s a = some t) : Step env s t (event s a) := by
  unfold step at h
  split at h
  · cases h
  · cases a with
    | accept sock =>
      simp only [stepAccept] at h
      cases hlink : s.link with
      | some _ => simp [hlink] at h
      | none =>
        simp only [hlink] at h
        obtain ⟨kernel, hk, rfl⟩ := Option.map_eq_some_iff.mp h
        obtain ⟨hneg, rfl⟩ | ⟨hsock, hfree, rfl⟩ := Kernel.accept_cases hk
        · simp only [event, hneg, if_true, ← hlink]
          exact .refuse
        · simp only [event, Int.not_lt.mpr hsock, if_false]
          exact .accept sock hlink hfree
    | create ok =>
      simp only [stepCreate] at h
      cases hlink : s.link with
      | none => simp [hlink] at h
      | some p =>
        obtain ⟨fd, id⟩ := p
        simp only [hlink] at h
        cases h
        cases ok with
        | true =>
          simp only [event, hlink, if_true]
          exact .create fd id hlink
        | false =>
          simp only [event, hlink, Bool.false_eq_true, if_false]
          exact .orphan fd id hlink
    | recv id data =>
      simp only [stepRecv] at h
      cases hpc : s.thread id with
      | recv fd =>
        simp only [hpc] at h
        simp only [event, hpc, Thread.sockfd, Option.map_some]
        split at h
        · split at h <;> cases h
          · exact .hangUp fd id data hpc ‹_›
          · exact .respond fd id data _ hpc ‹_›
          · exact .fail fd id data _ hpc ‹_›
        · cases h
      | absent | send | close | failed | finished => simp [hpc] at h
    | send id taken =>
      simp only [stepSend] at h
      cases hpc : s.thread id with
      | send fd reply =>
        simp only [hpc] at h
        cases taken with
        | some k =>
          cases h
          simp only [event, hpc]
          exact .send fd id k reply hpc
        | none =>
          cases h
          simp only [event, hpc]
          exact .sigpipe
      | absent | recv | close | failed | finished => simp [hpc] at h
    | close id =>
      simp only [stepClose] at h
      cases hpc : s.thread id with
      | close fd =>
        simp only [hpc] at h
        cases h
        simp only [event, hpc, Thread.sockfd, Option.map_some]
        exact .close fd id hpc
      | absent | recv | send | failed | finished => simp [hpc] at h

/-- What `HandlerHttp` does with a connection and comes back from. -/
inductive Served (env : Env) : List Did → Prop
  | hungUp (data : Bytes) (hreply : handlerHttp env.files env.alloc data = .ok none) :
      Served env [.got data]
  | answered (data reply : Bytes) (k : Nat)
      (hreply : handlerHttp env.files env.alloc data = .ok (some reply)) :
      Served env [.got data, .sent (reply.take k)]

/-- What has happened to the connection whose thread stands at `k`; without a thread it waits for
one or is lost. -/
def Reached (env : Env) (waits : Prop) : Thread → List Did → Prop
  | .absent, h => waits ∧ h = [.accepted] ∨ ¬ waits ∧ h = [.accepted, .orphaned]
  | .recv _, h => h = [.accepted]
  | .send _ reply, h => ∃ data, handlerHttp env.files env.alloc data = .ok (some reply) ∧
      h = [.accepted, .got data]
  | .failed _, h => ∃ data f, handlerHttp env.files env.alloc data = .error f ∧
      h = [.accepted, .got data]
  | .close _, h => ∃ l, Served env l ∧ h = .accepted :: l
  | .finished, h => ∃ l, Served env l ∧ h = .accepted :: (l ++ [.closed])

def State.Waits (s : State) (id : Nat) : Prop := ∃ fd, s.link = some (fd, id)

/-- The connection is open as long as it is not closed by its thread. -/
structure Serves (env : Nat → Env) (s : State) (log : List Event) : Prop where
  numbered : s.kernel.Numbered
  held : ∀ id fd, (s.thread id).sockfd = some fd → s.kernel.conn fd = some id
  link : ∀ fd id, s.link = some (fd, id) → s.kernel.conn fd = some id ∧ s.thread id = .absent
  absent : ∀ id, id < s.kernel.accepted → s.thread id = .absent → ∃ fd, s.kernel.conn fd = some id
  finished : ∀ id, s.thread id = .finished → ∀ fd, s.kernel.conn fd ≠ some id
  fresh : ∀ id, s.kernel.accepted ≤ id → s.thread id = .absent
  known : ∀ e ∈ log, ∃ id, id < s.kernel.accepted ∧ e.1 = some id
  reached : ∀ id, id < s.kernel.accepted →
    Reached (env id) (s.Waits id) (s.thread id) (history log id)

variable {log : List Event} {b : Boot} {id : Nat} {fd : Int} {k : Thread}

theorem serves_init (env : Nat → Env) (b : Boot) : Serves env (init b) [] where
  numbered := b.numbered
  held := by simp [init]
  link := by simp [init]
  absent := by
    intro id hid
    exact absurd hid (Nat.not_lt_zero id)
  finished := by simp [init]
  fresh := by simp [init]
  known := by simp
  reached := by
    intro id hid
    exact absurd hid (Nat.not_lt_zero id)

/-- Nothing is recorded for a number that is not given yet. -/
theorem Serves.history_fresh (hi : Serves env s log) : history log s.kernel.accepted = [] := by
  apply List.filterMap_eq_nil_iff.mpr
  intro e he
  obtain ⟨id, hid, hconn⟩ := hi.known e he
  rw [hconn, if_neg]
  intro heq
  cases heq
  exact Nat.lt_irrefl _ hid

/-- A connection whose thread has not finished is open. -/
theorem Serves.exists_fd (hi : Serves env s log) (hid : id < s.kernel.accepted)
    (hne : s.thread id ≠ .finished) : ∃ fd, s.kernel.conn fd = some id := by
  cases hk : s.thread id with
  | absent => exact hi.absent id hid hk
  | finished => exact absurd hk hne
  | recv fd => exact ⟨fd, hi.held id fd (by rw [hk]; rfl)⟩
  | send fd reply => exact ⟨fd, hi.held id fd (by rw [hk]; rfl)⟩
  | close fd => exact ⟨fd, hi.held id fd (by rw [hk]; rfl)⟩
  | failed fd => exact ⟨fd, hi.held id fd (by rw [hk]; rfl)⟩

/-- A thread that keeps its descriptor moves on, with the record `d`. -/
theorem Serves.move {d : Did} (ended : Option Ended) (hi : Serves env s log)
    (hfd : (s.thread id).sockfd = some fd) (hk : k.sockfd = some fd)
    (hreached : Reached (env id) (s.Waits id) (s.thread id) (history log id) →
      Reached (env id) (s.Waits id) k (history log id ++ [d])) :
    Serves env { s.goto id k with ended := ended } (log ++ [(s.kernel.conn fd, d)]) := by
  have hconn := hi.held id fd hfd
  have hid := hi.numbered.conn_lt hconn
  refine ⟨hi.numbered, ?_, ?_, ?_, ?_, ?_, ?_, ?_⟩
  · intro i x hx
    by_cases he : i = id
    · subst he
      simp only [State.goto, Function.update_self, hk, Option.some.injEq] at hx
      rw [← hx]
      exact hconn
    · exact hi.held i x (by simpa [State.goto, he] using hx)
  · intro x i hx
    obtain ⟨hopen, habsent⟩ := hi.link x i hx
    refine ⟨hopen, ?_⟩
    have he : i ≠ id := by
      rintro rfl
      simp [habsent] at hfd
    simpa [State.goto, he] using habsent
  · intro i hlt hx
    by_cases he : i = id
    · subst he
      exact ⟨fd, hconn⟩
    · exact hi.absent i hlt (by simpa [State.goto, he] using hx)
  · intro i hx
    have he : i ≠ id := by
      rintro rfl
      simp only [State.goto, Function.update_self] at hx
      rw [hx] at hk
      cases hk
    exact hi.finished i (by simpa [State.goto, he] using hx)
  · intro i hlt
    have he : i ≠ id := by
      rintro rfl
      exact absurd hid (Nat.not_lt.mpr hlt)
    simpa [State.goto, he] using hi.fresh i hlt
  · intro e he
    rcases List.mem_append.mp he with he | he
    · exact hi.known e he
    · rw [List.mem_singleton.mp he]
      exact ⟨id, hid, hconn⟩
  · intro i hlt
    rw [history_append, hconn]
    by_cases he : i = id
    · subst he
      simpa [State.goto, State.Waits] using hreached (hi.reached i hlt)
    · simpa [State.goto, State.Waits, he, Ne.symm he] using hi.reached i hlt

theorem Serves.accept {sock : Int} (hi : Serves env s log) (hlink : s.link = none)
    (hfree : s.kernel.files sock = none) : Serves env { s with
      kernel := ⟨Function.update s.kernel.files sock (some (.conn s.kernel.accepted)),
        s.kernel.accepted + 1⟩
      link := some (sock, s.kernel.accepted) } (log ++ [(some s.kernel.accepted, .accepted)]) := by
  have hconn : ∀ x i, Kernel.conn ⟨Function.update s.kernel.files sock
      (some (.conn s.kernel.accepted)), s.kernel.accepted + 1⟩ x = some i ↔
        x = sock ∧ i = s.kernel.accepted ∨ s.kernel.conn x = some i := by
    intro x i
    by_cases hx : x = sock
    · subst hx
      simp [Kernel.conn, hfree, eq_comm]
    · simp [Kernel.conn, hx]
  have habsent := hi.fresh s.kernel.accepted (Nat.le_refl _)
  refine ⟨hi.numbered.accepted sock, ?_, ?_, ?_, ?_, ?_, ?_, ?_⟩
  · intro i x hx
    exact (hconn x i).mpr (.inr (hi.held i x hx))
  · intro x i hx
    cases hx
    exact ⟨(hconn _ _).mpr (.inl ⟨rfl, rfl⟩), habsent⟩
  · intro i hlt hx
    rcases Nat.lt_succ_iff_lt_or_eq.mp hlt with hlt | rfl
    · obtain ⟨fd, hfd⟩ := hi.absent i hlt hx
      exact ⟨fd, (hconn fd i).mpr (.inr hfd)⟩
    · exact ⟨sock, (hconn _ _).mpr (.inl ⟨rfl, rfl⟩)⟩
  · intro i hx x hopen
    rcases (hconn x i).mp hopen with ⟨-, rfl⟩ | hopen
    · rw [habsent] at hx
      cases hx
    · exact hi.finished i hx x hopen
  · intro i hlt
    exact hi.fresh i (Nat.le_of_succ_le hlt)
  · intro e he
    rcases List.mem_append.mp he with he | he
    · obtain ⟨i, hlt, hi⟩ := hi.known e he
      exact ⟨i, Nat.lt_succ_of_lt hlt, hi⟩
    · rw [List.mem_singleton.mp he]
      exact ⟨_, Nat.lt_succ_self _, rfl⟩
  · intro i hlt
    rw [history_append]
    rcases Nat.lt_succ_iff_lt_or_eq.mp hlt with hlt | rfl
    · have hne : s.kernel.accepted ≠ i := Nat.ne_of_gt hlt
      simpa [State.Waits, hlink, hne] using hi.reached i hlt
    · rw [hi.history_fresh, if_pos rfl, habsent]
      exact .inl ⟨⟨sock, rfl⟩, rfl⟩

theorem Serves.create (hi : Serves env s log) (hlink : s.link = some (fd, id)) :
    Serves env { s.goto id (.recv fd) with link := none } log := by
  obtain ⟨hconn, habsent⟩ := hi.link fd id hlink
  have hid := hi.numbered.conn_lt hconn
  refine ⟨hi.numbered, ?_, by simp, ?_, ?_, ?_, hi.known, ?_⟩
  · intro i x hx
    by_cases he : i = id
    · subst he
      simp only [State.goto, Function.update_self, Thread.sockfd, Option.some.injEq] at hx
      rw [← hx]
      exact hconn
    · exact hi.held i x (by simpa [State.goto, he] using hx)
  · intro i hlt hx
    by_cases he : i = id
    · subst he
      exact ⟨fd, hconn⟩
    · exact hi.absent i hlt (by simpa [State.goto, he] using hx)
  · intro i hx
    have he : i ≠ id := by
      rintro rfl
      simp [State.goto] at hx
    exact hi.finished i (by simpa [State.goto, he] using hx)
  · intro i hlt
    have he : i ≠ id := by
      rintro rfl
      exact absurd hid (Nat.not_lt.mpr hlt)
    simpa [State.goto, he] using hi.fresh i hlt
  · intro i hlt
    have hreached := hi.reached i hlt
    by_cases he : i = id
    · subst he
      rw [habsent] at hreached
      rcases hreached with ⟨-, hh⟩ | ⟨hno, -⟩
      · simpa [State.goto, Reached] using hh
      · exact absurd ⟨fd, hlink⟩ hno
    · have hsame : State.Waits { s.goto id (.recv fd) with link := none } i = s.Waits i := by
        simp [State.Waits, hlink, Ne.symm he]
      rw [hsame]
      simpa [State.goto, he] using hreached

theorem Serves.orphan (hi : Serves env s log) (hlink : s.link = some (fd, id)) :
    Serves env { s with link := none } (log ++ [(s.kernel.conn fd, .orphaned)]) := by
  obtain ⟨hconn, habsent⟩ := hi.link fd id hlink
  have hid := hi.numbered.conn_lt hconn
  refine ⟨hi.numbered, hi.held, by simp, hi.absent, hi.finished, hi.fresh, ?_, ?_⟩
  · intro e he
    rcases List.mem_append.mp he with he | he
    · exact hi.known e he
    · rw [List.mem_singleton.mp he]
      exact ⟨id, hid, hconn⟩
  · intro i hlt
    have hreached := hi.reached i hlt
    rw [history_append, hconn]
    by_cases he : i = id
    · subst he
      rw [habsent] at hreached ⊢
      rcases hreached with ⟨-, hh⟩ | ⟨hno, -⟩
      · simp [Reached, State.Waits, hh]
      · exact absurd ⟨fd, hlink⟩ hno
    · have hsame : State.Waits { s with link := none } i = s.Waits i := by
        simp [State.Waits, hlink, Ne.symm he]
      rw [hsame]
      simpa [Ne.symm he] using hreached

theorem Serves.close (hi : Serves env s log) (hpc : s.thread id = .close fd) :
    Serves env { s.goto id .finished with kernel := s.kernel.close fd }
      (log ++ [(s.kernel.conn fd, .closed)]) := by
  have hconn := hi.held id fd (by rw [hpc]; rfl)
  have hid := hi.numbered.conn_lt hconn
  have hkeep : ∀ i x, i ≠ id → s.kernel.conn x = some i → (s.kernel.close fd).conn x = some i := by
    intro i x hne hx
    rw [Kernel.conn_close, if_neg, hx]
    rintro rfl
    rw [hconn] at hx
    cases hx
    exact hne rfl
  refine ⟨hi.numbered.close fd, ?_, ?_, ?_, ?_, ?_, ?_, ?_⟩
  · intro i x hx
    have he : i ≠ id := by
      rintro rfl
      simp [State.goto] at hx
    exact hkeep i x he (hi.held i x (by simpa [State.goto, he] using hx))
  · intro x i hx
    obtain ⟨hopen, habsent⟩ := hi.link x i hx
    have he : i ≠ id := by
      rintro rfl
      rw [habsent] at hpc
      cases hpc
    exact ⟨hkeep i x he hopen, by simpa [State.goto, he] using habsent⟩
  · intro i hlt hx
    have he : i ≠ id := by
      rintro rfl
      simp [State.goto] at hx
    obtain ⟨x, hopen⟩ := hi.absent i hlt (by simpa [State.goto, he] using hx)
    exact ⟨x, hkeep i x he hopen⟩
  · intro i hx x hopen
    rw [Kernel.conn_close] at hopen
    split at hopen
    · cases hopen
    · by_cases he : i = id
      · subst he
        exact absurd (hi.numbered.conn_inj hopen hconn) ‹_›
      · exact hi.finished i (by simpa [State.goto, he] using hx) x hopen
  · intro i hlt
    have he : i ≠ id := by
      rintro rfl
      exact absurd hid (Nat.not_lt.mpr hlt)
    simpa [State.goto, he] using hi.fresh i hlt
  · intro e he
    rcases List.mem_append.mp he with he | he
    · exact hi.known e he
    · rw [List.mem_singleton.mp he]
      exact ⟨id, hid, hconn⟩
  · intro i hlt
    have hreached := hi.reached i hlt
    rw [history_append, hconn]
    by_cases he : i = id
    · subst he
      rw [hpc] at hreached
      obtain ⟨l, hl, hh⟩ := hreached
      simp only [State.goto, Function.update_self, if_pos]
      exact ⟨l, hl, by rw [hh]; rfl⟩
    · simpa [State.goto, State.Waits, he, Ne.symm he] using hreached

theorem Serves.step {e : Option Event} (hi : Serves env s log) (h : Step env s t e) :
    Serves env t (log ++ e.toList) := by
  cases h with
  | refuse => simpa using hi
  | accept sock hlink hfree => exact hi.accept hlink hfree
  | create fd id hlink => simpa using hi.create hlink
  | orphan fd id hlink => exact hi.orphan hlink
  | hangUp fd id data hpc hreply =>
    refine hi.move s.ended (by rw [hpc]; rfl) rfl ?_
    rw [hpc]
    rintro hh
    exact ⟨_, .hungUp data hreply, by rw [show history log id = [.accepted] from hh]; rfl⟩
  | respond fd id data reply hpc hreply =>
    refine hi.move s.ended (by rw [hpc]; rfl) rfl ?_
    rw [hpc]
    rintro hh
    exact ⟨data, hreply, by rw [show history log id = [.accepted] from hh]; rfl⟩
  | fail fd id data f hpc hreply =>
    refine hi.move _ (by rw [hpc]; rfl) rfl ?_
    rw [hpc]
    rintro hh
    exact ⟨data, f, hreply, by rw [show history log id = [.accepted] from hh]; rfl⟩
  | send fd id k reply hpc =>
    refine hi.move s.ended (by rw [hpc]; rfl) rfl ?_
    rw [hpc]
    rintro ⟨data, hreply, hh⟩
    exact ⟨_, .answered data reply k hreply, by rw [hh]; rfl⟩
  | sigpipe =>
    simp only [Option.toList_none, List.append_nil]
    exact ⟨hi.numbered, hi.held, hi.link, hi.absent, hi.finished, hi.fresh, hi.known, hi.reached⟩
  | close fd id hpc => exact hi.close hpc

theorem serves (h : ((system env b).logged event).Reachable anyStep (s, log)) :
    Serves env s log :=
  logged_invariant h (serves_init env b) fun _ _ _ _ hi hs => hi.step (step_cases hs)

/-- What may have happened to a connection that is open. -/
inductive Begun (env : Env) : List Did → Prop
  | waiting : Begun env [.accepted]
  | orphaned : Begun env [.accepted, .orphaned]
  | got (data : Bytes) : Begun env [.accepted, .got data]
  | served (l : List Did) (hserved : Served env l) : Begun env (.accepted :: l)

theorem Reached.begun {e : Env} {waits : Prop} {h : List Did} (hr : Reached e waits k h)
    (hne : k ≠ .finished) : Begun e h := by
  cases k with
  | absent =>
    rcases hr with ⟨-, rfl⟩ | ⟨-, rfl⟩
    · exact .waiting
    · exact .orphaned
  | recv fd =>
    obtain rfl : h = [.accepted] := hr
    exact .waiting
  | send fd reply =>
    obtain ⟨data, -, rfl⟩ := hr
    exact .got data
  | failed fd =>
    obtain ⟨data, f, -, rfl⟩ := hr
    exact .got data
  | close fd =>
    obtain ⟨l, hl, rfl⟩ := hr
    exact .served l hl
  | finished => exact absurd rfl hne

/-- In every interleaving, with descriptors used again and threads that cannot be created: whatever
is received, sent or closed is a connection; each is read once and answered from what was read from
it, with the response to that request or the beginning of one; and it is closed once, as the last
thing that happens to it. -/
theorem served_apart (h : ((system env b).logged event).Reachable anyStep (s, log)) :
    (∀ e ∈ log, ∃ id, id < s.kernel.accepted ∧ e.1 = some id) ∧
      ∀ id, id < s.kernel.accepted →
        (∃ fd, s.kernel.conn fd = some id) ∧ Begun (env id) (history log id) ∨
          (∀ fd, s.kernel.conn fd ≠ some id) ∧
            ∃ l, Served (env id) l ∧ history log id = .accepted :: (l ++ [.closed]) := by
  have hi := serves h
  refine ⟨hi.known, fun id hid => ?_⟩
  have hreached := hi.reached id hid
  by_cases hfin : s.thread id = .finished
  · rw [hfin] at hreached
    exact .inr ⟨hi.finished id hfin, hreached⟩
  · exact .inl ⟨hi.exists_fd hid hfin, hreached.begun hfin⟩

/-- No two threads have one descriptor, and a connection is open as long as it waits for its thread
or its thread has it; for ever, and only then, if the thread could not be created. -/
theorem open_iff (h : ((system env b).logged event).Reachable anyStep (s, log)) :
    (∀ i j fd, (s.thread i).sockfd = some fd → (s.thread j).sockfd = some fd → i = j) ∧
      ∀ id, id < s.kernel.accepted → ((∃ fd, s.kernel.conn fd = some id) ↔
        s.Waits id ∨ (s.thread id).sockfd ≠ none ∨ history log id = [.accepted, .orphaned]) := by
  have hi := serves h
  constructor
  · intro i j fd hfd hfd'
    have heq := (hi.held i fd hfd).symm.trans (hi.held j fd hfd')
    exact Option.some.inj heq
  · intro id hid
    have hreached := hi.reached id hid
    constructor
    · rintro ⟨fd, hopen⟩
      cases hk : s.thread id with
      | absent =>
        rw [hk] at hreached
        rcases hreached with ⟨hwaits, -⟩ | ⟨-, hh⟩
        · exact .inl hwaits
        · exact .inr (.inr hh)
      | finished => exact absurd hopen (hi.finished id hk fd)
      | recv | send | close | failed => exact .inr (.inl (by simp))
    · intro hor
      apply hi.exists_fd hid
      intro hfin
      rw [hfin] at hreached
      rcases hor with ⟨fd, hlink⟩ | hfd | hh
      · have habsent := (hi.link fd id hlink).2
        rw [hfin] at habsent
        cases habsent
      · exact hfd (by rw [hfin]; rfl)
      · obtain ⟨l, hl, hl'⟩ := hreached
        rw [hl'] at hh
        cases hl with
        | hungUp data hreply => simp at hh
        | answered data reply n hreply => simp at hh

def noFiles : Nat → Env := fun _ => ⟨fun _ => none, fun _ => true⟩

def getRequest : Bytes := getHome ++ sep ++ sep

/-- The response for a file that is not there. -/
def notThere : Bytes := response htmlSuffix (['4', '0', '4'].map Decimal.byte)

theorem handlerHttp_getRequest :
    handlerHttp (noFiles 0).files (noFiles 0).alloc getRequest = .ok (some notThere) :=
  (handlerHttp_eq firstLine_getHome).trans rfl

/-- A client is there, and its thread. -/
def oneClient : State × List Event :=
  (((system noFiles standard).logged event).run (init standard, [])
    [.accept 4, .create true]).get (by decide)

/-- The thread has got the request. -/
def oneRequest : State × List Event :=
  (oneClient.1.goto 0 (.send 4 notThere), oneClient.2 ++ [(some 0, .got getRequest)])

/-- It is answered, and the descriptor is that of the next client, which gets no thread. -/
def twoClientsEnd : State × List Event :=
  (((system noFiles standard).logged event).run oneRequest
    [.send 0 (some 1000), .close 0, .accept 4, .create false]).get (by decide)

theorem twoClientsEnd_reachable :
    ((system noFiles standard).logged event).Reachable anyStep
      (twoClientsEnd.1, twoClientsEnd.2) := by
  have hfirst : ((system noFiles standard).logged event).Reachable anyStep oneClient :=
    reachable_of_run _
  have hrecv : step noFiles oneClient.1 (.recv 0 getRequest) =
      some (oneClient.1.goto 0 (.send 4 notThere)) := by
    have hpc : oneClient.1.thread 0 = .recv 4 := by decide
    have hended : oneClient.1.ended.isSome = false := by decide
    have hlen : getRequest.length ≤ size := by decide
    simp [step, hended, stepRecv, hpc, hlen, handlerHttp_getRequest]
  have hevent : event oneClient.1 (.recv 0 getRequest) = some (some 0, .got getRequest) := by
    decide
  have hsecond : ((system noFiles standard).logged event).step oneClient (.recv 0 getRequest) =
      some oneRequest := by
    simp [System.logged, system, hrecv, hevent, oneRequest]
  have hlast : ((system noFiles standard).logged event).run oneRequest
      [.send 0 (some 1000), .close 0, .accept 4, .create false] = some twoClientsEnd :=
    (Option.some_get _).symm
  exact (hfirst.trans (Leads.single trivial hsecond)).trans
    (leads_of_run (fun _ _ _ => trivial) hlast)

theorem served_apart_two :
    history twoClientsEnd.2 0 =
        [.accepted, .got getRequest, .sent (notThere.take 1000), .closed] ∧
      (∀ fd, twoClientsEnd.1.kernel.conn fd ≠ some 0) ∧
      ∀ e ∈ twoClientsEnd.2, ∃ id, id < twoClientsEnd.1.kernel.accepted ∧ e.1 = some id := by
  obtain ⟨hknown, hlife⟩ := served_apart twoClientsEnd_reachable
  have hhistory : history twoClientsEnd.2 0 =
      [.accepted, .got getRequest, .sent (notThere.take 1000), .closed] := rfl
  refine ⟨hhistory, ?_, hknown⟩
  rcases hlife 0 (by decide) with ⟨-, hbegun⟩ | ⟨hclosed, -⟩
  · have hlen : ∀ h, Begun (noFiles 0) h → h.length ≤ 3 := by
      intro h hh
      cases hh with
      | waiting | orphaned | got => simp
      | served l hl => cases hl <;> simp
    have hshort := hlen _ hbegun
    rw [hhistory] at hshort
    exact absurd hshort (by simp)
  · exact hclosed

theorem open_iff_two : (∃ fd, twoClientsEnd.1.kernel.conn fd = some 1) ∧
    ¬ ∃ fd, twoClientsEnd.1.kernel.conn fd = some 0 := by
  obtain ⟨-, hopen⟩ := open_iff twoClientsEnd_reachable
  refine ⟨(hopen 1 (by decide)).mpr (.inr (.inr rfl)), fun hzero => ?_⟩
  rcases (hopen 0 (by decide)).mp hzero with ⟨fd, hwaits⟩ | hhas | horphaned
  · cases hwaits
  · exact hhas rfl
  · cases horphaned

end HttpServerThreads
