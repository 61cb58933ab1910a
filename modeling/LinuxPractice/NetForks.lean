import LinuxPractice.Descriptors
import LinuxPractice.NetBytes
import LinuxPractice.Sockets

/-!
# The NetCalculator server forks for each connection

`Start` of `NetCalculator/TcpServer.hpp`. The parent accepts, forks and closes
its own copy of the connection; the child gives up the listening socket, runs
one session and exits. Parent and children take their steps in any order.
-/
namespace NetForks

open NetServer Sockets Descriptors Transition Transition.System

/-- What the process has open before its first connection, and its listening socket. -/
structure Boot where
  files : Table File
  sock : Nat
  listening : get files sock = some .listening
  fresh : ∀ fd id, get files fd ≠ some (.conn id)

/-- Where the parent stands in the loop of `Start`. -/
inductive ParentPc where
  | accept : ParentPc
  | fork : Nat → ParentPc
  | close : Nat → ParentPc
  deriving DecidableEq, Repr

inductive ChildPc where
  | closeListen : ChildPc
  | serve : ChildPc
  | exited : ChildPc
  deriving DecidableEq, Repr

/-- A child and its copy of the descriptor table. `conn` is the connection it was forked for. -/
structure Child where
  files : Table File
  sockfd : Nat
  conn : Option Nat
  pc : ChildPc
  session : NetBytes.Trace

structure State where
  files : Table File
  pc : ParentPc
  accepted : Nat
  children : List Child

/-- A step of the parent, whose call of `accept` or `fork` may fail, or of a child: a read or a
call of `Calculator`, or nothing if `read` returns no bytes. -/
inductive Action where
  | parent : Bool → Action
  | child : Nat → Option NetBytes.Action → Action

/-- A child has read from a connection, or called `Calculator` and written to it. -/
structure Event where
  child : Nat
  conn : Option Nat
  act : NetBytes.Action
  deriving DecidableEq, Repr

/-- The connection behind a descriptor. -/
def connOf (files : Table File) (fd : Nat) : Option Nat :=
  match get files fd with
  | some (.conn id) => some id
  | _ => none

def init (b : Boot) : State := ⟨b.files, .accept, 0, []⟩

def stepParent (s : State) (ok : Bool) : State :=
  match s.pc with
  | .accept =>
    if ok then
      let opened := alloc s.files (.conn s.accepted)
      { s with files := opened.1, pc := .fork opened.2, accepted := s.accepted + 1 }
    else s
  | .fork sockfd =>
    if ok then
      { s with
        pc := .close sockfd
        children := s.children ++
          [⟨s.files, sockfd, connOf s.files sockfd, .closeListen, NetBytes.init⟩] }
    else { s with pc := .close sockfd }
  | .close sockfd => { s with files := Descriptors.close s.files sockfd, pc := .accept }

/-- A session ends between two reads, or when the process dies. -/
def stepChild (undef : Undefined) (b : Boot) (c : Child) (a : Option NetBytes.Action) :
    Option Child :=
  match c.pc with
  | .closeListen => some { c with files := Descriptors.close c.files b.sock, pc := .serve }
  | .serve =>
    match a with
    | some act => (NetBytes.step undef c.session act).map fun session => { c with session := session }
    | none =>
      if c.session.draining = false ∨ c.session.session.died ≠ none then
        some { c with files := [], pc := .exited }
      else none
  | .exited => none

def step (undef : Undefined) (b : Boot) (s : State) : Action → Option State
  | .parent ok => some (stepParent s ok)
  | .child i a =>
    match s.children[i]? with
    | none => none
    | some c => (stepChild undef b c a).map fun c => { s with children := s.children.set i c }

def system (undef : Undefined) (b : Boot) : System State Action where
  init := init b
  step := step undef b

def event (s : State) : Action → Option Event
  | .parent _ => none
  | .child i a =>
    match s.children[i]?, a with
    | some c, some act =>
      if c.pc = .serve then some ⟨i, connOf c.files c.sockfd, act⟩ else none
    | _, _ => none

/-- What child `i` has done with its connection. -/
def acts (log : List Event) (i : Nat) : List NetBytes.Action :=
  log.filterMap fun e => if e.child = i then some e.act else none

@[simp] theorem acts_append (log : List Event) (e : Event) (i : Nat) :
    acts (log ++ [e]) i = acts log i ++ if e.child = i then [e.act] else [] := by
  by_cases h : e.child = i <;> simp [acts, h]

variable {undef : Undefined} {b : Boot} {s t : State} {log : List Event} {c : Child} {id i : Nat}

/-- Where every connection of the parent is opened. -/
def Boot.fd (b : Boot) : Nat := lowest b.files

theorem Boot.sock_ne_fd (b : Boot) : b.sock ≠ b.fd := by
  intro h
  have hfree := get_lowest b.files
  rw [← Boot.fd, ← h, b.listening] at hfree
  cases hfree

/-- Beside what was open before: one connection. -/
def Boot.holding (b : Boot) (id : Nat) (fd : Nat) : Option File :=
  if fd = b.fd then some (.conn id) else get b.files fd

/-- And no listening socket. -/
def Boot.serving (b : Boot) (id : Nat) (fd : Nat) : Option File :=
  if fd = b.sock then none else b.holding id fd

theorem get_accept {files : Table File} (h : get files = get b.files) (id : Nat) :
    (alloc files (.conn id)).2 = b.fd ∧ get (alloc files (.conn id)).1 = b.holding id := by
  have hopened := get_alloc (t := files) (k := b.fd) (by rw [h]; exact get_lowest b.files)
    (fun fd hfd => by rw [h]; exact get_of_lt_lowest hfd) (.conn id)
  refine ⟨hopened.1, ?_⟩
  funext fd
  rw [hopened.2, h, Boot.holding]

theorem get_close_conn {files : Table File} (h : get files = b.holding id) :
    get (Descriptors.close files b.fd) = get b.files := by
  funext fd
  rw [get_close, h, Boot.holding]
  by_cases hfd : fd = b.fd
  · rw [if_pos hfd, hfd]
    exact (get_lowest b.files).symm
  · rw [if_neg hfd, if_neg hfd]

theorem get_close_listen {files : Table File} (h : get files = b.holding id) :
    get (Descriptors.close files b.sock) = b.serving id := by
  funext fd
  rw [get_close, h, Boot.serving]

theorem connOf_holding {files : Table File} (h : get files = b.holding id) :
    connOf files b.fd = some id := by
  simp [connOf, h, Boot.holding]

theorem connOf_serving {files : Table File} (h : get files = b.serving id) :
    connOf files b.fd = some id := by
  simp [connOf, h, Boot.serving, Boot.holding, Ne.symm b.sock_ne_fd]

/-- What the parent has open at its place. -/
def ParentHas (b : Boot) (s : State) : Prop :=
  match s.pc with
  | .accept => get s.files = get b.files
  | .fork sockfd => sockfd = b.fd ∧ ∃ id, id + 1 = s.accepted ∧ get s.files = b.holding id ∧
      ∀ c ∈ s.children, c.conn ≠ some id
  | .close sockfd => sockfd = b.fd ∧ ∃ id, id + 1 = s.accepted ∧ get s.files = b.holding id

/-- What a child has open at its place. -/
def ChildHas (b : Boot) (id : Nat) (c : Child) : Prop :=
  match c.pc with
  | .closeListen => get c.files = b.holding id
  | .serve => get c.files = b.serving id
  | .exited => c.files = []

/-- The parent is as it was between two connections, every child has its own one, and what a
child did to it is a run of a session. -/
structure Apart (undef : Undefined) (b : Boot) (s : State) (log : List Event) : Prop where
  parent : ParentHas b s
  child : ∀ c ∈ s.children, ∃ id < s.accepted, c.conn = some id ∧ c.sockfd = b.fd ∧ ChildHas b id c
  distinct : ∀ (i j : Nat) (c d : Child), s.children[i]? = some c → s.children[j]? = some d →
    c.conn = d.conn → i = j
  own : ∀ e ∈ log, ∃ c, s.children[e.child]? = some c ∧ e.conn = c.conn
  session : ∀ (i : Nat) (c : Child), s.children[i]? = some c →
    (NetBytes.system undef).run NetBytes.init (acts log i) = some c.session

theorem apart_init (undef : Undefined) (b : Boot) : Apart undef b (init b) [] where
  parent := rfl
  child := by simp [init]
  distinct := by simp [init]
  own := by simp
  session := by simp [init]

/-- The parent moves between its children's steps. -/
theorem Apart.stay (hi : Apart undef b s log) (hchildren : t.children = s.children)
    (haccepted : s.accepted ≤ t.accepted) (hparent : ParentHas b t) : Apart undef b t log where
  parent := hparent
  child := by
    rw [hchildren]
    intro c hc
    obtain ⟨id, hid, hrest⟩ := hi.child c hc
    exact ⟨id, Nat.lt_of_lt_of_le hid haccepted, hrest⟩
  distinct := by
    rw [hchildren]
    exact hi.distinct
  own := by
    rw [hchildren]
    exact hi.own
  session := by
    rw [hchildren]
    exact hi.session

theorem getElem?_concat_cases {cs : List Child} {d : Child} (h : (cs ++ [c])[i]? = some d) :
    cs[i]? = some d ∨ i = cs.length ∧ d = c := by
  rcases Nat.lt_trichotomy i cs.length with hlt | rfl | hgt
  · rw [List.getElem?_append_left hlt] at h
    exact .inl h
  · rw [List.getElem?_concat_length] at h
    exact .inr ⟨rfl, (Option.some.inj h).symm⟩
  · rw [List.getElem?_eq_none (by simp; omega)] at h
    cases h

theorem acts_eq_nil (h : ∀ e ∈ log, e.child ≠ i) : acts log i = [] := by
  induction log with
  | nil => rfl
  | cons e log ih =>
    rw [List.forall_mem_cons] at h
    have hrest : acts log i = [] := ih h.2
    simpa [acts, h.1] using hrest

/-- A new child has a connection that no other child has. -/
theorem Apart.fork {sockfd : Nat} (hi : Apart undef b s log) (hpc : s.pc = .fork sockfd) :
    Apart undef b { s with
      pc := .close sockfd
      children := s.children ++
        [⟨s.files, sockfd, connOf s.files sockfd, .closeListen, NetBytes.init⟩] } log := by
  have hparent := hi.parent
  simp only [ParentHas, hpc] at hparent
  obtain ⟨rfl, id, hid, hfiles, hfresh⟩ := hparent
  have hconn := connOf_holding hfiles
  constructor
  · exact ⟨rfl, id, hid, hfiles⟩
  · intro c hc
    rcases List.mem_append.mp hc with hc | hc
    · exact hi.child c hc
    · obtain rfl := List.mem_singleton.mp hc
      exact ⟨id, Nat.lt_of_succ_le (Nat.le_of_eq hid), hconn, rfl, hfiles⟩
  · have hnew : ∀ (j : Nat) (d : Child), s.children[j]? = some d → d.conn ≠ some id :=
      fun j d hd => hfresh d (List.mem_of_getElem? hd)
    intro i j c d hc hd he
    rcases getElem?_concat_cases hc with hc | ⟨rfl, rfl⟩
    · rcases getElem?_concat_cases hd with hd | ⟨rfl, rfl⟩
      · exact hi.distinct i j c d hc hd he
      · exact absurd (he.trans hconn) (hnew i c hc)
    · rcases getElem?_concat_cases hd with hd | ⟨rfl, -⟩
      · exact absurd (he.symm.trans hconn) (hnew j d hd)
      · rfl
  · intro e he
    obtain ⟨c, hc, hsame⟩ := hi.own e he
    refine ⟨c, ?_, hsame⟩
    rw [List.getElem?_append_left (List.getElem?_eq_some_iff.mp hc).1]
    exact hc
  · intro i c hc
    rcases getElem?_concat_cases hc with hc | ⟨rfl, rfl⟩
    · exact hi.session i c hc
    · -- nothing is recorded of a child that is not there yet
      have hnone : acts log s.children.length = [] := by
        apply acts_eq_nil
        intro e he hlen
        obtain ⟨c, hc, -⟩ := hi.own e he
        rw [hlen, List.getElem?_eq_none (le_refl _)] at hc
        cases hc
      simp only [hnone, run]

theorem Apart.stepParent (hi : Apart undef b s log) (ok : Bool) :
    Apart undef b (stepParent s ok) log := by
  have hparent := hi.parent
  unfold NetForks.stepParent
  cases hpc : s.pc with
  | accept =>
    simp only [ParentHas, hpc] at hparent
    obtain ⟨hfd, hfiles⟩ := get_accept hparent s.accepted
    cases ok with
    | false => simpa using hi
    | true =>
      refine hi.stay rfl (Nat.le_succ _) ⟨hfd, s.accepted, rfl, hfiles, ?_⟩
      intro c hc hconn
      obtain ⟨id, hid, hsame, -⟩ := hi.child c hc
      rw [hconn, Option.some.injEq] at hsame
      omega
  | fork sockfd =>
    cases ok with
    | false =>
      simp only [ParentHas, hpc] at hparent
      obtain ⟨hfd, id, hid, hfiles, -⟩ := hparent
      exact hi.stay rfl (le_refl _) ⟨hfd, id, hid, hfiles⟩
    | true => exact hi.fork hpc
  | close sockfd =>
    simp only [ParentHas, hpc] at hparent
    obtain ⟨rfl, id, -, hfiles⟩ := hparent
    exact hi.stay rfl (le_refl _) (get_close_conn hfiles)

/-- A child moves, and what it does to its connection is recorded. -/
theorem Apart.move {d : Child} {es : List Event} (hi : Apart undef b s log)
    (hc : s.children[i]? = some c) (hconn : d.conn = c.conn) (hsock : d.sockfd = c.sockfd)
    (hhas : ∀ id, c.sockfd = b.fd → ChildHas b id c → ChildHas b id d)
    (hes : ∀ e ∈ es, e.child = i ∧ e.conn = c.conn)
    (hsession : (NetBytes.system undef).run NetBytes.init (acts (log ++ es) i) = some d.session) :
    Apart undef b { s with children := s.children.set i d } (log ++ es) := by
  have hin : i < s.children.length := (List.getElem?_eq_some_iff.mp hc).1
  have hset : ∀ (j : Nat) (x : Child), (s.children.set i d)[j]? = some x →
      j = i ∧ x = d ∨ j ≠ i ∧ s.children[j]? = some x := by
    intro j x hx
    by_cases hj : j = i
    · subst hj
      rw [List.getElem?_set_self hin] at hx
      exact .inl ⟨rfl, (Option.some.inj hx).symm⟩
    · rw [List.getElem?_set_ne (Ne.symm hj)] at hx
      exact .inr ⟨hj, hx⟩
  have hmem : ∀ x ∈ s.children.set i d, ∃ y ∈ s.children, x.conn = y.conn := by
    intro x hx
    obtain ⟨j, hj⟩ := List.mem_iff_getElem?.mp hx
    rcases hset j x hj with ⟨-, rfl⟩ | ⟨-, hj⟩
    · exact ⟨c, List.mem_of_getElem? hc, hconn⟩
    · exact ⟨x, List.mem_of_getElem? hj, rfl⟩
  constructor
  · have hparent := hi.parent
    unfold ParentHas at hparent ⊢
    cases hpc : s.pc with
    | accept | close => simpa only [hpc] using hparent
    | fork sockfd =>
      simp only [hpc] at hparent ⊢
      obtain ⟨hfd, id, hid, hfiles, hfresh⟩ := hparent
      refine ⟨hfd, id, hid, hfiles, ?_⟩
      intro x hx
      obtain ⟨y, hy, he⟩ := hmem x hx
      rw [he]
      exact hfresh y hy
  · intro x hx
    obtain ⟨j, hj⟩ := List.mem_iff_getElem?.mp hx
    rcases hset j x hj with ⟨-, rfl⟩ | ⟨-, hj⟩
    · obtain ⟨id, hid, hsame, hfd, hchild⟩ := hi.child c (List.mem_of_getElem? hc)
      exact ⟨id, hid, hconn.trans hsame, hsock.trans hfd, hhas id hfd hchild⟩
    · exact hi.child x (List.mem_of_getElem? hj)
  · have hback : ∀ (j : Nat) (x : Child), (s.children.set i d)[j]? = some x →
        ∃ y, s.children[j]? = some y ∧ x.conn = y.conn := by
      intro j x hx
      rcases hset j x hx with ⟨rfl, rfl⟩ | ⟨-, hj⟩
      · exact ⟨c, hc, hconn⟩
      · exact ⟨x, hj, rfl⟩
    intro j k x y hx hy he
    obtain ⟨x', hx', hxx⟩ := hback j x hx
    obtain ⟨y', hy', hyy⟩ := hback k y hy
    exact hi.distinct j k x' y' hx' hy' (hxx.symm.trans (he.trans hyy))
  · have hthere : ∀ (j : Nat) (x : Child), s.children[j]? = some x →
        ∃ y, (s.children.set i d)[j]? = some y ∧ x.conn = y.conn := by
      intro j x hx
      by_cases hj : j = i
      · subst hj
        rw [hc] at hx
        cases hx
        exact ⟨d, List.getElem?_set_self hin, hconn.symm⟩
      · exact ⟨x, by rwa [List.getElem?_set_ne (Ne.symm hj)], rfl⟩
    intro e he
    rcases List.mem_append.mp he with he | he
    · obtain ⟨x, hx, hsame⟩ := hi.own e he
      obtain ⟨y, hy, hxy⟩ := hthere _ x hx
      exact ⟨y, hy, hsame.trans hxy⟩
    · obtain ⟨hchild, hsame⟩ := hes e he
      obtain ⟨y, hy, hxy⟩ := hthere i c hc
      exact ⟨y, hchild ▸ hy, hsame.trans hxy⟩
  · intro j x hx
    rcases hset j x hx with ⟨rfl, rfl⟩ | ⟨hj, hx⟩
    · exact hsession
    · have hnone : acts es j = [] := by
        apply acts_eq_nil
        intro e he
        rw [(hes e he).1]
        exact Ne.symm hj
      have hsplit : acts (log ++ es) j = acts log j := by
        rw [acts, List.filterMap_append, ← acts, ← acts, hnone, List.append_nil]
      rw [hsplit]
      exact hi.session j x hx

theorem Apart.stepChild {a : Option NetBytes.Action} {d : Child} (hi : Apart undef b s log)
    (hc : s.children[i]? = some c) (h : stepChild undef b c a = some d) :
    Apart undef b { s with children := s.children.set i d }
      (log ++ (event s (.child i a)).toList) := by
  have hsession := hi.session i c hc
  unfold NetForks.stepChild at h
  cases hpc : c.pc with
  | closeListen =>
    simp only [hpc] at h
    cases h
    have hnone : event s (.child i a) = none := by
      cases a <;> simp [event, hc, hpc]
    rw [hnone]
    refine hi.move (c := c) hc rfl rfl ?_ (by simp) (by simpa using hsession)
    intro id _ hhas
    simp only [ChildHas, hpc] at hhas
    exact get_close_listen hhas
  | serve =>
    simp only [hpc] at h
    cases a with
    | some act =>
      obtain ⟨session, hstep, rfl⟩ := Option.map_eq_some_iff.mp h
      obtain ⟨id, -, hconn, hfd, hhas⟩ := hi.child c (List.mem_of_getElem? hc)
      have hsame : connOf c.files c.sockfd = c.conn := by
        simp only [ChildHas, hpc] at hhas
        rw [hfd, hconn]
        exact connOf_serving hhas
      have hevent : event s (.child i (some act)) = some ⟨i, c.conn, act⟩ := by
        simp [event, hc, hpc, hsame]
      rw [hevent]
      refine hi.move (c := c) hc rfl rfl ?_ (by simp) ?_
      · intro id _ hhas
        simpa only [ChildHas, hpc] using hhas
      · have hone : (NetBytes.system undef).run c.session [act] = some session :=
          Option.bind_eq_some_iff.mpr ⟨session, hstep, rfl⟩
        simpa using run_append hsession hone
    | none =>
      simp only at h
      split at h <;> cases h
      have hnone : event s (.child i none) = none := by simp [event, hc]
      rw [hnone]
      exact hi.move (c := c) hc rfl rfl (fun _ _ _ => rfl) (by simp) (by simpa using hsession)
  | exited =>
    simp only [hpc] at h
    cases h

theorem apart (h : ((system undef b).logged event).Reachable anyStep (s, log)) :
    Apart undef b s log := by
  refine logged_invariant h (apart_init undef b) ?_
  intro s a t log hi hs
  cases a with
  | parent ok =>
    obtain rfl : stepParent s ok = t := Option.some.inj hs
    simpa [event] using hi.stepParent ok
  | child i a =>
    simp only [system, step] at hs
    split at hs
    · cases hs
    · obtain ⟨d, hd, rfl⟩ := Option.map_eq_some_iff.mp hs
      exact hi.stepChild ‹_› hd

/-- Three standard streams and the listening socket. -/
def standard : Boot where
  files := [some .other, some .other, some .other, some .listening]
  sock := 3
  listening := rfl
  fresh := by
    intro fd id h
    have hmem := mem_iff.mpr ⟨fd, h⟩
    simp at hmem

/-- Two connections; both children read, the second one first. -/
def twoChildrenRun : List Action :=
  List.replicate 6 (.parent true) ++ [Action.child 0 none, Action.child 1 none,
    Action.child 1 (some (.read [49])), Action.child 0 (some (.read [50])),
    Action.child 1 (some .call)]

def twoChildrenEnd : State × List Event :=
  (((system wrapOrTrap standard).logged event).run (init standard, []) twoChildrenRun).get
    (by decide)

theorem twoChildrenEnd_reachable :
    ((system wrapOrTrap standard).logged event).Reachable anyStep twoChildrenEnd :=
  reachable_of_run _

/-- In any interleaving the parent is back at `accept` with the descriptors it began with, a child
that serves has its own connection in place of the listening socket, and no child ever has
another one. -/
theorem descriptors_apart (h : ((system undef b).logged event).Reachable anyStep (s, log)) :
    (s.pc = .accept → get s.files = get b.files) ∧
      (∀ c ∈ s.children, c.pc = .serve → ∃ id, c.conn = some id ∧ get c.files = b.serving id) ∧
      (∀ c ∈ s.children, ∀ fd id, get c.files fd = some (.conn id) →
        c.conn = some id ∧ fd = b.fd ∧ c.pc ≠ .exited) := by
  have hi := apart h
  refine ⟨?_, ?_, ?_⟩
  · intro hpc
    simpa only [ParentHas, hpc] using hi.parent
  · intro c hc hpc
    obtain ⟨id, -, hconn, -, hhas⟩ := hi.child c hc
    simp only [ChildHas, hpc] at hhas
    exact ⟨id, hconn, hhas⟩
  · intro c hc fd id hfd
    obtain ⟨own, -, hconn, -, hhas⟩ := hi.child c hc
    have hholding : b.holding own fd = some (.conn id) → c.conn = some id ∧ fd = b.fd := by
      intro hopen
      unfold Boot.holding at hopen
      split at hopen
      · cases hopen
        exact ⟨hconn, ‹_›⟩
      · exact absurd hopen (b.fresh fd id)
    cases hpc : c.pc with
    | closeListen =>
      simp only [ChildHas, hpc] at hhas
      rw [hhas] at hfd
      exact ⟨(hholding hfd).1, (hholding hfd).2, by simp⟩
    | serve =>
      simp only [ChildHas, hpc] at hhas
      rw [hhas, Boot.serving] at hfd
      split at hfd
      · cases hfd
      · exact ⟨(hholding hfd).1, (hholding hfd).2, by simp⟩
    | exited =>
      simp only [ChildHas, hpc] at hhas
      simp [hhas, Descriptors.get] at hfd

theorem descriptors_apart_two : twoChildrenEnd.1.children.length = 2 ∧
    get twoChildrenEnd.1.files = get standard.files :=
  ⟨by decide, (descriptors_apart twoChildrenEnd_reachable).1 (by decide)⟩

/-- In any interleaving each child is one run of the session loop, on a connection that is its own:
all that is read from it and written to it is what this child read and wrote. -/
theorem sessions_apart (h : ((system undef b).logged event).Reachable anyStep (s, log))
    (hc : s.children[i]? = some c) :
    (NetBytes.system undef).run NetBytes.init (acts log i) = some c.session ∧
      (∃ id < s.accepted, c.conn = some id) ∧ ∀ e ∈ log, e.child = i ↔ e.conn = c.conn := by
  have hi := apart h
  refine ⟨hi.session i c hc, ?_, ?_⟩
  · obtain ⟨id, hid, hconn, -⟩ := hi.child c (List.mem_of_getElem? hc)
    exact ⟨id, hid, hconn⟩
  · intro e he
    obtain ⟨d, hd, hsame⟩ := hi.own e he
    constructor
    · rintro rfl
      rw [hc] at hd
      cases hd
      exact hsame
    · intro hconn
      exact hi.distinct _ _ d c hd hc (hsame.symm.trans hconn)

theorem sessions_apart_two : acts twoChildrenEnd.2 1 = [.read [49], .call] ∧
    ∃ c, twoChildrenEnd.1.children[1]? = some c ∧
      ∀ e ∈ twoChildrenEnd.2, e.child = 1 ↔ e.conn = c.conn := by
  have hin : (twoChildrenEnd.1.children[1]?).isSome := by decide
  obtain ⟨c, hc⟩ := Option.isSome_iff_exists.mp hin
  exact ⟨by decide, c, hc, (sessions_apart twoChildrenEnd_reachable hc).2.2⟩

end NetForks
