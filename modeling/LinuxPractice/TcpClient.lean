import LinuxPractice.Getline
import LinuxPractice.Pipes
import LinuxPractice.TcpServer

/-!
# The client of the dictionary

`TcpClient.cc` asks for ever, `Task::run` answers once and closes. The two ends
of their connection are pipes, except that the first `write` to a closed one is
taken and then refused, and that later ones kill.
-/
namespace TcpClient

open CppString Dictionary Getline Pipes Transition Transition.System
open TcpServer (RunPc size cstring)

/-- What the kernel keeps of each direction. -/
def capacity : Nat := 65536

/-- Where the client stands; `write` has the rest of the line. -/
inductive ClientPc where
  | getline : ClientPc
  | write : Bytes → ClientPc
  | read : ClientPc
  | print : Bytes → ClientPc
  | killed : ClientPc
  deriving DecidableEq, Repr

/-- There is no `task` behind its `close`. With `refused` a reset is on its way, with `reset` it
has come. With `fault` a process writes behind its buffer, or the task meets the end of the
connection. -/
structure State where
  up : Pipe UInt8
  down : Pipe UInt8
  client : ClientPc
  line : Bytes
  stdin : Stdin
  task : Option RunPc
  refused : Bool
  reset : Bool
  fault : Bool
  deriving DecidableEq, Repr

/-- A step of the client or of the task, with the bytes that the kernel transfers, the reset, or a
`read` of the client that fails for it. -/
inductive Action where
  | client : Nat → Action
  | task : Nat → Action
  | reset : Action
  | readFails : Action
  deriving DecidableEq, Repr

inductive Event where
  | entered : Bytes → Event
  | got : Bytes → Event
  | printed : Bytes → Event
  deriving DecidableEq, Repr

def init (input : Bytes) : State :=
  ⟨⟨[], 1, 1⟩, ⟨[], 1, 1⟩, .getline, [], ⟨input, false⟩, some .read, false, false, false⟩

/-- The loop of `main`. A write that fails with ECONNRESET and does not kill is one ahead of the
`reset`, which may come late. -/
def stepClient (s : State) (k : Nat) : Option (State × Option Event) :=
  match s.client with
  | .getline =>
    let (line, stdin) := getline s.line s.stdin
    some ({ s with client := .write line, line := line, stdin := stdin }, some (.entered line))
  | .write rest =>
    if s.reset then some ({ s with client := .killed }, none)
    else match rest with
      | [] => some ({ s with client := .read }, none)
      | b :: rest =>
        (s.up.write capacity (b :: rest) k).map fun
          | .put up => ({ s with up := up, client := .write ((b :: rest).drop k) }, none)
          | .sigpipe => ({ s with refused := true, client := .read }, none)
  | .read =>
    (s.down.read size k).map fun
      | ([], down) => ({ s with down := down, client := .getline }, none)
      | (data, down) => ({ s with down := down, client := .print data }, some (.got data))
  | .print data =>
    if data.length < size then some ({ s with client := .getline }, some (.printed (cstring data)))
    else some ({ s with fault := true }, none)
  | .killed => none

/-- `Task::run`. -/
def stepTask (dict : Dict) (s : State) (k : Nat) : Option (State × Option Event) :=
  match s.task with
  | some .read =>
    (s.up.read size k).map fun (data, up) =>
      if data ≠ [] ∧ data.length < size then
        ({ s with up := up, task := some (.write (translation dict (cstring data))) }, none)
      else ({ s with fault := true }, none)
  | some (.write []) => some ({ s with task := some .close }, none)
  | some (.write (b :: rest)) =>
    (s.down.write capacity (b :: rest) k).map fun
      | .put down => ({ s with down := down, task := some (.write ((b :: rest).drop k)) }, none)
      | .sigpipe => ({ s with fault := true }, none)
  | some .close =>
    some ({ s with
      up := { s.up with readers := s.up.readers - 1 }
      down := { s.down with writers := s.down.writers - 1 }
      task := none
      refused := !s.up.unread.isEmpty }, none)
  | none => none

def act (dict : Dict) (s : State) (a : Action) : Option (State × Option Event) :=
  if s.fault then none
  else match a with
    | .client k => stepClient s k
    | .task k => stepTask dict s k
    | .reset => if s.refused ∧ ¬ s.reset then some ({ s with reset := true }, none) else none
    | .readFails =>
      if s.reset ∧ s.client = .read then some ({ s with client := .getline }, none) else none

def step (dict : Dict) (s : State) (a : Action) : Option State := (act dict s a).map Prod.fst

def event (dict : Dict) (s : State) (a : Action) : Option Event := (act dict s a).bind Prod.snd

def system (dict : Dict) (input : Bytes) : System State Action where
  init := init input
  step := step dict

variable {dict : Dict} {input : Bytes} {s t : State} {e : Option Event}

inductive Step (dict : Dict) (s : State) : State → Option Event → Prop
  | getline (hpc : s.client = .getline) : Step dict s
      { s with
        client := .write (getline s.line s.stdin).1
        line := (getline s.line s.stdin).1
        stdin := (getline s.line s.stdin).2 } (some (.entered (getline s.line s.stdin).1))
  | killed (rest : Bytes) (hpc : s.client = .write rest) (hreset : s.reset = true) :
      Step dict s { s with client := .killed } none
  | finish (hpc : s.client = .write []) : Step dict s { s with client := .read } none
  | put (rest : Bytes) (k : Nat) (hpc : s.client = .write rest) : Step dict s
      { s with
        up := { s.up with unread := s.up.unread ++ rest.take k }
        client := .write (rest.drop k) } none
  | refused (rest : Bytes) (hpc : s.client = .write rest) (hreaders : s.up.readers = 0) :
      Step dict s { s with refused := true, client := .read } none
  | eof (hpc : s.client = .read) (hwriters : s.down.writers = 0) :
      Step dict s { s with client := .getline } none
  | got (data unread : Bytes) (hpc : s.client = .read) (hne : data ≠ [])
      (hunread : s.down.unread = data ++ unread) :
      Step dict s { s with down := { s.down with unread := unread }, client := .print data }
        (some (.got data))
  | print (data : Bytes) (hpc : s.client = .print data) :
      Step dict s { s with client := .getline } (some (.printed (cstring data)))
  | fault : Step dict s { s with fault := true } none
  | taskRead (data unread : Bytes) (hpc : s.task = some .read) (hne : data ≠ [])
      (hunread : s.up.unread = data ++ unread) : Step dict s
      { s with
        up := { s.up with unread := unread }
        task := some (.write (translation dict (cstring data))) } none
  | taskDone (hpc : s.task = some (.write [])) :
      Step dict s { s with task := some .close } none
  | taskWrite (rest : Bytes) (k : Nat) (hpc : s.task = some (.write rest)) : Step dict s
      { s with
        down := { s.down with unread := s.down.unread ++ rest.take k }
        task := some (.write (rest.drop k)) } none
  | close (hpc : s.task = some .close) : Step dict s
      { s with
        up := { s.up with readers := s.up.readers - 1 }
        down := { s.down with writers := s.down.writers - 1 }
        task := none
        refused := !s.up.unread.isEmpty } none
  | reset (hrefused : s.refused = true) : Step dict s { s with reset := true } none
  | readFails (hpc : s.client = .read) (hreset : s.reset = true) :
      Step dict s { s with client := .getline } none

theorem stepClient_cases {k : Nat} (h : stepClient s k = some (t, e)) : Step dict s t e := by
  unfold stepClient at h
  split at h
  next hpc => cases h; exact .getline hpc
  next rest hpc =>
    split at h
    · cases h
      exact .killed rest hpc ‹_›
    · split at h
      · cases h
        exact .finish hpc
      · obtain ⟨w, hw, he⟩ := Option.map_eq_some_iff.mp h
        rcases Pipe.write_cases hw with ⟨hreaders, rfl⟩ | ⟨-, -, -, -, rfl⟩
        · cases he
          exact .refused _ hpc hreaders
        · cases he
          exact .put _ k hpc
  next hpc =>
    obtain ⟨⟨data, down⟩, hr, he⟩ := Option.map_eq_some_iff.mp h
    rcases Pipe.read_cases hr with ⟨-, hwriters, rfl, rfl⟩ | ⟨hpos, -, hunread, hreaders, hwriters⟩
    · cases he
      exact .eof hpc hwriters
    · cases data with
      | nil => simp at hpos
      | cons b rest =>
        obtain ⟨unread, readers, writers⟩ := down
        simp only at hunread hreaders hwriters
        subst hreaders hwriters
        cases he
        exact .got _ _ hpc (List.cons_ne_nil _ _) hunread
  next data hpc =>
    split at h <;> cases h
    · exact .print data hpc
    · exact .fault
  next => cases h

theorem stepTask_cases {k : Nat} (h : stepTask dict s k = some (t, e)) : Step dict s t e := by
  unfold stepTask at h
  split at h
  next hpc =>
    obtain ⟨⟨data, up⟩, hr, he⟩ := Option.map_eq_some_iff.mp h
    simp only at he
    split at he <;> cases he
    · rename_i hdata
      rcases Pipe.read_cases hr with ⟨-, -, rfl, -⟩ | ⟨-, -, hunread, hreaders, hwriters⟩
      · exact absurd rfl hdata.1
      · obtain ⟨unread, readers, writers⟩ := up
        simp only at hunread hreaders hwriters
        subst hreaders hwriters
        exact .taskRead _ _ hpc hdata.1 hunread
    · exact .fault
  next hpc => cases h; exact .taskDone hpc
  next b rest hpc =>
    obtain ⟨w, hw, he⟩ := Option.map_eq_some_iff.mp h
    rcases Pipe.write_cases hw with ⟨-, rfl⟩ | ⟨-, -, -, -, rfl⟩
    · cases he
      exact .fault
    · cases he
      exact .taskWrite _ k hpc
  next hpc => cases h; exact .close hpc
  next => cases h

theorem step_cases {a : Action} (h : step dict s a = some t) : Step dict s t (event dict s a) := by
  obtain ⟨⟨u, e⟩, hact, rfl⟩ := Option.map_eq_some_iff.mp h
  have hevent : event dict s a = e := by simp [event, hact]
  rw [hevent]
  unfold act at hact
  split at hact
  · cases hact
  · cases a with
    | client k => exact stepClient_cases hact
    | task k => exact stepTask_cases hact
    | reset =>
      simp only at hact
      split at hact <;> cases hact
      rename_i hrefused
      exact .reset hrefused.1
    | readFails =>
      simp only at hact
      split at hact <;> cases hact
      rename_i hreset
      exact .readFails hreset.2 hreset.1

variable {log : List Event}

/-- The lines typed, the pieces read by the client, and the texts printed. -/
def entered (log : List Event) : List Bytes :=
  log.filterMap fun | .entered line => some line | _ => none

def got (log : List Event) : List Bytes :=
  log.filterMap fun | .got data => some data | _ => none

def printed (log : List Event) : List Bytes :=
  log.filterMap fun | .printed text => some text | _ => none

/-- What a client has typed and sent before the first answer. -/
def ClientPc.Asks (entered : List Bytes) (sent : Bytes) : ClientPc → Prop
  | .getline => entered = [] ∧ sent = []
  | .write rest => entered = [sent ++ rest]
  | .read => entered = [sent]
  | .print _ | .killed => False

/-- What a client has still to print. -/
def ClientPc.due : ClientPc → List Bytes
  | .print data => [cstring data]
  | _ => []

/-- What a task has still to write. -/
def left : Option RunPc → Bytes
  | some (.write rest) => rest
  | _ => []

/-- The task has read `word` and answers it. -/
structure Answers (dict : Dict) (s : State) (log : List Event) (word : Bytes) : Prop where
  asked : word ≠ []
  first : word <+: (entered log).headD []
  reply : (got log).flatten ++ s.down.unread ++ left s.task = translation dict (cstring word)

/-- As long as the task has read nothing, the client waits with its first line. -/
structure Waits (s : State) (log : List Event) : Prop where
  asks : s.client.Asks (entered log) s.up.unread
  silent : got log = [] ∧ s.down.unread = []

structure Kept (dict : Dict) (s : State) (log : List Event) : Prop where
  printed : (got log).map cstring = printed log ++ s.client.due
  waits : s.task = some .read → Waits s log
  answers : s.task ≠ some .read → ∃ word, Answers dict s log word
  killed : s.client = .killed → s.reset = true
  reset : s.reset = true → s.refused = true
  refused : s.refused = true → s.task = none
  up : s.up.writers = 1 ∧ (s.task ≠ none → s.up.readers = 1) ∧ (s.task = none → s.up.readers = 0)
  down : s.down.readers = 1 ∧ (s.task ≠ none → s.down.writers = 1) ∧
    (s.task = none → s.down.writers = 0)

theorem kept_init (dict : Dict) (input : Bytes) : Kept dict (init input) [] where
  printed := rfl
  waits := fun _ => ⟨⟨rfl, rfl⟩, rfl, rfl⟩
  answers := fun h => absurd rfl h
  killed := fun h => by cases h
  reset := fun h => by cases h
  refused := fun h => by cases h
  up := by simp [init]
  down := by simp [init]

@[simp] theorem got_append (log log' : List Event) : got (log ++ log') = got log ++ got log' := by
  simp [got]

@[simp] theorem entered_append (log log' : List Event) :
    entered (log ++ log') = entered log ++ entered log' := by simp [entered]

@[simp] theorem printed_append (log log' : List Event) :
    TcpClient.printed (log ++ log') = TcpClient.printed log ++ TcpClient.printed log' := by
  simp [TcpClient.printed]

theorem Answers.append {word : Bytes} (h : Answers dict s log word) {log' : List Event}
    (hdown : (got log').flatten ++ t.down.unread ++ left t.task =
      s.down.unread ++ left s.task) : Answers dict t (log ++ log') word where
  asked := h.asked
  first := by
    rw [entered_append]
    cases hlog : entered log with
    | nil =>
      have hfirst := h.first
      rw [hlog, List.headD_nil, List.prefix_nil] at hfirst
      exact absurd hfirst h.asked
    | cons line lines =>
      have hfirst := h.first
      rwa [hlog] at hfirst
  reply := by
    rw [got_append, List.flatten_append, List.append_assoc, List.append_assoc,
      ← List.append_assoc (got log').flatten, hdown, ← List.append_assoc]
    exact h.reply

theorem Answers.keep {word : Bytes} (h : Answers dict s log word)
    (hdown : t.down.unread ++ left t.task = s.down.unread ++ left s.task) :
    Answers dict t log word where
  asked := h.asked
  first := h.first
  reply := by
    rw [List.append_assoc, hdown, ← List.append_assoc]
    exact h.reply

/-- A step of the client. -/
theorem Kept.client (hi : Kept dict s log) (htask : t.task = s.task)
    (hup : t.up.readers = s.up.readers ∧ t.up.writers = s.up.writers)
    (hends : t.down.readers = s.down.readers ∧ t.down.writers = s.down.writers)
    (hprinted : (got (log ++ e.toList)).map cstring =
      TcpClient.printed (log ++ e.toList) ++ t.client.due)
    (hwaits : s.task = some .read → Waits s log → Waits t (log ++ e.toList))
    (hdown : (got e.toList).flatten ++ t.down.unread = s.down.unread)
    (hkilled : t.client = .killed → t.reset = true) (hreset : t.reset = true → t.refused = true)
    (hrefused : t.refused = true → s.task = none) : Kept dict t (log ++ e.toList) where
  printed := hprinted
  waits := fun h => hwaits (htask ▸ h) (hi.waits (htask ▸ h))
  answers := by
    intro h
    obtain ⟨word, hword⟩ := hi.answers (htask ▸ h)
    exact ⟨word, hword.append (by rw [hdown, htask])⟩
  killed := hkilled
  reset := hreset
  refused := by rw [htask]; exact hrefused
  up := by rw [htask, hup.1, hup.2]; exact hi.up
  down := by rw [htask, hends.1, hends.2]; exact hi.down

/-- A step of the task, which has read by then. -/
theorem Kept.serve (hi : Kept dict s log) (hclient : t.client = s.client)
    (hsome : s.task ≠ none) (hread : t.task ≠ some .read) (hreset : t.reset = s.reset)
    (hrefused : t.refused = true → t.task = none)
    (hup : t.up.writers = s.up.writers ∧ (t.task ≠ none → t.up.readers = s.up.readers) ∧
      (t.task = none → t.up.readers = 0))
    (hdown : t.down.readers = s.down.readers ∧ (t.task ≠ none → t.down.writers = s.down.writers) ∧
      (t.task = none → t.down.writers = 0))
    (hanswers : ∃ word, Answers dict t log word) : Kept dict t (log ++ []) := by
  have hnot : s.reset = true → False := fun h => hsome (hi.refused (hi.reset h))
  rw [List.append_nil]
  refine ⟨?_, fun h => absurd h hread, fun _ => hanswers, fun h => ?_, fun h => ?_, hrefused,
    ⟨hup.1.trans hi.up.1, fun h => (hup.2.1 h).trans (hi.up.2.1 hsome), hup.2.2⟩,
    ⟨hdown.1.trans hi.down.1, fun h => (hdown.2.1 h).trans (hi.down.2.1 hsome), hdown.2.2⟩⟩
  · rw [hclient]
    exact hi.printed
  · rw [hreset]
    exact hi.killed (hclient ▸ h)
  · exact (hnot (hreset ▸ h)).elim

theorem ClientPc.Asks.first {k : ClientPc} {entered : List Bytes} {sent : Bytes}
    (h : k.Asks entered sent) : sent <+: entered.headD [] := by
  cases k with
  | getline => rw [h.2]; exact List.nil_prefix
  | write rest => rw [show entered = [sent ++ rest] from h]; exact List.prefix_append _ _
  | read => rw [show entered = [sent] from h]; exact List.prefix_refl _
  | print | killed => exact h.elim

/-- The client meets the end of the connection only behind the task. -/
theorem Kept.over (hi : Kept dict s log) (hreset : s.reset = true) : s.task = none :=
  hi.refused (hi.reset hreset)

theorem Kept.step (hi : Kept dict s log) (h : Step dict s t e) : Kept dict t (log ++ e.toList) := by
  have hprinted := hi.printed
  have hlate : s.task = none → s.task = some RunPc.read → False := fun h h' => by
    rw [h] at h'
    cases h'
  cases h with
  | getline hpc =>
    refine hi.client rfl ⟨rfl, rfl⟩ ⟨rfl, rfl⟩ ?_ (fun _ hwaits => ?_) rfl (by simp) hi.reset
      hi.refused
    · rw [hpc] at hprinted
      simpa [got, TcpClient.printed, ClientPc.due] using hprinted
    · have hasks := hwaits.asks
      rw [hpc] at hasks
      refine ⟨?_, by simpa [got] using hwaits.silent⟩
      simp [ClientPc.Asks, entered_append, hasks.1, hasks.2]
      rfl
  | killed rest hpc hreset =>
    refine hi.client rfl ⟨rfl, rfl⟩ ⟨rfl, rfl⟩ ?_ (fun h _ => (hlate (hi.over hreset) h).elim) rfl
      (fun _ => hreset) hi.reset hi.refused
    rw [hpc] at hprinted
    simpa [ClientPc.due] using hprinted
  | finish hpc =>
    refine hi.client rfl ⟨rfl, rfl⟩ ⟨rfl, rfl⟩ ?_ (fun _ hwaits => ?_) rfl (by simp) hi.reset
      hi.refused
    · rw [hpc] at hprinted
      simpa [ClientPc.due] using hprinted
    · have hasks := hwaits.asks
      rw [hpc] at hasks
      exact ⟨by simpa [ClientPc.Asks] using hasks, by simpa using hwaits.silent⟩
  | put rest k hpc =>
    refine hi.client rfl ⟨rfl, rfl⟩ ⟨rfl, rfl⟩ ?_ (fun _ hwaits => ?_) rfl (by simp) hi.reset
      hi.refused
    · rw [hpc] at hprinted
      simpa [ClientPc.due] using hprinted
    · have hasks := hwaits.asks
      rw [hpc] at hasks
      exact ⟨by simpa [ClientPc.Asks] using hasks, by simpa using hwaits.silent⟩
  | refused rest hpc hreaders =>
    have htask : s.task = none := by
      by_contra h
      rw [hi.up.2.1 h] at hreaders
      cases hreaders
    refine hi.client rfl ⟨rfl, rfl⟩ ⟨rfl, rfl⟩ ?_ (fun h _ => (hlate htask h).elim) rfl (by simp)
      (fun _ => rfl) (fun _ => htask)
    rw [hpc] at hprinted
    simpa [ClientPc.due] using hprinted
  | eof hpc hwriters =>
    have htask : s.task = none := by
      by_contra h
      rw [hi.down.2.1 h] at hwriters
      cases hwriters
    refine hi.client rfl ⟨rfl, rfl⟩ ⟨rfl, rfl⟩ ?_ (fun h _ => (hlate htask h).elim) rfl (by simp)
      hi.reset hi.refused
    rw [hpc] at hprinted
    simpa [ClientPc.due] using hprinted
  | got data unread hpc hne hunread =>
    refine hi.client rfl ⟨rfl, rfl⟩ ⟨rfl, rfl⟩ ?_ (fun _ hwaits => ?_) ?_ (by simp) hi.reset
      hi.refused
    · rw [hpc] at hprinted
      simpa [got, TcpClient.printed, ClientPc.due] using hprinted
    · rw [hwaits.silent.2] at hunread
      exact absurd (List.append_eq_nil_iff.mp hunread.symm).1 hne
    · simpa [got] using hunread.symm
  | print data hpc =>
    refine hi.client rfl ⟨rfl, rfl⟩ ⟨rfl, rfl⟩ ?_ (fun _ hwaits => ?_) rfl (by simp) hi.reset
      hi.refused
    · rw [hpc] at hprinted
      simpa [got, TcpClient.printed, ClientPc.due] using hprinted
    · have hasks := hwaits.asks
      rw [hpc] at hasks
      exact hasks.elim
  | fault =>
    refine hi.client rfl ⟨rfl, rfl⟩ ⟨rfl, rfl⟩ (by simpa using hprinted) (fun _ hwaits => ?_) rfl
      hi.killed hi.reset hi.refused
    simpa using ⟨hwaits.asks, hwaits.silent⟩
  | taskRead data unread hpc hne hunread =>
    have hwaits := hi.waits hpc
    have hsome : s.task ≠ none := by simp [hpc]
    refine hi.serve rfl hsome (by simp) rfl (fun h => absurd (hi.refused h) hsome)
      ⟨rfl, fun _ => rfl, by simp⟩ ⟨rfl, fun _ => rfl, by simp⟩ ⟨data, hne, ?_, ?_⟩
    · exact (List.prefix_append _ _).trans (hunread ▸ hwaits.asks.first)
    · simp [hwaits.silent, left]
  | taskDone hpc =>
    have hsome : s.task ≠ none := by simp [hpc]
    obtain ⟨word, hword⟩ := hi.answers (by simp [hpc])
    refine hi.serve rfl hsome (by simp) rfl (fun h => absurd (hi.refused h) hsome)
      ⟨rfl, fun _ => rfl, by simp⟩ ⟨rfl, fun _ => rfl, by simp⟩ ⟨word, ?_⟩
    exact hword.keep (by simp [hpc, left])
  | taskWrite rest k hpc =>
    have hsome : s.task ≠ none := by simp [hpc]
    obtain ⟨word, hword⟩ := hi.answers (by simp [hpc])
    refine hi.serve rfl hsome (by simp) rfl (fun h => absurd (hi.refused h) hsome)
      ⟨rfl, fun _ => rfl, by simp⟩ ⟨rfl, fun _ => rfl, by simp⟩ ⟨word, ?_⟩
    exact hword.keep (by simp [hpc, left])
  | close hpc =>
    have hsome : s.task ≠ none := by simp [hpc]
    obtain ⟨word, hword⟩ := hi.answers (by simp [hpc])
    have hup := hi.up.2.1 hsome
    have hdown := hi.down.2.1 hsome
    refine hi.serve rfl hsome (by simp) rfl (fun _ => rfl) ⟨rfl, by simp, fun _ => by simp [hup]⟩
      ⟨rfl, by simp, fun _ => by simp [hdown]⟩ ⟨word, ?_⟩
    exact hword.keep (by simp [hpc, left])
  | reset hrefused =>
    refine hi.client rfl ⟨rfl, rfl⟩ ⟨rfl, rfl⟩ (by simpa using hprinted)
      (fun h _ => (hlate (hi.refused hrefused) h).elim) rfl (fun _ => rfl) (fun _ => hrefused)
      hi.refused
  | readFails hpc hreset =>
    refine hi.client rfl ⟨rfl, rfl⟩ ⟨rfl, rfl⟩ ?_ (fun h _ => (hlate (hi.over hreset) h).elim) rfl
      (by simp) hi.reset hi.refused
    rw [hpc] at hprinted
    simpa [ClientPc.due] using hprinted

theorem kept (h : ((system dict input).logged (event dict)).Reachable anyStep (s, log)) :
    Kept dict s log :=
  logged_invariant h (kept_init dict input) fun _ _ _ _ hi hs => hi.step (step_cases hs)

theorem reads (h : ((system dict input).logged (event dict)).Reachable anyStep (s, log)) :
    Reads input (entered log) s.line s.stdin := by
  refine logged_invariant (I := fun s log => Reads input (entered log) s.line s.stdin) h ?_
    fun s a t log hi hs => ?_
  · exact reads_init input
  have hcases := step_cases hs
  generalize event dict s a = e at hcases ⊢
  rw [entered_append]
  cases hcases with
  | getline => exact hi.getline
  | _ => simpa [entered] using hi

theorem headD_initial {line : Bytes} {stdin : Stdin} (h : Reads input (entered log) line stdin) :
    (entered log).headD [] <+: (lines input).headD [] := by
  rw [h.eq]
  cases hlines : lines input with
  | nil =>
    rcases unfinished_mem input with hmem | hnil
    · rw [hlines] at hmem
      cases hmem
    · rw [hnil]
      cases (entered log).length with
      | zero => exact List.nil_prefix
      | succ n => exact List.nil_prefix
  | cons line rest =>
    cases (entered log).length with
    | zero => exact List.nil_prefix
    | succ n => exact List.prefix_refl _

/-- What keeps the client from going on. -/
theorem client_waits (hi : Kept dict s log) (h : stepClient s 1 = none) :
    s.client = .killed ∨
      (∃ rest, s.client = .write rest ∧ s.task ≠ none ∧ capacity ≤ s.up.unread.length) ∨
      s.client = .read ∧ s.task ≠ none ∧ s.down.unread = [] := by
  cases hpc : s.client with
  | getline =>
    simp only [stepClient, hpc] at h
    cases h
  | write rest =>
    simp only [stepClient, hpc] at h
    split at h
    · cases h
    · cases rest with
      | nil => cases h
      | cons b rest =>
        obtain ⟨hreaders, hfull⟩ :=
          Pipe.write_eq_none Nat.one_pos (by simp) (Option.map_eq_none_iff.mp h)
        exact .inr (.inl ⟨_, rfl, fun hnone => hreaders (hi.up.2.2 hnone), Nat.lt_succ_iff.mp hfull⟩)
  | read =>
    simp only [stepClient, hpc, Option.map_eq_none_iff] at h
    obtain ⟨hunread, hwriters⟩ := Pipe.read_eq_none (by decide) h
    exact .inr (.inr ⟨rfl, fun hnone => hwriters (hi.down.2.2 hnone), hunread⟩)
  | print data =>
    simp only [stepClient, hpc] at h
    split at h <;> cases h
  | killed => exact .inl rfl

/-- What keeps the task from going on. -/
theorem task_waits (h : stepTask dict s 1 = none) :
    s.task = none ∨ s.task = some .read ∧ s.up.unread = [] ∨
      (∃ rest, s.task = some (.write rest)) ∧ capacity ≤ s.down.unread.length := by
  unfold stepTask at h
  split at h
  next hpc =>
    exact .inr (.inl ⟨hpc, (Pipe.read_eq_none (by decide) (Option.map_eq_none_iff.mp h)).1⟩)
  next => cases h
  next b rest hpc =>
    obtain ⟨-, hfull⟩ := Pipe.write_eq_none Nat.one_pos (by simp) (Option.map_eq_none_iff.mp h)
    exact .inr (.inr ⟨⟨_, hpc⟩, Nat.lt_succ_iff.mp hfull⟩)
  next => cases h
  next hpc => exact .inl hpc

/-- Whatever is typed, all that the client ever reads is a beginning of the answer to a beginning of
its first line. Where nothing can happen any more the client was killed behind the end of the task,
or the two wait for each other, because the first line was empty, or with both directions full. -/
theorem only_first_answered
    (h : ((system dict input).logged (event dict)).Reachable anyStep (s, log)) :
    (∃ word, word <+: (lines input).headD [] ∧ (got log ≠ [] → word ≠ []) ∧
      (got log).flatten <+: translation dict (cstring word) ∧
      printed log <+: (got log).map cstring) ∧
      ((∀ a, step dict s a = none) → s.fault = true ∨ s.client = .killed ∧ s.task = none ∨
        s.client = .read ∧ s.task = some .read ∧ entered log = [[]] ∨
        (∃ rest rest', s.client = .write rest ∧ s.task = some (.write rest')) ∧
          capacity ≤ s.up.unread.length ∧ capacity ≤ s.down.unread.length) := by
  have hi := kept h
  constructor
  · have hprinted : printed log <+: (got log).map cstring := ⟨_, hi.printed.symm⟩
    by_cases htask : s.task = some .read
    · have hsilent := (hi.waits htask).silent.1
      exact ⟨[], List.nil_prefix, fun h => absurd hsilent h, by simp [hsilent], hprinted⟩
    · obtain ⟨word, hword⟩ := hi.answers htask
      refine ⟨word, hword.first.trans (headD_initial (reads h)), fun _ => hword.asked, ?_, hprinted⟩
      exact ⟨s.down.unread ++ left s.task, by rw [← List.append_assoc]; exact hword.reply⟩
  · intro hstuck
    cases hfault : s.fault with
    | true => exact .inl rfl
    | false =>
      right
      have hclient : stepClient s 1 = none := by
        simpa [TcpClient.step, act, hfault] using hstuck (.client 1)
      have htask : stepTask dict s 1 = none := by
        simpa [TcpClient.step, act, hfault] using hstuck (.task 1)
      have hcapacity : 0 < capacity := by decide
      rcases client_waits hi hclient with hkilled | ⟨rest, hpc, hsome, hup⟩ | ⟨hpc, hsome, hdown⟩
      · exact .inl ⟨hkilled, hi.over (hi.killed hkilled)⟩
      · rcases task_waits htask with hnone | ⟨-, hempty⟩ | ⟨⟨rest', hpc'⟩, hfull⟩
        · exact absurd hnone hsome
        · rw [hempty, List.length_nil] at hup
          omega
        · exact .inr (.inr ⟨⟨rest, rest', hpc, hpc'⟩, hup, hfull⟩)
      · rcases task_waits htask with hnone | ⟨hpc', hempty⟩ | ⟨-, hfull⟩
        · exact absurd hnone hsome
        · have hasks := (hi.waits hpc').asks
          rw [hpc, hempty] at hasks
          exact .inr (.inl ⟨hpc, hpc', hasks⟩)
        · rw [hdown, List.length_nil] at hfull
          omega

/-- The only entry is that of "ab". -/
def ab : Dict := [([97, 98], [120, 121, 122])]

/-- "ab", and "c" without an end of line; the answer comes in two pieces. -/
def twoWords : Bytes := [97, 98, newline, 99]

def twoWordsRun : List Action :=
  [.client 0, .client 1, .client 1, .client 0, .task 2, .task 3, .client 2, .client 0, .client 0,
    .client 1, .client 0, .client 1, .client 0]

def twoWordsEnd : State × List Event :=
  (((system ab twoWords).logged (event ab)).run (init twoWords, []) twoWordsRun).get (by decide)

theorem only_first_answered_two : printed twoWordsEnd.2 = [[120, 121], [122]] ∧
    ∃ word, word <+: [97, 98] ∧ [120, 121, 122] <+: translation ab (cstring word) := by
  have hrun : (((system ab twoWords).logged (event ab)).run (init twoWords, [])
      twoWordsRun).isSome := by decide
  have hreach : ((system ab twoWords).logged (event ab)).Reachable anyStep
      (twoWordsEnd.1, twoWordsEnd.2) := reachable_of_run hrun
  obtain ⟨word, hword, -, hgot, -⟩ := (only_first_answered hreach).1
  exact ⟨by decide, word, hword, hgot⟩

end TcpClient
