import LinuxPractice.CppString
import LinuxPractice.Pipes
import LinuxPractice.Transition

/-!
# The pipe between Writer and Reader

`testPipe.cpp` from the `fork` on: the child writes numbered messages for ever,
the parent reads up to six times, closes its end and waits for the child. Reads
and writes transfer as many bytes as the kernel likes, and SIGPIPE kills.
-/
namespace TestPipe

open CppString Decimal Pipes Transition Transition.System

/-- `NUM`, the size of both buffers. -/
def num : Nat := 1024

/-- The kernel's pipe buffer. -/
def capacity : Nat := 65536

def intMax : Nat := 2147483647

/-- SIGPIPE. -/
def sigpipe : Nat := 13

/-- `hello, I am child`. -/
def hello : Bytes :=
  [104, 101, 108, 108, 111, 44, 32, 73, 32, 97, 109, 32, 99, 104, 105, 108, 100]

/-- What `snprintf` leaves in the buffer. -/
def message (self number : Nat) : Bytes :=
  (hello ++ [45] ++ print self ++ [45] ++ print number).take (num - 1)

/-- Where the child stands; `write` has the rest of a message. -/
inductive ChildPc where
  | closeRead : ChildPc
  | build : Nat → ChildPc
  | write : Bytes → Nat → ChildPc
  | killed : ChildPc
  deriving DecidableEq, Repr

/-- Where the parent stands; `print` has what a read got, `fileDone` has got nothing. -/
inductive ParentPc where
  | closeWrite : ParentPc
  | read : Nat → ParentPc
  | print : Nat → Bytes → ParentPc
  | fileDone : ParentPc
  | closeRead : ParentPc
  | waitpid : ParentPc
  | quit : Nat → ParentPc
  deriving DecidableEq, Repr

/-- `buffer[n]` behind the buffer, or `number++` past INT_MAX. -/
inductive Fault where
  | overrun : Fault
  | overflow : Fault
  deriving DecidableEq, Repr

structure State where
  pipe : Pipe UInt8
  child : ChildPc
  parent : ParentPc
  fault : Option Fault
  deriving DecidableEq, Repr

/-- A step of either process, with the number of bytes the kernel transfers. -/
inductive Action where
  | child : Nat → Action
  | parent : Nat → Action
  deriving DecidableEq, Repr

inductive Event where
  | wrote : Bytes → Event
  | got : Bytes → Event
  | printed : Bytes → Event
  | done : Event
  deriving DecidableEq, Repr

/-- After `fork` both processes have both ends. -/
def init : State := ⟨⟨[], 2, 2⟩, .closeRead, .closeWrite, none⟩

def stepChild (self : Nat) (s : State) (k : Nat) : Option State :=
  match s.child with
  | .closeRead =>
    some { s with pipe := { s.pipe with readers := s.pipe.readers - 1 }, child := .build 0 }
  | .build number =>
    if number = intMax then some { s with fault := some .overflow }
    else some { s with child := .write (message self number) (number + 1) }
  | .write [] number => some { s with child := .build number }
  | .write (b :: rest) number =>
    (s.pipe.write capacity (b :: rest) k).map fun
      | .put pipe => { s with pipe := pipe, child := .write ((b :: rest).drop k) number }
      | .sigpipe =>
        { s with pipe := { s.pipe with writers := s.pipe.writers - 1 }, child := .killed }
  | .killed => none

/-- Behind the branches of `Reader`. -/
def again (cnt : Nat) : ParentPc := if cnt + 1 > 5 then .closeRead else .read (cnt + 1)

def stepParent (s : State) (k : Nat) : Option State :=
  match s.parent with
  | .closeWrite =>
    some { s with pipe := { s.pipe with writers := s.pipe.writers - 1 }, parent := .read 0 }
  | .read cnt =>
    (s.pipe.read num k).map fun
      | ([], pipe) => { s with pipe := pipe, parent := .fileDone }
      | (data, pipe) => { s with pipe := pipe, parent := .print cnt data }
  | .print cnt data =>
    if data.length < num then some { s with parent := again cnt }
    else some { s with fault := some .overrun }
  | .fileDone => some { s with parent := .closeRead }
  | .closeRead =>
    some { s with pipe := { s.pipe with readers := s.pipe.readers - 1 }, parent := .waitpid }
  | .waitpid =>
    match s.child with
    | .killed => some { s with parent := .quit sigpipe }
    | _ => none
  | .quit _ => none

def step (self : Nat) (s : State) (a : Action) : Option State :=
  if s.fault.isSome then none
  else match a with
    | .child k => stepChild self s k
    | .parent k => stepParent s k

def system (self : Nat) : System State Action where
  init := init
  step := step self

/-- What a step puts into the pipe, takes out of it or prints. -/
def event (s : State) : Action → Option Event
  | .child k =>
    match s.child with
    | .write (b :: rest) _ =>
      match s.pipe.write capacity (b :: rest) k with
      | some (.put _) => some (.wrote ((b :: rest).take k))
      | _ => none
    | _ => none
  | .parent k =>
    match s.parent with
    | .read _ =>
      match s.pipe.read num k with
      | some (b :: rest, _) => some (.got (b :: rest))
      | _ => none
    | .print _ data =>
      if data.length < num then some (.printed (data.takeWhile (· != 0))) else none
    | .fileDone => some .done
    | _ => none

variable {self : Nat} {s t : State} {k : Nat}

inductive ChildStep (self : Nat) (s : State) : State → Option Event → Prop
  | closeRead (hpc : s.child = .closeRead) :
      ChildStep self s
        { s with pipe := { s.pipe with readers := s.pipe.readers - 1 }, child := .build 0 } none
  | overflow (hpc : s.child = .build intMax) :
      ChildStep self s { s with fault := some .overflow } none
  | build (number : Nat) (hpc : s.child = .build number) (hmax : number ≠ intMax) :
      ChildStep self s { s with child := .write (message self number) (number + 1) } none
  | finish (number : Nat) (hpc : s.child = .write [] number) :
      ChildStep self s { s with child := .build number } none
  | put (rest : Bytes) (number k : Nat) (hpc : s.child = .write rest number)
      (hreaders : s.pipe.readers ≠ 0) (hpos : 0 < k) (hlen : k ≤ rest.length)
      (hroom : s.pipe.unread.length + k ≤ capacity) :
      ChildStep self s { s with
        pipe := { s.pipe with unread := s.pipe.unread ++ rest.take k }
        child := .write (rest.drop k) number } (some (.wrote (rest.take k)))
  | sigpipe (rest : Bytes) (number : Nat) (hpc : s.child = .write rest number)
      (hreaders : s.pipe.readers = 0) :
      ChildStep self s
        { s with pipe := { s.pipe with writers := s.pipe.writers - 1 }, child := .killed } none

inductive ParentStep (s : State) : State → Option Event → Prop
  | closeWrite (hpc : s.parent = .closeWrite) :
      ParentStep s
        { s with pipe := { s.pipe with writers := s.pipe.writers - 1 }, parent := .read 0 } none
  | eof (cnt : Nat) (hpc : s.parent = .read cnt) (hwriters : s.pipe.writers = 0) :
      ParentStep s { s with parent := .fileDone } none
  | got (cnt : Nat) (data unread : Bytes) (hpc : s.parent = .read cnt) (hpos : 0 < data.length)
      (hlen : data.length ≤ num) (hunread : s.pipe.unread = data ++ unread) :
      ParentStep s { s with
        pipe := { s.pipe with unread := unread }, parent := .print cnt data } (some (.got data))
  | print (cnt : Nat) (data : Bytes) (hpc : s.parent = .print cnt data) (hlen : data.length < num) :
      ParentStep s { s with parent := again cnt } (some (.printed (data.takeWhile (· != 0))))
  | overrun (cnt : Nat) (data : Bytes) (hpc : s.parent = .print cnt data)
      (hlen : ¬ data.length < num) : ParentStep s { s with fault := some .overrun } none
  | fileDone (hpc : s.parent = .fileDone) :
      ParentStep s { s with parent := .closeRead } (some .done)
  | closeRead (hpc : s.parent = .closeRead) :
      ParentStep s
        { s with pipe := { s.pipe with readers := s.pipe.readers - 1 }, parent := .waitpid } none
  | waitpid (hpc : s.parent = .waitpid) (hchild : s.child = .killed) :
      ParentStep s { s with parent := .quit sigpipe } none

theorem stepChild_cases (h : stepChild self s k = some t) :
    ChildStep self s t (event s (.child k)) := by
  unfold stepChild at h
  cases hpc : s.child with
  | closeRead =>
    simp only [hpc] at h
    cases h
    simp only [event, hpc]
    exact .closeRead hpc
  | build number =>
    simp only [hpc] at h
    simp only [event, hpc]
    split at h <;> cases h
    · rename_i hmax
      rw [← hpc]
      exact .overflow (hmax ▸ hpc)
    · exact .build number hpc ‹_›
  | write rest number =>
    cases rest with
    | nil =>
      simp only [hpc] at h
      cases h
      simp only [event, hpc]
      exact .finish number hpc
    | cons b rest =>
      simp only [hpc] at h
      obtain ⟨w, hw, he⟩ := Option.map_eq_some_iff.mp h
      simp only [event, hpc, hw]
      rcases Pipe.write_cases hw with ⟨hreaders, rfl⟩ | ⟨hreaders, hpos, hlen, hroom, rfl⟩
      · cases he
        exact .sigpipe _ number hpc hreaders
      · cases he
        exact .put _ number k hpc hreaders hpos hlen hroom
  | killed =>
    simp only [hpc] at h
    cases h

theorem stepParent_cases (h : stepParent s k = some t) :
    ParentStep s t (event s (.parent k)) := by
  unfold stepParent at h
  cases hpc : s.parent with
  | closeWrite =>
    simp only [hpc] at h
    cases h
    simp only [event, hpc]
    exact .closeWrite hpc
  | read cnt =>
    simp only [hpc] at h
    obtain ⟨⟨data, pipe⟩, hr, he⟩ := Option.map_eq_some_iff.mp h
    rcases Pipe.read_cases hr with ⟨hunread, hwriters, rfl, rfl⟩ |
      ⟨hpos, hlen, hunread, hreaders, hwriters⟩
    · cases he
      simp only [event, hpc, hr]
      exact .eof cnt hpc hwriters
    · cases data with
      | nil => simp at hpos
      | cons b rest =>
        obtain ⟨unread, readers, writers⟩ := pipe
        simp only at hunread hreaders hwriters
        subst hreaders hwriters
        cases he
        simp only [event, hpc, hr]
        exact .got cnt _ _ hpc hpos hlen hunread
  | print cnt data =>
    simp only [hpc] at h
    simp only [event, hpc]
    split at h <;> cases h
    · rename_i hlen
      rw [if_pos hlen]
      exact .print cnt data hpc hlen
    · rename_i hlen
      rw [if_neg hlen, ← hpc]
      exact .overrun cnt data hpc hlen
  | fileDone =>
    simp only [hpc] at h
    cases h
    simp only [event, hpc]
    exact .fileDone hpc
  | closeRead =>
    simp only [hpc] at h
    cases h
    simp only [event, hpc]
    exact .closeRead hpc
  | waitpid =>
    simp only [hpc] at h
    split at h <;> cases h
    simp only [event, hpc]
    exact .waitpid hpc ‹_›
  | quit status =>
    simp only [hpc] at h
    cases h

theorem step_cases {a : Action} (h : step self s a = some t) :
    ChildStep self s t (event s a) ∨ ParentStep s t (event s a) := by
  unfold step at h
  split at h
  · cases h
  · cases a with
    | child k => exact .inl (stepChild_cases h)
    | parent k => exact .inr (stepParent_cases h)

/-- The pieces put into the pipe, the pieces taken out of it, and the texts printed. -/
def wrote (log : List Event) : List Bytes :=
  log.filterMap fun | .wrote piece => some piece | _ => none

def got (log : List Event) : List Bytes :=
  log.filterMap fun | .got data => some data | _ => none

def printed (log : List Event) : List Bytes :=
  log.filterMap fun | .printed text => some text | _ => none

variable {log : List Event} (piece : Bytes)

@[simp] theorem wrote_wrote : wrote (log ++ [.wrote piece]) = wrote log ++ [piece] := by
  simp [wrote]
@[simp] theorem wrote_got : wrote (log ++ [.got piece]) = wrote log := by simp [wrote]
@[simp] theorem wrote_printed : wrote (log ++ [.printed piece]) = wrote log := by simp [wrote]
@[simp] theorem got_wrote : got (log ++ [.wrote piece]) = got log := by simp [got]
@[simp] theorem got_got : got (log ++ [.got piece]) = got log ++ [piece] := by simp [got]
@[simp] theorem got_printed : got (log ++ [.printed piece]) = got log := by simp [got]
@[simp] theorem printed_wrote : printed (log ++ [.wrote piece]) = printed log := by simp [printed]
@[simp] theorem printed_got : printed (log ++ [.got piece]) = printed log := by simp [printed]
@[simp] theorem printed_printed : printed (log ++ [.printed piece]) = printed log ++ [piece] := by
  simp [printed]

/-- The first `n` messages, one after the other. -/
def stream (self n : Nat) : Bytes := (List.range n).flatMap (message self)

theorem stream_succ (self n : Nat) : stream self (n + 1) = stream self n ++ message self n := by
  simp [stream, List.range_succ]

theorem ne_zero_of_mem_message {b : UInt8} {n : Nat} (h : b ∈ message self n) : b ≠ 0 := by
  have hmem := List.mem_of_mem_take h
  have hdigit : ∀ m, b ∈ print m → b ≠ 0 := by
    rintro m hm rfl
    exact absurd (isDigit_of_mem_print hm) (by decide)
  simp only [List.mem_append, List.mem_singleton] at hmem
  rcases hmem with ((((hmem | rfl) | hmem) | rfl) | hmem)
  · rintro rfl
    exact absurd hmem (by decide)
  · decide
  · exact hdigit self hmem
  · decide
  · exact hdigit n hmem

theorem ne_zero_of_mem_stream {b : UInt8} {n : Nat} (h : b ∈ stream self n) : b ≠ 0 := by
  obtain ⟨i, -, hb⟩ := List.mem_flatMap.mp h
  exact ne_zero_of_mem_message hb

theorem length_message_pos (self n : Nat) : 0 < (message self n).length := by
  simp [message, num, hello]

theorem le_length_stream (self n : Nat) : n ≤ (stream self n).length := by
  induction n with
  | zero => exact Nat.zero_le _
  | succ n ih =>
    have hpos := length_message_pos self n
    rw [stream_succ, List.length_append]
    omega

namespace ChildPc

/-- The ends a child has open. -/
@[simp] def readers : ChildPc → Nat
  | .closeRead => 1
  | _ => 0

@[simp] def writers : ChildPc → Nat
  | .killed => 0
  | _ => 1

/-- What a child has put into the pipe when it gets here. -/
def Sends (self : Nat) (sent : Bytes) : ChildPc → Prop
  | .closeRead => sent = []
  | .build n => sent = stream self n
  | .write rest n => sent ++ rest = stream self n
  | .killed => ∃ n, sent <+: stream self n

theorem Sends.initial {sent : Bytes} {k : ChildPc} (h : k.Sends self sent) :
    ∃ n, sent <+: stream self n := by
  cases k with
  | closeRead => exact ⟨0, by simp [show sent = [] from h]⟩
  | build n => exact ⟨n, by rw [show sent = stream self n from h]⟩
  | write rest n => exact ⟨n, rest, h⟩
  | killed => exact h

end ChildPc

namespace ParentPc

@[simp] def readers : ParentPc → Nat
  | .waitpid | .quit _ => 0
  | _ => 1

@[simp] def writers : ParentPc → Nat
  | .closeWrite => 1
  | _ => 0

/-- What a parent has got and printed when it gets here. -/
def Fits (child : ChildPc) (got printed : List Bytes) : ParentPc → Prop
  | .closeWrite => got = [] ∧ printed = []
  | .read cnt => printed = got ∧ got.length = cnt ∧ cnt ≤ 5
  | .print cnt data => got = printed ++ [data] ∧ printed.length = cnt ∧ cnt ≤ 5
  | .fileDone => False
  | .closeRead | .waitpid => printed = got ∧ got.length ≤ 6
  | .quit status => printed = got ∧ got.length ≤ 6 ∧ status = sigpipe ∧ child = .killed

theorem Fits.got_le {child : ChildPc} {got printed : List Bytes} {k : ParentPc}
    (h : k.Fits child got printed) :
    got.length ≤ 6 ∧ ∃ due, got = printed ++ due ∧ due.length ≤ 1 := by
  cases k with
  | closeWrite => simp [h.1, h.2]
  | read cnt =>
    obtain ⟨rfl, hlen, hcnt⟩ := h
    exact ⟨by omega, [], by simp, by simp⟩
  | print cnt data =>
    obtain ⟨rfl, hlen, hcnt⟩ := h
    exact ⟨by simp; omega, [data], rfl, by simp⟩
  | fileDone => exact h.elim
  | closeRead | waitpid =>
    obtain ⟨rfl, hlen⟩ := h
    exact ⟨hlen, [], by simp, by simp⟩
  | quit status =>
    obtain ⟨rfl, hlen, -, -⟩ := h
    exact ⟨hlen, [], by simp, by simp⟩

/-- The child does not matter before it is waited for. -/
theorem Fits.child {child child' : ChildPc} {got printed : List Bytes} {k : ParentPc}
    (h : k.Fits child got printed) (hne : child ≠ .killed) : k.Fits child' got printed := by
  cases k with
  | quit status => exact absurd h.2.2.2 hne
  | closeWrite | read | print | fileDone | closeRead | waitpid => exact h

end ParentPc

structure Sound (pid : Nat) (s : State) (log : List Event) : Prop where
  readers : s.pipe.readers = s.child.readers + s.parent.readers
  writers : s.pipe.writers = s.child.writers + s.parent.writers
  flow : (got log).flatten ++ s.pipe.unread = (wrote log).flatten
  sends : s.child.Sends pid (wrote log).flatten
  fits : s.parent.Fits s.child (got log) (printed log)
  killed : s.child = .killed → s.parent.readers = 0
  room : s.pipe.unread.length ≤ capacity
  size : ∀ data ∈ got log, data.length ≤ num
  quiet : Event.done ∉ log
  fault : s.fault ≠ some .overflow

theorem sound_init : Sound self init [] where
  readers := rfl
  writers := rfl
  flow := rfl
  sends := rfl
  fits := ⟨rfl, rfl⟩
  killed := by simp [init]
  room := Nat.zero_le _
  size := by simp [got]
  quiet := by simp
  fault := by simp [init]

theorem length_flatten_le {l : List Bytes} {n : Nat} (h : ∀ data ∈ l, data.length ≤ n) :
    l.flatten.length ≤ l.length * n := by
  rw [List.length_flatten]
  calc (l.map List.length).sum ≤ (l.map List.length).length • n := by
        apply List.sum_le_card_nsmul
        simpa using h
    _ = l.length * n := by simp

/-- Six reads and what fits into the pipe bound what is ever written. -/
theorem Sound.length_wrote (hi : Sound self s log) :
    (wrote log).flatten.length ≤ 6 * num + capacity := by
  have hgot := length_flatten_le hi.size
  have hsix := Nat.mul_le_mul_right num hi.fits.got_le.1
  have hroom := hi.room
  rw [← hi.flow, List.length_append]
  omega

/-- All that is ever printed was sent, and a message has no NUL. -/
theorem Sound.takeWhile (hi : Sound self s log) {data : Bytes} (h : data ∈ got log) :
    data.takeWhile (· != 0) = data := by
  obtain ⟨n, hsent⟩ := hi.sends.initial
  apply List.takeWhile_eq_self_iff.mpr
  intro b hb
  have hmem : b ∈ (wrote log).flatten := by
    rw [← hi.flow]
    exact List.mem_append_left _ (List.mem_flatten.mpr ⟨data, h, hb⟩)
  simpa using ne_zero_of_mem_stream (hsent.subset hmem)

/-- The number of a message never gets near the end of `int`. -/
theorem Sound.number_lt (hi : Sound self s log) {n : Nat} (hpc : s.child = .build n) :
    n < intMax := by
  have hwrote := hi.length_wrote
  have hsends := hi.sends
  rw [hpc] at hsends
  rw [show (wrote log).flatten = stream self n from hsends] at hwrote
  have hle := le_length_stream self n
  simp only [num, capacity] at hwrote
  rw [intMax]
  omega

theorem Sound.child {e : Option Event} (hi : Sound self s log) (h : ChildStep self s t e) :
    Sound self t (log ++ e.toList) := by
  have hnumber := fun n => hi.number_lt (n := n)
  obtain ⟨hreaders, hwriters, hflow, hsends, hfits, hkilled, hroom, hsize, hquiet, hfault⟩ := hi
  cases h with
  | closeRead hpc =>
    rw [hpc] at hreaders hwriters hsends
    simp only [Option.toList_none, List.append_nil]
    refine ⟨?_, hwriters, hflow, hsends, hfits.child (by simp [hpc]), by simp, hroom, hsize, hquiet,
      hfault⟩
    simp only [ChildPc.readers] at hreaders ⊢
    omega
  | overflow hpc => exact absurd (hnumber intMax hpc) (Nat.lt_irrefl _)
  | build number hpc hmax =>
    rw [hpc] at hreaders hwriters hsends
    simp only [Option.toList_none, List.append_nil]
    refine ⟨hreaders, hwriters, hflow, ?_, hfits.child (by simp [hpc]), by simp, hroom, hsize,
      hquiet, hfault⟩
    rw [show (wrote log).flatten = stream self number from hsends]
    exact (stream_succ self number).symm
  | finish number hpc =>
    rw [hpc] at hreaders hwriters hsends
    simp only [Option.toList_none, List.append_nil]
    refine ⟨hreaders, hwriters, hflow, ?_, hfits.child (by simp [hpc]), by simp, hroom, hsize,
      hquiet, hfault⟩
    simpa [ChildPc.Sends] using hsends
  | put rest number k hpc hany hpos hlen hfree =>
    rw [hpc] at hreaders hwriters hsends
    simp only [Option.toList_some]
    refine ⟨hreaders, hwriters, ?_, ?_, ?_, by simp, ?_, ?_, ?_, hfault⟩
    · simp [← hflow]
    · simpa [ChildPc.Sends] using hsends
    · simpa using hfits.child (by simp [hpc])
    · rw [List.length_append, List.length_take]
      omega
    · simpa using hsize
    · simpa using hquiet
  | sigpipe rest number hpc hnone =>
    rw [hpc] at hreaders hwriters hsends
    simp only [Option.toList_none, List.append_nil]
    refine ⟨hreaders, ?_, hflow, ⟨number, rest, hsends⟩, hfits.child (by simp [hpc]), ?_, hroom,
      hsize, hquiet, hfault⟩
    · simp only [ChildPc.writers] at hwriters ⊢
      omega
    · intro _
      rw [hnone] at hreaders
      simpa using hreaders.symm

theorem again_readers (cnt : Nat) : (again cnt).readers = 1 := by
  unfold again
  split <;> rfl

theorem again_writers (cnt : Nat) : (again cnt).writers = 0 := by
  unfold again
  split <;> rfl

theorem again_fits {child : ChildPc} {l : List Bytes} {cnt : Nat} (hlen : l.length = cnt + 1)
    (hcnt : cnt ≤ 5) : (again cnt).Fits child l l := by
  unfold again
  split
  · exact ⟨rfl, by omega⟩
  · exact ⟨rfl, hlen, by omega⟩

theorem Sound.parent {e : Option Event} (hi : Sound self s log) (h : ParentStep s t e) :
    Sound self t (log ++ e.toList) := by
  have htext : ∀ data, data ∈ got log → data.takeWhile (· != 0) = data := fun _ => hi.takeWhile
  obtain ⟨hreaders, hwriters, hflow, hsends, hfits, hkilled, hroom, hsize, hquiet, hfault⟩ := hi
  cases h with
  | closeWrite hpc =>
    rw [hpc] at hreaders hwriters hfits hkilled
    obtain ⟨hgot, hprinted⟩ := hfits
    simp only [Option.toList_none, List.append_nil]
    refine ⟨hreaders, ?_, hflow, hsends, by simp [ParentPc.Fits, hgot, hprinted], hkilled, hroom,
      hsize, hquiet, hfault⟩
    simp only [ParentPc.writers] at hwriters ⊢
    omega
  | eof cnt hpc hnone =>
    -- the child is there, for it was not killed while the parent reads
    rw [hpc] at hwriters hkilled
    rw [hnone] at hwriters
    have hchild : s.child = .killed := by
      cases hc : s.child with
      | killed => rfl
      | closeRead | build | write => simp [hc] at hwriters
    exact absurd (hkilled hchild) (by simp)
  | got cnt data unread hpc hpos hlen hunread =>
    rw [hpc] at hreaders hwriters hfits hkilled
    obtain ⟨hprinted, hcount, hcnt⟩ := hfits
    simp only [Option.toList_some]
    refine ⟨hreaders, hwriters, ?_, ?_, ?_, hkilled, ?_, ?_, ?_, hfault⟩
    · simp [← hflow, hunread]
    · simpa using hsends
    · simp only [ParentPc.Fits, got_got, printed_got]
      exact ⟨by rw [hprinted], by rw [hprinted]; exact hcount, hcnt⟩
    · rw [hunread, List.length_append] at hroom
      exact (Nat.le_add_left _ _).trans hroom
    · intro d hd
      rw [got_got] at hd
      rcases List.mem_append.mp hd with hd | hd
      · exact hsize d hd
      · rw [List.mem_singleton.mp hd]
        exact hlen
    · simpa using hquiet
  | print cnt data hpc hlen =>
    rw [hpc] at hreaders hwriters hfits hkilled
    obtain ⟨hgot, hcount, hcnt⟩ := hfits
    have hdata := htext data (by simp [hgot])
    simp only [Option.toList_some, hdata]
    refine ⟨?_, ?_, by simpa using hflow, by simpa using hsends, ?_, ?_, hroom,
      by simpa using hsize, by simpa using hquiet, hfault⟩
    · show s.pipe.readers = _ + (again cnt).readers
      rw [again_readers]
      exact hreaders
    · show s.pipe.writers = _ + (again cnt).writers
      rw [again_writers]
      exact hwriters
    · simp only [got_printed, printed_printed, ← hgot]
      exact again_fits (by simp [hgot, hcount]) hcnt
    · intro hchild
      exact absurd (hkilled hchild) (by simp)
  | overrun cnt data hpc hlen =>
    simp only [Option.toList_none, List.append_nil]
    exact ⟨hreaders, hwriters, hflow, hsends, hfits, hkilled, hroom, hsize, hquiet, by simp⟩
  | fileDone hpc =>
    rw [hpc] at hfits
    exact hfits.elim
  | closeRead hpc =>
    rw [hpc] at hreaders hwriters hfits
    simp only [Option.toList_none, List.append_nil]
    refine ⟨?_, hwriters, hflow, hsends, hfits, by simp, hroom, hsize, hquiet, hfault⟩
    simp only [ParentPc.readers] at hreaders ⊢
    omega
  | waitpid hpc hchild =>
    rw [hpc] at hreaders hwriters hfits
    simp only [Option.toList_none, List.append_nil]
    exact ⟨hreaders, hwriters, hflow, hsends, ⟨hfits.1, hfits.2, rfl, hchild⟩, by simp, hroom,
      hsize, hquiet, hfault⟩

theorem Sound.step {a : Action} (hi : Sound self s log) (h : step self s a = some t) :
    Sound self t (log ++ (event s a).toList) := by
  rcases step_cases h with h | h
  · exact hi.child h
  · exact hi.parent h

theorem sound (h : ((system self).logged event).Reachable anyStep (s, log)) : Sound self s log :=
  logged_invariant h sound_init fun _ _ _ _ hi hs => hi.step hs

/-- In every interleaving, with any sizes of the transfers: what was read and what is in the pipe is
what was written, which is a beginning of the messages in their order; there are at most six reads,
none of them meets the end of the file, and what is printed is what they got, whole; and `number++`
stays an `int`. -/
theorem messages_in_order (h : ((system self).logged event).Reachable anyStep (s, log)) :
    (got log).flatten ++ s.pipe.unread = (wrote log).flatten ∧
      (∃ n, (wrote log).flatten <+: stream self n) ∧
      (got log).length ≤ 6 ∧ (∃ due, got log = printed log ++ due ∧ due.length ≤ 1) ∧
      Event.done ∉ log ∧ s.fault ≠ some .overflow := by
  have hi := sound h
  exact ⟨hi.flow, hi.sends.initial, hi.fits.got_le.1, hi.fits.got_le.2, hi.quiet, hi.fault⟩

/-- The first message of process 7 is read in two pieces. -/
def twoPiecesRun : List Action :=
  [.child 0, .parent 0, .child 0, .child 21, .parent 5, .parent 0, .parent 16, .parent 0]

def twoPiecesEnd : State × List Event :=
  (((system 7).logged event).run (init, []) twoPiecesRun).get (by decide)

theorem messages_in_order_two : printed twoPiecesEnd.2 =
      [[104, 101, 108, 108, 111],
        [44, 32, 73, 32, 97, 109, 32, 99, 104, 105, 108, 100, 45, 55, 45, 48]] ∧
    (got twoPiecesEnd.2).flatten ++ twoPiecesEnd.1.pipe.unread =
      (wrote twoPiecesEnd.2).flatten := by
  have hreach : ((system 7).logged event).Reachable anyStep twoPiecesEnd := reachable_of_run _
  exact ⟨by decide, (messages_in_order hreach).1⟩

/-- The steps a child has before it writes again. -/
def ChildPc.rank : ChildPc → Nat
  | .closeRead | .write [] _ => 3
  | .build _ => 2
  | .write (_ :: _) _ => 1
  | .killed => 0

def ParentPc.rank : ParentPc → Nat
  | .closeWrite => 15
  | .read cnt => 2 * (6 - cnt) + 2
  | .print cnt _ => 2 * (6 - cnt) + 1
  | .fileDone => 3
  | .closeRead => 2
  | .waitpid => 1
  | .quit _ => 0

def ParentPc.readsLeft : ParentPc → Nat
  | .closeWrite => 6
  | .read cnt => 6 - cnt
  | .print cnt _ => 5 - cnt
  | _ => 0

/-- The bytes that can still be written. -/
def space (s : State) : Nat := capacity - s.pipe.unread.length + num * s.parent.readsLeft

/-- The steps that are left, at most. -/
def rank (s : State) : Nat :=
  (if s.fault.isSome then 0 else 1) + s.parent.rank + s.child.rank + 4 * space s

/-- What the parent prints as `exit_code` and `exit_signal`. -/
def exitCode (status : Nat) : Nat := status >>> 8 &&& 255
def exitSignal (status : Nat) : Nat := status &&& 127

theorem ChildPc.rank_write (rest : Bytes) (number : Nat) :
    (ChildPc.write rest number).rank ≤ 3 := by
  cases rest <;> simp [rank]

theorem ChildPc.rank_write_of_ne {rest : Bytes} (h : rest ≠ []) (number : Nat) :
    (ChildPc.write rest number).rank = 1 := by
  cases rest with
  | nil => exact absurd rfl h
  | cons b rest => rfl

theorem again_rank {cnt : Nat} (hcnt : cnt ≤ 5) (data : Bytes) :
    (again cnt).rank < (ParentPc.print cnt data).rank ∧
      (again cnt).readsLeft = (ParentPc.print cnt data).readsLeft := by
  unfold again
  split
  · simp only [ParentPc.rank, ParentPc.readsLeft]
    omega
  · simp only [ParentPc.rank, ParentPc.readsLeft]
    omega

/-- A child that moves on. -/
theorem rank_child {pipe : Pipe UInt8} {k : ChildPc} (hpipe : pipe.unread = s.pipe.unread)
    (hlt : k.rank < s.child.rank) : rank { s with pipe := pipe, child := k } < rank s := by
  simp only [rank, space, hpipe]
  omega

/-- A parent that moves on. -/
theorem rank_parent {pipe : Pipe UInt8} {k : ParentPc} (hpipe : pipe.unread = s.pipe.unread)
    (hlt : k.rank < s.parent.rank) (hleft : k.readsLeft ≤ s.parent.readsLeft) :
    rank { s with pipe := pipe, parent := k } < rank s := by
  have hmul := Nat.mul_le_mul_left num hleft
  simp only [rank, space, hpipe]
  omega

theorem rank_fault {f : Fault} (hfault : s.fault = none) :
    rank { s with fault := some f } < rank s := by
  simp [rank, space, hfault]

theorem ChildStep.rank_lt {e : Option Event} (hfault : s.fault = none)
    (h : ChildStep self s t e) : rank t < rank s := by
  cases h with
  | closeRead hpc => exact rank_child rfl (by rw [hpc]; decide)
  | overflow hpc => exact rank_fault hfault
  | build number hpc hmax =>
    have hne : message self number ≠ [] := List.length_pos_iff.mp (length_message_pos self number)
    apply rank_child rfl
    rw [hpc, ChildPc.rank_write_of_ne hne]
    exact Nat.lt_succ_self 1
  | finish number hpc => exact rank_child rfl (by rw [hpc]; exact Nat.lt_succ_self 2)
  | put rest number k hpc hany hpos hlen hfree =>
    have hne : rest ≠ [] := by
      rintro rfl
      simp at hlen
      omega
    have hbefore : s.child.rank = 1 := by rw [hpc, ChildPc.rank_write_of_ne hne]
    have hafter := ChildPc.rank_write (rest.drop k) number
    simp only [rank, space, hbefore, List.length_append, List.length_take]
    omega
  | sigpipe rest number hpc hnone =>
    apply rank_child rfl
    rw [hpc]
    cases rest <;> simp [ChildPc.rank]

theorem Sound.parent_rank {e : Option Event} (hi : Sound self s log) (hfault : s.fault = none)
    (h : ParentStep s t e) : rank t < rank s := by
  have hfits := hi.fits
  have hroom := hi.room
  cases h with
  | closeWrite hpc => exact rank_parent rfl (by rw [hpc]; decide) (by rw [hpc]; decide)
  | eof cnt hpc hnone =>
    rw [hpc] at hfits
    apply rank_parent rfl
    · rw [hpc, ParentPc.rank, ParentPc.rank]
      have := hfits.2.2
      omega
    · exact Nat.zero_le _
  | got cnt data unread hpc hpos hlen hunread =>
    rw [hpc] at hfits
    have hcnt := hfits.2.2
    have hleft : 6 - cnt = (5 - cnt) + 1 := by omega
    rw [hunread, List.length_append] at hroom
    simp only [rank, space, hpc, hunread, ParentPc.rank, ParentPc.readsLeft, List.length_append,
      hleft, Nat.mul_succ]
    omega
  | print cnt data hpc hlen =>
    rw [hpc] at hfits
    have hnext := again_rank hfits.2.2 data
    exact rank_parent rfl (by rw [hpc]; exact hnext.1) (by rw [hpc]; exact hnext.2.le)
  | overrun cnt data hpc hlen => exact rank_fault hfault
  | fileDone hpc => exact rank_parent rfl (by rw [hpc]; decide) (Nat.zero_le _)
  | closeRead hpc => exact rank_parent rfl (by rw [hpc]; decide) (Nat.zero_le _)
  | waitpid hpc hchild => exact rank_parent rfl (by rw [hpc]; decide) (Nat.zero_le _)

theorem Sound.rank_lt {a : Action} (hi : Sound self s log) (h : TestPipe.step self s a = some t) :
    rank t < rank s := by
  have hfault : s.fault = none := by
    unfold TestPipe.step at h
    split at h
    · cases h
    · rename_i hnone
      simpa using hnone
  rcases step_cases h with h | h
  · exact h.rank_lt hfault
  · exact hi.parent_rank hfault h

/-- A child with no step is dead, or the pipe is full. -/
theorem child_of_stuck (hfault : s.fault = none)
    (hstuck : TestPipe.step self s (.child 1) = none) :
    s.child = .killed ∨ s.pipe.readers ≠ 0 ∧ capacity ≤ s.pipe.unread.length := by
  simp only [TestPipe.step, hfault, Option.isSome_none, Bool.false_eq_true, if_false,
    stepChild] at hstuck
  cases hpc : s.child with
  | closeRead => simp [hpc] at hstuck
  | build number =>
    simp only [hpc] at hstuck
    split at hstuck <;> cases hstuck
  | write rest number =>
    cases rest with
    | nil => simp [hpc] at hstuck
    | cons b rest =>
      simp only [hpc, Option.map_eq_none_iff] at hstuck
      obtain ⟨hreaders, hfull⟩ := Pipe.write_eq_none Nat.one_pos (by simp) hstuck
      exact .inr ⟨hreaders, Nat.lt_succ_iff.mp hfull⟩
  | killed => exact .inl rfl

/-- A parent with no step has quit, or waits for a message or for the child. -/
theorem parent_of_stuck (hfault : s.fault = none)
    (hstuck : TestPipe.step self s (.parent 1) = none) :
    (∃ status, s.parent = .quit status) ∨
      (∃ cnt, s.parent = .read cnt ∧ s.pipe.unread = [] ∧ s.pipe.writers ≠ 0) ∨
      s.parent = .waitpid ∧ s.child ≠ .killed := by
  simp only [TestPipe.step, hfault, Option.isSome_none, Bool.false_eq_true, if_false,
    stepParent] at hstuck
  cases hpc : s.parent with
  | closeWrite | fileDone | closeRead => simp [hpc] at hstuck
  | read cnt =>
    simp only [hpc, Option.map_eq_none_iff] at hstuck
    exact .inr (.inl ⟨cnt, rfl, Pipe.read_eq_none (by decide) hstuck⟩)
  | print cnt data =>
    simp only [hpc] at hstuck
    split at hstuck <;> cases hstuck
  | waitpid =>
    refine .inr (.inr ⟨rfl, fun hchild => ?_⟩)
    simp [hpc, hchild] at hstuck
  | quit status => exact .inl ⟨status, rfl⟩

theorem Sound.end_of_stuck (hi : Sound self s log)
    (hstuck : ∀ a, TestPipe.step self s a = none) :
    s.fault = some .overrun ∨ s.parent = .quit sigpipe ∧ s.child = .killed := by
  cases hfault : s.fault with
  | some f =>
    cases f with
    | overrun => exact .inl rfl
    | overflow => exact absurd hfault hi.fault
  | none =>
    right
    have hfits := hi.fits
    have hreaders := hi.readers
    have hchild := child_of_stuck hfault (hstuck (.child 1))
    rcases parent_of_stuck hfault (hstuck (.parent 1)) with ⟨status, hpc⟩ | ⟨cnt, hpc, hempty, -⟩ |
      ⟨hpc, hlive⟩
    · rw [hpc] at hfits
      obtain ⟨-, -, rfl, hkilled⟩ := hfits
      exact ⟨hpc, hkilled⟩
    · rcases hchild with hkilled | ⟨-, hfull⟩
      · have hnone := hi.killed hkilled
        rw [hpc] at hnone
        cases hnone
      · rw [hempty] at hfull
        exact absurd hfull (by decide)
    · -- nobody can read any more, so that the child does not block
      rcases hchild with hkilled | ⟨hany, -⟩
      · exact absurd hkilled hlive
      · rw [hpc] at hreaders
        cases hk : s.child with
        | killed => exact absurd hk hlive
        | closeRead =>
          have := hstuck (.child 1)
          simp [TestPipe.step, hfault, stepChild, hk] at this
        | build | write => simp [hk, hany] at hreaders

/-- Every run ends, within `rank` steps: with the child killed by SIGPIPE, as the parent finds and
prints, unless a read has filled the whole of `buffer`. -/
theorem child_is_reaped {as : List Action} (h : (system self).run init as = some s) :
    as.length + rank s ≤ rank init ∧
      ((∀ a, step self s a = none) → s.fault = some .overrun ∨ s.child = .killed ∧
        ∃ status, s.parent = .quit status ∧ exitCode status = 0 ∧ exitSignal status = sigpipe) := by
  have hstart : ∃ log, Sound self init log := ⟨[], sound_init⟩
  have hkeep : ∀ u a v, (∃ log, Sound self u log) → (system self).step u a = some v →
      ∃ log, Sound self v log := by
    rintro u a v ⟨log, hi⟩ hs
    exact ⟨_, hi.step hs⟩
  constructor
  · refine run_length_le (J := fun u => ∃ log, Sound self u log) ?_ hstart h
    rintro u a v ⟨log, hi⟩ hs
    exact ⟨⟨_, hi.step hs⟩, hi.rank_lt hs⟩
  · intro hstuck
    obtain ⟨log, hi⟩ := run_invariant hkeep hstart h
    rcases hi.end_of_stuck hstuck with hfault | ⟨hpc, hkilled⟩
    · exact .inl hfault
    · exact .inr ⟨hkilled, sigpipe, hpc, by decide, by decide⟩

/-- The parent gets the first message in six pieces and closes its end. -/
def sixPiecesRun : List Action :=
  [.child 0, .parent 0, .child 0, .child 21] ++ List.replicate 12 (.parent 3) ++
    [.parent 0, .child 0, .child 0, .child 21, .parent 0]

def sixPiecesEnd : State := ((system 7).run init sixPiecesRun).get (by decide)

theorem child_is_reaped_six : sixPiecesRun.length + rank sixPiecesEnd ≤ rank init ∧
    sixPiecesEnd.child = .killed ∧ ∃ status, sixPiecesEnd.parent = .quit status ∧
      exitCode status = 0 ∧ exitSignal status = sigpipe := by
  have hstuck : ∀ a, step 7 sixPiecesEnd a = none := by
    intro a
    cases a with
    | child k => rfl
    | parent k => rfl
  obtain ⟨hrank, hend⟩ := child_is_reaped (Option.some_get _).symm
  refine ⟨hrank, (hend hstuck).resolve_left ?_⟩
  decide

end TestPipe
