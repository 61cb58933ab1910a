import LinuxPractice.Transition
import LinuxPractice.Descriptors

/-!
# ProcessPool: a parent, its slavers and their pipes

`ProcessPool.cc` for any number of processes. Parent and children step
independently. The pipe made in round `i` and the child forked in round `i`
have the number `i`. A pipe holds any number of commands.
-/
namespace ProcessPool

open Transition Descriptors

/-- What a descriptor refers to. -/
inductive End where
  | std : End
  | rd : Nat → End
  | wr : Nat → End
  deriving DecidableEq, Repr

structure Channel where
  cmdfd : Nat
  slaverid : Nat
  deriving DecidableEq, Repr

/-- `pipe` to `father` are the rounds of `InitProcessPool`, `ctrl` is the loop of
`CtrlSlaver`, `close` and `wait` are the rounds of `QuitProcess`. -/
inductive ParentPc where
  | pipe : Nat → ParentPc
  | fork : Nat → Nat → Nat → ParentPc
  | father : Nat → Nat → Nat → ParentPc
  | ctrl : Nat → ParentPc
  | close : Nat → ParentPc
  | wait : Nat → ParentPc
  | done : ParentPc
  deriving DecidableEq, Repr

/-- `closeOld` to `closeRead` are the child's part of `InitProcessPool`, `read` and `run` the
loop of `slaver`. -/
inductive ChildPc where
  | unborn : ChildPc
  | closeOld : List Nat → Nat → Nat → ChildPc
  | closeWrite : Nat → Nat → ChildPc
  | dup : Nat → ChildPc
  | closeRead : Nat → ChildPc
  | read : ChildPc
  | run : Int → ChildPc
  | exit : ChildPc
  | exited : ChildPc
  deriving DecidableEq, Repr

structure State where
  parent : ParentPc
  files : Table End
  oldfds : List Nat
  channels : List Channel
  child : Nat → ChildPc
  childFiles : Nat → Table End
  pipe : Nat → List Int

/-- `select` is what the user types at the prompt of `CtrlSlaver`. -/
inductive Action where
  | parent : Int → Action
  | child : Nat → Action
  deriving DecidableEq, Repr

def init : State where
  parent := .pipe 0
  files := [some .std, some .std, some .std]
  oldfds := []
  channels := []
  child := fun _ => .unborn
  childFiles := fun _ => []
  pipe := fun _ => []

/-- Some process has `e` open. -/
def Opened (n : Nat) (s : State) (e : End) : Prop :=
  some e ∈ s.files ∨ ∃ i < n, some e ∈ s.childFiles i

instance (n : Nat) (s : State) (e : End) : Decidable (Opened n s e) :=
  inferInstanceAs (Decidable (_ ∨ _))

/-- The child `i` goes on to `k`. -/
def State.goto (s : State) (i : Nat) (k : ChildPc) : State :=
  { s with child := Function.update s.child i k }

def State.setFiles (s : State) (i : Nat) (files : Table End) : State :=
  { s with childFiles := Function.update s.childFiles i files }

section Fields

variable (s : State) (i : Nat) (k : ChildPc) (files : Table End)

@[simp] theorem State.goto_parent : (s.goto i k).parent = s.parent := rfl
@[simp] theorem State.goto_files : (s.goto i k).files = s.files := rfl
@[simp] theorem State.goto_oldfds : (s.goto i k).oldfds = s.oldfds := rfl
@[simp] theorem State.goto_channels : (s.goto i k).channels = s.channels := rfl
@[simp] theorem State.goto_child : (s.goto i k).child = Function.update s.child i k := rfl
@[simp] theorem State.goto_childFiles : (s.goto i k).childFiles = s.childFiles := rfl
@[simp] theorem State.goto_pipe : (s.goto i k).pipe = s.pipe := rfl
@[simp] theorem State.setFiles_parent : (s.setFiles i files).parent = s.parent := rfl
@[simp] theorem State.setFiles_files : (s.setFiles i files).files = s.files := rfl
@[simp] theorem State.setFiles_oldfds : (s.setFiles i files).oldfds = s.oldfds := rfl
@[simp] theorem State.setFiles_channels : (s.setFiles i files).channels = s.channels := rfl
@[simp] theorem State.setFiles_child : (s.setFiles i files).child = s.child := rfl
@[simp] theorem State.setFiles_childFiles :
    (s.setFiles i files).childFiles = Function.update s.childFiles i files := rfl
@[simp] theorem State.setFiles_pipe : (s.setFiles i files).pipe = s.pipe := rfl

end Fields

/-- `write` to a pipe nobody can read kills the writer. -/
def stepParent (n : Nat) (s : State) (select : Int) : Option State :=
  match s.parent with
  | .pipe i =>
    if i < n then
      let (files, r) := alloc s.files (.rd i)
      let (files, w) := alloc files (.wr i)
      some { s with files := files, parent := .fork i r w }
    else some { s with parent := .ctrl 0 }
  | .fork i r w =>
    some { (s.goto i (.closeOld s.oldfds r w)).setFiles i s.files with parent := .father i r w }
  | .father i r w =>
    some { s with
      files := close s.files r
      channels := s.channels ++ [⟨w, i⟩]
      oldfds := s.oldfds ++ [w]
      parent := .pipe (i + 1) }
  | .ctrl which =>
    if select > 4 ∨ select ≤ 0 then some { s with parent := .close 0 }
    else
      match s.channels[which]? with
      | none => none
      | some channel =>
        match get s.files channel.cmdfd with
        | some (.wr j) =>
          if Opened n s (.rd j) then
            some { s with
              pipe := Function.update s.pipe j (s.pipe j ++ [select - 1])
              parent := .ctrl ((which + 1) % s.channels.length) }
          else none
        | _ => some { s with parent := .ctrl ((which + 1) % s.channels.length) }
  | .close i =>
    match s.channels[i]? with
    | none => some { s with parent := .done }
    | some channel => some { s with files := close s.files channel.cmdfd, parent := .wait i }
  | .wait i =>
    match s.channels[i]? with
    | none => none
    | some channel =>
      if s.child channel.slaverid = .exited then some { s with parent := .close (i + 1) } else none
  | .done => none

/-- `read` from an empty pipe waits as long as somebody can write to it. A `read` that fails
is tried again. -/
def stepChild (n : Nat) (s : State) (i : Nat) : Option State :=
  match s.child i with
  | .unborn => none
  | .closeOld [] r w => some (s.goto i (.closeWrite r w))
  | .closeOld (oldfd :: rest) r w =>
    some ((s.goto i (.closeOld rest r w)).setFiles i (close (s.childFiles i) oldfd))
  | .closeWrite r w => some ((s.goto i (.dup r)).setFiles i (close (s.childFiles i) w))
  | .dup r => some ((s.goto i (.closeRead r)).setFiles i (dup2 (s.childFiles i) r 0))
  | .closeRead r => some ((s.goto i .read).setFiles i (close (s.childFiles i) r))
  | .read =>
    match get (s.childFiles i) 0 with
    | some (.rd j) =>
      match s.pipe j with
      | cmdcode :: rest => some { s.goto i (.run cmdcode) with pipe := Function.update s.pipe j rest }
      | [] => if Opened n s (.wr j) then none else some (s.goto i .exit)
    | some .std => none
    | _ => some s
  | .run _ => some (s.goto i .read)
  | .exit => some ((s.goto i .exited).setFiles i [])
  | .exited => none

def step (n : Nat) (s : State) : Action → Option State
  | .parent select => stepParent n s select
  | .child i => stepChild n s i

/-- `n` is `processNum`. -/
def pool (n : Nat) : System State Action where
  init := init
  step := step n

/-- The steps of the parent. -/
inductive ParentStep (n : Nat) (s : State) : State → Prop
  | pipe (i : Nat) (hpc : s.parent = .pipe i) (hi : i < n) :
      ParentStep n s { s with
        files := (alloc (alloc s.files (.rd i)).1 (.wr i)).1
        parent := .fork i (alloc s.files (.rd i)).2 (alloc (alloc s.files (.rd i)).1 (.wr i)).2 }
  | start (i : Nat) (hpc : s.parent = .pipe i) (hi : ¬ i < n) :
      ParentStep n s { s with parent := .ctrl 0 }
  | fork (i r w : Nat) (hpc : s.parent = .fork i r w) :
      ParentStep n s
        { (s.goto i (.closeOld s.oldfds r w)).setFiles i s.files with parent := .father i r w }
  | father (i r w : Nat) (hpc : s.parent = .father i r w) :
      ParentStep n s { s with
        files := close s.files r
        channels := s.channels ++ [⟨w, i⟩]
        oldfds := s.oldfds ++ [w]
        parent := .pipe (i + 1) }
  | quit (which : Nat) (hpc : s.parent = .ctrl which) :
      ParentStep n s { s with parent := .close 0 }
  | send (which j : Nat) (channel : Channel) (cmdcode : Int) (hpc : s.parent = .ctrl which)
      (hch : s.channels[which]? = some channel) (hfd : get s.files channel.cmdfd = some (.wr j)) :
      ParentStep n s { s with
        pipe := Function.update s.pipe j (s.pipe j ++ [cmdcode])
        parent := .ctrl ((which + 1) % s.channels.length) }
  | skip (which : Nat) (hpc : s.parent = .ctrl which) :
      ParentStep n s { s with parent := .ctrl ((which + 1) % s.channels.length) }
  | close (i : Nat) (channel : Channel) (hpc : s.parent = .close i)
      (hch : s.channels[i]? = some channel) :
      ParentStep n s { s with files := close s.files channel.cmdfd, parent := .wait i }
  | done (i : Nat) (hpc : s.parent = .close i) (hch : s.channels[i]? = none) :
      ParentStep n s { s with parent := .done }
  | reap (i : Nat) (channel : Channel) (hpc : s.parent = .wait i)
      (hch : s.channels[i]? = some channel) (hexit : s.child channel.slaverid = .exited) :
      ParentStep n s { s with parent := .close (i + 1) }

/-- The steps of the child `i`. -/
inductive ChildStep (n : Nat) (s : State) (i : Nat) : State → Prop
  | noOld (r w : Nat) (hpc : s.child i = .closeOld [] r w) :
      ChildStep n s i (s.goto i (.closeWrite r w))
  | closeOld (oldfd : Nat) (rest : List Nat) (r w : Nat)
      (hpc : s.child i = .closeOld (oldfd :: rest) r w) :
      ChildStep n s i
        ((s.goto i (.closeOld rest r w)).setFiles i (close (s.childFiles i) oldfd))
  | closeWrite (r w : Nat) (hpc : s.child i = .closeWrite r w) :
      ChildStep n s i ((s.goto i (.dup r)).setFiles i (close (s.childFiles i) w))
  | dup (r : Nat) (hpc : s.child i = .dup r) :
      ChildStep n s i ((s.goto i (.closeRead r)).setFiles i (dup2 (s.childFiles i) r 0))
  | closeRead (r : Nat) (hpc : s.child i = .closeRead r) :
      ChildStep n s i ((s.goto i .read).setFiles i (close (s.childFiles i) r))
  | command (j : Nat) (cmdcode : Int) (rest : List Int) (hpc : s.child i = .read)
      (hfd : get (s.childFiles i) 0 = some (.rd j)) (hpipe : s.pipe j = cmdcode :: rest) :
      ChildStep n s i { s.goto i (.run cmdcode) with pipe := Function.update s.pipe j rest }
  | eof (j : Nat) (hpc : s.child i = .read) (hfd : get (s.childFiles i) 0 = some (.rd j))
      (hpipe : s.pipe j = []) (hwr : ¬ Opened n s (.wr j)) : ChildStep n s i (s.goto i .exit)
  | spin (hpc : s.child i = .read) (hfd : ∀ j, get (s.childFiles i) 0 ≠ some (.rd j)) :
      ChildStep n s i s
  | run (cmdcode : Int) (hpc : s.child i = .run cmdcode) : ChildStep n s i (s.goto i .read)
  | exit (hpc : s.child i = .exit) : ChildStep n s i ((s.goto i .exited).setFiles i [])

variable {n : Nat} {s t : State}

theorem stepParent_cases {select : Int} (h : stepParent n s select = some t) : ParentStep n s t := by
  unfold stepParent at h
  cases hpc : s.parent with
  | pipe i =>
    simp only [hpc] at h
    split at h <;> cases h
    · exact .pipe i hpc ‹_›
    · exact .start i hpc ‹_›
  | fork i r w =>
    simp only [hpc] at h
    cases h
    exact .fork i r w hpc
  | father i r w =>
    simp only [hpc] at h
    cases h
    exact .father i r w hpc
  | ctrl which =>
    simp only [hpc] at h
    split at h
    · cases h
      exact .quit which hpc
    · split at h
      · cases h
      · split at h
        · split at h <;> cases h
          exact .send which _ _ _ hpc ‹_› ‹_›
        · cases h
          exact .skip which hpc
  | close i =>
    simp only [hpc] at h
    split at h <;> cases h
    · exact .done i hpc ‹_›
    · exact .close i _ hpc ‹_›
  | wait i =>
    simp only [hpc] at h
    split at h
    · cases h
    · split at h <;> cases h
      exact .reap i _ hpc ‹_› ‹_›
  | done =>
    simp only [hpc] at h
    cases h

theorem stepChild_cases {i : Nat} (h : stepChild n s i = some t) : ChildStep n s i t := by
  unfold stepChild at h
  cases hpc : s.child i with
  | unborn =>
    simp only [hpc] at h
    cases h
  | closeOld oldfds r w =>
    cases oldfds with
    | nil =>
      simp only [hpc] at h
      cases h
      exact .noOld r w hpc
    | cons oldfd rest =>
      simp only [hpc] at h
      cases h
      exact .closeOld oldfd rest r w hpc
  | closeWrite r w =>
    simp only [hpc] at h
    cases h
    exact .closeWrite r w hpc
  | dup r =>
    simp only [hpc] at h
    cases h
    exact .dup r hpc
  | closeRead r =>
    simp only [hpc] at h
    cases h
    exact .closeRead r hpc
  | read =>
    simp only [hpc] at h
    split at h
    · split at h
      · cases h
        exact .command _ _ _ hpc ‹_› ‹_›
      · split at h <;> cases h
        exact .eof _ hpc ‹_› ‹_› ‹_›
    · cases h
    · cases h
      rename_i hrd hstd
      exact .spin hpc hrd
  | run cmdcode =>
    simp only [hpc] at h
    cases h
    exact .run cmdcode hpc
  | exit =>
    simp only [hpc] at h
    cases h
    exact .exit hpc
  | exited =>
    simp only [hpc] at h
    cases h

theorem step_cases {a : Action} (h : step n s a = some t) :
    (∃ select, a = .parent select ∧ ParentStep n s t) ∨ ∃ i, a = .child i ∧ ChildStep n s i t := by
  cases a with
  | parent select => exact .inl ⟨select, rfl, stepParent_cases h⟩
  | child i => exact .inr ⟨i, rfl, stepChild_cases h⟩

end ProcessPool
