import LinuxPractice.ProcessPoolQuit
import LinuxPractice.RoundRobin

/-!
# ProcessPool: which slaver runs which task

`CtrlSlaver` deals the selections out in turn, a slaver takes its commands in
the order in which they were sent, and what it runs for a command is what the
user has asked for.
-/
namespace ProcessPool

open Transition Transition.System Descriptors RoundRobin

inductive Task where
  | task1 : Task
  | task2 : Task
  | task3 : Task
  | task4 : Task
  deriving DecidableEq, Repr

def loadTask (tasks : List Task) : List Task :=
  tasks ++ [Task.task1] ++ [Task.task2] ++ [Task.task3] ++ [Task.task4]

def tasks : List Task := loadTask []

/-- The conversion of an `int` to `size_t`. -/
def sizeOfInt (x : Int) : Nat := (x % 18446744073709551616).toNat

/-- What `slaver` calls for a command, if anything. -/
def dispatch (cmdcode : Int) : Option Task :=
  if cmdcode ≥ 0 ∧ sizeOfInt cmdcode < tasks.length then tasks[sizeOfInt cmdcode]? else none

/-- `CtrlSlaver` goes on with this selection. -/
def inMenu (select : Int) : Bool := !(select > 4 || select ≤ 0)

theorem inMenu_iff {select : Int} : inMenu select = true ↔ ¬ (select > 4 ∨ select ≤ 0) := by
  simp [inMenu]

/-- The shift by one in `CtrlSlaver` and the range check in `slaver` fit together. -/
theorem dispatch_of_inMenu {select : Int} (h : inMenu select = true) :
    ∃ task, dispatch (select - 1) = some task ∧ tasks[(select - 1).toNat]? = some task := by
  rw [inMenu_iff] at h
  obtain rfl | rfl | rfl | rfl : select = 1 ∨ select = 2 ∨ select = 3 ∨ select = 4 := by omega
  · exact ⟨.task1, by decide, by decide⟩
  · exact ⟨.task2, by decide, by decide⟩
  · exact ⟨.task3, by decide, by decide⟩
  · exact ⟨.task4, by decide, by decide⟩

/-- `ran` notes what the slaver calls for a command. -/
inductive Event where
  | typed : Int → Event
  | received : Nat → Int → Event
  | ran : Nat → Option Task → Event
  deriving DecidableEq, Repr

def event (s : State) : Action → Option Event
  | .parent select =>
    match s.parent with
    | .ctrl _ => some (.typed select)
    | _ => none
  | .child i =>
    match s.child i with
    | .read =>
      match get (s.childFiles i) 0 with
      | some (.rd j) => (s.pipe j).head?.map (.received i)
      | _ => none
    | .run cmdcode => some (.ran i (dispatch cmdcode))
    | _ => none

section Log

variable (log : List Event) (i j : Nat) (select cmdcode : Int) (call : Option Task)

def typed : List Int := log.filterMap fun | .typed select => some select | _ => none

def received : List Int :=
  log.filterMap fun | .received j cmdcode => if j = i then some cmdcode else none | _ => none

def ran : List (Option Task) :=
  log.filterMap fun | .ran j call => if j = i then some call else none | _ => none

/-- The selections up to the first one that ends `CtrlSlaver`. -/
def selections : List Int := (typed log).takeWhile inMenu

@[simp] theorem typed_typed : typed (log ++ [Event.typed select]) = typed log ++ [select] := by
  simp [typed]

@[simp] theorem typed_received : typed (log ++ [Event.received j cmdcode]) = typed log := by
  simp [typed]

@[simp] theorem typed_ran : typed (log ++ [Event.ran j call]) = typed log := by simp [typed]

@[simp] theorem received_typed : received (log ++ [Event.typed select]) i = received log i := by
  simp [received]

@[simp] theorem received_received : received (log ++ [Event.received j cmdcode]) i =
    received log i ++ if j = i then [cmdcode] else [] := by
  by_cases h : j = i <;> simp [received, h]

@[simp] theorem received_ran : received (log ++ [Event.ran j call]) i = received log i := by
  simp [received]

@[simp] theorem ran_typed : ran (log ++ [Event.typed select]) i = ran log i := by simp [ran]

@[simp] theorem ran_received : ran (log ++ [Event.received j cmdcode]) i = ran log i := by
  simp [ran]

@[simp] theorem ran_ran : ran (log ++ [Event.ran j call]) i =
    ran log i ++ if j = i then [call] else [] := by
  by_cases h : j = i <;> simp [ran, h]

@[simp] theorem selections_received :
    selections (log ++ [Event.received j cmdcode]) = selections log := by
  simp [selections]

@[simp] theorem selections_ran : selections (log ++ [Event.ran j call]) = selections log := by
  simp [selections]

end Log

variable {n i j : Nat} {s t : State} {log : List Event}

/-- As long as the menu is not left, every selection counts. -/
theorem selections_eq (h : ∀ select ∈ typed log, inMenu select = true) :
    selections log = typed log :=
  List.takeWhile_eq_self_iff.mpr h

theorem selections_typed (h : ∀ select ∈ typed log, inMenu select = true) (select : Int) :
    selections (log ++ [Event.typed select]) =
      selections log ++ if inMenu select = true then [select] else [] := by
  rw [selections_eq h, selections, typed_typed, List.takeWhile_append_of_pos h]
  by_cases hmenu : inMenu select = true
  · simp [hmenu]
  · simp [hmenu]

/-- The commands given to slaver `i`, whether it has read them yet or not. -/
def commands (s : State) (log : List Event) (i : Nat) : List Int := received log i ++ s.pipe i

/-- What the slaver is about to call. -/
def ChildPc.running : ChildPc → List (Option Task)
  | .run cmdcode => [dispatch cmdcode]
  | _ => []

/-- The steps before the loop of `slaver`. -/
def ChildPc.ahead : ChildPc → Nat
  | .closeOld rest _ _ => rest.length + 4
  | .closeWrite _ _ => 3
  | .dup _ => 2
  | .closeRead _ => 1
  | _ => 0

/-- What a step of slaver `i` does to its commands, and what is noted of it. -/
inductive Noted (s t : State) (i : Nat) : Option Event → Prop
  | received (cmdcode : Int) (hpc : s.child i = .read) (hnext : t.child i = .run cmdcode)
      (hpipe : s.pipe i = cmdcode :: t.pipe i) (hothers : ∀ j, j ≠ i → t.pipe j = s.pipe j) :
      Noted s t i (some (.received i cmdcode))
  | ran (cmdcode : Int) (hpc : s.child i = .run cmdcode) (hnext : t.child i = .read)
      (hpipe : t.pipe = s.pipe) : Noted s t i (some (.ran i (dispatch cmdcode)))
  | quiet (hpipe : t.pipe = s.pipe) (hpc : (s.child i).running = [])
      (hnext : (t.child i).running = [])
      (hleft : (t.child i).ahead < (s.child i).ahead ∨ s.pipe i = []) : Noted s t i none

theorem ChildStep.noted (hi : Sound n s) (h : ChildStep n s i t) :
    Noted s t i (event s (.child i)) := by
  cases h with
  | command j cmdcode rest hpc hfd hpipe =>
    have hown := reads_own hi.toLaid hpc
    rw [hfd] at hown
    cases hown
    simp only [event, hpc, hfd, hpipe, List.head?_cons, Option.map_some]
    exact .received cmdcode hpc (by simp) (by simp [hpipe]) fun j hj => by simp [hj]
  | run cmdcode hpc =>
    simp only [event, hpc]
    exact .ran cmdcode hpc (by simp) rfl
  | eof j hpc hfd hpipe hwr =>
    have hown := reads_own hi.toLaid hpc
    rw [hfd] at hown
    cases hown
    simp only [event, hpc, hfd, hpipe, List.head?_nil, Option.map_none]
    exact .quiet rfl (by rw [hpc]; rfl) (by simp [ChildPc.running]) (.inr hpipe)
  | exit hpc =>
    have hdrained := hi.drained i (by rw [hpc]; rfl)
    simp only [event, hpc]
    exact .quiet rfl (by rw [hpc]; rfl) (by simp [ChildPc.running]) (.inr hdrained.1)
  | spin hpc hfd => exact absurd (reads_own hi.toLaid hpc) (hfd i)
  | noOld r w hpc | closeWrite r w hpc =>
    simp only [event, hpc]
    exact .quiet rfl (by rw [hpc]; rfl) (by simp [ChildPc.running])
      (.inl (by simp [hpc, ChildPc.ahead]))
  | closeOld oldfd rest r w hpc =>
    simp only [event, hpc]
    exact .quiet rfl (by rw [hpc]; rfl) (by simp [ChildPc.running])
      (.inl (by simp [hpc, ChildPc.ahead]))
  | dup r hpc | closeRead r hpc =>
    simp only [event, hpc]
    exact .quiet rfl (by rw [hpc]; rfl) (by simp [ChildPc.running])
      (.inl (by simp [hpc, ChildPc.ahead]))

/-- While the parent holds the write end, the slaver keeps its read end open. -/
theorem opened_rd (hi : Sound n s) {which : Nat} (hpc : s.parent = .ctrl which) (hin : i < n) :
    Opened n s (.rd i) := by
  have hshape := hi.parent
  simp only [ParentFits, hpc] at hshape
  have hfits := hi.child i
  have hfd : ∃ fd, get (s.childFiles i) fd = some (.rd i) := by
    cases hchild : s.child i with
    | unborn =>
      have := (hshape.born i).mp hchild
      omega
    | exited =>
      have hdrained := hi.drained i (by rw [hchild]; rfl)
      have hmem : 4 + i ∈ List.range' 4 n := List.mem_range'_1.mpr (by omega)
      refine absurd (.inl ?_) hdrained.2
      exact (mem_wr hshape.files (by simp [List.mem_range'_1]; omega) (by simp) (by simp)).mpr hmem
    | closeOld rest r w =>
      rw [hchild] at hfits
      exact ⟨3, by rw [hfits.2.2]; rfl⟩
    | closeWrite r w =>
      rw [hchild] at hfits
      exact ⟨3, by rw [hfits.2]; rfl⟩
    | dup r =>
      rw [hchild] at hfits
      exact ⟨3, by rw [hfits.2]; rfl⟩
    | closeRead r =>
      rw [hchild] at hfits
      exact ⟨0, by rw [hfits.2]; rfl⟩
    | read | run | exit =>
      rw [hchild] at hfits
      exact ⟨0, by rw [show get (s.childFiles i) = _ from hfits]; rfl⟩
  exact .inr ⟨i, hin, mem_iff.mpr hfd⟩

/-- Slaver `which` gets a command, and the next one is in turn. -/
def State.send (s : State) (n which : Nat) (cmdcode : Int) : State :=
  { s with
    pipe := Function.update s.pipe which (s.pipe which ++ [cmdcode])
    parent := .ctrl ((which + 1) % n) }

/-- What `CtrlSlaver` does with a selection; it is never stuck, and `channels[which]` exists. -/
theorem stepParent_ctrl (hi : Sound n s) {which : Nat} (hpc : s.parent = .ctrl which)
    (hlt : which < n) (select : Int) :
    stepParent n s select = some (if inMenu select then s.send n which (select - 1)
      else { s with parent := .close 0 }) := by
  have hshape := hi.parent
  simp only [ParentFits, hpc] at hshape
  have hchannel : s.channels[which]? = some ⟨4 + which, which⟩ := by
    rw [hshape.channel, if_pos hlt]
  have hfd : get s.files (4 + which) = some (.wr which) := by
    have hfar : ¬ 4 + which < 3 ∧ 4 + which ≠ 3 ∧ 4 + which < 4 + n := by omega
    simp [hshape.files, layout, List.mem_range'_1, hfar]
  have hlength : s.channels.length = n := by simp [hshape.channels]
  unfold stepParent
  by_cases hmenu : inMenu select = true
  · simp only [hpc, if_neg (inMenu_iff.mp hmenu), hchannel, hfd, hlength, hmenu]
    rw [if_pos (opened_rd hi hpc hlt), if_pos trivial, State.send]
  · have hquit : select > 4 ∨ select ≤ 0 := by
      by_contra hout
      exact hmenu (inMenu_iff.mpr hout)
    simp only [hpc, if_pos hquit, if_neg hmenu]

/-- What the user has typed when the parent is at a place. -/
def ParentPc.Typed (n : Nat) (inputs : List Int) : ParentPc → Prop
  | .pipe _ | .fork _ _ _ | .father _ _ _ => inputs = []
  | .ctrl which => which = inputs.length % n ∧ ∀ select ∈ inputs, inMenu select = true
  | .close _ | .wait _ | .done =>
    ∃ last, inMenu last = false ∧ inputs = inputs.takeWhile inMenu ++ [last]

structure Scheduled (n : Nat) (s : State) (log : List Event) : Prop extends Sound n s where
  inputs : s.parent.Typed n (typed log)
  given : ∀ i, commands s log i = (share n (selections log) i).map (· - 1)
  served : ∀ i, (received log i).map dispatch = ran log i ++ (s.child i).running

theorem scheduled_init : Scheduled n init [] where
  toSound := sound_init
  inputs := rfl
  given := fun _ => rfl
  served := fun _ => rfl

/-- A step that leaves the pipes alone and is not noted. -/
theorem Scheduled.quiet (hi : Scheduled n s log) (ht : Sound n t)
    (htyped : t.parent.Typed n (typed log)) (hpipe : t.pipe = s.pipe)
    (hrun : ∀ i, (t.child i).running = (s.child i).running) : Scheduled n t log where
  toSound := ht
  inputs := htyped
  given := by
    intro i
    rw [commands, hpipe]
    exact hi.given i
  served := by
    intro i
    rw [hrun]
    exact hi.served i

/-- The parent before and after `CtrlSlaver`. -/
theorem Scheduled.aside (hi : Scheduled n s log) (hpc : ∀ which, s.parent ≠ .ctrl which)
    (h : ParentStep n s t) (ht : Sound n t) : Scheduled n t log := by
  have htyped := hi.inputs
  cases h with
  | pipe i hp hin =>
    rw [hp] at htyped
    exact hi.quiet ht htyped rfl fun _ => rfl
  | start i hp hin =>
    rw [hp] at htyped
    have hnone : typed log = [] := htyped
    exact hi.quiet ht ⟨by simp [hnone], by simp [hnone]⟩ rfl fun _ => rfl
  | fork i r w hp =>
    rw [hp] at htyped
    have hparent := hi.parent
    simp only [ParentFits, hp] at hparent
    have hunborn : s.child i = .unborn := (hparent.2.2.born i).mpr (le_refl i)
    refine hi.quiet ht htyped rfl fun j => ?_
    by_cases hj : j = i
    · subst hj
      simp [hunborn, ChildPc.running]
    · simp [hj]
  | father i r w hp =>
    rw [hp] at htyped
    exact hi.quiet ht htyped rfl fun _ => rfl
  | quit which hp | skip which hp => exact absurd hp (hpc which)
  | send which j channel cmdcode hp => exact absurd hp (hpc which)
  | close i channel hp | reap i channel hp =>
    rw [hp] at htyped
    exact hi.quiet ht htyped rfl fun _ => rfl
  | done i hp hch =>
    rw [hp] at htyped
    exact hi.quiet ht htyped rfl fun _ => rfl

/-- The slaver in turn is the one whose share the next selection is. -/
theorem Scheduled.send (hi : Scheduled n s log) {which : Nat} (hpc : s.parent = .ctrl which)
    {select : Int} (hmenu : inMenu select = true) (ht : Sound n (s.send n which (select - 1))) :
    Scheduled n (s.send n which (select - 1)) (log ++ [Event.typed select]) := by
  have htyped := hi.inputs
  rw [hpc] at htyped
  obtain ⟨hwhich, hmenus⟩ := htyped
  have hsel := selections_eq hmenus
  have hnext := selections_typed hmenus select
  rw [if_pos hmenu] at hnext
  refine ⟨ht, ⟨?_, ?_⟩, ?_, ?_⟩
  · simp [hwhich]
  · intro x hx
    rw [typed_typed, List.mem_append, List.mem_singleton] at hx
    cases hx with
    | inl hx => exact hmenus x hx
    | inr hx => rwa [hx]
  · intro i
    have hgiven := hi.given i
    rw [commands] at hgiven
    rw [hnext, commands, received_typed, State.send]
    by_cases hi : i = which
    · rw [hi, hwhich, ← hsel, share_concat_self]
      rw [hi, hwhich, ← hsel] at hgiven
      simp [← hgiven]
    · rw [share_concat_of_ne _ _ (by rwa [hsel, ← hwhich]), ← hgiven]
      simp [hi]
  · intro i
    simpa [State.send] using hi.served i

theorem Scheduled.quit (hi : Scheduled n s log) {which : Nat} (hpc : s.parent = .ctrl which)
    {select : Int} (hmenu : inMenu select = false) (ht : Sound n { s with parent := .close 0 }) :
    Scheduled n { s with parent := .close 0 } (log ++ [Event.typed select]) := by
  have htyped := hi.inputs
  rw [hpc] at htyped
  have hsel := selections_eq htyped.2
  have hnext : selections (log ++ [Event.typed select]) = selections log := by
    rw [selections_typed htyped.2, if_neg (Bool.eq_false_iff.mp hmenu), List.append_nil]
  refine ⟨ht, ⟨select, hmenu, ?_⟩, ?_, ?_⟩
  · have htake : (typed (log ++ [Event.typed select])).takeWhile inMenu = selections log := hnext
    rw [htake, hsel, typed_typed]
  · intro i
    rw [hnext, commands, received_typed]
    exact hi.given i
  · intro i
    simpa using hi.served i

/-- One round of `CtrlSlaver`. -/
theorem Scheduled.ctrl (hi : Scheduled n s log) (hn : 0 < n) {which : Nat}
    (hpc : s.parent = .ctrl which) {select : Int} (h : stepParent n s select = some t)
    (ht : Sound n t) : Scheduled n t (log ++ [Event.typed select]) := by
  have htyped := hi.inputs
  rw [hpc] at htyped
  rw [stepParent_ctrl hi.toSound hpc (htyped.1 ▸ Nat.mod_lt _ hn)] at h
  cases hmenu : inMenu select with
  | true =>
    rw [if_pos hmenu] at h
    cases h
    exact hi.send hpc hmenu ht
  | false =>
    rw [if_neg (Bool.eq_false_iff.mp hmenu)] at h
    cases h
    exact hi.quit hpc hmenu ht

theorem Scheduled.childStep (hi : Scheduled n s log) (h : ChildStep n s i t) (ht : Sound n t) :
    Scheduled n t (log ++ (event s (.child i)).toList) := by
  have htyped : t.parent.Typed n (typed log) := by
    rw [h.parent_eq]
    exact hi.inputs
  have hothers : ∀ k, k ≠ i → t.child k = s.child k := fun k hk => (h.child_of_ne hk).1
  have hnoted := h.noted hi.toSound
  generalize event s (.child i) = e at hnoted ⊢
  cases hnoted with
  | received cmdcode hpc hnext hpipe hpipes =>
    refine ⟨ht, by simpa using htyped, ?_, ?_⟩
    · intro k
      have hgiven := hi.given k
      rw [commands] at hgiven
      rw [Option.toList_some, selections_received, commands, received_received, ← hgiven]
      by_cases hk : k = i
      · simp [hk, hpipe]
      · simp [Ne.symm hk, hpipes k hk]
    · intro k
      have hserved := hi.served k
      by_cases hk : k = i
      · subst hk
        simp [hserved, hpc, hnext, ChildPc.running]
      · simp [hserved, Ne.symm hk, hothers k hk]
  | ran cmdcode hpc hnext hpipe =>
    refine ⟨ht, by simpa using htyped, ?_, ?_⟩
    · intro k
      simpa [commands, hpipe] using hi.given k
    · intro k
      have hserved := hi.served k
      by_cases hk : k = i
      · subst hk
        simp [hserved, hpc, hnext, ChildPc.running]
      · simp [hserved, Ne.symm hk, hothers k hk]
  | quiet hpipe hpc hnext =>
    rw [Option.toList_none, List.append_nil]
    refine hi.quiet ht htyped hpipe fun k => ?_
    by_cases hk : k = i
    · rw [hk, hpc, hnext]
    · rw [hothers k hk]

theorem event_parent (hpc : ∀ which, s.parent ≠ .ctrl which) (select : Int) :
    event s (.parent select) = none := by
  cases hp : s.parent with
  | ctrl which => exact absurd hp (hpc which)
  | pipe | fork | father | close | wait | done => simp [event, hp]

theorem Scheduled.step (hi : Scheduled n s log) (hn : 0 < n) {a : Action}
    (h : step n s a = some t) : Scheduled n t (log ++ (event s a).toList) := by
  have ht := hi.toSound.step h
  cases a with
  | child i => exact hi.childStep (stepChild_cases h) ht
  | parent select =>
    by_cases hpc : ∃ which, s.parent = .ctrl which
    · obtain ⟨which, hpc⟩ := hpc
      simp only [event, hpc, Option.toList_some]
      exact hi.ctrl hn hpc h ht
    · rw [not_exists] at hpc
      rw [event_parent hpc, Option.toList_none, List.append_nil]
      exact hi.aside hpc (stepParent_cases h) ht

theorem scheduled (hn : 0 < n) (h : ((pool n).logged event).Reachable anyStep (s, log)) :
    Scheduled n s log :=
  logged_invariant h scheduled_init fun _ _ _ _ hi hs => hi.step hn hs

end ProcessPool
