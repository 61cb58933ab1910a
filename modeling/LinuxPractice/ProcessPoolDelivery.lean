import LinuxPractice.ProcessPoolSchedule

/-!
# ProcessPool: every selection is delivered once and run

A slaver with a command left always has a step, and enough steps of its own
bring it through what it has been given, whatever the others do meanwhile.
-/
namespace ProcessPool

open Transition Transition.System RoundRobin

variable {n i j : Nat} {s t : State} {log : List Event}

/-- What slaver `i` still has to do for its first `m` commands. -/
def remaining (i m : Nat) (p : State × List Event) : Nat :=
  (p.1.child i).ahead + (m - (received p.2 i).length) + (m - (ran p.2 i).length)

theorem Scheduled.length_eq (hi : Scheduled n s log) (i : Nat) :
    (received log i).length = (ran log i).length + (s.child i).running.length := by
  have hlength := congrArg List.length (hi.served i)
  simpa using hlength

/-- Nobody has been given a command before `CtrlSlaver`. -/
theorem Scheduled.commands_nil (hi : Scheduled n s log) (h : typed log = []) (i : Nat) :
    commands s log i = [] := by
  rw [hi.given, selections, h]
  rfl

theorem selections_mono (log es : List Event) : selections log <+: selections (log ++ es) := by
  rw [selections, selections, typed, typed, List.filterMap_append, List.takeWhile_append]
  split
  · rename_i hall
    rw [(List.takeWhile_prefix inMenu).eq_of_length hall]
    exact List.prefix_append _ _
  · exact List.prefix_refl _

theorem Scheduled.commands_mono (hi : Scheduled n s log) {es : List Event}
    (ht : Scheduled n t (log ++ es)) (i : Nat) : commands s log i <+: commands t (log ++ es) i := by
  rw [hi.given, ht.given]
  exact (share_mono (selections_mono log es) n i).map _

/-- What another slaver does is not in the record of this one. -/
theorem record_other {e : Option Event} (h : Noted s t j e) (hj : j ≠ i) (log : List Event) :
    received (log ++ e.toList) i = received log i ∧ ran (log ++ e.toList) i = ran log i := by
  cases h with
  | received | ran => simp [hj]
  | quiet => simp

theorem event_of_parent (select : Int) (log : List Event) (i : Nat) :
    received (log ++ (event s (.parent select)).toList) i = received log i ∧
      ran (log ++ (event s (.parent select)).toList) i = ran log i := by
  by_cases hpc : ∃ which, s.parent = .ctrl which
  · obtain ⟨which, hpc⟩ := hpc
    simp [event, hpc]
  · rw [not_exists] at hpc
    simp [event_parent hpc]

/-- A step of the slaver itself, while one of its first `m` commands is not run. -/
theorem Scheduled.remaining_lt (hi : Scheduled n s log) {m : Nat}
    (hm : m ≤ (commands s log i).length) (h : ChildStep n s i t)
    (hran : (ran (log ++ (event s (.child i)).toList) i).length < m) :
    remaining i m (t, log ++ (event s (.child i)).toList) < remaining i m (s, log) := by
  have hlength := hi.length_eq i
  have hnoted := h.noted hi.toSound
  rw [commands, List.length_append] at hm
  unfold remaining
  generalize event s (.child i) = e at hnoted hran ⊢
  cases hnoted with
  | received cmdcode hpc hnext hpipe hpipes =>
    rw [Option.toList_some, ran_received] at hran
    simp only [hpc, ChildPc.running, List.length_nil] at hlength
    simp [hpc, hnext, ChildPc.ahead]
    omega
  | ran cmdcode hpc hnext hpipe =>
    simp [hpc, hnext, ChildPc.ahead] at hran ⊢
    omega
  | quiet hpipe hpc hnext hleft =>
    rw [Option.toList_none, List.append_nil] at hran ⊢
    cases hleft with
    | inl hahead =>
      simp only
      omega
    | inr hempty =>
      -- nothing is left for it
      rw [hpc, List.length_nil] at hlength
      rw [hempty, List.length_nil] at hm
      omega

/-- No step of the others puts a slaver back. -/
theorem Scheduled.remaining_eq (hi : Scheduled n s log) {m : Nat} {a : Action}
    (hm : m ≤ (commands s log i).length) (h : ProcessPool.step n s a = some t) (ha : a ≠ .child i)
    (hran : (ran log i).length < m) :
    remaining i m (t, log ++ (event s a).toList) = remaining i m (s, log) := by
  unfold remaining
  cases a with
  | child j =>
    have hj : j ≠ i := fun he => ha (by rw [he])
    have hstep := stepChild_cases h
    have hevent := record_other (hstep.noted hi.toSound) hj log
    rw [hevent.1, hevent.2, (hstep.child_of_ne hj.symm).1]
  | parent select =>
    have hevent := event_of_parent (s := s) select log i
    rw [hevent.1, hevent.2]
    have hchild : t.child i = s.child i := by
      cases stepParent_cases h with
      | fork j r w hpc =>
        have htyped := hi.inputs
        rw [hpc] at htyped
        rw [hi.commands_nil htyped] at hm
        simp only [List.length_nil] at hm
        omega
      | pipe | start | father | quit | send | skip | close | done | reap => rfl
    rw [hchild]

theorem ChildPc.ahead_le (k : ChildPc) : k.ahead + k.running.length ≤ k.rank := by
  cases k <;> simp [ahead, running, rank]

theorem Scheduled.remaining_le (hi : Scheduled n s log) (i : Nat) :
    remaining i (commands s log i).length (s, log) ≤ s.work i := by
  have hlength := hi.length_eq i
  have hahead := (s.child i).ahead_le
  simp only [remaining, State.work, commands, List.length_append]
  omega

theorem Scheduled.ran_commands (hi : Scheduled n s log) (i : Nat) :
    ran log i <+: (commands s log i).map dispatch := by
  rw [commands, List.map_append, hi.served, List.append_assoc]
  exact List.prefix_append _ _

theorem Scheduled.run (hi : Scheduled n s log) (hn : 0 < n) (i : Nat) {as : List Action}
    {p : State × List Event} (h : ((pool n).logged event).run (s, log) as = some p) :
    Scheduled n p.1 p.2 ∧ commands s log i <+: commands p.1 p.2 i := by
  refine run_invariant (J := fun p => Scheduled n p.1 p.2 ∧
    commands s log i <+: commands p.1 p.2 i) ?_ ⟨hi, List.prefix_refl _⟩ h
  rintro ⟨s', log'⟩ a q ⟨hp, hmono⟩ hs
  obtain ⟨u, hu, rfl⟩ := Option.map_eq_some_iff.mp hs
  have hq := hp.step hn hu
  exact ⟨hq, hmono.trans (hp.commands_mono hq i)⟩

theorem Scheduled.length_le_ran (hi : Scheduled n s log) (hn : 0 < n) (i : Nat)
    {as : List Action} {p : State × List Event}
    (h : ((pool n).logged event).run (s, log) as = some p)
    (hcount : s.work i ≤ as.count (.child i)) :
    (commands s log i).length ≤ (ran p.2 i).length := by
  refine goal_of_countP (remaining i (commands s log i).length) (· == Action.child i)
    (J := fun p => Scheduled n p.1 p.2 ∧ (commands s log i).length ≤ (commands p.1 p.2 i).length)
    (G := fun p => (commands s log i).length ≤ (ran p.2 i).length) ?_ ?_ ?_ ⟨hi, le_refl _⟩ h
    ((hi.remaining_le i).trans hcount)
  · rintro ⟨s', log'⟩ a q ⟨hp, hm⟩ hs
    obtain ⟨u, hu, rfl⟩ := Option.map_eq_some_iff.mp hs
    have hq := hp.step hn hu
    exact ⟨hq, hm.trans (hp.commands_mono hq i).length_le⟩
  · rintro ⟨s', log'⟩ a q ⟨hp, hm⟩ hgoal hs
    obtain ⟨u, hu, rfl⟩ := Option.map_eq_some_iff.mp hs
    have hgrow : (ran log' i).length ≤ (ran (log' ++ (event s' a).toList) i).length := by
      simp [ran]
    have hran : (ran log' i).length < (commands s log i).length :=
      Nat.lt_of_le_of_lt hgrow (Nat.not_le.mp hgoal)
    refine ⟨Nat.not_le.mpr hran, ?_⟩
    by_cases ha : a = .child i
    · subst ha
      have hlt := hp.remaining_lt hm (stepChild_cases hu) (Nat.not_le.mp hgoal)
      simpa using hlt
    · have heq := hp.remaining_eq hm hu ha hran
      simp [heq, ha]
  · rintro ⟨s', log'⟩ - hzero
    unfold remaining at hzero
    simp only at hzero ⊢
    omega

/-- A command takes a slaver two steps of its own, whatever the others do. -/
theorem Scheduled.runs_commands (hi : Scheduled n s log) (hn : 0 < n) (i : Nat) {as : List Action}
    {p : State × List Event} (h : ((pool n).logged event).run (s, log) as = some p)
    (hcount : s.work i ≤ as.count (.child i)) :
    (commands s log i).map dispatch <+: ran p.2 i := by
  obtain ⟨hp, hmono⟩ := hi.run hn i h
  apply List.prefix_of_prefix_length_le (hmono.map dispatch) (hp.ran_commands i)
  rw [List.length_map]
  exact hi.length_le_ran hn i h hcount

/-- A slaver with an empty pipe and nothing in its hands has run all its commands. -/
theorem Scheduled.ran_eq (hi : Scheduled n s log) (hpipe : s.pipe i = [])
    (hrunning : (s.child i).running = []) : ran log i = (commands s log i).map dispatch := by
  rw [commands, hpipe, List.append_nil, hi.served, hrunning, List.append_nil]

/-- A child that does not exist has been given nothing. -/
theorem Scheduled.commands_unborn (hi : Scheduled n s log) (hn : 0 < n)
    (h : s.child i = .unborn) : commands s log i = [] := by
  have hparent := hi.parent
  have htyped := hi.inputs
  have hshape : ∀ {three ws}, Shape s n n three ws → commands s log i = [] := by
    intro three ws hshape
    rw [hi.given, share_of_le hn ((hshape.born i).mp h)]
    rfl
  unfold ParentFits at hparent
  cases hpc : s.parent with
  | pipe | fork | father =>
    rw [hpc] at htyped
    exact hi.commands_nil htyped i
  | ctrl which | done =>
    simp only [hpc] at hparent
    exact hshape hparent
  | close | wait =>
    simp only [hpc] at hparent
    exact hshape hparent.2

/-- A slaver with a command left is not kept from going on. -/
theorem Scheduled.child_steps (hi : Scheduled n s log) (hn : 0 < n)
    (h : (ran log i).length < (commands s log i).length) :
    (ProcessPool.step n s (.child i)).isSome := by
  have hleft : ¬ (s.pipe i = [] ∧ (s.child i).running = []) := by
    intro hidle
    rw [hi.ran_eq hidle.1 hidle.2, List.length_map] at h
    exact Nat.lt_irrefl _ h
  rw [Option.isSome_iff_exists]
  refine child_moves hi.toLaid ?_ ?_ ?_
  · intro hunborn
    rw [hi.commands_unborn hn hunborn] at h
    exact Nat.not_lt_zero _ h
  · intro hexited
    exact hleft ⟨(hi.drained i (by rw [hexited]; rfl)).1, by rw [hexited]; rfl⟩
  · intro hread
    exact .inl fun hpipe => hleft ⟨hpipe, by rw [hread]; rfl⟩

theorem Scheduled.ran_all (hi : Scheduled n s log) (hn : 0 < n) (hdone : s.parent = .done)
    (i : Nat) : ran log i = (commands s log i).map dispatch := by
  by_cases hin : i < n
  · have hexited : s.child i = .exited := hi.reaped i (by rw [hdone]; exact hin)
    exact hi.ran_eq (hi.drained i (by rw [hexited]; rfl)).1 (by rw [hexited]; rfl)
  · have hparent := hi.parent
    simp only [ParentFits, hdone] at hparent
    have hunborn : s.child i = .unborn := (hparent.born i).mpr (Nat.not_lt.mp hin)
    have hnone := hi.commands_unborn hn hunborn
    rw [commands] at hnone
    exact hi.ran_eq (List.append_eq_nil_iff.mp hnone).2 (by rw [hunborn]; rfl)

/-- For any number of slavers, any selections and any interleaving of the parent and its
children. -/
theorem pool_schedules (hn : 0 < n) (h : ((pool n).logged event).Reachable anyStep (s, log)) :
    (∀ k select, (selections log)[k]? = some select →
      (commands s log (k % n))[k / n]? = some (select - 1) ∧
        ∃ task, dispatch (select - 1) = some task ∧ tasks[(select - 1).toNat]? = some task) ∧
      (∀ i j cmdcode, (commands s log i)[j]? = some cmdcode →
        i < n ∧ (selections log)[j * n + i]? = some (cmdcode + 1)) ∧
      (∀ i, ran log i <+: (commands s log i).map dispatch) ∧
      (∀ i < n, ∀ j < n, (commands s log i).length ≤ (commands s log j).length + 1) ∧
      (∀ which, s.parent = .ctrl which → which < s.channels.length ∧
        typed log = selections log ∧ ∀ select, (step n s (.parent select)).isSome) ∧
      (s.parent.quitting = true →
        ∃ last, inMenu last = false ∧ typed log = selections log ++ [last]) ∧
      (∀ i, (ran log i).length < (commands s log i).length → (step n s (.child i)).isSome) ∧
      (∀ i as t log', ((pool n).logged event).run (s, log) as = some (t, log') →
        s.work i ≤ as.count (.child i) → (commands s log i).map dispatch <+: ran log' i) ∧
      (s.parent = .done → ∀ i, ran log i = (commands s log i).map dispatch) := by
  have hi := scheduled hn h
  refine ⟨?_, ?_, hi.ran_commands, ?_, ?_, ?_, fun i => hi.child_steps hn, ?_, hi.ran_all hn⟩
  · intro k select hk
    refine ⟨?_, dispatch_of_inMenu ?_⟩
    · rw [hi.given, List.getElem?_map, share_mod_div hn, hk]
      rfl
    · exact List.mem_takeWhile_imp (List.mem_of_getElem? hk)
  · intro i j cmdcode hj
    rw [hi.given, List.getElem?_map, Option.map_eq_some_iff] at hj
    obtain ⟨select, hselect, rfl⟩ := hj
    by_cases hin : i < n
    · rw [share_getElem? hin] at hselect
      exact ⟨hin, by rw [hselect, Int.sub_add_cancel]⟩
    · rw [share_of_le hn (Nat.not_lt.mp hin)] at hselect
      cases hselect
  · intro i hin j hjn
    rw [hi.given, hi.given, List.length_map, List.length_map]
    exact length_share_le hin hjn _
  · intro which hpc
    have htyped := hi.inputs
    have hshape := hi.parent
    rw [hpc] at htyped
    simp only [ParentFits, hpc] at hshape
    have hlt : which < n := htyped.1 ▸ Nat.mod_lt _ hn
    refine ⟨by simpa [hshape.channels] using hlt, (selections_eq htyped.2).symm, fun select => ?_⟩
    rw [step, stepParent_ctrl hi.toSound hpc hlt, Option.isSome_some]
  · intro hquit
    have htyped := hi.inputs
    cases hpc : s.parent with
    | close | wait | done =>
      rw [hpc] at htyped
      exact htyped
    | pipe | fork | father | ctrl =>
      rw [hpc] at hquit
      cases hquit
  · intro i as t log' hrun hcount
    exact hi.runs_commands hn i hrun hcount

/-- Three selections for two slavers, and the end of the menu. -/
def threeSelectionsRun : List Action :=
  List.replicate 7 (Action.parent 0) ++ List.replicate 4 (Action.child 0) ++
    [Action.parent 3, .parent 1, .parent 4, .child 0, .child 0, .parent 0]

def threeSelectionsEnd : State × List Event :=
  (((pool 2).logged event).run (init, []) threeSelectionsRun).get (by decide)

theorem pool_schedules_three :
    threeSelectionsEnd.2 =
        [.typed 3, .typed 1, .typed 4, .received 0 2, .ran 0 (some .task3), .typed 0] ∧
      (commands threeSelectionsEnd.1 threeSelectionsEnd.2 (2 % 2))[2 / 2]? = some (4 - 1) := by
  refine ⟨by decide, ?_⟩
  have hrun : ((pool 2).logged event).Reachable anyStep threeSelectionsEnd := reachable_of_run _
  exact ((pool_schedules (by decide) hrun).1 2 4 (by decide)).1

end ProcessPool
