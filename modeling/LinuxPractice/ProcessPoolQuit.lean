import LinuxPractice.ProcessPoolFiles

/-!
# ProcessPool: who can write, and why QuitProcess ends

No child behind `InitProcessPool` has a write end. So a slaver stops as soon as
the parent has closed its pipe, its commands are done and the children that
were forked later have cleared their tables.
-/
namespace ProcessPool

open Transition Transition.System Descriptors

variable {n i j : Nat} {s t : State}

/-- Not done yet with the inherited write ends. -/
def ChildPc.clearing : ChildPc → Bool
  | .closeOld _ _ _ | .closeWrite _ _ => true
  | _ => false

/-- Behind the loop of `slaver`. -/
def ChildPc.stopped : ChildPc → Bool
  | .exit | .exited => true
  | _ => false

theorem clearing_of_wr (hi : Laid n s) (h : some (.wr j) ∈ s.childFiles i) :
    (s.child i).clearing = true := by
  have hfits := hi.child i
  have hnone : ∀ {zero three}, get (s.childFiles i) = layout zero three [] → zero ≠ .wr j →
      three ≠ some (.wr j) → False := by
    intro zero three hfiles hzero hthree
    have := (mem_wr hfiles (by simp) hzero hthree).mp h
    cases this
  cases hpc : s.child i with
  | closeOld | closeWrite => rfl
  | unborn | exited =>
    rw [hpc] at hfits
    obtain ⟨fd, hfd⟩ := mem_iff.mp h
    rw [show get (s.childFiles i) fd = none from congrFun hfits fd] at hfd
    cases hfd
  | dup | closeRead =>
    rw [hpc] at hfits
    exact (hnone hfits.2 (by simp) (by simp)).elim
  | read | run | exit =>
    rw [hpc] at hfits
    exact (hnone hfits (by simp) (by simp)).elim

theorem Opened.of_setFiles {e : End} {k : ChildPc} {files : Table End}
    (hfiles : i < n → some e ∈ files → Opened n s e) (h : Opened n ((s.goto i k).setFiles i files) e) :
    Opened n s e := by
  cases h with
  | inl h => exact .inl h
  | inr h =>
    obtain ⟨j, hj, h⟩ := h
    by_cases hji : j = i
    · subst hji
      exact hfiles hj (by simpa using h)
    · exact .inr ⟨j, hj, by simpa [hji] using h⟩

theorem ChildStep.opened {e : End} (hc : ChildStep n s i t) (h : Opened n t e) : Opened n s e := by
  cases hc with
  | closeOld oldfd rest r w hpc =>
    exact h.of_setFiles fun hin he => .inr ⟨i, hin, mem_of_close he⟩
  | closeWrite r w hpc => exact h.of_setFiles fun hin he => .inr ⟨i, hin, mem_of_close he⟩
  | dup r hpc => exact h.of_setFiles fun hin he => .inr ⟨i, hin, mem_of_dup2 he⟩
  | closeRead r hpc => exact h.of_setFiles fun hin he => .inr ⟨i, hin, mem_of_close he⟩
  | exit hpc => exact h.of_setFiles fun _ he => absurd he List.not_mem_nil
  | noOld | command | eof | spin | run => exact h

/-- The only step that opens a write end is the one that makes the pipe. -/
theorem ParentStep.opened (hi : Laid n s) (hp : ParentStep n s t) (h : Opened n t (.wr j)) :
    Opened n s (.wr j) ∨ s.parent = .pipe j := by
  have hparent := hi.parent
  unfold ParentFits at hparent
  cases hp with
  | pipe i hpc hin =>
    simp only [hpc] at hparent
    obtain ⟨-, hshape⟩ := hparent
    cases h with
    | inr h => exact .inl (.inr h)
    | inl h =>
      obtain ⟨hr, hrd⟩ := alloc_read (e := .rd i) hshape.files
      have hmem := (mem_wr (alloc_write hrd).2 (by simp [List.mem_range'_1]; omega) (by simp)
        (by simp)).mp h
      have hold := mem_wr (j := j) hshape.files (by simp [List.mem_range'_1]; omega) (by simp)
        (by simp)
      rw [List.mem_range'_1] at hmem hold
      by_cases hji : j = i
      · exact .inr (by rw [hji, hpc])
      · exact .inl (.inl (hold.mpr (by omega)))
  | fork i r w hpc =>
    exact .inl (Opened.of_setFiles (fun _ he => .inl he) h)
  | father i r w hpc =>
    cases h with
    | inl h => exact .inl (.inl (mem_of_close h))
    | inr h => exact .inl (.inr h)
  | close i channel hpc hch =>
    cases h with
    | inl h => exact .inl (.inl (mem_of_close h))
    | inr h => exact .inl (.inr h)
  | start | quit | send | skip | done | reap => exact .inl h

/-- Nothing is left for a child that has stopped, and nothing can follow. -/
def Drained (n : Nat) (s : State) : Prop :=
  ∀ i, (s.child i).stopped = true → s.pipe i = [] ∧ ¬ Opened n s (.wr i)

theorem reads_own (hi : Laid n s) (hpc : s.child i = .read) :
    get (s.childFiles i) 0 = some (.rd i) := by
  have hfits := hi.child i
  rw [hpc] at hfits
  rw [show get (s.childFiles i) = _ from hfits]
  rfl

theorem Drained.childStep (hl : Laid n s) (hi : Drained n s) (h : ChildStep n s i t) :
    Drained n t := by
  intro k hk
  have hback : s.pipe k = [] ∧ ¬ Opened n s (.wr k) → ¬ Opened n t (.wr k) :=
    fun hs ht => hs.2 (h.opened ht)
  have hold : (s.child k).stopped = true → t.pipe = s.pipe → t.pipe k = [] ∧ ¬ Opened n t (.wr k) := by
    intro hs hpipe
    rw [hpipe]
    exact ⟨(hi k hs).1, hback (hi k hs)⟩
  cases h with
  | eof j hpc hfd hpipe hwr =>
    by_cases hki : k = i
    · subst hki
      rw [reads_own hl hpc] at hfd
      cases hfd
      exact ⟨hpipe, hback ⟨hpipe, hwr⟩⟩
    · exact hold (by simpa [hki] using hk) rfl
  | exit hpc =>
    by_cases hki : k = i
    · subst hki
      exact hold (by simp [hpc, ChildPc.stopped]) rfl
    · exact hold (by simpa [hki] using hk) rfl
  | command j cmdcode rest hpc hfd hpipe =>
    have hki : k ≠ i := by
      intro he
      subst he
      simp [ChildPc.stopped] at hk
    have hs : (s.child k).stopped = true := by simpa [hki] using hk
    refine ⟨?_, hback (hi k hs)⟩
    by_cases hkj : k = j
    · subst hkj
      rw [(hi k hs).1] at hpipe
      cases hpipe
    · simp [hkj, (hi k hs).1]
  | spin hpc hfd => exact hold hk rfl
  | noOld | closeOld | closeWrite | dup | closeRead | run =>
    have hki : k ≠ i := by
      intro he
      subst he
      simp [ChildPc.stopped] at hk
    exact hold (by simpa [hki] using hk) rfl

theorem Drained.parentStep (hl : Laid n s) (hi : Drained n s) (h : ParentStep n s t) :
    Drained n t := by
  intro k hk
  have hopened : (s.child k).stopped = true → ¬ Opened n t (.wr k) := by
    intro hs ht
    cases h.opened hl ht with
    | inl hopen => exact (hi k hs).2 hopen
    | inr hpc =>
      -- the child of this round is not forked yet
      have hparent := hl.parent
      simp only [ParentFits, hpc] at hparent
      rw [(hparent.2.born k).mpr (le_refl k)] at hs
      cases hs
  cases h with
  | fork i r w hpc =>
    have hki : k ≠ i := by
      intro he
      subst he
      simp [ChildPc.stopped] at hk
    have hs : (s.child k).stopped = true := by simpa [hki] using hk
    exact ⟨(hi k hs).1, hopened hs⟩
  | send which j channel cmdcode hpc hch hfd =>
    refine ⟨?_, hopened hk⟩
    have hkj : k ≠ j := by
      intro he
      subst he
      exact (hi k hk).2 (.inl (mem_iff.mpr ⟨_, hfd⟩))
    simp [hkj, (hi k hk).1]
  | pipe | start | father | quit | skip | close | done | reap =>
    exact ⟨(hi k hk).1, hopened hk⟩

/-- How many children `QuitProcess` has waited for. -/
def ParentPc.reaped (n : Nat) : ParentPc → Nat
  | .close i | .wait i => i
  | .done => n
  | _ => 0

def ParentPc.quitting : ParentPc → Bool
  | .close _ | .wait _ | .done => true
  | _ => false

structure Sound (n : Nat) (s : State) : Prop extends Laid n s where
  drained : Drained n s
  reaped : ∀ i < s.parent.reaped n, s.child i = .exited

theorem sound_init : Sound n init where
  toLaid := laid_init
  drained := by
    intro i hi
    cases hi
  reaped := by
    intro i hi
    cases hi

theorem ChildStep.parent_eq (h : ChildStep n s i t) : t.parent = s.parent := by
  cases h <;> rfl

theorem ChildStep.child_of_ne (h : ChildStep n s i t) (hj : j ≠ i) :
    t.child j = s.child j ∧ (Laid n s → t.pipe j = s.pipe j) := by
  cases h with
  | command k cmdcode rest hpc hfd hpipe =>
    refine ⟨by simp [hj], fun hl => ?_⟩
    rw [reads_own hl hpc] at hfd
    cases hfd
    simp [hj]
  | spin => exact ⟨rfl, fun _ => rfl⟩
  | noOld | closeOld | closeWrite | dup | closeRead | eof | run | exit =>
    exact ⟨by simp [hj], fun _ => rfl⟩

theorem ChildStep.not_exited (h : ChildStep n s i t) : s.child i ≠ .exited := by
  cases h <;> simp [*]

theorem Sound.step {a : Action} (hi : Sound n s) (h : step n s a = some t) : Sound n t := by
  cases step_cases h with
  | inr hc =>
    obtain ⟨i, -, hc⟩ := hc
    refine ⟨hi.childStep hc, hi.drained.childStep hi.toLaid hc, ?_⟩
    rw [hc.parent_eq]
    intro j hj
    have hexited := hi.reaped j hj
    have hji : j ≠ i := by
      intro he
      subst he
      exact hc.not_exited hexited
    rw [(hc.child_of_ne hji).1, hexited]
  | inl hp =>
    obtain ⟨_, -, hp⟩ := hp
    refine ⟨hi.parentStep hp, hi.drained.parentStep hi.toLaid hp, ?_⟩
    have hreaped := hi.reaped
    have hparent := hi.parent
    unfold ParentFits at hparent
    cases hp with
    | close i channel hpc hch =>
      rw [hpc] at hreaped
      exact hreaped
    | done i hpc hch =>
      simp only [hpc] at hparent
      rw [hpc] at hreaped
      rw [hparent.2.channel] at hch
      intro j hj
      have hjn : j < n := hj
      split at hch
      · cases hch
      · exact hreaped j (show j < i by omega)
    | reap i channel hpc hch hexit =>
      simp only [hpc] at hparent
      rw [hpc] at hreaped
      rw [hparent.2.channel, if_pos hparent.1] at hch
      cases hch
      intro j hj
      have hji : j < i + 1 := hj
      by_cases he : j = i
      · rw [he]
        exact hexit
      · exact hreaped j (show j < i by omega)
    | pipe | start | fork | father | quit | send | skip =>
      intro j hj
      cases hj

theorem sound (h : (pool n).Reachable anyStep s) : Sound n s :=
  h.invariant sound_init fun _ _ _ hi _ hs => hi.step hs

/-- The steps a child still has to make, apart from its commands. -/
def ChildPc.rank : ChildPc → Nat
  | .closeOld rest _ _ => rest.length + 6
  | .closeWrite _ _ => 5
  | .dup _ => 4
  | .closeRead _ => 3
  | .run _ => 3
  | .read => 2
  | .exit => 1
  | .unborn | .exited => 0

def ParentPc.rank (n : Nat) : ParentPc → Nat
  | .close i => 2 * (n - i) + 1
  | .wait i => 2 * (n - i)
  | _ => 0

/-- What the child `i` still has to do; a command takes two steps. -/
def State.work (s : State) (i : Nat) : Nat := (s.child i).rank + 2 * (s.pipe i).length

def rank (n : Nat) (s : State) : Nat := s.parent.rank n + ∑ i ∈ Finset.range n, s.work i

theorem ChildStep.work_lt (hl : Laid n s) (h : ChildStep n s i t) : t.work i < s.work i := by
  unfold State.work
  cases h with
  | command j cmdcode rest hpc hfd hpipe =>
    rw [reads_own hl hpc] at hfd
    cases hfd
    simp [ChildPc.rank, hpc, hpipe]
    omega
  | spin hpc hfd => exact absurd (reads_own hl hpc) (hfd i)
  | noOld r w hpc => simp [ChildPc.rank, hpc]
  | closeOld oldfd rest r w hpc => simp [ChildPc.rank, hpc]
  | closeWrite r w hpc => simp [ChildPc.rank, hpc]
  | dup r hpc => simp [ChildPc.rank, hpc]
  | closeRead r hpc => simp [ChildPc.rank, hpc]
  | eof j hpc hfd hpipe hwr => simp [ChildPc.rank, hpc]
  | run cmdcode hpc => simp [ChildPc.rank, hpc]
  | exit hpc => simp [ChildPc.rank, hpc]

theorem lt_of_born (hl : Laid n s) (h : s.child i ≠ .unborn) : i < n := by
  have hparent := hl.parent
  by_contra hin
  have hunborn : ∀ {made born three ws}, Shape s made born three ws → born ≤ n → False :=
    fun hshape hle => h ((hshape.born i).mpr (by omega))
  unfold ParentFits at hparent
  split at hparent
  · exact hunborn hparent.2 hparent.1
  · exact hunborn hparent.2.2 (by omega)
  · exact hunborn hparent.2.2 (by omega)
  · exact hunborn hparent (le_refl n)
  · exact hunborn hparent.2 (le_refl n)
  · exact hunborn hparent.2 (le_refl n)
  · exact hunborn hparent (le_refl n)

theorem ChildStep.rank_lt (hl : Laid n s) (h : ChildStep n s i t) : rank n t < rank n s := by
  have hborn : s.child i ≠ .unborn := by
    cases h <;> simp [*]
  have hsum : ∑ j ∈ Finset.range n, t.work j < ∑ j ∈ Finset.range n, s.work j := by
    apply Finset.sum_lt_sum
    · intro j _
      by_cases hj : j = i
      · rw [hj]
        exact (h.work_lt hl).le
      · obtain ⟨hchild, hpipe⟩ := h.child_of_ne hj
        rw [State.work, State.work, hchild, hpipe hl]
    · exact ⟨i, Finset.mem_range.mpr (lt_of_born hl hborn), h.work_lt hl⟩
  rw [rank, rank, h.parent_eq]
  omega

theorem rank_lt {a : Action} (hi : Sound n s) (hq : s.parent.quitting = true)
    (h : step n s a = some t) : t.parent.quitting = true ∧ rank n t < rank n s := by
  cases step_cases h with
  | inr hc =>
    obtain ⟨i, -, hc⟩ := hc
    rw [hc.parent_eq]
    exact ⟨hq, hc.rank_lt hi.toLaid⟩
  | inl hp =>
    obtain ⟨_, -, hp⟩ := hp
    have hparent := hi.parent
    unfold ParentFits at hparent
    cases hp with
    | close i channel hpc hch =>
      refine ⟨rfl, ?_⟩
      simp [rank, ParentPc.rank, hpc, State.work]
    | done i hpc hch =>
      refine ⟨rfl, ?_⟩
      simp [rank, ParentPc.rank, hpc, State.work]
    | reap i channel hpc hch hexit =>
      simp only [hpc] at hparent
      refine ⟨rfl, ?_⟩
      simp [rank, ParentPc.rank, hpc, State.work]
      omega
    | pipe i hpc | start i hpc | fork i r w hpc | father i r w hpc | quit which hpc
    | skip which hpc =>
      rw [hpc] at hq
      cases hq
    | send which j channel cmdcode hpc hch hfd =>
      rw [hpc] at hq
      cases hq

/-- A child that is alive goes on, unless it waits for a command that can still come. -/
theorem child_moves (hl : Laid n s) (hborn : s.child i ≠ .unborn) (halive : s.child i ≠ .exited)
    (hread : s.child i = .read → s.pipe i ≠ [] ∨ ¬ Opened n s (.wr i)) :
    ∃ t, step n s (.child i) = some t := by
  simp only [step, stepChild]
  cases hpc : s.child i with
  | unborn => exact absurd hpc hborn
  | exited => exact absurd hpc halive
  | closeOld oldfds r w => cases oldfds <;> exact ⟨_, rfl⟩
  | closeWrite | dup | closeRead | run | exit => exact ⟨_, rfl⟩
  | read =>
    simp only [reads_own hl hpc]
    cases hpipe : s.pipe i with
    | cons cmdcode rest => exact ⟨_, rfl⟩
    | nil =>
      cases hread hpc with
      | inl h => exact absurd hpipe h
      | inr h => exact ⟨_, if_neg h⟩

/-- The child that `QuitProcess` waits for has ended, or some child can go on. -/
theorem wait_moves (hl : Laid n s) (hpc : s.parent = .wait i) :
    ∃ a t, step n s a = some t := by
  have hparent := hl.parent
  simp only [ParentFits, hpc] at hparent
  obtain ⟨hin, hshape⟩ := hparent
  have hborn : s.child i ≠ .unborn := by
    intro he
    have := (hshape.born i).mp he
    omega
  by_cases hexit : s.child i = .exited
  · refine ⟨.parent 0, ?_⟩
    simp [step, stepParent, hpc, hshape.channel, hin, hexit]
  · by_cases hopen : Opened n s (.wr i)
    · -- the parent has closed it, so a child forked later still has to
      cases hopen with
      | inl hfile =>
        have hmem := (mem_wr hshape.files (by simp [List.mem_range'_1]; omega) (by simp)
          (by simp)).mp hfile
        rw [List.mem_range'_1] at hmem
        omega
      | inr hfile =>
        obtain ⟨j, -, hfile⟩ := hfile
        have hclearing := clearing_of_wr hl hfile
        refine ⟨.child j, child_moves hl ?_ ?_ ?_⟩
        · intro he
          simp [he, ChildPc.clearing] at hclearing
        · intro he
          simp [he, ChildPc.clearing] at hclearing
        · intro he
          simp [he, ChildPc.clearing] at hclearing
    · exact ⟨.child i, child_moves hl hborn hexit fun _ => .inr hopen⟩

theorem quit_moves (hl : Laid n s) (hq : s.parent.quitting = true) (hdone : s.parent ≠ .done) :
    ∃ a t, step n s a = some t := by
  cases hpc : s.parent with
  | close i =>
    refine ⟨.parent 0, ?_⟩
    cases hch : s.channels[i]? <;> simp [step, stepParent, hpc, hch]
  | wait i => exact wait_moves hl hpc
  | done => exact absurd hpc hdone
  | pipe | fork | father | ctrl =>
    rw [hpc] at hq
    cases hq

inductive Proc where
  | parent : Proc
  | child : Nat → Proc
  deriving DecidableEq, Repr

def State.filesOf (s : State) : Proc → Table End
  | .parent => s.files
  | .child i => s.childFiles i

/-- Still in its part of `InitProcessPool`. -/
def State.inside (s : State) : Proc → Bool
  | .parent =>
    match s.parent with
    | .pipe _ | .fork _ _ _ | .father _ _ _ => true
    | _ => false
  | .child i =>
    match s.child i with
    | .closeOld _ _ _ | .closeWrite _ _ | .dup _ | .closeRead _ => true
    | _ => false

theorem inside_of_clearing (h : (s.child i).clearing = true) : s.inside (.child i) = true := by
  cases hpc : s.child i <;> simp [hpc, ChildPc.clearing] at h <;> simp [State.inside, hpc]

/-- A slaver reads its own pipe as descriptor 0 and has no other read end. -/
theorem rd_child (hl : Laid n s) (hin : s.inside (.child j) = false) (hborn : s.child j ≠ .unborn)
    (halive : s.child j ≠ .exited) (i fd : Nat) :
    get (s.childFiles j) fd = some (.rd i) ↔ j = i ∧ fd = 0 := by
  have hfits := hl.child j
  have hlayout : get (s.childFiles j) = layout (.rd j) none [] := by
    cases hpc : s.child j with
    | unborn => exact absurd hpc hborn
    | exited => exact absurd hpc halive
    | closeOld | closeWrite | dup | closeRead => simp [State.inside, hpc] at hin
    | read | run | exit =>
      rw [hpc] at hfits
      exact hfits
  rw [hlayout, layout]
  by_cases hfd : fd = 0
  · simp [hfd]
  · by_cases hstd : fd < 3 <;> simp [hfd, hstd]

theorem owners (hi : Sound n s) {which : Nat} (hpc : s.parent = .ctrl which) (hin : i < n) {q : Proc}
    (hq : s.inside q = false) :
    (some (.wr i) ∈ s.filesOf q ↔ q = .parent) ∧
      ∀ fd, get (s.filesOf q) fd = some (.rd i) ↔ q = .child i ∧ fd = 0 := by
  have hshape := hi.parent
  simp only [ParentFits, hpc] at hshape
  have hwr : ∀ {j}, some (.wr j) ∈ s.files ↔ j < n := by
    intro j
    rw [mem_wr hshape.files (by simp [List.mem_range'_1]; omega) (by simp) (by simp),
      List.mem_range'_1]
    omega
  cases q with
  | parent =>
    refine ⟨by simpa [State.filesOf] using hwr.mpr hin, fun fd => ?_⟩
    simp only [State.filesOf, hshape.files, layout, reduceCtorEq, false_and, iff_false]
    split
    · simp
    · split
      · simp
      · split
        · simp
        · split <;> simp
  | child j =>
    have hnowr : some (.wr i) ∉ s.childFiles j := by
      intro h
      rw [inside_of_clearing (clearing_of_wr hi.toLaid h)] at hq
      cases hq
    refine ⟨by simpa [State.filesOf] using hnowr, fun fd => ?_⟩
    by_cases hborn : s.child j = .unborn
    · have hfits := hi.child j
      rw [hborn] at hfits
      have hji : j ≠ i := by
        have := (hshape.born j).mp hborn
        omega
      rw [State.filesOf, show get (s.childFiles j) = _ from hfits]
      simp [hji]
    · have halive : s.child j ≠ .exited := by
        intro he
        have hstopped : (s.child j).stopped = true := by rw [he]; rfl
        exact (hi.drained j hstopped).2 (.inl (hwr.mpr (lt_of_born hi.toLaid hborn)))
      simpa [State.filesOf] using rd_child hi.toLaid hq hborn halive i fd

/-- For any number of processes and any interleaving of the parent and its children. Who holds
which end is said of each process that has left `InitProcessPool`, not of a child still in it. -/
theorem pool_shuts_down (h : (pool n).Reachable anyStep s) :
    (∀ which, s.parent = .ctrl which → ∀ i < n, ∀ q, s.inside q = false →
      (some (.wr i) ∈ s.filesOf q ↔ q = .parent) ∧
        ∀ fd, get (s.filesOf q) fd = some (.rd i) ↔ q = .child i ∧ fd = 0) ∧
      (∀ i, s.inside (.child i) = true → ∃ t, step n s (.child i) = some t) ∧
      (∀ i, (s.child i).stopped = true → s.pipe i = [] ∧ ¬ Opened n s (.wr i)) ∧
      (s.parent.quitting = true → (s.parent ≠ .done → ∃ a t, step n s a = some t) ∧
        ∀ as t, (pool n).run s as = some t → as.length ≤ rank n s) ∧
      (s.parent = .done → ∀ i < n, s.child i = .exited) := by
  have hi := sound h
  refine ⟨fun which hpc i hin q hq => owners hi hpc hin hq, ?_, hi.drained, ?_, ?_⟩
  · intro i hin
    apply child_moves hi.toLaid
    · intro he
      simp [State.inside, he] at hin
    · intro he
      simp [State.inside, he] at hin
    · intro he
      simp [State.inside, he] at hin
  · intro hq
    refine ⟨quit_moves hi.toLaid hq, ?_⟩
    intro as t hrun
    have hlower : ∀ s a t, Sound n s ∧ s.parent.quitting = true → (pool n).step s a = some t →
        (Sound n t ∧ t.parent.quitting = true) ∧ rank n t < rank n s := by
      intro s a t hs hstep
      obtain ⟨hquit, hlt⟩ := rank_lt hs.1 hs.2 hstep
      exact ⟨⟨hs.1.step hstep, hquit⟩, hlt⟩
    have hbound := run_length_le hlower ⟨hi, hq⟩ hrun
    omega
  · intro hpc
    have hreaped := hi.reaped
    rw [hpc] at hreaped
    exact hreaped

/-- Two slavers are set up and the first one gets a command. -/
def twoSlaversRun : List Action :=
  List.replicate 7 (Action.parent 0) ++ List.replicate 4 (Action.child 0) ++
    List.replicate 5 (Action.child 1) ++ [Action.parent 3]

def twoSlaversEnd : State := ((pool 2).run init twoSlaversRun).get (by decide)

theorem pool_shuts_down_two : twoSlaversEnd.pipe 0 = [2] ∧
    ∀ q, twoSlaversEnd.inside q = false →
      (some (.wr 0) ∈ twoSlaversEnd.filesOf q ↔ q = .parent) := by
  refine ⟨by decide, ?_⟩
  have hrun : (pool 2).Reachable anyStep twoSlaversEnd := reachable_of_run _
  intro q hq
  exact ((pool_shuts_down hrun).1 1 (by decide) 0 (by decide) q hq).1

end ProcessPool
