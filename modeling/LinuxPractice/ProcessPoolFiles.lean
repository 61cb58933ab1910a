import LinuxPractice.ProcessPool

/-!
# ProcessPool: which descriptors are open where

In every process descriptor 3 is a read end or free, the write end of pipe `j`
is descriptor `4 + j`, and nothing else is open behind the standard ones.
-/
namespace ProcessPool

open Transition Transition.System Descriptors

/-- `zero` under 0, `three` under 3, and the write ends under the numbers `ws`. -/
def layout (zero : End) (three : Option End) (ws : List Nat) (fd : Nat) : Option End :=
  if fd = 0 then some zero
  else if fd < 3 then some .std
  else if fd = 3 then three
  else if fd ∈ ws then some (.wr (fd - 4))
  else none

section Layout

variable {files : Table End} {zero e : End} {three : Option End} {ws : List Nat} {w : Nat}

theorem close_read (h : get files = layout zero three ws) :
    get (close files 3) = layout zero none ws := by
  funext fd
  rw [get_close, h]
  by_cases hfd : fd = 3
  · simp [hfd, layout]
  · simp [hfd, layout]

theorem close_write (h : get files = layout zero three (w :: ws)) (hw : 3 < w) (hws : w ∉ ws) :
    get (close files w) = layout zero three ws := by
  funext fd
  rw [get_close, h]
  by_cases hfd : fd = w
  · subst hfd
    simp [layout, hws, show fd ≠ 0 by omega, show ¬ fd < 3 by omega, show fd ≠ 3 by omega]
  · simp [layout, hfd]

theorem dup2_read (h : get files = layout zero (some e) ws) :
    get (dup2 files 3 0) = layout e (some e) ws := by
  have hthree : get files 3 = some e := by
    rw [h]
    rfl
  funext fd
  rw [get_dup2 hthree, h]
  by_cases hfd : fd = 0
  · simp [hfd, layout]
  · simp [hfd, layout]

theorem alloc_read (h : get files = layout zero none ws) :
    (alloc files e).2 = 3 ∧ get (alloc files e).1 = layout zero (some e) ws := by
  have halloc := get_alloc (t := files) (k := 3) (by rw [h]; rfl) ?_ e
  · refine ⟨halloc.1, ?_⟩
    funext fd
    rw [halloc.2, h]
    by_cases hfd : fd = 3
    · simp [hfd, layout]
    · simp [hfd, layout]
  · intro fd hfd
    by_cases hzero : fd = 0
    · simp [h, layout, hzero]
    · simp [h, layout, hzero, hfd]

theorem alloc_write {i : Nat} (h : get files = layout zero (some e) (List.range' 4 i)) :
    (alloc files (.wr i)).2 = 4 + i ∧
      get (alloc files (.wr i)).1 = layout zero (some e) (List.range' 4 (i + 1)) := by
  have hfar : ¬ 4 + i < 3 ∧ 4 + i ≠ 3 := by omega
  have halloc := get_alloc (t := files) (k := 4 + i) ?_ ?_ (.wr i)
  · refine ⟨halloc.1, ?_⟩
    funext fd
    rw [halloc.2, h]
    simp only [layout, List.mem_range'_1]
    by_cases hfd : fd = 4 + i
    · subst hfd
      simp [hfar]
    · have hmem : (4 ≤ fd ∧ fd < 4 + i) ↔ 4 ≤ fd ∧ fd < 4 + (i + 1) := by omega
      rw [if_neg hfd, if_congr hmem rfl rfl]
  · simp [h, layout, hfar]
  · intro fd hfd
    simp only [h, layout, List.mem_range'_1]
    split
    · simp
    · split
      · simp
      · split
        · simp
        · rw [if_pos (by omega)]
          simp

/-- The write ends of a table are under their numbers. -/
theorem mem_wr (h : get files = layout zero three ws) (hws : ∀ fd ∈ ws, 3 < fd) {j : Nat}
    (hzero : zero ≠ .wr j) (hthree : three ≠ some (.wr j)) :
    some (.wr j) ∈ files ↔ 4 + j ∈ ws := by
  rw [mem_iff, h]
  constructor
  · intro hfd
    obtain ⟨fd, hfd⟩ := hfd
    simp only [layout] at hfd
    split at hfd
    · exact absurd (Option.some.inj hfd) hzero
    · split at hfd
      · cases hfd
      · split at hfd
        · exact absurd hfd hthree
        · split at hfd
          · rename_i hmem
            have hj : fd - 4 = j := by simpa using hfd
            have := hws fd hmem
            rwa [show 4 + j = fd by omega]
          · cases hfd
  · intro hmem
    refine ⟨4 + j, ?_⟩
    have hne : 4 + j ≠ 0 ∧ ¬ 4 + j < 3 ∧ 4 + j ≠ 3 := by omega
    simp [layout, hne, hmem]

end Layout

variable {n i : Nat} {s t : State}

/-- What the child `i` has open at a place, and the numbers it has noted. -/
def ChildPc.Fits (i : Nat) (files : Table End) : ChildPc → Prop
  | .unborn | .exited => get files = fun _ => none
  | .closeOld rest r w =>
    (r = 3 ∧ w = 4 + i) ∧ ((rest ++ [4 + i]).Nodup ∧ ∀ fd ∈ rest, 3 < fd) ∧
      get files = layout .std (some (.rd i)) (rest ++ [4 + i])
  | .closeWrite r w => (r = 3 ∧ w = 4 + i) ∧ get files = layout .std (some (.rd i)) [4 + i]
  | .dup r => r = 3 ∧ get files = layout .std (some (.rd i)) []
  | .closeRead r => r = 3 ∧ get files = layout (.rd i) (some (.rd i)) []
  | .read | .run _ | .exit => get files = layout (.rd i) none []

/-- `made` channels are recorded, `born` children forked, and the parent has `three` and the
write ends `ws` open. -/
structure Shape (s : State) (made born : Nat) (three : Option End) (ws : List Nat) : Prop where
  channels : s.channels = (List.range made).map fun j => ⟨4 + j, j⟩
  oldfds : s.oldfds = List.range' 4 made
  born : ∀ i, s.child i = .unborn ↔ born ≤ i
  files : get s.files = layout .std three ws

/-- The parent at its place. -/
def ParentFits (n : Nat) (s : State) : Prop :=
  match s.parent with
  | .pipe i => i ≤ n ∧ Shape s i i none (List.range' 4 i)
  | .fork i r w =>
    i < n ∧ (r = 3 ∧ w = 4 + i) ∧ Shape s i i (some (.rd i)) (List.range' 4 (i + 1))
  | .father i r w =>
    i < n ∧ (r = 3 ∧ w = 4 + i) ∧ Shape s i (i + 1) (some (.rd i)) (List.range' 4 (i + 1))
  | .ctrl _ => Shape s n n none (List.range' 4 n)
  | .close i => i ≤ n ∧ Shape s n n none (List.range' (4 + i) (n - i))
  | .wait i => i < n ∧ Shape s n n none (List.range' (4 + i + 1) (n - i - 1))
  | .done => Shape s n n none []

structure Laid (n : Nat) (s : State) : Prop where
  parent : ParentFits n s
  child : ∀ i, (s.child i).Fits i (s.childFiles i)

theorem laid_init : Laid n init where
  parent := by
    refine ⟨Nat.zero_le n, rfl, rfl, fun i => ⟨fun _ => Nat.zero_le i, fun _ => rfl⟩, ?_⟩
    funext fd
    match fd with
    | 0 | 1 | 2 | 3 => rfl
    | fd + 4 => simp [init, layout, Descriptors.get]
  child := by
    intro i
    funext fd
    simp [init, Descriptors.get]

theorem Shape.channel {made born : Nat} {three : Option End} {ws : List Nat}
    (h : Shape s made born three ws) (i : Nat) :
    s.channels[i]? = if i < made then some ⟨4 + i, i⟩ else none := by
  rw [h.channels, List.getElem?_map]
  split
  · rw [List.getElem?_range ‹_›]
    rfl
  · rw [List.getElem?_eq_none (by simpa using ‹¬ i < made›)]
    rfl

theorem Shape.congr {made born : Nat} {three : Option End} {ws : List Nat}
    (h : Shape s made born three ws) (hfiles : t.files = s.files)
    (hchannels : t.channels = s.channels) (holdfds : t.oldfds = s.oldfds)
    (hborn : ∀ i, t.child i = .unborn ↔ s.child i = .unborn) : Shape t made born three ws where
  channels := hchannels ▸ h.channels
  oldfds := holdfds ▸ h.oldfds
  born := fun i => (hborn i).trans (h.born i)
  files := hfiles ▸ h.files

/-- The parent has moved on, and nothing it knows has changed. -/
theorem Shape.moved {made born : Nat} {three : Option End} {ws : List Nat}
    (h : Shape s made born three ws) (pipe : Nat → List Int) (pc : ParentPc) :
    Shape { s with pipe := pipe, parent := pc } made born three ws :=
  h.congr rfl rfl rfl fun _ => Iff.rfl

/-- What the parent knows does not depend on how far the children are. -/
theorem ParentFits.congr (h : ParentFits n s) (hparent : t.parent = s.parent)
    (hfiles : t.files = s.files) (hchannels : t.channels = s.channels)
    (holdfds : t.oldfds = s.oldfds) (hborn : ∀ i, t.child i = .unborn ↔ s.child i = .unborn) :
    ParentFits n t := by
  have hshape : ∀ {made born three ws}, Shape s made born three ws → Shape t made born three ws :=
    fun h => h.congr hfiles hchannels holdfds hborn
  unfold ParentFits at h ⊢
  rw [hparent]
  cases hpc : s.parent with
  | pipe i | close i | wait i =>
    simp only [hpc] at h
    exact ⟨h.1, hshape h.2⟩
  | fork i r w | father i r w =>
    simp only [hpc] at h
    exact ⟨h.1, h.2.1, hshape h.2.2⟩
  | ctrl which | done =>
    simp only [hpc] at h
    exact hshape h

/-- A child that is alive moves to a place where it is alive. -/
theorem Laid.move (hi : Laid n s) {k : ChildPc} {files : Table End} (hs : s.child i ≠ .unborn)
    (hk : k ≠ .unborn) (hfits : k.Fits i files) : Laid n ((s.goto i k).setFiles i files) where
  parent := by
    refine hi.parent.congr (t := (s.goto i k).setFiles i files) rfl rfl rfl rfl ?_
    intro j
    by_cases hj : j = i
    · subst hj
      simp [hs, hk]
    · simp [hj]
  child := by
    intro j
    by_cases hj : j = i
    · subst hj
      simpa using hfits
    · simpa [hj] using hi.child j

theorem Laid.goto (hi : Laid n s) {k : ChildPc} (hs : s.child i ≠ .unborn) (hk : k ≠ .unborn)
    (hfits : k.Fits i (s.childFiles i)) : Laid n (s.goto i k) := by
  have hsame : (s.goto i k).setFiles i (s.childFiles i) = s.goto i k := by
    simp [State.setFiles, State.goto]
  rw [← hsame]
  exact hi.move hs hk hfits

theorem Laid.childStep (hi : Laid n s) (h : ChildStep n s i t) : Laid n t := by
  have hchild := hi.child i
  cases h with
  | noOld r w hpc =>
    rw [hpc] at hchild
    exact hi.goto (by simp [hpc]) (by simp) ⟨hchild.1, hchild.2.2⟩
  | closeOld oldfd rest r w hpc =>
    rw [hpc] at hchild
    obtain ⟨hnum, ⟨hnodup, hfar⟩, hfiles⟩ := hchild
    have hrest := List.nodup_cons.mp hnodup
    refine hi.move (by simp [hpc]) (by simp) ⟨hnum, ⟨hrest.2, fun fd hfd => hfar fd ?_⟩, ?_⟩
    · exact List.mem_cons_of_mem _ hfd
    · exact close_write hfiles (hfar _ List.mem_cons_self) hrest.1
  | closeWrite r w hpc =>
    rw [hpc] at hchild
    obtain ⟨⟨hr, rfl⟩, hfiles⟩ := hchild
    exact hi.move (by simp [hpc]) (by simp) ⟨hr, close_write hfiles (by omega) (by simp)⟩
  | dup r hpc =>
    rw [hpc] at hchild
    obtain ⟨rfl, hfiles⟩ := hchild
    exact hi.move (by simp [hpc]) (by simp) ⟨rfl, dup2_read hfiles⟩
  | closeRead r hpc =>
    rw [hpc] at hchild
    obtain ⟨rfl, hfiles⟩ := hchild
    exact hi.move (by simp [hpc]) (by simp) (close_read hfiles)
  | command j cmdcode rest hpc hfd hpipe =>
    rw [hpc] at hchild
    have hgoto := hi.goto (k := .run cmdcode) (by simp [hpc]) (by simp) hchild
    exact ⟨hgoto.parent.congr rfl rfl rfl rfl fun _ => Iff.rfl, hgoto.child⟩
  | eof j hpc hfd hpipe hwr =>
    rw [hpc] at hchild
    exact hi.goto (by simp [hpc]) (by simp) hchild
  | spin hpc hfd => exact hi
  | run cmdcode hpc =>
    rw [hpc] at hchild
    exact hi.goto (by simp [hpc]) (by simp) hchild
  | exit hpc =>
    refine hi.move (by simp [hpc]) (by simp) ?_
    funext fd
    simp [Descriptors.get]

/-- A child starts with the table of its parent, and with the old write ends noted. -/
theorem Shape.newborn_fits {r w : Nat}
    (h : Shape s i i (some (.rd i)) (List.range' 4 (i + 1))) (hnum : r = 3 ∧ w = 4 + i) :
    (ChildPc.closeOld s.oldfds r w).Fits i s.files := by
  have hfiles := h.files
  rw [List.range'_1_concat] at hfiles
  simp only [ChildPc.Fits, h.oldfds]
  refine ⟨hnum, ⟨?_, ?_⟩, hfiles⟩
  · rw [← List.range'_1_concat]
    exact List.nodup_range'
  · intro fd hfd
    have := List.mem_range'_1.mp hfd
    omega

theorem Laid.fork (hi : Laid n s) {r w : Nat} (hin : i < n) (hnum : r = 3 ∧ w = 4 + i)
    (h : Shape s i i (some (.rd i)) (List.range' 4 (i + 1))) :
    Laid n { (s.goto i (.closeOld s.oldfds r w)).setFiles i s.files with
      parent := .father i r w } where
  parent := by
    refine ⟨hin, hnum, h.channels, h.oldfds, ?_, h.files⟩
    intro j
    have hborn := h.born j
    by_cases hj : j = i
    · subst hj
      simp
    · simp only [State.setFiles_child, State.goto_child, Function.update_of_ne hj, hborn]
      omega
  child := by
    intro j
    by_cases hj : j = i
    · subst hj
      simpa using h.newborn_fits hnum
    · simpa [hj] using hi.child j

theorem Laid.parentStep (hi : Laid n s) (h : ParentStep n s t) : Laid n t := by
  have hparent := hi.parent
  unfold ParentFits at hparent
  cases h with
  | pipe i hpc hin =>
    simp only [hpc] at hparent
    obtain ⟨-, hshape⟩ := hparent
    obtain ⟨hr, hrd⟩ := alloc_read (e := .rd i) hshape.files
    obtain ⟨hw, hwr⟩ := alloc_write hrd
    exact ⟨⟨hin, ⟨hr, hw⟩, ⟨hshape.channels, hshape.oldfds, hshape.born, hwr⟩⟩, hi.child⟩
  | start i hpc hin =>
    simp only [hpc] at hparent
    obtain ⟨hle, hshape⟩ := hparent
    obtain rfl : i = n := by omega
    exact ⟨hshape.moved _ _, hi.child⟩
  | fork i r w hpc =>
    simp only [hpc] at hparent
    obtain ⟨hin, hnum, hshape⟩ := hparent
    exact hi.fork hin hnum hshape
  | father i r w hpc =>
    simp only [hpc] at hparent
    obtain ⟨hin, ⟨rfl, rfl⟩, hshape⟩ := hparent
    refine ⟨⟨hin, ⟨?_, ?_, hshape.born, close_read hshape.files⟩⟩, hi.child⟩
    · simp [hshape.channels, List.range_succ]
    · simp [hshape.oldfds, List.range'_1_concat]
  | quit which hpc =>
    simp only [hpc] at hparent
    exact ⟨⟨Nat.zero_le n, hparent.moved _ _⟩, hi.child⟩
  | send which j channel cmdcode hpc hch hfd =>
    simp only [hpc] at hparent
    exact ⟨hparent.moved _ _, hi.child⟩
  | skip which hpc =>
    simp only [hpc] at hparent
    exact ⟨hparent.moved _ _, hi.child⟩
  | close i channel hpc hch =>
    simp only [hpc] at hparent
    obtain ⟨hle, hshape⟩ := hparent
    rw [hshape.channel] at hch
    split at hch <;> cases hch
    have hfiles := hshape.files
    rw [show n - i = (n - i - 1) + 1 by omega, List.range'_succ] at hfiles
    refine ⟨⟨‹i < n›, ⟨hshape.channels, hshape.oldfds, hshape.born, ?_⟩⟩, hi.child⟩
    exact close_write hfiles (show 3 < 4 + i by omega) (by simp [List.mem_range'_1])
  | done i hpc hch =>
    simp only [hpc] at hparent
    obtain ⟨hle, hshape⟩ := hparent
    rw [hshape.channel] at hch
    have hend : n - i = 0 := by
      split at hch
      · cases hch
      · omega
    rw [hend] at hshape
    exact ⟨hshape.moved _ _, hi.child⟩
  | reap i channel hpc hch hexit =>
    simp only [hpc] at hparent
    obtain ⟨hin, hshape⟩ := hparent
    exact ⟨⟨hin, hshape.moved _ _⟩, hi.child⟩

end ProcessPool
