import LinuxPractice.EpollServer

/-!
# EpollServer: no event meets another connection

The descriptors of the events that are still to come stay open through the
events before them, so no accepted connection can take their numbers.
-/
namespace EpollServer

open Transition Transition.System Passes Sockets

variable {s t u : State} {listensock sock fd : Int} {e : Event × Outcome}
  {revs before after : List (Event × Outcome)} {calls : List Call}

/-- The epoll instance has the listening descriptor and the open connections. -/
structure Sound (listensock : Int) (s : State) : Prop where
  registered : ∀ fd, fd ∈ s.registered ↔
    fd = listensock ∨ ∃ id, s.kernel.files fd = some (.conn id)
  listening : s.kernel.files listensock = some .listening
  zero : ∃ file, s.kernel.files 0 = some file ∧ ∀ id, file ≠ .conn id
  numbered : s.kernel.Numbered

theorem sound_start (inherited : Descriptors.Table Unit) :
    Sound (boot inherited).listensock (start inherited) := by
  have hfresh := (boot inherited).fresh
  constructor
  · intro fd
    simp [start, epollerUpdate, Boot.kernel, hfresh]
  · exact (boot inherited).listening
  · obtain ⟨file, hfile⟩ := Option.ne_none_iff_exists'.mp (boot_zero inherited)
    refine ⟨file, hfile, ?_⟩
    intro id hid
    exact hfresh 0 id (hid ▸ hfile)
  · exact (boot inherited).numbered

theorem Sound.registered_open (h : Sound listensock s) (hfd : fd ∈ s.registered) :
    s.kernel.files fd ≠ none := by
  cases (h.registered fd).mp hfd with
  | inl he => simp [he, h.listening]
  | inr hconn =>
    obtain ⟨id, hid⟩ := hconn
    simp [hid]

theorem Sound.conn_of_ne (h : Sound listensock s) (hfd : fd ∈ s.registered)
    (hne : fd ≠ listensock) : ∃ id, s.kernel.files fd = some (.conn id) :=
  ((h.registered fd).mp hfd).resolve_left hne

def State.enter (s : State) (sock : Int) : State where
  kernel := ⟨Function.update s.kernel.files sock (some (.conn s.kernel.accepted)),
    s.kernel.accepted + 1⟩
  registered := insert sock s.registered

def State.leave (s : State) (fd : Int) : State where
  kernel := s.kernel.close fd
  registered := s.registered.erase fd

inductive Visits (listensock : Int) (s : State) (rev : Event) : State → List Call → Prop
  | idle (calls : List Call) (hcalls : ∀ fd, .recver fd ∉ calls) : Visits listensock s rev s calls
  | entered (sock : Int) (hnew : s.kernel.files sock = none) :
      Visits listensock s rev (s.enter sock) [.accepter]
  | kept (hfd : rev.fd ≠ listensock) : Visits listensock s rev s [.recver rev.fd]
  | left (hfd : rev.fd ≠ listensock) : Visits listensock s rev (s.leave rev.fd) [.recver rev.fd]

/-- Descriptor 0 is taken, so every descriptor that `accept` returns is positive. -/
theorem accepter_cases (hzero : s.kernel.files 0 ≠ none) (h : accepter s sock = some t) :
    t = s ∨ s.kernel.files sock = none ∧ t = s.enter sock := by
  obtain ⟨kernel, hkernel, h⟩ := Option.bind_eq_some_iff.mp h
  obtain ⟨hneg, rfl⟩ | ⟨hsock, hnew, rfl⟩ := Kernel.accept_cases hkernel
  · rw [if_neg (by omega)] at h
    cases h
    exact .inl rfl
  · have hpos : 0 < sock := by
      apply lt_of_le_of_ne hsock
      intro he
      exact hzero (he ▸ hnew)
    rw [if_pos hpos] at h
    cases h
    exact .inr ⟨hnew, rfl⟩

theorem visit_cases (hzero : s.kernel.files 0 ≠ none)
    (h : visit listensock s e = some (t, calls)) : Visits listensock s e.1 t calls := by
  simp only [visit] at h
  split at h
  · split at h
    · obtain ⟨u, hu, h⟩ := Option.map_eq_some_iff.mp h
      cases h
      obtain rfl | ⟨hnew, rfl⟩ := accepter_cases hzero hu
      · exact .idle _ (by simp)
      · exact .entered _ hnew
    · cases h
      unfold recver
      split
      · exact .kept ‹_›
      · exact .left ‹_›
  · rw [ite_self] at h
    cases h
    exact .idle _ (by simp)

theorem Sound.zero_ne (h : Sound listensock s) : s.kernel.files 0 ≠ none := by
  obtain ⟨file, hfile, -⟩ := h.zero
  simp [hfile]

theorem State.enter_kept (hnew : s.kernel.files sock = none) (hfd : s.kernel.files fd ≠ none) :
    (s.enter sock).kernel.files fd = s.kernel.files fd := by
  have hne : fd ≠ sock := by
    intro he
    exact hfd (he ▸ hnew)
  simp [State.enter, hne]

theorem State.leave_kept {x : Int} (hne : x ≠ fd) :
    (s.leave fd).kernel.files x = s.kernel.files x := by
  simp [State.leave, Kernel.close, hne]

theorem Sound.enter (h : Sound listensock s) (hnew : s.kernel.files sock = none) :
    Sound listensock (s.enter sock) := by
  constructor
  · intro fd
    by_cases he : fd = sock
    · simp [State.enter, he]
    · simp [State.enter, he, h.registered fd]
  · rw [State.enter_kept hnew (by simp [h.listening]), h.listening]
  · rw [State.enter_kept hnew h.zero_ne]
    exact h.zero
  · exact h.numbered.accepted sock

theorem Sound.leave (h : Sound listensock s) (hconn : ∃ id, s.kernel.files fd = some (.conn id)) :
    Sound listensock (s.leave fd) := by
  obtain ⟨id, hid⟩ := hconn
  have hlisten : listensock ≠ fd := by
    intro he
    rw [← he, h.listening] at hid
    cases hid
  have hzero : 0 ≠ fd := by
    intro he
    obtain ⟨file, hfile, hother⟩ := h.zero
    rw [← he, hfile] at hid
    cases hid
    exact hother id rfl
  constructor
  · intro x
    by_cases he : x = fd
    · simp [State.leave, Kernel.close, he, Ne.symm hlisten]
    · simp [State.leave, Kernel.close, he, h.registered x]
  · rw [State.leave_kept hlisten, h.listening]
  · rw [State.leave_kept hzero]
    exact h.zero
  · exact h.numbered.close fd

/-- `s` is the state before the batch, `u` one in it, with the events `rest` still to come. -/
structure Pending (listensock : Int) (s : State) (rest : List (Event × Outcome)) (u : State) :
    Prop where
  sound : Sound listensock u
  apart : (rest.map (·.1.fd)).Nodup
  same : ∀ e ∈ rest, e.1.fd ∈ u.registered ∧ u.kernel.files e.1.fd = s.kernel.files e.1.fd

theorem Pending.visit (h : Pending listensock s (e :: revs) u)
    (hv : visit listensock u e = some (t, calls)) : Pending listensock s revs t := by
  obtain ⟨hfirst, hapart⟩ := List.nodup_cons.mp h.apart
  have htail : ∀ e' ∈ revs, e'.1.fd ∈ u.registered ∧
      u.kernel.files e'.1.fd = s.kernel.files e'.1.fd :=
    fun e' he' => h.same e' (List.mem_cons_of_mem e he')
  cases visit_cases h.sound.zero_ne hv with
  | idle _ _ => exact ⟨h.sound, hapart, htail⟩
  | kept _ => exact ⟨h.sound, hapart, htail⟩
  | entered sock hnew =>
    refine ⟨h.sound.enter hnew, hapart, ?_⟩
    intro e' he'
    obtain ⟨hreg, hsame⟩ := htail e' he'
    rw [State.enter_kept hnew (h.sound.registered_open hreg)]
    exact ⟨Finset.mem_insert_of_mem hreg, hsame⟩
  | left hfd =>
    have hreg := (h.same e List.mem_cons_self).1
    refine ⟨h.sound.leave (h.sound.conn_of_ne hreg hfd), hapart, ?_⟩
    intro e' he'
    obtain ⟨hreg, hsame⟩ := htail e' he'
    -- a later event is about another descriptor
    have hne : e'.1.fd ≠ e.1.fd := by
      intro he
      exact hfirst (List.mem_map.mpr ⟨e', he', he⟩)
    rw [State.leave_kept hne]
    exact ⟨Finset.mem_erase.mpr ⟨hne, hreg⟩, hsame⟩

theorem Pending.scan (h : Pending listensock s (before ++ after) s)
    (hs : Passes.scan (EpollServer.visit listensock) s before = some (u, calls)) :
    Pending listensock s after u := by
  apply scan_keeps (I := Pending listensock s) _ after h hs
  intro e revs x y calls hp hv
  exact hp.visit hv

theorem Sound.pending (h : Sound listensock s) (hw : Waited s revs) :
    Pending listensock s revs s :=
  ⟨h, hw.2.1, fun e he => ⟨hw.2.2 e he, rfl⟩⟩

theorem sound {inherited : Descriptors.Table Unit} (h : (server inherited).Reachable anyStep s) :
    Sound (boot inherited).listensock s := by
  apply h.invariant (sound_start inherited)
  intro s revs t hi _ hs
  obtain ⟨hw, calls, hu⟩ := round_eq_some hs
  have hpending : Pending (boot inherited).listensock s (revs ++ []) s := by
    rw [List.append_nil]
    exact hi.pending hw
  exact (hpending.scan hu).sound

/-- Whatever the events before it have done, an event that is read from meets the open and
registered connection it was reported for. -/
theorem never_stale {inherited : Descriptors.Table Unit}
    (h : (server inherited).Reachable anyStep s) (hw : Waited s revs)
    (hrevs : revs = before ++ after)
    (hs : scan (visit (boot inherited).listensock) s before = some (u, calls)) :
    Sound (boot inherited).listensock u ∧
      ∀ e rest, after = e :: rest →
        ∀ t calls', visit (boot inherited).listensock u e = some (t, calls') →
        ∀ fd, .recver fd ∈ calls' → fd = e.1.fd ∧ fd ∈ u.registered ∧
          ∃ id, s.kernel.files fd = some (.conn id) ∧ u.kernel.files fd = some (.conn id) := by
  subst hrevs
  have hp := ((sound h).pending hw).scan hs
  refine ⟨hp.sound, ?_⟩
  intro e rest hafter t calls' hv fd hfd
  obtain ⟨hreg, hsame⟩ := hp.same e (hafter ▸ List.mem_cons_self)
  have hreads : fd = e.1.fd ∧ e.1.fd ≠ (boot inherited).listensock := by
    cases visit_cases hp.sound.zero_ne hv with
    | idle _ hcalls => exact absurd hfd (hcalls fd)
    | entered _ _ => simp at hfd
    | kept hne => exact ⟨by simpa using hfd, hne⟩
    | left hne => exact ⟨by simpa using hfd, hne⟩
  obtain ⟨rfl, hne⟩ := hreads
  obtain ⟨id, hid⟩ := hp.sound.conn_of_ne hreg hne
  exact ⟨rfl, hreg, id, hsame ▸ hid, hid⟩

/-- One client leaves, another gets its number, and the third event still finds its own. -/
theorem never_stale_reuse : ∃ s u calls,
    (server [some (), some (), some ()]).Reachable anyStep s ∧
    scan (visit 4) s [(⟨1, 5⟩, ⟨0, 0⟩), (⟨1, 4⟩, ⟨5, 0⟩)] = some (u, calls) ∧
    s.kernel.files 5 = some (.conn 0) ∧ u.kernel.files 5 = some (.conn 2) ∧ Sound 4 u ∧
    ∃ id, s.kernel.files 6 = some (.conn id) ∧ u.kernel.files 6 = some (.conn id) := by
  let s := ((server [some (), some (), some ()]).run (start [some (), some (), some ()])
    [[(⟨1, 4⟩, ⟨5, 0⟩)], [(⟨1, 4⟩, ⟨6, 0⟩)]]).get (by decide)
  have hrun : (server [some (), some (), some ()]).Reachable anyStep s := reachable_of_run _
  let before : List (Event × Outcome) := [(⟨1, 5⟩, ⟨0, 0⟩), (⟨1, 4⟩, ⟨5, 0⟩)]
  let after : List (Event × Outcome) := [(⟨1, 6⟩, ⟨0, 7⟩)]
  let p := (scan (visit 4) s before).get (by decide)
  have hs : scan (visit 4) s before = some p := (Option.some_get _).symm
  have hw : Waited s (before ++ after) := by decide
  have hsplit : before ++ after = before ++ after := rfl
  obtain ⟨hsound, hreads⟩ := never_stale hrun hw hsplit hs
  have hconn := (hreads _ [] rfl _ _ rfl 6 List.mem_cons_self).2.2
  exact ⟨s, p.1, p.2, hrun, hs, by decide, by decide, hsound, hconn⟩

end EpollServer
